import SpaceInvaders.Machine.Stream
import Mathlib.Data.BitVec

/-!
# Waiting for a transfer list: `UsbWaitTDListDone`

Host and chip share the SIE1 message register. The chip may OR message bits into
it at any moment; the host polls it with a read, clears it with a separate
write, and leaves the loop when the word it has read is exactly
`HUSB_TDListDone`. A run is an arbitrary interleaving of atomic steps: a read or
a write of the host, or a post of the chip.

Read and clear are two bus transactions and the test compares the whole word, so
a completion can be erased unseen: when it is posted between the two, and when
it is read together with another message bit. `wait_nothingLost` shows that
these are the only ways to lose one.
-/

namespace SpaceInvaders.Usb

open Machine

def HUSB_TDListDone : BitVec 16 := 0x1000#16

/-- The bit of `HUSB_TDListDone` is set in a message word. -/
def tdListDone (word : BitVec 16) : Bool := word.getLsbD 12

namespace WaitTDListDone

/-- Where the host is, with the value of `usb_ctl_val`. -/
inductive Host where
  /-- Before `usb_ctl_val = UsbRead(HPI_SIE1_MSG_ADR)`. -/
  | reading
  /-- Before `UsbWrite(HPI_SIE1_MSG_ADR, 0)`. -/
  | clearing (usbCtlVal : BitVec 16)
  /-- After `return usb_ctl_val`. -/
  | returned (usbCtlVal : BitVec 16)
deriving Repr, DecidableEq

structure State where
  /-- The SIE1 message register. -/
  msg : BitVec 16
  host : Host
deriving Repr, DecidableEq

/-- Who takes the next step. -/
inductive Event where
  | host
  /-- The chip ORs `bits` into the message register. -/
  | chip (bits : BitVec 16)
deriving Repr, DecidableEq

namespace State

/-- The next bus transaction of the host, and the test of the loop after the
clear. -/
def hostStep (s : State) : State :=
  match s.host with
  | .reading => { s with host := .clearing s.msg }
  | .clearing usbCtlVal =>
    { msg := 0#16
      host := if usbCtlVal ≠ HUSB_TDListDone then .reading else .returned usbCtlVal }
  | .returned _ => s

def step (e : Event) (s : State) : State :=
  match e with
  | .host => s.hostStep
  | .chip bits => { s with msg := s.msg ||| bits }

end State

/-- The state after `n` steps of a run that enters the function with `msg₀` in
the register. -/
def run (msg₀ : BitVec 16) (events : Nat → Event) (n : Nat) : State :=
  stateAt State.step events ⟨msg₀, .reading⟩ n

section Spec

variable (msg₀ : BitVec 16) (events : Nat → Event)

/-- In state `n` a completion has just been posted. One that is in the register
at the beginning counts as posted then. -/
def Posted : Nat → Prop
  | 0 => tdListDone msg₀ = true
  | n + 1 => ∃ bits, events n = .chip bits ∧ tdListDone bits = true

/-- Step `n` is the read of `word`. -/
def Reads (n : Nat) (word : BitVec 16) : Prop :=
  events n = .host ∧ (run msg₀ events n).host = .reading ∧ (run msg₀ events n).msg = word

/-- Step `n` is a clear. -/
def Clears (n : Nat) : Prop :=
  events n = .host ∧ ∃ word, (run msg₀ events n).host = .clearing word

/-- In the first `N` steps no completion is lost. -/
structure NothingLost (N : Nat) : Prop where
  /-- A posted completion is not erased before a read has ended the wait. -/
  noneErased : ∀ m n, Posted msg₀ events m → m ≤ n → n < N → Clears msg₀ events n →
    ∃ k, m ≤ k ∧ k < n ∧ Reads msg₀ events k HUSB_TDListDone
  /-- The wait has returned when the host has made two steps after the post. -/
  waitReturns : ∀ m a b, Posted msg₀ events m → m ≤ a → a < b → b < N → events a = .host →
    events b = .host → (run msg₀ events N).host = .returned HUSB_TDListDone

/-- The host is not between a read and its clear. -/
def Settled (n : Nat) : Prop := ∀ word, (run msg₀ events n).host ≠ .clearing word

end Spec

/-- The condition on a step `e` in state `s` under which nothing is lost. -/
structure StepMeets (s : State) (e : Event) : Prop where
  /-- No completion is posted between a read and its clear. -/
  post : ∀ bits word, e = .chip bits → s.host = .clearing word → tdListDone bits = false
  /-- A completion is read without any other message bit. -/
  read : e = .host → s.host = .reading → tdListDone s.msg = true → s.msg = HUSB_TDListDone

/-- The first `N` steps meet the condition. -/
def RunMeets (msg₀ : BitVec 16) (events : Nat → Event) (N : Nat) : Prop :=
  ∀ n, n < N → StepMeets (run msg₀ events n) (events n)

theorem RunMeets.mono {msg₀ : BitVec 16} {events : Nat → Event} {M N : Nat}
    (h : RunMeets msg₀ events N) (hMN : M ≤ N) : RunMeets msg₀ events M :=
  fun n hn => h n (Nat.lt_of_lt_of_le hn hMN)

section Steps

variable {s : State} {word : BitVec 16}

theorem tdListDone_or (a b : BitVec 16) :
    tdListDone (a ||| b) = (tdListDone a || tdListDone b) := BitVec.getLsbD_or

/-- A read takes the word to the clear. -/
theorem step_of_reading (hs : s.host = .reading) : s.step .host = ⟨s.msg, .clearing s.msg⟩ := by
  rw [State.step, State.hostStep, hs]

/-- A clear erases the register and ends the wait or starts the next read. -/
theorem step_of_clearing (hs : s.host = .clearing word) :
    s.step .host = ⟨0#16, if word ≠ HUSB_TDListDone then .reading else .returned word⟩ := by
  rw [State.step, State.hostStep, hs]

theorem step_of_returned (hs : s.host = .returned word) : s.step .host = s := by
  rw [State.step, State.hostStep, hs]

/-- The function returns nothing but `HUSB_TDListDone`. -/
def ReturnsTDListDone (s : State) : Prop :=
  ∀ word, s.host = .returned word → word = HUSB_TDListDone

theorem ReturnsTDListDone.step (h : ReturnsTDListDone s) (e : Event) :
    ReturnsTDListDone (s.step e) := by
  intro word hword
  cases e with
  | chip bits => exact h word hword
  | host =>
      cases hs : s.host with
      | reading =>
          rw [step_of_reading hs] at hword
          exact Host.noConfusion hword
      | clearing usbCtlVal =>
          rw [step_of_clearing hs] at hword
          by_cases hval : usbCtlVal = HUSB_TDListDone
          · rw [if_neg (not_not.2 hval)] at hword
            exact (Host.returned.inj hword).symm.trans hval
          · rw [if_pos hval] at hword
            exact Host.noConfusion hword
      | returned _ =>
          rw [step_of_returned hs] at hword
          exact h word hword

end Steps

section Run

variable {msg₀ : BitVec 16} {events : Nat → Event} {m n N : Nat}

theorem run_succ (n : Nat) :
    run msg₀ events (n + 1) = (run msg₀ events n).step (events n) := rfl

theorem run_returns (n : Nat) : ReturnsTDListDone (run msg₀ events n) := by
  refine stateAt_invariant (P := fun _ s => ReturnsTDListDone s) ?_ ?_ n
  · intro word h
    exact Host.noConfusion h
  · intro n ih
    exact ih.step (events n)

theorem run_succ_of_chip {bits : BitVec 16} (he : events n = .chip bits) :
    run msg₀ events (n + 1) =
      ⟨(run msg₀ events n).msg ||| bits, (run msg₀ events n).host⟩ := by
  rw [run_succ, he]
  rfl

/-- Once the host has returned, it stays there. -/
theorem returned_of_le {word : BitVec 16} (hm : (run msg₀ events m).host = .returned word)
    (hmn : m ≤ n) : (run msg₀ events n).host = .returned word := by
  refine stateAt_invariant_from (P := fun _ (s : State) => s.host = .returned word) hm ?_ hmn
  intro n _ hn
  cases events n with
  | chip bits => exact hn
  | host => rw [step_of_returned hn, hn]

/-- The host is about to clear in all states from `m` to `n`. -/
def ClearingFrom (msg₀ : BitVec 16) (events : Nat → Event) (word : BitVec 16) (m n : Nat) : Prop :=
  ∀ i, m ≤ i → i ≤ n → (run msg₀ events i).host = .clearing word

/-- Before a clear, the host stays there until its next step. -/
theorem clearing_or_cleared {word : BitVec 16} (hm : (run msg₀ events m).host = .clearing word)
    (hmn : m ≤ n) :
    ClearingFrom msg₀ events word m n ∨
      ∃ j, m ≤ j ∧ j < n ∧ events j = .host ∧ ClearingFrom msg₀ events word m j := by
  induction n, hmn using Nat.le_induction with
  | base =>
      left
      intro i hmi him
      rw [Nat.le_antisymm him hmi]
      exact hm
  | succ n hmn ih =>
      obtain hstays | ⟨j, hmj, hjn, he, hstays⟩ := ih
      · cases he : events n with
        | host => exact .inr ⟨n, hmn, Nat.lt_succ_self n, he, hstays⟩
        | chip bits =>
            left
            intro i hmi hin
            obtain rfl | hlt := Nat.eq_or_lt_of_le hin
            · rw [run_succ_of_chip he]
              exact hstays n hmn (Nat.le_refl n)
            · exact hstays i hmi (Nat.le_of_lt_succ hlt)
      · exact .inr ⟨j, hmj, Nat.lt_succ_of_lt hjn, he, hstays⟩

/-- So a host that is settled later has made the clear. -/
theorem exists_clear {word : BitVec 16} (hm : (run msg₀ events m).host = .clearing word)
    (hmn : m ≤ n) (hsettled : Settled msg₀ events n) :
    ∃ j, m ≤ j ∧ j < n ∧ Clears msg₀ events j ∧ ClearingFrom msg₀ events word m j := by
  obtain hstays | ⟨j, hmj, hjn, he, hstays⟩ := clearing_or_cleared hm hmn
  · exact absurd (hstays n hmn (Nat.le_refl n)) (hsettled word)
  · exact ⟨j, hmj, hjn, ⟨he, word, hstays j hmj (Nat.le_refl j)⟩, hstays⟩

/-- A post finds the host before a read, or returned. -/
theorem Posted.waits (hpost : Posted msg₀ events m) (hmeets : RunMeets msg₀ events m) :
    ((run msg₀ events m).host = .reading ∧ tdListDone (run msg₀ events m).msg = true) ∨
      (run msg₀ events m).host = .returned HUSB_TDListDone := by
  cases m with
  | zero => exact .inl ⟨rfl, hpost⟩
  | succ m =>
      obtain ⟨bits, he, hbits⟩ := hpost
      have hstep := hmeets m (Nat.lt_succ_self m)
      rw [run_succ_of_chip he]
      cases hhost : (run msg₀ events m).host with
      | reading =>
          refine .inl ⟨rfl, ?_⟩
          rw [tdListDone_or, hbits, Bool.or_true]
      | clearing word =>
          exact Bool.noConfusion (hbits.symm.trans (hstep.post bits word he hhost))
      | returned word =>
          rw [run_returns m word hhost]
          exact .inr rfl

/-- The completion waits in the register until the read that ends the wait. -/
theorem waits_or_read (hm : (run msg₀ events m).host = .reading)
    (hbit : tdListDone (run msg₀ events m).msg = true) (hmn : m ≤ n)
    (hmeets : RunMeets msg₀ events n) :
    ((run msg₀ events n).host = .reading ∧ tdListDone (run msg₀ events n).msg = true) ∨
      ∃ k, m ≤ k ∧ k < n ∧ Reads msg₀ events k HUSB_TDListDone := by
  induction n, hmn using Nat.le_induction with
  | base => exact .inl ⟨hm, hbit⟩
  | succ n hmn ih =>
      obtain ⟨hreading, hbit⟩ | ⟨k, hmk, hkn, hread⟩ := ih (hmeets.mono (Nat.le_succ n))
      · cases he : events n with
        | chip bits =>
            rw [run_succ_of_chip he]
            refine .inl ⟨hreading, ?_⟩
            rw [tdListDone_or, hbit, Bool.true_or]
        | host =>
            have hstep := hmeets n (Nat.lt_succ_self n)
            exact .inr ⟨n, hmn, Nat.lt_succ_self n, he, hreading, hstep.read he hreading hbit⟩
      · exact .inr ⟨k, hmk, Nat.lt_succ_of_lt hkn, hread⟩

/-- After the read that ends the wait, the next host step returns. -/
theorem Reads.returned {k b : Nat} (hread : Reads msg₀ events k HUSB_TDListDone) (hkb : k < b)
    (hb : events b = .host) : (run msg₀ events (b + 1)).host = .returned HUSB_TDListDone := by
  obtain ⟨he, hreading, hword⟩ := hread
  have hnext : (run msg₀ events (k + 1)).host = .clearing HUSB_TDListDone := by
    rw [run_succ, he, step_of_reading hreading, hword]
  have hclear : ∀ j, events j = .host → (run msg₀ events j).host = .clearing HUSB_TDListDone →
      (run msg₀ events (j + 1)).host = .returned HUSB_TDListDone := by
    intro j hj hclearing
    rw [run_succ, hj, step_of_clearing hclearing, if_neg (not_not.2 rfl)]
  obtain hstays | ⟨j, hkj, hjb, hj, hstays⟩ := clearing_or_cleared hnext hkb
  · exact hclear b hb (hstays b hkb (Nat.le_refl b))
  · exact returned_of_le (hclear j hj (hstays j hkj (Nat.le_refl j))) (by omega)

/-- A run that meets the condition loses nothing. -/
theorem RunMeets.nothingLost (hmeets : RunMeets msg₀ events N) : NothingLost msg₀ events N where
  noneErased m n hpost hmn hn hclears := by
    obtain ⟨-, word, hclearing⟩ := hclears
    obtain ⟨hreading, hbit⟩ | hreturned := hpost.waits (hmeets.mono (by omega))
    · obtain ⟨hreading', -⟩ | hread := waits_or_read hreading hbit hmn (hmeets.mono (by omega))
      · exact Host.noConfusion (hreading'.symm.trans hclearing)
      · exact hread
    · exact Host.noConfusion ((returned_of_le hreturned hmn).symm.trans hclearing)
  waitReturns m a b hpost hma hab hb hea heb := by
    obtain ⟨hreading, hbit⟩ | hreturned := hpost.waits (hmeets.mono (by omega))
    · have hread : ∃ k, k < b ∧ Reads msg₀ events k HUSB_TDListDone := by
        obtain ⟨hreading', hbit'⟩ | ⟨k, -, hka, hread⟩ :=
          waits_or_read hreading hbit hma (hmeets.mono (by omega))
        · have hword := (hmeets a (by omega)).read hea hreading' hbit'
          exact ⟨a, hab, hea, hreading', hword⟩
        · exact ⟨k, by omega, hread⟩
      obtain ⟨k, hkb, hread⟩ := hread
      exact returned_of_le (hread.returned hkb heb) hb
    · exact returned_of_le hreturned (by omega)

/-- A completion in the register has been posted, and no clear has come after
the post. -/
theorem exists_posted (hbit : tdListDone (run msg₀ events n).msg = true) :
    ∃ m, m ≤ n ∧ Posted msg₀ events m ∧ ∀ k, m ≤ k → k < n → ¬Clears msg₀ events k := by
  induction n with
  | zero => exact ⟨0, Nat.le_refl 0, hbit, fun k _ hk => absurd hk (Nat.not_lt_zero k)⟩
  | succ n ih =>
      -- a completion that was there before step `n` was posted before it
      have hkept : tdListDone (run msg₀ events n).msg = true → ¬Clears msg₀ events n →
          ∃ m, m ≤ n + 1 ∧ Posted msg₀ events m ∧
            ∀ k, m ≤ k → k < n + 1 → ¬Clears msg₀ events k := by
        intro hbit hn
        obtain ⟨m, hmn, hpost, hclear⟩ := ih hbit
        refine ⟨m, Nat.le_succ_of_le hmn, hpost, ?_⟩
        intro k hmk hk
        obtain rfl | hlt := Nat.eq_or_lt_of_le (Nat.le_of_lt_succ hk)
        · exact hn
        · exact hclear k hmk hlt
      cases he : events n with
      | chip bits =>
          rw [run_succ_of_chip he, tdListDone_or, Bool.or_eq_true] at hbit
          obtain hbit | hbit := hbit
          · refine hkept hbit ?_
            rintro ⟨hhost, -⟩
            exact Event.noConfusion (he.symm.trans hhost)
          · refine ⟨n + 1, Nat.le_refl _, ⟨bits, he, hbit⟩, ?_⟩
            intro k hnk hk
            omega
      | host =>
          rw [run_succ, he] at hbit
          cases hhost : (run msg₀ events n).host with
          | reading =>
              rw [step_of_reading hhost] at hbit
              refine hkept hbit ?_
              rintro ⟨-, word, hword⟩
              exact Host.noConfusion (hhost.symm.trans hword)
          | clearing word =>
              rw [step_of_clearing hhost] at hbit
              have hzero : tdListDone 0#16 = true := hbit
              exact absurd hzero (by decide)
          | returned word =>
              rw [step_of_returned hhost] at hbit
              refine hkept hbit ?_
              rintro ⟨-, word', hword⟩
              exact Host.noConfusion (hhost.symm.trans hword)

/-- A run that loses nothing meets the condition, up to a state in which the
host is not between a read and its clear. -/
theorem NothingLost.runMeets (h : NothingLost msg₀ events N) (hsettled : Settled msg₀ events N) :
    RunMeets msg₀ events N := by
  intro n hn
  constructor
  · -- a completion posted before the clear is erased by it
    intro bits word he hclearing
    by_contra hbit
    have hpost : Posted msg₀ events (n + 1) := ⟨bits, he, Bool.eq_true_of_not_eq_false hbit⟩
    have hnext : (run msg₀ events (n + 1)).host = .clearing word := by
      rw [run_succ_of_chip he, hclearing]
    obtain ⟨j, hnj, hj, hclears, hstays⟩ := exists_clear hnext hn hsettled
    obtain ⟨k, hnk, hkj, -, hreading, -⟩ := h.noneErased (n + 1) j hpost hnj hj hclears
    exact Host.noConfusion (hreading.symm.trans (hstays k hnk (Nat.le_of_lt hkj)))
  · -- a completion read with other bits is erased by the clear after the read
    intro he hreading hbit
    by_contra hword
    obtain ⟨m, hmn, hpost, hclear⟩ := exists_posted hbit
    have hnext : ∀ k, events k = .host → (run msg₀ events k).host = .reading →
        (run msg₀ events (k + 1)).host = .clearing (run msg₀ events k).msg := by
      intro k hek hk
      rw [run_succ, hek, step_of_reading hk]
    obtain ⟨j, hnj, hj, hclears, hstays⟩ := exists_clear (hnext n he hreading) hn hsettled
    obtain ⟨k, hmk, hkj, hek, hkreading, hkword⟩ :=
      h.noneErased m j hpost (by omega) hj hclears
    obtain hlt | rfl | hgt := Nat.lt_trichotomy k n
    · have hn : Settled msg₀ events n := fun word hw => Host.noConfusion (hreading.symm.trans hw)
      obtain ⟨i, hki, hin, hcleared, -⟩ := exists_clear (hnext k hek hkreading) hlt hn
      exact hclear i (by omega) hin hcleared
    · exact hword hkword
    · exact Host.noConfusion (hkreading.symm.trans (hstays k hgt (Nat.le_of_lt hkj)))

end Run

/-- No completion is lost in a run whose steps all meet the condition; and if a
step does not meet it, one is lost by the time the host has made its clear. -/
theorem wait_nothingLost (msg₀ : BitVec 16) (events : Nat → Event) (N : Nat) :
    (RunMeets msg₀ events N → NothingLost msg₀ events N) ∧
      (Settled msg₀ events N → NothingLost msg₀ events N → RunMeets msg₀ events N) :=
  ⟨fun h => h.nothingLost, fun hsettled h => h.runMeets hsettled⟩

/-- The chip posts its completion between the first read and the clear. -/
def postBeforeClear : Nat → Event
  | 1 => .chip HUSB_TDListDone
  | _ => .host

theorem postBeforeClear_loses :
    ¬∀ (msg₀ : BitVec 16) (events : Nat → Event) (N : Nat), NothingLost msg₀ events N := by
  intro h
  have hclears : Clears 0#16 postBeforeClear 2 := ⟨rfl, 0#16, by decide⟩
  obtain ⟨k, hk, hk', -⟩ := (h 0#16 postBeforeClear 3).noneErased 2 2
    ⟨HUSB_TDListDone, rfl, by decide⟩ (Nat.le_refl 2) (by decide) hclears
  omega

end WaitTDListDone

end SpaceInvaders.Usb
