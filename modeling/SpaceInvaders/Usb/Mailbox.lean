import SpaceInvaders.Usb.Device

/-!
# Commands and acknowledges

Steps 1 and 2 send a command through the mailbox and expect `COMM_ACK`. The
outgoing mailbox is a register: it keeps its last word until the chip writes the
next, and the host's read only clears the status bit. `main` therefore has to
wait until the chip has answered. Step 1 waits for any bit of the status word,
and step 2 does not wait at all, so the word it tests can be the acknowledge of
step 1. `run_answered` shows that no test is passed without an answer as long as
the chip has answered every command by the time of the test, and that the first
test that comes earlier finds the mailbox as it was before the command.
-/

namespace SpaceInvaders.Usb

open Machine

namespace Mailbox

/-- The chip's side of the mailbox. -/
structure State where
  /-- The outgoing mailbox. -/
  word : BitVec 16
  /-- Bit 0 of `HPI_STATUS`: the mailbox has been written and not been read. -/
  full : Bool
  /-- The commands that have not been answered yet. -/
  pending : Nat
deriving Repr, DecidableEq

namespace State

/-- A read clears the status bit and leaves the word. `o` answers what the
mailbox does not. -/
def read (o : BitVec 16) (r : Register) (s : State) : BitVec 16 × State :=
  match r with
  | .mailbox => (s.word, { s with full := false })
  | .status => (o &&& 0xFFFE#16 ||| if s.full then 1#16 else 0#16, s)
  | _ => (o, s)

/-- A command waits for its answer. -/
def write (r : Register) (word : BitVec 16) (s : State) : State :=
  if r = .mailbox ∧ word = COMM_EXEC_INT then { s with pending := s.pending + 1 } else s

/-- The chip answers a command with `COMM_ACK` or `COMM_NAK`. -/
def answer (ack : Bool) (s : State) : State :=
  if s.pending = 0 then s
  else { word := if ack then COMM_ACK else COMM_NAK, full := true, pending := s.pending - 1 }

theorem read_word (o : BitVec 16) (r : Register) (s : State) : (s.read o r).2.word = s.word := by
  cases r <;> rfl

theorem write_word (r : Register) (word : BitVec 16) (s : State) :
    (s.write r word).word = s.word := by
  unfold write
  split <;> rfl

end State

/-- The chip answers each command some time after it. -/
def device : Device State (BitVec 16) Bool where
  read := State.read
  write := State.write
  event := State.answer

end Mailbox

/-- The block that has sent the command the host is waiting for. -/
def Pc.command : Pc → Option Pc
  | .stepOneStatus => some .stepOne
  | .stepOneMailbox => some .stepOne
  | .stepTwoMailbox => some .stepTwo
  | _ => none

/-- A wait begins with the command. -/
theorem Pc.command_of_succ (pc b : Pc) : ∀ q ∈ pc.succs, q.command = some b →
    (pc = b ∧ pc.lastAction = .write .mailbox COMM_EXEC_INT) ∨ pc.command = some b := by
  cases pc with
  | waitClear job => cases job <;> simp [succs, command]
  | control stage => cases stage <;> simp [succs, command]
  | _ => simp [succs, command, lastAction]

/-- A block that sends a command does not wait for one. -/
theorem Pc.command_of_lastAction {pc : Pc} (h : pc.lastAction = .write .mailbox COMM_EXEC_INT) :
    pc.command = none := by
  cases pc <;> simp_all [lastAction, command]

/-- After a command the host waits. -/
theorem Pc.command_of_pred {pc : Pc} (h : pc.lastAction = .write .mailbox COMM_EXEC_INT) :
    ∀ q ∈ pc.succs, q.command ≠ none := by
  cases pc <;> simp_all [lastAction, succs, command]

/-- A wait ends with the test of the mailbox. -/
theorem Pc.command_end {pc q : Pc} {b : Pc} (h : pc.command = some b) (hq : q ∈ pc.succs)
    (hend : q.command = none) : pc = .stepOneMailbox ∨ pc = .stepTwoMailbox := by
  cases pc <;> simp_all [succs, command]
  obtain rfl | rfl := hq <;> cases hend

@[simp] theorem Pc.inner_command (pc : Pc) :
    pc.inner (.write .mailbox COMM_EXEC_INT) = false := by
  simp [inner, COMM_EXEC_INT, COMM_RESET]

namespace Mailbox

section Spec

variable (chip : State) (events : Nat → Event (BitVec 16) Bool)

/-- The chip writes the mailbox in step `n`. -/
def Writes (n : Nat) (ack : Bool) : Prop :=
  events n = .chip ack ∧ (device.run chip events n).chip.pending ≠ 0

/-- The host makes step `n` and is about to test the mailbox. -/
def Tests (n : Nat) : Prop :=
  (∃ o, events n = .host o) ∧
    ((device.run chip events n).host.pc = .stepOneMailbox ∨
      (device.run chip events n).host.pc = .stepTwoMailbox)

/-- The host gets past the test in step `n`. -/
def Passes (n : Nat) : Prop :=
  Tests chip events n ∧
    ((device.run chip events (n + 1)).host.pc = .stepTwo ∨
      (device.run chip events (n + 1)).host.pc = .detect)

/-- The command the host is waiting for in state `n` has been sent in step `k` of
the same attempt. -/
structure SentAt (n k : Nat) : Prop where
  before : k < n
  sends : (∃ o, events k = .host o) ∧
    (device.run chip events k).action? = some (.write .mailbox COMM_EXEC_INT)
  waiting : ∀ i, k < i → i ≤ n →
    (device.run chip events i).host.pc.command = some (device.run chip events k).host.pc

/-- The chip has acknowledged the command the host is waiting for. -/
def Answered (n : Nat) : Prop :=
  ∃ k m, SentAt chip events n k ∧ k < m ∧ m < n ∧ Writes chip events m true

/-- The condition on state `n`: when the host tests the mailbox, the chip has answered
its commands. -/
def InTime (n : Nat) : Prop :=
  Tests chip events n → (device.run chip events n).chip.pending = 0

end Spec

section Run

variable {chip : State} {events : Nat → Event (BitVec 16) Bool} {k n : Nat}

/-- Only the chip writes the outgoing mailbox. -/
theorem hostStep_word {o : BitVec 16} {act : Action} {s s' : System State}
    (h : device.HostStep o s act s') : s'.chip.word = s.chip.word := by
  have hperform : ∀ act, (device.perform o act s.chip).2.word = s.chip.word := by
    intro act
    cases act with
    | read r => exact State.read_word o r _
    | write r word => exact State.write_word r word _
    | publish => rfl
  cases h with
  | inner => exact hperform _
  | last => exact hperform _

theorem run_succ_of_answer {ack : Bool} (he : events n = .chip ack) :
    (device.run chip events (n + 1)).chip = (device.run chip events n).chip.answer ack := by
  rw [Device.run_succ_of_chip he]
  rfl

/-- A host step and an event without a command to answer leave the mailbox alone. -/
theorem word_succ (h : ∀ ack, ¬Writes chip events n ack) :
    (device.run chip events (n + 1)).chip.word = (device.run chip events n).chip.word := by
  cases he : events n with
  | host o =>
      obtain ⟨act, -, hstep⟩ := Device.run_hostStep device chip he
      exact hostStep_word hstep
  | chip ack =>
      have hpending : (device.run chip events n).chip.pending = 0 := by
        by_contra hne
        exact h ack ⟨he, hne⟩
      rw [run_succ_of_answer he, State.answer, if_pos hpending]

theorem word_of_writes {ack : Bool} (h : Writes chip events n ack) :
    (device.run chip events (n + 1)).chip.word = if ack then COMM_ACK else COMM_NAK := by
  rw [run_succ_of_answer h.1, State.answer, if_neg h.2]

/-- An acknowledge that has come into the mailbox after step `k` was written after
step `k`. -/
theorem exists_ack (hwrites : ∃ m ack, k < m ∧ m < n ∧ Writes chip events m ack)
    (hword : (device.run chip events n).chip.word = COMM_ACK) :
    ∃ m, k < m ∧ m < n ∧ Writes chip events m true := by
  induction n with
  | zero =>
      obtain ⟨m, -, -, hm, -⟩ := hwrites
      exact absurd hm (Nat.not_lt_zero m)
  | succ n ih =>
      -- the last write before the test is the one whose word is read
      by_cases hlast : ∃ ack, Writes chip events n ack
      · obtain ⟨ack, hack⟩ := hlast
        rw [word_of_writes hack] at hword
        cases ack with
        | false => exact absurd hword (by decide)
        | true =>
            obtain ⟨m, -, hkm, hmn, -⟩ := hwrites
            exact ⟨n, by omega, Nat.lt_succ_self n, hack⟩
      · rw [word_succ fun ack hack => hlast ⟨ack, hack⟩] at hword
        obtain ⟨m, ack, hkm, hmn, hm⟩ := hwrites
        have hne : m ≠ n := by
          rintro rfl
          exact hlast ⟨ack, hm⟩
        obtain ⟨m', hkm', hmn', hm'⟩ := ih ⟨m, ack, hkm, by omega, hm⟩ hword
        exact ⟨m', hkm', Nat.lt_succ_of_lt hmn', hm'⟩

/-- The value the test reads is the word of the mailbox. -/
theorem passes_iff (h : Tests chip events n) :
    Passes chip events n ↔ (device.run chip events n).chip.word = COMM_ACK := by
  obtain ⟨⟨o, he⟩, hpc⟩ := id h
  obtain ⟨act, -, hstep⟩ := Device.run_hostStep device chip he
  have htodo : (device.run chip events n).host.todo = [.call (.read HPI_MAILBOX)] := by
    refine (Device.run_located n).todo_of_single ?_
    obtain hpc | hpc := hpc <;> rw [hpc] <;> rfl
  have hlast : (device.run chip events n).host.pc.lastAction = .read .mailbox := by
    obtain hpc | hpc := hpc <;> rw [hpc] <;> rfl
  have hhost := hstep.enter_of_single htodo
  rw [hlast, Action.after_read] at hhost
  have hread : (device.perform o (.read .mailbox) (device.run chip events n).chip).1 =
      (device.run chip events n).chip.word := rfl
  rw [Passes, hhost, and_iff_right h, hread]
  obtain hpc | hpc := hpc
  · simp only [hpc, next, Host.enter]
    split <;> simp_all
  · simp only [hpc, next, Host.enter]
    split <;> simp_all

/-- Before its command the host does not wait. -/
theorem SentAt.idle (h : SentAt chip events n k) :
    (device.run chip events k).host.pc.command = none := by
  obtain ⟨hlast, -⟩ := (Device.run_located k).last h.sends.2 (Pc.inner_command _)
  exact Pc.command_of_lastAction hlast

/-- A host that waits for an answer has sent its command. -/
theorem exists_sentAt {b : Pc} (h : (device.run chip events n).host.pc.command = some b) :
    ∃ k, SentAt chip events n k := by
  have hstart : ¬Pc.command .resetMailbox = some b := fun h => by cases h
  obtain ⟨k, hk⟩ : ∃ k, device.EnteredAt chip events (fun pc => pc.command = some b) n k :=
    Device.exists_enteredAt hstart h
  obtain ⟨rfl, hsends⟩ | hprev := Pc.command_of_succ _ _ _ hk.succ
    (hk.inside (k + 1) (Nat.lt_succ_self k) hk.before)
  · exact ⟨k, hk.before, ⟨hk.host, hsends ▸ hk.action⟩, hk.inside⟩
  · exact absurd hprev hk.outside

/-- A command adds to the commands without an answer, and no other host step does. -/
theorem hostStep_pending {o : BitVec 16} {act : Action} {s s' : System State}
    (h : device.HostStep o s act s') :
    s'.chip.pending =
      if act = .write .mailbox COMM_EXEC_INT then s.chip.pending + 1 else s.chip.pending := by
  rw [h.chip_eq]
  cases act with
  | read r => cases r <;> rfl
  | write r word =>
      change (s.chip.write r word).pending = _
      simp only [State.write, Action.write.injEq]
      split <;> rfl
  | publish => rfl

/-- Where the host waits for an answer it sends no command. -/
theorem not_sends_of_waits {b : Pc} (hwaits : (device.run chip events n).host.pc.command = some b) :
    (device.run chip events n).action? ≠ some (.write .mailbox COMM_EXEC_INT) := by
  intro hact
  obtain ⟨hlast, -⟩ := (Device.run_located n).last hact (Pc.inner_command _)
  rw [Pc.command_of_lastAction hlast] at hwaits
  cases hwaits

/-- While the host waits, only an answer changes the number of open commands. -/
theorem pending_succ {b : Pc} (hwaits : (device.run chip events n).host.pc.command = some b) :
    ((∀ ack, ¬Writes chip events n ack) ∧
        (device.run chip events (n + 1)).chip.pending = (device.run chip events n).chip.pending) ∨
      (∃ ack, Writes chip events n ack) ∧
        (device.run chip events (n + 1)).chip.pending + 1 =
          (device.run chip events n).chip.pending := by
  cases he : events n with
  | host o =>
      obtain ⟨act, hact, hstep⟩ := Device.run_hostStep device chip he
      have hsends := not_sends_of_waits hwaits
      rw [hact] at hsends
      rw [hostStep_pending hstep, if_neg fun h => hsends (congrArg some h)]
      refine .inl ⟨?_, rfl⟩
      rintro ack ⟨hchip, -⟩
      rw [he] at hchip
      cases hchip
  | chip ack =>
      rw [run_succ_of_answer he, State.answer]
      split
      · next hzero => exact .inl ⟨fun _ hwrites => hwrites.2 hzero, rfl⟩
      · next hne => exact .inr ⟨⟨ack, he, hne⟩, Nat.sub_add_cancel (Nat.pos_of_ne_zero hne)⟩

/-- The command is open right after it has been sent. -/
theorem SentAt.pending (h : SentAt chip events n k) :
    (device.run chip events (k + 1)).chip.pending =
      (device.run chip events k).chip.pending + 1 := by
  obtain ⟨o, he⟩ := h.sends.1
  obtain ⟨act, hact, hstep⟩ := Device.run_hostStep device chip he
  obtain rfl := Option.some.inj (hact.symm.trans h.sends.2)
  rw [hostStep_pending hstep, if_pos rfl]

/-- The number of open commands tells whether the chip has answered since the command. -/
theorem SentAt.answered_or (h : SentAt chip events n k) {m : Nat} (hkm : k < m) (hmn : m ≤ n) :
    ((∃ i ack, k < i ∧ i < m ∧ Writes chip events i ack) ∧
        (device.run chip events m).chip.pending ≤ (device.run chip events k).chip.pending) ∨
      (∀ i ack, k < i → i < m → ¬Writes chip events i ack) ∧
        (device.run chip events m).chip.pending =
          (device.run chip events k).chip.pending + 1 := by
  induction m, hkm using Nat.le_induction with
  | base => exact .inr ⟨fun i ack hki hi => absurd hi (Nat.not_lt.2 hki), h.pending⟩
  | succ m hkm ih =>
      have hwaits := h.waiting m hkm (Nat.le_of_lt hmn)
      obtain ⟨⟨i, ack, hki, him, hi⟩, hle⟩ | ⟨hnone, heq⟩ := ih (Nat.le_of_lt hmn)
      · refine .inl ⟨⟨i, ack, hki, Nat.lt_succ_of_lt him, hi⟩, ?_⟩
        obtain ⟨-, hsame⟩ | ⟨-, hless⟩ := pending_succ hwaits <;> omega
      · obtain ⟨hnot, hsame⟩ | ⟨⟨ack, hack⟩, hless⟩ := pending_succ hwaits
        · refine .inr ⟨?_, hsame.trans heq⟩
          intro i ack hki hi
          obtain rfl | hlt := Nat.eq_or_lt_of_le (Nat.le_of_lt_succ hi)
          · exact hnot ack
          · exact hnone i ack hki hlt
        · exact .inl ⟨⟨m, ack, hkm, Nat.lt_succ_self m, hack⟩, by omega⟩

/-- As long as tests are in time, commands are open only while the host waits. -/
theorem run_pending (hpending : chip.pending = 0) (hin : ∀ k, k < n → InTime chip events k) :
    (device.run chip events n).host.pc.command = none →
      (device.run chip events n).chip.pending = 0 := by
  induction n with
  | zero => exact fun _ => hpending
  | succ n ih =>
      intro hidle
      have ih := ih fun k hk => hin k (Nat.lt_succ_of_lt hk)
      cases he : events n with
      | chip ack =>
          rw [Device.run_succ_of_chip he] at hidle
          rw [run_succ_of_answer he, State.answer, if_pos (ih hidle)]
          exact ih hidle
      | host o =>
          obtain ⟨act, hact, hstep⟩ := Device.run_hostStep device chip he
          have hsends : act ≠ .write .mailbox COMM_EXEC_INT := by
            rintro rfl
            obtain ⟨-, hinner⟩ | ⟨hsucc, hlast⟩ := hstep.pc_cases
            · rw [Pc.inner_command] at hinner
              cases hinner
            · exact Pc.command_of_pred hlast.symm _ hsucc hidle
          rw [hostStep_pending hstep, if_neg hsends]
          cases hwaits : (device.run chip events n).host.pc.command with
          | none => exact ih hwaits
          | some b =>
              -- the wait has just ended with a test
              obtain ⟨hpc, -⟩ | ⟨hsucc, -⟩ := hstep.pc_cases
              · rw [hpc, hwaits] at hidle
                cases hidle
              · exact hin n (Nat.lt_succ_self n) ⟨⟨o, he⟩, Pc.command_end hwaits hsucc hidle⟩

/-- The host waits for the answer when it tests the mailbox. -/
theorem Tests.exists_sentAt (h : Tests chip events n) : ∃ k, SentAt chip events n k := by
  obtain ⟨-, hpc | hpc⟩ := h
  · exact Mailbox.exists_sentAt (b := .stepOne) (by rw [hpc]; rfl)
  · exact Mailbox.exists_sentAt (b := .stepTwo) (by rw [hpc]; rfl)

/-- In every run in which the chip has answered by the time of the tests, the host gets past
no test without the answer to its own command. The first test that comes earlier has no
answer, and is passed if an acknowledge is left in the mailbox. -/
theorem run_answered (chip : State) (events : Nat → Event (BitVec 16) Bool) (N : Nat)
    (hin : ∀ n, n < N → InTime chip events n) :
    (∀ n, n < N → Passes chip events n → Answered chip events n) ∧
      (chip.pending = 0 → Tests chip events N → ¬InTime chip events N →
        ¬Answered chip events N ∧
          (Passes chip events N ↔ (device.run chip events N).chip.word = COMM_ACK)) := by
  constructor
  · intro n hn hpasses
    have hword := (passes_iff hpasses.1).1 hpasses
    obtain ⟨k, hk⟩ := hpasses.1.exists_sentAt
    obtain ⟨hwrites, -⟩ | ⟨-, hopen⟩ := hk.answered_or hk.before (Nat.le_refl n)
    · obtain ⟨m, hkm, hmn, hm⟩ := exists_ack hwrites hword
      exact ⟨k, m, hk, hkm, hmn, hm⟩
    · rw [hin n hn hpasses.1] at hopen
      cases hopen
  · intro hpending htests hearly
    refine ⟨?_, passes_iff htests⟩
    rintro ⟨k, m, hk, hkm, hmn, hm⟩
    have hclosed : (device.run chip events k).chip.pending = 0 :=
      run_pending hpending (fun i hi => hin i (Nat.lt_trans hi hk.before)) hk.idle
    obtain ⟨-, hle⟩ | ⟨hnone, -⟩ := hk.answered_or hk.before (Nat.le_refl N)
    · exact hearly fun _ => Nat.eq_zero_of_le_zero (hclosed ▸ hle)
    · exact hnone m true hkm hmn hm

/-- The chip acknowledges both commands right after them. -/
def atOnce (n : Nat) : Event (BitVec 16) Bool :=
  if n = 56 ∨ n = 90 then .chip true else .host 0#16

theorem run_answered_atOnce :
    Passes ⟨0#16, false, 0⟩ atOnce 91 ∧
      ∀ n, n < 92 → Passes ⟨0#16, false, 0⟩ atOnce n → Answered ⟨0#16, false, 0⟩ atOnce n := by
  have hpending : ∀ n, n < 92 → n ≠ 56 → n ≠ 90 →
      ((device.run ⟨0#16, false, 0⟩ atOnce n).host.pc = .stepOneMailbox ∨
        (device.run ⟨0#16, false, 0⟩ atOnce n).host.pc = .stepTwoMailbox) →
      (device.run ⟨0#16, false, 0⟩ atOnce n).chip.pending = 0 := by
    decide +kernel
  refine ⟨⟨⟨⟨0#16, rfl⟩, .inr (by decide +kernel)⟩, .inr (by decide +kernel)⟩, ?_⟩
  refine (run_answered ⟨0#16, false, 0⟩ atOnce 92 ?_).1
  rintro n hn ⟨⟨o, ho⟩, hpc⟩
  refine hpending n hn ?_ ?_ hpc
  · rintro rfl
    cases ho
  · rintro rfl
    cases ho

/-- The chip acknowledges both commands, the second one a step after its test. -/
def lateAnswer (n : Nat) : Event (BitVec 16) Bool :=
  if n = 56 ∨ n = 91 then .chip true else .host 0#16

/-- Step 2 takes the acknowledge of step 1 for its own. -/
theorem run_answered_fails :
    ¬∀ (chip : State) (events : Nat → Event (BitVec 16) Bool) (n : Nat),
      Passes chip events n → Answered chip events n := by
  intro h
  have hpasses : Passes ⟨0#16, false, 0⟩ lateAnswer 90 :=
    ⟨⟨⟨0#16, rfl⟩, .inr (by decide +kernel)⟩, .inr (by decide +kernel)⟩
  obtain ⟨k, m, hk, hkm, hm, hack, -⟩ := h _ _ 90 hpasses
  have hm : m = 56 := by
    unfold lateAnswer at hack
    split at hack
    · omega
    · cases hack
  rw [hm] at hkm
  have hone : (device.run ⟨0#16, false, 0⟩ lateAnswer 56).host.pc.command = some .stepOne := by
    decide +kernel
  have htwo : (device.run ⟨0#16, false, 0⟩ lateAnswer 90).host.pc.command = some .stepTwo := by
    decide +kernel
  have hsame :=
    (hk.waiting 56 hkm (by decide)).trans (hk.waiting 90 hk.before (Nat.le_refl 90)).symm
  rw [hone, htwo] at hsame
  cases hsame

end Run

end Mailbox

end SpaceInvaders.Usb
