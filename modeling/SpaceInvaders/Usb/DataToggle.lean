import SpaceInvaders.Usb.Memory
import SpaceInvaders.Usb.Session

/-!
# The data toggle of the polls

A keyboard expects the interrupt transfers of a session to alternate between
DATA0 and DATA1, beginning with DATA0 after every enumeration. `main` takes the
parity of the counter `toggle`, which it increments at the head of the polling
loop and which wraps after 256 polls, so the polls of a session do alternate.

The counter is set to 0 once, before `USB_HOT_PLUG`, and the way back to that
label does not pass the initialisation. A session after one with an odd number of
polls begins with DATA1. `run_alternates` needs the counter to be even whenever
an enumeration is completed.
-/

namespace SpaceInvaders.Usb

open Machine

section Spec

variable (mem : Memory) (events : Nat → Event Response Empty)

/-- The number of polls begun since the last enumeration was completed. -/
def polls : Nat → Nat
  | 0 => 0
  | n + 1 =>
    let s := memoryChip.run mem events n
    let s' := memoryChip.run mem events (n + 1)
    if CompletesEnumeration s s' then 1
    else if BeginsPoll s s' then polls n + 1
    else polls n

/-- The control word of poll number `k` of a session: DATA0 for the first, then in turn. -/
def controlWord (k : Nat) : BitVec 16 := if k % 2 = 1 then 0x0001#16 else 0x0041#16

/-- If the host is about to submit a poll, for the first time or again, the
control word of its descriptor is the one of the current poll. -/
def Alternates (n : Nat) : Prop :=
  let s := memoryChip.run mem events n
  ∀ p, s.host.pc = .submit .polling ∨ s.host.pc = .resubmit .polling →
    s.action? = some (.write (.memory HUSB_SIE1_pCurrentTDPtr) p) →
      s.chip (p + 6#16) = controlWord (polls mem events n)

/-- The condition on step `n`: an enumeration is completed with an even counter. -/
def EvenStart (n : Nat) : Prop :=
  CompletesEnumeration (memoryChip.run mem events n) (memoryChip.run mem events (n + 1)) →
    (memoryChip.run mem events n).host.locals.toggle.toNat % 2 = 0

end Spec

section Run

variable {mem : Memory} {events : Nat → Event Response Empty} {n : Nat}

/-- The parity of the counter is that of the number of polls, in spite of the wrap. -/
theorem toNat_add_one_mod_two (t : BitVec 8) : (t + 1#8).toNat % 2 = (t.toNat + 1) % 2 := by
  rw [BitVec.toNat_add]
  simp only [BitVec.toNat_ofNat]
  omega

/-- In the polling loop the counter has the parity of the number of polls. -/
def Counts (mem : Memory) (events : Nat → Event Response Empty) (n : Nat) (s : System Memory) :
    Prop :=
  s.host.pc.isPolling = true → s.host.locals.toggle.toNat % 2 = polls mem events n % 2

theorem polls_succ_of_pc_eq
    (h : (memoryChip.run mem events (n + 1)).host.pc = (memoryChip.run mem events n).host.pc) :
    polls mem events (n + 1) = polls mem events n := by
  have hcompletes := not_completesEnumeration h
  have hbegins : ¬BeginsPoll (memoryChip.run mem events n) (memoryChip.run mem events (n + 1)) := by
    rintro ⟨hpc, hpc'⟩
    rw [h] at hpc'
    exact hpc hpc'
  rw [polls, if_neg hcompletes, if_neg hbegins]

/-- The end of a block: a poll is counted when the counter is incremented. -/
theorem Counts.next (hcounts : Counts mem events n (memoryChip.run mem events n))
    (heven : EvenStart mem events n) {l : Locals}
    (hl : l.toggle = (memoryChip.run mem events n).host.locals.toggle)
    (hhost : (memoryChip.run mem events (n + 1)).host =
      .enter (next (memoryChip.run mem events n).host.pc l)) :
    Counts mem events (n + 1) (memoryChip.run mem events (n + 1)) := by
  have hpc' : (memoryChip.run mem events (n + 1)).host.pc =
      (Usb.next (memoryChip.run mem events n).host.pc l).1 := congrArg Host.pc hhost
  have htoggle : (memoryChip.run mem events (n + 1)).host.locals.toggle =
      (Usb.next (memoryChip.run mem events n).host.pc l).2.toggle :=
    congrArg (fun h : Host => h.locals.toggle) hhost
  rw [next_toggle, ← hpc', hl] at htoggle
  have hsucc := next_mem_succs (memoryChip.run mem events n).host.pc l
  rw [← hpc'] at hsucc
  intro hpolling
  rw [htoggle, polls]
  obtain ⟨hpc, hhead⟩ | hprev := Pc.isPolling_of_succ _ _ hsucc hpolling
  · have heven := heven ⟨hpc, hhead⟩
    rw [if_pos hhead, if_pos ⟨hpc, hhead⟩, toNat_add_one_mod_two]
    omega
  · have hold := hcounts hprev
    rw [if_neg (not_completesEnumeration_of_isPolling hprev)]
    by_cases hhead : (memoryChip.run mem events (n + 1)).host.pc = .submit .polling
    · have hpc : (memoryChip.run mem events n).host.pc ≠ .submit .polling := by
        intro hpc
        rw [hpc, hhead] at hsucc
        exact Pc.submit_polling_not_succ hsucc
      rw [if_pos hhead, if_pos ⟨hpc, hhead⟩, toNat_add_one_mod_two]
      omega
    · rw [if_neg hhead, if_neg fun h => hhead h.2]
      exact hold

/-- If every enumeration so far was completed with an even counter, the counter
has the parity of the polls of the session. -/
theorem run_counts (heven : ∀ k, k < n → EvenStart mem events k) :
    Counts mem events n (memoryChip.run mem events n) := by
  induction n with
  | zero => exact fun h => Bool.noConfusion h
  | succ n ih =>
      have hcounts := ih fun k hk => heven k (Nat.lt_succ_of_lt hk)
      cases he : events n with
      | chip e => exact e.elim
      | host o =>
          obtain ⟨act, -, hstep⟩ := Device.run_hostStep memoryChip mem he
          generalize hs' : memoryChip.run mem events (n + 1) = s' at hstep
          cases hstep with
          | inner =>
              intro hpolling
              rw [polls_succ_of_pc_eq (congrArg (fun s => s.host.pc) hs')]
              exact hcounts hpolling
          | last =>
              rw [← hs']
              exact hcounts.next (heven n (Nat.lt_succ_self n)) (Action.after_toggle _ _ _)
                (congrArg System.host hs')

/-- The control word of a poll's descriptor follows the parity of the counter. -/
theorem control_of_poll {s : System Memory} (h : Built s)
    (hpc : s.host.pc = .submit .polling ∨ s.host.pc = .resubmit .polling) {p : BitVec 16}
    (hact : s.action? = some (.write (.memory HUSB_SIE1_pCurrentTDPtr) p)) :
    s.chip (p + 6#16) = controlWord s.host.locals.toggle.toNat := by
  have hblock : block s.host.pc s.host.locals =
      (pollList s.host.locals.toggle s.host.locals.dataSize).map .call := by
    obtain hpc | hpc := hpc <;> rw [hpc] <;> rfl
  obtain ⟨mem, hmem⟩ := h.submission hblock hact
  obtain ⟨hlast, -⟩ := h.located.last hact (Pc.inner_pointer _ _)
  have hp : p = 0x0500#16 := by
    obtain hpc | hpc := hpc <;> rw [hpc] at hlast <;> cases hlast <;> rfl
  rw [hp, hmem]
  have hword : storeAll mem (storeWords 0x0500#16
      (pollWords s.host.locals.toggle s.host.locals.dataSize)) (0x0500#16 + 6#16) =
        if s.host.locals.toggle % 2#8 ≠ 0#8 then 0x0001#16 else 0x0041#16 :=
    storeAll_storeWords mem (i := 3) (by simp [pollWords]) (by simp [pollWords])
  have hodd : s.host.locals.toggle % 2#8 ≠ 0#8 ↔ s.host.locals.toggle.toNat % 2 = 1 := by
    have htwo : (2#8).toNat = 2 := rfl
    have hzero : (0#8).toNat = 0 := rfl
    rw [ne_eq, ← BitVec.toNat_inj, BitVec.toNat_umod, htwo, hzero]
    omega
  rw [hword, controlWord]
  simp only [hodd]

/-- In a run that completes every enumeration with an even counter, the polls of
every session alternate. -/
theorem run_alternates (mem : Memory) (events : Nat → Event Response Empty) (N : Nat)
    (heven : ∀ n, n < N → EvenStart mem events n) (n : Nat) (hn : n ≤ N) :
    Alternates mem events n := by
  intro p hpc hact
  have hcounts : Counts mem events n (memoryChip.run mem events n) :=
    run_counts fun k hk => heven k (by omega)
  have hpolling : (memoryChip.run mem events n).host.pc.isPolling = true := by
    obtain hpc | hpc := hpc <;> rw [hpc] <;> rfl
  rw [control_of_poll (run_built n) hpc hact, controlWord, controlWord, hcounts hpolling]

/-- A keyboard that is unplugged during the first poll and plugged in again. -/
def replug (n : Nat) : Event Response Empty :=
  .host (cooperative (if 485 ≤ n ∧ n < 515 then 0#16 else A_DM_STAT) 0#16)

instance (mem : Memory) (events : Nat → Event Response Empty) :
    DecidablePred (EvenStart mem events) :=
  fun _ => inferInstanceAs (Decidable (_ → _))

theorem run_alternates_firstPoll : Alternates 0 replug 484 :=
  run_alternates 0 replug 484 (by decide +kernel) 484 (Nat.le_refl 484)

/-- The second session begins with DATA1. -/
theorem run_alternates_fails :
    ¬∀ (mem : Memory) (events : Nat → Event Response Empty) (n : Nat),
      Alternates mem events n := by
  intro h
  have hcontrol := h 0 replug 1005 0x0500#16 (.inl (by decide +kernel)) (by decide +kernel)
  exact absurd hcontrol (by decide +kernel)

end Run

end SpaceInvaders.Usb
