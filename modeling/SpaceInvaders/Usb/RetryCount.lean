import SpaceInvaders.Usb.Completion
import SpaceInvaders.Usb.Progress

/-!
# The failure path: `UsbGetRetryCnt`

When the control byte of a stage is not `0x03`, `main` calls `UsbGetRetryCnt` and
starts again at `USB_HOT_PLUG`. If the function finds `TDListDone` in the
message register, it clears the register and polls the status for one more
message. That message comes only if another list is still in flight.
`run_retryCnt` shows that this is exactly when the function returns.
-/

namespace SpaceInvaders.Usb

open Machine Device

/-- The blocks of `UsbGetRetryCnt`. -/
def Pc.inRetryCnt : Pc → Bool
  | .retryStatus | .retryMsg | .retryClear | .retryPoll | .retryCnt => true
  | _ => false

/-- The blocks behind the read of `TDListDone`, up to the end of the loop. -/
def Pc.Waits (pc : Pc) : Prop := pc = .retryClear ∨ pc = .retryPoll

/-- The wait is entered from the test of the message register. -/
theorem Pc.waits_of_succ (pc : Pc) : ∀ q ∈ pc.succs, q.Waits → pc = .retryMsg ∨ pc.Waits := by
  cases pc with
  | waitClear job => cases job <;> simp [succs, Waits]
  | control stage => cases stage <;> simp [succs, Waits]
  | _ => simp [succs, Waits]

namespace Completion

/-- The host polls the status in `UsbGetRetryCnt`, no list is in flight and no
message is pending. -/
def Stuck (s : System State) : Prop :=
  s.host.pc = .retryPoll ∧ s.chip.inFlight = 0 ∧ s.chip.flag = false

/-- The condition on a state in which the host makes the next step: when
`UsbGetRetryCnt` finds `TDListDone`, another list is in flight. -/
def RetryMeets (s : System State) : Prop :=
  s.host.pc = .retryMsg → s.action? = some (.read (.memory HPI_SIE1_MSG_ADR)) →
    s.chip.msg = HUSB_TDListDone → s.chip.inFlight ≠ 0

/-- In the wait, a message is pending or will be posted. -/
def Owed (s : System State) : Prop :=
  s.host.pc.Waits → s.chip.inFlight ≠ 0 ∨ s.chip.flag = true

/-- In the wait, no message is pending and none will be posted. -/
def Doomed (s : System State) : Prop :=
  s.host.pc.Waits ∧ s.chip.inFlight = 0 ∧ s.chip.flag = false

section Step

variable {s s' : System State} {o : BitVec 16} {act : Action}

/-- The test of the polling loops reads the flag. -/
theorem sie1Msg_read_status (o : BitVec 16) (s : State) :
    sie1Msg (device.perform o (.read .status) s).1 = s.flag := by
  have hvalue : (device.perform o (.read .status) s).1 &&& HPI_STATUS_SIE1msg_FLAG =
      if s.flag then HPI_STATUS_SIE1msg_FLAG else 0#16 := by
    have hmask : ~~~HPI_STATUS_SIE1msg_FLAG &&& HPI_STATUS_SIE1msg_FLAG = 0#16 := by decide
    change (o &&& ~~~HPI_STATUS_SIE1msg_FLAG ||| _) &&& HPI_STATUS_SIE1msg_FLAG = _
    rw [BitVec.and_or_distrib_right, BitVec.and_assoc, hmask, BitVec.and_zero, BitVec.zero_or]
    split <;> rfl
  rw [sie1Msg, hvalue]
  cases s.flag <;> rfl

/-- Only a read lowers the flag. -/
theorem perform_flag (o : BitVec 16) (s : State) (h : act.isRead = false) :
    (device.perform o act s).2.flag = s.flag := by
  cases act with
  | read r => exact Bool.noConfusion h
  | write r word =>
      change (s.write r word).flag = s.flag
      unfold State.write
      split
      · rfl
      · split <;> rfl
  | publish => rfl

theorem next_retryMsg (l : Locals) :
    (next .retryMsg l).1 = if l.ioRead = HUSB_TDListDone then .retryClear else .retryCnt :=
  apply_ite Prod.fst _ _ _

/-- The test of `UsbGetRetryCnt` decides whether there is a wait. -/
theorem retryMsg_step (hpc : s.host.pc = .retryMsg)
    (hact : act = .read (.memory HPI_SIE1_MSG_ADR)) (hstep : device.HostStep o s act s') :
    s'.host.pc = (if s.chip.msg = HUSB_TDListDone then .retryClear else .retryCnt) ∧
      s'.chip = { s.chip with flag := false } := by
  cases hstep with
  | inner _ _ hinner =>
      rw [hact] at hinner
      exact Bool.noConfusion hinner
  | last =>
      rw [hpc]
      exact ⟨next_retryMsg _, rfl⟩

/-- In the wait, a host step leaves the lists and the flag alone, and the loop is
left if the flag is high. -/
theorem wait_step (hpc : s.host.pc.Waits) (hstep : device.HostStep o s act s') :
    s'.chip.flag = s.chip.flag ∧ s'.chip.inFlight = s.chip.inFlight ∧
      (s'.host.pc.Waits ∨ s'.host.pc = .retryCnt ∧ s.chip.flag = true) := by
  cases hstep with
  | inner _ _ hinner =>
      have hflag := perform_flag o s.chip (Pc.not_isRead_of_inner hinner)
      have hlists := perform_inFlight o s.chip (Pc.not_pointer_of_inner hinner)
      exact ⟨hflag, hlists, .inl hpc⟩
  | last =>
      obtain hpc | hpc := hpc
      · rw [hpc]
        exact ⟨rfl, rfl, .inl (.inr rfl)⟩
      · rw [hpc]
        refine ⟨rfl, rfl, ?_⟩
        simp only [Host.enter, next, Pc.lastAction, Action.after_read, sie1Msg_read_status]
        cases s.chip.flag with
        | false => exact .inl (.inr rfl)
        | true => exact .inr ⟨rfl, rfl⟩

/-- A poll leaves the loop when the flag is high. -/
theorem retryPoll_step (hlocated : s.Located) (hpc : s.host.pc = .retryPoll)
    (hstep : device.HostStep o s act s') :
    s'.host.pc = if s.chip.flag = true then .retryCnt else .retryPoll := by
  have htodo : s.host.todo = [.call (.read HPI_STATUS)] := by
    refine hlocated.todo_of_single ?_
    rw [hpc]
    rfl
  rw [hstep.enter_of_single htodo, hpc]
  simp only [Host.enter, next, Pc.lastAction, Action.after_read, sie1Msg_read_status]
  cases s.chip.flag <;> rfl

/-- Without a keyboard, `main` waits for one. -/
theorem waitInsert_step (hpc : s.host.pc = .waitInsert) (ho : devicePresent o = false)
    (hstep : device.HostStep o s act s') : s'.host.pc = .waitInsert := by
  cases hstep with
  | inner => exact hpc
  | last =>
      have hvalue : (device.perform o (.read (.memory USB1_CTL_REG)) s.chip).1 = o := rfl
      rw [hpc]
      simp only [Host.enter, next, Pc.lastAction, Action.after_read, hvalue, ho]
      rfl

/-- The wait is entered from a test that has found `TDListDone`. -/
theorem HostStep.waits (hstep : device.HostStep o s act s') (h : s'.host.pc.Waits) :
    s.host.pc.Waits ∨ s.host.pc = .retryMsg ∧ act = .read (.memory HPI_SIE1_MSG_ADR) ∧
      s.chip.msg = HUSB_TDListDone := by
  obtain ⟨hpc, -⟩ | ⟨hsucc, hlast⟩ := hstep.pc_cases
  · rw [← hpc]
    exact .inl h
  · obtain hpc | hpc := Pc.waits_of_succ _ _ hsucc h
    · rw [hpc] at hlast
      refine .inr ⟨hpc, hlast, ?_⟩
      by_contra hmsg
      rw [(retryMsg_step hpc hlast hstep).1, if_neg hmsg] at h
      obtain h | h := h <;> cases h
    · exact .inl hpc

/-- A host step keeps a message owed. -/
theorem Owed.hostStep (h : Owed s) (hmeets : RetryMeets s) (hact : s.action? = some act)
    (hstep : device.HostStep o s act s') : Owed s' := by
  intro hwaits
  obtain hpc | ⟨hpc, hread, hmsg⟩ := HostStep.waits hstep hwaits
  · obtain ⟨hflag, hlists, -⟩ := wait_step hpc hstep
    rw [hflag, hlists]
    exact h hpc
  · rw [(retryMsg_step hpc hread hstep).2]
    exact .inl (hmeets hpc (hread ▸ hact) hmsg)

/-- A completion posts the message. -/
theorem complete_flag {s : State} (h : s.inFlight ≠ 0 ∨ s.flag = true) :
    s.complete.flag = true := by
  unfold State.complete
  split
  · exact h.resolve_left (not_not.2 ‹_›)
  · rfl

theorem Owed.complete (h : Owed s) : Owed { s with chip := s.chip.complete } :=
  fun hwaits => .inr (complete_flag (h hwaits))

/-- Without a list in flight, the wait goes on for ever. -/
theorem Doomed.hostStep (h : Doomed s) (hstep : device.HostStep o s act s') : Doomed s' := by
  obtain ⟨hpc, hlists, hflag⟩ := h
  obtain ⟨hflag', hlists', hwaits | ⟨-, hhigh⟩⟩ := wait_step hpc hstep
  · exact ⟨hwaits, hlists'.trans hlists, hflag'.trans hflag⟩
  · rw [hflag] at hhigh
    cases hhigh

theorem Doomed.complete (h : Doomed s) : Doomed { s with chip := s.chip.complete } := by
  have hchip : s.chip.complete = s.chip := if_pos h.2.1
  rw [hchip]
  exact h

end Step

section Run

variable {msg : BitVec 16} {flag : Bool} {events : Nat → Event (BitVec 16) Unit} {n : Nat}

/-- A message stays owed in a run that meets the condition. -/
theorem run_owed
    (hmeets : ∀ k, k < n → (∃ o, events k = .host o) → RetryMeets (run msg flag events k)) :
    Owed (run msg flag events n) := by
  induction n with
  | zero =>
      intro hwaits
      obtain h | h := hwaits <;> cases h
  | succ n ih =>
      have howed := ih fun k hk => hmeets k (Nat.lt_succ_of_lt hk)
      cases he : events n with
      | chip e =>
          rw [run, run_succ_of_chip he]
          exact howed.complete
      | host o =>
          obtain ⟨act, hact, hstep⟩ := Completion.run_hostStep he
          exact howed.hostStep (hmeets n (Nat.lt_succ_self n) ⟨o, he⟩) hact hstep

/-- A wait for nothing never ends. -/
theorem run_doomed {m : Nat} (hn : Doomed (run msg flag events n)) (hnm : n ≤ m) :
    Doomed (run msg flag events m) := by
  refine stateAt_invariant_from (P := fun _ s => Doomed s) hn ?_ hnm
  intro m _ hm
  cases he : events m with
  | chip e => exact hm.complete
  | host o =>
      obtain ⟨act, -, hstep⟩ := hostStep_cases (run_located m) device o
      exact hm.hostStep hstep

/-- A pending message ends the loop. -/
theorem flag_leadsTo_retryCnt (hhost : HostFair events) :
    LeadsTo (fun n => (run msg flag events n).host.pc = .retryPoll ∧
        (run msg flag events n).chip.flag = true)
      (fun n => (run msg flag events n).host.pc = .retryCnt) := by
  refine LeadsTo.of_recurs hhost ?_ ?_
  · rintro n ⟨hpc, hflag⟩ hchip
    cases he : events n with
    | host o => exact absurd ⟨o, he⟩ hchip
    | chip e =>
        rw [run, run_succ_of_chip he]
        exact ⟨hpc, complete_flag (.inr hflag)⟩
  · rintro n ⟨hpc, hflag⟩ ⟨o, he⟩
    obtain ⟨act, -, hstep⟩ := Completion.run_hostStep he
    rw [retryPoll_step (run_located n) hpc hstep]
    exact if_pos hflag

/-- A message that is owed will be pending, if the chip completes its lists. -/
theorem retryPoll_leadsTo_flag (hchip : ChipFair events)
    (howed : ∀ n, Owed (run msg flag events n)) :
    LeadsTo (fun n => (run msg flag events n).host.pc = .retryPoll ∧
        (run msg flag events n).chip.flag = false)
      (fun n => (run msg flag events n).host.pc = .retryPoll ∧
        (run msg flag events n).chip.flag = true) := by
  refine LeadsTo.of_recurs hchip ?_ ?_
  · rintro n ⟨hpc, hflag⟩ hhost
    cases he : events n with
    | chip e => exact absurd ⟨e, he⟩ hhost
    | host o =>
        obtain ⟨act, -, hstep⟩ := Completion.run_hostStep he
        obtain ⟨hflag', -, -⟩ := wait_step (.inr hpc) hstep
        refine ⟨?_, hflag'.trans hflag⟩
        rw [retryPoll_step (run_located n) hpc hstep]
        exact if_neg (Bool.not_eq_true _ ▸ hflag)
  · rintro n ⟨hpc, -⟩ ⟨e, he⟩
    rw [run, run_succ_of_chip he]
    exact ⟨hpc, complete_flag (howed n (.inr hpc))⟩

/-- The function returns to `USB_HOT_PLUG`. -/
theorem inRetryCnt_leadsTo (hhost : HostFair events) (hchip : ChipFair events)
    (howed : ∀ n, Owed (run msg flag events n)) :
    LeadsTo (fun n => (run msg flag events n).host.pc.inRetryCnt = true)
      (fun n => (run msg flag events n).host.pc = .resetMailbox) := by
  have hcnt : LeadsTo (fun n => (run msg flag events n).host.pc = .retryCnt)
      (fun n => (run msg flag events n).host.pc = .resetMailbox) := leadsTo_succ hhost rfl
  have hhigh := (flag_leadsTo_retryCnt hhost).trans hcnt
  have hpoll : LeadsTo (fun n => (run msg flag events n).host.pc = .retryPoll)
      (fun n => (run msg flag events n).host.pc = .resetMailbox) := by
    intro n hpc
    cases hflag : (run msg flag events n).chip.flag with
    | true => exact hhigh n ⟨hpc, hflag⟩
    | false => exact (retryPoll_leadsTo_flag hchip howed).trans hhigh n ⟨hpc, hflag⟩
  have hclear : LeadsTo (fun n => (run msg flag events n).host.pc = .retryClear)
      (fun n => (run msg flag events n).host.pc = .resetMailbox) :=
    (leadsTo_succ hhost rfl).trans hpoll
  have hmsg : LeadsTo (fun n => (run msg flag events n).host.pc = .retryMsg)
      (fun n => (run msg flag events n).host.pc = .resetMailbox) := by
    refine (leadsTo_succs hhost .retryMsg).trans ?_
    intro n h
    obtain hpc | hpc := List.mem_pair.1 h
    · exact hclear n hpc
    · exact hcnt n hpc
  have hstatus : LeadsTo (fun n => (run msg flag events n).host.pc = .retryStatus)
      (fun n => (run msg flag events n).host.pc = .resetMailbox) :=
    (leadsTo_succ hhost rfl).trans hmsg
  intro n h
  cases hpc : (run msg flag events n).host.pc <;> rw [hpc] at h <;> try exact Bool.noConfusion h
  · exact hstatus n hpc
  · exact hmsg n hpc
  · exact hclear n hpc
  · exact hpoll n hpc
  · exact hcnt n hpc

/-- A test that finds `TDListDone` with nothing in flight ends in a wait for nothing. -/
theorem exists_stuck (hhost : HostFair events) {o : BitVec 16} (he : events n = .host o)
    (hfails : ¬RetryMeets (run msg flag events n)) : ∃ m, Stuck (run msg flag events m) := by
  simp only [RetryMeets, Classical.not_imp, not_not] at hfails
  obtain ⟨hpc, hread, hmsg, hlists⟩ := hfails
  obtain ⟨act, hact, hstep⟩ := Completion.run_hostStep he
  have hread : act = .read (.memory HPI_SIE1_MSG_ADR) := Option.some.inj (hact.symm.trans hread)
  obtain ⟨hclear, hchip⟩ := retryMsg_step hpc hread hstep
  rw [if_pos hmsg] at hclear
  have hdoomed : Doomed (run msg flag events (n + 1)) := by
    refine ⟨.inl hclear, ?_⟩
    rw [hchip]
    exact ⟨hlists, rfl⟩
  obtain ⟨m, hnm, hpoll⟩ := leadsTo_succ hhost (q := .retryPoll) rfl (n + 1) hclear
  exact ⟨m, hpoll, (run_doomed hdoomed hnm).2⟩

/-- The loop of `UsbGetRetryCnt` is never polled in vain if and only if another
list is in flight whenever the function finds `TDListDone`; and then the host
returns to `USB_HOT_PLUG`. -/
theorem run_retryCnt (msg : BitVec 16) (flag : Bool) (events : Nat → Event (BitVec 16) Unit) :
    ((∀ n, (∃ o, events n = .host o) → RetryMeets (run msg flag events n)) →
        ∀ n, ¬Stuck (run msg flag events n)) ∧
      (HostFair events → (∀ n, ¬Stuck (run msg flag events n)) →
        ∀ n, (∃ o, events n = .host o) → RetryMeets (run msg flag events n)) ∧
      (HostFair events → ChipFair events →
        (∀ n, (∃ o, events n = .host o) → RetryMeets (run msg flag events n)) →
          ∀ n, (run msg flag events n).host.pc.inRetryCnt = true →
            ∃ m, n ≤ m ∧ (run msg flag events m).host.pc = .resetMailbox) := by
  refine ⟨?_, ?_, ?_⟩
  · rintro hmeets n ⟨hpc, hlists, hflag⟩
    obtain h | h := run_owed (fun k _ => hmeets k) (.inr hpc)
    · exact h hlists
    · rw [hflag] at h
      cases h
  · rintro hhost hnever n ⟨o, he⟩
    by_contra hfails
    obtain ⟨m, hstuck⟩ := exists_stuck hhost he hfails
    exact hnever m hstuck
  · intro hhost hchip hmeets
    exact inRetryCnt_leadsTo hhost hchip fun n => run_owed fun k _ => hmeets k

/-- The list is submitted three times. Its first completion ends the wait, the
second one is found by `UsbGetRetryCnt` and the third one ends the loop. The
keyboard is gone then. -/
def thirdInFlight (n : Nat) : Event (BitVec 16) Unit :=
  if n = 151 ∨ n = 157 ∨ 167 ≤ n ∧ n % 2 = 0 then .chip ()
  else .host (if n < 167 then answer n else COMM_ACK)

theorem thirdInFlight_waitInsert {n : Nat} (hn : 378 ≤ n) :
    (run 0#16 false thirdInFlight n).host.pc = .waitInsert := by
  induction n, hn using Nat.le_induction with
  | base => decide +kernel
  | succ n hn ih =>
      cases he : thirdInFlight n with
      | chip e =>
          rw [run, run_succ_of_chip he]
          exact ih
      | host o =>
          obtain ⟨act, -, hstep⟩ := Completion.run_hostStep he
          refine waitInsert_step ih ?_ hstep
          unfold thirdInFlight at he
          split at he
          · cases he
          · rw [if_neg (by omega)] at he
            obtain rfl := Event.host.inj he
            decide

theorem run_retryCnt_thirdInFlight :
    (run 0#16 false thirdInFlight 167).host.pc = .retryPoll ∧
      ∃ m, 167 ≤ m ∧ (run 0#16 false thirdInFlight m).host.pc = .resetMailbox := by
  have hpc : (run 0#16 false thirdInFlight 167).host.pc = .retryPoll := by decide +kernel
  have hmeets : ∀ n, n < 378 → (run 0#16 false thirdInFlight n).host.pc = .retryMsg →
      (run 0#16 false thirdInFlight n).chip.inFlight ≠ 0 := by decide +kernel
  refine ⟨hpc, (run_retryCnt 0#16 false thirdInFlight).2.2 ?_ ?_ ?_ 167 (by rw [hpc]; rfl)⟩
  · intro n
    refine ⟨2 * (n + 100) + 1, by omega, COMM_ACK, ?_⟩
    rw [thirdInFlight, if_neg (by omega), if_neg (by omega)]
  · intro n
    refine ⟨2 * (n + 100), by omega, (), ?_⟩
    rw [thirdInFlight, if_pos (by omega)]
  · intro n _ hmsg _ _
    obtain hlt | hge := Nat.lt_or_ge n 378
    · exact hmeets n hlt hmsg
    · rw [thirdInFlight_waitInsert hge] at hmsg
      cases hmsg

/-- The list is submitted twice. Both are completed, the second time after the
wait, and then nothing is in flight. -/
def bothCompleted (n : Nat) : Event (BitVec 16) Unit :=
  if n = 131 ∨ n = 137 then .chip () else .host (answer n)

theorem run_retryCnt_fails :
    ¬∀ (msg : BitVec 16) (flag : Bool) (events : Nat → Event (BitVec 16) Unit) (n : Nat),
      ¬Stuck (run msg flag events n) := by
  intro h
  exact h 0#16 false bothCompleted 147
    ⟨by decide +kernel, by decide +kernel, by decide +kernel⟩

end Run

end Completion

end SpaceInvaders.Usb
