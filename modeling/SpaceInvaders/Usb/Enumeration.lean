import SpaceInvaders.Usb.Keycode
import SpaceInvaders.Usb.RetryCount

/-!
# No key before a complete enumeration

Nothing is assumed about the chip: every `IO_read` returns an arbitrary value.
`required` lists what a complete enumeration consists of, thirty milestones in
their order. A block can only be reached when a certain number of them has been
passed since `USB_HOT_PLUG` (`Pc.passed`): each edge of the program either
passes the next milestone or keeps or drops what has been passed. The polling
loop, and with it the store to the keycode PIO, comes after all of them.
-/

namespace SpaceInvaders.Usb

open Machine Device

namespace Enumeration

/-- A chip about which nothing is known: a read returns the value of its step. -/
def device : Device Unit (BitVec 16) Empty where
  read o _ chip := (o, chip)
  write _ _ chip := chip
  event e _ := nomatch e

/-- The run of `main` in which a read in step `n` returns `values n`. -/
def run (values : Nat → BitVec 16) (n : Nat) : System Unit :=
  device.run () (fun n => .host (values n)) n

/-- Step `n` makes the call `act` of the block `pc`. -/
def Makes (values : Nat → BitVec 16) (n : Nat) (pc : Pc) (act : Action) : Prop :=
  (run values n).host.pc = pc ∧ (run values n).action? = some act

instance (values : Nat → BitVec 16) (n : Nat) (pc : Pc) (act : Action) :
    Decidable (Makes values n pc act) := inferInstanceAs (Decidable (_ ∧ _))

/-- Step `n` stores to the keycode PIO. -/
def Publishes (values : Nat → BitVec 16) (n : Nat) : Prop :=
  (run values n).action? = some .publish

instance (values : Nat → BitVec 16) : DecidablePred (Publishes values) :=
  fun _ => inferInstanceAs (Decidable (_ = _))

/-- Before step `n` the program is at the label `USB_HOT_PLUG`. -/
def AtHotPlug (values : Nat → BitVec 16) (n : Nat) : Prop :=
  (run values n).host = .enter (.resetMailbox, (run values n).host.locals)

instance (values : Nat → BitVec 16) : DecidablePred (AtHotPlug values) :=
  fun _ => inferInstanceAs (Decidable (_ = _))

/-- What has to happen in an enumeration. -/
inductive Milestone where
  /-- `COMM_ACK` is read from the mailbox in step 1. -/
  | stepOneAck
  /-- `COMM_ACK` is read from the mailbox in step 2. -/
  | stepTwoAck
  /-- A value of `USB1_CTL_REG` with a line-state bit is read. -/
  | lineState
  /-- The list of a stage is submitted. -/
  | submitted (stage : Stage)
  /-- `UsbWaitTDListDone` ends after it has read `TDListDone`. -/
  | listDone (stage : Stage)
  /-- The control byte is read as `0x03`. -/
  | success (stage : Stage)
deriving Repr, DecidableEq

/-- Step `n` passes a milestone. -/
def Happens (values : Nat → BitVec 16) : Milestone → Nat → Prop
  | .stepOneAck, n => Makes values n .stepOneMailbox (.read .mailbox) ∧ values n = COMM_ACK
  | .stepTwoAck, n => Makes values n .stepTwoMailbox (.read .mailbox) ∧ values n = COMM_ACK
  | .lineState, n =>
    (Makes values n .detect (.read (.memory USB1_CTL_REG)) ∨
      Makes values n .detectRetry (.read (.memory USB1_CTL_REG))) ∧
    devicePresent (values n) = true
  | .submitted stage, n =>
    Makes values n (.submit (.enumeration stage))
        (.write (.memory HUSB_SIE1_pCurrentTDPtr) 0x0500#16) ∨
      Makes values n (.resubmit (.enumeration stage))
        (.write (.memory HUSB_SIE1_pCurrentTDPtr) 0x0500#16)
  | .listDone stage, n =>
    Makes values n (.waitClear (.enumeration stage)) (.write (.memory HPI_SIE1_MSG_ADR) 0#16) ∧
      (run values n).host.locals.ioRead = HUSB_TDListDone
  | .success stage, n =>
    Makes values n (.control stage) (.read (.memory 0x0508#16)) ∧ values n = 0x03#16

/-- The nine stages in their order. -/
def stages : List Stage :=
  [.setAddress, .getDeviceDesc1, .getDeviceDesc2, .getConfigDesc1, .getConfigDesc2, .setConfig,
    .classRequest, .getHidDesc, .getReportDesc]

/-- The milestones of a complete enumeration. -/
def required : List Milestone :=
  [.stepOneAck, .stepTwoAck, .lineState] ++
    stages.flatMap fun stage => [.submitted stage, .listDone stage, .success stage]

/-- In a run keys are published only after a complete enumeration. -/
structure KeysNeedEnumeration (values : Nat → BitVec 16) : Prop where
  /-- Between any passage through `USB_HOT_PLUG` and a store to the PIO, all
  milestones have been passed in the current attempt. -/
  complete : ∀ h n, AtHotPlug values h → h ≤ n → Publishes values n →
    ∃ a, h ≤ a ∧ AtHotPlug values a ∧ (∀ k, a < k → k ≤ n → ¬AtHotPlug values k) ∧
      InOrder (Happens values) required a n
  /-- After any other control byte `USB_HOT_PLUG` is passed again before a store to the PIO. -/
  failed : ∀ stage k n, Makes values k (.control stage) (.read (.memory 0x0508#16)) →
    values k ≠ 0x03#16 → k < n → Publishes values n → ∃ a, k < a ∧ a ≤ n ∧ AtHotPlug values a

end Enumeration

/-! ## What has been passed -/

/-- The place of a stage in the order. -/
def Stage.index : Stage → Nat
  | .setAddress => 0
  | .getDeviceDesc1 => 1
  | .getDeviceDesc2 => 2
  | .getConfigDesc1 => 3
  | .getConfigDesc2 => 4
  | .setConfig => 5
  | .classRequest => 6
  | .getHidDesc => 7
  | .getReportDesc => 8

/-- The number of milestones that have been passed when the host is in a block. -/
def Pc.passed : Pc → Nat
  | .stepTwo | .stepTwoMailbox | .stepTwoError => 1
  | .detect | .detectRetry | .waitInsert => 2
  | .submit (.enumeration stage) => 3 + 3 * stage.index
  | .status (.enumeration stage) | .resubmit (.enumeration stage) => 4 + 3 * stage.index
  | .waitRead (.enumeration stage) | .waitClear (.enumeration stage) => 4 + 3 * stage.index
  | .controlStatus stage | .control stage => 5 + 3 * stage.index
  | .deviceInfo | .endpointDesc | .dataSize => 18
  | pc => if pc.isPolling || pc.isRemoved then 30 else 0

/-- A stage is left with success for the block where the next one begins. -/
theorem Stage.next_passed (stage : Stage) (l : Locals) :
    (stage.next l).1.passed = 6 + 3 * stage.index := by
  cases stage <;> rfl

/-- `UsbGetRetryCnt` is left for `USB_HOT_PLUG`. -/
theorem Pc.succ_of_inRetryCnt (pc : Pc) (h : pc.inRetryCnt = true) : ∀ q ∈ pc.succs,
    q.inRetryCnt = true ∨ q = .resetMailbox := by
  cases pc <;> simp_all [succs, inRetryCnt]

namespace Enumeration

/-- The test of a milestone at the end of a block, with the locals after its last call. -/
def Milestone.Passes (pc : Pc) (l : Locals) : Milestone → Prop
  | .stepOneAck => pc = .stepOneMailbox ∧ l.ioRead = COMM_ACK
  | .stepTwoAck => pc = .stepTwoMailbox ∧ l.ioRead = COMM_ACK
  | .lineState => (pc = .detect ∨ pc = .detectRetry) ∧ devicePresent l.ioRead = true
  | .submitted stage => pc = .submit (.enumeration stage) ∨ pc = .resubmit (.enumeration stage)
  | .listDone stage => pc = .waitClear (.enumeration stage) ∧ l.ioRead = HUSB_TDListDone
  | .success stage => pc = .control stage ∧ l.ioRead = 0x03#16

/-- Where the milestones of a stage stand in the list. -/
theorem required_stage (stage : Stage) :
    required[3 + 3 * stage.index]? = some (.submitted stage) ∧
      required[4 + 3 * stage.index]? = some (.listDone stage) ∧
      required[5 + 3 * stage.index]? = some (.success stage) := by
  cases stage <;> exact ⟨rfl, rfl, rfl⟩

/-- The way from `pc` to `q` passes the next milestone. -/
def PassesNext (pc q : Pc) (l : Locals) : Prop :=
  ∃ m, required[pc.passed]? = some m ∧ m.Passes pc l ∧ q.passed = pc.passed + 1

/-- What holds of all blocks that can follow holds of the one that does. -/
private theorem keeps_of_succs {pc : Pc} (h : ∀ q ∈ pc.succs, q.passed ≤ pc.passed) (l : Locals) :
    (next pc l).1.passed ≤ pc.passed := h _ (next_mem_succs pc l)

/-- Every edge of the program passes the next milestone, or it leads to a block
that needs none more. -/
theorem next_passed (pc : Pc) (l : Locals) :
    (next pc l).1.passed ≤ pc.passed ∨ PassesNext pc (next pc l).1 l := by
  cases pc with
  | stepOneMailbox =>
      simp only [next]
      split
      · exact .inl (Nat.zero_le _)
      · next hack => exact .inr ⟨.stepOneAck, rfl, ⟨rfl, not_not.mp hack⟩, rfl⟩
  | stepTwoMailbox =>
      simp only [next]
      split
      · exact .inl (Nat.le_refl _)
      · next hack => exact .inr ⟨.stepTwoAck, rfl, ⟨rfl, not_not.mp hack⟩, rfl⟩
  | detect =>
      simp only [next]
      split
      · next hpresent => exact .inr ⟨.lineState, rfl, ⟨.inl rfl, hpresent⟩, rfl⟩
      · exact .inl (Nat.le_refl _)
  | detectRetry =>
      simp only [next]
      split
      · next hpresent => exact .inr ⟨.lineState, rfl, ⟨.inr rfl, hpresent⟩, rfl⟩
      · split <;> exact .inl (Nat.le_refl _)
  | submit job =>
      cases job with
      | enumeration stage =>
          refine .inr ⟨.submitted stage, (required_stage stage).1, .inl rfl, ?_⟩
          change 4 + 3 * stage.index = 3 + 3 * stage.index + 1
          omega
      | polling => exact .inl (Nat.le_refl _)
  | status job =>
      refine .inl (keeps_of_succs ?_ l)
      cases job <;> simp [Pc.succs, Pc.passed, Pc.isPolling]
  | resubmit job => cases job <;> exact .inl (Nat.le_refl _)
  | waitRead job => cases job <;> exact .inl (Nat.le_refl _)
  | waitClear job =>
      simp only [next]
      split
      · cases job <;> exact .inl (Nat.le_refl _)
      · next hdone =>
        cases job with
        | enumeration stage =>
            refine .inr ⟨.listDone stage, (required_stage stage).2.1, ⟨rfl, not_not.mp hdone⟩, ?_⟩
            change 5 + 3 * stage.index = 4 + 3 * stage.index + 1
            omega
        | polling => exact .inl (Nat.le_refl _)
  | controlStatus stage => exact .inl (Nat.le_refl _)
  | control stage =>
      simp only [next]
      split
      · exact .inl (Nat.zero_le _)
      · next hsuccess =>
        refine .inr ⟨.success stage, (required_stage stage).2.2, ⟨rfl, not_not.mp hsuccess⟩, ?_⟩
        rw [stage.next_passed, Pc.passed]
        omega
  | _ => exact .inl (keeps_of_succs (by decide) l)

section Run

variable {values : Nat → BitVec 16} {n : Nat}

/-- The locals at the end of the block that step `n` completes. -/
def endLocals (values : Nat → BitVec 16) (n : Nat) : Locals :=
  (run values n).host.pc.lastAction.after
    (device.perform (values n) (run values n).host.pc.lastAction ()).1 (run values n).host.locals

theorem makes_last {pc : Pc}
    (hact : (run values n).action? = some (run values n).host.pc.lastAction)
    (hpc : (run values n).host.pc = pc) : Makes values n pc pc.lastAction := by
  subst hpc
  exact ⟨rfl, hact⟩

/-- At the end of a block that ends with a read, the tests are about its value. -/
theorem endLocals_ioRead {pc : Pc} (hpc : (run values n).host.pc = pc)
    (hread : ∃ r, pc.lastAction = .read r) : (endLocals values n).ioRead = values n := by
  obtain ⟨r, hread⟩ := hread
  rw [endLocals, hpc, hread]
  rfl

/-- Passing the test at the end of a block is passing the milestone. -/
theorem happens_of_passes {m : Milestone}
    (hact : (run values n).action? = some (run values n).host.pc.lastAction)
    (h : m.Passes (run values n).host.pc (endLocals values n)) : Happens values m n := by
  cases m with
  | stepOneAck =>
      obtain ⟨hpc, hack⟩ := h
      rw [endLocals_ioRead hpc ⟨_, rfl⟩] at hack
      exact ⟨makes_last hact hpc, hack⟩
  | stepTwoAck =>
      obtain ⟨hpc, hack⟩ := h
      rw [endLocals_ioRead hpc ⟨_, rfl⟩] at hack
      exact ⟨makes_last hact hpc, hack⟩
  | lineState =>
      obtain ⟨hpc, hpresent⟩ := h
      have hread : (endLocals values n).ioRead = values n := by
        obtain hpc | hpc := hpc <;> exact endLocals_ioRead hpc ⟨_, rfl⟩
      rw [hread] at hpresent
      exact ⟨hpc.imp (makes_last hact) (makes_last hact), hpresent⟩
  | submitted stage => exact h.imp (makes_last hact) (makes_last hact)
  | listDone stage =>
      obtain ⟨hpc, hdone⟩ := h
      -- The block ends with a write, so the value is that of the wait's last read.
      rw [endLocals, hpc] at hdone
      exact ⟨makes_last hact hpc, hdone⟩
  | success stage =>
      obtain ⟨hpc, hsuccess⟩ := h
      rw [endLocals_ioRead hpc ⟨_, rfl⟩] at hsuccess
      exact ⟨makes_last hact hpc, hsuccess⟩

/-- The attempt of state `n` began at `a`, and its milestones have been passed. -/
structure Attempt (values : Nat → BitVec 16) (a n : Nat) : Prop where
  start : AtHotPlug values a
  current : ∀ k, a < k → k ≤ n → ¬AtHotPlug values k
  passed : InOrder (Happens values) (required.take (run values n).host.pc.passed) a n

/-- Every step is a host step. -/
theorem run_step (values : Nat → BitVec 16) (n : Nat) :
    ∃ act, (run values n).action? = some act ∧
      device.HostStep (values n) (run values n) act (run values (n + 1)) := by
  have he : (fun n => .host (values n) : Nat → Event (BitVec 16) Empty) n = .host (values n) := rfl
  exact run_hostStep device () he

/-- A step passes the milestone it needs. -/
theorem passed_succ {a : Nat}
    (h : InOrder (Happens values) (required.take (run values n).host.pc.passed) a n) :
    InOrder (Happens values) (required.take (run values (n + 1)).host.pc.passed) a (n + 1) := by
  obtain ⟨act, hact, hstep⟩ := run_step values n
  generalize run values (n + 1) = s' at hstep ⊢
  cases hstep with
  | inner => exact h.mono (Nat.le_succ n)
  | last =>
      obtain hkeeps | ⟨m, hnext, hpasses, hpassed⟩ :=
        next_passed (run values n).host.pc (endLocals values n)
      · exact (h.take_of_le hkeeps).mono (Nat.le_succ n)
      · have hsucc := h.take_succ hnext (happens_of_passes hact hpasses)
        rw [← hpassed] at hsucc
        exact hsucc

theorem passed_of_atHotPlug (h : AtHotPlug values n) : (run values n).host.pc.passed = 0 := by
  rw [h]
  rfl

/-- Every state belongs to an attempt. -/
theorem run_attempt (values : Nat → BitVec 16) (n : Nat) : ∃ a, Attempt values a n := by
  induction n with
  | zero => exact ⟨0, rfl, fun k hk hk0 => by omega, Nat.le_refl 0⟩
  | succ n ih =>
      by_cases hplug : AtHotPlug values (n + 1)
      · refine ⟨n + 1, hplug, fun k hk hkn => by omega, ?_⟩
        rw [passed_of_atHotPlug hplug]
        exact Nat.le_refl _
      · obtain ⟨a, ha⟩ := ih
        refine ⟨a, ha.start, fun k hak hk => ?_, passed_succ ha.passed⟩
        obtain hlt | rfl := Nat.lt_succ_iff_lt_or_eq.mp (Nat.lt_succ_of_le hk)
        · exact ha.current k hak (Nat.le_of_lt_succ hlt)
        · exact hplug

theorem pc_of_publishes (h : Publishes values n) : (run values n).host.pc = .publish :=
  (Pc.lastAction_publish _).1 ((run_located n).last h rfl).1

private theorem enter_of_fst {p : Pc × Locals} {pc : Pc} (h : p.1 = pc) :
    Host.enter p = .enter (pc, (Host.enter p).locals) := by
  subst h
  rfl

/-- `UsbGetRetryCnt` leads back to `USB_HOT_PLUG`. -/
theorem inRetryCnt_succ (h : (run values n).host.pc.inRetryCnt = true) :
    (run values (n + 1)).host.pc.inRetryCnt = true ∨ AtHotPlug values (n + 1) := by
  obtain ⟨act, -, hstep⟩ := run_step values n
  unfold AtHotPlug
  generalize run values (n + 1) = s' at hstep ⊢
  cases hstep with
  | inner => exact .inl h
  | last => exact (Pc.succ_of_inRetryCnt _ h _ (next_mem_succs _ _)).imp_right enter_of_fst

/-- A control byte other than `0x03` leads to `UsbGetRetryCnt`. -/
theorem inRetryCnt_of_control {stage : Stage}
    (hread : Makes values n (.control stage) (.read (.memory 0x0508#16)))
    (hvalue : values n ≠ 0x03#16) : (run values (n + 1)).host.pc.inRetryCnt = true := by
  obtain ⟨hpc, hread⟩ := hread
  obtain ⟨act, hact, hstep⟩ := run_step values n
  rw [hread] at hact
  have hhost : (run values (n + 1)).host.pc =
      (next (.control stage) { (run values n).host.locals with ioRead := values n }).1 := by
    obtain ⟨op, htodo⟩ := ((run_located n).last hread rfl).2
    rw [hstep.enter_of_single htodo, hpc]
    rfl
  rw [hhost, next, if_pos hvalue]
  rfl

/-- After a failed stage the host is in `UsbGetRetryCnt` until `USB_HOT_PLUG` is passed. -/
theorem inRetryCnt_of_failed {stage : Stage} {k : Nat}
    (hread : Makes values k (.control stage) (.read (.memory 0x0508#16)))
    (hvalue : values k ≠ 0x03#16) (hkn : k < n)
    (hplug : ∀ a, k < a → a ≤ n → ¬AtHotPlug values a) :
    (run values n).host.pc.inRetryCnt = true := by
  induction n, hkn using Nat.le_induction with
  | base => exact inRetryCnt_of_control hread hvalue
  | succ n hkn ih =>
      have hprev := ih fun a hka han => hplug a hka (Nat.le_succ_of_le han)
      exact (inRetryCnt_succ hprev).resolve_right
        (hplug (n + 1) (Nat.lt_succ_of_lt hkn) (Nat.le_refl _))

/-- Whatever the reads return, keys are published only after a complete enumeration. -/
theorem keysNeedEnumeration (values : Nat → BitVec 16) : KeysNeedEnumeration values where
  complete h n hplug hhn hpublish := by
    obtain ⟨a, ha⟩ := run_attempt values n
    have hpassed := ha.passed
    rw [pc_of_publishes hpublish] at hpassed
    refine ⟨a, ?_, ha.start, ha.current, hpassed⟩
    by_contra hlt
    exact ha.current h (Nat.lt_of_not_le hlt) hhn hplug
  failed stage k n hread hvalue hkn hpublish := by
    by_contra hnone
    have hplug : ∀ a, k < a → a ≤ n → ¬AtHotPlug values a :=
      fun a hka han hplug => hnone ⟨a, hka, han, hplug⟩
    have hretry := inRetryCnt_of_failed hread hvalue hkn hplug
    rw [pc_of_publishes hpublish] at hretry
    exact Bool.noConfusion hretry

end Run

/-! ## Chips -/

section Chips

variable {C O E : Type} {d : Device C O E} {chip : C} {o : Nat → O}

/-- What the calls return in the run of a device that takes no steps of its own. -/
def returned (d : Device C O E) (chip : C) (o : Nat → O) (n : Nat) : BitVec 16 :=
  let s := d.run chip (fun n => .host (o n)) n
  s.action?.elim 0#16 fun act => (d.perform (o n) act s.chip).1

/-- The host cannot tell two chips apart that return the same value. -/
theorem hostStep_of_returned {s : System C} {s' : System Unit} {o : O} {v : BitVec 16}
    (hhost : s'.host = s.host) (haddr : s'.hpiAddr = s.hpiAddr)
    (hvalue : ∀ act, s.action? = some act → v = (d.perform o act s.chip).1) :
    (device.hostStep v s').host = (d.hostStep o s).host ∧
      (device.hostStep v s').hpiAddr = (d.hostStep o s).hpiAddr := by
  cases htodo : s.host.todo with
  | nil =>
      simp only [hostStep, hhost, htodo]
      exact ⟨trivial, haddr⟩
  | cons op rest =>
      have hperform : (device.perform v (op.action s.hpiAddr) s'.chip).1 =
          (d.perform o (op.action s.hpiAddr) s.chip).1 := by
        have hv := hvalue _ (System.action?_of_cons htodo)
        cases hact : op.action s.hpiAddr with
        | read r =>
            rw [hact] at hv
            exact hv
        | write r word => rfl
        | publish => rfl
      simp only [hostStep, hhost, htodo, haddr, hperform, and_self]

/-- Whatever is assumed about the chip, `main` runs as with the values that it returns. -/
theorem run_returned (n : Nat) :
    (run (returned d chip o) n).host = (d.run chip (fun n => .host (o n)) n).host ∧
      (run (returned d chip o) n).hpiAddr = (d.run chip (fun n => .host (o n)) n).hpiAddr := by
  induction n with
  | zero => exact ⟨rfl, rfl⟩
  | succ n ih =>
      refine hostStep_of_returned (s := d.run chip (fun n => .host (o n)) n) ih.1 ih.2 ?_
      intro act hact
      rw [returned, hact]
      rfl

theorem publishes_returned_iff (n : Nat) :
    Publishes (returned d chip o) n ↔
      (d.run chip (fun n => .host (o n)) n).action? = some .publish := by
  rw [Publishes, System.action?, System.action?, (run_returned n).1, (run_returned n).2]

/-- With a chip that completes everything, the first key is published in step 492. -/
example : ∃ values, Publishes values 492 :=
  ⟨returned Keycode.device 0#16 fun _ => Keycode.answers A_DM_STAT,
    (publishes_returned_iff 492).mpr (by decide +kernel)⟩

end Chips

end Enumeration

end SpaceInvaders.Usb
