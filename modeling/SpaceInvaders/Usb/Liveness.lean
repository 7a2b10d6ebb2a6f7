import SpaceInvaders.Usb.Enumeration
import SpaceInvaders.Usb.Memory

/-!
# Where the host can get stuck, and that it recovers

Two facts about every fair run of `main`, for any chip. The blocks are ranked
along the program such that an edge either leads to the store to the keycode
PIO or back to `USB_HOT_PLUG`, or lowers the rank, or stays in one of the loops
in which the host waits for the chip; the counted loops lower the rank through
their counter. So a run publishes keys for ever, or restarts for ever, or is in
one single wait from some time on (`run_resolves`).

A second rank measures the way to the PIO when the chip answers every question
as the host wants it. It falls from every point of the program, the failure
path and the retry loops included. So whatever has happened before, once the
chip begins to oblige the host publishes keys again (`run_recovers`).
-/

namespace SpaceInvaders.Usb

open Machine

/-! ## Waits and ranks -/

/-- The loops without a bound. -/
inductive Wait where
  /-- Step 1, for any status. -/
  | command
  /-- The submit loop. -/
  | acceptance (job : Job)
  /-- `UsbWaitTDListDone`. -/
  | completion (job : Job)
  /-- No keyboard at `USB_HOT_PLUG`. -/
  | insertion
  /-- `UsbGetRetryCnt`. -/
  | retry
  /-- The keyboard has been pulled out. -/
  | removal
deriving Repr, DecidableEq

/-- The wait a block belongs to. -/
def Pc.wait : Pc → Option Wait
  | .stepOneStatus => some .command
  | .status job | .resubmit job => some (.acceptance job)
  | .waitRead job | .waitClear job => some (.completion job)
  | .waitInsert => some .insertion
  | .retryPoll => some .retry
  | .removed1 | .removed2 | .removed3 => some .removal
  | _ => none

/-- The rank of a block: between two passages through the PIO store or
`USB_HOT_PLUG` it does not rise. -/
def Pc.rank : Pc → Nat
  | .publish => 0
  | .readKeycode => 1
  | .waitRead .polling | .waitClear .polling => 2
  | .status .polling | .resubmit .polling => 3
  | .submit .polling => 4
  | .removed1 | .removed2 | .removed3 => 5
  | .plugRetry => 6
  | .checkPlug => 7
  | .retryCnt => 8
  | .retryPoll => 9
  | .retryClear => 10
  | .retryMsg => 11
  | .retryStatus => 12
  | .control stage => 13 + 10 * (8 - stage.index)
  | .controlStatus stage => 14 + 10 * (8 - stage.index)
  | .waitRead (.enumeration stage) | .waitClear (.enumeration stage) =>
    15 + 10 * (8 - stage.index)
  | .status (.enumeration stage) | .resubmit (.enumeration stage) => 16 + 10 * (8 - stage.index)
  | .submit (.enumeration stage) => 17 + 10 * (8 - stage.index)
  | .dataSize => 50
  | .endpointDesc => 51
  | .deviceInfo => 52
  | .waitInsert | .stepOneError | .stepTwoError => 98
  | .detectRetry => 99
  | .detect => 100
  | .stepTwoMailbox => 101
  | .stepTwo => 102
  | .stepOneMailbox => 103
  | .stepOneStatus => 104
  | .stepOne => 105
  | .resetSie2 => 106
  | .resetSie1 => 107
  | .resetStatus => 108
  | .resetMailbox => 109

/-- How often the counted loops can still go round; the 8-bit counter could wrap once. -/
def roundsLeft (hotPlugCount : BitVec 8) : Nat :=
  if hotPlugCount = 255#8 then 8 else 7 - hotPlugCount.toNat

theorem roundsLeft_le (c : BitVec 8) : roundsLeft c ≤ 8 := by
  unfold roundsLeft
  split <;> omega

theorem roundsLeft_succ {c : BitVec 8} (h : c + 1#8 < 7#8) :
    roundsLeft (c + 1#8) < roundsLeft c := by
  revert c
  decide

/-- The rank at the head of a block. -/
def rankOf (p : Pc × Locals) : Nat :=
  16 * p.1.rank +
    if p.1 = .detectRetry ∨ p.1 = .plugRetry then roundsLeft p.2.hotPlugCount else 0

/-- An edge of the program stores to the PIO, restarts, makes progress, stays in a
wait or goes round a counted loop. -/
def Edge (pc q : Pc) : Prop :=
  q = .publish ∨ q = .resetMailbox ∨ q.rank < pc.rank ∨
    (pc.wait ≠ none ∧ q.wait = pc.wait ∧ q.rank = pc.rank) ∨
    (q = pc ∧ (pc = .detectRetry ∨ pc = .plugRetry))

instance (pc q : Pc) : Decidable (Edge pc q) :=
  inferInstanceAs (Decidable (_ ∨ _ ∨ _ ∨ _ ∨ _))

theorem Pc.edge {pc : Pc} (hpc : pc ≠ .publish) : ∀ q ∈ pc.succs, Edge pc q := by
  cases pc with
  | publish => exact absurd rfl hpc
  | submit job | status job | resubmit job | waitRead job | waitClear job =>
      cases job with
      | enumeration stage => cases stage <;> decide
      | polling => decide
  | controlStatus stage | control stage => cases stage <;> decide
  | _ => decide

/-- A counted loop that goes round has fewer rounds left. -/
theorem roundsLeft_next {pc : Pc} (hcounted : pc = .detectRetry ∨ pc = .plugRetry) {l : Locals}
    (hloop : (next pc l).1 = pc) :
    roundsLeft (next pc l).2.hotPlugCount < roundsLeft l.hotPlugCount := by
  obtain rfl | rfl := hcounted
  · by_cases hpresent : devicePresent l.ioRead = true
    · simp [next, hpresent] at hloop
    · by_cases hcount : l.hotPlugCount + 1#8 < 5#8
      · simp only [next, if_neg hpresent, if_pos hcount]
        exact roundsLeft_succ (BitVec.lt_trans hcount (by decide))
      · simp [next, hpresent, hcount] at hloop
  · by_cases hpresent : devicePresent l.ioRead = true
    · simp [next, hpresent, beginPoll] at hloop
    · by_cases hcount : l.hotPlugCount + 1#8 < 7#8
      · simp only [next, if_neg hpresent, if_pos hcount]
        exact roundsLeft_succ hcount
      · simp [next, hpresent, hcount] at hloop

/-- The end of a block, with the assignments made on the way. -/
theorem next_edge {pc : Pc} (hpc : pc ≠ .publish) (l : Locals) :
    (next pc l).1 = .publish ∨ (next pc l).1 = .resetMailbox ∨
      rankOf (next pc l) < rankOf (pc, l) ∨
      (pc.wait ≠ none ∧ (next pc l).1.wait = pc.wait ∧ rankOf (next pc l) = rankOf (pc, l)) := by
  obtain hq | hq | hfalls | ⟨hwait, hsame, hrank⟩ | ⟨hloop, hcounted⟩ :=
    Pc.edge hpc _ (next_mem_succs pc l)
  · exact .inl hq
  · exact .inr (.inl hq)
  · refine .inr (.inr (.inl ?_))
    have hrounds := roundsLeft_le (next pc l).2.hotPlugCount
    simp only [rankOf]
    split <;> omega
  · refine .inr (.inr (.inr ⟨hwait, hsame, ?_⟩))
    have hnot : ∀ q : Pc, q.wait ≠ none → ¬(q = .detectRetry ∨ q = .plugRetry) := by
      rintro q hq (rfl | rfl) <;> exact hq rfl
    rw [rankOf, rankOf, if_neg (hnot _ (hsame ▸ hwait)), if_neg (hnot _ hwait), hrank]
  · refine .inr (.inr (.inl ?_))
    rw [rankOf, rankOf, hloop, if_pos hcounted, if_pos hcounted]
    exact Nat.add_lt_add_left (roundsLeft_next hcounted hloop) _

/-! ## Fair runs -/

namespace Device

variable {C O E : Type} {d : Device C O E} {chip : C} {events : Nat → Event O E} {n : Nat}

/-- Step `n` stores to the keycode PIO. -/
def PublishesAt (d : Device C O E) (chip : C) (events : Nat → Event O E) (n : Nat) : Prop :=
  (∃ o, events n = .host o) ∧ (d.run chip events n).action? = some .publish

/-- Step `n` leaves a block. -/
def LeavesBlock (d : Device C O E) (chip : C) (events : Nat → Event O E) (n : Nat) : Prop :=
  ∃ o, events n = .host o ∧
    (d.run chip events n).action? = some (d.run chip events n).host.pc.lastAction ∧
    (d.run chip events (n + 1)).host = .enter (Usb.next (d.run chip events n).host.pc
      ((d.run chip events n).host.pc.lastAction.after
        (d.perform o (d.run chip events n).host.pc.lastAction (d.run chip events n).chip).1
        (d.run chip events n).host.locals))

/-- The point of the program, up to the calls that are left. -/
def at? (d : Device C O E) (chip : C) (events : Nat → Event O E) (n : Nat) : Pc × Locals :=
  ((d.run chip events n).host.pc, (d.run chip events n).host.locals)

/-- A step leaves a block or stays in it with the same locals. -/
theorem leavesBlock_or (d : Device C O E) (chip : C) (events : Nat → Event O E) (n : Nat) :
    d.LeavesBlock chip events n ∨ d.at? chip events (n + 1) = d.at? chip events n := by
  cases he : events n with
  | chip e =>
      right
      rw [at?, run_succ_of_chip he]
      rfl
  | host o =>
      obtain ⟨act, hact, hstep⟩ := run_hostStep d chip he
      rw [at?]
      generalize hs' : d.run chip events (n + 1) = s' at hstep ⊢
      cases hstep with
      | inner => exact .inr rfl
      | last => exact .inl ⟨o, he, hact, by rw [hs']⟩

/-- A fair host leaves its block, with the locals it has now. -/
theorem exists_leavesBlock (d : Device C O E) (chip : C) (hfair : HostFair events) (n : Nat) :
    ∃ m, n ≤ m ∧ d.LeavesBlock chip events m ∧ d.at? chip events m = d.at? chip events n := by
  induction hlength : (d.run chip events n).host.todo.length using Nat.strong_induction_on
    generalizing n with
  | _ k ih =>
      obtain ⟨m, o, hnm, he, hhost⟩ := exists_hostStep d chip hfair n
      have hat : d.at? chip events m = d.at? chip events n := by rw [at?, at?, hhost]
      obtain ⟨act, hact, hstep⟩ := run_hostStep d chip he
      generalize hs' : d.run chip events (m + 1) = s' at hstep
      cases hstep with
      | @inner op rest htodo _ _ =>
          have hlt : (d.run chip events (m + 1)).host.todo.length < k := by
            rw [hs', ← hlength, ← hhost, htodo]
            exact Nat.lt_succ_self _
          obtain ⟨l, hml, hleaves, hl⟩ := ih _ hlt (m + 1) rfl
          refine ⟨l, by omega, hleaves, hl.trans (Eq.trans ?_ hat)⟩
          rw [at?, hs']
          rfl
      | last => exact ⟨m, hnm, ⟨o, he, hact, by rw [hs']⟩, hat⟩

/-- A host at the PIO store makes it. -/
theorem leadsTo_publishesAt (hfair : HostFair events) :
    LeadsTo (fun n => (d.run chip events n).host.pc = .publish) (d.PublishesAt chip events) := by
  intro n hn
  obtain ⟨m, hnm, ⟨o, he, hact, -⟩, hat⟩ := exists_leavesBlock d chip hfair n
  have hpc : (d.run chip events m).host.pc = .publish := (congrArg Prod.fst hat).trans hn
  rw [hpc] at hact
  exact ⟨m, hnm, ⟨o, he⟩, hact⟩

theorem rankOf_after (pc : Pc) (v : BitVec 16) (act : Action) (l : Locals) :
    rankOf (pc, act.after v l) = rankOf (pc, l) := by
  unfold Action.after
  split <;> rfl

/-- Away from the PIO store and `USB_HOT_PLUG` the rank does not rise, and it
stays the same at the end of a block only within a wait. -/
theorem rankOf_step (hpc : (d.run chip events n).host.pc ≠ .publish)
    (hpublish : (d.run chip events (n + 1)).host.pc ≠ .publish)
    (hplug : (d.run chip events (n + 1)).host.pc ≠ .resetMailbox) :
    rankOf (d.at? chip events (n + 1)) ≤ rankOf (d.at? chip events n) ∧
      (d.LeavesBlock chip events n →
        rankOf (d.at? chip events (n + 1)) = rankOf (d.at? chip events n) →
        (d.run chip events n).host.pc.wait ≠ none ∧
          (d.run chip events (n + 1)).host.pc.wait = (d.run chip events n).host.pc.wait) := by
  have hedge : d.LeavesBlock chip events n →
      rankOf (d.at? chip events (n + 1)) < rankOf (d.at? chip events n) ∨
        ((d.run chip events n).host.pc.wait ≠ none ∧
          (d.run chip events (n + 1)).host.pc.wait = (d.run chip events n).host.pc.wait ∧
          rankOf (d.at? chip events (n + 1)) = rankOf (d.at? chip events n)) := by
    rintro ⟨o, -, -, hnext⟩
    rw [hnext] at hpublish hplug
    rw [at?, at?, hnext, ← rankOf_after _
      (d.perform o (d.run chip events n).host.pc.lastAction (d.run chip events n).chip).1
      (d.run chip events n).host.pc.lastAction (d.run chip events n).host.locals]
    obtain hq | hq | hlt | hwait := next_edge hpc ((d.run chip events n).host.pc.lastAction.after
      (d.perform o (d.run chip events n).host.pc.lastAction (d.run chip events n).chip).1
      (d.run chip events n).host.locals)
    · exact absurd hq hpublish
    · exact absurd hq hplug
    · exact .inl hlt
    · exact .inr hwait
  constructor
  · obtain hleaves | hstays := leavesBlock_or d chip events n
    · obtain hlt | ⟨-, -, heq⟩ := hedge hleaves
      · exact Nat.le_of_lt hlt
      · exact Nat.le_of_eq heq
    · exact Nat.le_of_eq (congrArg rankOf hstays)
  · intro hleaves heq
    obtain hlt | ⟨hwait, hsame, -⟩ := hedge hleaves
    · exact absurd heq (Nat.ne_of_lt hlt)
    · exact ⟨hwait, hsame⟩

/-- A run with a fair host publishes again and again, passes `USB_HOT_PLUG`
again and again, or stays in one of the waits from some time on. -/
theorem run_resolves (d : Device C O E) (chip : C) (events : Nat → Event O E)
    (hfair : HostFair events) :
    Recurs (d.PublishesAt chip events) ∨
      Recurs (fun n => (d.run chip events n).host.pc = .resetMailbox) ∨
      ∃ w N, ∀ n, N ≤ n → (d.run chip events n).host.pc.wait = some w := by
  by_cases hpublish : Recurs fun n => (d.run chip events n).host.pc = .publish
  · left
    intro n
    obtain ⟨m, hnm, hm⟩ := hpublish n
    obtain ⟨k, hmk, hk⟩ := leadsTo_publishesAt hfair m hm
    exact ⟨k, Nat.le_trans hnm hmk, hk⟩
  by_cases hplug : Recurs fun n => (d.run chip events n).host.pc = .resetMailbox
  · exact .inr (.inl hplug)
  right
  right
  simp only [Recurs, not_forall, not_exists, not_and] at hpublish hplug
  obtain ⟨N, hpublish⟩ := hpublish
  obtain ⟨N', hplug⟩ := hplug
  have hstep : ∀ k, max N N' ≤ k → _ := fun k hk =>
    @rankOf_step _ _ _ d chip events k (hpublish k (by omega))
      (hpublish (k + 1) (by omega)) (hplug (k + 1) (by omega))
  obtain ⟨M, hM, hconst⟩ := @exists_settled (fun n => rankOf (d.at? chip events n)) (max N N')
    fun k hk => (hstep k hk).1
  have hwaits : ∀ k, M ≤ k → d.LeavesBlock chip events k → _ := fun k hk hleaves =>
    (hstep k (by omega)).2 hleaves ((hconst (k + 1) (by omega)).trans (hconst k hk).symm)
  obtain ⟨m, hMm, hleaves, -⟩ := exists_leavesBlock d chip hfair M
  obtain ⟨w, hw⟩ := Option.ne_none_iff_exists'.mp (hwaits m hMm hleaves).1
  refine ⟨w, m, fun n hn => ?_⟩
  induction n, hn using Nat.le_induction with
  | base => exact hw
  | succ n hn ih =>
      obtain hleaves | hstays := leavesBlock_or d chip events n
      · exact (hwaits n (by omega) hleaves).2.trans ih
      · rw [show (d.run chip events (n + 1)).host.pc = (d.run chip events n).host.pc from
          congrArg Prod.fst hstays]
        exact ih

/-! ## An obliging chip -/

/-- The value the host hopes to read at the end of a block. -/
def Obliges : Pc → BitVec 16 → Prop
  | .stepOneStatus, v => v ≠ 0#16
  | .stepOneMailbox, v | .stepTwoMailbox, v => v = COMM_ACK
  | .detect, v | .detectRetry, v | .waitInsert, v | .checkPlug, v | .plugRetry, v | .removed3, v =>
    devicePresent v = true
  | .status _, v | .retryPoll, v => sie1Msg v = true
  | .waitRead _, v => v = HUSB_TDListDone
  | .control _, v => v = 0x03#16
  | _, _ => True

/-- From step `N` on the chip answers as the host hopes. -/
def ObligesFrom (d : Device C O E) (chip : C) (events : Nat → Event O E) (N : Nat) : Prop :=
  ∀ n o, N ≤ n → events n = .host o →
    (d.run chip events n).action? = some (d.run chip events n).host.pc.lastAction →
    Obliges (d.run chip events n).host.pc
      (d.perform o (d.run chip events n).host.pc.lastAction (d.run chip events n).chip).1

end Device

/-- A response that shows what the host hopes for wherever it looks. -/
structure Response.Helps (o : Response) : Prop where
  mailbox : o.mailbox = COMM_ACK
  status : o.status = HPI_STATUS_SIE1msg_FLAG
  message : o.memory HPI_SIE1_MSG_ADR = HUSB_TDListDone
  control : o.memory 0x0508#16 = 0x03#16
  lines : devicePresent (o.memory USB1_CTL_REG) = true

theorem Response.Helps.obliges {o : Response} (h : o.Helps) (pc : Pc) (mem : Memory) :
    Device.Obliges pc (memoryChip.perform o pc.lastAction mem).1 := by
  have hflag : o.status ≠ 0#16 := by
    rw [h.status]
    decide
  have hmsg : sie1Msg o.status = true := by
    rw [h.status]
    rfl
  cases pc with
  | stepOneStatus => exact hflag
  | stepOneMailbox | stepTwoMailbox => exact h.mailbox
  | detect | detectRetry | waitInsert | checkPlug | plugRetry | removed3 => exact h.lines
  | status | retryPoll => exact hmsg
  | waitRead => exact h.message
  | control => exact h.control
  | _ => trivial

/-- The way to the PIO store for a chip that obliges. -/
def Pc.way : Pc → Nat
  | .publish => 0
  | .readKeycode => 1
  | .waitClear .polling => 2
  | .waitRead .polling => 3
  | .status .polling => 5
  | .resubmit .polling => 6
  | .submit .polling => 7
  | .checkPlug | .plugRetry => 8
  | .control stage => 10 + 12 * (8 - stage.index)
  | .controlStatus stage => 11 + 12 * (8 - stage.index)
  | .waitClear (.enumeration stage) => 12 + 12 * (8 - stage.index)
  | .waitRead (.enumeration stage) => 13 + 12 * (8 - stage.index)
  | .status (.enumeration stage) => 15 + 12 * (8 - stage.index)
  | .resubmit (.enumeration stage) => 16 + 12 * (8 - stage.index)
  | .submit (.enumeration stage) => 17 + 12 * (8 - stage.index)
  | .dataSize => 54
  | .endpointDesc => 55
  | .deviceInfo => 56
  | .detect | .detectRetry => 114
  | .stepTwoMailbox => 115
  | .stepTwo => 116
  | .stepOneMailbox => 117
  | .stepOneStatus => 118
  | .stepOne => 119
  | .resetSie2 => 120
  | .resetSie1 => 121
  | .resetStatus => 122
  | .resetMailbox => 123
  | .stepOneError | .stepTwoError | .waitInsert | .retryCnt | .removed3 => 124
  | .retryPoll | .removed2 => 125
  | .retryClear | .removed1 => 126
  | .retryMsg => 127
  | .retryStatus => 128

/-- `UsbWaitTDListDone` tests the message after it has cleared the register, so a
wait that has read something else has to go round once more. -/
def wayOf (p : Pc × Locals) : Nat :=
  p.1.way + match p.1 with
    | .waitClear _ => if p.2.ioRead = HUSB_TDListDone then 0 else 2
    | _ => 0

/-- The end of a block after an obliging answer shortens the way. -/
theorem way_next {pc : Pc} (hpc : pc ≠ .publish) {l : Locals} (hv : Device.Obliges pc l.ioRead) :
    wayOf (next pc l) < wayOf (pc, l) := by
  cases pc with
  | publish => exact absurd rfl hpc
  | stepOneStatus =>
      have hmask : l.ioRead &&& 0xFFFF#16 ≠ 0#16 := by
        rwa [show 0xFFFF#16 = BitVec.allOnes 16 from rfl, BitVec.and_allOnes]
      rw [next, if_neg hmask]
      exact (by decide : 117 < 118)
  | detect | detectRetry =>
      simp only [next, Device.Obliges] at hv ⊢
      rw [if_pos hv]
      exact (by decide : 17 + 12 * 8 < 114)
  | retryMsg =>
      rw [next]
      split
      · exact (by decide : 126 < 127)
      · exact (by decide : 124 < 127)
  | waitClear job =>
      by_cases hmsg : l.ioRead = HUSB_TDListDone
      · cases job <;> simp [next, wayOf, Pc.way, hmsg]
      · cases job
        · simp [next, wayOf, Pc.way, hmsg]
          omega
        · simp [next, wayOf, Pc.way, hmsg]
  | submit job | resubmit job | status job | waitRead job =>
      simp only [Device.Obliges] at hv
      cases job <;> simp [next, wayOf, Pc.way, hv]
  | control stage =>
      simp only [Device.Obliges] at hv
      cases stage <;> simp [next, wayOf, Pc.way, hv, Stage.next, Stage.index, beginPoll]
  | controlStatus stage => simp [next, wayOf, Pc.way]
  | dataSize => exact (by decide : 17 + 12 * 3 < 54)
  | _ =>
      simp only [Device.Obliges] at hv
      simp [next, wayOf, Pc.way, hv, beginPoll]

/-- The answer is what the test at the end of the block looks at. -/
theorem obliges_after {pc : Pc} {v : BitVec 16} (hv : Device.Obliges pc v) (l : Locals) :
    Device.Obliges pc (pc.lastAction.after v l).ioRead := by
  cases pc <;> exact hv

theorem wayOf_after (pc : Pc) (v : BitVec 16) (l : Locals) :
    wayOf (pc, pc.lastAction.after v l) = wayOf (pc, l) := by
  cases pc <;> rfl

namespace Device

variable {C O E : Type} {d : Device C O E} {chip : C} {events : Nat → Event O E}

/-- Once the chip obliges, the PIO store lies ahead of every point of the program. -/
theorem leadsTo_publish (hfair : HostFair events) {N : Nat}
    (hobliges : d.ObligesFrom chip events N) :
    LeadsTo (fun n => N ≤ n) (fun n => (d.run chip events n).host.pc = .publish) := by
  refine LeadsTo.of_rank (fun n => wayOf (d.at? chip events n)) ?_
  intro n hN
  by_cases hpc : (d.run chip events n).host.pc = .publish
  · exact ⟨n, Nat.le_refl n, .inl hpc⟩
  · obtain ⟨m, hnm, ⟨o, he, hact, hnext⟩, hat⟩ :=
      exists_leavesBlock d chip hfair n
    have hpc' : (d.run chip events m).host.pc ≠ .publish := by
      rwa [show (d.run chip events m).host.pc = (d.run chip events n).host.pc from
        congrArg Prod.fst hat]
    refine ⟨m + 1, by omega, .inr ⟨by omega, ?_⟩⟩
    have hlt := way_next hpc'
      (obliges_after (hobliges m o (by omega) he hact) (d.run chip events m).host.locals)
    rw [wayOf_after] at hlt
    rw [← hat, at?, at?, hnext]
    exact hlt

/-- A fair host publishes again and again once the chip obliges, whatever has
happened before. -/
theorem run_recovers (d : Device C O E) (chip : C) (events : Nat → Event O E)
    (hfair : HostFair events) (N : Nat) (hobliges : d.ObligesFrom chip events N) :
    Recurs (d.PublishesAt chip events) := by
  intro n
  obtain ⟨m, hm, hpc⟩ := leadsTo_publish hfair hobliges (max n N) (Nat.le_max_right n N)
  obtain ⟨k, hmk, hpublish⟩ := leadsTo_publishesAt hfair m hpc
  exact ⟨k, by omega, hpublish⟩

theorem run_resolves_silent :
    Recurs (memoryChip.PublishesAt 0 fun _ => .host (cooperative 0#16 0#16)) ∨
      Recurs (fun n =>
        (memoryChip.run 0 (fun _ => .host (cooperative 0#16 0#16)) n).host.pc = .resetMailbox) ∨
      ∃ w N, ∀ n, N ≤ n →
        (memoryChip.run 0 (fun _ => .host (cooperative 0#16 0#16)) n).host.pc.wait = some w :=
  run_resolves memoryChip 0 (fun _ => .host (cooperative 0#16 0#16))
    fun n => ⟨n, Nat.le_refl n, _, rfl⟩

/-- A keyboard that is plugged in after 1000 steps. -/
def latePlug (n : Nat) : Event Response Empty :=
  .host (cooperative (if n < 1000 then 0#16 else A_DM_STAT) 0#16)

theorem latePlug_obliges : memoryChip.ObligesFrom 0 latePlug 1000 := by
  intro n o hn he hact
  rw [latePlug, if_neg (Nat.not_lt.mpr hn)] at he
  cases he
  exact Response.Helps.obliges ⟨rfl, rfl, rfl, rfl, rfl⟩ _ _

theorem run_recovers_latePlug : Recurs (memoryChip.PublishesAt 0 latePlug) :=
  run_recovers memoryChip 0 latePlug (fun n => ⟨n, Nat.le_refl n, _, rfl⟩) 1000 latePlug_obliges

end Device

end SpaceInvaders.Usb
