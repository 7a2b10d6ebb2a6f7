import SpaceInvaders.Usb.Session

/-!
# The keycode register

After every poll `main` reads the word at `0x051E`, where a report has its first
two key bytes, and publishes it on the PIO that the game reads. A poll that the
keyboard answers with NAK is completed as well and writes nothing there, and
`main` does not look at the control byte. Before the first report the word is a
remainder of the enumeration. When the keyboard is removed, the PIO keeps what
has been published last.

`run_truthful` shows that the register tells the truth as long as `main` polls
for a report that has come, and the keyboard is removed with its keys released.
-/

namespace SpaceInvaders.Usb

open Machine

/-- The buffer is read in one block, and only the enumeration stores there. -/
@[simp] theorem Pc.lastAction_reportWrite (pc : Pc) (word : BitVec 16) :
    pc.lastAction ≠ .write (.memory 0x051E#16) word := by
  cases pc <;> simp [lastAction, HUSB_SIE1_pCurrentTDPtr, HPI_SIE1_MSG_ADR]

theorem Pc.storesTo_report {pc : Pc} (h : pc.isPolling = true) : pc.storesTo 0x051E#16 = false := by
  cases pc with
  | submit job => cases job <;> first | rfl | exact Bool.noConfusion h
  | resubmit job => cases job <;> first | rfl | exact Bool.noConfusion h
  | _ => rfl

theorem Pc.publish_of_succ (pc : Pc) : .publish ∈ pc.succs → pc = .readKeycode := by
  cases pc with
  | waitClear job => cases job <;> simp [succs]
  | control stage => cases stage <;> simp [succs]
  | _ => simp [succs]

namespace Keycode

/-- A keyboard report, as far as the program looks at it. -/
structure Report where
  key1 : BitVec 8
  key2 : BitVec 8
deriving Repr, DecidableEq

/-- The word at `0x051E`, with the first keycode in the lower byte. -/
def Report.word (r : Report) : BitVec 16 := r.key2 ++ r.key1

/-- The state is the word at `0x051E`, an event the delivery of a report. All
else the chip may answer as it likes. -/
def device : Device (BitVec 16) (Register → BitVec 16) Report where
  read o r word := (if r = .memory 0x051E#16 then word else o r, word)
  write r value word := if r = .memory 0x051E#16 then value else word
  event report _ := report.word

/-- The run from power-up, with anything at `0x051E`. -/
def run (word : BitVec 16) (events : Nat → Event (Register → BitVec 16) Report) (n : Nat) :
    System (BitVec 16) :=
  device.run word events n

section Spec

variable (word : BitVec 16) (events : Nat → Event (Register → BitVec 16) Report)

/-- The last report that has been delivered since the last completed enumeration. -/
def lastReport : Nat → Option Report
  | 0 => none
  | n + 1 =>
    match events n with
    | .chip report => some report
    | .host _ =>
      if CompletesEnumeration (run word events n) (run word events (n + 1)) then none
      else lastReport n

/-- A keycode has been published since the host was at `USB_HOT_PLUG`. -/
def published : Nat → Bool
  | 0 => false
  | n + 1 =>
    match events n with
    | .chip _ => published n
    | .host _ =>
      if (run word events n).action? = some .publish then true
      else if ReachesHotPlug (run word events n) (run word events (n + 1)) then false
      else published n

/-- The keycode register tells the truth in state `n` and when the host writes it
in step `n`. -/
structure Truthful (n : Nat) : Prop where
  publishes : ∀ o, events n = .host o → (run word events n).action? = some .publish →
    (run word events (n + 1)).keycode = (lastReport word events n).elim 0#16 Report.word
  noneHeld : published word events n = false ∨ (run word events n).host.pc.isRemoved = true →
    (run word events n).keycode = 0#16

/-- The condition on step `n`. -/
structure Meets (n : Nat) : Prop where
  /-- The buffer is read after a report has been delivered. -/
  delivered : ∀ o, events n = .host o →
    (run word events n).action? = some (.read (.memory 0x051E#16)) →
      lastReport word events n ≠ none
  /-- No report is delivered between the read and the store to the PIO. -/
  undisturbed : ∀ report, events n = .chip report → (run word events n).host.pc ≠ .publish
  /-- The keyboard is found to be removed after its keys were released. -/
  released : (run word events n).host.pc = .plugRetry →
    (run word events (n + 1)).host.pc = .removed1 → (run word events n).keycode = 0#16

end Spec

section Step

variable {s s' : System (BitVec 16)} {o : Register → BitVec 16} {act : Action}

theorem perform_word (o : Register → BitVec 16) (w : BitVec 16)
    (h : ∀ value, act ≠ .write (.memory 0x051E#16) value) : (device.perform o act w).2 = w := by
  cases act with
  | read r => rfl
  | write r value =>
      refine if_neg ?_
      rintro rfl
      exact h value rfl
  | publish => rfl

/-- In the polling loop the host leaves the buffer alone. -/
theorem hostStep_word (hpolling : s.host.pc.isPolling = true) (hstep : device.HostStep o s act s') :
    s'.chip = s.chip := by
  cases hstep with
  | inner _ _ hinner =>
      refine perform_word o s.chip ?_
      intro value hact
      have hstores : s.host.pc.storesTo 0x051E#16 = true := by
        rw [hact] at hinner
        exact hinner
      rw [Pc.storesTo_report hpolling] at hstores
      exact Bool.noConfusion hstores
  | last => exact perform_word o s.chip (Pc.lastAction_reportWrite _)

/-- The host comes to the store to the PIO with the word of the buffer. -/
theorem fetch_step (hlocated : s.Located) (hstep : device.HostStep o s act s')
    (hpc' : s'.host.pc = .publish) : s.host.pc = .readKeycode ∧
      act = .read (.memory 0x051E#16) ∧ s'.host.locals.keycode = s.chip := by
  cases hstep with
  | inner htodo more =>
      have hpc : s.host.pc = .publish := hpc'
      have hblock : block s.host.pc s.host.locals = [.publish] := by
        rw [hpc]
        rfl
      rw [hlocated.todo_of_single hblock] at htodo
      exact absurd (List.cons.inj htodo).2.symm more
  | last =>
      have hsucc := next_mem_succs s.host.pc (s.host.pc.lastAction.after
        (device.perform o s.host.pc.lastAction s.chip).1 s.host.locals)
      have hpc : s.host.pc = .readKeycode := by
        refine Pc.publish_of_succ _ ?_
        rw [← hpc']
        exact hsucc
      rw [hpc]
      exact ⟨rfl, rfl, rfl⟩

/-- The PIO changes by the store to it. -/
theorem hostStep_keycode (hstep : device.HostStep o s act s') :
    s'.keycode = if act = .publish then s.host.locals.keycode else s.keycode := by
  cases hstep with
  | inner _ _ hinner =>
      rw [if_neg]
      intro hact
      rw [hact] at hinner
      exact Bool.noConfusion hinner
  | last => rfl

/-- The store to the PIO is followed by a look at the plug. -/
theorem publish_step (hact : act = .publish) (hstep : device.HostStep o s act s') :
    s.host.pc = .publish ∧ s'.host.pc = .checkPlug := by
  cases hstep with
  | inner _ _ hinner =>
      rw [hact] at hinner
      exact Bool.noConfusion hinner
  | last =>
      have hpc := (Pc.lastAction_publish _).1 hact
      rw [hpc]
      exact ⟨rfl, rfl⟩

/-- The PIO holds 0 until a keycode is published and after the keyboard has been
removed; `published` tells whether one has been published in the session. -/
structure Idle (published : Bool) (s : System (BitVec 16)) : Prop where
  region : published = true → s.host.pc.isPolling = true ∨ s.host.pc.isRemoved = true
  fresh : published = false → s.keycode = 0#16
  removed : s.host.pc.isRemoved = true → s.keycode = 0#16

/-- A publication begins the rest of the session. -/
theorem idle_of_publish (hact : act = .publish) (hstep : device.HostStep o s act s') :
    Idle true s' := by
  obtain ⟨-, hpc⟩ := publish_step hact hstep
  refine ⟨fun _ => .inl ?_, fun h => Bool.noConfusion h, ?_⟩
  · rw [hpc]
    rfl
  · rw [hpc]
    exact fun h => Bool.noConfusion h

namespace Idle

variable {published : Bool}

/-- Inside a block nothing changes. -/
theorem inner (h : Idle published s) (hpc : s'.host.pc = s.host.pc)
    (hkeycode : s'.keycode = s.keycode) : Idle published s' where
  region := by
    rw [hpc]
    exact h.region
  fresh := by
    rw [hkeycode]
    exact h.fresh
  removed := by
    rw [hpc, hkeycode]
    exact h.removed

/-- `USB_HOT_PLUG` is reached with 0 in the PIO. -/
theorem hotPlug (h : Idle published s) (hsucc : s'.host.pc ∈ s.host.pc.succs)
    (hpc' : s'.host.pc = .resetMailbox) : s.keycode = 0#16 := by
  cases hpublished : published with
  | false => exact h.fresh hpublished
  | true =>
      rw [hpc'] at hsucc
      obtain hpolling | hremoved | ⟨hremoved, -⟩ :=
        Pc.succ_of_session (h.region hpublished) hsucc
      · exact Bool.noConfusion hpolling
      · exact Bool.noConfusion hremoved
      · exact h.removed hremoved

/-- The wait for a removed keyboard is entered with 0 in the PIO. -/
theorem isRemoved (h : Idle published s) (hsucc : s'.host.pc ∈ s.host.pc.succs)
    (hreleased : s.host.pc = .plugRetry → s'.host.pc = .removed1 → s.keycode = 0#16)
    (hremoved : s'.host.pc.isRemoved = true) : s.keycode = 0#16 := by
  obtain ⟨hpc, hpc'⟩ | hprev := Pc.isRemoved_of_succ _ _ hsucc hremoved
  · exact hreleased hpc hpc'
  · exact h.removed hprev

/-- The end of a block other than a publication. -/
theorem next (h : Idle published s) (hsucc : s'.host.pc ∈ s.host.pc.succs)
    (hreleased : s.host.pc = .plugRetry → s'.host.pc = .removed1 → s.keycode = 0#16)
    (hkeycode : s'.keycode = s.keycode) :
    Idle (if ReachesHotPlug s s' then false else published) s' := by
  have hremoved := h.isRemoved hsucc hreleased
  rw [← hkeycode] at hremoved
  by_cases hreaches : ReachesHotPlug s s'
  · rw [if_pos hreaches]
    refine ⟨fun h => Bool.noConfusion h, fun _ => ?_, hremoved⟩
    rw [hkeycode]
    exact h.hotPlug hsucc hreaches.2
  · rw [if_neg hreaches]
    refine ⟨fun hpublished => ?_, ?_, hremoved⟩
    · obtain hpolling | hremoved | ⟨hremoved, hpc'⟩ :=
        Pc.succ_of_session (h.region hpublished) hsucc
      · exact .inl hpolling
      · exact .inr hremoved
      · refine absurd ⟨?_, hpc'⟩ hreaches
        intro hpc
        rw [hpc] at hremoved
        exact Bool.noConfusion hremoved
    · rw [hkeycode]
      exact h.fresh

theorem hostStep (h : Idle published s)
    (hreleased : s.host.pc = .plugRetry → s'.host.pc = .removed1 → s.keycode = 0#16)
    (hstep : device.HostStep o s act s') :
    Idle (if act = .publish then true
      else if ReachesHotPlug s s' then false
      else published) s' := by
  by_cases hact : act = .publish
  · rw [if_pos hact]
    exact idle_of_publish hact hstep
  · have hkeycode := hostStep_keycode hstep
    rw [if_neg hact] at hkeycode ⊢
    obtain ⟨hpc, -⟩ | ⟨hsucc, -⟩ := hstep.pc_cases
    · rw [if_neg fun hreaches => hreaches.1 (hpc ▸ hreaches.2)]
      exact h.inner hpc hkeycode
    · exact h.next hsucc hreleased hkeycode

end Idle

end Step

section Run

variable {word : BitVec 16} {events : Nat → Event (Register → BitVec 16) Report} {n : Nat}

theorem run_hostStep (word : BitVec 16) {o : Register → BitVec 16} (he : events n = .host o) :
    ∃ act, (run word events n).action? = some act ∧
      device.HostStep o (run word events n) act (run word events (n + 1)) :=
  Device.run_hostStep device word he

theorem run_located (n : Nat) : (run word events n).Located := Device.run_located n

theorem run_succ_of_report {report : Report} (he : events n = .chip report) :
    run word events (n + 1) = { run word events n with chip := report.word } :=
  Device.run_succ_of_chip he

theorem lastReport_of_report {report : Report} (he : events n = .chip report) :
    lastReport word events (n + 1) = some report := by
  rw [lastReport, he]

theorem lastReport_of_host {o : Register → BitVec 16} (he : events n = .host o) :
    lastReport word events (n + 1) =
      if CompletesEnumeration (run word events n) (run word events (n + 1)) then none
      else lastReport word events n := by
  rw [lastReport, he]

theorem published_of_report {report : Report} (he : events n = .chip report) :
    published word events (n + 1) = published word events n := by
  rw [published, he]

theorem published_of_host {o : Register → BitVec 16} (he : events n = .host o) :
    published word events (n + 1) =
      if (run word events n).action? = some .publish then true
      else if ReachesHotPlug (run word events n) (run word events (n + 1)) then false
      else published word events n := by
  rw [published, he]

/-! ### The published word -/

/-- In the polling loop, the buffer holds the last report. -/
def Buffered (word : BitVec 16) (events : Nat → Event (Register → BitVec 16) Report) (n : Nat) :
    Prop :=
  (run word events n).host.pc.isPolling = true →
    ∀ report, lastReport word events n = some report → (run word events n).chip = report.word

theorem run_buffered (n : Nat) : Buffered word events n := by
  induction n with
  | zero => exact fun h => Bool.noConfusion h
  | succ n ih =>
      intro hpolling report hreport
      cases he : events n with
      | chip r =>
          rw [lastReport_of_report he] at hreport
          rw [run_succ_of_report he, Option.some.inj hreport]
      | host o =>
          obtain ⟨act, -, hstep⟩ := run_hostStep word he
          rw [lastReport_of_host he] at hreport
          have hprev : (run word events n).host.pc.isPolling = true := by
            obtain ⟨hpc, -⟩ | ⟨hsucc, -⟩ := hstep.pc_cases
            · rw [← hpc]
              exact hpolling
            · obtain hcompletes | hprev := Pc.isPolling_of_succ _ _ hsucc hpolling
              · have hcompletes : CompletesEnumeration _ _ := hcompletes
                rw [if_pos hcompletes] at hreport
                cases hreport
              · exact hprev
          rw [if_neg (not_completesEnumeration_of_isPolling hprev)] at hreport
          rw [hostStep_word hprev hstep]
          exact ih hprev report hreport

/-- The keycode that is going to be published is that of the last report. -/
theorem run_fetched (hmeets : Meets word events n)
    (hpc : (run word events (n + 1)).host.pc = .publish) :
    (run word events (n + 1)).host.locals.keycode =
      (lastReport word events (n + 1)).elim 0#16 Report.word := by
  cases he : events n with
  | chip report =>
      rw [run_succ_of_report he] at hpc
      exact absurd hpc (hmeets.undisturbed report he)
  | host o =>
      obtain ⟨act, hact, hstep⟩ := run_hostStep word he
      obtain ⟨hread, rfl, hkeycode⟩ := fetch_step (run_located n) hstep hpc
      have hpolling : (run word events n).host.pc.isPolling = true := by
        rw [hread]
        rfl
      rw [hkeycode, lastReport_of_host he,
        if_neg (not_completesEnumeration_of_isPolling hpolling)]
      cases hreport : lastReport word events n with
      | none => exact absurd hreport (hmeets.delivered o he hact)
      | some report => exact run_buffered n hpolling report hreport

/-! ### The PIO between two sessions -/

theorem run_idle (hmeets : ∀ k, k < n → Meets word events k) :
    Idle (published word events n) (run word events n) := by
  induction n with
  | zero => exact ⟨fun h => Bool.noConfusion h, fun _ => rfl, fun h => Bool.noConfusion h⟩
  | succ n ih =>
      have hidle := ih fun k hk => hmeets k (Nat.lt_succ_of_lt hk)
      cases he : events n with
      | chip report =>
          rw [published_of_report he, run_succ_of_report he]
          exact ⟨hidle.region, hidle.fresh, hidle.removed⟩
      | host o =>
          obtain ⟨act, hact, hstep⟩ := run_hostStep word he
          rw [published_of_host he, hact]
          simp only [Option.some.injEq]
          exact hidle.hostStep (hmeets n (Nat.lt_succ_self n)).released hstep

/-- The keycode register tells the truth in every run that meets the condition. -/
theorem run_truthful (word : BitVec 16) (events : Nat → Event (Register → BitVec 16) Report)
    (N : Nat) (hmeets : ∀ n, n < N → Meets word events n) :
    ∀ n, n < N → Truthful word events n := by
  intro n hn
  constructor
  · intro o he hact
    obtain ⟨act, hact', hstep⟩ := run_hostStep word he
    have hpublish : act = .publish := Option.some.inj (hact'.symm.trans hact)
    obtain ⟨hpc, -⟩ := publish_step hpublish hstep
    rw [hostStep_keycode hstep, if_pos hpublish]
    cases n with
    | zero => cases hpc
    | succ n => exact run_fetched (hmeets n (Nat.lt_of_succ_lt hn)) hpc
  · intro h
    have hidle : Idle (published word events n) (run word events n) :=
      run_idle fun k hk => hmeets k (Nat.lt_trans hk hn)
    obtain h | h := h
    · exact hidle.fresh h
    · exact hidle.removed h

/-- In the polling loop a report stays the last one until the next. -/
theorem lastReport_of_isPolling {m : Nat} (hm : lastReport word events m ≠ none) (hmn : m ≤ n)
    (hpolling : ∀ k, m ≤ k → k < n → (run word events k).host.pc.isPolling = true) :
    lastReport word events n ≠ none := by
  induction n, hmn using Nat.le_induction with
  | base => exact hm
  | succ n hmn ih =>
      have hprev := ih fun k hmk hk => hpolling k hmk (Nat.lt_succ_of_lt hk)
      cases he : events n with
      | chip report =>
          rw [lastReport_of_report he]
          exact Option.some_ne_none report
      | host o =>
          have hpolling := hpolling n hmn (Nat.lt_succ_self n)
          rw [lastReport_of_host he, if_neg (not_completesEnumeration_of_isPolling hpolling)]
          exact hprev

/-- A chip that completes everything with success. -/
def answers (plug : BitVec 16) : Register → BitVec 16
  | .mailbox => COMM_ACK
  | .status => HPI_STATUS_SIE1msg_FLAG
  | .address => 0#16
  | .memory a =>
    if a = HPI_SIE1_MSG_ADR then HUSB_TDListDone
    else if a = USB1_CTL_REG then plug
    else 0x0003#16

/-- The space bar is pressed for the first poll and released for the second one,
and the keyboard is unplugged. -/
def typed (n : Nat) : Event (Register → BitVec 16) Report :=
  if n = 485 then .chip ⟨0x2C#8, 0#8⟩
  else if n = 505 then .chip ⟨0#8, 0#8⟩
  else .host (answers (if n < 506 then A_DM_STAT else 0#16))

theorem run_truthful_typed : (run 0#16 typed 494).keycode = 0x002C#16 ∧
    (run 0#16 typed 530).host.pc = .removed1 ∧ ∀ n, n < 540 → Truthful 0#16 typed n := by
  refine ⟨by decide +kernel, by decide +kernel, run_truthful 0#16 typed 540 ?_⟩
  have hread : ∀ n, n < 540 → (run 0#16 typed n).action? = some (.read (.memory 0x051E#16)) →
      486 ≤ n ∧ n < 513 := by decide +kernel
  have hpolling : ∀ n, n < 513 → 486 ≤ n → (run 0#16 typed n).host.pc.isPolling = true := by
    decide +kernel
  have hzero : ∀ n, n < 540 → (run 0#16 typed n).host.pc = .plugRetry →
      (run 0#16 typed n).keycode = 0#16 := by decide +kernel
  have hfirst : lastReport 0#16 typed 486 ≠ none := by
    rw [lastReport_of_report (show typed 485 = .chip ⟨0x2C#8, 0#8⟩ from rfl)]
    exact Option.some_ne_none _
  intro n hn
  refine ⟨?_, ?_, fun hpc _ => hzero n hn hpc⟩
  · intro o _ hact
    obtain ⟨hle, hlt⟩ := hread n hn hact
    exact lastReport_of_isPolling hfirst hle fun k hk hkn => hpolling k (by omega) hk
  · intro report he
    have hcases : n = 485 ∨ n = 505 := by
      unfold typed at he
      split at he
      · exact .inl ‹_›
      · split at he
        · exact .inr ‹_›
        · cases he
    obtain rfl | rfl := hcases
    · decide +kernel
    · decide +kernel

/-- The first poll is answered with NAK, and the host publishes the last word of
the second descriptor of `UsbGetReportDesc`. -/
theorem run_truthful_fails :
    ¬∀ (word : BitVec 16) (events : Nat → Event (Register → BitVec 16) Report) (n : Nat),
      Truthful word events n := by
  intro h
  have hnone : ∀ n, lastReport 0#16 (fun _ => .host (answers A_DM_STAT)) n = none := by
    intro n
    induction n with
    | zero => rfl
    | succ n ih =>
        rw [lastReport_of_host rfl, ih]
        split <;> rfl
  have hkeycode := (h 0#16 (fun _ => .host (answers A_DM_STAT)) 492).publishes _ rfl
    (by decide +kernel)
  rw [hnone] at hkeycode
  exact absurd hkeycode (by decide +kernel)

end Run

end Keycode

end SpaceInvaders.Usb
