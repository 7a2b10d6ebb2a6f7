import SpaceInvaders.Usb.Device

/-!
# Completions of transfer lists

The chip as the submit loops and waits see it: it works on the lists whose
pointers the host has written, and some time after each submission it posts
`TDListDone` in the SIE1 message register and raises the flag in `HPI_STATUS`.
A read of the message register lowers the flag; the word stays until the host
clears it.

The submit loops of `main` test the flag once, right after the submission, and
submit the list again if it is low. Nothing ever waits for the list at `0x0576`.
Where lists are completed before these points of the program, `run_quiet` says
where one can be in flight, and the host stores no word of a list there.
-/

namespace SpaceInvaders.Usb

open Machine

namespace Completion

structure State where
  /-- The SIE1 message register. -/
  msg : BitVec 16
  /-- `HPI_STATUS_SIE1msg_FLAG`. -/
  flag : Bool
  /-- The lists that have been submitted and not been completed. -/
  inFlight : Nat
deriving Repr, DecidableEq

namespace State

/-- `o` answers what is not modelled. -/
def read (o : BitVec 16) (r : Register) (s : State) : BitVec 16 × State :=
  match r with
  | .status =>
    (o &&& ~~~HPI_STATUS_SIE1msg_FLAG ||| if s.flag then HPI_STATUS_SIE1msg_FLAG else 0#16, s)
  | .memory a => if a = HPI_SIE1_MSG_ADR then (s.msg, { s with flag := false }) else (o, s)
  | _ => (o, s)

def write (r : Register) (word : BitVec 16) (s : State) : State :=
  if r = .memory HPI_SIE1_MSG_ADR then { s with msg := word }
  else if r = .memory HUSB_SIE1_pCurrentTDPtr then { s with inFlight := s.inFlight + 1 }
  else s

/-- The chip completes a list. -/
def complete (s : State) : State :=
  if s.inFlight = 0 then s
  else { msg := s.msg ||| HUSB_TDListDone, flag := true, inFlight := s.inFlight - 1 }

end State

/-- The event is a completion. -/
def device : Device State (BitVec 16) Unit where
  read := State.read
  write := State.write
  event _ := State.complete

/-- The run from power-up, with anything in the message register. -/
def run (msg : BitVec 16) (flag : Bool) (events : Nat → Event (BitVec 16) Unit) (n : Nat) :
    System State :=
  device.run ⟨msg, flag, 0⟩ events n

/-- The action writes a word of the TD area or the list pointer. -/
def WritesList : Action → Prop
  | .write (.memory a) _ => (0x0500#16 ≤ a ∧ a ≤ 0x05FF#16) ∨ a = HUSB_SIE1_pCurrentTDPtr
  | _ => False

instance (act : Action) : Decidable (WritesList act) := by
  unfold WritesList
  split <;> infer_instance

/-- A block that stores nothing on its way writes no word of a list there. -/
theorem WritesList.not_inner {act : Action} {pc : Pc} (h : WritesList act)
    (hstores : ∀ a, pc.storesTo a = false) : pc.inner act = false := by
  unfold WritesList at h
  split at h
  · exact hstores _
  · exact h.elim

/-- The condition on a state in which the host makes the next step. -/
structure InTime (s : System State) : Prop where
  /-- A submit loop tests the status after its list has been completed. -/
  status : ∀ job, s.host.pc = .status job → s.chip.inFlight = 0
  /-- The ad hoc list has been completed when `UsbSetConfig` writes its first word. -/
  setConfig : s.host.pc = .submit (.enumeration .setConfig) →
    ∀ word, s.action? = some (.write (.memory 0x0500#16) word) → s.chip.inFlight = 0

/-- Where a list can be in flight. -/
def Quiet (s : System State) : Prop :=
  s.chip.inFlight = 0 ∨ (∃ job, s.host.pc = .status job) ∨ s.host.pc = .dataSize ∨
    (s.host.pc = .submit (.enumeration .setConfig) ∧ 18 ≤ s.host.todo.length)

section Step

variable {s s' : System State} {o : BitVec 16} {act : Action}

theorem read_inFlight (o : BitVec 16) (r : Register) (s : State) :
    (s.read o r).2.inFlight = s.inFlight := by
  unfold State.read
  split
  · rfl
  · split <;> rfl
  · rfl

theorem write_inFlight {r : Register} (word : BitVec 16) (s : State)
    (h : r ≠ .memory HUSB_SIE1_pCurrentTDPtr) : (s.write r word).inFlight = s.inFlight := by
  rw [State.write, if_neg h]
  split <;> rfl

/-- Only a submission puts a list in flight. -/
theorem perform_inFlight (o : BitVec 16) (s : State)
    (h : ∀ word, act ≠ .write (.memory HUSB_SIE1_pCurrentTDPtr) word) :
    (device.perform o act s).2.inFlight = s.inFlight := by
  cases act with
  | read r => exact read_inFlight o r s
  | write r word =>
      refine write_inFlight word s ?_
      rintro rfl
      exact h word rfl
  | publish => rfl

theorem complete_inFlight (s : State) : s.complete.inFlight = s.inFlight - 1 := by
  unfold State.complete
  split
  · next hnone => rw [hnone]
  · rfl

/-- `UsbSetConfig` writes the address `0x0500` and then the word there. -/
theorem first_actions (hlocated : s.Located)
    (hpc : s.host.pc = .submit (.enumeration .setConfig)) (hlength : 18 ≤ s.host.todo.length) :
    (s.host.todo.length = 19 ∧ s.action? = some (.write .address 0x0500#16)) ∨
      (s.host.todo.length = 18 ∧ s.action? = some (.write (.memory 0x0500#16) 0x050C#16)) := by
  obtain ⟨a, made, -, hsplit, haddr⟩ := hlocated
  rw [hpc] at hsplit
  have hblock : made ++ s.host.todo = usbSetConfig.map .call := hsplit
  have htotal := congrArg List.length hblock
  rw [List.length_append, show (usbSetConfig.map Op.call).length = 19 from rfl] at htotal
  cases made with
  | nil =>
      rw [List.nil_append] at hblock
      rw [System.action?, hblock]
      exact .inl ⟨rfl, rfl⟩
  | cons op made =>
      rw [List.length_cons] at htotal
      obtain rfl : made = [] := List.eq_nil_of_length_eq_zero (by omega)
      obtain ⟨rfl, htodo⟩ := List.cons.inj hblock
      have htodo : s.host.todo = (usbSetConfig.map Op.call).tail := htodo
      rw [System.action?, htodo, haddr]
      exact .inr ⟨rfl, rfl⟩

/-- A write inside a block. -/
theorem Quiet.inner (h : Quiet s) (hlocated : s.Located) (hin : InTime s) {op : Op}
    {rest : List Op} (htodo : s.host.todo = op :: rest) {chip : State}
    (hchip : chip.inFlight = s.chip.inFlight) (hpiAddr keycode : BitVec 16) :
    Quiet ⟨⟨s.host.pc, rest, s.host.locals⟩, hpiAddr, chip, keycode⟩ := by
  obtain h | h | h | ⟨hpc, hlength⟩ := h
  · exact .inl (hchip.trans h)
  · exact .inr (.inl h)
  · exact .inr (.inr (.inl h))
  · obtain ⟨htotal, -⟩ | ⟨-, hact⟩ := first_actions hlocated hpc hlength
    · rw [htodo, List.length_cons] at htotal
      exact .inr (.inr (.inr ⟨hpc, Nat.le_of_eq (Nat.succ.inj htotal).symm⟩))
    -- the first word is written, and by then nothing is in flight
    · exact .inl (hchip.trans (hin.setConfig hpc _ hact))

/-- The end of a block that submits nothing. -/
theorem Quiet.next (h : Quiet s) (hin : InTime s) (l : Locals)
    (hlast : ∀ p, s.host.pc.lastAction ≠ .write (.memory HUSB_SIE1_pCurrentTDPtr) p)
    {chip : State} (hchip : chip.inFlight = s.chip.inFlight) (hpiAddr keycode : BitVec 16) :
    Quiet ⟨.enter (Usb.next s.host.pc l), hpiAddr, chip, keycode⟩ := by
  obtain h | ⟨job, hpc⟩ | hpc | ⟨hpc, -⟩ := h
  · exact .inl (hchip.trans h)
  · exact .inl (hchip.trans (hin.status job hpc))
  · rw [hpc]
    exact .inr (.inr (.inr ⟨rfl, Nat.le_of_ble_eq_true rfl⟩))
  · rw [hpc] at hlast
    exact absurd rfl (hlast _)

/-- A submission is followed by a status test, or by the read of the data size. -/
theorem quiet_of_submission {pc : Pc} {p : BitVec 16} (l : Locals)
    (hlast : pc.lastAction = .write (.memory HUSB_SIE1_pCurrentTDPtr) p) (chip : State)
    (hpiAddr keycode : BitVec 16) :
    Quiet ⟨.enter (Usb.next pc l), hpiAddr, chip, keycode⟩ := by
  obtain ⟨⟨job, hpc | hpc⟩, -⟩ | ⟨hpc, -⟩ := Pc.lastAction_pointer hlast
  · rw [hpc]
    exact .inr (.inl ⟨job, rfl⟩)
  · rw [hpc]
    exact .inr (.inl ⟨job, rfl⟩)
  · rw [hpc]
    exact .inr (.inr (.inl rfl))

/-- A host step that is in time keeps lists in flight where nothing touches them. -/
theorem Quiet.hostStep (h : Quiet s) (hlocated : s.Located) (hin : InTime s)
    (hstep : device.HostStep o s act s') : Quiet s' := by
  cases hstep with
  | inner htodo more hinner =>
      have hchip := perform_inFlight o s.chip (Pc.not_pointer_of_inner hinner)
      exact h.inner hlocated hin htodo hchip _ _
  | last =>
      by_cases hsubmits : ∃ p, s.host.pc.lastAction = .write (.memory HUSB_SIE1_pCurrentTDPtr) p
      · obtain ⟨p, hlast⟩ := hsubmits
        exact quiet_of_submission _ hlast _ _ _
      · have hlast := not_exists.1 hsubmits
        exact h.next hin _ hlast (perform_inFlight o s.chip hlast) _ _

/-- Where a list can be in flight, a step that is in time does not write to it. -/
theorem Quiet.not_overwritten (h : Quiet s) (hlocated : s.Located) (hin : InTime s)
    (hact : s.action? = some act) (hwrites : WritesList act) : s.chip.inFlight = 0 := by
  obtain h | ⟨job, hpc⟩ | hpc | ⟨hpc, hlength⟩ := h
  · exact h
  · exact hin.status job hpc
  · have hinner : s.host.pc.inner act = false := by
      rw [hpc]
      exact hwrites.not_inner fun _ => rfl
    obtain ⟨hlast, -⟩ := hlocated.last hact hinner
    rw [hpc] at hlast
    subst hlast
    exact hwrites.elim
  · obtain ⟨-, hfirst⟩ | ⟨-, hfirst⟩ := first_actions hlocated hpc hlength
    · rw [hfirst] at hact
      obtain rfl := Option.some.inj hact
      exact hwrites.elim
    · exact hin.setConfig hpc _ hfirst

/-- A completion that has been read leaves nothing in flight. -/
theorem Quiet.of_waitClear (h : Quiet s) {job : Job} (hpc : s.host.pc = .waitClear job) :
    s.chip.inFlight = 0 := by
  rw [Quiet, hpc] at h
  simpa using h

end Step

section Run

variable {msg : BitVec 16} {flag : Bool} {events : Nat → Event (BitVec 16) Unit}

/-- A completion takes a list out of flight. -/
theorem Quiet.complete {s : System State} (h : Quiet s) :
    Quiet { s with chip := s.chip.complete } := by
  obtain h | h := h
  · refine .inl ?_
    rw [complete_inFlight, h]
  · exact .inr h

theorem run_hostStep {n : Nat} {o : BitVec 16} (he : events n = .host o) :
    ∃ act, (run msg flag events n).action? = some act ∧
      device.HostStep o (run msg flag events n) act (run msg flag events (n + 1)) :=
  Device.run_hostStep device ⟨msg, flag, 0⟩ he

/-- In a run that is in time, lists are in flight only where nothing touches them. -/
theorem run_quiet {n : Nat}
    (hin : ∀ k, k < n → (∃ o, events k = .host o) → InTime (run msg flag events k)) :
    Quiet (run msg flag events n) := by
  induction n with
  | zero => exact .inl rfl
  | succ n ih =>
      have hquiet := ih fun k hk => hin k (Nat.lt_succ_of_lt hk)
      cases he : events n with
      | chip e =>
          rw [run, Device.run_succ_of_chip he]
          exact hquiet.complete
      | host o =>
          obtain ⟨act, -, hstep⟩ := run_hostStep he
          exact hquiet.hostStep (Device.run_located n) (hin n (Nat.lt_succ_self n) ⟨o, he⟩) hstep

/-- A chip that acknowledges both commands and reports a keyboard. -/
def answer (n : Nat) : BitVec 16 := if n < 90 then COMM_ACK else A_DM_STAT

end Run

end Completion

end SpaceInvaders.Usb
