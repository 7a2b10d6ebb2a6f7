import SpaceInvaders.Usb.Device

/-!
# Sessions of a keyboard

A session is an enumeration, the polls after it and the wait for a removed
keyboard. It begins at `USB_HOT_PLUG`. The polling loop is entered through its
head, when the last stage has succeeded, and it is left for the wait only.
-/

namespace SpaceInvaders.Usb

/-- The blocks of the polling loop. -/
def Pc.isPolling : Pc → Bool
  | .submit job | .status job | .resubmit job | .waitRead job | .waitClear job => job == .polling
  | .readKeycode | .publish | .checkPlug | .plugRetry => true
  | _ => false

/-- The blocks of the loop that waits for a removed keyboard. -/
def Pc.isRemoved : Pc → Bool
  | .removed1 | .removed2 | .removed3 => true
  | _ => false

/-- The polling loop is entered at its head, when the enumeration is completed. -/
theorem Pc.isPolling_of_succ (pc : Pc) : ∀ q ∈ pc.succs, q.isPolling = true →
    (pc = .control .getReportDesc ∧ q = .submit .polling) ∨ pc.isPolling = true := by
  cases pc with
  | waitClear job => cases job <;> simp [succs, isPolling]
  | control stage => cases stage <;> simp [succs, isPolling]
  | _ => simp [succs, isPolling]

/-- The polling loop is left when the keyboard has been removed. -/
theorem Pc.succ_of_isPolling (pc : Pc) (h : pc.isPolling = true) : ∀ q ∈ pc.succs,
    q.isPolling = true ∨ (pc = .plugRetry ∧ q = .removed1) := by
  cases pc with
  | waitClear job => cases job <;> simp_all [succs, isPolling]
  | control stage => exact Bool.noConfusion h
  | _ => simp_all [succs, isPolling]

/-- The wait for a removed keyboard is entered from the polling loop. -/
theorem Pc.isRemoved_of_succ (pc : Pc) : ∀ q ∈ pc.succs, q.isRemoved = true →
    (pc = .plugRetry ∧ q = .removed1) ∨ pc.isRemoved = true := by
  cases pc with
  | waitClear job => cases job <;> simp [succs, isRemoved]
  | control stage => cases stage <;> simp [succs, isRemoved]
  | _ => simp [succs, isRemoved]

/-- The wait is left for `USB_HOT_PLUG`. -/
theorem Pc.succ_of_isRemoved (pc : Pc) (h : pc.isRemoved = true) : ∀ q ∈ pc.succs,
    q.isRemoved = true ∨ q = .resetMailbox := by
  cases pc <;> simp_all [succs, isRemoved]

/-- From polls and wait the only way back to `USB_HOT_PLUG` leads out of the wait. -/
theorem Pc.succ_of_session {pc q : Pc} (h : pc.isPolling = true ∨ pc.isRemoved = true)
    (hsucc : q ∈ pc.succs) : q.isPolling = true ∨ q.isRemoved = true ∨
      (pc.isRemoved = true ∧ q = .resetMailbox) := by
  obtain hpolling | hremoved := h
  · obtain hpolling' | ⟨-, rfl⟩ := Pc.succ_of_isPolling _ hpolling _ hsucc
    · exact .inl hpolling'
    · exact .inr (.inl rfl)
  · obtain hremoved' | hq := Pc.succ_of_isRemoved _ hremoved _ hsucc
    · exact .inr (.inl hremoved')
    · exact .inr (.inr ⟨hremoved, hq⟩)

/-- The head of the polling loop does not follow itself. -/
theorem Pc.submit_polling_not_succ : Pc.submit .polling ∉ (Pc.submit .polling).succs := by
  decide

section Steps

variable {C : Type}

/-- The last stage of the enumeration has succeeded and the polling loop begins. -/
def CompletesEnumeration (s s' : System C) : Prop :=
  s.host.pc = .control .getReportDesc ∧ s'.host.pc = .submit .polling

/-- The head of the polling loop is reached. -/
def BeginsPoll (s s' : System C) : Prop :=
  s.host.pc ≠ .submit .polling ∧ s'.host.pc = .submit .polling

/-- `USB_HOT_PLUG` is reached. -/
def ReachesHotPlug (s s' : System C) : Prop :=
  s.host.pc ≠ .resetMailbox ∧ s'.host.pc = .resetMailbox

instance (s s' : System C) : Decidable (CompletesEnumeration s s') :=
  inferInstanceAs (Decidable (_ ∧ _))

instance (s s' : System C) : Decidable (BeginsPoll s s') :=
  inferInstanceAs (Decidable (_ ∧ _))

instance (s s' : System C) : Decidable (ReachesHotPlug s s') :=
  inferInstanceAs (Decidable (_ ∧ _))

/-- Inside a block no enumeration is completed. -/
theorem not_completesEnumeration {s s' : System C} (h : s'.host.pc = s.host.pc) :
    ¬CompletesEnumeration s s' := by
  rintro ⟨hpc, hpc'⟩
  rw [h, hpc] at hpc'
  exact Pc.noConfusion hpc'

/-- In the polling loop no enumeration is completed. -/
theorem not_completesEnumeration_of_isPolling {s s' : System C}
    (h : s.host.pc.isPolling = true) : ¬CompletesEnumeration s s' := by
  rintro ⟨hpc, -⟩
  rw [hpc] at h
  exact Bool.noConfusion h

end Steps

end SpaceInvaders.Usb
