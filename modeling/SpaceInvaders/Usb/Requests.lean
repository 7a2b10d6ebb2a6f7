import SpaceInvaders.Usb.ControlTransfer

/-!
# Submissions to a chip that stores at any time

The chip of `Usb.Memory` leaves the memory alone while the host writes a list.
Here it may store a word in every step of its own, also between two words of a
list and before the pointer is written. `run_submitsRequest` assumes only that it
stores nothing over the list that the host is writing. That is not idle: a host
that submits a list again while the chip still works on it lets the chip write
results into the words of the new one.
-/

namespace SpaceInvaders.Usb

open Machine

/-- A chip with any answers. The event stores a word at an address. -/
def storingChip : Device Memory (BitVec 16) (BitVec 16 × BitVec 16) where
  read o _ mem := (o, mem)
  write r word mem := (Action.write r word).store mem
  event e mem := Function.update mem e.1 e.2

/-- The host is writing a list with a word at `b`. -/
def Host.WritesAt (h : Host) (b : BitVec 16) : Prop :=
  ∃ job, (h.pc = .submit job ∨ h.pc = .resubmit job) ∧
    ∃ i, i < (job.words h.locals).length ∧ b = 0x0500#16 + BitVec.ofNat 16 (2 * i)

/-- A submission of the list at `0x0500` is a request of the job the host is at. -/
def SubmitsRequest (s : System Memory) : Prop :=
  s.action? = some (.write (.memory HUSB_SIE1_pCurrentTDPtr) 0x0500#16) →
    ∃ job, (s.host.pc = .submit job ∨ s.host.pc = .resubmit job) ∧
      Requests s.chip s.host.locals job

/-- The list that the host is writing is as the calls made so far have left it. -/
def Spared (s : System Memory) : Prop :=
  ∃ a made mem, s.Progress a made ∧
    ∀ b, s.host.WritesAt b → s.chip b = storeAll mem (actions a made) b

section Run

variable {mem : Memory} {events : Nat → Event (BitVec 16) (BitVec 16 × BitVec 16)}

theorem storingChip_perform (mem : Memory) (o : BitVec 16) (act : Action) :
    (storingChip.perform o act mem).2 = act.store mem := by
  cases act with
  | read r => rfl
  | write r word => rfl
  | publish => rfl

/-- What an action stores at an address depends on the word there only. -/
theorem store_congr {mem mem' : Memory} {b : BitVec 16} (h : mem b = mem' b) (act : Action) :
    act.store mem b = act.store mem' b := by
  unfold Action.store
  split
  · simp only [Function.update_apply, h]
  · exact h

theorem Spared.located {s : System Memory} (h : Spared s) : s.Located := by
  obtain ⟨a, made, -, hprogress, -⟩ := h
  exact ⟨a, made, hprogress⟩

theorem spared_enter (p : Pc × Locals) (a : BitVec 16) (mem : Memory) (keycode : BitVec 16) :
    Spared ⟨.enter p, a, mem, keycode⟩ :=
  ⟨_, [], mem, System.progress_enter _ _ _ _, fun _ _ => rfl⟩

/-- The next word of a list. -/
theorem Spared.hostStep {s s' : System Memory} (h : Spared s) {o : BitVec 16} {act : Action}
    (hstep : storingChip.HostStep o s act s') : Spared s' := by
  obtain ⟨a, made, mem, ⟨-, hsplit, haddr⟩, hchip⟩ := h
  cases hstep with
  | @inner op rest htodo more hinner =>
      refine ⟨a, made ++ [op], mem, ⟨more, ?_, ?_⟩, ?_⟩
      · rw [List.append_assoc, List.singleton_append, ← htodo]
        exact hsplit
      · rw [advance_append, ← haddr]
        rfl
      · intro b hb
        rw [actions_append, storeAll_append, ← haddr, storingChip_perform]
        exact store_congr (hchip b hb) _
  | last => exact spared_enter _ _ _ _

/-- A store of the chip elsewhere. -/
theorem Spared.event {s : System Memory} (h : Spared s) {e : BitVec 16 × BitVec 16}
    (hspares : ¬s.host.WritesAt e.1) :
    Spared { s with chip := storingChip.event e s.chip } := by
  obtain ⟨a, made, mem, hprogress, hchip⟩ := h
  refine ⟨a, made, mem, ⟨hprogress.todo, hprogress.split, hprogress.hpiAddr⟩, ?_⟩
  intro b hb
  have hne : b ≠ e.1 := by
    rintro rfl
    exact hspares hb
  exact (Function.update_of_ne hne _ _).trans (hchip b hb)

theorem run_spared {n : Nat}
    (hspares : ∀ k e, k < n → events k = .chip e →
      ¬(storingChip.run mem events k).host.WritesAt e.1) :
    Spared (storingChip.run mem events n) := by
  induction n with
  | zero => exact spared_enter _ _ _ _
  | succ n ih =>
      have hspared := ih fun k e hk => hspares k e (Nat.lt_succ_of_lt hk)
      cases he : events n with
      | chip e =>
          rw [Device.run_succ_of_chip he]
          exact hspared.event (hspares n e (Nat.lt_succ_self n) he)
      | host o =>
          obtain ⟨act, -, hstep⟩ := Device.run_hostStep storingChip mem he
          exact hspared.hostStep hstep

/-- When the host submits the list of a job, its words are in the memory. -/
theorem Spared.holds {s : System Memory} (h : Spared s) {job : Job} {p : BitVec 16}
    (hpc : s.host.pc = .submit job ∨ s.host.pc = .resubmit job)
    (hact : s.action? = some (.write (.memory HUSB_SIE1_pCurrentTDPtr) p)) :
    Holds s.chip 0x0500#16 (job.words s.host.locals) := by
  obtain ⟨-, op, htodo⟩ := h.located.last hact (Pc.inner_pointer _ _)
  obtain ⟨a, made, mem, hprogress, hchip⟩ := h
  have hblock : block s.host.pc s.host.locals =
      (submitList 0x0500#16 (job.words s.host.locals)).map .call := by
    rw [← job.build_eq]
    obtain hpc | hpc := hpc <;> rw [hpc] <;> rfl
  have hactions := hprogress.actions_eq htodo
  rw [hblock, actions_submitList, actions, List.append_cons] at hactions
  obtain ⟨hmade, -⟩ := List.append_inj' hactions rfl
  intro i hi
  have hfit : (0x0500#16).toNat + 2 * (job.words s.host.locals).length < 2 ^ 16 := by
    have hlength := job.words_length s.host.locals
    rw [BitVec.toNat_ofNat]
    omega
  rw [hchip _ ⟨job, hpc, i, hi, rfl⟩, ← hmade, storeAll_append]
  exact holds_storeAll _ hfit i hi

/-- In every run in which the chip stores nothing over a list that the host is writing,
each submission of the list at `0x0500` finds there the control transfer of the current
stage, or the interrupt transaction of the current poll. -/
theorem run_submitsRequest (mem : Memory)
    (events : Nat → Event (BitVec 16) (BitVec 16 × BitVec 16)) (N : Nat)
    (hspares : ∀ n e, n < N → events n = .chip e →
      ¬(storingChip.run mem events n).host.WritesAt e.1) :
    ∀ n, n ≤ N → SubmitsRequest (storingChip.run mem events n) := by
  intro n hn hact
  have hspared : Spared (storingChip.run mem events n) :=
    run_spared fun k e hk => hspares k e (Nat.lt_of_lt_of_le hk hn)
  obtain ⟨hlast, -⟩ := hspared.located.last hact (Pc.inner_pointer _ _)
  obtain ⟨⟨job, hpc⟩, -⟩ | ⟨-, hp⟩ := Pc.lastAction_pointer hlast
  · exact ⟨job, hpc, (hspared.holds hpc hact).requests⟩
  · exact absurd hp (by decide)

/-- While the host writes the list of `UsbSetAddress`, the chip stores a word behind it. -/
def storesBehind (n : Nat) : Event (BitVec 16) (BitVec 16 × BitVec 16) :=
  if n = 100 then .chip (0x0580#16, 0x0003#16) else .host (if n < 90 then COMM_ACK else A_DM_STAT)

theorem run_submitsRequest_storesBehind :
    (storingChip.run 0 storesBehind 100).host.pc = .submit (.enumeration .setAddress) ∧
      (storingChip.run 0 storesBehind 111).action? =
        some (.write (.memory HUSB_SIE1_pCurrentTDPtr) 0x0500#16) ∧
      ∃ job, ((storingChip.run 0 storesBehind 111).host.pc = .submit job ∨
          (storingChip.run 0 storesBehind 111).host.pc = .resubmit job) ∧
        Requests (storingChip.run 0 storesBehind 111).chip
          (storingChip.run 0 storesBehind 111).host.locals job := by
  have hact : (storingChip.run 0 storesBehind 111).action? =
      some (.write (.memory HUSB_SIE1_pCurrentTDPtr) 0x0500#16) := by decide +kernel
  refine ⟨by decide +kernel, hact, ?_⟩
  refine run_submitsRequest 0 storesBehind 111 ?_ 111 (Nat.le_refl 111) hact
  rintro n e - he ⟨job, hjob, i, hi, haddr⟩
  obtain ⟨rfl, rfl⟩ : n = 100 ∧ e = (0x0580#16, 0x0003#16) := by
    unfold storesBehind at he
    split at he
    · next hn => exact ⟨hn, (Event.chip.inj he).symm⟩
    · cases he
  -- every list ends before `0x0580`
  have hlt : i < 64 := Nat.lt_of_lt_of_le hi (job.words_length _)
  bv_omega

end Run

end SpaceInvaders.Usb
