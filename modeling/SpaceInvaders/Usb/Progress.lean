import SpaceInvaders.Machine.Eventually
import SpaceInvaders.Usb.Device

/-!
# Progress of the host

Under fairness the host makes its next call some time, from the point of the
program where it is, and therefore leaves every block. Where it goes depends on
the value it reads, which is left to the device.
-/

namespace SpaceInvaders.Usb

open Machine

namespace Device

variable {C O E : Type} {d : Device C O E} {chip : C} {events : Nat → Event O E} {n m : Nat}

/-- The host makes steps again and again. -/
def HostFair (events : Nat → Event O E) : Prop := Recurs fun n => ∃ o, events n = .host o

/-- Events of the chip come again and again. -/
def ChipFair (events : Nat → Event O E) : Prop := Recurs fun n => ∃ e, events n = .chip e

/-- Between its steps the host stays at its point of the program. -/
theorem host_of_le (hnm : n ≤ m) (hchip : ∀ k, n ≤ k → k < m → ¬∃ o, events k = .host o) :
    (d.run chip events m).host = (d.run chip events n).host := by
  induction m, hnm using Nat.le_induction with
  | base => rfl
  | succ m hnm ih =>
      rw [← ih fun k hnk hk => hchip k hnk (Nat.lt_succ_of_lt hk)]
      cases he : events m with
      | host o => exact absurd ⟨o, he⟩ (hchip m hnm (Nat.lt_succ_self m))
      | chip e => rw [run_succ_of_chip he]

/-- A fair host makes its next step from where it is. -/
theorem exists_hostStep (d : Device C O E) (chip : C) (hfair : HostFair events) (n : Nat) :
    ∃ m o, n ≤ m ∧ events m = .host o ∧
      (d.run chip events m).host = (d.run chip events n).host := by
  obtain ⟨m, hnm, ⟨o, he⟩, hbefore⟩ := exists_first (hfair n)
  exact ⟨m, o, hnm, he, host_of_le hnm hbefore⟩

/-- A fair host leaves its block. The rank is the number of calls that are left. -/
theorem leadsTo_succs (hfair : HostFair events) (pc : Pc) :
    LeadsTo (fun n => (d.run chip events n).host.pc = pc)
      (fun n => (d.run chip events n).host.pc ∈ pc.succs) := by
  refine LeadsTo.of_rank (fun n => (d.run chip events n).host.todo.length) ?_
  rintro n rfl
  obtain ⟨m, o, hnm, he, hhost⟩ := exists_hostStep d chip hfair n
  obtain ⟨act, -, hstep⟩ := run_hostStep d chip he
  rw [← hhost]
  refine ⟨m + 1, Nat.le_succ_of_le hnm, ?_⟩
  generalize d.run chip events (m + 1) = s' at hstep ⊢
  cases hstep with
  | inner htodo =>
      right
      refine ⟨rfl, ?_⟩
      rw [htodo]
      exact Nat.lt_succ_self _
  | last => exact .inl (next_mem_succs _ _)

/-- A block with one successor leads there. -/
theorem leadsTo_succ (hfair : HostFair events) {pc q : Pc} (hsuccs : pc.succs = [q]) :
    LeadsTo (fun n => (d.run chip events n).host.pc = pc)
      (fun n => (d.run chip events n).host.pc = q) := by
  refine (leadsTo_succs hfair pc).trans (.of_imp ?_)
  intro n h
  rw [hsuccs] at h
  exact List.mem_singleton.1 h

end Device

end SpaceInvaders.Usb
