import SpaceInvaders.Machine.Stream
import Mathlib.Order.Iterate

/-!
# Edges of one-bit signals

A signal is a stream of bits. `RisesAt x n` says that `x` is low in cycle `n`
and high in cycle `n + 1`; `risingEdges x n` counts the rising edges that have
happened by cycle `n`.

Registers clocked by a signal instead of by the cycle itself make one step at
each rising edge, so in cycle `n` they have made `risingEdges x n` steps. A
clock that is toggled in every cycle rises in every second one.
-/

namespace Machine

/-- The signal changes from low to high between cycle `n` and cycle `n + 1`. -/
def RisesAt (x : Nat → Bool) (n : Nat) : Prop := x n = false ∧ x (n + 1) = true

instance (x : Nat → Bool) : DecidablePred (RisesAt x) :=
  fun n => inferInstanceAs (Decidable (x n = false ∧ x (n + 1) = true))

/-- The number of rising edges of `x` up to and including cycle `n`. -/
def risingEdges (x : Nat → Bool) (n : Nat) : Nat := Nat.count (RisesAt x) n

@[simp] theorem risingEdges_zero (x : Nat → Bool) : risingEdges x 0 = 0 := Nat.count_zero _

theorem risingEdges_succ (x : Nat → Bool) (n : Nat) :
    risingEdges x (n + 1) = risingEdges x n + if RisesAt x n then 1 else 0 :=
  Nat.count_succ _ _

/-- Registers that step at the rising edges of `x` have been stepped once for
every edge so far. -/
theorem clocked_eq_iterate {σ : Type*} {x : Nat → Bool} {y : Nat → σ} {f : σ → σ}
    (hy : ∀ n, y (n + 1) = if RisesAt x n then f (y n) else y n) (n : Nat) :
    y n = f^[risingEdges x n] (y 0) :=
  gated_eq_iterate fun k _ => hy k

section Toggling

variable {x : Nat → Bool}

theorem toggling_eq (h0 : x 0 = false) (hx : ∀ n, x (n + 1) = !x n) (n : Nat) :
    x n = decide (n % 2 = 1) := by
  induction n with
  | zero => exact h0
  | succ n ih =>
      rw [hx, ih]
      obtain h | h := Nat.mod_two_eq_zero_or_one n <;> simp [Nat.add_mod, h]

theorem toggling_risesAt_iff (h0 : x 0 = false) (hx : ∀ n, x (n + 1) = !x n) (n : Nat) :
    RisesAt x n ↔ n % 2 = 0 := by
  rw [RisesAt, hx, toggling_eq h0 hx n]
  simp

/-- A toggling clock has risen in cycles `1, 3, 5, …`. -/
theorem toggling_risingEdges (h0 : x 0 = false) (hx : ∀ n, x (n + 1) = !x n) (n : Nat) :
    risingEdges x n = (n + 1) / 2 := by
  induction n with
  | zero => rfl
  | succ n ih =>
      rw [risingEdges_succ, ih]
      simp only [toggling_risesAt_iff h0 hx]
      split <;> omega

end Toggling

end Machine
