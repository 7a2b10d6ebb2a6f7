import Mathlib.Data.List.Basic

/-!
# The number of ones of a word

`ones x` counts the bits of `x` that are one, for any width. A shift by one
place loses exactly the bit that it pushes out, so it keeps the number of ones
exactly when that bit is zero.
-/

namespace Machine

variable {w : Nat}

/-- The number of bits of `x` that are one. -/
def ones (x : BitVec w) : Nat := (List.range w).countP fun i => x.getLsbD i

/-- The ones of the lowest `n + 1` places are those of the places from 1 on and bit 0. -/
private theorem countP_range_succ_bot (p : Nat → Bool) (n : Nat) :
    (List.range (n + 1)).countP p = (p 0).toNat + (List.range n).countP fun i => p (i + 1) := by
  rw [List.range_succ_eq_map, List.countP_cons, List.countP_map, Nat.add_comm]
  cases p 0 <;> rfl

/-- The ones of the lowest `n + 1` places are those of the lowest `n` and bit `n`. -/
private theorem countP_range_succ_top (p : Nat → Bool) (n : Nat) :
    (List.range (n + 1)).countP p = (List.range n).countP p + (p n).toNat := by
  rw [List.range_succ, List.countP_append, List.countP_singleton]
  cases p n <;> rfl

/-- A right shift loses bit 0. -/
theorem ones_ushiftRight_one (x : BitVec w) :
    ones (x >>> 1) + (x.getLsbD 0).toNat = ones x := by
  have hbits : ∀ i, (x >>> 1).getLsbD i = x.getLsbD (i + 1) := by
    intro i
    rw [BitVec.getLsbD_ushiftRight, Nat.add_comm]
  have hlow := countP_range_succ_bot (fun i => x.getLsbD i) w
  have hhigh := countP_range_succ_top (fun i => x.getLsbD i) w
  rw [BitVec.getLsbD_of_ge x w (Nat.le_refl w), Bool.toNat_false] at hhigh
  simp only [ones, hbits]
  omega

/-- A left shift loses the highest bit. -/
theorem ones_shiftLeft_one (x : BitVec (w + 1)) :
    ones (x <<< 1) + (x.getLsbD w).toNat = ones x := by
  have hbits : ∀ i ∈ List.range w, (x <<< 1).getLsbD (i + 1) = true ↔ x.getLsbD i = true := by
    intro i hi
    have hlt : i + 1 < w + 1 := Nat.succ_lt_succ (List.mem_range.mp hi)
    rw [BitVec.getLsbD_shiftLeft, Nat.add_sub_cancel, decide_eq_true hlt]
    simp only [Nat.not_lt_of_le (Nat.le_add_left 1 i), decide_false, Bool.not_false, Bool.true_and]
  have hlow := countP_range_succ_bot (fun i => (x <<< 1).getLsbD i) w
  have hhigh := countP_range_succ_top (fun i => x.getLsbD i) w
  have hzero : (x <<< 1).getLsbD 0 = false := by simp
  rw [List.countP_congr hbits, hzero, Bool.toNat_false, Nat.zero_add] at hlow
  rw [ones, ones, hlow, hhigh]

theorem ones_ushiftRight_one_eq_iff (x : BitVec w) :
    ones (x >>> 1) = ones x ↔ x.getLsbD 0 = false := by
  have h := ones_ushiftRight_one x
  rw [← Bool.toNat_eq_zero]
  omega

theorem ones_shiftLeft_one_eq_iff (x : BitVec (w + 1)) :
    ones (x <<< 1) = ones x ↔ x.getLsbD w = false := by
  have h := ones_shiftLeft_one x
  rw [← Bool.toNat_eq_zero]
  omega

end Machine
