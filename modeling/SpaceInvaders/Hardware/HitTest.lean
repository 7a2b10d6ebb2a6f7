import Mathlib.Data.Int.Basic
import Mathlib.Tactic.Linarith
import Mathlib.Tactic.Ring

/-!
# Sprite hit tests in `int` arithmetic

`cannon.sv` and `laser.sv` decide whether the current pixel lies on their disc
by the circle formula. The 10-bit coordinates are assigned to `int` variables,
so they are zero-extended to 32 bits before the subtraction, and the products,
the sum and the comparison are signed 32-bit operations. `hitTest_iff` shows
that nothing wraps: the test is the circle formula over the integers.
-/

namespace SpaceInvaders

/-- The signed distance of a drawn coordinate from an object's coordinate. -/
def distance (draw pos : BitVec 10) : BitVec 32 := draw.setWidth 32 - pos.setWidth 32

/-- `DistX`, `DistY` and `Size` are `int`; the operands are 10-bit unsigned. -/
def hitTest (drawX drawY xPos yPos size10 : BitVec 10) : Bool :=
  let distX := distance drawX xPos
  let distY := distance drawY yPos
  let size : BitVec 32 := size10.setWidth 32
  (distX * distX + distY * distY).sle (size * size)

/-- The circle formula over exact integers. -/
def OnDisc (x y xc yc radius : Int) : Prop := (x - xc) ^ 2 + (y - yc) ^ 2 ≤ radius ^ 2

instance (x y xc yc radius : Int) : Decidable (OnDisc x y xc yc radius) :=
  inferInstanceAs (Decidable (_ ≤ _))

private theorem toInt_of_bounds {i : Int} (lo : -(2 ^ 31) ≤ i) (hi : i < 2 ^ 31) :
    i.bmod (2 ^ 32) = i :=
  Int.bmod_eq_of_le (by norm_num; omega) (by norm_num; omega)

private theorem coordinate_toInt (a : BitVec 10) : (a.setWidth 32).toInt = a.toNat := by
  have ha := a.isLt
  rw [BitVec.toInt_eq_toNat_of_lt (by simp; omega)]
  simp
  omega

/-- Every value of the hit test before its comparison is the exact integer: no
difference, square or sum wraps. -/
structure NoWrap (drawX drawY xPos yPos size10 : BitVec 10) : Prop where
  distX : (distance drawX xPos).toInt = (drawX.toNat : Int) - xPos.toNat
  distY : (distance drawY yPos).toInt = (drawY.toNat : Int) - yPos.toNat
  squareX : (distance drawX xPos * distance drawX xPos).toInt =
    ((drawX.toNat : Int) - xPos.toNat) ^ 2
  squareY : (distance drawY yPos * distance drawY yPos).toInt =
    ((drawY.toNat : Int) - yPos.toNat) ^ 2
  sum : (distance drawX xPos * distance drawX xPos +
      distance drawY yPos * distance drawY yPos).toInt =
    ((drawX.toNat : Int) - xPos.toNat) ^ 2 + ((drawY.toNat : Int) - yPos.toNat) ^ 2
  squareSize : (size10.setWidth 32 * size10.setWidth 32 : BitVec 32).toInt =
    (size10.toNat : Int) ^ 2

private theorem distance_toInt (a b : BitVec 10) :
    (distance a b).toInt = (a.toNat : Int) - b.toNat := by
  have ha := a.isLt
  have hb := b.isLt
  rw [distance, BitVec.toInt_sub, coordinate_toInt, coordinate_toInt]
  exact toInt_of_bounds (by omega) (by omega)

private theorem square_toInt {d : BitVec 32} {i : Int} (hd : d.toInt = i) (lo : -1024 < i)
    (hi : i < 1024) : (d * d).toInt = i ^ 2 ∧ 0 ≤ i ^ 2 ∧ i ^ 2 ≤ 1046529 := by
  have hsq : i * i = i ^ 2 := by ring
  have hnonneg : 0 ≤ i ^ 2 := sq_nonneg _
  have hle : i ^ 2 ≤ 1046529 := by nlinarith
  refine ⟨?_, hnonneg, hle⟩
  rw [BitVec.toInt_mul, hd, hsq]
  exact toInt_of_bounds (by omega) (by omega)

theorem noWrap (drawX drawY xPos yPos size10 : BitVec 10) :
    NoWrap drawX drawY xPos yPos size10 := by
  have square (a b : BitVec 10) := by
    have ha := a.isLt
    have hb := b.isLt
    exact square_toInt (distance_toInt a b) (by omega) (by omega)
  obtain ⟨sqX, loX, hiX⟩ := square drawX xPos
  obtain ⟨sqY, loY, hiY⟩ := square drawY yPos
  refine ⟨distance_toInt _ _, distance_toInt _ _, sqX, sqY, ?_, ?_⟩
  · rw [BitVec.toInt_add, sqX, sqY]
    exact toInt_of_bounds (by omega) (by omega)
  · have hsize := size10.isLt
    exact (square_toInt (coordinate_toInt size10) (by omega) (by omega)).1

/-- The hit test is the circle formula over the integers. -/
theorem hitTest_iff (drawX drawY xPos yPos size10 : BitVec 10) :
    hitTest drawX drawY xPos yPos size10 = true ↔
      OnDisc drawX.toNat drawY.toNat xPos.toNat yPos.toNat size10.toNat := by
  have h := noWrap drawX drawY xPos yPos size10
  simp only [hitTest, BitVec.sle, decide_eq_true_eq, OnDisc]
  rw [h.sum, h.squareSize]

end SpaceInvaders
