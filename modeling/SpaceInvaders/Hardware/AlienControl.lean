import SpaceInvaders.Machine.Ones
import SpaceInvaders.Machine.Stream

/-!
# The alien formation

`alien_control.sv`, five rows of 42 places whose bits are the aliens. The module
is unfinished: the condition of one `else if` is left out in the source, the
branch that should move the formation down has an empty loop body, and no
output is driven. `step` takes the missing condition as the input `blank`.

The formation is shifted right as soon as *some* row has no alien on the right
border, where the next branches expect every row to be off it. As long as all
rows are equal there is no difference. Once they differ, a row with an alien on
the border loses it (`marching`).
-/

namespace SpaceInvaders.AlienControl

open Machine

/-- The rows of the formation. Place 0 of a row is at the right border. -/
abbrev Rows := Fin 5 → BitVec 42

def allAliens : BitVec 42 := 0b000000100100100100100100100100100100100000#42

/-- The condition under which the formation is shifted right. -/
def shiftsRight (array : Rows) : Bool :=
  (array 0).getLsbD 0 != true || (array 1).getLsbD 0 != true || (array 2).getLsbD 0 != true ||
    (array 3).getLsbD 0 != true || (array 4).getLsbD 0 != true

/-- The condition under which the formation should move down. -/
def atBorder (array : Rows) : Bool :=
  (array 0).getLsbD 0 == true || (array 1).getLsbD 0 == true || (array 2).getLsbD 0 == true ||
    (array 3).getLsbD 0 == true || (array 4).getLsbD 0 == true

/-- One rising edge of `CLK`. -/
def step (reset blank : Bool) (array : Rows) : Rows :=
  if reset then fun _ => allAliens
  else if shiftsRight array then fun i => array i >>> 1
  else if blank then fun i => array i <<< 1
  -- The loop over the rows is empty.
  else if atBorder array then fun i => array i
  else array

/-- No row has an alien in place `k`. -/
def ClearAt (k : Nat) (array : Rows) : Prop := ∀ i, (array i).getLsbD k = false

/-- Every row has an alien in place `k`. -/
def FullAt (k : Nat) (array : Rows) : Prop := ∀ i, (array i).getLsbD k = true

/-- A step without reset keeps the number of aliens in every row. -/
def KeepsAliens (blank : Bool) (array : Rows) : Prop :=
  ∀ i, ones (step false blank array i) = ones (array i)

/-- A shift is only made when no row has an alien on the border that it pushes out. -/
def ShiftsClear (blank : Bool) (array : Rows) : Prop :=
  (shiftsRight array = true → ClearAt 0 array) ∧
    (shiftsRight array = false → blank = true → ClearAt 41 array)

instance (blank : Bool) (array : Rows) : Decidable (KeepsAliens blank array) :=
  inferInstanceAs (Decidable (∀ _, _))

theorem shiftsRight_eq_false_iff (array : Rows) : shiftsRight array = false ↔ FullAt 0 array := by
  simp only [shiftsRight, Bool.or_eq_false_iff, bne_eq_false_iff_eq, FullAt, Fin.forall_fin_succ,
    and_assoc, IsEmpty.forall_iff, and_true]
  rfl

theorem step_shiftsRight {array : Rows} (h : shiftsRight array = true) (blank : Bool) :
    step false blank array = fun i => array i >>> 1 := by
  simp [step, h]

theorem step_blank {array : Rows} (h : shiftsRight array = false) :
    step false true array = fun i => array i <<< 1 := by
  simp [step, h]

theorem step_rest {array : Rows} (h : shiftsRight array = false) :
    step false false array = array := by
  simp [step, h]

/-- The aliens are kept exactly if no shift pushes one out. -/
theorem keepsAliens_iff_shiftsClear (blank : Bool) (array : Rows) :
    KeepsAliens blank array ↔ ShiftsClear blank array := by
  cases hright : shiftsRight array with
  | true => simp [KeepsAliens, ShiftsClear, ClearAt, step_shiftsRight, hright,
      ones_ushiftRight_one_eq_iff]
  | false =>
      cases blank with
      | true => simp [KeepsAliens, ShiftsClear, ClearAt, step_blank, hright,
          ones_shiftLeft_one_eq_iff]
      | false => simp [KeepsAliens, ShiftsClear, step_rest, hright]

theorem shiftsClear_iff (blank : Bool) (array : Rows) :
    ShiftsClear blank array ↔
      ClearAt 0 array ∨ FullAt 0 array ∧ (blank = true → ClearAt 41 array) := by
  cases hright : shiftsRight array with
  | true =>
      have hfull : ¬FullAt 0 array := by
        rw [← shiftsRight_eq_false_iff, hright]
        decide
      simp [ShiftsClear, hright, hfull]
  | false =>
      have hfull := (shiftsRight_eq_false_iff array).mp hright
      have hclear : ¬ClearAt 0 array := by
        intro hclear
        exact absurd ((hclear 0).symm.trans (hfull 0)) (by decide)
      simp [ShiftsClear, hright, hfull, hclear]

/-- A step keeps the aliens exactly if no row has one on the right border, or
every row has one and the formation, if it is shifted left, has none on the left. -/
theorem marching (blank : Bool) (array : Rows) :
    (KeepsAliens blank array ↔ ShiftsClear blank array) ∧
    (KeepsAliens blank array ↔
      ClearAt 0 array ∨ FullAt 0 array ∧ (blank = true → ClearAt 41 array)) := by
  refine ⟨keepsAliens_iff_shiftsClear blank array, ?_⟩
  rw [keepsAliens_iff_shiftsClear, shiftsClear_iff]

/-- The formation at the right border, with the alien there left in the first row only. -/
def ragged : Rows := fun i => if i = 0 then allAliens >>> 5 else (allAliens >>> 5) - 1#42

theorem marching_fails : ¬∀ (blank : Bool) (array : Rows), KeepsAliens blank array := by
  intro h
  exact absurd (h false ragged) (by decide)

end SpaceInvaders.AlienControl
