import SpaceInvaders.Hardware.AlienControl

/-!
# The march of the aliens

Between resets the formation is shifted right until all five rows have an alien
on the right border, and every row loses on the way what it has further right
than the others. The first place at which every row has an alien stops the
march: from there on the formation is at the border or one place left of it,
whatever the condition is that the source leaves out. Without such a place all
rows are shifted out and stay empty.
-/

namespace SpaceInvaders.AlienControl

open Machine

/-- All rows shifted right by `k` places. -/
def shiftedRight (k : Nat) (array : Rows) : Rows := fun i => array i >>> k

/-- All rows shifted left by one place. -/
def shiftedLeft (array : Rows) : Rows := fun i => array i <<< 1

/-- The rows in cycle `n` after they held `array`, without a reset. -/
def march (array : Rows) (blank : Nat → Bool) (n : Nat) : Rows :=
  stateAt (step false) blank array n

/-- Place `k` is the first at which every row has an alien. -/
def StopsAt (k : Nat) (array : Rows) : Prop := FullAt k array ∧ ∀ j, j < k → ¬FullAt j array

/-- The formation `array` at the border, one place left of it, or back from there. -/
def Bounces (array now : Rows) : Prop :=
  now = array ∨ now = shiftedLeft array ∨ now = shiftedRight 1 (shiftedLeft array)

variable {array : Rows} {blank : Nat → Bool}

theorem shiftsRight_eq_true_iff : shiftsRight array = true ↔ ¬FullAt 0 array := by
  rw [← shiftsRight_eq_false_iff, Bool.not_eq_false]

theorem fullAt_shiftedRight (j k : Nat) :
    FullAt j (shiftedRight k array) ↔ FullAt (k + j) array := by
  simp only [FullAt, shiftedRight, BitVec.getLsbD_ushiftRight]

theorem not_fullAt_shiftedLeft : ¬FullAt 0 (shiftedLeft array) := by
  intro hfull
  exact absurd (hfull 0) (by simp [shiftedLeft])

/-- A left shift followed by a right shift clears the highest place. -/
theorem shiftLeft_ushiftRight_getLsbD (x : BitVec 42) (j : Nat) :
    ((x <<< 1) >>> 1).getLsbD j = (decide (j < 41) && x.getLsbD j) := by
  rw [BitVec.getLsbD_ushiftRight, BitVec.getLsbD_shiftLeft]
  by_cases hj : j < 41
  · simp [hj, show 1 + j < 42 by omega]
  · simp [hj, show ¬1 + j < 42 by omega]

theorem fullAt_back (hfull : FullAt 0 array) : FullAt 0 (shiftedRight 1 (shiftedLeft array)) := by
  intro i
  rw [shiftedRight, shiftedLeft, shiftLeft_ushiftRight_getLsbD, hfull i]
  rfl

theorem shiftedLeft_back :
    shiftedLeft (shiftedRight 1 (shiftedLeft array)) = shiftedLeft array := by
  funext i
  apply BitVec.eq_of_getLsbD_eq
  intro j hj
  rw [shiftedLeft, shiftedRight, BitVec.getLsbD_shiftLeft, shiftedLeft,
    shiftLeft_ushiftRight_getLsbD, BitVec.getLsbD_shiftLeft]
  by_cases hzero : j < 1
  · simp [hzero]
  · simp [hj, show j - 1 < 41 by omega]

/-- As long as no place is full the rows are shifted right. -/
theorem march_free {n : Nat} (h : ∀ j, j < n → ¬FullAt j array) :
    march array blank n = shiftedRight n array := by
  induction n with
  | zero =>
      funext i
      exact (BitVec.ushiftRight_zero (array i)).symm
  | succ n ih =>
      have hright : shiftsRight (shiftedRight n array) = true := by
        rw [shiftsRight_eq_true_iff, fullAt_shiftedRight]
        exact h n (Nat.lt_succ_self n)
      rw [march, stateAt_succ, ← march, ih fun j hj => h j (Nat.lt_succ_of_lt hj),
        step_shiftsRight hright]
      funext i
      exact (BitVec.shiftRight_add (array i) n 1).symm

/-- A formation at the border stays within one place of it. -/
theorem Bounces.step (hfull : FullAt 0 array) {now : Rows} (h : Bounces array now) (b : Bool) :
    Bounces array (step false b now) := by
  have rests : ∀ {full : Rows}, FullAt 0 full → AlienControl.step false b full = full ∨
      AlienControl.step false b full = shiftedLeft full := by
    intro full hfull
    have hright := (shiftsRight_eq_false_iff full).mpr hfull
    cases b with
    | true => exact .inr (step_blank hright)
    | false => exact .inl (step_rest hright)
  obtain rfl | rfl | rfl := h
  · obtain hstep | hstep := rests hfull
    · exact .inl hstep
    · exact .inr (.inl hstep)
  · have hright := shiftsRight_eq_true_iff.mpr (@not_fullAt_shiftedLeft array)
    exact .inr (.inr (step_shiftsRight hright b))
  · obtain hstep | hstep := rests (fullAt_back hfull)
    · exact .inr (.inr hstep)
    · exact .inr (.inl (hstep.trans shiftedLeft_back))

theorem StopsAt.march {k n : Nat} (h : StopsAt k array) (hn : k ≤ n) :
    Bounces (shiftedRight k array) (march array blank n) := by
  refine stateAt_invariant_from (P := fun _ => Bounces (shiftedRight k array)) (.inl ?_) ?_ hn
  · exact march_free h.2
  · intro n _ hbounces
    exact hbounces.step ((fullAt_shiftedRight 0 k).mpr h.1) _

/-- A formation that bounces off the right border keeps its aliens, if it has
none at the left one. -/
theorem Bounces.ones_eq {now : Rows} (h : Bounces array now) (hclear : ClearAt 41 array)
    (i : Fin 5) : ones (now i) = ones (array i) := by
  have hleft : ones (array i <<< 1) = ones (array i) :=
    (ones_shiftLeft_one_eq_iff (array i)).mpr (hclear i)
  obtain rfl | rfl | rfl := h
  · rfl
  · exact hleft
  · rw [← hleft]
    exact (ones_ushiftRight_one_eq_iff (array i <<< 1)).mpr (by simp)

/-- A formation that bounces off the right border never becomes empty. -/
theorem Bounces.ne_zero {now : Rows} (h : Bounces array now) (hfull : FullAt 0 array)
    (i : Fin 5) : now i ≠ 0#42 := by
  intro hzero
  obtain rfl | rfl | rfl := h
  · have hbit := hfull i
    rw [hzero] at hbit
    exact absurd hbit (by decide)
  · have hbit : (array i <<< 1).getLsbD 1 = true := by
      rw [BitVec.getLsbD_shiftLeft]
      simpa using hfull i
    rw [shiftedLeft] at hzero
    rw [hzero] at hbit
    exact absurd hbit (by decide)
  · have hbit := fullAt_back hfull i
    rw [hzero] at hbit
    exact absurd hbit (by decide)

theorem exists_stopsAt {k : Nat} (h : FullAt k array) : ∃ m, m ≤ k ∧ StopsAt m array := by
  induction k using Nat.strong_induction_on with
  | _ k ih =>
      by_cases hfirst : ∃ j, j < k ∧ FullAt j array
      · obtain ⟨j, hj, hfull⟩ := hfirst
        obtain ⟨m, hm, hstops⟩ := ih j hj hfull
        exact ⟨m, by omega, hstops⟩
      · exact ⟨k, Nat.le_refl k, h, fun j hj hfull => hfirst ⟨j, hj, hfull⟩⟩

/-- The march of the rows `array`, for any values of the missing condition. -/
structure Marches (array : Rows) (blank : Nat → Bool) : Prop where
  /-- Until the first full place reaches the border, the rows are shifted right. -/
  free : ∀ k n, StopsAt k array → n ≤ k → march array blank n = shiftedRight n array
  /-- From then on they are within one place of the border. -/
  stopped : ∀ k n, StopsAt k array → k ≤ n →
    Bounces (shiftedRight k array) (march array blank n)
  /-- The aliens that are left are those that were no further right. -/
  survivors : ∀ k n i, StopsAt k array → 1 ≤ k → k ≤ n →
    ones (march array blank n i) = ones (array i >>> k)
  /-- A row is empty in some cycle exactly if no place is full at first, and then
  all rows are empty from cycle 42 on. -/
  emptied : (∀ k, ¬FullAt k array) ↔ ∃ n i, march array blank n i = 0#42
  gone : (∀ k, ¬FullAt k array) → ∀ n i, 42 ≤ n → march array blank n i = 0#42

theorem march_gone (h : ∀ k, ¬FullAt k array) {n : Nat} (hn : 42 ≤ n) (i : Fin 5) :
    march array blank n i = 0#42 := by
  rw [march_free fun j _ => h j]
  exact BitVec.ushiftRight_eq_zero hn

theorem march_ne_zero {k : Nat} (h : StopsAt k array) (n : Nat) (i : Fin 5) :
    march array blank n i ≠ 0#42 := by
  obtain hlt | hle := Nat.lt_or_ge n k
  · intro hzero
    have hbit : (march array blank n i).getLsbD (k - n) = true := by
      rw [march_free fun j hj => h.2 j (by omega), shiftedRight, BitVec.getLsbD_ushiftRight,
        Nat.add_sub_of_le (Nat.le_of_lt hlt)]
      exact h.1 i
    rw [hzero] at hbit
    simp at hbit
  · exact (h.march hle).ne_zero ((fullAt_shiftedRight 0 k).mpr h.1) i

/-- The closed form of every march. -/
theorem marches (array : Rows) (blank : Nat → Bool) : Marches array blank where
  free k n hstops hn := march_free fun j hj => hstops.2 j (by omega)
  stopped k n hstops hn := hstops.march hn
  survivors k n i hstops hk hn := by
    refine (hstops.march hn).ones_eq ?_ i
    intro i
    rw [shiftedRight, BitVec.getLsbD_ushiftRight]
    exact BitVec.getLsbD_of_ge _ _ (by omega)
  emptied := by
    constructor
    · exact fun h => ⟨42, 0, march_gone h (Nat.le_refl 42) 0⟩
    · rintro ⟨n, i, hzero⟩ k hfull
      obtain ⟨m, -, hstops⟩ := exists_stopsAt hfull
      exact march_ne_zero hstops n i hzero
  gone h n i hn := march_gone h hn i

end SpaceInvaders.AlienControl
