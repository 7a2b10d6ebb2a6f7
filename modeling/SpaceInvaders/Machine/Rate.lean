import Mathlib.Data.Nat.Count

/-!
# Events at a limited rate

Events are counted along a run, and a clock that never runs backwards is read
at each of them. If two events are always at least a period apart by the clock,
then by the time the clock shows `c` there have been at most `c / period`
events, rounded up.
-/

namespace Machine

variable {p : Nat → Prop} [DecidablePred p] {clock : Nat → Nat} {period : Nat}

/-- An event finds a full period on the clock for each event before it. -/
theorem count_le_at_event (spaced : ∀ t u, t < u → p t → p u → clock t + period ≤ clock u)
    (n : Nat) : ∀ u, n ≤ u → p u → period * Nat.count p n ≤ clock u := by
  induction n with
  | zero =>
      intro u _ _
      rw [Nat.count_zero, Nat.mul_zero]
      exact Nat.zero_le _
  | succ n ih =>
      intro u hu hpu
      rw [Nat.count_succ]
      by_cases hpn : p n
      · rw [if_pos hpn, Nat.mul_succ]
        exact le_trans (Nat.add_le_add_right (ih n (Nat.le_refl n) hpn) period)
          (spaced n u hu hpn hpu)
      · rw [if_neg hpn]
        exact ih u (Nat.le_of_succ_le hu) hpu

/-- The number of events is limited by the clock. Each event advances it. -/
theorem count_le_of_spaced (spaced : ∀ t u, t < u → p t → p u → clock t + period ≤ clock u)
    (mono : ∀ n, clock n ≤ clock (n + 1)) (advances : ∀ t, p t → clock t < clock (t + 1))
    (hperiod : 1 ≤ period) (n : Nat) : period * Nat.count p n + 1 ≤ clock n + period := by
  induction n with
  | zero =>
      rw [Nat.count_zero, Nat.mul_zero, Nat.zero_add]
      exact le_trans hperiod (Nat.le_add_left _ _)
  | succ n ih =>
      rw [Nat.count_succ]
      by_cases hpn : p n
      · have hfull := count_le_at_event spaced n n (Nat.le_refl n) hpn
        have hnext := advances n hpn
        rw [if_pos hpn, Nat.mul_succ]
        omega
      · have hnext := mono n
        simp only [if_neg hpn, Nat.add_zero]
        omega

end Machine
