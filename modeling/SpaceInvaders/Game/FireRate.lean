import SpaceInvaders.Game.Flight
import SpaceInvaders.Machine.Rate

/-!
# The rate of fire

A shot blocks the laser for 68 frames, so in `f` frames at most `(f + 67) / 68`
shots can be fired, however the keys are pressed. Holding space attains the
bound: the laser fires at the first tick, is never off again, and its height
runs through the 68 positions of the flight over and over.
-/

namespace SpaceInvaders.Game

open Machine Laser.Registers

variable {e : EdgeDetector} {d : Drive}

/-- The number of shots fired before cycle `n`. -/
def shotsFired (e : EdgeDetector) (d : Drive) (n : Nat) : Nat := Nat.count (Fires e d) n

theorem shotsFired_succ (n : Nat) :
    shotsFired e d (n + 1) = shotsFired e d n + if Fires e d n then 1 else 0 :=
  Nat.count_succ _ _

/-- No keys fire faster than once in 68 frames. -/
theorem shotsFired_le (n : Nat) : 68 * shotsFired e d n + 1 ≤ frames e d n + 68 := by
  refine @count_le_of_spaced (Fires e d) _ (frames e d) 68 ?_ ?_ ?_ (by decide) n
  · exact fun t u htu ht hu => ht.spaced hu htu
  · exact fun n => frames_mono (Nat.le_succ n)
  · intro t ht
    rw [frames_succ, if_pos ht.1]
    exact Nat.lt_succ_self _

/-- The laser under a held space key, in terms of the number of frames so far. -/
def Sustained (f : Nat) (s : Laser.Registers) : Prop :=
  (f = 0 ∧ s.laserOn = false) ∨ (1 ≤ f ∧ ∃ column, Flight ((f - 1) % 68) column s)

/-- Under a held space key the laser fires exactly in every 68th frame. -/
theorem Sustained.inFlight_iff {f : Nat} {s : Laser.Registers} (h : Sustained f s) :
    s.InFlight ↔ f % 68 ≠ 0 := by
  obtain ⟨rfl, hoff⟩ | ⟨hf, column, hflight⟩ := h
  · simp [InFlight, hoff]
  · rw [hflight.inFlight_iff]
    omega

theorem Sustained.next {f : Nat} {s : Laser.Registers} (h : Sustained f s) (c : BitVec 10) :
    Sustained (f + 1) (s.next true 1#8 c) := by
  refine .inr ⟨Nat.succ_pos f, ?_⟩
  by_cases hfly : s.InFlight
  · have hf := h.inFlight_iff.mp hfly
    obtain ⟨rfl, hoff⟩ | ⟨hpos, column, hflight⟩ := h
    · exact absurd rfl hf
    · refine ⟨column, ?_⟩
      have hnext := hflight.next (hflight.inFlight_iff.mp hfly) 1#8 c
      rwa [show (f - 1) % 68 + 1 = (f + 1 - 1) % 68 by omega] at hnext
  · have hf : f % 68 = 0 := by
      by_contra hf
      exact hfly (h.inFlight_iff.mpr hf)
    refine ⟨c, ?_⟩
    rw [next_of_space hfly, Nat.add_sub_cancel, hf]
    exact ⟨rfl, rfl, rfl, rfl, fun hk => absurd hk (by decide)⟩

/-- With space held at every tick before cycle `n`, the bound is attained and
the height of the shot is known. -/
theorem sustained_fire {n : Nat}
    (hspace : ∀ t, t < n → tick e d t = true → (d.keys t).space = 1#8) :
    Sustained (frames e d n) (shot e d n) ∧ shotsFired e d n = (frames e d n + 67) / 68 := by
  induction n with
  | zero =>
      have hframes : frames e d 0 = 0 := Nat.count_zero _
      refine ⟨.inl ⟨hframes, rfl⟩, ?_⟩
      rw [hframes, shotsFired, Nat.count_zero]
  | succ n ih =>
      obtain ⟨hlaser, hcount⟩ := ih fun t ht => hspace t (Nat.lt_succ_of_lt ht)
      rw [frames_succ, shotsFired_succ, hcount]
      by_cases htick : tick e d n = true
      · have hkey := hspace n (Nat.lt_succ_self n) htick
        have hfires : Fires e d n ↔ frames e d n % 68 = 0 := by
          rw [fires_iff, hlaser.inFlight_iff]
          simp [htick, hkey]
        simp only [hfires, if_pos htick]
        refine ⟨?_, by split <;> omega⟩
        rw [shot_succ_of_tick htick, hkey]
        exact hlaser.next _
      · have hfires : ¬Fires e d n := fun h => htick h.1
        rw [if_neg htick, if_neg hfires, shot_succ_of_not_tick htick]
        exact ⟨hlaser, rfl⟩

/-- The rate of fire of the run until cycle `n`. -/
structure FireRate (e : EdgeDetector) (d : Drive) (n : Nat) : Prop where
  limit : shotsFired e d n ≤ (frames e d n + 67) / 68
  /-- Holding space attains the limit, and the laser is then never off. -/
  attained : (∀ t, t < n → tick e d t = true → (d.keys t).space = 1#8) →
    shotsFired e d n = (frames e d n + 67) / 68 ∧
      (1 ≤ frames e d n → (shot e d n).laserOn = true ∧
        (shot e d n).laserYPos.toNat = 470 - 7 * ((frames e d n - 1) % 68))

/-- The rate of fire is at most one shot in 68 frames, for all frame clocks and
all keys, and holding space attains it. -/
theorem fireRate (e : EdgeDetector) (d : Drive) (n : Nat) : FireRate e d n where
  limit := by
    have hlimit := shotsFired_le (e := e) (d := d) n
    omega
  attained hspace := by
    obtain ⟨hlaser, hcount⟩ := sustained_fire hspace
    refine ⟨hcount, fun hframes => ?_⟩
    obtain ⟨hzero, -⟩ | ⟨-, column, hflight⟩ := hlaser
    · exact absurd hframes (by omega)
    · exact ⟨hflight.on, hflight.height⟩

end SpaceInvaders.Game
