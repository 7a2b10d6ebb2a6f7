import SpaceInvaders.Game.Basic

/-!
# The flight of a shot

A shot is fired at a tick that finds no shot in flight while space is held. Its
height then falls by 7 a tick from 470. Heights are congruent to 1 modulo 7, so
the test `Y <= 2` of the source stops the shot exactly at 1: after 67 further
ticks, and before the 10-bit height could wrap. While the shot is in flight the
next-state logic ignores the keys and the cannon.

The column is different. At the firing tick `laser_X_Motion` is loaded with the
cannon's new column, but `laser_X_Pos` still receives the *old* content of
`laser_X_Motion`. From the second frame on a shot is in the right column; its
first frame is right only if the old copy happened to be (`straight_iff`).
-/

namespace SpaceInvaders

namespace Laser.Registers

/-- What is known of the registers in every cycle: the height is one of
`1, 8, …, 470`, and a lit shot moves up by 7. -/
structure Sound (s : Registers) : Prop where
  low : 1 ≤ s.laserYPos.toNat
  high : s.laserYPos.toNat ≤ 470
  mod : s.laserYPos.toNat % 7 = 1
  motion : s.laserOn = true → s.laserYMotion = 1017#10

/-- `k` ticks after it was fired for `column`, a shot is at height `470 - 7k`.
Its own column register is right from the first further tick on. -/
structure Flight (k : Nat) (column : BitVec 10) (s : Registers) : Prop where
  on : s.laserOn = true
  height : s.laserYPos.toNat = 470 - 7 * k
  yMotion : s.laserYMotion = 1017#10
  xMotion : s.laserXMotion = column
  xPos : 1 ≤ k → s.laserXPos = column

theorem Sound.of_bottom {s : Registers} (hy : s.laserYPos = laserYResetPos)
    (hm : s.laserOn = true → s.laserYMotion = 1017#10) : s.Sound := by
  refine ⟨?_, ?_, ?_, hm⟩ <;> rw [hy] <;> decide

theorem Sound.reset : Registers.reset.Sound := .of_bottom rfl fun h => absurd h (by decide)

/-- Adding the motion of a flying shot subtracts 7 while the height allows it. -/
private theorem climb_toNat {y : BitVec 10} (h : 7 ≤ y.toNat) :
    (y + 1017#10).toNat = y.toNat - 7 := by
  have hy := y.isLt
  rw [BitVec.toNat_add]
  simp only [BitVec.toNat_ofNat]
  omega

theorem Sound.climb {s : Registers} (h : s.Sound) (hfly : s.InFlight) :
    (s.laserYPos + s.laserYMotion).toNat = s.laserYPos.toNat - 7 := by
  have hmod := h.mod
  have hlow := hfly.2
  rw [h.motion hfly.1]
  exact climb_toNat (by omega)

/-- One frame tick keeps the invariant, whatever the key and the column. -/
theorem Sound.next {s : Registers} (h : s.Sound) (keycode1 : BitVec 8) (column : BitVec 10) :
    (s.next true keycode1 column).Sound := by
  by_cases hfly : s.InFlight
  · have hclimb := h.climb hfly
    have hlow := hfly.2
    have hmod := h.mod
    have hhigh := h.high
    rw [next_of_inFlight hfly]
    refine ⟨?_, ?_, ?_, fun _ => rfl⟩
    all_goals
      simp only [hclimb]
      omega
  · by_cases hspace : keycode1 = 1#8
    · subst keycode1
      rw [next_of_space hfly]
      exact .of_bottom rfl fun _ => rfl
    · rw [next_of_noSpace hfly hspace]
      exact .of_bottom rfl fun hon => absurd hon (by simp)

/-- Exactly a tick with space held and no shot in flight leaves a lit laser at the bottom. -/
theorem Sound.next_fires_iff {s : Registers} (h : s.Sound) (keycode1 : BitVec 8)
    (column : BitVec 10) :
    (s.next true keycode1 column).laserYPos = laserYResetPos ∧
        (s.next true keycode1 column).laserOn = true ↔
      keycode1 = 1#8 ∧ ¬s.InFlight := by
  by_cases hfly : s.InFlight
  · refine ⟨fun hnext => ?_, fun hkey => absurd hfly hkey.2⟩
    -- A shot in flight is at most at 463 after the tick.
    have hclimb := h.climb hfly
    have hhigh := h.high
    have hheight := hnext.1
    rw [next_of_inFlight hfly] at hheight
    change s.laserYPos + s.laserYMotion = laserYResetPos at hheight
    rw [hheight] at hclimb
    simp only [laserYResetPos, BitVec.toNat_ofNat] at hclimb
    omega
  · by_cases hspace : keycode1 = 1#8
    · subst keycode1
      rw [next_of_space hfly]
      exact ⟨fun _ => ⟨rfl, hfly⟩, fun _ => ⟨rfl, rfl⟩⟩
    · rw [next_of_noSpace hfly hspace]
      exact ⟨fun hnext => absurd hnext.2 Bool.false_ne_true, fun hkey => absurd hkey.1 hspace⟩

namespace Flight

variable {s : Registers} {k : Nat} {column : BitVec 10}

theorem inFlight_iff (h : Flight k column s) : s.InFlight ↔ k ≤ 66 := by
  rw [InFlight, h.height]
  constructor
  · intro hfly
    have hlow := hfly.2
    omega
  · intro hk
    exact ⟨h.on, by omega⟩

/-- A shot that has not reached the top makes one more step of its flight. -/
theorem next (h : Flight k column s) (hk : k ≤ 66) (keycode1 : BitVec 8) (c : BitVec 10) :
    Flight (k + 1) column (s.next true keycode1 c) := by
  rw [next_of_inFlight (h.inFlight_iff.mpr hk)]
  refine ⟨rfl, ?_, rfl, h.xMotion, fun _ => h.xMotion⟩
  change (s.laserYPos + s.laserYMotion).toNat = _
  rw [h.yMotion, climb_toNat (by rw [h.height]; omega), h.height]
  omega

end Flight

end Laser.Registers

namespace Game

open Machine Laser.Registers

variable {e : EdgeDetector} {d : Drive}

/-- The cannon's column in cycle `n`. -/
def column (e : EdgeDetector) (d : Drive) (n : Nat) : BitVec 10 :=
  (run e d n).cannon.regs.cannonXPos

/-- The laser's registers in cycle `n`. -/
def shot (e : EdgeDetector) (d : Drive) (n : Nat) : Laser.Registers := (run e d n).laser.regs

/-- The number of ticks before cycle `n`. -/
def frames (e : EdgeDetector) (d : Drive) (n : Nat) : Nat :=
  Nat.count (fun k => tick e d k = true) n

theorem frames_succ (n : Nat) :
    frames e d (n + 1) = frames e d n + if tick e d n = true then 1 else 0 :=
  Nat.count_succ _ _

theorem frames_mono {a b : Nat} (h : a ≤ b) : frames e d a ≤ frames e d b :=
  Nat.count_monotone _ h

theorem shot_succ_of_tick {n : Nat} (h : tick e d n = true) :
    shot e d (n + 1) = (shot e d n).next true (d.keys n).space (column e d (n + 1)) := by
  have hregs := regs_succ_of_tick h
  have hcannon : (run e d (n + 1)).cannon.regs =
      (run e d n).cannon.regs.next true (d.keys n).cannon := congrArg Registers.cannon hregs
  simp only [column, hcannon]
  exact congrArg Registers.laser hregs

theorem shot_succ_of_not_tick {n : Nat} (h : ¬tick e d n = true) :
    shot e d (n + 1) = shot e d n := congrArg Registers.laser (regs_succ_of_not_tick h)

theorem column_succ_of_tick {n : Nat} (h : tick e d n = true) :
    column e d (n + 1) = column e d n + (run e d n).cannon.regs.cannonXMotion :=
  congrArg (fun g => g.cannon.cannonXPos) (regs_succ_of_tick h)

theorem sound_shot (n : Nat) : (shot e d n).Sound :=
  regs_invariant (P := fun g => g.laser.Sound) .reset (fun _ _ h => h.next _ _) n

/-- A shot is fired at tick `t`: the height becomes 470 and the laser is on. -/
def Fires (e : EdgeDetector) (d : Drive) (t : Nat) : Prop :=
  tick e d t = true ∧ (shot e d (t + 1)).laserYPos = 470#10 ∧ (shot e d (t + 1)).laserOn = true

instance : DecidablePred (Fires e d) := fun _ => inferInstanceAs (Decidable (_ ∧ _ ∧ _))

/-- Exactly a tick with space held and no shot in flight fires one. -/
theorem fires_iff (t : Nat) :
    Fires e d t ↔ tick e d t = true ∧ (d.keys t).space = 1#8 ∧ ¬(shot e d t).InFlight := by
  refine and_congr_right fun htick => ?_
  rw [shot_succ_of_tick htick]
  exact (sound_shot t).next_fires_iff _ _

/-- Right after the tick that fires it, the shot starts its flight in the
cannon's new column, but is shown in the column stored before. -/
theorem Fires.flight {t : Nat} (h : Fires e d t) :
    Flight 0 (column e d (t + 1)) (shot e d (t + 1)) ∧
      (shot e d (t + 1)).laserXPos = (shot e d t).laserXMotion := by
  obtain ⟨htick, hspace, hfly⟩ := (fires_iff t).mp h
  rw [shot_succ_of_tick htick, hspace, next_of_space hfly]
  exact ⟨⟨rfl, rfl, rfl, rfl, fun hk => absurd hk (by decide)⟩, rfl⟩

/-- The flight of a shot, followed over 67 further ticks. -/
theorem Fires.flight_at {t : Nat} (h : Fires e d t) {c : Nat} (hc : t < c) :
    ∀ k, frames e d c = frames e d (t + 1) + k → k ≤ 67 →
      Flight k (column e d (t + 1)) (shot e d c) := by
  induction c, hc using Nat.le_induction with
  | base =>
      intro k hk _
      obtain rfl : k = 0 := Nat.left_eq_add.mp hk
      exact h.flight.1
  | succ c hc ih =>
      intro k hk hle
      rw [frames_succ] at hk
      have hmono : frames e d (t + 1) ≤ frames e d c := frames_mono hc
      by_cases htick : tick e d c = true
      · rw [if_pos htick] at hk
        obtain ⟨j, rfl⟩ : ∃ j, k = j + 1 := ⟨k - 1, by omega⟩
        rw [shot_succ_of_tick htick]
        exact (ih j (by omega) (by omega)).next (by omega) _ _
      · rw [if_neg htick] at hk
        rw [shot_succ_of_not_tick htick]
        exact ih k hk hle

/-- Within 68 frames of a shot the next one would find it in flight. -/
theorem Fires.spaced {t u : Nat} (ht : Fires e d t) (hu : Fires e d u) (htu : t < u) :
    frames e d t + 68 ≤ frames e d u := by
  have hfirst : frames e d (t + 1) = frames e d t + 1 := by rw [frames_succ, if_pos ht.1]
  have hmono : frames e d (t + 1) ≤ frames e d u := frames_mono htu
  by_contra hlt
  have hflight := ht.flight_at htu (frames e d u - frames e d (t + 1)) (by omega) (by omega)
  exact ((fires_iff u).mp hu).2.2 (hflight.inFlight_iff.mpr (by omega))

/-- The height is in range in every cycle and changes only by a step of 7
upwards or by a reload of 470. -/
def NeverWraps (e : EdgeDetector) (d : Drive) : Prop :=
  ∀ c, (1 ≤ (shot e d c).laserYPos.toNat ∧ (shot e d c).laserYPos.toNat ≤ 470) ∧
    ((shot e d (c + 1)).laserYPos = (shot e d c).laserYPos ∨
      (shot e d (c + 1)).laserYPos.toNat + 7 = (shot e d c).laserYPos.toNat ∨
      (shot e d (c + 1)).laserYPos = 470#10)

/-- The law of a shot fired at tick `t`, for all keys and cannon movements. -/
structure FlightLaw (e : EdgeDetector) (d : Drive) (t : Nat) : Prop where
  /-- The first 68 frames, `k` counting the further ticks. -/
  flight : ∀ c k, t < c → frames e d c = frames e d (t + 1) + k → k ≤ 67 →
    (shot e d c).laserOn = true ∧ (shot e d c).laserYPos.toNat = 470 - 7 * k ∧
      (shot e d c).laserYMotion = 1017#10 ∧
      (1 ≤ k → (shot e d c).laserXPos = column e d (t + 1))
  /-- The 68th further tick fires again or turns the laser off. -/
  finish : ∀ c, t < c → frames e d c = frames e d (t + 1) + 67 → tick e d c = true →
    (Fires e d c ↔ (d.keys c).space = 1#8) ∧
      ((d.keys c).space ≠ 1#8 →
        (shot e d (c + 1)).laserOn = false ∧ (shot e d (c + 1)).laserYPos = 470#10)
  /-- No other shot is fired before. -/
  spacing : ∀ u, t < u → Fires e d u → frames e d t + 68 ≤ frames e d u

private theorem neverWraps : NeverWraps e d := by
  intro c
  have hsound := sound_shot (e := e) (d := d) c
  refine ⟨⟨hsound.low, hsound.high⟩, ?_⟩
  by_cases htick : tick e d c = true
  · rw [shot_succ_of_tick htick]
    by_cases hfly : (shot e d c).InFlight
    · have hclimb := hsound.climb hfly
      have hmod := hsound.mod
      have hlow := hfly.2
      rw [next_of_inFlight hfly]
      refine .inr (.inl ?_)
      simp only [hclimb]
      omega
    · refine .inr (.inr ?_)
      by_cases hspace : (d.keys c).space = 1#8
      · rw [hspace, next_of_space hfly]
        rfl
      · rw [next_of_noSpace hfly hspace]
        rfl
  · exact .inl (by rw [shot_succ_of_not_tick htick])

/-- No run wraps the height, and every shot that is fired obeys the law. -/
theorem shots_obey_flightLaw (e : EdgeDetector) (d : Drive) :
    NeverWraps e d ∧ ∀ t, Fires e d t → FlightLaw e d t := by
  refine ⟨neverWraps, fun t hfire => ⟨?_, ?_, ?_⟩⟩
  · intro c k hc hk hle
    have h := hfire.flight_at hc k hk hle
    exact ⟨h.on, h.height, h.yMotion, h.xPos⟩
  · intro c hc hk htick
    have hfly : ¬(shot e d c).InFlight := by
      rw [(hfire.flight_at hc 67 hk (Nat.le_refl _)).inFlight_iff]
      decide
    refine ⟨?_, fun hspace => ?_⟩
    · rw [fires_iff]
      exact ⟨fun h => h.2.1, fun hspace => ⟨htick, hspace, hfly⟩⟩
    · rw [shot_succ_of_tick htick, next_of_noSpace hfly hspace]
      exact ⟨rfl, rfl⟩
  · exact fun u hu hfire' => hfire.spaced hfire' hu

/-- `t` is the tick at which the shot seen in cycle `c` was fired. -/
def LastFire (e : EdgeDetector) (d : Drive) (t c : Nat) : Prop :=
  Fires e d t ∧ t < c ∧ ∀ u, t < u → u < c → ¬Fires e d u

/-- A lit laser is in the column the cannon took at the tick of the shot. -/
def Straight (e : EdgeDetector) (d : Drive) (c : Nat) : Prop :=
  (shot e d c).laserOn = true →
    ∃ t, LastFire e d t c ∧ (shot e d c).laserXPos = column e d (t + 1)

/-- Every lit laser belongs to a shot, and its column is the shot's column
except in the first frame, which shows the column stored before the shot. -/
theorem exists_lastFire {c : Nat} (hon : (shot e d c).laserOn = true) :
    ∃ t k, LastFire e d t c ∧ Flight k (column e d (t + 1)) (shot e d c) ∧
      (k = 0 → (shot e d c).laserXPos = (shot e d t).laserXMotion) := by
  induction c with
  | zero => exact absurd hon Bool.false_ne_true
  | succ c ih =>
      by_cases htick : tick e d c = true
      · by_cases hfly : (shot e d c).InFlight
        · obtain ⟨t, k, hlast, hflight, -⟩ := ih hfly.1
          refine ⟨t, k + 1, ⟨hlast.1, Nat.lt_succ_of_lt hlast.2.1, ?_⟩, ?_, fun h => by omega⟩
          · intro u htu huc hfire
            obtain hlt | rfl := Nat.lt_succ_iff_lt_or_eq.mp huc
            · exact hlast.2.2 u htu hlt hfire
            · exact ((fires_iff u).mp hfire).2.2 hfly
          · rw [shot_succ_of_tick htick]
            exact hflight.next (hflight.inFlight_iff.mp hfly) _ _
        · have hspace : (d.keys c).space = 1#8 := by
            by_contra hspace
            rw [shot_succ_of_tick htick, next_of_noSpace hfly hspace] at hon
            exact absurd hon (by simp)
          have hfire : Fires e d c := (fires_iff c).mpr ⟨htick, hspace, hfly⟩
          exact ⟨c, 0, ⟨hfire, Nat.lt_succ_self c, fun u hcu huc => by omega⟩,
            hfire.flight.1, fun _ => hfire.flight.2⟩
      · have hsame := shot_succ_of_not_tick htick
        rw [hsame] at hon
        obtain ⟨t, k, hlast, hflight, hfirst⟩ := ih hon
        refine ⟨t, k, ⟨hlast.1, Nat.lt_succ_of_lt hlast.2.1, ?_⟩, by rwa [hsame], by rwa [hsame]⟩
        intro u htu huc hfire
        obtain hlt | rfl := Nat.lt_succ_iff_lt_or_eq.mp huc
        · exact hlast.2.2 u htu hlt hfire
        · exact htick hfire.1

/-- At tick `t` the laser's copy of the column already is the column the
cannon is about to take. -/
def CopyCurrent (e : EdgeDetector) (d : Drive) (t : Nat) : Prop :=
  (shot e d t).laserXMotion = column e d t + (run e d t).cannon.regs.cannonXMotion

/-- Until cycle `N` all shots are straight, their first frames included, if and
only if every firing tick before `N` finds the laser's copy current. -/
theorem straight_iff (e : EdgeDetector) (d : Drive) (N : Nat) :
    (∀ c, c ≤ N → Straight e d c) ↔
      ∀ t, t < N → tick e d t = true → (d.keys t).space = 1#8 → ¬(shot e d t).InFlight →
        CopyCurrent e d t := by
  constructor
  · intro h t ht htick hspace hfly
    have hfire : Fires e d t := (fires_iff t).mpr ⟨htick, hspace, hfly⟩
    obtain ⟨hflight, hfirst⟩ := hfire.flight
    obtain ⟨u, ⟨-, hut, hlast⟩, hcolumn⟩ := h (t + 1) ht hflight.on
    -- The shot seen in the first frame after `t` is the one fired at `t`.
    obtain rfl : u = t := by
      by_contra hne
      exact hlast t (by omega) (Nat.lt_succ_self t) hfire
    rw [CopyCurrent, ← column_succ_of_tick htick, ← hcolumn, hfirst]
  · intro h c hc hon
    obtain ⟨t, k, hlast, hflight, hfirst⟩ := exists_lastFire hon
    refine ⟨t, hlast, ?_⟩
    by_cases hk : k = 0
    · obtain ⟨htick, hspace, hfly⟩ := (fires_iff t).mp hlast.1
      have hcopy := h t (Nat.lt_of_lt_of_le hlast.2.1 hc) htick hspace hfly
      rw [hfirst hk, hcopy, column_succ_of_tick htick]
    · exact hflight.xPos (by omega)

/-- A frame clock that rises in every second cycle, with space held from reset. -/
def spaceHeld : Drive := ⟨fun n => n % 2 == 1, fun _ => ⟨0#8, 0#8, 1#8⟩⟩

theorem flightLaw_spaceHeld : FlightLaw .low spaceHeld 2 :=
  (shots_obey_flightLaw .low spaceHeld).2 2 (by decide)

/-- The first shot after reset appears in column 0, with the cannon at 320. -/
theorem spaceHeld_not_straight : ¬∀ c, Straight .low spaceHeld c := by
  intro h
  obtain ⟨t, ⟨-, ht, -⟩, hcolumn⟩ := h 3 (by decide)
  have hshot : (shot .low spaceHeld 3).laserXPos = 0#10 := by decide
  have hcannon : ∀ t, t < 3 → column .low spaceHeld (t + 1) = 320#10 := by decide
  rw [hshot, hcannon t ht] at hcolumn
  exact absurd hcolumn (by decide)

end Game

end SpaceInvaders
