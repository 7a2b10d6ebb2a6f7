import SpaceInvaders.Display.Screen

/-!
# When the stale first frame of a shot can be seen

In its first frame a shot is drawn in the column the laser stored before, not in
the one it was fired from. It is drawn at the cannon's own height, though, and
under the cannon's disc it cannot be seen. The stored column is the cannon's
last one if the laser was off, and then the two differ by at most one step of
the cannon. It is the column of the previous shot if that shot is replaced at
the top, and it is column `0` at the first tick after reset.
-/

namespace SpaceInvaders.FinalProject

open Machine Game Laser.Registers

/-- The first frame of a shot: the laser is lit at the height of the cannon, in a
column the cannon has been in, or in column `0` with the cannon in the middle. -/
structure FirstFrame (g : Game.Registers) : Prop where
  cannon : g.cannon.OnTrack
  on : g.laser.laserOn = true
  height : g.laser.laserYPos.toNat = 470
  even : g.laser.laserXPos.toNat % 2 = 0
  column : (2 ≤ g.laser.laserXPos.toNat ∧ g.laser.laserXPos.toNat ≤ 638) ∨
    (g.laser.laserXPos.toNat = 0 ∧ g.cannon.cannonXPos.toNat = 320)

/-- A disc of radius 2 whose centre is at most 2 away lies in a disc of radius 4. -/
theorem disc_subset {a b d : Int} (hdisc : a ^ 2 + b ^ 2 ≤ 4) (hlo : -2 ≤ d) (hhi : d ≤ 2) :
    (a + d) ^ 2 + b ^ 2 ≤ 16 := by
  have hd : d ^ 2 ≤ 4 := by nlinarith
  have hmixed : 0 ≤ (a - d) ^ 2 := sq_nonneg _
  have hb : 0 ≤ b ^ 2 := sq_nonneg _
  nlinarith

/-- The first frame is hidden exactly if the two columns differ by at most one
step of the cannon. -/
theorem FirstFrame.hidden_iff {g : Game.Registers} (h : FirstFrame g) :
    pixels g .white = ∅ ↔
      g.laser.laserXPos.toNat ≤ g.cannon.cannonXPos.toNat + 2 ∧
        g.cannon.cannonXPos.toNat ≤ g.laser.laserXPos.toNat + 2 := by
  have hrow : g.cannon.cannonYPos.toNat = 470 := by rw [h.cannon.row]; rfl
  obtain ⟨hlo, hhi⟩ := h.cannon.bounds
  have hparity := h.cannon.even
  have heven := h.even
  have hcolumn := h.column
  constructor
  · intro hhidden
    -- otherwise the pixel on the far side of the shot's centre is white
    have hdark : ∀ x : Nat, x < 640 → ((x : Int) - g.laser.laserXPos.toNat) ^ 2 ≤ 4 →
        ((x : Int) - g.cannon.cannonXPos.toNat) ^ 2 ≤ 16 := by
      intro x hx hlaser
      by_contra hcannon
      have hwhite : picture g x 470 = .white := by
        rw [picture_eq_white_iff, hrow, h.height]
        simp only [Nat.cast_ofNat, sub_self, ne_eq, OfNat.ofNat_ne_zero, not_false_eq_true,
          zero_pow, add_zero]
        exact ⟨hcannon, h.on, hlaser⟩
      refine absurd hhidden (Finset.ne_empty_of_mem (a := (x, 470)) ?_)
      rw [mem_pixels]
      exact ⟨⟨hx, by decide⟩, hwhite⟩
    generalize g.laser.laserXPos.toNat = xl at *
    generalize g.cannon.cannonXPos.toNat = xc at *
    by_contra hfar
    obtain hright | hleft : xc + 4 ≤ xl ∨ xl + 4 ≤ xc := by omega
    · have hcannon := hdark (xl + 1) (by omega) (by push_cast; ring_nf; decide)
      push_cast at hcannon
      nlinarith
    · obtain ⟨x, hx, hx'⟩ : ∃ x : Nat, xl ≤ x + 1 ∧ x ≤ xl ∧ x + 5 ≤ xc := by
        obtain ⟨hxl, -⟩ | ⟨hxl, hxc⟩ := hcolumn
        · exact ⟨xl - 1, by omega⟩
        · exact ⟨xl, by omega⟩
      have hcannon := hdark x (by omega) (by nlinarith)
      nlinarith
  · rintro ⟨hleft, hright⟩
    refine Finset.filter_eq_empty_iff.mpr ?_
    intro p _ hwhite
    rw [picture_eq_white_iff, hrow, h.height] at hwhite
    obtain ⟨hcannon, -, hlaser⟩ := hwhite
    refine hcannon ?_
    have hdisc := disc_subset hlaser
      (d := (g.laser.laserXPos.toNat : Int) - g.cannon.cannonXPos.toNat) (by omega) (by omega)
    rwa [sub_add_sub_cancel] at hdisc

end SpaceInvaders.FinalProject

namespace SpaceInvaders.Game

open Machine Laser.Registers FinalProject

variable {e : EdgeDetector} {d : Drive}

theorem onTrack_regs (n : Nat) : (run e d n).cannon.regs.OnTrack :=
  regs_invariant (P := fun g => g.cannon.OnTrack) .reset (fun _ _ h => h.next _) n

/-- Before the first tick the laser is off and its copy of the column is 0. -/
theorem shot_of_reset {n : Nat} (h : (run e d n).regs = .reset) :
    (shot e d n).laserOn = false ∧ (shot e d n).laserXMotion = 0#10 := by
  have hlaser : shot e d n = .reset := congrArg Registers.laser h
  rw [hlaser]
  exact ⟨rfl, rfl⟩

/-- The laser's copy of the column: none before the first tick, and from then on
a column of the cannon, the current one while the laser is off. -/
theorem copy_cases (n : Nat) :
    (frames e d n = 0 ∧ (run e d n).regs = .reset) ∨
      (0 < frames e d n ∧ (shot e d n).laserXMotion.toNat % 2 = 0 ∧
        2 ≤ (shot e d n).laserXMotion.toNat ∧ (shot e d n).laserXMotion.toNat ≤ 638 ∧
        ((shot e d n).laserOn = false → (shot e d n).laserXMotion = column e d n)) := by
  induction n with
  | zero => exact .inl ⟨Nat.count_zero _, rfl⟩
  | succ n ih =>
      by_cases htick : tick e d n = true
      · refine .inr ?_
        rw [frames_succ, if_pos htick, shot_succ_of_tick htick]
        by_cases hfly : (shot e d n).InFlight
        · obtain ⟨-, hreset⟩ | ⟨-, heven, hlo, hhi, -⟩ := ih
          · exact absurd (hfly.1.symm.trans (shot_of_reset hreset).1) (by decide)
          · rw [next_of_inFlight hfly]
            exact ⟨Nat.succ_pos _, heven, hlo, hhi, fun hoff => absurd hoff (by simp)⟩
        · have htrack := onTrack_regs (e := e) (d := d) (n + 1)
          have hbounds := htrack.bounds
          by_cases hspace : (d.keys n).space = 1#8
          · rw [hspace, next_of_space hfly]
            exact ⟨Nat.succ_pos _, htrack.even, hbounds.1, hbounds.2, fun _ => rfl⟩
          · rw [next_of_noSpace hfly hspace]
            exact ⟨Nat.succ_pos _, htrack.even, hbounds.1, hbounds.2, fun _ => rfl⟩
      · have hcolumn : column e d (n + 1) = column e d n :=
          congrArg (fun g => g.cannon.cannonXPos) (regs_succ_of_not_tick htick)
        rw [frames_succ, if_neg htick, shot_succ_of_not_tick htick, hcolumn,
          regs_succ_of_not_tick htick]
        exact ih

/-- The shot seen in a cycle was fired at one tick only. -/
theorem LastFire.unique {t u c : Nat} (ht : LastFire e d t c) (hu : LastFire e d u c) : t = u := by
  obtain hlt | heq | hgt := Nat.lt_trichotomy t u
  · exact absurd hu.1 (ht.2.2 u hlt hu.2.1)
  · exact heq
  · exact absurd ht.1 (hu.2.2 t hgt ht.2.1)

/-- The picture right after a firing tick is the first frame of the shot. -/
theorem Fires.firstFrame {t : Nat} (h : Fires e d t) : FirstFrame (run e d (t + 1)).regs := by
  obtain ⟨hflight, hstale⟩ := h.flight
  have hcopy := copy_cases (e := e) (d := d) t
  have hx : ((run e d (t + 1)).regs.laser.laserXPos).toNat =
      (shot e d t).laserXMotion.toNat := congrArg BitVec.toNat hstale
  refine ⟨onTrack_regs (t + 1), hflight.on, hflight.height, ?_, ?_⟩
  · rw [hx]
    obtain ⟨-, hreset⟩ | ⟨-, heven, -⟩ := hcopy
    · rw [(shot_of_reset hreset).2]
      rfl
    · exact heven
  · rw [hx]
    obtain ⟨-, hreset⟩ | ⟨-, -, hlo, hhi, -⟩ := hcopy
    · refine .inr ⟨?_, ?_⟩
      · rw [(shot_of_reset hreset).2]
        rfl
      · -- the cannon has not moved yet
        have hcannon := congrArg (fun g => g.cannon.cannonXPos + g.cannon.cannonXMotion) hreset
        have hnew := column_succ_of_tick h.1
        rw [column, column] at hnew
        exact congrArg BitVec.toNat (hnew.trans hcannon)
    · exact .inl ⟨hlo, hhi⟩

/-- The first frame of a shot cannot be seen exactly if the laser was off before
and it is not the first tick since reset, or if the shot replaces one that was
fired at most one step of the cannon away. -/
theorem firstFrame_hidden_iff (e : EdgeDetector) (d : Drive) (t : Nat) (h : Fires e d t) :
    pixels (run e d (t + 1)).regs .white = ∅ ↔
      ((shot e d t).laserOn = false ∧ 0 < frames e d t) ∨
      ∃ u, LastFire e d u t ∧ (shot e d t).laserOn = true ∧
        (column e d (u + 1)).toNat ≤ (column e d (t + 1)).toNat + 2 ∧
        (column e d (t + 1)).toNat ≤ (column e d (u + 1)).toNat + 2 := by
  have hx : ((run e d (t + 1)).regs.laser.laserXPos).toNat =
      (shot e d t).laserXMotion.toNat := congrArg BitVec.toNat h.flight.2
  rw [h.firstFrame.hidden_iff, hx]
  change (shot e d t).laserXMotion.toNat ≤ (column e d (t + 1)).toNat + 2 ∧
    (column e d (t + 1)).toNat ≤ (shot e d t).laserXMotion.toNat + 2 ↔ _
  cases hon : (shot e d t).laserOn with
  | true =>
      obtain ⟨u, k, hlast, hflight, -⟩ := exists_lastFire hon
      rw [hflight.xMotion]
      constructor
      · exact fun hnear => .inr ⟨u, hlast, rfl, hnear⟩
      · rintro (⟨hoff, -⟩ | ⟨v, hlast', -, hnear⟩)
        · exact absurd hoff (by decide)
        · rwa [hlast.unique hlast']
  | false =>
      have hstep := (onTrack_regs (e := e) (d := d) t).add_motion_bounds
      rw [column_succ_of_tick h.1]
      obtain ⟨hzero, hreset⟩ | ⟨hpos, -, -, -, hcurrent⟩ := copy_cases (e := e) (d := d) t
      · have hcannon : (run e d t).cannon.regs = .reset :=
          congrArg (fun g => g.cannon) hreset
        have hcolumn : column e d t + (run e d t).cannon.regs.cannonXMotion = 320#10 := by
          rw [column, hcannon]
          rfl
        rw [(shot_of_reset hreset).2, hzero, hcolumn]
        constructor
        · exact fun hnear => absurd hnear.2 (by decide)
        · rintro (⟨-, hpos⟩ | ⟨u, -, hon', -⟩)
          · exact absurd hpos (by decide)
          · exact absurd hon' (by decide)
      · rw [hcurrent hon]
        refine ⟨fun _ => .inl ⟨rfl, hpos⟩, fun _ => ?_⟩
        exact ⟨hstep.2.2.2, hstep.2.2.1⟩

/-- The first shot after reset is seen in column 0. -/
theorem firstFrame_spaceHeld :
    pixels (run .low spaceHeld 3).regs .white = ∅ ↔
      ((shot .low spaceHeld 2).laserOn = false ∧ 0 < frames .low spaceHeld 2) ∨
      ∃ u, LastFire .low spaceHeld u 2 ∧ (shot .low spaceHeld 2).laserOn = true ∧
        (column .low spaceHeld (u + 1)).toNat ≤ (column .low spaceHeld 3).toNat + 2 ∧
        (column .low spaceHeld 3).toNat ≤ (column .low spaceHeld (u + 1)).toNat + 2 :=
  firstFrame_hidden_iff .low spaceHeld 2 (by decide)

end SpaceInvaders.Game
