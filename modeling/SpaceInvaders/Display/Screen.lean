import SpaceInvaders.Display.Stabilise
import SpaceInvaders.Game.CannonTrack
import SpaceInvaders.Game.Flight
import SpaceInvaders.Machine.Disc

/-!
# What a press of the reset button puts on the screen

A reset need not reach the VGA controller, and it does not reach the edge
detectors: cannon and laser may even disagree about the first tick afterwards.
The game invariant `Playing` survives all this, because each module keeps its
own part under its own ticks. So once the display is stable, every frame shows
a cannon, of which at most a known part is cut off by the border, and a shot
that is past its first frame is not hidden by it.
-/

namespace SpaceInvaders

open Machine

namespace Game

/-- What holds of the game at all times after a reset. -/
structure Playing (g : Registers) : Prop where
  cannon : g.cannon.OnTrack
  laser : g.laser.Sound
  /-- A lit laser is a shot that was fired from a column of the cannon. -/
  shot : g.laser.laserOn = true → ∃ k column, k ≤ 67 ∧
    (2 ≤ column.toNat ∧ column.toNat ≤ 638) ∧ Laser.Registers.Flight k column g.laser

namespace Playing

variable {g : Registers}

theorem reset : Playing .reset where
  cannon := .reset
  laser := .reset
  shot hon := absurd hon (by decide)

/-- The laser keeps its part at a tick, for every column the cannon can take. -/
theorem laser_next (h : Playing g) (keycode1 : BitVec 8) {column : BitVec 10}
    (hcolumn : 2 ≤ column.toNat ∧ column.toNat ≤ 638) :
    Playing { g with laser := g.laser.next true keycode1 column } where
  cannon := h.cannon
  laser := h.laser.next _ _
  shot := by
    by_cases hfly : g.laser.InFlight
    · intro _
      obtain ⟨k, c, hk, hc, hflight⟩ := h.shot hfly.1
      have hk' : k ≤ 66 := hflight.inFlight_iff.mp hfly
      exact ⟨k + 1, c, by omega, hc, hflight.next hk' _ _⟩
    · by_cases hspace : keycode1 = 1#8
      · intro _
        subst keycode1
        refine ⟨0, column, by decide, hcolumn, ?_⟩
        rw [Laser.Registers.next_of_space hfly]
        exact ⟨rfl, rfl, rfl, rfl, fun hk => absurd hk (by decide)⟩
      · rw [Laser.Registers.next_of_noSpace hfly hspace]
        exact fun hon => absurd hon (by simp)

theorem cannon_next (h : Playing g) (tick : Bool) (keys : Cannon.Keys) :
    Playing { g with cannon := g.cannon.next tick keys } where
  cannon := by
    cases tick with
    | false => exact h.cannon
    | true => exact h.cannon.next keys
  laser := h.laser
  shot := h.shot

/-- Every `Clk` edge keeps the invariant: with `Reset` high or low, and whether
or not the two modules tick together. -/
theorem step {s : State} (h : Playing s.regs) (i : Input) : Playing (s.step i).regs := by
  cases hreset : i.reset with
  | true =>
      rw [State.step, State.regs, hreset]
      exact .reset
  | false =>
      have hcannon := h.cannon_next s.cannon.edge.frameClkRisingEdge i.keys.cannon
      have hcolumn := hcannon.cannon.bounds
      rw [State.step, State.regs, Cannon.State.step_regs _ _ hreset,
        Laser.State.step_regs _ _ hreset]
      cases s.laser.edge.frameClkRisingEdge with
      | false => exact hcannon
      | true => exact hcannon.laser_next _ hcolumn

theorem frameStep (h : Playing g) (keys : Keys) : Playing (frameStep keys g) :=
  (h.cannon_next true keys.cannon).laser_next _ (h.cannon.next keys.cannon).bounds

end Playing

end Game

namespace FinalProject

/-- The visible coordinates that the picture of `g` shows in colour `c`. -/
def pixels (g : Game.Registers) (c : Rgb) : Finset (Nat × Nat) :=
  (Finset.range 640 ×ˢ Finset.range 480).filter fun p => picture g p.1 p.2 = c

theorem mem_pixels {g : Game.Registers} {c : Rgb} {x y : Nat} :
    (x, y) ∈ pixels g c ↔ (x < 640 ∧ y < 480) ∧ picture g x y = c := by
  simp only [pixels, Finset.mem_filter, Finset.mem_product, Finset.mem_range]

/-- The number of pixels of a cannon in column `x` that lie on the screen. -/
def cannonArea (x : Nat) : Nat :=
  if x = 2 then 43 else if x = 636 then 48 else if x = 638 then 36 else 49

theorem picture_eq_brightGreen_iff (g : Game.Registers) (x y : Nat) :
    picture g x y = .brightGreen ↔
      ((x : Int) - g.cannon.cannonXPos.toNat) ^ 2 +
        ((y : Int) - g.cannon.cannonYPos.toNat) ^ 2 ≤ 16 := by
  unfold picture
  split
  · next h => exact ⟨fun _ => h, fun _ => rfl⟩
  · next h =>
    refine ⟨fun hcolour => ?_, fun h' => absurd h' h⟩
    split at hcolour <;> exact absurd hcolour (by decide)

theorem picture_eq_white_iff (g : Game.Registers) (x y : Nat) :
    picture g x y = .white ↔
      ¬((x : Int) - g.cannon.cannonXPos.toNat) ^ 2 +
          ((y : Int) - g.cannon.cannonYPos.toNat) ^ 2 ≤ 16 ∧
        g.laser.laserOn = true ∧
        ((x : Int) - g.laser.laserXPos.toNat) ^ 2 +
          ((y : Int) - g.laser.laserYPos.toNat) ^ 2 ≤ 4 := by
  unfold picture
  split
  · next h => exact ⟨fun hcolour => absurd hcolour (by decide), fun h' => absurd h h'.1⟩
  · next h =>
    split
    · next hlaser => exact ⟨fun _ => ⟨h, hlaser⟩, fun _ => rfl⟩
    · next hlaser => exact ⟨fun hcolour => absurd hcolour (by decide), fun h' => absurd h'.2 hlaser⟩

/-- The green pixels are the cannon's disc. -/
theorem pixels_brightGreen (g : Game.Registers) :
    pixels g .brightGreen =
      discPixels 640 480 g.cannon.cannonXPos.toNat g.cannon.cannonYPos.toNat 4 := by
  refine Finset.filter_congr ?_
  intro p _
  exact picture_eq_brightGreen_iff g p.1 p.2

theorem card_brightGreen {g : Game.Registers} (h : g.cannon.OnTrack) :
    (pixels g .brightGreen).card = cannonArea g.cannon.cannonXPos.toNat := by
  have heven := h.even
  obtain ⟨hlo, hhi⟩ := h.bounds
  have hrow : g.cannon.cannonYPos.toNat = 470 := by rw [h.row]; rfl
  rw [pixels_brightGreen, hrow, cannonArea]
  generalize g.cannon.cannonXPos.toNat = x at *
  split
  · next hx =>
    rw [hx, card_discPixels_of (q := fun d => 0 ≤ 2 + d.1)
      (fun d _ _ _ _ => by simp only [OnGrid]; omega)]
    decide
  · split
    · next hx =>
      rw [hx, card_discPixels_of (q := fun d => 636 + d.1 < 640)
        (fun d _ _ _ _ => by simp only [OnGrid]; omega)]
      decide
    · split
      · next hx =>
        rw [hx, card_discPixels_of (q := fun d => 638 + d.1 < 640)
          (fun d _ _ _ _ => by simp only [OnGrid]; omega)]
        decide
      · rw [card_discPixels_of (q := fun _ => True)
          (fun d _ _ _ _ => by simp only [OnGrid, iff_true]; omega)]
        decide

/-- A shot past its first frame is above the cannon's disc. -/
theorem not_onCannon {k y : Nat} (hk : 1 ≤ k) {dx : Int}
    (hlaser : dx ^ 2 + ((y : Int) - (470 - 7 * k : Nat)) ^ 2 ≤ 4) (dx' : Int) :
    ¬dx' ^ 2 + ((y : Int) - (470 : Nat)) ^ 2 ≤ 16 := by
  intro hcannon
  have hx : 0 ≤ dx ^ 2 := sq_nonneg _
  have hx' : 0 ≤ dx' ^ 2 := sq_nonneg _
  have hup : (y : Int) - (470 - 7 * k : Nat) ≤ 2 := by nlinarith
  have hdown : -4 ≤ (y : Int) - (470 : Nat) := by nlinarith
  omega

/-- The pixels of a shot past its first frame are its whole disc. -/
theorem pixels_white {g : Game.Registers} (hrow : g.cannon.cannonYPos.toNat = 470) {k : Nat}
    {column : BitVec 10} (hk : 1 ≤ k) (h : Laser.Registers.Flight k column g.laser) :
    pixels g .white = discPixels 640 480 column.toNat (470 - 7 * k) 2 := by
  refine Finset.filter_congr ?_
  intro p _
  rw [picture_eq_white_iff, hrow, h.height, h.xPos hk, h.on]
  constructor
  · rintro ⟨-, -, hlaser⟩
    exact hlaser
  · intro hlaser
    exact ⟨not_onCannon hk hlaser _, rfl, hlaser⟩

/-- How much of the sprites a picture shows. -/
structure ShowsSprites (g : Game.Registers) : Prop where
  /-- The cannon is never hidden by more than the border. -/
  cannon : (pixels g .brightGreen).card = cannonArea g.cannon.cannonXPos.toNat
  /-- It is there entirely exactly while it is on the screen. -/
  entire : (pixels g .brightGreen).card = 49 ↔ g.cannon.OnScreen
  dark : g.laser.laserOn = false → pixels g .white = ∅
  /-- A lit laser is a shot `k` frames old. From its second frame until it reaches
  the top nothing of it is hidden, and only column `638` cuts off one pixel. -/
  shot : g.laser.laserOn = true → ∃ k, k ≤ 67 ∧ g.laser.laserYPos.toNat = 470 - 7 * k ∧
    (1 ≤ k → k ≤ 66 → (pixels g .white).card =
      if g.laser.laserXPos.toNat = 638 then 12 else 13)

theorem card_white {g : Game.Registers} (hrow : g.cannon.cannonYPos.toNat = 470) {k : Nat}
    {column : BitVec 10} (hk : 1 ≤ k) (hk' : k ≤ 66) (h : Laser.Registers.Flight k column g.laser)
    (hcolumn : 2 ≤ column.toNat ∧ column.toNat ≤ 638) :
    (pixels g .white).card = if g.laser.laserXPos.toNat = 638 then 12 else 13 := by
  rw [pixels_white hrow hk h, h.xPos hk]
  split
  · next hx =>
    rw [hx, card_discPixels_of (q := fun d => 638 + d.1 < 640)
      (fun d _ _ _ _ => by simp only [OnGrid]; omega)]
    decide
  · rw [card_discPixels_of (q := fun _ => True)
      (fun d _ _ _ _ => by simp only [OnGrid, iff_true]; omega)]
    decide

theorem showsSprites {g : Game.Registers} (h : Game.Playing g) : ShowsSprites g where
  cannon := card_brightGreen h.cannon
  entire := by
    have heven := h.cannon.even
    obtain ⟨hlo, hhi⟩ := h.cannon.bounds
    rw [card_brightGreen h.cannon, Cannon.Registers.onScreen_iff, cannonArea]
    split <;> [skip; split <;> [skip; split]] <;> omega
  dark hoff := by
    refine Finset.filter_eq_empty_iff.mpr ?_
    intro p _ hwhite
    rw [picture_eq_white_iff, hoff] at hwhite
    exact Bool.false_ne_true hwhite.2.1
  shot hon := by
    obtain ⟨k, column, hk, hcolumn, hflight⟩ := h.shot hon
    have hrow : g.cannon.cannonYPos.toNat = 470 := by rw [h.cannon.row]; rfl
    exact ⟨k, hk, hflight.height, fun hk1 hk66 => card_white hrow hk1 hk66 hflight hcolumn⟩

/-- After a press of the reset button the game is in play. -/
theorem playing_runFrom {s : State} (hreset : s.resetH = true) (keycode : Nat → BitVec 16)
    (n : Nat) : Game.Playing (runFrom s keycode (n + 1)).game.regs := by
  induction n with
  | zero =>
      rw [runFrom_succ, State.step_game, runFrom, stateAt_zero, hreset]
      exact .reset
  | succ n ih => exact ih.step _

theorem playing_sixtyHertz {g : Game.Registers} (h : Game.Playing g)
    (keycode : Nat → BitVec 16) (k : Nat) : Game.Playing (sixtyHertz keycode g k) :=
  stateAt_invariant (P := fun _ g => Game.Playing g) h (fun _ hg => hg.frameStep _) k

/-- The reset button is let go in an arbitrary state: within 1638854 cycles the
display is stable, and all its frames show the sprites. -/
theorem reset_showsSprites (s : State) (hreset : s.resetH = true) (keycode : Nat → BitVec 16) :
    ∃ a, a ≤ 1638854 ∧ StableFrom s keycode a ∧
      ∀ k, ShowsSprites (sixtyHertz (fromCycle a keycode) (runFrom s keycode a).game.regs k) := by
  obtain ⟨a, hpos, ha, hstart⟩ := exists_frameStart s keycode
  obtain ⟨n, rfl⟩ := Nat.exists_eq_add_of_le' hpos
  refine ⟨n + 1, ha, stableFrom_of_frameStart hstart, fun k => ?_⟩
  exact showsSprites (playing_sixtyHertz (playing_runFrom hreset keycode n) _ k)

/-- The button let go right after the reset state. -/
theorem reset_showsSprites_first :
    ∃ a, a ≤ 1638854 ∧ StableFrom { State.reset with resetH := true } (fun _ => 0#16) a ∧
      ∀ k, ShowsSprites (sixtyHertz (fromCycle a fun _ => 0#16)
        (runFrom { State.reset with resetH := true } (fun _ => 0#16) a).game.regs k) :=
  reset_showsSprites { State.reset with resetH := true } rfl (fun _ => 0#16)

end FinalProject

end SpaceInvaders
