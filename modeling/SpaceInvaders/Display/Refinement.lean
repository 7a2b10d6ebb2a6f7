import SpaceInvaders.Display.Timing

/-!
# The display refines the frame-level game

At `Clk` level the game is two modules with registers, edge detectors and a
frame clock that is a registered output of a third module on a divided clock.
At frame level it is the iteration of `Game.frameStep`. The refinement says
that the two agree in every `Clk` cycle, once the frame-level game has made one
step for each frame tick so far, with the keys that were decoded from the
keycode in the tick's own cycle.
-/

namespace SpaceInvaders.FinalProject

open Machine

/-- Cycle `c` is a frame tick of the display. -/
def frameTick (keycode : Nat → BitVec 16) (c : Nat) : Bool :=
  (run keycode c).game.cannon.edge.frameClkRisingEdge

/-- The frame-level game after the ticks before cycle `c`. -/
def frameGame (keycode : Nat → BitVec 16) (c : Nat) : Game.Registers :=
  (openCycles (frameTick keycode) c).foldl
    (fun g k => Game.frameStep (keys (keycode k)) g) .reset

/-- What it means that the display refines the frame-level game. -/
structure RefinesFrames (keycode : Nat → BitVec 16) : Prop where
  /-- Both modules see the same frame ticks. -/
  sameTick : ∀ c, (run keycode c).game.laser.edge.frameClkRisingEdge = frameTick keycode c
  /-- There is one tick per rise of `VGA_VS`, one cycle long, two cycles later. -/
  tickPerRise : (∀ c, frameTick keycode (c + 2) = true ↔ RisesAt (vgaVS keycode) c) ∧
    frameTick keycode 0 = false ∧ frameTick keycode 1 = false
  /-- `VGA_VS` rises at the start of pixel clock 1 and of one pixel clock in each frame. -/
  riseTimes : ∀ c, RisesAt (vgaVS keycode) c ↔
    RisesAt (vgaClk keycode) c ∧ (pixelClock keycode (c + 1) = 1 ∨
      ∃ j, pixelClock keycode (c + 1) = 393600 + 420000 * j)
  /-- The registers are those of the frame-level game in every cycle. -/
  registers : ∀ c, (run keycode c).game.regs = frameGame keycode c
  /-- Nothing moves between ticks. -/
  still : ∀ c, frameTick keycode c = false →
    (run keycode (c + 1)).game.regs = (run keycode c).game.regs
  /-- Keycodes present only between ticks have no effect. -/
  keysAtTicks : ∀ other : Nat → BitVec 16,
    (∀ c, frameTick keycode c = true → other c = keycode c) →
      ∀ c, (run other c).game.regs = (run keycode c).game.regs

variable {keycode : Nat → BitVec 16}

theorem frameTick_eq : frameTick keycode = Game.tick .low (drive keycode) := by
  funext c
  rw [frameTick, game_eq_run, Game.tick]

theorem vgaVS_risesAt_iff_pixelClock (c : Nat) :
    RisesAt (vgaVS keycode) c ↔
      RisesAt (vgaClk keycode) c ∧ (pixelClock keycode (c + 1) = 1 ∨
        ∃ j, pixelClock keycode (c + 1) = 393600 + 420000 * j) := by
  rw [vgaVS_risesAt_iff, vgaClk_risesAt_iff, pixelClock_eq]
  apply and_congr_right
  intro heven
  constructor
  · rintro (rfl | hline)
    · exact .inl rfl
    · exact .inr ⟨(c + 2) / 2 / 420000, by omega⟩
  · rintro (hone | ⟨j, hj⟩)
    · exact .inl (by omega)
    · exact .inr (by omega)

theorem game_regs_eq (c : Nat) : (run keycode c).game.regs = frameGame keycode c := by
  rw [game_eq_run, Game.regs_eq_foldl, frameGame, frameTick_eq]
  rfl

/-- When the frame ticks come does not depend on the keycodes. -/
theorem frameTick_independent (other : Nat → BitVec 16) :
    frameTick other = frameTick keycode := by
  rw [frameTick_eq, frameTick_eq]
  funext c
  match c with
  | 0 | 1 => rw [tick_of_lt_two (by decide), tick_of_lt_two (by decide)]
  | c + 2 =>
    apply Bool.eq_iff_iff.mpr
    rw [tick_iff, tick_iff, vgaVS_risesAt_iff, vgaVS_risesAt_iff]

theorem game_regs_succ (c : Nat) :
    (run keycode (c + 1)).game.regs =
      if frameTick keycode c then Game.frameStep (keys (keycode c)) (run keycode c).game.regs
      else (run keycode c).game.regs := by
  rw [game_eq_run, game_eq_run, frameTick_eq]
  exact Game.regs_succ c

theorem game_regs_congr {other : Nat → BitVec 16}
    (h : ∀ c, frameTick keycode c = true → other c = keycode c) (c : Nat) :
    (run other c).game.regs = (run keycode c).game.regs := by
  induction c with
  | zero => rfl
  | succ c ih =>
      rw [game_regs_succ, game_regs_succ, ih, frameTick_independent other]
      by_cases htick : frameTick keycode c = true
      · rw [h c htick]
      · rw [if_neg htick, if_neg htick]

/-- The display refines the frame-level game, for every assignment of keycodes
to `Clk` cycles. -/
theorem display_refinesFrames (keycode : Nat → BitVec 16) : RefinesFrames keycode where
  sameTick c := by
    rw [frameTick, game_eq_run, Game.run_laser_edge]
  tickPerRise := by
    rw [frameTick_eq]
    exact ⟨tick_iff, tick_of_lt_two (by decide), tick_of_lt_two (by decide)⟩
  riseTimes := vgaVS_risesAt_iff_pixelClock
  registers := game_regs_eq
  still c hc := by rw [game_regs_succ, hc, if_neg Bool.false_ne_true]
  keysAtTicks _ h := game_regs_congr h

end SpaceInvaders.FinalProject
