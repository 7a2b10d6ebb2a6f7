import SpaceInvaders.Hardware.FinalProject

/-!
# The two time scales of the display

With `Reset_h` low the pixel clock toggles in every `Clk` cycle, so cycle `c`
lies in pixel clock `(c + 1) / 2`, and the VGA controller has made exactly that
many steps. `VGA_VS` is its registered sync pulse; seen from `Clk` it rises in
pixel clock 1, when the controller leaves its reset values, and after the sync
pulse of every frame. The game is a run of `Game.run` with that signal as its
frame clock, so all results about arbitrary frame clocks apply to it.
-/

namespace SpaceInvaders.FinalProject

open Machine

/-- `VGA_CLK` as a signal over `Clk` cycles. -/
def vgaClk (keycode : Nat → BitVec 16) (c : Nat) : Bool := (run keycode c).vgaClk

/-- `VGA_VS` as a signal over `Clk` cycles. -/
def vgaVS (keycode : Nat → BitVec 16) (c : Nat) : Bool := (run keycode c).vga.vgaVS

/-- The number of `VGA_CLK` edges up to `Clk` cycle `c`. -/
def pixelClock (keycode : Nat → BitVec 16) (c : Nat) : Nat := risingEdges (vgaClk keycode) c

/-- What drives the game modules in the display. -/
def drive (keycode : Nat → BitVec 16) : Game.Drive where
  frameClk := vgaVS keycode
  keys c := keys (keycode c)

variable {keycode : Nat → BitVec 16}

theorem run_resetH (c : Nat) : (run keycode c).resetH = false := by
  cases c with
  | zero => rfl
  | succ c => rfl

theorem vgaClk_succ (c : Nat) : vgaClk keycode (c + 1) = !vgaClk keycode c := by
  change (if (run keycode c).resetH then false else !(run keycode c).vgaClk) = _
  rw [run_resetH]
  rfl

theorem vgaClk_risesAt_iff (c : Nat) : RisesAt (vgaClk keycode) c ↔ c % 2 = 0 :=
  toggling_risesAt_iff rfl vgaClk_succ c

theorem pixelClock_eq (c : Nat) : pixelClock keycode c = (c + 1) / 2 :=
  toggling_risingEdges rfl vgaClk_succ c

/-- The controller has made one step for each pixel clock. -/
theorem vga_eq_edges (c : Nat) :
    (run keycode c).vga = VgaController.edges (pixelClock keycode c) := by
  refine clocked_eq_iterate (y := fun c => (run keycode c).vga) (x := vgaClk keycode) ?_ c
  intro c
  rw [run_succ, State.step_vga]
  rfl

/-- The game in the display is the game driven by `VGA_VS`. -/
theorem game_eq_run (c : Nat) : (run keycode c).game = Game.run .low (drive keycode) c := by
  induction c with
  | zero => rfl
  | succ c ih =>
      rw [run_succ, State.step_game, run_resetH, ih, Game.run_succ]
      rfl

theorem vgaVS_zero : vgaVS keycode 0 = false := rfl

theorem vgaVS_eq {c : Nat} (hc : 1 ≤ c) :
    vgaVS keycode c = !decide (490 ≤ (c + 1) / 2 / 800 % 525 ∧ (c + 1) / 2 / 800 % 525 < 492) := by
  unfold vgaVS
  rw [vga_eq_edges, pixelClock_eq, VgaController.edges_vgaVS (by omega)]

/-- `VGA_VS` rises in the first cycle of pixel clock 1 and of the pixel clocks
that start line 492. -/
theorem vgaVS_risesAt_iff (c : Nat) :
    RisesAt (vgaVS keycode) c ↔
      c % 2 = 0 ∧ (c = 0 ∨ ((c + 2) / 2) % 420000 = 393600) := by
  by_cases hc : c = 0
  · subst hc
    simp [RisesAt, vgaVS_zero, @vgaVS_eq keycode 1 (Nat.le_refl 1)]
  · rw [RisesAt, vgaVS_eq (by omega), vgaVS_eq (by omega)]
    simp only [Bool.not_eq_false', Bool.not_eq_true', decide_eq_true_eq, decide_eq_false_iff_not]
    omega

/-- A frame tick follows two cycles after a rise of `VGA_VS`. -/
theorem tick_iff (c : Nat) :
    Game.tick .low (drive keycode) (c + 2) = true ↔ RisesAt (vgaVS keycode) c :=
  EdgeDetector.frameClkRisingEdge_iff (e := fun c => (Game.run .low (drive keycode) c).cannon.edge)
    (fun c => Game.run_cannon_edge_succ c) c

theorem tick_of_lt_two {c : Nat} (hc : c < 2) : Game.tick .low (drive keycode) c = false :=
  EdgeDetector.frameClkRisingEdge_of_lt_two
    (e := fun c => (Game.run .low (drive keycode) c).cannon.edge)
    (fun c => Game.run_cannon_edge_succ c) rfl rfl hc

end SpaceInvaders.FinalProject
