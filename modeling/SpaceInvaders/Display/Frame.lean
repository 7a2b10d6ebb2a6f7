import SpaceInvaders.Display.Picture
import SpaceInvaders.Machine.Blocks

/-!
# The contract of one frame

A frame takes 840000 `Clk` cycles. `FrameStart` describes the states in which a
frame can start: the pixel clock has just risen, the VGA controller is at the
first position of its period, and both edge detectors have seen `VGA_VS` high
for two cycles. Nothing is required of the game.

From every such state the cycles of the frame show one complete picture of the
game as it was at the start; the game then makes its one frame step, with the
keys of cycle 787201, and the frame ends in the start of the next.
-/

namespace SpaceInvaders

namespace VgaController

/-- From the first edge on the controller is periodic. -/
theorem edges_add_period {n : Nat} (hn : 1 ≤ n) : edges (n + 420000) = edges n := by
  have hlater : 1 ≤ n + 420000 := by omega
  have hH : (edges (n + 420000)).hCounter = (edges n).hCounter :=
    BitVec.eq_of_toNat_eq (by rw [edges_hCounter, edges_hCounter]; omega)
  have hV : (edges (n + 420000)).vCounter = (edges n).vCounter :=
    BitVec.eq_of_toNat_eq (by rw [edges_vCounter, edges_vCounter]; omega)
  have hX : (n + 420000) % 800 = n % 800 := by omega
  have hY : (n + 420000) / 800 % 525 = n / 800 % 525 := by omega
  have hHS : (edges (n + 420000)).vgaHS = (edges n).vgaHS := by
    rw [edges_vgaHS hlater, edges_vgaHS hn, hX]
  have hVS : (edges (n + 420000)).vgaVS = (edges n).vgaVS := by
    rw [edges_vgaVS hlater, edges_vgaVS hn, hY]
  have hBlank : (edges (n + 420000)).vgaBlankN = (edges n).vgaBlankN := by
    rw [edges_vgaBlankN hlater, edges_vgaBlankN hn, hX, hY]
  cases h : edges (n + 420000)
  cases h' : edges n
  rw [h, h'] at hH hV hHS hVS hBlank
  cases hH
  cases hV
  cases hHS
  cases hVS
  cases hBlank
  rfl

/-- The controller at the first position of every frame but the first. -/
theorem edges_frame {q : Nat} (hq : 1 ≤ q) : edges (420000 * q) = edges 420000 := by
  induction q, hq using Nat.le_induction with
  | base => rfl
  | succ q hq ih => rw [Nat.mul_succ, edges_add_period (by omega), ih]

theorem edges_add (m n : Nat) : edges (m + n) = (Registers.step false)^[n] (edges m) := by
  rw [Nat.add_comm]
  exact Function.iterate_add_apply _ n m _

end VgaController

namespace FinalProject

open Machine

/-- The run from state `s` with the reset button released. -/
def runFrom (s : State) (keycode : Nat → BitVec 16) (n : Nat) : State :=
  stateAt State.step (released keycode) s n

/-- The length of a frame in `Clk` cycles. -/
def frameCycles : Nat := 840000

/-- The cycle of a frame in which the game samples the keys. -/
def keyCycle : Nat := 787201

/-- A frame can start in this state. -/
structure FrameStart (s : State) : Prop where
  resetH : s.resetH = false
  vgaClk : s.vgaClk = true
  vga : s.vga = VgaController.edges 420000
  cannonEdge : s.game.cannon.edge = ⟨true, false⟩
  laserEdge : s.game.laser.edge = ⟨true, false⟩

section Clockwork

variable {s : State} {keycode : Nat → BitVec 16}

theorem runFrom_succ (n : Nat) :
    runFrom s keycode (n + 1) = (runFrom s keycode n).step (released keycode n) := rfl

theorem runFrom_add (a n : Nat) :
    runFrom s keycode (a + n) = runFrom (runFrom s keycode a) (fromCycle a keycode) n :=
  stateAt_add _ _ a n

/-- One cycle after the button has been released `Reset_h` is low. -/
theorem runFrom_resetH_succ (n : Nat) : (runFrom s keycode (n + 1)).resetH = false := rfl

theorem runFrom_resetH (h : s.resetH = false) (n : Nat) :
    (runFrom s keycode n).resetH = false := by
  cases n with
  | zero => exact h
  | succ n => rfl

theorem runFrom_vgaClk_succ (h : s.resetH = false) (n : Nat) :
    (runFrom s keycode (n + 1)).vgaClk = !(runFrom s keycode n).vgaClk := by
  rw [runFrom_succ, State.step_vgaClk, runFrom_resetH h, if_neg Bool.false_ne_true]

/-- Started high, the pixel clock is high in the even cycles. -/
theorem runFrom_vgaClk (h : s.resetH = false) (hclk : s.vgaClk = true) (n : Nat) :
    (runFrom s keycode n).vgaClk = decide (n % 2 = 0) := by
  induction n with
  | zero => exact hclk
  | succ n ih =>
      rw [runFrom_vgaClk_succ h, ih]
      obtain hn | hn := Nat.mod_two_eq_zero_or_one n <;> simp [Nat.add_mod, hn]

/-- Every second cycle is a step of the VGA controller. -/
theorem runFrom_vga (h : s.resetH = false) (hclk : s.vgaClk = true) (n : Nat) :
    (runFrom s keycode n).vga = (VgaController.Registers.step false)^[n / 2] s.vga := by
  induction n with
  | zero => rfl
  | succ n ih =>
      rw [runFrom_succ, State.step_vga, ← runFrom_succ, runFrom_vgaClk h hclk,
        runFrom_vgaClk h hclk, ih]
      simp only [decide_eq_false_iff_not, decide_eq_true_eq, released, Bool.not_true]
      split
      · rw [show (n + 1) / 2 = n / 2 + 1 by omega, Function.iterate_succ_apply']
      · rw [show (n + 1) / 2 = n / 2 by omega]

/-- Both edge detectors hold the last two values of `VGA_VS`. -/
theorem runFrom_edge (n : Nat) :
    (runFrom s keycode (n + 2)).game.cannon.edge =
        ⟨(runFrom s keycode (n + 1)).vga.vgaVS,
          (runFrom s keycode (n + 1)).vga.vgaVS && !(runFrom s keycode n).vga.vgaVS⟩ ∧
      (runFrom s keycode (n + 2)).game.laser.edge =
        (runFrom s keycode (n + 2)).game.cannon.edge := by
  have hstep : ∀ k, (runFrom s keycode (k + 1)).game.cannon.edge =
      (runFrom s keycode k).game.cannon.edge.step (runFrom s keycode k).vga.vgaVS := fun k => rfl
  have hdelayed : ∀ k, (runFrom s keycode (k + 1)).game.laser.edge.frameClkDelayed =
      (runFrom s keycode (k + 1)).game.cannon.edge.frameClkDelayed := fun k => rfl
  have hlaser : ∀ k, (runFrom s keycode (k + 1)).game.laser.edge =
      (runFrom s keycode k).game.laser.edge.step (runFrom s keycode k).vga.vgaVS := fun k => rfl
  refine ⟨?_, ?_⟩
  · rw [hstep, hstep]
    simp [EdgeDetector.step]
  · rw [hstep, hlaser, EdgeDetector.step, EdgeDetector.step, hdelayed]

end Clockwork

/-- In this state the coordinate `(x, y)` is presented with blanking inhibited. -/
def State.Shows (s : State) (x y : Nat) : Prop :=
  s.vga.vgaBlankN = true ∧ s.vga.drawX.toNat = x ∧ s.vga.drawY.toNat = y

/-- The frame that starts in `s` is a complete picture of the registers `g`. -/
structure ShowsFrame (s : State) (keycode : Nat → BitVec 16) (g : Game.Registers) : Prop where
  /-- Every visible coordinate is presented in one pixel clock of the frame and in no other. -/
  presented : ∀ x y, x < 640 → y < 480 →
    ∃ p, p < 420000 ∧
      ∀ n, n < frameCycles → ((runFrom s keycode n).Shows x y ↔ n / 2 = p)
  /-- Nothing else is presented. -/
  blanked : ∀ n, n < frameCycles → (runFrom s keycode n).vga.vgaBlankN = true →
    (runFrom s keycode n).vga.drawX.toNat < 640 ∧ (runFrom s keycode n).vga.drawY.toNat < 480
  /-- Every colour is the one of the picture. -/
  colours : ∀ n x y, n < frameCycles → (runFrom s keycode n).Shows x y →
    (runFrom s keycode n).rgb = picture g x y

namespace FrameStart

variable {s : State} {keycode : Nat → BitVec 16}

theorem runFrom_vga_eq (h : FrameStart s) (n : Nat) :
    (runFrom s keycode n).vga = VgaController.edges (420000 + n / 2) := by
  rw [runFrom_vga h.resetH h.vgaClk, h.vga, VgaController.edges_add]

theorem vgaVS_eq (h : FrameStart s) {n : Nat} (hn : n < frameCycles) :
    (runFrom s keycode n).vga.vgaVS = !decide (784000 ≤ n ∧ n < 787200) := by
  unfold frameCycles at hn
  have hline : 490 ≤ (420000 + n / 2) / 800 % 525 ∧ (420000 + n / 2) / 800 % 525 < 492 ↔
      784000 ≤ n ∧ n < 787200 := by omega
  rw [h.runFrom_vga_eq, VgaController.edges_vgaVS (by omega), decide_eq_decide.mpr hline]

theorem shows_iff (h : FrameStart s) {n : Nat} (hn : n < frameCycles) (x y : Nat) :
    (runFrom s keycode n).Shows x y ↔ x < 640 ∧ y < 480 ∧ n / 2 = 800 * y + x := by
  unfold frameCycles at hn
  rw [State.Shows, h.runFrom_vga_eq, VgaController.edges_vgaBlankN (by omega),
    VgaController.Registers.drawX, VgaController.Registers.drawY, VgaController.edges_hCounter,
    VgaController.edges_vCounter, decide_eq_true_eq]
  omega

theorem laserEdge_eq (h : FrameStart s) (n : Nat) :
    (runFrom s keycode n).game.laser.edge = (runFrom s keycode n).game.cannon.edge := by
  match n with
  | 0 => exact h.laserEdge.trans h.cannonEdge.symm
  | 1 =>
      change s.game.laser.edge.step s.vga.vgaVS = s.game.cannon.edge.step s.vga.vgaVS
      rw [h.laserEdge, h.cannonEdge]
  | n + 2 => exact (runFrom_edge n).2

/-- A frame has one frame tick. -/
theorem tick_iff (h : FrameStart s) {n : Nat} (hn : n < frameCycles) :
    (runFrom s keycode n).game.cannon.edge.frameClkRisingEdge = true ↔ n = keyCycle := by
  unfold frameCycles at hn
  unfold keyCycle
  match n with
  | 0 =>
      change s.game.cannon.edge.frameClkRisingEdge = true ↔ _
      rw [h.cannonEdge]
      simp
  | 1 =>
      change (s.game.cannon.edge.step s.vga.vgaVS).frameClkRisingEdge = true ↔ _
      rw [h.cannonEdge]
      simp
  | n + 2 =>
      rw [(runFrom_edge n).1, h.vgaVS_eq (show n + 1 < frameCycles by unfold frameCycles; omega),
        h.vgaVS_eq (show n < frameCycles by unfold frameCycles; omega)]
      simp only [Bool.and_eq_true, Bool.not_not, Bool.not_eq_true', decide_eq_false_iff_not,
        decide_eq_true_eq]
      omega

/-- The game moves in the cycle of the tick only. -/
theorem regs_succ (h : FrameStart s) {n : Nat} (hn : n < frameCycles) :
    (runFrom s keycode (n + 1)).game.regs =
      if n = keyCycle then Game.frameStep (keys (keycode n)) (runFrom s keycode n).game.regs
      else (runFrom s keycode n).game.regs := by
  rw [runFrom_succ, State.step_game,
    Game.State.step_regs_eq _ _ (runFrom_resetH h.resetH n) (h.laserEdge_eq n)]
  simp only [h.tick_iff hn, released]

theorem regs_eq (h : FrameStart s) {n : Nat} (hn : n ≤ frameCycles) :
    (runFrom s keycode n).game.regs =
      if n ≤ keyCycle then s.game.regs
      else Game.frameStep (keys (keycode keyCycle)) s.game.regs := by
  induction n with
  | zero => rfl
  | succ n ih =>
      rw [h.regs_succ hn, ih (by omega)]
      obtain hlt | rfl | hgt := Nat.lt_trichotomy n keyCycle
      · rw [if_neg (by omega), if_pos (by omega), if_pos (by omega)]
      · rw [if_pos rfl, if_pos (Nat.le_refl _), if_neg (by omega)]
      · rw [if_neg (by omega), if_neg (by omega), if_neg (by omega)]

/-- The frame shows the game as it was at the start of the frame: the tick
comes after the last visible line. -/
theorem showsFrame (h : FrameStart s) (keycode : Nat → BitVec 16) :
    ShowsFrame s keycode s.game.regs where
  presented x y hx hy := by
    refine ⟨800 * y + x, by omega, ?_⟩
    intro n hn
    rw [h.shows_iff hn]
    exact ⟨fun hshows => hshows.2.2, fun hp => ⟨hx, hy, hp⟩⟩
  blanked n hn hblank := by
    obtain ⟨hx, hy, -⟩ := (h.shows_iff hn _ _).mp ⟨hblank, rfl, rfl⟩
    exact ⟨hx, hy⟩
  colours n x y hn hshows := by
    obtain ⟨hx, hy, hp⟩ := (h.shows_iff hn x y).mp hshows
    obtain ⟨-, rfl, rfl⟩ := hshows
    rw [rgb_eq_picture, h.regs_eq (Nat.le_of_lt hn), if_pos (by unfold keyCycle; omega)]

/-- The frame ends where the next one starts. -/
theorem next (h : FrameStart s) (keycode : Nat → BitVec 16) :
    FrameStart (runFrom s keycode frameCycles) where
  resetH := runFrom_resetH h.resetH _
  vgaClk := by
    rw [runFrom_vgaClk h.resetH h.vgaClk]
    rfl
  vga := by
    rw [h.runFrom_vga_eq]
    exact VgaController.edges_frame (q := 2) (by decide)
  cannonEdge := by
    rw [show frameCycles = 839998 + 2 from rfl, (runFrom_edge 839998).1,
      h.vgaVS_eq (show 839998 + 1 < frameCycles by decide),
      h.vgaVS_eq (show 839998 < frameCycles by decide)]
    rfl
  laserEdge := by
    rw [h.laserEdge_eq, show frameCycles = 839998 + 2 from rfl, (runFrom_edge 839998).1,
      h.vgaVS_eq (show 839998 + 1 < frameCycles by decide),
      h.vgaVS_eq (show 839998 < frameCycles by decide)]
    rfl

end FrameStart

/-- At frame level the display is a machine that makes one `Game.frameStep` a frame. -/
theorem frameContract :
    BlockContract State.step (fun i => i.key0 = true) frameCycles FrameStart
      (fun s => s.game.regs) (fun input => keys (input keyCycle).keycode) Game.frameStep := by
  have hreleased : ∀ input : Nat → Input, (∀ n, (input n).key0 = true) →
      input = released fun n => (input n).keycode := by
    intro input hinput
    funext n
    rw [released, ← hinput n]
  refine ⟨?_, ?_⟩
  · intro s input hs hinput
    rw [hreleased input hinput]
    exact hs.next _
  · intro s input hs hinput
    rw [hreleased input hinput]
    exact hs.regs_eq (Nat.le_refl _)

/-- The game `k` frames after a frame start. -/
def sixtyHertz (keycode : Nat → BitVec 16) (g : Game.Registers) (k : Nat) : Game.Registers :=
  stateAt Game.frameStep (fun j => keys (keycode (frameCycles * j + keyCycle))) g k

/-- From a frame start on, every frame shows the game at 60 Hz. -/
theorem FrameStart.run {s : State} (h : FrameStart s) (keycode : Nat → BitVec 16) (k : Nat) :
    FrameStart (runFrom s keycode (frameCycles * k)) ∧
      (runFrom s keycode (frameCycles * k)).game.regs = sixtyHertz keycode s.game.regs k :=
  frameContract.run h (fun n => show (released keycode n).key0 = true from rfl) k

end FinalProject

end SpaceInvaders
