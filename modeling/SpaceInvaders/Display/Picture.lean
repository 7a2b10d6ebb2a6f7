import SpaceInvaders.Display.Refinement

/-!
# The picture on the screen

From the second frame on, the display shows every visible coordinate for
exactly one pixel clock of the frame, and the colours of a frame all come from
one snapshot of the game registers. The game moves two `Clk` cycles after
`VGA_VS` has risen at the start of line 492, and the visible part of a frame
ends with line 479: no tick falls between two visible pixels of a frame.
-/

namespace SpaceInvaders.FinalProject

open Machine

/-- The colour of pixel `(x, y)` for given game registers, over exact integers. -/
def picture (g : Game.Registers) (x y : Nat) : Rgb :=
  if ((x : Int) - g.cannon.cannonXPos.toNat) ^ 2 + ((y : Int) - g.cannon.cannonYPos.toNat) ^ 2 ≤ 16
  then ⟨0x55#8, 0xff#8, 0x55#8⟩
  else if g.laser.laserOn = true ∧
      ((x : Int) - g.laser.laserXPos.toNat) ^ 2 + ((y : Int) - g.laser.laserYPos.toNat) ^ 2 ≤ 4
  then ⟨0xff#8, 0xff#8, 0xff#8⟩
  else ⟨0x00#8, 0x00#8, 0x00#8⟩

/-- In cycle `c` the coordinate `(x, y)` is presented with blanking inhibited. -/
def Presents (keycode : Nat → BitVec 16) (c x y : Nat) : Prop :=
  (run keycode c).vga.vgaBlankN = true ∧ (run keycode c).vga.drawX.toNat = x ∧
    (run keycode c).vga.drawY.toNat = y

/-- Cycle `c` belongs to the pixel clocks of frame `k`. -/
def InFrame (keycode : Nat → BitVec 16) (k c : Nat) : Prop :=
  420000 * k ≤ pixelClock keycode c ∧ pixelClock keycode c < 420000 * (k + 1)

/-- The first `Clk` cycle of frame `k`. -/
def firstCycle (k : Nat) : Nat := 840000 * k - 1

/-- Frame `k` shows a complete picture of one state of the game. -/
structure ShowsPicture (keycode : Nat → BitVec 16) (k : Nat) : Prop where
  /-- Every visible coordinate has exactly one pixel clock of the frame. -/
  presented : ∀ x y, x < 640 → y < 480 →
    ∃ n, 420000 * k ≤ n ∧ n < 420000 * (k + 1) ∧
      ∀ c, InFrame keycode k c → (Presents keycode c x y ↔ pixelClock keycode c = n)
  /-- In all other pixel clocks the display is blanked. -/
  blanked : ∀ c, InFrame keycode k c → (run keycode c).vga.vgaBlankN = true →
    (run keycode c).vga.drawX.toNat < 640 ∧ (run keycode c).vga.drawY.toNat < 480
  /-- All colours of the frame come from one snapshot of the game registers,
  their content in the first cycle of the frame. -/
  snapshot : ∀ c x y, InFrame keycode k c → Presents keycode c x y →
    (run keycode c).game.regs = (run keycode (firstCycle k)).game.regs ∧
      (run keycode c).rgb = picture (run keycode (firstCycle k)).game.regs x y

variable {keycode : Nat → BitVec 16}

/-- The colour outputs are the picture of the game registers of the same cycle. -/
theorem rgb_eq_picture (s : State) :
    s.rgb = picture s.game.regs s.vga.drawX.toNat s.vga.drawY.toNat := by
  simp only [State.rgb, colorMapper, picture, Game.State.regs,
    Cannon.Registers.isCannon_eq_true_iff, Laser.Registers.isLaser_eq_true_iff]
  rfl

/-- The hit tests of both sprites are exact for every pixel and every position,
so no sprite has a ghost on the other side of the screen. -/
theorem hitTests_exact (drawX drawY : BitVec 10) (c : Cannon.Registers) (l : Laser.Registers) :
    (c.isCannon drawX drawY = true ↔
      ((drawX.toNat : Int) - c.cannonXPos.toNat) ^ 2 +
        ((drawY.toNat : Int) - c.cannonYPos.toNat) ^ 2 ≤ 16) ∧
    (l.isLaser drawX drawY = true ↔ l.laserOn = true ∧
      ((drawX.toNat : Int) - l.laserXPos.toNat) ^ 2 +
        ((drawY.toNat : Int) - l.laserYPos.toNat) ^ 2 ≤ 4) ∧
    NoWrap drawX drawY c.cannonXPos c.cannonYPos Cannon.cannonSize ∧
    NoWrap drawX drawY l.laserXPos l.laserYPos Laser.laserSize :=
  ⟨c.isCannon_eq_true_iff drawX drawY, l.isLaser_eq_true_iff drawX drawY,
    noWrap _ _ _ _ _, noWrap _ _ _ _ _⟩

/-- The coordinates and the blanking of a cycle after the first pixel clock,
in terms of the position in the frame. -/
theorem presents_iff {c : Nat} (hc : 1 ≤ pixelClock keycode c) (x y : Nat) :
    Presents keycode c x y ↔
      (pixelClock keycode c % 800 < 640 ∧ pixelClock keycode c / 800 % 525 < 480) ∧
        pixelClock keycode c % 800 = x ∧ pixelClock keycode c / 800 % 525 = y := by
  rw [Presents, vga_eq_edges, VgaController.edges_vgaBlankN hc, VgaController.Registers.drawX,
    VgaController.Registers.drawY, VgaController.edges_hCounter, VgaController.edges_vCounter,
    decide_eq_true_eq]

/-- From the second frame on, a frame is the cycles from its first cycle to
the first cycle of the next. -/
theorem inFrame_iff {k : Nat} (hk : 1 ≤ k) (c : Nat) :
    InFrame keycode k c ↔ firstCycle k ≤ c ∧ c < firstCycle (k + 1) := by
  simp only [InFrame, firstCycle, pixelClock_eq]
  omega

/-- Between the start of a frame and the end of its visible part the game
registers do not change. -/
theorem game_regs_visible {k c : Nat} (hk : 1 ≤ k) (hc : InFrame keycode k c)
    (hvisible : pixelClock keycode c / 800 % 525 < 480) :
    (run keycode c).game.regs = (run keycode (firstCycle k)).game.regs := by
  obtain ⟨hfirst, hlast⟩ := (inFrame_iff hk c).mp hc
  rw [pixelClock_eq] at hvisible
  rw [game_eq_run, game_eq_run]
  apply Game.regs_hold hfirst
  intro t hstart ht
  unfold firstCycle at hstart hlast
  obtain ⟨m, rfl⟩ : ∃ m, t = m + 2 := ⟨t - 2, by omega⟩
  apply Bool.eq_false_of_not_eq_true
  intro htick
  -- Such a tick would belong to line 492 of this frame or of the one before.
  obtain ⟨heven, hzero | hline⟩ := (vgaVS_risesAt_iff m).mp ((tick_iff m).mp htick)
  · omega
  · omega

/-- Every frame but the first shows a complete, untorn picture, for every
sequence of keycodes. -/
theorem frame_showsPicture (keycode : Nat → BitVec 16) (k : Nat) (hk : 1 ≤ k) :
    ShowsPicture keycode k where
  presented x y hx hy := by
    refine ⟨420000 * k + (800 * y + x), by omega, by omega, ?_⟩
    rintro c ⟨hlo, hhi⟩
    rw [presents_iff (by omega)]
    constructor
    · rintro ⟨-, hX, hY⟩
      omega
    · intro hn
      rw [hn]
      omega
  blanked := by
    rintro c ⟨hlo, hhi⟩ hblank
    obtain ⟨hvisible, hx, hy⟩ := (presents_iff (by omega) _ _).mp ⟨hblank, rfl, rfl⟩
    rwa [← hx, ← hy]
  snapshot := by
    intro c x y hc hpresents
    have hvisible := ((presents_iff (by obtain ⟨hlo, -⟩ := hc; omega) x y).mp hpresents).1.2
    have hregs := game_regs_visible hk hc hvisible
    refine ⟨hregs, ?_⟩
    obtain ⟨-, hx, hy⟩ := hpresents
    rw [rgb_eq_picture, hregs, hx, hy]

/-- The first complete frame, with no key pressed. -/
theorem frame_one_showsPicture : ShowsPicture (fun _ => 0#16) 1 :=
  frame_showsPicture (fun _ => 0#16) 1 (Nat.le_refl 1)

end SpaceInvaders.FinalProject
