import SpaceInvaders.Game.Basic
import SpaceInvaders.Hardware.ColorMapper
import SpaceInvaders.Hardware.HexDriver
import SpaceInvaders.Hardware.VgaController

/-!
# The top level

`final_project.sv`, without the Nios II system and the USB bridge: the reset
synchroniser, the divided pixel clock, the VGA controller, the two game modules
and the colour mapper, with the key decoding between the `keycode` output of the
Nios II system and the game, and the hexadecimal displays.

One step of the model is one rising edge of `Clk`. The pixel clock is itself a
register, so the VGA controller is clocked right after those `Clk` edges that
raise it, and samples `Reset_h` as it is by then. All other registers sample the
values from before the edge; in particular cannon and laser see the `VGA_VS` and
the `Reset_h` of the cycle that ends.
-/

namespace SpaceInvaders.FinalProject

open Machine

/-- A one-bit condition assigned to one of the 8-bit key signals. -/
def keySignal (pressed : Bool) : BitVec 8 := (BitVec.ofBool pressed).setWidth 8

/-- Both key slots of the 16-bit keycode are compared with a scan code. -/
def keyPressed (scanCode : BitVec 8) (keycode : BitVec 16) : Bool :=
  keycode.extractLsb' 8 8 == scanCode || keycode.extractLsb' 0 8 == scanCode

def space (keycode : BitVec 16) : BitVec 8 := keySignal (keyPressed 0x2c#8 keycode)
def left (keycode : BitVec 16) : BitVec 8 := keySignal (keyPressed 0x50#8 keycode)
def right (keycode : BitVec 16) : BitVec 8 := keySignal (keyPressed 0x4f#8 keycode)

/-- The key signals decoded from a keycode. -/
def keys (keycode : BitVec 16) : Game.Keys := ⟨left keycode, right keycode, space keycode⟩

/-- The outputs to the eight hexadecimal displays. -/
structure HexDisplays where
  hex0 : BitVec 7
  hex1 : BitVec 7
  hex2 : BitVec 7
  hex3 : BitVec 7
  hex4 : BitVec 7
  hex5 : BitVec 7
  hex6 : BitVec 7
  hex7 : BitVec 7
deriving Repr, DecidableEq

/-- A `HexDriver` instance: a wider connection to its 4-bit port keeps the low bits. -/
def hexInst {w : Nat} (in0 : BitVec w) : BitVec 7 := hexDriver (in0.setWidth 4)

/-- The instances `hex_inst_0` to `hex_inst_7`. -/
def hexDisplays (keycode : BitVec 16) : HexDisplays where
  hex0 := hexInst (keycode.extractLsb 3 0)
  hex1 := hexInst (keycode.extractLsb 7 4)
  hex2 := hexInst (keycode.extractLsb 11 8)
  -- Five bits on a 4-bit port.
  hex3 := hexInst (keycode.extractLsb 15 11)
  hex4 := hexInst ((space keycode).extractLsb 3 0)
  hex5 := hexInst ((space keycode).extractLsb 7 4)
  hex6 := hexInst ((right keycode).extractLsb 3 0)
  hex7 := hexInst ((left keycode).extractLsb 3 0)

/-- Push button 0 (active low) and the keycode output of the Nios II system. -/
structure Input where
  key0 : Bool
  keycode : BitVec 16
deriving Repr, DecidableEq

structure State where
  resetH : Bool
  vgaClk : Bool
  vga : VgaController.Registers
  game : Game.State
deriving Repr, DecidableEq

namespace State

/-- One rising edge of `Clk`. -/
def step (i : Input) (s : State) : State :=
  let resetH := !i.key0
  let vgaClk := if s.resetH then false else !s.vgaClk
  { resetH := resetH
    vgaClk := vgaClk
    vga := if s.vgaClk = false ∧ vgaClk = true then s.vga.step resetH else s.vga
    game := s.game.step
      { reset := s.resetH
        frameClk := s.vga.vgaVS
        keys := keys i.keycode } }

@[simp] theorem step_resetH (i : Input) (s : State) : (s.step i).resetH = !i.key0 := rfl

theorem step_vgaClk (i : Input) (s : State) :
    (s.step i).vgaClk = if s.resetH then false else !s.vgaClk := rfl

theorem step_vga (i : Input) (s : State) :
    (s.step i).vga =
      if s.vgaClk = false ∧ (s.step i).vgaClk = true then s.vga.step (!i.key0) else s.vga := rfl

theorem step_game (i : Input) (s : State) :
    (s.step i).game = s.game.step ⟨s.resetH, s.vga.vgaVS, keys i.keycode⟩ := rfl

/-- Every register at its reset value, the edge detectors and `VGA_CLK` low. -/
def reset : State where
  resetH := false
  vgaClk := false
  vga := .reset
  game := .start .low

/-- The signals that leave the chip towards the display, besides the clock. -/
def rgb (s : State) : Rgb :=
  colorMapper (s.game.cannon.regs.isCannon s.vga.drawX s.vga.drawY)
    (s.game.laser.regs.isLaser s.vga.drawX s.vga.drawY)

end State

/-- Inputs with the reset button released. -/
def released (keycode : Nat → BitVec 16) (n : Nat) : Input := ⟨true, keycode n⟩

/-- The state in `Clk` cycle `n` of the run that starts with every register at
its reset value and keeps `Reset_h` low. -/
def run (keycode : Nat → BitVec 16) (n : Nat) : State :=
  stateAt State.step (released keycode) .reset n

theorem run_succ (keycode : Nat → BitVec 16) (n : Nat) :
    run keycode (n + 1) = (run keycode n).step (released keycode n) := rfl

end SpaceInvaders.FinalProject
