import SpaceInvaders.Hardware.EdgeDetector
import SpaceInvaders.Hardware.HitTest

/-!
# The laser

`laser.sv`. Both arms of the source's `case (keycode1)` consist of two
consecutive `if`s, the second with an `else`, so a later assignment overrides an
earlier one; `Registers.next` keeps that order. Vertically the shot is moved by
its motion register. Horizontally `laser_X_Motion` is no motion but a copy of
the cannon's column, and `laser_X_Pos` is loaded from the copy that was stored
before the tick.

The flags `key_press` and `key_press_in` of the source are written but never
read, and are left out.
-/

namespace SpaceInvaders.Laser

def laserXCenter : BitVec 10 := 320#10
def laserYResetPos : BitVec 10 := 470#10
def laserYMin : BitVec 10 := 0#10
def laserYStep : BitVec 10 := 7#10
def laserSize : BitVec 10 := 2#10

structure Registers where
  laserXPos : BitVec 10
  laserYPos : BitVec 10
  laserXMotion : BitVec 10
  laserYMotion : BitVec 10
  laserOn : Bool
deriving Repr, DecidableEq

namespace Registers

def reset : Registers where
  laserXPos := laserXCenter
  laserYPos := laserYResetPos
  laserXMotion := 0#10
  laserYMotion := 0#10
  laserOn := false

/-- The assignments made while a shot has reached the top of the screen. -/
def leaveTop (cannonXPosIn : BitVec 10) (old new : Registers) : Registers :=
  { new with
    laserXMotion := cannonXPosIn
    laserYMotion := ~~~laserYStep + 1#10
    laserYPos := old.laserYPos + old.laserYMotion
    laserOn := false }

/-- The assignments made while a shot is in flight. -/
def fly (old new : Registers) : Registers :=
  { new with
    laserXMotion := old.laserXMotion
    laserYMotion := ~~~laserYStep + 1#10
    laserYPos := old.laserYPos + old.laserYMotion
    laserOn := true }

/-- The assignments that start a shot, made when space is held. -/
def fire (cannonXPosIn : BitVec 10) (new : Registers) : Registers :=
  { new with
    laserXMotion := cannonXPosIn
    laserYPos := laserYResetPos
    laserYMotion := ~~~laserYStep + 1#10
    laserOn := true }

/-- The assignments made without a shot when space is not held. -/
def rest (cannonXPosIn : BitVec 10) (new : Registers) : Registers :=
  { new with
    laserXMotion := cannonXPosIn
    laserYMotion := 0#10
    laserYPos := 470#10
    laserOn := false }

/-- One arm of the `case`: two `if`s in sequence, the second with an `else`. -/
def caseArm (cannonXPosIn : BitVec 10) (otherwise : Registers → Registers)
    (s : Registers) : Registers :=
  let new := s
  let new :=
    if s.laserOn && s.laserYPos ≤ laserYMin + laserSize then leaveTop cannonXPosIn s new else new
  if s.laserOn && s.laserYPos > laserYMin + laserSize then fly s new else otherwise new

/-- The combinational block: the values of the `_in` signals. -/
def next (frameClkRisingEdge : Bool) (keycode1 : BitVec 8) (cannonXPosIn : BitVec 10)
    (s : Registers) : Registers :=
  if frameClkRisingEdge then
    let new :=
      if keycode1 = 1#8 then caseArm cannonXPosIn (fire cannonXPosIn) s
      else caseArm cannonXPosIn (rest cannonXPosIn) s
    { new with laserXPos := s.laserXMotion }
  else s

@[simp] theorem next_false (keycode1 : BitVec 8) (cannonXPosIn : BitVec 10) (s : Registers) :
    s.next false keycode1 cannonXPosIn = s := rfl

/-- A shot that has not yet reached the top. -/
def InFlight (s : Registers) : Prop := s.laserOn = true ∧ 2 < s.laserYPos.toNat

instance (s : Registers) : Decidable s.InFlight := inferInstanceAs (Decidable (_ ∧ _))

private theorem above_top_iff (s : Registers) :
    (s.laserOn && s.laserYPos > laserYMin + laserSize) = true ↔ s.InFlight := by
  simp [InFlight, laserYMin, laserSize, BitVec.lt_def]

/-- While a shot is in flight neither the key nor the cannon has any effect. -/
theorem next_of_inFlight {s : Registers} (h : s.InFlight) (keycode1 : BitVec 8)
    (column : BitVec 10) :
    s.next true keycode1 column =
      { laserXPos := s.laserXMotion
        laserYPos := s.laserYPos + s.laserYMotion
        laserXMotion := s.laserXMotion
        laserYMotion := 1017#10
        laserOn := true } := by
  simp only [next, caseArm, if_pos ((above_top_iff s).mpr h), ↓reduceIte]
  split <;> split <;> rfl

/-- Without a shot in flight, space starts a shot at the bottom. The first
`if` of the source, which turns a finished shot off, is overridden. -/
theorem next_of_space {s : Registers} (h : ¬s.InFlight) (column : BitVec 10) :
    s.next true 1#8 column =
      { laserXPos := s.laserXMotion
        laserYPos := laserYResetPos
        laserXMotion := column
        laserYMotion := 1017#10
        laserOn := true } := by
  simp only [next, caseArm, if_neg (mt (above_top_iff s).mp h), ↓reduceIte]
  split <;> rfl

/-- Without a shot in flight and without space the laser rests. -/
theorem next_of_noSpace {s : Registers} (h : ¬s.InFlight) {keycode1 : BitVec 8}
    (hkey : keycode1 ≠ 1#8) (column : BitVec 10) :
    s.next true keycode1 column =
      { laserXPos := s.laserXMotion
        laserYPos := laserYResetPos
        laserXMotion := column
        laserYMotion := 0#10
        laserOn := false } := by
  simp only [next, caseArm, if_neg (mt (above_top_iff s).mp h), if_neg hkey, ↓reduceIte]
  split <;> rfl

/-- Whether the pixel `(drawX, drawY)` belongs to the laser. -/
def isLaser (drawX drawY : BitVec 10) (s : Registers) : Bool :=
  hitTest drawX drawY s.laserXPos s.laserYPos laserSize && s.laserOn

theorem isLaser_eq_true_iff (drawX drawY : BitVec 10) (s : Registers) :
    s.isLaser drawX drawY = true ↔ s.laserOn = true ∧
      ((drawX.toNat : Int) - s.laserXPos.toNat) ^ 2 +
        ((drawY.toNat : Int) - s.laserYPos.toNat) ^ 2 ≤ 4 := by
  rw [isLaser, Bool.and_eq_true, hitTest_iff, OnDisc,
    show ((laserSize.toNat : Int)) ^ 2 = 4 by decide, and_comm]

end Registers

/-- All flip-flops of the module. -/
structure State where
  edge : EdgeDetector
  regs : Registers
deriving Repr, DecidableEq

structure Input where
  reset : Bool
  frameClk : Bool
  keycode1 : BitVec 8
  cannonXPosIn : BitVec 10
deriving Repr, DecidableEq

namespace State

/-- One rising edge of `Clk`. Reset does not reach the edge detector. -/
def step (i : Input) (s : State) : State where
  edge := s.edge.step i.frameClk
  regs :=
    if i.reset then .reset
    else s.regs.next s.edge.frameClkRisingEdge i.keycode1 i.cannonXPosIn

@[simp] theorem step_edge (i : Input) (s : State) : (s.step i).edge = s.edge.step i.frameClk := rfl

theorem step_regs (i : Input) (s : State) (h : i.reset = false) :
    (s.step i).regs = s.regs.next s.edge.frameClkRisingEdge i.keycode1 i.cannonXPosIn := by
  simp [step, h]

end State

end SpaceInvaders.Laser
