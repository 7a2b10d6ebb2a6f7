import SpaceInvaders.Hardware.EdgeDetector
import SpaceInvaders.Hardware.HitTest

/-!
# The cannon

`cannon.sv`. The combinational block is `Registers.next`: without a rising edge
of the frame clock it keeps all four registers, with one it sets the motion
from the keys and moves the cannon by the motion that was stored *before*. The
edge tests therefore look at a position that is about to change once more.
-/

namespace SpaceInvaders.Cannon

def cannonXCenter : BitVec 10 := 320#10
def cannonYResetPos : BitVec 10 := 470#10
def cannonXMin : BitVec 10 := 0#10
def cannonXMax : BitVec 10 := 639#10
def cannonXStep : BitVec 10 := 2#10
def cannonSize : BitVec 10 := 4#10

/-- The position and motion registers. -/
structure Registers where
  cannonXPos : BitVec 10
  cannonYPos : BitVec 10
  cannonXMotion : BitVec 10
  cannonYMotion : BitVec 10
deriving Repr, DecidableEq

/-- The key inputs of one `Clk` cycle. -/
structure Keys where
  left : BitVec 8
  right : BitVec 8
deriving Repr, DecidableEq

namespace Registers

def reset : Registers where
  cannonXPos := cannonXCenter
  cannonYPos := cannonYResetPos
  cannonXMotion := 0#10
  cannonYMotion := 0#10

/-- The motion registers chosen by the keys at a frame tick. -/
def keyMotion (keys : Keys) (s : Registers) : Registers :=
  if keys.left ≠ 0#8 then
    { s with
      cannonYMotion := 0#10
      cannonXMotion :=
        if s.cannonXPos ≤ cannonXMin + cannonSize then 0#10 else ~~~cannonXStep + 1#10 }
  else if keys.right ≠ 0#8 then
    { s with
      cannonYMotion := 0#10
      cannonXMotion :=
        if s.cannonXPos + cannonSize ≥ cannonXMax then 0#10 else cannonXStep }
  else
    { s with
      cannonXMotion := 0#10
      cannonYMotion := s.cannonYMotion }

/-- The combinational block: the values of the `_in` signals. -/
def next (frameClkRisingEdge : Bool) (keys : Keys) (s : Registers) : Registers :=
  if frameClkRisingEdge then
    { s.keyMotion keys with
      cannonXPos := s.cannonXPos + s.cannonXMotion
      cannonYPos := s.cannonYPos + s.cannonYMotion }
  else s

@[simp] theorem next_false (keys : Keys) (s : Registers) : s.next false keys = s := rfl

@[simp] theorem next_true_cannonXPos (keys : Keys) (s : Registers) :
    (s.next true keys).cannonXPos = s.cannonXPos + s.cannonXMotion := rfl

@[simp] theorem next_true_cannonYPos (keys : Keys) (s : Registers) :
    (s.next true keys).cannonYPos = s.cannonYPos + s.cannonYMotion := rfl

@[simp] theorem next_true_cannonXMotion (keys : Keys) (s : Registers) :
    (s.next true keys).cannonXMotion = (s.keyMotion keys).cannonXMotion := rfl

@[simp] theorem next_true_cannonYMotion (keys : Keys) (s : Registers) :
    (s.next true keys).cannonYMotion = (s.keyMotion keys).cannonYMotion := rfl

/-- Whether the pixel `(drawX, drawY)` belongs to the cannon. -/
def isCannon (drawX drawY : BitVec 10) (s : Registers) : Bool :=
  hitTest drawX drawY s.cannonXPos s.cannonYPos cannonSize

theorem isCannon_eq_true_iff (drawX drawY : BitVec 10) (s : Registers) :
    s.isCannon drawX drawY = true ↔
      ((drawX.toNat : Int) - s.cannonXPos.toNat) ^ 2 +
        ((drawY.toNat : Int) - s.cannonYPos.toNat) ^ 2 ≤ 16 := by
  rw [isCannon, hitTest_iff, OnDisc, show ((cannonSize.toNat : Int)) ^ 2 = 16 by decide]

end Registers

/-- All flip-flops of the module. -/
structure State where
  edge : EdgeDetector
  regs : Registers
deriving Repr, DecidableEq

structure Input where
  reset : Bool
  frameClk : Bool
  keys : Keys
deriving Repr, DecidableEq

namespace State

/-- The combinational output read by the laser. -/
def cannonXPosIn (keys : Keys) (s : State) : BitVec 10 :=
  (s.regs.next s.edge.frameClkRisingEdge keys).cannonXPos

/-- One rising edge of `Clk`. Reset does not reach the edge detector. -/
def step (i : Input) (s : State) : State where
  edge := s.edge.step i.frameClk
  regs := if i.reset then .reset else s.regs.next s.edge.frameClkRisingEdge i.keys

@[simp] theorem step_edge (i : Input) (s : State) : (s.step i).edge = s.edge.step i.frameClk := rfl

theorem step_regs (i : Input) (s : State) (h : i.reset = false) :
    (s.step i).regs = s.regs.next s.edge.frameClkRisingEdge i.keys := by
  simp [step, h]

/-- Outside reset a `Clk` edge is one frame step or no change. -/
theorem step_regs_eq (i : Input) (s : State) (h : i.reset = false) :
    (s.step i).regs =
      if s.edge.frameClkRisingEdge then s.regs.next true i.keys else s.regs := by
  rw [step_regs i s h]
  cases s.edge.frameClkRisingEdge <;> rfl

end State

end SpaceInvaders.Cannon
