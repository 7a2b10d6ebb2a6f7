/-!
# The colour mapper

`Color_Mapper.sv`, as far as it reaches the colour outputs: a combinational
priority choice between the cannon, the laser and the background. The sprite
ROM instances of the source drive only signals that nothing reads.
-/

namespace SpaceInvaders

/-- The three 8-bit colour outputs. -/
structure Rgb where
  vgaR : BitVec 8
  vgaG : BitVec 8
  vgaB : BitVec 8
deriving Repr, DecidableEq

namespace Rgb

def brightGreen : Rgb := ⟨0x55#8, 0xff#8, 0x55#8⟩
def white : Rgb := ⟨0xff#8, 0xff#8, 0xff#8⟩
def black : Rgb := ⟨0x00#8, 0x00#8, 0x00#8⟩

end Rgb

def colorMapper (isCannon isLaser : Bool) : Rgb :=
  if isCannon = true then .brightGreen
  else if isLaser = true then .white
  else .black

end SpaceInvaders
