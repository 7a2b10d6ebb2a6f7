import Mathlib.Data.List.FinRange

/-!
# The seven-segment driver

`HexDriver.sv`: the pattern of active-low segments for a hexadecimal digit. The
sixteen items of the source's `unique case` are all values of the 4-bit input,
so its `default` is never taken. The table is injective, and `readDigit` is its
inverse.
-/

namespace SpaceInvaders

/-- The patterns of the digits `0` to `F`, in the order of the source. -/
def hexPatterns : Vector (BitVec 7) 16 :=
  #v[0b1000000#7, 0b1111001#7, 0b0100100#7, 0b0110000#7,
    0b0011001#7, 0b0010010#7, 0b0000010#7, 0b1111000#7,
    0b0000000#7, 0b0010000#7, 0b0001000#7, 0b0000011#7,
    0b1000110#7, 0b0100001#7, 0b0000110#7, 0b0001110#7]

def hexDriver (in0 : BitVec 4) : BitVec 7 := hexPatterns[in0.toFin]

/-- The digit whose pattern is shown, if it is the pattern of a digit. -/
def readDigit (out0 : BitVec 7) : Option (BitVec 4) :=
  ((List.finRange 16).map BitVec.ofFin).find? fun in0 => hexDriver in0 == out0

@[simp] theorem readDigit_hexDriver : ∀ in0, readDigit (hexDriver in0) = some in0 := by decide

theorem hexDriver_injective : Function.Injective hexDriver := by
  intro a b h
  have hread := readDigit_hexDriver a
  rw [h, readDigit_hexDriver] at hread
  exact (Option.some.inj hread).symm

end SpaceInvaders
