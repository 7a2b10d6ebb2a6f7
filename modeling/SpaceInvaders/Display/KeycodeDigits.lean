import SpaceInvaders.Hardware.FinalProject

/-!
# The keycode on the hexadecimal displays

The displays `HEX3` to `HEX0` are meant to show the four digits of the keycode.
The slices of `HEX2` to `HEX0` are its three low digits, but `HEX3` is connected
to the five bits `keycode[15:11]`, of which the 4-bit port keeps bits 14 to 11
instead of 15 to 12. Bit 15 is not shown at all, and bit 11 is shown twice.
-/

namespace SpaceInvaders.FinalProject

/-- The four digits read back from `HEX3` to `HEX0`, the most significant first. -/
def readDigits (d : HexDisplays) : Option (BitVec 4 × BitVec 4 × BitVec 4 × BitVec 4) := do
  let n3 ← readDigit d.hex3
  let n2 ← readDigit d.hex2
  let n1 ← readDigit d.hex1
  let n0 ← readDigit d.hex0
  return (n3, n2, n1, n0)

/-- The keycode read back from `HEX3` to `HEX0`: its nibbles, concatenated. -/
def readBack (d : HexDisplays) : Option (BitVec 16) :=
  (readDigits d).map fun (n3, n2, n1, n0) => n3 ++ n2 ++ n1 ++ n0

/-- Two outputs show the same four digits on `HEX3` to `HEX0`. -/
def SameDigits (d d' : HexDisplays) : Prop :=
  d.hex3 = d'.hex3 ∧ d.hex2 = d'.hex2 ∧ d.hex1 = d'.hex1 ∧ d.hex0 = d'.hex0

instance (d d' : HexDisplays) : Decidable (SameDigits d d') :=
  inferInstanceAs (Decidable (_ ∧ _))

/-- The concatenation of four nibbles as a number. -/
theorem nibbles_toNat (n3 n2 n1 n0 : BitVec 4) :
    (n3 ++ n2 ++ n1 ++ n0 : BitVec 16).toNat =
      4096 * n3.toNat + 256 * n2.toNat + 16 * n1.toNat + n0.toNat := by
  have append_toNat {w : Nat} (x : BitVec w) (y : BitVec 4) :
      (x ++ y).toNat = 16 * x.toNat + y.toNat := by
    rw [BitVec.toNat_append, ← Nat.shiftLeft_add_eq_or_of_lt y.isLt, Nat.shiftLeft_eq]
    omega
  rw [append_toNat, append_toNat, append_toNat]
  omega

/-- A 4-bit port receives the digit at the lower end of its slice. -/
theorem port_slice (keycode : BitVec 16) {hi lo : Nat} (h : lo + 3 ≤ hi) :
    (keycode.extractLsb hi lo).setWidth 4 = BitVec.ofNat 4 (keycode.toNat / 2 ^ lo) := by
  have hdvd : 2 ^ 4 ∣ 2 ^ (hi - lo + 1) := Nat.pow_dvd_pow 2 (by omega)
  apply BitVec.eq_of_toNat_eq
  rw [BitVec.toNat_setWidth, BitVec.extractLsb_toNat, Nat.shiftRight_eq_div_pow, BitVec.toNat_ofNat]
  exact Nat.mod_mod_of_dvd _ hdvd

/-- The digits on the displays: bits 14 to 11, then the three low digits. -/
theorem readDigits_hexDisplays (keycode : BitVec 16) :
    readDigits (hexDisplays keycode) =
      some (BitVec.ofNat 4 (keycode.toNat / 2048), BitVec.ofNat 4 (keycode.toNat / 256),
        BitVec.ofNat 4 (keycode.toNat / 16), BitVec.ofNat 4 (keycode.toNat / 1)) := by
  simp only [readDigits, hexDisplays, hexInst, readDigit_hexDriver]
  rw [port_slice _ (by decide), port_slice _ (by decide), port_slice _ (by decide),
    port_slice _ (by decide)]
  rfl

/-- What is read back: bits 14 to 11 in the place of bits 15 to 12. -/
theorem readBack_hexDisplays (keycode : BitVec 16) :
    ∃ shown, readBack (hexDisplays keycode) = some shown ∧
      shown.toNat = 4096 * (keycode.toNat / 2048 % 16) + keycode.toNat % 4096 := by
  rw [readBack, readDigits_hexDisplays]
  refine ⟨_, rfl, ?_⟩
  simp only [nibbles_toNat, BitVec.toNat_ofNat]
  omega

/-- The patterns are the same exactly if the digits are. -/
theorem sameDigits_iff_readDigits (keycode keycode' : BitVec 16) :
    SameDigits (hexDisplays keycode) (hexDisplays keycode') ↔
      readDigits (hexDisplays keycode) = readDigits (hexDisplays keycode') := by
  simp [SameDigits, readDigits, hexDisplays, hexInst, hexDriver_injective.eq_iff]

/-- The keycode can be read back from its digits exactly when its bits 15 to 11
are equal, and two keycodes are told apart exactly by their bits 14 to 0. -/
theorem keycodeDigits (keycode keycode' : BitVec 16) :
    (readBack (hexDisplays keycode) = some keycode ↔
      keycode.toNat < 0x0800 ∨ 0xf800 ≤ keycode.toNat) ∧
    (SameDigits (hexDisplays keycode) (hexDisplays keycode') ↔
      keycode.toNat % 2 ^ 15 = keycode'.toNat % 2 ^ 15) := by
  have hlt := keycode.isLt
  have hlt' := keycode'.isLt
  refine ⟨?_, ?_⟩
  · obtain ⟨shown, hread, hshown⟩ := readBack_hexDisplays keycode
    rw [hread, Option.some.injEq, ← BitVec.toNat_inj, hshown]
    omega
  · rw [sameDigits_iff_readDigits, readDigits_hexDisplays, readDigits_hexDisplays]
    simp only [Option.some.injEq, Prod.mk.injEq, ← BitVec.toNat_inj, BitVec.toNat_ofNat]
    omega

/-- With left and space held the keycode is `2C50`, and the displays show `5C50`,
as they do for `AC50`. -/
theorem keycodeDigits_fails :
    ¬((∀ keycode : BitVec 16, readBack (hexDisplays keycode) = some keycode) ∧
      ∀ keycode keycode' : BitVec 16,
        SameDigits (hexDisplays keycode) (hexDisplays keycode') → keycode = keycode') ∧
    readBack (hexDisplays 0x2c50#16) = some 0x5c50#16 ∧
    SameDigits (hexDisplays 0x2c50#16) (hexDisplays 0xac50#16) := by
  refine ⟨?_, by decide, by decide⟩
  rintro ⟨hread, _⟩
  exact absurd (hread 0x2c50#16) (by decide)

end SpaceInvaders.FinalProject
