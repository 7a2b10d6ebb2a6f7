import Mathlib.Data.BitVec

/-!
# The bridge to the USB chip: `hpi_io_intf.sv`

The Nios II system drives the bridge with six PIO registers, one for each
`otg_hpi_*` pointer of the software. They are generated modules of one shape: a
register that is 0 at power-on and takes the low bits of `writedata` when the
processor writes to it.

The bridge copies them to the pins of the chip, one `Clk` cycle late. Only the
tristate enable of the data bus skips the register: it is the software's `w`
itself.
-/

namespace SpaceInvaders

namespace Pio

/-- The PIO slaves of the Nios II system that face the bridge. -/
inductive Port where
  | address
  | data
  | r
  | w
  | cs
  | reset
deriving Repr, DecidableEq

/-- A write of the processor to a PIO slave. -/
structure Store where
  port : Port
  writedata : BitVec 32
deriving Repr, DecidableEq

/-- The register `data_out` of each slave, under the name of its slave. The
strobes, the chip select and the reset of the chip are active low. -/
structure Registers where
  address : BitVec 2
  data : BitVec 16
  r : Bool
  w : Bool
  cs : Bool
  reset : Bool
deriving Repr, DecidableEq

namespace Registers

def powerOn : Registers := ⟨0#2, 0#16, false, false, false, false⟩

/-- `data_out <= writedata` in the slave that is written. -/
def write (st : Store) (p : Registers) : Registers :=
  match st.port with
  | .address => { p with address := st.writedata.setWidth 2 }
  | .data => { p with data := st.writedata.setWidth 16 }
  | .r => { p with r := st.writedata.getLsbD 0 }
  | .w => { p with w := st.writedata.getLsbD 0 }
  | .cs => { p with cs := st.writedata.getLsbD 0 }
  | .reset => { p with reset := st.writedata.getLsbD 0 }

end Registers

end Pio

namespace HpiIoIntf

/-- The registers of the bridge. -/
structure Registers where
  fromSwDataOutBuffer : BitVec 16
  otgAddr : BitVec 2
  otgRdN : Bool
  otgWrN : Bool
  otgCsN : Bool
  otgRstN : Bool
  fromSwDataIn : BitVec 16
deriving Repr, DecidableEq

namespace Registers

def reset : Registers := ⟨0#16, 0#2, false, false, false, false, 0#16⟩

/-- The registers after a rising edge of `Clk`, which writes all of them;
`otgData` is the word on the bus. -/
def clocked (reset : Bool) (sw : Pio.Registers) (otgData : BitVec 16) : Registers :=
  if reset then .reset
  else
    { fromSwDataOutBuffer := sw.data
      otgAddr := sw.address
      otgRdN := sw.r
      otgWrN := sw.w
      otgCsN := sw.cs
      otgRstN := sw.reset
      fromSwDataIn := otgData }

/-- What the bridge drives on `OTG_DATA`, and `none` for high impedance. -/
def otgDataDriver (s : Registers) (fromSwW : Bool) : Option (BitVec 16) :=
  if fromSwW then none else some s.fromSwDataOutBuffer

end Registers

/-- The pins on which a transaction is visible, besides the data bus. -/
structure Pins where
  otgCsN : Bool
  otgRdN : Bool
  otgWrN : Bool
  otgAddr : BitVec 2
deriving Repr, DecidableEq

def Registers.pins (s : Registers) : Pins := ⟨s.otgCsN, s.otgRdN, s.otgWrN, s.otgAddr⟩

/-- The pins to which the bridge copies the PIO registers. -/
def pinsOf (p : Pio.Registers) : Pins := ⟨p.cs, p.r, p.w, p.address⟩

/-- A read or a write strobe is low. -/
def Pins.strobe (p : Pins) : Bool := !p.otgRdN || !p.otgWrN

end HpiIoIntf

end SpaceInvaders
