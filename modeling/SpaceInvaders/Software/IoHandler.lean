import SpaceInvaders.Hardware.HpiIoIntf

/-!
# The software side of the bridge: `io_handler.c`

All pointers of `io_handler.h` are volatile, so a call is the sequence of its
accesses to the PIO slaves, in program order. The only load is that of
`otg_hpi_data` in `IO_read`; it fills the local `temp`, which is returned.
-/

namespace SpaceInvaders.Software

/-- A volatile access to a PIO slave. -/
inductive IoAction where
  /-- A store to a PIO slave. -/
  | store (st : Pio.Store)
  /-- `temp = *otg_hpi_data`. -/
  | load
deriving Repr, DecidableEq

/-- The write to a PIO register, for the accesses that make one. -/
def IoAction.store? : IoAction → Option Pio.Store
  | .store st => some st
  | .load => none

def ioInit : List IoAction :=
  [ .store ⟨.reset, 1⟩,
    .store ⟨.cs, 1⟩,
    .store ⟨.r, 1⟩,
    .store ⟨.w, 1⟩,
    .store ⟨.address, 0⟩,
    .store ⟨.data, 0⟩,
    -- reset OTG chip
    .store ⟨.cs, 0⟩,
    .store ⟨.reset, 0⟩,
    .store ⟨.reset, 1⟩,
    .store ⟨.cs, 1⟩ ]

def ioWrite (address : BitVec 8) (data : BitVec 16) : List IoAction :=
  [ .store ⟨.cs, 0⟩,
    .store ⟨.r, 1⟩,
    .store ⟨.address, address.setWidth 32⟩,
    .store ⟨.data, data.setWidth 32⟩,
    .store ⟨.w, 0⟩,
    .store ⟨.w, 1⟩,
    .store ⟨.cs, 1⟩ ]

def ioRead (address : BitVec 8) : List IoAction :=
  [ .store ⟨.cs, 0⟩,
    .store ⟨.w, 1⟩,
    .store ⟨.address, address.setWidth 32⟩,
    .store ⟨.r, 0⟩,
    .load,
    .store ⟨.r, 1⟩,
    .store ⟨.cs, 1⟩ ]

/-- An 8-bit address leaves its low two bits in the address register. -/
@[simp] theorem write_address (p : Pio.Registers) (address : BitVec 8) :
    p.write ⟨.address, address.setWidth 32⟩ = { p with address := address.setWidth 2 } := by
  simp only [Pio.Registers.write, BitVec.setWidth_setWidth_of_le address (by decide : 2 ≤ 32)]

/-- A 16-bit word passes unchanged through the 32-bit store. -/
@[simp] theorem write_data (p : Pio.Registers) (data : BitVec 16) :
    p.write ⟨.data, data.setWidth 32⟩ = { p with data := data } := by
  simp only [Pio.Registers.write, BitVec.setWidth_setWidth_of_le data (by decide : 16 ≤ 32),
    BitVec.setWidth_eq]

/-- A call of `IO_write` or `IO_read`. -/
inductive Call where
  | write (address : BitVec 8) (data : BitVec 16)
  | read (address : BitVec 8)
deriving Repr, DecidableEq

namespace Call

def address : Call → BitVec 8
  | write address _ => address
  | read address => address

def isWrite : Call → Bool
  | write _ _ => true
  | read _ => false

/-- The accesses a call makes. -/
def script : Call → List IoAction
  | write address data => ioWrite address data
  | read address => ioRead address

end Call

/-- The accesses of a sequence of calls. -/
def scripts (calls : List Call) : List IoAction := calls.flatMap Call.script

/-- The writes to the PIO registers among some accesses. -/
def stores (script : List IoAction) : List Pio.Store := script.filterMap IoAction.store?

theorem stores_append (a b : List IoAction) : stores (a ++ b) = stores a ++ stores b :=
  List.filterMap_append

/-- The updates of a write call. -/
theorem stores_write (address : BitVec 8) (data : BitVec 16) :
    stores (Call.write address data).script =
      [ ⟨.cs, 0⟩, ⟨.r, 1⟩, ⟨.address, address.setWidth 32⟩, ⟨.data, data.setWidth 32⟩, ⟨.w, 0⟩,
        ⟨.w, 1⟩, ⟨.cs, 1⟩ ] := rfl

/-- The updates of a read call. -/
theorem stores_read (address : BitVec 8) :
    stores (Call.read address).script =
      [⟨.cs, 0⟩, ⟨.w, 1⟩, ⟨.address, address.setWidth 32⟩, ⟨.r, 0⟩, ⟨.r, 1⟩, ⟨.cs, 1⟩] := rfl

@[simp] theorem scripts_nil : scripts [] = [] := rfl

@[simp] theorem scripts_cons (c : Call) (calls : List Call) :
    scripts (c :: calls) = c.script ++ scripts calls := List.flatMap_cons

end SpaceInvaders.Software
