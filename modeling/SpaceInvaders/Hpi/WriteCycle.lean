import SpaceInvaders.Hpi.Bus

/-!
# The end of a write strobe

The chip latches the data bus at the rising edge of `OTG_WR_N`. The strobe
leaves the bridge through a register, one cycle after the software raised `w`,
but the tristate enable is `w` itself. So the bus is released one cycle before
the strobe ends, whatever the spacing of the software's writes: in the last
cycle of the strobe chip select, address and even the output buffer are right,
and nothing drives the bus (`ioWrite_strobe_end`).
-/

namespace SpaceInvaders.Hpi

open Machine Software

/-- Cycle `i` is the last one of the run in which `OTG_WR_N` is low. -/
structure StrobeEnd (s : State) (l : List Cycle) (i : Nat) : Prop where
  inRun : i < l.length
  low : (stateIn s l i).intf.otgWrN = false
  high : ∀ k, i < k → k ≤ l.length → (stateIn s l k).intf.otgWrN = true

/-- When the write strobe ends, the chip is selected and finds the address on
its pins and the data, driven by the FPGA, on the bus. -/
def WriteDataValid (s : State) (l : List Cycle) (address : BitVec 8) (data : BitVec 16) : Prop :=
  ∀ i, StrobeEnd s l i →
    (stateIn s l i).intf.otgCsN = false ∧
      (stateIn s l i).intf.otgAddr.toNat = address.toNat ∧
      (stateIn s l i).driver = some data

/-- The PIO updates of `IO_write`, cut at the one that raises `w` again. -/
theorem stores_ioWrite (address : BitVec 8) (data : BitVec 16) :
    stores (ioWrite address data) =
      [⟨.cs, 0⟩, ⟨.r, 1⟩, ⟨.address, address.setWidth 32⟩, ⟨.data, data.setWidth 32⟩, ⟨.w, 0⟩] ++
        ⟨.w, 1⟩ :: [⟨.cs, 1⟩] := rfl

/-- The PIO registers while `IO_write` holds `w` low. -/
theorem final_ioWrite_low (p : Pio.Registers) (address : BitVec 8) (data : BitVec 16) :
    final Pio.Registers.write p
        [⟨.cs, 0⟩, ⟨.r, 1⟩, ⟨.address, address.setWidth 32⟩, ⟨.data, data.setWidth 32⟩, ⟨.w, 0⟩] =
      { p with
        cs := false
        r := true
        address := address.setWidth 2
        data := data
        w := false } := by
  simp only [final_cons, final_nil, write_address, write_data]
  rfl

/-- The strobe of every `IO_write` ends in a cycle in which the FPGA does not
drive the bus any more. -/
theorem ioWrite_strobe_end {s : State} {l : List Cycle} {address : BitVec 8} {data : BitVec 16}
    (hl : Performs l (ioWrite address data)) :
    ∃ i, StrobeEnd s l i ∧ (stateIn s l i).intf.otgCsN = false ∧
      (stateIn s l i).intf.otgAddr = address.setWidth 2 ∧
      (stateIn s l i).intf.fromSwDataOutBuffer = data ∧ (stateIn s l i).driver = none := by
  -- `c` is the cycle whose edge raises `w`; the strobe ends in the next one
  obtain ⟨l₁, c, l₂, rfl, h₁, hc, h₂⟩ :=
    exists_cut _ _ _ (hl.updates.trans (stores_ioWrite address data))
  have hlow : (final State.step s l₁).pio = _ :=
    (pio_final s l₁).trans (h₁ ▸ final_ioWrite_low s.pio address data)
  have hraised : ((final State.step s l₁).step c).pio.w = true := by
    simp only [State.step, hc]
    rfl
  have hend : stateIn s (l₁ ++ c :: l₂) (l₁.length + 1) = (final State.step s l₁).step c :=
    stateIn_append (c :: l₂)
  have hnonempty : 0 < l₂.length := length_pos_of_filterMap h₂ (List.cons_ne_nil _ _)
  refine ⟨l₁.length + 1, ⟨?_, ?_, ?_⟩, ?_, ?_, ?_, ?_⟩
  · rw [List.length_append, List.length_cons]
    omega
  · rw [hend]
    change (final State.step s l₁).pio.w = false
    rw [hlow]
  · intro k hk hkl
    rw [List.length_append, List.length_cons] at hkl
    obtain ⟨j, rfl⟩ : ∃ j, k = l₁.length + ((j + 1) + 1) := ⟨k - l₁.length - 2, by omega⟩
    have hj : j < l₂.length := by omega
    have hwrote : (stateIn ((final State.step s l₁).step c) l₂ j).pio.w = true := by
      refine pio_along (R := fun p _ => p.w = true) ?_ hj
      rw [h₂]
      exact ⟨hraised, hraised, hraised⟩
    calc
      (stateIn s (l₁ ++ c :: l₂) (l₁.length + ((j + 1) + 1))).intf.otgWrN =
          (stateIn ((final State.step s l₁).step c) l₂ (j + 1)).intf.otgWrN := by
        rw [stateIn_append]
        rfl
      _ = (stateIn ((final State.step s l₁).step c) l₂ j).pio.w :=
        otgWrN_succ hj
      _ = true := hwrote
  · rw [hend]
    change (final State.step s l₁).pio.cs = false
    rw [hlow]
  · rw [hend]
    change (final State.step s l₁).pio.address = address.setWidth 2
    rw [hlow]
  · rw [hend]
    change (final State.step s l₁).pio.data = data
    rw [hlow]
  · rw [hend, State.driver, HpiIoIntf.Registers.otgDataDriver, hraised]
    rfl

/-- A strobe that ends after the bus has been released leaves no valid data. -/
theorem StrobeEnd.not_writeDataValid {s : State} {l : List Cycle} {i : Nat} (hi : StrobeEnd s l i)
    (hreleased : (stateIn s l i).driver = none) (address : BitVec 8) (data : BitVec 16) :
    ¬WriteDataValid s l address data := by
  intro hvalid
  have hdriven := (hvalid i hi).2.2
  rw [hreleased] at hdriven
  exact Option.some_ne_none data hdriven.symm

/-- The pins select the chip and the right register when the strobe ends, but
no call of `IO_write` drives its data on the bus then. -/
theorem ioWrite_not_writeDataValid {s : State} {l : List Cycle} {address : BitVec 8}
    {data : BitVec 16} (hl : Performs l (ioWrite address data)) :
    ¬WriteDataValid s l address data := by
  obtain ⟨i, hi, -, -, -, hreleased⟩ := ioWrite_strobe_end (s := s) hl
  exact hi.not_writeDataValid hreleased address data

/-- `IO_write(2, 0x1234)` right after `IO_init`, one access in each cycle. -/
theorem ioWrite_consecutive_not_writeDataValid :
    ¬WriteDataValid (final State.step .powerOn (consecutive ioInit))
      (consecutive (ioWrite 2#8 0x1234#16)) 2#8 0x1234#16 :=
  ioWrite_not_writeDataValid (performs_consecutive _)

/-- So the data is not valid at the end of every write strobe. -/
theorem exists_ioWrite_not_writeDataValid :
    ¬∀ (s : State) (l : List Cycle) (address : BitVec 8) (data : BitVec 16),
      address.toNat < 4 → Performs l (ioWrite address data) →
        WriteDataValid s l address data := by
  intro h
  have hl := performs_consecutive (ioWrite 2#8 0x1234#16)
  obtain ⟨i, hi, -, -, -, hreleased⟩ :=
    ioWrite_strobe_end (s := final State.step .powerOn (consecutive ioInit)) hl
  exact hi.not_writeDataValid hreleased 2#8 0x1234#16 (h _ _ 2#8 0x1234#16 (by decide) hl)

end SpaceInvaders.Hpi
