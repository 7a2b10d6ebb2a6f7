import SpaceInvaders.Hpi.Calls

/-!
# The bus from power-on

All PIO registers are 0 at power-on, and their outputs are active low: the chip
is in reset, but selected with both strobes low. `IO_init` releases the reset
first and raises chip select and strobes afterwards. In between the chip is out
of reset, selected, and asked to read and to write at once while the FPGA drives
the data bus.

`busFight_succ_iff` shows that this is the only window: after `IO_init` has
deselected the chip, no sequence of calls, at any timing, makes the two sides
fight for the bus.
-/

namespace SpaceInvaders.Hpi

open Machine Software

/-- The chip is out of reset and selected, and both strobes are low or the FPGA
drives the bus under a read strobe. -/
def BusFight (s : State) : Prop :=
  s.intf.otgRstN = true ∧ s.intf.otgCsN = false ∧
    ((s.intf.otgRdN = false ∧ s.intf.otgWrN = false) ∨
      (s.intf.otgRdN = false ∧ s.driver ≠ none))

instance : DecidablePred BusFight := fun _ => inferInstanceAs (Decidable (_ ∧ _ ∧ _))

def NoBusFight (s : State) (l : List Cycle) : Prop :=
  ∀ k, k ≤ l.length → ¬BusFight (stateIn s l k)

/-- The PIO registers when `IO_init` has released the reset and done nothing
else. -/
def released : Pio.Registers := { Pio.Registers.powerOn with reset := true }

/-- A bus fight in terms of the PIO registers `p` of the cycle before and `q` of
the cycle itself. -/
def Fight (p q : Pio.Registers) : Prop :=
  p.reset = true ∧ p.cs = false ∧ p.r = false ∧ (p.w = false ∨ q.w = false)

instance : DecidableRel Fight := fun _ _ => inferInstanceAs (Decidable (_ ∧ _ ∧ _ ∧ _))

theorem busFight_succ {s : State} {l : List Cycle} {k : Nat} (hk : k < l.length) :
    BusFight (stateIn s l (k + 1)) ↔
      Fight (stateIn s l k).pio (stateIn s l (k + 1)).pio := by
  rw [BusFight, State.driver, intf_succ hk]
  simp only [HpiIoIntf.Registers.clocked, HpiIoIntf.Registers.otgDataDriver, Bool.false_eq_true,
    if_false, Fight]
  cases hw : (stateIn s l (k + 1)).pio.w with
  | true => simp
  | false =>
      constructor
      · rintro ⟨hreset, hcs, ⟨hr, -⟩ | ⟨hr, -⟩⟩
        · exact ⟨hreset, hcs, hr, .inr rfl⟩
        · exact ⟨hreset, hcs, hr, .inr rfl⟩
      · rintro ⟨hreset, hcs, hr, -⟩
        exact ⟨hreset, hcs, .inr ⟨hr, Option.some_ne_none _⟩⟩

/-- `IO_init` passes through a fight only where it has released the reset first. -/
theorem along_ioInit :
    Along (fun p q => Fight p q ↔ p = released) Pio.Registers.write .powerOn (stores ioInit) := by
  decide

/-- A call never has both strobes low, also not across two cycles. -/
theorem along_call (c : Call) (p : Pio.Registers) (hp : Idle p) :
    Along (fun p q => p.r = true ∨ (p.w = true ∧ q.w = true)) Pio.Registers.write p
      (stores c.script) := by
  obtain ⟨address, data, r, w, cs, reset⟩ := p
  obtain ⟨rfl, rfl, rfl, rfl⟩ := hp
  cases c with
  | write address data => simp [stores_write, Along, Pio.Registers.write]
  | read address => simp [stores_read, Along, Pio.Registers.write]

theorem along_powerOn (calls : List Call) :
    Along (fun p q => Fight p q ↔ p = released) Pio.Registers.write .powerOn
      (stores (ioInit ++ scripts calls)) := by
  rw [stores_append, along_append]
  refine ⟨along_ioInit, (along_scripts along_call calls (idle_ioInit _)).mono ?_⟩
  rintro p q hpq
  constructor
  · rintro ⟨-, -, hr, hw⟩
    simp_all
  · rintro rfl
    simp [released, Pio.Registers.powerOn] at hpq

section PowerOn

variable {l : List Cycle} {calls : List Call}

/-- From power-on, the two sides fight exactly in the cycles that follow one in
which `IO_init` has released the reset but not yet deselected the chip. -/
theorem busFight_succ_iff (hl : Performs l (ioInit ++ scripts calls)) {k : Nat}
    (hk : k < l.length) :
    BusFight (stateIn .powerOn l (k + 1)) ↔ (stateIn .powerOn l k).pio = released := by
  have halong := along_powerOn calls
  rw [← hl.updates] at halong
  rw [busFight_succ hk]
  exact pio_along (s := .powerOn) halong hk

/-- Every run has such a cycle. -/
theorem exists_released (hl : Performs l (ioInit ++ scripts calls)) :
    ∃ k, k < l.length ∧ (stateIn .powerOn l k).pio = released := by
  obtain ⟨l₁, c, l₂, rfl, h₁, hc, h₂⟩ :=
    exists_cut [] ⟨.reset, 1⟩ (stores (ioInit ++ scripts calls)).tail hl.updates
  have hnonempty : 0 < l₂.length := length_pos_of_filterMap h₂ (List.cons_ne_nil _ _)
  refine ⟨l₁.length + 1, ?_, ?_⟩
  · rw [List.length_append, List.length_cons]
    omega
  · rw [stateIn_append]
    change ((final State.step .powerOn l₁).step c).pio = released
    simp only [State.step, hc, pio_final, h₁]
    rfl

/-- No run from power-on is free of bus fights. -/
theorem powerOn_not_noBusFight (hl : Performs l (ioInit ++ scripts calls)) :
    ¬NoBusFight .powerOn l := by
  intro hfree
  obtain ⟨k, hk, hreleased⟩ := exists_released hl
  exact hfree (k + 1) hk ((busFight_succ_iff hl hk).2 hreleased)

end PowerOn

theorem powerOn_consecutive_not_noBusFight :
    ¬NoBusFight .powerOn (consecutive (ioInit ++ scripts [.read 2#8])) :=
  powerOn_not_noBusFight (performs_consecutive _)

theorem exists_powerOn_busFight :
    ¬∀ (calls : List Call) (l : List Cycle), Performs l (ioInit ++ scripts calls) →
      NoBusFight .powerOn l := by
  intro h
  exact h [] (consecutive (ioInit ++ scripts [])) (performs_consecutive _) 2 (by decide) (by decide)

end SpaceInvaders.Hpi
