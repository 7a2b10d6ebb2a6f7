import SpaceInvaders.Hpi.Bus

/-!
# What the calls do to the PIO registers

Between calls the chip is out of reset and not selected and both strobes are
high. `IO_init` brings the registers into such a state from any other, and
every call of `IO_write` and `IO_read` starts and ends in one.
-/

namespace SpaceInvaders.Hpi

open Machine Software

/-- Out of reset, not selected, both strobes high. -/
structure Idle (p : Pio.Registers) : Prop where
  reset : p.reset = true
  cs : p.cs = true
  r : p.r = true
  w : p.w = true

instance : DecidablePred Idle := fun p =>
  decidable_of_iff (p.reset = true ∧ p.cs = true ∧ p.r = true ∧ p.w = true)
    ⟨fun ⟨hreset, hcs, hr, hw⟩ => ⟨hreset, hcs, hr, hw⟩, fun h => ⟨h.reset, h.cs, h.r, h.w⟩⟩

/-- `IO_init` overwrites all PIO registers. -/
theorem final_ioInit (p : Pio.Registers) :
    final Pio.Registers.write p (stores ioInit) = ⟨0#2, 0#16, true, true, true, true⟩ := rfl

theorem idle_ioInit (p : Pio.Registers) : Idle (final Pio.Registers.write p (stores ioInit)) := by
  rw [final_ioInit]
  decide

/-- The registers are idle again after a call; it leaves its address there, and
a write call also its data. -/
theorem final_call (c : Call) {p : Pio.Registers} (hp : Idle p) :
    final Pio.Registers.write p (stores c.script) =
      { p with
        address := c.address.setWidth 2
        data := match c with
          | .write _ data => data
          | .read _ => p.data } := by
  obtain ⟨address, data, r, w, cs, reset⟩ := p
  obtain ⟨rfl, rfl, rfl, rfl⟩ := hp
  cases c with
  | write address data =>
      simp only [stores_write, final_cons, final_nil, write_address, write_data]
      rfl
  | read address =>
      simp only [stores_read, final_cons, final_nil, write_address]
      rfl

theorem Idle.call (c : Call) {p : Pio.Registers} (hp : Idle p) :
    Idle (final Pio.Registers.write p (stores c.script)) := by
  rw [final_call c hp]
  exact ⟨hp.reset, hp.cs, hp.r, hp.w⟩

theorem Idle.scripts (calls : List Call) {p : Pio.Registers} (hp : Idle p) :
    Idle (final Pio.Registers.write p (stores (scripts calls))) := by
  induction calls generalizing p with
  | nil => exact hp
  | cons c calls ih =>
      rw [scripts_cons, stores_append, final_append]
      exact ih (hp.call c)

/-- A relation that holds along each single call holds along any sequence of
calls. -/
theorem along_scripts {R : Pio.Registers → Pio.Registers → Prop}
    (hcall : ∀ (c : Call) p, Idle p → Along R Pio.Registers.write p (stores c.script))
    (calls : List Call) {p : Pio.Registers} (hp : Idle p) :
    Along R Pio.Registers.write p (stores (Software.scripts calls)) := by
  induction calls generalizing p with
  | nil => exact (hcall (.read 0#8) p hp).head
  | cons c calls ih =>
      rw [scripts_cons, stores_append, along_append]
      exact ⟨hcall c p hp, ih (hp.call c)⟩

/-- If each single call makes one pulse on an output, a sequence of calls makes
one for each. -/
theorem blocks_of_calls {τ : Type*} {out : Pio.Registers → τ} {low : τ → Bool} {pulse : Call → τ}
    (hidle : ∀ p, Idle p → low (out p) = false)
    (hcall : ∀ (c : Call) p, Idle p → ∀ rest,
      blocks low ((trace Pio.Registers.write p (stores c.script)).dropLast.map out ++ rest) =
        [pulse c] :: blocks low rest)
    (calls : List Call) {p : Pio.Registers} (hp : Idle p) :
    blocks low ((trace Pio.Registers.write p (stores (Software.scripts calls))).map out) =
      calls.map fun c => [pulse c] := by
  induction calls generalizing p with
  | nil => exact blocks_cons_of_not (hidle p hp)
  | cons c calls ih =>
      rw [scripts_cons, stores_append, trace_append, List.map_append, hcall c p hp, ih (hp.call c),
        List.map_cons]

end SpaceInvaders.Hpi
