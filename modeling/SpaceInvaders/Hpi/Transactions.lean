import SpaceInvaders.Hpi.Calls

/-!
# The pins carry the software's transactions

A call changes five PIO registers one after the other, at times the software
does not control. On the pins this is one strobe pulse for each call, in call
order and with the call's address, whatever the times (`pulses_carry`): the
registers go through the values of the script, and a script in which the strobes
are low in single steps has single pulses.

The way back has two registers. What the chip drives in a cycle is in
`from_sw_data_in` in the next one, and the read strobe itself is a cycle late,
so a sample is good from two cycles after the software lowered `r`.
-/

namespace SpaceInvaders.Hpi

open Machine Software HpiIoIntf

/-- The pins in all cycles of a run. -/
def pinTrace (s : State) (l : List Cycle) : List Pins :=
  (trace State.step s l).map fun t => t.intf.pins

/-- The pulses on the two strobes: the maximal sequences of consecutive cycles in
which a strobe is low. -/
def pulses (s : State) (l : List Cycle) : List (List Pins) := blocks Pins.strobe (pinTrace s l)

/-- During the whole pulse the chip is selected, the address is that of the
call, the strobe of its direction is low and the other one is high. -/
structure Carries (c : Call) (pulse : List Pins) : Prop where
  nonempty : pulse ≠ []
  selected : ∀ p ∈ pulse, p.otgCsN = false
  address : ∀ p ∈ pulse, p.otgAddr.toNat = c.address.toNat
  read : ∀ p ∈ pulse, p.otgRdN = c.isWrite
  write : ∀ p ∈ pulse, p.otgWrN = !c.isWrite

/-- Every sample is taken when `r` has been low for two cycles, and before it
goes high again. -/
def SampledLate (s : State) (l : List Cycle) : Prop :=
  ∀ j (hj : j < l.length), l[j].load = true →
    2 ≤ j ∧ ∀ k, k ≤ j → j - 2 ≤ k → (stateIn s l k).pio.r = false

/-- The chip drives `word` for as long as it is selected and read. -/
def ChipDrives (s : State) (l : List Cycle) (word : BitVec 16) : Prop :=
  ∀ k (hk : k < l.length), (stateIn s l k).intf.otgCsN = false →
    (stateIn s l k).intf.otgRdN = false → l[k].chip = some word

section Pulses

variable {s : State} {l : List Cycle} {calls : List Call}

/-- The pins while the strobe of a call is low. -/
def pulsePins (c : Call) : Pins := ⟨false, c.isWrite, !c.isWrite, c.address.setWidth 2⟩

theorem strobe_of_idle {p : Pio.Registers} (hp : Idle p) : (pinsOf p).strobe = false := by
  rw [pinsOf, Pins.strobe, hp.r, hp.w]
  rfl

/-- A call brings the registers into one pulse of one step. -/
theorem blocks_call (c : Call) {p : Pio.Registers} (hp : Idle p) (rest : List Pins) :
    blocks Pins.strobe
        ((trace Pio.Registers.write p (stores c.script)).dropLast.map pinsOf ++ rest) =
      [pulsePins c] :: blocks Pins.strobe rest := by
  obtain ⟨address, data, r, w, cs, reset⟩ := p
  obtain ⟨rfl, rfl, rfl, rfl⟩ := hp
  cases c with
  | write address data =>
      simp [stores_write, Pio.Registers.write, pinsOf, blocks_cons_cons_of_not, Pins.strobe,
        pulsePins, Call.isWrite, Call.address]
  | read address =>
      simp [stores_read, Pio.Registers.write, pinsOf, blocks_cons_cons_of_not, Pins.strobe,
        pulsePins, Call.isWrite, Call.address]

/-- So a sequence of calls brings them into one such pulse for each call. -/
theorem blocks_scripts (calls : List Call) {p : Pio.Registers} (hp : Idle p) :
    blocks Pins.strobe ((trace Pio.Registers.write p (stores (scripts calls))).map pinsOf) =
      calls.map fun c => [pulsePins c] :=
  blocks_of_calls (fun _ => strobe_of_idle) (fun c _ => blocks_call c) calls hp

theorem carries_of_stutters {c : Call} (haddress : c.address.toNat < 4) {pulse : List Pins}
    (h : Stutters [pulsePins c] pulse) : Carries c pulse := by
  have hpins : ∀ p ∈ pulse, p = pulsePins c := fun p hp => List.mem_singleton.1 ((h.mem p).1 hp)
  refine ⟨mt h.nil_iff.2 (List.cons_ne_nil _ _), ?_, ?_, ?_, ?_⟩
  · intro p hp
    rw [hpins p hp]
    rfl
  · intro p hp
    rw [hpins p hp, pulsePins, BitVec.toNat_setWidth]
    exact Nat.mod_eq_of_lt haddress
  · intro p hp
    rw [hpins p hp]
    rfl
  · intro p hp
    rw [hpins p hp]
    rfl

/-- One pulse for each call, at every timing. -/
theorem pulses_carry (hs : Idle s.pio) (hfirst : s.intf.pins.strobe = false)
    (haddress : ∀ c ∈ calls, c.address.toNat < 4) (hl : Performs l (scripts calls)) :
    List.Forall₂ Carries calls (pulses s l) := by
  have hlast : (pinsOf (final State.step s l).pio).strobe = false := by
    rw [pio_final, hl.updates]
    exact strobe_of_idle (hs.scripts calls)
  have hblocks : List.Forall₂ Stutters (calls.map fun c => [pulsePins c]) (pulses s l) := by
    rw [← blocks_scripts calls hs, ← hl.updates]
    exact pio_writtenBy.blocks_delayed (fun _ _ => rfl) hfirst hlast
  rw [List.forall₂_map_left_iff] at hblocks
  refine ((List.forall₂_and_left calls _).2 ⟨haddress, hblocks⟩).imp ?_
  rintro c pulse ⟨hc, hpulse⟩
  exact carries_of_stutters hc hpulse

end Pulses

section Between

variable {s : State} {l : List Cycle} {calls : List Call} {k : Nat}

/-- A call deselects the chip last. -/
theorem along_call_deselect (c : Call) (p : Pio.Registers) (hp : Idle p) :
    Along (fun p q => q.cs = true → p.r = true ∧ p.w = true) Pio.Registers.write p
      (stores c.script) := by
  obtain ⟨address, data, r, w, cs, reset⟩ := p
  obtain ⟨rfl, rfl, rfl, rfl⟩ := hp
  cases c with
  | write address data => simp [stores_write, Along, Pio.Registers.write]
  | read address => simp [stores_read, Along, Pio.Registers.write]

/-- When the calls made so far are complete, the PIO registers are idle. -/
theorem idle_between (hs : Idle s.pio) (hk : Performs (l.take k) (scripts calls)) :
    Idle (stateIn s l k).pio := by
  rw [stateIn, pio_final, hk.updates]
  exact hs.scripts calls

/-- And both strobes are high. -/
theorem strobes_between (hs : Idle s.pio) (hfirst : s.intf.otgRdN = true ∧ s.intf.otgWrN = true)
    (hl : Performs l (scripts calls)) (hk : k ≤ l.length) {m : Nat}
    (hbetween : Performs (l.take k) (scripts (calls.take m))) :
    (stateIn s l k).intf.otgRdN = true ∧ (stateIn s l k).intf.otgWrN = true := by
  cases k with
  | zero => exact hfirst
  | succ k =>
      have halong := along_scripts along_call_deselect calls hs
      rw [← hl.updates] at halong
      have hidle := idle_between hs hbetween
      obtain ⟨hr, hw⟩ := pio_along halong hk hidle.cs
      exact ⟨(otgRdN_succ hk).trans hr, (otgWrN_succ hk).trans hw⟩

/-- And one cycle later the chip select is high, too. -/
theorem otgCsN_between (hs : Idle s.pio) (hk : k < l.length)
    (hbetween : Performs (l.take k) (scripts calls)) :
    (stateIn s l (k + 1)).intf.otgCsN = true :=
  (otgCsN_succ hk).trans (idle_between hs hbetween).cs

end Between

section Read

variable {s : State} {l : List Cycle} {a : BitVec 8} {word : BitVec 16}

/-- While a read call holds `r` low, the chip is selected and `w` stays high. -/
theorem along_read (a : BitVec 8) {p : Pio.Registers} (hp : Idle p) :
    Along (fun p q => p.r = false → p.cs = false ∧ p.w = true ∧ q.w = true) Pio.Registers.write p
      (stores (Call.read a).script) := by
  obtain ⟨address, data, r, w, cs, reset⟩ := p
  obtain ⟨rfl, rfl, rfl, rfl⟩ := hp
  simp [stores_read, Along, Pio.Registers.write]

/-- A late sample of a read call finds the word the chip drives. -/
theorem fromSwDataIn_of_late (hs : Idle s.pio) (hl : Performs l (Call.read a).script)
    (hlate : SampledLate s l) (hchip : ChipDrives s l word) {j : Nat} (hj : j < l.length)
    (hload : l[j].load = true) : (stateIn s l j).intf.fromSwDataIn = word := by
  obtain ⟨hj2, hlow⟩ := hlate j hj hload
  obtain ⟨i, rfl⟩ : ∃ i, j = i + 1 + 1 := ⟨j - 2, by omega⟩
  have hi : i < l.length := by omega
  have hi1 : i + 1 < l.length := by omega
  have hr : (stateIn s l i).pio.r = false := hlow i (by omega) (by omega)
  have halong := along_read a hs
  rw [← hl.updates] at halong
  obtain ⟨hcs, -, hw⟩ := pio_along halong hi hr
  have hdriven : l[i + 1].chip = some word := by
    refine hchip (i + 1) hi1 ?_ ?_
    · rw [otgCsN_succ hi, hcs]
    · rw [otgRdN_succ hi, hr]
  rw [intf_succ hi1]
  change resolve _ (stateIn s l (i + 1)).driver _ = word
  rw [hdriven, State.driver, Registers.otgDataDriver, hw]
  rfl

/-- A read call whose samples are late returns the word the chip drives. -/
theorem temp_ioRead (hs : Idle s.pio) (hl : Performs l (Call.read a).script)
    (hlate : SampledLate s l) (hchip : ChipDrives s l word) :
    (final State.step s l).temp = word := by
  obtain ⟨c, hc, hload⟩ := hl.exists_load (by simp [Call.script, ioRead])
  obtain ⟨j, hj, rfl⟩ := List.mem_iff_getElem.1 hc
  rw [← stateIn_length]
  exact temp_of_load (fun k hk hk' => fromSwDataIn_of_late hs hl hlate hchip hk hk') hj hload hj
    (Nat.le_refl _)

end Read

/-- What the pins show of a run that makes the calls. -/
structure PinsCarry (s : State) (l : List Cycle) (calls : List Call) : Prop where
  /-- The strobe pulses are the calls. -/
  pulses : List.Forall₂ Carries calls (pulses s l)
  /-- Between two calls both strobes are high. -/
  strobes : ∀ k m, k ≤ l.length → Performs (l.take k) (scripts (calls.take m)) →
    (stateIn s l k).intf.otgRdN = true ∧ (stateIn s l k).intf.otgWrN = true
  /-- So is the chip select, once the last update of a call has propagated. -/
  select : ∀ k m, k < l.length → Performs (l.take k) (scripts (calls.take m)) →
    (stateIn s l (k + 1)).intf.otgCsN = true

/-- Every read call of the run that samples late returns the word the chip
drives during the call. -/
def ReadsReturn (s : State) (l : List Cycle) (calls : List Call) : Prop :=
  ∀ (before after : List Call) (address : BitVec 8) (l₁ l₂ l₃ : List Cycle) (word : BitVec 16),
    calls = before ++ .read address :: after → l = l₁ ++ l₂ ++ l₃ →
    Performs l₁ (scripts before) → Performs l₂ (Call.read address).script →
    SampledLate (final State.step s l₁) l₂ → ChipDrives (final State.step s l₁) l₂ word →
    (final State.step s (l₁ ++ l₂)).temp = word

/-- `IO_init` leaves both strobes high, on the pins too. -/
theorem strobes_ioInit (s : State) {init : List Cycle} (hinit : Performs init ioInit) :
    (final State.step s init).intf.otgRdN = true ∧
      (final State.step s init).intf.otgWrN = true := by
  obtain ⟨l₁, c, l₂, rfl, h₁, hc, h₂⟩ :=
    exists_cut ((stores ioInit).take 3) ⟨.w, 1⟩ ((stores ioInit).drop 4) hinit.updates
  have hnonempty : 0 < l₂.length := length_pos_of_filterMap h₂ (List.cons_ne_nil _ _)
  have hraised : ((final State.step s l₁).step c).pio =
      ⟨s.pio.address, s.pio.data, true, true, true, true⟩ := by
    simp only [State.step, hc, pio_final, h₁]
    rfl
  obtain ⟨k, hk⟩ : ∃ k, l₂.length = k + 1 := ⟨l₂.length - 1, by omega⟩
  have hkl : k < l₂.length := by omega
  have hhigh : (stateIn ((final State.step s l₁).step c) l₂ k).pio.r = true ∧
      (stateIn ((final State.step s l₁).step c) l₂ k).pio.w = true := by
    refine pio_along (R := fun p _ => p.r = true ∧ p.w = true) ?_ hkl
    rw [h₂, hraised]
    simp [ioInit, stores, IoAction.store?, Along, Pio.Registers.write]
  rw [final_append, final_cons, ← stateIn_length, hk]
  exact ⟨(otgRdN_succ hkl).trans hhigh.1, (otgWrN_succ hkl).trans hhigh.2⟩

/-- After `IO_init`, the pins carry exactly the transactions of the software,
whatever the calls and whatever the times of their PIO accesses. -/
theorem transactions_onPins (s : State) {init l : List Cycle} {calls : List Call}
    (hinit : Performs init ioInit) (haddress : ∀ c ∈ calls, c.address.toNat < 4)
    (hl : Performs l (scripts calls)) :
    PinsCarry (final State.step s init) l calls ∧
      ReadsReturn (final State.step s init) l calls := by
  have hidle : Idle (final State.step s init).pio := by
    rw [pio_final, hinit.updates]
    exact idle_ioInit s.pio
  have hfirst := strobes_ioInit s hinit
  constructor
  · refine ⟨pulses_carry hidle ?_ haddress hl, ?_, ?_⟩
    · rw [Registers.pins, Pins.strobe, hfirst.1, hfirst.2]
      rfl
    · intro k m hk hbetween
      exact strobes_between hidle hfirst hl hk hbetween
    · intro k m hk hbetween
      exact otgCsN_between hidle hk hbetween
  · rintro before after address l₁ l₂ l₃ word rfl rfl hbefore hread hlate hchip
    rw [final_append]
    refine temp_ioRead ?_ hread hlate hchip
    rw [pio_final, hbefore.updates]
    exact hidle.scripts before

/-- A run of `IO_read(0)` in which the software samples three cycles after it
lowered `r`, and the chip answers with `word`. -/
def slowRead (word : BitVec 16) : List Cycle :=
  [ ⟨false, some ⟨.cs, 0⟩, none, 0#16⟩,
    ⟨false, some ⟨.w, 1⟩, none, 0#16⟩,
    ⟨false, some ⟨.address, 0⟩, none, 0#16⟩,
    ⟨false, some ⟨.r, 0⟩, none, 0#16⟩,
    ⟨false, none, none, 0#16⟩,
    ⟨false, none, some word, 0#16⟩,
    ⟨true, none, some word, 0#16⟩,
    ⟨false, some ⟨.r, 1⟩, some word, 0#16⟩,
    ⟨false, some ⟨.cs, 1⟩, some word, 0#16⟩ ]

/-- A write of the address register and a slow read of the data register, from
power-on. -/
theorem transactions_onPins_slowRead :
    PinsCarry (final State.step .powerOn (consecutive ioInit))
        (consecutive (scripts [.write 2#8 0x0144#16]) ++ slowRead 0x1000#16)
        [.write 2#8 0x0144#16, .read 0#8] ∧
      (final State.step (final State.step .powerOn (consecutive ioInit))
        (consecutive (scripts [.write 2#8 0x0144#16]) ++ slowRead 0x1000#16)).temp = 0x1000#16 := by
  have h := @transactions_onPins .powerOn (consecutive ioInit)
    (consecutive (scripts [.write 2#8 0x0144#16]) ++ slowRead 0x1000#16)
    [.write 2#8 0x0144#16, .read 0#8] (performs_consecutive _) (by decide) (by decide)
  refine ⟨h.1, h.2 [.write 2#8 0x0144#16] [] 0#8 _ _ [] 0x1000#16 rfl (List.append_nil _).symm
    (performs_consecutive _) rfl ?_ ?_⟩
  · unfold SampledLate
    decide
  · unfold ChipDrives
    decide

end SpaceInvaders.Hpi
