import SpaceInvaders.Hpi.Transactions

/-!
# What the chip takes from the bus

The chip takes part in one access for each strobe pulse while it is selected. It
takes the address from its pins, and the word of a write from the data bus when
the strobe ends. By then the bridge has released the bus, so the word it latches
is the one the bus keeps.

On a bus that keeps its word while nobody drives it, and with a chip that drives
only while it is read, the accesses are the calls of the software, in number,
order, direction, address and data, at every timing (`accesses_onPins`).
-/

namespace SpaceInvaders.Hpi

open Machine Software HpiIoIntf

/-- What the chip takes part in. -/
inductive Access where
  | read (address : BitVec 2)
  | write (address : BitVec 2) (word : BitVec 16)
deriving Repr, DecidableEq

/-- What a call asks of the chip. -/
def accessOf : Call → Access
  | .write address data => .write (address.setWidth 2) data
  | .read address => .read (address.setWidth 2)

/-- What the chip sees in a cycle: its pins, and the bus while its write strobe is low. -/
structure Sample where
  pins : Pins
  word : Option (BitVec 16)
deriving Repr, DecidableEq

/-- The chip is selected and one of the strobes is low. -/
def Sample.active (t : Sample) : Bool := !t.pins.otgCsN && t.pins.strobe

/-- The access that ends with this sample. -/
def Sample.access (t : Sample) : Access :=
  match t.word with
  | some word => .write t.pins.otgAddr word
  | none => .read t.pins.otgAddr

/-- What the chip sees in the cycle `c`. -/
def State.sample (c : Cycle) (s : State) : Sample where
  pins := s.intf.pins
  word := if s.intf.otgWrN then none else some (s.otgData c)

/-- What the chip sees in all cycles of a run. -/
def samples (s : State) : List Cycle → List Sample
  | [] => []
  | c :: l => s.sample c :: samples (s.step c) l

/-- The accesses of a run, each as it is latched in the last cycle of its pulse. -/
def accesses (s : State) (l : List Cycle) : List Access :=
  (blocks Sample.active (samples s l)).filterMap fun pulse => pulse.getLast?.map Sample.access

/-- A bus that nobody drives keeps the word of the cycle before. -/
def BusKeeps (s : State) (l : List Cycle) : Prop :=
  ∀ k (hk : k < l.length), 0 < k → (stateIn s l k).driver = none → l[k].chip = none →
    l[k].undetermined = (stateIn s l (k - 1)).otgData l[k - 1]

/-- The chip drives the bus only while it is selected and read. -/
def ChipYields (s : State) (l : List Cycle) : Prop :=
  ∀ k (hk : k < l.length), l[k].chip ≠ none →
    (stateIn s l k).intf.otgCsN = false ∧ (stateIn s l k).intf.otgRdN = false

section View

variable {s : State} {l : List Cycle} {calls : List Call} {k : Nat}

/-- What the PIO registers show the chip a cycle later. -/
def viewOf (p : Pio.Registers) : Sample where
  pins := pinsOf p
  word := if p.w then none else some p.data

theorem active_of_strobes {p : Pio.Registers} (hr : p.r = true) (hw : p.w = true) :
    (viewOf p).active = false := by
  simp [viewOf, Sample.active, pinsOf, Pins.strobe, hr, hw]

/-- When `w` is low, the data has been there for a cycle and `r` is high. -/
theorem along_write (c : Call) (p : Pio.Registers) (hp : Idle p) :
    Along (fun p q => q.w = false → p.r = true ∧ q.r = true ∧ p.data = q.data) Pio.Registers.write
      p (stores c.script) := by
  obtain ⟨address, data, r, w, cs, reset⟩ := p
  obtain ⟨rfl, rfl, rfl, rfl⟩ := hp
  cases c with
  | write address data => simp [stores_write, Along, Pio.Registers.write]
  | read address => simp [stores_read, Along, Pio.Registers.write]

/-- A chip that yields is silent while its read strobe is high. -/
theorem ChipYields.silent (h : ChipYields s l) (hk : k < l.length)
    (hread : (stateIn s l k).intf.otgRdN = true) : l[k].chip = none := by
  by_contra hdrives
  have hlow := (h k hk hdrives).2
  rw [hread] at hlow
  exact Bool.noConfusion hlow

/-- A driven bus without the chip carries the output buffer. -/
theorem otgData_of_low (hk : k < l.length) (hk' : k + 1 < l.length)
    (hchip : l[k + 1].chip = none) (hw : (stateIn s l (k + 1)).pio.w = false) :
    (stateIn s l (k + 1)).otgData l[k + 1] = (stateIn s l k).pio.data := by
  rw [State.otgData, hchip, State.driver, Registers.otgDataDriver, hw, intf_succ hk]
  rfl

/-- While the write strobe is low, the word on the bus is the one the software
has stored, in its last cycle too. -/
theorem otgData_of_strobe (hs : Idle s.pio) (hl : Performs l (scripts calls))
    (hkeeps : BusKeeps s l) (hyields : ChipYields s l) (hk : k + 1 < l.length)
    (hw : (stateIn s l k).pio.w = false) :
    (stateIn s l (k + 1)).otgData l[k + 1] = (stateIn s l k).pio.data := by
  cases k with
  | zero => exact absurd (hs.w.symm.trans hw) Bool.noConfusion
  | succ k =>
      have halong := along_scripts along_write calls hs
      rw [← hl.updates] at halong
      obtain ⟨hr, hr', hdata⟩ := pio_along halong (by omega) hw
      have hsilent : l[k + 1].chip = none :=
        hyields.silent (by omega) ((otgRdN_succ (by omega)).trans hr)
      have hsilent' : l[k + 1 + 1].chip = none :=
        hyields.silent hk ((otgRdN_succ (by omega)).trans hr')
      cases hw' : (stateIn s l (k + 1 + 1)).pio.w with
      | false => exact otgData_of_low (by omega) hk hsilent' hw'
      | true =>
          -- the bridge has released the bus and the strobe is still low
          have hreleased : (stateIn s l (k + 1 + 1)).driver = none := by
            rw [State.driver, Registers.otgDataDriver, hw']
            rfl
          calc
            (stateIn s l (k + 1 + 1)).otgData l[k + 1 + 1] = l[k + 1 + 1].undetermined := by
              rw [State.otgData, hreleased, hsilent']
              rfl
            _ = (stateIn s l (k + 1)).otgData l[k + 1] :=
              hkeeps (k + 1 + 1) hk (Nat.succ_pos _) hreleased hsilent'
            _ = (stateIn s l k).pio.data := otgData_of_low (by omega) (by omega) hsilent hw
            _ = (stateIn s l (k + 1)).pio.data := hdata

/-- What the chip sees is what the PIO registers were. -/
theorem sample_succ (hs : Idle s.pio) (hl : Performs l (scripts calls)) (hkeeps : BusKeeps s l)
    (hyields : ChipYields s l) (hk : k + 1 < l.length) :
    (stateIn s l (k + 1)).sample l[k + 1] = viewOf (stateIn s l k).pio := by
  rw [State.sample, viewOf, pins_succ (by omega), otgWrN_succ (by omega)]
  cases hw : (stateIn s l k).pio.w with
  | true => rfl
  | false =>
      rw [otgData_of_strobe hs hl hkeeps hyields hk hw]

end View

section Samples

variable {s : State} {l : List Cycle} {calls : List Call}

theorem getElem?_samples (s : State) (l : List Cycle) (k : Nat) :
    (samples s l)[k]? = l[k]?.map fun c => (stateIn s l k).sample c := by
  induction l generalizing s k with
  | nil => rfl
  | cons c l ih =>
      cases k with
      | zero => rfl
      | succ k => exact ih (s.step c) k

/-- The samples show the PIO registers a cycle late, up to the last but one cycle. -/
theorem samples_eq (hs : Idle s.pio) {c : Cycle} (hl : Performs (l ++ [c]) (scripts calls))
    (hkeeps : BusKeeps s (l ++ [c])) (hyields : ChipYields s (l ++ [c])) :
    ∃ first : Sample, first.pins = s.intf.pins ∧ samples s (l ++ [c]) =
      first :: (trace State.step s l).dropLast.map fun t => viewOf t.pio := by
  obtain ⟨d, m, hm⟩ : ∃ d m, l ++ [c] = d :: m :=
    List.exists_cons_of_ne_nil (List.append_ne_nil_of_right_ne_nil _ (List.cons_ne_nil c []))
  refine ⟨s.sample d, rfl, List.ext_getElem? fun k => ?_⟩
  cases k with
  | zero => rw [hm]; rfl
  | succ k =>
      rw [getElem?_samples, List.getElem?_cons_succ, List.getElem?_map, List.getElem?_dropLast,
        length_trace]
      by_cases hk : k < l.length
      · have hlength : k + 1 < (l ++ [c]).length := by
          rw [List.length_append]
          exact Nat.succ_lt_succ hk
        rw [if_pos (by omega), List.getElem?_eq_getElem hlength, Option.map_some,
          sample_succ hs hl hkeeps hyields hlength, getElem?_trace _ _ (Nat.le_of_lt hk), stateIn,
          List.take_append_of_le_length (Nat.le_of_lt hk)]
        rfl
      · rw [if_neg (by omega), List.getElem?_eq_none (by simp; omega)]
        rfl

end Samples

section Pulses

variable {s : State} {l : List Cycle} {calls : List Call}

/-- What the chip sees during the pulse of a call. -/
def pulseSample (c : Call) : Sample where
  pins := pulsePins c
  word := match c with
    | .write _ data => some data
    | .read _ => none

@[simp] theorem access_pulseSample (c : Call) : (pulseSample c).access = accessOf c := by
  cases c <;> rfl

theorem active_of_idle {p : Pio.Registers} (hp : Idle p) : (viewOf p).active = false :=
  active_of_strobes hp.r hp.w

/-- A call brings the registers into one pulse of one step. -/
theorem blocks_view_call (c : Call) {p : Pio.Registers} (hp : Idle p) (rest : List Sample) :
    blocks Sample.active
        ((trace Pio.Registers.write p (stores c.script)).dropLast.map viewOf ++ rest) =
      [pulseSample c] :: blocks Sample.active rest := by
  obtain ⟨address, data, r, w, cs, reset⟩ := p
  obtain ⟨rfl, rfl, rfl, rfl⟩ := hp
  cases c with
  | write address data =>
      simp [stores_write, Pio.Registers.write, viewOf, pinsOf, blocks_cons_cons_of_not,
        Sample.active, Pins.strobe, pulseSample, pulsePins, Call.isWrite, Call.address]
  | read address =>
      simp [stores_read, Pio.Registers.write, viewOf, pinsOf, blocks_cons_cons_of_not,
        Sample.active, Pins.strobe, pulseSample, pulsePins, Call.isWrite, Call.address]

theorem blocks_view_scripts (calls : List Call) {p : Pio.Registers} (hp : Idle p) :
    blocks Sample.active ((trace Pio.Registers.write p (stores (scripts calls))).map viewOf) =
      calls.map fun c => [pulseSample c] :=
  blocks_of_calls (fun _ => active_of_idle) (fun c _ => blocks_view_call c) calls hp

/-- The last sample of a pulse is the access of its call. -/
theorem access_of_pulses {pulses : List (List Sample)}
    (h : List.Forall₂ Stutters (calls.map fun c => [pulseSample c]) pulses) :
    pulses.filterMap (fun pulse => pulse.getLast?.map Sample.access) = calls.map accessOf := by
  rw [List.forall₂_map_left_iff] at h
  induction h with
  | nil => rfl
  | @cons c pulse _ _ hpulse _ ih =>
      have hne : pulse ≠ [] := mt hpulse.nil_iff.mpr (List.cons_ne_nil _ _)
      have hlast : pulse.getLast hne = pulseSample c :=
        List.mem_singleton.mp ((hpulse.mem _).mp (List.getLast_mem hne))
      rw [List.filterMap_cons, List.getLast?_eq_some_getLast hne, hlast, ih, List.map_cons,
        ← access_pulseSample c]
      rfl

/-- When the chip has just been deselected, the strobes have been high for a cycle. -/
theorem strobes_of_last {c : Cycle} (hs : Idle s.pio) (hl : Performs (l ++ [c]) (scripts calls)) :
    (final State.step s l).pio.r = true ∧ (final State.step s l).pio.w = true := by
  have halong := along_scripts along_call_deselect calls hs
  rw [← hl.updates] at halong
  have hlength : l.length < (l ++ [c]).length := by simp
  have hidle : Idle (stateIn s (l ++ [c]) (l.length + 1)).pio := by
    refine @idle_between _ _ calls _ hs ?_
    rwa [List.take_of_length_le (by simp)]
  have hstrobes := pio_along halong hlength hidle.cs
  rwa [stateIn, List.take_left' rfl] at hstrobes

/-- The pulses that the chip sees are those of the calls. -/
theorem pulses_seen (hs : Idle s.pio) (hfirst : s.intf.pins.strobe = false)
    (hl : Performs l (scripts calls)) (hkeeps : BusKeeps s l) (hyields : ChipYields s l) :
    List.Forall₂ Stutters (calls.map fun c => [pulseSample c])
      (blocks Sample.active (samples s l)) := by
  obtain rfl | ⟨m, c, rfl⟩ := List.eq_nil_or_concat' l
  · cases calls with
    | nil => exact .nil
    | cons c calls => cases c <;> exact absurd hl (List.cons_ne_nil _ _).symm
  obtain ⟨first, hpins, hsamples⟩ := samples_eq hs hl hkeeps hyields
  have hfirst' : first.active = false := by
    rw [Sample.active, hpins, hfirst, Bool.and_false]
  have hend := strobes_of_last hs hl
  have hidle : Idle (final State.step s (m ++ [c])).pio := by
    rw [pio_final, hl.updates]
    exact hs.scripts calls
  have hfull : blocks Sample.active (samples s (m ++ [c])) =
      blocks Sample.active (((trace State.step s (m ++ [c])).map State.pio).map viewOf) := by
    calc
      blocks Sample.active (samples s (m ++ [c])) =
          blocks Sample.active ((trace State.step s m).dropLast.map fun t => viewOf t.pio) := by
        rw [hsamples, blocks_cons_of_not hfirst']
      _ = blocks Sample.active ((trace State.step s m).map fun t => viewOf t.pio) := by
        rw [← dropLast_trace_append s m, List.map_append, List.map_singleton,
          blocks_append_of_not (active_of_strobes hend.1 hend.2), dropLast_trace_append]
      _ = blocks Sample.active
            (((trace State.step s m) ++ [final State.step s (m ++ [c])]).map
              fun t => viewOf t.pio) := by
        rw [List.map_append, List.map_singleton, blocks_append_of_not (active_of_idle hidle)]
      _ = blocks Sample.active (((trace State.step s (m ++ [c])).map State.pio).map viewOf) := by
        rw [List.map_map, trace_append, trace_cons, trace_nil, final_append]
        conv_lhs => rw [← dropLast_trace_append s m]
        simp [Function.comp_def]
  rw [hfull, ← blocks_view_scripts calls hs, ← hl.updates]
  exact blocks_stutters ((pio_writtenBy.trace_stutters s _).map viewOf)

/-- The accesses that the chip takes part in are the calls. -/
theorem accesses_eq (hs : Idle s.pio) (hfirst : s.intf.pins.strobe = false)
    (hl : Performs l (scripts calls)) (hkeeps : BusKeeps s l) (hyields : ChipYields s l) :
    accesses s l = calls.map accessOf :=
  access_of_pulses (pulses_seen hs hfirst hl hkeeps hyields)

/-- `IO_init` leaves the bridge idle, and no strobe on the pins. -/
theorem ready_ioInit (s : State) {init : List Cycle} (hinit : Performs init ioInit) :
    Idle (final State.step s init).pio ∧ (final State.step s init).intf.pins.strobe = false := by
  constructor
  · rw [pio_final, hinit.updates]
    exact idle_ioInit s.pio
  · obtain ⟨hread, hwrite⟩ := strobes_ioInit s hinit
    rw [Registers.pins, Pins.strobe, hread, hwrite]
    rfl

end Pulses

/-- After `IO_init`, the chip takes part in exactly the accesses that the
software asks for, at every timing. -/
theorem accesses_onPins (s : State) {init l : List Cycle} {calls : List Call}
    (hinit : Performs init ioInit) (hl : Performs l (scripts calls))
    (hkeeps : BusKeeps (final State.step s init) l)
    (hyields : ChipYields (final State.step s init) l) :
    accesses (final State.step s init) l = calls.map accessOf := by
  obtain ⟨hidle, hfirst⟩ := ready_ioInit s hinit
  exact accesses_eq hidle hfirst hl hkeeps hyields

/-- A write of the address register and a read of the data register on a bus
that keeps its word; the chip answers with `0x1000`. -/
def keptBus : List Cycle :=
  [ ⟨false, some ⟨.cs, 0⟩, none, 0#16⟩,
    ⟨false, some ⟨.r, 1⟩, none, 0#16⟩,
    ⟨false, some ⟨.address, 2⟩, none, 0#16⟩,
    ⟨false, some ⟨.data, 0x0144⟩, none, 0#16⟩,
    ⟨false, some ⟨.w, 0⟩, none, 0#16⟩,
    ⟨false, some ⟨.w, 1⟩, none, 0#16⟩,
    ⟨false, some ⟨.cs, 1⟩, none, 0x0144#16⟩,
    ⟨false, some ⟨.cs, 0⟩, none, 0x0144#16⟩,
    ⟨false, some ⟨.w, 1⟩, none, 0x0144#16⟩,
    ⟨false, some ⟨.address, 0⟩, none, 0x0144#16⟩,
    ⟨false, some ⟨.r, 0⟩, none, 0x0144#16⟩,
    ⟨true, none, none, 0x0144#16⟩,
    ⟨false, some ⟨.r, 1⟩, some 0x1000#16, 0#16⟩,
    ⟨false, some ⟨.cs, 1⟩, some 0x1000#16, 0#16⟩ ]

theorem accesses_onPins_keptBus :
    accesses (final State.step .powerOn (consecutive ioInit)) keptBus =
      [.write 2#2 0x0144#16, .read 0#2] := by
  refine @accesses_onPins .powerOn (consecutive ioInit) keptBus
    [.write 2#8 0x0144#16, .read 0#8] (performs_consecutive ioInit) (by decide) ?_ ?_
  · unfold BusKeeps
    decide
  · unfold ChipYields
    decide

end SpaceInvaders.Hpi
