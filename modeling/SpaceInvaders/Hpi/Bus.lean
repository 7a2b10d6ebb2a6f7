import SpaceInvaders.Machine.Script
import SpaceInvaders.Software.IoHandler

/-!
# Software, bridge and chip on one clock

A run is a list of `Clk` cycles, all with `Reset` low. In a cycle the software
may load the data port, and the closing edge may update one PIO register, so
consecutive updates are at least one cycle apart and otherwise free. The chip
may drive the data bus or not. `Performs` says which accesses a run makes; it
leaves their times open.

Of the PIO registers a run keeps no more than the script says, so facts about
every timing reduce to facts about the script (`pio_writtenBy`). The pins of a
cycle are the PIO registers of the cycle before (`pins_succ`).
-/

namespace SpaceInvaders.Hpi

open Machine Software

/-- One `Clk` cycle with `Reset` low. -/
structure Cycle where
  /-- The software samples the data port. -/
  load : Bool
  /-- The PIO update made by the closing edge. -/
  store : Option Pio.Store
  /-- The word the chip drives, if it drives one. -/
  chip : Option (BitVec 16)
  /-- What is read from the bus when its level is not determined. -/
  undetermined : BitVec 16
deriving Repr, DecidableEq

/-- The accesses made in a cycle. A load sees the registers as they are during
the cycle, so it precedes the store. -/
def Cycle.actions (c : Cycle) : List IoAction :=
  (if c.load then [.load] else []) ++ (c.store.map .store).toList

/-- The run makes exactly the accesses of the script, in its order. -/
def Performs (l : List Cycle) (script : List IoAction) : Prop :=
  l.flatMap Cycle.actions = script

instance (l : List Cycle) (script : List IoAction) : Decidable (Performs l script) :=
  inferInstanceAs (Decidable (_ = _))

/-- A cycle with one access, in which the chip does not drive the bus. -/
def Cycle.of : IoAction → Cycle
  | .store st => ⟨false, some st, none, 0#16⟩
  | .load => ⟨true, none, none, 0#16⟩

/-- The run that makes one access of the script in each cycle. -/
def consecutive (script : List IoAction) : List Cycle := script.map Cycle.of

/-- The word on a bus with two drivers. It is undetermined when nobody drives
the bus, and when both do and disagree. -/
def resolve (undetermined : BitVec 16) : Option (BitVec 16) → Option (BitVec 16) → BitVec 16
  | some a, some b => if a = b then a else undetermined
  | some a, none => a
  | none, some b => b
  | none, none => undetermined

structure State where
  pio : Pio.Registers
  intf : HpiIoIntf.Registers
  /-- The local of `IO_read`. -/
  temp : BitVec 16
deriving Repr, DecidableEq

namespace State

def powerOn : State := ⟨.powerOn, .reset, 0#16⟩

/-- What the FPGA drives on `OTG_DATA`. -/
def driver (s : State) : Option (BitVec 16) := s.intf.otgDataDriver s.pio.w

/-- The word on `OTG_DATA`. -/
def otgData (c : Cycle) (s : State) : BitVec 16 := resolve c.undetermined s.driver c.chip

/-- The `Clk` edge that closes the cycle `c`. -/
def step (c : Cycle) (s : State) : State where
  pio := match c.store with
    | none => s.pio
    | some st => s.pio.write st
  intf := .clocked false s.pio (s.otgData c)
  temp := if c.load then s.intf.fromSwDataIn else s.temp

end State

/-- The state in cycle `k` of the run `l` from `s`. -/
def stateIn (s : State) (l : List Cycle) (k : Nat) : State := final State.step s (l.take k)

section Performs

variable {l m : List Cycle} {a b : List IoAction}

theorem Cycle.store?_actions (c : Cycle) :
    c.actions.filterMap IoAction.store? = c.store.toList := by
  obtain ⟨load, store, chip, undetermined⟩ := c
  cases load <;> cases store <;> rfl

/-- The PIO updates of a run are those of its script. -/
theorem Performs.updates (h : Performs l a) : l.filterMap Cycle.store = stores a := by
  rw [← h, stores, List.filterMap_flatMap, List.filterMap_eq_flatMap_toList]
  simp only [Cycle.store?_actions]

theorem Performs.append (h : Performs l a) (h' : Performs m b) : Performs (l ++ m) (a ++ b) := by
  rw [Performs, List.flatMap_append, h, h']

theorem performs_consecutive (script : List IoAction) : Performs (consecutive script) script := by
  induction script with
  | nil => rfl
  | cons a script ih =>
      rw [Performs, consecutive, List.map_cons, List.flatMap_cons]
      change _ ++ (consecutive script).flatMap Cycle.actions = _
      rw [ih]
      cases a <;> rfl

/-- A run samples the data port if its script does. -/
theorem Performs.exists_load (h : Performs l a) (hload : .load ∈ a) : ∃ c ∈ l, c.load = true := by
  rw [← h, List.mem_flatMap] at hload
  obtain ⟨c, hc, hmem⟩ := hload
  refine ⟨c, hc, ?_⟩
  obtain ⟨load, store, chip, undetermined⟩ := c
  cases load with
  | true => rfl
  | false => cases store <;> simp [Cycle.actions] at hmem

end Performs

section Run

variable {s : State} {l : List Cycle} {k : Nat}

/-- Only the updates of the script change the PIO registers. -/
theorem pio_writtenBy : WrittenBy State.step Cycle.store Pio.Registers.write State.pio := by
  intro c s
  simp only [State.step]
  cases c.store <;> rfl

@[simp] theorem stateIn_zero : stateIn s l 0 = s := rfl

theorem stateIn_length : stateIn s l l.length = final State.step s l := by
  rw [stateIn, List.take_length]

theorem stateIn_succ (hk : k < l.length) : stateIn s l (k + 1) = (stateIn s l k).step l[k] :=
  final_take_succ s l hk

/-- A run that starts where another one ends. -/
theorem stateIn_append (m : List Cycle) :
    stateIn s (l ++ m) (l.length + k) = stateIn (final State.step s l) m k := by
  rw [stateIn, List.take_length_add_append, final_append]
  rfl

theorem intf_succ (hk : k < l.length) :
    (stateIn s l (k + 1)).intf =
      .clocked false (stateIn s l k).pio ((stateIn s l k).otgData l[k]) := by
  rw [stateIn_succ hk]
  rfl

/-- The pins show the PIO registers of the cycle before. -/
theorem pins_succ (hk : k < l.length) :
    (stateIn s l (k + 1)).intf.pins = HpiIoIntf.pinsOf (stateIn s l k).pio := by
  rw [intf_succ hk]
  rfl

theorem otgCsN_succ (hk : k < l.length) :
    (stateIn s l (k + 1)).intf.otgCsN = (stateIn s l k).pio.cs :=
  congrArg HpiIoIntf.Pins.otgCsN (pins_succ hk)

theorem otgRdN_succ (hk : k < l.length) :
    (stateIn s l (k + 1)).intf.otgRdN = (stateIn s l k).pio.r :=
  congrArg HpiIoIntf.Pins.otgRdN (pins_succ hk)

theorem otgWrN_succ (hk : k < l.length) :
    (stateIn s l (k + 1)).intf.otgWrN = (stateIn s l k).pio.w :=
  congrArg HpiIoIntf.Pins.otgWrN (pins_succ hk)

/-- The PIO registers hold what the updates of the run have written. -/
theorem pio_final (s : State) (l : List Cycle) :
    (final State.step s l).pio = final Pio.Registers.write s.pio (l.filterMap Cycle.store) :=
  pio_writtenBy.final s l

/-- A relation along the updates of a run holds between the PIO registers of
each cycle and the next. -/
theorem pio_along {R : Pio.Registers → Pio.Registers → Prop}
    (hR : Along R Pio.Registers.write s.pio (l.filterMap Cycle.store)) (hk : k < l.length) :
    R (stateIn s l k).pio (stateIn s l (k + 1)).pio :=
  pio_writtenBy.along hR hk

theorem temp_succ (hk : k < l.length) :
    (stateIn s l (k + 1)).temp =
      if l[k].load then (stateIn s l k).intf.fromSwDataIn else (stateIn s l k).temp := by
  rw [stateIn_succ hk]
  rfl

/-- If every load of a run samples `word`, then so does `temp` from the first
load on. -/
theorem temp_of_load {word : BitVec 16}
    (hsample : ∀ k (hk : k < l.length), l[k].load = true →
      (stateIn s l k).intf.fromSwDataIn = word)
    {j : Nat} (hj : j < l.length) (hload : l[j].load = true) {k : Nat} (hjk : j < k)
    (hk : k ≤ l.length) : (stateIn s l k).temp = word := by
  induction k, hjk using Nat.le_induction with
  | base => rw [temp_succ hj, if_pos hload, hsample j hj hload]
  | succ k hjk ih =>
      rw [temp_succ hk]
      split
      · exact hsample k hk ‹_›
      · exact ih (Nat.le_of_succ_le hk)

end Run

end SpaceInvaders.Hpi
