import SpaceInvaders.Hpi.ChipView
import SpaceInvaders.Usb.Enumeration

/-!
# The program on the pins

The results about `main` are about a chip that performs the actions of the host
one by one. Here `main` runs on the bridge: each of its calls takes some cycles
in which the software makes the accesses of the call, at times it does not
control, and a read returns what the load of `IO_read` has found.

If the bus keeps its word, the samples are late and the chip puts on the bus
what a device would answer, then the host goes through the same states as with
that device, and the chip takes from its pins the same actions in the same order
(`run_onPins`).
-/

namespace SpaceInvaders.Usb

open Machine Software Hpi

/-! ## What the chip makes of its accesses -/

/-- An access with its address resolved. -/
def actionOf (hpiAddr : BitVec 16) : Access → Action
  | .read port => .read (decode hpiAddr (port.setWidth 8))
  | .write port word => .write (decode hpiAddr (port.setWidth 8)) word

/-- The actions of a chip whose address register holds `hpiAddr`. -/
def received : BitVec 16 → List Access → List Action
  | _, [] => []
  | hpiAddr, x :: xs =>
    actionOf hpiAddr x :: received ((actionOf hpiAddr x).advance hpiAddr) xs

/-- The call of a step, if it makes one. -/
def Op.call? : Op → Option Call
  | .call c => some c
  | .publish => none

/-- The accesses of a step to the PIO slaves of the bridge. -/
def Op.script (op : Op) : List IoAction := (op.call?.map Call.script).getD []

/-- A step calls a port of the chip or none. -/
def Op.OnPort (op : Op) : Prop := ∀ c, op.call? = some c → c.address.toNat < 4

section Ports

theorem onPort_map_call {calls : List Call} (h : ∀ c ∈ calls, c.address.toNat < 4) :
    ∀ op ∈ calls.map Op.call, op.OnPort := by
  intro op hop c hc
  obtain ⟨c', hc', rfl⟩ := List.mem_map.mp hop
  obtain rfl := Option.some.inj hc
  exact h _ hc'

theorem onPort_of_all {calls : List Call} (h : calls.all (·.address.toNat < 4) = true) :
    ∀ op ∈ calls.map Op.call, op.OnPort :=
  onPort_map_call fun c hc => of_decide_eq_true (List.all_eq_true.mp h c hc)

theorem onPort_submitList (start : BitVec 16) (words : List (BitVec 16)) :
    ∀ c ∈ submitList start words, c.address.toNat < 4 := by
  intro c hc
  simp only [submitList, usbWrite, List.cons_append, List.mem_cons, List.mem_append, List.mem_map,
    List.not_mem_nil, or_false] at hc
  obtain rfl | ⟨word, -, rfl⟩ | rfl | rfl := hc
  · exact (by decide : HPI_ADDR.toNat < 4)
  · exact (by decide : HPI_DATA.toNat < 4)
  · exact (by decide : HPI_ADDR.toNat < 4)
  · exact (by decide : HPI_DATA.toNat < 4)

/-- The program uses the four ports of the chip. -/
theorem onPort_of_mem {pc : Pc} {l : Locals} : ∀ op ∈ block pc l, op.OnPort := by
  cases pc with
  | submit job | resubmit job =>
      obtain ⟨words, -, hwords⟩ := job.exists_words l
      refine onPort_map_call ?_
      rw [calls, hwords]
      exact onPort_submitList _ _
  | endpointDesc => exact onPort_map_call (onPort_submitList _ _)
  | publish =>
      intro op hop c hc
      obtain rfl := List.mem_singleton.mp hop
      cases hc
  | _ => exact onPort_of_all rfl

end Ports

/-- The chip receives the actions of the steps on its ports, apart from the store to the PIO. -/
theorem received_calls {ops : List Op} (hports : ∀ op ∈ ops, op.OnPort) (hpiAddr : BitVec 16) :
    received hpiAddr ((ops.filterMap Op.call?).map accessOf) =
      (actions hpiAddr ops).filter (· ≠ .publish) := by
  induction ops generalizing hpiAddr with
  | nil => rfl
  | cons op ops ih =>
      have hrest := fun a => ih (fun op hop => hports op (List.mem_cons_of_mem _ hop)) a
      cases op with
      | publish => exact hrest hpiAddr
      | call c =>
          have haction : actionOf hpiAddr (accessOf c) = (Op.call c).action hpiAddr := by
            have hport : (c.address.setWidth 2).setWidth 8 = c.address := by
              have hlt := hports _ List.mem_cons_self c rfl
              apply BitVec.eq_of_toNat_eq
              rw [BitVec.toNat_setWidth, BitVec.toNat_setWidth]
              omega
            cases c with
            | write address data =>
                exact congrArg (fun a => Action.write (decode hpiAddr a) data) hport
            | read address =>
                exact congrArg (fun a => Action.read (decode hpiAddr a)) hport
          have hne : (Op.call c).action hpiAddr ≠ .publish := by
            cases c <;> exact Action.noConfusion
          rw [List.filterMap_cons_some (show (Op.call c).call? = some c from rfl), List.map_cons,
            received, haction, hrest, actions, List.filter_cons_of_pos (by simpa using hne)]

/-! ## Runs -/

namespace Enumeration

variable {values : Nat → BitVec 16} {n : Nat}

/-- What the host does in step `n`. -/
def opAt (values : Nat → BitVec 16) (n : Nat) : Option Op := (run values n).host.todo.head?

/-- What it has done before step `n`. -/
def opsBefore (values : Nat → BitVec 16) (n : Nat) : List Op :=
  (List.range n).filterMap (opAt values)

/-- Every step makes a call or stores to the PIO. -/
theorem exists_op (values : Nat → BitVec 16) (n : Nat) :
    ∃ op, opAt values n = some op ∧ op.OnPort ∧
      (run values (n + 1)).hpiAddr =
        (op.action (run values n).hpiAddr).advance (run values n).hpiAddr := by
  obtain ⟨a, made, htodo, hsplit, -⟩ : (run values n).Located := Device.run_located n
  obtain ⟨op, rest, hop⟩ := List.exists_cons_of_ne_nil htodo
  have hmem : op ∈ block (run values n).host.pc (run values n).host.locals := by
    rw [← hsplit, hop]
    exact List.mem_append_right _ List.mem_cons_self
  refine ⟨op, ?_, onPort_of_mem op hmem, ?_⟩
  · rw [opAt, hop]
    rfl
  · change (device.hostStep (values n) (run values n)).hpiAddr = _
    simp only [Device.hostStep, hop]

theorem filterMap_range_succ {α : Type} {f : Nat → Option α} {x : α} (hx : f n = some x) :
    (List.range (n + 1)).filterMap f = (List.range n).filterMap f ++ [x] := by
  rw [List.range_succ, List.filterMap_append, List.filterMap_cons_some hx]
  rfl

theorem opsBefore_succ {op : Op} (hop : opAt values n = some op) :
    opsBefore values (n + 1) = opsBefore values n ++ [op] := filterMap_range_succ hop

theorem opsBefore_onPort (values : Nat → BitVec 16) (n : Nat) :
    ∀ op ∈ opsBefore values n, op.OnPort := by
  intro op hop
  obtain ⟨k, -, hk⟩ := List.mem_filterMap.mp hop
  obtain ⟨op', hop', hport, -⟩ := exists_op values k
  obtain rfl := Option.some.inj (hk.symm.trans hop')
  exact hport

/-- The actions of the first steps, with the address register that they leave. -/
theorem actions_opsBefore (values : Nat → BitVec 16) (n : Nat) :
    actions 0#16 (opsBefore values n) = (List.range n).filterMap (fun k => (run values k).action?) ∧
      advance 0#16 (opsBefore values n) = (run values n).hpiAddr := by
  induction n with
  | zero => exact ⟨rfl, rfl⟩
  | succ n ih =>
      obtain ⟨op, hop, -, haddr⟩ := exists_op values n
      have haction : (run values n).action? = some (op.action (run values n).hpiAddr) := by
        rw [System.action?, show (run values n).host.todo.head? = some op from hop]
        rfl
      constructor
      · rw [opsBefore_succ hop, actions_append, ih.1, ih.2, filterMap_range_succ haction]
        rfl
      · rw [opsBefore_succ hop, advance_append, ih.2, haddr]
        rfl

/-- The cycles of the first steps. -/
def cyclesBefore (segments : Nat → List Cycle) : Nat → List Cycle
  | 0 => []
  | n + 1 => cyclesBefore segments n ++ segments n

/-- In the first `N` steps `main` runs on the bridge: step `n` takes the cycles
`segments n`, and a read returns what `IO_read` has loaded. -/
structure RunsOnPins (values : Nat → BitVec 16) (s : State) (segments : Nat → List Cycle)
    (N : Nat) : Prop where
  performs : ∀ n op, n < N → opAt values n = some op → Performs (segments n) op.script
  returns : ∀ n, n < N → values n =
    if (opAt values n).any Op.isRead then (final State.step s (cyclesBefore segments (n + 1))).temp
    else 0#16

/-- In the first `N` steps the chip puts on the bus what the device `d` would answer, and
the host samples it in time. -/
def Answers {C O E : Type} (d : Device C O E) (chip : C) (o : Nat → O) (s : State)
    (segments : Nat → List Cycle) (N : Nat) : Prop :=
  ∀ n, n < N → ∀ r, (d.run chip (fun n => .host (o n)) n).action? = some (.read r) →
    SampledLate (final State.step s (cyclesBefore segments n)) (segments n) ∧
      ChipDrives (final State.step s (cyclesBefore segments n)) (segments n)
        (d.read (o n) r (d.run chip (fun n => .host (o n)) n).chip).1

section Bridge

variable {C O E : Type} {d : Device C O E} {chip : C} {o : Nat → O} {s : State}
  {segments : Nat → List Cycle} {N : Nat}

/-- The cycles of the first steps make the calls of the first steps. -/
theorem RunsOnPins.performs_before (h : RunsOnPins values s segments N) (hn : n ≤ N) :
    Performs (cyclesBefore segments n) (scripts ((opsBefore values n).filterMap Op.call?)) := by
  induction n with
  | zero => rfl
  | succ n ih =>
      obtain ⟨op, hop, -, -⟩ := exists_op values n
      have hscript : scripts ((opsBefore values (n + 1)).filterMap Op.call?) =
          scripts ((opsBefore values n).filterMap Op.call?) ++ op.script := by
        rw [opsBefore_succ hop, List.filterMap_append, scripts, List.flatMap_append]
        congr 1
        cases op with
        | call c => exact List.append_nil _
        | publish => rfl
      rw [hscript]
      exact (ih (Nat.le_of_succ_le hn)).append (h.performs n op hn hop)

/-- Between two steps the bridge is idle. -/
theorem RunsOnPins.idle (h : RunsOnPins values s segments N) (hs : Idle s.pio) (hn : n ≤ N) :
    Idle (final State.step s (cyclesBefore segments n)).pio := by
  rw [pio_final, (h.performs_before hn).updates]
  exact hs.scripts _

/-- A step returns what the device would. -/
theorem RunsOnPins.value (h : RunsOnPins values s segments N) (hs : Idle s.pio)
    (hanswers : Answers d chip o s segments N) (hn : n < N)
    (hhost : (run values n).host = (d.run chip (fun n => .host (o n)) n).host) {act : Action}
    (hact : (d.run chip (fun n => .host (o n)) n).action? = some act) :
    values n = (d.perform (o n) act (d.run chip (fun n => .host (o n)) n).chip).1 := by
  obtain ⟨op, hop, -, -⟩ := exists_op values n
  have hread : op.isRead = act.isRead := by
    have haction : (d.run chip (fun n => .host (o n)) n).action? =
        some (op.action (d.run chip (fun n => .host (o n)) n).hpiAddr) := by
      rw [System.action?, ← hhost, show (run values n).host.todo.head? = some op from hop]
      rfl
    rw [← Option.some.inj (haction.symm.trans hact), Action.isRead_action]
  rw [h.returns n hn, hop, Option.any_some, hread]
  cases act with
  | write r word => rfl
  | publish => rfl
  | read r =>
      obtain ⟨hlate, hdrives⟩ := hanswers n hn r hact
      obtain ⟨a, rfl⟩ : ∃ a, op = .call (.read a) := by
        cases op with
        | publish => exact Bool.noConfusion hread
        | call c =>
            cases c with
            | write address data => exact Bool.noConfusion hread
            | read address => exact ⟨address, rfl⟩
      rw [Action.isRead, if_pos rfl, cyclesBefore, final_append]
      exact temp_ioRead (h.idle hs (Nat.le_of_lt hn)) (h.performs n _ hn hop) hlate hdrives

/-- The host cannot tell the chip on the pins from the device. -/
theorem RunsOnPins.host_eq (h : RunsOnPins values s segments N) (hs : Idle s.pio)
    (hanswers : Answers d chip o s segments N) (hn : n ≤ N) :
    (run values n).host = (d.run chip (fun n => .host (o n)) n).host ∧
      (run values n).hpiAddr = (d.run chip (fun n => .host (o n)) n).hpiAddr := by
  induction n with
  | zero => exact ⟨rfl, rfl⟩
  | succ n ih =>
      obtain ⟨hhost, haddr⟩ := ih (Nat.le_of_succ_le hn)
      exact hostStep_of_returned (s := d.run chip (fun n => .host (o n)) n) hhost haddr
        fun act hact => h.value hs hanswers hn hhost hact

/-- Running on the bridge, `main` goes through the states that it goes through
with the device, and the chip receives the same actions in the same order. -/
theorem run_onPins (d : Device C O E) (chip : C) (o : Nat → O) (s : State) {init : List Cycle}
    (hinit : Performs init ioInit) (hruns : RunsOnPins values (final State.step s init) segments N)
    (hanswers : Answers d chip o (final State.step s init) segments N)
    (hkeeps : BusKeeps (final State.step s init) (cyclesBefore segments N))
    (hyields : ChipYields (final State.step s init) (cyclesBefore segments N)) :
    (run values N).host = (d.run chip (fun n => .host (o n)) N).host ∧
      received 0#16 (accesses (final State.step s init) (cyclesBefore segments N)) =
        ((List.range N).filterMap fun k => (d.run chip (fun n => .host (o n)) k).action?).filter
          (· ≠ .publish) := by
  obtain ⟨hidle, hfirst⟩ := ready_ioInit s hinit
  refine ⟨(hruns.host_eq hidle hanswers (Nat.le_refl N)).1, ?_⟩
  rw [accesses_eq hidle hfirst (hruns.performs_before (Nat.le_refl N)) hkeeps hyields,
    received_calls (opsBefore_onPort values N), (actions_opsBefore values N).1]
  congr 1
  refine List.filterMap_congr fun k hk => ?_
  obtain ⟨hhost, haddr⟩ := hruns.host_eq hidle hanswers (Nat.le_of_lt (List.mem_range.mp hk))
  rw [System.action?, System.action?, hhost, haddr]

end Bridge

/-- The reset command and the read after it, on a bus that keeps its word. -/
def resetCycles : Nat → List Cycle
  | 0 =>
    [ ⟨false, some ⟨.cs, 0⟩, none, 0#16⟩,
      ⟨false, some ⟨.r, 1⟩, none, 0#16⟩,
      ⟨false, some ⟨.address, 1⟩, none, 0#16⟩,
      ⟨false, some ⟨.data, 0xFA50⟩, none, 0#16⟩,
      ⟨false, some ⟨.w, 0⟩, none, 0#16⟩,
      ⟨false, some ⟨.w, 1⟩, none, 0#16⟩,
      ⟨false, some ⟨.cs, 1⟩, none, 0xFA50#16⟩ ]
  | 1 =>
    [ ⟨false, some ⟨.cs, 0⟩, none, 0xFA50#16⟩,
      ⟨false, some ⟨.w, 1⟩, none, 0xFA50#16⟩,
      ⟨false, some ⟨.address, 1⟩, none, 0xFA50#16⟩,
      ⟨false, some ⟨.r, 0⟩, none, 0xFA50#16⟩,
      ⟨false, none, none, 0xFA50#16⟩,
      ⟨false, none, some COMM_ACK, 0#16⟩,
      ⟨true, none, some COMM_ACK, 0#16⟩,
      ⟨false, some ⟨.r, 1⟩, some COMM_ACK, 0#16⟩,
      ⟨false, some ⟨.cs, 1⟩, some COMM_ACK, 0#16⟩ ]
  | _ => []

/-- What the two steps return. -/
def resetValues (n : Nat) : BitVec 16 := if n = 1 then COMM_ACK else 0#16

/-- The first two steps of `main` after power-on. -/
theorem run_onPins_reset :
    (run resetValues 2).host = (device.run () (fun _ => .host COMM_ACK) 2).host ∧
      received 0#16 (accesses (final State.step .powerOn (consecutive ioInit))
          (cyclesBefore resetCycles 2)) =
        ((List.range 2).filterMap fun k =>
          (device.run () (fun _ => .host COMM_ACK) k).action?).filter (· ≠ .publish) := by
  refine run_onPins device () (fun _ => COMM_ACK) .powerOn (performs_consecutive ioInit)
    ⟨?_, ?_⟩ ?_ ?_ ?_
  · intro n op hn hop
    obtain rfl | rfl : n = 0 ∨ n = 1 := by omega
    · obtain rfl := Option.some.inj hop
      decide
    · obtain rfl := Option.some.inj hop
      decide
  · intro n hn
    obtain rfl | rfl : n = 0 ∨ n = 1 := by omega
    · decide
    · decide
  · intro n hn r hact
    obtain rfl | rfl : n = 0 ∨ n = 1 := by omega
    · have hwrite : some (Action.write .mailbox COMM_RESET) = some (.read r) := hact
      cases hwrite
    · constructor
      · unfold SampledLate
        decide
      · change ChipDrives _ _ COMM_ACK
        unfold ChipDrives
        decide
  · unfold BusKeeps
    decide
  · unfold ChipYields
    decide

end Enumeration

end SpaceInvaders.Usb
