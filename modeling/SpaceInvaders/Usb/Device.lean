import SpaceInvaders.Usb.Main

/-!
# Host and chip

A `Device` is what a result assumes about the chip: how it answers a read, what
a write does to it, and which steps it takes on its own. A run is an arbitrary
interleaving of host calls and chip events, as a stream of `Event`s.

The HPI address register belongs to the interface. It is set through `HPI_ADDR`
and advances by two with every access to `HPI_DATA`, so it turns a call into an
`Action` on a register or a memory word. Every run is `Located`: the host is
inside a block, and the address register is what the calls made so far of that
block have left in it. `hostStep_cases` reduces a host step to two cases, a
write inside a block or the last call of the block.
-/

namespace SpaceInvaders.Usb

open Machine

/-- What a call reaches on the chip. -/
inductive Register where
  | mailbox
  | status
  | address
  | memory (a : BitVec 16)
deriving Repr, DecidableEq

/-- The register behind a port while the address register holds `hpiAddr`. -/
def decode (hpiAddr : BitVec 16) (port : BitVec 8) : Register :=
  if port = HPI_DATA then .memory hpiAddr
  else if port = HPI_MAILBOX then .mailbox
  else if port = HPI_ADDR then .address
  else .status

/-- A call with its address resolved. -/
inductive Action where
  | read (r : Register)
  | write (r : Register) (word : BitVec 16)
  | publish
deriving Repr, DecidableEq

def Op.action (hpiAddr : BitVec 16) : Op → Action
  | .call (.write port word) => .write (decode hpiAddr port) word
  | .call (.read port) => .read (decode hpiAddr port)
  | .publish => .publish

/-- The address register after an action. -/
def Action.advance (hpiAddr : BitVec 16) : Action → BitVec 16
  | .write .address word => word
  | .write (.memory _) _ => hpiAddr + 2#16
  | .read (.memory _) => hpiAddr + 2#16
  | _ => hpiAddr

/-- The actions of some steps that begin with `hpiAddr` in the address register. -/
def actions : BitVec 16 → List Op → List Action
  | _, [] => []
  | hpiAddr, op :: ops =>
    op.action hpiAddr :: actions ((op.action hpiAddr).advance hpiAddr) ops

/-- The address register after some steps. -/
def advance : BitVec 16 → List Op → BitVec 16
  | hpiAddr, [] => hpiAddr
  | hpiAddr, op :: ops => advance ((op.action hpiAddr).advance hpiAddr) ops

section Actions

theorem actions_append (a : BitVec 16) (xs ys : List Op) :
    actions a (xs ++ ys) = actions a xs ++ actions (advance a xs) ys := by
  induction xs generalizing a with
  | nil => rfl
  | cons op xs ih => simp only [List.cons_append, actions, advance, ih]

theorem advance_append (a : BitVec 16) (xs ys : List Op) :
    advance a (xs ++ ys) = advance (advance a xs) ys := by
  induction xs generalizing a with
  | nil => rfl
  | cons op xs ih => exact ih _

end Actions

/-- A model of the chip: `O` is what it leaves open when it answers a read, `E`
what it does on its own. -/
structure Device (C O E : Type) where
  read : O → Register → C → BitVec 16 × C
  write : Register → BitVec 16 → C → C
  event : E → C → C

/-- Who takes the next step. -/
inductive Event (O E : Type) where
  | host (o : O)
  | chip (e : E)
deriving Repr, DecidableEq

/-- Host, interface, chip and the keycode PIO. -/
structure System (C : Type) where
  host : Host
  hpiAddr : BitVec 16
  chip : C
  keycode : BitVec 16
deriving Repr, DecidableEq

namespace System

variable {C : Type}

/-- Power-up with the chip in state `chip`. The PIO comes up with 0. -/
def start (chip : C) : System C := ⟨.start, 0#16, chip, 0#16⟩

/-- What the next host step does. -/
def action? (s : System C) : Option Action := s.host.todo.head?.map (Op.action s.hpiAddr)

end System

namespace Device

variable {C O E : Type}

/-- The value an action returns and the chip after it. -/
def perform (d : Device C O E) (o : O) : Action → C → BitVec 16 × C
  | .read r, chip => d.read o r chip
  | .write r word, chip => (0#16, d.write r word chip)
  | .publish, chip => (0#16, chip)

/-- The next call of the host. -/
def hostStep (d : Device C O E) (o : O) (s : System C) : System C :=
  match s.host.todo with
  | [] => s
  | op :: _ =>
    let action := op.action s.hpiAddr
    let result := d.perform o action s.chip
    { host := s.host.step result.1
      hpiAddr := action.advance s.hpiAddr
      chip := result.2
      keycode := if action = .publish then s.host.locals.keycode else s.keycode }

def step (d : Device C O E) (e : Event O E) (s : System C) : System C :=
  match e with
  | .host o => d.hostStep o s
  | .chip e => { s with chip := d.event e s.chip }

/-- The state after `n` steps of a run of `main`. -/
def run (d : Device C O E) (chip : C) (events : Nat → Event O E) (n : Nat) : System C :=
  stateAt d.step events (.start chip) n

end Device

/-! ## The actions of a block -/

/-- The stores of consecutive words. -/
def storeWords : BitVec 16 → List (BitVec 16) → List Action
  | _, [] => []
  | a, word :: words => .write (.memory a) word :: storeWords (a + 2#16) words

theorem mem_storeWords {a : BitVec 16} {words : List (BitVec 16)} {act : Action}
    (h : act ∈ storeWords a words) :
    ∃ i word, i < words.length ∧ act = .write (.memory (a + BitVec.ofNat 16 (2 * i))) word := by
  induction words generalizing a with
  | nil => exact absurd h List.not_mem_nil
  | cons w words ih =>
      obtain rfl | h := List.mem_cons.1 h
      · exact ⟨0, w, Nat.succ_pos _, by rw [Nat.mul_zero]; simp⟩
      · obtain ⟨i, word, hi, rfl⟩ := ih h
        refine ⟨i + 1, word, Nat.succ_lt_succ hi, ?_⟩
        rw [BitVec.add_assoc, Nat.mul_succ, Nat.add_comm, BitVec.ofNat_add]

theorem actions_stores (a : BitVec 16) (words : List (BitVec 16)) (rest : List Op) :
    actions a ((words.map fun word => Op.call (.write HPI_DATA word)) ++ rest) =
      storeWords a words ++ actions (a + BitVec.ofNat 16 (2 * words.length)) rest := by
  induction words generalizing a with
  | nil => simp [storeWords]
  | cons word words ih =>
      simp only [List.map_cons, List.cons_append, actions, storeWords, Op.action, Action.advance,
        decode, if_true, ih, List.length_cons]
      rw [BitVec.add_assoc, Nat.mul_succ, Nat.add_comm _ 2, BitVec.ofNat_add]

/-- A submission stores the words of the list and then its address. -/
theorem actions_submitList (a start : BitVec 16) (words : List (BitVec 16)) :
    actions a ((submitList start words).map .call) =
      .write .address start :: storeWords start words ++
        [.write .address HUSB_SIE1_pCurrentTDPtr,
          .write (.memory HUSB_SIE1_pCurrentTDPtr) start] := by
  simp only [submitList, usbWrite, List.map_cons, List.map_append, List.map_map, List.cons_append]
  rw [actions]
  exact congrArg _ (actions_stores start words _)

/-- What a block does last. -/
def Pc.lastAction : Pc → Action
  | .resetMailbox => .read .mailbox
  | .resetStatus => .read .status
  | .resetSie1 => .read (.memory HPI_SIE1_MSG_ADR)
  | .resetSie2 => .read (.memory HPI_SIE2_MSG_ADR)
  | .stepOne => .write .mailbox COMM_EXEC_INT
  | .stepOneStatus => .read .status
  | .stepOneMailbox => .read .mailbox
  | .stepOneError => .read .mailbox
  | .stepTwo => .write .mailbox COMM_EXEC_INT
  | .stepTwoMailbox => .read .mailbox
  | .stepTwoError => .read .mailbox
  | .detect | .detectRetry | .waitInsert => .read (.memory USB1_CTL_REG)
  | .submit _ | .resubmit _ => .write (.memory HUSB_SIE1_pCurrentTDPtr) 0x0500#16
  | .status _ => .read .status
  | .waitRead _ => .read (.memory HPI_SIE1_MSG_ADR)
  | .waitClear _ => .write (.memory HPI_SIE1_MSG_ADR) 0#16
  | .controlStatus _ => .read (.memory 0x0506#16)
  | .control _ => .read (.memory 0x0508#16)
  | .retryStatus => .read .status
  | .retryMsg => .read (.memory HPI_SIE1_MSG_ADR)
  | .retryClear => .write (.memory HPI_SIE1_MSG_ADR) 0#16
  | .retryPoll => .read .status
  | .retryCnt => .read (.memory 0x0508#16)
  | .deviceInfo => .read (.memory 0x056c#16)
  | .endpointDesc => .write (.memory HUSB_SIE1_pCurrentTDPtr) 0x0576#16
  | .dataSize => .read (.memory 0x057c#16)
  | .readKeycode => .read (.memory 0x051e#16)
  | .publish => .publish
  | .checkPlug | .plugRetry => .read (.memory USB1_CTL_REG)
  | .removed1 | .removed2 | .removed3 => .read (.memory USB1_CTL_REG)

/-- The memory words a block stores to before its last action. -/
def Pc.storesTo : Pc → BitVec 16 → Bool
  | .submit (.enumeration _), a | .resubmit (.enumeration _), a => 0x0500#16 ≤ a && a < 0x0580#16
  | .submit .polling, a | .resubmit .polling, a => 0x0500#16 ≤ a && a < 0x050c#16
  | .endpointDesc, a => 0x0576#16 ≤ a && a < 0x0580#16
  | .resetSie2, a => a == HPI_SIE1_MSG_ADR
  | .stepOne, a | .stepTwo, a => !(0x0500#16 ≤ a && a ≤ 0x05FF#16) && a != HUSB_SIE1_pCurrentTDPtr
  | _, _ => false

/-- What a block does before its last action. -/
def Pc.inner (pc : Pc) : Action → Bool
  | .write .address _ => true
  | .write .mailbox word => pc == .resetMailbox && word == COMM_RESET
  | .write (.memory a) _ => pc.storesTo a
  | _ => false

section Block

variable {a : BitVec 16} {l : Locals} {act : Action}

/-- Every stage submits a list at `0x0500` that ends before `0x0580`. -/
theorem Stage.exists_words (stage : Stage) :
    ∃ words, words.length ≤ 64 ∧ stage.build = submitList 0x0500#16 words := by
  cases stage <;> exact ⟨_, by decide, rfl⟩

theorem Job.exists_words (l : Locals) (job : Job) :
    ∃ words, words.length ≤ 64 ∧ job.build l = submitList 0x0500#16 words := by
  cases job with
  | enumeration stage => exact stage.exists_words
  | polling => exact ⟨_, Nat.le_of_ble_eq_true rfl, rfl⟩

theorem getLast?_actions_submitList (a start : BitVec 16) (words : List (BitVec 16)) :
    (actions a ((submitList start words).map .call)).getLast? =
      some (.write (.memory HUSB_SIE1_pCurrentTDPtr) start) := by
  rw [actions_submitList, List.getLast?_append]
  rfl

theorem getLast?_actions_build (a : BitVec 16) (l : Locals) (job : Job) :
    (actions a ((job.build l).map .call)).getLast? =
      some (.write (.memory HUSB_SIE1_pCurrentTDPtr) 0x0500#16) := by
  obtain ⟨words, -, hwords⟩ := job.exists_words l
  rw [hwords, getLast?_actions_submitList]

theorem getLast?_actions_block (a : BitVec 16) (l : Locals) (pc : Pc) :
    (actions a (block pc l)).getLast? = some pc.lastAction := by
  cases pc with
  | submit job => exact getLast?_actions_build a l job
  | resubmit job => exact getLast?_actions_build a l job
  | endpointDesc => exact getLast?_actions_submitList a _ _
  | _ => rfl

/-- Before its last action a submission sets an address or stores a word. -/
theorem mem_dropLast_submitList {a start : BitVec 16} {words : List (BitVec 16)}
    (h : act ∈ (actions a ((submitList start words).map .call)).dropLast) :
    (∃ word, act = .write .address word) ∨
      ∃ i word, i < words.length ∧
        act = .write (.memory (start + BitVec.ofNat 16 (2 * i))) word := by
  rw [actions_submitList, List.dropLast_append_of_ne_nil (List.cons_ne_nil _ _)] at h
  obtain h | h := List.mem_append.1 h
  · obtain rfl | h := List.mem_cons.1 h
    · exact .inl ⟨_, rfl⟩
    · exact .inr (mem_storeWords h)
  · exact .inl ⟨_, List.mem_singleton.1 h⟩

theorem inner_of_submitList {pc : Pc} {start : BitVec 16} {words : List (BitVec 16)}
    (hstore : ∀ i, i < words.length → pc.storesTo (start + BitVec.ofNat 16 (2 * i)) = true)
    (h : act ∈ (actions a ((submitList start words).map .call)).dropLast) :
    pc.inner act = true := by
  obtain ⟨word, rfl⟩ | ⟨i, word, hi, rfl⟩ := mem_dropLast_submitList h
  · rfl
  · exact hstore i hi

/-- The words of a list lie between its ends. -/
private theorem store_in_range (start : BitVec 16) {n i : Nat} (hi : i < n)
    (hn : start.toNat + 2 * n < 2 ^ 16) :
    (start ≤ start + BitVec.ofNat 16 (2 * i) &&
      start + BitVec.ofNat 16 (2 * i) < start + BitVec.ofNat 16 (2 * n)) = true := by
  simp only [Bool.and_eq_true, decide_eq_true_eq, BitVec.le_def, BitVec.lt_def, BitVec.toNat_add,
    BitVec.toNat_ofNat]
  omega

theorem inner_of_build {pc : Pc} {job : Job} (hpc : pc = .submit job ∨ pc = .resubmit job)
    (h : act ∈ (actions a ((job.build l).map .call)).dropLast) : pc.inner act = true := by
  cases job with
  | enumeration stage =>
      obtain ⟨words, hwords, hbuild⟩ := stage.exists_words
      rw [Job.build, hbuild] at h
      refine inner_of_submitList ?_ h
      intro i hi
      have hrange := store_in_range 0x0500#16 (Nat.lt_of_lt_of_le hi hwords) (by decide)
      obtain rfl | rfl := hpc <;> exact hrange
  | polling =>
      refine inner_of_submitList ?_ h
      intro i hi
      have hrange := store_in_range 0x0500#16 (i := i) (n := 6) hi (by decide)
      obtain rfl | rfl := hpc <;> exact hrange

/-- Without a submission, a block does not depend on locals and address register. -/
private theorem inner_of_closed {pc : Pc} (acts : List Action)
    (hacts : actions a (block pc l) = acts) (hinner : acts.dropLast.all pc.inner = true)
    (h : act ∈ (actions a (block pc l)).dropLast) : pc.inner act = true := by
  rw [hacts] at h
  exact List.all_eq_true.1 hinner act h

theorem inner_of_mem {pc : Pc} (h : act ∈ (actions a (block pc l)).dropLast) :
    pc.inner act = true := by
  cases pc with
  | submit job => exact inner_of_build (.inl rfl) h
  | resubmit job => exact inner_of_build (.inr rfl) h
  | endpointDesc =>
      refine inner_of_submitList ?_ h
      intro i hi
      exact store_in_range 0x0576#16 (i := i) (n := 5) hi (by decide)
  | stepOne =>
      exact inner_of_closed (actions 0#16 (block .stepOne ⟨0, 0, 0, 0, 0⟩)) rfl
        (by decide +kernel) h
  | stepTwo =>
      exact inner_of_closed (actions 0#16 (block .stepTwo ⟨0, 0, 0, 0, 0⟩)) rfl
        (by decide +kernel) h
  | _ => exact inner_of_closed _ rfl rfl h

theorem block_ne_nil (pc : Pc) (l : Locals) : block pc l ≠ [] := by
  intro h
  have hlast := getLast?_actions_block 0#16 l pc
  rw [h] at hlast
  cases hlast

end Block

/-! ## Runs -/

namespace Action

/-- A block is left with the value of its last action, if that is a read. -/
def isRead : Action → Bool
  | .read _ => true
  | _ => false

@[simp] theorem isRead_action (a : BitVec 16) (op : Op) : (op.action a).isRead = op.isRead := by
  cases op with
  | call c => cases c <;> rfl
  | publish => rfl

/-- The locals after an action that returns `v`. -/
def after (v : BitVec 16) (act : Action) (l : Locals) : Locals :=
  if act.isRead then { l with ioRead := v } else l

@[simp] theorem after_toggle (v : BitVec 16) (act : Action) (l : Locals) :
    (act.after v l).toggle = l.toggle := by
  unfold after
  split <;> rfl

@[simp] theorem after_read (v : BitVec 16) (r : Register) (l : Locals) :
    (read r).after v l = { l with ioRead := v } := rfl

@[simp] theorem after_write (v : BitVec 16) (r : Register) (word : BitVec 16) (l : Locals) :
    (write r word).after v l = l := rfl

@[simp] theorem after_publish (v : BitVec 16) (l : Locals) : publish.after v l = l := rfl

end Action

/-- The list pointer is written last in its block. -/
@[simp] theorem Pc.inner_pointer (pc : Pc) (p : BitVec 16) :
    pc.inner (.write (.memory HUSB_SIE1_pCurrentTDPtr) p) = false := by
  cases pc with
  | submit job => cases job <;> rfl
  | resubmit job => cases job <;> rfl
  | _ => rfl

theorem Pc.not_pointer_of_inner {pc : Pc} {act : Action} (h : pc.inner act = true)
    (p : BitVec 16) : act ≠ .write (.memory HUSB_SIE1_pCurrentTDPtr) p := by
  rintro rfl
  rw [Pc.inner_pointer] at h
  exact Bool.noConfusion h

/-- The blocks that submit a list, and the lists. -/
theorem Pc.lastAction_pointer {pc : Pc} {p : BitVec 16}
    (h : pc.lastAction = .write (.memory HUSB_SIE1_pCurrentTDPtr) p) :
    ((∃ job, pc = .submit job ∨ pc = .resubmit job) ∧ p = 0x0500#16) ∨
      (pc = .endpointDesc ∧ p = 0x0576#16) := by
  cases pc <;> simp_all [lastAction, HUSB_SIE1_pCurrentTDPtr, HPI_SIE1_MSG_ADR]

theorem Pc.lastAction_publish (pc : Pc) : pc.lastAction = .publish ↔ pc = .publish := by
  cases pc <;> simp [lastAction]

theorem Pc.not_isRead_of_inner {pc : Pc} {act : Action} (h : pc.inner act = true) :
    act.isRead = false := by
  cases act with
  | read r => exact Bool.noConfusion h
  | write r word => rfl
  | publish => rfl

namespace System

variable {C : Type}

/-- The host has made the calls `made` of its block, and they have left their
address in the address register. -/
structure Progress (s : System C) (a : BitVec 16) (made : List Op) : Prop where
  todo : s.host.todo ≠ []
  split : made ++ s.host.todo = block s.host.pc s.host.locals
  hpiAddr : s.hpiAddr = advance a made

theorem action?_of_cons {s : System C} {op : Op} {rest : List Op}
    (h : s.host.todo = op :: rest) : s.action? = some (op.action s.hpiAddr) := by
  rw [action?, h]
  rfl

namespace Progress

variable {s : System C} {a : BitVec 16} {made : List Op} {op : Op} {rest : List Op}

/-- The block is what has been made, the next call and the rest. -/
theorem actions_eq (h : s.Progress a made) (htodo : s.host.todo = op :: rest) :
    actions a (block s.host.pc s.host.locals) =
      actions a made ++ op.action s.hpiAddr ::
        actions ((op.action s.hpiAddr).advance s.hpiAddr) rest := by
  rw [← h.split, actions_append, htodo, ← h.hpiAddr, actions]

theorem last (h : s.Progress a made) (htodo : s.host.todo = [op]) :
    op.action s.hpiAddr = s.host.pc.lastAction := by
  have hlast := getLast?_actions_block a s.host.locals s.host.pc
  rw [h.actions_eq htodo, actions, List.getLast?_append] at hlast
  exact Option.some.inj hlast

theorem inner (h : s.Progress a made) (htodo : s.host.todo = op :: rest) (more : rest ≠ []) :
    s.host.pc.inner (op.action s.hpiAddr) = true := by
  refine inner_of_mem (a := a) (l := s.host.locals) ?_
  obtain ⟨op', rest', rfl⟩ := List.exists_cons_of_ne_nil more
  rw [h.actions_eq htodo, List.dropLast_append_of_ne_nil (List.cons_ne_nil _ _), actions,
    List.dropLast_cons_cons]
  exact List.mem_append_right _ List.mem_cons_self

end Progress

/-- The host is inside its block. -/
def Located (s : System C) : Prop := ∃ a made, s.Progress a made

/-- An action that no block makes on its way is the last one of its block. -/
theorem Located.last {s : System C} (h : s.Located) {act : Action} (hact : s.action? = some act)
    (hinner : s.host.pc.inner act = false) :
    s.host.pc.lastAction = act ∧ ∃ op, s.host.todo = [op] := by
  obtain ⟨a, made, h⟩ := h
  obtain ⟨op, rest, htodo⟩ := List.exists_cons_of_ne_nil h.todo
  rw [action?_of_cons htodo] at hact
  have hop := Option.some.inj hact
  cases rest with
  | nil => exact ⟨(h.last htodo).symm.trans hop, op, htodo⟩
  | cons op' rest =>
      have hinner' := h.inner htodo (List.cons_ne_nil _ _)
      rw [hop, hinner] at hinner'
      exact Bool.noConfusion hinner'

/-- A host in a block of one step is before that step. -/
theorem Located.todo_of_single {s : System C} (h : s.Located) {op : Op}
    (hblock : block s.host.pc s.host.locals = [op]) : s.host.todo = [op] := by
  obtain ⟨a, made, htodo, hsplit, -⟩ := h
  rw [hblock] at hsplit
  obtain ⟨-, h⟩ | ⟨-, h⟩ := List.append_eq_singleton_iff.1 hsplit
  · exact h
  · exact absurd h htodo

/-- At the head of a block. -/
theorem progress_enter (p : Pc × Locals) (a : BitVec 16) (chip : C) (keycode : BitVec 16) :
    (⟨.enter p, a, chip, keycode⟩ : System C).Progress a [] where
  todo := block_ne_nil _ _
  split := rfl
  hpiAddr := rfl

end System

namespace Device

variable {C O E : Type} {d : Device C O E} {s : System C}

/-- The two kinds of host steps. -/
inductive HostStep (d : Device C O E) (o : O) (s : System C) : Action → System C → Prop where
  /-- A write inside a block. -/
  | inner {op : Op} {rest : List Op} (todo : s.host.todo = op :: rest) (more : rest ≠ [])
      (inner : s.host.pc.inner (op.action s.hpiAddr) = true) :
    HostStep d o s (op.action s.hpiAddr)
      { host := ⟨s.host.pc, rest, s.host.locals⟩
        hpiAddr := (op.action s.hpiAddr).advance s.hpiAddr
        chip := (d.perform o (op.action s.hpiAddr) s.chip).2
        keycode := s.keycode }
  /-- The last call of a block, and the tests that follow it. -/
  | last {op : Op} (todo : s.host.todo = [op]) (last : op.action s.hpiAddr = s.host.pc.lastAction) :
    HostStep d o s s.host.pc.lastAction
      { host := .enter (next s.host.pc
          (s.host.pc.lastAction.after (d.perform o s.host.pc.lastAction s.chip).1 s.host.locals))
        hpiAddr := s.host.pc.lastAction.advance s.hpiAddr
        chip := (d.perform o s.host.pc.lastAction s.chip).2
        keycode := if s.host.pc.lastAction = .publish then s.host.locals.keycode else s.keycode }

theorem hostStep_cases (h : s.Located) (d : Device C O E) (o : O) :
    ∃ act, s.action? = some act ∧ d.HostStep o s act (d.hostStep o s) := by
  obtain ⟨a, made, h⟩ := h
  obtain ⟨op, rest, htodo⟩ := List.exists_cons_of_ne_nil h.todo
  refine ⟨op.action s.hpiAddr, System.action?_of_cons htodo, ?_⟩
  cases rest with
  | nil =>
      have hact := h.last htodo
      have hstep : d.hostStep o s =
          { host := .enter (next s.host.pc ((op.action s.hpiAddr).after
              (d.perform o (op.action s.hpiAddr) s.chip).1 s.host.locals))
            hpiAddr := (op.action s.hpiAddr).advance s.hpiAddr
            chip := (d.perform o (op.action s.hpiAddr) s.chip).2
            keycode := if op.action s.hpiAddr = .publish then s.host.locals.keycode
              else s.keycode } := by
        simp only [hostStep, htodo, Host.step, Host.after, Action.after, Action.isRead_action]
      rw [hstep, hact]
      exact .last htodo hact
  | cons op' rest =>
      have hinner := h.inner htodo (List.cons_ne_nil _ _)
      have hread := Pc.not_isRead_of_inner hinner
      have hpublish : op.action s.hpiAddr ≠ .publish := by
        intro hact
        rw [hact] at hinner
        exact Bool.noConfusion hinner
      rw [Action.isRead_action] at hread
      have hstep : d.hostStep o s =
          { host := ⟨s.host.pc, op' :: rest, s.host.locals⟩
            hpiAddr := (op.action s.hpiAddr).advance s.hpiAddr
            chip := (d.perform o (op.action s.hpiAddr) s.chip).2
            keycode := s.keycode } := by
        simp only [hostStep, htodo, Host.step, Host.after, hread, Bool.false_eq_true, if_false,
          if_neg hpublish]
      rw [hstep]
      exact .inner htodo (List.cons_ne_nil _ _) hinner

/-- A host step stays inside its block or goes to the head of the next. -/
theorem HostStep.located {o : O} {act : Action} {s' : System C} (h : s.Located)
    (hstep : d.HostStep o s act s') : s'.Located := by
  obtain ⟨a, made, -, hsplit, haddr⟩ := h
  cases hstep with
  | @inner op rest htodo more _ =>
      refine ⟨a, made ++ [op], more, ?_, ?_⟩
      · rw [List.append_assoc, List.singleton_append, ← htodo]
        exact hsplit
      · rw [advance_append, ← haddr]
        rfl
  | last => exact ⟨_, [], System.progress_enter _ _ _ _⟩

/-- A host step stays in its block, or its action is the last of the block. -/
theorem HostStep.pc_cases {o : O} {act : Action} {s' : System C} (h : d.HostStep o s act s') :
    (s'.host.pc = s.host.pc ∧ s.host.pc.inner act = true) ∨
      (s'.host.pc ∈ s.host.pc.succs ∧ act = s.host.pc.lastAction) := by
  cases h with
  | inner _ _ hinner => exact .inl ⟨rfl, hinner⟩
  | last => exact .inr ⟨next_mem_succs _ _, rfl⟩

/-- The chip after a host step. -/
theorem HostStep.chip_eq {o : O} {act : Action} {s' : System C} (h : d.HostStep o s act s') :
    s'.chip = (d.perform o act s.chip).2 := by
  cases h <;> rfl

/-- A block of one step is left by that step. -/
theorem HostStep.enter_of_single {o : O} {act : Action} {s' : System C}
    (hstep : d.HostStep o s act s') {op : Op} (htodo : s.host.todo = [op]) :
    s'.host = .enter (next s.host.pc (s.host.pc.lastAction.after
      (d.perform o s.host.pc.lastAction s.chip).1 s.host.locals)) := by
  cases hstep with
  | inner htodo' more =>
      rw [htodo] at htodo'
      exact absurd (List.cons.inj htodo').2.symm more
  | last => rfl

section Run

variable {chip : C} {events : Nat → Event O E}

theorem run_succ (n : Nat) :
    d.run chip events (n + 1) = d.step (events n) (d.run chip events n) := rfl

theorem run_succ_of_host {n : Nat} {o : O} (he : events n = .host o) :
    d.run chip events (n + 1) = d.hostStep o (d.run chip events n) := by
  rw [run_succ, he]
  rfl

theorem run_succ_of_chip {n : Nat} {e : E} (he : events n = .chip e) :
    d.run chip events (n + 1) =
      { d.run chip events n with chip := d.event e (d.run chip events n).chip } := by
  rw [run_succ, he]
  rfl

/-- In every run the host is inside its block. -/
theorem run_located (n : Nat) : (d.run chip events n).Located := by
  refine stateAt_invariant (P := fun _ (s : System C) => s.Located) ?_ ?_ n
  · exact ⟨_, [], System.progress_enter _ _ _ _⟩
  · intro n h
    cases events n with
    | chip e =>
        obtain ⟨a, made, h⟩ := h
        exact ⟨a, made, h.todo, h.split, h.hpiAddr⟩
    | host o =>
        obtain ⟨act, -, hstep⟩ := hostStep_cases h d o
        exact hstep.located h

/-- What a host step of a run can be. -/
theorem run_hostStep (d : Device C O E) (chip : C) {n : Nat} {o : O} (he : events n = .host o) :
    ∃ act, (d.run chip events n).action? = some act ∧
      d.HostStep o (d.run chip events n) act (d.run chip events (n + 1)) := by
  rw [run_succ_of_host he]
  exact hostStep_cases (run_located n) d o

/-- An invariant of all runs: it holds at power-up and is kept by the writes
inside a block, the ends of blocks and the chip. -/
theorem run_induction {P : Nat → System C → Prop} (init : P 0 (.start chip))
    (host : ∀ n o act s', events n = .host o → P n (d.run chip events n) →
      (d.run chip events n).action? = some act → d.HostStep o (d.run chip events n) act s' →
      P (n + 1) s')
    (event : ∀ n e, events n = .chip e → P n (d.run chip events n) →
      P (n + 1) { d.run chip events n with chip := d.event e (d.run chip events n).chip })
    (n : Nat) : P n (d.run chip events n) := by
  induction n with
  | zero => exact init
  | succ n ih =>
      cases he : events n with
      | chip e =>
          rw [run_succ_of_chip he]
          exact event n e he ih
      | host o =>
          obtain ⟨act, hact, hstep⟩ := run_hostStep d chip he
          exact host n o act _ he ih hact hstep

/-- Step `k` has taken the host into a region of the program, which it has not
left up to state `n`. -/
structure EnteredAt (d : Device C O E) (chip : C) (events : Nat → Event O E) (region : Pc → Prop)
    (n k : Nat) : Prop where
  before : k < n
  host : ∃ o, events k = .host o
  action : (d.run chip events k).action? = some (d.run chip events k).host.pc.lastAction
  succ : (d.run chip events (k + 1)).host.pc ∈ (d.run chip events k).host.pc.succs
  outside : ¬region (d.run chip events k).host.pc
  inside : ∀ i, k < i → i ≤ n → region (d.run chip events i).host.pc

/-- A host inside a region has entered it. -/
theorem exists_enteredAt {region : Pc → Prop} (hstart : ¬region .resetMailbox) {n : Nat}
    (h : region (d.run chip events n).host.pc) : ∃ k, EnteredAt d chip events region n k := by
  induction n with
  | zero => exact absurd h hstart
  | succ n ih =>
      by_cases hprev : region (d.run chip events n).host.pc
      · obtain ⟨k, hk⟩ := ih hprev
        refine ⟨k, Nat.lt_succ_of_lt hk.before, hk.host, hk.action, hk.succ, hk.outside, ?_⟩
        intro i hki hi
        obtain rfl | hlt := Nat.eq_or_lt_of_le hi
        · exact h
        · exact hk.inside i hki (Nat.le_of_lt_succ hlt)
      · cases he : events n with
        | chip e =>
            rw [run_succ_of_chip he] at h
            exact absurd h hprev
        | host o =>
            obtain ⟨act, hact, hstep⟩ := run_hostStep d chip he
            obtain ⟨hpc, -⟩ | ⟨hsucc, rfl⟩ := hstep.pc_cases
            · rw [hpc] at h
              exact absurd h hprev
            · refine ⟨n, Nat.lt_succ_self n, ⟨o, he⟩, hact, hsucc, hprev, ?_⟩
              intro i hni hi
              rw [Nat.le_antisymm hi hni]
              exact h

end Run

end Device

end SpaceInvaders.Usb
