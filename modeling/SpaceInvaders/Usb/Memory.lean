import SpaceInvaders.Usb.Device

/-!
# The memory of the chip

The device of the results about transfer lists. The chip may answer every read
as it likes and store anything in its memory, received data as well as results
in the descriptors of earlier lists. The memory changes at reads of the host:
what the chip stores between two reads is visible from the second one on. A host
that writes a list makes no read before it has submitted it, so this assumes that
nothing but the host writes to a list before its submission.
-/

namespace SpaceInvaders.Usb

open Machine

/-- A word for each even address. -/
abbrev Memory : Type := BitVec 16 → BitVec 16

/-- What the chip shows at a read. -/
structure Response where
  mailbox : BitVec 16
  status : BitVec 16
  memory : Memory

def memoryChip : Device Memory Response Empty where
  read o r _ :=
    match r with
    | .mailbox => (o.mailbox, o.memory)
    | .status => (o.status, o.memory)
    | .address => (0#16, o.memory)
    | .memory a => (o.memory a, o.memory)
  write r word mem :=
    match r with
    | .memory a => Function.update mem a word
    | _ => mem
  event e _ := nomatch e

/-- A chip that acknowledges commands, always has a message pending and reports
success of every list. `lines` is the state of the data lines, `word` is at `0x0580`. -/
def cooperative (lines word : BitVec 16) : Response where
  mailbox := COMM_ACK
  status := HPI_STATUS_SIE1msg_FLAG
  memory a :=
    if a = HPI_SIE1_MSG_ADR then HUSB_TDListDone
    else if a = 0x0508#16 then 0x0003#16
    else if a = USB1_CTL_REG then lines
    else if a = 0x0580#16 then word
    else 0#16

/-- The effect of an action of the host on the memory. -/
def Action.store (mem : Memory) : Action → Memory
  | .write (.memory a) word => Function.update mem a word
  | _ => mem

/-- The memory after some actions of the host. -/
def storeAll (mem : Memory) : List Action → Memory
  | [] => mem
  | act :: acts => storeAll (act.store mem) acts

theorem storeAll_append (mem : Memory) (xs ys : List Action) :
    storeAll mem (xs ++ ys) = storeAll (storeAll mem xs) ys := by
  induction xs generalizing mem with
  | nil => rfl
  | cons act xs ih => exact ih _

theorem memoryChip_perform (mem : Memory) (o : Response) {act : Action}
    (h : act.isRead = false) : (memoryChip.perform o act mem).2 = act.store mem := by
  cases act with
  | read r => exact Bool.noConfusion h
  | write r word => cases r <;> rfl
  | publish => rfl

section Words

variable {start a : BitVec 16} {words : List (BitVec 16)}

/-- Stored words leave the other addresses alone. -/
theorem storeAll_storeWords_of_lt (mem : Memory) (ha : a.toNat < start.toNat)
    (hfit : start.toNat + 2 * words.length < 2 ^ 16) :
    storeAll mem (storeWords start words) a = mem a := by
  induction words generalizing mem start with
  | nil => rfl
  | cons word words ih =>
      rw [List.length_cons] at hfit
      have hnext : (start + 2#16).toNat = start.toNat + 2 := by
        rw [BitVec.toNat_add_of_lt (by simp only [BitVec.toNat_ofNat]; omega)]
        rfl
      have hne : a ≠ start := fun h => absurd (congrArg BitVec.toNat h) (Nat.ne_of_lt ha)
      rw [storeWords, storeAll, ih _ (by omega) (by omega)]
      exact Function.update_of_ne hne word mem

/-- Word `i` of a list. -/
theorem storeAll_storeWords (mem : Memory) {i : Nat} (hi : i < words.length)
    (hfit : start.toNat + 2 * words.length < 2 ^ 16) :
    storeAll mem (storeWords start words) (start + BitVec.ofNat 16 (2 * i)) = words[i] := by
  induction words generalizing mem start i with
  | nil => exact absurd hi (Nat.not_lt_zero i)
  | cons word words ih =>
      rw [List.length_cons] at hfit
      have hnext : (start + 2#16).toNat = start.toNat + 2 := by
        rw [BitVec.toNat_add_of_lt (by simp only [BitVec.toNat_ofNat]; omega)]
        rfl
      cases i with
      | zero =>
          have hzero : start + BitVec.ofNat 16 (2 * 0) = start := BitVec.add_zero start
          rw [hzero, storeWords, storeAll, storeAll_storeWords_of_lt _ (by omega) (by omega)]
          exact Function.update_self start word mem
      | succ i =>
          have haddr : start + BitVec.ofNat 16 (2 * (i + 1)) =
              start + 2#16 + BitVec.ofNat 16 (2 * i) := by
            rw [BitVec.add_assoc, Nat.mul_succ, Nat.add_comm, BitVec.ofNat_add]
          rw [haddr, storeWords, storeAll, ih _ (Nat.lt_of_succ_lt_succ hi) (by omega)]
          rfl

end Words

section Run

variable {mem : Memory} {events : Nat → Event Response Empty}

/-- The host has made some calls of its block, and they have left their words in
the memory. -/
def Built (s : System Memory) : Prop :=
  ∃ a made mem, s.Progress a made ∧ s.chip = storeAll mem (actions a made)

theorem Built.located {s : System Memory} (h : Built s) : s.Located := by
  obtain ⟨a, made, -, hprogress, -⟩ := h
  exact ⟨a, made, hprogress⟩

theorem run_built (n : Nat) : Built (memoryChip.run mem events n) := by
  refine Device.run_induction (P := fun _ s => Built s) ?_ ?_ ?_ n
  · exact ⟨_, [], _, System.progress_enter _ _ _ _, rfl⟩
  · rintro n o act s' - ⟨a, made, mem, ⟨-, hsplit, haddr⟩, hchip⟩ - hstep
    cases hstep with
    | @inner op rest htodo more hinner =>
        refine ⟨a, made ++ [op], mem, ⟨more, ?_, ?_⟩, ?_⟩
        · rw [List.append_assoc, List.singleton_append, ← htodo]
          exact hsplit
        · rw [advance_append, ← haddr]
          rfl
        · rw [actions_append, storeAll_append, ← hchip, ← haddr,
            memoryChip_perform _ o (Pc.not_isRead_of_inner hinner)]
          rfl
    | last => exact ⟨_, [], _, System.progress_enter _ _ _ _, rfl⟩
  · intro n e
    exact e.elim

/-- When the host submits a list, the memory holds the words of the list. -/
theorem Built.submission {s : System Memory} (h : Built s) {start p : BitVec 16}
    {words : List (BitVec 16)}
    (hblock : block s.host.pc s.host.locals = (submitList start words).map .call)
    (hact : s.action? = some (.write (.memory HUSB_SIE1_pCurrentTDPtr) p)) :
    ∃ mem, s.chip = storeAll mem (storeWords start words) := by
  obtain ⟨a, made, mem, hprogress, hchip⟩ := h
  obtain ⟨-, op, htodo⟩ := System.Located.last ⟨a, made, hprogress⟩ hact (Pc.inner_pointer _ _)
  have hactions := hprogress.actions_eq htodo
  rw [hblock, actions_submitList, actions, List.append_cons] at hactions
  obtain ⟨hmade, -⟩ := List.append_inj' hactions rfl
  refine ⟨mem, ?_⟩
  rw [hchip, ← hmade, storeAll_append]
  rfl

end Run

end SpaceInvaders.Usb
