import SpaceInvaders.Usb.Device

/-!
# What the host touches

The host reaches the whole memory of the chip through one address register that
advances by itself, so an access after a forgotten or stale address would go
anywhere. In no run does this happen: each block sets the address before its
first memory access and does the same wherever the register stood before, and
all accesses stay within a fixed list of registers and the buffer area.
-/

namespace SpaceInvaders.Usb

/-- The area of the transfer lists and their buffers. -/
def inListArea (a : BitVec 16) : Bool := 0x0500#16 ≤ a && a < 0x0580#16

/-- The arguments of a mailbox command. -/
def inCommandArea (a : BitVec 16) : Bool := COMM_R 0 ≤ a && a ≤ COMM_R 13

/-- The registers that the host writes, besides these areas and the list pointer. -/
def controlRegisters : List (BitVec 16) :=
  [HPI_SIE1_MSG_ADR, HPI_SIE2_MSG_ADR, HOST1_STAT_REG, HOST2_STAT_REG, HUSB_pEOT,
    HPI_IRQ_ROUTING_REG, HOST1_IRQ_EN_REG, COMM_INT_NUM]

/-- The words that the host reads. -/
def readWords : List (BitVec 16) :=
  [HPI_SIE1_MSG_ADR, HPI_SIE2_MSG_ADR, USB1_CTL_REG, 0x0506#16, 0x0508#16, 0x051E#16, 0x056C#16,
    0x057C#16]

/-- What the host may write to a word of the memory. -/
def writesWord (a word : BitVec 16) : Bool :=
  if a = HUSB_SIE1_pCurrentTDPtr then word = 0x0500#16 || word = 0x0576#16
  else inListArea a || inCommandArea a || controlRegisters.contains a

/-- The actions the program is allowed. -/
def Action.allowed : Action → Bool
  | .read .mailbox | .read .status => true
  | .read (.memory a) => readWords.contains a
  | .read .address => false
  | .write .mailbox word => word = COMM_RESET || word = COMM_EXEC_INT
  | .write .status _ => false
  | .write .address a => readWords.contains a || writesWord a 0x0500#16
  | .write (.memory a) word => writesWord a word
  | .publish => true

section Block

variable {a : BitVec 16} {l : Locals} {act : Action}

theorem writesWord_of_inListArea {b : BitVec 16} (h : inListArea b = true) (word : BitVec 16) :
    writesWord b word = true := by
  have hne : b ≠ HUSB_SIE1_pCurrentTDPtr := by
    rintro rfl
    exact absurd h (by decide)
  rw [writesWord, if_neg hne, h]
  rfl

/-- A list in the area is submitted with allowed actions. -/
theorem allowed_submitList {start : BitVec 16} {words : List (BitVec 16)}
    (hstart : start = 0x0500#16 ∨ start = 0x0576#16)
    (harea : ∀ i, i < words.length → inListArea (start + BitVec.ofNat 16 (2 * i)) = true)
    (h : act ∈ actions a ((submitList start words).map .call)) : act.allowed = true := by
  rw [actions_submitList] at h
  obtain h | h := List.mem_append.mp h
  · obtain rfl | h := List.mem_cons.mp h
    · obtain rfl | rfl := hstart <;> rfl
    · obtain ⟨i, word, hi, rfl⟩ := mem_storeWords h
      exact writesWord_of_inListArea (harea i hi) word
  · obtain rfl | h := List.mem_cons.mp h
    · rfl
    · obtain rfl := List.mem_singleton.mp h
      obtain rfl | rfl := hstart <;> rfl

/-- The words of a list in the area. -/
theorem inListArea_of_lt {n i : Nat} (hi : i < n) (hn : n ≤ 64) :
    inListArea (0x0500#16 + BitVec.ofNat 16 (2 * i)) = true := by
  simp only [inListArea, Bool.and_eq_true, decide_eq_true_eq, BitVec.le_def, BitVec.lt_def,
    BitVec.toNat_add, BitVec.toNat_ofNat]
  omega

theorem allowed_of_all {pc : Pc} (acts : List Action) (hacts : actions a (block pc l) = acts)
    (hall : acts.all Action.allowed = true) (h : act ∈ actions a (block pc l)) :
    act.allowed = true := by
  rw [hacts] at h
  exact List.all_eq_true.mp hall act h

/-- Every action of a block is allowed, wherever the address register stands. -/
theorem allowed_of_mem {pc : Pc} (h : act ∈ actions a (block pc l)) : act.allowed = true := by
  cases pc with
  | submit job | resubmit job =>
      obtain ⟨words, hwords, hbuild⟩ := job.exists_words l
      change act ∈ actions a ((job.build l).map .call) at h
      rw [hbuild] at h
      exact allowed_submitList (.inl rfl) (fun i hi => inListArea_of_lt hi hwords) h
  | endpointDesc =>
      refine allowed_submitList (.inr rfl) ?_ h
      decide
  | stepOne =>
      exact allowed_of_all (actions 0#16 (block .stepOne ⟨0, 0, 0, 0, 0⟩)) rfl (by decide +kernel) h
  | stepTwo =>
      exact allowed_of_all (actions 0#16 (block .stepTwo ⟨0, 0, 0, 0, 0⟩)) rfl (by decide +kernel) h
  | _ => exact allowed_of_all _ rfl rfl h

/-- A block does not depend on the address register. -/
theorem actions_block_eq (pc : Pc) (l : Locals) (a b : BitVec 16) :
    actions a (block pc l) = actions b (block pc l) := by
  cases pc with
  | submit job | resubmit job =>
      obtain ⟨words, -, hbuild⟩ := job.exists_words l
      change actions a ((job.build l).map .call) = actions b ((job.build l).map .call)
      rw [hbuild, actions_submitList, actions_submitList]
  | endpointDesc => exact (actions_submitList a _ _).trans (actions_submitList b _ _).symm
  | _ => rfl

end Block

/-- The host is confined to its footprint. -/
structure Confined {C : Type} (s : System C) : Prop where
  allowed : ∀ act, s.action? = some act → act.allowed = true
  /-- At the head of a block, the address register does not matter for what the block does. -/
  fresh : s.host.todo = block s.host.pc s.host.locals →
    ∀ a, actions a s.host.todo = actions s.hpiAddr s.host.todo

/-- In every run, with any chip, the host stays within its footprint. -/
theorem run_confined {C O E : Type} (d : Device C O E) (chip : C) (events : Nat → Event O E)
    (n : Nat) : Confined (d.run chip events n) := by
  obtain ⟨a, made, hprogress⟩ : (d.run chip events n).Located := Device.run_located n
  constructor
  · intro act hact
    obtain ⟨op, rest, htodo⟩ := List.exists_cons_of_ne_nil hprogress.todo
    rw [System.action?_of_cons htodo] at hact
    obtain rfl := Option.some.inj hact
    have hmem := hprogress.actions_eq htodo
    exact allowed_of_mem (hmem ▸ List.mem_append_right _ List.mem_cons_self)
  · intro hhead b
    rw [hhead]
    exact actions_block_eq _ _ _ _

end SpaceInvaders.Usb
