import SpaceInvaders.Usb.Memory
import SpaceInvaders.Machine.Chain
import Mathlib.Data.List.Pairwise

/-!
# Submitted pointers head well-formed lists

The words of a transfer list are written by hand, with the addresses of the
next descriptor and of the buffers in them. `WellFormed` states what the chip
needs of a list, and `run_wellFormed` that the host never submits anything else
as long as the word at `0x0580` is 0 when it submits the pointer `0x0576`.

That pointer is the exception. Between steps 6 and 7 `main` writes five words of
an endpoint descriptor at `0x0576` and submits them as a list. The sixth word,
the address of the next descriptor, is whatever the chip has at `0x0580`.
-/

namespace SpaceInvaders.Usb

open Machine

/-- A transfer descriptor and its address. -/
structure TransferDescriptor where
  address : BitVec 16
  buffer : BitVec 16
  length : BitVec 16
  /-- PID, endpoint and device address. -/
  token : BitVec 16
  control : BitVec 16
  retry : BitVec 16
  next : BitVec 16
deriving Repr, DecidableEq

/-- Two ranges of addresses, each without its end, have nothing in common. -/
def Apart (x y : Nat × Nat) : Prop := x.2 ≤ y.1 ∨ y.2 ≤ x.1

instance (x y : Nat × Nat) : Decidable (Apart x y) := inferInstanceAs (Decidable (_ ∨ _))

namespace TransferDescriptor

/-- The six words at an address. -/
def load (mem : Memory) (a : BitVec 16) : TransferDescriptor where
  address := a
  buffer := mem a
  length := mem (a + 2#16)
  token := mem (a + 4#16)
  control := mem (a + 6#16)
  retry := mem (a + 8#16)
  next := mem (a + 10#16)

/-- The bytes of the descriptor. -/
def extent (td : TransferDescriptor) : Nat × Nat := (td.address.toNat, td.address.toNat + 12)

/-- The bytes of its buffer. -/
def bufferExtent (td : TransferDescriptor) : Nat × Nat :=
  (td.buffer.toNat, td.buffer.toNat + td.length.toNat)

/-- The descriptor begins at an even address of the TD area. -/
def InArea (td : TransferDescriptor) : Prop :=
  td.address.toNat % 2 = 0 ∧ 0x0500 ≤ td.address.toNat ∧ td.address.toNat ≤ 0x05FF

instance (td : TransferDescriptor) : Decidable td.InArea :=
  inferInstanceAs (Decidable (_ ∧ _))

end TransferDescriptor

open TransferDescriptor (load)

/-- The descriptors of a list and their buffers do not get in each other's way. -/
structure Layout (tds : List TransferDescriptor) : Prop where
  inArea : ∀ td ∈ tds, td.InArea
  apart : tds.Pairwise fun t u => Apart t.extent u.extent
  buffersApart : (tds.filter fun td => td.length ≠ 0#16).Pairwise fun t u =>
    Apart t.bufferExtent u.bufferExtent
  buffersOutside : ∀ t ∈ tds, t.length ≠ 0#16 → ∀ u ∈ tds, Apart t.bufferExtent u.extent

theorem layout_iff (tds : List TransferDescriptor) :
    Layout tds ↔
      (∀ td ∈ tds, td.InArea) ∧ (tds.Pairwise fun t u => Apart t.extent u.extent) ∧
        ((tds.filter fun td => td.length ≠ 0#16).Pairwise fun t u =>
          Apart t.bufferExtent u.bufferExtent) ∧
        ∀ t ∈ tds, t.length ≠ 0#16 → ∀ u ∈ tds, Apart t.bufferExtent u.extent :=
  ⟨fun h => ⟨h.1, h.2, h.3, h.4⟩, fun h => ⟨h.1, h.2.1, h.2.2.1, h.2.2.2⟩⟩

instance (tds : List TransferDescriptor) : Decidable (Layout tds) :=
  decidable_of_iff' _ (layout_iff tds)

/-- The memory holds a well-formed list from `p` on. -/
def WellFormed (mem : Memory) (p : BitVec 16) : Prop :=
  ∃ tds, tds ≠ [] ∧ IsChain (load mem) TransferDescriptor.next 0#16 p tds ∧ Layout tds

section Check

/-- The words stored from `start` on, as a partial memory. -/
def stored (start : BitVec 16) (words : List (BitVec 16)) (a : BitVec 16) : Option (BitVec 16) :=
  if (a - start).toNat % 2 = 0 then words[(a - start).toNat / 2]? else none

/-- The descriptor at an address, if all its words are known. -/
def load? (mem? : BitVec 16 → Option (BitVec 16)) (a : BitVec 16) : Option TransferDescriptor := do
  let buffer ← mem? a
  let length ← mem? (a + 2#16)
  let token ← mem? (a + 4#16)
  let control ← mem? (a + 6#16)
  let retry ← mem? (a + 8#16)
  let next ← mem? (a + 10#16)
  return { address := a, buffer, length, token, control, retry, next }

/-- The words alone make a well-formed list. -/
def checkWords (start : BitVec 16) (words : List (BitVec 16)) : Bool :=
  match follow (load? (stored start words)) TransferDescriptor.next 0#16 16 start with
  | some tds => !tds.isEmpty && decide (Layout tds)
  | none => false

variable {mem : Memory} {start : BitVec 16}

theorem load_of_load? {mem? : BitVec 16 → Option (BitVec 16)}
    (h : ∀ a word, mem? a = some word → mem a = word) (a : BitVec 16) (td : TransferDescriptor)
    (htd : load? mem? a = some td) : load mem a = td := by
  simp only [load?, Option.bind_eq_bind, Option.bind_eq_some_iff, Option.pure_def,
    Option.some.injEq] at htd
  obtain ⟨_, hbuffer, _, hlength, _, htoken, _, hcontrol, _, hretry, _, hnext, rfl⟩ := htd
  simp only [load, h _ _ hbuffer, h _ _ hlength, h _ _ htoken, h _ _ hcontrol, h _ _ hretry,
    h _ _ hnext]

/-- A memory with the words of a checked list has a well-formed list. -/
theorem wellFormed_of_check (words : List (BitVec 16))
    (h : ∀ a word, stored start words a = some word → mem a = word)
    (hcheck : checkWords start words = true) : WellFormed mem start := by
  unfold checkWords at hcheck
  split at hcheck
  · next tds htds =>
    simp only [Bool.and_eq_true, Bool.not_eq_true', List.isEmpty_eq_false_iff,
      decide_eq_true_eq] at hcheck
    exact ⟨tds, hcheck.1, isChain_of_follow (load_of_load? h) htds, hcheck.2⟩
  · exact Bool.noConfusion hcheck

/-- Stored words can be read back. -/
theorem storeAll_of_stored (mem : Memory) {words : List (BitVec 16)}
    (hfit : start.toNat + 2 * words.length < 2 ^ 16) (a word : BitVec 16)
    (h : stored start words a = some word) : storeAll mem (storeWords start words) a = word := by
  unfold stored at h
  split at h
  · next heven =>
    obtain ⟨hi, rfl⟩ := List.getElem?_eq_some_iff.1 h
    rw [← storeAll_storeWords mem hi hfit]
    congr 1
    have hlt := a.isLt
    bv_omega
  · cases h

/-- A list with one more word. -/
theorem stored_concat {words : List (BitVec 16)} {last a word : BitVec 16}
    (h : stored start (words ++ [last]) a = some word) :
    stored start words a = some word ∨
      a = start + BitVec.ofNat 16 (2 * words.length) ∧ word = last := by
  unfold stored at h ⊢
  split at h
  · next heven =>
    rw [if_pos heven]
    rw [List.getElem?_append] at h
    split at h
    · exact .inl h
    · obtain ⟨hi, rfl⟩ := List.getElem?_eq_some_iff.1 h
      rw [List.length_singleton] at hi
      refine .inr ⟨?_, List.getElem_singleton _⟩
      have hlt := a.isLt
      bv_omega
  · cases h

end Check

/-! ## The lists of the program -/

/-- The list of each stage is well formed, whatever the memory held before. -/
theorem Stage.exists_checked (stage : Stage) :
    ∃ words, words.length ≤ 64 ∧ stage.build = submitList 0x0500#16 words ∧
      checkWords 0x0500#16 words = true := by
  cases stage <;> exact ⟨_, by decide, rfl, by decide +kernel⟩

/-- So is the descriptor of a poll, for every length and control word it can have. -/
theorem checkWords_poll (toggle dataSize : BitVec 8) :
    checkWords 0x0500#16 (pollWords toggle dataSize) = true := by
  have hlength : 0x000f#16 &&& dataSize.setWidth 16 =
      BitVec.ofNat 16 (⟨dataSize.toNat % 16, Nat.mod_lt _ (by decide)⟩ : Fin 16) := by
    apply BitVec.eq_of_toNat_eq
    rw [BitVec.toNat_and, Nat.and_comm, BitVec.toNat_setWidth]
    have hmask : dataSize.toNat % 2 ^ 16 &&& (0x000f#16).toNat = dataSize.toNat % 2 ^ 16 % 2 ^ 4 :=
      Nat.and_two_pow_sub_one_eq_mod _ 4
    rw [hmask, BitVec.toNat_ofNat]
    dsimp only
    omega
  have hall : ∀ (n : Fin 16) (odd : Bool), checkWords 0x0500#16
      [0x051c#16, BitVec.ofNat 16 n, 0x0291#16, if odd then 0x0001#16 else 0x0041#16, 0x0013#16,
        0x0000#16] = true := by
    decide +kernel
  rw [pollWords, hlength]
  have hcheck := hall ⟨dataSize.toNat % 16, Nat.mod_lt _ (by decide)⟩ (toggle % 2#8 ≠ 0#8)
  simpa only [decide_eq_true_eq] using hcheck

theorem Job.exists_checked (l : Locals) (job : Job) :
    ∃ words, words.length ≤ 64 ∧ job.build l = submitList 0x0500#16 words ∧
      checkWords 0x0500#16 words = true := by
  cases job with
  | enumeration stage => exact stage.exists_checked
  | polling =>
      exact ⟨_, Nat.le_of_ble_eq_true rfl, rfl, checkWords_poll l.toggle l.dataSize⟩

/-- The condition on a submission: the ad hoc descriptor is the last of its list. -/
def EndsAtEndpoint (s : System Memory) : Prop :=
  s.action? = some (.write (.memory HUSB_SIE1_pCurrentTDPtr) 0x0576#16) → s.chip 0x0580#16 = 0#16

instance (s : System Memory) : Decidable (EndsAtEndpoint s) :=
  inferInstanceAs (Decidable (_ → _))

/-- Every pointer the host is about to submit heads a well-formed list. -/
def SubmitsWellFormed (s : System Memory) : Prop :=
  ∀ p, s.action? = some (.write (.memory HUSB_SIE1_pCurrentTDPtr) p) → WellFormed s.chip p

section Run

variable {s : System Memory}

/-- The lists of the submit loops. -/
theorem Built.wellFormed_of_build (h : Built s) {job : Job} {p : BitVec 16}
    (hblock : block s.host.pc s.host.locals = (job.build s.host.locals).map .call)
    (hact : s.action? = some (.write (.memory HUSB_SIE1_pCurrentTDPtr) p)) :
    WellFormed s.chip 0x0500#16 := by
  obtain ⟨words, hlength, hbuild, hcheck⟩ := job.exists_checked s.host.locals
  rw [hbuild] at hblock
  obtain ⟨mem, hmem⟩ := h.submission hblock hact
  have hfit : (0x0500#16).toNat + 2 * words.length < 2 ^ 16 := by
    rw [BitVec.toNat_ofNat]
    omega
  rw [hmem]
  exact wellFormed_of_check words (storeAll_of_stored mem hfit) hcheck

/-- The ad hoc list, with the word after it as its sixth. -/
theorem Built.wellFormed_of_endpoint (h : Built s) {p : BitVec 16}
    (hblock : block s.host.pc s.host.locals = endpointDesc.map .call)
    (hact : s.action? = some (.write (.memory HUSB_SIE1_pCurrentTDPtr) p))
    (hends : s.chip 0x0580#16 = 0#16) : WellFormed s.chip 0x0576#16 := by
  obtain ⟨mem, hmem⟩ := h.submission hblock hact
  refine wellFormed_of_check
    ([0x073F#16, 0x8105#16, 0x0003#16, 0x0008#16, 0xAC0A#16] ++ [0x0000#16]) ?_ (by decide +kernel)
  intro a word hstored
  obtain hstored | ⟨rfl, rfl⟩ := stored_concat hstored
  · rw [hmem]
    exact storeAll_of_stored mem (by decide) a word hstored
  · exact hends

/-- A submission of a well-formed list, or of the ad hoc list. -/
theorem Built.submitsWellFormed (h : Built s) (hends : EndsAtEndpoint s) :
    SubmitsWellFormed s := by
  intro p hact
  obtain ⟨hlast, -⟩ := h.located.last hact (Pc.inner_pointer _ _)
  obtain ⟨⟨job, hpc⟩, rfl⟩ | ⟨hpc, rfl⟩ := Pc.lastAction_pointer hlast
  · have hblock : block s.host.pc s.host.locals = (job.build s.host.locals).map .call := by
      obtain hpc | hpc := hpc <;> rw [hpc] <;> rfl
    exact h.wellFormed_of_build hblock hact
  · have hblock : block s.host.pc s.host.locals = endpointDesc.map .call := by
      rw [hpc]
      rfl
    exact h.wellFormed_of_endpoint hblock hact (hends hact)

/-- In a run that ends every ad hoc list, every submitted list is well formed. -/
theorem run_wellFormed (mem : Memory) (events : Nat → Event Response Empty) (N : Nat)
    (ends : ∀ n, n < N → EndsAtEndpoint (memoryChip.run mem events n)) (n : Nat) (hn : n < N) :
    SubmitsWellFormed (memoryChip.run mem events n) :=
  (run_built n).submitsWellFormed (ends n hn)

/-- The next descriptor of a list is in the TD area. -/
theorem WellFormed.next {mem : Memory} {p : BitVec 16} (h : WellFormed mem p)
    (hnext : mem (p + 10#16) ≠ 0#16) : (load mem (mem (p + 10#16))).InArea := by
  obtain ⟨tds, hne, hchain, hlayout⟩ := h
  have hp : p ≠ 0#16 := by
    rintro rfl
    cases hchain with
    | nil => exact hne rfl
    | cons nonnull _ => exact nonnull rfl
  obtain ⟨rest, rfl, hrest⟩ := hchain.exists_rest hp
  obtain ⟨_, rfl, -⟩ := hrest.exists_rest hnext
  exact hlayout.inArea _ (List.mem_cons_of_mem _ List.mem_cons_self)

theorem run_wellFormed_cooperative :
    SubmitsWellFormed (memoryChip.run 0 (fun _ => .host (cooperative A_DM_STAT 0#16)) 307) :=
  run_wellFormed 0 (fun _ => .host (cooperative A_DM_STAT 0#16)) 308 (by decide +kernel) 307
    (by decide)

/-- With another word at `0x0580`, that word is the address of the next descriptor. -/
theorem run_wellFormed_fails :
    ¬∀ (mem : Memory) (events : Nat → Event Response Empty) (n : Nat),
      SubmitsWellFormed (memoryChip.run mem events n) := by
  intro h
  have hsubmits := h 0 (fun _ => .host (cooperative A_DM_STAT 1#16)) 307 0x0576#16
    (by decide +kernel)
  have hword : (memoryChip.run 0 (fun _ => .host (cooperative A_DM_STAT 1#16)) 307).chip
      (0x0576#16 + 10#16) = 1#16 := by decide +kernel
  have hnext := hsubmits.next (by rw [hword]; decide)
  rw [hword] at hnext
  exact absurd hnext.1 (by decide)

end Run

end SpaceInvaders.Usb
