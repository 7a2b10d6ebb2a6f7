import SpaceInvaders.Usb.Completion
import Mathlib.Data.List.Perm.Basic

/-!
# Who a completion belongs to

`TDListDone` in the message register does not say which list is done. The
`Ledger` of a run does: it names the submissions whose lists are in flight, and
those that the message in the register stands for. A submission is named by the
step that writes the list pointer. The ledger only watches; neither the host nor
the chip knows of it.

`run_safe` says how far `main` keeps lists and completions apart. Where the chip
completes every list before the points of the program that `Completion.InTime`
names, no list is written to in flight, and the completions that the host reads
are those of its own step, except in step 7. Whatever the chip does, a host that
comes to read the message register in step 7 has done something wrong by then:
the list at `0x0576` was overwritten in flight, or its completion is taken for
that of the list of `UsbSetConfig`.
-/

namespace SpaceInvaders.Usb

open Machine

/-- The submit loop and the wait of a job, from its first submission on. -/
def Pc.waitsFor : Pc → Option Job
  | .status job | .resubmit job | .waitRead job | .waitClear job => some job
  | _ => none

/-- The blocks of `main` in which the latest list of the host is one of `job`. -/
def Job.covers (job : Job) : Pc → Bool
  | .status job' | .resubmit job' | .waitRead job' | .waitClear job' => job' == job
  | .controlStatus stage | .control stage => job == .enumeration stage
  | .retryStatus | .retryMsg | .retryClear | .retryPoll | .retryCnt => job != .polling
  | _ => false

theorem Pc.covers_of_waitsFor {pc : Pc} {job : Job} (h : pc.waitsFor = some job) :
    job.covers pc = true := by
  cases pc <;> simp_all [waitsFor, Job.covers]

/-- A wait ends where the message register is cleared. -/
theorem Pc.waitsFor_of_succ {pc q : Pc} {job : Job} (h : pc.waitsFor = some job)
    (hclear : pc ≠ .waitClear job) (hq : q ∈ pc.succs) : q.waitsFor = some job := by
  cases pc <;> simp_all [waitsFor, succs]
  obtain rfl | rfl := hq <;> rfl

/-- A block that submits a list is in no wait for another job. -/
theorem Pc.waitsFor_unique {pc : Pc} {job job' : Job} (h : pc = .submit job ∨ pc = .resubmit job)
    (hwaits : pc.waitsFor = some job') : job' = job := by
  obtain rfl | rfl := h
  · cases hwaits
  · exact (Option.some.inj hwaits).symm

/-- A submission is followed by the test of the status. -/
theorem Pc.status_of_submits {pc q : Pc} {job : Job} (h : pc = .submit job ∨ pc = .resubmit job)
    (hq : q ∈ pc.succs) : q = .status job := by
  obtain rfl | rfl := h
  · exact List.mem_singleton.1 hq
  · exact List.mem_singleton.1 hq

/-- From the list at `0x0576` to the end of the wait of step 7. -/
def Pc.NearSetConfig (pc : Pc) : Prop :=
  pc = .dataSize ∨ pc = .submit (.enumeration .setConfig) ∨
    pc.waitsFor = some (.enumeration .setConfig)

theorem Pc.NearSetConfig.job {pc : Pc} {job : Job} (h : pc.NearSetConfig)
    (hblock : pc = .submit job ∨ pc = .resubmit job) : job = .enumeration .setConfig := by
  obtain rfl | rfl := hblock
  · obtain h | h | h := h
    · cases h
    · exact Pc.submit.inj h
    · cases h
  · obtain h | h | h := h
    · cases h
    · cases h
    · exact Option.some.inj h

/-- It is left where the message register is cleared. -/
theorem Pc.NearSetConfig.of_succ {pc q : Pc} (h : pc.NearSetConfig)
    (hclear : ∀ job, pc ≠ .waitClear job) (hq : q ∈ pc.succs) : q.NearSetConfig := by
  obtain rfl | rfl | h := h
  · exact .inr (.inl (List.mem_singleton.1 hq))
  · obtain rfl := List.mem_singleton.1 hq
    exact .inr (.inr rfl)
  · exact .inr (.inr (waitsFor_of_succ h (hclear _) hq))

theorem Pc.NearSetConfig.storesTo_msg {pc : Pc} (h : pc.NearSetConfig) :
    pc.storesTo HPI_SIE1_MSG_ADR = false := by
  obtain rfl | rfl | h := h
  · rfl
  · rfl
  · cases pc <;> simp_all [waitsFor] <;> rfl

theorem Pc.pred_dataSize {pc : Pc} (h : .dataSize ∈ pc.succs) : pc = .endpointDesc := by
  cases pc with
  | waitClear job => cases job <;> simp [succs] at h
  | control stage => cases stage <;> simp [succs] at h
  | _ => simp_all [succs]

theorem Pc.pred_submit_setConfig {pc : Pc} (h : .submit (.enumeration .setConfig) ∈ pc.succs) :
    pc = .dataSize := by
  cases pc with
  | waitClear job => cases job <;> simp [succs] at h
  | control stage => cases stage <;> simp [succs] at h
  | _ => simp_all [succs]

/-- A wait begins with a submission. -/
theorem Pc.pred_waitsFor {pc : Pc} {job : Job} : ∀ q ∈ pc.succs, q.waitsFor = some job →
    pc = .submit job ∨ pc.waitsFor = some job := by
  cases pc with
  | waitClear job' => cases job' <;> simp [succs, waitsFor]
  | control stage => cases stage <;> simp [succs, waitsFor]
  | _ => simp [succs, waitsFor]

/-- The submit loop does not clear the message register. -/
theorem Pc.submitLoop_keeps {pc : Pc} {job job' : Job} (h : pc = .status job ∨ pc = .resubmit job) :
    (∀ word, pc.lastAction ≠ .write (.memory HPI_SIE1_MSG_ADR) word) ∧
      .waitClear job' ∉ pc.succs := by
  obtain rfl | rfl := h <;>
    simp [lastAction, succs, HUSB_SIE1_pCurrentTDPtr, HPI_SIE1_MSG_ADR]

namespace Completion

structure Ledger where
  /-- The submissions whose lists have not been completed. -/
  inFlight : List Nat
  /-- The submissions that the message in the register stands for. -/
  posted : List Nat
deriving Repr, DecidableEq

namespace Ledger

/-- All submissions in the ledger. -/
def entries (l : Ledger) : List Nat := l.inFlight ++ l.posted

/-- The chip completes one of the lists in flight. -/
def complete (i : Nat) (l : Ledger) : Ledger :=
  match l.inFlight[i % l.inFlight.length]? with
  | none => l
  | some k => ⟨l.inFlight.eraseIdx (i % l.inFlight.length), k :: l.posted⟩

/-- Step `n` of the run is an action of the host. -/
def perform (n : Nat) (l : Ledger) : Action → Ledger
  | .write (.memory a) _ =>
    if a = HPI_SIE1_MSG_ADR then { l with posted := [] }
    else if a = HUSB_SIE1_pCurrentTDPtr then { l with inFlight := l.inFlight ++ [n] }
    else l
  | _ => l

theorem mem_entries {l : Ledger} {k : Nat} : k ∈ l.entries ↔ k ∈ l.inFlight ∨ k ∈ l.posted :=
  List.mem_append

/-- A completion moves a submission from one side of the ledger to the other. -/
theorem complete_cases (i : Nat) (l : Ledger) :
    (l.inFlight = [] ∧ l.complete i = l) ∨
      ∃ k rest, (k :: rest).Perm l.inFlight ∧ l.complete i = ⟨rest, k :: l.posted⟩ := by
  unfold complete
  split
  · next hnone =>
    refine .inl ⟨?_, rfl⟩
    by_contra hne
    exact absurd (List.getElem?_eq_none_iff.1 hnone)
      (Nat.not_le.2 (Nat.mod_lt i (List.length_pos_of_ne_nil hne)))
  · next k hk =>
    obtain ⟨hlt, rfl⟩ := List.getElem?_eq_some_iff.1 hk
    exact .inr ⟨_, _, List.getElem_cons_eraseIdx_perm hlt, rfl⟩

theorem length_complete (i : Nat) (l : Ledger) :
    (l.complete i).inFlight.length = l.inFlight.length - 1 := by
  obtain ⟨hnil, h⟩ | ⟨k, rest, hperm, h⟩ := l.complete_cases i
  · rw [h, hnil]
    rfl
  · rw [h, ← hperm.length_eq]
    rfl

theorem mem_entries_complete {i k : Nat} {l : Ledger} :
    k ∈ (l.complete i).entries ↔ k ∈ l.entries := by
  obtain ⟨-, h⟩ | ⟨j, rest, hperm, h⟩ := l.complete_cases i
  · rw [h]
  · rw [h, mem_entries, mem_entries, ← hperm.mem_iff, List.mem_cons, List.mem_cons]
    exact or_left_comm.trans or_assoc.symm

theorem mem_posted_complete {k : Nat} {l : Ledger} (h : k ∈ l.posted) (i : Nat) :
    k ∈ (l.complete i).posted := by
  obtain ⟨-, hcomplete⟩ | ⟨j, rest, -, hcomplete⟩ := l.complete_cases i
  · rw [hcomplete]
    exact h
  · rw [hcomplete]
    exact List.mem_cons_of_mem j h

variable {n : Nat} {l : Ledger} {act : Action}

@[simp] theorem perform_pointer (p : BitVec 16) :
    l.perform n (.write (.memory HUSB_SIE1_pCurrentTDPtr) p) =
      { l with inFlight := l.inFlight ++ [n] } := rfl

@[simp] theorem perform_clear (word : BitVec 16) :
    l.perform n (.write (.memory HPI_SIE1_MSG_ADR) word) = { l with posted := [] } := rfl

theorem mem_of_pointer {k : Nat} {p : BitVec 16}
    (h : k ∈ (l.perform n (.write (.memory HUSB_SIE1_pCurrentTDPtr) p)).entries) :
    k = n ∨ k ∈ l.entries := by
  rw [perform_pointer, mem_entries, List.mem_append, List.mem_singleton] at h
  rw [mem_entries]
  tauto

/-- Where nothing is in flight, clearing the register empties the ledger. -/
theorem not_mem_of_clear {k : Nat} {word : BitVec 16} (hnone : l.inFlight = []) :
    k ∉ (l.perform n (.write (.memory HPI_SIE1_MSG_ADR) word)).entries := by
  rw [perform_clear, entries, hnone]
  exact List.not_mem_nil

/-- Nothing else is entered. -/
theorem perform_other (hclear : ∀ word, act ≠ .write (.memory HPI_SIE1_MSG_ADR) word)
    (hpointer : ∀ p, act ≠ .write (.memory HUSB_SIE1_pCurrentTDPtr) p) : l.perform n act = l := by
  unfold perform
  split
  · next a word =>
    rw [if_neg, if_neg]
    · rintro rfl
      exact hpointer word rfl
    · rintro rfl
      exact hclear word rfl
  · rfl

/-- Only a submission puts a list in flight. -/
theorem inFlight_perform (hpointer : ∀ p, act ≠ .write (.memory HUSB_SIE1_pCurrentTDPtr) p) :
    (l.perform n act).inFlight = l.inFlight := by
  by_cases hclear : ∃ word, act = .write (.memory HPI_SIE1_MSG_ADR) word
  · obtain ⟨word, rfl⟩ := hclear
    rfl
  · rw [perform_other (not_exists.1 hclear) hpointer]

/-- Only clearing the register takes a message away. -/
theorem posted_perform (hclear : ∀ word, act ≠ .write (.memory HPI_SIE1_MSG_ADR) word) :
    (l.perform n act).posted = l.posted := by
  by_cases hpointer : ∃ p, act = .write (.memory HUSB_SIE1_pCurrentTDPtr) p
  · obtain ⟨p, rfl⟩ := hpointer
    rfl
  · rw [perform_other hclear (not_exists.1 hpointer)]

/-- Only a submission makes an entry. -/
theorem mem_of_perform {k : Nat} (hpointer : ∀ p, act ≠ .write (.memory HUSB_SIE1_pCurrentTDPtr) p)
    (h : k ∈ (l.perform n act).entries) : k ∈ l.entries := by
  by_cases hclear : ∃ word, act = .write (.memory HPI_SIE1_MSG_ADR) word
  · obtain ⟨word, rfl⟩ := hclear
    rw [perform_clear, mem_entries] at h
    exact mem_entries.2 (.inl (h.resolve_right List.not_mem_nil))
  · rw [perform_other (not_exists.1 hclear) hpointer] at h
    exact h

end Ledger

/-- The ledger of a run. Where several lists are in flight, `order` says which one a
completion is of. -/
def ledger (msg : BitVec 16) (flag : Bool) (events : Nat → Event (BitVec 16) Unit)
    (order : Nat → Nat) : Nat → Ledger
  | 0 => ⟨[], []⟩
  | n + 1 =>
    match events n, (run msg flag events n).action? with
    | .chip _, _ => (ledger msg flag events order n).complete (order n)
    | .host _, some act => (ledger msg flag events order n).perform n act
    | .host _, none => ledger msg flag events order n

/-- Step `k` submitted a list for `job`, and state `n` is in the same enumeration or
polling step. -/
structure SameStep (msg : BitVec 16) (flag : Bool) (events : Nat → Event (BitVec 16) Unit)
    (n : Nat) (job : Job) (k : Nat) : Prop where
  before : k < n
  block : (run msg flag events k).host.pc = .submit job ∨
    (run msg flag events k).host.pc = .resubmit job
  covers : ∀ i, k < i → i ≤ n → job.covers (run msg flag events i).host.pc = true

/-- What the host does next in state `n` is as it should be. -/
structure Safe (msg : BitVec 16) (flag : Bool) (events : Nat → Event (BitVec 16) Unit)
    (order : Nat → Nat) (n : Nat) : Prop where
  /-- It does not write to a list in flight. -/
  overwrites : ∀ act, (run msg flag events n).action? = some act → WritesList act →
    (run msg flag events n).chip.inFlight = 0
  /-- A completion that it reads is that of a list of the same step. -/
  consumes : (run msg flag events n).action? = some (.read (.memory HPI_SIE1_MSG_ADR)) →
    ∀ k ∈ (ledger msg flag events order n).posted, ∃ job, SameStep msg flag events n job k

/-- The host is about to read the message register in the wait of step 7. -/
def ReadsInStepSeven (s : System State) : Prop :=
  s.host.pc = .waitRead (.enumeration .setConfig) ∧
    s.action? = some (.read (.memory HPI_SIE1_MSG_ADR))

instance (s : System State) : Decidable (ReadsInStepSeven s) :=
  inferInstanceAs (Decidable (_ ∧ _))

section Run

variable {msg : BitVec 16} {flag : Bool} {events : Nat → Event (BitVec 16) Unit}
  {order : Nat → Nat} {n : Nat}

theorem ledger_chip {e : Unit} (he : events n = .chip e) :
    ledger msg flag events order (n + 1) = (ledger msg flag events order n).complete (order n) := by
  rw [ledger, he]

theorem ledger_host (order : Nat → Nat) {o : BitVec 16} {act : Action} (he : events n = .host o)
    (hact : (run msg flag events n).action? = some act) :
    ledger msg flag events order (n + 1) = (ledger msg flag events order n).perform n act := by
  rw [ledger, he, hact]

theorem run_chip {e : Unit} (he : events n = .chip e) :
    run msg flag events (n + 1) =
      { run msg flag events n with chip := (run msg flag events n).chip.complete } :=
  Device.run_succ_of_chip he

/-- The ledger agrees with the chip on the number of lists in flight. -/
theorem length_inFlight (n : Nat) :
    (ledger msg flag events order n).inFlight.length = (run msg flag events n).chip.inFlight := by
  induction n with
  | zero => rfl
  | succ n ih =>
      cases he : events n with
      | chip e =>
          rw [ledger_chip he, Ledger.length_complete, ih, run_chip he, complete_inFlight]
      | host o =>
          obtain ⟨act, hact, hstep⟩ := run_hostStep he
          rw [ledger_host order he hact, hstep.chip_eq]
          by_cases hpointer : ∃ p, act = .write (.memory HUSB_SIE1_pCurrentTDPtr) p
          · obtain ⟨p, rfl⟩ := hpointer
            rw [Ledger.perform_pointer, List.length_append, ih]
            rfl
          · rw [Ledger.inFlight_perform (not_exists.1 hpointer), ih,
              perform_inFlight o _ (not_exists.1 hpointer)]

theorem inFlight_eq_nil (order : Nat → Nat) (h : (run msg flag events n).chip.inFlight = 0) :
    (ledger msg flag events order n).inFlight = [] :=
  List.eq_nil_of_length_eq_zero ((length_inFlight n).trans h)

/-- A block that does not write to the message register enters nothing on its way. -/
theorem ledger_inner (order : Nat → Nat) {o : BitVec 16} {act : Action} (he : events n = .host o)
    (hact : (run msg flag events n).action? = some act)
    (hinner : (run msg flag events n).host.pc.inner act = true)
    (hstores : (run msg flag events n).host.pc.storesTo HPI_SIE1_MSG_ADR = false) :
    ledger msg flag events order (n + 1) = ledger msg flag events order n := by
  rw [ledger_host order he hact]
  refine Ledger.perform_other ?_ (Pc.not_pointer_of_inner hinner)
  rintro word rfl
  rw [Pc.inner, hstores] at hinner
  exact Bool.noConfusion hinner

/-! ### Runs in time -/

/-- The lists in the ledger are those of the step the host is in, except around
step 7. -/
def Owned (msg : BitVec 16) (flag : Bool) (events : Nat → Event (BitVec 16) Unit)
    (order : Nat → Nat) (n : Nat) : Prop :=
  (∀ k ∈ (ledger msg flag events order n).entries,
    ∃ job, (run msg flag events n).host.pc.waitsFor = some job ∧ SameStep msg flag events n job k) ∨
  (run msg flag events n).host.pc.NearSetConfig

/-- An older submission is still of the same step while the host waits. -/
theorem SameStep.succ {job : Job} {k : Nat} (h : SameStep msg flag events n job k)
    (hwaits : (run msg flag events (n + 1)).host.pc.waitsFor = some job) :
    SameStep msg flag events (n + 1) job k where
  before := Nat.lt_succ_of_lt h.before
  block := h.block
  covers := by
    intro i hki hi
    obtain rfl | hlt := Nat.eq_or_lt_of_le hi
    · exact Pc.covers_of_waitsFor hwaits
    · exact h.covers i hki (Nat.le_of_lt_succ hlt)

/-- A submission is of the step it is made in. -/
theorem sameStep_self {job : Job} (hblock : (run msg flag events n).host.pc = .submit job ∨
      (run msg flag events n).host.pc = .resubmit job)
    (hwaits : (run msg flag events (n + 1)).host.pc.waitsFor = some job) :
    SameStep msg flag events (n + 1) job n where
  before := Nat.lt_succ_self n
  block := hblock
  covers := by
    intro i hni hi
    rw [Nat.le_antisymm hi hni]
    exact Pc.covers_of_waitsFor hwaits

/-- A step that submits nothing and stays in the wait keeps the owners. -/
theorem Owned.stay (h : Owned msg flag events order n)
    (hentries : ∀ k ∈ (ledger msg flag events order (n + 1)).entries,
      k ∈ (ledger msg flag events order n).entries)
    (hwaits : ∀ job, (run msg flag events n).host.pc.waitsFor = some job →
      (run msg flag events (n + 1)).host.pc.waitsFor = some job)
    (hnear : (run msg flag events n).host.pc.NearSetConfig →
      (run msg flag events (n + 1)).host.pc.NearSetConfig) :
    Owned msg flag events order (n + 1) := by
  obtain h | h := h
  · refine .inl ?_
    intro k hk
    obtain ⟨job, hjob, hsame⟩ := h k (hentries k hk)
    exact ⟨job, hwaits job hjob, hsame.succ (hwaits job hjob)⟩
  · exact .inr (hnear h)

/-- A step inside a block that submits nothing keeps the owners. -/
theorem Owned.inside (h : Owned msg flag events order n)
    (hpc : (run msg flag events (n + 1)).host.pc = (run msg flag events n).host.pc)
    (hentries : ∀ k ∈ (ledger msg flag events order (n + 1)).entries,
      k ∈ (ledger msg flag events order n).entries) :
    Owned msg flag events order (n + 1) := by
  refine h.stay hentries ?_ ?_
  · rw [hpc]
    exact fun _ => id
  · rw [hpc]
    exact id

/-- A submission for a job is entered next to submissions of the same step. -/
theorem Owned.submit (h : Owned msg flag events order n) {job : Job}
    (hblock : (run msg flag events n).host.pc = .submit job ∨
      (run msg flag events n).host.pc = .resubmit job)
    (hentries : ∀ k ∈ (ledger msg flag events order (n + 1)).entries,
      k = n ∨ k ∈ (ledger msg flag events order n).entries)
    (hnext : (run msg flag events (n + 1)).host.pc = .status job) :
    Owned msg flag events order (n + 1) := by
  have hwaits : (run msg flag events (n + 1)).host.pc.waitsFor = some job := by
    rw [hnext]
    rfl
  obtain h | h := h
  · refine .inl ?_
    intro k hk
    refine ⟨job, hwaits, ?_⟩
    obtain rfl | hk := hentries k hk
    · exact sameStep_self hblock hwaits
    · obtain ⟨job', hjob, hsame⟩ := h k hk
      obtain rfl : job' = job := Pc.waitsFor_unique hblock hjob
      exact hsame.succ hwaits
  · refine .inr (.inr (.inr ?_))
    rw [hwaits, h.job hblock]

/-- Every host step keeps the owners. -/
theorem Owned.hostStep (h : Owned msg flag events order n) (hquiet : Quiet (run msg flag events n))
    {o : BitVec 16} (he : events n = .host o) : Owned msg flag events order (n + 1) := by
  obtain ⟨act, hact, hstep⟩ := run_hostStep he
  have hledger := ledger_host order he hact
  obtain ⟨hpc, hinner⟩ | ⟨hsucc, rfl⟩ := hstep.pc_cases
  · refine h.inside hpc ?_
    intro k hk
    rw [hledger] at hk
    exact Ledger.mem_of_perform (Pc.not_pointer_of_inner hinner) hk
  · by_cases hpointer : ∃ p, (run msg flag events n).host.pc.lastAction =
        .write (.memory HUSB_SIE1_pCurrentTDPtr) p
    · obtain ⟨p, hlast⟩ := hpointer
      obtain ⟨⟨job, hblock⟩, -⟩ | ⟨hpc, -⟩ := Pc.lastAction_pointer hlast
      · refine h.submit hblock ?_ (Pc.status_of_submits hblock hsucc)
        intro k hk
        rw [hledger, hlast] at hk
        exact Ledger.mem_of_pointer hk
      · rw [hpc] at hsucc
        exact .inr (.inl (List.mem_singleton.1 hsucc))
    · by_cases hclear : ∃ job, (run msg flag events n).host.pc = .waitClear job
      · -- the register is cleared, and nothing was in flight
        obtain ⟨job, hpc⟩ := hclear
        refine .inl ?_
        intro k hk
        rw [hledger, hpc] at hk
        have hnone := inFlight_eq_nil order (hquiet.of_waitClear hpc)
        exact absurd hk (Ledger.not_mem_of_clear hnone)
      · refine h.stay ?_ ?_ ?_
        · intro k hk
          rw [hledger] at hk
          exact Ledger.mem_of_perform (not_exists.1 hpointer) hk
        · intro job hjob
          exact Pc.waitsFor_of_succ hjob (not_exists.1 hclear job) hsucc
        · exact fun hnear => hnear.of_succ (not_exists.1 hclear) hsucc

/-- In a run that is in time, the ledger holds lists of the step the host is in, except
around step 7. -/
theorem run_owned (order : Nat → Nat)
    (hin : ∀ k, k < n → (∃ o, events k = .host o) → InTime (run msg flag events k)) :
    Owned msg flag events order n := by
  induction n with
  | zero =>
      refine .inl ?_
      intro k hk
      exact absurd hk List.not_mem_nil
  | succ n ih =>
      have howned := ih fun k hk => hin k (Nat.lt_succ_of_lt hk)
      cases he : events n with
      | chip e =>
          refine howned.inside (by rw [run_chip he]) ?_
          intro k hk
          rw [ledger_chip he] at hk
          exact Ledger.mem_entries_complete.1 hk
      | host o => exact howned.hostStep (run_quiet fun k hk => hin k (Nat.lt_succ_of_lt hk)) he

/-- A read of the message register around step 7 is the one in the wait. -/
theorem readsInStepSeven (hnear : (run msg flag events n).host.pc.NearSetConfig)
    (hact : (run msg flag events n).action? = some (.read (.memory HPI_SIE1_MSG_ADR))) :
    ReadsInStepSeven (run msg flag events n) := by
  refine ⟨?_, hact⟩
  have hlocated : (run msg flag events n).Located := Device.run_located n
  obtain ⟨hlast, -⟩ := hlocated.last hact rfl
  generalize (run msg flag events n).host.pc = pc at hnear hlast
  obtain rfl | rfl | hwaits := hnear
  · cases hlast
  · cases hlast
  · cases pc <;> simp_all [Pc.waitsFor, Pc.lastAction]

/-! ### Step 7 -/

/-- The list at `0x0576` has been submitted. It is still in flight, or its completion waits to
be mistaken for that of the list of `UsbSetConfig`. -/
structure Pending (msg : BitVec 16) (flag : Bool) (events : Nat → Event (BitVec 16) Unit)
    (order : Nat → Nat) (n : Nat) : Prop where
  before : (run msg flag events n).host.pc = .dataSize ∨
      (run msg flag events n).host.pc = .submit (.enumeration .setConfig) →
    ∃ k ∈ (ledger msg flag events order n).entries, (run msg flag events k).host.pc = .endpointDesc
  wait : (run msg flag events n).host.pc.waitsFor = some (.enumeration .setConfig) →
    (run msg flag events n).host.pc ≠ .waitClear (.enumeration .setConfig) ∧
      ∃ k ∈ (ledger msg flag events order n).posted,
        (run msg flag events k).host.pc = .endpointDesc

/-- The completion of the list at `0x0576` belongs to no step that reads it. -/
theorem not_safe_of_foreign {k : Nat}
    (hact : (run msg flag events n).action? = some (.read (.memory HPI_SIE1_MSG_ADR)))
    (hk : k ∈ (ledger msg flag events order n).posted)
    (hforeign : (run msg flag events k).host.pc = .endpointDesc) :
    ¬Safe msg flag events order n := by
  intro hsafe
  obtain ⟨job, hsame⟩ := hsafe.consumes hact k hk
  have hblock := hsame.block
  rw [hforeign] at hblock
  obtain hblock | hblock := hblock <;> cases hblock

/-- The chip keeps what is pending. -/
theorem Pending.chip (h : Pending msg flag events order n) {e : Unit} (he : events n = .chip e) :
    Pending msg flag events order (n + 1) := by
  have hpc : (run msg flag events (n + 1)).host.pc = (run msg flag events n).host.pc := by
    rw [run_chip he]
  constructor
  · rw [hpc, ledger_chip he]
    intro hbefore
    obtain ⟨k, hk, hforeign⟩ := h.before hbefore
    exact ⟨k, Ledger.mem_entries_complete.2 hk, hforeign⟩
  · rw [hpc, ledger_chip he]
    intro hwaits
    obtain ⟨hclear, k, hk, hforeign⟩ := h.wait hwaits
    exact ⟨hclear, k, Ledger.mem_posted_complete hk _, hforeign⟩

/-- The end of a block in the wait of step 7. -/
theorem Pending.wait_last (h : Pending msg flag events order n)
    (hsafe : Safe msg flag events order n)
    (hact : (run msg flag events n).action? = some (run msg flag events n).host.pc.lastAction)
    (hwaits : (run msg flag events n).host.pc.waitsFor = some (.enumeration .setConfig)) :
    ∃ job, (run msg flag events n).host.pc = .status job ∨
      (run msg flag events n).host.pc = .resubmit job := by
  obtain ⟨hclear, k, hk, hforeign⟩ := h.wait hwaits
  generalize hpc : (run msg flag events n).host.pc = pc at hwaits hclear hact
  cases pc with
  | status job => exact ⟨job, .inl rfl⟩
  | resubmit job => exact ⟨job, .inr rfl⟩
  | waitRead job =>
      exact absurd hsafe (not_safe_of_foreign hact hk hforeign)
  | waitClear job =>
      obtain rfl := Option.some.inj hwaits
      exact absurd rfl hclear
  | _ => cases hwaits

/-- A host step that is safe keeps what is pending. -/
theorem Pending.hostStep (h : Pending msg flag events order n)
    (hsafe : Safe msg flag events order n) {o : BitVec 16} (he : events n = .host o) :
    Pending msg flag events order (n + 1) := by
  obtain ⟨act, hact, hstep⟩ := run_hostStep he
  obtain ⟨hpc, hinner⟩ | ⟨hsucc, rfl⟩ := hstep.pc_cases
  · have hsame (hnear : (run msg flag events n).host.pc.NearSetConfig) :=
      ledger_inner order he hact hinner hnear.storesTo_msg
    constructor
    · rw [hpc]
      intro hbefore
      rw [hsame (hbefore.imp id .inl)]
      exact h.before hbefore
    · rw [hpc]
      intro hwaits
      rw [hsame (.inr (.inr hwaits))]
      exact h.wait hwaits
  · have hledger := ledger_host order he hact
    constructor
    · rintro (hdata | hsubmit)
      · -- the submission of the list at `0x0576`
        rw [hdata] at hsucc
        have hpc := Pc.pred_dataSize hsucc
        rw [hledger, hpc]
        exact ⟨n, Ledger.mem_entries.2 (.inl (List.mem_append_right _ List.mem_cons_self)), hpc⟩
      · rw [hsubmit] at hsucc
        have hpc := Pc.pred_submit_setConfig hsucc
        rw [hledger, hpc]
        exact h.before (.inl hpc)
    · intro hwaits
      obtain hpc | hwaits' := Pc.pred_waitsFor _ hsucc hwaits
      · have hnone := hsafe.overwrites _ hact (by rw [hpc]; exact .inr rfl)
        obtain ⟨k, hk, hforeign⟩ := h.before (.inr hpc)
        rw [Ledger.mem_entries, inFlight_eq_nil order hnone] at hk
        have hposted := hk.resolve_left List.not_mem_nil
        rw [Pc.status_of_submits (.inl hpc) hsucc, hledger, hpc]
        exact ⟨Pc.noConfusion, k, hposted, hforeign⟩
      · obtain ⟨job, hblock⟩ := h.wait_last hsafe hact hwaits'
        obtain ⟨-, k, hk, hforeign⟩ := h.wait hwaits'
        obtain ⟨hkeeps, hclear⟩ := Pc.submitLoop_keeps hblock
        rw [hledger, Ledger.posted_perform hkeeps]
        exact ⟨fun hpc => hclear (hpc ▸ hsucc), k, hk, hforeign⟩

/-- As long as every host step is safe, the list at `0x0576` stays pending. -/
theorem run_pending (hsafe : ∀ k, k < n → (∃ o, events k = .host o) →
    Safe msg flag events order k) : Pending msg flag events order n := by
  induction n with
  | zero =>
      constructor
      · rintro (h | h) <;> cases h
      · intro h
        cases h
  | succ n ih =>
      have hpending := ih fun k hk => hsafe k (Nat.lt_succ_of_lt hk)
      cases he : events n with
      | chip e => exact hpending.chip he
      | host o => exact hpending.hostStep (hsafe n (Nat.lt_succ_self n) ⟨o, he⟩) he

/-- What the read in step 7 finds when all went well before. -/
theorem exists_foreign (hsafe : ∀ m, m < n → (∃ o, events m = .host o) →
      Safe msg flag events order m)
    (hreads : ReadsInStepSeven (run msg flag events n)) :
    ∃ k ∈ (ledger msg flag events order n).posted,
      (run msg flag events k).host.pc = .endpointDesc := by
  obtain ⟨hpc, -⟩ := hreads
  refine ((run_pending hsafe).wait ?_).2
  rw [hpc]
  rfl

/-- Where the chip is in time, every host step is safe but the read of the message register in
step 7. That read is never safe after safe steps, as it finds the completion of the list at
`0x0576`. -/
theorem run_safe (msg : BitVec 16) (flag : Bool) (events : Nat → Event (BitVec 16) Unit)
    (order : Nat → Nat) (N : Nat) :
    ((∀ n, n < N → (∃ o, events n = .host o) → InTime (run msg flag events n)) →
      ∀ n, n < N → (∃ o, events n = .host o) →
        ReadsInStepSeven (run msg flag events n) ∨ Safe msg flag events order n) ∧
    ∀ n, ReadsInStepSeven (run msg flag events n) →
      (∃ m, m < n ∧ (∃ o, events m = .host o) ∧ ¬Safe msg flag events order m) ∨
        ¬Safe msg flag events order n ∧
          ∃ k ∈ (ledger msg flag events order n).posted,
            (run msg flag events k).host.pc = .endpointDesc := by
  constructor
  · intro hin n hn hhost
    have hbefore (k : Nat) (hk : k < n) := hin k (Nat.lt_trans hk hn)
    have hlocated : (run msg flag events n).Located := Device.run_located n
    by_cases hreads : ReadsInStepSeven (run msg flag events n)
    · exact .inl hreads
    · refine .inr ⟨?_, ?_⟩
      · intro act hact hwrites
        exact (run_quiet hbefore).not_overwritten hlocated (hin n hn hhost) hact hwrites
      · intro hact k hk
        obtain howned | hnear := run_owned order hbefore
        · obtain ⟨job, -, hsame⟩ := howned k (Ledger.mem_entries.2 (.inr hk))
          exact ⟨job, hsame⟩
        · exact absurd (readsInStepSeven hnear hact) hreads
  · intro n hreads
    by_cases hbefore : ∃ m, m < n ∧ (∃ o, events m = .host o) ∧ ¬Safe msg flag events order m
    · exact .inl hbefore
    · have hsafe (m : Nat) (hm : m < n) (hhost : ∃ o, events m = .host o) :
          Safe msg flag events order m :=
        not_not.1 fun hviolates => hbefore ⟨m, hm, hhost, hviolates⟩
      obtain ⟨k, hk, hforeign⟩ := exists_foreign hsafe hreads
      exact .inr ⟨not_safe_of_foreign hreads.2 hk hforeign, k, hk, hforeign⟩

/-- A chip that completes every list right after its submission, and a keyboard whose
control transfers succeed. -/
def keepsUp (n : Nat) : Event (BitVec 16) Unit :=
  if n ∈ [111, 146, 193, 234, 293, 313, 335] then .chip ()
  else .host (if n ∈ [120, 155, 202, 243, 302] then 0x0003#16 else answer n)

theorem run_safe_keepsUp :
    (run 0#16 false keepsUp 114).action? = some (.read (.memory HPI_SIE1_MSG_ADR)) ∧
      (ledger 0#16 false keepsUp id 114).posted = [110] ∧
      (∀ n, n < 338 → (∃ o, keepsUp n = .host o) → Safe 0#16 false keepsUp id n) ∧
      ReadsInStepSeven (run 0#16 false keepsUp 338) ∧ ¬Safe 0#16 false keepsUp id 338 := by
  have hnone : ∀ n, n < 338 → n ∉ [111, 146, 193, 234, 293, 313, 335] →
      (run 0#16 false keepsUp n).chip.inFlight = 0 := by
    decide +kernel
  have hreads : ∀ n, n < 338 → ¬ReadsInStepSeven (run 0#16 false keepsUp n) := by
    decide +kernel
  have hsafe : ∀ n, n < 338 → (∃ o, keepsUp n = .host o) → Safe 0#16 false keepsUp id n := by
    intro n hn hhost
    refine ((run_safe 0#16 false keepsUp id 338).1 ?_ n hn hhost).resolve_left (hreads n hn)
    rintro n hn ⟨o, ho⟩
    have hcompleted : n ∉ [111, 146, 193, 234, 293, 313, 335] := by
      intro hmem
      rw [keepsUp, if_pos hmem] at ho
      cases ho
    exact ⟨fun _ _ => hnone n hn hcompleted, fun _ _ _ => hnone n hn hcompleted⟩
  have hseven : ReadsInStepSeven (run 0#16 false keepsUp 338) := by decide +kernel
  refine ⟨by decide +kernel, by decide +kernel, hsafe, hseven, ?_⟩
  obtain ⟨m, hm, hhost, hviolates⟩ | ⟨hviolates, -⟩ :=
    (run_safe 0#16 false keepsUp id 338).2 338 hseven
  · exact absurd (hsafe m hm hhost) hviolates
  · exact hviolates

/-- A status test right after the submission, and `UsbSetAddress` overwrites the
list that the chip is working on. -/
theorem run_safe_fails :
    ¬∀ (msg : BitVec 16) (flag : Bool) (events : Nat → Event (BitVec 16) Unit)
      (order : Nat → Nat) (n : Nat), (∃ o, events n = .host o) →
        Safe msg flag events order n := by
  intro h
  have hact : (run 0#16 false (fun n => .host (answer n)) 113).action? =
      some (.write (.memory 0x0500#16) 0x050C#16) := by decide +kernel
  have hnone := (h 0#16 false _ id 113 ⟨_, rfl⟩).overwrites _ hact (.inl (by decide))
  exact absurd hnone (by decide +kernel)

end Run

end Completion

end SpaceInvaders.Usb
