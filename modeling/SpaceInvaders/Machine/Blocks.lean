import SpaceInvaders.Machine.Stream

/-!
# Runs cut into blocks of cycles

A machine may do in a fixed number of cycles what a coarser machine does in one
step. A `BlockContract` says so for one block: from a state in which blocks can
start, under admissible inputs, the block ends in such a state again, and the
view of it is one step of the coarse machine on what the block sampled from its
inputs. `BlockContract.run` composes the contracts of all blocks of a run.
-/

namespace Machine

variable {ι κ σ τ : Type*} {step : ι → σ → σ}

/-- The stream of inputs from cycle `a` on. -/
def fromCycle (a : Nat) (input : Nat → ι) (n : Nat) : ι := input (a + n)

/-- A run may be continued from the state of any of its cycles. -/
theorem stateAt_add (input : Nat → ι) (s : σ) (a n : Nat) :
    stateAt step input s (a + n) =
      stateAt step (fromCycle a input) (stateAt step input s a) n := by
  induction n with
  | zero => rfl
  | succ n ih => exact congrArg (step (input (a + n))) ih

/-- Once the input does not change any more, the run iterates one step. -/
theorem stateAt_settled {input : Nat → ι} {i : ι} {a : Nat} (h : ∀ n, a ≤ n → input n = i)
    (s : σ) (n : Nat) :
    stateAt step input s (a + n) = (step i)^[n] (stateAt step input s a) := by
  induction n with
  | zero => rfl
  | succ n ih =>
      rw [Function.iterate_succ_apply', ← ih, ← h (a + n) (Nat.le_add_right a n)]
      rfl

/-- What one block of `length` cycles does: `starts` holds where blocks can start,
`view` is what the coarse machine sees of a state, and `sample` what it sees of
the inputs of a block. -/
structure BlockContract (step : ι → σ → σ) (admits : ι → Prop) (length : Nat)
    (starts : σ → Prop) (view : σ → τ) (sample : (Nat → ι) → κ) (coarse : κ → τ → τ) : Prop where
  restarts : ∀ s input, starts s → (∀ n, admits (input n)) →
    starts (stateAt step input s length)
  refines : ∀ s input, starts s → (∀ n, admits (input n)) →
    view (stateAt step input s length) = coarse (sample input) (view s)

namespace BlockContract

variable {admits : ι → Prop} {length : Nat} {starts : σ → Prop} {view : σ → τ}
  {sample : (Nat → ι) → κ} {coarse : κ → τ → τ}

/-- At the start of block `k` the view is the state of the coarse machine in its
cycle `k`. -/
theorem run (h : BlockContract step admits length starts view sample coarse) {s : σ}
    (hs : starts s) {input : Nat → ι} (hinput : ∀ n, admits (input n)) (k : Nat) :
    starts (stateAt step input s (length * k)) ∧
      view (stateAt step input s (length * k)) =
        stateAt coarse (fun j => sample (fromCycle (length * j) input)) (view s) k := by
  induction k with
  | zero => exact ⟨hs, rfl⟩
  | succ k ih =>
      obtain ⟨hstarts, hview⟩ := ih
      have hlater : ∀ n, admits (fromCycle (length * k) input n) := fun n => hinput _
      rw [Nat.mul_succ, stateAt_add, stateAt_succ, ← hview]
      exact ⟨h.restarts _ _ hstarts hlater, h.refines _ _ hstarts hlater⟩

end BlockContract

/-- Machines that take related states to related states stay related. -/
theorem stateAt_simulates {step' : κ → τ → τ} {abstract : ι → κ} {R : σ → τ → Prop}
    (simulates : ∀ i s t, R s t → R (step i s) (step' (abstract i) t)) {s : σ} {t : τ}
    (init : R s t) (input : Nat → ι) (n : Nat) :
    R (stateAt step input s n) (stateAt step' (fun n => abstract (input n)) t n) := by
  induction n with
  | zero => exact init
  | succ n ih => exact simulates _ _ _ ih

end Machine
