import Mathlib.Data.List.Basic
import Mathlib.Data.Nat.Count
import Mathlib.Order.Iterate

/-!
# Machines driven by a stream of inputs

A machine is its step function `step : ι → σ → σ`. It is driven by a stream
`input : Nat → ι`: the input `input n` is present during cycle `n` and takes the
state of cycle `n` to the state of cycle `n + 1`. `stateAt` is the state during
a cycle, so statements about it are statements about every cycle of an
unbounded run.

Besides the induction rules and the ranking rule for iterated steps, this file
describes machines that are enabled in some cycles only. Such a machine holds
its state elsewhere, and its whole run is a fold over the enabled cycles in
their order.
-/

namespace Machine

variable {ι σ τ : Type*}

/-- The state during cycle `n` of the run that starts in `s`. -/
def stateAt (step : ι → σ → σ) (input : Nat → ι) (s : σ) : Nat → σ
  | 0 => s
  | n + 1 => step (input n) (stateAt step input s n)

section StateAt

variable {step : ι → σ → σ} {input : Nat → ι} {s : σ}

@[simp] theorem stateAt_zero : stateAt step input s 0 = s := rfl

theorem stateAt_succ (n : Nat) :
    stateAt step input s (n + 1) = step (input n) (stateAt step input s n) := rfl

/-- The state of a cycle depends on the inputs before it only. -/
theorem stateAt_congr {input' : Nat → ι} {n : Nat} (h : ∀ k, k < n → input k = input' k) :
    stateAt step input s n = stateAt step input' s n := by
  induction n with
  | zero => rfl
  | succ n ih =>
      rw [stateAt_succ, stateAt_succ, h n (Nat.lt_succ_self n),
        ih fun k hk => h k (Nat.lt_succ_of_lt hk)]

/-- An invariant that holds initially and is kept by every step holds in
every cycle. The invariant may depend on the cycle number. -/
theorem stateAt_invariant {P : Nat → σ → Prop} (init : P 0 s)
    (preserved : ∀ n, P n (stateAt step input s n) →
      P (n + 1) (step (input n) (stateAt step input s n))) (n : Nat) :
    P n (stateAt step input s n) := by
  induction n with
  | zero => exact init
  | succ n ih => exact preserved n ih

/-- An invariant that has been established in cycle `a` holds from then on. -/
theorem stateAt_invariant_from {P : Nat → σ → Prop} {a : Nat}
    (init : P a (stateAt step input s a))
    (preserved : ∀ n, a ≤ n → P n (stateAt step input s n) →
      P (n + 1) (step (input n) (stateAt step input s n))) {n : Nat} (hn : a ≤ n) :
    P n (stateAt step input s n) := by
  induction n, hn using Nat.le_induction with
  | base => exact init
  | succ n hn ih => exact preserved n hn ih

end StateAt

section Ranking

variable {f : σ → σ}

/-- A rank that falls at every step outside `good` bounds the number of steps
until `good` holds. -/
theorem exists_le_rank {good : σ → Prop} (rank : σ → Nat)
    (falls : ∀ s, ¬good s → rank (f s) < rank s) (s : σ) :
    ∃ n, n ≤ rank s ∧ good (f^[n] s) := by
  induction hr : rank s using Nat.strong_induction_on generalizing s with
  | _ r ih =>
      by_cases hs : good s
      · exact ⟨0, Nat.zero_le r, hs⟩
      · have hlt := falls s hs
        obtain ⟨n, hn, hgood⟩ := ih (rank (f s)) (hr ▸ hlt) (f s) rfl
        exact ⟨n + 1, by omega, hgood⟩

/-- A property that the step keeps holds from the first time on. -/
theorem iterate_invariant_from {good : σ → Prop} (closed : ∀ s, good s → good (f s)) {s : σ}
    {a n : Nat} (ha : good (f^[a] s)) (hn : a ≤ n) : good (f^[n] s) := by
  induction n, hn using Nat.le_induction with
  | base => exact ha
  | succ n _ ih =>
      rw [Function.iterate_succ_apply']
      exact closed _ ih

end Ranking

section Gated

variable {x : Nat → τ} {g : Nat → Bool} {f : Nat → τ → τ}

/-- The cycles before `n` in which the gate is open, in their order. -/
def openCycles (g : Nat → Bool) (n : Nat) : List Nat :=
  (List.range n).filter (fun k => g k)

@[simp] theorem openCycles_zero (g : Nat → Bool) : openCycles g 0 = [] := rfl

theorem openCycles_succ (g : Nat → Bool) (n : Nat) :
    openCycles g (n + 1) = openCycles g n ++ if g n then [n] else [] := by
  simp only [openCycles, List.range_succ, List.filter_append, List.filter_cons, List.filter_nil]

/-- A gated register is the fold of its update over the open cycles. -/
theorem gated_eq_foldl (hx : ∀ n, x (n + 1) = if g n then f n (x n) else x n) (n : Nat) :
    x n = (openCycles g n).foldl (fun s k => f k s) (x 0) := by
  induction n with
  | zero => rfl
  | succ n ih =>
      rw [hx, openCycles_succ, List.foldl_append, ← ih]
      cases g n <;> rfl

/-- While the update stays the same, a gated register iterates it over the times
at which the gate is open. -/
theorem gated_eq_iterate {p : Nat → Prop} [DecidablePred p] {h : τ → τ} {b : Nat}
    (hx : ∀ k, k < b → x (k + 1) = if p k then h (x k) else x k) :
    x b = h^[Nat.count p b] (x 0) := by
  induction b with
  | zero => rfl
  | succ b ih =>
      rw [hx b (Nat.lt_succ_self b), Nat.count_succ, ih fun k hk => hx k (Nat.lt_succ_of_lt hk)]
      split
      · rw [Function.iterate_succ_apply']
      · rfl

/-- A gated register keeps its value while the gate stays shut. -/
theorem gated_hold (hx : ∀ n, x (n + 1) = if g n then f n (x n) else x n) {a b : Nat}
    (hab : a ≤ b) (shut : ∀ k, a ≤ k → k < b → g k = false) : x b = x a := by
  induction b, hab using Nat.le_induction with
  | base => rfl
  | succ b hab ih =>
      rw [hx, shut b hab (Nat.lt_succ_self b)]
      exact ih fun k hk hkb => shut k hk (Nat.lt_succ_of_lt hkb)

end Gated

end Machine
