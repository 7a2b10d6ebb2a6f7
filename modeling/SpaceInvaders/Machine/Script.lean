import SpaceInvaders.Machine.Stream
import Mathlib.Data.List.Basic

/-!
# Timed scripts

A program that writes registers one after the other fixes the order of the
writes, not their times. A run of such a program is a finite list of inputs,
one for each cycle, some of which carry the next write and the others none;
the writes of the run, read off in order, are the script.

`trace` lists the states of a run, the last one included. A register that only
the writes change goes through the values the script dictates and repeats each
of them a positive number of times, whatever the timing: `trace_stutters`.
Facts about all timings of a script then follow from facts about the script.
`Along` transfers a relation between consecutive register values, and
`blocks_stutters` the pulses of an observable.
-/

namespace Machine

variable {α β ι σ τ : Type*}

/-- The state after the inputs `l`. -/
def final (step : ι → σ → σ) (s : σ) : List ι → σ
  | [] => s
  | i :: l => final step (step i s) l

/-- The states of the run on the inputs `l`, both ends included. -/
def trace (step : ι → σ → σ) (s : σ) : List ι → List σ
  | [] => [s]
  | i :: l => s :: trace step (step i s) l

section Runs

variable {step : ι → σ → σ}

@[simp] theorem final_nil (s : σ) : final step s [] = s := rfl

@[simp] theorem final_cons (s : σ) (i : ι) (l : List ι) :
    final step s (i :: l) = final step (step i s) l := rfl

theorem final_append (s : σ) (l m : List ι) :
    final step s (l ++ m) = final step (final step s l) m := by
  induction l generalizing s with
  | nil => rfl
  | cons i l ih => exact ih (step i s)

@[simp] theorem trace_nil (s : σ) : trace step s [] = [s] := rfl

@[simp] theorem trace_cons (s : σ) (i : ι) (l : List ι) :
    trace step s (i :: l) = s :: trace step (step i s) l := rfl

theorem trace_ne_nil (s : σ) (l : List ι) : trace step s l ≠ [] := by
  cases l <;> exact List.cons_ne_nil _ _

@[simp] theorem length_trace (s : σ) (l : List ι) : (trace step s l).length = l.length + 1 := by
  induction l generalizing s with
  | nil => rfl
  | cons i l ih => exact congrArg Nat.succ (ih _)

theorem getElem?_trace (s : σ) (l : List ι) {k : Nat} (hk : k ≤ l.length) :
    (trace step s l)[k]? = some (final step s (l.take k)) := by
  induction l generalizing s k with
  | nil =>
      obtain rfl := Nat.le_zero.mp hk
      rfl
  | cons i l ih =>
      cases k with
      | zero => rfl
      | succ k => exact ih _ (Nat.le_of_succ_le_succ hk)

/-- Two runs meet where the first one ends. -/
theorem trace_append (s : σ) (l m : List ι) :
    trace step s (l ++ m) = (trace step s l).dropLast ++ trace step (final step s l) m := by
  induction l generalizing s with
  | nil => rfl
  | cons i l ih =>
      rw [List.cons_append, trace_cons, ih, trace_cons, final_cons,
        List.dropLast_cons_of_ne_nil (trace_ne_nil _ _), List.cons_append]

/-- The last state of a trace is the final one. -/
theorem dropLast_trace_append (s : σ) (l : List ι) :
    (trace step s l).dropLast ++ [final step s l] = trace step s l := by
  induction l generalizing s with
  | nil => rfl
  | cons i l ih =>
      rw [trace_cons, List.dropLast_cons_of_ne_nil (trace_ne_nil _ _), List.cons_append, final_cons,
        ih]

/-- An output that follows the state one step late. -/
theorem map_trace_delayed {out now : σ → τ} (hout : ∀ i s, out (step i s) = now s) (s : σ)
    (l : List ι) :
    (trace step s l).map out = out s :: (trace step s l).dropLast.map now := by
  induction l generalizing s with
  | nil => rfl
  | cons i l ih =>
      rw [trace_cons, List.map_cons, ih, hout, List.dropLast_cons_of_ne_nil (trace_ne_nil _ _),
        List.map_cons]

/-- The state before input `k`. -/
theorem final_take_succ (s : σ) (l : List ι) {k : Nat} (hk : k < l.length) :
    final step s (l.take (k + 1)) = step l[k] (final step s (l.take k)) := by
  rw [List.take_succ_eq_append_getElem hk, final_append]
  rfl

end Runs

/-- A run that writes `as`, then `a`, then `bs` can be cut at the input that
writes `a`. -/
theorem exists_cut {write : ι → Option α} {l : List ι} (as : List α) (a : α) (bs : List α)
    (h : l.filterMap write = as ++ a :: bs) :
    ∃ l₁ i l₂, l = l₁ ++ i :: l₂ ∧ l₁.filterMap write = as ∧ write i = some a ∧
      l₂.filterMap write = bs := by
  obtain ⟨m₁, m₂, rfl, has, hm₂⟩ := List.filterMap_eq_append_iff.1 h
  obtain ⟨n₁, i, l₂, rfl, hnone, hi, hbs⟩ := List.filterMap_eq_cons_iff.1 hm₂
  refine ⟨m₁ ++ n₁, i, l₂, (List.append_assoc ..).symm, ?_, hi, hbs⟩
  rw [List.filterMap_append, has, List.filterMap_eq_nil_iff.2 hnone, List.append_nil]

/-- A run that has something to write is not empty. -/
theorem length_pos_of_filterMap {write : ι → Option α} {l : List ι} {as : List α}
    (h : l.filterMap write = as) (has : as ≠ []) : 0 < l.length := by
  apply List.length_pos_of_ne_nil
  rintro rfl
  exact has h.symm

/-- `R` holds between each script value of a register and itself, and between
each script value and the next. -/
def Along (R : τ → τ → Prop) (apply : α → τ → τ) (x : τ) : List α → Prop
  | [] => R x x
  | a :: as => R x x ∧ R x (apply a x) ∧ Along R apply (apply a x) as

section Along

variable {R : τ → τ → Prop} {apply : α → τ → τ}

theorem Along.head {x : τ} {as : List α} (h : Along R apply x as) : R x x := by
  cases as with
  | nil => exact h
  | cons a as => exact h.1

theorem Along.mono {S : τ → τ → Prop} (hRS : ∀ x y, R x y → S x y) {x : τ} {as : List α}
    (h : Along R apply x as) : Along S apply x as := by
  induction as generalizing x with
  | nil => exact hRS x x h
  | cons a as ih => exact ⟨hRS _ _ h.1, hRS _ _ h.2.1, ih h.2.2⟩

instance decidableAlong [DecidableRel R] : ∀ (x : τ) (as : List α), Decidable (Along R apply x as)
  | x, [] => inferInstanceAs (Decidable (R x x))
  | x, a :: as =>
    have := decidableAlong (apply a x) as
    inferInstanceAs (Decidable (R x x ∧ R x (apply a x) ∧ Along R apply (apply a x) as))

theorem along_append {x : τ} {as bs : List α} :
    Along R apply x (as ++ bs) ↔ Along R apply x as ∧ Along R apply (final apply x as) bs := by
  induction as generalizing x with
  | nil => exact ⟨fun h => ⟨h.head, h⟩, fun h => h.2⟩
  | cons a as ih =>
      simp only [List.cons_append, Along, ih, final_cons]
      constructor
      · rintro ⟨hx, hstep, has, hbs⟩
        exact ⟨⟨hx, hstep, has⟩, hbs⟩
      · rintro ⟨⟨hx, hstep, has⟩, hbs⟩
        exact ⟨hx, hstep, has, hbs⟩

end Along

/-- `ys` repeats each element of `xs` a positive number of times. -/
inductive Stutters : List τ → List τ → Prop where
  | nil : Stutters [] []
  | advance {x : τ} {xs ys : List τ} : Stutters xs ys → Stutters (x :: xs) (x :: ys)
  | hold {x : τ} {xs ys : List τ} : Stutters (x :: xs) ys → Stutters (x :: xs) (x :: ys)

namespace Stutters

variable {x : τ} {xs ys : List τ}

theorem mem (h : Stutters xs ys) (y : τ) : y ∈ ys ↔ y ∈ xs := by
  induction h with
  | nil => rfl
  | advance _ ih => rw [List.mem_cons, List.mem_cons, ih]
  | hold _ ih =>
      rw [List.mem_cons, ih]
      exact ⟨fun h => h.elim (fun h => h ▸ List.mem_cons_self) id, .inr⟩

theorem nil_iff (h : Stutters xs ys) : xs = [] ↔ ys = [] := by
  cases h with
  | nil => simp
  | advance _ => simp
  | hold _ => simp

theorem map (f : τ → β) (h : Stutters xs ys) : Stutters (xs.map f) (ys.map f) := by
  induction h with
  | nil => exact .nil
  | advance _ ih => exact .advance ih
  | hold _ ih => exact .hold ih

end Stutters

section Register

variable {step : ι → σ → σ} {write : ι → Option α} {apply : α → τ → τ} {reg : σ → τ}

/-- Only the writes of the inputs change the register `reg`. -/
def WrittenBy (step : ι → σ → σ) (write : ι → Option α) (apply : α → τ → τ) (reg : σ → τ) :
    Prop :=
  ∀ i s, reg (step i s) = match write i with
    | none => reg s
    | some a => apply a (reg s)

/-- The register holds what the script has written so far. -/
theorem WrittenBy.final (h : WrittenBy step write apply reg) (s : σ) (l : List ι) :
    reg (final step s l) = Machine.final apply (reg s) (l.filterMap write) := by
  induction l generalizing s with
  | nil => rfl
  | cons i l ih =>
      have hstep := h i s
      rw [final_cons, ih, List.filterMap_cons, hstep]
      cases write i <;> rfl

/-- Timing only repeats the values dictated by the script. -/
theorem WrittenBy.trace_stutters (h : WrittenBy step write apply reg) (s : σ) (l : List ι) :
    Stutters (trace apply (reg s) (l.filterMap write)) ((trace step s l).map reg) := by
  induction l generalizing s with
  | nil => exact .advance .nil
  | cons i l ih =>
      have hstep := h i s
      have hrest := ih (step i s)
      rw [trace_cons, List.map_cons, List.filterMap_cons]
      cases hwrite : write i with
      | none =>
          rw [hwrite] at hstep
          rw [hstep] at hrest
          cases hscript : l.filterMap write with
          | nil => rw [hscript] at hrest; exact .hold hrest
          | cons a as => rw [hscript] at hrest; exact .hold hrest
      | some a =>
          rw [hwrite] at hstep
          rw [hstep] at hrest
          exact .advance hrest

/-- A relation that holds along the script holds between the register values of
each cycle and the next, for every timing. -/
theorem WrittenBy.along (h : WrittenBy step write apply reg) {R : τ → τ → Prop} {s : σ}
    {l : List ι} (hR : Along R apply (reg s) (l.filterMap write)) {k : Nat} (hk : k < l.length) :
    R (reg (Machine.final step s (l.take k))) (reg (Machine.final step s (l.take (k + 1)))) := by
  induction l generalizing s k with
  | nil => exact absurd hk (Nat.not_lt_zero k)
  | cons i l ih =>
      have hstep := h i s
      rw [List.filterMap_cons] at hR
      have hrest : Along R apply (reg (step i s)) (l.filterMap write) := by
        cases hwrite : write i with
        | none => simpa only [hwrite, hstep] using hR
        | some a =>
            rw [hwrite] at hR hstep
            rw [hstep]
            exact hR.2.2
      cases k with
      | zero =>
          cases hwrite : write i with
          | none =>
              rw [hwrite] at hstep
              have hhead := hrest.head
              rw [hstep] at hhead
              simpa [hstep] using hhead
          | some a =>
              rw [hwrite] at hR hstep
              simpa [hstep] using hR.2.1
      | succ k => exact ih hrest (Nat.lt_of_succ_lt_succ hk)

end Register

section Blocks

/-- The leading elements of a list that satisfy `p`, and the maximal blocks of
such elements after them. -/
def leadingAndBlocks (p : τ → Bool) : List τ → List τ × List (List τ)
  | [] => ([], [])
  | a :: l =>
    let rest := leadingAndBlocks p l
    if p a then (a :: rest.1, rest.2)
    else ([], if rest.1.isEmpty then rest.2 else rest.1 :: rest.2)

/-- The maximal blocks of consecutive elements that satisfy `p`, in order. -/
def blocks (p : τ → Bool) (l : List τ) : List (List τ) :=
  let split := leadingAndBlocks p l
  if split.1.isEmpty then split.2 else split.1 :: split.2

variable {p : τ → Bool} {a b : τ} {l : List τ}

@[simp] theorem blocks_nil : blocks p [] = [] := rfl

/-- Elements that do not satisfy `p` in front of a list start no block. -/
@[simp] theorem blocks_cons_of_not (ha : p a = false) : blocks p (a :: l) = blocks p l := by
  simp only [blocks, leadingAndBlocks, ha, Bool.false_eq_true, if_false, List.isEmpty_nil, if_true]

/-- An element that satisfies `p` is a block of its own if the next does not. -/
theorem blocks_cons_cons_of_not (ha : p a = true) (hb : p b = false) :
    blocks p (a :: b :: l) = [a] :: blocks p (b :: l) := by
  simp only [blocks, leadingAndBlocks, ha, hb, Bool.false_eq_true, if_false, if_true,
    List.isEmpty_nil, List.isEmpty_cons]

private theorem leadingAndBlocks_append_of_not (ha : p a = false) (l : List τ) :
    leadingAndBlocks p (l ++ [a]) = leadingAndBlocks p l := by
  induction l with
  | nil => simp only [List.nil_append, leadingAndBlocks, ha, Bool.false_eq_true, if_false,
      List.isEmpty_nil, if_true]
  | cons b l ih => simp only [List.cons_append, leadingAndBlocks, ih]

/-- Nor do such elements at the end. -/
theorem blocks_append_of_not (ha : p a = false) (l : List τ) :
    blocks p (l ++ [a]) = blocks p l := by
  simp only [blocks, leadingAndBlocks_append_of_not ha]

private theorem leadingAndBlocks_stutters {xs ys : List τ} (h : Stutters xs ys) :
    Stutters (leadingAndBlocks p xs).1 (leadingAndBlocks p ys).1 ∧
      List.Forall₂ Stutters (leadingAndBlocks p xs).2 (leadingAndBlocks p ys).2 := by
  induction h with
  | nil => exact ⟨.nil, .nil⟩
  | @advance x xs ys _ ih =>
      obtain ⟨hlead, hrest⟩ := ih
      by_cases hx : p x = true
      · simp only [leadingAndBlocks, hx, if_true]
        exact ⟨.advance hlead, hrest⟩
      · simp only [leadingAndBlocks, hx, Bool.false_eq_true, if_false]
        refine ⟨.nil, ?_⟩
        by_cases hempty : (leadingAndBlocks p xs).1 = []
        · have hempty' := hlead.nil_iff.1 hempty
          simpa only [hempty, hempty', List.isEmpty_nil, if_true] using hrest
        · have hempty' := mt hlead.nil_iff.2 hempty
          simpa only [List.isEmpty_iff, hempty, hempty', if_false] using .cons hlead hrest
  | @hold x xs ys _ ih =>
      obtain ⟨hlead, hrest⟩ := ih
      by_cases hx : p x = true
      · simp only [leadingAndBlocks, hx, if_true] at hlead hrest ⊢
        exact ⟨.hold hlead, hrest⟩
      · simp only [leadingAndBlocks, hx, Bool.false_eq_true, if_false] at hlead hrest ⊢
        -- the held element ends no block of `ys`: it stands where a block could only begin
        have hempty := hlead.nil_iff.1 rfl
        simpa only [hempty, List.isEmpty_nil, if_true] using And.intro .nil hrest

/-- Holding elements longer makes the blocks longer, but makes no new block and
merges none. -/
theorem blocks_stutters {xs ys : List τ} (h : Stutters xs ys) :
    List.Forall₂ Stutters (blocks p xs) (blocks p ys) := by
  obtain ⟨hlead, hrest⟩ := leadingAndBlocks_stutters (p := p) h
  by_cases hempty : (leadingAndBlocks p xs).1 = []
  · have hempty' := hlead.nil_iff.1 hempty
    simpa only [blocks, hempty, hempty', List.isEmpty_nil, if_true] using hrest
  · have hempty' := mt hlead.nil_iff.2 hempty
    simpa only [blocks, List.isEmpty_iff, hempty, hempty', if_false] using .cons hlead hrest

/-- The pulses on an output that follows a written register one step late are
those of the script, held longer. -/
theorem WrittenBy.blocks_delayed {step : ι → σ → σ} {write : ι → Option α} {apply : α → β → β}
    {reg : σ → β} (hreg : WrittenBy step write apply reg) {out : σ → τ} {now : β → τ}
    (hout : ∀ i s, out (step i s) = now (reg s)) {s : σ} {l : List ι} (hfirst : p (out s) = false)
    (hlast : p (now (reg (Machine.final step s l))) = false) :
    List.Forall₂ Stutters (blocks p ((trace apply (reg s) (l.filterMap write)).map now))
      (blocks p ((trace step s l).map out)) := by
  have hfull : blocks p ((trace step s l).map out) =
      blocks p (((trace step s l).map reg).map now) := by
    calc
      blocks p ((trace step s l).map out) =
          blocks p ((trace step s l).dropLast.map fun t => now (reg t)) := by
        rw [map_trace_delayed hout, blocks_cons_of_not hfirst]
      _ = blocks p (((trace step s l).dropLast ++ [Machine.final step s l]).map
            fun t => now (reg t)) := by
        rw [List.map_append, List.map_singleton, blocks_append_of_not hlast]
      _ = blocks p (((trace step s l).map reg).map now) := by
        rw [dropLast_trace_append, List.map_map]
        rfl
  rw [hfull]
  exact blocks_stutters ((hreg.trace_stutters s l).map now)

end Blocks

end Machine
