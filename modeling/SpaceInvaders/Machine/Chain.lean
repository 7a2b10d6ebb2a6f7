import Mathlib.Data.List.Basic
import Mathlib.Logic.Function.Basic

/-!
# Linked chains in memory

A memory holds nodes at addresses, and each node names the address of the next
one; the address `null` ends a chain. `IsChain` relates an address to the nodes
that hang on it, in order. `follow` computes them in a memory of which only some
nodes are known, and its answer holds in every memory that agrees on those.
-/

namespace Machine

variable {α ν : Type*}

section Chain

variable (load : α → ν) (next : ν → α) (null : α)

/-- The nodes of the chain that begins at an address. -/
inductive IsChain : α → List ν → Prop where
  | nil : IsChain null []
  | cons {a : α} {nodes : List ν} (nonnull : a ≠ null) (tail : IsChain (next (load a)) nodes) :
    IsChain a (load a :: nodes)

end Chain

section Follow

variable {load : α → ν} {next : ν → α} {null : α}

/-- A chain begins with the node at its address. -/
theorem IsChain.exists_rest {a : α} {nodes : List ν} (h : IsChain load next null a nodes)
    (ha : a ≠ null) :
    ∃ rest, nodes = load a :: rest ∧ IsChain load next null (next (load a)) rest := by
  cases h with
  | nil => exact absurd rfl ha
  | cons _ tail => exact ⟨_, rfl, tail⟩

variable [DecidableEq α]

/-- Walk at most `fuel` nodes of a partly known memory. -/
def follow (load? : α → Option ν) (next : ν → α) (null : α) : Nat → α → Option (List ν)
  | 0, a => if a = null then some [] else none
  | fuel + 1, a =>
    if a = null then some []
    else
      match load? a with
      | none => none
      | some node => (follow load? next null fuel (next node)).map (node :: ·)

/-- A walk finds the chain of every memory that has the known nodes. -/
theorem isChain_of_follow {load? : α → Option ν}
    (hload : ∀ a node, load? a = some node → load a = node) {fuel : Nat} {a : α} {nodes : List ν}
    (h : follow load? next null fuel a = some nodes) : IsChain load next null a nodes := by
  induction fuel generalizing a nodes with
  | zero =>
      rw [follow] at h
      split at h
      · next ha =>
        cases h
        rw [ha]
        exact .nil
      · cases h
  | succ fuel ih =>
      rw [follow] at h
      split at h
      · next ha =>
        cases h
        rw [ha]
        exact .nil
      · next ha =>
        split at h
        · cases h
        · next node hnode =>
          obtain ⟨rest, hrest, rfl⟩ := Option.map_eq_some_iff.1 h
          have hnode' := hload a node hnode
          subst hnode'
          exact .cons ha (ih hrest)

end Follow

end Machine
