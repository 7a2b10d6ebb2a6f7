import Mathlib.Order.Basic
import Mathlib.Data.Nat.Find

/-!
# What a run leads to

Progress of a run, with properties of the time as predicates on `Nat`. `LeadsTo p q`
says that every time with `p` is followed by one with `q`. It is composed by
transitivity and by induction on a rank, and comes from fairness: an action that
is taken again and again, and before which `p` stays, leads from `p` to its
effect. `InOrder` is about the past: several things have happened one after the
other.
-/

namespace Machine

variable {p q r act : Nat → Prop}

/-- The first time from `n` on at which a property holds. -/
theorem exists_first {n : Nat} (h : ∃ m, n ≤ m ∧ p m) :
    ∃ m, n ≤ m ∧ p m ∧ ∀ k, n ≤ k → k < m → ¬p k := by
  classical
  refine ⟨Nat.find h, (Nat.find_spec h).1, (Nat.find_spec h).2, ?_⟩
  intro k hnk hk hp
  exact Nat.find_min h hk ⟨hnk, hp⟩

/-- The last time before `n` at which a property holds. -/
theorem exists_last {n : Nat} (h : ∃ m, m < n ∧ p m) :
    ∃ m, m < n ∧ p m ∧ ∀ k, m < k → k < n → ¬p k := by
  induction n with
  | zero =>
      obtain ⟨m, hm, -⟩ := h
      exact absurd hm (Nat.not_lt_zero m)
  | succ n ih =>
      by_cases hn : p n
      · exact ⟨n, Nat.lt_succ_self n, hn, fun k hk hkn => by omega⟩
      · obtain ⟨m, hm, hp⟩ := h
        obtain ⟨l, hl, hpl, hlast⟩ := ih ⟨m, (Nat.lt_succ_iff_lt_or_eq.mp hm).resolve_right
          fun heq => hn (heq ▸ hp), hp⟩
        refine ⟨l, Nat.lt_succ_of_lt hl, hpl, fun k hk hkn => ?_⟩
        obtain hlt | rfl := Nat.lt_succ_iff_lt_or_eq.mp hkn
        · exact hlast k hk hlt
        · exact hn

/-- A rank that does not rise any more from `n` on is constant from some time on. -/
theorem exists_settled {rank : Nat → Nat} {n : Nat} (h : ∀ k, n ≤ k → rank (k + 1) ≤ rank k) :
    ∃ m, n ≤ m ∧ ∀ k, m ≤ k → rank k = rank m := by
  induction hrank : rank n using Nat.strong_induction_on generalizing n with
  | _ r ih =>
      by_cases hlower : ∃ m, n ≤ m ∧ rank m < r
      · obtain ⟨m, hnm, hlt⟩ := hlower
        obtain ⟨l, hml, hconst⟩ := ih (rank m) hlt (fun k hk => h k (Nat.le_trans hnm hk)) rfl
        exact ⟨l, Nat.le_trans hnm hml, hconst⟩
      · refine ⟨n, Nat.le_refl n, fun k hk => ?_⟩
        have hle : rank k ≤ rank n := by
          induction k, hk using Nat.le_induction with
          | base => exact Nat.le_refl _
          | succ k hk ih' => exact Nat.le_trans (h k hk) ih'
        have hge : ¬rank k < r := fun hlt => hlower ⟨k, hk, hlt⟩
        omega

/-- Every time with `p` is followed by a time with `q`. -/
def LeadsTo (p q : Nat → Prop) : Prop := ∀ n, p n → ∃ m, n ≤ m ∧ q m

/-- The property holds again and again. -/
def Recurs (p : Nat → Prop) : Prop := ∀ n, ∃ m, n ≤ m ∧ p m

/-- What an action that is taken again and again brings about from `n` on, and the other
steps keep, holds from some time on. -/
theorem Recurs.settles {n : Nat} (hact : Recurs act) (effect : ∀ k, n ≤ k → act k → p (k + 1))
    (keeps : ∀ k, ¬act k → p k → p (k + 1)) : ∃ m, ∀ k, m ≤ k → p k := by
  obtain ⟨m, hnm, hm⟩ := hact n
  refine ⟨m + 1, fun k hk => ?_⟩
  induction k, hk using Nat.le_induction with
  | base => exact effect m hnm hm
  | succ k hk ih =>
      by_cases hk' : act k
      · exact effect k (by omega) hk'
      · exact keeps k hk' ih

namespace LeadsTo

theorem of_imp (h : ∀ n, p n → q n) : LeadsTo p q := fun n hp => ⟨n, Nat.le_refl n, h n hp⟩

theorem trans (hpq : LeadsTo p q) (hqr : LeadsTo q r) : LeadsTo p r := by
  intro n hp
  obtain ⟨m, hnm, hq⟩ := hpq n hp
  obtain ⟨k, hmk, hr⟩ := hqr m hq
  exact ⟨k, Nat.le_trans hnm hmk, hr⟩

/-- A rank that falls until `q` holds. -/
theorem of_rank (rank : Nat → Nat)
    (h : ∀ n, p n → ∃ m, n ≤ m ∧ (q m ∨ p m ∧ rank m < rank n)) : LeadsTo p q := by
  intro n
  induction hrank : rank n using Nat.strong_induction_on generalizing n with
  | _ k ih =>
      intro hp
      obtain ⟨m, hnm, hq | ⟨hp', hlt⟩⟩ := h n hp
      · exact ⟨m, hnm, hq⟩
      · obtain ⟨i, hmi, hq⟩ := ih (rank m) (hrank ▸ hlt) m rfl hp'
        exact ⟨i, Nat.le_trans hnm hmi, hq⟩

/-- A recurring action brings about `q` if `p` stays until it is taken. -/
theorem of_recurs (hact : Recurs act) (stays : ∀ n, p n → ¬act n → p (n + 1))
    (effect : ∀ n, p n → act n → q (n + 1)) : LeadsTo p q := by
  intro n hp
  obtain ⟨m, hnm, hm, hbefore⟩ := exists_first (hact n)
  have hstays : ∀ k, n ≤ k → k ≤ m → p k := by
    intro k hnk
    induction k, hnk using Nat.le_induction with
    | base => exact fun _ => hp
    | succ k hnk ih =>
        intro hkm
        exact stays k (ih (Nat.le_of_lt hkm)) (hbefore k hnk hkm)
  exact ⟨m + 1, Nat.le_succ_of_le hnm, effect m (hstays m hnm (Nat.le_refl m)) hm⟩

end LeadsTo

section InOrder

variable {μ : Type*} {happens : μ → Nat → Prop} {a n : Nat}

/-- The things in the list happen one after the other, at times from `a` on and
before `n`. -/
def InOrder (happens : μ → Nat → Prop) : List μ → Nat → Nat → Prop
  | [], a, n => a ≤ n
  | x :: xs, a, n => ∃ k, a ≤ k ∧ k < n ∧ happens x k ∧ InOrder happens xs (k + 1) n

namespace InOrder

theorem le {xs : List μ} (h : InOrder happens xs a n) : a ≤ n := by
  cases xs with
  | nil => exact h
  | cons x xs =>
      obtain ⟨k, hak, hkn, -⟩ := h
      exact Nat.le_of_lt (Nat.lt_of_le_of_lt hak hkn)

/-- What has happened before `n` has happened before every later time. -/
theorem mono {xs : List μ} {m : Nat} (h : InOrder happens xs a n) (hnm : n ≤ m) :
    InOrder happens xs a m := by
  induction xs generalizing a with
  | nil => exact Nat.le_trans h hnm
  | cons x xs ih =>
      obtain ⟨k, hak, hkn, hx, h⟩ := h
      exact ⟨k, hak, Nat.lt_of_lt_of_le hkn hnm, hx, ih h⟩

/-- With a list its beginnings have happened. -/
theorem of_append {xs ys : List μ} (h : InOrder happens (xs ++ ys) a n) :
    InOrder happens xs a n := by
  induction xs generalizing a with
  | nil => exact h.le
  | cons x xs ih =>
      obtain ⟨k, hak, hkn, hx, h⟩ := h
      exact ⟨k, hak, hkn, hx, ih h⟩

/-- The next thing happens. -/
theorem concat {xs : List μ} {x : μ} (h : InOrder happens xs a n) (hx : happens x n) :
    InOrder happens (xs ++ [x]) a (n + 1) := by
  induction xs generalizing a with
  | nil => exact ⟨n, h, Nat.lt_succ_self n, hx, Nat.le_refl _⟩
  | cons y xs ih =>
      obtain ⟨k, hak, hkn, hy, h⟩ := h
      exact ⟨k, hak, Nat.lt_succ_of_lt hkn, hy, ih h⟩

/-- Of the first things on a list, fewer have happened too. -/
theorem take_of_le {xs : List μ} {i j : Nat} (h : InOrder happens (xs.take j) a n) (hij : i ≤ j) :
    InOrder happens (xs.take i) a n := by
  rw [← List.take_append_drop i (xs.take j), List.take_take, Nat.min_eq_left hij] at h
  exact h.of_append

/-- After the first things on a list, the one that follows them happens. -/
theorem take_succ {xs : List μ} {x : μ} {i : Nat} (h : InOrder happens (xs.take i) a n)
    (hnext : xs[i]? = some x) (hx : happens x n) :
    InOrder happens (xs.take (i + 1)) a (n + 1) := by
  rw [List.take_add_one, hnext]
  exact h.concat hx

end InOrder

end InOrder

end Machine
