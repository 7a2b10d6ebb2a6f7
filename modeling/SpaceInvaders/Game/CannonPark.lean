import SpaceInvaders.Game.CannonMirror
import SpaceInvaders.Game.CannonReach

/-!
# Holding a key parks the cannon

While one key is held every tick is the same step of the registers, and the
steps fall towards the edge. The motion lags one tick behind the keys, so a
cannon that was moving the other way first moves away from the edge once more,
and the last step before the edge test takes effect decides between the two
resting places `4` and `2`. The rank of a state is the number of ticks it is
away from rest, which counts the pending motion; it is at most 319.

The runs here may contain resets. The right key is the left key mirrored.
-/

namespace SpaceInvaders.Cannon

open Machine

namespace Registers

/-- One tick with the left key held, and with the right key held. -/
def holdLeft (s : Registers) : Registers := s.next true pressLeft
def holdRight (s : Registers) : Registers := s.next true pressRight

/-- Any non-zero value of `left` is the left key, whatever the value of `right`. -/
theorem next_of_left {keys : Keys} (h : keys.left ≠ 0#8) (s : Registers) :
    s.next true keys = s.holdLeft := by
  simp [holdLeft, next, keyMotion, pressLeft, h]

theorem next_of_right {keys : Keys} (h : keys.left = 0#8 ∧ keys.right ≠ 0#8) (s : Registers) :
    s.next true keys = s.holdRight := by
  simp [holdRight, next, keyMotion, pressRight, h]

/-- At rest in column `p`. -/
def ParkedAt (p : Nat) (s : Registers) : Prop :=
  s.cannonXPos.toNat = p ∧ s.cannonXMotion = 0#10

/-- At rest at the left edge. -/
def ParkedLeft (s : Registers) : Prop := s.cannonXPos.toNat ≤ 4 ∧ s.cannonXMotion = 0#10

/-- The number of ticks to the left resting place. A cannon that still moves
right is further away than its position says. -/
def ticksToLeft (s : Registers) : Nat :=
  if s.cannonXMotion = 0#10 then
    if s.cannonXPos.toNat ≤ 4 then 0 else s.cannonXPos.toNat / 2
  else if s.cannonXMotion = 2#10 then
    if s.cannonXPos.toNat ≤ 4 then 4 else s.cannonXPos.toNat / 2 + 1
  else s.cannonXPos.toNat / 2 - 1

/-- The cannon mirrored at the middle of the screen. -/
def mirror (s : Registers) : Registers := placed (640 - s.cannonXPos.toNat) (-s.cannonXMotion)

theorem mirror_cannonXPos (s : Registers) :
    s.mirror.cannonXPos.toNat = 640 - s.cannonXPos.toNat := by
  rw [mirror, placed, BitVec.toNat_ofNat]
  omega

theorem ticksToLeft_still {s : Registers} (h : s.cannonXMotion = 0#10) :
    s.ticksToLeft = if s.cannonXPos.toNat ≤ 4 then 0 else s.cannonXPos.toNat / 2 := by
  simp [ticksToLeft, h]

theorem ticksToLeft_left {s : Registers} (h : s.cannonXMotion = 1022#10) :
    s.ticksToLeft = s.cannonXPos.toNat / 2 - 1 := by
  simp [ticksToLeft, h]

theorem ticksToLeft_right {s : Registers} (h : s.cannonXMotion = 2#10) :
    s.ticksToLeft = if s.cannonXPos.toNat ≤ 4 then 4 else s.cannonXPos.toNat / 2 + 1 := by
  simp [ticksToLeft, h]

namespace OnTrack

variable {s : Registers}

theorem ticksToLeft_le (h : s.OnTrack) : s.ticksToLeft ≤ 319 := by
  obtain ⟨hm, lo, hi⟩ | ⟨hm, lo, hi⟩ | ⟨hm, lo, hi⟩ := h.range
  · rw [ticksToLeft_still hm]
    split <;> omega
  · rw [ticksToLeft_left hm]
    omega
  · rw [ticksToLeft_right hm]
    split <;> omega

/-- A tick with the left key held, in terms of the position as a number. -/
theorem holdLeft_cannonXMotion (h : s.OnTrack) :
    s.holdLeft.cannonXMotion = if s.cannonXPos.toNat ≤ 4 then 0#10 else 1022#10 := by
  have hbounds := h.bounds
  rw [holdLeft, next_true_cannonXMotion, keyMotion_cannonXMotion (by omega), if_pos (by decide)]

/-- Every tick on the way brings the resting place nearer. -/
theorem ticksToLeft_falls (h : s.OnTrack) (hs : ¬s.ParkedLeft) :
    s.holdLeft.ticksToLeft < s.ticksToLeft := by
  have hmotion := h.holdLeft_cannonXMotion
  have hposition : s.holdLeft.cannonXPos = s.cannonXPos + s.cannonXMotion := rfl
  by_cases hedge : s.cannonXPos.toNat ≤ 4
  · -- At the edge the motion is stopped, and applied for the last time.
    rw [if_pos hedge] at hmotion
    rw [ticksToLeft_still hmotion, hposition]
    obtain ⟨hm, hx⟩ | ⟨hm, lo, hx⟩ | ⟨hm, hi, hx⟩ := h.add_motion
    · exact absurd ⟨hedge, hm⟩ hs
    · rw [ticksToLeft_left hm]
      split <;> omega
    · rw [ticksToLeft_right hm, if_pos hedge]
      split <;> omega
  · rw [if_neg hedge] at hmotion
    rw [ticksToLeft_left hmotion, hposition]
    obtain ⟨hm, hx⟩ | ⟨hm, lo, hx⟩ | ⟨hm, hi, hx⟩ := h.add_motion
    · rw [ticksToLeft_still hm, if_neg hedge]
      omega
    · have heven := h.even
      rw [ticksToLeft_left hm]
      omega
    · rw [ticksToLeft_right hm, if_neg hedge]
      omega

/-- A parked cannon stays where it is. -/
theorem holdLeft_parkedAt (h : s.OnTrack) {p : Nat} (hp : p ≤ 4) (hs : ParkedAt p s) :
    ParkedAt p s.holdLeft := by
  obtain ⟨hposition, hmotion⟩ := hs
  refine ⟨?_, ?_⟩
  · change (s.cannonXPos + s.cannonXMotion).toNat = p
    rw [hmotion, BitVec.add_zero, hposition]
  · rw [h.holdLeft_cannonXMotion, if_pos (by omega)]

theorem iterate_holdLeft (h : s.OnTrack) (n : Nat) : (holdLeft^[n] s).OnTrack :=
  iterate_invariant_from (f := holdLeft) (fun _ hs => hs.next pressLeft) (a := 0) h (Nat.zero_le n)

/-- The left key brings the cannon to rest at the left edge, for good. -/
theorem exists_parkedLeft (h : s.OnTrack) :
    ∃ t p, t ≤ 319 ∧ (p = 2 ∨ p = 4) ∧ ∀ n, t ≤ n → ParkedAt p (holdLeft^[n] s) := by
  have hfalls : ∀ s : Registers, ¬(s.OnTrack → s.ParkedLeft) →
      s.holdLeft.ticksToLeft < s.ticksToLeft := by
    intro s hs
    rw [Classical.not_imp] at hs
    exact hs.1.ticksToLeft_falls hs.2
  obtain ⟨t, ht, hgood⟩ := exists_le_rank ticksToLeft hfalls s
  have htrack := h.iterate_holdLeft t
  obtain ⟨p, hp⟩ : ∃ p, ParkedAt p (holdLeft^[t] s) := ⟨_, rfl, (hgood htrack).2⟩
  have hedge : p ≤ 4 := hp.1 ▸ (hgood htrack).1
  have hbounds := htrack.bounds
  have heven := htrack.even
  rw [hp.1] at hbounds heven
  refine ⟨t, p, Nat.le_trans ht h.ticksToLeft_le, by omega, fun n hn => ?_⟩
  have hstays : ∀ s : Registers, s.OnTrack ∧ ParkedAt p s →
      s.holdLeft.OnTrack ∧ ParkedAt p s.holdLeft :=
    fun s hs => ⟨hs.1.next pressLeft, hs.1.holdLeft_parkedAt hedge hs.2⟩
  exact (iterate_invariant_from hstays ⟨htrack, hp⟩ hn).2

theorem mirrored (h : s.OnTrack) : Mirrored s s.mirror where
  position := by
    have hbounds := h.bounds
    rw [s.mirror_cannonXPos]
    omega
  motion := rfl

theorem mirror_onTrack (h : s.OnTrack) : s.mirror.OnTrack where
  even := by
    have heven := h.even
    rw [s.mirror_cannonXPos]
    omega
  range := by
    have hposition := s.mirror_cannonXPos
    have hmotion : s.mirror.cannonXMotion = -s.cannonXMotion := rfl
    obtain ⟨hm, lo, hi⟩ | ⟨hm, lo, hi⟩ | ⟨hm, lo, hi⟩ := h.range
    · exact .inl ⟨by rw [hmotion, hm]; rfl, by omega, by omega⟩
    · exact .inr (.inr ⟨by rw [hmotion, hm]; rfl, by omega, by omega⟩)
    · exact .inr (.inl ⟨by rw [hmotion, hm]; rfl, by omega, by omega⟩)
  row := rfl
  level := rfl

/-- Holding the right key is holding the left key in the mirror. -/
theorem iterate_mirrored (h : s.OnTrack) (n : Nat) :
    (holdRight^[n] s).OnTrack ∧ Mirrored (holdRight^[n] s) (holdLeft^[n] s.mirror) := by
  induction n with
  | zero => exact ⟨h, h.mirrored⟩
  | succ n ih =>
      rw [Function.iterate_succ_apply', Function.iterate_succ_apply']
      exact ⟨ih.1.next pressRight,
        ih.2.next ih.1 (h.mirror_onTrack.iterate_holdLeft n) (.inl rfl)⟩

/-- The right key brings the cannon to rest at the right edge, for good. -/
theorem exists_parkedRight (h : s.OnTrack) :
    ∃ t p, t ≤ 319 ∧ (p = 636 ∨ p = 638) ∧ ∀ n, t ≤ n → ParkedAt p (holdRight^[n] s) := by
  obtain ⟨t, p, ht, hp, hparked⟩ := h.mirror_onTrack.exists_parkedLeft
  refine ⟨t, 640 - p, ht, by omega, fun n hn => ?_⟩
  obtain ⟨hposition, hmotion⟩ := hparked n hn
  have hmirror := (h.iterate_mirrored n).2
  refine ⟨?_, ?_⟩
  · have hsum := hmirror.position
    omega
  · have hneg := hmirror.motion
    rw [hmotion] at hneg
    exact BitVec.neg_eq_zero_iff.mp hneg.symm

end OnTrack

end Registers

open Registers

/-- Cycle `n` of a run under any inputs is a frame tick. -/
def ticksAt (e : EdgeDetector) (i : Nat → Input) (n : Nat) : Bool :=
  (reached e i n).edge.frameClkRisingEdge

/-- The number of frame ticks in the `j` cycles from cycle `n` on. -/
def ticksFrom (e : EdgeDetector) (i : Nat → Input) (n j : Nat) : Nat :=
  Nat.count (fun k => ticksAt e i (n + k) = true) j

/-- In the `j` cycles from cycle `n` on there is no reset, and every tick finds
keys with `P`. -/
def Held (P : Keys → Prop) (e : EdgeDetector) (i : Nat → Input) (n j : Nat) : Prop :=
  ∀ k, k < j → (i (n + k)).reset = false ∧ (ticksAt e i (n + k) = true → P (i (n + k)).keys)

section Run

variable {e : EdgeDetector} {i : Nat → Input}

/-- While the keys are held, every tick is the same step. -/
theorem regs_of_held {P : Keys → Prop} {f : Registers → Registers}
    (hP : ∀ keys, P keys → ∀ s : Registers, s.next true keys = f s) {n j : Nat}
    (h : Held P e i n j) :
    (reached e i (n + j)).regs = f^[ticksFrom e i n j] (reached e i n).regs := by
  refine gated_eq_iterate (x := fun k => (reached e i (n + k)).regs) ?_
  intro k hk
  obtain ⟨hreset, hkeys⟩ := h k hk
  change (State.step (i (n + k)) (reached e i (n + k))).regs = _
  rw [State.step_regs_eq _ _ hreset]
  cases htick : ticksAt e i (n + k) with
  | true =>
      rw [ticksAt] at htick
      rw [htick]
      exact hP _ (hkeys htick) _
  | false =>
      rw [ticksAt] at htick
      rw [htick]
      rfl

/-- From every reachable state, holding left parks the cannon at 2 or 4 and
holding right alone parks it at 636 or 638, within 319 ticks and for as long as
the key is held. -/
theorem heldKey_parks (e : EdgeDetector) (i : Nat → Input) (n : Nat) :
    (∃ t p, t ≤ 319 ∧ (p = 2 ∨ p = 4) ∧
      ∀ j, Held (fun keys => keys.left ≠ 0#8) e i n j → t ≤ ticksFrom e i n j →
        ParkedAt p (reached e i (n + j)).regs) ∧
    (∃ t p, t ≤ 319 ∧ (p = 636 ∨ p = 638) ∧
      ∀ j, Held (fun keys => keys.left = 0#8 ∧ keys.right ≠ 0#8) e i n j →
        t ≤ ticksFrom e i n j → ParkedAt p (reached e i (n + j)).regs) := by
  refine ⟨?_, ?_⟩
  · obtain ⟨t, p, ht, hp, hparked⟩ := (onTrack_reached (e := e) i n).exists_parkedLeft
    refine ⟨t, p, ht, hp, fun j hheld hticks => ?_⟩
    rw [regs_of_held (fun _ => next_of_left) hheld]
    exact hparked _ hticks
  · obtain ⟨t, p, ht, hp, hparked⟩ := (onTrack_reached (e := e) i n).exists_parkedRight
    refine ⟨t, p, ht, hp, fun j hheld hticks => ?_⟩
    rw [regs_of_held (fun _ => next_of_right) hheld]
    exact hparked _ hticks

end Run

end SpaceInvaders.Cannon
