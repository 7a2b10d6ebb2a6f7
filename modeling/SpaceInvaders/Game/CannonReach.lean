import SpaceInvaders.Game.CannonTrack
import SpaceInvaders.Machine.Script
import SpaceInvaders.Machine.Eventually

/-!
# Every state of the cannon that keys can reach

`OnTrack` bounds the positions and motions a run can show. Here the bound is
shown to be exact: from reset the keys can bring the cannon to every even
position between 2 and 638, and leave it there with every motion the invariant
allows. A resting cannon is moved by one step with a key and a release; the two
outermost positions are reached by holding the key at the last position inside
the edge test.

The key sequence is given one entry a frame. `exists_run_frames` plays it under
any frame clock that keeps rising.
-/

namespace SpaceInvaders.Cannon

open Machine

/-- The registers after one tick for each entry of `keys`, from reset. -/
def frames (keys : List Keys) : Registers :=
  final (fun k (s : Registers) => s.next true k) .reset keys

theorem frames_concat (keys : List Keys) (k : Keys) :
    frames (keys ++ [k]) = (frames keys).next true k := final_append _ _ _

/-- Left, right and no key. -/
def pressLeft : Keys := ⟨1#8, 0#8⟩
def pressRight : Keys := ⟨0#8, 1#8⟩
def released : Keys := ⟨0#8, 0#8⟩

namespace Registers

/-- The cannon at `x` on its row, with a pending motion. -/
def placed (x : Nat) (motion : BitVec 10) : Registers where
  cannonXPos := BitVec.ofNat 10 x
  cannonYPos := cannonYResetPos
  cannonXMotion := motion
  cannonYMotion := 0#10

/-- One tick of a placed cannon. -/
theorem next_placed {x y : Nat} {motion : BitVec 10} (hx : x < 1020)
    (hy : BitVec.ofNat 10 x + motion = BitVec.ofNat 10 y) (keys : Keys) :
    (placed x motion).next true keys =
      placed y
        (if keys.left ≠ 0#8 then if x ≤ 4 then 0#10 else 1022#10
        else if keys.right ≠ 0#8 then if 635 ≤ x then 0#10 else 2#10
        else 0#10) := by
  have hposition : (placed x motion).cannonXPos.toNat = x := by
    rw [placed, BitVec.toNat_ofNat]
    omega
  have hmotion := keyMotion_cannonXMotion (s := placed x motion) (by omega) keys
  rw [hposition] at hmotion
  have hlevel := keyMotion_cannonYMotion (s := placed x motion) rfl keys
  rw [← hmotion]
  simp only [next, if_true, placed, hy] at hlevel ⊢
  rw [hlevel]
  rfl

end Registers

open Registers

/-- Some sequence of keys leads to the registers `s`. -/
def Framed (s : Registers) : Prop := ∃ keys, frames keys = s

namespace Framed

variable {x y : Nat} {motion : BitVec 10}

theorem reset : Framed (placed 320 0#10) := ⟨[], rfl⟩

theorem next {s : Registers} (h : Framed s) (k : Keys) : Framed (s.next true k) := by
  obtain ⟨keys, rfl⟩ := h
  exact ⟨keys ++ [k], frames_concat keys k⟩

/-- A tick applies the pending motion; without a key the cannon then rests. -/
theorem release (h : Framed (placed x motion)) (hx : x < 1020)
    (hy : BitVec.ofNat 10 x + motion = BitVec.ofNat 10 y) : Framed (placed y 0#10) := by
  have hnext := h.next released
  rwa [next_placed hx hy] at hnext

/-- The left key sets the cannon in motion, except at the left edge. -/
theorem left (h : Framed (placed x motion)) (hx : 4 < x) (hx' : x < 1020)
    (hy : BitVec.ofNat 10 x + motion = BitVec.ofNat 10 y) : Framed (placed y 1022#10) := by
  have hnext := h.next pressLeft
  rwa [next_placed hx' hy, if_pos (by decide), if_neg (by omega)] at hnext

/-- The right key sets the cannon in motion, except at the right edge. -/
theorem right (h : Framed (placed x motion)) (hx : x < 635)
    (hy : BitVec.ofNat 10 x + motion = BitVec.ofNat 10 y) : Framed (placed y 2#10) := by
  have hnext := h.next pressRight
  rwa [next_placed (by omega) hy, if_neg (by decide), if_pos (by decide), if_neg (by omega)]
    at hnext

private theorem ofNat_add_left (hx : 2 ≤ x) :
    BitVec.ofNat 10 x + 1022#10 = BitVec.ofNat 10 (x - 2) := by
  apply BitVec.eq_of_toNat_eq
  rw [BitVec.toNat_add]
  simp only [BitVec.toNat_ofNat]
  omega

private theorem ofNat_add_right : BitVec.ofNat 10 x + 2#10 = BitVec.ofNat 10 (x + 2) :=
  (BitVec.ofNat_add x 2).symm

/-- A resting cannon can be moved left and brought to rest. -/
theorem stepLeft (h : Framed (placed x 0#10)) (hx : 4 < x) (hx' : x < 1020) :
    Framed (placed (x - 2) 0#10) :=
  (h.left hx hx' (BitVec.add_zero _)).release hx' (ofNat_add_left (by omega))

/-- A resting cannon can be moved right and brought to rest. -/
theorem stepRight (h : Framed (placed x 0#10)) (hx : x < 635) :
    Framed (placed (x + 2) 0#10) :=
  (h.right hx (BitVec.add_zero _)).release (by omega) ofNat_add_right

/-- Resting left of the middle. -/
theorem still_left {k : Nat} (hk : k ≤ 158) : Framed (placed (320 - 2 * k) 0#10) := by
  induction k with
  | zero => exact reset
  | succ k ih => exact (ih (by omega)).stepLeft (by omega) (by omega)

/-- Resting right of the middle. -/
theorem still_right {k : Nat} (hk : k ≤ 158) : Framed (placed (320 + 2 * k) 0#10) := by
  induction k with
  | zero => exact reset
  | succ k ih => exact (ih (by omega)).stepRight (by omega)

/-- Holding the left key at `6` carries the cannon to `4` in motion. -/
theorem left_edge : Framed (placed 4 1022#10) := by
  have hsix : Framed (placed 6 1022#10) :=
    (still_left (k := 157) (by decide)).left (by decide) (by decide) rfl
  exact hsix.left (by decide) (by decide) rfl

/-- Holding the right key at `634` carries the cannon to `636` in motion. -/
theorem right_edge : Framed (placed 636 2#10) := by
  have hlast : Framed (placed 634 2#10) :=
    (still_right (k := 157) (by decide)).right (by decide) rfl
  exact hlast.right (by decide) rfl

/-- Every even position between the outermost ones can be a resting place. -/
theorem still (heven : x % 2 = 0) (hlo : 2 ≤ x) (hhi : x ≤ 638) : Framed (placed x 0#10) := by
  obtain rfl | hlo : x = 2 ∨ 4 ≤ x := by omega
  · exact left_edge.release (by decide) rfl
  obtain rfl | hhi : x = 638 ∨ x ≤ 636 := by omega
  · exact right_edge.release (by decide) rfl
  obtain hmiddle | hmiddle := Nat.le_total x 320
  · have hstill := still_left (k := (320 - x) / 2) (by omega)
    rwa [show 320 - 2 * ((320 - x) / 2) = x by omega] at hstill
  · have hstill := still_right (k := (x - 320) / 2) (by omega)
    rwa [show 320 + 2 * ((x - 320) / 2) = x by omega] at hstill

/-- The invariant describes nothing but reachable registers. -/
theorem of_motionRange (heven : x % 2 = 0) (hrange : MotionRange x motion) :
    Framed (placed x motion) := by
  obtain ⟨rfl, hlo, hhi⟩ | ⟨rfl, hlo, hhi⟩ | ⟨rfl, hlo, hhi⟩ := hrange
  · exact still heven hlo hhi
  · obtain rfl | hlo : x = 4 ∨ 4 < x := by omega
    · exact left_edge
    · exact (still heven (by omega) hhi).left hlo (by omega) (BitVec.add_zero _)
  · obtain rfl | hhi : x = 636 ∨ x < 635 := by omega
    · exact right_edge
    · exact (still heven hlo (by omega)).right hhi (BitVec.add_zero _)

end Framed

section Play

variable {e : EdgeDetector} {frameClk : Nat → Bool}

/-- The frame clock never stops rising. -/
def Live (frameClk : Nat → Bool) : Prop := Recurs (RisesAt frameClk)

theorem tick_iff (keys : Nat → Keys) (n : Nat) :
    tick e frameClk keys (n + 2) = true ↔ RisesAt frameClk n :=
  EdgeDetector.frameClkRisingEdge_iff (e := fun n => (run e frameClk keys n).edge)
    (fun _ => rfl) n

/-- From every cycle on there is a first tick. -/
theorem exists_first_tick (hlive : Live frameClk) (keys : Nat → Keys) (n : Nat) :
    ∃ t, n ≤ t ∧ tick e frameClk keys t = true ∧
      ∀ k, n ≤ k → k < t → tick e frameClk keys k = false := by
  have hexists : ∃ t, n ≤ t ∧ tick e frameClk keys t = true := by
    obtain ⟨k, hnk, hrise⟩ := hlive n
    exact ⟨k + 2, by omega, (tick_iff keys k).2 hrise⟩
  obtain ⟨t, hnt, htick, hbefore⟩ := exists_first hexists
  exact ⟨t, hnt, htick, fun k hnk hk => Bool.eq_false_iff.2 (hbefore k hnk hk)⟩

/-- Any sequence of keys, one entry a frame, can be played under a live frame
clock. -/
theorem exists_run_frames (e : EdgeDetector) (hlive : Live frameClk) (ks : List Keys) :
    ∃ keys n, (run e frameClk keys n).regs = frames ks := by
  induction ks using List.reverseRecOn with
  | nil => exact ⟨fun _ => released, 0, rfl⟩
  | append_singleton ks k ih =>
      obtain ⟨keys, n, hn⟩ := ih
      obtain ⟨t, hnt, htick, hquiet⟩ := exists_first_tick (e := e) hlive keys n
      -- The keys of the tick become `k`; the cycles before it keep theirs.
      let played := Function.update keys t k
      have hbefore : (run e frameClk played t).regs = (run e frameClk keys t).regs := by
        refine congrArg State.regs (stateAt_congr ?_)
        intro i hi
        have hkept : played i = keys i := Function.update_of_ne (Nat.ne_of_lt hi) k keys
        rw [input, input, hkept]
      have hhold : (run e frameClk keys t).regs = (run e frameClk keys n).regs :=
        gated_hold (x := fun n => (run e frameClk keys n).regs) (g := tick e frameClk keys)
          (f := fun n s => s.next true (keys n)) (fun n => regs_succ n) hnt hquiet
      have hplayed : played t = k := Function.update_self t k keys
      refine ⟨played, t + 1, ?_⟩
      rw [regs_succ, tick_congr played keys, if_pos htick, hbefore, hhold, hn, frames_concat,
        hplayed]

end Play

/-- The registers show position `x` with pending motion `motion`. -/
def Registers.Shows (s : Registers) (x motion : BitVec 10) : Prop :=
  s.cannonXPos = x ∧ s.cannonXMotion = motion

/-- The sums of the module do not wrap, and the next position is on the screen. -/
structure Registers.NoWrap (s : Registers) : Prop where
  motion : ((s.cannonXPos + s.cannonXMotion).toNat : Int) =
    s.cannonXPos.toNat + s.cannonXMotion.toInt
  size : (s.cannonXPos + cannonSize).toNat = s.cannonXPos.toNat + cannonSize.toNat
  onScreen : (s.cannonXPos + s.cannonXMotion).toNat ≤ cannonXMax.toNat

theorem Registers.OnTrack.noWrap {s : Registers} (h : s.OnTrack) : s.NoWrap where
  motion := by
    obtain ⟨hm, hx⟩ | ⟨hm, hlo, hx⟩ | ⟨hm, hhi, hx⟩ := h.add_motion
    · rw [hx, hm]
      rfl
    · have hint : s.cannonXMotion.toInt = -2 := by rw [hm]; rfl
      omega
    · have hint : s.cannonXMotion.toInt = 2 := by rw [hm]; rfl
      omega
  size := by
    have hbounds := h.bounds
    refine BitVec.toNat_add_of_lt ?_
    simp only [cannonSize, BitVec.toNat_ofNat]
    omega
  onScreen := by
    have hbounds := h.add_motion_bounds
    simp only [cannonXMax, BitVec.toNat_ofNat]
    omega

/-- What the registers show in the course of all runs from reset. -/
structure ReachableExactly : Prop where
  /-- The pairs that some run shows are those of the invariant. -/
  iff : ∀ x motion, (∃ e frameClk keys n, (run e frameClk keys n).regs.Shows x motion) ↔
    x.toNat % 2 = 0 ∧ MotionRange x.toNat motion
  /-- The keys alone decide: every such pair is shown under every frame clock
  that keeps rising. -/
  byKeys : ∀ e frameClk, Live frameClk → ∀ x motion, x.toNat % 2 = 0 →
    MotionRange x.toNat motion → ∃ keys n, (run e frameClk keys n).regs.Shows x motion
  row : ∀ e frameClk keys n, (run e frameClk keys n).regs.cannonYPos = 470#10 ∧
    (run e frameClk keys n).regs.cannonYMotion = 0#10
  noWrap : ∀ e frameClk keys n, (run e frameClk keys n).regs.NoWrap
  /-- The cannon never moves by more than one step. -/
  noJump : ∀ e frameClk keys n,
    ((run e frameClk keys (n + 1)).regs.cannonXPos.toNat : Int) -
      (run e frameClk keys n).regs.cannonXPos.toNat ∈ ({-2, 0, 2} : Set Int)

theorem exists_shows (e : EdgeDetector) {frameClk : Nat → Bool} (hlive : Live frameClk)
    {x motion : BitVec 10} (heven : x.toNat % 2 = 0) (hrange : MotionRange x.toNat motion) :
    ∃ keys n, (run e frameClk keys n).regs.Shows x motion := by
  obtain ⟨ks, hks⟩ := Framed.of_motionRange heven hrange
  obtain ⟨keys, n, hn⟩ := exists_run_frames e hlive ks
  refine ⟨keys, n, ?_⟩
  rw [hn, hks]
  exact ⟨by simp only [placed, BitVec.ofNat_toNat, BitVec.setWidth_eq], rfl⟩

/-- A clock that is toggled in every cycle keeps rising. -/
theorem live_toggling : Live fun n => n % 2 == 1 := by
  intro n
  refine ⟨2 * n, by omega, ?_⟩
  simp only [RisesAt, beq_eq_false_iff_ne, beq_iff_eq]
  omega

theorem noJump (e : EdgeDetector) (frameClk : Nat → Bool) (keys : Nat → Keys) (n : Nat) :
    ((run e frameClk keys (n + 1)).regs.cannonXPos.toNat : Int) -
      (run e frameClk keys n).regs.cannonXPos.toNat ∈ ({-2, 0, 2} : Set Int) := by
  have htrack : (run e frameClk keys n).regs.OnTrack := onTrack_run n
  simp only [Set.mem_insert_iff, Set.mem_singleton_iff]
  rw [regs_succ]
  split
  · rw [next_true_cannonXPos]
    obtain ⟨-, hx⟩ | ⟨-, -, hx⟩ | ⟨-, -, hx⟩ := htrack.add_motion <;> omega
  · omega

/-- The invariant is exact, and nothing wraps. -/
theorem reachable_exactly : ReachableExactly where
  iff x motion := by
    constructor
    · rintro ⟨e, frameClk, keys, n, rfl, rfl⟩
      exact ⟨(onTrack_run n).even, (onTrack_run n).range⟩
    · rintro ⟨heven, hrange⟩
      obtain ⟨keys, n, hshows⟩ := exists_shows .low live_toggling heven hrange
      exact ⟨.low, _, keys, n, hshows⟩
  byKeys e _ hlive _ _ heven hrange := exists_shows e hlive heven hrange
  row _ _ _ n := ⟨(onTrack_run n).row, (onTrack_run n).level⟩
  noWrap _ _ _ n := (onTrack_run n).noWrap
  noJump := noJump

end SpaceInvaders.Cannon
