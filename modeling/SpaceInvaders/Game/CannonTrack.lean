import SpaceInvaders.Hardware.Cannon

/-!
# Where the cannon can be

The position and the pending motion of the cannon are coupled: the motion
chosen at a tick is applied one tick later. `OnTrack` is the invariant that
ties them together. Positions stay even, so the unequal edge tests of the source
(`X <= 4` and `X + 4 >= 639`) act at `4` and at `636`.

The edge tests stop the motion only after it has been applied once more. A
cannon that arrives at `4` moving left, or at `634` moving right, therefore
leaves the screen by two pixels at the next tick, and this is the only way it
can: `onScreen_run_iff`.
-/

namespace SpaceInvaders.Cannon

open Machine

/-- `Reset` is low; the keys may change in every `Clk` cycle. -/
def input (frameClk : Nat → Bool) (keys : Nat → Keys) (n : Nat) : Input :=
  ⟨false, frameClk n, keys n⟩

/-- The module in cycle `n` of the run from reset with `Reset` low afterwards. -/
def run (e : EdgeDetector) (frameClk : Nat → Bool) (keys : Nat → Keys) (n : Nat) : State :=
  stateAt State.step (input frameClk keys) ⟨e, .reset⟩ n

/-- The module in cycle `n` of a run from reset under any inputs, further resets included. -/
def reached (e : EdgeDetector) (i : Nat → Input) (n : Nat) : State :=
  stateAt State.step i ⟨e, .reset⟩ n

/-- Cycle `n` is a frame tick. -/
def tick (e : EdgeDetector) (frameClk : Nat → Bool) (keys : Nat → Keys) (n : Nat) : Bool :=
  (run e frameClk keys n).edge.frameClkRisingEdge

namespace Registers

/-- The key handling in terms of the position as a number. The 10-bit sum in
the right edge test does not wrap for positions up to `1019`. -/
theorem keyMotion_cannonXMotion {s : Registers} (h : s.cannonXPos.toNat < 1020) (keys : Keys) :
    (s.keyMotion keys).cannonXMotion =
      if keys.left ≠ 0#8 then if s.cannonXPos.toNat ≤ 4 then 0#10 else 1022#10
      else if keys.right ≠ 0#8 then if 635 ≤ s.cannonXPos.toNat then 0#10 else 2#10
      else 0#10 := by
  have hleft : s.cannonXPos ≤ cannonXMin + cannonSize ↔ s.cannonXPos.toNat ≤ 4 := by
    simp [cannonXMin, cannonSize, BitVec.le_def]
  have hright : s.cannonXPos + cannonSize ≥ cannonXMax ↔ 635 ≤ s.cannonXPos.toNat := by
    rw [ge_iff_le, BitVec.le_def, BitVec.toNat_add_of_lt (by simp [cannonSize]; omega)]
    simp only [cannonXMax, cannonSize, BitVec.toNat_ofNat]
    omega
  unfold keyMotion
  simp only [hleft, hright]
  split
  · rfl
  · split <;> rfl

theorem keyMotion_cannonYMotion {s : Registers} (h : s.cannonYMotion = 0#10) (keys : Keys) :
    (s.keyMotion keys).cannonYMotion = 0#10 := by
  unfold keyMotion
  split
  · rfl
  · split
    · rfl
    · exact h

/-- The pending motion and the positions at which it can occur. -/
def MotionRange (x : Nat) (motion : BitVec 10) : Prop :=
  (motion = 0#10 ∧ 2 ≤ x ∧ x ≤ 638) ∨ (motion = 1022#10 ∧ 4 ≤ x ∧ x ≤ 638) ∨
    (motion = 2#10 ∧ 2 ≤ x ∧ x ≤ 636)

/-- The invariant of the cannon's registers. -/
structure OnTrack (s : Registers) : Prop where
  even : s.cannonXPos.toNat % 2 = 0
  range : MotionRange s.cannonXPos.toNat s.cannonXMotion
  row : s.cannonYPos = cannonYResetPos
  level : s.cannonYMotion = 0#10

namespace OnTrack

variable {s : Registers}

theorem reset : Registers.reset.OnTrack where
  even := rfl
  range := .inl ⟨rfl, by decide, by decide⟩
  row := rfl
  level := rfl

theorem bounds (h : s.OnTrack) : 2 ≤ s.cannonXPos.toNat ∧ s.cannonXPos.toNat ≤ 638 := by
  obtain hm | hm | hm := h.range <;> omega

/-- The pending motion moves the position by at most one step and nothing
wraps, so the three cases of the invariant become three cases in `Nat`. -/
theorem add_motion (h : s.OnTrack) :
    (s.cannonXMotion = 0#10 ∧
      (s.cannonXPos + s.cannonXMotion).toNat = s.cannonXPos.toNat) ∨
    (s.cannonXMotion = 1022#10 ∧ 4 ≤ s.cannonXPos.toNat ∧
      (s.cannonXPos + s.cannonXMotion).toNat + 2 = s.cannonXPos.toNat) ∨
    (s.cannonXMotion = 2#10 ∧ s.cannonXPos.toNat ≤ 636 ∧
      (s.cannonXPos + s.cannonXMotion).toNat = s.cannonXPos.toNat + 2) := by
  obtain ⟨hm, lo, hi⟩ | ⟨hm, lo, hi⟩ | ⟨hm, lo, hi⟩ := h.range
  · exact .inl ⟨hm, by simp [hm]⟩
  · refine .inr (.inl ⟨hm, lo, ?_⟩)
    rw [hm, BitVec.toNat_add]
    simp only [BitVec.toNat_ofNat]
    omega
  · refine .inr (.inr ⟨hm, hi, ?_⟩)
    rw [hm, BitVec.toNat_add]
    simp only [BitVec.toNat_ofNat]
    omega

/-- A tick keeps the position in the range of the invariant, and moves it by at
most one step. -/
theorem add_motion_bounds (h : s.OnTrack) :
    2 ≤ (s.cannonXPos + s.cannonXMotion).toNat ∧
      (s.cannonXPos + s.cannonXMotion).toNat ≤ 638 ∧
      (s.cannonXPos + s.cannonXMotion).toNat ≤ s.cannonXPos.toNat + 2 ∧
      s.cannonXPos.toNat ≤ (s.cannonXPos + s.cannonXMotion).toNat + 2 := by
  obtain ⟨hlo, hhi⟩ := h.bounds
  obtain ⟨-, hx⟩ | ⟨-, hleft, hx⟩ | ⟨-, hright, hx⟩ := h.add_motion <;> omega

/-- The position after the tick and the motion stored by it fit together. -/
private theorem next_range (h : s.OnTrack) (keys : Keys) :
    MotionRange (s.cannonXPos + s.cannonXMotion).toNat (s.keyMotion keys).cannonXMotion := by
  have heven := h.even
  have hpos := h.bounds
  obtain ⟨hlo, hhi, hup, hdown⟩ := h.add_motion_bounds
  rw [keyMotion_cannonXMotion (by omega)]
  split
  · split
    -- The left test stops a cannon at `2` or `4`; it may still move once.
    · exact .inl ⟨rfl, hlo, hhi⟩
    · exact .inr (.inl ⟨rfl, by omega, hhi⟩)
  · split
    · split
      -- The right test stops a cannon at `636` or `638`.
      · exact .inl ⟨rfl, hlo, hhi⟩
      · exact .inr (.inr ⟨rfl, hlo, by omega⟩)
    · exact .inl ⟨rfl, hlo, hhi⟩

/-- One frame tick keeps the invariant, whatever the keys. -/
theorem next (h : s.OnTrack) (keys : Keys) : (s.next true keys).OnTrack where
  even := by
    have heven := h.even
    rw [next_true_cannonXPos]
    obtain hm | hm | hm := h.add_motion <;> omega
  range := h.next_range keys
  row := by rw [next_true_cannonYPos, h.level, h.row]; rfl
  level := by rw [next_true_cannonYMotion, keyMotion_cannonYMotion h.level]

end OnTrack

/-- The whole disc lies between the edges of the screen. -/
def OnScreen (s : Registers) : Prop :=
  cannonXMin.toNat + cannonSize.toNat ≤ s.cannonXPos.toNat ∧
    s.cannonXPos.toNat ≤ cannonXMax.toNat - cannonSize.toNat

instance : DecidablePred OnScreen := fun _ => inferInstanceAs (Decidable (_ ∧ _))

theorem onScreen_iff (s : Registers) :
    s.OnScreen ↔ 4 ≤ s.cannonXPos.toNat ∧ s.cannonXPos.toNat ≤ 635 := by
  simp [OnScreen, cannonXMin, cannonXMax, cannonSize]

/-- The cannon is at the last position before an edge and still moving outwards. -/
def Overshooting (s : Registers) : Prop :=
  (s.cannonXPos = 4#10 ∧ s.cannonXMotion = 1022#10) ∨
    (s.cannonXPos = 634#10 ∧ s.cannonXMotion = 2#10)

instance : DecidablePred Overshooting := fun _ => inferInstanceAs (Decidable (_ ∨ _))

/-- A tick pushes an on-screen cannon off the screen exactly when it is
overshooting. Parity rules out every other position. -/
theorem OnTrack.next_onScreen_iff {s : Registers} (h : s.OnTrack) (hs : s.OnScreen)
    (keys : Keys) : (s.next true keys).OnScreen ↔ ¬s.Overshooting := by
  have heven := h.even
  rw [onScreen_iff] at hs ⊢
  rw [next_true_cannonXPos]
  have hfour : s.cannonXPos = 4#10 ↔ s.cannonXPos.toNat = 4 := by
    rw [← BitVec.toNat_inj]
    rfl
  have hright : s.cannonXPos = 634#10 ↔ s.cannonXPos.toNat = 634 := by
    rw [← BitVec.toNat_inj]
    rfl
  rw [Overshooting, hfour, hright]
  obtain ⟨hm, hx⟩ | ⟨hm, lo, hx⟩ | ⟨hm, hi, hx⟩ := h.add_motion
  · rw [hx, hm]
    simp only [show ¬(0#10 = 1022#10) by decide, show ¬(0#10 = 2#10) by decide, and_false]
    simpa using hs
  · simp only [hm, and_true, show ¬(1022#10 = 2#10) by decide, and_false, or_false] at hx ⊢
    omega
  · simp only [hm, and_true, show ¬(2#10 = 1022#10) by decide, and_false, false_or] at hx ⊢
    omega

end Registers

section Run

variable {e : EdgeDetector} {frameClk : Nat → Bool} {keys : Nat → Keys}

/-- The registers make one step at each tick and keep their values between. -/
theorem regs_succ (n : Nat) :
    (run e frameClk keys (n + 1)).regs =
      if tick e frameClk keys n then (run e frameClk keys n).regs.next true (keys n)
      else (run e frameClk keys n).regs :=
  State.step_regs_eq (input frameClk keys n) _ rfl

/-- Ticks do not depend on the keys. -/
theorem run_edge_congr (keys keys' : Nat → Keys) (n : Nat) :
    (run e frameClk keys n).edge = (run e frameClk keys' n).edge := by
  induction n with
  | zero => rfl
  | succ n ih => exact congrArg (fun d : EdgeDetector => d.step (frameClk n)) ih

theorem tick_congr (keys keys' : Nat → Keys) (n : Nat) :
    tick e frameClk keys n = tick e frameClk keys' n := by
  rw [tick, tick, run_edge_congr keys keys']

/-- Ticks and resets keep the registers on track. -/
theorem onTrack_reached (i : Nat → Input) (n : Nat) : (reached e i n).regs.OnTrack := by
  refine stateAt_invariant (P := fun _ (s : State) => s.regs.OnTrack) .reset ?_ n
  intro n h
  cases hreset : (i n).reset with
  | true =>
      rw [State.step, hreset]
      exact .reset
  | false =>
      rw [State.step_regs_eq _ _ hreset]
      split
      · exact h.next _
      · exact h

/-- The registers are on track in every cycle of every run from reset. -/
theorem onTrack_run (n : Nat) : (run e frameClk keys n).regs.OnTrack := onTrack_reached _ n

/-- Until cycle `N` the cannon stays on the screen if and only if no tick before
`N` finds it overshooting. -/
theorem onScreen_run_iff (e : EdgeDetector) (frameClk : Nat → Bool) (keys : Nat → Keys)
    (N : Nat) :
    (∀ n, n ≤ N → (run e frameClk keys n).regs.OnScreen) ↔
      ∀ n, n < N → tick e frameClk keys n = true →
        ¬(run e frameClk keys n).regs.Overshooting := by
  constructor
  · intro h n hn htick
    have hnext := h (n + 1) hn
    rw [regs_succ, if_pos htick] at hnext
    exact ((onTrack_run n).next_onScreen_iff (h n (by omega)) (keys n)).mp hnext
  · intro h n hn
    -- Induction on the cycle: a tick off the screen would start from an overshooting state.
    induction n with
    | zero => exact (by decide : Registers.reset.OnScreen)
    | succ n ih =>
        have hs := ih (by omega)
        rw [regs_succ]
        split
        · next htick =>
          exact ((onTrack_run n).next_onScreen_iff hs (keys n)).mpr (h n (by omega) htick)
        · exact hs

/-- With the left key held from reset, the cannon leaves the screen at the
160th frame tick. -/
theorem leftHeld_leaves_screen :
    ¬∀ n, (run .low (fun n => n % 2 == 1) (fun _ => ⟨1#8, 0#8⟩) n).regs.OnScreen := by
  intro h
  have hpos : (run .low (fun n => n % 2 == 1) (fun _ => ⟨1#8, 0#8⟩) 321).regs.cannonXPos =
      2#10 := by decide +kernel
  have hlo := ((Registers.onScreen_iff _).mp (h 321)).1
  rw [hpos] at hlo
  exact absurd hlo (by decide)

end Run

end SpaceInvaders.Cannon
