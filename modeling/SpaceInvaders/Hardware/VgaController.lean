import SpaceInvaders.Machine.Stream

/-!
# The VGA controller

`VGA_controller.sv`: two raster counters and three registered control signals,
all clocked by `VGA_CLK`. The control signals are computed from the *next*
counter values, so each of them is registered in the same edge as the counters
it describes.

The counters are 10-bit registers and wrap through equality tests. From the
reset state they run through the 420000 positions of a frame; `edges_hCounter`
and `edges_vCounter` give them in closed form.
-/

namespace SpaceInvaders.VgaController

/-- 800 pixels per line, including the porches. -/
def hTotal : BitVec 10 := 800#10

/-- 525 lines per frame, including the porches. -/
def vTotal : BitVec 10 := 525#10

structure Registers where
  vgaHS : Bool
  vgaVS : Bool
  vgaBlankN : Bool
  hCounter : BitVec 10
  vCounter : BitVec 10
deriving Repr, DecidableEq

namespace Registers

/-- The values loaded while `Reset` is sampled high. -/
def reset : Registers where
  vgaHS := false
  vgaVS := false
  vgaBlankN := false
  hCounter := 0#10
  vCounter := 0#10

def drawX (s : Registers) : BitVec 10 := s.hCounter
def drawY (s : Registers) : BitVec 10 := s.vCounter

def hCounterIn (s : Registers) : BitVec 10 :=
  if s.hCounter + 1#10 = hTotal then 0#10 else s.hCounter + 1#10

def vCounterIn (s : Registers) : BitVec 10 :=
  if s.hCounter + 1#10 = hTotal then
    if s.vCounter + 1#10 = vTotal then 0#10 else s.vCounter + 1#10
  else s.vCounter

/-- Active-low horizontal sync, at pixels 656 to 751 of every line. -/
def vgaHSIn (s : Registers) : Bool :=
  if s.hCounterIn ≥ 656#10 ∧ s.hCounterIn < 752#10 then false else true

/-- Active-low vertical sync, on lines 490 and 491. -/
def vgaVSIn (s : Registers) : Bool :=
  if s.vCounterIn ≥ 490#10 ∧ s.vCounterIn < 492#10 then false else true

def vgaBlankNIn (s : Registers) : Bool :=
  if s.hCounterIn < 640#10 ∧ s.vCounterIn < 480#10 then true else false

/-- One rising edge of `VGA_CLK`. -/
def step (rst : Bool) (s : Registers) : Registers :=
  if rst then reset
  else
    { vgaHS := s.vgaHSIn
      vgaVS := s.vgaVSIn
      vgaBlankN := s.vgaBlankNIn
      hCounter := s.hCounterIn
      vCounter := s.vCounterIn }

@[simp] theorem step_reset (s : Registers) : s.step true = reset := rfl

@[simp] theorem step_hCounter (s : Registers) : (s.step false).hCounter = s.hCounterIn := rfl
@[simp] theorem step_vCounter (s : Registers) : (s.step false).vCounter = s.vCounterIn := rfl
@[simp] theorem step_vgaHS (s : Registers) : (s.step false).vgaHS = s.vgaHSIn := rfl
@[simp] theorem step_vgaVS (s : Registers) : (s.step false).vgaVS = s.vgaVSIn := rfl
@[simp] theorem step_vgaBlankN (s : Registers) :
    (s.step false).vgaBlankN = s.vgaBlankNIn := rfl

theorem hCounter_wrap_iff (s : Registers) :
    s.hCounter + 1#10 = hTotal ↔ s.hCounter.toNat = 799 := by
  simp only [hTotal]
  constructor <;> intro hh <;> bv_omega

theorem vCounter_wrap_iff (s : Registers) :
    s.vCounter + 1#10 = vTotal ↔ s.vCounter.toNat = 524 := by
  simp only [vTotal]
  constructor <;> intro hh <;> bv_omega

/-- The next pixel counter for every 10-bit value. -/
theorem hCounterIn_eq (s : Registers) :
    s.hCounterIn.toNat =
      if s.hCounter.toNat = 799 then 0 else (s.hCounter.toNat + 1) % 1024 := by
  simp only [hCounterIn, hCounter_wrap_iff]
  split
  · rfl
  · rw [BitVec.toNat_add]
    rfl

/-- The next line counter for every 10-bit value. -/
theorem vCounterIn_eq (s : Registers) :
    s.vCounterIn.toNat =
      if s.hCounter.toNat = 799 then
        if s.vCounter.toNat = 524 then 0 else (s.vCounter.toNat + 1) % 1024
      else s.vCounter.toNat := by
  simp only [vCounterIn, hCounter_wrap_iff, vCounter_wrap_iff]
  split
  · split
    · rfl
    · rw [BitVec.toNat_add]
      rfl
  · rfl

theorem hCounterIn_toNat (s : Registers) (h : s.hCounter.toNat < 800) :
    s.hCounterIn.toNat = (s.hCounter.toNat + 1) % 800 := by
  rw [hCounterIn_eq]
  split <;> omega

theorem vCounterIn_toNat (s : Registers) (v : s.vCounter.toNat < 525) :
    s.vCounterIn.toNat =
      if s.hCounter.toNat = 799 then (s.vCounter.toNat + 1) % 525 else s.vCounter.toNat := by
  rw [vCounterIn_eq]
  split
  · split <;> omega
  · rfl

theorem vgaHSIn_eq (s : Registers) :
    s.vgaHSIn = !decide (656 ≤ s.hCounterIn.toNat ∧ s.hCounterIn.toNat < 752) := by
  simp [vgaHSIn, BitVec.le_def, BitVec.lt_def]

theorem vgaVSIn_eq (s : Registers) :
    s.vgaVSIn = !decide (490 ≤ s.vCounterIn.toNat ∧ s.vCounterIn.toNat < 492) := by
  simp [vgaVSIn, BitVec.le_def, BitVec.lt_def]

theorem vgaBlankNIn_eq (s : Registers) :
    s.vgaBlankNIn = decide (s.hCounterIn.toNat < 640 ∧ s.vCounterIn.toNat < 480) := by
  simp [vgaBlankNIn, BitVec.lt_def]

end Registers

/-- The registers after `n` edges of `VGA_CLK` with `Reset` low. -/
def edges (n : Nat) : Registers := (Registers.step false)^[n] Registers.reset

@[simp] theorem edges_zero : edges 0 = Registers.reset := rfl

theorem edges_succ (n : Nat) : edges (n + 1) = (edges n).step false :=
  Function.iterate_succ_apply' _ _ _

/-- The counters after `n` edges. The two statements need each other: a line
ends where the horizontal counter wraps. -/
theorem edges_counters (n : Nat) :
    (edges n).hCounter.toNat = n % 800 ∧ (edges n).vCounter.toNat = n / 800 % 525 := by
  induction n with
  | zero => simp [Registers.reset]
  | succ n ih =>
      obtain ⟨ihH, ihV⟩ := ih
      have hH : (edges n).hCounter.toNat < 800 := by omega
      have hV : (edges n).vCounter.toNat < 525 := by omega
      rw [edges_succ]
      constructor
      · rw [Registers.step_hCounter, Registers.hCounterIn_toNat _ hH, ihH]
        omega
      · rw [Registers.step_vCounter, Registers.vCounterIn_toNat _ hV, ihH, ihV]
        split <;> omega

theorem edges_hCounter (n : Nat) : (edges n).hCounter.toNat = n % 800 := (edges_counters n).1

theorem edges_vCounter (n : Nat) : (edges n).vCounter.toNat = n / 800 % 525 :=
  (edges_counters n).2

/-- From the first edge on, the sync pulse of a line is aligned with the pixel counter. -/
theorem edges_vgaHS {n : Nat} (hn : 1 ≤ n) :
    (edges n).vgaHS = !decide (656 ≤ n % 800 ∧ n % 800 < 752) := by
  obtain ⟨m, rfl⟩ := Nat.exists_eq_add_of_le' hn
  rw [← edges_hCounter (m + 1), edges_succ, Registers.step_vgaHS, Registers.step_hCounter]
  exact Registers.vgaHSIn_eq _

/-- From the first edge on, the sync pulse is aligned with the line counter. -/
theorem edges_vgaVS {n : Nat} (hn : 1 ≤ n) :
    (edges n).vgaVS = !decide (490 ≤ n / 800 % 525 ∧ n / 800 % 525 < 492) := by
  obtain ⟨m, rfl⟩ := Nat.exists_eq_add_of_le' hn
  rw [← edges_vCounter (m + 1), edges_succ, Registers.step_vgaVS, Registers.step_vCounter]
  exact Registers.vgaVSIn_eq _

/-- From the first edge on, blanking is aligned with both counters. -/
theorem edges_vgaBlankN {n : Nat} (hn : 1 ≤ n) :
    (edges n).vgaBlankN = decide (n % 800 < 640 ∧ n / 800 % 525 < 480) := by
  obtain ⟨m, rfl⟩ := Nat.exists_eq_add_of_le' hn
  rw [← edges_vCounter (m + 1), ← edges_hCounter (m + 1), edges_succ,
    Registers.step_vgaBlankN, Registers.step_vCounter, Registers.step_hCounter]
  exact Registers.vgaBlankNIn_eq _

end SpaceInvaders.VgaController
