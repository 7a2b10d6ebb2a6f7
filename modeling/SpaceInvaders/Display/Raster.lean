import SpaceInvaders.Hardware.VgaController
import Mathlib.Data.Nat.Count
import Mathlib.Data.Nat.Periodic
import Mathlib.Order.Interval.Finset.Nat

/-!
# The raster of the VGA controller

From reset the controller runs through the 420000 positions of a frame, one a
pixel clock, and its three control signals describe the position of the same
clock. `raster_timing` counts them in a window of one frame length that may
start anywhere: the window need not begin with a line or a frame, so the counts
come from the period of the closed forms.

The counters wrap through equality tests. A value beyond the last pixel or line
is not caught by them and escapes through the wrap of the 10-bit register
instead, and the pixel counter's own wrap at 1023 does not advance the line.
`Registers.rank` counts the edges until both counters are back in range.
-/

namespace SpaceInvaders.VgaController

open Machine

/-- Number of pixel clocks in a frame. -/
def frameLength : Nat := hTotal.toNat * vTotal.toNat

@[simp] theorem frameLength_eq : frameLength = 420000 := rfl

/-- The control signals of pixel clock `n`, in terms of the counters shown in
that clock. -/
structure Aligned (n : Nat) : Prop where
  hCounter : (edges n).hCounter.toNat = n % 800
  vCounter : (edges n).vCounter.toNat = n / 800 % 525
  vgaHS : (edges n).vgaHS = false ↔
    656 ≤ (edges n).drawX.toNat ∧ (edges n).drawX.toNat < 752
  vgaVS : (edges n).vgaVS = false ↔
    490 ≤ (edges n).drawY.toNat ∧ (edges n).drawY.toNat < 492
  vgaBlankN : (edges n).vgaBlankN = true ↔
    (edges n).drawX.toNat < 640 ∧ (edges n).drawY.toNat < 480

/-- The pixel clocks of a window of one frame length. -/
def window (m : Nat) : Finset Nat := Finset.Ico m (m + frameLength)

/-- What the window that starts at clock `m` contains. -/
structure OneFrame (m : Nat) : Prop where
  /-- Every visible coordinate is enabled exactly once. -/
  visible : ∀ x y : BitVec 10, x.toNat < 640 → y.toNat < 480 →
    ∃! n, n ∈ window m ∧ (edges n).vgaBlankN = true ∧ (edges n).drawX = x ∧ (edges n).drawY = y
  /-- Nothing else is enabled. -/
  enabled : ((window m).filter fun n => (edges n).vgaBlankN = true).card = 640 * 480
  hsLow : ∀ y : BitVec 10, y.toNat < 525 →
    ((window m).filter fun n => (edges n).drawY = y ∧ (edges n).vgaHS = false).card = 96
  vsLow : ((window m).filter fun n => (edges n).vgaVS = false).card = 1600

section Window

variable {m n : Nat}

theorem aligned (hn : 1 ≤ n) : Aligned n where
  hCounter := edges_hCounter n
  vCounter := edges_vCounter n
  vgaHS := by
    rw [edges_vgaHS hn, Registers.drawX, edges_hCounter]
    simp only [Bool.not_eq_false', decide_eq_true_eq]
  vgaVS := by
    rw [edges_vgaVS hn, Registers.drawY, edges_vCounter]
    simp only [Bool.not_eq_false', decide_eq_true_eq]
  vgaBlankN := by
    rw [edges_vgaBlankN hn, Registers.drawX, Registers.drawY, edges_hCounter, edges_vCounter]
    simp only [decide_eq_true_eq]

theorem drawX_eq_iff (n : Nat) (x : BitVec 10) : (edges n).drawX = x ↔ n % 800 = x.toNat := by
  rw [← BitVec.toNat_inj, Registers.drawX, edges_hCounter]

theorem drawY_eq_iff (n : Nat) (y : BitVec 10) :
    (edges n).drawY = y ↔ n / 800 % 525 = y.toNat := by
  rw [← BitVec.toNat_inj, Registers.drawY, edges_vCounter]

/-- A position of the raster comes up once in every window. -/
theorem existsUnique_position (m : Nat) {x y : Nat} (hx : x < 800) (hy : y < 525) :
    ∃! n, n ∈ window m ∧ n % 800 = x ∧ n / 800 % 525 = y := by
  have hposition : ∀ n, n % 800 = x ∧ n / 800 % 525 = y ↔ n % 420000 = 800 * y + x := by
    intro n
    omega
  simp only [hposition, window, frameLength_eq, Finset.mem_Ico]
  refine ⟨m + (800 * y + x + (420000 - m % 420000)) % 420000, ?_, ?_⟩
  · dsimp only
    omega
  · rintro n ⟨⟨hlo, hhi⟩, hn⟩
    omega

/-- How often a property of the position in the frame holds in a window. -/
theorem card_window_filter {p : Nat → Prop} [DecidablePred p] (hp : Function.Periodic p 420000)
    (m : Nat) : ((window m).filter p).card = ((Finset.range 420000).filter p).card := by
  rw [window, frameLength_eq, Nat.filter_Ico_card_eq_of_periodic m 420000 p hp,
    Nat.count_eq_card_filter_range]

/-- The positions of one line between two pixels. -/
theorem card_line {y a b : Nat} (hy : y < 525) (hb : b ≤ 800) (m : Nat) :
    ((window m).filter fun n => n / 800 % 525 = y ∧ a ≤ n % 800 ∧ n % 800 < b).card = b - a := by
  have hline : (Finset.range 420000).filter
      (fun n => n / 800 % 525 = y ∧ a ≤ n % 800 ∧ n % 800 < b) =
      Finset.Ico (800 * y + a) (800 * y + b) := by
    ext n
    simp only [Finset.mem_filter, Finset.mem_range, Finset.mem_Ico]
    omega
  rw [card_window_filter (fun n => propext (by omega)), hline, Nat.card_Ico]
  omega

/-- The positions on the lines between two lines. -/
theorem card_lines {a b : Nat} (hb : b ≤ 525) (m : Nat) :
    ((window m).filter fun n => a ≤ n / 800 % 525 ∧ n / 800 % 525 < b).card = 800 * (b - a) := by
  have hlines : (Finset.range 420000).filter (fun n => a ≤ n / 800 % 525 ∧ n / 800 % 525 < b) =
      Finset.Ico (800 * a) (800 * b) := by
    ext n
    simp only [Finset.mem_filter, Finset.mem_range, Finset.mem_Ico]
    omega
  rw [card_window_filter (fun n => propext (by omega)), hlines, Nat.card_Ico, Nat.mul_sub]

/-- The positions of the top left rectangle with `w` columns and `h` lines. -/
theorem card_rectangle {w h : Nat} (hw : w ≤ 800) (hh : h ≤ 525) (m : Nat) :
    ((window m).filter fun n => n % 800 < w ∧ n / 800 % 525 < h).card = w * h := by
  rw [card_window_filter (fun n => propext (by omega)), ← Finset.card_range w,
    ← Finset.card_range h, ← Finset.card_product]
  refine Finset.card_nbij' (fun n => (n % 800, n / 800 % 525)) (fun p => 800 * p.2 + p.1)
    ?_ ?_ ?_ ?_
  · intro n hn
    simpa using (Finset.mem_filter.1 hn).2
  · intro p hp
    simp only [Finset.coe_product, Finset.coe_range, Set.mem_prod, Set.mem_Iio] at hp
    simp only [Finset.coe_filter, Finset.mem_range, Set.mem_ofPred_eq, Finset.card_range]
    omega
  · intro n hn
    have hlt := Finset.mem_range.1 (Finset.mem_filter.1 hn).1
    dsimp only
    omega
  · intro p hp
    simp only [Finset.coe_product, Finset.coe_range, Set.mem_prod, Set.mem_Iio] at hp
    ext <;> dsimp only <;> omega

/-- In a window that starts after the first edge the control signals are
aligned throughout. -/
theorem filter_window_congr {p q : Nat → Prop} [DecidablePred p] [DecidablePred q] (hm : 1 ≤ m)
    (h : ∀ n, 1 ≤ n → (p n ↔ q n)) : (window m).filter p = (window m).filter q := by
  refine Finset.filter_congr ?_
  intro n hn
  exact h n (Nat.le_trans hm (Finset.mem_Ico.1 hn).1)

theorem oneFrame (hm : 1 ≤ m) : OneFrame m where
  visible x y hx hy := by
    obtain ⟨n, ⟨hwindow, hnx, hny⟩, hunique⟩ :=
      existsUnique_position m (x := x.toNat) (y := y.toNat) (by omega) (by omega)
    simp only [drawX_eq_iff, drawY_eq_iff]
    refine ⟨n, ⟨hwindow, ?_, hnx, hny⟩, ?_⟩
    · rw [edges_vgaBlankN (Nat.le_trans hm (Finset.mem_Ico.1 hwindow).1), hnx, hny]
      exact decide_eq_true ⟨hx, hy⟩
    · rintro k ⟨hk, -, hkx, hky⟩
      exact hunique k ⟨hk, hkx, hky⟩
  enabled := by
    rw [← card_rectangle (by decide : 640 ≤ 800) (by decide : 480 ≤ 525) m]
    congr 1
    refine filter_window_congr hm ?_
    intro n hn
    rw [edges_vgaBlankN hn, decide_eq_true_eq]
  hsLow y hy := by
    rw [show 96 = 752 - 656 from rfl, ← card_line hy (by decide : 752 ≤ 800) m]
    congr 1
    refine filter_window_congr hm ?_
    intro n hn
    rw [drawY_eq_iff, edges_vgaHS hn, Bool.not_eq_false', decide_eq_true_eq]
  vsLow := by
    rw [show 1600 = 800 * (492 - 490) from rfl, ← card_lines (by decide : 492 ≤ 525) m]
    congr 1
    refine filter_window_congr hm ?_
    intro n hn
    rw [edges_vgaVS hn, Bool.not_eq_false', decide_eq_true_eq]

/-- After `n ≥ 1` edges from reset the signals describe the position of the same
clock, and the window of one frame length that starts there shows every visible
pixel once. -/
theorem raster_timing (n : Nat) (hn : 1 ≤ n) : Aligned n ∧ OneFrame n :=
  ⟨aligned hn, oneFrame hn⟩

theorem raster_timing_first : Aligned 1 ∧ OneFrame 1 := raster_timing 1 (Nat.le_refl 1)

end Window

namespace Registers

/-- Both counters are inside the frame. -/
def InRange (s : Registers) : Prop := s.hCounter.toNat < 800 ∧ s.vCounter.toNat < 525

/-- The number of edges until the pixel counter is in range. -/
def hRank (h : Nat) : Nat := if h < 800 then 0 else 1024 - h

/-- The number of edges until the pixel counter starts a new line. -/
def lineRank (h : Nat) : Nat := if h < 800 then 800 - h else 1824 - h

/-- The number of edges until both counters are in range. -/
def rank (s : Registers) : Nat :=
  if s.vCounter.toNat < 525 then hRank s.hCounter.toNat
  else lineRank s.hCounter.toNat + (1023 - s.vCounter.toNat) * 800

theorem rank_le (s : Registers) : s.rank ≤ 399424 := by
  have hh := s.hCounter.isLt
  have hv := s.vCounter.isLt
  unfold rank hRank lineRank
  split <;> split <;> omega

/-- Outside the frame every edge lowers the rank by one. -/
theorem rank_step {s : Registers} (hs : ¬s.InRange) : (s.step false).rank + 1 = s.rank := by
  have hh := s.hCounter.isLt
  have hv := s.vCounter.isLt
  unfold InRange at hs
  unfold rank hRank lineRank
  rw [step_hCounter, step_vCounter, hCounterIn_eq, vCounterIn_eq]
  generalize s.hCounter.toNat = h at *
  generalize s.vCounter.toNat = v at *
  -- the pixel counter ends a line at 799 only; its wrap at 1023 leaves the line as it is
  by_cases hend : h = 799
  · rw [if_pos hend, if_pos hend]
    grind
  · rw [if_neg hend, if_neg hend]
    grind

/-- Inside the frame the counters stay there. -/
theorem InRange.step {s : Registers} (hs : s.InRange) : (s.step false).InRange := by
  obtain ⟨hh, hv⟩ := hs
  constructor
  · rw [step_hCounter, hCounterIn_toNat s hh]
    exact Nat.mod_lt _ (by decide)
  · rw [step_vCounter, vCounterIn_toNat s hv]
    split
    · exact Nat.mod_lt _ (by decide)
    · exact hv

end Registers

/-- From every state of the registers the counters reach the frame within 399424
edges, and never leave it again. -/
theorem selfStabilising (s : Registers) :
    ∃ N, N ≤ 399424 ∧ ∀ n, N ≤ n → ((Registers.step false)^[n] s).InRange := by
  have hfalls : ∀ s : Registers, ¬s.InRange → (s.step false).rank < s.rank := by
    intro s hs
    have hstep := Registers.rank_step hs
    omega
  obtain ⟨N, hN, hin⟩ := exists_le_rank Registers.rank hfalls s
  refine ⟨N, Nat.le_trans hN s.rank_le, ?_⟩
  intro n hn
  exact iterate_invariant_from (fun s hs => hs.step) hin hn

end SpaceInvaders.VgaController
