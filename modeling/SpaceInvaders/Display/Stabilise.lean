import SpaceInvaders.Display.Frame
import SpaceInvaders.Display.Raster

/-!
# The display stabilises from every state

Nothing but the reset button initialises the registers, and a press of it may
miss the VGA controller. The display does not depend on it: whatever its
registers hold, once the button is released the controller's counters return to
the frame, one edge later all its registers are those of the regular raster,
and at the end of that frame a frame starts. From there on every frame is a
complete picture of the game at 60 Hz.
-/

namespace SpaceInvaders

namespace VgaController

open Machine

/-- A step of the controller reads its counters only. -/
theorem Registers.step_congr {s t : Registers} (hh : s.hCounter = t.hCounter)
    (hv : s.vCounter = t.vCounter) : s.step false = t.step false := by
  have hH : s.hCounterIn = t.hCounterIn := by rw [hCounterIn, hCounterIn, hh]
  have hV : s.vCounterIn = t.vCounterIn := by rw [vCounterIn, vCounterIn, hh, hv]
  simp only [step, vgaHSIn, vgaVSIn, vgaBlankNIn, hH, hV]

/-- Counters inside the frame are those of a position of the regular raster. -/
theorem Registers.InRange.step_eq_edges {s : Registers} (hs : s.InRange) :
    s.step false = edges (800 * s.vCounter.toNat + s.hCounter.toNat + 1) := by
  obtain ⟨hh, hv⟩ := hs
  rw [edges_succ]
  refine Registers.step_congr (BitVec.eq_of_toNat_eq ?_) (BitVec.eq_of_toNat_eq ?_)
  · rw [edges_hCounter]
    omega
  · rw [edges_vCounter]
    omega

/-- From every state the controller joins the regular raster within 399425 edges. -/
theorem joins_raster (s : Registers) :
    ∃ N m, N ≤ 399425 ∧ 1 ≤ m ∧ m ≤ 420000 ∧
      ∀ n, (Registers.step false)^[N + n] s = edges (m + n) := by
  obtain ⟨N, hN, hrange⟩ := selfStabilising s
  have hin := hrange N (Nat.le_refl N)
  have hjoin := hin.step_eq_edges
  rw [← Function.iterate_succ_apply' (Registers.step false)] at hjoin
  obtain ⟨hh, hv⟩ := hin
  refine ⟨N + 1, 800 * ((Registers.step false)^[N] s).vCounter.toNat +
    ((Registers.step false)^[N] s).hCounter.toNat + 1, by omega, by omega, by omega, ?_⟩
  intro n
  rw [edges_add, ← hjoin, Nat.add_comm (N + 1)]
  exact Function.iterate_add_apply _ n (N + 1) s

end VgaController

namespace FinalProject

open Machine

variable {s : State} {keycode : Nat → BitVec 16}

/-- With `Reset_h` low the pixel clock is high in one of any two cycles. -/
theorem exists_vgaClk (h : s.resetH = false) (keycode : Nat → BitVec 16) :
    ∃ b, b ≤ 1 ∧ (runFrom s keycode b).vgaClk = true := by
  cases hclk : s.vgaClk with
  | true => exact ⟨0, Nat.zero_le 1, hclk⟩
  | false =>
      refine ⟨1, Nat.le_refl 1, ?_⟩
      rw [show 1 = 0 + 1 from rfl, runFrom_vgaClk_succ h]
      simpa [runFrom] using hclk

/-- With `Reset_h` low and the pixel clock high, a frame starts at the end of
the frame in which the controller joins the raster. -/
theorem exists_frameStart_of_vgaClk (h : s.resetH = false) (hclk : s.vgaClk = true)
    (keycode : Nat → BitVec 16) :
    ∃ a, a ≤ 1638852 ∧ FrameStart (runFrom s keycode a) := by
  obtain ⟨N, m, hN, hm, hm', hjoin⟩ := VgaController.joins_raster s.vga
  -- the cycles in which the controller is at the last position of the frame and after it
  obtain ⟨r, hr, hr', q, hq, hframe⟩ : ∃ r, 1 ≤ r ∧ r ≤ 420000 ∧ ∃ q, 1 ≤ q ∧
      m + r = 420000 * q := by
    by_cases hlast : m = 420000
    · exact ⟨420000, by decide, Nat.le_refl _, 2, by decide, by omega⟩
    · exact ⟨420000 - m, by omega, by omega, 1, Nat.le_refl 1, by omega⟩
  have hvga : ∀ n, N ≤ n / 2 → (runFrom s keycode n).vga =
      VgaController.edges (m + (n / 2 - N)) := by
    intro n hn
    rw [runFrom_vga h hclk, ← hjoin, Nat.add_sub_of_le hn]
  have hlast : ∀ n, n / 2 + 1 = N + r → (runFrom s keycode n).vga.vgaVS = true := by
    intro n hn
    rw [hvga n (by omega), VgaController.edges_vgaVS (by omega)]
    have hline : ¬(490 ≤ (m + (n / 2 - N)) / 800 % 525 ∧
        (m + (n / 2 - N)) / 800 % 525 < 492) := by omega
    rw [decide_eq_false hline]
    rfl
  obtain ⟨a, ha⟩ : ∃ a, a + 2 = 2 * (N + r) := ⟨2 * (N + r) - 2, by omega⟩
  obtain ⟨hcannon, hlaser⟩ := @runFrom_edge s keycode a
  rw [hlast (a + 1) (by omega), hlast a (by omega)] at hcannon
  refine ⟨a + 2, by omega, runFrom_resetH h _, ?_, ?_, hcannon, hlaser.trans hcannon⟩
  · rw [runFrom_vgaClk h hclk, decide_eq_true (by omega)]
  · rw [hvga (a + 2) (by omega), show m + ((a + 2) / 2 - N) = 420000 * q by omega,
      VgaController.edges_frame hq]

/-- From every state, a frame starts within 1638854 cycles of releasing the button. -/
theorem exists_frameStart (s : State) (keycode : Nat → BitVec 16) :
    ∃ a, 1 ≤ a ∧ a ≤ 1638854 ∧ FrameStart (runFrom s keycode a) := by
  obtain ⟨b, hb, hclk⟩ := exists_vgaClk (@runFrom_resetH_succ s keycode 0)
    (fromCycle 1 keycode)
  rw [← runFrom_add] at hclk
  have hreset : (runFrom s keycode (0 + 1 + b)).resetH = false := by
    rw [Nat.zero_add, Nat.add_comm]
    exact runFrom_resetH_succ b
  obtain ⟨a, ha, hstart⟩ :=
    exists_frameStart_of_vgaClk hreset hclk (fromCycle (0 + 1 + b) keycode)
  rw [← runFrom_add] at hstart
  exact ⟨0 + 1 + b + a, by omega, by omega, hstart⟩

/-- From frame start `a` on, every frame is a complete picture of the game at 60 Hz. -/
def StableFrom (s : State) (keycode : Nat → BitVec 16) (a : Nat) : Prop :=
  ∀ k, ShowsFrame (runFrom s keycode (a + frameCycles * k))
    (fromCycle (a + frameCycles * k) keycode)
    (sixtyHertz (fromCycle a keycode) (runFrom s keycode a).game.regs k)

theorem stableFrom_of_frameStart {a : Nat} (h : FrameStart (runFrom s keycode a)) :
    StableFrom s keycode a := by
  intro k
  obtain ⟨hstart, hregs⟩ := h.run (fromCycle a keycode) k
  rw [← hregs, runFrom_add]
  exact hstart.showsFrame _

/-- Whatever the registers of the display hold when the reset button is released,
and whatever the keycodes are from then on: within 1638854 `Clk` cycles the
display becomes stable. -/
theorem display_stabilises (s : State) (keycode : Nat → BitVec 16) :
    ∃ a, a ≤ 1638854 ∧ StableFrom s keycode a := by
  obtain ⟨a, -, ha, hstart⟩ := exists_frameStart s keycode
  exact ⟨a, ha, stableFrom_of_frameStart hstart⟩

end FinalProject

end SpaceInvaders
