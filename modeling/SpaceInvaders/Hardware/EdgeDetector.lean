import SpaceInvaders.Machine.Edge

/-!
# The frame-clock edge detector

`cannon.sv` and `laser.sv` contain the same two flip-flops, clocked by `Clk`
and never reset: a delayed copy of `frame_clk` and a registered flag for its
rising edge. The flag is high two cycles after the cycle in which `frame_clk`
was last low, for exactly one cycle per rising edge.
-/

namespace SpaceInvaders

open Machine

structure EdgeDetector where
  frameClkDelayed : Bool
  frameClkRisingEdge : Bool
deriving Repr, DecidableEq

namespace EdgeDetector

/-- Both flip-flops low. The source never resets them. -/
def low : EdgeDetector := ⟨false, false⟩

def step (frameClk : Bool) (s : EdgeDetector) : EdgeDetector where
  frameClkDelayed := frameClk
  frameClkRisingEdge := frameClk == true && s.frameClkDelayed == false

@[simp] theorem step_frameClkDelayed (frameClk : Bool) (s : EdgeDetector) :
    (s.step frameClk).frameClkDelayed = frameClk := rfl

@[simp] theorem step_frameClkRisingEdge (frameClk : Bool) (s : EdgeDetector) :
    (s.step frameClk).frameClkRisingEdge = (frameClk && !s.frameClkDelayed) := by
  simp [step]

section Run

variable {frameClk : Nat → Bool} {e : Nat → EdgeDetector}

/-- The flag of cycle `n + 2` reports the edge between cycles `n` and `n + 1`. -/
theorem frameClkRisingEdge_iff (he : ∀ n, e (n + 1) = (e n).step (frameClk n)) (n : Nat) :
    (e (n + 2)).frameClkRisingEdge = true ↔ RisesAt frameClk n := by
  rw [he (n + 1), he n]
  simp [RisesAt, and_comm]

/-- Started low on a low `frame_clk`, the flag is low in the first two cycles. -/
theorem frameClkRisingEdge_of_lt_two (he : ∀ n, e (n + 1) = (e n).step (frameClk n))
    (h0 : e 0 = low) (hclk : frameClk 0 = false) {n : Nat} (hn : n < 2) :
    (e n).frameClkRisingEdge = false := by
  match n, hn with
  | 0, _ => simp [h0, low]
  | 1, _ => simp [he, hclk]

end Run

end EdgeDetector

end SpaceInvaders
