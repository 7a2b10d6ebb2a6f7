import SpaceInvaders.Hardware.FinalProject

/-!
# What a press of the reset button resets

`Reset_h` clears the pixel clock, and the VGA controller is reset
synchronously by the same signal on that clock. While `Reset_h` is high the
clock is stopped low, so the controller can only sample the reset at the `Clk`
edge that raises `Reset_h`, and only if the pixel clock rises at that edge too.
Cannon and laser are clocked by `Clk` and are reset by every pulse.

`resetPulse_iff` makes this exact: a pulse of any length resets the whole
display if and only if the pixel clock was low before it.
-/

namespace SpaceInvaders

namespace VgaController.Registers

/-- No step of a running controller ends in the reset values: outside the
horizontal sync pulse `VGA_HS` is high. -/
theorem step_ne_reset (s : Registers) : s.step false ≠ reset := by
  intro h
  have hcounter : s.hCounterIn = 0#10 := congrArg hCounter h
  have hsync : s.vgaHSIn = false := congrArg vgaHS h
  rw [vgaHSIn_eq, hcounter] at hsync
  exact absurd hsync (by decide)

end VgaController.Registers

namespace FinalProject

open Machine

/-- The states of the display after power-up: `VGA_CLK` starts low, every other
register may hold anything, and the button and the keycodes are arbitrary. -/
inductive Reachable : State → Prop where
  | powerUp (s : State) (low : s.vgaClk = false) : Reachable s
  | step (i : Input) {s : State} (reached : Reachable s) : Reachable (s.step i)

/-- Cannon, laser and VGA controller all hold their reset values. -/
def AllReset (s : State) : Prop := s.game.regs = .reset ∧ s.vga = .reset

instance : DecidablePred AllReset := fun _ => inferInstanceAs (Decidable (_ ∧ _))

/-- From `s` on, `Reset_h` is high in cycles `1` to `n` and low again in cycle
`n + 1`. -/
structure ResetPulse (s : State) (input : Nat → Input) (n : Nat) : Prop where
  long : 2 ≤ n
  before : s.resetH = false
  high : ∀ k, 1 ≤ k → k ≤ n → (stateAt State.step input s k).resetH = true
  after : (stateAt State.step input s (n + 1)).resetH = false

/-- With `Reset_h` low, a controller on a high pixel clock has just made a step. -/
theorem Reachable.vga_ne_reset {s : State} (hs : Reachable s) (hclk : s.vgaClk = true)
    (hreset : s.resetH = false) : s.vga ≠ .reset := by
  cases hs with
  | powerUp _ low => exact absurd (low.symm.trans hclk) Bool.false_ne_true
  | @step i s reached =>
      have hkey : (!i.key0) = false := hreset
      have hold : s.vgaClk = false := by
        rw [State.step_vgaClk] at hclk
        split at hclk
        · exact absurd hclk Bool.false_ne_true
        · simpa using hclk
      rw [State.step_vga, if_pos ⟨hold, hclk⟩, hkey]
      exact s.vga.step_ne_reset

section Pulse

variable {s : State} {input : Nat → Input} {n : Nat}

/-- The pixel clock is stopped low while `Reset_h` is high, so nothing reaches
the controller after the first cycle of the pulse. -/
private theorem ResetPulse.vga_held (h : ResetPulse s input n) {k : Nat} (hk : k ≤ n) :
    (stateAt State.step input s (k + 1)).vga = (stateAt State.step input s 1).vga := by
  induction k with
  | zero => rfl
  | succ k ih =>
      have hhigh := h.high (k + 1) (by omega) hk
      rw [stateAt_succ (k + 1), State.step_vga, State.step_vgaClk, if_pos hhigh,
        if_neg (fun hrise => Bool.false_ne_true hrise.2)]
      exact ih (by omega)

/-- The first edge of the pulse resets the controller if it raises the pixel
clock, and does not clock it otherwise. -/
private theorem ResetPulse.vga_first (h : ResetPulse s input n) :
    (stateAt State.step input s 1).vga = if s.vgaClk = false then .reset else s.vga := by
  have hlong := h.long
  have hkey : (!(input 0).key0) = true := h.high 1 (Nat.le_refl 1) (by omega)
  rw [stateAt_succ, stateAt_zero, State.step_vga, State.step_vgaClk, h.before, hkey]
  cases s.vgaClk <;> rfl

private theorem ResetPulse.game_reset (h : ResetPulse s input n) :
    (stateAt State.step input s (n + 1)).game.regs = .reset := by
  have hlong := h.long
  rw [stateAt_succ, State.step_game, h.high n (by omega) (Nat.le_refl n)]
  rfl

end Pulse

/-- In the cycle in which `Reset_h` returns low, everything is reset if and
only if the pixel clock was low in the cycle before the pulse. -/
theorem resetPulse_iff {s : State} (hs : Reachable s) {input : Nat → Input} {n : Nat}
    (hpulse : ResetPulse s input n) :
    AllReset (stateAt State.step input s (n + 1)) ↔ s.vgaClk = false := by
  rw [AllReset, hpulse.vga_held (Nat.le_refl n), hpulse.vga_first]
  constructor
  · rintro ⟨-, hvga⟩
    by_contra hclk
    rw [if_neg hclk] at hvga
    exact hs.vga_ne_reset (Bool.eq_true_of_not_eq_false hclk) hpulse.before hvga
  · intro hclk
    rw [if_pos hclk]
    exact ⟨hpulse.game_reset, rfl⟩

/-- The button held for `n` cycles and released afterwards. -/
def press (n k : Nat) : Input := ⟨decide (n ≤ k), 0#16⟩

theorem resetPulse_press_two (s : State) (h : s.resetH = false) : ResetPulse s (press 2) 2 where
  long := Nat.le_refl 2
  before := h
  high k hlo hhi := by
    obtain rfl | rfl : k = 1 ∨ k = 2 := by omega
    · rfl
    · rfl
  after := rfl

theorem resetPulse_clockLow :
    AllReset (stateAt State.step (press 2) .reset 3) ↔ State.reset.vgaClk = false :=
  resetPulse_iff (.powerUp .reset rfl) (resetPulse_press_two .reset rfl)

/-- One `Clk` cycle after the reset state the pixel clock is high, and a pulse
that begins then leaves the VGA controller running. -/
theorem resetPulse_clockHigh_not_allReset :
    ¬∀ s input n, Reachable s → ResetPulse s input n →
      AllReset (stateAt State.step input s (n + 1)) := by
  intro h
  have hall := h (run (fun _ => 0#16) 1) (press 2) 2 (.step _ (.powerUp .reset rfl))
    (resetPulse_press_two _ rfl)
  exact absurd hall (by decide)

end FinalProject

end SpaceInvaders
