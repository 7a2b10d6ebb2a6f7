import SpaceInvaders.Hardware.Cannon
import SpaceInvaders.Hardware.Laser

/-!
# The game: cannon and laser as wired in `final_project.sv`

Both modules get the same `Clk`, `Reset` and `frame_clk`, and the laser reads
the cannon's combinational output `Cannon_X_Pos_in`, the position the cannon is
about to take. Their edge detectors receive the same signal, so the two modules
always tick together.

`frameStep` is the effect of one tick on the registers of both modules.
`regs_succ` reduces a run at `Clk` level, under any frame clock, to that step:
between ticks nothing moves, and at a tick the keys of that cycle are used.
-/

namespace SpaceInvaders.Game

open Machine

/-- The key inputs of one `Clk` cycle, as 8-bit values. -/
structure Keys where
  left : BitVec 8
  right : BitVec 8
  space : BitVec 8
deriving Repr, DecidableEq

def Keys.cannon (keys : Keys) : Cannon.Keys := ⟨keys.left, keys.right⟩

/-- The position, motion and status registers of both modules. -/
structure Registers where
  cannon : Cannon.Registers
  laser : Laser.Registers
deriving Repr, DecidableEq

def Registers.reset : Registers := ⟨.reset, .reset⟩

/-- One frame: the next-state logic of both modules with
`frame_clk_rising_edge = 1`. The laser reads the cannon's next position. -/
def frameStep (keys : Keys) (g : Registers) : Registers where
  cannon := g.cannon.next true keys.cannon
  laser := g.laser.next true keys.space (g.cannon.next true keys.cannon).cannonXPos

/-- All flip-flops of the two instances. -/
structure State where
  cannon : Cannon.State
  laser : Laser.State
deriving Repr, DecidableEq

structure Input where
  reset : Bool
  frameClk : Bool
  keys : Keys
deriving Repr, DecidableEq

namespace State

def regs (s : State) : Registers := ⟨s.cannon.regs, s.laser.regs⟩

/-- One rising edge of `Clk` for both instances. -/
def step (i : Input) (s : State) : State where
  cannon := s.cannon.step { reset := i.reset, frameClk := i.frameClk, keys := i.keys.cannon }
  laser := s.laser.step
    { reset := i.reset
      frameClk := i.frameClk
      keycode1 := i.keys.space
      cannonXPosIn := s.cannon.cannonXPosIn i.keys.cannon }

/-- With the edge detectors in agreement, a `Clk` edge outside reset is either
one frame step of both modules or leaves them alone. -/
theorem step_regs_eq (i : Input) (s : State) (hreset : i.reset = false)
    (hedge : s.laser.edge = s.cannon.edge) :
    (s.step i).regs =
      if s.cannon.edge.frameClkRisingEdge then frameStep i.keys s.regs else s.regs := by
  simp only [regs, step]
  rw [Cannon.State.step_regs _ _ hreset, Laser.State.step_regs _ _ hreset, hedge]
  simp only [Cannon.State.cannonXPosIn, frameStep]
  cases s.cannon.edge.frameClkRisingEdge <;> rfl

/-- The reset values of both modules. The edge detectors have no reset; driven
by the same signal they hold the same values. -/
def start (e : EdgeDetector) : State := ⟨⟨e, .reset⟩, ⟨e, .reset⟩⟩

end State

/-- What drives the two modules while `Reset` is low. -/
structure Drive where
  frameClk : Nat → Bool
  keys : Nat → Keys

def Drive.input (d : Drive) (n : Nat) : Input := ⟨false, d.frameClk n, d.keys n⟩

/-- The state in cycle `n` of the run from reset with `Reset` low afterwards. -/
def run (e : EdgeDetector) (d : Drive) (n : Nat) : State :=
  stateAt State.step d.input (.start e) n

/-- Cycle `n` is a frame tick: its closing `Clk` edge makes one frame step. -/
def tick (e : EdgeDetector) (d : Drive) (n : Nat) : Bool :=
  (run e d n).cannon.edge.frameClkRisingEdge

section Run

variable {e : EdgeDetector} {d : Drive}

@[simp] theorem run_zero : run e d 0 = .start e := rfl

theorem run_succ (n : Nat) : run e d (n + 1) = (run e d n).step (d.input n) := rfl

theorem run_cannon_edge_succ (n : Nat) :
    (run e d (n + 1)).cannon.edge = (run e d n).cannon.edge.step (d.frameClk n) := rfl

/-- The two edge detectors are in the same state in every cycle. -/
theorem run_laser_edge (n : Nat) : (run e d n).laser.edge = (run e d n).cannon.edge := by
  refine stateAt_invariant (P := fun _ (s : State) => s.laser.edge = s.cannon.edge) rfl ?_ n
  intro n h
  simp only [State.step, Laser.State.step_edge, Cannon.State.step_edge, h]

/-- A run at `Clk` level makes one frame step at each tick and none between. -/
theorem regs_succ (n : Nat) :
    (run e d (n + 1)).regs =
      if tick e d n then frameStep (d.keys n) (run e d n).regs else (run e d n).regs :=
  State.step_regs_eq _ _ rfl (run_laser_edge n)

theorem regs_succ_of_tick {n : Nat} (h : tick e d n = true) :
    (run e d (n + 1)).regs = frameStep (d.keys n) (run e d n).regs := by
  rw [regs_succ, if_pos h]

theorem regs_succ_of_not_tick {n : Nat} (h : ¬tick e d n = true) :
    (run e d (n + 1)).regs = (run e d n).regs := by
  rw [regs_succ, if_neg h]

/-- The registers are the frame steps of all ticks so far, in order. -/
theorem regs_eq_foldl (n : Nat) :
    (run e d n).regs =
      (openCycles (tick e d) n).foldl (fun g k => frameStep (d.keys k) g) .reset :=
  gated_eq_foldl (x := fun n => (run e d n).regs) (g := tick e d)
    (f := fun k g => frameStep (d.keys k) g) (fun n => regs_succ n) n

/-- Without a tick in between, the registers do not change. -/
theorem regs_hold {a b : Nat} (hab : a ≤ b)
    (quiet : ∀ k, a ≤ k → k < b → tick e d k = false) :
    (run e d b).regs = (run e d a).regs :=
  gated_hold (x := fun n => (run e d n).regs) (g := tick e d)
    (f := fun k g => frameStep (d.keys k) g) (fun n => regs_succ n) hab quiet

/-- What every frame step keeps, every run at `Clk` level keeps. -/
theorem regs_invariant {P : Registers → Prop} (init : P .reset)
    (preserved : ∀ keys g, P g → P (frameStep keys g)) (n : Nat) :
    P (run e d n).regs := by
  induction n with
  | zero => exact init
  | succ n ih =>
      rw [regs_succ]
      split
      · exact preserved _ _ ih
      · exact ih

end Run

end SpaceInvaders.Game
