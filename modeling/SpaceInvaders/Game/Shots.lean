import SpaceInvaders.Game.Flight
import SpaceInvaders.Machine.Eventually

/-!
# The end of a shot

The laser module on its own, under any frame clock, key and cannon column. A
shot that has reached the top should go out, and the next one should appear a
frame later at the earliest: both arms of the source's `case` assign
`laser_on_in = 1'b0` at the top. In the arm for the held key the `else` of the
next `if` overrides it, so a shot that reaches the top while space is held is
replaced by the next one in the same tick. In every other tick the shot goes
out, and two shots are separated by a dark frame (`shotsEnd_iff`).
-/

namespace SpaceInvaders

namespace Laser

open Machine Registers

/-- What drives the module while `Reset` is low. -/
structure Drive where
  frameClk : Nat → Bool
  keycode1 : Nat → BitVec 8
  cannonXPosIn : Nat → BitVec 10

def Drive.input (d : Drive) (n : Nat) : Input :=
  ⟨false, d.frameClk n, d.keycode1 n, d.cannonXPosIn n⟩

/-- The module in cycle `n` of the run from reset with `Reset` low afterwards. -/
def run (e : EdgeDetector) (d : Drive) (n : Nat) : State :=
  stateAt State.step d.input ⟨e, .reset⟩ n

/-- Cycle `n` is a frame tick. -/
def tick (e : EdgeDetector) (d : Drive) (n : Nat) : Bool :=
  (run e d n).edge.frameClkRisingEdge

/-- The registers in cycle `n`. -/
def regs (e : EdgeDetector) (d : Drive) (n : Nat) : Registers := (run e d n).regs

/-- A lit shot that has reached the top. -/
def Registers.AtTop (s : Registers) : Prop :=
  s.laserOn = true ∧ s.laserYPos ≤ laserYMin + laserSize

instance : DecidablePred Registers.AtTop := fun _ => inferInstanceAs (Decidable (_ ∧ _))

theorem Registers.AtTop.not_inFlight {s : Registers} (h : s.AtTop) : ¬s.InFlight := by
  rintro ⟨-, hlow⟩
  have htop := h.2
  simp only [laserYMin, laserSize, BitVec.le_def, BitVec.toNat_add, BitVec.toNat_ofNat] at htop
  omega

/-- A lit shot is in flight or at the top. -/
theorem Registers.atTop_of_not_inFlight {s : Registers} (hon : s.laserOn = true)
    (h : ¬s.InFlight) : s.AtTop := by
  refine ⟨hon, ?_⟩
  have hlow : ¬2 < s.laserYPos.toNat := fun hlow => h ⟨hon, hlow⟩
  simp only [laserYMin, laserSize, BitVec.le_def, BitVec.toNat_add, BitVec.toNat_ofNat]
  omega

section Run

variable {e : EdgeDetector} {d : Drive}

theorem regs_succ (n : Nat) :
    regs e d (n + 1) =
      if tick e d n then (regs e d n).next true (d.keycode1 n) (d.cannonXPosIn n)
      else regs e d n := by
  have hstep : regs e d (n + 1) = (regs e d n).next (tick e d n) (d.keycode1 n)
      (d.cannonXPosIn n) := State.step_regs _ _ rfl
  rw [hstep]
  cases tick e d n <;> rfl

theorem regs_succ_of_tick {n : Nat} (h : tick e d n = true) :
    regs e d (n + 1) = (regs e d n).next true (d.keycode1 n) (d.cannonXPosIn n) := by
  rw [regs_succ, if_pos h]

theorem sound_regs (n : Nat) : (regs e d n).Sound := by
  induction n with
  | zero => exact .reset
  | succ n ih =>
      rw [regs_succ]
      split
      · exact ih.next _ _
      · exact ih

/-- Between two ticks nothing changes. -/
theorem regs_hold {a b : Nat} (hab : a ≤ b) (quiet : ∀ k, a ≤ k → k < b → tick e d k = false) :
    regs e d b = regs e d a :=
  gated_hold (g := tick e d)
    (f := fun k s => s.next true (d.keycode1 k) (d.cannonXPosIn k)) regs_succ hab quiet

/-- A shot appears at tick `t`. -/
def Fires (e : EdgeDetector) (d : Drive) (t : Nat) : Prop :=
  tick e d t = true ∧ (regs e d (t + 1)).laserYPos = laserYResetPos ∧
    (regs e d (t + 1)).laserOn = true

theorem fires_iff (t : Nat) :
    Fires e d t ↔ tick e d t = true ∧ d.keycode1 t = 1#8 ∧ ¬(regs e d t).InFlight := by
  refine and_congr_right fun htick => ?_
  rw [regs_succ_of_tick htick]
  exact (sound_regs t).next_fires_iff _ _

/-- A frame without a laser, from tick `v` to cycle `u`: the laser is off in all
of its cycles, and the column has been reloaded at its beginning. -/
def DarkFrame (e : EdgeDetector) (d : Drive) (v u : Nat) : Prop :=
  tick e d v = true ∧ tick e d u = true ∧
    ∀ c, v < c → c ≤ u →
      (regs e d c).laserOn = false ∧ (regs e d c).laserXMotion = d.cannonXPosIn v

/-- Before cycle `N`, every shot that has reached the top goes out at the next
tick, and any two shots have a dark frame between them. -/
structure ShotsEnd (e : EdgeDetector) (d : Drive) (N : Nat) : Prop where
  out : ∀ n, n < N → tick e d n = true → (regs e d n).AtTop → (regs e d (n + 1)).laserOn = false
  apart : ∀ t u, t < u → u < N → Fires e d t → Fires e d u →
    ∃ v w, t < v ∧ v < w ∧ w ≤ u ∧ DarkFrame e d v w

/-- A tick at the top turns the laser off exactly if space is not held. -/
theorem laserOn_after_top {n : Nat} (htick : tick e d n = true) (htop : (regs e d n).AtTop) :
    (regs e d (n + 1)).laserOn = false ↔ d.keycode1 n ≠ 1#8 := by
  rw [regs_succ_of_tick htick]
  by_cases hkey : d.keycode1 n = 1#8
  · rw [hkey, next_of_space htop.not_inFlight]
    simp
  · rw [next_of_noSpace htop.not_inFlight hkey]
    simp [hkey]

/-- A laser that is off right after a tick has just been reloaded. -/
theorem reloaded_of_off {n : Nat} (htick : tick e d n = true)
    (hoff : (regs e d (n + 1)).laserOn = false) :
    (regs e d (n + 1)).laserXMotion = d.cannonXPosIn n := by
  rw [regs_succ_of_tick htick] at hoff ⊢
  by_cases hfly : (regs e d n).InFlight
  · rw [next_of_inFlight hfly] at hoff
    exact absurd hoff (by simp)
  · by_cases hkey : d.keycode1 n = 1#8
    · rw [hkey, next_of_space hfly]
    · rw [next_of_noSpace hfly hkey]

/-- A shot that does not replace a lit one is separated from every earlier one. -/
theorem exists_darkFrame {t u : Nat} (htu : t < u) (ht : Fires e d t) (hu : Fires e d u)
    (hoff : (regs e d u).laserOn = false) :
    ∃ v w, t < v ∧ v < w ∧ w ≤ u ∧ DarkFrame e d v w := by
  obtain ⟨v, hvu, hv, hlast⟩ := exists_last (p := fun k => tick e d k = true) ⟨t, htu, ht.1⟩
  -- Nothing changes after the last tick before the shot.
  have hsame : ∀ c, v < c → c ≤ u → regs e d c = regs e d (v + 1) := by
    intro c hvc hcu
    refine regs_hold hvc fun k hk hkc => ?_
    exact Bool.eq_false_iff.mpr (hlast k hk (by omega))
  rw [hsame u hvu (Nat.le_refl u)] at hoff
  have htv : t < v := by
    obtain hlt | rfl | hgt := Nat.lt_trichotomy t v
    · exact hlt
    · rw [ht.2.2] at hoff
      exact absurd hoff (by simp)
    · exact absurd ht.1 (hlast t hgt htu)
  refine ⟨v, u, htv, hvu, Nat.le_refl u, hv, hu.1, fun c hvc hcu => ?_⟩
  rw [hsame c hvc hcu]
  exact ⟨hoff, reloaded_of_off hv hoff⟩

/-- Where shots end as they should, space is not held when one is at the top. -/
theorem ShotsEnd.released {N n : Nat} (h : ShotsEnd e d N) (hn : n < N)
    (htick : tick e d n = true) (htop : (regs e d n).AtTop) : d.keycode1 n ≠ 1#8 :=
  (laserOn_after_top htick htop).mp (h.out n hn htick htop)

theorem shotsEnd_of_released {N : Nat}
    (h : ∀ n, n < N → tick e d n = true → (regs e d n).AtTop → d.keycode1 n ≠ 1#8) :
    ShotsEnd e d N := by
  refine ⟨fun n hn htick htop => (laserOn_after_top htick htop).mpr (h n hn htick htop), ?_⟩
  intro t u htu huN ht hu
  obtain ⟨htick, hkey, hfly⟩ := (fires_iff u).mp hu
  refine exists_darkFrame htu ht hu ?_
  by_contra hon
  rw [Bool.not_eq_false] at hon
  exact h u huN htick (atTop_of_not_inFlight hon hfly) hkey

/-- Until cycle `N` shots end as both arms of the source say if and only if no
tick before `N` finds a shot at the top with space held. -/
theorem shotsEnd_iff (e : EdgeDetector) (d : Drive) (N : Nat) :
    ShotsEnd e d N ↔
      ∀ n, n < N → tick e d n = true → (regs e d n).AtTop → d.keycode1 n ≠ 1#8 := by
  constructor
  · intro h n hn htick htop
    exact h.released hn htick htop
  · exact shotsEnd_of_released

/-- A frame clock that rises in every second cycle, with space held and the cannon at rest. -/
def spaceHeld : Drive := ⟨fun n => n % 2 == 1, fun _ => 1#8, fun _ => 320#10⟩

/-- The first shot of a run with space held is replaced at the top. -/
theorem spaceHeld_not_shotsEnd : ¬∀ (e : EdgeDetector) (d : Drive) (N : Nat), ShotsEnd e d N := by
  intro h
  have hout := (h .low spaceHeld 139).out 138 (by decide) (by decide +kernel) (by decide +kernel)
  exact absurd hout (by decide +kernel)

end Run

end Laser

namespace Game

open Machine

/-- What drives the laser in the game: the space key and the cannon's next column. -/
def laserDrive (e : EdgeDetector) (d : Drive) : Laser.Drive where
  frameClk := d.frameClk
  keycode1 := fun n => (d.keys n).space
  cannonXPosIn := fun n => (run e d n).cannon.cannonXPosIn (d.keys n).cannon

/-- The laser of the game is the module driven in this way. -/
theorem run_laser (e : EdgeDetector) (d : Drive) (n : Nat) :
    (run e d n).laser = Laser.run e (laserDrive e d) n := by
  induction n with
  | zero => rfl
  | succ n ih => exact congrArg (Laser.State.step ((laserDrive e d).input n)) ih

theorem tick_laser (e : EdgeDetector) (d : Drive) (n : Nat) :
    Laser.tick e (laserDrive e d) n = tick e d n := by
  rw [Laser.tick, ← run_laser, run_laser_edge, tick]

theorem regs_laser (e : EdgeDetector) (d : Drive) (n : Nat) :
    Laser.regs e (laserDrive e d) n = shot e d n := by
  rw [Laser.regs, ← run_laser, shot]

/-- The shots of the game end as they should until cycle `N` if and only if space is never
held at a tick that finds one at the top. -/
theorem laser_shotsEnd (e : EdgeDetector) (d : Drive) (N : Nat) :
    Laser.ShotsEnd e (laserDrive e d) N ↔
      ∀ n, n < N → tick e d n = true → (shot e d n).AtTop → (d.keys n).space ≠ 1#8 := by
  constructor
  · intro h n hn htick htop
    rw [← tick_laser] at htick
    rw [← regs_laser] at htop
    exact h.released hn htick htop
  · intro h
    refine Laser.shotsEnd_of_released ?_
    intro n hn htick htop
    rw [tick_laser] at htick
    rw [regs_laser] at htop
    exact h n hn htick htop

end Game

end SpaceInvaders
