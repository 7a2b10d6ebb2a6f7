import SpaceInvaders.Display.Screen

/-!
# The game that the registers play

`Arcade` is the game without its hardware: a cannon with a column and a heading,
and at most one shot with an age and a column. Its numbers are integers, its
commands say what the player wants, and a step is what happens in a 60th of a
second. Two habits of the hardware are visible in it because they are visible on
the screen: the cannon takes a new heading one step late, and a shot starts in
the column that the laser has been aimed at, which is the cannon's column of
some earlier step.

The registers of every game in play represent a state of it, and the frame step
refines its step (`Represents.frameStep`). So after a reset the screen shows it
at 60 Hz (`display_playsArcade`).
-/

namespace SpaceInvaders.Game

open Machine

inductive Heading where
  | left
  | still
  | right
deriving Repr, DecidableEq

/-- The way the cannon goes in a step. -/
def Heading.shift : Heading → Int
  | .left => -2
  | .still => 0
  | .right => 2

/-- What the player wants. -/
structure Command where
  move : Heading
  fire : Bool
deriving Repr, DecidableEq

/-- A shot, by the number of steps since it was fired and the column it is seen in. -/
structure Shot where
  age : Nat
  column : Int
deriving Repr, DecidableEq

structure Arcade where
  column : Int
  heading : Heading
  /-- The column that the laser is aimed at. -/
  aim : Int
  shot : Option Shot
deriving Repr, DecidableEq

namespace Arcade

/-- The heading that the cannon takes in a column; it does not head for a near border. -/
def steer (column : Int) : Heading → Heading
  | .left => if column ≤ 4 then .still else .left
  | .still => .still
  | .right => if 635 ≤ column then .still else .right

/-- A shot goes on for 67 steps. -/
def flying (a : Arcade) : Option Shot := a.shot.filter (·.age ≤ 66)

/-- A 60th of a second. -/
def step (command : Command) (a : Arcade) : Arcade where
  column := a.column + a.heading.shift
  heading := steer a.column command.move
  aim := match a.flying with
    | some _ => a.aim
    | none => a.column + a.heading.shift
  shot := match a.flying with
    | some shot => some ⟨shot.age + 1, a.aim⟩
    | none => if command.fire then some ⟨0, a.aim⟩ else none

/-- The point `(x, y)` lies in the disc around `(column, row)`. -/
def InDisc (radius column row x y : Int) : Prop :=
  (x - column) ^ 2 + (y - row) ^ 2 ≤ radius ^ 2

instance (radius column row x y : Int) : Decidable (InDisc radius column row x y) :=
  inferInstanceAs (Decidable (_ ≤ _))

/-- A green cannon on the ground, a white shot that climbs from there, all else black. -/
def picture (a : Arcade) (x y : Int) : Rgb :=
  if InDisc 4 a.column 470 x y then .brightGreen
  else if a.shot.any fun shot => InDisc 2 shot.column (470 - 7 * shot.age) x y then .white
  else ⟨0x00#8, 0x00#8, 0x00#8⟩

end Arcade

/-- The player's wish in the key signals: left wins over right. -/
def Keys.command (keys : Keys) : Command where
  move := if keys.left ≠ 0#8 then .left else if keys.right ≠ 0#8 then .right else .still
  fire := keys.space = 1#8

/-- The motion register for a heading. -/
def Heading.motion : Heading → BitVec 10
  | .left => 1022#10
  | .still => 0#10
  | .right => 2#10

theorem Heading.motion_injective : Function.Injective Heading.motion := by
  intro a b
  cases a <;> cases b <;> decide

/-- The registers hold the game `a`. -/
structure Represents (g : Registers) (a : Arcade) : Prop where
  track : g.cannon.OnTrack
  column : (g.cannon.cannonXPos.toNat : Int) = a.column
  heading : g.cannon.cannonXMotion = a.heading.motion
  aim : (g.laser.laserXMotion.toNat : Int) = a.aim
  dark : a.shot = none → g.laser.laserOn = false
  lit : ∀ shot, a.shot = some shot → shot.age ≤ 67 ∧
    (g.laser.laserXPos.toNat : Int) = shot.column ∧
    Laser.Registers.Flight shot.age g.laser.laserXMotion g.laser

namespace Represents

variable {g : Registers} {a : Arcade}

theorem column_next (h : Represents g a) :
    ((g.cannon.cannonXPos + g.cannon.cannonXMotion).toNat : Int) =
      a.column + a.heading.shift := by
  rw [← h.column]
  obtain ⟨hmotion, hx⟩ | ⟨hmotion, -, hx⟩ | ⟨hmotion, -, hx⟩ := h.track.add_motion
  · rw [show a.heading = .still from Heading.motion_injective (h.heading.symm.trans hmotion), hx]
    exact (Int.add_zero _).symm
  · rw [show a.heading = .left from Heading.motion_injective (h.heading.symm.trans hmotion),
      Heading.shift]
    omega
  · rw [show a.heading = .right from Heading.motion_injective (h.heading.symm.trans hmotion),
      Heading.shift]
    omega

theorem heading_next (h : Represents g a) (keys : Keys) :
    (g.cannon.keyMotion keys.cannon).cannonXMotion =
      (Arcade.steer a.column keys.command.move).motion := by
  have hbounds := h.track.bounds
  have hcolumn := h.column
  rw [Cannon.Registers.keyMotion_cannonXMotion (by omega), Keys.command, Keys.cannon]
  by_cases hleft : keys.left = 0#8
  · by_cases hright : keys.right = 0#8
    · simp [hleft, hright, Arcade.steer, Heading.motion]
    · by_cases hborder : 635 ≤ g.cannon.cannonXPos.toNat
      · simp [hleft, hright, Arcade.steer, Heading.motion, hborder, show 635 ≤ a.column by omega]
      · simp [hleft, hright, Arcade.steer, Heading.motion, hborder, show ¬635 ≤ a.column by omega]
  · by_cases hborder : g.cannon.cannonXPos.toNat ≤ 4
    · simp [hleft, Arcade.steer, Heading.motion, hborder, show a.column ≤ 4 by omega]
    · simp [hleft, Arcade.steer, Heading.motion, hborder, show ¬a.column ≤ 4 by omega]

/-- A shot in flight is flying. -/
theorem flying_of_inFlight (h : Represents g a) (hfly : g.laser.InFlight) :
    ∃ shot, a.flying = some shot ∧ shot.age ≤ 66 ∧
      Laser.Registers.Flight shot.age g.laser.laserXMotion g.laser := by
  cases hshot : a.shot with
  | none => exact absurd (hfly.1.symm.trans (h.dark hshot)) (by decide)
  | some shot =>
      obtain ⟨-, -, hflight⟩ := h.lit shot hshot
      have hage := hflight.inFlight_iff.mp hfly
      exact ⟨shot, by simp [Arcade.flying, hshot, hage], hage, hflight⟩

theorem flying_of_not_inFlight (h : Represents g a) (hfly : ¬g.laser.InFlight) :
    a.flying = none := by
  cases hshot : a.shot with
  | none => rw [Arcade.flying, hshot]; rfl
  | some shot =>
      obtain ⟨-, -, hflight⟩ := h.lit shot hshot
      have hage : ¬shot.age ≤ 66 := mt hflight.inFlight_iff.mpr hfly
      simp only [Arcade.flying, hshot, Option.filter_some, decide_eq_false hage,
        Bool.false_eq_true, if_false]

/-- The frame step of the registers is the step of the game. -/
theorem frameStep (h : Represents g a) (keys : Keys) :
    Represents (frameStep keys g) (a.step keys.command) := by
  have hcolumn := h.column_next
  by_cases hfly : g.laser.InFlight
  · obtain ⟨shot, hflying, hage, hflight⟩ := h.flying_of_inFlight hfly
    have hnext := hflight.next hage keys.space (g.cannon.next true keys.cannon).cannonXPos
    refine ⟨h.track.next _, hcolumn, h.heading_next keys, ?_, ?_, ?_⟩
    · rw [Arcade.step, hflying, ← h.aim, Game.frameStep, hnext.xMotion]
    · rw [Arcade.step, hflying]
      exact fun hnone => absurd hnone (Option.some_ne_none _)
    · rintro _ hshot
      rw [Arcade.step, hflying] at hshot
      obtain rfl := Option.some.inj hshot
      refine ⟨Nat.succ_le_succ hage, ?_, ?_⟩
      · rw [Game.frameStep, hnext.xPos (Nat.succ_pos _), h.aim]
      · rw [Game.frameStep, hnext.xMotion]
        exact hnext
  · have hflying := h.flying_of_not_inFlight hfly
    by_cases hspace : keys.space = 1#8
    · have hnext := Laser.Registers.next_of_space hfly (g.cannon.next true keys.cannon).cannonXPos
      refine ⟨h.track.next _, hcolumn, h.heading_next keys, ?_, ?_, ?_⟩
      · rw [Game.frameStep, hspace, hnext, Arcade.step, hflying]
        exact hcolumn
      · rw [Arcade.step, hflying, Keys.command, decide_eq_true hspace]
        exact fun hnone => absurd hnone (Option.some_ne_none _)
      · rintro _ hshot
        rw [Arcade.step, hflying, Keys.command, decide_eq_true hspace] at hshot
        obtain rfl := Option.some.inj hshot
        rw [Game.frameStep, hspace, hnext]
        exact ⟨Nat.zero_le _, h.aim, rfl, rfl, rfl, rfl,
          fun hk => absurd hk (Nat.not_succ_le_zero 0)⟩
    · have hnext := Laser.Registers.next_of_noSpace hfly hspace
        (g.cannon.next true keys.cannon).cannonXPos
      refine ⟨h.track.next _, hcolumn, h.heading_next keys, ?_, ?_, ?_⟩
      · rw [Game.frameStep, hnext, Arcade.step, hflying]
        exact hcolumn
      · rw [Game.frameStep, hnext]
        exact fun _ => rfl
      · rintro _ hshot
        rw [Arcade.step, hflying, Keys.command, decide_eq_false hspace] at hshot
        exact absurd hshot.symm (Option.some_ne_none _)

/-- The picture of the registers is the picture of the game. -/
theorem picture_eq (h : Represents g a) (x y : Nat) :
    FinalProject.picture g x y = a.picture x y := by
  have hrow : g.cannon.cannonYPos.toNat = 470 := by rw [h.track.row]; rfl
  rw [FinalProject.picture, Arcade.picture, hrow, h.column]
  refine if_congr Iff.rfl rfl ?_
  cases hshot : a.shot with
  | none => rw [h.dark hshot]; rfl
  | some shot =>
      obtain ⟨hage, hcolumn, hflight⟩ := h.lit shot hshot
      rw [hflight.on, hcolumn, hflight.height, Option.any_some]
      refine if_congr ?_ rfl rfl
      rw [decide_eq_true_iff, show ((470 - 7 * shot.age : Nat) : Int) = 470 - 7 * shot.age by omega]
      exact and_iff_right rfl

end Represents

/-- Every game in play represents a state of the game. -/
theorem Playing.exists_represents {g : Registers} (h : Playing g) : ∃ a, Represents g a := by
  obtain ⟨heading, hheading⟩ : ∃ heading : Heading, g.cannon.cannonXMotion = heading.motion := by
    obtain ⟨hmotion, -⟩ | ⟨hmotion, -⟩ | ⟨hmotion, -⟩ := h.cannon.add_motion
    · exact ⟨.still, hmotion⟩
    · exact ⟨.left, hmotion⟩
    · exact ⟨.right, hmotion⟩
  cases hon : g.laser.laserOn with
  | false =>
      refine ⟨⟨g.cannon.cannonXPos.toNat, heading, g.laser.laserXMotion.toNat, none⟩,
        h.cannon, rfl, hheading, rfl, fun _ => hon, ?_⟩
      exact fun _ hshot => absurd hshot.symm (Option.some_ne_none _)
  | true =>
      obtain ⟨k, column, hk, -, hflight⟩ := h.shot hon
      refine ⟨⟨g.cannon.cannonXPos.toNat, heading, g.laser.laserXMotion.toNat,
        some ⟨k, g.laser.laserXPos.toNat⟩⟩, h.cannon, rfl, hheading, rfl, ?_, ?_⟩
      · exact fun hnone => absurd hnone (Option.some_ne_none _)
      · intro shot hshot
        obtain rfl := Option.some.inj hshot
        refine ⟨hk, rfl, ?_⟩
        rw [hflight.xMotion]
        exact hflight

end SpaceInvaders.Game

namespace SpaceInvaders.FinalProject

open Machine Game

/-- The commands that a stream of keycodes gives at the ticks of the frames. -/
def commands (keycode : Nat → BitVec 16) (k : Nat) : Command :=
  (keys (keycode (frameCycles * k + keyCycle))).command

/-- The game after `k` steps. -/
def play (keycode : Nat → BitVec 16) (a : Arcade) (k : Nat) : Arcade :=
  stateAt Arcade.step (commands keycode) a k

/-- The 60 Hz game of the registers is the game. -/
theorem represents_play {g : Registers} {a : Arcade} (h : Represents g a)
    (keycode : Nat → BitVec 16) (k : Nat) :
    Represents (sixtyHertz keycode g k) (play keycode a k) :=
  stateAt_simulates (fun keys _ _ h => h.frameStep keys) h _ k

/-- The reset button is let go in an arbitrary state: within 1638854 cycles the
screen shows a game at 60 Hz, one complete picture in each frame, commanded by
the keycodes of the ticks. -/
theorem display_playsArcade (s : State) (hreset : s.resetH = true) (keycode : Nat → BitVec 16) :
    ∃ a game, a ≤ 1638854 ∧ StableFrom s keycode a ∧
      ∀ k x y, picture (sixtyHertz (fromCycle a keycode) (runFrom s keycode a).game.regs k) x y =
        (play (fromCycle a keycode) game k).picture x y := by
  obtain ⟨a, hpos, ha, hstart⟩ := exists_frameStart s keycode
  obtain ⟨n, rfl⟩ := Nat.exists_eq_add_of_le' hpos
  obtain ⟨game, hgame⟩ := (playing_runFrom hreset keycode n).exists_represents
  refine ⟨n + 1, game, ha, stableFrom_of_frameStart hstart, fun k x y => ?_⟩
  exact (represents_play hgame (fromCycle (n + 1) keycode) k).picture_eq x y

theorem display_playsArcade_first :
    ∃ a game, a ≤ 1638854 ∧ StableFrom { State.reset with resetH := true } (fun _ => 0x2C#16) a ∧
      ∀ k x y, picture (sixtyHertz (fromCycle a fun _ => 0x2C#16)
          (runFrom { State.reset with resetH := true } (fun _ => 0x2C#16) a).game.regs k) x y =
        (play (fromCycle a fun _ => 0x2C#16) game k).picture x y :=
  display_playsArcade { State.reset with resetH := true } rfl (fun _ => 0x2C#16)

end SpaceInvaders.FinalProject
