import SpaceInvaders.Console
import SpaceInvaders.Display.Arcade
import SpaceInvaders.Game.CannonPark
import SpaceInvaders.Usb.Liveness

/-!
# What a held key does to the picture

`picture_needs_key` is about what the screen never shows. This file is about
what it comes to show. Up to some step the chip may do anything; from then on it
obliges the host, and the keyboard reports one word. From every point of the
program the word reaches the PIO and stays there, and from the frame after that
the game gets the same keys at every tick: the cannon goes to an edge or stops,
and there is a shot to be seen again and again, or none any more.
-/

namespace SpaceInvaders

open Machine

/-! ## The word in the PIO -/

namespace Usb.Enumeration

open Device

variable {values : Nat → BitVec 16} {N : Nat} {word : BitVec 16}

/-- From step `N` on the chip answers as the host hopes, and every report is `word`. -/
structure Reports (values : Nat → BitVec 16) (N : Nat) (word : BitVec 16) : Prop where
  obliges : ∀ n, N ≤ n → (run values n).action? = some (run values n).host.pc.lastAction →
    Device.Obliges (run values n).host.pc (values n)
  report : ∀ n, N ≤ n → Makes values n .readKeycode (.read (.memory 0x051E#16)) → values n = word

namespace Reports

theorem obligesFrom (h : Reports values N word) :
    device.ObligesFrom () (fun n => .host (values n)) N := by
  intro n o hn he hact
  cases he
  have hobliges := h.obliges n hn hact
  change Device.Obliges (run values n).host.pc
    (device.perform (values n) (run values n).host.pc.lastAction (run values n).chip).1
  -- the host looks at nothing but answers to its reads
  generalize (run values n).host.pc = pc at hobliges ⊢
  cases pc <;> exact hobliges

theorem publishes (h : Reports values N word) : Recurs (Publishes values) := by
  have hfair : HostFair fun n => (.host (values n) : Event (BitVec 16) Empty) :=
    fun n => ⟨n, Nat.le_refl n, _, rfl⟩
  intro n
  obtain ⟨m, hm, hpc⟩ :=
    leadsTo_publish hfair h.obligesFrom (max n N) (Nat.le_max_right n N)
  obtain ⟨k, hmk, -, hpublish⟩ := leadsTo_publishesAt hfair m hpc
  exact ⟨k, by omega, hpublish⟩

/-- The reported word gets into the PIO, and nothing else after it. -/
theorem settles (h : Reports values N word) : ∃ M, ∀ n, M ≤ n → (run values n).keycode = word := by
  refine h.publishes.settles (n := N + 1) ?_ ?_
  · intro n hn hpublish
    obtain ⟨m, rfl, hread, hkeycode⟩ := hpublish.read
    rw [keycode_succ, if_pos hpublish, hkeycode]
    exact h.report m (by omega) hread
  · intro n hquiet hword
    rwa [keycode_succ, if_neg hquiet]

end Reports

/-- What a call returns in the run of a device. -/
theorem returned_of_action {C O E : Type} {d : Device C O E} {chip : C} {o : Nat → O} {n : Nat}
    {act : Action} (h : (run (returned d chip o) n).action? = some act) :
    returned d chip o n =
      (d.perform (o n) act (d.run chip (fun n => .host (o n)) n).chip).1 := by
  rw [System.action?, (run_returned n).1, (run_returned n).2] at h
  rw [returned, System.action?, h]
  rfl

end Usb.Enumeration

/-! ## The game with the same keys at every tick -/

namespace Cannon.Registers

/-- Without a key the cannon stops. -/
theorem next_of_none {keys : Keys} (h : keys.left = 0#8 ∧ keys.right = 0#8) (s : Registers) :
    (s.next true keys).cannonXMotion = 0#10 := by
  simp [next, keyMotion, h]

theorem exists_parkedAt {keys : Keys} (h : keys.left = 0#8 ∧ keys.right = 0#8) (s : Registers) :
    ∃ p, ∀ n, 1 ≤ n → ParkedAt p ((fun s => s.next true keys)^[n] s) := by
  refine ⟨((s.next true keys).cannonXPos).toNat, fun n hn => ?_⟩
  have hstays : ∀ t : Registers, ParkedAt ((s.next true keys).cannonXPos).toNat t →
      ParkedAt ((s.next true keys).cannonXPos).toNat (t.next true keys) := by
    rintro t ⟨hposition, hmotion⟩
    refine ⟨?_, next_of_none h t⟩
    rw [next_true_cannonXPos, hmotion, BitVec.add_zero, hposition]
  exact iterate_invariant_from hstays (a := 1) ⟨rfl, next_of_none h s⟩ hn

end Cannon.Registers

namespace Game

/-- The cannon does not depend on the laser. -/
theorem iterate_frameStep_cannon {keys : Keys} {f : Cannon.Registers → Cannon.Registers}
    (hf : ∀ s : Cannon.Registers, s.next true keys.cannon = f s) (g : Registers) (n : Nat) :
    ((frameStep keys)^[n] g).cannon = f^[n] g.cannon :=
  Function.Semiconj.iterate_right (f := Registers.cannon) (fun g => hf g.cannon) n g

theorem Represents.iterate {g : Registers} {a : Arcade} (h : Represents g a) (keys : Keys)
    (n : Nat) : Represents ((Game.frameStep keys)^[n] g) ((Arcade.step keys.command)^[n] a) := by
  induction n with
  | zero => exact h
  | succ n ih =>
      rw [Function.iterate_succ_apply', Function.iterate_succ_apply']
      exact ih.frameStep keys

namespace Arcade

variable {command : Command}

theorem flying_eq {a : Arcade} {shot : Shot} (h : a.shot = some shot) :
    a.flying = if shot.age ≤ 66 then some shot else none := by
  simp [flying, h, Option.filter]

theorem age_le_of_flying {a : Arcade} {shot : Shot} (h : a.flying = some shot) : shot.age ≤ 66 := by
  rw [flying, Option.filter_eq_some_iff] at h
  exact of_decide_eq_true h.2

theorem step_shot_of_fire (h : command.fire = true) (a : Arcade) :
    (step command a).shot = some ⟨a.flying.elim 0 (·.age + 1), a.aim⟩ := by
  cases hflying : a.flying with
  | none => simp [step, hflying, h]
  | some shot => simp [step, hflying]

/-- With the trigger held, one of any three steps ends with a shot on its way. -/
theorem exists_climbing (h : command.fire = true) (a : Arcade) :
    ∃ j shot, j ≤ 3 ∧ ((step command)^[j] a).shot = some shot ∧ 1 ≤ shot.age ∧ shot.age ≤ 66 := by
  -- a shot that has just been fired is on its way after one more step
  have hfired : ∀ b : Arcade, (∃ column, b.shot = some ⟨0, column⟩) →
      ∃ column, (step command b).shot = some ⟨1, column⟩ := by
    rintro b ⟨column, hshot⟩
    refine ⟨b.aim, ?_⟩
    rw [step_shot_of_fire h, flying_eq hshot, if_pos (Nat.zero_le 66)]
    rfl
  have hfirst := step_shot_of_fire h a
  have hage : a.flying.elim 0 (·.age + 1) ≤ 67 := by
    cases hflying : a.flying with
    | none => exact Nat.zero_le 67
    | some shot => exact Nat.succ_le_succ (age_le_of_flying hflying)
  generalize a.flying.elim 0 (·.age + 1) = age at hfirst hage
  obtain rfl | ⟨hlo, hhi⟩ | rfl : age = 0 ∨ (1 ≤ age ∧ age ≤ 66) ∨ age = 67 := by omega
  · obtain ⟨column, hshot⟩ := hfired _ ⟨_, hfirst⟩
    exact ⟨2, _, by decide, hshot, Nat.le_refl 1, (by decide : 1 ≤ 66)⟩
  · exact ⟨1, _, by decide, hfirst, hlo, hhi⟩
  · have hsecond := step_shot_of_fire h (step command a)
    rw [flying_eq hfirst, if_neg (by decide : ¬67 ≤ 66)] at hsecond
    obtain ⟨column, hshot⟩ := hfired _ ⟨_, hsecond⟩
    exact ⟨3, _, by decide, hshot, Nat.le_refl 1, (by decide : 1 ≤ 66)⟩

/-- The steps that a shot still has to go, and the one that removes it. -/
def stepsLeft (a : Arcade) : Nat := a.shot.elim 0 fun shot => 67 - shot.age + 1

/-- With the trigger released, the last shot ends. -/
theorem shot_none (h : command.fire = false) (a : Arcade) {n : Nat} (hn : 68 ≤ n) :
    ((step command)^[n] a).shot = none := by
  have hfalls : ∀ b : Arcade, ¬b.shot = none → (step command b).stepsLeft < b.stepsLeft := by
    intro b hlit
    obtain ⟨shot, hshot⟩ := Option.ne_none_iff_exists'.mp hlit
    by_cases hage : shot.age ≤ 66
    · simp only [stepsLeft, step, flying_eq hshot, if_pos hage, hshot, Option.elim_some]
      omega
    · simp [stepsLeft, step, flying_eq hshot, hage, hshot, h]
  have hstays : ∀ b : Arcade, b.shot = none → (step command b).shot = none := by
    intro b hnone
    simp [step, flying, hnone, h]
  obtain ⟨m, hm, hnone⟩ := exists_le_rank stepsLeft hfalls a
  have hbound : a.stepsLeft ≤ 68 := by
    rw [stepsLeft]
    cases a.shot with
    | none => exact Nat.zero_le 68
    | some shot => exact Nat.succ_le_succ (Nat.sub_le 67 _)
  exact iterate_invariant_from hstays hnone (by omega)

end Arcade

end Game

/-! ## The frames -/

namespace FinalProject

open Game Usb.Enumeration

/-- From frame `K` on the cannon is seen in column `p`. -/
def StaysAt (p K : Nat) (frames : Nat → Game.Registers) : Prop :=
  ∀ k, K ≤ k → pixels (frames k) .brightGreen = discPixels 640 480 p 470 4

/-- What the frames show if the word is in the PIO from frame `K` on. -/
structure Obeys (word : BitVec 16) (K : Nat) (frames : Nat → Game.Registers) : Prop where
  left : keyPressed 0x50#8 word = true → ∃ p, (p = 2 ∨ p = 4) ∧ StaysAt p (K + 319) frames
  right : keyPressed 0x50#8 word = false → keyPressed 0x4f#8 word = true →
    ∃ p, (p = 636 ∨ p = 638) ∧ StaysAt p (K + 319) frames
  still : keyPressed 0x50#8 word = false → keyPressed 0x4f#8 word = false →
    ∃ p, StaysAt p (K + 1) frames
  /-- Of any four frames one shows all of a shot, up to the pixel at the border. -/
  fire : keyPressed 0x2c#8 word = true → ∀ k, K ≤ k →
    ∃ j, j ≤ 3 ∧ 12 ≤ (pixels (frames (k + j)) .white).card
  ceasefire : keyPressed 0x2c#8 word = false → ∀ k, K + 68 ≤ k → pixels (frames k) .white = ∅

section Settled

variable {word : BitVec 16} {K : Nat} {frames : Nat → Game.Registers}

theorem left_eq_zero_iff : left word = 0#8 ↔ keyPressed 0x50#8 word = false := by
  rw [left, keySignal]
  cases keyPressed 0x50#8 word <;> decide

theorem right_eq_zero_iff : right word = 0#8 ↔ keyPressed 0x4f#8 word = false := by
  rw [right, keySignal]
  cases keyPressed 0x4f#8 word <;> decide

theorem command_fire : (keys word).command.fire = keyPressed 0x2c#8 word := by
  change decide (keySignal (keyPressed 0x2c#8 word) = 1#8) = _
  cases keyPressed 0x2c#8 word <;> rfl

/-- A cannon that stays parked is seen there. -/
theorem staysAt_of_parkedAt (hframes : ∀ k, Playing (frames k)) {p t : Nat}
    (hparked : ∀ n, t ≤ n → Cannon.Registers.ParkedAt p (frames (K + n)).cannon) :
    StaysAt p (K + t) frames := by
  intro k hk
  obtain ⟨n, rfl⟩ := Nat.exists_eq_add_of_le (Nat.le_trans (Nat.le_add_right K t) hk)
  rw [pixels_brightGreen, (hparked n (by omega)).1, (hframes _).cannon.row]
  rfl

theorem card_white_of_climbing {g : Game.Registers} {a : Arcade} (h : Represents g a)
    (hg : Playing g) {shot : Shot} (hshot : a.shot = some shot) (hlo : 1 ≤ shot.age)
    (hhi : shot.age ≤ 66) : 12 ≤ (pixels g .white).card := by
  obtain ⟨-, -, hflight⟩ := h.lit shot hshot
  obtain ⟨k, hk, hheight, hcard⟩ := (showsSprites hg).shot hflight.on
  have hsame := hflight.height
  rw [hcard (by omega) (by omega)]
  split <;> decide

theorem obeys_of_settled (hframes : ∀ k, Playing (frames k))
    (hsettled : ∀ k n, K ≤ k → frames (k + n) = (Game.frameStep (keys word))^[n] (frames k)) :
    Obeys word K frames where
  left hleft := by
    obtain ⟨t, p, ht, hp, hparked⟩ := (hframes K).cannon.exists_parkedLeft
    refine ⟨p, hp, staysAt_of_parkedAt hframes fun n hn => ?_⟩
    have hkey : (keys word).cannon.left ≠ 0#8 :=
      fun hzero => Bool.false_ne_true ((left_eq_zero_iff.mp hzero).symm.trans hleft)
    rw [hsettled K n (Nat.le_refl K),
      iterate_frameStep_cannon (Cannon.Registers.next_of_left hkey)]
    exact hparked n (by omega)
  right hleft hright := by
    obtain ⟨t, p, ht, hp, hparked⟩ := (hframes K).cannon.exists_parkedRight
    refine ⟨p, hp, staysAt_of_parkedAt hframes fun n hn => ?_⟩
    have hkey : (keys word).cannon.left = 0#8 ∧ (keys word).cannon.right ≠ 0#8 :=
      ⟨left_eq_zero_iff.mpr hleft,
        fun hzero => Bool.false_ne_true ((right_eq_zero_iff.mp hzero).symm.trans hright)⟩
    rw [hsettled K n (Nat.le_refl K),
      iterate_frameStep_cannon (Cannon.Registers.next_of_right hkey)]
    exact hparked n (by omega)
  still hleft hright := by
    have hkey : (keys word).cannon.left = 0#8 ∧ (keys word).cannon.right = 0#8 :=
      ⟨left_eq_zero_iff.mpr hleft, right_eq_zero_iff.mpr hright⟩
    obtain ⟨p, hparked⟩ := Cannon.Registers.exists_parkedAt hkey (frames K).cannon
    refine ⟨p, staysAt_of_parkedAt hframes fun n hn => ?_⟩
    rw [hsettled K n (Nat.le_refl K), iterate_frameStep_cannon fun _ => rfl]
    exact hparked n hn
  fire hspace k hk := by
    obtain ⟨a, ha⟩ := (hframes k).exists_represents
    obtain ⟨j, shot, hj, hshot, hlo, hhi⟩ := Arcade.exists_climbing (command_fire.trans hspace) a
    refine ⟨j, hj, card_white_of_climbing ?_ (hframes (k + j)) hshot hlo hhi⟩
    rw [hsettled k j hk]
    exact ha.iterate (keys word) j
  ceasefire hspace k hk := by
    obtain ⟨a, ha⟩ := (hframes K).exists_represents
    obtain ⟨n, rfl⟩ := Nat.exists_eq_add_of_le (Nat.le_trans (Nat.le_add_right K 68) hk)
    have hrep := ha.iterate (keys word) n
    rw [← hsettled K n (Nat.le_refl K)] at hrep
    exact (showsSprites (hframes (K + n))).dark
      (hrep.dark (Arcade.shot_none (command_fire.trans hspace) a (by omega)))

end Settled

/-- The pace of a host that is never stopped for good. -/
def Schedule.Unbounded (sched : Schedule) : Prop := ∀ n, ∃ c, n ≤ sched.made c

theorem Schedule.le_made (sched : Schedule) {c d : Nat} (h : c ≤ d) :
    sched.made c ≤ sched.made d := monotone_nat_of_le_succ sched.mono h

/-- The button is let go in an arbitrary state of the display, and up to step `N`
the chip has done anything. From then on it obliges the host, and the keyboard
reports `word`. Then the display becomes stable, and from some frame on it obeys
the word. -/
theorem reports_obeyed (s : State) (hreset : s.resetH = true) (values : Nat → BitVec 16)
    (sched : Schedule) (hpace : sched.Unbounded) (N : Nat) (word : BitVec 16)
    (hreports : Reports values N word) :
    ∃ a K, a ≤ 1638854 ∧ StableFrom s (published values sched) a ∧
      Obeys word K (sixtyHertz (fromCycle a (published values sched))
        (runFrom s (published values sched) a).game.regs) := by
  obtain ⟨a, hpos, ha, hstart⟩ := exists_frameStart s (published values sched)
  obtain ⟨M, hM⟩ := hreports.settles
  obtain ⟨K, hK⟩ := hpace M
  refine ⟨a, K, ha, stableFrom_of_frameStart hstart, obeys_of_settled ?_ ?_⟩
  · obtain ⟨n, rfl⟩ := Nat.exists_eq_add_of_le' hpos
    exact playing_sixtyHertz (playing_runFrom hreset _ n) _
  · intro k n hk
    refine stateAt_settled (fun j hj => ?_) _ n
    have hcycle : K ≤ a + (frameCycles * j + keyCycle) := by
      have hframe : j ≤ frameCycles * j := Nat.le_mul_of_pos_left j (by decide)
      omega
    exact congrArg keys (hM _ (Nat.le_trans hK (sched.le_made hcycle)))

/-- A chip that completes everything, with a keyboard that reports the left arrow. -/
def leftArrow : Usb.Response where
  mailbox := Usb.COMM_ACK
  status := Usb.HPI_STATUS_SIE1msg_FLAG
  memory := Function.update (Usb.cooperative Usb.A_DM_STAT 0#16).memory 0x051E#16 0x0050#16

theorem leftArrow_reports :
    Reports (returned Usb.memoryChip 0 fun _ => leftArrow) 0 0x0050#16 where
  obliges n _ hact := by
    rw [returned_of_action hact]
    exact Usb.Response.Helps.obliges ⟨rfl, rfl, rfl, rfl, rfl⟩ _ _
  report n _ hread := returned_of_action hread.2

theorem reports_obeyed_leftArrow :
    ∃ a K, a ≤ 1638854 ∧
      StableFrom { State.reset with resetH := true }
        (published (returned Usb.memoryChip 0 fun _ => leftArrow) slowly) a ∧
      Obeys 0x0050#16 K (sixtyHertz
        (fromCycle a (published (returned Usb.memoryChip 0 fun _ => leftArrow) slowly))
        (runFrom { State.reset with resetH := true }
          (published (returned Usb.memoryChip 0 fun _ => leftArrow) slowly) a).game.regs) :=
  reports_obeyed { State.reset with resetH := true } rfl
    (returned Usb.memoryChip 0 fun _ => leftArrow) slowly
    (fun n => ⟨50 * n, Nat.le_of_eq (Nat.mul_div_cancel_left n (by decide)).symm⟩) 0 0x0050#16
    leftArrow_reports

end FinalProject

end SpaceInvaders
