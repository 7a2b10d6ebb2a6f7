import SpaceInvaders.Display.Screen
import SpaceInvaders.Usb.Enumeration

/-!
# From the keyboard to the picture

The processor and the display share the keycode PIO only. `main` runs at its own
pace, and the display reads in every `Clk` cycle what it has published so far;
the reset button does not reach the processor. `Schedule` is that pace.

The picture is at rest when the cannon is where the reset leaves it and there is
no shot. It stays so in every frame until the host has published a word that
names a key of the game. Such a word has been read at `0x051E`, where the polls
have the reports put, after all steps of the enumeration. Nothing is said about
how it came there.
-/

namespace SpaceInvaders

open Machine

/-! ## The published words -/

namespace Usb.Enumeration

variable {values : Nat → BitVec 16} {n : Nat}

/-- The program is at the PIO store because it has just read the report. -/
theorem Publishes.read (h : Publishes values n) :
    ∃ m, n = m + 1 ∧ Makes values m .readKeycode (.read (.memory 0x051E#16)) ∧
      (run values n).host.locals.keycode = values m := by
  have hpc := pc_of_publishes h
  cases n with
  | zero => exact Pc.noConfusion hpc
  | succ m =>
      obtain ⟨act, hact, hstep⟩ := run_step values m
      have hlocated : (run values m).Located := Device.run_located m
      refine ⟨m, rfl, ?_⟩
      generalize run values (m + 1) = s' at hstep hpc ⊢
      cases hstep with
      | inner htodo more =>
          -- the store is a block of its own
          have hsingle : (run values m).host.todo = [.publish] := by
            refine hlocated.todo_of_single ?_
            rw [show (run values m).host.pc = .publish from hpc]
            rfl
          rw [hsingle] at htodo
          exact absurd (List.cons.inj htodo).2.symm more
      | last =>
          have hread : (run values m).host.pc = .readKeycode :=
            Pc.publish_of_succ _ (hpc ▸ next_mem_succs _ _)
          refine ⟨⟨hread, ?_⟩, ?_⟩
          · rw [hact, hread]
            rfl
          · rw [hread]
            rfl

/-- The PIO changes by the store to it. -/
theorem keycode_succ (values : Nat → BitVec 16) (n : Nat) :
    (run values (n + 1)).keycode =
      if Publishes values n then (run values n).host.locals.keycode
      else (run values n).keycode := by
  obtain ⟨act, hact, hstep⟩ := run_step values n
  have hpublishes : Publishes values n ↔ act = .publish := by
    rw [Publishes, hact, Option.some.injEq]
  simp only [hpublishes]
  generalize run values (n + 1) = s' at hstep ⊢
  cases hstep with
  | inner _ _ hinner =>
      rw [if_neg]
      intro hpublish
      rw [hpublish] at hinner
      exact Bool.noConfusion hinner
  | last => rfl

/-- The PIO holds 0 or the word published last. -/
theorem run_keycode (values : Nat → BitVec 16) (n : Nat) :
    (run values n).keycode = 0#16 ∨
      ∃ m, m < n ∧ Publishes values m ∧
        (run values n).keycode = (run values m).host.locals.keycode := by
  induction n with
  | zero => exact .inl rfl
  | succ n ih =>
      rw [keycode_succ]
      by_cases hpublish : Publishes values n
      · exact .inr ⟨n, Nat.lt_succ_self n, hpublish, if_pos hpublish⟩
      · rw [if_neg hpublish]
        exact ih.imp_right fun ⟨m, hm, h⟩ => ⟨m, Nat.lt_succ_of_lt hm, h⟩

/-- The word names space, left or right in one of its key slots. -/
def IsGameKey (word : BitVec 16) : Prop :=
  ∃ scanCode ∈ [0x2c#8, 0x50#8, 0x4f#8], FinalProject.keyPressed scanCode word = true

instance : DecidablePred IsGameKey := fun _ => inferInstanceAs (Decidable (∃ _ ∈ _, _))

/-- Step `n` publishes a key of the game: the word is the value of the read at `0x051E` in
the step before, after all steps of the enumeration. That a report was there is not part of it. -/
structure KeyPress (values : Nat → BitVec 16) (n : Nat) : Prop where
  publishes : Publishes values n
  read : ∃ m, n = m + 1 ∧ Makes values m .readKeycode (.read (.memory 0x051E#16)) ∧
    IsGameKey (values m)
  enumerated : ∃ h, AtHotPlug values h ∧ (∀ k, h < k → k ≤ n → ¬AtHotPlug values k) ∧
    InOrder (Happens values) required h n

theorem Publishes.enumerated (h : Publishes values n) :
    ∃ a, AtHotPlug values a ∧ (∀ k, a < k → k ≤ n → ¬AtHotPlug values k) ∧
      InOrder (Happens values) required a n := by
  obtain ⟨a, ha⟩ := run_attempt values n
  have hpassed := ha.passed
  rw [pc_of_publishes h] at hpassed
  exact ⟨a, ha.start, ha.current, hpassed⟩

/-- A key of the game in the PIO has been published by such a step. -/
theorem exists_keyPress (h : IsGameKey (run values n).keycode) :
    ∃ m, m < n ∧ KeyPress values m := by
  obtain hzero | ⟨m, hm, hpublish, hword⟩ := run_keycode values n
  · rw [hzero] at h
    exact absurd h (by decide)
  · obtain ⟨k, rfl, hread, hkeycode⟩ := hpublish.read
    rw [hword, hkeycode] at h
    exact ⟨k + 1, hm, hpublish, ⟨k, rfl, hread, h⟩, hpublish.enumerated⟩

end Usb.Enumeration

/-! ## The game at rest -/

namespace Game

/-- The cannon is where the reset leaves it and there is no shot. -/
structure Resting (g : Registers) : Prop where
  cannon : g.cannon = .reset
  laser : g.laser.laserOn = false

/-- No key signal is up. -/
def Keys.none : Keys := ⟨0#8, 0#8, 0#8⟩

namespace Resting

variable {g : Registers}

theorem reset : Resting .reset := ⟨rfl, rfl⟩

/-- A resting game looks like the game after the reset. -/
theorem picture_eq (h : Resting g) (x y : Nat) :
    FinalProject.picture g x y = FinalProject.picture .reset x y := by
  unfold FinalProject.picture
  rw [h.cannon, h.laser]
  rfl

/-- Without keys the game goes on resting, whichever of its modules ticks. -/
theorem step {s : State} (h : Resting s.regs) {i : Input} (hkeys : i.keys = .none) :
    Resting (s.step i).regs := by
  cases hreset : i.reset with
  | true =>
      rw [State.step, State.regs, hreset]
      exact .reset
  | false =>
      rw [State.step, State.regs, Cannon.State.step_regs _ _ hreset,
        Laser.State.step_regs _ _ hreset, hkeys]
      constructor
      · change s.cannon.regs.next s.cannon.edge.frameClkRisingEdge _ = .reset
        rw [show s.cannon.regs = .reset from h.cannon]
        cases s.cannon.edge.frameClkRisingEdge <;> rfl
      · have hfly : ¬s.laser.regs.InFlight := fun hfly =>
          Bool.false_ne_true (h.laser.symm.trans hfly.1)
        change (s.laser.regs.next s.laser.edge.frameClkRisingEdge 0#8 _).laserOn = false
        cases s.laser.edge.frameClkRisingEdge with
        | false => exact h.laser
        | true => rw [Laser.Registers.next_of_noSpace hfly (by decide)]

end Resting

end Game

namespace FinalProject

open Usb.Enumeration

/-- A word without a key of the game raises no key signal. -/
theorem keys_eq_none {word : BitVec 16} (h : ¬IsGameKey word) : keys word = .none := by
  have hnot : ∀ scanCode ∈ [0x2c#8, 0x50#8, 0x4f#8], keyPressed scanCode word = false :=
    fun scanCode hmem => Bool.eq_false_iff.mpr fun hpressed => h ⟨scanCode, hmem, hpressed⟩
  rw [keys, left, right, space, hnot 0x2c#8 (by decide), hnot 0x50#8 (by decide),
    hnot 0x4f#8 (by decide)]
  rfl

/-- How far `main` has come in each `Clk` cycle. -/
structure Schedule where
  /-- The number of host steps made before a cycle. -/
  made : Nat → Nat
  mono : ∀ c, made c ≤ made (c + 1)

/-- The keycode output of the Nios II system in each cycle. -/
def published (values : Nat → BitVec 16) (sched : Schedule) (c : Nat) : BitVec 16 :=
  (Usb.Enumeration.run values (sched.made c)).keycode

/-- After a press of the reset button the game rests until a key has been published. -/
theorem resting_runFrom {s : State} (hreset : s.resetH = true) (values : Nat → BitVec 16)
    (sched : Schedule) (c : Nat) (hnone : ∀ n, n < sched.made c → ¬KeyPress values n) :
    Game.Resting (runFrom s (published values sched) (c + 1)).game.regs := by
  induction c with
  | zero =>
      rw [runFrom_succ, State.step_game, runFrom, stateAt_zero, hreset]
      exact .reset
  | succ c ih =>
      have hquiet : ¬IsGameKey (published values sched (c + 1)) := by
        intro hkey
        obtain ⟨n, hn, hpress⟩ := exists_keyPress hkey
        exact hnone n hn hpress
      rw [runFrom_succ, State.step_game]
      exact (ih fun n hn => hnone n (Nat.lt_of_lt_of_le hn (sched.mono c))).step
        (keys_eq_none hquiet)

/-- The button is let go in an arbitrary state of the display, while `main` runs
at any pace and with any answers of the chip: within 1638854 cycles the display
is stable, and a frame shows anything but the picture of the reset only if before
that frame the host has published a key of the game, as the word it read at `0x051E`
after all steps of the enumeration. -/
theorem picture_needs_key (s : State) (hreset : s.resetH = true) (values : Nat → BitVec 16)
    (sched : Schedule) :
    ∃ a, a ≤ 1638854 ∧ StableFrom s (published values sched) a ∧
      ∀ k, (∃ x y, picture (sixtyHertz (fromCycle a (published values sched))
            (runFrom s (published values sched) a).game.regs k) x y ≠ picture .reset x y) →
        ∃ n, n < sched.made (a + frameCycles * k) ∧ KeyPress values n := by
  obtain ⟨a, hpos, ha, hstart⟩ := exists_frameStart s (published values sched)
  refine ⟨a, ha, stableFrom_of_frameStart hstart, ?_⟩
  rintro k ⟨x, y, hmoved⟩
  by_contra hnone
  simp only [not_exists, not_and] at hnone
  obtain ⟨c, hc⟩ : ∃ c, a + frameCycles * k = c + 1 := ⟨a + frameCycles * k - 1, by omega⟩
  have hrest := resting_runFrom hreset values sched c fun n hn =>
    hnone n (hc ▸ Nat.lt_of_lt_of_le hn (sched.mono c))
  rw [← hc, runFrom_add, (hstart.run _ k).2] at hrest
  exact hmoved (hrest.picture_eq x y)

/-- A host that makes a step in 50 cycles. -/
def slowly : Schedule := ⟨fun c => c / 50, fun _ => Nat.div_le_div_right (Nat.le_succ _)⟩

/-- What the calls return with a chip that completes everything. -/
def cooperatively : Nat → BitVec 16 :=
  returned Usb.Keycode.device 0#16 fun _ => Usb.Keycode.answers Usb.A_DM_STAT

theorem picture_needs_key_slowly :
    ∃ a, a ≤ 1638854 ∧
      StableFrom { State.reset with resetH := true } (published cooperatively slowly) a ∧
      ∀ k, (∃ x y, picture (sixtyHertz (fromCycle a (published cooperatively slowly))
            (runFrom { State.reset with resetH := true }
              (published cooperatively slowly) a).game.regs k) x y ≠ picture .reset x y) →
        ∃ n, n < slowly.made (a + frameCycles * k) ∧ KeyPress cooperatively n :=
  picture_needs_key { State.reset with resetH := true } rfl cooperatively slowly

end FinalProject

end SpaceInvaders
