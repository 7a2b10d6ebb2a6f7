import SpaceInvaders.Game.CannonTrack

/-!
# The mirrored cannon

Swapping the two keys in every frame mirrors the cannon at the middle of the
screen. The edge tests of the source are not mirror images of each other:
`X <= 4` becomes `X >= 636`, and the source tests `X + 4 >= 639`. They agree on
even positions, so the relation between the two runs rests on `OnTrack`, and it
needs that the two keys are never pressed together, because the left key wins.
-/

namespace SpaceInvaders.Cannon

open Machine

/-- The key pair with left and right exchanged. -/
def Keys.mirror (keys : Keys) : Keys := ⟨keys.right, keys.left⟩

@[simp] theorem Keys.mirror_left (keys : Keys) : keys.mirror.left = keys.right := rfl
@[simp] theorem Keys.mirror_right (keys : Keys) : keys.mirror.right = keys.left := rfl

/-- At most one of the two keys is pressed. -/
def Keys.Single (keys : Keys) : Prop := keys.left = 0#8 ∨ keys.right = 0#8

namespace Registers

/-- `s'` is `s` mirrored at the middle of the screen. -/
structure Mirrored (s s' : Registers) : Prop where
  position : s.cannonXPos.toNat + s'.cannonXPos.toNat = 640
  motion : s'.cannonXMotion = -s.cannonXMotion

variable {s s' : Registers}

/-- Opposite motions keep the sum of the positions. -/
theorem Mirrored.add_motion (h : s.OnTrack) (h' : s'.OnTrack) (hs : Mirrored s s') :
    (s.cannonXPos + s.cannonXMotion).toNat + (s'.cannonXPos + s'.cannonXMotion).toNat = 640 := by
  have hposition := hs.position
  have hmotion := hs.motion
  obtain ⟨hm, hx⟩ | ⟨hm, -, hx⟩ | ⟨hm, -, hx⟩ := h.add_motion <;>
    obtain ⟨hm', hx'⟩ | ⟨hm', -, hx'⟩ | ⟨hm', -, hx'⟩ := h'.add_motion <;>
    rw [hm, hm'] at hmotion
  -- equal motions can only be opposite at rest
  · omega
  · exact absurd hmotion (by decide)
  · exact absurd hmotion (by decide)
  · exact absurd hmotion (by decide)
  · exact absurd hmotion (by decide)
  · omega
  · exact absurd hmotion (by decide)
  · omega
  · exact absurd hmotion (by decide)

/-- The keys choose opposite motions: on even positions the edge tests are
mirror images. -/
theorem Mirrored.keyMotion (h : s.OnTrack) (h' : s'.OnTrack) (hs : Mirrored s s') {keys : Keys}
    (hkeys : keys.Single) :
    (s'.keyMotion keys.mirror).cannonXMotion = -(s.keyMotion keys).cannonXMotion := by
  have hposition := hs.position
  have heven := h.even
  have hbounds := h.bounds
  have hbounds' := h'.bounds
  rw [keyMotion_cannonXMotion (by omega), keyMotion_cannonXMotion (by omega), Keys.mirror_left,
    Keys.mirror_right]
  have hleft : s.cannonXPos.toNat ≤ 4 ↔ 635 ≤ s'.cannonXPos.toNat := by omega
  have hright : 635 ≤ s.cannonXPos.toNat ↔ s'.cannonXPos.toNat ≤ 4 := by omega
  simp only [hleft, hright]
  obtain hkeys | hkeys := hkeys
  · simp only [hkeys, ne_eq, not_true_eq_false, if_false]
    split
    · split <;> rfl
    · rfl
  · simp only [hkeys, ne_eq, not_true_eq_false, if_false]
    split
    · split <;> rfl
    · rfl

theorem Mirrored.reset : Mirrored Registers.reset Registers.reset where
  position := rfl
  motion := rfl

/-- One frame tick with exchanged keys keeps the relation. -/
theorem Mirrored.next (h : s.OnTrack) (h' : s'.OnTrack) (hs : Mirrored s s') {keys : Keys}
    (hkeys : keys.Single) : Mirrored (s.next true keys) (s'.next true keys.mirror) where
  position := hs.add_motion h h'
  motion := hs.keyMotion h h' hkeys

end Registers

/-- Two runs from reset on mirrored keys stay mirror images, if no tick finds
both keys pressed. -/
theorem run_mirrored (e : EdgeDetector) (frameClk : Nat → Bool) (keys : Nat → Keys)
    (single : ∀ n, tick e frameClk keys n = true → (keys n).Single) (n : Nat) :
    Registers.Mirrored (run e frameClk keys n).regs
      (run e frameClk (fun k => (keys k).mirror) n).regs := by
  induction n with
  | zero => exact .reset
  | succ n ih =>
      rw [regs_succ, regs_succ, tick_congr (fun k => (keys k).mirror) keys]
      by_cases htick : tick e frameClk keys n = true
      · rw [if_pos htick, if_pos htick]
        exact ih.next (onTrack_run n) (onTrack_run n) (single n htick)
      · rw [if_neg htick, if_neg htick]
        exact ih

/-- The left key held, and the right key held. -/
theorem run_mirrored_leftHeld :
    Registers.Mirrored (run .low (fun n => n % 2 == 1) (fun _ => ⟨1#8, 0#8⟩) 9).regs
      (run .low (fun n => n % 2 == 1) (fun _ => ⟨0#8, 1#8⟩) 9).regs :=
  run_mirrored .low (fun n => n % 2 == 1) (fun _ => ⟨1#8, 0#8⟩) (fun _ _ => .inr rfl) 9

end SpaceInvaders.Cannon
