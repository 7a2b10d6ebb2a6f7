import Mathlib.Algebra.Order.Ring.Abs
import Mathlib.Algebra.Order.Ring.Int
import Mathlib.Data.Finset.Prod

/-!
# Discs on a pixel grid

The pixels of a disc are counted by their offsets from its centre.
`discOffsets r` does not depend on where the disc is; a grid of `w` columns and
`h` rows shows those offsets that stay on the grid, and all of them if the disc
keeps its radius away from the borders.
-/

namespace Machine

/-- The offset of a pixel of the square from its centre `(r, r)`. -/
def squareOffset (r : Nat) : Nat × Nat ↪ Int × Int where
  toFun p := ((p.1 : Int) - r, (p.2 : Int) - r)
  inj' p q h := by
    simp only [Prod.mk.injEq] at h
    ext <;> omega

/-- The offsets of the pixels of a disc from its centre. -/
def discOffsets (r : Nat) : Finset (Int × Int) :=
  ((Finset.range (2 * r + 1) ×ˢ Finset.range (2 * r + 1)).map (squareOffset r)).filter
    fun d => d.1 ^ 2 + d.2 ^ 2 ≤ (r : Int) ^ 2

/-- The offset `d` from `(xc, yc)` lies on the grid. -/
def OnGrid (w h xc yc : Nat) (d : Int × Int) : Prop :=
  (0 ≤ xc + d.1 ∧ xc + d.1 < w) ∧ 0 ≤ yc + d.2 ∧ yc + d.2 < h

instance (w h xc yc : Nat) : DecidablePred (OnGrid w h xc yc) :=
  fun _ => inferInstanceAs (Decidable (_ ∧ _))

/-- The pixels of the grid on the disc with centre `(xc, yc)`. -/
def discPixels (w h xc yc r : Nat) : Finset (Nat × Nat) :=
  (Finset.range w ×ˢ Finset.range h).filter
    fun p => ((p.1 : Int) - xc) ^ 2 + ((p.2 : Int) - yc) ^ 2 ≤ (r : Int) ^ 2

variable {w h xc yc r : Nat}

/-- A disc stays in the square around its centre. -/
theorem square_of_disc {d : Int × Int} (hd : d.1 ^ 2 + d.2 ^ 2 ≤ (r : Int) ^ 2) :
    (-(r : Int) ≤ d.1 ∧ d.1 ≤ r) ∧ -(r : Int) ≤ d.2 ∧ d.2 ≤ r := by
  have hr : (0 : Int) ≤ r := Int.natCast_nonneg r
  have hx : d.1 ^ 2 ≤ (r : Int) ^ 2 := le_trans (le_add_of_nonneg_right (sq_nonneg _)) hd
  have hy : d.2 ^ 2 ≤ (r : Int) ^ 2 := le_trans (le_add_of_nonneg_left (sq_nonneg _)) hd
  exact ⟨abs_le_of_sq_le_sq' hx hr, abs_le_of_sq_le_sq' hy hr⟩

theorem mem_discOffsets {d : Int × Int} :
    d ∈ discOffsets r ↔ d.1 ^ 2 + d.2 ^ 2 ≤ (r : Int) ^ 2 := by
  simp only [discOffsets, Finset.mem_filter, and_iff_right_iff_imp]
  intro hd
  obtain ⟨⟨hleft, hright⟩, htop, hbottom⟩ := square_of_disc hd
  refine Finset.mem_map.mpr ⟨((d.1 + r).toNat, (d.2 + r).toNat), ?_, ?_⟩
  · simp only [Finset.mem_product, Finset.mem_range]
    omega
  · apply Prod.ext
    · exact (show ((d.1 + r).toNat : Int) - r = d.1 by omega)
    · exact (show ((d.2 + r).toNat : Int) - r = d.2 by omega)

theorem mem_discPixels {p : Nat × Nat} :
    p ∈ discPixels w h xc yc r ↔ (p.1 < w ∧ p.2 < h) ∧
      ((p.1 : Int) - xc) ^ 2 + ((p.2 : Int) - yc) ^ 2 ≤ (r : Int) ^ 2 := by
  simp only [discPixels, Finset.mem_filter, Finset.mem_product, Finset.mem_range]

/-- The grid shows the offsets that stay on it. -/
theorem card_discPixels (w h xc yc r : Nat) :
    (discPixels w h xc yc r).card = ((discOffsets r).filter (OnGrid w h xc yc)).card := by
  refine Finset.card_nbij' (fun p => ((p.1 : Int) - xc, (p.2 : Int) - yc))
    (fun d => ((xc + d.1).toNat, (yc + d.2).toNat)) ?_ ?_ ?_ ?_
  · intro p hp
    obtain ⟨⟨hx, hy⟩, hdisc⟩ := mem_discPixels.mp hp
    refine Finset.mem_filter.mpr ⟨mem_discOffsets.mpr hdisc, ?_⟩
    simp only [OnGrid]
    omega
  · intro d hd
    obtain ⟨hdisc, hgrid⟩ := Finset.mem_filter.mp hd
    obtain ⟨⟨hx, hx'⟩, hy, hy'⟩ := hgrid
    refine mem_discPixels.mpr ⟨by dsimp only; omega, ?_⟩
    rw [Int.toNat_of_nonneg hx, Int.toNat_of_nonneg hy, add_sub_cancel_left, add_sub_cancel_left]
    exact mem_discOffsets.mp hdisc
  · intro p _
    ext <;> simp
  · intro d hd
    obtain ⟨-, ⟨hx, -⟩, hy, -⟩ := Finset.mem_filter.mp hd
    ext <;> dsimp only <;> omega

/-- Only the borders that the disc can reach matter. -/
theorem card_discPixels_of {q : Int × Int → Prop} [DecidablePred q]
    (hq : ∀ d : Int × Int, -(r : Int) ≤ d.1 → d.1 ≤ r → -(r : Int) ≤ d.2 → d.2 ≤ r →
      (OnGrid w h xc yc d ↔ q d)) :
    (discPixels w h xc yc r).card = ((discOffsets r).filter q).card := by
  rw [card_discPixels]
  congr 1
  refine Finset.filter_congr ?_
  intro d hd
  obtain ⟨⟨hleft, hright⟩, htop, hbottom⟩ := square_of_disc (mem_discOffsets.mp hd)
  exact hq d hleft hright htop hbottom

end Machine
