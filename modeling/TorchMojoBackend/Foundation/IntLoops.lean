/-
  `Foundation.IntLoops`: loops over intervals of integers, and flat indices.

  Everything in this file is independent of the modelled program.  A loop runs through an
  interval by steps, or passes the numbers below zero by steps.  A flat index over rows of
  one length is a row and a column, and a sum over flat indices is a sum over rows of sums
  over columns; the same of volumes and their points.
-/
import Mathlib.Algebra.BigOperators.Intervals
import Mathlib.Algebra.Order.Ring.Int
import Mathlib.Data.Int.Interval
import Mathlib.Tactic.Ring

set_option autoImplicit false

namespace TorchMojoBackend.Foundation

universe u

/-- The order of the integers, whose intervals are lists. -/
@[reducible] def intOrder : Preorder Int := Int.instLinearOrder.toPartialOrder.toPreorder

/-- The names of the three extents of a volume. -/
theorem neZero_three : NeZero 3 := ⟨by decide⟩

attribute [local instance] intOrder neZero_three

/-! ## Loops by steps -/

/-- The values of `x` in `while x < stop: ...; x += step`; `fuel` bounds their number. -/
def stepping (stop step : Int) : Nat → Int → List Int
  | 0, _ => []
  | fuel + 1, x => if x < stop then x :: stepping stop step fuel (x + step) else []

/-- The value of `x` after `while x < 0: x += step`; `fuel` bounds the number of steps. -/
def pastZero (step : Int) : Nat → Int → Int
  | 0, x => x
  | fuel + 1, x => if x < 0 then pastZero step fuel (x + step) else x

theorem mem_stepping {stop step : Int} (hstep : 0 < step) {fuel : Nat} {x y : Int}
    (hfuel : stop ≤ x + fuel) :
    y ∈ stepping stop step fuel x ↔ x ≤ y ∧ y < stop ∧ step ∣ y - x := by
  induction fuel generalizing x with
  | zero =>
      refine iff_of_false List.not_mem_nil ?_
      rintro ⟨hle, hlt, -⟩
      omega
  | succ fuel ih =>
      rw [stepping]
      by_cases hx : x < stop
      · rw [if_pos hx, List.mem_cons, ih (by push_cast at hfuel; omega)]
        constructor
        · rintro (rfl | ⟨hle, hlt, hdvd⟩)
          · exact ⟨Int.le_refl _, hx, by rw [Int.sub_self]; exact dvd_zero _⟩
          · refine ⟨by omega, hlt, ?_⟩
            have hsum : y - x = y - (x + step) + step := by ring
            rw [hsum]
            exact (Int.dvd_add_left (dvd_refl step)).mpr hdvd
        · rintro ⟨hle, hlt, hdvd⟩
          by_cases heq : y = x
          · exact .inl heq
          · -- the next value of the loop is a whole step away
            have hnext : step ≤ y - x := Int.le_of_dvd (by omega) hdvd
            refine .inr ⟨by omega, hlt, ?_⟩
            have hsub : y - (x + step) = y - x - step := by ring
            rw [hsub]
            exact Int.dvd_sub hdvd (dvd_refl step)
      · rw [if_neg hx]
        refine iff_of_false List.not_mem_nil ?_
        rintro ⟨hle, hlt, -⟩
        omega

/-- The loop rises. -/
theorem stepping_pairwise {stop step : Int} (hstep : 0 < step) {fuel : Nat} {x : Int} :
    (stepping stop step fuel x).Pairwise (· < ·) := by
  have hlow : ∀ fuel x, ∀ y ∈ stepping stop step fuel x, x ≤ y := by
    intro fuel
    induction fuel with
    | zero => exact fun x y hy => absurd hy List.not_mem_nil
    | succ fuel ih =>
        intro x y hy
        rw [stepping] at hy
        split at hy
        · obtain rfl | hy := List.mem_cons.mp hy
          · exact Int.le_refl _
          · have := ih _ y hy
            omega
        · exact absurd hy List.not_mem_nil
  induction fuel generalizing x with
  | zero => exact List.Pairwise.nil
  | succ fuel ih =>
      rw [stepping]
      split
      · refine List.pairwise_cons.mpr ⟨fun y hy => ?_, ih⟩
        have := hlow _ _ y hy
        omega
      · exact List.Pairwise.nil

theorem pastZero_of_nonneg {step : Int} {fuel : Nat} {x : Int} (hx : 0 ≤ x) :
    pastZero step fuel x = x := by
  cases fuel with
  | zero => rfl
  | succ fuel => rw [pastZero, if_neg (by omega)]

/-- The loop stops at the first number that is not below zero. -/
theorem pastZero_of_neg {step : Int} (hstep : 0 < step) {fuel : Nat} {x : Int} (hx : x < 0)
    (hfuel : -x ≤ fuel) : pastZero step fuel x = x % step := by
  induction fuel generalizing x with
  | zero => omega
  | succ fuel ih =>
      rw [pastZero, if_pos hx]
      by_cases hnext : x + step < 0
      · rw [ih hnext (by push_cast at hfuel; omega), Int.add_emod_right]
      · rw [pastZero_of_nonneg (by omega), ← Int.add_emod_right, Int.emod_eq_of_lt] <;> omega

/-! ## Flat indices -/

theorem flat_div {n p r : Int} (hr : 0 ≤ r) (hlt : r < n) : (p * n + r) / n = p := by
  rw [Int.add_comm, Int.add_mul_ediv_right _ _ (by omega), Int.ediv_eq_zero_of_lt hr hlt,
    Int.zero_add]

theorem flat_mod {n p r : Int} (hr : 0 ≤ r) (hlt : r < n) : (p * n + r) % n = r := by
  rw [Int.add_comm, Int.add_mul_emod_self_right, Int.emod_eq_of_lt hr hlt]

/-- The flat index of a row and a column. -/
theorem flat_mem {m n p r : Int} (hp : p ∈ Finset.Ico 0 m) (hr : r ∈ Finset.Ico 0 n) :
    p * n + r ∈ Finset.Ico 0 (m * n) := by
  obtain ⟨hp, hpm⟩ := Finset.mem_Ico.mp hp
  obtain ⟨hr, hrn⟩ := Finset.mem_Ico.mp hr
  have hrow : 0 ≤ p * n := Int.mul_nonneg hp (by omega)
  have hlast : (p + 1) * n ≤ m * n := Int.mul_le_mul_of_nonneg_right (by omega) (by omega)
  rw [Int.add_mul, Int.one_mul] at hlast
  exact Finset.mem_Ico.mpr ⟨by omega, by omega⟩

/-- The row and the column of a flat index. -/
theorem exists_flat {m n i : Int} (hn : 0 ≤ n) (hi : i ∈ Finset.Ico 0 (m * n)) :
    ∃ p ∈ Finset.Ico 0 m, ∃ r ∈ Finset.Ico 0 n, i = p * n + r := by
  obtain ⟨hi, hlt⟩ := Finset.mem_Ico.mp hi
  have hpos : 0 < n := by
    refine lt_of_le_of_ne hn fun hzero => ?_
    rw [← hzero, Int.mul_zero] at hlt
    omega
  refine ⟨i / n, Finset.mem_Ico.mpr ⟨Int.ediv_nonneg hi hn, Int.ediv_lt_of_lt_mul hpos hlt⟩,
    i % n, Finset.mem_Ico.mpr ⟨Int.emod_nonneg _ (by omega), Int.emod_lt_of_pos _ hpos⟩, ?_⟩
  exact (Int.ediv_mul_add_emod i n).symm

/-- A sum over flat indices. -/
theorem sum_flat {M : Type u} [AddCommMonoid M] {m n : Int} (hn : 0 ≤ n) (f : Int → M) :
    ∑ i ∈ Finset.Ico 0 (m * n), f i =
      ∑ p ∈ Finset.Ico 0 m, ∑ r ∈ Finset.Ico 0 n, f (p * n + r) := by
  rw [← Finset.sum_product']
  symm
  refine Finset.sum_nbij (fun x => x.1 * n + x.2) ?_ ?_ ?_ fun _ _ => rfl
  · intro x hx
    exact flat_mem (Finset.mem_product.mp hx).1 (Finset.mem_product.mp hx).2
  · rintro ⟨p, r⟩ hx ⟨p', r'⟩ hx' heq
    obtain ⟨hr, hlt⟩ := Finset.mem_Ico.mp (Finset.mem_product.mp (Finset.mem_coe.mp hx)).2
    obtain ⟨hr', hlt'⟩ := Finset.mem_Ico.mp (Finset.mem_product.mp (Finset.mem_coe.mp hx')).2
    dsimp only at hr hlt hr' hlt' heq
    have hrow := congrArg (· / n) heq
    have hcol := congrArg (· % n) heq
    simp only [flat_div hr hlt, flat_div hr' hlt'] at hrow
    simp only [flat_mod hr hlt, flat_mod hr' hlt'] at hcol
    rw [hrow, hcol]
  · intro i hi
    obtain ⟨p, hp, r, hr, rfl⟩ := exists_flat hn (Finset.mem_coe.mp hi)
    exact ⟨(p, r), Finset.mem_coe.mpr (Finset.mem_product.mpr ⟨hp, hr⟩), rfl⟩

/-! ## Volumes -/

/-- The flat index of a point of a volume of the extents `e`, behind `p` other volumes. -/
def volumeIndex (e : Fin 3 → Int) (p : Int) (x : Int × Int × Int) : Int :=
  p * (e 0 * e 1 * e 2) + (x.1 * e 1 + x.2.1) * e 2 + x.2.2

/-- The points of a volume. -/
def volume (e : Fin 3 → Int) : Finset (Int × Int × Int) :=
  Finset.Ico 0 (e 0) ×ˢ Finset.Ico 0 (e 1) ×ˢ Finset.Ico 0 (e 2)

/-- The volume and the point of a flat index. -/
def volumeSplit (e : Fin 3 → Int) (i : Int) : Int × Int × Int × Int :=
  (i / (e 2 * e 1 * e 0), i / (e 2 * e 1) % e 0, i / e 2 % e 1, i % e 2)

theorem mem_volume {e : Fin 3 → Int} {x : Int × Int × Int} : x ∈ volume e ↔
    (0 ≤ x.1 ∧ x.1 < e 0) ∧ (0 ≤ x.2.1 ∧ x.2.1 < e 1) ∧ 0 ≤ x.2.2 ∧ x.2.2 < e 2 := by
  unfold volume
  simp only [Finset.mem_product, Finset.mem_Ico]

theorem volumeIndex_eq (e : Fin 3 → Int) (p : Int) (x : Int × Int × Int) :
    volumeIndex e p x = ((p * e 0 + x.1) * e 1 + x.2.1) * e 2 + x.2.2 := by
  unfold volumeIndex
  ring

theorem volumeSplit_index {e : Fin 3 → Int} {p : Int} {x : Int × Int × Int} (hx : x ∈ volume e) :
    volumeSplit e (volumeIndex e p x) = (p, x) := by
  obtain ⟨⟨hd, hdlt⟩, ⟨hh, hhlt⟩, hw, hwlt⟩ := mem_volume.mp hx
  have hdiv : volumeIndex e p x / (e 2 * e 1) = p * e 0 + x.1 := by
    rw [volumeIndex_eq, ← Int.ediv_ediv_of_nonneg (by omega), flat_div hw hwlt, flat_div hh hhlt]
  have hnonneg : 0 ≤ e 2 * e 1 := Int.mul_nonneg (by omega) (by omega)
  unfold volumeSplit
  rw [← Int.ediv_ediv_of_nonneg hnonneg, hdiv, flat_div hd hdlt, flat_mod hd hdlt, volumeIndex_eq,
    flat_div hw hwlt, flat_mod hw hwlt, flat_mod hh hhlt]

theorem volumeIndex_inj {e : Fin 3 → Int} {p p' : Int} {x x' : Int × Int × Int}
    (hx : x ∈ volume e) (hx' : x' ∈ volume e) (h : volumeIndex e p x = volumeIndex e p' x') :
    p = p' ∧ x = x' := by
  have hsplit := congrArg (volumeSplit e) h
  rw [volumeSplit_index hx, volumeSplit_index hx'] at hsplit
  exact Prod.mk.inj hsplit

theorem volumeIndex_mem {e : Fin 3 → Int} {m p : Int} {x : Int × Int × Int}
    (hp : p ∈ Finset.Ico 0 m) (hx : x ∈ volume e) :
    volumeIndex e p x ∈ Finset.Ico 0 (m * (e 0 * e 1 * e 2)) := by
  obtain ⟨hd, hhw⟩ := Finset.mem_product.mp hx
  obtain ⟨hh, hw⟩ := Finset.mem_product.mp hhw
  have hmem := flat_mem (flat_mem (flat_mem hp hd) hh) hw
  rw [volumeIndex_eq]
  rwa [mul_assoc m, mul_assoc m] at hmem

theorem exists_volumeIndex {e : Fin 3 → Int} (he : ∀ k, 0 ≤ e k) {m i : Int}
    (hi : i ∈ Finset.Ico 0 (m * (e 0 * e 1 * e 2))) :
    ∃ p ∈ Finset.Ico 0 m, ∃ x ∈ volume e, i = volumeIndex e p x := by
  rw [← mul_assoc m, ← mul_assoc m] at hi
  obtain ⟨q, hq, w, hw, hi⟩ := exists_flat (he 2) hi
  obtain ⟨r, hr, h, hh, hq⟩ := exists_flat (he 1) hq
  obtain ⟨p, hp, d, hd, hr⟩ := exists_flat (he 0) hr
  refine ⟨p, hp, (d, h, w), ?_, ?_⟩
  · exact Finset.mem_product.mpr ⟨hd, Finset.mem_product.mpr ⟨hh, hw⟩⟩
  · rw [volumeIndex_eq, hi, hq, hr]

/-- A sum over volumes. -/
theorem sum_volumes {M : Type u} [AddCommMonoid M] {e : Fin 3 → Int} (he : ∀ k, 0 ≤ e k) (m : Int)
    (f : Int → M) : ∑ i ∈ Finset.Ico 0 (m * (e 0 * e 1 * e 2)), f i =
      ∑ p ∈ Finset.Ico 0 m, ∑ x ∈ volume e, f (volumeIndex e p x) := by
  rw [← mul_assoc m, ← mul_assoc m, sum_flat (he 2), sum_flat (he 1), sum_flat (he 0)]
  refine Finset.sum_congr rfl fun p _ => ?_
  unfold volume
  rw [Finset.sum_product]
  refine Finset.sum_congr rfl fun d _ => ?_
  rw [Finset.sum_product]
  refine Finset.sum_congr rfl fun h _ => Finset.sum_congr rfl fun w _ => ?_
  rw [volumeIndex_eq]

/-- The flat index of a point within its volume. -/
def cellIndex (e : Fin 3 → Int) (x : Int × Int × Int) : Int := (x.1 * e 1 + x.2.1) * e 2 + x.2.2

theorem volumeIndex_cell (e : Fin 3 → Int) (p : Int) (x : Int × Int × Int) :
    volumeIndex e p x = p * (e 0 * e 1 * e 2) + cellIndex e x := Int.add_assoc ..

theorem cellIndex_eq (e : Fin 3 → Int) (x : Int × Int × Int) :
    cellIndex e x = volumeIndex e 0 x := by
  rw [volumeIndex_cell, Int.zero_mul, Int.zero_add]

theorem cellIndex_mem {e : Fin 3 → Int} {x : Int × Int × Int} (hx : x ∈ volume e) :
    cellIndex e x ∈ Finset.Ico 0 (e 0 * e 1 * e 2) := by
  have hmem := volumeIndex_mem (m := 1) (Finset.mem_Ico.mpr ⟨Int.le_refl 0, Int.one_pos⟩) hx
  rwa [← cellIndex_eq, Int.one_mul] at hmem

theorem cellIndex_inj {e : Fin 3 → Int} {x x' : Int × Int × Int} (hx : x ∈ volume e)
    (hx' : x' ∈ volume e) (h : cellIndex e x = cellIndex e x') : x = x' := by
  rw [cellIndex_eq, cellIndex_eq] at h
  exact (volumeIndex_inj hx hx' h).2

theorem volumeIndex_div {e : Fin 3 → Int} {p : Int} {x : Int × Int × Int} (hx : x ∈ volume e) :
    volumeIndex e p x / (e 0 * e 1 * e 2) = p := by
  obtain ⟨hlow, hhigh⟩ := Finset.mem_Ico.mp (cellIndex_mem hx)
  rw [volumeIndex_cell, flat_div hlow hhigh]

theorem volumeIndex_mod {e : Fin 3 → Int} {p : Int} {x : Int × Int × Int} (hx : x ∈ volume e) :
    volumeIndex e p x % (e 0 * e 1 * e 2) = cellIndex e x := by
  obtain ⟨hlow, hhigh⟩ := Finset.mem_Ico.mp (cellIndex_mem hx)
  rw [volumeIndex_cell, flat_mod hlow hhigh]

/-- A sum over the natural numbers below a bound. -/
theorem sum_range_cast {M : Type u} [AddCommMonoid M] (n : Int) (f : Int → M) :
    ∑ i ∈ Finset.range n.toNat, f i = ∑ i ∈ Finset.Ico 0 n, f i := by
  refine Finset.sum_nbij' (fun i => (i : Int)) Int.toNat ?_ ?_ ?_ ?_ fun _ _ => rfl
  · intro i hi
    have := Finset.mem_range.mp hi
    exact Finset.mem_Ico.mpr ⟨by omega, by omega⟩
  · intro i hi
    have := Finset.mem_Ico.mp hi
    exact Finset.mem_range.mpr (by omega)
  · exact fun i _ => Int.toNat_natCast i
  · intro i hi
    exact Int.toNat_of_nonneg (Finset.mem_Ico.mp hi).1

/-- Three loops are a loop over the points of a box. -/
theorem sum_box {M : Type u} [AddCommMonoid M] (a b c : Finset Int) (f : Int → Int → Int → M) :
    ∑ d ∈ a, ∑ h ∈ b, ∑ w ∈ c, f d h w = ∑ x ∈ a ×ˢ b ×ˢ c, f x.1 x.2.1 x.2.2 := by
  rw [Finset.sum_product]
  refine Finset.sum_congr rfl fun d _ => ?_
  rw [Finset.sum_product]

end TorchMojoBackend.Foundation
