/-
  `Kernels.Linalg.Cholesky`: what `potrf` says about a symmetric matrix.

  Source: tmb/kernels/linalg/entry.mojo (`_potrf_kernel`).

  After `j` columns the triangle holds the first columns of the factor and, behind them, the Schur
  complement (`Factored`).
-/
import Mathlib.Algebra.Order.Field.Basic
import Mathlib.Analysis.Matrix.PosDef
import Mathlib.Algebra.Order.Star.Real
import TorchMojoBackend.Foundation.MatrixBlocks
import TorchMojoBackend.Kernels.Linalg.Potrf

set_option autoImplicit false

namespace TorchMojoBackend.Kernels.Linalg

open TorchMojoBackend.Foundation
open Matrix

/-- The symmetric matrix with a given lower triangle. -/
def symmetric {K : Type} (M : Nat → Nat → K) (i k : Nat) : K := if k ≤ i then M i k else M k i

/-- The factorization depends on the lower triangle only. -/
theorem potrf_congr {K : Type} [One K] [Sub K] [Mul K] [Div K] [Zero K] [LT K] [DecidableLT K]
    (sqrt : K → K) {n : Nat} {l : List Nat} (hl : ∀ j ∈ l, j < n) {M M' : Nat → Nat → K}
    (h : ∀ i k, k ≤ i → i < n → M i k = M' i k) :
    (potrf sqrt l M).1 = (potrf sqrt l M').1 ∧
      ∀ i k, k ≤ i → i < n → (potrf sqrt l M).2 i k = (potrf sqrt l M').2 i k := by
  induction l generalizing M M' with
  | nil => exact ⟨rfl, h⟩
  | cons j l ih =>
      have hj : j < n := hl j List.mem_cons_self
      have hpivot : M j j = M' j j := h j j (Nat.le_refl j) hj
      unfold potrf
      rw [hpivot]
      by_cases hd : 0 < M' j j
      · rw [if_neg (not_not.mpr hd), if_neg (not_not.mpr hd)]
        refine ih (fun k hk => hl k (List.mem_cons_of_mem _ hk)) fun i k hki hi => ?_
        have hik := h i k hki hi
        unfold potrfStep
        dsimp only
        rw [hpivot]
        by_cases hkj : k = j
        · subst hkj
          rw [if_pos rfl, if_pos rfl, hik]
        · rw [if_neg hkj, if_neg hkj]
          by_cases hjk : j < k ∧ k ≤ i
          · rw [if_pos hjk, if_pos hjk, hik, h i j (by omega) hi, h k j (by omega) (by omega)]
          · rw [if_neg hjk, if_neg hjk, hik]
      · rw [if_pos hd, if_pos hd]
        exact ⟨rfl, h⟩

section

variable {K : Type} [Field K] [LinearOrder K] [IsStrictOrderedRing K] {sqrt : K → K} {n : Nat}

/-- The state of the factorization of `S` after `j` columns. -/
structure Factored (S W : Nat → Nat → K) (n j : Nat) : Prop where
  pivots : ∀ k < j, 0 < W k k
  done : ∀ i k, k ≤ i → i < n → k < j → ∑ l ∈ Finset.range k, W i l * W k l + W i k * W k k = S i k
  rest : ∀ i k, k ≤ i → i < n → j ≤ k → W i k = S i k - ∑ l ∈ Finset.range j, W i l * W k l

omit [IsStrictOrderedRing K] in
theorem Factored.zero (S : Nat → Nat → K) (n : Nat) : Factored S S n 0 := by
  refine ⟨fun k hk => absurd hk (Nat.not_lt_zero k), fun i k _ _ hk => absurd hk (Nat.not_lt_zero k),
    fun i k _ _ _ => ?_⟩
  rw [Finset.range_zero, Finset.sum_empty, sub_zero]

omit [IsStrictOrderedRing K] in
/-- A column. -/
theorem Factored.step (hsqrt : ∀ d, 0 < d → 0 < sqrt d ∧ sqrt d * sqrt d = d) {S W : Nat → Nat → K} {j : Nat}
    (h : Factored S W n j) (hd : 0 < W j j) : Factored S (potrfStep sqrt W j) n (j + 1) := by
  obtain ⟨hs, hsq⟩ := hsqrt _ hd
  have hs0 : sqrt (W j j) ≠ 0 := ne_of_gt hs
  -- the elements of the new matrix
  have hold : ∀ {i k}, k < j → potrfStep sqrt W j i k = W i k := fun {i k} hk => by
    have hne : k ≠ j := Nat.ne_of_lt hk
    have hlt : ¬ (j < k ∧ k ≤ i) := fun h => absurd h.1 (Nat.not_lt_of_gt hk)
    rw [potrfStep]
    simp only [hne, hlt, if_false]
  have hpivot : potrfStep sqrt W j j j = sqrt (W j j) := by
    rw [potrfStep]
    simp only [if_true]
  have hcolumn : ∀ {i}, j < i → potrfStep sqrt W j i j = W i j / sqrt (W j j) := fun {i} hi => by
    rw [potrfStep]
    simp only [if_true, Nat.ne_of_gt hi, hi, if_false, mul_one_div]
  have hbehind : ∀ {i k}, j < k → k ≤ i → potrfStep sqrt W j i k =
      W i k - W i j / sqrt (W j j) * (W k j / sqrt (W j j)) := fun {i k} hk hki => by
    rw [potrfStep]
    simp only [Nat.ne_of_gt hk, hk, hki, if_false, and_self, if_true, mul_one_div]
  have hsums : ∀ {i k q}, q ≤ j → ∑ l ∈ Finset.range q, potrfStep sqrt W j i l * potrfStep sqrt W j k l =
      ∑ l ∈ Finset.range q, W i l * W k l := fun {i k q} hq => by
    refine Finset.sum_congr rfl fun l hl => ?_
    have hlj : l < j := Nat.lt_of_lt_of_le (Finset.mem_range.mp hl) hq
    rw [hold hlj, hold hlj]
  refine ⟨fun k hk => ?_, fun i k hki hi hk => ?_, fun i k hki hi hk => ?_⟩
  · obtain hk | rfl := Nat.lt_or_eq_of_le (Nat.le_of_lt_succ hk)
    · rw [hold hk]
      exact h.pivots k hk
    · rw [hpivot]
      exact hs
  · obtain hk | rfl := Nat.lt_or_eq_of_le (Nat.le_of_lt_succ hk)
    · rw [hsums (Nat.le_of_lt hk), hold hk, hold hk]
      exact h.done i k hki hi hk
    · rw [hsums (Nat.le_refl k), hpivot]
      have hrest := h.rest i k hki hi (Nat.le_refl k)
      obtain hik | rfl := Nat.lt_or_eq_of_le hki
      · rw [hcolumn hik, div_mul_cancel₀ _ hs0, hrest, add_sub_cancel]
      · rw [hpivot, hsq, hrest, add_sub_cancel]
  · have hjk : j < k := hk
    rw [Finset.sum_range_succ, hsums (Nat.le_refl j), hbehind hjk hki, hcolumn hjk,
      hcolumn (Nat.lt_of_lt_of_le hjk hki), h.rest i k hki hi (Nat.le_of_lt hjk), sub_sub]

omit [IsStrictOrderedRing K] in
/-- The columns from `j` on: all of them, or those before a pivot that is not positive. -/
theorem potrf_factored (hsqrt : ∀ d, 0 < d → 0 < sqrt d ∧ sqrt d * sqrt d = d) {S : Nat → Nat → K}
    {j len : Nat} (hlen : j + len = n) {W : Nat → Nat → K} (h : Factored S W n j) :
    (potrf sqrt (List.range' j len) W).1 = 0 ∧
        Factored S (potrf sqrt (List.range' j len) W).2 n n ∨
      ∃ p < n, (potrf sqrt (List.range' j len) W).1 = p + 1 ∧
        Factored S (potrf sqrt (List.range' j len) W).2 n p ∧
        (potrf sqrt (List.range' j len) W).2 p p ≤ 0 := by
  induction len generalizing j W with
  | zero =>
      obtain rfl : j = n := hlen
      exact .inl ⟨rfl, h⟩
  | succ len ih =>
      rw [List.range'_succ]
      unfold potrf
      by_cases hd : 0 < W j j
      · rw [if_neg (not_not.mpr hd)]
        exact ih (by omega) (h.step hsqrt hd)
      · rw [if_pos hd]
        exact .inr ⟨j, by omega, rfl, h, not_lt.mp hd⟩

/-! ## Leading blocks -/

omit [LinearOrder K] [IsStrictOrderedRing K] in
theorem sum_lowerPart (W V : Nat → Nat → K) {i k q : Nat} (hki : k ≤ i) (hk : k < q)
    (hV : ∀ l, k < l → V k l = 0) : ∑ l ∈ Finset.range q, lowerPart W i l * V k l =
      ∑ l ∈ Finset.range k, W i l * V k l + W i k * V k k := by
  have hsub : Finset.range (k + 1) ⊆ Finset.range q := Finset.range_subset_range.mpr hk
  rw [← Finset.sum_subset hsub fun l _ hl => ?_, Finset.sum_range_succ]
  · congr 1
    · refine Finset.sum_congr rfl fun l hl => ?_
      have hlk := Finset.mem_range.mp hl
      rw [lowerPart, if_pos (Nat.le_of_lt (Nat.lt_of_lt_of_le hlk hki))]
    · rw [lowerPart, if_pos hki]
  · rw [hV l (by rw [Finset.mem_range] at hl; omega), mul_zero]

omit [IsStrictOrderedRing K] in
/-- The finished columns are the factor of the leading block. -/
theorem Factored.leading {S W : Nat → Nat → K} {j q : Nat} (h : Factored S W n j) (hq : q ≤ j) (hj : j ≤ n) :
    toMatrix q q (lowerPart W) * (toMatrix q q (lowerPart W))ᵀ = toMatrix q q (symmetric S) := by
  rw [toMatrix_transpose, toMatrix_mul]
  have hlow : ∀ i k, k ≤ i → i < q →
      ∑ l ∈ Finset.range q, lowerPart W i l * lowerPart W k l = S i k := fun i k hki hi => by
    have hk : k < q := Nat.lt_of_le_of_lt hki hi
    rw [sum_lowerPart W (lowerPart W) hki hk fun l hl => if_neg (Nat.not_le_of_lt hl),
      ← h.done i k hki (by omega) (by omega)]
    congr 1
    · refine Finset.sum_congr rfl fun l hl => ?_
      rw [lowerPart, if_pos (Nat.le_of_lt (Finset.mem_range.mp hl))]
    · rw [lowerPart, if_pos (Nat.le_refl k)]
  refine toMatrix_congr fun i k hi hk => ?_
  unfold symmetric
  by_cases hki : k ≤ i
  · rw [if_pos hki]
    exact hlow i k hki hi
  · rw [if_neg hki, ← hlow k i (by omega) hk]
    exact Finset.sum_congr rfl fun l _ => mul_comm _ _

theorem Factored.det_leading {S W : Nat → Nat → K} {j q : Nat} (h : Factored S W n j) (hq : q ≤ j)
    (hj : j ≤ n) : 0 < (toMatrix q q (symmetric S)).det := by
  rw [← h.leading hq hj, det_mul, det_transpose, det_lowerPart]
  have hprod : 0 < ∏ k ∈ Finset.range q, W k k :=
    Finset.prod_pos fun k hk => h.pivots k (Nat.lt_of_lt_of_le (Finset.mem_range.mp hk) hq)
  exact mul_pos hprod hprod

/-- The leading block that ends with the next column. -/
theorem Factored.det_next {S W : Nat → Nat → K} {p : Nat} (h : Factored S W n p) (hp : p < n)
    (hd : W p p ≤ 0) : (toMatrix (p + 1) (p + 1) (symmetric S)).det ≤ 0 := by
  -- the other factor, with a one for the pivot
  let V : Nat → Nat → K := fun i k => if k = p then if i = p then 1 else 0 else lowerPart W i k
  have hVabove : ∀ k l, k < l → V k l = 0 := fun k l hkl => by
    by_cases hl : l = p
    · have hk : k ≠ p := by omega
      simp only [V, hl, hk, if_true, if_false]
    · simp only [V, hl, if_false]
      exact if_neg (Nat.not_le_of_lt hkl)
  have hVbelow : ∀ {k l}, l < p → l ≤ k → V k l = W k l := fun {k l} hl hlk => by
    have hne : l ≠ p := Nat.ne_of_lt hl
    simp only [V, hne, if_false]
    exact if_pos hlk
  have hVpivot : V p p = 1 := by simp only [V, if_true]
  have hsum : ∀ i k, k ≤ i → i ≤ p →
      ∑ l ∈ Finset.range (p + 1), lowerPart W i l * V k l = S i k ∧
      ∑ l ∈ Finset.range (p + 1), lowerPart W k l * V i l = S i k := by
    intro i k hki hi
    have hrow : ∑ l ∈ Finset.range k, W i l * V k l = ∑ l ∈ Finset.range k, W i l * W k l := by
      refine Finset.sum_congr rfl fun l hl => ?_
      have hlk := Finset.mem_range.mp hl
      rw [hVbelow (by omega) (Nat.le_of_lt hlk)]
    have hfirst : ∑ l ∈ Finset.range (p + 1), lowerPart W i l * V k l = S i k := by
      rw [sum_lowerPart W V hki (by omega) (hVabove k), hrow]
      obtain hk | rfl := Nat.lt_or_eq_of_le (Nat.le_trans hki hi)
      · rw [hVbelow hk (Nat.le_refl k)]
        exact h.done i k hki (by omega) hk
      · obtain rfl : i = k := by omega
        rw [hVpivot, mul_one, h.rest i i (Nat.le_refl i) (by omega) (Nat.le_refl i), add_sub_cancel]
    refine ⟨hfirst, ?_⟩
    obtain hk | rfl := Nat.lt_or_eq_of_le (Nat.le_trans hki hi)
    · have hsub : Finset.range (k + 1) ⊆ Finset.range (p + 1) := Finset.range_subset_range.mpr (by omega)
      rw [← Finset.sum_subset hsub fun l _ hl => ?_, Finset.sum_range_succ, ← h.done i k hki (by omega) hk]
      · congr 1
        · refine Finset.sum_congr rfl fun l hl => ?_
          have hlk := Finset.mem_range.mp hl
          rw [hVbelow (by omega) (by omega), lowerPart, if_pos (Nat.le_of_lt hlk), mul_comm]
        · rw [hVbelow hk hki, lowerPart, if_pos (Nat.le_refl k), mul_comm]
      · rw [lowerPart, if_neg (by rw [Finset.mem_range] at hl; omega), zero_mul]
    · obtain rfl : i = k := by omega
      exact hfirst
  have hfactor : toMatrix (p + 1) (p + 1) (lowerPart W) * (toMatrix (p + 1) (p + 1) V)ᵀ =
      toMatrix (p + 1) (p + 1) (symmetric S) := by
    rw [toMatrix_transpose, toMatrix_mul]
    refine toMatrix_congr fun i k hi hk => ?_
    unfold symmetric
    by_cases hki : k ≤ i
    · rw [if_pos hki]
      exact (hsum i k hki (by omega)).1
    · rw [if_neg hki]
      exact (hsum k i (by omega) (by omega)).2
  have hV : ∏ k ∈ Finset.range p, V k k = ∏ k ∈ Finset.range p, W k k :=
    Finset.prod_congr rfl fun k hk => hVbelow (Finset.mem_range.mp hk) (Nat.le_refl k)
  have hprod : 0 < ∏ k ∈ Finset.range p, W k k :=
    Finset.prod_pos fun k hk => h.pivots k (Finset.mem_range.mp hk)
  rw [← hfactor, det_mul, det_transpose, det_lowerPart, det_lower hVabove, Finset.prod_range_succ,
    Finset.prod_range_succ, hV, hVpivot, mul_one, mul_right_comm]
  exact mul_nonpos_of_nonneg_of_nonpos (le_of_lt (mul_pos hprod hprod)) hd

end

/-! ## Positive definite matrices -/

section

variable {S : Nat → Nat → ℝ} {n : Nat}

/-- The first leading minor that is not positive. -/
def FirstMinor (S : Nat → Nat → ℝ) (n q : Nat) : Prop :=
  1 ≤ q ∧ q ≤ n ∧ (toMatrix q q S).det ≤ 0 ∧ ∀ q' < q, 0 < (toMatrix q' q' S).det

/-- What a run of the columns says about the matrix. -/
theorem potrf_posDef (M : Nat → Nat → ℝ) (n : Nat) :
    ((potrf Real.sqrt (List.range n) M).1 = 0 ↔ (toMatrix n n (symmetric M)).PosDef) ∧
    ((potrf Real.sqrt (List.range n) M).1 = 0 → (∀ k < n, 0 < (potrf Real.sqrt (List.range n) M).2 k k) ∧
      toMatrix n n (lowerPart (potrf Real.sqrt (List.range n) M).2) *
        (toMatrix n n (lowerPart (potrf Real.sqrt (List.range n) M).2))ᵀ = toMatrix n n (symmetric M)) ∧
    ((potrf Real.sqrt (List.range n) M).1 ≠ 0 →
      FirstMinor (symmetric M) n (potrf Real.sqrt (List.range n) M).1 ∧
      ∀ q, q + 1 = (potrf Real.sqrt (List.range n) M).1 →
        (∀ k < q, 0 < (potrf Real.sqrt (List.range n) M).2 k k) ∧
        toMatrix q q (lowerPart (potrf Real.sqrt (List.range n) M).2) *
          (toMatrix q q (lowerPart (potrf Real.sqrt (List.range n) M).2))ᵀ =
            toMatrix q q (symmetric M)) := by
  have hsqrt : ∀ d : ℝ, 0 < d → 0 < Real.sqrt d ∧ Real.sqrt d * Real.sqrt d = d := fun d hd =>
    ⟨Real.sqrt_pos.mpr hd, Real.mul_self_sqrt (le_of_lt hd)⟩
  have hrun := potrf_factored hsqrt (Nat.zero_add n) (Factored.zero M n)
  rw [← List.range_eq_range'] at hrun
  generalize potrf Real.sqrt (List.range n) M = r at hrun ⊢
  obtain ⟨hstatus, h⟩ | ⟨p, hp, hstatus, h, hd⟩ := hrun
  · have hfactor := h.leading (Nat.le_refl n) (Nat.le_refl n)
    have hdet := h.det_leading (Nat.le_refl n) (Nat.le_refl n)
    have hposDef : (toMatrix n n (symmetric M)).PosDef := by
      rw [← hfactor]
      refine Matrix.PosDef.mul_conjTranspose_self _ (Matrix.vecMul_injective_of_isUnit ?_)
      rw [Matrix.isUnit_iff_isUnit_det, det_lowerPart, isUnit_iff_ne_zero]
      exact Finset.prod_ne_zero_iff.mpr fun k hk => ne_of_gt (h.pivots k (Finset.mem_range.mp hk))
    exact ⟨iff_of_true hstatus hposDef, fun _ => ⟨h.pivots, hfactor⟩, fun hne => absurd hstatus hne⟩
  · have hnext := h.det_next hp hd
    have hnot : ¬ (toMatrix n n (symmetric M)).PosDef := fun hposDef => by
      have hsub := (hposDef.submatrix (Fin.castLE_injective hp)).det_pos
      rw [toMatrix_submatrix] at hsub
      exact absurd hnext (not_le.mpr hsub)
    refine ⟨iff_of_false (by omega) hnot, fun hzero => by omega, fun _ => ⟨?_, fun q hq => ?_⟩⟩
    · rw [hstatus]
      exact ⟨by omega, hp, hnext, fun q hq => h.det_leading (by omega) (by omega)⟩
    · obtain rfl : q = p := by omega
      exact ⟨h.pivots, h.leading (Nat.le_refl q) (Nat.le_of_lt hp)⟩

end

end TorchMojoBackend.Kernels.Linalg
