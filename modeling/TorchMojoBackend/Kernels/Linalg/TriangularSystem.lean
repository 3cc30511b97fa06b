/-
  `Kernels.Linalg.TriangularSystem`: `trsm` solves a triangular system.

  Source: tmb/kernels/linalg/entry.mojo (`_trsm_kernel`), tmb/ops/linalg.mojo (`_k_trsm`).
-/
import TorchMojoBackend.Foundation.MatrixBlocks
import TorchMojoBackend.Kernels.Linalg.Trsm

set_option autoImplicit false

namespace TorchMojoBackend.Kernels.Linalg

open TorchMojoBackend.Foundation
open Matrix

variable {K : Type} [Field K]

/-- A triangle of a matrix, with ones on the diagonal where it is a unit triangle. -/
def triangle (upper unit : Bool) (A : Nat → Nat → K) (i k : Nat) : K :=
  if k = i then if unit then 1 else A i i
  else if (if upper then i < k else k < i) then A i k else 0

theorem triangle_transpose (upper unit : Bool) (A : Nat → Nat → K) (i k : Nat) :
    triangle upper unit (fun i k => A k i) i k = triangle (!upper) unit A k i := by
  unfold triangle
  by_cases hki : k = i
  · rw [if_pos hki, if_pos hki.symm, hki]
  · rw [if_neg hki, if_neg (Ne.symm hki)]
    cases upper
    · rfl
    · rfl

theorem triangle_lower (A : Nat → Nat → K) : triangle false false A = lowerPart A := by
  funext i k
  unfold triangle lowerPart
  by_cases hki : k = i
  · rw [if_pos hki, if_pos (Nat.le_of_eq hki), hki]
    rfl
  · rw [if_neg hki]
    by_cases hlt : k < i
    · exact (if_pos hlt).trans (if_pos (Nat.le_of_lt hlt)).symm
    · exact (if_neg hlt).trans (if_neg (by omega)).symm

theorem triangle_upper (A : Nat → Nat → K) : triangle true false A = upperPart A := by
  funext i k
  unfold triangle upperPart
  by_cases hki : k = i
  · rw [if_pos hki, if_pos (Nat.le_of_eq hki.symm), hki]
    rfl
  · rw [if_neg hki]
    by_cases hlt : i < k
    · exact (if_pos hlt).trans (if_pos (Nat.le_of_lt hlt)).symm
    · exact (if_neg hlt).trans (if_neg (by omega)).symm

section

variable {n : Nat} {forward unit : Bool} {A : Nat → Nat → K}

theorem mem_rowOrder {i : Nat} : i ∈ rowOrder n forward ↔ i < n := by
  unfold rowOrder
  simp only [List.mem_map, List.mem_range]
  cases forward with
  | true =>
      refine ⟨?_, fun h => ⟨i, h, rfl⟩⟩
      rintro ⟨step, hstep, rfl⟩
      exact hstep
  | false =>
      simp only [Bool.false_eq_true, if_false]
      refine ⟨?_, fun h => ⟨n - 1 - i, by omega, by omega⟩⟩
      rintro ⟨step, hstep, rfl⟩
      omega

/-- The rows in front of a row. -/
def InFront (forward : Bool) (i r : Nat) : Prop := if forward then i < r else r < i

instance (i r : Nat) : Decidable (InFront forward i r) := inferInstanceAs (Decidable (ite _ _ _))

theorem InFront.asymm {a b : Nat} (hab : InFront forward a b) : ¬ InFront forward b a := by
  intro hba
  cases forward with
  | true => exact Nat.lt_asymm hab hba
  | false => exact Nat.lt_asymm hab hba

variable (n forward) in
theorem rowOrder_pairwise : (rowOrder n forward).Pairwise (InFront forward) := by
  unfold rowOrder
  rw [List.pairwise_map]
  refine List.Pairwise.imp_of_mem (fun {a b} ha hb hab => ?_) List.pairwise_lt_range
  have hb' := List.mem_range.mp hb
  cases forward with
  | true => exact hab
  | false =>
      simp only [InFront, Bool.false_eq_true, if_false]
      omega

/-- The equation of a row. -/
theorem trsm_row (hdiag : unit = false → ∀ i < n, A i i ≠ 0) (x : Nat → K) {r : Nat} (hr : r < n) :
    ∑ l ∈ Finset.range n, triangle (!forward) unit A r l * trsm n forward unit A x l = x r := by
  have hd : (if unit then 1 else A r r) ≠ 0 := by
    cases unit with
    | true => exact one_ne_zero
    | false => exact hdiag rfl r hr
  have hsolve := substitute_solves (A := A) (d := fun i => if unit then 1 else A i i)
    (rowOrder_pairwise n forward) (fun _ _ hab => hab.asymm) (mem_rowOrder.mpr hr) hd x
  have hrows : (rowOrder n forward).toFinset = Finset.range n := Finset.ext fun i => by
    rw [List.mem_toFinset, mem_rowOrder, Finset.mem_range]
  rw [hrows] at hsolve
  refine Eq.trans ?_ hsolve
  have hsplit : ∀ l, triangle (!forward) unit A r l * trsm n forward unit A x l =
      (if InFront forward l r then A r l * trsm n forward unit A x l else 0) +
        if l = r then (if unit then 1 else A r r) * trsm n forward unit A x r else 0 := fun l => by
    unfold triangle
    by_cases hlr : l = r
    · subst hlr
      have hself : ¬ InFront forward l l := fun h => h.asymm h
      rw [if_pos rfl, if_pos rfl, if_neg hself, zero_add]
    · rw [if_neg hlr, if_neg hlr, add_zero, ite_mul, zero_mul]
      cases forward
      · rfl
      · rfl
  rw [Finset.sum_congr rfl fun l _ => hsplit l, Finset.sum_add_distrib, Finset.sum_ite_eq',
    if_pos (Finset.mem_range.mpr hr)]
  rfl

variable (n forward unit A) in
/-- The system. -/
theorem trsm_system (k : Nat) (hdiag : unit = false → ∀ i < n, A i i ≠ 0) (B : Nat → Nat → K) :
    toMatrix n n (triangle (!forward) unit A) *
      toMatrix n k (fun r c => trsm n forward unit A (fun i => B i c) r) = toMatrix n k B := by
  rw [toMatrix_mul]
  exact toMatrix_congr fun r c hr _ => trsm_row hdiag (fun i => B i c) hr

end

end TorchMojoBackend.Kernels.Linalg
