/-
  `Foundation.MatrixBlocks`: matrices read from functions on indices.

  Everything in this file is independent of the modelled program.  An algorithm in place keeps
  several matrices in one array; `toMatrix` reads a block of it, `lowerPart` and `upperPart` one
  of its triangles.

  A triangular system is solved in the order of a list of its unknowns: each is divided by its
  diagonal element and then taken from the right-hand sides of the unknowns behind it
  (`substitute`).  The result solves the system whose equation for an unknown has the unknowns
  before it (`substitute_solves`).
-/
import Mathlib.LinearAlgebra.Matrix.Block
import Mathlib.Algebra.BigOperators.Group.Finset.Basic
import Mathlib.Algebra.Field.Defs
import Mathlib.Tactic.Ring

set_option autoImplicit false

namespace TorchMojoBackend.Foundation

open Matrix

variable {K : Type}

/-- The first `m` rows and `n` columns. -/
def toMatrix (m n : Nat) (M : Nat → Nat → K) : Matrix (Fin m) (Fin n) K := .of fun i k => M i k

@[simp] theorem toMatrix_apply {m n : Nat} (M : Nat → Nat → K) (i : Fin m) (k : Fin n) :
    toMatrix m n M i k = M i k := rfl

theorem toMatrix_congr {m n : Nat} {M N : Nat → Nat → K} (h : ∀ i k, i < m → k < n → M i k = N i k) :
    toMatrix m n M = toMatrix m n N := by
  ext i k
  exact h i k i.isLt k.isLt

theorem toMatrix_transpose {m n : Nat} (M : Nat → Nat → K) :
    (toMatrix m n M)ᵀ = toMatrix n m fun i k => M k i := rfl

theorem toMatrix_submatrix {m n m' n' : Nat} (hm : m' ≤ m) (hn : n' ≤ n) (M : Nat → Nat → K) :
    (toMatrix m n M).submatrix (Fin.castLE hm) (Fin.castLE hn) = toMatrix m' n' M := rfl

section Ring

variable [CommRing K]

theorem toMatrix_mul {m n p : Nat} (M N : Nat → Nat → K) : toMatrix m n M * toMatrix n p N =
    toMatrix m p fun i k => ∑ l ∈ Finset.range n, M i l * N l k := by
  ext i k
  rw [toMatrix_apply, Finset.sum_range]
  rfl

theorem toMatrix_one (n : Nat) : (toMatrix n n fun i k => if i = k then (1 : K) else 0) = 1 := by
  ext i k
  rw [toMatrix_apply, Matrix.one_apply]
  exact if_congr (Fin.ext_iff).symm rfl rfl

/-- The lower triangle. -/
def lowerPart (M : Nat → Nat → K) (i k : Nat) : K := if k ≤ i then M i k else 0

/-- The upper triangle. -/
def upperPart (M : Nat → Nat → K) (i k : Nat) : K := if i ≤ k then M i k else 0

theorem det_lower {n : Nat} {M : Nat → Nat → K} (h : ∀ i k, i < k → M i k = 0) :
    (toMatrix n n M).det = ∏ k ∈ Finset.range n, M k k := by
  rw [Matrix.det_of_isLowerTriangular, Finset.prod_range]
  · rfl
  · exact fun i k hik => h i k hik

theorem det_lowerPart (n : Nat) (M : Nat → Nat → K) :
    (toMatrix n n (lowerPart M)).det = ∏ k ∈ Finset.range n, M k k :=
  (det_lower fun _ _ hik => if_neg (Nat.not_le_of_lt hik)).trans
    (Finset.prod_congr rfl fun k _ => if_pos (Nat.le_refl k))

end Ring

end TorchMojoBackend.Foundation

namespace TorchMojoBackend.Foundation

/-! ## Solving a triangular system in place -/

variable {ι K : Type} [DecidableEq ι] [Field K] {A : ι → ι → K} {d : ι → K}

/-- One unknown: the quotient, and what is left of the unknowns `rest`. -/
def substituteStep (A : ι → ι → K) (d : ι → K) (rest : List ι) (i : ι) (x : ι → K) (r : ι) : K :=
  if r = i then x i / d i else if r ∈ rest then -(x i / d i) * A r i + x r else x r

/-- The unknowns in the order of the list. -/
def substitute (A : ι → ι → K) (d : ι → K) : List ι → (ι → K) → ι → K
  | [], x => x
  | i :: l, x => substitute A d l (substituteStep A d l i x)

theorem substitute_of_not_mem {l : List ι} {r : ι} (hr : r ∉ l) (x : ι → K) :
    substitute A d l x r = x r := by
  induction l generalizing x with
  | nil => rfl
  | cons i l ih =>
      have hri : r ≠ i := fun h => hr (h ▸ List.mem_cons_self)
      have hrl : r ∉ l := fun h => hr (List.mem_cons_of_mem i h)
      rw [substitute, ih hrl, substituteStep, if_neg hri, if_neg hrl]

/-- The equation of an unknown. -/
theorem substitute_eq {l before after : List ι} {r : ι} (hl : l = before ++ r :: after) (hnodup : l.Nodup)
    (hd : d r ≠ 0) (x : ι → K) :
    (before.map fun i => A r i * substitute A d l x i).sum + d r * substitute A d l x r = x r := by
  induction before generalizing l x with
  | nil =>
      subst hl
      have hr : r ∉ after := (List.nodup_cons.mp hnodup).1
      rw [List.nil_append, substitute, substitute_of_not_mem hr, substituteStep, if_pos rfl, List.map_nil,
        List.sum_nil, zero_add, mul_div_cancel₀ _ hd]
  | cons i before ih =>
      subst hl
      obtain ⟨hi, hrest⟩ := List.nodup_cons.mp (show (i :: (before ++ r :: after)).Nodup from hnodup)
      have hmem : r ∈ before ++ r :: after := List.mem_append_right _ List.mem_cons_self
      have hri : r ≠ i := fun h => hi (h ▸ hmem)
      have hself : substitute A d (i :: (before ++ r :: after)) x i = x i / d i := by
        rw [substitute, substitute_of_not_mem hi, substituteStep, if_pos rfl]
      have hstep := ih rfl hrest (substituteStep A d (before ++ r :: after) i x)
      rw [substituteStep, if_neg hri, if_pos hmem] at hstep
      rw [List.cons_append, List.map_cons, List.sum_cons, hself, add_assoc]
      change A r i * (x i / d i) + ((before.map fun k => A r k *
        substitute A d (before ++ r :: after) (substituteStep A d (before ++ r :: after) i x) k).sum +
        d r * substitute A d (before ++ r :: after) (substituteStep A d (before ++ r :: after) i x) r) = x r
      rw [hstep]
      ring

/-- Where the list is in the order `R`, the equation of an unknown has those that are before it. -/
theorem substitute_solves {R : ι → ι → Prop} [DecidableRel R] {l : List ι} (hl : l.Pairwise R)
    (hasymm : ∀ a b, R a b → ¬ R b a) {r : ι} (hr : r ∈ l) (hd : d r ≠ 0) (x : ι → K) :
    (∑ i ∈ l.toFinset, if R i r then A r i * substitute A d l x i else 0) +
      d r * substitute A d l x r = x r := by
  have hnodup : l.Nodup := hl.imp fun {a b} hab heq => by
    subst heq
    exact hasymm _ _ hab hab
  obtain ⟨before, after, hsplit⟩ := List.append_of_mem hr
  have hbefore : ∀ i ∈ before, R i r := fun i hi => by
    rw [hsplit] at hl
    exact (List.pairwise_append.mp hl).2.2 i hi r List.mem_cons_self
  have hafter : ∀ i ∈ r :: after, ¬ R i r := fun i hi hir => by
    rw [hsplit] at hl
    obtain rfl | hi := List.mem_cons.mp hi
    · exact hasymm i i hir hir
    · exact hasymm _ _ hir ((List.pairwise_cons.mp (List.pairwise_append.mp hl).2.1).1 i hi)
  have hsum : (∑ i ∈ l.toFinset, if R i r then A r i * substitute A d l x i else 0) =
      (before.map fun i => A r i * substitute A d l x i).sum := by
    rw [List.sum_toFinset _ hnodup]
    generalize substitute A d l x = y
    rw [hsplit, List.map_append, List.sum_append]
    have hfirst : (before.map fun i => if R i r then A r i * y i else 0) =
        before.map fun i => A r i * y i := List.map_congr_left fun i hi => if_pos (hbefore i hi)
    have hlast : ((r :: after).map fun i => if R i r then A r i * y i else 0).sum = 0 :=
      List.sum_eq_zero fun v hv => by
        obtain ⟨i, hi, rfl⟩ := List.mem_map.mp hv
        exact if_neg (hafter i hi)
    rw [hfirst, hlast, add_zero]
  rw [hsum]
  exact substitute_eq hsplit hnodup hd x

end TorchMojoBackend.Foundation
