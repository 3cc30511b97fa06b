/-
  `Foundation.Tournament`: the best of many candidates.

  Everything in this file is independent of the modelled program.  A candidate beats
  another when its key is smaller; what is kept of several has the least of their keys,
  whether they meet one after the other or in a tree of halving steps.
-/
import Mathlib.Data.Finset.Lattice.Fold
import Mathlib.Data.Finset.Lattice.Union
import Mathlib.Data.List.Range
import Mathlib.Order.Interval.Finset.Nat

set_option autoImplicit false

namespace TorchMojoBackend.Foundation

universe u v w

section
variable {C : Type u}

/-- The better of an incumbent and a candidate. -/
def keep (better : C → C → Bool) (cur cand : C) : C := if better cand cur then cand else cur

/-- A halving step: the lanes below the stride keep the better of two. -/
def treeStage (better : C → C → Bool) (stride : Nat) (lanes : Nat → C) (tid : Nat) : C :=
  if tid < stride then keep better (lanes tid) (lanes (tid + stride)) else lanes tid

/-- The halving steps. -/
def tree (better : C → C → Bool) : Nat → Nat → (Nat → C) → Nat → C
  | 0, _, lanes => lanes
  | stages + 1, stride, lanes => tree better stages (stride / 2) (treeStage better stride lanes)

theorem keep_of {P : C → Prop} {better : C → C → Bool} {cur cand : C} (hcur : P cur)
    (hcand : P cand) : P (keep better cur cand) := by
  unfold keep
  split
  · exact hcand
  · exact hcur

theorem foldl_keep_of {ι : Type w} {P : C → Prop} {better : C → C → Bool} {f : ι → C} {cur : C}
    {l : List ι} (hcur : P cur) (hf : ∀ i ∈ l, P (f i)) :
    P (l.foldl (fun c i => keep better c (f i)) cur) := by
  induction l generalizing cur with
  | nil => exact hcur
  | cons i l ih =>
      exact ih (keep_of hcur (hf i List.mem_cons_self)) fun j hj => hf j (List.mem_cons_of_mem _ hj)

theorem tree_of {P : C → Prop} {better : C → C → Bool} (stages stride : Nat) {lanes : Nat → C}
    (hlanes : ∀ t, P (lanes t)) (tid : Nat) : P (tree better stages stride lanes tid) := by
  induction stages generalizing stride lanes with
  | zero => exact hlanes tid
  | succ stages ih =>
      refine ih (stride / 2) fun t => ?_
      unfold treeStage
      split
      · exact keep_of (hlanes t) (hlanes _)
      · exact hlanes t

variable {K : Type v} [LinearOrder K] {key : C → K} {better : C → C → Bool}

theorem key_keep (h : ∀ a b, better a b = true ↔ key a < key b) (cur cand : C) :
    key (keep better cur cand) = key cur ⊓ key cand := by
  unfold keep
  split
  · rename_i hlt
    exact (inf_eq_right.mpr (le_of_lt ((h _ _).mp hlt))).symm
  · rename_i hnot
    exact (inf_eq_left.mpr (not_lt.mp fun hlt => hnot ((h _ _).mpr hlt))).symm

variable [OrderTop K]

/-- Candidates one after the other. -/
theorem key_foldl_keep {ι : Type w} [DecidableEq ι] (h : ∀ a b, better a b = true ↔ key a < key b)
    (l : List ι) (f : ι → C) (cur : C) :
    key (l.foldl (fun c i => keep better c (f i)) cur) =
      key cur ⊓ l.toFinset.inf fun i => key (f i) := by
  induction l generalizing cur with
  | nil => simp
  | cons i l ih =>
      rw [List.foldl_cons, ih, key_keep h, List.toFinset_cons, Finset.inf_insert, inf_assoc]

/-- The lower half of a range and the upper one. -/
theorem inf_range_double (n : Nat) (f : Nat → K) :
    (Finset.range (n + n)).inf f = (Finset.range n).inf fun i => f i ⊓ f (i + n) := by
  refine le_antisymm (Finset.le_inf fun i hi => ?_) (Finset.le_inf fun i hi => ?_)
  · rw [Finset.mem_range] at hi
    exact le_inf (Finset.inf_le (Finset.mem_range.mpr (by omega)))
      (Finset.inf_le (Finset.mem_range.mpr (by omega)))
  · rw [Finset.mem_range] at hi
    by_cases hlow : i < n
    · exact (Finset.inf_le (Finset.mem_range.mpr hlow)).trans inf_le_left
    · have hle := Finset.inf_le (f := fun i => f i ⊓ f (i + n))
        (Finset.mem_range.mpr (show i - n < n by omega))
      refine hle.trans (inf_le_right.trans (le_of_eq ?_))
      rw [Nat.sub_add_cancel (by omega)]

/-- The first lane of a tree ends with the best of all lanes. -/
theorem key_tree (h : ∀ a b, better a b = true ↔ key a < key b) (stages : Nat)
    (lanes : Nat → C) : key (tree better stages (2 ^ stages / 2) lanes 0) =
      (Finset.range (2 ^ stages)).inf fun tid => key (lanes tid) := by
  induction stages generalizing lanes with
  | zero =>
      rw [Nat.pow_zero, Finset.range_one, Finset.inf_singleton]
      rfl
  | succ stages ih =>
      have hhalf : 2 ^ (stages + 1) / 2 = 2 ^ stages := by
        rw [Nat.pow_succ, Nat.mul_div_cancel _ (by decide)]
      have hdouble : 2 ^ (stages + 1) = 2 ^ stages + 2 ^ stages := by
        rw [Nat.pow_succ, Nat.mul_two]
      unfold tree
      rw [hhalf, ih, hdouble, inf_range_double]
      refine Finset.inf_congr rfl fun tid htid => ?_
      unfold treeStage
      rw [if_pos (Finset.mem_range.mp htid), key_keep h]

end

end TorchMojoBackend.Foundation
