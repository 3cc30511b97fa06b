/-
  `Foundation.Reductions`: lanes merged by halves.

  Everything in this file is independent of the modelled program.  A stage merges into
  each lane of a first half the lane a half behind; the stages run from the widest half
  down.  What a lane stands for is added up, whatever the values are and whatever the
  merge does to them.
-/
import Mathlib.Algebra.BigOperators.Group.Finset.Basic
import Mathlib.Algebra.BigOperators.Intervals

set_option autoImplicit false

namespace TorchMojoBackend.Foundation

universe u v

variable {S : Type u} {M : Type v}

/-- The stages of the halves `2 ^ (k - 1)`, ..., 2, 1. -/
def stages (stage : Nat → (Nat → S) → Nat → S) : Nat → (Nat → S) → Nat → S
  | 0, lanes => lanes
  | k + 1, lanes => stages stage k (stage (2 ^ k) lanes)

/-- A stage of a tree in shared memory: the lanes of the first half merge. -/
def treeHalf (merge : S → S → S) (half : Nat) (lanes : Nat → S) (tid : Nat) : S :=
  if tid < half then merge (lanes tid) (lanes (tid + half)) else lanes tid

/-- A stage of shuffles: every lane merges what it reads. -/
def shuffleDown (merge : S → S → S) (source : Nat → Nat → Nat) (half : Nat) (lanes : Nat → S)
    (tid : Nat) : S := merge (lanes tid) (lanes (source half tid))

/-- Stages that merge the lanes from `base` on leave in the first what all stand for. -/
theorem stages_merge [AddCommMonoid M] {stands : S → M → Prop} {merge : S → S → S}
    (hmerge : ∀ {a b A B}, stands a A → stands b B → stands (merge a b) (A + B))
    {stage : Nat → (Nat → S) → Nat → S} {base : Nat} :
    ∀ {k : Nat} {lanes : Nat → S} {A : Nat → M},
      (∀ m < k, ∀ lanes : Nat → S, ∀ l < 2 ^ m, stage (2 ^ m) lanes (base + l) =
        merge (lanes (base + l)) (lanes (base + l + 2 ^ m))) →
      (∀ l < 2 ^ k, stands (lanes (base + l)) (A l)) →
      stands (stages stage k lanes base) (∑ l ∈ Finset.range (2 ^ k), A l) := by
  intro k
  induction k with
  | zero =>
      intro lanes A _ hlanes
      rw [Nat.pow_zero, Finset.sum_range_one]
      exact hlanes 0 Nat.one_pos
  | succ k ih =>
      intro lanes A hstage hlanes
      have hhalf : 2 ^ (k + 1) = 2 ^ k + 2 ^ k := by rw [Nat.pow_succ, Nat.mul_two]
      rw [hhalf, Finset.sum_range_add, ← Finset.sum_add_distrib]
      refine ih (fun m hm => hstage m (Nat.lt_succ_of_lt hm)) fun l hl => ?_
      rw [hstage k (Nat.lt_succ_self k) lanes l hl, Nat.add_comm (2 ^ k) l, Nat.add_assoc]
      exact hmerge (hlanes l (by omega)) (hlanes (l + 2 ^ k) (by omega))

/-- Halves from `2 ^ t` on that are left out. -/
theorem stages_skip (stage : Nat → (Nat → S) → Nat → S) (t : Nat) {k : Nat} {lanes : Nat → S} :
    stages (fun half lanes => if 2 ^ t ≤ half then lanes else stage half lanes) k lanes =
      stages stage (min t k) lanes := by
  induction k generalizing lanes with
  | zero =>
      rw [Nat.min_zero]
      rfl
  | succ k ih =>
      rw [stages]
      by_cases hle : t ≤ k
      · rw [if_pos (Nat.pow_le_pow_right Nat.two_pos hle), ih, Nat.min_eq_left hle,
          Nat.min_eq_left (Nat.le_succ_of_le hle)]
      · have hlt : 2 ^ k < 2 ^ t := Nat.pow_lt_pow_right Nat.one_lt_two (Nat.lt_of_not_le hle)
        rw [if_neg (Nat.not_le.mpr hlt), ih, Nat.min_eq_right (by omega : k ≤ t),
          Nat.min_eq_right (by omega : k + 1 ≤ t), stages]

theorem treeHalf_merge (merge : S → S → S) (m : Nat) (lanes : Nat → S) {l : Nat} (hl : l < 2 ^ m) :
    treeHalf merge (2 ^ m) lanes (0 + l) = merge (lanes (0 + l)) (lanes (0 + l + 2 ^ m)) :=
  if_pos (by rwa [Nat.zero_add])

/-- A tree over shared memory. -/
theorem tree_merge [AddCommMonoid M] {stands : S → M → Prop} {merge : S → S → S}
    (hmerge : ∀ {a b A B}, stands a A → stands b B → stands (merge a b) (A + B)) {k : Nat}
    {lanes : Nat → S} {A : Nat → M} (hlanes : ∀ l < 2 ^ k, stands (lanes l) (A l)) :
    stands (stages (treeHalf merge) k lanes 0) (∑ l ∈ Finset.range (2 ^ k), A l) := by
  refine stages_merge hmerge (fun m _ lanes l hl => treeHalf_merge merge m lanes hl) fun l hl => ?_
  rw [Nat.zero_add]
  exact hlanes l hl

/-- A run of lanes that shuffles merge into its first. -/
theorem shuffle_merge [AddCommMonoid M] {stands : S → M → Prop} {merge : S → S → S}
    (hmerge : ∀ {a b A B}, stands a A → stands b B → stands (merge a b) (A + B)) {k base : Nat}
    {source : Nat → Nat → Nat}
    (hsource : ∀ m < k, ∀ l < 2 ^ m, source (2 ^ m) (base + l) = base + l + 2 ^ m)
    {lanes : Nat → S} {A : Nat → M} (hlanes : ∀ l < 2 ^ k, stands (lanes (base + l)) (A l)) :
    stands (stages (shuffleDown merge source) k lanes base) (∑ l ∈ Finset.range (2 ^ k), A l) := by
  refine stages_merge hmerge (fun m hm lanes l hl => ?_) hlanes
  unfold shuffleDown
  rw [hsource m hm l hl]

end TorchMojoBackend.Foundation
