/-
  `Foundation.Compaction`: the items that are kept, at consecutive places.

  Everything in this file is independent of the modelled program.  Groups of items that
  start at the total of the groups before them place the whole list.  The totals come from
  a running sum, and a group's own from lanes that are added in a tree.
-/
import TorchMojoBackend.Foundation.Partition
import TorchMojoBackend.Foundation.ScanNetwork

set_option autoImplicit false

namespace TorchMojoBackend.Foundation

universe u

/-! ## Places -/

section
variable {α : Type u}

/-- The items of a list at the places from `start` on. -/
def place (start : Nat) (l : List α) : List (Nat × α) := (l.zipIdx start).map Prod.swap

@[simp] theorem place_nil (start : Nat) : place start ([] : List α) = [] := rfl

@[simp] theorem place_cons (start : Nat) (x : α) (l : List α) :
    place start (x :: l) = (start, x) :: place (start + 1) l := rfl

theorem place_append (start : Nat) (l k : List α) :
    place start (l ++ k) = place start l ++ place (start + l.length) k := by
  rw [place, List.zipIdx_append, List.map_append]
  rfl

theorem map_fst_place (start : Nat) (l : List α) :
    (place start l).map Prod.fst = List.range' start l.length := by
  rw [place, List.map_map]
  exact List.zipIdx_map_snd start l

theorem mem_place {l : List α} {w : Nat × α} : w ∈ place 0 l ↔ l[w.1]? = some w.2 := by
  rw [place, List.mem_map]
  constructor
  · rintro ⟨x, hx, rfl⟩
    exact List.mem_zipIdx_iff_getElem?.mp hx
  · exact fun h => ⟨w.swap, List.mem_zipIdx_iff_getElem?.mpr h, rfl⟩

theorem length_groups (groups : Nat → List α) (n : Nat) :
    ((List.range n).flatMap groups).length = segmentStart (fun i => (groups i).length) n := by
  induction n with
  | zero => rfl
  | succ n ih =>
      rw [List.range_succ, List.flatMap_append, List.length_append, ih, List.flatMap_singleton,
        segmentStart_succ]

/-- Groups after each other place what they hold together. -/
theorem place_groups (start : Nat) (groups : Nat → List α) (n : Nat) :
    ((List.range n).flatMap fun t =>
        place (start + segmentStart (fun i => (groups i).length) t) (groups t)) =
      place start ((List.range n).flatMap groups) := by
  induction n with
  | zero => rfl
  | succ n ih =>
      rw [List.range_succ, List.flatMap_append, List.flatMap_append, place_append, ih,
        length_groups, List.flatMap_singleton, List.flatMap_singleton]

end

/-! ## Totals -/

/-- A loop that puts the sum of the values before it at every place. -/
def runningSum (f : Nat → Nat) (n : Nat) : (Nat → Nat) × Nat :=
  (List.range n).foldl (fun s i => (Function.update s.1 i s.2, s.2 + s.1 i)) (f, 0)

theorem runningSum_spec (f : Nat → Nat) (n : Nat) :
    (runningSum f n).2 = segmentStart f n ∧
      ∀ i, (runningSum f n).1 i = if i < n then segmentStart f i else f i := by
  induction n with
  | zero => exact ⟨rfl, fun i => (if_neg (Nat.not_lt_zero i)).symm⟩
  | succ n ih =>
      obtain ⟨htotal, hat⟩ := ih
      have hstep : runningSum f (n + 1) = (Function.update (runningSum f n).1 n (runningSum f n).2,
          (runningSum f n).2 + (runningSum f n).1 n) := by
        rw [runningSum, List.range_succ, List.foldl_append]
        rfl
      rw [hstep]
      refine ⟨?_, fun i => ?_⟩
      · rw [segmentStart_succ, htotal, hat, if_neg (Nat.lt_irrefl n)]
      · dsimp only
        by_cases hi : i = n
        · subst hi
          rw [Function.update_self, if_pos (Nat.lt_succ_self i), htotal]
        · rw [Function.update_of_ne hi, hat]
          exact if_congr (by omega) rfl rfl

/-- A running merge of sums is a running sum. -/
theorem fold1_add (f : Nat → Nat) (n : Nat) : fold1 (· + ·) f 0 n = segmentStart f (n + 1) := by
  induction n with
  | zero =>
      rw [segmentStart_succ]
      exact (Nat.zero_add (f 0)).symm
  | succ n ih => rw [fold1, ih, segmentStart_succ f (n + 1), Nat.zero_add]

/-- A halving step: the lanes below the stride add the lane that far above. -/
def addStage (stride : Nat) (lanes : Nat → Nat) (tid : Nat) : Nat :=
  if tid < stride then lanes tid + lanes (tid + stride) else lanes tid

/-- The halving steps. -/
def addTree : Nat → Nat → (Nat → Nat) → Nat → Nat
  | 0, _, lanes => lanes
  | stages + 1, stride, lanes => addTree stages (stride / 2) (addStage stride lanes)

theorem segmentStart_double (n : Nat) (f : Nat → Nat) :
    segmentStart f (n + n) = segmentStart (fun i => f i + f (i + n)) n := by
  unfold segmentStart
  rw [Finset.sum_range_add, Finset.sum_add_distrib]
  exact congrArg _ (Finset.sum_congr rfl fun i _ => by rw [Nat.add_comm])

/-- The first lane of a tree ends with the sum of all lanes. -/
theorem addTree_zero (stages : Nat) (lanes : Nat → Nat) :
    addTree stages (2 ^ stages / 2) lanes 0 = segmentStart lanes (2 ^ stages) := by
  induction stages generalizing lanes with
  | zero => exact (Finset.sum_range_one lanes).symm
  | succ stages ih =>
      have hhalf : 2 ^ (stages + 1) / 2 = 2 ^ stages := by
        rw [Nat.pow_succ, Nat.mul_div_cancel _ (by decide)]
      have hdouble : 2 ^ (stages + 1) = 2 ^ stages + 2 ^ stages := by
        rw [Nat.pow_succ, Nat.mul_two]
      rw [addTree, hhalf, ih, hdouble, segmentStart_double]
      refine Finset.sum_congr rfl fun tid htid => ?_
      exact if_pos (Finset.mem_range.mp htid)

end TorchMojoBackend.Foundation
