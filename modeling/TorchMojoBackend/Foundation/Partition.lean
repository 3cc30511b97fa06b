/-
  `Foundation.Partition`: ranges cut into pieces, as multisets.

  Everything in this file is independent of the modelled program.  What the threads of
  a launch do is a sum over their numbers; these rules regroup such sums: a range of
  products by rows, a range of a total by segments, and the pieces of one width that
  cover a span.  Segments are found by binary search over their ends.
-/
import Mathlib.Data.Multiset.Bind
import Mathlib.Data.Multiset.Range
import Mathlib.Algebra.BigOperators.Group.Finset.Basic
import TorchMojoBackend.Foundation.Launch
import TorchMojoBackend.Foundation.MergePass

set_option autoImplicit false

namespace TorchMojoBackend.Foundation

universe u

variable {α : Type u}

/-! ## Ranges -/

theorem coe_gridItems {threads : Nat} (n : Nat) (hthreads : 0 < threads) :
    (gridItems threads n : Multiset Nat) = Multiset.range n :=
  Multiset.coe_eq_coe.mpr (gridItems_perm n hthreads)

/-- A strided loop in each of `g` threads. -/
theorem bind_range_strided {g n : Nat} (hg : 0 < g) (f : Nat → Multiset α) :
    ((Multiset.range g).bind fun t => (strided n g n t : Multiset Nat).bind f) =
      (Multiset.range n).bind f := by
  rw [← coe_gridItems n hg, gridItems, ← Multiset.coe_bind, Multiset.coe_range, Multiset.bind_assoc]

theorem bind_range_add (a b : Nat) (f : Nat → Multiset α) :
    (Multiset.range (a + b)).bind f =
      (Multiset.range a).bind f + (Multiset.range b).bind fun i => f (a + i) := by
  rw [Multiset.range_add, Multiset.add_bind, Multiset.bind_map]

/-- A range of a product, by rows. -/
theorem bind_range_mul (a b : Nat) (f : Nat → Multiset α) :
    (Multiset.range (a * b)).bind f =
      (Multiset.range a).bind fun x => (Multiset.range b).bind fun y => f (x * b + y) := by
  induction a with
  | zero => rw [Nat.zero_mul]; rfl
  | succ a ih =>
      rw [Nat.succ_mul, bind_range_add, ih, Multiset.range_succ, Multiset.cons_bind, add_comm]

/-- A range of a product, by columns. -/
theorem bind_range_mul' (a b : Nat) (f : Nat → Multiset α) :
    (Multiset.range (a * b)).bind f =
      (Multiset.range b).bind fun y => (Multiset.range a).bind fun x => f (x * b + y) := by
  rw [bind_range_mul, Multiset.bind_bind]

/-- A matrix, by tiles of `m` by `n`. -/
theorem bind_range_tiles (a b m n : Nat) (f : Nat → Nat → Multiset α) :
    ((Multiset.range a).bind fun x => (Multiset.range b).bind fun y =>
      (Multiset.range m).bind fun i => (Multiset.range n).bind fun j => f (x * m + i) (y * n + j)) =
      (Multiset.range (a * m)).bind fun r => (Multiset.range (b * n)).bind fun c => f r c := by
  rw [bind_range_mul]
  refine Multiset.bind_congr fun x _ => (Multiset.bind_bind ..).trans ?_
  exact Multiset.bind_congr fun i _ => (bind_range_mul b n _).symm

/-- Only the first item contributes. -/
theorem bind_range_first {n : Nat} (hn : 0 < n) (s : Multiset α) :
    ((Multiset.range n).bind fun i => if i = 0 then s else 0) = s := by
  obtain ⟨k, rfl⟩ := Nat.exists_eq_succ_of_ne_zero (Nat.pos_iff_ne_zero.mp hn)
  rw [Nat.succ_eq_add_one, Nat.add_comm, bind_range_add]
  have hrest : ((Multiset.range k).bind fun i => if 1 + i = 0 then s else 0) = 0 :=
    (Multiset.bind_congr fun i _ => if_neg (by omega)).trans (Multiset.bind_zero _)
  rw [hrest, add_zero]
  simp

/-- Only the last item contributes. -/
theorem bind_range_last {n : Nat} (hn : 0 < n) (s : Multiset α) :
    ((Multiset.range n).bind fun i => if i = n - 1 then s else 0) = s := by
  obtain ⟨k, rfl⟩ := Nat.exists_eq_succ_of_ne_zero (Nat.pos_iff_ne_zero.mp hn)
  rw [Nat.succ_eq_add_one, bind_range_add]
  have hrest : ((Multiset.range k).bind fun i => if i = k + 1 - 1 then s else 0) = 0 :=
    (Multiset.bind_congr fun i hi => if_neg (by
      have := Multiset.mem_range.mp hi
      omega)).trans (Multiset.bind_zero _)
  rw [hrest, zero_add]
  simp

/-! ## Segments -/

/-- The sum of the lengths of the first `j` segments. -/
def segmentStart (len : Nat → Nat) (j : Nat) : Nat := ∑ i ∈ Finset.range j, len i

theorem segmentStart_succ (len : Nat → Nat) (j : Nat) :
    segmentStart len (j + 1) = segmentStart len j + len j := Finset.sum_range_succ ..

theorem segmentStart_mono {len : Nat → Nat} {j k : Nat} (h : j ≤ k) :
    segmentStart len j ≤ segmentStart len k := by
  induction h with
  | refl => exact Nat.le_refl _
  | step _ ih => exact Nat.le_trans ih (by rw [Nat.succ_eq_add_one, segmentStart_succ]; omega)

/-- The range of the total, by segments. -/
theorem bind_range_segments (len : Nat → Nat) (count : Nat) (f : Nat → Multiset α) :
    (Multiset.range (segmentStart len count)).bind f =
      (Multiset.range count).bind fun j =>
        (Multiset.range (len j)).bind fun i => f (segmentStart len j + i) := by
  induction count with
  | zero => rfl
  | succ count ih =>
      rw [segmentStart_succ, bind_range_add, ih, Multiset.range_succ, Multiset.cons_bind, add_comm]

/-- The binary search over the segments' ends finds the segment. -/
theorem firstFalse_segment {len : Nat → Nat} {count j i fuel : Nat} {p : Nat → Bool}
    (hp : ∀ k, k < count → p k = decide (segmentStart len (k + 1) ≤ segmentStart len j + i))
    (hj : j < count) (hi : i < len j) (hfuel : count ≤ fuel) :
    firstFalse p fuel 0 (count - 1) = j := by
  have hbelow : ∀ k, k < j → p k = true := fun k hk => by
    rw [hp k (by omega), decide_eq_true_iff]
    have := @segmentStart_mono len _ _ (Nat.succ_le_of_lt hk)
    rw [Nat.succ_eq_add_one] at this
    omega
  have habove : ∀ k, j ≤ k → k < count → p k = false := fun k hk hlt => by
    rw [hp k hlt, decide_eq_false_iff_not]
    have := @segmentStart_mono len _ _ (Nat.succ_le_succ hk)
    rw [Nat.succ_eq_add_one, Nat.succ_eq_add_one, segmentStart_succ] at this
    omega
  obtain ⟨-, hle, hlow, hhigh⟩ := @firstFalse_spec p fuel 0 (count - 1) (Nat.zero_le _)
    (by omega) fun a b _ hab hb hpb => by
      by_cases ha : a < j
      · exact hbelow a ha
      · rw [habove b (by omega) (by omega)] at hpb
        cases hpb
  obtain hlt | heq | hgt := Nat.lt_trichotomy (firstFalse p fuel 0 (count - 1)) j
  · have h := hhigh _ (Nat.le_refl _) (by omega)
    rw [hbelow _ hlt] at h
    cases h
  · exact heq
  · have h := hlow j (Nat.zero_le _) hgt
    rw [habove j (Nat.le_refl _) hj] at h
    cases h

/-! ## Spans -/

/-- `a`, `a + 1`, ... -/
def span (a : Int) (n : Nat) : Multiset Int := (Multiset.range n).map fun i : Nat => a + i

theorem card_span (a : Int) (n : Nat) : (span a n).card = n := by simp [span]

theorem span_add (a : Int) (m n : Nat) : span a (m + n) = span a m + span (a + m) n := by
  unfold span
  rw [Multiset.range_add, Multiset.map_add, Multiset.map_map]
  congr 1
  refine Multiset.map_congr rfl fun i _ => ?_
  simp [add_assoc]

/-- Pieces of one width, the last one cut off, cover a span as far as they reach. -/
theorem bind_range_span (a : Int) (width total count : Nat) :
    ((Multiset.range count).bind fun n => span (a + (n * width : Nat))
      (min width (total - n * width))) = span a (min total (count * width)) := by
  induction count with
  | zero => simp [span]
  | succ count ih =>
      rw [Multiset.range_succ, Multiset.cons_bind, ih, add_comm, Nat.succ_mul]
      by_cases h : total ≤ count * width
      · rw [Nat.sub_eq_zero_of_le h, Nat.min_zero, Nat.min_eq_left h,
          Nat.min_eq_left (show total ≤ count * width + width by omega)]
        simp [span]
      · rw [Nat.min_eq_right (by omega), ← span_add]
        congr 1
        omega

/-- The lanes below `n` of a block. -/
theorem bind_range_lanes {n lanes : Nat} (hn : n ≤ lanes) (f : Nat → Multiset α) :
    ((Multiset.range lanes).bind fun lane => if lane < n then f lane else 0) =
      (Multiset.range n).bind f := by
  obtain ⟨k, rfl⟩ := Nat.exists_eq_add_of_le hn
  have hrest : ((Multiset.range k).bind fun i => if n + i < n then f (n + i) else 0) = 0 :=
    (Multiset.bind_congr fun i _ => if_neg (by omega)).trans (Multiset.bind_zero _)
  rw [bind_range_add, hrest, add_zero]
  exact Multiset.bind_congr fun i hi => if_pos (Multiset.mem_range.mp hi)

/-- The part of a larger matrix that is inside of one. -/
theorem bind_range_inside {rows cols R C : Nat} (hrows : rows ≤ R) (hcols : cols ≤ C)
    (f : Nat → Nat → Multiset α) :
    ((Multiset.range R).bind fun r => (Multiset.range C).bind fun c =>
      if c < cols then if r < rows then f r c else 0 else 0) =
      (Multiset.range rows).bind fun r => (Multiset.range cols).bind fun c => f r c := by
  refine (Multiset.bind_congr fun r _ => bind_range_lanes hcols _).trans ?_
  refine (Multiset.bind_bind ..).trans ?_
  refine (Multiset.bind_congr fun c _ => bind_range_lanes hrows _).trans ?_
  exact Multiset.bind_bind ..

end TorchMojoBackend.Foundation
