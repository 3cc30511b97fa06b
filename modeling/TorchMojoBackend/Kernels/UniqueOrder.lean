/-
  `Kernels.UniqueOrder`: the order in which the rows are read.

  The rows have a strict total order: element by element, what is no number last, and
  rows that tie in the order in which they came.  The merge passes leave the rows in this
  order, and so does the stable sort of single elements by their keys.
-/
import Mathlib.Data.Int.ConditionallyCompleteOrder
import Mathlib.Data.List.Lex
import TorchMojoBackend.Kernels.RowSortStable
import TorchMojoBackend.Kernels.Unique

set_option autoImplicit false

namespace TorchMojoBackend.Kernels.Unique

open TorchMojoBackend.Foundation
open TorchMojoBackend.Kernels.RowSort (gsBlocks GS_THREADS SORT_MAX_ROW SortRowsInto Out Pair
  stableOrder stableOrder_perm keyLe keyLe_trans keyLe_total sortRowsInto_answers)
open TorchMojoBackend.Kernels.SortKey

universe u v

/-! ## The order of the rows -/

section
variable {α : Type u} {V : Type v} [LinearOrder V] [Scalar α V] {data : Nat → α} {n w : Nat}

/-- The elements of a row from `k` on as the order sees them. -/
def rowRanks (data : Nat → α) (w r k left : Nat) : List (WithTop V) :=
  (List.range' k left).map fun k => Scalar.rank (data (r * w + k))

/-- One element of the comparison, the rest being decided. -/
theorem rowLess_step (x y : α) {rest : Bool} {l l' : List (WithTop V)} {p : Prop}
    (h : rest = true ↔ l < l' ∨ l = l' ∧ p) :
    (if Scalar.isNaN x || Scalar.isNaN y then
        if Scalar.isNaN x && Scalar.isNaN y then rest else Scalar.isNaN y
      else if Scalar.lt x y then true
      else if Scalar.gt x y then false
      else rest) = true ↔
      Scalar.rank x :: l < Scalar.rank y :: l' ∨ Scalar.rank x :: l = Scalar.rank y :: l' ∧ p := by
  rw [List.cons_lt_cons_iff, List.cons.injEq]
  unfold Scalar.rank Scalar.isNaN Scalar.gt Scalar.lt
  cases Scalar.value x with
  | none =>
      cases Scalar.value y with
      | none => simpa using h
      | some b => simp
  | some a =>
      cases Scalar.value y with
      | none => simp
      | some b =>
          obtain hlt | rfl | hgt := lt_trichotomy a b
          · simp [hlt]
          · simpa using h
          · simp [hgt, hgt.not_gt, hgt.ne']

theorem rowLessFrom_iff {a b left k : Nat} : rowLessFrom data a b w left k = true ↔
    rowRanks data w a k left < rowRanks data w b k left ∨
      rowRanks data w a k left = rowRanks data w b k left ∧ a < b := by
  induction left generalizing k with
  | zero =>
      unfold rowLessFrom rowRanks
      simp
  | succ left ih => exact rowLess_step (data (a * w + k)) (data (b * w + k)) ih

/-- A row's place in the order. -/
def rowRank (data : Nat → α) (w r : Nat) : List (WithTop V) ×ₗ Nat := toLex (rowRanks data w r 0 w, r)

theorem rowLess_iff {a b : Nat} : RowLess data w a b ↔ rowRank data w a < rowRank data w b := by
  unfold RowLess rowLess rowRank
  rw [rowLessFrom_iff, Prod.Lex.toLex_lt_toLex]

instance (data : Nat → α) (w : Nat) : IsStrictTotalOrder Nat (RowLess data w) where
  trichotomous a b hab hba := by
    rw [rowLess_iff] at hab hba
    have heq := le_antisymm (not_lt.mp hba) (not_lt.mp hab)
    exact (Prod.ext_iff.mp (toLex_inj.mp heq)).2
  irrefl a h := lt_irrefl _ (rowLess_iff.mp h)
  trans a b c hab hbc := rowLess_iff.mpr (lt_trans (rowLess_iff.mp hab) (rowLess_iff.mp hbc))

/-! ## Merge passes -/

theorem mem_gsItems {n i : Nat} : i ∈ gsItems n ↔ i < n :=
  mem_gridItems (Nat.mul_pos (by unfold gsBlocks; omega) (Nat.succ_pos 255))

/-- The kernel's place of a row is its rank in the block. -/
theorem mergeSlot_eq {width i : Nat} {order : Nat → Nat} (hwidth : 0 < width)
    (hruns : SortedRuns (RowLess data w) n width order) (hi : i < n) :
    mergeSlot data n w width order i = mergeDest (RowLess data w) n width order i := by
  have hblock : i / (2 * width) = i / width / 2 := by rw [Nat.mul_comm, Nat.div_div_eq_div_mul]
  have hstart : (i / width - i / width % 2) * width = i / (2 * width) * (2 * width) := by
    rw [hblock, show i / width - i / width % 2 = i / width / 2 * 2 by omega, Nat.mul_assoc]
  have hrun : i / width * width ≤ i ∧ i < i / width * width + width :=
    ⟨Nat.div_mul_le_self .., Nat.lt_div_mul_add hwidth⟩
  have hsplit : i / width * width = i / (2 * width) * (2 * width) + i / width % 2 * width := by
    rw [← hstart, ← Nat.add_mul, Nat.sub_add_cancel (Nat.mod_le _ _)]
  have hbase : i / (2 * width) * (2 * width) ≤ i := Nat.div_mul_le_self ..
  unfold mergeSlot
  dsimp only
  rw [hstart]
  by_cases hodd : i / width % 2 = 1
  · rw [hodd, Nat.one_mul] at hsplit
    simp only [if_pos hodd]
    rw [mergeDest_right hwidth hruns (Nat.le_refl n) hi (by omega), Nat.max_eq_left (by omega)]
    omega
  · rw [show i / width % 2 = 0 by omega, Nat.zero_mul] at hsplit
    simp only [if_neg hodd]
    rw [mergeDest_left hwidth hruns (Nat.le_refl n) hi (by omega)]
    obtain hin | hout := Nat.le_or_ge (i / (2 * width) * (2 * width) + width) n
    · rw [Nat.min_eq_left hin, Nat.max_eq_left (by omega), Nat.add_assoc _ width width,
        ← Nat.two_mul]
      omega
    · -- there is no right run
      rw [firstFalse_of_le (by omega), firstFalse_of_le (by omega)]
      omega

/-- A launch of `_row_merge_kernel` doubles the runs. -/
theorem mergeRuns_merge {width : Nat} {order other merged : Nat → Nat} (hwidth : 0 < width)
    (h : MergeRuns (RowLess data w) n width order)
    (hstores : Stores (mergeStores data n w width order) other merged) :
    MergeRuns (RowLess data w) n (2 * width) merged := by
  refine MergeRuns.merge hwidth h fun i hi => ?_
  rw [← mergeSlot_eq hwidth h.1 hi]
  refine hstores.map_at (fun j hj j' hj' heq => ?_) (mem_gsItems.mpr hi)
  rw [mem_gsItems] at hj hj'
  rw [mergeSlot_eq hwidth h.1 hj, mergeSlot_eq hwidth h.1 hj'] at heq
  exact mergeDest_injOn hwidth h.2.injOn hj hj' heq

/-- The passes leave the rows in order. -/
theorem mergePasses_sorted {fuel width : Nat} {order other order' : Nat → Nat} (hwidth : 0 < width)
    (hfuel : n ≤ width + fuel) (h : MergeRuns (RowLess data w) n width order)
    (hpasses : MergePasses data n w fuel width order other order') :
    MergeRuns (RowLess data w) n n order' := by
  induction fuel generalizing width order other with
  | zero =>
      obtain rfl : order' = order := hpasses
      exact h.whole (by omega)
  | succ fuel ih =>
      unfold MergePasses at hpasses
      split at hpasses
      · obtain ⟨merged, hstores, hpasses⟩ := hpasses
        rw [Nat.mul_comm] at hpasses
        exact ih (by omega) (by omega) (mergeRuns_merge hwidth h hstores) hpasses
      · obtain rfl : order' = order := hpasses
        exact h.whole (by omega)

/-! ## What is read -/

/-- Each row is read once, and in order if they are sorted. -/
structure ReadOrder (data : Nat → α) (n w : Nat) (consecutive : Bool)
    (perm : Option (Nat → Nat)) : Prop where
  bij : Set.BijOn (row perm) (Set.Iio n) (Set.Iio n)
  same : consecutive = true → ∀ i, row perm i = i
  sorted : consecutive = false → ∀ i j, i < j → j < n → RowLess data w (row perm i) (row perm j)

theorem ReadOrder.consecutive : ReadOrder data n w true none :=
  ⟨Set.bijOn_id _, fun _ _ => rfl, fun h => Bool.noConfusion h⟩

theorem ReadOrder.of_mergeRuns {order : Nat → Nat} (h : MergeRuns (RowLess data w) n n order) :
    ReadOrder data n w false (some order) :=
  ⟨h.2, fun h => Bool.noConfusion h, fun _ _ _ hij hj => h.before hij hj⟩

theorem RowsPerm.reads {consecutive : Bool} {perm : Option (Nat → Nat)}
    (h : RowsPerm data n w consecutive perm) : ReadOrder data n w consecutive perm := by
  unfold RowsPerm at h
  cases consecutive with
  | true =>
      obtain rfl : perm = none := h
      exact ReadOrder.consecutive
  | false =>
      obtain ⟨arange, other, order, harange, hpasses, rfl⟩ := h
      exact ReadOrder.of_mergeRuns
        (mergePasses_sorted Nat.one_pos (Nat.le_add_left n 1) (MergeRuns.one harange) hpasses)

end

section
variable {d : DType} {data : Nat → Elem d} {n : Nat}

/-- The keys are in the order of the elements. -/
theorem sortKey_lt_rank (a b : Elem d) : sortKey d a < sortKey d b ↔ Scalar.rank a < Scalar.rank b := by
  rw [sortKey_lt, Scalar.rank_lt_iff]
  unfold Scalar.isNaN Scalar.lt
  cases Scalar.value a <;> cases Scalar.value b <;> simp

/-- Single elements by their keys, those that tie by their positions. -/
theorem rowLess_one {a b : Nat} (hle : keyLe false (sortKey d (data a)) (sortKey d (data b)) = true)
    (htie : keyLe false (sortKey d (data b)) (sortKey d (data a)) = true → a < b) :
    RowLess data 1 a b := by
  have hranks : ∀ r, rowRanks data 1 r 0 1 = [Scalar.rank (data r)] := fun r => by
    unfold rowRanks
    rw [List.range'_one, List.map_singleton, Nat.mul_one, Nat.add_zero]
  unfold RowLess rowLess
  rw [rowLessFrom_iff, hranks, hranks, List.cons_lt_cons_iff, List.cons.injEq]
  have hge : ¬ Scalar.rank (data b) < Scalar.rank (data a) := by
    rw [← sortKey_lt_rank]
    exact not_lt.mpr (of_decide_eq_true hle)
  obtain hlt | heq := lt_or_eq_of_le (not_lt.mp hge)
  · exact .inl (.inl hlt)
  · refine .inr ⟨⟨heq, rfl⟩, htie (decide_eq_true (not_lt.mp ?_))⟩
    rw [sortKey_lt_rank, heq]
    exact lt_irrefl _

theorem FlatPerm.reads {consecutive : Bool} {perm : Option (Nat → Nat)} (hn : 0 < n)
    (h : FlatPerm data n consecutive perm) : ReadOrder data n 1 consecutive perm := by
  unfold FlatPerm at h
  cases consecutive with
  | true =>
      obtain rfl : perm = none := h
      exact ReadOrder.consecutive
  | false =>
      obtain ⟨hmax, ws, out, out', hsort, rfl⟩ := h
      have hlist := (sortRowsInto_answers hn (Nat.le_refl n) hmax hsort Nat.one_pos).1
      have hperm := stableOrder_perm false (fun i => sortKey d (data (0 * n + i))) n
      rw [List.take_of_length_le (by rw [hperm.length_eq, List.length_range])] at hlist
      simp only [Nat.zero_mul, Nat.zero_add] at hlist hperm
      have hstable := @mergeSort_range_pairwise
        (fun i j => keyLe false (sortKey d (data i)) (sortKey d (data j)))
        (fun a b c => keyLe_trans) (fun a b => keyLe_total false _ _) n
      unfold stableOrder at hlist hperm
      rw [← hlist] at hstable hperm
      refine ReadOrder.of_mergeRuns ⟨fun i j hij hj _ => ?_, bijOn_of_map_range_perm hperm⟩
      obtain ⟨hle, htie⟩ := of_map_range_pairwise hstable hij hj
      exact rowLess_one hle htie

end

end TorchMojoBackend.Kernels.Unique
