/-
  `Kernels.UniqueGroups`: the groups are the runs of equal rows.

  The running sum of the marks numbers the runs of the rows as they are read.  In a run
  all rows are equal, so that a row which is not equal to itself is alone.  Rows that the
  sort brings together are equal exactly when the order cannot tell them apart and they
  have only numbers, and the rows that stand for the groups are in order with the groups.
-/
import TorchMojoBackend.Foundation.Runs
import TorchMojoBackend.Kernels.UniqueOrder

set_option autoImplicit false

namespace TorchMojoBackend.Kernels.Unique

open TorchMojoBackend.Foundation
open TorchMojoBackend.Kernels.SortKey

universe u v

variable {α : Type u} {V : Type v} [LinearOrder V] [Scalar α V] {data : Nat → α}
  {perm : Option (Nat → Nat)} {n w : Nat}

/-! ## Equal rows -/

/-- Two rows are equal element by element. -/
def RowEq (data : Nat → α) (w a b : Nat) : Prop :=
  ∀ k, k < w → Scalar.eq (data (a * w + k)) (data (b * w + k)) = true

/-- A row has an element that is no number. -/
def HoldsNaN (data : Nat → α) (w r : Nat) : Prop :=
  ∃ k, k < w ∧ Scalar.isNaN (data (r * w + k)) = true

theorem differs_eq_false_iff {a b : Nat} : differs data w a b = false ↔ RowEq data w a b := by
  unfold differs RowEq
  simp

theorem RowEq.symm {a b : Nat} (h : RowEq data w a b) : RowEq data w b a := fun k hk => by
  obtain ⟨x, hx, hy⟩ := Scalar.eq_iff.mp (h k hk)
  exact Scalar.eq_iff.mpr ⟨x, hy, hx⟩

theorem RowEq.trans {a b c : Nat} (hab : RowEq data w a b) (hbc : RowEq data w b c) :
    RowEq data w a c := fun k hk => by
  obtain ⟨x, hx, hy⟩ := Scalar.eq_iff.mp (hab k hk)
  obtain ⟨y, hy', hz⟩ := Scalar.eq_iff.mp (hbc k hk)
  obtain rfl := Option.some.inj (hy.symm.trans hy')
  exact Scalar.eq_iff.mpr ⟨x, hx, hz⟩

/-- A row with only numbers is equal to itself. -/
theorem rowEq_self_iff {a : Nat} : RowEq data w a a ↔ ¬ HoldsNaN data w a := by
  unfold RowEq HoldsNaN
  simp only [not_exists, not_and, Bool.not_eq_true, Scalar.not_isNaN_iff, Scalar.eq_iff, and_self]

theorem RowEq.not_holdsNaN {a b : Nat} (h : RowEq data w a b) : ¬ HoldsNaN data w a :=
  rowEq_self_iff.mp (h.trans h.symm)

/-- Rows with only numbers that the order cannot tell apart. -/
theorem rowEq_iff_rowRanks {a b : Nat} : RowEq data w a b ↔
    rowRanks data w a 0 w = rowRanks data w b 0 w ∧ ¬ HoldsNaN data w a := by
  have hranks : rowRanks data w a 0 w = rowRanks data w b 0 w ↔
      ∀ k, k < w → Scalar.rank (data (a * w + k)) = Scalar.rank (data (b * w + k)) := by
    unfold rowRanks
    rw [List.map_inj_left]
    simp only [List.mem_range'_1, Nat.zero_le, Nat.zero_add, true_and]
  rw [hranks]
  constructor
  · exact fun h => ⟨fun k hk => Scalar.rank_eq_iff.mpr (.inr (h k hk)), h.not_holdsNaN⟩
  · rintro ⟨heq, hnan⟩ k hk
    obtain ⟨hx, -⟩ | h := Scalar.rank_eq_iff.mp (heq k hk)
    · exact absurd ⟨k, hk, hx⟩ hnan
    · exact h

/-! ## Groups of positions -/

/-- The marks are those of the rows. -/
theorem marks_eq {fresh marks : Nat → Nat} (h : Stores (marksStores data perm n w) fresh marks)
    {i : Nat} (hi : i < n) : marks i = mark data perm w i :=
  h.map_at (fun _ _ _ _ heq => heq) (mem_gsItems.mpr hi)

/-- The running sum of the marks numbers the runs. -/
theorem runNumbers_of_cumsum {marks gid : Nat → Nat} (hn : 0 < n)
    (hmarks : ∀ i, i < n → marks i = mark data perm w i) (hsum : Cumsum n marks gid) :
    RunNumbers n gid ∧ ∀ i, i + 1 < n →
      (gid i = gid (i + 1) ↔ RowEq data w (row perm i) (row perm (i + 1))) := by
  have hnext : ∀ i, i + 1 < n → gid (i + 1) = gid i + mark data perm w (i + 1) := fun i hi => by
    rw [hsum (i + 1) hi, hsum i (Nat.lt_of_succ_lt hi), List.range_succ, List.map_append,
      List.sum_append, List.map_singleton, List.sum_singleton, hmarks _ hi]
  have hmark : ∀ i, mark data perm w (i + 1) = if differs data w (row perm (i + 1)) (row perm i)
      then 1 else 0 := fun i => by
    unfold mark
    rw [Nat.add_sub_cancel]
    exact if_congr (and_iff_right (Nat.succ_pos i)) rfl rfl
  refine ⟨⟨?_, fun i hi => ?_⟩, fun i hi => ?_⟩
  · rw [hsum 0 hn, List.range_one, List.map_singleton, List.sum_singleton, hmarks 0 hn]
    exact if_neg fun h => Nat.lt_irrefl 0 h.1
  · rw [hnext i hi, hmark]
    split
    · exact .inr rfl
    · exact .inl rfl
  · rw [hnext i hi, hmark]
    cases hdiff : differs data w (row perm (i + 1)) (row perm i) with
    | true =>
        rw [if_pos rfl]
        refine iff_of_false (by omega) fun h => ?_
        rw [differs_eq_false_iff.mpr h.symm] at hdiff
        exact Bool.noConfusion hdiff
    | false =>
        rw [if_neg Bool.false_ne_true]
        exact iff_of_true rfl (differs_eq_false_iff.mp hdiff).symm

/-- What the groups of the positions are. -/
structure Grouped (data : Nat → α) (perm : Option (Nat → Nat)) (n w : Nat) (gid : Nat → Nat) :
    Prop where
  numbers : RunNumbers n gid
  cut : ∀ i, i + 1 < n → (gid i = gid (i + 1) ↔ RowEq data w (row perm i) (row perm (i + 1)))

theorem GroupsOf.grouped {marks gid : Nat → Nat} {wantVals wantRows wantInverse wantCounts
    takeLast : Bool} {g : Groups α} (hn : 0 < n)
    (h : GroupsOf data perm n w wantVals wantRows wantInverse wantCounts takeLast marks gid g) :
    Grouped data perm n w gid := by
  obtain ⟨fresh, hmarked⟩ := h.marked
  obtain ⟨hnumbers, hcut⟩ := runNumbers_of_cumsum hn (fun i hi => marks_eq hmarked hi) h.cumsum
  exact ⟨hnumbers, hcut⟩

section
variable {gid : Nat → Nat} (h : Grouped data perm n w gid) {i j : Nat}
include h

/-- A group is a run of rows that are equal to the next. -/
theorem Grouped.runs (hij : i ≤ j) (hj : j < n) : gid i = gid j ↔
    ∀ l, i < l → l ≤ j → RowEq data w (row perm (l - 1)) (row perm l) := by
  rw [h.numbers.eq_iff hij hj]
  refine forall_congr' fun l => forall_congr' fun hil => forall_congr' fun hlj => ?_
  have hcut := h.cut (l - 1) (by omega)
  rwa [Nat.sub_add_cancel (by omega)] at hcut

/-- The rows of a group are equal. -/
theorem Grouped.rowEq (hij : i < j) (hj : j < n) (heq : gid i = gid j) :
    RowEq data w (row perm i) (row perm j) := by
  have hall := (h.runs (Nat.le_of_lt hij) hj).mp heq
  clear heq
  induction j, Nat.succ_le_of_lt hij using Nat.le_induction with
  | base => exact hall (i + 1) (Nat.lt_succ_self i) (Nat.le_refl _)
  | succ j hle ih =>
      have hbefore := ih hle (Nat.lt_of_succ_lt hj) fun l hil hlj =>
        hall l hil (Nat.le_succ_of_le hlj)
      exact hbefore.trans (hall (j + 1) (by omega) (Nat.le_refl _))

/-- Positions of one group have equal rows, if they are not the same. -/
theorem Grouped.rowEq_or_eq (hi : i < n) (hj : j < n) (heq : gid i = gid j) :
    i = j ∨ RowEq data w (row perm i) (row perm j) := by
  obtain hlt | rfl | hgt := Nat.lt_trichotomy i j
  · exact .inr (h.rowEq hlt hj heq)
  · exact .inl rfl
  · exact .inr (h.rowEq hgt hi heq.symm).symm

/-- In order, equal rows are in one group. -/
theorem Grouped.together (hread : ReadOrder data n w false perm) (hi : i < n) (hj : j < n)
    (heq : RowEq data w (row perm i) (row perm j)) : gid i = gid j := by
  wlog hij : i ≤ j generalizing i j
  · exact (this hj hi heq.symm (Nat.le_of_not_le hij)).symm
  obtain ⟨hranks, hnan⟩ := rowEq_iff_rowRanks.mp heq
  have hmono : ∀ a b, a ≤ b → b < n → rowRanks data w (row perm a) 0 w ≤
      rowRanks data w (row perm b) 0 w := fun a b hab hb => by
    obtain rfl | hab := Nat.eq_or_lt_of_le hab
    · exact le_refl _
    · have hless := rowLess_iff.mp (hread.sorted rfl a b hab hb)
      unfold rowRank at hless
      rw [Prod.Lex.toLex_lt_toLex] at hless
      obtain hlt | ⟨heq, -⟩ := hless
      · exact le_of_lt hlt
      · exact le_of_eq heq
  -- all rows between have the same ranks
  have hsame : ∀ l, i ≤ l → l ≤ j → rowRanks data w (row perm i) 0 w =
      rowRanks data w (row perm l) 0 w := fun l hil hlj =>
    le_antisymm (hmono i l hil (by omega)) (hranks ▸ hmono l j hlj hj)
  have hequal : ∀ l, i ≤ l → l ≤ j → RowEq data w (row perm i) (row perm l) := fun l hil hlj =>
    rowEq_iff_rowRanks.mpr ⟨hsame l hil hlj, hnan⟩
  exact (h.runs hij hj).mpr fun l hil hlj =>
    (hequal (l - 1) (by omega) (by omega)).symm.trans (hequal l (by omega) hlj)

end

end TorchMojoBackend.Kernels.Unique
