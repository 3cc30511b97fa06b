/-
  `Kernels.RowSortOrder`: the stable sort of a row.

  The pairs have one order in each direction, in which the padding lanes are last.  The
  first pairs in it of a row and any padding are those of the row's stable sort.
-/
import Mathlib.Data.Prod.Lex
import Mathlib.Order.Nat
import TorchMojoBackend.Kernels.RowSortTile

set_option autoImplicit false

namespace TorchMojoBackend.Kernels.RowSort

open TorchMojoBackend.Foundation

universe u v

section
variable {K : Type u} [LinearOrder K]

/-- The order of keys in a direction. -/
def keyLe (descending : Bool) (a b : K) : Bool := if descending then b ≤ a else a ≤ b

/-- The positions of a row in the order of its stable sort. -/
def stableOrder (descending : Bool) (key : Nat → K) (n : Nat) : List Nat :=
  (List.range n).mergeSort fun i j => keyLe descending (key i) (key j)

theorem keyLe_trans {descending : Bool} {a b c : K} (hab : keyLe descending a b = true)
    (hbc : keyLe descending b c = true) : keyLe descending a c = true := by
  cases descending
  · exact decide_eq_true (le_trans (of_decide_eq_true hab) (of_decide_eq_true hbc))
  · exact decide_eq_true (le_trans (of_decide_eq_true hbc) (of_decide_eq_true hab))

theorem keyLe_total (descending : Bool) (a b : K) :
    (keyLe descending a b || keyLe descending b a) = true := by
  rw [Bool.or_eq_true]
  cases descending
  · exact (le_total a b).imp (fun h => decide_eq_true h) fun h => decide_eq_true h
  · exact (le_total b a).imp (fun h => decide_eq_true h) fun h => decide_eq_true h

theorem keyLe_antisymm {descending : Bool} {a b : K} (hab : keyLe descending a b = true)
    (hba : keyLe descending b a = true) : a = b := by
  cases descending
  · exact le_antisymm (of_decide_eq_true hab) (of_decide_eq_true hba)
  · exact le_antisymm (of_decide_eq_true hba) (of_decide_eq_true hab)

theorem stableOrder_perm (descending : Bool) (key : Nat → K) (n : Nat) :
    (stableOrder descending key n).Perm (List.range n) := List.mergeSort_perm _ _

/-- `_after` by the order of keys and positions. -/
theorem after_iff {descending : Bool} {a b : Pair K} : after descending a b = true ↔
    keyLe descending a.1 b.1 = false ∨ a.1 = b.1 ∧ b.2 < a.2 := by
  unfold after keyLe
  by_cases heq : a.1 = b.1
  · cases descending <;> simp [heq]
  · cases descending
    · simp [heq]
    · simp [heq]

end

/-! ## Ranks -/

/-- Pairs by key, those of one key by position. -/
def rankUp {K : Type u} (a : Pair K) : K ×ₗ Nat := toLex a

/-- The same, the keys the other way. -/
def rankDown {K : Type u} (a : Pair K) : Kᵒᵈ ×ₗ Nat := toLex (OrderDual.toDual a.1, a.2)

/-- Some order of pairs in which `_after` is coming later. -/
def RanksPairs {K : Type u} {L : Type v} [LinearOrder K] [LinearOrder L] (descending : Bool)
    (rank : Pair K → L) : Prop := ∀ a b, after descending a b = decide (rank b < rank a)

section
variable {K : Type u} [LinearOrder K]

theorem rankUp_ranks : RanksPairs (K := K) false rankUp := by
  intro a b
  refine Bool.eq_iff_iff.mpr (after_iff.trans ?_)
  rw [decide_eq_true_iff]
  unfold rankUp keyLe
  rw [Prod.Lex.toLex_lt_toLex]
  simp [eq_comm]

theorem rankDown_ranks : RanksPairs (K := K) true rankDown := by
  intro a b
  refine Bool.eq_iff_iff.mpr (after_iff.trans ?_)
  rw [decide_eq_true_iff]
  unfold rankDown keyLe
  rw [Prod.Lex.toLex_lt_toLex]
  simp [eq_comm]

theorem exists_rank (descending : Bool) : ∃ (L : Type u) (_ : LinearOrder L) (rank : Pair K → L),
    RanksPairs descending rank := by
  cases descending
  · exact ⟨K ×ₗ Nat, inferInstance, rankUp, rankUp_ranks⟩
  · exact ⟨Kᵒᵈ ×ₗ Nat, inferInstance, rankDown, rankDown_ranks⟩

end

section
variable {K : Type u} [LinearOrder K] {L : Type v} [LinearOrder L] {descending : Bool}
  {rank : Pair K → L} (hrank : RanksPairs descending rank)
include hrank

theorem RanksPairs.le_iff {a b : Pair K} : rank a ≤ rank b ↔
    keyLe descending a.1 b.1 = true ∧ (a.1 = b.1 → a.2 ≤ b.2) := by
  have hlt : rank b < rank a ↔ after descending a b = true := by
    rw [hrank a b, decide_eq_true_iff]
  rw [← not_lt, hlt, after_iff, not_or, Bool.not_eq_false, not_and, Nat.not_lt]

theorem RanksPairs.injective : Function.Injective rank := fun a b heq => by
  obtain ⟨hab, hle⟩ := hrank.le_iff.mp (le_of_eq heq)
  obtain ⟨hba, hge⟩ := hrank.le_iff.mp (le_of_eq heq.symm)
  have hkey := keyLe_antisymm hab hba
  exact Prod.ext hkey (Nat.le_antisymm (hle hkey) (hge hkey.symm))

/-- Padding lanes are last. -/
theorem RanksPairs.le_sentinel [BoundedOrder K] {a : Pair K} (ha : a.2 ≤ SENTINEL_IDX) :
    rank a ≤ rank (sentinel descending) := by
  refine hrank.le_iff.mpr ⟨?_, fun _ => ha⟩
  unfold sentinel sentinelKey keyLe
  cases descending
  · exact decide_eq_true le_top
  · exact decide_eq_true bot_le

/-- The pairs of a row in the order of its stable sort. -/
theorem stableOrder_pairwise (key : Nat → K) (n : Nat) :
    ((stableOrder descending key n).map fun i => rank (key i, i)).Pairwise (· ≤ ·) := by
  have hstable := @mergeSort_range_pairwise (fun i j => keyLe descending (key i) (key j))
    (fun a b c => keyLe_trans) (fun a b => keyLe_total descending (key a) (key b)) n
  refine List.pairwise_map.mpr (hstable.imp ?_)
  rintro i j ⟨hle, htie⟩
  refine hrank.le_iff.mpr ⟨hle, fun heq => Nat.le_of_lt (htie ?_)⟩
  dsimp only at heq
  have hself := keyLe_total descending (key j) (key j)
  rw [Bool.or_self] at hself
  rw [heq]
  exact hself

end

/-! ## The first pairs of a row -/

section
variable {K : Type u} [LinearOrder K] [BoundedOrder K] {L : Type v} [LinearOrder L]
  {descending : Bool} {rank : Pair K → L}

/-- A row's pair, or a padding lane past its end. -/
def padded (descending : Bool) (key : Nat → K) (n i : Nat) : Pair K :=
  if i < n then (key i, i) else sentinel descending

omit [LinearOrder L] in
/-- A row and padding. -/
theorem map_padded (key : Nat → K) {n N : Nat} (hn : n ≤ N) :
    (List.range N).map (fun i => rank (padded descending key n i)) =
      (List.range n).map (fun i => rank (key i, i)) ++
        List.replicate (N - n) (rank (sentinel descending)) := by
  rw [← map_range_pad (fun i => rank (key i, i)) _ hn]
  exact List.map_congr_left fun i _ => apply_ite rank _ _ _

/-- The beginning of a row and padding is that of its stable sort. -/
theorem stableOrder_least (hrank : RanksPairs descending rank) (key : Nat → K) {n k : Nat} (z : Nat)
    (hn : n ≤ SENTINEL_IDX) (hk : k ≤ n) :
    Least (↑((List.range n).map (fun i => rank (key i, i)) ++
        List.replicate z (rank (sentinel descending))))
      (((stableOrder descending key n).take k).map fun i => rank (key i, i)) := by
  have hperm := stableOrder_perm descending key n
  have hlen : ((stableOrder descending key n).map fun i => rank (key i, i)).length = n := by
    rw [List.length_map, hperm.length_eq, List.length_range]
  have hsorted : ((stableOrder descending key n).map (fun i => rank (key i, i)) ++
      List.replicate z (rank (sentinel descending))).Pairwise (· ≤ ·) := by
    refine List.pairwise_append.mpr ⟨stableOrder_pairwise hrank key n,
      List.pairwise_replicate.mpr (.inr (le_refl _)), fun a ha b hb => ?_⟩
    obtain ⟨i, hi, rfl⟩ := List.mem_map.mp ha
    rw [List.eq_of_mem_replicate hb]
    have hlt := List.mem_range.mp (hperm.mem_iff.mp hi)
    exact hrank.le_sentinel (by dsimp only; omega)
  have htake := Least.take hsorted k
  rw [List.take_append_of_le_length (by omega), ← List.map_take] at htake
  rwa [Multiset.coe_eq_coe.mpr ((hperm.map fun i => rank (key i, i)).append_right _)] at htake

/-- What has the beginning of a row and padding first has its stable sort first. -/
theorem eq_stableOrder (hrank : RanksPairs descending rank) {key : Nat → K} {n k z : Nat}
    (hn : n ≤ SENTINEL_IDX) (hk : k ≤ n) {v : Nat → Pair K}
    (h : Least (↑((List.range n).map (fun i => rank (key i, i)) ++
        List.replicate z (rank (sentinel descending)))) ((List.range k).map fun i => rank (v i))) :
    (List.range k).map v = ((stableOrder descending key n).take k).map fun i => (key i, i) := by
  have hlen : ((stableOrder descending key n).take k).length = k := by
    rw [List.length_take, (stableOrder_perm descending key n).length_eq, List.length_range,
      Nat.min_eq_left hk]
  have heq := h.unique (stableOrder_least hrank key z hn hk)
    (by rw [List.length_map, List.length_map, List.length_range, hlen])
  refine List.map_injective_iff.mpr hrank.injective ?_
  rw [List.map_map, List.map_map]
  exact heq

end

end TorchMojoBackend.Kernels.RowSort
