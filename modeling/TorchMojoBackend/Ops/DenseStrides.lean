/-
  `Ops.DenseStrides`: dense layouts and the dense layout like a given one.

  Source: tmb/backend/abi.mojo (`contiguous_strides`, `is_dense`, `_stride_order_less`,
  `dense_strides_like`, `_should_swap`).

  A shape and strides are given by dimension; the padding in front of them is left out.
  `is_dense` is `isDense` of `Kernels.ForeachCopy`.
-/
import TorchMojoBackend.Foundation.DenseLayout
import TorchMojoBackend.Kernels.ForeachCopy

set_option autoImplicit false

namespace TorchMojoBackend.Ops.DenseStrides

open TorchMojoBackend.Foundation
open TorchMojoBackend.Kernels.ForeachCopy

/-- The last loop of `dense_strides_like`: strides that grow in the order of the dimensions. -/
def fillStrides (shape : Nat → Nat) (order : Nat → Nat) (rank : Nat) : Nat → Nat :=
  ((List.range rank).foldl
    (fun s i => (Function.update s.1 (order i) s.2, s.2 * shape (order i)))
    ((fun _ => 0, 1) : (Nat → Nat) × Nat)).1

/-- `contiguous_strides`. -/
def contiguousStrides (shape : Nat → Nat) (rank : Nat) : Nat → Nat :=
  fillStrides shape (fun k => rank - 1 - k) rank

/-- `_should_swap`. -/
def shouldSwap (shape : Nat → Nat) (strides : Nat → Int) (d0 d1 : Nat) : Int :=
  if strides d0 = 0 ∨ strides d1 = 0 then 0
  else if strides d0 < strides d1 then -1
  else if strides d0 > strides d1 then 1
  else if shape d0 > shape d1 then 1
  else 0

def swapAt (perm : Nat → Nat) (a b : Nat) : Nat → Nat := fun k =>
  if k = a then perm b else if k = b then perm a else perm k

/-- The inner loop of the sort, with the positions below the first argument to visit. -/
def sink (shape : Nat → Nat) (strides : Nat → Int) : Nat → Nat → (Nat → Nat) → Nat → Nat
  | 0, _, perm => perm
  | dim0 + 1, dim1, perm =>
    let cmp := shouldSwap shape strides (perm dim0) (perm dim1)
    if cmp > 0 then sink shape strides dim0 dim0 (swapAt perm dim0 dim1)
    else if cmp < 0 then perm
    else sink shape strides dim0 dim1 perm

/-- The dimensions in the order of `dense_strides_like`. -/
def sortedDims (shape : Nat → Nat) (strides : Nat → Int) (rank : Nat) : Nat → Nat :=
  (List.range' 1 (rank - 1)).foldl (fun perm i => sink shape strides i i perm)
    fun i => rank - 1 - i

/-- `dense_strides_like`. -/
def denseStridesLike (shape : Nat → Nat) (strides : Nat → Int) (rank : Nat) : Nat → Nat :=
  if rank ≤ 1 then contiguousStrides shape rank
  else fillStrides shape (sortedDims shape strides rank) rank

/-- The dimensions as `is_dense` takes them. -/
def dimsOf (shape : Nat → Nat) (strides : Nat → Int) (rank : Nat) : List (Nat × Int) :=
  (List.range rank).map fun d => (shape d, strides d)

/-! ## `is_dense` -/

/-- A dimension of a tensor as one of a layout. -/
def toDim (d : Nat × Int) : Dim Int := ⟨d.1, d.2⟩

theorem strideOrderLess_asymm {a b : Nat × Int} (h : strideOrderLess a b = true) :
    strideOrderLess b a = false := by
  unfold strideOrderLess at h ⊢
  split at h
  · exact nomatch h
  · split at h
    · rename_i hb
      rw [if_pos hb]
    · rename_i ha hb
      rw [if_neg hb, if_neg ha]
      simp only [decide_eq_true_eq] at h
      exact decide_eq_false (by omega)

/-- No stride comes between. -/
theorem strideOrderLess_trans {a b c : Nat × Int} (hab : strideOrderLess a b = false)
    (hbc : strideOrderLess b c = false) : strideOrderLess a c = false := by
  unfold strideOrderLess at hab hbc ⊢
  grind

/-- Sorted dimensions, the last one first. -/
def SortedRev (l : List (Nat × Int)) : Prop := l.Pairwise fun x y => strideOrderLess x y = false

theorem mem_insertDim {key x : Nat × Int} {l : List (Nat × Int)} :
    x ∈ insertDim key l ↔ x = key ∨ x ∈ l := by
  induction l with
  | nil => simp [insertDim]
  | cons d l ih =>
      unfold insertDim
      split
      · rw [List.mem_cons, ih, List.mem_cons]
        tauto
      · rw [List.mem_cons]

theorem insertDim_perm (key : Nat × Int) (l : List (Nat × Int)) :
    (insertDim key l).Perm (key :: l) := by
  induction l with
  | nil => exact List.Perm.refl _
  | cons d l ih =>
      unfold insertDim
      split
      · exact (ih.cons d).trans (List.Perm.swap key d l)
      · exact List.Perm.refl _

theorem sortedRev_insertDim (key : Nat × Int) {l : List (Nat × Int)} (h : SortedRev l) :
    SortedRev (insertDim key l) := by
  induction l with
  | nil => exact List.pairwise_singleton _ _
  | cons d l ih =>
      obtain ⟨hd, hl⟩ := List.pairwise_cons.mp h
      unfold insertDim
      split
      · rename_i hless
        refine List.pairwise_cons.mpr ⟨fun x hx => ?_, ih hl⟩
        rcases mem_insertDim.mp hx with rfl | hx
        · exact strideOrderLess_asymm hless
        · exact hd x hx
      · rename_i hnot
        rw [Bool.not_eq_true] at hnot
        refine List.pairwise_cons.mpr ⟨fun x hx => ?_, h⟩
        rcases List.mem_cons.mp hx with rfl | hx
        · exact hnot
        · exact strideOrderLess_trans hnot (hd x hx)

/-- The dimensions as `is_dense` sorts them. -/
def sortDims (dims : List (Nat × Int)) : List (Nat × Int) :=
  (dims.foldl (fun sorted key => insertDim key sorted) []).reverse

theorem sortDims_perm (dims : List (Nat × Int)) : (sortDims dims).Perm dims := by
  have hfold : ∀ l acc : List (Nat × Int),
      (l.foldl (fun sorted key => insertDim key sorted) acc).Perm (l ++ acc) := by
    intro l
    induction l with
    | nil => exact fun acc => List.Perm.refl _
    | cons d l ih =>
        intro acc
        refine (ih _).trans (((insertDim_perm d acc).append_left l).trans ?_)
        exact List.perm_middle
  refine (List.reverse_perm _).trans ((hfold dims []).trans ?_)
  rw [List.append_nil]

theorem sortDims_sorted (dims : List (Nat × Int)) :
    (sortDims dims).Pairwise fun x y => strideOrderLess y x = false := by
  have hfold : ∀ l acc : List (Nat × Int), SortedRev acc →
      SortedRev (l.foldl (fun sorted key => insertDim key sorted) acc) := by
    intro l
    induction l with
    | nil => exact fun acc h => h
    | cons d l ih => exact fun acc h => ih _ (sortedRev_insertDim d h)
  exact List.pairwise_reverse.mpr (hfold dims [] List.Pairwise.nil)

/-- Over sorted dimensions the check is that of a chain. -/
theorem denseFrom_iff {dims : List (Nat × Int)} {require : Nat}
    (hsorted : dims.Pairwise fun x y => strideOrderLess y x = false) :
    denseFrom require dims = true ↔
      Chain require ((dims.map toDim).filter fun d => decide (2 ≤ d.extent)) := by
  induction dims generalizing require with
  | nil => exact iff_of_true rfl trivial
  | cons d dims ih =>
      obtain ⟨size, stride⟩ := d
      obtain ⟨hd, hdims⟩ := List.pairwise_cons.mp hsorted
      unfold denseFrom
      by_cases hsmall : size < 2
      · -- the rest have one element too
        have hnil : (((size, stride) :: dims).map toDim).filter
            (fun d => decide (2 ≤ d.extent)) = [] := by
          rw [List.filter_eq_nil_iff]
          intro e he
          obtain ⟨x, hx, rfl⟩ := List.mem_map.mp he
          have hx2 : x.1 < 2 := by
            rcases List.mem_cons.mp hx with rfl | hx
            · exact hsmall
            · by_contra hge
              have hless := hd x hx
              rw [strideOrderLess, if_neg hge, if_pos hsmall] at hless
              exact nomatch hless
          exact fun h => absurd (of_decide_eq_true h) (not_le.mpr hx2)
        rw [if_pos hsmall, hnil]
        exact iff_of_true rfl trivial
      · have hcons : (((size, stride) :: dims).map toDim).filter (fun d => decide (2 ≤ d.extent)) =
            toDim (size, stride) :: (dims.map toDim).filter fun d => decide (2 ≤ d.extent) :=
          List.filter_cons_of_pos (decide_eq_true (not_lt.mp hsmall))
        rw [if_neg hsmall, hcons]
        by_cases hstride : stride = require
        · rw [if_neg (not_not.mpr hstride)]
          have hmul : ((require : Int) * size) = ((require * size : Nat) : Int) := by push_cast; rfl
          rw [hmul, ih hdims]
          exact ⟨fun h => ⟨hstride, h⟩, fun h => h.2⟩
        · rw [if_pos hstride]
          exact iff_of_false (by decide) fun h => hstride h.1

/-- The dimensions of two elements and more, sorted, are sorted by stride. -/
theorem filter_sorted {dims : List (Nat × Int)}
    (hsorted : dims.Pairwise fun x y => strideOrderLess y x = false) :
    ((dims.map toDim).filter fun d => decide (2 ≤ d.extent)).Pairwise
      fun d e => d.stride ≤ e.stride := by
  rw [List.pairwise_filter, List.pairwise_map]
  refine hsorted.imp fun {x y} h hx hy => ?_
  have hx' : ¬x.1 < 2 := not_lt.mpr (of_decide_eq_true hx)
  have hy' : ¬y.1 < 2 := not_lt.mpr (of_decide_eq_true hy)
  rw [strideOrderLess, if_neg hy', if_neg hx', decide_eq_false_iff_not] at h
  exact not_lt.mp h

/-- A layout without empty dimensions and negative strides is found dense just if it is. -/
theorem isDense_iff_dense {dims : List (Nat × Int)} (hsize : ∀ d ∈ dims, d.1 ≠ 0)
    (hstride : ∀ d ∈ dims, 0 ≤ d.2) : isDense dims = true ↔ Dense (dims.map toDim) := by
  have hperm := sortDims_perm dims
  have hsort : denseFrom 1 (sortDims dims) = true ↔ Dense (dims.map toDim) := by
    have hne : ∀ d ∈ (sortDims dims).map toDim, d.extent ≠ 0 := by
      intro d hd
      obtain ⟨x, hx, rfl⟩ := List.mem_map.mp hd
      exact hsize x (hperm.mem_iff.mp hx)
    have hchain : denseFrom 1 _ = true ↔ _ := denseFrom_iff (sortDims_sorted dims)
    rw [← dense_perm (hperm.map toDim), ← dense_filter hne, dense_iff_chain ?_ ?_
      (filter_sorted (sortDims_sorted dims))]
    · exact hchain
    · intro d hd
      simpa using (List.mem_filter.mp hd).2
    · intro d hd
      obtain ⟨x, hx, rfl⟩ := List.mem_map.mp (List.mem_filter.mp hd).1
      exact hstride x (hperm.mem_iff.mp hx)
  rw [← hsort]
  match dims, hsize with
  | [], _ => exact Iff.rfl
  | [(size, stride)], _ =>
      change (decide (size < 2) || decide (stride = 1)) = true ↔
        (if size < 2 then true else if stride ≠ 1 then false else true) = true
      by_cases hsmall : size < 2
      · simp [hsmall]
      · by_cases hone : stride = 1 <;> simp [hsmall, hone]
  | _ :: _ :: _, _ => exact Iff.rfl

/-! ## The order of `dense_strides_like` -/

/-- The dimensions at the first positions, each once. -/
def Arranged (rank : Nat) (perm : Nat → Nat) : Prop :=
  ((List.range rank).map perm).Perm (List.range rank)

theorem Arranged.lt {rank : Nat} {perm : Nat → Nat} (h : Arranged rank perm) {i : Nat}
    (hi : i < rank) : perm i < rank :=
  List.mem_range.mp (h.mem_iff.mp (List.mem_map_of_mem (List.mem_range.mpr hi)))

theorem Arranged.inj {rank : Nat} {perm : Nat → Nat} (h : Arranged rank perm) {i j : Nat}
    (hi : i < rank) (hj : j < rank) (heq : perm i = perm j) : i = j :=
  List.inj_on_of_nodup_map (h.nodup_iff.mpr List.nodup_range) (List.mem_range.mpr hi)
    (List.mem_range.mpr hj) heq

theorem Arranged.exists_pos {rank : Nat} {perm : Nat → Nat} (h : Arranged rank perm) {d : Nat}
    (hd : d < rank) : ∃ i, i < rank ∧ perm i = d := by
  obtain ⟨i, hi, hperm⟩ := List.mem_map.mp (h.mem_iff.mpr (List.mem_range.mpr hd))
  exact ⟨i, List.mem_range.mp hi, hperm⟩

/-- Different dimensions below the rank are all of them. -/
theorem arranged_of_inj {rank : Nat} {perm : Nat → Nat} (hlt : ∀ i, i < rank → perm i < rank)
    (hinj : ∀ i j, i < rank → j < rank → perm i = perm j → i = j) : Arranged rank perm := by
  have hnd : ((List.range rank).map perm).Nodup :=
    List.Nodup.map_on (fun i hi j hj => hinj i j (List.mem_range.mp hi) (List.mem_range.mp hj))
      List.nodup_range
  refine (hnd.subperm fun d hd => ?_).perm_of_length_le (by simp)
  obtain ⟨i, hi, rfl⟩ := List.mem_map.mp hd
  exact List.mem_range.mpr (hlt i (List.mem_range.mp hi))

theorem arranged_reverse (rank : Nat) : Arranged rank fun i => rank - 1 - i :=
  arranged_of_inj (fun i hi => by omega) fun i j hi hj h => by omega

theorem swapAt_apply (perm : Nat → Nat) (a b k : Nat) :
    swapAt perm a b k = perm (Equiv.swap a b k) := by
  rw [Equiv.swap_apply_def, apply_ite perm, apply_ite perm]
  rfl

theorem Arranged.swapAt {rank : Nat} {perm : Nat → Nat} (h : Arranged rank perm) {a b : Nat}
    (ha : a < rank) (hb : b < rank) : Arranged rank (swapAt perm a b) := by
  have hlt : ∀ i, i < rank → Equiv.swap a b i < rank := by
    intro i hi
    rw [Equiv.swap_apply_def]
    split
    · exact hb
    · split
      · exact ha
      · exact hi
  refine arranged_of_inj (fun i hi => ?_) fun i j hi hj heq => ?_
  · rw [swapAt_apply]
    exact h.lt (hlt i hi)
  · rw [swapAt_apply, swapAt_apply] at heq
    exact (Equiv.swap a b).injective (h.inj (hlt i hi) (hlt j hj) heq)

section
variable {shape : Nat → Nat} {strides : Nat → Int}

theorem Arranged.sink {rank : Nat} {m dim1 : Nat} {perm : Nat → Nat} (h : Arranged rank perm)
    (hm : m ≤ dim1) (hdim1 : dim1 < rank) : Arranged rank (sink shape strides m dim1 perm) := by
  induction m generalizing dim1 perm with
  | zero => exact h
  | succ m ih =>
      unfold DenseStrides.sink
      dsimp only
      split
      · exact ih (h.swapAt (by omega) hdim1) (Nat.le_refl m) (by omega)
      · split
        · exact h
        · exact ih h (by omega) hdim1

/-- A dimension that may stand before another: its stride is smaller, or the strides are the same
and it is not larger. -/
def Below (shape : Nat → Nat) (strides : Nat → Int) (a b : Nat) : Prop :=
  strides a < strides b ∨ strides a = strides b ∧ shape a ≤ shape b

/-- Up to a position the dimensions are in order, those of stride zero apart. -/
def OrderedTo (shape : Nat → Nat) (strides : Nat → Int) (perm : Nat → Nat) (i : Nat) : Prop :=
  ∀ j k, j < k → k ≤ i → strides (perm j) ≠ 0 → strides (perm k) ≠ 0 →
    Below shape strides (perm j) (perm k)

/-- While the dimension at `dim1` sinks, the others are in order, it is before those on its right,
and no dimension between it and the next one to compare stands wrong. -/
structure Sinking (shape : Nat → Nat) (strides : Nat → Int) (perm : Nat → Nat)
    (i m dim1 : Nat) : Prop where
  le : m ≤ dim1
  dim1_le : dim1 ≤ i
  others : ∀ j k, j < k → k ≤ i → j ≠ dim1 → k ≠ dim1 → strides (perm j) ≠ 0 →
    strides (perm k) ≠ 0 → Below shape strides (perm j) (perm k)
  right : ∀ k, dim1 < k → k ≤ i → strides (perm dim1) ≠ 0 → strides (perm k) ≠ 0 →
    Below shape strides (perm dim1) (perm k)
  passed : ∀ j, m ≤ j → j < dim1 → strides (perm j) ≠ 0 → strides (perm dim1) ≠ 0 →
    Below shape strides (perm j) (perm dim1)

/-- What a comparison tells. -/
theorem shouldSwap_cases (d0 d1 : Nat) :
    (shouldSwap shape strides d0 d1 > 0 ∧ strides d0 ≠ 0 ∧ strides d1 ≠ 0 ∧
      Below shape strides d1 d0 ∧ ¬Below shape strides d0 d1) ∨
    (shouldSwap shape strides d0 d1 < 0 ∧ strides d0 ≠ 0 ∧ strides d0 < strides d1) ∨
    (shouldSwap shape strides d0 d1 = 0 ∧ (strides d0 ≠ 0 → strides d1 ≠ 0 →
      Below shape strides d0 d1)) := by
  unfold shouldSwap Below
  grind

theorem Below.trans {a b c : Nat} (hab : Below shape strides a b) (hbc : Below shape strides b c) :
    Below shape strides a c := by
  unfold Below at *
  omega

/-- A dimension that has sunk to its place completes the order. -/
theorem Sinking.ordered {perm : Nat → Nat} {i m dim1 : Nat}
    (h : Sinking shape strides perm i m dim1)
    (hleft : ∀ j, j < m → strides (perm j) ≠ 0 → strides (perm dim1) ≠ 0 →
      Below shape strides (perm j) (perm dim1)) : OrderedTo shape strides perm i := by
  intro j k hjk hk hj0 hk0
  by_cases hj : j = dim1
  · subst hj
    exact h.right k hjk hk hj0 hk0
  · by_cases hk' : k = dim1
    · subst hk'
      by_cases hm : j < m
      · exact hleft j hm hj0 hk0
      · exact h.passed j (by omega) hjk hj0 hk0
    · exact h.others j k hjk hk hj hk' hj0 hk0

/-- The exchange of the sinking dimension with a larger one further left. -/
theorem Sinking.swap {perm : Nat → Nat} {i m dim1 : Nat}
    (h : Sinking shape strides perm i (m + 1) dim1) (hm0 : strides (perm m) ≠ 0)
    (h10 : strides (perm dim1) ≠ 0) (hbelow : Below shape strides (perm dim1) (perm m))
    (hnot : ¬Below shape strides (perm m) (perm dim1)) :
    Sinking shape strides (swapAt perm m dim1) i m m := by
  have hle := h.le
  have hi := h.dim1_le
  have hat_m : swapAt perm m dim1 m = perm dim1 := if_pos rfl
  have hat_dim1 : swapAt perm m dim1 dim1 = perm m := by
    rw [swapAt, if_neg (by omega), if_pos rfl]
  have hat : ∀ k, k ≠ m → k ≠ dim1 → swapAt perm m dim1 k = perm k := by
    intro k hkm hk1
    rw [swapAt, if_neg hkm, if_neg hk1]
  -- a dimension between the two that is not of stride zero would put them in order
  have hnone : ∀ j, m < j → j < dim1 → strides (perm j) = 0 := by
    intro j hmj hj1
    by_contra hj0
    refine hnot ((h.others m j hmj (by omega) (by omega) (by omega) hm0 hj0).trans ?_)
    exact h.passed j hmj hj1 hj0 h10
  refine ⟨Nat.le_refl m, by omega, fun j k hjk hk hjm hkm hj0 hk0 => ?_,
    fun k hmk hk hm0' hk0 => ?_, fun j hmj hjm => absurd hjm (by omega)⟩
  · by_cases hj1 : j = dim1
    · subst hj1
      rw [hat_dim1, hat k (by omega) (by omega)] at *
      exact h.others m k (by omega) hk (by omega) (by omega) hj0 hk0
    · rw [hat j hjm hj1] at hj0 ⊢
      by_cases hk1 : k = dim1
      · subst hk1
        rw [hat_dim1] at hk0 ⊢
        by_cases hlt : j < m
        · exact h.others j m hlt (by omega) hj1 (by omega) hj0 hk0
        · exact absurd (hnone j (by omega) hjk) hj0
      · rw [hat k hkm hk1] at hk0 ⊢
        exact h.others j k hjk hk hj1 hk1 hj0 hk0
  · rw [hat_m]
    by_cases hk1 : k = dim1
    · subst hk1
      rw [hat_dim1]
      exact hbelow
    · rw [hat k (by omega) hk1] at hk0 ⊢
      by_cases hlt : k < dim1
      · exact absurd (hnone k hmk hlt) hk0
      · exact h.right k (by omega) hk h10 hk0

theorem sink_ordered {perm : Nat → Nat} {i m dim1 : Nat}
    (h : Sinking shape strides perm i m dim1) :
    OrderedTo shape strides (sink shape strides m dim1 perm) i := by
  induction m generalizing dim1 perm with
  | zero => exact h.ordered fun j hj => absurd hj (Nat.not_lt_zero j)
  | succ m ih =>
      unfold sink
      dsimp only
      have hcases := @shouldSwap_cases shape strides (perm m) (perm dim1)
      rcases hcases with ⟨hcmp, hm0, h10, hbelow, hnot⟩ | ⟨hcmp, hm0, hlt⟩ | ⟨hcmp, hkeep⟩
      · rw [if_pos hcmp]
        exact ih (h.swap hm0 h10 hbelow hnot)
      · -- the dimensions further left are not larger than the one it stops at
        rw [if_neg (by omega), if_pos hcmp]
        refine h.ordered fun j hj hj0 h10 => ?_
        have hle := h.le
        have hi := h.dim1_le
        by_cases hjm : j = m
        · subst hjm
          exact Or.inl hlt
        · exact (h.others j m (by omega) (by omega) (by omega) (by omega) hj0 hm0).trans (Or.inl hlt)
      · rw [if_neg (by omega), if_neg (by omega)]
        refine ih ⟨by have := h.le; omega, h.dim1_le, h.others, h.right, fun j hj hj1 => ?_⟩
        by_cases hjm : j = m
        · subst hjm
          exact hkeep
        · exact h.passed j (by omega) hj1

theorem sortedDims_arranged (rank : Nat) : Arranged rank (sortedDims shape strides rank) := by
  have hfold : ∀ l : List Nat, (∀ i ∈ l, i < rank) → ∀ perm, Arranged rank perm →
      Arranged rank (l.foldl (fun perm i => sink shape strides i i perm) perm) := by
    intro l
    induction l with
    | nil => exact fun _ perm h => h
    | cons i l ih =>
        intro hlt perm h
        refine ih (fun j hj => hlt j (List.mem_cons_of_mem _ hj)) _ ?_
        exact h.sink (Nat.le_refl i) (hlt i List.mem_cons_self)
  refine hfold _ (fun i hi => ?_) _ (arranged_reverse rank)
  rw [List.mem_range'_1] at hi
  omega

/-- In the order of `dense_strides_like` the dimensions are sorted by stride, those of stride zero
apart. -/
theorem sortedDims_ordered (rank : Nat) :
    OrderedTo shape strides (sortedDims shape strides rank) (rank - 1) := by
  have hfold : ∀ n perm, OrderedTo shape strides
      ((List.range' 1 n).foldl (fun perm i => sink shape strides i i perm) perm) n := by
    intro n perm
    induction n with
    | zero => exact fun j k hjk hk => absurd hk (by omega)
    | succ n ih =>
        rw [List.range'_concat, List.foldl_append, Nat.one_mul, Nat.add_comm 1 n]
        refine sink_ordered ⟨Nat.le_refl _, Nat.le_refl _, fun j k hjk hk hj hk1 => ?_,
          fun k hk hk' => absurd hk' (by omega), fun j hj hj' => absurd hj' (by omega)⟩
        exact ih j k hjk (by omega)
  exact hfold (rank - 1) _

end

/-! ## The strides it fills in -/

/-- The number of elements of the dimensions at the first `n` positions. -/
def sizeBefore (shape : Nat → Nat) (order : Nat → Nat) (n : Nat) : Nat :=
  ((List.range n).map fun i => shape (order i)).prod

@[simp] theorem sizeBefore_succ (shape : Nat → Nat) (order : Nat → Nat) (n : Nat) :
    sizeBefore shape order (n + 1) = sizeBefore shape order n * shape (order n) := by
  rw [sizeBefore, List.range_succ, List.map_append, List.prod_append]
  exact congrArg (_ * ·) (Nat.mul_one _)

/-- A dimension's stride is the number of elements of those before it. -/
theorem fillStrides_order {shape order : Nat → Nat} {rank : Nat} (h : Arranged rank order) {i : Nat}
    (hi : i < rank) : fillStrides shape order rank (order i) = sizeBefore shape order i := by
  have hfold : ∀ n, n ≤ rank → ∀ s, s = (List.range n).foldl
      (fun s i => (Function.update s.1 (order i) s.2, s.2 * shape (order i)))
      ((fun _ => 0, 1) : (Nat → Nat) × Nat) →
      s.2 = sizeBefore shape order n ∧ ∀ j, j < n → s.1 (order j) = sizeBefore shape order j := by
    intro n
    induction n with
    | zero => exact fun _ s hs => hs ▸ ⟨rfl, fun j hj => absurd hj (Nat.not_lt_zero j)⟩
    | succ n ih =>
        intro hn s hs
        obtain ⟨hacc, hout⟩ := ih (by omega) _ rfl
        rw [List.range_succ, List.foldl_append, List.foldl_cons, List.foldl_nil] at hs
        subst hs
        refine ⟨by rw [sizeBefore_succ, ← hacc], fun j hj => ?_⟩
        dsimp only
        by_cases hjn : j = n
        · subst hjn
          rw [Function.update_self, hacc]
        · have hne : order j ≠ order n := fun heq => hjn (h.inj (by omega) (by omega) heq)
          rw [Function.update_of_ne hne]
          exact hout j (by omega)
  exact (hfold rank (Nat.le_refl rank) _ rfl).2 i hi

/-- The dimensions of the filled-in layout, in their order. -/
theorem chain_fillStrides {shape order : Nat → Nat} {rank : Nat} (h : Arranged rank order) :
    Chain 1 ((List.range rank).map fun i =>
      (⟨shape (order i), (fillStrides shape order rank (order i) : Nat)⟩ : Dim Int)) := by
  have hchain : ∀ n start, start + n = rank → Chain (sizeBefore shape order start)
      ((List.range' start n).map fun i =>
        (⟨shape (order i), (fillStrides shape order rank (order i) : Nat)⟩ : Dim Int)) := by
    intro n
    induction n with
    | zero => exact fun _ _ => trivial
    | succ n ih =>
        intro start hstart
        rw [List.range'_succ, List.map_cons]
        refine ⟨congrArg Nat.cast (fillStrides_order h (by omega)), ?_⟩
        dsimp only
        rw [← sizeBefore_succ]
        exact ih (start + 1) (by omega)
  rw [List.range_eq_range']
  exact hchain rank 0 (by omega)

/-- The dimensions in another order. -/
theorem dense_order {shape order : Nat → Nat} {strides : Nat → Int} {rank : Nat}
    (h : Arranged rank order) :
    Dense ((List.range rank).map fun i => ⟨shape (order i), strides (order i)⟩) ↔
      Dense ((List.range rank).map fun d => ⟨shape d, strides d⟩) := by
  have hperm := h.map fun d => (⟨shape d, strides d⟩ : Dim Int)
  rw [List.map_map] at hperm
  exact dense_perm hperm

theorem dense_fillStrides {shape order : Nat → Nat} {rank : Nat} (h : Arranged rank order) :
    Dense ((List.range rank).map fun d => ⟨shape d, (fillStrides shape order rank d : Nat)⟩) := by
  have horder := @dense_order shape order (fun d => (fillStrides shape order rank d : Nat)) rank h
  rw [← horder, ← dense_cons_one (d := ⟨1, 1⟩) rfl]
  exact dense_of_chain (chain_fillStrides h)

theorem denseStridesLike_eq (shape : Nat → Nat) (strides : Nat → Int) (rank : Nat) :
    denseStridesLike shape strides rank =
      fillStrides shape (sortedDims shape strides rank) rank := by
  unfold denseStridesLike
  split
  · rename_i hrank
    have hnone : List.range' 1 (rank - 1) = [] := by
      rw [show rank - 1 = 0 by omega]
      rfl
    rw [sortedDims, hnone]
    rfl
  · rfl

theorem sizeBefore_pos {shape order : Nat → Nat} {rank i : Nat}
    (hpos : ∀ k, k < rank → shape (order k) ≠ 0) (hi : i ≤ rank) :
    0 < sizeBefore shape order i := by
  induction i with
  | zero => exact Nat.one_pos
  | succ i ih =>
      rw [sizeBefore_succ]
      exact Nat.mul_pos (ih (by omega)) (Nat.pos_of_ne_zero (hpos i (by omega)))

/-- The positions before one make up no more elements. -/
theorem sizeBefore_le {shape order : Nat → Nat} {rank i j : Nat}
    (hpos : ∀ k, k < rank → shape (order k) ≠ 0) (hij : i < j) (hj : j < rank) :
    sizeBefore shape order i * shape (order i) ≤ sizeBefore shape order j := by
  induction j with
  | zero => exact absurd hij (Nat.not_lt_zero i)
  | succ j ih =>
      by_cases hlast : i = j
      · subst hlast
        exact (sizeBefore_succ shape order i).ge
      · rw [sizeBefore_succ shape order j]
        refine (ih (by omega) (by omega)).trans (Nat.le_mul_of_pos_right _ ?_)
        exact Nat.pos_of_ne_zero (hpos j (by omega))

theorem toDim_dimsOf (shape : Nat → Nat) (strides : Nat → Int) (rank : Nat) :
    (dimsOf shape strides rank).map toDim = (List.range rank).map fun d => ⟨shape d, strides d⟩ := by
  rw [dimsOf, List.map_map]
  rfl

section
variable {shape : Nat → Nat} {strides : Nat → Int} {rank : Nat}
  (hshape : ∀ d, d < rank → shape d ≠ 0)
include hshape

theorem isDense_dimsOf (hstrides : ∀ d, d < rank → 0 ≤ strides d) :
    isDense (dimsOf shape strides rank) = true ↔
      Dense ((List.range rank).map fun d => ⟨shape d, strides d⟩) := by
  rw [← toDim_dimsOf]
  refine isDense_iff_dense (fun d hd => ?_) fun d hd => ?_
  · obtain ⟨k, hk, rfl⟩ := List.mem_map.mp hd
    exact hshape k (List.mem_range.mp hk)
  · obtain ⟨k, hk, rfl⟩ := List.mem_map.mp hd
    exact hstrides k (List.mem_range.mp hk)

/-- A dense layout is one to one onto the numbers below its count. -/
theorem isDense_iff_bijOn (hstrides : ∀ d, d < rank → 0 ≤ strides d) :
    isDense (dimsOf shape strides rank) = true ↔
      Set.BijOn (fun x : Fin rank → Nat => ∑ i, x i * strides i) {x | ∀ i, x i < shape i}
        (Set.Ico 0 ((∏ i : Fin rank, shape i : Nat) : Int)) := by
  have hofFn : (List.range rank).map (fun d => (⟨shape d, strides d⟩ : Dim Int)) =
      List.ofFn fun i : Fin rank => ⟨shape i, strides i⟩ :=
    List.ext_getElem (by simp) fun k h1 h2 => by simp
  rw [isDense_dimsOf hshape hstrides, hofFn]
  exact dense_ofFn_iff (fun i : Fin rank => shape i) fun i : Fin rank => strides i

theorem isDense_denseStridesLike :
    isDense (dimsOf shape (fun d => (denseStridesLike shape strides rank d : Nat)) rank) = true := by
  rw [isDense_dimsOf hshape fun d _ => Int.natCast_nonneg _, denseStridesLike_eq]
  exact dense_fillStrides (sortedDims_arranged rank)

/-- A dense layout keeps its strides. -/
theorem denseStridesLike_of_dense (hstrides : ∀ d, d < rank → 0 ≤ strides d)
    (hdense : isDense (dimsOf shape strides rank) = true) {d : Nat} (hd : d < rank)
    (htwo : 2 ≤ shape d) : (denseStridesLike shape strides rank d : Int) = strides d := by
  have harr : Arranged rank (sortedDims shape strides rank) := sortedDims_arranged rank
  have hord : OrderedTo shape strides (sortedDims shape strides rank) (rank - 1) :=
    sortedDims_ordered rank
  generalize hσ : sortedDims shape strides rank = σ at harr hord
  rw [isDense_dimsOf hshape hstrides, ← dense_order harr] at hdense
  have hpos : ∀ e ∈ (List.range rank).map (fun i => (⟨shape (σ i), strides (σ i)⟩ : Dim Int)),
      e.extent ≠ 0 := by
    intro e he
    obtain ⟨k, hk, rfl⟩ := List.mem_map.mp he
    exact hshape _ (harr.lt (List.mem_range.mp hk))
  have hne : ∀ i, i < rank → 2 ≤ shape (σ i) → strides (σ i) ≠ 0 := by
    intro i hi
    exact stride_ne_zero hdense hpos (List.mem_map_of_mem (List.mem_range.mpr hi))
  -- sorted by stride, the dimensions of two elements and more are a chain
  have hchain := (dense_filter hpos).mpr hdense
  rw [dense_iff_chain (fun e he => of_decide_eq_true (List.mem_filter.mp he).2) ?_ ?_] at hchain
  · obtain ⟨i, hi, rfl⟩ := harr.exists_pos hd
    have hstride := stride_of_chain hpos hchain i (by simpa using hi) (by simpa using htwo)
    rw [denseStridesLike_eq, hσ, fillStrides_order harr hi]
    simp only [List.getElem_map, List.getElem_range] at hstride
    rw [hstride, Nat.one_mul, ← List.map_take, List.take_range, Nat.min_eq_left hi.le,
      List.map_map]
    rfl
  · intro e he
    obtain ⟨k, hk, rfl⟩ := List.mem_map.mp (List.mem_filter.mp he).1
    exact hstrides _ (harr.lt (List.mem_range.mp hk))
  · rw [List.pairwise_filter, List.pairwise_map]
    refine List.pairwise_lt_range.imp_of_mem fun {i j} hi hj hij hi2 hj2 => ?_
    rw [List.mem_range] at hi hj
    rcases hord i j hij (by omega) (hne i hi (of_decide_eq_true hi2))
      (hne j hj (of_decide_eq_true hj2)) with hlt | ⟨heq, -⟩
    · exact hlt.le
    · exact heq.le

theorem denseStridesLike_pos {d : Nat} (hd : d < rank) :
    0 < denseStridesLike shape strides rank d := by
  have harr : Arranged rank (sortedDims shape strides rank) := sortedDims_arranged rank
  rw [denseStridesLike_eq]
  obtain ⟨i, hi, rfl⟩ := harr.exists_pos hd
  rw [fillStrides_order harr hi]
  exact sizeBefore_pos (fun k hk => hshape _ (harr.lt hk)) hi.le

/-- The layout orders dimensions as the strides do. -/
theorem denseStridesLike_lt {a b : Nat} (ha : a < rank) (hb : b < rank) (ha0 : strides a ≠ 0)
    (hb0 : strides b ≠ 0) (hlt : strides a < strides b) :
    denseStridesLike shape strides rank a * shape a ≤ denseStridesLike shape strides rank b := by
  have harr : Arranged rank (sortedDims shape strides rank) := sortedDims_arranged rank
  have hord : OrderedTo shape strides (sortedDims shape strides rank) (rank - 1) :=
    sortedDims_ordered rank
  rw [denseStridesLike_eq]
  generalize sortedDims shape strides rank = σ at harr hord
  obtain ⟨i, hi, rfl⟩ := harr.exists_pos ha
  obtain ⟨j, hj, rfl⟩ := harr.exists_pos hb
  have hij : i < j := by
    by_contra hge
    by_cases heq : i = j
    · subst heq
      exact lt_irrefl _ hlt
    · rcases hord j i (by omega) (by omega) hb0 ha0 with h | ⟨h, -⟩ <;> omega
  rw [fillStrides_order harr hi, fillStrides_order harr hj]
  exact sizeBefore_le (fun k hk => hshape _ (harr.lt hk)) hij hj

end

/-- Without empty dimensions and negative strides `is_dense` tells the layouts whose offsets are the
numbers below the count, each once; `dense_strides_like` gives one that keeps the strides of such a
layout and orders dimensions as the strides do. -/
theorem dense_strides (shape : Nat → Nat) (strides : Nat → Int) (rank : Nat)
    (hshape : ∀ d, d < rank → shape d ≠ 0) (hstrides : ∀ d, d < rank → 0 ≤ strides d) :
    (isDense (dimsOf shape strides rank) = true ↔
      Set.BijOn (fun x : Fin rank → Nat => ∑ i, x i * strides i) {x | ∀ i, x i < shape i}
        (Set.Ico 0 ((∏ i : Fin rank, shape i : Nat) : Int))) ∧
    isDense (dimsOf shape (fun d => (denseStridesLike shape strides rank d : Nat)) rank) = true ∧
    (isDense (dimsOf shape strides rank) = true → ∀ d, d < rank → 2 ≤ shape d →
      (denseStridesLike shape strides rank d : Int) = strides d) ∧
    ∀ a b, a < rank → b < rank → strides a ≠ 0 → strides b ≠ 0 → strides a < strides b →
      denseStridesLike shape strides rank a ≤ denseStridesLike shape strides rank b ∧
      (2 ≤ shape a →
        denseStridesLike shape strides rank a < denseStridesLike shape strides rank b) := by
  refine ⟨isDense_iff_bijOn hshape hstrides, isDense_denseStridesLike hshape,
    fun hdense d hd htwo => denseStridesLike_of_dense hshape hstrides hdense hd htwo,
    fun a b ha hb ha0 hb0 hlt => ?_⟩
  have hle := denseStridesLike_lt hshape ha hb ha0 hb0 hlt
  have hpos : 0 < denseStridesLike shape strides rank a := denseStridesLike_pos hshape ha
  refine ⟨(Nat.le_mul_of_pos_right _ (Nat.pos_of_ne_zero (hshape a ha))).trans hle, fun htwo => ?_⟩
  calc denseStridesLike shape strides rank a < denseStridesLike shape strides rank a * 2 := by omega
    _ ≤ denseStridesLike shape strides rank a * shape a := Nat.mul_le_mul_left _ htwo
    _ ≤ denseStridesLike shape strides rank b := hle

/-- A transposed matrix of two rows, sliced in its columns. -/
theorem dense_strides_transposed :
    isDense (dimsOf (fun d => [2, 3].getD d 1)
      (fun d => (denseStridesLike (fun d => [2, 3].getD d 1) (fun d => [1, 4].getD d 1) 2 d : Nat))
      2) = true :=
  (dense_strides (fun d => [2, 3].getD d 1) (fun d => [1, 4].getD d 1) 2 (by decide)
    (by decide)).2.1

/-- Two dimensions of one element each get one stride. -/
theorem order_of_ones :
    ¬∀ (shape : Nat → Nat) (strides : Nat → Int) (rank : Nat), (∀ d, d < rank → shape d ≠ 0) →
      (∀ d, d < rank → 0 ≤ strides d) → ∀ a b, a < rank → b < rank → strides a ≠ 0 →
      strides b ≠ 0 → strides a < strides b →
      denseStridesLike shape strides rank a < denseStridesLike shape strides rank b := by
  intro h
  have hlt := h (fun _ => 1) (fun d => d + 1) 2 (by decide) (fun d _ => by omega) 0 1 (by decide)
    (by decide) (by decide) (by decide) (by decide)
  exact absurd hlt (by decide)

end TorchMojoBackend.Ops.DenseStrides
