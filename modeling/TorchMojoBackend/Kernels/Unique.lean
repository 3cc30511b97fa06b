/-
  `Kernels.Unique`: unique elements and unique rows.

  A row is a number of consecutive elements, one in the flat operations, and is read
  through a permutation.  The rows are sorted first, or taken as they come; a pass marks
  the rows that differ from the row before, the running sum of the marks is the group of
  each row, and a pass over the groups selects a row of each, the group of every input
  row and the bounds of the groups.  Rows are told apart element by element, where what
  is no number differs from itself; the sort takes it for the greatest number.
-/
import TorchMojoBackend.Foundation.MergePass
import TorchMojoBackend.Kernels.RowSort
import TorchMojoBackend.Kernels.SortKey

set_option autoImplicit false

namespace TorchMojoBackend.Kernels.Unique

open TorchMojoBackend.Foundation
open TorchMojoBackend.Kernels.RowSort (gsBlocks GS_THREADS SORT_MAX_ROW SortRowsInto Out Pair)
open TorchMojoBackend.Kernels.SortKey

universe u v

/-- The items of the threads that `_enqueue_cached` starts for `n` of them. -/
def gsItems (n : Nat) : List Nat := gridItems (gsBlocks n * GS_THREADS) n

section
variable {α : Type u} {V : Type v} [LinearOrder V] [Scalar α V]

/-! ## Groups -/

/-- `_row` -/
def row (perm : Option (Nat → Nat)) (i : Nat) : Nat :=
  match perm with
  | some p => p i
  | none => i

/-- `differs` of `_marks_kernel` for the rows `a` and `b` of `w` elements. -/
def differs (data : Nat → α) (w a b : Nat) : Bool :=
  (List.range w).any fun k => !Scalar.eq (data (a * w + k)) (data (b * w + k))

/-- The mark of the row at `i`. -/
def mark (data : Nat → α) (perm : Option (Nat → Nat)) (w i : Nat) : Nat :=
  if 0 < i ∧ differs data w (row perm i) (row perm (i - 1)) = true then 1 else 0

/-- The stores of `_marks_kernel`. -/
def marksStores (data : Nat → α) (perm : Option (Nat → Nat)) (n w : Nat) : List (Nat × Nat) :=
  (gsItems n).map fun i => (i, mark data perm w i)

/-- `aten::cumsum` of `n` integers. -/
def Cumsum (n : Nat) (marks gid : Nat → Nat) : Prop :=
  ∀ i, i < n → gid i = ((List.range (i + 1)).map marks).sum

/-- `is_start` -/
def isStart (gid : Nat → Nat) (i : Nat) : Bool := i == 0 || gid (i - 1) != gid i

/-- `is_end` -/
def isEnd (n : Nat) (gid : Nat → Nat) (i : Nat) : Bool := i == n - 1 || gid (i + 1) != gid i

/-- Whether the row at `i` stands for its group. -/
def chosen (takeLast : Bool) (n : Nat) (gid : Nat → Nat) (i : Nat) : Bool :=
  if takeLast then isEnd n gid i else isStart gid i

/-- The stores of `_select_kernel` to `out_vals`. -/
def valsStores (data : Nat → α) (perm : Option (Nat → Nat)) (gid : Nat → Nat) (takeLast : Bool)
    (n w : Nat) : List (Nat × α) :=
  (gsItems n).flatMap fun i =>
    if chosen takeLast n gid i then
      (List.range w).map fun k => (gid i * w + k, data (row perm i * w + k))
    else []

/-- The stores to `out_rows`. -/
def rowsStores (perm : Option (Nat → Nat)) (gid : Nat → Nat) (takeLast : Bool) (n : Nat) :
    List (Nat × Nat) :=
  (gsItems n).flatMap fun i => if chosen takeLast n gid i then [(gid i, row perm i)] else []

/-- The stores to `inverse`. -/
def inverseStores (perm : Option (Nat → Nat)) (gid : Nat → Nat) (n : Nat) : List (Nat × Nat) :=
  (gsItems n).map fun i => (row perm i, gid i)

/-- The stores to `starts`. -/
def startsStores (gid : Nat → Nat) (n : Nat) : List (Nat × Nat) :=
  (gsItems n).flatMap fun i => if isStart gid i then [(gid i, i)] else []

/-- The stores of `_counts_kernel`. -/
def countsStores (m n : Nat) (starts : Nat → Nat) : List (Nat × Nat) :=
  (gsItems m).map fun g => (g, (if g + 1 = m then n else starts (g + 1)) - starts g)

/-- A fresh tensor that is written if it is wanted. -/
def Wanted {β : Type u} (want : Bool) (ws : List (Nat × β)) (out : Option (Nat → β)) : Prop :=
  if want then ∃ fresh result : Nat → β, Stores ws fresh result ∧ out = some result
  else out = none

structure Groups (α : Type u) where
  m : Nat
  outVals : Option (Nat → α)
  outRows : Option (Nat → Nat)
  inverse : Option (Nat → Nat)
  counts : Option (Nat → Nat)

/-- `_groups`; `marks` and `gid` are the tensors in between. -/
structure GroupsOf (data : Nat → α) (perm : Option (Nat → Nat)) (n inner : Nat)
    (wantVals wantRows wantInverse wantCounts takeLast : Bool) (marks gid : Nat → Nat)
    (g : Groups α) : Prop where
  marked : ∃ fresh : Nat → Nat, Stores (marksStores data perm n inner) fresh marks
  cumsum : Cumsum n marks gid
  size : g.m = gid (n - 1) + 1
  outVals : Wanted wantVals (valsStores data perm gid takeLast n inner) g.outVals
  outRows : Wanted wantRows (rowsStores perm gid takeLast n) g.outRows
  inverse : Wanted wantInverse (inverseStores perm gid n) g.inverse
  counts : ∃ starts : Option (Nat → Nat), Wanted wantCounts (startsStores gid n) starts ∧
    Wanted wantCounts (countsStores g.m n (starts.getD fun _ => 0)) g.counts

/-! ## Rows in order -/

/-- `_row_less` from the element `k` on; `left` elements are left. -/
def rowLessFrom (data : Nat → α) (a b w : Nat) : Nat → Nat → Bool
  | 0, _ => decide (a < b)
  | left + 1, k =>
    let x := data (a * w + k)
    let y := data (b * w + k)
    if Scalar.isNaN x || Scalar.isNaN y then
      if Scalar.isNaN x && Scalar.isNaN y then rowLessFrom data a b w left (k + 1)
      else Scalar.isNaN y
    else if Scalar.lt x y then true
    else if Scalar.gt x y then false
    else rowLessFrom data a b w left (k + 1)

/-- `_row_less` -/
def rowLess (data : Nat → α) (w a b : Nat) : Bool := rowLessFrom data a b w w 0

/-- The order of the rows. -/
def RowLess (data : Nat → α) (w a b : Nat) : Prop := rowLess data w a b = true

instance (data : Nat → α) (w : Nat) : DecidableRel (RowLess data w) := fun _ _ =>
  inferInstanceAs (Decidable (_ = true))

/-- `dest` of `_row_merge_kernel`. -/
def mergeSlot (data : Nat → α) (n w width : Nat) (order : Nat → Nat) (i : Nat) : Nat :=
  let run := i / width
  let leftStart := (run - run % 2) * width
  let rightStart := leftStart + width
  let rightStop := min (rightStart + width) n
  let pLo := if run % 2 = 1 then leftStart else rightStart
  let pHi := if run % 2 = 1 then rightStart else rightStop
  let ownStart := if run % 2 = 1 then rightStart else leftStart
  let found := firstFalse (fun mid => decide (RowLess data w (order mid) (order i))) n pLo
    (max pHi pLo)
  leftStart + (i - ownStart) + (found - pLo)

/-- The stores of `_row_merge_kernel`. -/
def mergeStores (data : Nat → α) (n w width : Nat) (order : Nat → Nat) : List (Nat × Nat) :=
  (gsItems n).map fun i => (mergeSlot data n w width order i, order i)

/-- `while width < num_inp`: the passes from `order` to `other`, which then change roles; `fuel`
bounds their number. -/
def MergePasses (data : Nat → α) (n w : Nat) :
    Nat → Nat → (Nat → Nat) → (Nat → Nat) → (Nat → Nat) → Prop
  | 0, _, order, _, order' => order' = order
  | fuel + 1, width, order, other, order' =>
    if width < n then
      ∃ merged : Nat → Nat, Stores (mergeStores data n w width order) other merged ∧
        MergePasses data n w fuel (width * 2) merged order order'
    else order' = order

end

/-! ## Operations -/

/-- The order in which `unique_rows` reads its rows. -/
def RowsPerm {α : Type u} {V : Type v} [LinearOrder V] [Scalar α V] (data : Nat → α) (n w : Nat)
    (consecutive : Bool) (perm : Option (Nat → Nat)) : Prop :=
  if consecutive then perm = none
  else ∃ arange other order : Nat → Nat, (∀ i, i < n → arange i = i) ∧
    MergePasses data n w n 1 arange other order ∧ perm = some order

/-- `unique_rows` of `n` rows of `w` elements, up to the choice of the rows. -/
def UniqueRows {α : Type u} {V : Type v} [LinearOrder V] [Scalar α V] (data : Nat → α) (n w : Nat)
    (consecutive wantInverse wantCounts : Bool) (g : Groups α) : Prop :=
  ∃ perm marks gid, RowsPerm data n w consecutive perm ∧
    GroupsOf data perm n w false true wantInverse wantCounts false marks gid g

/-- The order in which `unique_flat` reads its elements: `_stable_sort_perm`, which raises for a
row that is too long. -/
def FlatPerm {d : DType} (data : Nat → Elem d) (n : Nat) (consecutive : Bool)
    (perm : Option (Nat → Nat)) : Prop :=
  if consecutive then perm = none
  else n ≤ SORT_MAX_ROW ∧ ∃ (ws : Nat → Pair (Fin (2 ^ d.keyBits))) (out out' : Out (Elem d)),
    SortRowsInto d.wide false false (sortKey d) data 1 n n ws out out' ∧ perm = some out'.indices

/-- `unique_flat` of `n` elements. -/
def UniqueFlat {d : DType} (data : Nat → Elem d) (n : Nat)
    (consecutive wantInverse wantCounts : Bool) (g : Groups (Elem d)) : Prop :=
  let countsOut := wantCounts || (decide (d = .bool) && !consecutive)
  ∃ perm marks gid, FlatPerm data n consecutive perm ∧
    GroupsOf data perm n 1 true false wantInverse countsOut wantCounts marks gid g

end TorchMojoBackend.Kernels.Unique
