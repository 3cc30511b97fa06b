/-
  `Kernels.ArgReduce`: the index of the extremum along an axis.

  The operand is (outer, reduce, inner) row-major.  With an inner extent of one a block
  of 256 lanes scans a row and its lanes' candidates meet in a tree; otherwise a thread
  walks a column.  Either axis may be split among blocks, whose candidates are left in a
  workspace that a second launch merges.  Scans see rising indices and replace on strict
  comparison; merges compare indices too.
-/
import TorchMojoBackend.Foundation.Launch
import TorchMojoBackend.Foundation.Scalar
import TorchMojoBackend.Foundation.Spans
import TorchMojoBackend.Foundation.Tournament

set_option autoImplicit false

namespace TorchMojoBackend.Kernels.ArgReduce

open TorchMojoBackend.Foundation

universe u v

def AR_THREADS : Nat := 256
def AR_STAGES : Nat := 8
def AR_SPLIT_WAVES : Nat := 4
def AR_MIN_CHUNK : Nat := 4096
def AR_COLS_MIN_CHUNK : Nat := 32

/-! ## Candidates -/

/-- `(best_val, best_idx)`; a negative index marks no candidate. -/
structure Best (α : Type u) where
  val : α
  idx : Int

section
variable {α : Type u} {V : Type v} [LinearOrder V] [Scalar α V]

/-- `_ar_take_next`; the integer types have no NaN. -/
def arTakeNext (isMin : Bool) (v best : α) : Bool :=
  if Scalar.isNaN best then false
  else if Scalar.isNaN v then true
  else if isMin then Scalar.lt v best
  else Scalar.gt v best

/-- `_ar_better` -/
def arBetter (isMin : Bool) (cand cur : Best α) : Bool :=
  if cand.idx < 0 then false
  else if cur.idx < 0 then true
  else if Scalar.isNaN cur.val then Scalar.isNaN cand.val && decide (cand.idx < cur.idx)
  else if Scalar.isNaN cand.val then true
  else if (if isMin then Scalar.lt cand.val cur.val else Scalar.gt cand.val cur.val) then true
  else Scalar.eq cand.val cur.val && decide (cand.idx < cur.idx)

/-- `_ar_block_merge` -/
def arBlockMerge (isMin : Bool) (lanes : Nat → Best α) : Best α :=
  tree (arBetter isMin) AR_STAGES (AR_THREADS / 2) lanes 0

/-! ## Scans -/

/-- A load of `width` elements at `base + off`. -/
structure Load where
  base : Nat
  off : Nat
  width : Nat

/-- The loads of `_ar_scan_row`. -/
def scanLoads (vec base start stop tid : Nat) : List Load :=
  let nslots := (stop - start) / vec
  ((strided nslots AR_THREADS nslots tid).map fun k => ⟨base, start + k * vec, vec⟩) ++
    (strided stop AR_THREADS stop (start + nslots * vec + tid)).map fun j => ⟨base, j, 1⟩

/-- The offsets of the elements of a load. -/
def Load.offsets (l : Load) : List Nat := (List.range l.width).map fun lane => l.off + lane

/-- A scan sees the element at `off`. -/
def scanNext (isMin : Bool) (data : Nat → α) (base : Nat) (best : Best α) (off : Nat) : Best α :=
  if best.idx < 0 ∨ arTakeNext isMin (data (base + off)) best.val then ⟨data (base + off), off⟩
  else best

/-- A column walk sees the element `r` of its column. -/
def walkNext (isMin : Bool) (data : Nat → α) (base inner : Nat) (best : Best α) (r : Nat) :
    Best α :=
  if arTakeNext isMin (data (base + r * inner)) best.val then ⟨data (base + r * inner), r⟩
  else best

/-- The walk of a column from `start` on. -/
def walkCol (isMin : Bool) (data : Nat → α) (base inner start stop : Nat) : Best α :=
  (List.range' (start + 1) (stop - (start + 1))).foldl (walkNext isMin data base inner)
    ⟨data (base + start * inner), start⟩

variable [Zero α]

/-- `_ar_scan_row` -/
def arScanRow (isMin : Bool) (vec : Nat) (data : Nat → α) (base start stop tid : Nat) : Best α :=
  ((scanLoads vec base start stop tid).flatMap Load.offsets).foldl (scanNext isMin data base) ⟨0, -1⟩

/-! ## Kernels -/

/-- The winner that the block of row `r` stores in `_argreduce_rows_kernel` and
`_minmax_rows_kernel`. -/
def rowsBlock (isMin : Bool) (vec : Nat) (data : Nat → α) (cols r : Nat) : Best α :=
  arBlockMerge isMin fun tid => arScanRow isMin vec data (r * cols) 0 cols tid

/-- `start` and `end` of a chunk. -/
def chunkStart (n chunk s : Nat) : Nat := min (s * chunk) n
def chunkStop (n chunk s : Nat) : Nat := min (chunkStart n chunk s + chunk) n

/-- `_argreduce_rows_split_kernel` -/
def rowsSplitBlock (isMin : Bool) (vec : Nat) (data : Nat → α) (cols chunk r s : Nat) : Best α :=
  arBlockMerge isMin fun tid => arScanRow isMin vec data (r * cols) (chunkStart cols chunk s)
    (chunkStop cols chunk s) tid

omit [Zero α] in
/-- `_argreduce_cols_kernel` and `_minmax_cols_kernel` -/
def colsThread (isMin : Bool) (data : Nat → α) (reduce inner o i : Nat) : Best α :=
  walkCol isMin data (o * reduce * inner + i) inner 0 reduce

/-- `_argreduce_cols_split_kernel` -/
def colsSplitThread (isMin : Bool) (data : Nat → α) (reduce inner chunk o i s : Nat) : Best α :=
  if chunkStart reduce chunk s < chunkStop reduce chunk s then
    walkCol isMin data (o * reduce * inner + i) inner (chunkStart reduce chunk s)
      (chunkStop reduce chunk s)
  else ⟨0, -1⟩

/-- A lane of `_argreduce_merge_kernel` and `_minmax_merge_kernel`. -/
def mergeLane (isMin : Bool) (ws : Nat → Best α) (splits p tid : Nat) : Best α :=
  (strided splits AR_THREADS splits tid).foldl
    (fun best s => keep (arBetter isMin) best (ws (p * splits + s))) ⟨0, -1⟩

/-- `_argreduce_merge_kernel` and `_minmax_merge_kernel` -/
def mergeBlock (isMin : Bool) (ws : Nat → Best α) (splits p : Nat) : Best α :=
  arBlockMerge isMin (mergeLane isMin ws splits p)

end

/-! ## Grids -/

/-- The threads of a launch over columns that have one: `(o, i)`. -/
def colsGrid (outer inner : Nat) : List (Nat × Nat) :=
  let lanes := pieces inner AR_THREADS
  (List.range (lanes * outer)).flatMap fun block => (List.range AR_THREADS).filterMap fun thread =>
    let o := block / lanes
    let i := block % lanes * AR_THREADS + thread
    if i < inner then some (o, i) else none

/-- A second dimension of the grid. -/
def splitGrid {β : Type*} (l : List β) (splits : Nat) : List (β × Nat) :=
  l.flatMap fun x => (List.range splits).map fun s => (x, s)

/-! ## Loads -/

/-- The loads of the lanes of a block. -/
def blockLoads (vec base start stop : Nat) : List Load :=
  (List.range AR_THREADS).flatMap (scanLoads vec base start stop)

/-- The loads of a walk. -/
def walkLoads (base inner start stop : Nat) : List Load :=
  (List.range' start (stop - start)).map fun r => ⟨base, r * inner, 1⟩

/-! ## Memory -/

/-- The two outputs and the two workspaces. -/
structure Memory (α : Type u) where
  out : Nat → Int
  val : Nat → α
  wsVal : Nat → α
  wsIdx : Nat → Int

/-- The candidate that the workspaces hold at `p`. -/
def Memory.candidate {α : Type u} (m : Memory α) (p : Nat) : Best α := ⟨m.wsVal p, m.wsIdx p⟩

section
variable {α : Type u}

/-- A launch that stores winners; the values only when they are asked for. -/
structure StoresOut (withValues : Bool) (stores : List (Nat × Best α)) (m m' : Memory α) :
    Prop where
  out : Stores (stores.map fun w => (w.1, w.2.idx)) m.out m'.out
  val : Stores (if withValues then stores.map fun w => (w.1, w.2.val) else []) m.val m'.val

/-- A launch that stores partial winners. -/
structure StoresWs (stores : List (Nat × Best α)) (m m' : Memory α) : Prop where
  wsVal : Stores (stores.map fun w => (w.1, w.2.val)) m.wsVal m'.wsVal
  wsIdx : Stores (stores.map fun w => (w.1, w.2.idx)) m.wsIdx m'.wsIdx
  out : m'.out = m.out
  val : m'.val = m.val

end

/-! ## Routes -/

/-- The bytes of an element: 1, 2, 4 or 8. -/
abbrev Size : Type := {bytes : Nat // bytes ∣ 8}

/-- `_ar_splits` on a device of `sms` multiprocessors. -/
def arSplits (sms blocks reduce minChunk : Nat) : Nat :=
  let target := AR_SPLIT_WAVES * sms
  if blocks ≥ target ∨ blocks ≤ 0 then 1
  else
    let byWork := reduce / minChunk
    if byWork < 2 then 1 else min (pieces target blocks) byWork

/-- `WIDEST` -/
def widest (size : Size) : Nat := max 1 (16 / size.1)

/-- `ALIGN` -/
def align (size : Size) (vec : Nat) : Nat := min 16 (vec * size.1)

/-- The chunk and the number of splits of the rows. -/
def rowsPlan (size : Size) (sms rows cols : Nat) : Nat × Nat :=
  let splits := arSplits sms rows cols AR_MIN_CHUNK
  if splits > 1 then
    let chunk := pieces (pieces cols splits) (widest size) * widest size
    (chunk, pieces cols chunk)
  else (0, splits)

/-- Whether `_launch[VEC]` runs. -/
def launches (size : Size) (inAddr rows cols vec : Nat) : Bool :=
  inAddr % align size vec = 0 && (decide (rows ≤ 1) || cols * size.1 % align size vec = 0)

/-- The widest access that launches; `_launch[1]` may not. -/
def rowsVec (size : Size) (inAddr rows cols : Nat) : Option Nat :=
  ([8, 4, 2].filter fun vec => decide (widest size ≥ vec)).append [1] |>.find?
    (launches size inAddr rows cols)

/-- The chunk and the number of splits of the columns; one split keeps its own kernel. -/
def colsPlan (sms outer reduce inner : Nat) : Option (Nat × Nat) :=
  let splits := arSplits sms (pieces inner AR_THREADS * outer) reduce AR_COLS_MIN_CHUNK
  if splits ≤ 1 then none
  else some (pieces reduce splits, pieces reduce (pieces reduce splits))

/-- The loads of `_argreduce_rows`. -/
def rowsLoads (size : Size) (sms inAddr rows cols : Nat) : List Load :=
  let plan := rowsPlan size sms rows cols
  match rowsVec size inAddr rows cols with
  | none => []
  | some vec =>
    if plan.2 ≤ 1 then (List.range rows).flatMap fun r => blockLoads vec (r * cols) 0 cols
    else (splitGrid (List.range rows) plan.2).flatMap fun b =>
      blockLoads vec (b.1 * cols) (chunkStart cols plan.1 b.2) (chunkStop cols plan.1 b.2)

/-- The loads of `_argreduce_cols`. -/
def colsLoads (sms outer reduce inner : Nat) : List Load :=
  match colsPlan sms outer reduce inner with
  | none => (colsGrid outer inner).flatMap fun t =>
      walkLoads (t.1 * reduce * inner + t.2) inner 0 reduce
  | some (chunk, splits) => (splitGrid (colsGrid outer inner) splits).flatMap fun b =>
      walkLoads (b.1.1 * reduce * inner + b.1.2) inner
        (chunkStart reduce chunk b.2) (chunkStop reduce chunk b.2)

section
variable {α : Type u} {V : Type v} [LinearOrder V] [Scalar α V] [Zero α]

/-- `_ar_merge_launch` -/
def MergeLaunch (isMin withValues : Bool) (outputs splits : Nat) (m m' : Memory α) : Prop :=
  StoresOut withValues
    ((List.range outputs).map fun p => (p, mergeBlock isMin m.candidate splits p)) m m'

/-- `_argreduce_rows` -/
def ArgreduceRows (isMin withValues : Bool) (size : Size) (sms inAddr : Nat) (data : Nat → α)
    (rows cols : Nat) (m m' : Memory α) : Prop :=
  let plan := rowsPlan size sms rows cols
  match rowsVec size inAddr rows cols with
  | none => m' = m
  | some vec =>
    if plan.2 ≤ 1 then
      StoresOut withValues
        ((List.range rows).map fun r => (r, rowsBlock isMin vec data cols r)) m m'
    else ∃ mid : Memory α,
      StoresWs ((splitGrid (List.range rows) plan.2).map fun b =>
        (b.1 * plan.2 + b.2, rowsSplitBlock isMin vec data cols plan.1 b.1 b.2)) m mid ∧
      MergeLaunch isMin withValues rows plan.2 mid m'

/-- `_argreduce_cols` -/
def ArgreduceCols (isMin withValues : Bool) (sms : Nat) (data : Nat → α)
    (outer reduce inner : Nat) (m m' : Memory α) : Prop :=
  match colsPlan sms outer reduce inner with
  | none =>
    StoresOut withValues ((colsGrid outer inner).map fun t =>
      (t.1 * inner + t.2, colsThread isMin data reduce inner t.1 t.2)) m m'
  | some (chunk, splits) => ∃ mid : Memory α,
    StoresWs ((splitGrid (colsGrid outer inner) splits).map fun b =>
      ((b.1.1 * inner + b.1.2) * splits + b.2,
        colsSplitThread isMin data reduce inner chunk b.1.1 b.1.2 b.2)) m mid ∧
    MergeLaunch isMin withValues (outer * inner) splits mid m'

/-- `_argreduce_spec_into`, past its checks. -/
def ArgreduceSpecInto (isMin withValues : Bool) (size : Size) (sms inAddr : Nat) (data : Nat → α)
    (outer reduce inner : Nat) (m m' : Memory α) : Prop :=
  if outer * inner ≤ 0 ∨ reduce ≤ 0 then m' = m
  else if inner = 1 then ArgreduceRows isMin withValues size sms inAddr data outer reduce m m'
  else ArgreduceCols isMin withValues sms data outer reduce inner m m'

end

end TorchMojoBackend.Kernels.ArgReduce
