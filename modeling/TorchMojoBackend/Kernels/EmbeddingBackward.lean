/-
  `Kernels.EmbeddingBackward`: the gradient of an embedding table.

  Each row of the output's gradient is added to the row of the table that its index
  names, the padding row apart.  A small table is summed up in shared memory by blocks of
  rows and its copies are added up; a large output counts its rows first and stores those
  that are named once; any other output is cleared and added to.  On a device without
  atomic additions to shared memory each thread owns a cell of a small table.  Addition
  is exact: a commutative monoid.
-/
import Mathlib.Data.BitVec
import TorchMojoBackend.Foundation.Atomics

set_option autoImplicit false

namespace TorchMojoBackend.Kernels.EmbeddingBackward

open TorchMojoBackend.Foundation

universe u

def BLOCK : Nat := 256
def VEC : Nat := 4
def TABLE_COLS : Nat := 128
def TABLE_MAX_ROWS : Nat := 96
def TABLE_ROWG : Nat := 4
def TABLE_UNROLL : Nat := 8
def MAX_GRID_Y : Nat := 65535
def RED_TX : Nat := 64
def RED_TY : Nat := 4
def HIST_MIN_OUT : Nat := 2 ^ 22
def OWN_TX : Nat := 32
def OWN_TY : Nat := 8
def OWN_TILE : Nat := 256
def OWN_MAX_ROWS : Nat := 1024
def OWN_MAX_INDICES : Nat := 16384

def ceildiv (a b : Nat) : Nat := (a + b - 1) / b

/-- The arguments of `enqueue_embedding_dense_backward_f32_i64` and where its operands lie. -/
structure Args (R : Type u) where
  gradOutput : Nat → R
  indices : Nat → Nat
  numIndices : Nat
  embeddingDim : Nat
  numWeights : Nat
  paddingIdx : Int
  gradAddr : Nat
  outAddr : Nat

section
variable {R : Type u} [AddCommMonoid R]

/-! ## Clearing and adding -/

/-- The stores of `_zero_vec4`. -/
def zeroVec4 (R : Type u) [AddCommMonoid R] (threads head vecCount tail : Nat) : List (Nat × R) :=
  (List.range threads).flatMap fun tid =>
    (if tid < head then [(tid, 0)] else []) ++
    (if tid < tail then [(head + vecCount * VEC + tid, 0)] else []) ++
    (strided vecCount threads vecCount tid).flatMap fun v =>
      (List.range VEC).map fun j => (head + v * VEC + j, 0)

/-- The stores of `_zero_scalar`. -/
def zeroScalar (R : Type u) [AddCommMonoid R] (threads elements : Nat) : List (Nat × R) :=
  (gridItems threads elements).map fun index => (index, 0)

/-- A scatter of `width` columns a thread, `cols` of them in a row. -/
def scatter (a : Args R) (width threads cols : Nat) : List (Nat × Update R) :=
  (gridItems threads (a.numIndices * cols)).flatMap fun e =>
    let row := e / cols
    let col := e - row * cols
    let target := a.indices row
    if (target : Int) ≠ a.paddingIdx then
      (List.range width).map fun j =>
        ((target * cols + col) * width + j, .add (a.gradOutput (e * width + j)))
    else []

/-- The updates of `_scatter_vec4`. -/
def scatterVec4 (a : Args R) (threads vecCols : Nat) : List (Nat × Update R) :=
  scatter a VEC threads vecCols

/-- The updates of `_scatter_scalar`. -/
def scatterScalar (a : Args R) (threads : Nat) : List (Nat × Update R) :=
  scatter a 1 threads a.embeddingDim

/-! ## Histogram -/

/-- The stores of `_count_zero`. -/
def countZero (threads numWeights : Nat) : List (Nat × BitVec 32) :=
  (gridItems threads numWeights).map fun index => (index, 0)

/-- The updates of `_count`. -/
def count (a : Args R) (threads : Nat) : List (Nat × Update (BitVec 32)) :=
  (gridItems threads a.numIndices).flatMap fun index =>
    let target := a.indices index
    if (target : Int) ≠ a.paddingIdx then [(target, .add 1)] else []

/-- The stores of `_zero_untouched` on `colBlocks` by `gridY` blocks. -/
def zeroUntouched (a : Args R) (counts : Nat → BitVec 32) (colBlocks gridY vecCols : Nat) :
    List (Nat × R) :=
  (List.range (colBlocks * BLOCK)).flatMap fun col =>
    if col ≥ vecCols then []
    else (gridItems gridY a.numWeights).flatMap fun row =>
      if counts row ≠ 1 then
        (List.range VEC).map fun j => ((row * vecCols + col) * VEC + j, 0)
      else []

/-- The updates of `_scatter_hist_vec4`. -/
def scatterHistVec4 (a : Args R) (counts : Nat → BitVec 32) (colBlocks gridY vecCols : Nat) :
    List (Nat × Update R) :=
  (List.range (colBlocks * BLOCK)).flatMap fun col =>
    if col ≥ vecCols then []
    else (gridItems gridY a.numIndices).flatMap fun row =>
      let target := a.indices row
      if (target : Int) ≠ a.paddingIdx then
        (List.range VEC).map fun j =>
          let v := a.gradOutput ((row * vecCols + col) * VEC + j)
          ((target * vecCols + col) * VEC + j, if counts target = 1 then .set v else .add v)
      else []

/-! ## Ownership -/

/-- The staged index at `k` of the tile at `base`. -/
def ownerTile (a : Args R) (base k : Nat) : BitVec 32 :=
  let t := a.indices (base + k)
  if (t : Int) = a.paddingIdx then BitVec.ofInt 32 (-1) else BitVec.ofInt 32 t

/-- `acc` of the cell of `row` at the column `c` after the tiles from `base` on. -/
def ownerAcc (a : Args R) (row c : Nat) : Nat → Nat → R → R
  | 0, _, acc => acc
  | fuel + 1, base, acc =>
    if base < a.numIndices then
      let count := min OWN_TILE (a.numIndices - base)
      ownerAcc a row c fuel (base + OWN_TILE) ((List.range count).foldl (fun acc k =>
        if (ownerTile a base k).toInt = row then
          acc + a.gradOutput ((base + k) * a.embeddingDim + c)
        else acc) acc)
    else acc

/-- The stores of threads that own `width` columns, `cols` of them in a row. -/
def owner (a : Args R) (width cols : Nat) : List (Nat × R) :=
  (List.range (ceildiv cols OWN_TX * OWN_TX)).flatMap fun col =>
    (List.range (ceildiv a.numWeights OWN_TY * OWN_TY)).flatMap fun row =>
      if row < a.numWeights ∧ col < cols then
        (List.range width).map fun j =>
          ((row * cols + col) * width + j, ownerAcc a row (col * width + j) a.numIndices 0 0)
      else []

/-- The stores of `_owner_vec4`. -/
def ownerVec4 (a : Args R) (vecCols : Nat) : List (Nat × R) := owner a VEC vecCols

/-- The stores of `_owner_scalar`. -/
def ownerScalar (a : Args R) : List (Nat × R) := owner a 1 a.embeddingDim

/-! ## Table -/

/-- The rows of a thread of `_table_accum` from `row` on. -/
def tableRows (rowEnd : Nat) : Nat → Nat → List Nat
  | 0, _ => []
  | fuel + 1, row =>
    if row + (TABLE_UNROLL - 1) * TABLE_ROWG < rowEnd then
      (List.range TABLE_UNROLL).map (fun u => row + u * TABLE_ROWG) ++
        tableRows rowEnd fuel (row + TABLE_UNROLL * TABLE_ROWG)
    else strided rowEnd TABLE_ROWG rowEnd row

/-- The additions of the block at `bx`, `by` to its table. -/
def tableAdds (a : Args R) (rowsPerBlock bx rowBlock : Nat) : List (Nat × Update R) :=
  let rowEnd := min (rowBlock * rowsPerBlock + rowsPerBlock) a.numIndices
  (List.range TABLE_COLS).flatMap fun tx =>
    let col := bx * TABLE_COLS + tx
    if col < a.embeddingDim then
      (List.range TABLE_ROWG).flatMap fun ty =>
        (tableRows rowEnd a.numIndices (rowBlock * rowsPerBlock + ty)).flatMap fun row =>
          let t := a.indices row
          if (t : Int) ≠ a.paddingIdx then
            [(t * TABLE_COLS + tx, .add (a.gradOutput (row * a.embeddingDim + col)))]
          else []
    else []

/-- What a block may have in its table when it flushes it. -/
def BlockTable (a : Args R) (rowsPerBlock bx rowBlock : Nat) (table : Nat → R) : Prop :=
  ∃ smem cleared : Nat → R,
    Stores ((gridItems (TABLE_COLS * TABLE_ROWG) (a.numWeights * TABLE_COLS)).map fun i => (i, 0))
      smem cleared ∧
    Updates (tableAdds a rowsPerBlock bx rowBlock) cleared table

/-- The stores of a block of `_table_accum` to the scratch buffer. -/
def tableFlush (a : Args R) (dimPad bx rowBlock : Nat) (table : Nat → R) : List (Nat × R) :=
  (List.range TABLE_COLS).flatMap fun tx =>
    let col := bx * TABLE_COLS + tx
    if col < dimPad then
      (gridItems TABLE_ROWG a.numWeights).map fun r =>
        ((rowBlock * a.numWeights + r) * dimPad + col, table (r * TABLE_COLS + tx))
    else []

/-- `_table_accum` on `colChunks` by `blocksY` blocks. -/
def TableAccum (a : Args R) (colChunks blocksY dimPad rowsPerBlock : Nat)
    (scratch scratch' : Nat → R) : Prop :=
  ∃ tables : Nat → Nat → Nat → R,
    (∀ bx rowBlock, bx < colChunks → rowBlock < blocksY →
      BlockTable a rowsPerBlock bx rowBlock (tables bx rowBlock)) ∧
    Stores ((List.range colChunks).flatMap fun bx => (List.range blocksY).flatMap fun rowBlock =>
      tableFlush a dimPad bx rowBlock (tables bx rowBlock)) scratch scratch'

/-- The accumulators of a thread of `_table_reduce` from the chunk `k` on; `load` reads a chunk. -/
def reduceLoop (load : Nat → R) (chunks : Nat) : Nat → Nat → R × R × R × R → R × R × R × R
  | 0, _, acc => acc
  | fuel + 1, k, (acc0, acc1, acc2, acc3) =>
    if k + 3 * RED_TY < chunks then
      reduceLoop load chunks fuel (k + 4 * RED_TY)
        (acc0 + load k, acc1 + load (k + RED_TY), acc2 + load (k + 2 * RED_TY),
          acc3 + load (k + 3 * RED_TY))
    else
      ((strided chunks RED_TY chunks k).foldl (fun acc k => acc + load k) acc0, acc1, acc2, acc3)

/-- What the thread row `ty` has for its partial. -/
def reducePartial (load : Nat → R) (chunks ty : Nat) : R :=
  let (acc0, acc1, acc2, acc3) := reduceLoop load chunks chunks ty (0, 0, 0, 0)
  acc0 + acc1 + (acc2 + acc3)

/-- The stores of `_table_reduce` on `blocks` blocks. -/
def tableReduce (a : Args R) (scratch : Nat → R) (blocks dimPad chunks : Nat) (outVecOk : Bool) :
    List (Nat × R) :=
  let vecPad := dimPad / VEC
  let total := a.numWeights * vecPad
  (gridItems (blocks * RED_TX) total).flatMap fun e =>
    let r := e / vecPad
    let c := (e - r * vecPad) * VEC
    let base := r * dimPad + c
    let acc := fun j => (List.range RED_TY).foldl (fun acc y =>
      acc + reducePartial (fun k => scratch (base + k * (a.numWeights * dimPad) + j)) chunks y) 0
    if outVecOk then (List.range VEC).map fun j => (r * a.embeddingDim + c + j, acc j)
    else (List.range VEC).flatMap fun j =>
      if c + j < a.embeddingDim then [(r * a.embeddingDim + c + j, acc j)] else []

/-! ## Dispatch -/

/-- `max_grid` of a device of `sms` multiprocessors. -/
def maxGrid (sms : Nat) : Nat := max 1 sms * 16

/-- The threads of a flat grid for `n` items. -/
def flatThreads (sms n : Nat) : Nat := max 1 (min (ceildiv n BLOCK) (maxGrid sms)) * BLOCK

def vecOk (a : Args R) : Bool :=
  decide (a.embeddingDim % VEC = 0) && decide ((a.gradAddr ||| a.outAddr) % 16 = 0)

/-- The table regime. -/
def TableRegime (a : Args R) (sms : Nat) (m m' : Nat → R) : Prop :=
  let smCount := maxGrid sms / 16
  let dimPad := ceildiv a.embeddingDim VEC * VEC
  let colChunks := ceildiv a.embeddingDim TABLE_COLS
  let blocksY := max 1 (min (ceildiv (max 1 smCount * 2) colChunks)
    (ceildiv a.numIndices (4 * TABLE_ROWG * TABLE_UNROLL)))
  let rowsPerBlock := ceildiv a.numIndices blocksY
  let blocksY := ceildiv a.numIndices rowsPerBlock
  let outVecOk := decide (a.embeddingDim % VEC = 0) && decide (a.outAddr % 16 = 0)
  let totalVec := a.numWeights * (dimPad / VEC)
  ∃ fresh scratch : Nat → R,
    TableAccum a colChunks blocksY dimPad rowsPerBlock fresh scratch ∧
    Stores (tableReduce a scratch (max 1 (min (ceildiv totalVec RED_TX) (maxGrid sms))) dimPad
      blocksY outVecOk) m m'

/-- The histogram regime. -/
def HistRegime (a : Args R) (sms : Nat) (m m' : Nat → R) : Prop :=
  let vecCols := a.embeddingDim / VEC
  let colBlocks := ceildiv vecCols BLOCK
  ∃ (fresh zeroed counts : Nat → BitVec 32) (mid : Nat → R),
    Stores (countZero (flatThreads sms a.numWeights) a.numWeights) fresh zeroed ∧
    Updates (count a (flatThreads sms a.numIndices)) zeroed counts ∧
    Stores (zeroUntouched a counts colBlocks (min a.numWeights MAX_GRID_Y) vecCols) m mid ∧
    Updates (scatterHistVec4 a counts colBlocks (min a.numIndices MAX_GRID_Y) vecCols) mid m'

/-- Stage 1 of the plain regime. -/
def zeroStores (a : Args R) (sms : Nat) : List (Nat × R) :=
  let outputElements := a.numWeights * a.embeddingDim
  if a.outAddr % 4 = 0 then
    let head := min ((16 - a.outAddr % 16) % 16 / 4) outputElements
    let body := outputElements - head
    let vecCount := body / VEC
    zeroVec4 R (flatThreads sms vecCount) head vecCount (body - vecCount * VEC)
  else zeroScalar R (flatThreads sms outputElements) outputElements

/-- Stage 2 of the plain regime. -/
def scatterUpdates (a : Args R) (sms : Nat) : List (Nat × Update R) :=
  if vecOk a then
    let vecCols := a.embeddingDim / VEC
    scatterVec4 a (flatThreads sms (a.numIndices * vecCols)) vecCols
  else scatterScalar a (flatThreads sms (a.numIndices * a.embeddingDim))

/-- The plain regime. -/
def PlainRegime (a : Args R) (sms : Nat) (m m' : Nat → R) : Prop :=
  ∃ mid : Nat → R, Stores (zeroStores a sms) m mid ∧
    if a.numIndices = 0 then m' = mid else Updates (scatterUpdates a sms) mid m'

/-- The regimes; `plain` is zero and scatter. -/
inductive Regime where
  | none | ownership | table | histogram | plain
  deriving DecidableEq

/-- The choice of the regime; `apple` for a device without atomics on shared floats. -/
def regime (a : Args R) (apple : Bool) : Regime :=
  if a.numWeights * a.embeddingDim ≤ 0 then .none
  else if apple ∧ a.numWeights ≤ OWN_MAX_ROWS ∧ a.numIndices ≤ OWN_MAX_INDICES then .ownership
  else if ¬ apple ∧ a.numWeights ≤ TABLE_MAX_ROWS ∧ a.numIndices ≥ 2 * a.numWeights ∧
      a.numIndices ≥ 128 then .table
  else if a.numIndices > 0 ∧ vecOk a ∧ a.numWeights * a.embeddingDim ≥ HIST_MIN_OUT then .histogram
  else .plain

/-- `enqueue_embedding_dense_backward_f32_i64` leaves `m'` of the memory `m` of the gradient. -/
def EmbeddingDenseBackward (a : Args R) (apple : Bool) (sms : Nat) (m m' : Nat → R) : Prop :=
  match regime a apple with
  | .none => m' = m
  | .ownership =>
    Stores (if vecOk a then ownerVec4 a (a.embeddingDim / VEC) else ownerScalar a) m m'
  | .table => TableRegime a sms m m'
  | .histogram => HistRegime a sms m m'
  | .plain => PlainRegime a sms m m'

end

end TorchMojoBackend.Kernels.EmbeddingBackward
