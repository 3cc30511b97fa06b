/-
  `Kernels.Scan`: cumulative scans along one dimension.

  The operand is (outer, n, inner) row-major and the scan runs over the middle axis.  An
  algebra merges an earlier value with a later one: a value scan combines them, a
  selecting scan keeps one with its index.  There are four kernels: a thread for each
  line, a block for each row with a carry from tile to tile, rows of tiles whose first
  element takes in the carry, and three passes over the tiles of one long row.
-/
import TorchMojoBackend.Foundation.Launch
import TorchMojoBackend.Foundation.ScanNetwork
import TorchMojoBackend.Foundation.Spans

set_option autoImplicit false

namespace TorchMojoBackend.Kernels.Scan

open TorchMojoBackend.Foundation

universe u v

def SCAN_THREADS : Nat := 256
def SCAN_ROW_BLOCK_MIN : Nat := 64
def SCAN_MAX_BLOCKS : Nat := 65535
def CUDA_SCAN_THREADS : Nat := 512
def CUB_THREADS : Nat := 128
def CUB_ITEMS : Nat := 30
def CUB_WARPS : Nat := CUB_THREADS / 32
def CUB_TILE : Nat := CUB_THREADS * CUB_ITEMS
def CUB_PREFIX_THREADS : Nat := 1024
def CUB_SEQ_TILES : Nat := 64

/-! ## Algebras -/

/-- A `ScanOp` at an element type `α` and an accumulator type `β`; `wide` when they differ. -/
structure ScanOp (α : Type u) (β : Type v) where
  withIndex : Bool
  rounds : Bool
  wide : Bool
  load : α → β
  store : β → α
  identity : β
  combine : β → β → β
  takeLater : β → β → Bool

section
variable {α : Type u} {β : Type v} (op : ScanOp α β)

/-- `_merge`: (earlier a) then (later b). -/
def merge (a b : β × Int) : β × Int :=
  if op.withIndex then
    if op.takeLater a.1 b.1 then b else a
  else
    let c := op.combine a.1 b.1
    (if op.rounds && op.wide then op.load (op.store c) else c, a.2)

/-- The value of a merge. -/
def vmerge (a b : β) : β := (merge op (a, -1) (b, -1)).1

/-! ## Lines -/

/-- `(v, vi)` after `r` elements of a line. -/
def lineState (x : Nat → α) : Nat → β × Int
  | 0 => (op.identity, -1)
  | r + 1 => merge op (lineState x r) (op.load (x r), r)

/-- A store of a value and of an index. -/
structure Write (α : Type u) where
  addr : Nat
  val : α
  idx : Int

/-- `_scan_lines_kernel` on a grid of `threads`. -/
def linesWrites (data : Nat → α) (threads lines n inner : Nat) : List (Write α) :=
  (gridItems threads lines).flatMap fun t =>
    let o := t / inner
    let i := t - o * inner
    let base := o * n * inner + i
    (List.range n).map fun r =>
      let state := lineState op (fun r => data (base + r * inner)) (r + 1)
      ⟨base + r * inner, op.store state.1, state.2⟩

/-! ## Rows with a carry -/

/-- The shared buffers when tile `s` has been loaded. -/
def rowsTile (x : Nat → α) (n s tid : Nat) : β × Int :=
  let j := s * SCAN_THREADS + tid
  if j < n then (op.load (x j), j) else (op.identity, -1)

/-- The shared buffers when tile `s` has been scanned. -/
def rowsScanned (x : Nat → α) (n s : Nat) : Nat → β × Int :=
  doubling (offsetStep (merge op) id) SCAN_THREADS 8 1 (rowsTile op x n s)

/-- `(carry_v, carry_i)` before tile `s`. -/
def rowsCarry (x : Nat → α) (n : Nat) : Nat → β × Int
  | 0 => (op.identity, -1)
  | s + 1 => merge op (rowsCarry x n s) (rowsScanned op x n s (SCAN_THREADS - 1))

/-- `_scan_rows_kernel` on a grid of `grid` blocks. -/
def rowsWrites (data : Nat → α) (grid rows n : Nat) : List (Write α) :=
  (gridItems grid rows).flatMap fun row =>
    let x := fun j => data (row * n + j)
    (List.range (pieces n SCAN_THREADS)).flatMap fun s =>
      ((List.range SCAN_THREADS).filter fun tid => s * SCAN_THREADS + tid < n).map fun tid =>
        let r := merge op (rowsCarry op x n s) (rowsScanned op x n s tid)
        ⟨row * n + (s * SCAN_THREADS + tid), op.store r.1, r.2⟩

/-! ## Sklansky tiles -/

/-- `_cuda_log_threads_x`, from the two logarithms that it finds in 32 bits. -/
def cudaLogThreadsX (lx ly : Nat) : Nat := min (max ((9 + (2 ^ 32 + lx - ly)) % 2 ^ 32 / 2) 4) 9

/-- `a` -/
def sklanskyA (m t : Nat) : Nat := ((t >>> m) <<< (m + 1)) ||| 2 ^ m

/-- A step of the network. -/
def sklanskyStep (nx m : Nat) (smem : Nat → β) : Nat → β :=
  storeAll ((List.range nx).map fun t =>
    (sklanskyA m t + (t &&& (2 ^ m - 1)),
      vmerge op (smem (sklanskyA m t - 1)) (smem (sklanskyA m t + (t &&& (2 ^ m - 1)))))) smem

/-- The first `steps` steps. -/
def sklanskySteps (nx : Nat) : Nat → (Nat → β) → Nat → β
  | 0, smem => smem
  | m + 1, smem => sklanskyStep op nx m (sklanskySteps nx m smem)

/-- The shared memory of a row when tile `s` has been scanned after `total`. -/
def sklanskyTile (x : Nat → α) (n logX s : Nat) (total : β) : Nat → β :=
  let nx := 2 ^ logX
  let col0 := s * (2 * nx)
  let loaded := fun p => if col0 + p < n then op.load (x (col0 + p)) else op.identity
  sklanskySteps op nx (logX + 1) (Function.update loaded 0 (vmerge op total (loaded 0)))

/-- `total` before tile `s`. -/
def sklanskyTotal (x : Nat → α) (n logX : Nat) : Nat → β
  | 0 => op.identity
  | s + 1 => sklanskyTile op x n logX s (sklanskyTotal x n logX s) (2 * 2 ^ logX - 1)

/-- `_scan_rows_sklansky_kernel` on a grid of `grid` blocks. -/
def sklanskyWrites (data : Nat → α) (grid rows n logX : Nat) : List (Write α) :=
  let nx := 2 ^ logX
  let ny := CUDA_SCAN_THREADS / nx
  (gridItems grid (pieces rows ny)).flatMap fun group =>
    ((List.range ny).filter fun ty => group * ny + ty < rows).flatMap fun ty =>
      let row := group * ny + ty
      let x := fun j => data (row * n + j)
      (List.range (pieces n (2 * nx))).flatMap fun s =>
        ((List.range (2 * nx)).filter fun p => s * (2 * nx) + p < n).map fun p =>
          ⟨row * n + (s * (2 * nx) + p),
            op.store (sklanskyTile op x n logX s (sklanskyTotal op x n logX s) p), -1⟩

/-! ## Three passes -/

/-- The bytes of an element: 1, 2, 4 or 8. -/
abbrev Size : Type := {bytes : Nat // bytes ∣ 8}

/-- `w` -/
def tileWidth (n t : Nat) : Nat := min CUB_TILE (n - t * CUB_TILE)

/-- Whether a tile is moved in accesses of 16 bytes. -/
def vectorised (size : Size) (addr n t : Nat) : Bool :=
  tileWidth n t = CUB_TILE && (addr + t * CUB_TILE * size.1) % 16 = 0

/-- The accesses of 16 bytes: a first position and a width. -/
def vectorAccesses (size : Size) : List (Nat × Nat) :=
  let V := 16 / size.1
  let nvec := CUB_TILE / V
  (List.range CUB_THREADS).flatMap fun tid =>
    (List.range (pieces nvec CUB_THREADS)).filterMap fun j =>
      let vi := j * CUB_THREADS + tid
      if vi < nvec then some (vi * V, V) else none

/-- The accesses of single elements below `stop`. -/
def scalarAccesses (stop : Nat) : List (Nat × Nat) :=
  (gridItems CUB_THREADS stop).map fun k => (k, 1)

/-- The positions of accesses. -/
def positions (accesses : List (Nat × Nat)) : List Nat :=
  accesses.flatMap fun a => (List.range a.2).map fun e => a.1 + e

/-- The tile in shared memory, over what was there. -/
def cubTile (size : Size) (inAddr : Nat) (data : Nat → α) (n t : Nat) (smem : Nat → β) : Nat → β :=
  if vectorised size inAddr n t then
    storeAll ((positions (vectorAccesses size)).map fun k =>
      (k, op.load (data (t * CUB_TILE + k)))) smem
  else
    storeAll ((positions (scalarAccesses CUB_TILE)).map fun k =>
      (k, if k < tileWidth n t then op.load (data (t * CUB_TILE + k)) else op.identity)) smem

/-- `agg` of a thread. -/
def cubAgg (tile : Nat → β) (tid : Nat) : β := fold1 (vmerge op) tile (tid * CUB_ITEMS) (CUB_ITEMS - 1)

/-- The warps' inclusive scans in `_cub_block_prefix`. -/
def cubWarps (agg : Nat → β) : Nat → β := doubling (offsetStep (vmerge op) (· % 32)) 32 5 1 agg

/-- `warp_tot` -/
def warpTot (agg : Nat → β) (warp : Nat) : β := cubWarps op agg (32 * warp + 31)

/-- `excl` and `has_excl` of `_cub_block_prefix`: none has no exclusive prefix. -/
def cubExcl (agg : Nat → β) (tid : Nat) : Option β :=
  let lane := tid % 32
  let warp := tid / 32
  let excl := if lane > 0 then some (cubWarps op agg (tid - 1)) else none
  if warp > 0 then
    let wp := fold1 (vmerge op) (warpTot op agg) 0 (warp - 1)
    match excl with
    | some e => some (vmerge op wp e)
    | none => some wp
  else excl

/-- `block_tot` -/
def cubBlockTot (agg : Nat → β) : β := fold1 (vmerge op) (warpTot op agg) 0 (CUB_WARPS - 1)

/-- `_scan_1d_tile_agg_kernel` -/
def tileAggWrites (size : Size) (inAddr : Nat) (data : Nat → α) (n tiles : Nat)
    (smem : Nat → β) : List (Nat × β) :=
  (List.range tiles).map fun t =>
    (t, cubBlockTot op (cubAgg op (cubTile op size inAddr data n t smem)))

/-- `lo` and `hi` of a thread's chunk of tiles. -/
def prefixLo (tiles tid : Nat) : Nat := min (tid * pieces tiles CUB_PREFIX_THREADS) tiles
def prefixHi (tiles tid : Nat) : Nat :=
  min (prefixLo tiles tid + pieces tiles CUB_PREFIX_THREADS) tiles

/-- `tot` of a thread's chunk. -/
def prefixTot (ws : Nat → β) (tiles tid : Nat) : β :=
  (List.range' (prefixLo tiles tid) (prefixHi tiles tid - prefixLo tiles tid)).foldl
    (fun tot i => if i = prefixLo tiles tid then ws i else vmerge op tot (ws i)) op.identity

/-- `part` when it has been scanned. -/
def prefixPart (ws : Nat → β) (tiles : Nat) : Nat → β :=
  doubling (offsetStep (vmerge op) id) CUB_PREFIX_THREADS 10 1 (prefixTot op ws tiles)

/-- The stores of a thread from tile `i` on; `p` is none as long as `has` is false. -/
def prefixStores (ws : Nat → β) (tiles : Nat) : Nat → Nat → Option β → List (Nat × β)
  | 0, _, _ => []
  | count + 1, i, some p =>
    (tiles + i, p) :: prefixStores ws tiles count (i + 1) (some (vmerge op p (ws i)))
  | count + 1, i, none => prefixStores ws tiles count (i + 1) (some (ws i))

/-- `_scan_1d_tile_prefix_kernel` -/
def tilePrefixWrites (ws : Nat → β) (tiles : Nat) : List (Nat × β) :=
  if tiles ≤ CUB_SEQ_TILES then prefixStores op ws tiles (tiles - 1) 1 (some (ws 0))
  else
    (List.range CUB_PREFIX_THREADS).flatMap fun tid =>
      let lo := prefixLo tiles tid
      prefixStores op ws tiles (prefixHi tiles tid - lo) lo
        (if tid > 0 ∧ lo > 0 then some (prefixPart op ws tiles (tid - 1)) else none)

/-- `excl` of a thread of a tile in the last pass. -/
def tileExcl (ws : Nat → β) (tiles t : Nat) (agg : Nat → β) (tid : Nat) : Option β :=
  if t > 0 then
    match cubExcl op agg tid with
    | some e => some (vmerge op (ws (tiles + t)) e)
    | none => some (ws (tiles + t))
  else cubExcl op agg tid

/-- `run` of a thread after its item `k`. -/
def tileRun (tile : Nat → β) (excl : Option β) (tid : Nat) : Nat → β
  | 0 =>
    match excl with
    | some e => vmerge op e (tile (tid * CUB_ITEMS))
    | none => tile (tid * CUB_ITEMS)
  | k + 1 => vmerge op (tileRun tile excl tid k) (tile (tid * CUB_ITEMS + (k + 1)))

/-- The tile in shared memory when its threads have stored their runs. -/
def tileScanned (tile ws : Nat → β) (tiles t : Nat) : Nat → β :=
  storeAll ((List.range CUB_THREADS).flatMap fun tid => (List.range CUB_ITEMS).map fun k =>
    (tid * CUB_ITEMS + k,
      tileRun op tile (tileExcl op ws tiles t (cubAgg op tile) tid) tid k)) tile

/-- `_scan_1d_tile_scan_kernel` -/
def tileScanWrites (size : Size) (outAddr inAddr : Nat) (data : Nat → α) (n tiles : Nat)
    (ws smem : Nat → β) : List (Write α) :=
  (List.range tiles).flatMap fun t =>
    let scanned := tileScanned op (cubTile op size inAddr data n t smem) ws tiles t
    (positions (if vectorised size outAddr n t then vectorAccesses size
      else scalarAccesses (tileWidth n t))).map fun k =>
        ⟨t * CUB_TILE + k, op.store (scanned k), -1⟩

end

/-! ## Memory -/

/-- The output, its indices and a workspace. -/
structure Memory (α : Type u) (β : Type v) where
  out : Nat → α
  idx : Nat → Int
  ws : Nat → β

section
variable {α : Type u} {β : Type v}

/-- A launch that stores values, and indices when the scan has them. -/
structure StoresOut (withIndex : Bool) (writes : List (Write α)) (m m' : Memory α β) : Prop where
  out : Stores (writes.map fun w => (w.addr, w.val)) m.out m'.out
  idx : Stores (if withIndex then writes.map fun w => (w.addr, w.idx) else []) m.idx m'.idx

/-- A launch that stores in the workspace. -/
structure StoresWs (writes : List (Nat × β)) (m m' : Memory α β) : Prop where
  ws : Stores writes m.ws m'.ws
  out : m'.out = m.out
  idx : m'.idx = m.idx

variable (op : ScanOp α β)

/-- `_scan_1d_cub` -/
def Scan1dCub (size : Size) (outAddr inAddr : Nat) (data : Nat → α) (n : Nat) (smem : Nat → β)
    (m m' : Memory α β) : Prop :=
  let tiles := pieces n CUB_TILE
  if tiles > 1 then ∃ m₁ m₂ : Memory α β,
    StoresWs (tileAggWrites op size inAddr data n tiles smem) m m₁ ∧
    StoresWs (tilePrefixWrites op m₁.ws tiles) m₁ m₂ ∧
    StoresOut op.withIndex (tileScanWrites op size outAddr inAddr data n tiles m₂.ws smem) m₂ m'
  else StoresOut op.withIndex (tileScanWrites op size outAddr inAddr data n tiles m.ws smem) m m'

/-- `route` in `_scan_into`; `last` when the scan runs over the last dimension. -/
def route (outer n inner : Nat) (last : Bool) : Nat :=
  if outer * n * inner = n then 0 else if last then 1 else 2

/-- The kernels and their grids. -/
inductive Kernel where
  | cub
  | sklansky (grid logX : Nat)
  | rows (grid : Nat)
  | lines (threads : Nat)

/-- The choice of `_scan`; `isFloat` for the float element types. -/
def choose (isFloat : Bool) (route outer n inner lx ly : Nat) : Kernel :=
  if ¬ op.withIndex ∧ op.rounds ∧ isFloat ∧ route = 0 then .cub
  else if ¬ op.withIndex ∧ route ≠ 2 ∧ inner = 1 then
    let logX := cudaLogThreadsX lx ly
    .sklansky (min (pieces outer (CUDA_SCAN_THREADS / 2 ^ logX)) SCAN_MAX_BLOCKS) logX
  else if op.withIndex ∧ inner = 1 ∧ n ≥ SCAN_ROW_BLOCK_MIN then .rows (min outer SCAN_MAX_BLOCKS)
  else .lines (min (pieces (outer * inner) SCAN_THREADS) SCAN_MAX_BLOCKS * SCAN_THREADS)

/-- The positions of the operand that a kernel loads. -/
def loads (size : Size) (inAddr outer n inner : Nat) : Kernel → List Nat
  | .cub =>
    (List.range (pieces n CUB_TILE)).flatMap fun t =>
      (if vectorised size inAddr n t then positions (vectorAccesses size)
        else (positions (scalarAccesses CUB_TILE)).filter fun k => k < tileWidth n t).map fun k =>
          t * CUB_TILE + k
  | .sklansky grid logX =>
    let nx := 2 ^ logX
    let ny := CUDA_SCAN_THREADS / nx
    (gridItems grid (pieces outer ny)).flatMap fun group =>
      ((List.range ny).filter fun ty => group * ny + ty < outer).flatMap fun ty =>
        (List.range (pieces n (2 * nx))).flatMap fun s =>
          ((List.range (2 * nx)).filter fun p => s * (2 * nx) + p < n).map fun p =>
            (group * ny + ty) * n + (s * (2 * nx) + p)
  | .rows grid =>
    (gridItems grid outer).flatMap fun row =>
      (List.range (pieces n SCAN_THREADS)).flatMap fun s =>
        ((List.range SCAN_THREADS).filter fun tid => s * SCAN_THREADS + tid < n).map fun tid =>
          row * n + (s * SCAN_THREADS + tid)
  | .lines threads =>
    (gridItems threads (outer * inner)).flatMap fun t =>
      (List.range n).map fun r =>
        t / inner * n * inner + (t - t / inner * inner) + r * inner

/-- What a kernel stores in the output, the prefixes of the tiles in `ws`. -/
def outWrites (size : Size) (outAddr inAddr : Nat) (data : Nat → α) (outer n inner : Nat)
    (smem ws : Nat → β) : Kernel → List (Write α)
  | .cub => tileScanWrites op size outAddr inAddr data n (pieces n CUB_TILE) ws smem
  | .sklansky grid logX => sklanskyWrites op data grid outer n logX
  | .rows grid => rowsWrites op data grid outer n
  | .lines threads => linesWrites op data threads (outer * inner) n inner

/-- `_scan` -/
def ScanRun (size : Size) (outAddr inAddr : Nat) (data : Nat → α) (outer n inner : Nat)
    (smem : Nat → β) (kernel : Kernel) (m m' : Memory α β) : Prop :=
  match kernel with
  | .cub => Scan1dCub op size outAddr inAddr data n smem m m'
  | kernel =>
    StoresOut op.withIndex (outWrites op size outAddr inAddr data outer n inner smem m.ws kernel) m m'

end

end TorchMojoBackend.Kernels.Scan
