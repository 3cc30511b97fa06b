/-
  `Kernels.RowSort`: sorting and selection along rows.

  Everything sorts pairs of a key and the element's index in its row; the index breaks
  every tie.  A row that fits one tile is sorted in shared memory.  A selection of a long
  row sorts each tile, keeps the first pairs of each and sorts what it kept.  A full sort
  of a long row sorts its tiles in turn up and down and merges them, the steps between
  tiles in global memory and those inside a tile in shared memory.
-/
import Mathlib.Data.Nat.Bitwise
import Mathlib.Data.Nat.Log
import Mathlib.Order.BoundedOrder.Basic
import TorchMojoBackend.Foundation.Bitonic
import TorchMojoBackend.Foundation.Launch
import TorchMojoBackend.Foundation.Spans

set_option autoImplicit false

namespace TorchMojoBackend.Kernels.RowSort

open TorchMojoBackend.Foundation

universe u v

/-- `_TILE`; `wide` for keys of 64 bits. -/
def TILE (wide : Bool) : Nat := if wide then 2048 else 4096
def SORT_THREADS : Nat := 1024
def GS_THREADS : Nat := 256
def SORT_MAX_GRID_ROWS : Nat := 65535
def SORT_MAX_ROW : Nat := 2147483647

/-- `_SENTINEL_IDX` -/
def SENTINEL_IDX : Nat := 2147483647

/-- `_bitonic_partner` -/
def bitonicPartner (pair stride : Nat) : Nat :=
  (pair.ldiff (stride - 1)) <<< 1 ||| (pair &&& (stride - 1))

/-- `next_power_of_two` -/
def nextPowerOfTwo (n : Nat) : Nat := 2 ^ Nat.clog 2 n

/-- The values of `k` in `while k <= span: ...; k <<= 1`. -/
def stages (start span : Nat) : List Nat := doublings span (span + 1) start

/-- The values of `j` in `while j >= stop: ...; j >>= 1`. -/
def steps (stop j : Nat) : List Nat := halvings stop (j + 1) j

/-! ## Pairs -/

/-- A key and the position of its element. -/
abbrev Pair (K : Type u) : Type u := K × Nat

section
variable {K : Type u} [LinearOrder K]

/-- `_after` -/
def after (descending : Bool) (a b : Pair K) : Bool :=
  if a.1 ≠ b.1 then
    if descending then a.1 < b.1 else a.1 > b.1
  else a.2 > b.2

/-- The stores of threads that compare pairs; the buffer starts at `start` of the row. -/
def exchanges (descending : Bool) (start k j : Nat) (pairs : List Nat) (v : Nat → Pair K) :
    List (Nat × Pair K) :=
  pairs.flatMap fun p =>
    let t := bitonicPartner p j
    let partner := t + j
    let swapNeeded :=
      if (start + t) &&& k = 0 then after descending (v t) (v partner)
      else after descending (v partner) (v t)
    if swapNeeded then [(t, v partner), (partner, v t)] else []

/-- The steps of a block in shared memory, a barrier after each. -/
def localSteps (descending : Bool) (start k span : Nat) (js : List Nat) (v : Nat → Pair K) :
    Nat → Pair K :=
  js.foldl (fun v j =>
    storeAll (exchanges descending start k j (gridItems SORT_THREADS (span / 2)) v) v) v

/-- The shared memory of a tile when it has been sorted. -/
def sortedTile (descending : Bool) (span start : Nat) (loaded : Nat → Pair K) : Nat → Pair K :=
  (stages 2 span).foldl (fun v k => localSteps descending start k span (steps 1 (k / 2)) v) loaded

variable [BoundedOrder K]

/-- `_sentinel_key` -/
def sentinelKey (descending : Bool) : K := if descending then ⊥ else ⊤

/-- A padding lane. -/
def sentinel (descending : Bool) : Pair K := (sentinelKey descending, SENTINEL_IDX)

end

/-! ## Launches -/

/-- A launch; each has a row of blocks for each row. -/
inductive Launch where
  | sortTile (fromPairs : Bool) (tiles inRowLen outRowLen emit span : Nat) (dirGlobal : Bool)
  | bitonicStep (blocks rowPow2 j k : Nat)
  | mergeLocal (tiles rowPow2 k : Nat)

/-- `_sort_pairs_gpu`; none when it raises. -/
def sortPairsGpu (wide : Bool) (n outK pad route : Nat) : Option (List Launch) :=
  if route = 0 then
    if pad > TILE wide then none else some [.sortTile false 1 n pad pad pad false]
  else if route = 1 then
    let tiles := (n + TILE wide - 1) / TILE wide
    let span := nextPowerOfTwo pad
    if span > TILE wide then none
    else some [.sortTile false tiles n pad outK (TILE wide) false,
      .sortTile true 1 pad pad outK span false]
  else if route = 2 then
    let tiles := pad / TILE wide
    let stepBlocks := max 1 (min ((pad / 2 + SORT_THREADS - 1) / SORT_THREADS) 1024)
    some (.sortTile false tiles n pad (TILE wide) (TILE wide) true ::
      (stages (TILE wide * 2) pad).flatMap fun k =>
        (steps (TILE wide) (k / 2)).map (fun j => .bitonicStep stepBlocks pad j k) ++
          [.mergeLocal tiles pad k])
  else none

/-- The positions of the shared memory that a launch uses. -/
def Launch.shared (wide : Bool) : Launch → List Nat
  | .sortTile _ _ _ _ emit span _ =>
    gridItems SORT_THREADS span ++
      ((stages 2 span).flatMap fun k => (steps 1 (k / 2)).flatMap fun j =>
        (gridItems SORT_THREADS (span / 2)).flatMap fun p =>
          [bitonicPartner p j, bitonicPartner p j + j]) ++
      gridItems SORT_THREADS emit
  | .bitonicStep .. => []
  | .mergeLocal .. =>
    gridItems SORT_THREADS (TILE wide) ++
      ((steps 1 (TILE wide / 2)).flatMap fun j =>
        (gridItems SORT_THREADS (TILE wide / 2)).flatMap fun p =>
          [bitonicPartner p j, bitonicPartner p j + j])

/-- The positions of the workspace that a launch uses. -/
def Launch.workspace (wide : Bool) (rows : Nat) : Launch → List Nat
  | .sortTile fromPairs tiles inRowLen outRowLen emit span _ =>
    (List.range rows).flatMap fun row => (List.range tiles).flatMap fun tile =>
      (if fromPairs then
        ((gridItems SORT_THREADS span).filter fun i => tile * span + i < inRowLen).map fun i =>
          row * inRowLen + (tile * span + i)
      else []) ++
        (gridItems SORT_THREADS emit).map fun store => row * outRowLen + tile * emit + store
  | .bitonicStep blocks rowPow2 j _ =>
    (List.range rows).flatMap fun row =>
      (gridItems (blocks * SORT_THREADS) (rowPow2 / 2)).flatMap fun p =>
        [row * rowPow2 + bitonicPartner p j, row * rowPow2 + (bitonicPartner p j + j)]
  | .mergeLocal tiles rowPow2 _ =>
    (List.range rows).flatMap fun row => (List.range tiles).flatMap fun tile =>
      (gridItems SORT_THREADS (TILE wide)).map fun i => row * rowPow2 + tile * TILE wide + i

/-- The positions of the operand that a launch loads. -/
def Launch.operand (rows : Nat) : Launch → List Nat
  | .sortTile false tiles inRowLen _ _ span _ =>
    (List.range rows).flatMap fun row => (List.range tiles).flatMap fun tile =>
      ((gridItems SORT_THREADS span).filter fun i => tile * span + i < inRowLen).map fun i =>
        row * inRowLen + (tile * span + i)
  | _ => []

section
variable {K : Type u} [LinearOrder K] [BoundedOrder K]

/-- What a launch stores in the workspace, the elements' keys in `keys`, over shared memory that
holds `smem`. -/
def Launch.writes (wide descending : Bool) (rows : Nat) (keys : Nat → K) (smem ws : Nat → Pair K) :
    Launch → List (Nat × Pair K)
  | .sortTile fromPairs tiles inRowLen outRowLen emit span dirGlobal =>
    (List.range rows).flatMap fun row => (List.range tiles).flatMap fun tile =>
      let base := tile * span
      let loaded := storeAll ((gridItems SORT_THREADS span).map fun load =>
        (load, if base + load < inRowLen then
          if fromPairs then ws (row * inRowLen + (base + load))
          else (keys (row * inRowLen + (base + load)), base + load)
        else sentinel descending)) smem
      (gridItems SORT_THREADS emit).map fun store =>
        (row * outRowLen + tile * emit + store,
          sortedTile descending span (if dirGlobal then base else 0) loaded store)
  | .bitonicStep blocks rowPow2 j k =>
    (List.range rows).flatMap fun row =>
      (exchanges descending 0 k j (gridItems (blocks * SORT_THREADS) (rowPow2 / 2))
        fun i => ws (row * rowPow2 + i)).map fun w => (row * rowPow2 + w.1, w.2)
  | .mergeLocal tiles rowPow2 k =>
    (List.range rows).flatMap fun row => (List.range tiles).flatMap fun tile =>
      let base := row * rowPow2 + tile * TILE wide
      let loaded := storeAll ((gridItems SORT_THREADS (TILE wide)).map fun load =>
        (load, ws (base + load))) smem
      (gridItems SORT_THREADS (TILE wide)).map fun store =>
        (base + store, localSteps descending (tile * TILE wide) k (TILE wide)
          (steps 1 (TILE wide / 2)) loaded store)

/-- The launches one after the other. -/
def RunLaunches (wide descending : Bool) (rows : Nat) (keys : Nat → K) :
    List Launch → (Nat → Pair K) → (Nat → Pair K) → Prop
  | [], ws, ws' => ws' = ws
  | l :: ls, ws, ws' => ∃ smem mid, Stores (l.writes wide descending rows keys smem ws) ws mid ∧
    RunLaunches wide descending rows keys ls mid ws'

/-! ## The result -/

variable {α : Type v}

/-- The values and the indices. -/
structure Out (α : Type v) where
  values : Nat → α
  indices : Nat → Nat

/-- `_gs_blocks` -/
def gsBlocks (total : Nat) : Nat := max 1 (min ((total + GS_THREADS - 1) / GS_THREADS) 4096)

/-- The elements that `_gather_kernel` moves: a position of the result and one of the operand. -/
def gathers (rows n pad outK : Nat) (ws : Nat → Pair K) : List (Nat × Nat × Nat) :=
  (List.range rows).flatMap fun row => (gridItems (gsBlocks outK * GS_THREADS) outK).map fun i =>
    (row * outK + i, row * n + (ws (row * pad + i)).2, (ws (row * pad + i)).2)

/-- `_gather_kernel`, from the operand's elements at `inAt` to the result at `outAt`. -/
structure Gather (rows n pad outK outAt : Nat) (vals : Nat → α) (ws : Nat → Pair K)
    (out out' : Out α) : Prop where
  values : Stores ((gathers rows n pad outK ws).map fun g => (outAt + g.1, vals g.2.1))
    out.values out'.values
  indices : Stores ((gathers rows n pad outK ws).map fun g => (outAt + g.1, g.2.2))
    out.indices out'.indices

/-- `while n_pow2 < n: n_pow2 <<= 1` -/
def growPow2 (n : Nat) : Nat → Nat → Nat
  | 0, x => x
  | fuel + 1, x => if x < n then growPow2 n fuel (x <<< 1) else x

/-- `route` and `pad` in `_sort_rows_into`. -/
def routePad (wide topk : Bool) (n outK : Nat) : Nat × Nat :=
  let tile := TILE wide
  let tiles := (n + tile - 1) / tile
  let nPow2 := growPow2 n n 1
  if nPow2 ≤ tile then (0, nPow2)
  else if topk ∧ tiles * outK ≤ tile then (1, tiles * outK)
  else (2, nPow2)

/-- The calls of `_sort_rows_into` for the rows from each `r0` on. -/
def SortCalls (wide descending topk : Bool) (sortKey : α → K) (vals : Nat → α)
    (rows n outK : Nat) : List Nat → (Nat → Pair K) → Out α → Out α → Prop
  | [], _, out, out' => out' = out
  | r0 :: rest, ws, out, out' =>
    let route := (routePad wide topk n outK).1
    let pad := (routePad wide topk n outK).2
    let r := min (min rows SORT_MAX_GRID_ROWS) (rows - r0)
    ∃ plan ws' mid, sortPairsGpu wide n outK pad route = some plan ∧
      RunLaunches wide descending r (fun p => sortKey (vals (r0 * n + p))) plan ws ws' ∧
      Gather r n pad outK (r0 * outK) (fun p => vals (r0 * n + p)) ws' out mid ∧
      SortCalls wide descending topk sortKey vals rows n outK rest ws' mid out'

/-- `_sort_rows_into` with its workspace `ws`. -/
def SortRowsInto (wide descending topk : Bool) (sortKey : α → K) (vals : Nat → α)
    (rows n outK : Nat) (ws : Nat → Pair K) (out out' : Out α) : Prop :=
  SortCalls wide descending topk sortKey vals rows n outK
    (strided rows (min rows SORT_MAX_GRID_ROWS) rows 0) ws out out'

end

end TorchMojoBackend.Kernels.RowSort
