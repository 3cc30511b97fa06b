/-
  `Kernels.Welford`: the kernels of var, std and var_mean, over exact arithmetic.

  Source: tmb/kernels/stats/entry.mojo (from WELFORD_THREADS to `_welford_go`).

  The kernels are the same for every kind of state: what a thread does to its states is a
  record of operations, and offsets into the input say which elements an operation reads.
  One record is the code's arithmetic, another keeps the offsets themselves.

  The three words of a partial in the workspace move together, and stand at the address of
  the first.
-/
import Mathlib.Algebra.Field.Defs
import Mathlib.Order.Defs.LinearOrder
import TorchMojoBackend.Foundation.Launch
import TorchMojoBackend.Foundation.Moments
import TorchMojoBackend.Foundation.Reductions
import TorchMojoBackend.Kernels.OpUtils

set_option autoImplicit false

namespace TorchMojoBackend.Kernels.Welford

open TorchMojoBackend.Foundation
open TorchMojoBackend.Kernels.OpUtils

universe u v

/-- `WELFORD_DTYPES` -/
inductive WelfordDtype
  | float32
  | float16
  | bfloat16
  | float64
  deriving DecidableEq

/-- `size_of` -/
def WelfordDtype.size : WelfordDtype → Nat
  | .float32 => 4
  | .float16 => 2
  | .bfloat16 => 2
  | .float64 => 8

def welfordThreads : Nat := 256

def statsMaxBlocks : Nat := 65535

def welfordMinPerSplit : Nat := 4096

def welfordMinRowsPerSplit : Nat := 16

def welfordColsTile : Nat := 32

def welfordSerialMergeMax : Nat := 256

def welfordMinTpr : Nat := 8

def welfordMinUnitsPerThread : Nat := 16

def welfordMinScalarsPerThread : Nat := 8

def welfordBlocksPerSm : Nat := 3

def welfordColsBlocksPerSm : Nat := 8

def welfordIlp : Nat := 4

def welfordVecIlp : Nat := 2

/-- `_welford_vec`: the lanes of a load. -/
def welfordVec (dt : WelfordDtype) : Nat := min (16 / dt.size) 4

/-- The number of times that a load's lanes halve. -/
def vecBits : WelfordDtype → Nat
  | .float64 => 1
  | _ => 2

theorem welfordVec_eq (dt : WelfordDtype) : welfordVec dt = 2 ^ vecBits dt := by
  cases dt <;> rfl

theorem welfordVec_pos (dt : WelfordDtype) : 0 < welfordVec dt := by
  rw [welfordVec_eq]
  exact Nat.two_pow_pos _

/-! ## States -/

/-- What the kernels do to states: `S` is a state, `V` the states of a load's lanes. -/
structure WelfordOps (S : Type u) (V : Type v) where
  zero : S
  combine : S → S → S
  /-- `_welford_update` with the element at an offset -/
  update : Nat → S → S
  vecZero : V
  /-- `_welford_vec_update` with the load at an offset -/
  vecUpdate : Nat → V → V
  lanes : V → S

section
variable {K : Type u} [Field K] [LinearOrder K]

/-- `_welford_combine` -/
def welfordCombine (a b : Moments K) : Moments K :=
  if a.count = 0 then b
  else if b.count = 0 then a
  else
    let delta := b.mean - a.mean
    let newCount := a.count + b.count
    let nbOverN := b.count / newCount
    { mean := a.mean + delta * nbOverN
      m2 := a.m2 + b.m2 + delta * delta * a.count * nbOverN
      count := newCount }

/-- `_welford_update` -/
def welfordUpdate (x : K) (s : Moments K) : Moments K :=
  let nf := s.count + 1
  let delta := x - s.mean
  let mean := s.mean + delta / nf
  ⟨mean, s.m2 + delta * (x - mean), nf⟩

/-- The states of a load's lanes, which share their count. -/
structure VecState (K : Type u) where
  mean : Nat → K
  m2 : Nat → K
  nf : K

/-- `_welford_vec_update` -/
def welfordVecUpdate (width : Nat) (x : Nat → K) (s : VecState K) : VecState K :=
  let nf := s.nf + 1
  let delta := fun e => x e - s.mean e
  let mean := fun e => if width = 1 then s.mean e + delta e / nf else s.mean e + delta e * (1 / nf)
  ⟨mean, fun e => s.m2 e + delta e * (x e - mean e), nf⟩

/-- `_welford_lanes` of `2 ^ k` lanes. -/
def welfordLanes : Nat → (Nat → K) → (Nat → K) → K → Moments K
  | 0, mean, m2, nf => ⟨mean 0, m2 0, nf⟩
  | k + 1, mean, m2, nf =>
      let h := 2 ^ k
      let delta := fun e => mean (h + e) - mean e
      let m := fun e => mean e + delta e * (1 / 2)
      let q := fun e => m2 e + m2 (h + e) + delta e * delta e * nf * (1 / 2)
      welfordLanes k m q (nf + nf)

/-- The code's arithmetic on the elements of the input. -/
def arithmetic (dt : WelfordDtype) (input : Nat → K) : WelfordOps (Moments K) (VecState K) where
  zero := ⟨0, 0, 0⟩
  combine := welfordCombine
  update := fun off => welfordUpdate (input off)
  vecZero := ⟨fun _ => 0, fun _ => 0, 0⟩
  vecUpdate := fun off => welfordVecUpdate (welfordVec dt) fun e => input (off + e)
  lanes := fun s => welfordLanes (vecBits dt) s.mean s.m2 s.nf

/-- `_welford_project`: the variance, or its root. -/
def projected (sqrt : K → K) (takeSqrt : Bool) (correction : K) (s : Moments K) : K :=
  let divisor := if correction < s.count then s.count - correction else 0
  let v := s.m2 / divisor
  if takeSqrt then sqrt v else v

end

/-- The offsets that were folded into a state, and those of the vector loads among them. -/
structure Trace where
  folded : Multiset Nat
  loads : Multiset Nat

/-- A state that keeps its offsets. -/
def tracing (dt : WelfordDtype) : WelfordOps Trace Trace where
  zero := ⟨0, 0⟩
  combine := fun a b => ⟨a.folded + b.folded, a.loads + b.loads⟩
  update := fun off s => ⟨off ::ₘ s.folded, s.loads⟩
  vecZero := ⟨0, 0⟩
  vecUpdate := fun off s =>
    ⟨(Multiset.range (welfordVec dt)).map (off + ·) + s.folded, off ::ₘ s.loads⟩
  lanes := id

namespace WelfordOps

variable {S : Type u} {V : Type v} (o : WelfordOps S V)

/-! ## Groups of threads -/

/-- The lane that a shuffle of a warp of `2 ^ warpBits` reads, itself past the end. -/
def shuffleSource (warpBits offset tid : Nat) : Nat :=
  if tid % 2 ^ warpBits + offset < 2 ^ warpBits then tid + offset else tid

/-- `_welford_warp`: shuffles with offsets below `width`. -/
def welfordWarp (warpBits width : Nat) (lanes : Nat → S) : Nat → S :=
  stages (fun off lanes =>
    if width ≤ off then lanes else shuffleDown o.combine (shuffleSource warpBits) off lanes)
    warpBits lanes

/-- `_welford_group`: what thread `tid` holds after it. -/
def welfordGroup (warpBits tpr : Nat) (lanes : Nat → S) (tid : Nat) : S :=
  let lanes := o.welfordWarp warpBits tpr lanes
  let wpg := tpr / 2 ^ warpBits
  if wpg ≤ 1 then lanes tid
  else if tid % tpr = 0 then
    (List.range' 1 (wpg - 1)).foldl (fun s k =>
      o.combine s (lanes ((tid / 2 ^ warpBits + k) * 2 ^ warpBits))) (lanes tid)
  else lanes tid

/-- States 1, 2, ... merged in order into state 0. -/
def mergeInto (first : S) (states : Nat → S) (count : Nat) : S :=
  (List.range' 1 (count - 1)).foldl (fun t k => o.combine t (states k)) first

/-! ## Rows -/

/-- The loop of a thread over units: state `k` takes `j + k * tpr`, for `j` = `first`,
`first + tpr * ilp`, ... below `u1`. -/
def interleaved {T : Type u} (unit : Nat → T → T) (ilp tpr first u1 : Nat) (start : T) (k : Nat) :
    T :=
  (strided u1 (tpr * ilp) u1 first).foldl (fun (states : Nat → T) j k =>
    if j + k * tpr < u1 then unit (j + k * tpr) (states k) else states k) (fun _ => start) k

/-- The arguments of `_welford_rows_kernel`. -/
structure RowsArgs where
  dt : WelfordDtype
  rows : Nat
  n : Nat
  seg : Nat
  splits : Nat
  tpr : Nat
  vec : Bool
  segmented : Bool

namespace RowsArgs

variable (a : RowsArgs)

/-- `W`: the elements of a unit. -/
def width : Nat := if a.vec then welfordVec a.dt else 1

/-- `nu`, the units of a row -/
def units : Nat := a.n / a.width

/-- `segu`, the units of a segment -/
def segUnits : Nat := a.seg / a.width

def chunk : Nat := ceildiv a.units a.splits

/-- `u0` -/
def start (split : Nat) : Nat := split * a.chunk

/-- `u1` -/
def stop (split : Nat) : Nat := min a.units (a.start split + a.chunk)

/-- The place of the unit `jj` of row `r`, in units; a segment's number is computed in 32 bits. -/
def unitOffset (r jj : Nat) : Nat :=
  if a.segmented then
    let q := (jj % 2 ^ 32) / (a.segUnits % 2 ^ 32)
    (q * a.rows + r) * a.segUnits + jj - q * a.segUnits
  else r * a.units + jj

end RowsArgs

/-- `_welford_rows_kernel`: a thread's state of row `r`, before the group merges; of a row past
the last it takes nothing. -/
def rowsThread (a : RowsArgs) (split r tid : Nat) : S :=
  let first := a.start split + tid % a.tpr
  let u1 := if r < a.rows then a.stop split else 0
  if a.vec then
    (List.range welfordVecIlp).foldl (fun t k => o.combine t (o.lanes (interleaved
      (fun jj => o.vecUpdate (a.unitOffset r jj * welfordVec a.dt)) welfordVecIlp a.tpr first u1
      o.vecZero k))) o.zero
  else
    (List.range welfordIlp).foldl (fun t k => o.combine t (interleaved
      (fun jj => o.update (a.unitOffset r jj)) welfordIlp a.tpr first u1 o.zero k)) o.zero

/-- `_welford_rows_kernel`: what the groups' first threads leave for a row and a split, over
blocks, splits and rounds. -/
def rowsPartials (warpBits grid : Nat) (a : RowsArgs) : List ((Nat × Nat) × S) :=
  let groups := welfordThreads / a.tpr
  (List.range grid).flatMap fun bx => (List.range a.splits).flatMap fun split =>
    (strided a.rows (grid * groups) a.rows (bx * groups)).flatMap fun r0 =>
      (List.range welfordThreads).filterMap fun tid =>
        let r := r0 + tid / a.tpr
        if r < a.rows ∧ tid % a.tpr = 0 then
          some ((r, split), o.welfordGroup warpBits a.tpr
            (fun tid => o.rowsThread a split (r0 + tid / a.tpr) tid) tid)
        else none

/-! ## Columns -/

/-- The arguments of `_welford_cols_kernel`. -/
structure ColsArgs where
  dt : WelfordDtype
  n : Nat
  inner : Nat
  splits : Nat
  cw : Nat

namespace ColsArgs

variable (a : ColsArgs)

def ilp : Nat := welfordIlp * if a.dt.size < 4 then 2 else 1

def lanes : Nat := welfordThreads / a.cw

def tiles : Nat := ceildiv a.inner a.cw

def chunk : Nat := ceildiv a.n a.splits

/-- `r0` -/
def start (split : Nat) : Nat := split * a.chunk

/-- `r1` -/
def stop (split : Nat) : Nat := min a.n (a.start split + a.chunk)

/-- `o` of a block -/
def outerOf (blk : Nat) : Nat := blk / a.tiles

/-- `i` of a thread -/
def column (blk tid : Nat) : Nat := blk % a.tiles * a.cw + tid % a.cw

def base (blk tid : Nat) : Nat := a.outerOf blk * a.n * a.inner + a.column blk tid

end ColsArgs

/-- The unconditional bodies: while all `ilp` rows are inside. -/
def colsBodies (row : Nat → S → S) (ilp lanes r1 : Nat) : Nat → Nat → (Nat → S) → (Nat → S) × Nat
  | 0, r, states => (states, r)
  | fuel + 1, r, states =>
      if r + (ilp - 1) * lanes < r1 then
        colsBodies row ilp lanes r1 fuel (r + lanes * ilp)
          fun u => row (r + u * lanes) (states u)
      else (states, r)

/-- `_welford_cols_kernel`: a thread's state before the lanes merge; of a column past the last
it takes nothing. -/
def colsThread (a : ColsArgs) (blk split tid : Nat) : S :=
  let row := fun r => o.update (a.base blk tid + r * a.inner)
  let r1 := if a.column blk tid < a.inner then a.stop split else 0
  let bodies := colsBodies row a.ilp a.lanes r1 r1 (a.start split + tid / a.cw) fun _ => o.zero
  (strided r1 a.lanes r1 bodies.2).foldl (fun t r => row r t)
    (o.mergeInto (bodies.1 0) bodies.1 a.ilp)

/-- `_welford_cols_kernel`: what the first lanes leave for an output and a split. -/
def colsPartials (blocks : Nat) (a : ColsArgs) : List ((Nat × Nat) × S) :=
  (List.range blocks).flatMap fun blk => (List.range a.splits).flatMap fun split =>
    (List.range welfordThreads).filterMap fun tid =>
      if a.column blk tid < a.inner ∧ tid / a.cw = 0 then
        some ((a.outerOf blk * a.inner + a.column blk tid, split),
          o.mergeInto (o.colsThread a blk split tid)
            (fun l => o.colsThread a blk split (l * a.cw + tid % a.cw)) a.lanes)
      else none

/-! ## Partials -/

/-- The address of the partial of an output and a split. -/
def partialAddr (splits r split : Nat) : Nat := (r * splits + split) * 3

/-- The partials that a thread of `_welford_merge_kernel` reads. -/
def mergeReads (rows splits tpr r tid : Nat) : List Nat :=
  (strided (if r < rows then splits else 0) tpr splits (tid % tpr)).map (partialAddr splits r)

/-- `_welford_merge_kernel`: a thread's state before the group merges. -/
def mergeThread (rows splits tpr : Nat) (ws : Nat → S) (r tid : Nat) : S :=
  (mergeReads rows splits tpr r tid).foldl (fun s w => o.combine s (ws w)) o.zero

/-- `_welford_merge_kernel`: the state of every output. -/
def mergeResults (warpBits grid rows splits tpr : Nat) (ws : Nat → S) : List (Nat × S) :=
  let groups := welfordThreads / tpr
  (List.range grid).flatMap fun bx =>
    (strided rows (grid * groups) rows (bx * groups)).flatMap fun r0 =>
      (List.range welfordThreads).filterMap fun tid =>
        let r := r0 + tid / tpr
        let threads := fun tid => o.mergeThread rows splits tpr ws (r0 + tid / tpr) tid
        if r < rows ∧ tid % tpr = 0 then
          some (r, if 1 < tpr then o.welfordGroup warpBits tpr threads tid else threads tid)
        else none

end WelfordOps

/-! ## Routes -/

/-- The arguments of `_welford_go` that its route depends on, and the number of
multiprocessors. -/
structure WelfordArgs where
  dt : WelfordDtype
  outer : Nat
  n : Nat
  inner : Nat
  seg : Nat
  inAddr : Nat
  smCount : Nat

/-- `while tpr > WELFORD_MIN_TPR and tpr * per_thread > units: tpr //= 2` -/
def shrinkTpr (perThread units : Nat) : Nat → Nat → Nat
  | 0, tpr => tpr
  | fuel + 1, tpr =>
      if tpr > welfordMinTpr ∧ tpr * perThread > units then shrinkTpr perThread units fuel (tpr / 2)
      else tpr

/-- `while cw < inner and cw < WELFORD_COLS_TILE: cw *= 2` -/
def growCw (inner : Nat) : Nat → Nat → Nat
  | 0, cw => cw
  | fuel + 1, cw =>
      if cw < inner ∧ cw < welfordColsTile then growCw inner fuel (cw * 2) else cw

namespace WelfordArgs

variable (a : WelfordArgs)

def outputs : Nat := a.outer * a.inner

def vec : Bool :=
  decide (a.seg % welfordVec a.dt = 0 ∧ a.inAddr % (welfordVec a.dt * a.dt.size) = 0)

/-- `units`, of a row -/
def units : Nat := if a.vec then a.n / welfordVec a.dt else a.n

def perThread : Nat := if a.vec then welfordMinUnitsPerThread else welfordMinScalarsPerThread

def tpr : Nat := shrinkTpr a.perThread a.units welfordThreads welfordThreads

def cw : Nat := growCw a.inner welfordColsTile 16

def target : Nat :=
  if a.inner > 1 then welfordColsBlocksPerSm * a.smCount else welfordBlocksPerSm * a.smCount

def baseBlocks : Nat :=
  if a.inner > 1 then a.outer * ceildiv a.inner a.cw else ceildiv a.outputs (welfordThreads / a.tpr)

def minPerSplit : Nat :=
  if a.inner > 1 then welfordMinRowsPerSplit * (welfordThreads / a.cw) else welfordMinPerSplit

def splits : Nat :=
  if a.baseBlocks < a.target then
    max 1 (min (ceildiv a.target a.baseBlocks) (a.n / a.minPerSplit))
  else 1

/-- What the first kernel is launched with, for rows. -/
def rowsArgs : WelfordOps.RowsArgs where
  dt := a.dt
  rows := a.outputs
  n := a.n
  seg := a.seg
  splits := a.splits
  tpr := a.tpr
  vec := a.vec
  segmented := decide (a.seg ≠ a.n)

/-- What the first kernel is launched with, for columns. -/
def colsArgs : WelfordOps.ColsArgs where
  dt := a.dt
  n := a.n
  inner := a.inner
  splits := a.splits
  cw := a.cw

/-- `mtpr` -/
def mergeTpr : Nat := if a.splits ≤ welfordSerialMergeMax then 1 else welfordThreads

def mergeGrid : Nat := min (ceildiv a.outputs (welfordThreads / a.mergeTpr)) statsMaxBlocks

section
variable {S : Type u} {V : Type v} (o : WelfordOps S V) (warpBits : Nat)

/-- What the first kernel leaves for every output and split. -/
def partials : List ((Nat × Nat) × S) :=
  if a.inner = 1 then o.rowsPartials warpBits (min a.baseBlocks statsMaxBlocks) a.rowsArgs
  else o.colsPartials a.baseBlocks a.colsArgs

/-- The stores to the workspace. -/
def workspaceStores : List (Nat × S) :=
  (a.partials o warpBits).map fun p => (WelfordOps.partialAddr a.splits p.1.1 p.1.2, p.2)

/-- `_welford_go`: the states that are projected, each with its output; the merge kernel reads
a workspace that the first kernel's stores left, in any order. -/
def Results (ws : Nat → S) (results : List (Nat × S)) : Prop :=
  if a.splits = 1 then results = (a.partials o warpBits).map fun p => (p.1.1, p.2)
  else ∃ ws', Stores (a.workspaceStores o warpBits) ws ws' ∧
    results = o.mergeResults warpBits a.mergeGrid a.outputs a.splits a.mergeTpr ws'

end

end WelfordArgs

end TorchMojoBackend.Kernels.Welford
