/-
  `Kernels.RandomFill`: filling a tensor from the Philox stream.

  The dimensions of the output are sorted by stride, where strides can be told apart, and
  coalesced; an output whose extent does not fit in 32 bits is halved along its longest
  dimension until its pieces do.  Each piece is one launch: a thread owns a subsequence
  of the stream, draws a block of four words in each round and spreads its values over
  elements a grid apart.
-/
import Mathlib.Algebra.Order.Ring.Int
import TorchMojoBackend.Foundation.Layout
import TorchMojoBackend.Kernels.OpUtils

set_option autoImplicit false

namespace TorchMojoBackend.Kernels.RandomFill

open TorchMojoBackend.Foundation TorchMojoBackend.Kernels.OpUtils

def INT32_MAX : Nat := 2147483647
def BLOCK : Nat := 256

/-- The iteration order of an output, the fastest dimension first, from an element on. -/
structure Plan where
  dims : List (Dim Int)
  numel : Nat
  base : Int
  deriving DecidableEq

/-! ## Planning -/

/-- `should_swap`: `eq` where the order is ambiguous. -/
def shouldSwap (d0 d1 : Dim Int) : Ordering :=
  if d0.stride = 0 ∨ d1.stride = 0 then .eq
  else if d0.stride < d1.stride then .lt
  else if d0.stride > d1.stride then .gt
  else if d0.extent > d1.extent then .gt
  else .eq

/-- One round of the insertion sort; the lists run from the right to the left. `skipped` has the
dimensions right of the scan that were ambiguous. -/
def sinkDim (x : Dim Int) (skipped : List (Dim Int)) : List (Dim Int) → List (Dim Int)
  | [] => x :: skipped
  | y :: rest =>
    match shouldSwap y x with
    | .gt => y :: skipped ++ sinkDim x [] rest
    | .lt => x :: skipped ++ y :: rest
    | .eq => sinkDim x (skipped ++ [y]) rest

/-- The dimensions in the order of iteration. -/
def reorder (ds : List (Dim Int)) : List (Dim Int) :=
  (ds.reverse.foldl (fun sorted x => sinkDim x [] sorted) []).reverse

/-- The coalesced dimensions from `prev` on. -/
def coalesce (prev : Dim Int) : List (Dim Int) → List (Dim Int)
  | [] => [prev]
  | d :: rest =>
    if prev.extent = 1 ∨ d.extent = 1 ∨ prev.extent * prev.stride = d.stride then
      coalesce ⟨prev.extent * d.extent, if prev.extent = 1 then d.stride else prev.stride⟩ rest
    else prev :: coalesce d rest

/-- `_plan`; it has none for an expanded output. -/
def plan (ds : List (Dim Int)) : Option Plan :=
  if ds = [] then some ⟨[⟨1, 1⟩], count ds, 0⟩
  else if ds.any fun d => decide (d.extent > 1) && decide (d.stride = 0) then none
  else
    match reorder ds with
    | [] => none
    | d :: rest => some ⟨coalesce d rest, count ds, 0⟩

def fits32bit (itemsize : Nat) (p : Plan) : Bool :=
  decide (p.numel ≤ INT32_MAX) &&
    decide (1 + (p.dims.map fun d => ((d.extent : Int) - 1) * d.stride * itemsize).sum ≤ INT32_MAX)

/-- The extent of the dimension `i` in bytes; none for an empty one. -/
def extentAt (itemsize : Nat) (p : Plan) (i : Nat) : Option Int :=
  let d := p.dims.getD i ⟨0, 0⟩
  if d.extent ≠ 0 then some (((d.extent : Int) - 1) * |d.stride * itemsize|) else none

/-- The longest dimension so far, with its extent. -/
def longer (itemsize : Nat) (p : Plan) (acc : Int × Option Nat) (i : Nat) : Int × Option Nat :=
  match extentAt itemsize p i with
  | some extent => if extent > acc.1 then (extent, some i) else acc
  | none => acc

def dimToSplit (itemsize : Nat) (p : Plan) : Option Nat :=
  ((List.range p.dims.length).reverse.foldl (longer itemsize p) (-1, none)).2

/-- `_pieces`; it has none if the fuel runs out. -/
def pieces (itemsize : Nat) : Nat → Plan → Option (List Plan)
  | fuel, p =>
    if fits32bit itemsize p ∨ p.numel = 0 then some [p]
    else
      match fuel, dimToSplit itemsize p with
      | fuel + 1, some dim =>
        let d := p.dims.getD dim ⟨0, 0⟩
        let firstSize := d.extent / 2
        let firstNumel := p.numel / d.extent * firstSize
        let first : Plan := ⟨p.dims.set dim ⟨firstSize, d.stride⟩, firstNumel, p.base⟩
        let second : Plan := ⟨p.dims.set dim ⟨d.extent - firstSize, d.stride⟩,
          p.numel - firstNumel, p.base + firstSize * d.stride⟩
        (pieces itemsize fuel first).bind fun a =>
          (pieces itemsize fuel second).map fun b => a ++ b
      | _, _ => none

/-! ## Launches -/

/-- `_grid`; `cap` is the blocks the device holds at once. -/
def gridOf (cap numel : Nat) : Nat := min (ceildiv numel BLOCK) cap

def counterOffset (numel grid unroll : Nat) : Nat :=
  ((numel - 1) / (BLOCK * grid * unroll) + 1) * 4

inductive Dist where
  | uniform | normal | logNormal | cauchy | exponential | geometric | bernoulli
  | randomFromTo32 | randomFromTo64 | randomFull64 | random32 | random64
  deriving DecidableEq

/-- The values that a block of words gives; `double` for a float64 output. -/
def distUnroll (dist : Dist) (double : Bool) : Nat :=
  match dist with
  | .randomFromTo64 | .randomFull64 | .random64 => 2
  | .randomFromTo32 | .random32 => 4
  | _ => if double then 2 else 4

/-- The words of a block that the value at `lane` is computed from. -/
def laneWords (dist : Dist) (double : Bool) (lane : Nat) : List Nat :=
  match dist with
  | .normal | .logNormal =>
    -- Box-Muller: two values of two floats, or of two doubles of two words each
    if double then [0, 1, 2, 3] else [lane / 2 * 2, lane / 2 * 2 + 1]
  | .randomFromTo32 | .random32 => [lane]
  | .randomFromTo64 | .randomFull64 | .random64 => [lane * 2, lane * 2 + 1]
  | _ => if double then [lane * 2, lane * 2 + 1] else [lane]

/-- The rounds of a thread: `(linear, k)` in `while linear < bound: ...; k += rand;
linear += step`. -/
def drawLoop (bound step rand : Nat) : Nat → Nat → Nat → List (Nat × Nat)
  | 0, _, _ => []
  | fuel + 1, linear, k =>
    if linear < bound then
      (linear, k) :: drawLoop bound step rand fuel (linear + step) (k + rand)
    else []

/-- A value: of the subsequence `idx`, the block `k` and the lane `lane`. -/
structure Value where
  idx : Nat
  k : Nat
  lane : Nat
  deriving DecidableEq

/-- The rounds of the thread `idx` of `_dist_kernel`. -/
def distRounds (numel grid N idx : Nat) : List (Nat × Nat) :=
  let total := grid * BLOCK
  let rounded := ((numel - 1) / (total * N) + 1) * total * N
  drawLoop rounded (total * N) 1 rounded idx 0

/-- What `_dist_kernel` does: element indices with the values they get. -/
def distKernel (numel grid N : Nat) : List (Nat × Value) :=
  (List.range (grid * BLOCK)).flatMap fun idx =>
    (distRounds numel grid N idx).flatMap fun (linear, k) =>
      (List.range N).flatMap fun ii =>
        let li := linear + grid * BLOCK * ii
        if li < numel then [(li, ⟨idx, k, ii⟩)] else []

/-- `_offset_of` with every dimension peeled. -/
def peelOffset : List (Dim Int) → Nat → Int
  | [], _ => 0
  | d :: ds, rem => (rem % d.extent : Nat) * d.stride + peelOffset ds (rem / d.extent)

/-- `_offset_of`. -/
def offsetOf (ds : List (Dim Int)) (li : Nat) : Int :=
  match ds with
  | [d] => li * d.stride
  | ds => peelOffset ds li

/-- The writes of the launch of a piece: element offsets with the values they get. -/
def pieceWrites (cap : Nat) (dist : Dist) (double : Bool) (p : Plan) : List (Int × Value) :=
  (distKernel p.numel (gridOf cap p.numel) (distUnroll dist double)).map fun w =>
    (p.base + offsetOf p.dims w.1, w.2)

/-- The pieces `_draw` launches. -/
def drawPieces (itemsize : Nat) (ds : List (Dim Int)) : Option (List Plan) :=
  if count ds = 0 then some []
  else (plan ds).bind fun p => pieces itemsize p.numel p

end TorchMojoBackend.Kernels.RandomFill
