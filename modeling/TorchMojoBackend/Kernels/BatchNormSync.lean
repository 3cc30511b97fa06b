/-
  `Kernels.BatchNormSync`: the statistics kernels of synchronized batch norm, over exact
  arithmetic.

  Source: tmb/kernels/batch_norm_sync/kernels.mojo and tmb/kernels/common/block_reduce.mojo
  (`block_sum`).

  Pointers are functions of an address, and the square root and the rounding through the
  input's dtype are parameters.  The threads of a block are numbered, and a stage between
  two barriers reads what the stages before it wrote.
-/
import Mathlib.Algebra.Order.Floor.Ring
import TorchMojoBackend.Foundation.Launch
import TorchMojoBackend.Foundation.Moments
import TorchMojoBackend.Foundation.Reductions

set_option autoImplicit false

namespace TorchMojoBackend.Kernels.BatchNormSync

open TorchMojoBackend.Foundation

universe u

/-- `BN_SYNC_THREADS`, of which `2 ^ blockStages` is the number -/
def syncThreads : Nat := 256

def blockStages : Nat := 8

def cudaWarp : Nat := 32

def warpStages : Nat := 5

def cudaMaxBlock : Nat := 512

/-- `_off`: the address of the element (n, c, s) of either layout. -/
def off (cl : Bool) (n c s channels hxw : Nat) : Nat :=
  if cl then (n * hxw + s) * channels + c else (n * channels + c) * hxw + s

section
variable {K : Type u} [Field K]

/-! ## Statistics -/

/-- `avg`, `m2_t` and `n_t` of a thread. -/
structure Welford (K : Type u) where
  avg : K
  m2 : K
  n : Int

/-- One element of a thread's pass. -/
def Welford.pass (s : Welford K) (v : K) : Welford K :=
  let d1 := v - s.avg
  let n := s.n + 1
  let avg := s.avg + d1 / (n : K)
  ⟨avg, s.m2 + d1 * (v - avg), n⟩

/-- The merge of two slots of the shared memory. -/
def Welford.merge (a b : Welford K) : Welford K :=
  let factor : K := 1 / ((max 1 (a.n + b.n) : Int) : K)
  let delta := a.avg - b.avg
  ⟨((a.n : K) * a.avg + (b.n : K) * b.avg) * factor,
    a.m2 + b.m2 + delta * delta * (a.n : K) * (b.n : K) * factor, a.n + b.n⟩

/-- The element `j` of the channel. -/
def channelValue (input : Nat → K) (cl : Bool) (channels hxw c j : Nat) : K :=
  let n := j / hxw
  input (off cl n c (j - n * hxw) channels hxw)

/-- The elements of a thread: `j = tid`, `tid + BN_SYNC_THREADS`, ... -/
def threadElements (count tid : Nat) : List Nat := strided count syncThreads count tid

/-- The passes of the threads over their elements, and the tree. -/
def collect (elements : Nat → List Nat) (input : Nat → K) (cl : Bool) (channels hxw c : Nat) :
    Welford K :=
  stages (treeHalf Welford.merge) blockStages (fun tid =>
    (elements tid).foldl (fun s j => s.pass (channelValue input cl channels hxw c j)) ⟨0, 0, 0⟩) 0

/-- What `_stats_kernel` leaves for a channel: `mean_ptr`, `var_ptr` and the running mean and
variance, where there are any. -/
structure Stats (K : Type u) where
  mean : K
  var : K
  running : Option (K × K)

variable (sqrt : K → K)

/-- `_inv_std` -/
def invStd [DecidableEq K] (var eps : K) : K :=
  if var = 0 ∧ eps = 0 then 0 else 1 / sqrt (var + eps)

/-- `_stats_kernel` after the tree. -/
def storeStats [DecidableEq K] (mode : Nat) (running : Option (K × K)) (eps momentum bessel : K)
    (count : Nat) (w : Welford K) : Stats K :=
  let var := w.m2 / (count : K)
  if mode = 1 then ⟨w.avg, invStd sqrt var eps, running⟩
  else
    ⟨w.avg, if mode = 2 then 1 / sqrt (var + eps) else var, running.map fun r =>
      (w.avg * momentum + (1 - momentum) * r.1, var * bessel * momentum + (1 - momentum) * r.2)⟩

/-- `bn_stats`: a channel's statistics, of the elements that each thread passes over. -/
def bnStats [DecidableEq K] (elements : Nat → List Nat) (input : Nat → K) (cl : Bool)
    (channels batch hxw mode : Nat) (running : Option (K × K)) (eps momentum : K) (c : Nat) :
    Stats K :=
  let count := batch * hxw
  let bessel := (count : K) / ((count : K) - 1)
  storeStats sqrt mode running eps momentum bessel count
    (collect elements input cl channels hxw c)

/-! ## The merge of the replicas -/

/-- What `bn_gather` leaves for a feature. -/
structure Gathered (K : Type u) where
  saveMean : K
  saveInvstd : K
  runMean : Option K
  runVar : Option K

/-- `avg`, `var_n` and `n`. -/
structure Merged (K : Type u) where
  avg : K
  varN : K
  n : Int

section
variable [LinearOrder K] [FloorRing K]

/-- `Int` of a scalar. -/
def truncate (x : K) : Int := if 0 ≤ x then ⌊x⌋ else ⌈x⌉

/-- One replica. -/
def gatherStep (epsilon : K) (s : Merged K) (mean invstd count : K) : Merged K :=
  let v := 1 / invstd
  let v := (v * v - epsilon) * count
  let factor := 1 / ((s.n : K) + count)
  let nf := (s.n : K)
  ⟨nf * factor * s.avg + count * factor * mean,
    s.varN + (v + (s.avg - mean) * (s.avg - mean) * nf * count * factor),
    truncate (nf + count)⟩

/-- `bn_gather` of the feature `i`. -/
def bnGather (mean invstd counts : Nat → K) (world features : Nat) (epsilon momentum : K)
    (runMean runVar : Option K) (i : Nat) : Gathered K :=
  let s := (List.range world).foldl (fun s j =>
    gatherStep epsilon s (mean (j * features + i)) (invstd (j * features + i)) (counts j)) ⟨0, 0, 0⟩
  let unbiased := s.varN / ((s.n - 1 : Int) : K)
  ⟨s.avg, 1 / sqrt (s.varN / (s.n : K) + epsilon),
    runMean.map fun r => (1 - momentum) * r + momentum * s.avg,
    runVar.map fun r => (1 - momentum) * r + momentum * unbiased⟩

end

/-! ## The backward reductions -/

/-- The bits of `flags`. -/
structure ReduceFlags where
  writeSums : Bool
  gradWeight : Bool
  gradBias : Bool
  roundProd : Bool

/-- What a backward reduction stores for a channel. -/
structure Reduced (K : Type u) where
  sums : Option (K × K)
  gradWeight : Option K
  gradBias : Option K

/-- The stores of the first thread. -/
def storeReduced (flags : ReduceFlags) (invstd dy dot : K) : Reduced K :=
  ⟨if flags.writeSums then some (dy, dot) else none,
    if flags.gradWeight then some (dot * invstd) else none,
    if flags.gradBias then some dy else none⟩

/-- The arguments of a backward reduction. -/
structure ReduceArgs (K : Type u) where
  input : Nat → K
  gradOut : Nat → K
  mean : Nat → K
  invstd : Nat → K
  inputCl : Bool
  gradCl : Bool
  channels : Nat
  batch : Nat
  hxw : Nat
  flags : ReduceFlags

namespace ReduceArgs

variable (a : ReduceArgs K) (round : K → K) (c : Nat)

/-- `dy` at (n, c, s). -/
def grad (n s : Nat) : K := a.gradOut (off a.gradCl n c s a.channels a.hxw)

/-- `x - mean` at (n, c, s). -/
def centered (n s : Nat) : K := a.input (off a.inputCl n c s a.channels a.hxw) - a.mean c

/-- `_backward_reduce_kernel`: a thread's sums. -/
def threadSums (tid : Nat) : K × K :=
  let count := a.batch * a.hxw
  (strided count syncThreads count tid).foldl (fun s j =>
    let n := j / a.hxw
    let sp := j - n * a.hxw
    let g := a.grad c n sp
    let prod := g * a.centered c n sp
    (s.1 + g, s.2 + if a.flags.roundProd then round prod else prod)) (0, 0)

/-- `_backward_reduce_kernel`, with `block_sum`. -/
def backwardReduce : Reduced K :=
  let dy := stages (treeHalf (· + ·)) blockStages (fun tid => (a.threadSums round c tid).1) 0
  let dot := stages (treeHalf (· + ·)) blockStages (fun tid => (a.threadSums round c tid).2) 0
  storeReduced a.flags (a.invstd c) dy dot

/-- `val + Float2(shfl_down(val.v1), shfl_down(val.v2))` -/
def float2Add (v o : K × K) : K × K := (v.1 + round o.1, v.2 + round o.2)

/-- The thread that a lane reads, itself past the end of its warp. -/
def shuffleSource (offset tid : Nat) : Nat :=
  if tid % cudaWarp + offset < cudaWarp then tid + offset else tid

/-- `_backward_reduce_cuda_order_kernel`: the sums of one of CUDA's threads. -/
def cudaThreadSums (bx by_ tid : Nat) : K × K :=
  if tid < bx * by_ then
    ((strided a.batch by_ a.batch (tid / bx)).flatMap fun n =>
      (strided a.hxw bx a.hxw (tid % bx)).map fun x => (n, x)).foldl (fun s e =>
        let g := a.grad c e.1 e.2
        (s.1 + round g, s.2 + round (g * a.centered c e.1 e.2))) (0, 0)
  else (0, 0)

/-- `_backward_reduce_cuda_order_kernel`: shuffles within the warps, then over their sums. -/
def backwardReduceCudaOrder (bx by_ : Nat) : Reduced K :=
  let lanes := stages (shuffleDown (float2Add round) shuffleSource) warpStages
    (a.cudaThreadSums round c bx by_)
  let warps := bx * by_ / cudaWarp
  let sums := stages (shuffleDown (float2Add round) shuffleSource) warpStages (fun tid =>
    if tid < warps then lanes (tid % cudaWarp * cudaWarp) else (0, 0)) 0
  storeReduced a.flags (a.invstd c) sums.1 sums.2

end ReduceArgs

/-- `_get_num_threads` -/
def getNumThreads (n : Nat) : Nat :=
  if n ≤ 32 then 32 else if n ≤ 64 then 64 else if n ≤ 128 then 128 else if n ≤ 256 then 256
  else cudaMaxBlock

/-- `_last_pow2`: `while p * 2 <= n: p *= 2`; `fuel` bounds the number of steps. -/
def lastPow2 (n : Nat) : Nat → Nat → Nat
  | 0, p => p
  | fuel + 1, p => if p * 2 ≤ n then lastPow2 n fuel (p * 2) else p

/-- `bn_backward_reduce`, of half (`true`) and of other inputs. -/
def bnBackwardReduce (half : Bool) (round : K → K) (a : ReduceArgs K) (c : Nat) : Reduced K :=
  if half = true ∧ a.flags.roundProd = true then
    let by_ := min (lastPow2 a.batch a.batch 1) (cudaMaxBlock / cudaWarp)
    let bx := min (max (getNumThreads a.hxw) cudaWarp) (cudaMaxBlock / by_)
    a.backwardReduceCudaOrder round c bx by_
  else a.backwardReduce round c

end

end TorchMojoBackend.Kernels.BatchNormSync
