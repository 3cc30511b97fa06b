/-
  `Ops.BernoulliTensor`: `bernoulli_` with a tensor of probabilities.

  Source: tmb/ops/random.mojo (`_bernoulli_tensor_into`, `_check_probabilities`,
  `_maybe_overlapping`, `_is_dense`), tmb/ops/common.mojo (`cast_to`) and
  tmb/kernels/random/distribution_kernels.mojo (`_bernoulli_tensor_kernel`, `_offset_of`).

  The dimensions are rearranged as CUDA would do it with its own copy of the probabilities,
  and a thread draws four words for four positions in a row.  The cast of a probability, its
  check and the comparison with a word are parameters.
-/
import TorchMojoBackend.Foundation.DimOrder
import TorchMojoBackend.Kernels.PhiloxStreams
import TorchMojoBackend.Ops.Views

set_option autoImplicit false

namespace TorchMojoBackend.Ops.BernoulliTensor

open TorchMojoBackend.Foundation TorchMojoBackend.Ops.Views TorchMojoBackend.Kernels.OpUtils
open TorchMojoBackend.Kernels.ForeachCopy (insertDim denseFrom)
open TorchMojoBackend.Kernels.PhiloxStreams (APPLY_BLOCK)
open TorchMojoBackend.Ops.ResizeOut (contiguousStrides)

universe u v w

/-! ## Tensors -/

section
variable {α : Type u} (t : T α)

def dim (i : Nat) : Nat := t.shape.getD i 1

def stride (i : Nat) : Int := t.strides.getD i 0

/-- `_is_dense`. -/
def isDense : Bool :=
  denseFrom 1 ((t.shape.zip t.strides).foldl (fun sorted key => insertDim key sorted) []).reverse

/-- One round of the sort of `_maybe_overlapping`; the list runs from the right to the left. -/
def insertStride (key : Nat × Int) : List (Nat × Int) → List (Nat × Int)
  | [] => [key]
  | d :: rest => if d.2 > key.2 then d :: insertStride key rest else key :: d :: rest

/-- Some sorted dimension reaches the next one. -/
def reachesNext : List (Nat × Int) → Bool
  | d :: d' :: rest => decide (((d.1 : Int) - 1) * d.2 ≥ d'.2) || reachesNext (d' :: rest)
  | _ => false

/-- `_maybe_overlapping`. -/
def maybeOverlapping : Bool :=
  let dims := (t.shape.zip t.strides).filter fun d => d.1 > 1
  dims.any (fun d => d.2 < 1) ||
    reachesNext (dims.foldl (fun sorted key => insertStride key sorted) []).reverse

/-- More than one element refers to one location. -/
def hasStrideZero : Bool :=
  (t.shape.zip t.strides).any fun d => decide (d.1 > 1) && decide (d.2 = 0)

/-- `cast_to`: the tensor itself, or a contiguous copy; behind its end it is `rest`. -/
def castTo (same : Bool) (conv : α → α) (rest : α) : T α :=
  if same then t
  else t.newLike fun a => ((indices t.shape).map fun x => conv (t.elem x)).getD a.toNat rest

end

/-! ## Dimensions -/

/-- The arrays of the dimensions. -/
structure Dims where
  sizes : Nat → Nat
  tStrides : Nat → Int
  /-- what the kernel reads with -/
  pStrides : Nat → Int
  /-- what CUDA sees -/
  pCuda : Nat → Int

def swapAt {β : Type u} (a : Nat → β) (i j : Nat) : Nat → β :=
  Function.update (Function.update a i (a j)) j (a i)

def Dims.swap (d : Dims) (i j : Nat) : Dims :=
  ⟨swapAt d.sizes i j, swapAt d.tStrides i j, swapAt d.pStrides i j, swapAt d.pCuda i j⟩

/-- The body of the inner loop of `rearrangeDims`. -/
def Dims.compare (d : Dims) (i j : Nat) : Dims :=
  if d.sizes j = 1 then d
  else
    let inc := decide (d.tStrides i < d.tStrides j) || decide (d.pCuda i < d.pCuda j)
    let dec := decide (d.tStrides i > d.tStrides j) || decide (d.pCuda i > d.pCuda j)
    if inc && !dec then d.swap i j else d

/-- The body of the outer loop. -/
def Dims.sweep (r : Nat) (d : Dims) (i : Nat) : Dims :=
  if d.sizes i = 1 then d
  else (List.range' (i + 1) (r - (i + 1))).foldl (fun d j => d.compare i j) d

/-- `rearrangeDims`. -/
def Dims.rearrange (r : Nat) (d : Dims) : Dims := (List.range (r - 1)).foldl (Dims.sweep r) d

section
variable {α : Type u} {γ : Type v} (t : T α) (pIn p : T γ)

/-- The dimension of the probabilities at a dimension of the output. -/
def pDim (i : Nat) : Option Nat :=
  if t.rank - pIn.rank ≤ i then some (i - (t.rank - pIn.rank)) else none

/-- The dimension `i` cannot be broadcast. -/
def mismatch (i : Nat) : Bool :=
  match pDim t pIn i with
  | some pi => decide (dim pIn pi ≠ dim t i) && decide (dim pIn pi ≠ 1)
  | none => false

/-- The strides of the tensor that the kernel writes. -/
def dstStrides : List Int := if maybeOverlapping t then contiguousStrides t.shape else t.strides

/-- The strides that CUDA's copy of the probabilities would have. -/
def cudaStrides (same : Bool) : List Int :=
  if same || isDense pIn then pIn.strides else contiguousStrides pIn.shape

/-- The arrays before they are rearranged; a size is followed by the stride where it is the
output's own. -/
def gather (same : Bool) : Dims where
  sizes := dim t
  tStrides := fun i => (dstStrides t).getD i 0
  pStrides := fun i =>
    match pDim t pIn i with
    | some pi => if dim p pi = dim t i then stride p pi else 0
    | none => 0
  pCuda := fun i =>
    match pDim t pIn i with
    | some pi => if dim p pi = dim t i then (cudaStrides pIn same).getD pi 0 else 0
    | none => 0

end

/-- The dimensions of an array, the fastest first. -/
def fastestFirst {β : Type u} (r : Nat) (a : Nat → β) (one : β) : List β :=
  (if r = 0 then [one] else []) ++ (List.range r).reverse.map a

/-! ## The launch -/

structure Launch where
  numel : Nat
  sizes : List Nat
  dstStrides : List Int
  pStrides : List Int
  grid : Nat
  overlapping : Bool
  deriving DecidableEq

/-- `_bernoulli_tensor_into`, up to the launch; there is none for an empty output. -/
def bernoulliTensorInto {α : Type u} {γ : Type v} (t : T α) (pIn : T γ) (bad : γ → Bool)
    (same : Bool) (conv : γ → γ) (rest : γ) : Except String (Option Launch) :=
  if t.numel = 0 then .ok none
  else if (indices pIn.shape).any fun x => bad (pIn.elem x) then
    .error ("Expected p_in >= 0 && p_in <= 1 to be true, but got false.  (Could" ++
      " this error message be improved?  If so, please report an" ++
      " enhancement request to PyTorch.)")
  else if hasStrideZero t then
    .error ("unsupported operation: more than one element of the written-to" ++
      " tensor refers to a single memory location. Please clone()" ++
      " the tensor before performing the operation.")
  else if pIn.rank > t.rank then .error "bernoulli_: p has more dimensions than self"
  else
    match (List.range t.rank).find? (mismatch t pIn) with
    | some i =>
      .error ("bernoulli_: p of size " ++ toString (dim pIn (i - (t.rank - pIn.rank))) ++
        " is not broadcastable to self at dim " ++ toString i)
    | none =>
      let d := (gather t pIn (castTo pIn same conv rest) same).rearrange t.rank
      .ok (some
        { numel := t.numel
          sizes := fastestFirst t.rank d.sizes 1
          dstStrides := fastestFirst t.rank d.tStrides 0
          pStrides := fastestFirst t.rank d.pStrides 0
          grid := ceildiv t.numel (512 * 4)
          overlapping := maybeOverlapping t })

/-! ## The kernel -/

/-- `_offset_of`. -/
def offsetOf : Nat → List Nat → List Int → Int
  | li, s :: sizes, st :: strides => (li % s : Nat) * st + offsetOf (li / s) sizes strides
  | _, _, _ => 0

/-- A comparison: the word `lane` of the block of a thread with the probability at the offset
`p`, for the element at the offset `dst`. -/
structure Access where
  thread : Nat
  lane : Nat
  dst : Int
  p : Int
  deriving DecidableEq

/-- The comparisons of `_bernoulli_tensor_kernel`. -/
def Launch.accesses (l : Launch) : List Access :=
  (List.range (l.grid * APPLY_BLOCK)).flatMap fun t =>
    (strided l.numel (l.grid * APPLY_BLOCK * 4) l.numel (t * 4)).flatMap fun linear =>
      (List.range 4).flatMap fun j =>
        if linear + j ≥ l.numel then []
        else [⟨t, j, offsetOf (linear + j) l.sizes l.dstStrides,
          offsetOf (linear + j) l.sizes l.pStrides⟩]

section
variable {α : Type u} {γ : Type v} {ω : Type w}

/-- The stores of the kernel to a tensor at `base`. -/
def Launch.stores (l : Launch) (base : Int) (p : T γ) (draw : Nat → Nat → ω) (keep : ω → γ → α) :
    List (Int × α) :=
  l.accesses.map fun a => (base + a.dst, keep (draw a.thread a.lane) (p.storage (p.offset + a.p)))

/-- A run of a launch; `out` is what the output's storage holds afterwards. -/
structure Run (t : T α) (p : T γ) (l : Launch) (draw : Nat → Nat → ω) (keep : ω → γ → α) where
  dense : Int → α
  filled : l.overlapping = true → ∃ fresh, Stores (l.stores 0 p draw keep) fresh dense
  out : Int → α
  stored : Stores (if l.overlapping then t.copyStridedInto (t.newLike dense)
    else l.stores t.offset p draw keep) t.storage out

end

end TorchMojoBackend.Ops.BernoulliTensor
