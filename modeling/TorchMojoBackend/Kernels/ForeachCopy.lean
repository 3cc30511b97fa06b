/-
  `Kernels.ForeachCopy`: copying a list of tensors into another.

  The pairs are copied one after the other by `copy_`, unless it makes no difference:
  contiguous views that lie one after the other on both sides are moved at once, and
  contiguous pairs none of which writes what another one reads or writes are copied by one
  launch, in no particular order.
-/
import Mathlib.Logic.Relation
import TorchMojoBackend.Foundation.Intervals

set_option autoImplicit false

namespace TorchMojoBackend.Kernels.ForeachCopy

open TorchMojoBackend.Foundation

/-! ## Tensors -/

inductive ScalarType where
  | float64 | float32 | float16 | bfloat16 | int64 | int32 | int16 | int8
  | uint64 | uint32 | uint16 | uint8 | bool
  | float8E4m3fn | float8E5m2 | float8E4m3fnuz | float8E5m2fnuz | float8E8m0fnu
  | complex64 | complex128
  deriving DecidableEq

def ScalarType.itemsize : ScalarType → Nat
  | .float64 | .int64 | .uint64 | .complex64 => 8
  | .float32 | .int32 | .uint32 => 4
  | .float16 | .bfloat16 | .int16 | .uint16 => 2
  | .complex128 => 16
  | _ => 1

def ScalarType.isComplex : ScalarType → Bool
  | .complex64 | .complex128 => true
  | _ => false

/-- `is_float8`. -/
def ScalarType.isFloat8 : ScalarType → Bool
  | .float8E4m3fn | .float8E5m2 | .float8E4m3fnuz | .float8E5m2fnuz | .float8E8m0fnu => true
  | _ => false

inductive Api where
  | cuda | hip | metal
  deriving DecidableEq

/-- What the operation reads of a tensor; `impl` has its version counter. -/
structure T where
  ptr : Int
  storagePtr : Int
  shape : List Nat
  strides : List Int
  stype : ScalarType
  device : Nat
  onMojo : Bool
  impl : Nat
  deriving DecidableEq

def T.numel (t : T) : Nat := t.shape.prod

def T.itemsize (t : T) : Nat := t.stype.itemsize

def T.nbytes (t : T) : Nat := t.numel * t.itemsize

def T.dims (t : T) : List (Nat × Int) := t.shape.zip t.strides

/-- Whether the dimensions, the last one first, tile elements of stride `z`. -/
def contigFrom (z : Int) : List (Nat × Int) → Bool
  | [] => true
  | (size, stride) :: rest =>
    if size ≠ 1 then decide (stride = z) && contigFrom (z * size) rest else contigFrom z rest

/-- torch's `is_contiguous`. -/
def T.contig (t : T) : Bool := decide (t.numel = 0) || contigFrom 1 t.dims.reverse

/-- `same_shape`. -/
def T.sameShape (t other : T) : Bool := decide (t.shape = other.shape)

/-- `_stride_order_less`. -/
def strideOrderLess (a b : Nat × Int) : Bool :=
  if a.1 < 2 then false else if b.1 < 2 then true else decide (a.2 < b.2)

/-- One round of the insertion sort; the list runs from the right to the left. -/
def insertDim (key : Nat × Int) : List (Nat × Int) → List (Nat × Int)
  | [] => [key]
  | d :: rest => if strideOrderLess key d then d :: insertDim key rest else key :: d :: rest

/-- Whether sorted dimensions cover their bytes. -/
def denseFrom (require : Int) : List (Nat × Int) → Bool
  | [] => true
  | (size, stride) :: rest =>
    if size < 2 then true
    else if stride ≠ require then false
    else denseFrom (require * size) rest

/-- `is_dense`. -/
def isDense (dims : List (Nat × Int)) : Bool :=
  match dims with
  | [] => true
  | [(size, stride)] => decide (size < 2) || decide (stride = 1)
  | dims => denseFrom 1 (dims.foldl (fun sorted key => insertDim key sorted) []).reverse

/-! ## Memory -/

/-- The bytes of a device. -/
abbrev Mem := Int → UInt8

/-- The `n` bytes at `a`. -/
def readAt (m : Mem) (a : Int) (n : Nat) : List UInt8 := (List.range n).map fun j : Nat => m (a + j)

def writeAt (m : Mem) (a : Int) (n : Nat) (bytes : List UInt8) : Mem := fun x =>
  if a ≤ x ∧ x < a + n then bytes.getD (x - a).toNat 0 else m x

/-- The memory, and the versions of the tensors. -/
structure State where
  mem : Mem
  versions : Nat → Nat

def bumpVersion (versions : Nat → Nat) (t : T) : Nat → Nat :=
  Function.update versions t.impl (versions t.impl + 1)

/-- What the operation calls: the devices' interfaces, `aten::copy_` (none if it raises), the
conversion of an element, and the copy without saturation. -/
structure Env where
  api : Nat → Api
  copy_ : T → T → Mem → Option Mem
  convert : ScalarType → ScalarType → List UInt8 → List UInt8
  copyUnsaturated : T → T → Mem → Option Mem

/-- An element of `src` as one of `dst`. -/
def Env.element (env : Env) (dst src : ScalarType) (bytes : List UInt8) : List UInt8 :=
  if src = dst then bytes else env.convert src dst bytes

/-- The byte that a copy leaves at `x` in the span of `d`. -/
def Env.byteOf (env : Env) (d s : T) (m : Mem) (x : Int) : UInt8 :=
  let offset := (x - d.ptr).toNat
  let k := offset / d.itemsize
  (env.element d.stype s.stype (readAt m (s.ptr + (k * s.itemsize : Nat)) s.itemsize)).getD
    (offset % d.itemsize) 0

/-- The copy of a contiguous tensor into another, element by element. -/
def Env.exactCopy (env : Env) (d s : T) (m : Mem) : Mem := fun x =>
  if d.ptr ≤ x ∧ x < d.ptr + d.nbytes then env.byteOf d s m x else m x

/-- `dst[i].copy_(src[i])` for `i = 0, 1, 2, ...`: what is left, and whether it got to the end.
`copy_` bumps the version of its destination. -/
def Env.sequential (env : Env) : List (T × T) → State → State × Bool
  | [], st => (st, true)
  | (d, s) :: rest, st =>
    match env.copy_ d s st.mem with
    | none => (st, false)
    | some m => env.sequential rest ⟨m, bumpVersion st.versions d⟩

/-! ## The batched copy -/

/-- `_writes_overlap`. -/
def writesOverlap (dsts srcs : List T) : Bool :=
  let live := dsts.filter fun t => decide (t.numel > 0)
  let begins := sortInts (live.map T.ptr)
  let ends := sortInts (live.map fun t => t.ptr + t.nbytes)
  (List.range (begins.length - 1)).any (fun k =>
      decide (begins.getD (k + 1) 0 < ends.getD k 0)) ||
    srcs.any fun t =>
      if t.numel = 0 then false
      else
        let endOf := t.ptr + t.nbytes
        let lo := firstFalse (fun mid => decide (begins.getD mid 0 < endOf)) begins.length 0
          begins.length
        decide (lo > 0) && decide (ends.getD (lo - 1) 0 > t.ptr)

/-- `_batched_copy_device`. -/
def Env.batchedCopyDevice (env : Env) (device : Nat) : Bool :=
  decide (env.api device = .cuda) || decide (env.api device = .hip)

/-- `_batch_copy_dtype`. -/
def batchCopyDtype : ScalarType → Bool
  | .float64 | .float32 | .float16 | .bfloat16 | .int64 | .int32 | .int16 | .int8
  | .uint64 | .uint32 | .uint16 | .uint8 | .bool => true
  | _ => false

/-- `_tensor_qualifies`. -/
def tensorQualifies (t : T) (device : Nat) (dtype : ScalarType) : Bool :=
  t.onMojo && decide (t.device = device) && decide (t.stype = dtype) && t.contig

/-- `_copy_batch_qualifies`, for lists with the first tensors `first` and `firstSrc`. -/
def Env.copyBatchQualifies (env : Env) (first firstSrc : T) (dsts srcs : List T) : Bool :=
  first.onMojo && env.batchedCopyDevice first.device && batchCopyDtype first.stype &&
    batchCopyDtype firstSrc.stype &&
    ((dsts.zip srcs).all fun (d, s) => tensorQualifies d first.device first.stype &&
      tensorQualifies s first.device firstSrc.stype && d.sameShape s) &&
    !writesOverlap dsts srcs

/-- A batched copy under way: the elements that were not read yet, as addresses of a destination
and a source, and the ones that were read but not written. -/
structure BatchState where
  mem : Mem
  todo : List (Int × Int)
  held : List (Int × List UInt8)

/-- Any element may be read, and any that was read be written, at any time. -/
inductive BatchStep (f : List UInt8 → List UInt8) (dsize ssize : Nat) :
    BatchState → BatchState → Prop
  | read (mem : Mem) (l₁ l₂ : List (Int × Int)) (item : Int × Int)
      (held : List (Int × List UInt8)) :
      BatchStep f dsize ssize ⟨mem, l₁ ++ item :: l₂, held⟩
        ⟨mem, l₁ ++ l₂, (item.1, f (readAt mem item.2 ssize)) :: held⟩
  | write (mem : Mem) (todo : List (Int × Int)) (h₁ h₂ : List (Int × List UInt8))
      (v : Int × List UInt8) :
      BatchStep f dsize ssize ⟨mem, todo, h₁ ++ v :: h₂⟩
        ⟨writeAt mem v.1 dsize v.2, todo, h₁ ++ h₂⟩

/-- A launch over the elements leaves `m'` of `m`. -/
def CopyBatched (f : List UInt8 → List UInt8) (dsize ssize : Nat) (items : List (Int × Int))
    (m m' : Mem) : Prop :=
  Relation.ReflTransGen (BatchStep f dsize ssize) ⟨m, items, []⟩ ⟨m', [], []⟩

/-- The elements of the pairs. -/
def batchItems (dsize ssize : Nat) (pairs : List (T × T)) : List (Int × Int) :=
  pairs.flatMap fun (d, s) => (List.range d.numel).map fun k =>
    (d.ptr + (k * dsize : Nat), s.ptr + (k * ssize : Nat))

/-! ## Adjacent views -/

/-- The spans so far of a list of adjacent views. -/
structure Span where
  dstBegin : Int
  srcBegin : Int
  dstStorage : Int
  srcStorage : Int
  nbytes : Nat
  deriving DecidableEq

/-- One round of `_copy_adjacent_views`; none where it gives up. -/
def adjacentStep (first : T) (acc : Span) (pair : T × T) : Option Span :=
  let (d, s) := pair
  if !d.onMojo || !s.onMojo || decide (d.device ≠ first.device) ||
      decide (s.device ≠ first.device) || decide (d.stype ≠ first.stype) ||
      decide (s.stype ≠ first.stype) || !d.contig || !s.contig || !d.sameShape s then none
  else if d.numel = 0 then some acc
  else
    let acc := if acc.nbytes = 0 then ⟨d.ptr, s.ptr, d.storagePtr, s.storagePtr, 0⟩ else acc
    if acc.nbytes = 0 ∧ (acc.dstStorage = 0 ∨ acc.srcStorage = 0) then none
    else if d.ptr ≠ acc.dstBegin + acc.nbytes ∨ s.ptr ≠ acc.srcBegin + acc.nbytes ∨
        d.storagePtr ≠ acc.dstStorage ∨ s.storagePtr ≠ acc.srcStorage then none
    else some { acc with nbytes := acc.nbytes + d.numel * d.itemsize }

/-- `copy_d2d` of disjoint spans. -/
def copyD2d (dst src : Int) (nbytes : Nat) (m : Mem) : Mem := fun x =>
  if dst ≤ x ∧ x < dst + nbytes then m (src + (x - dst)) else m x

/-- The memory that `_copy_adjacent_views` leaves; none where it does nothing. -/
def Env.copyAdjacentViews (env : Env) (first : T) (pairs : List (T × T)) (m : Mem) :
    Option Mem :=
  if !first.onMojo || decide (env.api first.device ≠ .cuda) then none
  else
    match pairs.foldlM (adjacentStep first) ⟨0, 0, 0, 0, 0⟩ with
    | none => none
    | some span =>
      if span.nbytes ≠ 0 ∧ span.dstBegin ≠ span.srcBegin then
        if span.dstBegin < span.srcBegin + span.nbytes ∧
            span.srcBegin < span.dstBegin + span.nbytes then none
        else some (copyD2d span.dstBegin span.srcBegin span.nbytes m)
      else some m

/-! ## The operation -/

/-- `_foreach_copy_dtype_check` passes. -/
def foreachCopyDtypeOk : ScalarType → Bool
  | .float8E8m0fnu | .uint16 | .uint32 | .uint64 => false
  | _ => true

/-- `_cuda_copy_fast_route`, for lists with the first tensors `first` and `firstSrc`. -/
def cudaCopyFastRoute (first firstSrc : T) (pairs : List (T × T)) : Bool :=
  first.onMojo && pairs.all fun (d, s) =>
    d.onMojo && decide (d.device = first.device) && decide (d.stype = first.stype) &&
      s.onMojo && decide (s.device = first.device) && decide (s.stype = firstSrc.stype) &&
      (decide (d.numel = 0) || isDense d.dims) && (decide (s.numel = 0) || isDense s.dims) &&
      d.sameShape s &&
      (d.dims.zip s.dims).all fun (x, y) => decide (x.1 = 1) || decide (x.2 = y.2)

/-- `_copy_e4m3fn_unsaturated`: each destination's version is bumped, by the copy or after it. -/
def Env.copyE4m3fnUnsaturated (env : Env) : List (T × T) → State → State × Bool
  | [], st => (st, true)
  | (d, s) :: rest, st =>
    if d.numel = 0 then env.copyE4m3fnUnsaturated rest ⟨st.mem, bumpVersion st.versions d⟩
    else
      match env.copyUnsaturated d s st.mem with
      | none => (st, false)
      | some m => env.copyE4m3fnUnsaturated rest ⟨m, bumpVersion st.versions d⟩

/-- The lists are refused before anything is written. -/
def refused (first firstSrc : T) (dsts srcs : List T) : Bool :=
  dsts.any (·.stype.isComplex) || srcs.any (·.stype.isComplex) ||
    decide (srcs.length ≠ dsts.length) ||
    ((first.stype.isFloat8 || firstSrc.stype.isFloat8) &&
      cudaCopyFastRoute first firstSrc (dsts.zip srcs) &&
      !(foreachCopyDtypeOk first.stype && foreachCopyDtypeOk firstSrc.stype))

/-- The list is converted to float8 as CUDA's fast route does. -/
def unsaturated (first firstSrc : T) (pairs : List (T × T)) : Bool :=
  decide (first.stype = .float8E4m3fn) && decide (firstSrc.stype ≠ .float8E4m3fn) &&
    cudaCopyFastRoute first firstSrc pairs

/-- What `op_foreach_copy_` may leave, and whether it returned. -/
def Env.OpForeachCopy (env : Env) (dsts srcs : List T) (st : State) (out : State × Bool) : Prop :=
  match dsts, srcs with
  | first :: _, firstSrc :: _ =>
    if refused first firstSrc dsts srcs then out = (st, false)
    else
      match env.copyAdjacentViews first (dsts.zip srcs) st.mem with
      | some m => out = (⟨m, dsts.foldl bumpVersion st.versions⟩, true)
      | none =>
        if env.copyBatchQualifies first firstSrc dsts srcs then
          ∃ m, CopyBatched (env.element first.stype firstSrc.stype) first.itemsize
              firstSrc.itemsize (batchItems first.itemsize firstSrc.itemsize (dsts.zip srcs))
              st.mem m ∧
            out = (⟨m, dsts.foldl bumpVersion st.versions⟩, true)
        else if unsaturated first firstSrc (dsts.zip srcs) then
          out = env.copyE4m3fnUnsaturated (dsts.zip srcs) st
        else out = env.sequential (dsts.zip srcs) st
  | _, _ => out = (st, false)

end TorchMojoBackend.Kernels.ForeachCopy
