/-
  `Ops.StatelessPhilox`: random numbers from keys instead of a generator.

  Source: tmb/ops/random.mojo (`op_philox_key_split`, `_philox_fold_in`,
  `_philox_distribution`), tmb/kernels/random/stateless_philox_kernels.mojo and
  tmb/kernels/random/philox.mojo (`philox4x32_10`).

  A key is a seed and an offset.  A batch of keys is flattened to one key for every block of
  trailing elements, and the elements of a block are drawn by chunks, one counter a chunk.
  What a block of words is turned into is a parameter.
-/
import TorchMojoBackend.Ops.Views
import TorchMojoBackend.Kernels.OpUtils

set_option autoImplicit false

namespace TorchMojoBackend.Ops.StatelessPhilox

open TorchMojoBackend.Foundation TorchMojoBackend.Ops.Views TorchMojoBackend.Kernels.OpUtils
open TorchMojoBackend.Kernels.ForeachCopy (isDense)
open TorchMojoBackend.Ops.DenseStrides (denseStridesLike)
open TorchMojoBackend.Ops.ResizeOut (contiguousStrides)

universe u

/-! ## Philox -/

structure U32x4 where
  x : UInt32
  y : UInt32
  z : UInt32
  w : UInt32
  deriving DecidableEq

structure U32x2 where
  x : UInt32
  y : UInt32
  deriving DecidableEq

def M0 : UInt32 := 0xD2511F53
def M1 : UInt32 := 0xCD9E8D57
def W0 : UInt32 := 0x9E3779B9
def W1 : UInt32 := 0xBB67AE85

/-- A round of `philox4x32_10`. -/
def philoxRound (c : U32x4) (k : U32x2) : U32x4 :=
  let prod0 := M0.toUInt64 * c.x.toUInt64
  let prod1 := M1.toUInt64 * c.z.toUInt64
  let hi0 := (prod0 >>> 32).toUInt32
  let lo0 := prod0.toUInt32
  let hi1 := (prod1 >>> 32).toUInt32
  let lo1 := prod1.toUInt32
  ⟨hi1 ^^^ c.y ^^^ k.x, lo1, hi0 ^^^ c.w ^^^ k.y, lo0⟩

/-- `philox4x32_10`. -/
def philox4x32 (ctr : U32x4) (key : U32x2) : U32x4 :=
  ((List.range 10).foldl (fun s _ => (philoxRound s.1 s.2, ⟨s.2.x + W0, s.2.y + W1⟩))
    (ctr, key)).1

/-- `stateless_philox`. -/
@[irreducible] def statelessPhilox (seed offset : UInt64) : U32x4 :=
  philox4x32 ⟨offset.toUInt32, (offset >>> 32).toUInt32, 0, 0⟩
    ⟨seed.toUInt32, (seed >>> 32).toUInt32⟩

/-! ## Kernels -/

def BLOCK : Nat := 256
def MAX_GRID : Nat := 65535

/-- `_grid`. -/
def gridOf (n : Nat) : Nat := max 1 (min ((n + BLOCK - 1) / BLOCK) MAX_GRID)

/-- The items of the threads of a launch, each a grid apart. -/
def itemsOf (n : Nat) : List Nat := gridItems (gridOf n * BLOCK) n

/-- The stores of `_derive_key`. -/
def deriveKey (r : U32x4) (place : Nat) : List (Nat × UInt64) :=
  [(place, r.x.toUInt64 ||| (r.y.toUInt64 <<< 32)),
    (place + 1, r.z.toUInt64 ||| (r.w.toUInt64 <<< 32))]

/-- The stores of `_key_split_kernel`. -/
def keySplitKernel (keys : Nat → UInt64) (numKeys numSplits : Nat) : List (Nat × UInt64) :=
  (itemsOf (numKeys * numSplits)).flatMap fun tid =>
    let split := tid / numKeys
    let key := tid % numKeys
    deriveKey (statelessPhilox (keys (key * 2)) (keys (key * 2 + 1) + .ofNat split))
      ((split * numKeys + key) * 2)

/-- The stores of `_key_fold_in_kernel`. -/
def keyFoldInKernel (keys : Nat → UInt64) (numKeys : Nat) (fold : UInt64) : List (Nat × UInt64) :=
  (itemsOf numKeys).flatMap fun tid =>
    deriveKey (statelessPhilox (keys (tid * 2)) (keys (tid * 2 + 1) + fold)) (tid * 2)

/-- `philox_draw` for a dtype: the number of elements of a block of words, and their values. -/
structure Draw (α : Type u) where
  double : Bool
  value : U32x4 → Nat → α

/-- `philox_epc`. -/
def Draw.epc {α : Type u} (draw : Draw α) : Nat := if draw.double then 2 else 4

/-- The stores of `_dist_kernel`. -/
def distKernel {α : Type u} (draw : Draw α) (keys : Nat → UInt64) (numKeys epk : Nat) :
    List (Nat × α) :=
  let N := draw.epc
  let chunks := (epk + N - 1) / N
  (itemsOf (numKeys * chunks)).flatMap fun tid =>
    let key := tid / chunks
    let chunk := tid % chunks
    let vals := draw.value (statelessPhilox (keys (key * 2)) (keys (key * 2 + 1) + .ofNat chunk))
    (List.range N).flatMap fun j =>
      if chunk * N + j < epk then [(key * epk + chunk * N + j, vals j)] else []

/-! ## `_philox_key_split` and `_philox_key_fold_in` -/

def MAX_RANK : Nat := 8
def UNSUPPORTED_PREFIX : String := "[unsupported] "

/-- `_int_list_str`. -/
def intListStr (sizes : List Nat) : String :=
  "[" ++ String.intercalate ", " (sizes.map toString) ++ "]"

/-- The last dimension has a seed and an offset. -/
def endsInPair (key : T UInt64) : Bool := decide (key.shape.getLast? = some 2)

/-- `_philox_key_check`. -/
def philoxKeyCheck (key : T UInt64) (what : String) : Except String Unit :=
  if endsInPair key then .ok ()
  else .error (what ++ ": key must have shape (*batch, 2), got shape " ++ intListStr key.shape)

/-- The checks of `op_philox_key_split`. -/
def keySplitCheck (key : T UInt64) (numSplits : Int) : Except String Unit :=
  match philoxKeyCheck key "_philox_key_split" with
  | .error e => .error e
  | .ok () =>
    if numSplits ≤ 0 then
      .error ("_philox_key_split: num_splits must be positive, got " ++ toString numSplits)
    else if key.rank + 1 > MAX_RANK then
      .error (UNSUPPORTED_PREFIX ++ "_philox_key_split: key rank above the mojo device limit")
    else .ok ()

/-- A run of `op_philox_key_split`; `storage` is what the result holds, and `rest` lies behind a
dense copy of the keys. -/
structure KeySplit (key : T UInt64) (numSplits : Int) (rest : UInt64) where
  checked : keySplitCheck key numSplits = .ok ()
  storage : Int → UInt64
  stored : ∃ fresh, Stores ((keySplitKernel (key.contiguous rest) (key.numel / 2)
    numSplits.toNat).map fun w => ((w.1 : Int), w.2)) fresh storage

/-- The result, of the shape `(num_splits, *batch, 2)`. -/
def KeySplit.result {key : T UInt64} {numSplits : Int} {rest : UInt64}
    (r : KeySplit key numSplits rest) : T UInt64 where
  shape := numSplits.toNat :: key.shape
  strides := contiguousStrides (numSplits.toNat :: key.shape)
  offset := 0
  storage := r.storage
  strides_length := by rw [contiguousStrides, List.length_map, List.length_range]

/-- The strides of the result of `_philox_fold_in`, like the key's. -/
def foldInStrides (key : T UInt64) : List Int :=
  if isDense (key.shape.zip key.strides) then key.strides
  else (List.range key.rank).map fun d =>
    (denseStridesLike (key.shape.getD · 0) (key.strides.getD · 0) key.rank d : Int)

/-- A run of `_philox_fold_in`. The kernel writes the folded keys in the order of memory. -/
structure KeyFoldIn (key : T UInt64) (fold rest : UInt64) where
  checked : philoxKeyCheck key "_philox_key_fold_in" = .ok ()
  storage : Int → UInt64
  stored : ∃ fresh, Stores ((keyFoldInKernel (key.contiguous rest) (key.numel / 2) fold).map
    fun w => ((w.1 : Int), w.2)) fresh storage

/-- The result. -/
def KeyFoldIn.result {key : T UInt64} {fold rest : UInt64} (r : KeyFoldIn key fold rest) :
    T UInt64 where
  shape := key.shape
  strides := foldInStrides key
  offset := 0
  storage := r.storage
  strides_length := by
    unfold foldInStrides
    split
    · exact key.strides_length
    · rw [List.length_map, List.length_range]
      rfl

/-! ## `_philox_uniform_` and `_philox_normal_` -/

/-- The checks of the shapes in `_philox_distribution`. -/
def distributionCheck {α : Type u} (what : String) (selfT : T α) (key : T UInt64) :
    Except String Unit :=
  if ¬endsInPair key then
    .error (what ++ ": key must have shape (2,) or (*batch, 2), got shape " ++
      intListStr key.shape)
  else if 1 < key.rank ∧ key.rank ≠ selfT.rank + 1 then
    .error (what ++ ": batched key must have ndim == output ndim + 1, got key shape " ++
      intListStr key.shape ++ " with output shape " ++ intListStr selfT.shape)
  else if 1 < key.rank ∧
      ((key.shape.zip selfT.shape).any fun d => decide (d.1 ≠ 1) && decide (d.1 ≠ d.2)) then
    .error (what ++ ": key batch shape " ++ intListStr (key.shape.take selfT.rank) ++
      " is not broadcastable with output shape " ++ intListStr selfT.shape)
  else selfT.assertNoInternalOverlap

/-- The loop over the dimensions of the output and of the key, the last one first: the elements
of a block and the dimensions left of it. -/
def trailing : List (Nat × Nat) → Nat → Nat → Nat × Nat
  | [], epk, keyDims => (epk, keyDims)
  | (size, keySize) :: rest, epk, keyDims =>
    if keySize ≠ 1 then (epk, keyDims) else trailing rest (epk * size) (keyDims - 1)

/-- The keys of the blocks. -/
structure FlatKeys where
  numKeys : Nat
  epk : Nat
  flat : T UInt64

/-- The view of the keys: one for each index of the first `keyDims` dimensions of the output. -/
def flatView (shape : List Nat) (key : T UInt64) (keyDims : Nat) : T UInt64 where
  shape := (List.range keyDims).map (shape.getD · 0) ++ [2]
  strides := (List.range keyDims).map (fun i =>
    if key.shape.getD i 0 ≠ 1 then key.strides.getD i 0 else 0) ++ [key.strides.getLastD 0]
  offset := key.offset
  storage := key.storage
  strides_length := by simp only [List.length_append, List.length_map, List.length_singleton]

/-- Keys flattened to one per block of elements. -/
def flatten (shape : List Nat) (key : T UInt64) : FlatKeys :=
  if key.rank = 1 then ⟨1, shape.prod, key⟩
  else
    let (epk, keyDims) := trailing (shape.zip key.shape).reverse 1 shape.length
    ⟨shape.prod / epk, epk, flatView shape key keyDims⟩

/-- The stores of the kernel of `_philox_distribution`. -/
def distributionKernel {α : Type u} (draw : Draw α) (selfT : T α) (key : T UInt64) (rest : UInt64) :
    List (Nat × α) :=
  if selfT.numel = 0 then []
  else
    let keys := flatten selfT.shape key
    distKernel draw (keys.flat.contiguous rest) keys.numKeys keys.epk

/-- A run of `_philox_uniform_` or `_philox_normal_`. -/
structure Distribution {α : Type u} (draw : Draw α) (what : String) (selfT : T α) (key : T UInt64)
    (rest : UInt64) where
  checked : distributionCheck what selfT key = .ok ()
  fill : selfT.Fill (distributionKernel draw selfT key rest)

/-- The stores to `self`. -/
def Distribution.stores {α : Type u} {draw : Draw α} {what : String} {selfT : T α} {key : T UInt64}
    {rest : UInt64} (r : Distribution draw what selfT key rest) : List (Int × α) :=
  selfT.fillStores (distributionKernel draw selfT key rest) r.fill.dense

end TorchMojoBackend.Ops.StatelessPhilox
