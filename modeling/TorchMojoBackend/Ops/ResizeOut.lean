/-
  `Ops.ResizeOut`: resizing an `out=` tensor, and the overlap checks made before it.

  Source: tmb/ops/common.mojo (`overlap_status`, `resized_geometry`,
  `assert_no_internal_overlap`, `resize_storage_bytes`, `resize_out`), tmb/backend/abi.mojo
  (`T`, `contiguous_strides`, `set_sizes_strides`) and native/csrc/shim_runtime.cpp (`fill_info`,
  `check_in_bounds`, `tmb_tensor_set_sizes_strides`, `resizePrivateUse1Bytes`).

  A tensor is read once into a record; what is read later goes through its handle and sees the
  storages as they are then.
-/
import Mathlib.Data.List.GetD
import TorchMojoBackend.Ops.DenseStrides

set_option autoImplicit false

namespace TorchMojoBackend.Ops.ResizeOut

open TorchMojoBackend.Foundation
open TorchMojoBackend.Kernels.ForeachCopy (contigFrom isDense)
open TorchMojoBackend.Ops.DenseStrides (arranged_reverse fillStrides_order sizeBefore
  sizeBefore_succ)

/-! ## Storages and tensors -/

/-- A storage; `data` is the address of its bytes, `0` for none. -/
structure Storage where
  data : Int
  bytes : List UInt8
  resizable : Bool
  data_ne : bytes ≠ [] → data ≠ 0

def Storage.nbytes (s : Storage) : Nat := s.bytes.length

/-- A `TensorImpl`: a view of a storage. -/
structure TensorImpl where
  storage : Nat
  shape : List Nat
  strides : List Int
  offset : Nat
  itemsize : Nat

structure World where
  tensors : Nat → TensorImpl
  storages : Nat → Storage

/-- What an operation needs about one tensor; `h` is its handle. -/
structure T where
  h : Nat
  ptr : Int
  shape : List Nat
  strides : List Int
  offset : Nat
  numel : Nat
  itemsize : Nat
  contig : Bool

/-- The storage behind a handle. -/
def World.storageOf (w : World) (h : Nat) : Storage := w.storages (w.tensors h).storage

/-- `tmb_tensor_info`: a tensor as it is now. An empty tensor has no data pointer. -/
def World.read (w : World) (h : Nat) : T :=
  let impl := w.tensors h
  { h := h
    ptr := if impl.shape.prod = 0 then 0
      else (w.storageOf h).data + (impl.offset * impl.itemsize : Nat)
    shape := impl.shape
    strides := impl.strides
    offset := impl.offset
    numel := impl.shape.prod
    itemsize := impl.itemsize
    contig := decide (impl.shape.prod = 0) || contigFrom 1 (impl.shape.zip impl.strides).reverse }

/-- `storage_ptr`. -/
def T.storagePtr (w : World) (t : T) : Int := (w.storageOf t.h).data

/-- `storage_nbytes`. -/
def T.storageNbytes (w : World) (t : T) : Nat := (w.storageOf t.h).nbytes

/-- `contiguous_strides`, as a list. -/
def contiguousStrides (shape : List Nat) : List Int :=
  (List.range shape.length).map fun d =>
    ((DenseStrides.contiguousStrides (shape.getD · 0) shape.length d : Nat) : Int)

/-! ## The checks -/

inductive OverlapStatus where
  | overlapNo | overlapFull | overlapPartial | overlapTooHard
  deriving DecidableEq

open OverlapStatus

/-- `_dense`. -/
def dense (t : T) : Bool := t.contig || isDense (t.shape.zip t.strides)

/-- The end of `overlap_status`: two dense views of one storage. -/
def overlapRanges (a b : T) : OverlapStatus :=
  let aEnd := a.ptr + (a.numel * a.itemsize : Nat)
  let bEnd := b.ptr + (b.numel * b.itemsize : Nat)
  if a.ptr = b.ptr ∧ aEnd = bEnd then
    if a.shape.length = b.shape.length ∧ a.strides = b.strides then overlapFull
    else overlapPartial
  else if a.ptr < bEnd ∧ b.ptr < aEnd then overlapPartial
  else overlapNo

/-- `overlap_status`. -/
def overlapStatus (w : World) (a b : T) : OverlapStatus :=
  if a.h = b.h then overlapFull
  else if a.numel = 0 ∨ b.numel = 0 then overlapNo
  else if dense a = false ∨ dense b = false then overlapTooHard
  else if a.storagePtr w = 0 ∨ a.storagePtr w ≠ b.storagePtr w then overlapNo
  else overlapRanges a b

/-- `resized_geometry`. -/
def resizedGeometry (w : World) (dest : T) (shape : List Nat) : T :=
  if dest.shape = shape then dest
  else
    { dest with
      ptr := dest.storagePtr w + (dest.offset * dest.itemsize : Nat)
      shape := shape
      strides := contiguousStrides shape
      numel := shape.prod
      contig := true }

/-- `_repeats_elements`. -/
def repeatsElements (t : T) : Bool :=
  (t.shape.zip t.strides).any fun d => decide (d.2 ≤ 0) && decide (1 < d.1)

/-- `assert_no_internal_overlap`. -/
def assertNoInternalOverlap (t : T) : Except String Unit :=
  if t.numel = 0 then .ok ()
  else if repeatsElements t then
    .error ("unsupported operation: more than one element of the written-to" ++
      " tensor refers to a single memory location. Please clone() the" ++
      " tensor before performing the operation.")
  else .ok ()

/-! ## The resize -/

/-- A block the allocator hands out: its address, and whatever its bytes are. -/
structure Block where
  addr : Int
  contents : Nat → UInt8
  addr_ne : addr ≠ 0

/-- No storage has its bytes at the block. -/
def World.Unused (w : World) (fresh : Block) : Prop :=
  ∀ s, (w.storages s).data ≠ fresh.addr

def Block.fill (fresh : Block) (old : List UInt8) (nbytes : Nat) : List UInt8 :=
  old.take nbytes ++ (List.range' (min nbytes old.length) (nbytes - old.length)).map fresh.contents

/-- `resizePrivateUse1Bytes`: a storage moves to a fresh block of `nbytes` bytes. -/
def Storage.resize (s : Storage) (fresh : Block) (nbytes : Nat) : Storage where
  data := fresh.addr
  bytes := fresh.fill s.bytes nbytes
  resizable := s.resizable
  data_ne := fun _ => fresh.addr_ne

def World.setStorage (w : World) (s : Nat) (storage : Storage) : World :=
  { w with storages := Function.update w.storages s storage }

def World.setTensor (w : World) (h : Nat) (impl : TensorImpl) : World :=
  { w with tensors := Function.update w.tensors h impl }

/-- `resize_storage_bytes`. -/
def resizeStorageBytes (fresh : Block) (w : World) (t : T) (nbytes : Nat) : Except String World :=
  if (w.storageOf t.h).resizable = false then
    .error "Trying to resize storage that is not resizable"
  else
    .ok (w.setStorage (w.tensors t.h).storage ((w.storageOf t.h).resize fresh nbytes))

/-- The loop of `check_in_bounds`, with the offset of the last element so far. -/
def checkInBounds (nbytes itemsize offset : Nat) : List (Nat × Int) → Int → Except String Unit
  | [], last =>
    if (offset + last + 1) * itemsize ≤ nbytes then .ok ()
    else
      .error ("setStorage: sizes/strides reach " ++ toString ((offset + last + 1) * itemsize) ++
        " bytes but the storage has " ++ toString nbytes)
  | (size, stride) :: rest, last =>
    if size = 0 then .ok ()
    else if 0 < stride then
      checkInBounds nbytes itemsize offset rest (last + ((size : Int) - 1) * stride)
    else if stride = 0 ∨ 0 ≤ ((size : Int) - 1) * stride + offset then
      checkInBounds nbytes itemsize offset rest last
    else .error "negative stride reaches before the storage"

/-- `set_sizes_strides`. -/
def setSizesStrides (w : World) (t : T) (shape : List Nat) (strides : List Int) (offset : Nat) :
    Except String World := do
  checkInBounds (w.storageOf t.h).nbytes (w.tensors t.h).itemsize offset (shape.zip strides) 0
  return w.setTensor t.h { w.tensors t.h with shape := shape, strides := strides, offset := offset }

/-- `resize_out`, with the block the allocator hands out if it is asked for one. -/
def resizeOut (fresh : Block) (w : World) (t : T) (shape : List Nat) : Except String (World × T) :=
  if t.shape = shape then .ok (w, t)
  else do
    let numel := shape.prod
    let nbytes := (t.offset + numel) * t.itemsize
    -- an empty result never touches the storage
    let w ← (if 0 < numel ∧ t.storageNbytes w < nbytes then resizeStorageBytes fresh w t nbytes
      else .ok w : Except String World)
    let w ← setSizesStrides w t shape (contiguousStrides shape) t.offset
    return (w, w.read t.h)

/-! ## Contiguous strides -/

theorem sizeBefore_reverse (shape : List Nat) {i : Nat} (hi : i ≤ shape.length) :
    sizeBefore (shape.getD · 0) (fun k => shape.length - 1 - k) i =
      (shape.drop (shape.length - i)).prod := by
  induction i with
  | zero => rw [Nat.sub_zero, List.drop_length]; rfl
  | succ i ih =>
      have hlt : shape.length - (i + 1) < shape.length := by omega
      rw [sizeBefore_succ, ih (by omega), List.drop_eq_getElem_cons hlt, List.prod_cons,
        Nat.mul_comm, show shape.length - (i + 1) + 1 = shape.length - i by omega,
        show shape.length - 1 - i = shape.length - (i + 1) by omega,
        List.getD_eq_getElem _ _ hlt]

/-- A dimension's stride is the number of elements of those after it. -/
theorem contiguousStrides_eq (shape : List Nat) :
    contiguousStrides shape =
      (List.range shape.length).map fun d => ((shape.drop (d + 1)).prod : Int) := by
  refine List.map_congr_left fun d hd => ?_
  have hd : d < shape.length := List.mem_range.mp hd
  have horder : DenseStrides.contiguousStrides (shape.getD · 0) shape.length
      (shape.length - 1 - (shape.length - 1 - d)) =
      sizeBefore (shape.getD · 0) (fun k => shape.length - 1 - k) (shape.length - 1 - d) :=
    fillStrides_order (arranged_reverse shape.length) (by omega)
  rw [sizeBefore_reverse shape (by omega)] at horder
  rw [show shape.length - 1 - (shape.length - 1 - d) = d by omega,
    show shape.length - (shape.length - 1 - d) = d + 1 by omega] at horder
  exact congrArg Nat.cast horder

@[simp] theorem contiguousStrides_nil : contiguousStrides [] = [] := rfl

@[simp] theorem contiguousStrides_cons (size : Nat) (shape : List Nat) :
    contiguousStrides (size :: shape) = (shape.prod : Int) :: contiguousStrides shape := by
  rw [contiguousStrides_eq, contiguousStrides_eq, List.length_cons, List.range_succ_eq_map,
    List.map_cons, List.map_map]
  rfl

theorem contigFrom_append (dims : List (Nat × Int)) (d : Nat × Int) (z : Int) :
    contigFrom z (dims ++ [d]) =
      (contigFrom z dims && contigFrom (z * ((dims.map Prod.fst).prod : Nat)) [d]) := by
  induction dims generalizing z with
  | nil => rw [List.nil_append, List.map_nil, List.prod_nil, Nat.cast_one, Int.mul_one]; rfl
  | cons e dims ih =>
      obtain ⟨size, stride⟩ := e
      rw [List.cons_append, contigFrom, contigFrom, List.map_cons, List.prod_cons, Nat.cast_mul,
        ← Int.mul_assoc]
      by_cases hsize : size = 1
      · subst hsize
        rw [if_neg (by omega), if_neg (by omega), Nat.cast_one, Int.mul_one]
        exact ih z
      · rw [if_pos hsize, if_pos hsize, ih, Bool.and_assoc]

/-- Contiguous strides are contiguous. -/
theorem contigFrom_contiguousStrides (shape : List Nat) :
    contigFrom 1 (shape.zip (contiguousStrides shape)).reverse = true := by
  induction shape with
  | nil => rfl
  | cons size shape ih =>
      have hlen : (contiguousStrides shape).length = shape.length := by
        rw [contiguousStrides, List.length_map, List.length_range]
      have hprod : (((shape.zip (contiguousStrides shape)).reverse.map Prod.fst).prod) =
          shape.prod := by
        rw [List.map_reverse, List.prod_reverse, ← List.unzip_fst, List.unzip_zip hlen.symm]
      rw [contiguousStrides_cons, List.zip_cons_cons, List.reverse_cons, contigFrom_append, ih,
        hprod, Int.one_mul, Bool.true_and, contigFrom]
      by_cases hsize : size = 1
      · rw [if_neg (by omega)]; rfl
      · rw [if_pos hsize, decide_eq_true rfl]; rfl

/-- A contiguous view that ends within the storage is in bounds. -/
theorem checkInBounds_contiguous {nbytes itemsize offset : Nat} (shape : List Nat) (last : Int)
    (h : shape.prod ≠ 0 → (offset + last + shape.prod) * itemsize ≤ nbytes) :
    checkInBounds nbytes itemsize offset (shape.zip (contiguousStrides shape)) last = .ok () := by
  induction shape generalizing last with
  | nil => exact if_pos (by simpa using h)
  | cons size shape ih =>
      rw [contiguousStrides_cons, List.zip_cons_cons, checkInBounds]
      by_cases hsize : size = 0
      · rw [if_pos hsize]
      · rw [if_neg hsize]
        have hnext : shape.prod ≠ 0 →
            (offset + (last + ((size : Int) - 1) * shape.prod) + shape.prod) * itemsize ≤
              (nbytes : Int) := by
          intro hprod
          have hall := h (by rw [List.prod_cons]; exact Nat.mul_ne_zero hsize hprod)
          rw [List.prod_cons, Nat.cast_mul] at hall
          rw [show (offset + (last + ((size : Int) - 1) * shape.prod) + shape.prod : Int) =
            offset + last + size * shape.prod by rw [Int.sub_mul]; omega]
          exact hall
        by_cases hprod : shape.prod = 0
        · rw [hprod, Nat.cast_zero, if_neg (Int.lt_irrefl 0), if_pos (Or.inl rfl)]
          exact ih last fun hne => absurd hprod hne
        · rw [if_pos (by omega)]
          exact ih _ hnext

/-! ## What a resize leaves -/

section
variable (w : World) (h s : Nat)

@[simp] theorem World.setStorage_storages (st : Storage) :
    (w.setStorage s st).storages = Function.update w.storages s st := rfl

@[simp] theorem World.setStorage_tensors (st : Storage) :
    (w.setStorage s st).tensors = w.tensors := rfl

@[simp] theorem World.setTensor_storages (impl : TensorImpl) :
    (w.setTensor h impl).storages = w.storages := rfl

@[simp] theorem World.setTensor_tensors (impl : TensorImpl) :
    (w.setTensor h impl).tensors = Function.update w.tensors h impl := rfl

end

/-- The tensor a resize leaves behind a handle. -/
def laidOut (impl : TensorImpl) (shape : List Nat) : TensorImpl :=
  { impl with shape := shape, strides := contiguousStrides shape }

/-- Whether a resize to `shape` needs more bytes than the storage has. -/
def Outgrows (w : World) (h : Nat) (shape : List Nat) : Prop :=
  0 < shape.prod ∧
    (w.storageOf h).nbytes < ((w.tensors h).offset + shape.prod) * (w.tensors h).itemsize

instance (w : World) (h : Nat) (shape : List Nat) : Decidable (Outgrows w h shape) :=
  inferInstanceAs (Decidable (_ ∧ _))

/-- The world once the storage of `h` has room for `shape`. -/
def withRoom (fresh : Block) (w : World) (h : Nat) (shape : List Nat) : World :=
  if Outgrows w h shape then
    w.setStorage (w.tensors h).storage ((w.storageOf h).resize fresh
      (((w.tensors h).offset + shape.prod) * (w.tensors h).itemsize))
  else w

theorem Block.length_fill (fresh : Block) {old : List UInt8} {nbytes : Nat}
    (hle : old.length ≤ nbytes) : (fresh.fill old nbytes).length = nbytes := by
  rw [Block.fill, List.length_append, List.length_take, List.length_map, List.length_range']
  omega

theorem Block.prefix_fill (fresh : Block) {old : List UInt8} {nbytes : Nat}
    (hle : old.length ≤ nbytes) : old <+: fresh.fill old nbytes := by
  rw [Block.fill, List.take_of_length_le hle]
  exact List.prefix_append _ _

section
variable {fresh : Block} {w : World} {h : Nat} {shape : List Nat}

@[simp] theorem withRoom_tensors : (withRoom fresh w h shape).tensors = w.tensors := by
  rw [withRoom]
  split <;> rfl

theorem withRoom_storage_ne {s : Nat} (hs : s ≠ (w.tensors h).storage) :
    (withRoom fresh w h shape).storages s = w.storages s := by
  rw [withRoom]
  split
  · exact Function.update_of_ne hs _ _
  · rfl

theorem withRoom_storage (hgrow : Outgrows w h shape) :
    (withRoom fresh w h shape).storages (w.tensors h).storage = (w.storageOf h).resize fresh
      (((w.tensors h).offset + shape.prod) * (w.tensors h).itemsize) := by
  rw [withRoom, if_pos hgrow]
  exact Function.update_self _ _ _

/-- A result with elements has room for them. -/
theorem withRoom_nbytes (hne : shape.prod ≠ 0) :
    ((w.tensors h).offset + shape.prod) * (w.tensors h).itemsize ≤
      ((withRoom fresh w h shape).storages (w.tensors h).storage).nbytes := by
  by_cases hgrow : Outgrows w h shape
  · rw [withRoom_storage hgrow]
    exact (fresh.length_fill (Nat.le_of_lt hgrow.2)).ge
  · rw [withRoom, if_neg hgrow]
    exact Nat.le_of_not_lt fun hlt => hgrow ⟨Nat.pos_of_ne_zero hne, hlt⟩

/-- The bytes stored before are still there. -/
theorem withRoom_prefix :
    (w.storageOf h).bytes <+: ((withRoom fresh w h shape).storages (w.tensors h).storage).bytes := by
  by_cases hgrow : Outgrows w h shape
  · rw [withRoom_storage hgrow]
    exact fresh.prefix_fill (Nat.le_of_lt hgrow.2)
  · rw [withRoom, if_neg hgrow]
    exact List.prefix_rfl

theorem setSizesStrides_withRoom :
    setSizesStrides (withRoom fresh w h shape) (w.read h) shape (contiguousStrides shape)
        (w.tensors h).offset =
      .ok ((withRoom fresh w h shape).setTensor h (laidOut (w.tensors h) shape)) := by
  have hbounds : checkInBounds ((withRoom fresh w h shape).storageOf h).nbytes
      ((withRoom fresh w h shape).tensors h).itemsize (w.tensors h).offset
      (shape.zip (contiguousStrides shape)) 0 = .ok () := by
    refine checkInBounds_contiguous shape 0 fun hne => ?_
    rw [World.storageOf, withRoom_tensors, Int.add_zero]
    exact_mod_cast withRoom_nbytes hne
  rw [setSizesStrides]
  dsimp only [World.read]
  rw [hbounds, withRoom_tensors]
  rfl

/-- What a resize does: nothing to a tensor of that shape, it fails where a storage that has
    no room is not resizable, and else it makes room and lays the tensor out. -/
theorem resizeOut_cases :
    resizeOut fresh w (w.read h) shape =
      if (w.tensors h).shape = shape then .ok (w, w.read h)
      else if Outgrows w h shape ∧ (w.storageOf h).resizable = false then
        .error "Trying to resize storage that is not resizable"
      else
        let w' := (withRoom fresh w h shape).setTensor h (laidOut (w.tensors h) shape)
        .ok (w', w'.read h) := by
  by_cases hsame : (w.tensors h).shape = shape
  · rw [if_pos hsame]
    exact if_pos hsame
  rw [if_neg hsame]
  refine (if_neg hsame).trans ?_
  have hlay : setSizesStrides (withRoom fresh w h shape) (w.read h) shape
      (contiguousStrides shape) (w.tensors h).offset =
      .ok ((withRoom fresh w h shape).setTensor h (laidOut (w.tensors h) shape)) :=
    setSizesStrides_withRoom
  have hroom : (if 0 < shape.prod ∧ (w.read h).storageNbytes w <
        ((w.read h).offset + shape.prod) * (w.read h).itemsize then
        resizeStorageBytes fresh w (w.read h) (((w.read h).offset + shape.prod) *
          (w.read h).itemsize)
      else .ok w) =
      if Outgrows w h shape ∧ (w.storageOf h).resizable = false then
        .error "Trying to resize storage that is not resizable"
      else .ok (withRoom fresh w h shape) := by
    by_cases hgrow : Outgrows w h shape
    · refine (if_pos hgrow).trans ?_
      rw [withRoom, if_pos hgrow, resizeStorageBytes]
      exact if_congr (and_iff_right hgrow).symm rfl rfl
    · refine (if_neg hgrow).trans ?_
      rw [withRoom, if_neg hgrow]
      exact (if_neg fun hboth => hgrow hboth.1).symm
  dsimp only
  rw [hroom]
  by_cases hfixed : Outgrows w h shape ∧ (w.storageOf h).resizable = false
  · rw [if_pos hfixed, if_pos hfixed]
    rfl
  · rw [if_neg hfixed, if_neg hfixed]
    exact congrArg (· >>= fun w' => pure (w', w'.read h)) hlay

end

/-! ## The verdicts before and after -/

/-- Views of one storage that moves keep their ranges apart or together. -/
theorem overlapRanges_shift {a b : T} {p q : Int} (hptr : q - p = b.ptr - a.ptr) :
    overlapRanges { a with ptr := p } { b with ptr := q } = overlapRanges a b := by
  have hsame : (p = q ∧ p + (a.numel * a.itemsize : Nat) = q + (b.numel * b.itemsize : Nat)) ↔
      (a.ptr = b.ptr ∧
        a.ptr + (a.numel * a.itemsize : Nat) = b.ptr + (b.numel * b.itemsize : Nat)) := by
    omega
  have hmeet : (p < q + (b.numel * b.itemsize : Nat) ∧ q < p + (a.numel * a.itemsize : Nat)) ↔
      (a.ptr < b.ptr + (b.numel * b.itemsize : Nat) ∧
        b.ptr < a.ptr + (a.numel * a.itemsize : Nat)) := by
    omega
  exact if_congr hsame rfl (if_congr hmeet rfl rfl)

/-- The data pointers say that two records share a storage. -/
def SharePtr (w : World) (a b : T) : Prop :=
  a.storagePtr w ≠ 0 ∧ a.storagePtr w = b.storagePtr w

theorem not_sharePtr {w : World} {a b : T} :
    (a.storagePtr w = 0 ∨ a.storagePtr w ≠ b.storagePtr w) ↔ ¬SharePtr w a b := by
  rw [SharePtr, not_and_or, not_not]

/-- A verdict looks at the storages only for whether they are shared, and at the pointers only
    for the distance between them. -/
theorem overlapStatus_congr {w w' : World} {a b : T} {p q : Int}
    (hstore : a.h ≠ b.h → a.numel ≠ 0 → b.numel ≠ 0 →
      (SharePtr w' a b ↔ SharePtr w a b) ∧ (SharePtr w a b → q - p = b.ptr - a.ptr)) :
    overlapStatus w' { a with ptr := p } { b with ptr := q } = overlapStatus w a b := by
  rw [overlapStatus, overlapStatus]
  dsimp only
  by_cases hh : a.h = b.h
  · rw [if_pos hh, if_pos hh]
  rw [if_neg hh, if_neg hh]
  by_cases hempty : a.numel = 0 ∨ b.numel = 0
  · rw [if_pos hempty, if_pos hempty]
  rw [if_neg hempty, if_neg hempty]
  obtain ⟨hshare, hptr⟩ := hstore hh (fun ha => hempty (.inl ha)) fun hb => hempty (.inr hb)
  refine if_congr Iff.rfl rfl ?_
  by_cases hs : SharePtr w a b
  · rw [if_neg fun hn => not_sharePtr.mp hn hs]
    refine (if_neg fun hn => not_sharePtr.mp hn (hshare.mpr hs)).trans ?_
    exact overlapRanges_shift (hptr hs)
  · rw [if_pos (not_sharePtr.mpr hs)]
    exact if_pos (not_sharePtr.mpr fun hs' => hs (hshare.mp hs'))

/-- The data pointers of two tensors tell whether they view one storage. -/
def World.PointersTell (w : World) (a b : Nat) : Prop :=
  ((w.storageOf a).data ≠ 0 ∧ (w.storageOf a).data = (w.storageOf b).data) ↔
    (w.tensors a).storage = (w.tensors b).storage

section
variable {fresh : Block} {w : World} {dest other : Nat} {shape : List Nat}

theorem storageOf_laidOut (w' : World) :
    (w'.setTensor dest (laidOut (w.tensors dest) shape)).storageOf dest =
      w'.storages (w.tensors dest).storage := by
  rw [World.storageOf, World.setTensor_tensors, Function.update_self]
  rfl

/-- A tensor with its new layout, as it is read after the resize. -/
theorem read_laidOut (w' : World) (hshape : (w.tensors dest).shape ≠ shape) :
    (w'.setTensor dest (laidOut (w.tensors dest) shape)).read dest =
      { resizedGeometry w (w.read dest) shape with
        ptr := if shape.prod = 0 then 0
          else (w'.storages (w.tensors dest).storage).data +
            ((w.tensors dest).offset * (w.tensors dest).itemsize : Nat) } := by
  have hgeom : resizedGeometry w (w.read dest) shape = _ := if_neg hshape
  rw [hgeom, World.read, World.storageOf, World.setTensor_tensors, Function.update_self]
  dsimp only [laidOut, World.setTensor_storages]
  rw [contigFrom_contiguousStrides, Bool.or_true]
  rfl

/-- Another tensor, as it is read after the resize. -/
theorem read_other (w' : World) (hother : other ≠ dest) (hw' : w'.tensors = w.tensors) :
    (w'.setTensor dest (laidOut (w.tensors dest) shape)).read other =
      { w.read other with
        ptr := if (w.tensors other).shape.prod = 0 then 0
          else (w'.storages (w.tensors other).storage).data +
            ((w.tensors other).offset * (w.tensors other).itemsize : Nat) } := by
  rw [World.read, World.storageOf, World.setTensor_tensors, Function.update_of_ne hother, hw']
  rfl

/-- Making room changes neither whether two data pointers are one nor, where they are, their
    distance. -/
theorem withRoom_pointers (hfresh : w.Unused fresh)
    (htell : Outgrows w dest shape → w.PointersTell dest other) {a b a' b' : Int}
    (ha : a = (w.storageOf dest).data) (hb : b = (w.storageOf other).data)
    (ha' : a' = ((withRoom fresh w dest shape).storages (w.tensors dest).storage).data)
    (hb' : b' = ((withRoom fresh w dest shape).storages (w.tensors other).storage).data) :
    ((a' ≠ 0 ∧ a' = b') ↔ (a ≠ 0 ∧ a = b)) ∧ (a ≠ 0 ∧ a = b → b' - a' = b - a) := by
  by_cases hgrow : Outgrows w dest shape
  · have hshare : (a ≠ 0 ∧ a = b) ↔ (w.tensors dest).storage = (w.tensors other).storage := by
      rw [ha, hb]
      exact htell hgrow
    have hmoved : a' = fresh.addr := by rw [ha', withRoom_storage hgrow]; rfl
    by_cases hs : (w.tensors dest).storage = (w.tensors other).storage
    · have heq : a' = b' := by rw [ha', hb', hs]
      refine ⟨iff_of_true ⟨hmoved ▸ fresh.addr_ne, heq⟩ (hshare.mpr hs), fun hab => ?_⟩
      rw [heq, hab.2, Int.sub_self, Int.sub_self]
    · have hstays : b' = b := by rw [hb', hb, withRoom_storage_ne fun heq => hs heq.symm]; rfl
      have hne : a' ≠ b' := by
        rw [hmoved, hstays, hb]
        exact fun heq => hfresh _ heq.symm
      exact ⟨iff_of_false (fun h => hne h.2) fun h => hs (hshare.mp h),
        fun h => absurd (hshare.mp h) hs⟩
  · rw [withRoom, if_neg hgrow] at ha' hb'
    have haa : a' = a := ha'.trans ha.symm
    have hbb : b' = b := hb'.trans hb.symm
    rw [haa, hbb]
    exact ⟨Iff.rfl, fun _ => rfl⟩

/-- The verdict on the predicted geometry is the verdict after the resize. -/
theorem overlapStatus_withRoom (hfresh : w.Unused fresh) (hshape : (w.tensors dest).shape ≠ shape)
    (htell : Outgrows w dest shape → (w.read other).numel ≠ 0 → w.PointersTell dest other) :
    let w' := (withRoom fresh w dest shape).setTensor dest (laidOut (w.tensors dest) shape)
    overlapStatus w' (w'.read dest) (w'.read other) =
      overlapStatus w (resizedGeometry w (w.read dest) shape) (w.read other) := by
  intro w'
  have hgeom : resizedGeometry w (w.read dest) shape = _ := if_neg hshape
  have hh : (resizedGeometry w (w.read dest) shape).h = dest := by rw [hgeom]; rfl
  by_cases hother : other = dest
  · subst hother
    exact (if_pos rfl).trans (if_pos hh).symm
  rw [read_laidOut _ hshape, read_other _ hother withRoom_tensors]
  refine overlapStatus_congr fun _ hnum hne => ?_
  have hnum : shape.prod ≠ 0 := by rw [hgeom] at hnum; exact hnum
  have hptr : (resizedGeometry w (w.read dest) shape).ptr = (w.storageOf dest).data +
      ((w.tensors dest).offset * (w.tensors dest).itemsize : Nat) := by rw [hgeom]; rfl
  have hoptr : (w.read other).ptr = (w.storageOf other).data +
      ((w.tensors other).offset * (w.tensors other).itemsize : Nat) := if_neg hne
  have ha : (resizedGeometry w (w.read dest) shape).storagePtr w = (w.storageOf dest).data := by
    rw [T.storagePtr, hh]
  have ha' : (resizedGeometry w (w.read dest) shape).storagePtr w' =
      ((withRoom fresh w dest shape).storages (w.tensors dest).storage).data := by
    rw [T.storagePtr, hh]
    exact congrArg Storage.data (storageOf_laidOut _)
  have hb' : (w.read other).storagePtr w' =
      ((withRoom fresh w dest shape).storages (w.tensors other).storage).data := by
    refine congrArg (fun impl : TensorImpl => (w'.storages impl.storage).data) ?_
    dsimp only [w', World.read, World.setTensor_tensors]
    rw [Function.update_of_ne hother, withRoom_tensors]
  obtain ⟨hshare, hdist⟩ := withRoom_pointers hfresh (fun hgrow => htell hgrow hne) ha rfl ha' hb'
  refine ⟨hshare, fun hs => ?_⟩
  have hdist := hdist hs
  rw [ha, ha', hb'] at hdist
  have hne : (w.tensors other).shape.prod ≠ 0 := hne
  rw [if_neg hnum, if_neg hne, hptr, hoptr]
  omega

end

/-- A storage of `n` zero bytes at `data`. -/
def zeros (data : Int) (n : Nat) (hdata : data ≠ 0) : Storage :=
  ⟨data, List.replicate n 0, true, fun _ => hdata⟩

/-- Two tensors of two bytes each in one storage of four. -/
def halves : World where
  tensors h := ⟨0, [2], [1], if h = 0 then 0 else 2, 1⟩
  storages _ := zeros 1000 4 (by decide)

def freshBlock : Block := ⟨2000, fun _ => 7, by decide⟩

/-- An empty tensor that starts past the end of its storage. -/
def pastEnd : World where
  tensors _ := ⟨0, [0], [1], 5, 1⟩
  storages _ := zeros 1000 2 (by decide)

/-- Two storages at one address. -/
def aliased : World where
  tensors h := ⟨h, [2], [1], 0, 1⟩
  storages _ := zeros 1000 2 (by decide)

/-- Two tensors in a storage that was freed under them. -/
def freed : World where
  tensors _ := ⟨0, [2], [1], 0, 1⟩
  storages _ := ⟨0, [], true, fun h => absurd rfl h⟩

end TorchMojoBackend.Ops.ResizeOut
