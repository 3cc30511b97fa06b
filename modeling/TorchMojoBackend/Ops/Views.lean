/-
  `Ops.Views`: tensors as views of a storage, and the dense buffers of their elements.

  Source: tmb/backend/abi.mojo (`T`, `contiguous_strides`, `new_like`) and tmb/ops/common.mojo
  (`contiguous`, `copy_strided_into`, `_repeats_elements`, `assert_no_internal_overlap`).

  Addresses count elements.  A kernel that writes the elements of a tensor in row-major order
  writes to the tensor itself where it is contiguous, and else to a dense tensor that is then
  copied into it.
-/
import TorchMojoBackend.Foundation.RowMajor
import TorchMojoBackend.Ops.ResizeOut

set_option autoImplicit false

namespace TorchMojoBackend.Ops.Views

open TorchMojoBackend.Foundation
open TorchMojoBackend.Kernels.ForeachCopy (contigFrom)
open TorchMojoBackend.Ops.ResizeOut (contiguousStrides contiguousStrides_cons contiguousStrides_nil
  contigFrom_append)

universe u

/-- A view of a storage. -/
structure T (α : Type u) where
  shape : List Nat
  strides : List Int
  offset : Int
  storage : Int → α
  strides_length : strides.length = shape.length

namespace T

variable {α : Type u} (t : T α)

def rank : Nat := t.shape.length

def numel : Nat := t.shape.prod

/-- The address of an element. -/
def addr (x : List Nat) : Int := t.offset + along t.strides x

/-- An element. -/
def elem (x : List Nat) : α := t.storage (t.addr x)

/-- torch's `is_contiguous`. -/
def contig : Bool := decide (t.numel = 0) || contigFrom 1 (t.shape.zip t.strides).reverse

/-- `_repeats_elements`. -/
def repeatsElements : Bool :=
  (t.shape.zip t.strides).any fun d => decide (d.2 ≤ 0) && decide (d.1 > 1)

/-- `assert_no_internal_overlap`. -/
def assertNoInternalOverlap : Except String Unit :=
  if t.numel = 0 then .ok ()
  else if t.repeatsElements then
    .error ("unsupported operation: more than one element of the written-to" ++
      " tensor refers to a single memory location. Please clone() the" ++
      " tensor before performing the operation.")
  else .ok ()

/-- `new_like`, with what its storage holds. -/
def newLike {β : Type u} (storage : Int → β) : T β where
  shape := t.shape
  strides := contiguousStrides t.shape
  offset := 0
  storage := storage
  strides_length := by rw [contiguousStrides, List.length_map, List.length_range]

/-- The stores of `copy_strided_into`. -/
def copyStridedInto (src : T α) : List (Int × α) :=
  (indices t.shape).map fun x => (t.addr x, src.elem x)

/-- What a kernel reads at the pointer of `contiguous`; behind the end of a copy it is `rest`. -/
def contiguous (rest : α) (i : Nat) : α :=
  if t.contig then t.storage (t.offset + i) else ((indices t.shape).map t.elem).getD i rest

/-- The stores to a tensor that a kernel fills: the kernel's own, or those of a copy of the
dense tensor that it fills instead. -/
def fillStores (kernel : List (Nat × α)) (dense : Int → α) : List (Int × α) :=
  if t.contig then kernel.map fun w => (t.offset + w.1, w.2)
  else t.copyStridedInto (t.newLike dense)

/-- A tensor that a kernel fills; `out` is what its storage holds afterwards. -/
structure Fill (kernel : List (Nat × α)) where
  dense : Int → α
  filled : ∃ fresh, Stores (kernel.map fun w => ((w.1 : Int), w.2)) fresh dense
  out : Int → α
  stored : Stores (t.fillStores kernel dense) t.storage out

end T

/-! ## Contiguous tensors -/

theorem along_contiguousStrides {shape x : List Nat} (hx : x ∈ indices shape) :
    along (contiguousStrides shape) x = flatIndex shape x := by
  have hall := mem_indices.mp hx
  clear hx
  induction hall with
  | nil => rfl
  | cons _ _ ih => rw [contiguousStrides_cons, along, flatIndex, ih, Nat.cast_add, Nat.cast_mul]

theorem along_contig {shape : List Nat} {strides : List Int} (hlen : strides.length = shape.length)
    (h : contigFrom 1 (shape.zip strides).reverse = true) {x : List Nat} (hx : x ∈ indices shape) :
    along strides x = flatIndex shape x := by
  have hall := mem_indices.mp hx
  clear hx
  induction hall generalizing strides with
  | nil =>
      obtain rfl := List.eq_nil_of_length_eq_zero hlen
      rfl
  | @cons i n x shape hi _ ih =>
      obtain ⟨s, strides, rfl⟩ := List.exists_cons_of_length_eq_add_one hlen
      have hlen := Nat.succ.inj hlen
      have hprod : ((shape.zip strides).reverse.map Prod.fst).prod = shape.prod := by
        rw [List.map_reverse, List.prod_reverse, ← List.unzip_fst, List.unzip_zip hlen.symm]
      rw [List.zip_cons_cons, List.reverse_cons, contigFrom_append, hprod, Int.one_mul,
        Bool.and_eq_true] at h
      rw [along, flatIndex, ih hlen h.1, Nat.cast_add, Nat.cast_mul]
      by_cases hone : n = 1
      · obtain rfl : i = 0 := by omega
        rw [Nat.cast_zero, Int.zero_mul, Int.zero_mul]
      · have hstride : s = (shape.prod : Int) := by simpa [contigFrom, hone] using h.2
        rw [hstride]

namespace T

variable {α : Type u} {t : T α}

theorem along_of_contig (h : t.contig = true) {x : List Nat} (hx : x ∈ indices t.shape) :
    along t.strides x = flatIndex t.shape x := by
  have hlt := flatIndex_lt hx
  have hne : t.numel ≠ 0 := fun hzero => by
    rw [numel] at hzero
    omega
  rw [contig, decide_eq_false hne, Bool.false_or] at h
  exact along_contig t.strides_length h hx

theorem newLike_elem {storage : Int → α} {x : List Nat} (hx : x ∈ indices t.shape) :
    (t.newLike storage).elem x = storage (flatIndex t.shape x) := by
  change storage (0 + along (contiguousStrides t.shape) x) = _
  rw [along_contiguousStrides hx, Int.zero_add]

/-- The dense buffer holds the elements in row-major order. -/
theorem contiguous_elem (rest : α) {x : List Nat} (hx : x ∈ indices t.shape) :
    t.contiguous rest (flatIndex t.shape x) = t.elem x := by
  unfold contiguous
  split
  · rename_i h
    rw [← along_of_contig h hx]
    rfl
  · rw [List.getD_eq_getElem?_getD, List.getElem?_map, indices_getElem hx]
    rfl

/-- Where a kernel stores one value for each element, a fill stores it to the element. -/
theorem Fill.stores_perm {kernel : List (Nat × α)} (r : t.Fill kernel) {f : Nat → α}
    (hkernel : kernel.Perm ((List.range t.numel).map fun i => (i, f i))) :
    (t.fillStores kernel r.dense).Perm
      ((indices t.shape).map fun x => (t.addr x, f (flatIndex t.shape x))) := by
  unfold fillStores
  split
  · rename_i hcontig
    refine (hkernel.map _).trans (List.Perm.of_eq ?_)
    rw [numel, ← map_flatIndex, List.map_map, List.map_map]
    refine List.map_congr_left fun x hx => ?_
    rw [addr, along_of_contig hcontig hx]
    rfl
  · refine List.Perm.of_eq (List.map_congr_left fun x hx => ?_)
    obtain ⟨fresh, hstores⟩ := r.filled
    rw [newLike_elem hx]
    have hperm := hkernel.map fun w => ((w.1 : Int), w.2)
    rw [List.map_map] at hperm
    have hdense := (hstores.congr fun w => hperm.mem_iff).map_at
      (fun i _ j _ hij => Int.ofNat.inj hij) (List.mem_range.mpr (flatIndex_lt hx))
    exact congrArg _ hdense

theorem Fill.stores {kernel : List (Nat × α)} (r : t.Fill kernel) {f : Nat → α}
    (hkernel : kernel.Perm ((List.range t.numel).map fun i => (i, f i))) :
    Stores ((indices t.shape).map fun x => (t.addr x, f (flatIndex t.shape x))) t.storage r.out :=
  r.stored.congr fun _ => (r.stores_perm hkernel).mem_iff

end T

end TorchMojoBackend.Ops.Views
