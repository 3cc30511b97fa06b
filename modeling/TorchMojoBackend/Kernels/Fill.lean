/-
  `Kernels.Fill`: filling a strided layout with one value.

  Since one value is stored, the layout is a set of addresses: dimensions of one element
  and repeated dimensions are dropped, the rest are sorted by stride and neighbours that
  tile are merged.  What is left is filled by one of three kernels, with vectors of 16
  bytes where the base, the runs and the strides allow them.

  A fill stores to the addresses of its layout.  Collapsing keeps the set of offsets: it
  drops dimensions that add nothing, reorders the rest and merges neighbours that tile.
  Each kernel stores to the offsets of the layout it is given, in aligned vectors.
-/
import Mathlib.Data.List.DropRight
import TorchMojoBackend.Foundation.Layout
import TorchMojoBackend.Kernels.OpUtils

set_option autoImplicit false

namespace TorchMojoBackend.Kernels.Fill

open TorchMojoBackend.Foundation TorchMojoBackend.Kernels.OpUtils

universe v

def FILL_THREADS : Nat := 256

/-- A store of `width` elements at a byte address. -/
structure VecStore where
  addr : Nat
  width : Nat
  deriving DecidableEq

/-- The addresses of the elements of a store. -/
def VecStore.elements (dtype : BitsType) (s : VecStore) : List Nat :=
  (List.range s.width).map fun j => s.addr + j * dtype.sizeOf

/-! ## Collapsing -/

/-- One round of the insertion sort: past the entries of a smaller stride, from the right. -/
def insertDim (sorted : List (Dim Nat)) (d : Dim Nat) : List (Dim Nat) :=
  sorted.rdropWhile (fun e => decide (e.stride < d.stride)) ++
    d :: sorted.rtakeWhile (fun e => decide (e.stride < d.stride))

/-- One round of the merge, `merged` the suffix so far. -/
def mergeDim (d : Dim Nat) (merged : List (Dim Nat)) : List (Dim Nat) :=
  match merged with
  | [] => [d]
  | w :: rest =>
    if d.stride = w.stride * w.extent then ⟨w.extent * d.extent, w.stride⟩ :: rest
    else d :: w :: rest

/-- The layout of `rank` dimensions in its slots. -/
def padded (ds : List (Dim Nat)) : List (Dim Nat) :=
  ds ++ List.replicate (MAX_RANK - ds.length) ⟨1, 0⟩

/-- `_collapse_fill_layout`: the slots and the rank. -/
def collapseFillLayout (ds : List (Dim Nat)) : List (Dim Nat) × Nat :=
  let kept := ds.filter fun d => decide (d.extent > 1) && decide (d.stride ≠ 0)
  if kept = [] then (padded [⟨1, 1⟩], 1)
  else
    let merged := (kept.foldl insertDim []).foldr mergeDim []
    (padded merged, merged.length)

/-! ## Kernels -/

def fillBlocks (slots : Nat) : Nat := max 1 (min (ceildiv slots FILL_THREADS) BW_MAX_BLOCKS)

/-- The stores of `_fill_vec_kernel` on `blocks` blocks. -/
def fillVecKernel (dtype : BitsType) (VEC blocks dstAddr nvec size : Nat) : List VecStore :=
  let threads := blocks * FILL_THREADS
  (List.range threads).flatMap fun tid =>
    (strided nvec threads nvec tid).map (fun j => ⟨dstAddr + j * VEC * dtype.sizeOf, VEC⟩) ++
    if nvec * VEC + tid < size then [⟨dstAddr + (nvec * VEC + tid) * dtype.sizeOf, 1⟩] else []

/-- The stores of `_fill_strided_kernel` on `blocks` blocks. -/
def fillStridedKernel (dtype : BitsType) (RANK VEC blocks dstAddr : Nat) (ds : List (Dim Nat))
    (total : Nat) : List VecStore :=
  (gridItems (blocks * FILL_THREADS) total).map fun i =>
    ⟨dstAddr + unravel (ds.take RANK).reverse i * VEC * dtype.sizeOf, VEC⟩

def fillContig (dtype : BitsType) (dstAddr size : Nat) : List VecStore :=
  if size = 0 then []
  else
    let VEC := if dstAddr % ALIGN dtype (WIDEST dtype) ≠ 0 then 1 else WIDEST dtype
    let nvec := size / VEC
    fillVecKernel dtype VEC (fillBlocks nvec) dstAddr nvec size

def fillStrided (dtype : BitsType) (RANK VEC dstAddr : Nat) (ds : List (Dim Nat)) (total : Nat) :
    List VecStore :=
  fillStridedKernel dtype RANK VEC (fillBlocks total) dstAddr ds total

/-- The layout in units of `VEC` elements. -/
def vectorized (VEC rank : Nat) (ds : List (Dim Nat)) : List (Dim Nat) :=
  ds.mapIdx fun i d =>
    if i < rank - 1 then ⟨d.extent, d.stride / VEC⟩
    else if i = rank - 1 then ⟨d.extent / VEC, 1⟩
    else d

/-- `_try_wide` may take vectors of `VEC`. -/
def canWide (dtype : BitsType) (VEC dstAddr rank : Nat) (ds : List (Dim Nat)) : Bool :=
  decide (dstAddr % ALIGN dtype VEC = 0) &&
    (match ds[rank - 1]? with
      | some d => decide (d.stride = 1) && decide (d.extent % VEC = 0)
      | none => false) &&
    (ds.take (rank - 1)).all fun d => decide (d.stride % VEC = 0)

def fillStridedWide (dtype : BitsType) (RANK dstAddr : Nat) (ds : List (Dim Nat))
    (rank total : Nat) : List VecStore :=
  if WIDEST dtype > 1 ∧ canWide dtype (WIDEST dtype) dstAddr rank ds then
    fillStrided dtype RANK (WIDEST dtype) dstAddr (vectorized (WIDEST dtype) rank ds)
      (total / WIDEST dtype)
  else fillStrided dtype RANK 1 dstAddr ds total

/-- The layout of a shape and strides in `MAX_RANK` slots. -/
def layout (shape strides : Fin MAX_RANK → Nat) : List (Dim Nat) :=
  List.ofFn fun i => ⟨shape i, strides i⟩

/-- The stores of `_fill_layout`. -/
def fillLayout (dtype : BitsType) (dstAddr : Nat) (ds : List (Dim Nat)) : List VecStore :=
  let total := count ds
  if total = 0 then []
  else
    let (cs, rank) := collapseFillLayout ds
    let size := count (cs.take rank)
    if rank = 1 ∧ (cs.head?.map Dim.stride) = some 1 then fillContig dtype dstAddr size
    else if rank ≤ 2 then fillStridedWide dtype 2 dstAddr cs rank size
    else fillStrided dtype MAX_RANK 1 dstAddr cs size

/-- `_fill_layout` leaves `m'` of the memory `m` of elements at byte addresses. -/
def FillLayout {V : Type v} (dtype : BitsType) (dstAddr : Nat) (value : V) (ds : List (Dim Nat))
    (m m' : Nat → V) : Prop :=
  Stores (((fillLayout dtype dstAddr ds).flatMap (VecStore.elements dtype)).map (·, value)) m m'

/-! ## Collapsing -/

theorem count_ne_zero_cons {d : Dim Nat} {ds : List (Dim Nat)} (h : count (d :: ds) ≠ 0) :
    0 < d.extent ∧ count ds ≠ 0 := by
  rw [count_cons] at h
  exact ⟨Nat.pos_of_ne_zero (Nat.ne_zero_of_mul_ne_zero_left h), Nat.ne_zero_of_mul_ne_zero_right h⟩

/-- A dimension of one element or of stride zero adds no offset. -/
theorem mem_offsets_drop {d : Dim Nat} {ds : List (Dim Nat)} (hpos : 0 < d.extent)
    (hdrop : d.extent = 1 ∨ d.stride = 0) {o : Nat} : o ∈ offsets (d :: ds) ↔ o ∈ offsets ds := by
  rw [mem_offsets_cons]
  constructor
  · rintro ⟨i, hi, o', ho', rfl⟩
    have hzero : i • d.stride = 0 := by
      obtain hone | hstride := hdrop
      · obtain rfl : i = 0 := by omega
        exact zero_nsmul _
      · rw [hstride, nsmul_zero]
    rwa [hzero, Nat.zero_add]
  · exact fun ho => ⟨0, hpos, o, ho, by rw [zero_nsmul, Nat.zero_add]⟩

theorem mem_offsets_filter {ds : List (Dim Nat)} (hcount : count ds ≠ 0) {o : Nat} :
    o ∈ offsets (ds.filter fun d => decide (d.extent > 1) && decide (d.stride ≠ 0)) ↔
      o ∈ offsets ds := by
  induction ds generalizing o with
  | nil => exact Iff.rfl
  | cons d ds ih =>
      obtain ⟨hpos, hcount⟩ := count_ne_zero_cons hcount
      by_cases hkeep : d.extent > 1 ∧ d.stride ≠ 0
      · rw [List.filter_cons_of_pos (by simpa using hkeep), mem_offsets_cons, mem_offsets_cons]
        simp only [ih hcount]
      · rw [List.filter_cons_of_neg (by simpa using hkeep), ih hcount,
          mem_offsets_drop hpos (by omega)]

theorem insertDim_perm (sorted : List (Dim Nat)) (d : Dim Nat) :
    (insertDim sorted d).Perm (d :: sorted) := by
  unfold insertDim
  refine List.perm_middle.trans (List.Perm.cons d (List.Perm.of_eq ?_))
  exact List.rdropWhile_append_rtakeWhile

theorem foldl_insertDim_perm (ds sorted : List (Dim Nat)) :
    (ds.foldl insertDim sorted).Perm (ds ++ sorted) := by
  induction ds generalizing sorted with
  | nil => exact List.Perm.refl _
  | cons d ds ih =>
      refine (ih _).trans (((insertDim_perm sorted d).append_left ds).trans ?_)
      exact List.perm_middle

theorem offsets_mergeDim (d : Dim Nat) (merged : List (Dim Nat)) :
    offsets (mergeDim d merged) = offsets (d :: merged) := by
  unfold mergeDim
  split
  · rfl
  · rename_i w rest
    split
    · rename_i htile
      obtain ⟨extent, stride⟩ := d
      obtain rfl : stride = w.stride * w.extent := htile
      have hmerge := offsets_merge extent w rest
      rw [Nat.mul_comm w.extent, ← hmerge, smul_eq_mul, Nat.mul_comm w.stride]
    · rfl

theorem offsets_foldr_mergeDim (ds : List (Dim Nat)) :
    offsets (ds.foldr mergeDim []) = offsets ds := by
  induction ds with
  | nil => rfl
  | cons d ds ih =>
      rw [List.foldr_cons, offsets_mergeDim]
      simp only [offsets, ih]

theorem length_mergeDim (d : Dim Nat) (merged : List (Dim Nat)) :
    0 < (mergeDim d merged).length ∧ (mergeDim d merged).length ≤ merged.length + 1 := by
  unfold mergeDim
  split
  · exact ⟨Nat.one_pos, Nat.le_refl _⟩
  · split
    · exact ⟨Nat.succ_pos _, Nat.le_succ _⟩
    · exact ⟨Nat.succ_pos _, Nat.le_refl _⟩

theorem length_foldr_mergeDim (ds : List (Dim Nat)) :
    (ds.foldr mergeDim []).length ≤ ds.length := by
  induction ds with
  | nil => exact Nat.le_refl _
  | cons d ds ih => exact Nat.le_trans (length_mergeDim d _).2 (Nat.succ_le_succ ih)

theorem foldr_mergeDim_ne_nil {ds : List (Dim Nat)} (h : ds ≠ []) :
    ds.foldr mergeDim [] ≠ [] := by
  obtain ⟨d, ds, rfl⟩ := List.exists_cons_of_ne_nil h
  exact List.ne_nil_of_length_pos (length_mergeDim d _).1

/-- What the collapse finds: between one and `MAX_RANK` dimensions, with the offsets of the
layout, and the slots after them padded. -/
theorem collapseFillLayout_spec {ds : List (Dim Nat)} (hlen : ds.length = MAX_RANK)
    (hcount : count ds ≠ 0) : ∃ merged : List (Dim Nat),
      collapseFillLayout ds = (padded merged, merged.length) ∧ merged ≠ [] ∧
      merged.length ≤ MAX_RANK ∧ ∀ o, o ∈ offsets merged ↔ o ∈ offsets ds := by
  unfold collapseFillLayout
  dsimp only
  split
  · rename_i hnone
    refine ⟨[⟨1, 1⟩], rfl, List.cons_ne_nil _ _, by decide, fun o => ?_⟩
    rw [← mem_offsets_filter hcount, hnone]
    exact Iff.rfl
  · rename_i hsome
    refine ⟨_, rfl, foldr_mergeDim_ne_nil fun hnil => hsome ?_, ?_, fun o => ?_⟩
    · have hperm := foldl_insertDim_perm (ds.filter fun d =>
        decide (d.extent > 1) && decide (d.stride ≠ 0)) []
      rw [hnil, List.append_nil] at hperm
      exact hperm.symm.eq_nil
    · refine Nat.le_trans (length_foldr_mergeDim _) ?_
      rw [(foldl_insertDim_perm _ _).length_eq, List.append_nil, ← hlen]
      exact List.length_filter_le _ _
    · rw [offsets_foldr_mergeDim, (offsets_perm (foldl_insertDim_perm _ _)).mem_iff,
        List.append_nil, mem_offsets_filter hcount]

/-- Slots of one element add nothing. -/
theorem offsets_append_ones (ds : List (Dim Nat)) (k : Nat) :
    offsets (ds ++ List.replicate k ⟨1, 0⟩) = offsets ds := by
  induction ds with
  | nil =>
      induction k with
      | zero => rfl
      | succ k ih => exact (offsets_one rfl _).trans ih
  | cons d ds ih => simp only [List.cons_append, offsets, ih]

theorem count_append_ones (ds : List (Dim Nat)) (k : Nat) :
    count (ds ++ List.replicate k ⟨1, 0⟩) = count ds := by
  rw [← length_offsets, offsets_append_ones, length_offsets]

theorem take_padded {ds : List (Dim Nat)} {k : Nat} (hk : ds.length ≤ k) (hmax : k ≤ MAX_RANK) :
    (padded ds).take k = ds ++ List.replicate (k - ds.length) ⟨1, 0⟩ := by
  unfold padded
  rw [List.take_append, List.take_of_length_le hk, List.take_replicate, Nat.min_eq_left (by omega)]

/-! ## Kernels -/

theorem WIDEST_le (dtype : BitsType) : 0 < WIDEST dtype ∧ WIDEST dtype ≤ FILL_THREADS := by
  cases dtype <;> decide

theorem fillBlocks_pos (slots : Nat) : 0 < fillBlocks slots :=
  Nat.lt_of_lt_of_le Nat.one_pos (Nat.le_max_left 1 _)

theorem mem_elements {dtype : BitsType} {s : VecStore} {x : Nat} :
    x ∈ s.elements dtype ↔ ∃ j, j < s.width ∧ x = s.addr + j * dtype.sizeOf := by
  unfold VecStore.elements
  simp only [List.mem_map, List.mem_range]
  constructor
  · rintro ⟨j, hj, rfl⟩
    exact ⟨j, hj, rfl⟩
  · rintro ⟨j, hj, rfl⟩
    exact ⟨j, hj, rfl⟩

/-- The element at `k` is the `k % VEC`-th of its vector. -/
theorem element_addr (dst q VEC j size : Nat) :
    dst + q * VEC * size + j * size = dst + (q * VEC + j) * size := by
  rw [Nat.add_mul, Nat.add_assoc]

/-- The addresses of the strided kernel. -/
theorem fillStridedKernel_elements {dtype : BitsType} {RANK VEC blocks dst total : Nat}
    {ds : List (Dim Nat)} (hblocks : 0 < blocks) (htotal : total = count (ds.take RANK)) {x : Nat} :
    (∃ s ∈ fillStridedKernel dtype RANK VEC blocks dst ds total, x ∈ s.elements dtype) ↔
      ∃ o ∈ offsets (ds.take RANK), ∃ j, j < VEC ∧ x = dst + (o * VEC + j) * dtype.sizeOf := by
  have hgrid : 0 < blocks * FILL_THREADS := Nat.mul_pos hblocks (Nat.succ_pos 255)
  have hreverse := offsets_perm (List.reverse_perm (ds.take RANK))
  have hlen : total = count (ds.take RANK).reverse := by
    rw [htotal, ← length_offsets, ← length_offsets, hreverse.length_eq]
  have hmem : ∀ o, (∃ i, i < total ∧ unravel (ds.take RANK).reverse i = o) ↔
      o ∈ offsets (ds.take RANK) := by
    intro o
    rw [← hreverse.mem_iff, ← (unravel_perm _).mem_iff, hlen]
    simp only [List.mem_map, List.mem_range]
  unfold fillStridedKernel
  simp only [List.mem_map, mem_gridItems hgrid, mem_elements, ← hmem]
  constructor
  · rintro ⟨s, ⟨i, hi, rfl⟩, j, hj, rfl⟩
    exact ⟨_, ⟨i, hi, rfl⟩, j, hj, element_addr ..⟩
  · rintro ⟨_, ⟨i, hi, rfl⟩, j, hj, rfl⟩
    exact ⟨_, ⟨i, hi, rfl⟩, j, hj, (element_addr ..).symm⟩

theorem fillStridedKernel_aligned {dtype : BitsType} {RANK VEC blocks dst total : Nat}
    {ds : List (Dim Nat)} (hdst : dst % (VEC * dtype.sizeOf) = 0) (hvec : VEC * dtype.sizeOf ≤ 16) :
    ∀ s ∈ fillStridedKernel dtype RANK VEC blocks dst ds total,
      s.addr % ALIGN dtype s.width = 0 := by
  intro s hs
  obtain ⟨i, -, rfl⟩ := List.mem_map.mp hs
  unfold ALIGN
  rw [Nat.min_eq_right hvec, Nat.mul_assoc, Nat.add_mul_mod_self_right, hdst]

/-- The addresses of the contiguous kernel. -/
theorem fillVecKernel_elements {dtype : BitsType} {VEC blocks dst size : Nat} (hVEC : 0 < VEC)
    (hwide : VEC ≤ FILL_THREADS) (hblocks : 0 < blocks) {x : Nat} :
    (∃ s ∈ fillVecKernel dtype VEC blocks dst (size / VEC) size, x ∈ s.elements dtype) ↔
      ∃ k, k < size ∧ x = dst + k * dtype.sizeOf := by
  have hthreads : FILL_THREADS ≤ blocks * FILL_THREADS := Nat.le_mul_of_pos_left _ hblocks
  have hstrided : ∀ {tid j}, j ∈ strided (size / VEC) (blocks * FILL_THREADS) (size / VEC) tid ↔
      tid ≤ j ∧ j < size / VEC ∧ j % (blocks * FILL_THREADS) = tid % (blocks * FILL_THREADS) :=
    mem_strided (by omega) (Nat.le_add_left _ _)
  have hsplit := Nat.div_add_mod' size VEC
  have hrest := Nat.mod_lt size hVEC
  unfold fillVecKernel
  simp only [List.mem_flatMap, List.mem_range, List.mem_append, List.mem_map, hstrided]
  constructor
  · rintro ⟨s, ⟨tid, htid, ⟨j, ⟨-, hj, -⟩, rfl⟩ | hs⟩, hx⟩
    · obtain ⟨i, (hi : i < VEC), rfl⟩ := mem_elements.mp hx
      have := row_major_lt hj hi
      exact ⟨j * VEC + i, by omega, element_addr ..⟩
    · split at hs
      · rename_i htail
        obtain rfl := List.mem_singleton.mp hs
        obtain ⟨i, hi, rfl⟩ := mem_elements.mp hx
        obtain rfl : i = 0 := Nat.lt_one_iff.mp hi
        exact ⟨_, htail, by rw [Nat.zero_mul, Nat.add_zero]⟩
      · exact absurd hs List.not_mem_nil
  · rintro ⟨k, hk, rfl⟩
    by_cases hbody : k < size / VEC * VEC
    · have hj : k / VEC < size / VEC := Nat.div_lt_of_lt_mul (by rwa [Nat.mul_comm])
      refine ⟨_, ⟨k / VEC % (blocks * FILL_THREADS), Nat.mod_lt _ (by omega),
        .inl ⟨k / VEC, ⟨Nat.mod_le _ _, hj, (Nat.mod_mod _ _).symm⟩, rfl⟩⟩,
        mem_elements.mpr ⟨k % VEC, Nat.mod_lt _ hVEC, ?_⟩⟩
      rw [element_addr, Nat.div_add_mod']
    · have hk' : size / VEC * VEC + (k - size / VEC * VEC) = k := by omega
      refine ⟨⟨dst + k * dtype.sizeOf, 1⟩, ⟨k - size / VEC * VEC, by omega, .inr ?_⟩,
        mem_elements.mpr ⟨0, Nat.one_pos, by rw [Nat.zero_mul, Nat.add_zero]⟩⟩
      rw [hk', if_pos hk]
      exact List.mem_singleton_self _

theorem fillVecKernel_aligned {dtype : BitsType} {VEC blocks dst nvec size : Nat}
    (hdst : dst % (VEC * dtype.sizeOf) = 0) (hvec : VEC * dtype.sizeOf ≤ 16)
    (hsize : dst % dtype.sizeOf = 0) :
    ∀ s ∈ fillVecKernel dtype VEC blocks dst nvec size, s.addr % ALIGN dtype s.width = 0 := by
  intro s hs
  obtain ⟨tid, -, hs⟩ := List.mem_flatMap.mp hs
  obtain hs | hs := List.mem_append.mp hs
  · obtain ⟨j, -, rfl⟩ := List.mem_map.mp hs
    unfold ALIGN
    rw [Nat.min_eq_right hvec, Nat.mul_assoc, Nat.add_mul_mod_self_right, hdst]
  · split at hs
    · obtain rfl := List.mem_singleton.mp hs
      rw [ALIGN_one, Nat.add_mul_mod_self_right, hsize]
    · exact absurd hs List.not_mem_nil

/-! ## Launches -/

/-- The stores are aligned and to the addresses of the offsets `P`. -/
structure FillsExactly (dtype : BitsType) (dst : Nat) (P : Nat → Prop)
    (stores : List VecStore) : Prop where
  aligned : ∀ s ∈ stores, s.addr % ALIGN dtype s.width = 0
  elements : ∀ x, (∃ s ∈ stores, x ∈ s.elements dtype) ↔ ∃ o, P o ∧ x = dst + o * dtype.sizeOf

variable {dtype : BitsType} {dst : Nat}

theorem FillsExactly.congr {P Q : Nat → Prop} {stores : List VecStore}
    (h : FillsExactly dtype dst P stores) (hPQ : ∀ o, P o ↔ Q o) :
    FillsExactly dtype dst Q stores :=
  ⟨h.aligned, fun x => (h.elements x).trans (by simp only [hPQ])⟩

theorem fillContig_exactly (hdst : dst % dtype.sizeOf = 0) (size : Nat) :
    FillsExactly dtype dst (· < size) (fillContig dtype dst size) := by
  unfold fillContig
  by_cases hsize : size = 0
  · rw [if_pos hsize]
    refine ⟨fun s hs => absurd hs List.not_mem_nil, fun x => ?_⟩
    refine iff_of_false ?_ ?_
    · rintro ⟨s, hs, -⟩
      exact absurd hs List.not_mem_nil
    · rintro ⟨o, ho, -⟩
      omega
  · rw [if_neg hsize]
    dsimp only
    rw [ALIGN_WIDEST]
    have hsizeOf : dtype.sizeOf ≤ 16 := by cases dtype <;> decide
    split
    · refine ⟨fillVecKernel_aligned (by rwa [Nat.one_mul]) (by rwa [Nat.one_mul]) hdst, fun x => ?_⟩
      exact fillVecKernel_elements Nat.one_pos (by decide) (fillBlocks_pos _)
    · rename_i halign
      have halign : dst % 16 = 0 := not_not.mp halign
      refine ⟨fillVecKernel_aligned (by rwa [WIDEST_mul]) (by rw [WIDEST_mul]) hdst, fun x => ?_⟩
      exact fillVecKernel_elements (WIDEST_le dtype).1 (WIDEST_le dtype).2 (fillBlocks_pos _)

/-- The scalar strided fill. -/
theorem fillStrided_exactly (hdst : dst % dtype.sizeOf = 0) {RANK total : Nat}
    {ds : List (Dim Nat)} (htotal : total = count (ds.take RANK)) :
    FillsExactly dtype dst (· ∈ offsets (ds.take RANK))
      (fillStrided dtype RANK 1 dst ds total) := by
  have hsizeOf : dtype.sizeOf ≤ 16 := by cases dtype <;> decide
  refine ⟨fillStridedKernel_aligned (by rwa [Nat.one_mul]) (by rwa [Nat.one_mul]), fun x => ?_⟩
  refine (fillStridedKernel_elements (fillBlocks_pos _) htotal).trans ?_
  constructor
  · rintro ⟨o, ho, j, hj, rfl⟩
    obtain rfl : j = 0 := Nat.lt_one_iff.mp hj
    exact ⟨o, ho, by rw [Nat.mul_one, Nat.add_zero]⟩
  · rintro ⟨o, ho, rfl⟩
    exact ⟨o, ho, 0, Nat.one_pos, by rw [Nat.mul_one, Nat.add_zero]⟩

/-- Two dimensions in units of vectors. -/
theorem mem_offsets_vectorized {VEC n s k : Nat} (hVEC : 0 < VEC) (hs : s % VEC = 0)
    (hk : k % VEC = 0) {o : Nat} : o ∈ offsets [(⟨n, s⟩ : Dim Nat), ⟨k, 1⟩] ↔
      ∃ v ∈ offsets [(⟨n, s / VEC⟩ : Dim Nat), ⟨k / VEC, 1⟩], ∃ j, j < VEC ∧ o = v * VEC + j := by
  obtain ⟨s, rfl⟩ := Nat.dvd_of_mod_eq_zero hs
  obtain ⟨k, rfl⟩ := Nat.dvd_of_mod_eq_zero hk
  have htwo : ∀ {n s k : Nat} {o : Nat}, o ∈ offsets [(⟨n, s⟩ : Dim Nat), ⟨k, 1⟩] ↔
      ∃ i, i < n ∧ ∃ c, c < k ∧ o = i * s + c := by
    intro n s k o
    simp only [mem_offsets_cons, mem_offsets_nil, exists_eq_left, smul_eq_mul, Nat.mul_one,
      Nat.add_zero]
    constructor
    · rintro ⟨i, hi, _, ⟨c, hc, rfl⟩, rfl⟩
      exact ⟨i, hi, c, hc, rfl⟩
    · rintro ⟨i, hi, c, hc, rfl⟩
      exact ⟨i, hi, c, ⟨c, hc, rfl⟩, rfl⟩
  rw [Nat.mul_div_cancel_left _ hVEC, Nat.mul_div_cancel_left _ hVEC]
  simp only [htwo]
  constructor
  · rintro ⟨i, hi, c, hc, rfl⟩
    refine ⟨_, ⟨i, hi, c / VEC, Nat.div_lt_of_lt_mul hc, rfl⟩, c % VEC, Nat.mod_lt _ hVEC, ?_⟩
    have hsplit := Nat.div_add_mod' c VEC
    rw [Nat.add_mul, Nat.mul_assoc i, Nat.mul_comm s, Nat.add_assoc, hsplit]
  · rintro ⟨_, ⟨i, hi, c, hc, rfl⟩, j, hj, rfl⟩
    refine ⟨i, hi, c * VEC + j, ?_, ?_⟩
    · rw [Nat.mul_comm VEC]
      exact row_major_lt hc hj
    · rw [Nat.add_mul, Nat.mul_assoc i, Nat.mul_comm s, Nat.add_assoc]

/-- The vectorized strided fill of two slots. -/
theorem fillStridedWide_exactly (hdst : dst % dtype.sizeOf = 0) {merged : List (Dim Nat)}
    (hrank : merged.length ≤ 2) (hsome : merged ≠ [])
    (hnot : ¬ (merged.length = 1 ∧ (merged.head?.map Dim.stride) = some 1)) :
    FillsExactly dtype dst (· ∈ offsets merged)
      (fillStridedWide dtype 2 dst (padded merged) merged.length (count merged)) := by
  have htake := take_padded hrank (by decide)
  unfold fillStridedWide
  split
  · rename_i hwide
    obtain ⟨-, hwide⟩ := hwide
    unfold canWide at hwide
    simp only [Bool.and_eq_true, decide_eq_true_eq, ALIGN_WIDEST] at hwide
    obtain ⟨⟨halign, hlast⟩, hstrides⟩ := hwide
    match merged, hrank with
    | [d], _ =>
        -- a run of stride one is contiguous
        exact absurd ⟨rfl, congrArg some (of_decide_eq_true (Bool.and_eq_true_iff.mp hlast).1)⟩ hnot
    | [⟨n, s⟩, ⟨k, one⟩], _ =>
        obtain ⟨hone, hk⟩ := Bool.and_eq_true_iff.mp hlast
        obtain rfl : one = 1 := of_decide_eq_true hone
        have hk : k % WIDEST dtype = 0 := of_decide_eq_true hk
        have hs : s % WIDEST dtype = 0 :=
          of_decide_eq_true (List.all_eq_true.mp hstrides _ List.mem_cons_self)
        refine ⟨fillStridedKernel_aligned (by rwa [WIDEST_mul]) (by rw [WIDEST_mul]), fun x => ?_⟩
        have htotal : count [(⟨n, s⟩ : Dim Nat), ⟨k, 1⟩] / WIDEST dtype =
            count [(⟨n, s / WIDEST dtype⟩ : Dim Nat), ⟨k / WIDEST dtype, 1⟩] := by
          simp only [count_cons, count_nil, Nat.mul_one]
          exact Nat.mul_div_assoc n (Nat.dvd_of_mod_eq_zero hk)
        refine (fillStridedKernel_elements (fillBlocks_pos _) htotal).trans ?_
        have hvec : ((vectorized (WIDEST dtype) 2
            (padded [(⟨n, s⟩ : Dim Nat), ⟨k, 1⟩])).take 2) =
            [⟨n, s / WIDEST dtype⟩, ⟨k / WIDEST dtype, 1⟩] := rfl
        simp only [mem_offsets_vectorized (WIDEST_le dtype).1 hs hk]
        constructor
        · rintro ⟨v, hv, j, hj, rfl⟩
          exact ⟨_, ⟨v, hv, j, hj, rfl⟩, rfl⟩
        · rintro ⟨_, ⟨v, hv, j, hj, rfl⟩, rfl⟩
          exact ⟨v, hv, j, hj, rfl⟩
  · refine (fillStrided_exactly hdst ?_).congr fun o => ?_
    · rw [htake, count_append_ones]
    · rw [htake, offsets_append_ones]

/-- A fill stores to the offsets of its layout. -/
theorem fillLayout_exactly (hdst : dst % dtype.sizeOf = 0) {ds : List (Dim Nat)}
    (hlen : ds.length = MAX_RANK) :
    FillsExactly dtype dst (· ∈ offsets ds) (fillLayout dtype dst ds) := by
  unfold fillLayout
  dsimp only
  by_cases hcount : count ds = 0
  · rw [if_pos hcount]
    refine ⟨fun s hs => absurd hs List.not_mem_nil, fun x => iff_of_false ?_ ?_⟩
    · rintro ⟨s, hs, -⟩
      exact absurd hs List.not_mem_nil
    · rintro ⟨o, ho, -⟩
      rw [List.eq_nil_of_length_eq_zero ((length_offsets ds).trans hcount)] at ho
      exact absurd ho List.not_mem_nil
  · obtain ⟨merged, hcollapse, hsome, hmax, hsame⟩ := collapseFillLayout_spec hlen hcount
    rw [if_neg hcount, hcollapse]
    dsimp only
    have htake : (padded merged).take merged.length = merged := by
      rw [take_padded (Nat.le_refl _) hmax, Nat.sub_self, List.replicate_zero, List.append_nil]
    have hhead : (padded merged).head? = merged.head? := by
      obtain ⟨d, rest, rfl⟩ := List.exists_cons_of_ne_nil hsome
      rfl
    rw [htake, hhead]
    refine FillsExactly.congr ?_ hsame
    split
    · rename_i hcontig
      obtain ⟨hone, hstride⟩ := hcontig
      obtain ⟨d, rfl⟩ := List.length_eq_one_iff.mp hone
      refine (fillContig_exactly hdst _).congr fun o => ?_
      have hstride : d.stride = 1 := Option.some.inj hstride
      simp only [mem_offsets_cons, mem_offsets_nil, hstride, exists_eq_left, count_cons,
        count_nil, Nat.mul_one, smul_eq_mul, Nat.add_zero, exists_eq_right]
    · rename_i hnot
      split
      · exact fillStridedWide_exactly hdst ‹_› hsome hnot
      · have hall := take_padded hmax (Nat.le_refl MAX_RANK)
        refine (fillStrided_exactly hdst ?_).congr fun o => ?_
        · rw [hall, count_append_ones]
        · rw [hall, offsets_append_ones]

/-- An offset of the elements of a shape with strides. -/
def IsOffset (shape strides : Fin MAX_RANK → Nat) (o : Nat) : Prop :=
  ∃ index : Fin MAX_RANK → Nat, (∀ i, index i < shape i) ∧ o = ∑ i, index i * strides i

theorem mem_offsets_layout {shape strides : Fin MAX_RANK → Nat} {o : Nat} :
    o ∈ offsets (layout shape strides) ↔ IsOffset shape strides o :=
  mem_offsets_ofFn _

/-- A fill stores the value to the addresses of the layout and nowhere else, in aligned
vectors, and the collapsed layout has the offsets of the given one. -/
theorem fill_layout_exact {V : Type v} (dtype : BitsType) (dst : Nat)
    (hdst : dst % dtype.sizeOf = 0) (shape strides : Fin MAX_RANK → Nat) :
    (∀ s ∈ fillLayout dtype dst (layout shape strides), s.addr % ALIGN dtype s.width = 0) ∧
    (count (layout shape strides) ≠ 0 → ∀ o,
      o ∈ offsets (collapseFillLayout (layout shape strides)).1 ↔ IsOffset shape strides o) ∧
    ∀ (value : V) (m m' : Nat → V), FillLayout dtype dst value (layout shape strides) m m' →
      (∀ o, IsOffset shape strides o → m' (dst + o * dtype.sizeOf) = value) ∧
      ∀ x, (∀ o, IsOffset shape strides o → x ≠ dst + o * dtype.sizeOf) → m' x = m x := by
  have hlen : (layout shape strides).length = MAX_RANK := List.length_ofFn
  have hfills := fillLayout_exactly hdst hlen
  refine ⟨hfills.aligned, fun hcount o => ?_, fun value m m' h => ?_⟩
  · obtain ⟨merged, hcollapse, -, -, hsame⟩ := collapseFillLayout_spec hlen hcount
    rw [hcollapse, padded, offsets_append_ones, hsame, mem_offsets_layout]
  · have hstored : ∀ x v, (x, v) ∈ (((fillLayout dtype dst (layout shape strides)).flatMap
        (VecStore.elements dtype)).map (·, value)) ↔
        (∃ o, IsOffset shape strides o ∧ x = dst + o * dtype.sizeOf) ∧ v = value := by
      intro x v
      simp only [← mem_offsets_layout, ← hfills.elements x, List.mem_map, List.mem_flatMap,
        Prod.mk.injEq]
      constructor
      · rintro ⟨_, hx, rfl, rfl⟩
        exact ⟨hx, rfl⟩
      · rintro ⟨hx, rfl⟩
        exact ⟨x, hx, rfl, rfl⟩
    constructor
    · intro o ho
      exact h.at ((hstored _ _).mpr ⟨⟨o, ho, rfl⟩, rfl⟩) fun v hv => ((hstored _ _).mp hv).2
    · intro x hx
      refine h.off fun v hv => ?_
      obtain ⟨⟨o, ho, heq⟩, -⟩ := (hstored _ _).mp hv
      exact hx o ho heq

/-- Four elements in a row, four times two further. -/
def overlapShape : Fin MAX_RANK → Nat := fun i => if i.val < 2 then 4 else 1
def overlapStrides : Fin MAX_RANK → Nat := fun i => if i.val = 0 then 1 else 2

theorem fill_layout_exact_overlap :
    (∀ s ∈ fillLayout .uint32 8 (layout overlapShape overlapStrides),
      s.addr % ALIGN .uint32 s.width = 0) ∧
    ∀ o, o ∈ offsets (collapseFillLayout (layout overlapShape overlapStrides)).1 ↔
      IsOffset overlapShape overlapStrides o :=
  have hexact := fill_layout_exact (V := Nat) .uint32 8 rfl overlapShape overlapStrides
  ⟨hexact.1, hexact.2.1 (by decide)⟩

end TorchMojoBackend.Kernels.Fill
