/-
  `Ops.Linalg.Views`: batches of matrices.

  Source: tmb/ops/linalg.mojo (`_bstride`, `_new_f`, `_clone_f`, `_mT`, `_flat`, `_eye_into`).

  A tensor is a batch of matrices with a stride for every batch dimension, for rows and for
  columns; addresses count elements from its pointer on.  A kernel walks the batch by one stride.
-/
import TorchMojoBackend.Foundation.RowMajor
import TorchMojoBackend.Foundation.Launch
import TorchMojoBackend.Ops.ResizeOut

set_option autoImplicit false

namespace TorchMojoBackend.Ops.Linalg

open TorchMojoBackend.Foundation
open TorchMojoBackend.Ops.ResizeOut (contiguousStrides contiguousStrides_cons contiguousStrides_nil)

/-- A batch of matrices; no stride is negative. -/
structure T (K : Type) where
  batch : List (Dim Int)
  rows : Nat
  cols : Nat
  rs : Int
  cs : Int
  storage : Int → K
  nonneg : ∀ d ∈ batch, 0 ≤ d.stride

namespace T

variable {K : Type} (t : T K)

/-- `_batch_dims` -/
def _batch_dims : List Nat := t.batch.map Dim.extent

/-- `_batch_count` -/
def _batch_count : Nat := t._batch_dims.prod

def numel : Nat := t._batch_count * (t.rows * t.cols)

/-- The address of an element. -/
def addr (x : List Nat) (i k : Nat) : Int := along (t.batch.map Dim.stride) x + i * t.rs + k * t.cs

/-- An element. -/
def elem (x : List Nat) (i k : Nat) : K := t.storage (t.addr x i k)

/-- The tensor with another storage. -/
def withStorage (storage : Int → K) : T K := { t with storage := storage }

/-- `_mT` -/
def _mT : T K := { t with rows := t.cols, cols := t.rows, rs := t.cs, cs := t.rs }

end T

/-- A batch dimension in the loop of `_bstride`, from the last one on: the stride found so far and
the stride that the next dimension must have. -/
def bstrideStep (d : Dim Int) : Option (Int × Int) → Option (Int × Int)
  | none => none
  | some (s, expect) =>
      if d.extent ≠ 1 then
        if s = -1 then some (d.stride, d.stride * d.extent)
        else if d.stride ≠ expect then none
        else some (s, d.stride * d.extent)
      else some (s, expect)

/-- `_bstride` -/
def _bstride {K : Type} (t : T K) : Int :=
  match t.batch.foldr bstrideStep (some (-1, 0)) with
  | none => -1
  | some (s, _) => if s = -1 then 0 else s

/-- The batch dimensions of a new tensor, with the strides `_fstrides`. -/
def newDims (dims : List Nat) (rows cols : Nat) : List (Dim Int) :=
  (dims.zip (contiguousStrides (dims ++ [rows, cols]))).map fun d => ⟨d.1, d.2⟩

theorem newDims_cons (d : Nat) (dims : List Nat) (rows cols : Nat) : newDims (d :: dims) rows cols =
    ⟨d, (dims.prod * (rows * cols) : Nat)⟩ :: newDims dims rows cols := by
  unfold newDims
  rw [List.cons_append, contiguousStrides_cons, List.zip_cons_cons, List.map_cons, List.prod_append,
    List.prod_cons, List.prod_singleton]

theorem newDims_nonneg (dims : List Nat) (rows cols : Nat) : ∀ d ∈ newDims dims rows cols, 0 ≤ d.stride := by
  induction dims with
  | nil => exact fun d hd => absurd hd List.not_mem_nil
  | cons n dims ih =>
      intro d hd
      rw [newDims_cons] at hd
      obtain rfl | hd := List.mem_cons.mp hd
      · exact Int.natCast_nonneg _
      · exact ih d hd

section

variable {K : Type}

/-- `_new_f` -/
def _new_f (dims : List Nat) (rows cols : Nat) (storage : Int → K) : T K where
  batch := newDims dims rows cols
  rows := rows
  cols := cols
  rs := 1
  cs := (max rows 1 : Nat)
  storage := storage
  nonneg := newDims_nonneg dims rows cols

/-- The places of a tensor: a batch index, a row and a column. -/
def places (dims : List Nat) (rows cols : Nat) : List (List Nat × Nat × Nat) :=
  (indices dims).flatMap fun x => (List.range rows).flatMap fun i => (List.range cols).map fun k => (x, i, k)

/-- `copy_strided_into` -/
def copy_strided_into (dst src : T K) : T K :=
  dst.withStorage (storeAll ((places dst._batch_dims dst.rows dst.cols).map fun p =>
    (dst.addr p.1 p.2.1 p.2.2, src.elem p.1 p.2.1 p.2.2)) dst.storage)

/-- `_clone_f`, in memory that held `fresh`. -/
def _clone_f (t : T K) (fresh : Int → K) : T K :=
  copy_strided_into (_new_f t._batch_dims t.rows t.cols fresh) t

/-- `_flat`, in memory that held `fresh`. -/
def _flat (t : T K) (fresh : Int → K) : T K := if 0 ≤ _bstride t then t else _clone_f t fresh

/-- The stores of `fill_value`. -/
def fillWrites (t : T K) (v : K) : List (Int × K) :=
  (places t._batch_dims t.rows t.cols).map fun p => (t.addr p.1 p.2.1 p.2.2, v)

/-- The stores of `fill_value` to `_diagonal`. -/
def diagonalWrites (t : T K) (v : K) : List (Int × K) :=
  (indices t._batch_dims).flatMap fun x => (List.range (min t.rows t.cols)).map fun i : Nat =>
    (along (t.batch.map Dim.stride) x + i * (t.rs + t.cs), v)

/-- `_eye_into` -/
def _eye_into [Zero K] [One K] (t : T K) : T K :=
  t.withStorage (storeAll (diagonalWrites t 1) (storeAll (fillWrites t 0) t.storage))

end

/-! ## Places -/

theorem mem_places {dims : List Nat} {rows cols : Nat} {p : List Nat × Nat × Nat} :
    p ∈ places dims rows cols ↔ p.1 ∈ indices dims ∧ p.2.1 < rows ∧ p.2.2 < cols := by
  obtain ⟨x, i, k⟩ := p
  simp only [places, List.mem_flatMap, List.mem_map, List.mem_range, Prod.mk.injEq]
  constructor
  · rintro ⟨y, hy, i', hi, k', hk, rfl, rfl, rfl⟩
    exact ⟨hy, hi, hk⟩
  · rintro ⟨hx, hi, hk⟩
    exact ⟨x, hx, i, hi, k, hk, rfl, rfl, rfl⟩

/-! ## The batch stride -/

/-- The dimensions that the loop has passed. -/
structure Flattens (ds : List (Dim Int)) (s expect : Int) : Prop where
  unset : s = -1 → ∀ d ∈ ds, d.extent = 1
  set : s ≠ -1 → 0 ≤ s ∧ expect = s * (ds.map Dim.extent).prod ∧
    ∀ x ∈ indices (ds.map Dim.extent), along (ds.map Dim.stride) x = flatIndex (ds.map Dim.extent) x * s

theorem prod_ones {ds : List (Dim Int)} (h : ∀ d ∈ ds, d.extent = 1) : (ds.map Dim.extent).prod = 1 :=
  List.prod_eq_one fun n hn => by
    obtain ⟨d, hd, rfl⟩ := List.mem_map.mp hn
    exact h d hd

theorem index_ones {ds : List (Dim Int)} (h : ∀ d ∈ ds, d.extent = 1) {x : List Nat}
    (hx : x ∈ indices (ds.map Dim.extent)) :
    along (ds.map Dim.stride) x = 0 ∧ flatIndex (ds.map Dim.extent) x = 0 := by
  induction ds generalizing x with
  | nil =>
      obtain rfl := List.mem_singleton.mp hx
      exact ⟨rfl, rfl⟩
  | cons d ds ih =>
      have hd : d.extent = 1 := h d List.mem_cons_self
      rw [List.map_cons, mem_indices] at hx
      cases hx with
      | @cons i _ x _ hi hx =>
          obtain ⟨halong, hflat⟩ := ih (fun d' hd' => h d' (List.mem_cons_of_mem _ hd'))
            (mem_indices.mpr hx)
          obtain rfl : i = 0 := by omega
          refine ⟨?_, ?_⟩
          · rw [List.map_cons, along, halong, Nat.cast_zero, Int.zero_mul, Int.zero_add]
          · rw [List.map_cons, flatIndex, hflat, Nat.zero_mul]

theorem flattens {ds : List (Dim Int)} (hnonneg : ∀ d ∈ ds, 0 ≤ d.stride) {s expect : Int}
    (h : ds.foldr bstrideStep (some (-1, 0)) = some (s, expect)) : Flattens ds s expect := by
  induction ds generalizing s expect with
  | nil =>
      obtain ⟨rfl, rfl⟩ := Prod.mk.inj (Option.some.inj h)
      exact ⟨fun _ d hd => absurd hd List.not_mem_nil, fun hs => absurd rfl hs⟩
  | cons d ds ih =>
      rw [List.foldr_cons] at h
      cases hrest : ds.foldr bstrideStep (some (-1, 0)) with
      | none =>
          rw [hrest] at h
          cases h
      | some p =>
          obtain ⟨s', e'⟩ := p
          have hprev := ih (fun d' hd' => hnonneg d' (List.mem_cons_of_mem _ hd')) hrest
          have hd := hnonneg d List.mem_cons_self
          rw [hrest, bstrideStep] at h
          by_cases hone : d.extent = 1
          · rw [if_neg (not_not.mpr hone)] at h
            obtain ⟨rfl, rfl⟩ := Prod.mk.inj (Option.some.inj h)
            refine ⟨fun hs d' hd' => ?_, fun hs => ?_⟩
            · obtain rfl | hd' := List.mem_cons.mp hd'
              · exact hone
              · exact hprev.unset hs d' hd'
            · obtain ⟨hs0, hexpect, halong⟩ := hprev.set hs
              refine ⟨hs0, ?_, fun x hx => ?_⟩
              · rw [List.map_cons, List.prod_cons, hone, Nat.one_mul]
                exact hexpect
              · rw [List.map_cons, mem_indices] at hx
                cases hx with
                | @cons i _ x _ hi hx =>
                    obtain rfl : i = 0 := by omega
                    rw [List.map_cons, List.map_cons, along, flatIndex, Nat.cast_zero, Int.zero_mul,
                      Int.zero_add, Nat.zero_mul, Nat.zero_add]
                    exact halong x (mem_indices.mpr hx)
          · rw [if_pos hone] at h
            by_cases hs : s' = -1
            · rw [if_pos hs] at h
              obtain ⟨rfl, rfl⟩ := Prod.mk.inj (Option.some.inj h)
              have hones := hprev.unset hs
              refine ⟨fun hneg => by omega, fun _ => ⟨hd, ?_, fun x hx => ?_⟩⟩
              · rw [List.map_cons, List.prod_cons, prod_ones hones, Nat.mul_one]
              · rw [List.map_cons, mem_indices] at hx
                cases hx with
                | @cons i _ x _ hi hx =>
                    obtain ⟨halong, hflat⟩ := index_ones hones (mem_indices.mpr hx)
                    rw [List.map_cons, List.map_cons, along, flatIndex, halong, hflat, prod_ones hones,
                      Nat.mul_one, Nat.add_zero, Int.add_zero]
            · rw [if_neg hs] at h
              by_cases hstride : d.stride = e'
              · rw [if_neg (not_not.mpr hstride)] at h
                obtain ⟨rfl, rfl⟩ := Prod.mk.inj (Option.some.inj h)
                obtain ⟨hs0, hexpect, halong⟩ := hprev.set hs
                refine ⟨fun hneg => absurd hneg hs, fun _ => ⟨hs0, ?_, fun x hx => ?_⟩⟩
                · rw [hstride, hexpect, List.map_cons, List.prod_cons, Nat.mul_comm, Nat.cast_mul,
                    Int.mul_assoc]
                · rw [List.map_cons, mem_indices] at hx
                  cases hx with
                  | @cons i _ x _ hi hx =>
                      rw [List.map_cons, List.map_cons, along, flatIndex,
                        halong x (mem_indices.mpr hx), hstride, hexpect]
                      push_cast
                      ring
              · rw [if_pos hstride] at h
                cases h

/-- Where `_bstride` finds a stride, the matrices of the batch are that stride apart. -/
theorem along_bstride {K : Type} {t : T K} (h : 0 ≤ _bstride t) {x : List Nat}
    (hx : x ∈ indices t._batch_dims) :
    along (t.batch.map Dim.stride) x = flatIndex t._batch_dims x * _bstride t := by
  unfold _bstride at h ⊢
  cases hfold : t.batch.foldr bstrideStep (some (-1, 0)) with
  | none =>
      rw [hfold] at h
      exact absurd h (by decide)
  | some p =>
      obtain ⟨s, e⟩ := p
      have hflat := flattens t.nonneg hfold
      by_cases hs : s = -1
      · obtain ⟨halong, hzero⟩ := index_ones (hflat.unset hs) hx
        dsimp only
        rw [if_pos hs, Int.mul_zero, halong]
      · dsimp only
        rw [if_neg hs]
        exact (hflat.set hs).2.2 x hx

/-! ## New tensors -/

theorem newDims_extent (dims : List Nat) (rows cols : Nat) :
    (newDims dims rows cols).map Dim.extent = dims := by
  induction dims with
  | nil => rfl
  | cons d dims ih => rw [newDims_cons, List.map_cons, ih]

theorem newDims_along {dims : List Nat} (rows cols : Nat) {x : List Nat} (hx : x ∈ indices dims) :
    along ((newDims dims rows cols).map Dim.stride) x = (flatIndex dims x * (rows * cols) : Nat) := by
  have hall := mem_indices.mp hx
  clear hx
  induction hall with
  | nil =>
      rw [flatIndex.eq_def [] [], Nat.zero_mul]
      rfl
  | @cons i d x dims _ _ ih =>
      rw [newDims_cons, List.map_cons, along, flatIndex, ih]
      push_cast
      ring

theorem newDims_flattens (dims : List Nat) (rows cols : Nat) :
    ∃ s e, (newDims dims rows cols).foldr bstrideStep (some (-1, 0)) = some (s, e) ∧
      (s = -1 ∧ dims.prod = 1 ∨ s = (rows * cols : Nat) ∧ e = (dims.prod * (rows * cols) : Nat)) := by
  induction dims with
  | nil => exact ⟨-1, 0, rfl, .inl ⟨rfl, rfl⟩⟩
  | cons d dims ih =>
      obtain ⟨s, e, hfold, hse⟩ := ih
      rw [newDims_cons, List.foldr_cons, hfold, bstrideStep, List.prod_cons]
      dsimp only
      by_cases hone : d = 1
      · rw [if_neg (not_not.mpr hone), hone, Nat.one_mul]
        exact ⟨s, e, rfl, hse⟩
      · rw [if_pos hone]
        obtain ⟨rfl, hprod⟩ | ⟨rfl, rfl⟩ := hse
        · rw [if_pos rfl, hprod, Nat.one_mul, Nat.mul_one]
          exact ⟨_, _, rfl, .inr ⟨rfl, by push_cast; ring⟩⟩
        · have hset : ((rows * cols : Nat) : Int) ≠ -1 := by omega
          rw [if_neg hset, if_neg (not_not.mpr rfl)]
          exact ⟨_, _, rfl, .inr ⟨rfl, by push_cast; ring⟩⟩

section

variable {K : Type} (dims : List Nat) (rows cols : Nat) (storage : Int → K)

@[simp] theorem new_f_batch_dims : (_new_f dims rows cols storage)._batch_dims = dims :=
  newDims_extent dims rows cols

theorem new_f_bstride : 0 ≤ _bstride (_new_f dims rows cols storage) := by
  obtain ⟨s, e, hfold, hse⟩ := newDims_flattens dims rows cols
  have hbstride : _bstride (_new_f dims rows cols storage) = if s = -1 then 0 else s := by
    unfold _bstride
    change (match (newDims dims rows cols).foldr bstrideStep (some (-1, 0)) with
      | none => -1 | some (s, _) => if s = -1 then 0 else s) = _
    rw [hfold]
  rw [hbstride]
  obtain ⟨rfl, -⟩ | ⟨rfl, -⟩ := hse
  · exact Int.le_refl 0
  · rw [if_neg (by omega)]
    exact Int.natCast_nonneg _

end

/-! ## Elements -/

section

variable {K : Type}

/-- The elements of a tensor have addresses of their own. -/
def T.Injective (t : T K) : Prop :=
  ∀ x ∈ indices t._batch_dims, ∀ y ∈ indices t._batch_dims, ∀ i k i' k', i < t.rows → k < t.cols →
    i' < t.rows → k' < t.cols → t.addr x i k = t.addr y i' k' → x = y ∧ i = i' ∧ k = k'

theorem mT_addr (t : T K) (x : List Nat) (i k : Nat) : t._mT.addr x i k = t.addr x k i :=
  Int.add_right_comm _ _ _

theorem mT_elem (t : T K) (x : List Nat) (i k : Nat) : t._mT.elem x i k = t.elem x k i :=
  congrArg t.storage (mT_addr t x i k)

theorem withStorage_mT (t : T K) (storage : Int → K) :
    t._mT.withStorage storage = (t.withStorage storage)._mT := rfl

theorem T.Injective.mT {t : T K} (h : t.Injective) : t._mT.Injective := by
  intro x hx y hy i k i' k' hi hk hi' hk' heq
  rw [mT_addr, mT_addr] at heq
  obtain ⟨hxy, hk, hi⟩ := h x hx y hy k i k' i' hk hi hk' hi' heq
  exact ⟨hxy, hi, hk⟩

theorem new_f_addr {dims : List Nat} {rows cols : Nat} {storage : Int → K} {x : List Nat}
    (hx : x ∈ indices dims) {i k : Nat} (hi : i < rows) :
    (_new_f dims rows cols storage).addr x i k = (flatIndex dims x * (cols * rows) + (k * rows + i) : Nat) := by
  have hrows : max rows 1 = rows := by omega
  unfold T.addr _new_f
  dsimp only
  rw [newDims_along rows cols hx, hrows]
  push_cast
  ring

theorem new_f_injective (dims : List Nat) (rows cols : Nat) (storage : Int → K) :
    (_new_f dims rows cols storage).Injective := by
  intro x hx y hy i k i' k' hi hk hi' hk' heq
  rw [new_f_batch_dims] at hx hy
  change i < rows at hi
  change i' < rows at hi'
  rw [new_f_addr hx hi, new_f_addr hy hi'] at heq
  have hplace := row_major_lt (show k < cols from hk) hi
  have hplace' := row_major_lt (show k' < cols from hk') hi'
  obtain ⟨hflat, hin⟩ := flat_inj hplace hplace' (Int.ofNat.inj heq)
  obtain ⟨hcol, hrow⟩ := flat_inj hi hi' hin
  exact ⟨flatIndex_inj hx hy hflat, hrow, hcol⟩

theorem copy_elem {dst src : T K} (hinj : dst.Injective) {x : List Nat} (hx : x ∈ indices dst._batch_dims)
    {i k : Nat} (hi : i < dst.rows) (hk : k < dst.cols) :
    (copy_strided_into dst src).elem x i k = src.elem x i k := by
  have hstore := (Stores.inOrder ((places dst._batch_dims dst.rows dst.cols).map fun p =>
    (dst.addr p.1 p.2.1 p.2.2, src.elem p.1 p.2.1 p.2.2)) dst.storage).map_at (i := (x, i, k))
      (fun p hp q hq heq => ?_) (mem_places.mpr ⟨hx, hi, hk⟩)
  · exact hstore
  · obtain ⟨hpx, hpi, hpk⟩ := mem_places.mp hp
    obtain ⟨hqx, hqi, hqk⟩ := mem_places.mp hq
    obtain ⟨hxy, hik, hkk⟩ := hinj _ hpx _ hqx _ _ _ _ hpi hpk hqi hqk heq
    exact Prod.ext hxy (Prod.ext hik hkk)

/-- A clone holds the elements of the tensor. -/
theorem clone_elem (t : T K) (fresh : Int → K) {x : List Nat} (hx : x ∈ indices t._batch_dims) {i k : Nat}
    (hi : i < t.rows) (hk : k < t.cols) : (_clone_f t fresh).elem x i k = t.elem x i k :=
  copy_elem (new_f_injective _ _ _ _) (by rwa [new_f_batch_dims]) hi hk

theorem clone_batch_dims (t : T K) (fresh : Int → K) : (_clone_f t fresh)._batch_dims = t._batch_dims :=
  new_f_batch_dims _ _ _ _

theorem clone_injective (t : T K) (fresh : Int → K) : (_clone_f t fresh).Injective :=
  new_f_injective _ _ _ _

theorem clone_bstride (t : T K) (fresh : Int → K) : 0 ≤ _bstride (_clone_f t fresh) :=
  new_f_bstride _ _ _ _

theorem fill_at {t : T K} (hinj : t.Injective) (v : K) {x : List Nat} (hx : x ∈ indices t._batch_dims)
    {i k : Nat} (hi : i < t.rows) (hk : k < t.cols) :
    storeAll (fillWrites t v) t.storage (t.addr x i k) = v :=
  (Stores.inOrder (fillWrites t v) t.storage).map_at (i := (x, i, k))
    (fun p hp q hq heq => by
      obtain ⟨hpx, hpi, hpk⟩ := mem_places.mp hp
      obtain ⟨hqx, hqi, hqk⟩ := mem_places.mp hq
      obtain ⟨hxy, hik, hkk⟩ := hinj _ hpx _ hqx _ _ _ _ hpi hpk hqi hqk heq
      exact Prod.ext hxy (Prod.ext hik hkk)) (mem_places.mpr ⟨hx, hi, hk⟩)

theorem mem_diagonalWrites {t : T K} {v w : K} {a : Int} : (a, w) ∈ diagonalWrites t v ↔
    w = v ∧ ∃ y ∈ indices t._batch_dims, ∃ j, j < t.rows ∧ j < t.cols ∧ a = t.addr y j j := by
  have hdiag : ∀ y (j : Nat), along (t.batch.map Dim.stride) y + j * (t.rs + t.cs) = t.addr y j j :=
    fun y j => by rw [T.addr, Int.mul_add, Int.add_assoc]
  simp only [diagonalWrites, List.mem_flatMap, List.mem_map, List.mem_range, Prod.mk.injEq, hdiag]
  constructor
  · rintro ⟨y, hy, j, hj, rfl, rfl⟩
    exact ⟨rfl, y, hy, j, by omega, by omega, rfl⟩
  · rintro ⟨rfl, y, hy, j, hj, hj', rfl⟩
    exact ⟨y, hy, j, by omega, rfl, rfl⟩

theorem eye_elem [Zero K] [One K] {t : T K} (hinj : t.Injective) {x : List Nat}
    (hx : x ∈ indices t._batch_dims) {i k : Nat} (hi : i < t.rows) (hk : k < t.cols) :
    (_eye_into t).elem x i k = if i = k then 1 else 0 := by
  have hone := Stores.inOrder (diagonalWrites t 1) (storeAll (fillWrites t 0) t.storage)
  change storeAll (diagonalWrites t 1) (storeAll (fillWrites t 0) t.storage) (t.addr x i k) = _
  by_cases hik : i = k
  · subst hik
    rw [if_pos rfl]
    exact hone.at (mem_diagonalWrites.mpr ⟨rfl, x, hx, i, hi, hk, rfl⟩) fun b hb =>
      (mem_diagonalWrites.mp hb).1
  · rw [if_neg hik]
    refine (hone.off fun b hb => ?_).trans (fill_at hinj 0 hx hi hk)
    obtain ⟨-, y, hy, j, hj, hj', heq⟩ := mem_diagonalWrites.mp hb
    obtain ⟨-, rfl, rfl⟩ := hinj x hx y hy i k j j hi hk hj hj' heq
    exact hik rfl

theorem flat_elem {t : T K} (fresh : Int → K) {x : List Nat} (hx : x ∈ indices t._batch_dims) {i k : Nat}
    (hi : i < t.rows) (hk : k < t.cols) : (_flat t fresh).elem x i k = t.elem x i k := by
  unfold _flat
  split
  · rfl
  · exact clone_elem t fresh hx hi hk

theorem flat_batch_dims (t : T K) (fresh : Int → K) : (_flat t fresh)._batch_dims = t._batch_dims := by
  unfold _flat
  split
  · rfl
  · exact clone_batch_dims t fresh

theorem flat_bstride (t : T K) (fresh : Int → K) : 0 ≤ _bstride (_flat t fresh) := by
  unfold _flat
  split
  · assumption
  · exact clone_bstride t fresh

end

end TorchMojoBackend.Ops.Linalg
