/-
  `Kernels.MaskedSelect`: the elements where a mask is true, compacted.

  Source: tmb/kernels/data_movement/masked_select.mojo, tmb/ops/data_movement.mojo
  (`_broadcast_dense`, `_masked_select`) and tmb/ops/common.mojo (`broadcast_shape`).

  A first launch counts the true elements of every tile, the host turns the counts into
  offsets, and a second launch writes the elements of every tile from its offset on.  The
  threads of a block meet at barriers, so that every step of a block is one step of all its
  lanes.
-/
import Mathlib.Data.List.GetD
import TorchMojoBackend.Foundation.Compaction
import TorchMojoBackend.Foundation.Layout

set_option autoImplicit false

namespace TorchMojoBackend.Kernels.MaskedSelect

open TorchMojoBackend.Foundation

universe u

def MS_THREADS : Nat := 256
def MS_ITEMS : Nat := 4
def MS_TILE : Nat := MS_THREADS * MS_ITEMS
def MS_BLOCKS_PER_SM : Nat := 8

/-- `_tiles`. -/
def tilesOf (n : Nat) : Nat := (n + MS_TILE - 1) / MS_TILE

/-- `_blocks`. -/
def blocksOf (tiles sms : Nat) : Nat := max 1 (min tiles (max 1 sms * MS_BLOCKS_PER_SM))

/-! ## Kernels -/

section
variable {α : Type u} (n : Nat) (mask : Nat → UInt8)

def taken (i : Nat) : Bool := decide (i < n) && mask i != 0

/-- `_thread_count`. -/
def threadCount (base : Nat) : Nat :=
  (List.range MS_ITEMS).foldl (fun c j => if taken n mask (base + j) then c + 1 else c) 0

/-- The count of every thread of a tile. -/
def laneCounts (tile tid : Nat) : Nat := threadCount n mask (tile * MS_TILE + tid * MS_ITEMS)

/-- The count of a tile: the lanes are added in a tree. -/
def tileCount (tile : Nat) : Nat := addTree 8 (MS_THREADS / 2) (laneCounts n mask tile) 0

/-- The stores of `_count`. -/
def countStores (tiles blocks : Nat) : List (Nat × Nat) :=
  (gridItems blocks tiles).map fun tile => (tile, tileCount n mask tile)

/-- The inclusive scan of the thread counts of a tile. -/
def scan (tile : Nat) : Nat → Nat :=
  doubling (offsetStep (· + ·) id) MS_THREADS 8 1 (laneCounts n mask tile)

/-- The loop of a thread over its elements; `pos` is the next place. -/
def writeLoop (src : Nat → α) : Nat → List Nat → List (Nat × α)
  | _, [] => []
  | pos, i :: rest =>
    if taken n mask i then (pos, src i) :: writeLoop src (pos + 1) rest
    else writeLoop src pos rest

/-- The stores of a thread of `_compact` for a tile. -/
def threadStores (src : Nat → α) (offsets : Nat → Nat) (tile tid : Nat) : List (Nat × α) :=
  writeLoop n mask src (offsets tile + (scan n mask tile tid - laneCounts n mask tile tid))
    ((List.range MS_ITEMS).map fun j => tile * MS_TILE + tid * MS_ITEMS + j)

/-- The stores of `_compact`. -/
def compactStores (src : Nat → α) (offsets : Nat → Nat) (tiles blocks : Nat) : List (Nat × α) :=
  (gridItems blocks tiles).flatMap fun tile =>
    (List.range MS_THREADS).flatMap fun tid => threadStores n mask src offsets tile tid

end

/-! ## `masked_select` -/

/-- A tensor, its shape and strides padded in front to eight dimensions. -/
structure T (α : Type u) where
  shape : Fin 8 → Nat
  strides : Fin 8 → Int
  offset : Int
  storage : Int → α

/-- `broadcast_shape` in one dimension. -/
def broadcastDim (x y : Nat) : Option Nat :=
  if x = y ∨ y = 1 then some x else if x = 1 then some y else none

/-- `broadcast_shape`. -/
def broadcastShape (a b : Fin 8 → Nat) : Except String (Fin 8 → Nat) :=
  if ∀ i, (broadcastDim (a i) (b i)).isSome then .ok fun i => (broadcastDim (a i) (b i)).getD 1
  else .error "shapes are not broadcastable"

section
variable {α : Type u}

/-- The elements of a view in row-major order, as a dense copy of it holds them. -/
def T.elements (t : T α) (shape : Fin 8 → Nat) (strides : Fin 8 → Int) : List α :=
  (offsets (List.ofFn fun i => (⟨shape i, strides i⟩ : Dim Int))).map fun o =>
    t.storage (t.offset + o)

/-- `_broadcast_dense`. -/
def T.broadcastDense (t : T α) (shape : Fin 8 → Nat) : List α :=
  if t.shape = shape then t.elements t.shape t.strides
  else t.elements shape fun i => if t.shape i ≠ shape i then 0 else t.strides i

/-- A dense tensor in memory; what is behind its end is arbitrary. -/
def Holds (mem : Nat → α) (l : List α) : Prop := ∀ i (h : i < l.length), mem i = l[i]

/-- A run of `_masked_select` on a device of `sms` multiprocessors. -/
structure Run (sms : Nat) (a : T α) (mask : T UInt8) where
  shape : Fin 8 → Nat
  broadcast : broadcastShape a.shape mask.shape = .ok shape
  src : Nat → α
  src_holds : Holds src (a.broadcastDense shape)
  flags : Nat → UInt8
  flags_holds : Holds flags (mask.broadcastDense shape)
  counts : Nat → Nat
  counted : ∃ fresh, Stores (countStores (a.broadcastDense shape).length flags
    (tilesOf (a.broadcastDense shape).length)
    (blocksOf (tilesOf (a.broadcastDense shape).length) sms)) fresh counts

namespace Run

variable {sms : Nat} {a : T α} {mask : T UInt8} (r : Run sms a mask)

def n : Nat := (a.broadcastDense r.shape).length

def tiles : Nat := tilesOf r.n

/-- The loop of the host over the counts. -/
def offsets : Nat → Nat := (runningSum r.counts r.tiles).1

/-- The size of the result. -/
def total : Nat := if r.n = 0 then 0 else (runningSum r.counts r.tiles).2

/-- The stores to the result. -/
def stores : List (Nat × α) :=
  if 0 < r.total then
    compactStores r.n r.flags r.src r.offsets r.tiles (blocksOf r.tiles sms)
  else []

end Run

/-- A run with its result: a fresh tensor that the stores were made to, in some order. -/
structure Result (sms : Nat) (a : T α) (mask : T UInt8) extends Run sms a mask where
  out : Nat → α
  compacted : ∃ fresh, Stores toRun.stores fresh out

/-- The element of a tensor at an index of a shape it is broadcast to. -/
def T.at (t : T α) (x : Fin 8 → Nat) : α :=
  t.storage (t.offset + ∑ i, ((if t.shape i = 1 then 0 else x i : Nat) : Int) * t.strides i)

end

/-! ## Tiles -/

section
variable {α : Type u} {n : Nat} {mask : Nat → UInt8} {src : Nat → α}

/-- The elements of a thread that it keeps. -/
def kept (n : Nat) (mask : Nat → UInt8) (base : Nat) : List Nat :=
  ((List.range MS_ITEMS).map fun j => base + j).filter (taken n mask)

theorem threadCount_eq (base : Nat) : threadCount n mask base = (kept n mask base).length := by
  have hfold : ∀ (l : List Nat) (c : Nat),
      l.foldl (fun c j => if taken n mask (base + j) then c + 1 else c) c =
        c + ((l.map fun j => base + j).filter (taken n mask)).length := by
    intro l
    induction l with
    | nil => exact fun c => rfl
    | cons j l ih =>
        intro c
        rw [List.foldl_cons, ih, List.map_cons, List.filter_cons]
        split
        · rw [List.length_cons]
          omega
        · rfl
  exact (hfold _ 0).trans (Nat.zero_add _)

theorem writeLoop_eq (pos : Nat) (l : List Nat) :
    writeLoop n mask src pos l = place pos ((l.filter (taken n mask)).map src) := by
  induction l generalizing pos with
  | nil => rfl
  | cons i l ih =>
      rw [writeLoop, List.filter_cons]
      split
      · rw [ih, List.map_cons, place_cons]
      · exact ih pos

theorem tileCount_eq (tile : Nat) :
    tileCount n mask tile = segmentStart (laneCounts n mask tile) MS_THREADS :=
  addTree_zero 8 _

/-- A thread starts behind the threads before it. -/
theorem scan_sub {tile tid : Nat} (htid : tid < MS_THREADS) :
    scan n mask tile tid - laneCounts n mask tile tid =
      segmentStart (laneCounts n mask tile) tid := by
  rw [scan, doubling_block Nat.add_assoc _ (by decide) htid, fold1_add, segmentStart_succ,
    Nat.add_sub_cancel]

/-- The elements of a tile that are kept. -/
def keptTile (n : Nat) (mask : Nat → UInt8) (tile : Nat) : List Nat :=
  (List.range MS_THREADS).flatMap fun tid => kept n mask (tile * MS_TILE + tid * MS_ITEMS)

theorem laneCounts_eq (tile : Nat) : laneCounts n mask tile = fun tid =>
    ((kept n mask (tile * MS_TILE + tid * MS_ITEMS)).map src).length := by
  funext tid
  rw [laneCounts, threadCount_eq, List.length_map]

theorem length_keptTile (tile : Nat) : (keptTile n mask tile).length = tileCount n mask tile := by
  rw [keptTile, length_groups, tileCount_eq]
  exact congrArg (segmentStart · _) (funext fun tid => (threadCount_eq _).symm)

/-- A tile places its elements from its offset on. -/
theorem tileStores_eq (offsets : Nat → Nat) (tile : Nat) :
    ((List.range MS_THREADS).flatMap fun tid => threadStores n mask src offsets tile tid) =
      place (offsets tile) ((keptTile n mask tile).map src) := by
  rw [keptTile, List.map_flatMap, ← place_groups]
  refine List.flatMap_congr fun tid htid => ?_
  rw [threadStores, writeLoop_eq, scan_sub (List.mem_range.mp htid), laneCounts_eq]
  rfl

/-- The tiles hold the elements in order. -/
theorem keptTile_flatMap {tiles : Nat} (htiles : n ≤ tiles * MS_TILE) :
    (List.range tiles).flatMap (keptTile n mask) = (List.range n).filter fun i => mask i != 0 := by
  have htile : ∀ tile, keptTile n mask tile =
      ((List.range MS_TILE).map fun j => tile * MS_TILE + j).filter (taken n mask) := by
    intro tile
    rw [MS_TILE, range_mul, List.map_flatMap, List.filter_flatMap, keptTile]
    refine List.flatMap_congr fun tid _ => ?_
    rw [kept, List.map_map]
    refine congrArg _ (List.map_congr_left fun j _ => ?_)
    exact Nat.add_assoc _ _ _
  have hall : (List.range tiles).flatMap (keptTile n mask) =
      (List.range (tiles * MS_TILE)).filter (taken n mask) := by
    rw [range_mul, List.filter_flatMap]
    exact List.flatMap_congr fun tile _ => htile tile
  obtain ⟨k, hk⟩ := Nat.exists_eq_add_of_le htiles
  rw [hall, hk, List.range_add, List.filter_append]
  have hlow : (List.range n).filter (taken n mask) = (List.range n).filter fun i => mask i != 0 := by
    refine List.filter_congr fun i hi => ?_
    rw [taken, decide_eq_true (List.mem_range.mp hi), Bool.true_and]
  have hhigh : ((List.range k).map (n + ·)).filter (taken n mask) = [] := by
    refine List.filter_eq_nil_iff.mpr fun i hi => ?_
    obtain ⟨j, -, rfl⟩ := List.mem_map.mp hi
    rw [taken, decide_eq_false (by omega), Bool.false_and]
    exact Bool.false_ne_true
  rw [hlow, hhigh, List.append_nil]

theorem blocksOf_pos (tiles sms : Nat) : 0 < blocksOf tiles sms :=
  Nat.lt_of_lt_of_le Nat.one_pos (Nat.le_max_left 1 _)

theorem le_tilesOf (n : Nat) : n ≤ tilesOf n * MS_TILE := by
  unfold tilesOf MS_TILE MS_THREADS MS_ITEMS
  omega

end

/-! ## The result -/

section
variable {α : Type u}

theorem broadcastShape_ok {a b shape : Fin 8 → Nat} (h : broadcastShape a b = .ok shape) :
    ∀ i, (a i = shape i ∨ a i = 1) ∧ (b i = shape i ∨ b i = 1) := by
  unfold broadcastShape at h
  split at h
  · rename_i hall
    obtain rfl := Except.ok.inj h
    intro i
    have hi := hall i
    dsimp only
    unfold broadcastDim at hi ⊢
    split
    · rename_i heq
      exact ⟨.inl rfl, heq.imp_left Eq.symm⟩
    · rename_i hne
      split
      · rename_i hone
        exact ⟨.inr hone, .inl rfl⟩
      · rename_i hnot
        rw [if_neg hne, if_neg hnot] at hi
        exact nomatch hi
  · exact nomatch h

/-- A dense copy holds the element of every index of the shape, in row-major order. -/
theorem T.broadcastDense_eq (t : T α) {shape : Fin 8 → Nat}
    (h : ∀ i, t.shape i = shape i ∨ t.shape i = 1) :
    t.broadcastDense shape = (tuples shape).map t.at := by
  have helements : ∀ strides : Fin 8 → Int,
      (∀ i, strides i = if t.shape i ≠ shape i then 0 else t.strides i) →
      t.elements shape strides = (tuples shape).map t.at := by
    intro strides hstrides
    rw [T.elements, offsets_ofFn, List.map_map]
    refine List.map_congr_left fun x hx => ?_
    refine congrArg (fun o => t.storage (t.offset + o)) (Finset.sum_congr rfl fun i _ => ?_)
    have hlt : x i < shape i := mem_tuples.mp hx i
    rw [hstrides, nsmul_eq_mul]
    by_cases heq : t.shape i = shape i
    · rw [if_neg (not_not.mpr heq)]
      by_cases hone : t.shape i = 1
      · have hzero : x i = 0 := by omega
        rw [if_pos hone, hzero]
      · rw [if_neg hone]
    · rw [if_pos heq, if_pos ((h i).resolve_left heq), Int.mul_zero, Nat.cast_zero, Int.zero_mul]
  rw [T.broadcastDense]
  split
  · rename_i heq
    rw [heq]
    exact helements _ fun i => (if_neg (not_not.mpr (congrFun heq i))).symm
  · exact helements _ fun i => rfl

theorem filter_range_map {β γ : Type*} {l : List β} {f : β → α} {g : β → γ} {src : Nat → α}
    {flags : Nat → γ} (hsrc : Holds src (l.map f)) (hflags : Holds flags (l.map g))
    (p : γ → Bool) :
    ((List.range l.length).filter fun i => p (flags i)).map src =
      (l.filter fun x => p (g x)).map f := by
  have hpairs : (List.range l.length).map (fun i => (flags i, src i)) =
      l.map fun x => (g x, f x) := by
    refine List.ext_getElem (by rw [List.length_map, List.length_range, List.length_map]) ?_
    intro i hi hi'
    rw [List.length_map] at hi'
    rw [List.getElem_map, List.getElem_map, List.getElem_range,
      hsrc i (by rwa [List.length_map]), hflags i (by rwa [List.length_map]), List.getElem_map,
      List.getElem_map]
  have hfilter := congrArg (fun k => (k.filter fun w => p w.1).map Prod.snd) hpairs
  rw [List.filter_map, List.filter_map, List.map_map, List.map_map] at hfilter
  exact hfilter

namespace Run

variable {sms : Nat} {a : T α} {mask : T UInt8} (r : Run sms a mask)

/-- The indices where the mask is true, in row-major order. -/
def picked : List (Fin 8 → Nat) := (tuples r.shape).filter fun x => mask.at x != 0

theorem n_eq : r.n = (tuples r.shape).length := by
  rw [n, a.broadcastDense_eq fun i => (broadcastShape_ok r.broadcast i).1, List.length_map]

theorem kept_eq : ((List.range r.n).filter fun i => r.flags i != 0).map r.src =
    r.picked.map a.at := by
  have hsrc := r.src_holds
  have hflags := r.flags_holds
  rw [a.broadcastDense_eq fun i => (broadcastShape_ok r.broadcast i).1] at hsrc
  rw [mask.broadcastDense_eq fun i => (broadcastShape_ok r.broadcast i).2] at hflags
  rw [n_eq]
  exact filter_range_map hsrc hflags fun b => b != 0

theorem counts_eq {tile : Nat} (htile : tile < r.tiles) :
    r.counts tile = tileCount r.n r.flags tile := by
  obtain ⟨fresh, hstores⟩ := r.counted
  refine hstores.map_at (fun i _ j _ heq => heq) ?_
  exact (mem_gridItems (blocksOf_pos _ _)).mpr htile

theorem segmentStart_counts {k : Nat} (hk : k ≤ r.tiles) :
    segmentStart r.counts k = segmentStart (tileCount r.n r.flags) k :=
  Finset.sum_congr rfl fun _ htile =>
    r.counts_eq (Nat.lt_of_lt_of_le (Finset.mem_range.mp htile) hk)

theorem total_eq : r.total = r.picked.length := by
  have hlen : r.picked.length = segmentStart (tileCount r.n r.flags) r.tiles := by
    rw [← List.length_map a.at, ← kept_eq, List.length_map, ← keptTile_flatMap (le_tilesOf r.n),
      length_groups]
    exact congrArg (segmentStart · _) (funext length_keptTile)
  rw [total, (runningSum_spec _ _).1, r.segmentStart_counts (Nat.le_refl _), ← hlen]
  split
  · rename_i hzero
    rw [n_eq, List.length_eq_zero_iff] at hzero
    rw [picked, hzero]
    rfl
  · rfl

/-- The stores put the elements at consecutive places. -/
theorem stores_perm : r.stores.Perm (place 0 (r.picked.map a.at)) := by
  rw [stores]
  split
  · have htiles : ∀ tile ∈ List.range r.tiles,
        ((List.range MS_THREADS).flatMap fun tid =>
          threadStores r.n r.flags r.src r.offsets tile tid) =
        place (0 + segmentStart (fun i => ((keptTile r.n r.flags i).map r.src).length) tile)
          ((keptTile r.n r.flags tile).map r.src) := by
      intro tile htile
      have hlt := List.mem_range.mp htile
      rw [tileStores_eq, offsets, (runningSum_spec _ _).2, if_pos hlt,
        r.segmentStart_counts (Nat.le_of_lt hlt), Nat.zero_add]
      have hlen : (fun i => ((keptTile r.n r.flags i).map r.src).length) =
          tileCount r.n r.flags :=
        funext fun i => by rw [List.length_map, length_keptTile]
      rw [hlen]
    refine ((gridItems_perm r.tiles (blocksOf_pos _ _)).flatMap_right _).trans ?_
    rw [List.flatMap_congr htiles, place_groups, ← List.map_flatMap,
      tiles, keptTile_flatMap (le_tilesOf r.n), kept_eq]
  · rename_i hzero
    rw [total_eq] at hzero
    have hnil : r.picked = [] := List.eq_nil_of_length_eq_zero (by omega)
    rw [hnil]
    exact List.Perm.refl []

end Run

/-- The result holds the elements at the true places of the mask, in row-major order of the
    broadcast shape; every place of it is written once, and nothing else is. -/
theorem masked_select_compacts {sms : Nat} {a : T α} {mask : T UInt8} (r : Result sms a mask) :
    r.total = r.picked.length ∧
      (∀ k (hk : k < r.picked.length), r.out k = a.at r.picked[k]) ∧
      (r.stores.map Prod.fst).Perm (List.range r.total) := by
  have hperm := r.stores_perm
  refine ⟨r.total_eq, fun k hk => ?_, ?_⟩
  · obtain ⟨fresh, hstores⟩ := r.compacted
    have hmem : ∀ w, w ∈ r.stores ↔ (r.picked.map a.at)[w.1]? = some w.2 := fun w =>
      hperm.mem_iff.trans mem_place
    have hget : (r.picked.map a.at)[k]? = some (a.at r.picked[k]) := by
      rw [List.getElem?_map, List.getElem?_eq_getElem hk]
      rfl
    refine hstores.at ((hmem (k, _)).mpr hget) fun b hb => ?_
    exact Option.some.inj (((hmem (k, b)).mp hb).symm.trans hget)
  · have hfst := hperm.map Prod.fst
    rwa [map_fst_place, List.length_map, ← r.total_eq, ← List.range_eq_range'] at hfst

/-- There is a run for tensors that broadcast. -/
theorem exists_result [Inhabited α] (sms : Nat) {a : T α} {mask : T UInt8} {shape : Fin 8 → Nat}
    (h : broadcastShape a.shape mask.shape = .ok shape) :
    ∃ r : Result sms a mask, r.shape = shape := by
  let dense := a.broadcastDense shape
  let mask' := mask.broadcastDense shape
  let run : Run sms a mask :=
    { shape := shape
      broadcast := h
      src := (dense.getD · default)
      src_holds := fun i hi => List.getD_eq_getElem dense default hi
      flags := (mask'.getD · 0)
      flags_holds := fun i hi => List.getD_eq_getElem mask' 0 hi
      counts := storeAll (countStores dense.length (mask'.getD · 0) (tilesOf dense.length)
        (blocksOf (tilesOf dense.length) sms)) fun _ => 0
      counted := ⟨_, Stores.inOrder _ _⟩ }
  exact ⟨{ run with
    out := storeAll run.stores fun _ => default
    compacted := ⟨_, Stores.inOrder _ _⟩ }, rfl⟩

end

end TorchMojoBackend.Kernels.MaskedSelect
