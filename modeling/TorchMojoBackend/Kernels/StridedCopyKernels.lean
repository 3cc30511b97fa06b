/-
  `Kernels.StridedCopyKernels`: what the kernels of strided copies copy.

  The rounds of a kernel's threads are regrouped by rows, columns and blocks, until they
  run over the index tuples of a layout of two or three dimensions.
-/
import Mathlib.Tactic.LinearCombination
import TorchMojoBackend.Foundation.Partition
import TorchMojoBackend.Kernels.StridedCopy

set_option autoImplicit false

namespace TorchMojoBackend.Kernels.StridedCopy

open TorchMojoBackend.Foundation TorchMojoBackend.Kernels.OpUtils

/-- The elements that rounds copy, in any order. -/
def copied (ws : List Work) : Multiset (Int × Int) := (ws.flatMap Work.elements : List _)

theorem copied_nil : copied [] = 0 := rfl

theorem copied_singleton (w : Work) : copied [w] = w.elements := by
  rw [copied, List.flatMap_singleton]

theorem copied_flatMap {ι : Type*} (l : List ι) (f : ι → List Work) :
    copied (l.flatMap f) = (l : Multiset ι).bind fun i => copied (f i) := by
  unfold copied
  rw [List.flatMap_assoc, ← Multiset.coe_bind]

theorem copied_map {ι : Type*} (l : List ι) (f : ι → Work) :
    copied (l.map f) = (l : Multiset ι).bind fun i => (f i).elements := by
  unfold copied
  rw [List.flatMap_map, ← Multiset.coe_bind]

theorem copied_ite (c : Prop) [Decidable c] (ws ws' : List Work) :
    copied (if c then ws else ws') = if c then copied ws else copied ws' := apply_ite ..

theorem coe_map {ι : Type*} {α : Type*} (l : List ι) (f : ι → α) :
    ((l.map f : List α) : Multiset α) = (l : Multiset ι).bind fun i => {f i} := by
  rw [Multiset.bind_singleton, Multiset.map_coe]

theorem elements_move (dst src : Int) (width : Nat) :
    ((Work.move dst src width).elements : Multiset (Int × Int)) =
      (Multiset.range width).bind fun j : Nat => {(dst + j, src + j)} := coe_map ..

/-! ## Layouts of few dimensions -/

theorem coe_offsets_two (rows cols : Nat) (s t : Int × Int) :
    (offsets [⟨rows, s⟩, ⟨cols, t⟩] : Multiset (Int × Int)) =
      (Multiset.range rows).bind fun r => (Multiset.range cols).bind fun c => {r • s + c • t} := by
  simp only [offsets, List.map_cons, List.map_nil, add_zero, ← Multiset.coe_bind, List.map_flatMap,
    ← Multiset.coe_range, Multiset.coe_singleton]

theorem coe_offsets_three (batch rows cols : Nat) (s t u : Int × Int) :
    (offsets [⟨batch, s⟩, ⟨rows, t⟩, ⟨cols, u⟩] : Multiset (Int × Int)) =
      (Multiset.range batch).bind fun b => (Multiset.range rows).bind fun r =>
        (Multiset.range cols).bind fun c => {b • s + (r • t + c • u)} := by
  simp only [offsets, List.map_cons, List.map_nil, add_zero, ← Multiset.coe_bind, List.map_flatMap,
    ← Multiset.coe_range, Multiset.coe_singleton]

/-! ## Rows -/

/-- Both forms of a thread's column name the vector `(blockX * ITEMS + item) * 256 + tid`. -/
theorem row_column {VEC ITEMS THREADS : Nat} (hform : THREADS = 0 ∧ ITEMS = 1 ∨ THREADS = 256)
    {blockX tid item : Nat} (hitem : item < ITEMS) :
    (if THREADS ≠ 0 then blockX * THREADS * VEC * ITEMS + tid * VEC
      else (blockX * 256 + tid) * VEC) + item * THREADS * VEC =
      ((blockX * ITEMS + item) * 256 + tid) * VEC := by
  obtain ⟨rfl, rfl⟩ | rfl := hform
  · obtain rfl : item = 0 := Nat.lt_one_iff.mp hitem
    simp
  · rw [if_pos (by decide)]
    ring

/-- The elements of a vector of a row. -/
def rowVector (VEC cols : Nat) (pitch : Int) (row v : Nat) : Multiset (Int × Int) :=
  (Multiset.range VEC).bind fun j : Nat =>
    {((row : Int) * cols + (v * VEC + j : Nat), (row : Int) * pitch + (v * VEC + j : Nat))}

/-- A vector is copied if it starts in the row. -/
theorem copied_rowVector {VEC n : Nat} (hVEC : 0 < VEC) (pitch : Int) (row v : Nat) :
    copied (if v * VEC + VEC ≤ n * VEC then
      [Work.move (row * (n * VEC : Nat) + (v * VEC : Nat)) (row * pitch + (v * VEC : Nat)) VEC]
      else []) = if v < n then rowVector VEC (n * VEC) pitch row v else 0 := by
  rw [copied_ite, copied_singleton, copied_nil, elements_move, ← Nat.succ_mul,
    if_congr (Nat.mul_le_mul_right_iff hVEC) rfl rfl, if_congr Nat.succ_le_iff rfl rfl]
  refine congrArg (ite _ · _) (Multiset.bind_congr fun j _ => ?_)
  rw [Nat.cast_add, add_assoc, add_assoc]

theorem copied_copyRowStridedBody {VEC ITEMS THREADS gx gy rows n : Nat} (pitch : Int)
    (hVEC : 0 < VEC) (hform : THREADS = 0 ∧ ITEMS = 1 ∨ THREADS = 256) (hgy : 0 < gy)
    (hgx : n ≤ gx * ITEMS * 256) :
    copied (copyRowStridedBody VEC ITEMS THREADS gx gy rows (n * VEC) pitch) =
      (offsets [⟨rows, (((n * VEC : Nat) : Int), pitch)⟩, ⟨n * VEC, ((1 : Int), (1 : Int))⟩] :
        List (Int × Int)) := by
  let vector (row v : Nat) : Multiset (Int × Int) :=
    if v < n then rowVector VEC (n * VEC) pitch row v else 0
  have hvectors : ∀ row, ((Multiset.range gx).bind fun blockX => (Multiset.range 256).bind fun tid =>
      (Multiset.range ITEMS).bind fun item => vector row ((blockX * ITEMS + item) * 256 + tid)) =
      (Multiset.range n).bind (rowVector VEC (n * VEC) pitch row) := by
    intro row
    rw [← bind_range_lanes hgx, bind_range_mul, bind_range_mul]
    exact Multiset.bind_congr fun blockX _ => Multiset.bind_bind ..
  calc copied (copyRowStridedBody VEC ITEMS THREADS gx gy rows (n * VEC) pitch)
      = (Multiset.range gy).bind fun blockY => (Multiset.range gx).bind fun blockX =>
          (Multiset.range 256).bind fun tid => (strided rows gy rows blockY : Multiset Nat).bind
            fun row => (Multiset.range ITEMS).bind fun item =>
              vector row ((blockX * ITEMS + item) * 256 + tid) := by
        simp only [copyRowStridedBody, copied_flatMap, Multiset.coe_range]
        refine Multiset.bind_congr fun blockY _ => Multiset.bind_congr fun blockX _ =>
          Multiset.bind_congr fun tid _ => Multiset.bind_congr fun row _ =>
          Multiset.bind_congr fun item hitem => ?_
        rw [row_column hform (Multiset.mem_range.mp hitem), copied_rowVector hVEC]
    _ = (Multiset.range gy).bind fun blockY => (strided rows gy rows blockY : Multiset Nat).bind
          fun row => (Multiset.range gx).bind fun blockX => (Multiset.range 256).bind fun tid =>
            (Multiset.range ITEMS).bind fun item =>
              vector row ((blockX * ITEMS + item) * 256 + tid) :=
        Multiset.bind_congr fun blockY _ =>
          (Multiset.bind_congr fun blockX _ => Multiset.bind_bind ..).trans
            (Multiset.bind_bind ..)
    _ = (Multiset.range rows).bind fun row =>
          (Multiset.range n).bind (rowVector VEC (n * VEC) pitch row) := by
        rw [bind_range_strided hgy]
        exact Multiset.bind_congr fun row _ => hvectors row
    _ = _ := by
        rw [coe_offsets_two]
        refine Multiset.bind_congr fun row _ => ?_
        rw [bind_range_mul]
        refine Multiset.bind_congr fun v _ => Multiset.bind_congr fun j _ => ?_
        simp

/-! ## Transposes -/

/-- The elements of a transpose: `dst[b, r, c] = src[b, c, r]`. -/
def transposed (cols : Nat) (ld dstBstride srcBstride : Int) (b r c : Nat) :
    Multiset (Int × Int) :=
  {(b * dstBstride + r * cols + c, b * srcBstride + c * ld + r)}

theorem coe_offsets_transposed (batch rows cols : Nat) (ld dstBstride srcBstride : Int) :
    (offsets [⟨batch, (dstBstride, srcBstride)⟩, ⟨rows, ((cols : Int), (1 : Int))⟩,
      ⟨cols, ((1 : Int), ld)⟩] : Multiset (Int × Int)) =
      (Multiset.range batch).bind fun b => (Multiset.range rows).bind fun r =>
        (Multiset.range cols).bind (transposed cols ld dstBstride srcBstride b r) := by
  rw [coe_offsets_three]
  refine Multiset.bind_congr fun b _ => Multiset.bind_congr fun r _ =>
    Multiset.bind_congr fun c _ => congrArg Singleton.singleton (Prod.ext ?_ ?_)
  · simp [add_assoc]
  · simp
    ring

theorem elements_transposeBlock (VEC cols : Nat) (ld dstBstride srcBstride : Int)
    (b r c : Nat) : ((transposeBlock VEC cols ld (b * dstBstride) (b * srcBstride) (r * VEC)
      (c * VEC)).elements : Multiset (Int × Int)) =
      (Multiset.range VEC).bind fun i => (Multiset.range VEC).bind fun j =>
        transposed cols ld dstBstride srcBstride b (r * VEC + i) (c * VEC + j) := by
  simp only [transposeBlock, ← Multiset.coe_bind, coe_map, Multiset.coe_range]
  refine Multiset.bind_congr fun i hi => Multiset.bind_congr fun j _ => ?_
  have hi := Multiset.mem_range.mp hi
  -- the register `j * VEC + i`
  rw [row_div hi, Nat.mul_add_mod_of_lt hi, transposed]
  push_cast
  simp only [add_assoc]

/-- The blocks of a thread's lane in the supertiles of its wave. -/
theorem copied_transpose2dVecKernel {VEC gx gz : Nat} (rows cols : Nat) (ld : Int) (batch : Nat)
    (dstBstride srcBstride : Int) (hVEC : 0 < VEC) (hgx : 0 < gx) (hgz : 0 < gz) :
    copied (transpose2dVecKernel VEC gx gz (rows * VEC) (cols * VEC) ld batch dstBstride
      srcBstride) = (offsets [⟨batch, (dstBstride, srcBstride)⟩,
        ⟨rows * VEC, (((cols * VEC : Nat) : Int), (1 : Int))⟩, ⟨cols * VEC, ((1 : Int), ld)⟩] :
        List (Int × Int)) := by
  obtain ⟨cb, hcb⟩ : ∃ cb, cb = ceildiv (cols * VEC) (VEC * 8) := ⟨_, rfl⟩
  obtain ⟨rb, hrb⟩ : ∃ rb, rb = ceildiv (rows * VEC) (VEC * 8) := ⟨_, rfl⟩
  have hcover : ∀ n, n ≤ ceildiv (n * VEC) (VEC * 8) * 8 := by
    intro n
    have hge := ceildiv_mul_ge (n := n * VEC) (b := VEC * 8) (by omega)
    refine Nat.le_of_mul_le_mul_right (Nat.le_trans hge (Nat.le_of_eq ?_)) hVEC
    ring
  let block (b r c : Nat) : Multiset (Int × Int) :=
    if c < cols then
      if r < rows then
        (transposeBlock VEC (cols * VEC) ld (b * dstBstride) (b * srcBstride) (r * VEC)
          (c * VEC)).elements
      else 0
    else 0
  have hwaves : ∀ b, ((Multiset.range (gx * 256)).bind fun tid =>
      (strided (cb * rb) (gx * 4) (cb * rb) (tid / 64) : Multiset Nat).bind fun q =>
        block b (q / cb * 8 + tid % 64 / 8) (q % cb * 8 + tid % 64 % 8)) =
      (Multiset.range rows).bind fun r => (Multiset.range cols).bind fun c =>
        (transposeBlock VEC (cols * VEC) ld (b * dstBstride) (b * srcBstride) (r * VEC)
          (c * VEC)).elements := by
    intro b
    have hthreads : gx * 256 = gx * 4 * 64 := by omega
    calc _ = (Multiset.range (gx * 4)).bind fun super => (Multiset.range 64).bind fun lane =>
          (strided (cb * rb) (gx * 4) (cb * rb) super : Multiset Nat).bind fun q =>
            block b (q / cb * 8 + lane / 8) (q % cb * 8 + lane % 8) := by
          rw [hthreads, bind_range_mul]
          refine Multiset.bind_congr fun super _ => Multiset.bind_congr fun lane hlane => ?_
          have hlane := Multiset.mem_range.mp hlane
          rw [show (super * 64 + lane) / 64 = super by omega,
            show (super * 64 + lane) % 64 = lane by omega]
      _ = (Multiset.range (cb * rb)).bind fun q => (Multiset.range 64).bind fun lane =>
            block b (q / cb * 8 + lane / 8) (q % cb * 8 + lane % 8) := by
          refine Eq.trans ?_ (bind_range_strided (show 0 < gx * 4 by omega) _)
          exact Multiset.bind_congr fun super _ => Multiset.bind_bind ..
      _ = (Multiset.range rb).bind fun R => (Multiset.range cb).bind fun C =>
            (Multiset.range 8).bind fun lr => (Multiset.range 8).bind fun lc =>
              block b (R * 8 + lr) (C * 8 + lc) := by
          rw [Nat.mul_comm cb, bind_range_mul rb cb]
          refine Multiset.bind_congr fun R _ => Multiset.bind_congr fun C hC => ?_
          have hC := Multiset.mem_range.mp hC
          rw [row_div hC, Nat.mul_add_mod_of_lt hC, bind_range_mul 8 8]
          refine Multiset.bind_congr fun lr _ => Multiset.bind_congr fun lc hlc => ?_
          have hlc := Multiset.mem_range.mp hlc
          rw [show (lr * 8 + lc) / 8 = lr by omega, show (lr * 8 + lc) % 8 = lc by omega]
      _ = _ := by
          rw [bind_range_tiles rb cb 8 8 (block b)]
          exact bind_range_inside (hrb ▸ hcover rows) (hcb ▸ hcover cols) _
  calc copied _ = (Multiset.range gz).bind fun blockZ => (Multiset.range (gx * 256)).bind fun tid =>
        (strided batch gz batch blockZ : Multiset Nat).bind fun b =>
          (strided (cb * rb) (gx * 4) (cb * rb) (tid / 64) : Multiset Nat).bind fun q =>
            block b (q / cb * 8 + tid % 64 / 8) (q % cb * 8 + tid % 64 % 8) := by
        have hstride : gx * 256 / 64 = gx * 4 := by omega
        simp only [transpose2dVecKernel, T2DV_THREADS, T2DV_LANE_C, copied_flatMap, copied_ite,
          copied_singleton, copied_nil, Multiset.coe_range, hstride, ← hcb, ← hrb,
          show 64 / 8 = 8 from rfl, Nat.mul_lt_mul_right hVEC, ite_and, block]
    _ = (Multiset.range batch).bind fun b => (Multiset.range (gx * 256)).bind fun tid =>
          (strided (cb * rb) (gx * 4) (cb * rb) (tid / 64) : Multiset Nat).bind fun q =>
            block b (q / cb * 8 + tid % 64 / 8) (q % cb * 8 + tid % 64 % 8) := by
        refine Eq.trans ?_ (bind_range_strided hgz _)
        exact Multiset.bind_congr fun blockZ _ => Multiset.bind_bind ..
    _ = _ := by
        rw [coe_offsets_transposed]
        refine Multiset.bind_congr fun b _ => (hwaves b).trans ?_
        rw [← bind_range_tiles]
        exact Multiset.bind_congr fun r _ => Multiset.bind_congr fun c _ =>
          elements_transposeBlock ..

/-! ## Transposes through a tile -/

section Tile
variable (TILE rows cols : Nat) (ld srcBase : Int) (r0 c0 : Nat)

/-- Where a tile has the column `c0 + x.2` of the source at the row `r0 + x.1`. -/
def tileSlot (x : Nat × Nat) : Nat := x.2 * (TILE + 1) + x.1

variable {TILE} in
theorem tileLoads_writesOf (hTILE : 0 < TILE) :
    WritesOf (fun x : Nat × Nat => (x.1 < TILE ∧ r0 + x.1 < rows) ∧ x.2 < TILE ∧ c0 + x.2 < cols)
      (tileSlot TILE) (fun x => srcBase + (c0 + x.2 : Nat) * ld + (r0 + x.1 : Nat))
      (tileLoads TILE rows cols ld srcBase r0 c0) := by
  have hmem : ∀ w, w ∈ tileLoads TILE rows cols ld srcBase r0 c0 ↔ ∃ tid, tid < TILE * T2D_ROWS ∧
      r0 + tid % TILE < rows ∧ ∃ y, (tid / TILE ≤ y ∧ y < TILE ∧
        y % T2D_ROWS = tid / TILE % T2D_ROWS) ∧ c0 + y < cols ∧
      w = (y * (TILE + 1) + tid % TILE, srcBase + (c0 + y : Nat) * ld + (r0 + tid % TILE : Nat)) := by
    intro w
    simp only [tileLoads, List.mem_flatMap, List.mem_range, List.mem_ite_nil_right,
      mem_strided (show 0 < T2D_ROWS by decide) (Nat.le_add_left _ _), List.mem_singleton]
  refine ⟨fun w hw => ?_, fun x hx => ?_⟩
  · obtain ⟨tid, -, hr, y, ⟨-, hy, -⟩, hc, rfl⟩ := (hmem w).mp hw
    exact ⟨(tid % TILE, y), ⟨⟨Nat.mod_lt _ hTILE, hr⟩, hy, hc⟩, rfl⟩
  · obtain ⟨x, y⟩ := x
    obtain ⟨⟨hx, hr⟩, hy, hc⟩ := hx
    -- the thread of the row `x` that starts at the remainder of `y`
    have hmod : (y % T2D_ROWS * TILE + x) % TILE = x := Nat.mul_add_mod_of_lt hx
    have hdiv : (y % T2D_ROWS * TILE + x) / TILE = y % T2D_ROWS := row_div hx
    have htid : y % T2D_ROWS * TILE + x < TILE * T2D_ROWS := by
      rw [Nat.mul_comm TILE]
      exact row_major_lt (Nat.mod_lt _ (by decide)) hx
    refine (hmem _).mpr ⟨y % T2D_ROWS * TILE + x, htid, ?_, y, ?_, hc, ?_⟩
    · rwa [hmod]
    · rw [hdiv]
      exact ⟨Nat.mod_le _ _, hy, (Nat.mod_mod _ _).symm⟩
    · rw [hmod]
      rfl

variable {TILE rows cols r0 c0} in
/-- What a thread reads from the tile. -/
theorem tile_read (tile : Nat → Int) (hTILE : 0 < TILE) {tx y : Nat} (htx : tx < TILE)
    (hc : c0 + tx < cols) (hy : y < TILE) (hr : r0 + y < rows) :
    storeAll (tileLoads TILE rows cols ld srcBase r0 c0) tile (tx * (TILE + 1) + y) =
      srcBase + (c0 + tx : Nat) * ld + (r0 + y : Nat) := by
  refine (Stores.inOrder _ tile).writesOf (x := (y, tx))
    (tileLoads_writesOf rows cols ld srcBase r0 c0 hTILE) ?_ ⟨⟨hy, hr⟩, htx, hc⟩
  intro a b ha hb heq
  obtain ⟨hcol, hrow⟩ := flat_inj (Nat.lt_succ_of_lt ha.1.1) (Nat.lt_succ_of_lt hb.1.1) heq
  exact Prod.ext hrow hcol

variable {TILE} in
/-- A tile copies what is inside of the matrix. -/
theorem elements_tile (tile : Nat → Int) (dstBstride srcBstride : Int) (b : Nat)
    (hTILE : 0 < TILE) :
    (((tileStores TILE rows cols (b * dstBstride) r0 c0).map fun x =>
      (x.1, storeAll (tileLoads TILE rows cols ld (b * srcBstride) r0 c0) tile x.2) :
        List (Int × Int)) : Multiset (Int × Int)) =
      (Multiset.range TILE).bind fun y => (Multiset.range TILE).bind fun tx =>
        if c0 + tx < cols then
          if r0 + y < rows then transposed cols ld dstBstride srcBstride b (r0 + y) (c0 + tx) else 0
        else 0 := by
  let store (tx y : Nat) : Multiset (Int × Int) :=
    if r0 + y < rows then
      {((b : Int) * dstBstride + (r0 + y : Nat) * cols + (c0 + tx : Nat),
        storeAll (tileLoads TILE rows cols ld (b * srcBstride) r0 c0) tile (tx * (TILE + 1) + y))}
    else 0
  calc _ = (Multiset.range (T2D_ROWS * TILE)).bind fun tid =>
        if c0 + tid % TILE < cols then
          (strided TILE T2D_ROWS TILE (tid / TILE) : Multiset Nat).bind (store (tid % TILE))
        else 0 := by
        simp only [tileStores, List.map_flatMap, apply_ite (List.map _), List.map_cons,
          List.map_nil, ← Multiset.coe_bind, apply_ite Multiset.ofList,
          Multiset.coe_range, Multiset.coe_nil, Multiset.coe_singleton, Nat.mul_comm TILE, store]
    _ = (Multiset.range TILE).bind fun tx => (Multiset.range T2D_ROWS).bind fun ty =>
          if c0 + tx < cols then
            (strided TILE T2D_ROWS TILE ty : Multiset Nat).bind (store tx) else 0 := by
        rw [bind_range_mul']
        refine Multiset.bind_congr fun tx htx => Multiset.bind_congr fun ty _ => ?_
        have htx := Multiset.mem_range.mp htx
        rw [Nat.mul_add_mod_of_lt htx, row_div htx]
    _ = (Multiset.range TILE).bind fun tx => (Multiset.range TILE).bind fun y =>
          if c0 + tx < cols then store tx y else 0 := by
        refine Multiset.bind_congr fun tx _ => ?_
        by_cases hc : c0 + tx < cols
        · simp only [if_pos hc]
          exact bind_range_strided (by decide) _
        · simp only [if_neg hc, Multiset.bind_zero]
    _ = _ := by
        rw [Multiset.bind_bind]
        refine Multiset.bind_congr fun y hy => Multiset.bind_congr fun tx htx => ?_
        have hy := Multiset.mem_range.mp hy
        have htx := Multiset.mem_range.mp htx
        by_cases hc : c0 + tx < cols
        · by_cases hr : r0 + y < rows
          · simp only [if_pos hc, if_pos hr, store, tile_read _ _ tile hTILE htx hc hy hr]
            rfl
          · simp only [if_neg hr, store]
        · simp only [if_neg hc]

end Tile

/-- The tiles of a block copy what they hold, whatever the shared memory held before. -/
theorem copied_tileLoop {TILE : Nat} (rows cols : Nat) (ld dstBstride srcBstride : Int) (c0 : Nat)
    (hTILE : 0 < TILE) (items : List (Nat × Nat)) (tile : Nat → Int) :
    copied (tileLoop TILE rows cols ld dstBstride srcBstride c0 items tile) =
      (items : Multiset (Nat × Nat)).bind fun x =>
        (Multiset.range TILE).bind fun y => (Multiset.range TILE).bind fun tx =>
          if c0 + tx < cols then
            if x.2 + y < rows then
              transposed cols ld dstBstride srcBstride x.1 (x.2 + y) (c0 + tx) else 0
          else 0 := by
  induction items generalizing tile with
  | nil => rfl
  | cons x items ih =>
      obtain ⟨b, r0⟩ := x
      rw [← Multiset.cons_coe, Multiset.cons_bind, ← ih, ← elements_tile _ _ _ _ _ tile _ _ _ hTILE]
      rfl

theorem copied_transpose2dKernel {TILE gx gy gz rows cols : Nat} (tile : Nat → Int) (ld : Int)
    (batch : Nat) (dstBstride srcBstride : Int) (hTILE : 0 < TILE) (hgx : cols ≤ gx * TILE)
    (hgy : 0 < gy) (hgz : 0 < gz) :
    copied (transpose2dKernel tile TILE gx gy gz rows cols ld batch dstBstride srcBstride) =
      (offsets [⟨batch, (dstBstride, srcBstride)⟩, ⟨rows, ((cols : Int), (1 : Int))⟩,
        ⟨cols, ((1 : Int), ld)⟩] : List (Int × Int)) := by
  let element (b r c : Nat) : Multiset (Int × Int) :=
    if c < cols then
      if r < rows then transposed cols ld dstBstride srcBstride b r c else 0
    else 0
  let block (b r0 blockX : Nat) : Multiset (Int × Int) :=
    (Multiset.range TILE).bind fun y => (Multiset.range TILE).bind fun tx =>
      element b (r0 + y) (blockX * TILE + tx)
  have hrow : ∀ k, k * TILE < rows ↔ k < ceildiv rows TILE := by
    intro k
    constructor
    · intro h
      exact Nat.lt_of_mul_lt_mul_right (Nat.lt_of_lt_of_le h (ceildiv_mul_ge hTILE))
    · intro h
      have hle := Nat.mul_le_mul_right TILE (Nat.succ_le_of_lt h)
      have hlt := ceildiv_mul_lt (n := rows) hTILE
      rw [Nat.succ_mul] at hle
      omega
  have hfuel : ceildiv rows TILE ≤ rows := ceildiv_le hTILE (Nat.le_mul_of_pos_right _ hTILE)
  have hrowTiles : ∀ b, ((Multiset.range gy).bind fun blockY =>
      (strided rows (gy * TILE) rows (blockY * TILE) : Multiset Nat).bind fun r0 =>
        (Multiset.range gx).bind (block b r0)) =
      (Multiset.range rows).bind fun r => (Multiset.range cols).bind
        (transposed cols ld dstBstride srcBstride b r) := by
    intro b
    calc _ = (Multiset.range (ceildiv rows TILE)).bind fun k => (Multiset.range gx).bind
          (block b (k * TILE)) := by
          refine Eq.trans ?_ (bind_range_strided hgy _)
          refine Multiset.bind_congr fun blockY _ => ?_
          rw [strided_scaled gy hrow, strided_fuel hgy (Nat.le_trans hfuel (Nat.le_add_left _ _))
            (Nat.le_add_left _ _), ← Multiset.map_coe, Multiset.bind_map]
      _ = _ := by
          rw [bind_range_tiles _ _ _ _ (element b)]
          exact bind_range_inside (ceildiv_mul_ge hTILE) hgx _
  calc copied _ = (Multiset.range gz).bind fun blockZ => (Multiset.range gy).bind fun blockY =>
        (Multiset.range gx).bind fun blockX => (strided batch gz batch blockZ : Multiset Nat).bind
          fun b => (strided rows (gy * TILE) rows (blockY * TILE) : Multiset Nat).bind fun r0 =>
            block b r0 blockX := by
        simp only [transpose2dKernel, copied_flatMap, copied_tileLoop _ _ _ _ _ _ hTILE,
          Multiset.coe_range, ← Multiset.coe_bind, coe_map, Multiset.bind_assoc,
          Multiset.singleton_bind, element, block]
    _ = (Multiset.range gz).bind fun blockZ => (strided batch gz batch blockZ : Multiset Nat).bind
          fun b => (Multiset.range gy).bind fun blockY =>
            (strided rows (gy * TILE) rows (blockY * TILE) : Multiset Nat).bind fun r0 =>
              (Multiset.range gx).bind (block b r0) := by
        refine Multiset.bind_congr fun blockZ _ => ?_
        refine (Multiset.bind_congr fun blockY _ => Multiset.bind_bind ..).trans ?_
        refine (Multiset.bind_bind ..).trans (Multiset.bind_congr fun b _ => ?_)
        exact Multiset.bind_congr fun blockY _ => Multiset.bind_bind ..
    _ = _ := by
        rw [bind_range_strided hgz, coe_offsets_transposed]
        exact Multiset.bind_congr fun b _ => hrowTiles b

/-! ## Elements one by one -/

theorem gsBlocks_pos (total : Nat) : 0 < gsBlocks total * GS_THREADS :=
  Nat.mul_pos (Nat.lt_of_lt_of_le Nat.one_pos (Nat.le_max_left _ _)) (by decide)

theorem elements_move_one (dst src : Int) :
    ((Work.move dst src 1).elements : Multiset (Int × Int)) = {(dst, src)} := by
  simp [Work.move]

/-- The generic kernel divides each element's number into its coordinates. -/
theorem copied_copyStridedKernel (ds : List (Dim (Int × Int))) :
    copied (copyStridedKernel (gsBlocks (count ds)) ds (count ds)) = (offsets ds : List _) := by
  have hperm : ((List.range (count ds)).map (unravel ds.reverse)).Perm (offsets ds) := by
    rw [count_perm (List.reverse_perm ds).symm]
    exact (unravel_perm _).trans (offsets_perm (List.reverse_perm ds))
  rw [copyStridedKernel, copied_map, coe_gridItems _ (gsBlocks_pos _),
    ← Multiset.coe_eq_coe.mpr hperm, coe_map, Multiset.coe_range]
  exact Multiset.bind_congr fun i _ => elements_move_one ..

/-! ## Permutations -/

/-- The layout of the output and the permuted input. -/
def Permutation.dims (p : Permutation) : List (Dim (Int × Int)) :=
  [⟨p.d0, ((p.d1 * p.d2 * p.d3 : Nat), p.s0)⟩, ⟨p.d1, ((p.d2 * p.d3 : Nat), p.s1)⟩,
    ⟨p.d2, (p.d3, p.s2)⟩, ⟨p.d3, (1, p.s3)⟩]

namespace Permutation

variable (p : Permutation)

/-- The number of runs. -/
def runs : Nat := p.d0 * p.d1 * p.d2

variable {p} in
theorem runOffset_eq {i1 i2 : Nat} (h1 : i1 < p.d1) (h2 : i2 < p.d2) (i0 : Nat) :
    p.runOffset ((i0 * p.d1 + i1) * p.d2 + i2) = i0 * p.s0 + i1 * p.s1 + i2 * p.s2 := by
  simp only [runOffset, Nat.mul_add_mod_of_lt h2, row_div h2, Nat.mul_add_mod_of_lt h1, row_div h1]

/-- The layout, run by run. -/
theorem coe_offsets : (offsets p.dims : Multiset (Int × Int)) =
    (Multiset.range p.runs).bind fun run => (Multiset.range p.d3).bind fun i3 =>
      {(((run * p.d3 + i3 : Nat) : Int), p.runOffset run + i3 * p.s3)} := by
  rw [runs, bind_range_mul, bind_range_mul]
  simp only [dims, offsets, List.map_cons, List.map_nil, add_zero, ← Multiset.coe_bind,
    List.map_flatMap, ← Multiset.coe_range, Multiset.coe_singleton]
  refine Multiset.bind_congr fun i0 _ => Multiset.bind_congr fun i1 h1 =>
    Multiset.bind_congr fun i2 h2 => Multiset.bind_congr fun i3 _ =>
    congrArg Singleton.singleton ?_
  rw [runOffset_eq (Multiset.mem_range.mp h1) (Multiset.mem_range.mp h2)]
  refine Prod.ext ?_ ?_
  · simp
    ring
  · simp [add_assoc]

theorem copied_permuteCopyKernel : copied (permuteCopyKernel p) = (offsets p.dims : List _) := by
  rw [permuteCopyKernel, copied_map, coe_gridItems _ (gsBlocks_pos _), coe_offsets, total,
    bind_range_mul (p.d0 * p.d1 * p.d2)]
  refine Multiset.bind_congr fun run _ => Multiset.bind_congr fun i3 h3 => ?_
  have h3 := Multiset.mem_range.mp h3
  rw [elements_move_one, offset, runOffset, Nat.mul_add_mod_of_lt h3, row_div h3]

variable {p} in
/-- Runs that are contiguous in the input, by vectors. -/
theorem coe_offsets_vectors {VEC : Nat} (hVEC : VEC ∣ p.d3) (hs3 : p.s3 = 1) :
    (offsets p.dims : Multiset (Int × Int)) =
      (Multiset.range p.runs).bind fun run => (Multiset.range (p.d3 / VEC)).bind fun v =>
        (Multiset.range VEC).bind fun e =>
          {(((run * p.d3 + (v * VEC + e) : Nat) : Int), p.runOffset run + (v * VEC + e : Nat))} := by
  rw [coe_offsets, hs3]
  refine Multiset.bind_congr fun run _ => ?_
  simp only [mul_one]
  conv_lhs => rw [← Nat.div_mul_cancel hVEC, bind_range_mul]
  rw [Nat.div_mul_cancel hVEC]

variable {p} in
theorem copied_runGatherKernel {VEC : Nat} (hpos : 0 < VEC) (hVEC : VEC ∣ p.d3)
    (hs3 : p.s3 = 1) : copied (runGatherKernel p VEC) = (offsets p.dims : List _) := by
  obtain ⟨spv, hspv⟩ := hVEC
  have hdiv : p.d3 / VEC = spv := by rw [hspv, Nat.mul_div_cancel_left _ hpos]
  have hslots : p.total / VEC = p.runs * spv := by
    rw [total, ← runs, hspv, Nat.mul_left_comm, Nat.mul_div_cancel_left _ hpos]
  rw [runGatherKernel, copied_map, coe_gridItems _ (gsBlocks_pos _),
    coe_offsets_vectors ⟨spv, hspv⟩ hs3, hdiv, hslots, bind_range_mul p.runs]
  refine Multiset.bind_congr fun run _ => Multiset.bind_congr fun v hv => ?_
  have hv := Multiset.mem_range.mp hv
  rw [elements_move, row_div hv, Nat.mul_add_mod_of_lt hv]
  refine Multiset.bind_congr fun e _ => congrArg Singleton.singleton (Prod.ext ?_ ?_)
  · simp [hspv]
    ring
  · simp [add_assoc]

variable {p} in
theorem copied_permuteCopyRowloopKernel (hVEC : 4 ∣ p.d3) (hs3 : p.s3 = 1) :
    copied (permuteCopyRowloopKernel p) = (offsets p.dims : List _) := by
  rw [permuteCopyRowloopKernel, copied_flatMap, coe_gridItems _ (gsBlocks_pos _), ← runs,
    coe_offsets_vectors hVEC hs3]
  refine Multiset.bind_congr fun run _ => ?_
  rw [copied_map, Multiset.coe_range]
  refine Multiset.bind_congr fun v _ => ?_
  rw [elements_move, Nat.mul_assoc, Nat.div_mul_cancel hVEC]
  refine Multiset.bind_congr fun e _ => congrArg Singleton.singleton (Prod.ext ?_ ?_)
  · simp [add_assoc]
  · simp [add_assoc]

end Permutation

end TorchMojoBackend.Kernels.StridedCopy
