/-
  `Kernels.StridedCopy`: copies between strided layouts.

  Every copy has a kernel that divides an element's number into coordinates.  Rows that
  are contiguous on both sides, transposes of the two innermost dimensions and gathers of
  contiguous runs have kernels of their own, which are launched where the shape, the
  strides and the addresses allow them.
-/
import Mathlib.Algebra.Order.Ring.Int
import TorchMojoBackend.Foundation.Layout
import TorchMojoBackend.Kernels.OpUtils

set_option autoImplicit false

namespace TorchMojoBackend.Kernels.StridedCopy

open TorchMojoBackend.Foundation TorchMojoBackend.Kernels.OpUtils

def GS_THREADS : Nat := 256
def T2D_LINE : Nat := 128
def T2D_ROWS : Nat := 8
def T2DV_THREADS : Nat := 256
def T2DV_LANE_C : Nat := 8

/-- `_gs_blocks`. -/
def gsBlocks (total : Nat) : Nat := max 1 (min ((total + GS_THREADS - 1) / GS_THREADS) 4096)

/-- `_t2d_tile`. -/
def t2dTile (dtype : BitsType) : Nat := T2D_LINE / dtype.sizeOf

/-- `_t2dv_vec`. -/
def t2dvVec (dtype : BitsType) : Nat := 16 / dtype.sizeOf

/-- What a thread does in a round: the vectors it loads and stores, as element offsets with
widths, and the elements this copies, as offsets of the destination and the source. -/
structure Work where
  loads : List (Int × Nat)
  stores : List (Int × Nat)
  elements : List (Int × Int)
  deriving DecidableEq

/-- A load and a store of one vector. -/
def Work.move (dst src : Int) (width : Nat) : Work :=
  ⟨[(src, width)], [(dst, width)], (List.range width).map fun j : Nat => (dst + j, src + j)⟩

/-! ## Kernels -/

/-- `_copy_strided_kernel`. -/
def copyStridedKernel (blocks : Nat) (ds : List (Dim (Int × Int))) (total : Nat) : List Work :=
  (gridItems (blocks * GS_THREADS) total).map fun i =>
    let offset := unravel ds.reverse i
    Work.move offset.1 offset.2 1

/-- `_copy_row_strided_body` on a grid of `gx` by `gy` blocks of 256 threads. -/
def copyRowStridedBody (VEC ITEMS THREADS gx gy rows cols : Nat) (pitch : Int) : List Work :=
  (List.range gy).flatMap fun blockY => (List.range gx).flatMap fun blockX =>
    (List.range 256).flatMap fun tid =>
      let col := if THREADS ≠ 0 then blockX * THREADS * VEC * ITEMS + tid * VEC
        else (blockX * 256 + tid) * VEC
      (strided rows gy rows blockY).flatMap fun row : Nat =>
        (List.range ITEMS).flatMap fun item =>
          let column := col + item * THREADS * VEC
          if column + VEC ≤ cols then
            [Work.move (row * cols + column) (row * pitch + column) VEC]
          else []

/-- The block of `VEC` by `VEC` elements at `r0` and `c0`. -/
def transposeBlock (VEC cols : Nat) (ld dstBase srcBase : Int) (r0 c0 : Nat) : Work :=
  -- `vals` after the loads: the source offset of each register
  let vals : Nat → Int := fun x => srcBase + (c0 + (x / VEC : Nat)) * ld + r0 + (x % VEC : Nat)
  ⟨(List.range VEC).map fun j : Nat => (srcBase + (c0 + j) * ld + r0, VEC),
    (List.range VEC).map fun i : Nat => (dstBase + (r0 + i) * cols + c0, VEC),
    (List.range VEC).flatMap fun i : Nat => (List.range VEC).map fun j : Nat =>
      (dstBase + (r0 + i) * cols + c0 + j, vals (j * VEC + i))⟩

/-- `_transpose2d_vec_kernel`. -/
def transpose2dVecKernel (VEC gx gz rows cols : Nat) (ld : Int) (batch : Nat)
    (dstBstride srcBstride : Int) : List Work :=
  let LC := T2DV_LANE_C
  let LR := 64 / LC
  let cb := ceildiv cols (VEC * LC)
  let rb := ceildiv rows (VEC * LR)
  let supers := cb * rb
  let gstride := gx * T2DV_THREADS / 64
  (List.range gz).flatMap fun blockZ => (List.range (gx * T2DV_THREADS)).flatMap fun tid =>
    let lane := tid % 64
    (strided batch gz batch blockZ).flatMap fun b : Nat =>
      (strided supers gstride supers (tid / 64)).flatMap fun q =>
        let c0 := (q % cb * LC + lane % LC) * VEC
        let r0 := (q / cb * LR + lane / LC) * VEC
        if c0 < cols ∧ r0 < rows then
          [transposeBlock VEC cols ld (b * dstBstride) (b * srcBstride) r0 c0]
        else []

/-- What the threads of a block put into its tile: slots with source offsets. -/
def tileLoads (TILE rows cols : Nat) (ld srcBase : Int) (r0 c0 : Nat) : List (Nat × Int) :=
  (List.range (TILE * T2D_ROWS)).flatMap fun tid =>
    let tx := tid % TILE
    let r := r0 + tx
    if r < rows then
      (strided TILE T2D_ROWS TILE (tid / TILE)).flatMap fun y : Nat =>
        let c := c0 + y
        if c < cols then [(y * (TILE + 1) + tx, srcBase + c * ld + r)] else []
    else []

/-- What the threads of a block store from its tile: destination offsets with slots. -/
def tileStores (TILE rows cols : Nat) (dstBase : Int) (r0 c0 : Nat) : List (Int × Nat) :=
  (List.range (TILE * T2D_ROWS)).flatMap fun tid =>
    let tx := tid % TILE
    let c := c0 + tx
    if c < cols then
      (strided TILE T2D_ROWS TILE (tid / TILE)).flatMap fun y : Nat =>
        let row := r0 + y
        if row < rows then [(dstBase + row * cols + c, tx * (TILE + 1) + y)] else []
    else []

/-- The tiles of a block one after the other, as `(b, r0)`; `tile` has the source offset of what
is in each slot. -/
def tileLoop (TILE rows cols : Nat) (ld dstBstride srcBstride : Int) (c0 : Nat) :
    List (Nat × Nat) → (Nat → Int) → List Work
  | [], _ => []
  | (b, r0) :: rest, tile =>
    let loads := tileLoads TILE rows cols ld (b * srcBstride) r0 c0
    let stores := tileStores TILE rows cols (b * dstBstride) r0 c0
    let tile := storeAll loads tile
    ⟨loads.map fun x => (x.2, 1), stores.map fun x => (x.1, 1),
      stores.map fun x => (x.1, tile x.2)⟩ ::
      tileLoop TILE rows cols ld dstBstride srcBstride c0 rest tile

/-- `_transpose2d_kernel`; `tile` is what the shared memory of a block holds at first. -/
def transpose2dKernel (tile : Nat → Int) (TILE gx gy gz rows cols : Nat) (ld : Int) (batch : Nat)
    (dstBstride srcBstride : Int) : List Work :=
  (List.range gz).flatMap fun blockZ => (List.range gy).flatMap fun blockY =>
    (List.range gx).flatMap fun blockX =>
      tileLoop TILE rows cols ld dstBstride srcBstride (blockX * TILE)
        ((strided batch gz batch blockZ).flatMap fun b =>
          (strided rows (gy * TILE) rows (blockY * TILE)).map fun r0 => (b, r0)) tile

/-! ## `_copy_strided` -/

/-- The device a kernel is compiled and launched for. -/
structure Device where
  sm9x : Bool
  cuda : Bool
  apple : Bool
  deriving DecidableEq

instance : NeZero MAX_RANK := ⟨by decide⟩

/-- A shape with the strides of the destination and the source. -/
structure Layout where
  shape : Fin MAX_RANK → Nat
  dstStrides : Fin MAX_RANK → Int
  srcStrides : Fin MAX_RANK → Int

def Layout.dims (l : Layout) : List (Dim (Int × Int)) :=
  List.ofFn fun i => ⟨l.shape i, (l.dstStrides i, l.srcStrides i)⟩

/-- The rows of a copy of rows, by vectors where both sides allow it. -/
def copyRows (dtype : BitsType) (dstAddr srcAddr : Int) (rows cols : Nat) (pitch : Int) :
    List Work :=
  match dtype with
  | .uint16 =>
    if dstAddr % 16 = 0 ∧ srcAddr % 16 = 0 ∧ cols % 8 = 0 ∧ pitch % 8 = 0 then
      copyRowStridedBody 8 1 0 (ceildiv cols (256 * 8)) (min rows MAX_GRID_Y) rows cols pitch
    else copyRowStridedBody 1 1 0 (ceildiv cols 256) (min rows MAX_GRID_Y) rows cols pitch
  | _ =>
    if dstAddr % 16 = 0 ∧ srcAddr % 16 = 0 ∧ cols % 4 = 0 ∧ pitch % 4 = 0 then
      copyRowStridedBody 4 1 256 (ceildiv cols (256 * 4)) (min rows MAX_GRID_Y) rows cols pitch
    else copyRowStridedBody 1 4 256 (ceildiv cols (256 * 4)) (min rows MAX_GRID_Y) rows cols pitch

/-- The layout is one of rows that the row kernels take. -/
def Layout.rowsOk (l : Layout) (device : Device) (dtype : BitsType) : Prop :=
  (dtype = .uint16 ∨ dtype = .uint32) ∧ device.sm9x = true ∧
    (dtype = .uint32 → device.cuda = true) ∧ (∀ i : Fin MAX_RANK, i.val < 6 → l.shape i = 1) ∧
    l.dstStrides 7 = 1 ∧ l.dstStrides 6 = l.shape 7 ∧ l.srcStrides 7 = 1 ∧
    l.srcStrides 6 ≥ l.shape 7

instance (l : Layout) (device : Device) (dtype : BitsType) :
    Decidable (l.rowsOk device dtype) :=
  inferInstanceAs (Decidable (_ ∧ _))

/-- The layout is a transpose of the two innermost dimensions, at most one more being long. -/
def Layout.transposed (l : Layout) : Prop :=
  let rows := l.shape 6
  let cols := l.shape 7
  let batch := l.shape 5
  (∀ i : Fin MAX_RANK, i.val < 5 → l.shape i = 1) ∧ rows > 1 ∧ cols > 1 ∧ count l.dims ≥ 1024 ∧
    l.dstStrides 7 = 1 ∧ l.dstStrides 6 = cols ∧ l.srcStrides 6 = 1 ∧ l.srcStrides 7 ≥ rows ∧
    (batch = 1 ∨ (l.dstStrides 5 = rows * cols ∧ l.srcStrides 5 ≥ cols * l.srcStrides 7))

instance (l : Layout) : Decidable l.transposed := inferInstanceAs (Decidable (_ ∧ _))

/-- `_copy_strided`. -/
def copyStrided (device : Device) (dtype : BitsType) (tile : Nat → Int) (dstAddr srcAddr : Int)
    (l : Layout) : List Work :=
  let total := count l.dims
  if total = 0 then []
  else
    let rows := l.shape 6
    let cols := l.shape 7
    if l.rowsOk device dtype then copyRows dtype dstAddr srcAddr rows cols (l.srcStrides 6)
    else if l.transposed then
      let batch := l.shape 5
      let VEC := t2dvVec dtype
      let VBLK := VEC * T2DV_LANE_C
      let dstBstride := if batch > 1 then l.dstStrides 5 else 0
      let srcBstride := if batch > 1 then l.srcStrides 5 else 0
      if dtype.sizeOf ≥ 2 ∧ rows % VEC = 0 ∧ cols % VEC = 0 ∧ l.srcStrides 7 % VEC = 0 ∧
          dstAddr % 16 = 0 ∧ srcAddr % 16 = 0 ∧ (batch = 1 ∨ l.srcStrides 5 % VEC = 0) then
        transpose2dVecKernel VEC
          (max 1 (ceildiv (ceildiv cols VBLK * ceildiv rows VBLK * 64) T2DV_THREADS))
          (min batch MAX_GRID_Y) rows cols (l.srcStrides 7) batch dstBstride srcBstride
      else
        let TILE := t2dTile dtype
        transpose2dKernel tile TILE (ceildiv cols TILE) (min (ceildiv rows TILE) MAX_GRID_Y)
          (min batch MAX_GRID_Y) rows cols (l.srcStrides 7) batch dstBstride srcBstride
    else copyStridedKernel (gsBlocks total) l.dims total

/-! ## `_permute_copy` -/

/-- The extents of a permuted copy with the strides of the source. -/
structure Permutation where
  d0 : Nat
  d1 : Nat
  d2 : Nat
  d3 : Nat
  s0 : Int
  s1 : Int
  s2 : Int
  s3 : Int
  deriving DecidableEq

def Permutation.total (p : Permutation) : Nat := p.d0 * p.d1 * p.d2 * p.d3

/-- The coordinates of `_permute_copy_kernel`, with the offset they give. -/
def Permutation.offset (p : Permutation) (i : Nat) : Int :=
  let i3 := i % p.d3
  let rest := i / p.d3
  let i2 := rest % p.d2
  let rest := rest / p.d2
  (rest / p.d1 : Nat) * p.s0 + (rest % p.d1 : Nat) * p.s1 + i2 * p.s2 + i3 * p.s3

/-- The offset of a run: `i0 * s0 + i1 * s1 + i2 * s2`. -/
def Permutation.runOffset (p : Permutation) (run : Nat) : Int :=
  let i2 := run % p.d2
  let rest := run / p.d2
  (rest / p.d1 : Nat) * p.s0 + (rest % p.d1 : Nat) * p.s1 + i2 * p.s2

/-- `_permute_copy_kernel`. -/
def permuteCopyKernel (p : Permutation) : List Work :=
  (gridItems (gsBlocks p.total * GS_THREADS) p.total).map fun i : Nat =>
    Work.move i (p.offset i) 1

/-- `_run_gather_kernel`; `_permute_copy_rows4_kernel` is the one of four elements. -/
def runGatherKernel (p : Permutation) (VEC : Nat) : List Work :=
  let spv := p.d3 / VEC
  let slots := p.total / VEC
  (gridItems (gsBlocks slots * GS_THREADS) slots).map fun j : Nat =>
    Work.move (j * VEC) (p.runOffset (j / spv) + (j % spv * VEC : Nat)) VEC

/-- `_permute_copy_rowloop_kernel`. -/
def permuteCopyRowloopKernel (p : Permutation) : List Work :=
  let nrows := p.d0 * p.d1 * p.d2
  (gridItems (gsBlocks nrows * GS_THREADS) nrows).flatMap fun r : Nat =>
    (List.range (p.d3 / 4)).map fun j : Nat =>
      Work.move ((r * (p.d3 / 4) * 4 : Nat) + (j * 4 : Nat)) (p.runOffset r + (j * 4 : Nat)) 4

/-- `_try_run_gather` takes vectors of `VEC`. -/
def runGatherOk (dtype : BitsType) (outAddr inAddr : Int) (p : Permutation) (VEC : Nat) : Prop :=
  p.d3 % VEC = 0 ∧ p.s0 % VEC = 0 ∧ p.s1 % VEC = 0 ∧ p.s2 % VEC = 0 ∧
    outAddr % ALIGN dtype VEC = 0 ∧ inAddr % ALIGN dtype VEC = 0

instance (dtype : BitsType) (outAddr inAddr : Int) (p : Permutation) (VEC : Nat) :
    Decidable (runGatherOk dtype outAddr inAddr p VEC) :=
  inferInstanceAs (Decidable (_ ∧ _))

/-- The widths of a gather in the order they are tried. -/
def gatherWidths (device : Device) (dtype : BitsType) : List Nat :=
  (if device.apple then [] else [32 / dtype.sizeOf]) ++ [16 / dtype.sizeOf, 8 / dtype.sizeOf]

/-- The permutation is a transpose of the two innermost dimensions. -/
def Permutation.transposed (p : Permutation) : Prop :=
  let batch := p.d0 * p.d1
  p.d2 > 1 ∧ p.d3 > 1 ∧ p.total ≥ 1024 ∧ p.s2 = 1 ∧ p.s3 ≥ p.d2 ∧
    (p.d0 = 1 ∨ p.s0 = p.d1 * p.s1) ∧ (batch = 1 ∨ p.s1 ≥ p.d3 * p.s3)

instance (p : Permutation) : Decidable p.transposed := inferInstanceAs (Decidable (_ ∧ _))

/-- `_permute_copy`. -/
def permuteCopy (device : Device) (dtype : BitsType) (tile : Nat → Int) (outAddr inAddr : Int)
    (p : Permutation) : List Work :=
  -- `(s0 | s1 | s2) % 4` and the one of the addresses: each is a multiple
  if device.apple = true ∧ p.total > 0 ∧ p.s3 = 1 ∧ p.d3 % 4 = 0 ∧
      (p.s0 % 4 = 0 ∧ p.s1 % 4 = 0 ∧ p.s2 % 4 = 0) ∧
      (outAddr % (4 * dtype.sizeOf : Nat) = 0 ∧ inAddr % (4 * dtype.sizeOf : Nat) = 0) then
    if p.d0 * p.d1 * p.d2 ≥ 4096 then permuteCopyRowloopKernel p else runGatherKernel p 4
  else
    match (if p.s3 = 1 ∧ p.d3 > 1 ∧ p.total ≥ 1024 then
        (gatherWidths device dtype).find? fun VEC => decide (runGatherOk dtype outAddr inAddr p VEC)
      else none) with
    | some VEC => runGatherKernel p VEC
    | none =>
      if p.transposed then
        let TILE := t2dTile dtype
        let batch := p.d0 * p.d1
        transpose2dKernel tile TILE ((p.d3 + TILE - 1) / TILE)
          (min ((p.d2 + TILE - 1) / TILE) MAX_GRID_Y) (min batch MAX_GRID_Y) p.d2 p.d3 p.s3 batch
          (p.d2 * p.d3) (if batch > 1 then p.s1 else 0)
      else permuteCopyKernel p

end TorchMojoBackend.Kernels.StridedCopy
