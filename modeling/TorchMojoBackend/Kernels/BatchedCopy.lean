/-
  `Kernels.BatchedCopy`: copies of rectangles, many in a launch.

  A rectangle has rows of elements, a pitch apart, at a source and a destination
  address.  A launch takes up to 80 rectangles and is one of three kernels: rectangles
  of many narrow rows as one run of elements, a block for each row, or tiles of rows
  moved by accesses of one width.  The width is narrowed rectangle by rectangle, and
  the scalar head of each is computed for the width that is left.  The descriptors
  hold rows, pitches and tile counts in 32 bits.
-/
import TorchMojoBackend.Foundation.Launch
import TorchMojoBackend.Foundation.MergePass
import TorchMojoBackend.Foundation.Spans

set_option autoImplicit false

namespace TorchMojoBackend.Kernels.BatchedCopy

open TorchMojoBackend.Foundation

/-! ## Rectangles -/

/-- The bytes of an element: 1, 2, 4, 8 or 16. -/
abbrev Size : Type := {bytes : Nat // bytes ∣ 16}

/-- An argument of `copy_batched`; pitches are in elements. -/
structure Rect where
  src : Nat
  dst : Nat
  rows : Nat
  cols : Nat
  srcPitch : Nat
  dstPitch : Nat

/-- `Int32(x)` -/
def int32 (x : Int) : Int := x.bmod (2 ^ 32)

/-- `UInt32(x)` -/
def uint32 (x : Int) : Nat := (x % 2 ^ 32).toNat

/-- A descriptor; `rows`, the pitches, `head`, `rowTiles` and `tileEnd` have 32 bits. -/
structure CopyRect where
  src : Nat
  dst : Nat
  cols : Nat
  srcPitch : Int
  dstPitch : Int
  rows : Int
  head : Int
  rowTiles : Int
  tileEnd : Int

def COPY_BATCH_CAP : Nat := 80
def COPY_BATCH_THREADS : Nat := 256
def COPY_BATCH_MAX_BLOCKS : Nat := 2 ^ 22
def COPY_SMALL_ROWS : Int := 8
def COPY_BATCH_MAX_PITCH : Int := 2 ^ 31 - 1

/-- The descriptor of a rectangle; one row never reads its pitches. -/
def Rect.describe (r : Rect) : CopyRect where
  src := r.src
  dst := r.dst
  cols := r.cols
  srcPitch := int32 (if r.rows = 1 then 0 else r.srcPitch)
  dstPitch := int32 (if r.rows = 1 then 0 else r.dstPitch)
  rows := int32 r.rows
  head := 0
  rowTiles := 0
  tileEnd := 0

section
variable (sS sD : Size)

/-- `_vec`: 16 bytes of the wider operand. -/
def vec : Nat := 16 / max sS.1 sD.1

/-- `_items` -/
def items (width : Nat) : Nat := max 4 (16 / (width * sS.1))

/-- `_tile` -/
def tile (width : Nat) : Nat := COPY_BATCH_THREADS * items sS width * width

/-- `_head`: the scalar elements before the first access of `width`, or `-1`. -/
def head (width : Nat) (rect : CopyRect) : Int :=
  let bytes := width * sS.1
  let head := min ((bytes - rect.src % bytes) % bytes / sS.1) rect.cols
  if (rect.dst + head * sD.1) % (width * sD.1) ≠ 0 then -1
  else if rect.rows > 1 ∧ (rect.srcPitch % width ≠ 0 ∨ rect.dstPitch % width ≠ 0) then -1
  else head

/-- The width after a rectangle: halved as long as the rectangle does not allow it. -/
def narrow (width : Nat) (rect : CopyRect) : Nat :=
  (List.range 5).foldl (fun width step =>
    if vec sS sD / 2 ^ step > 1 ∧ width = vec sS sD / 2 ^ step ∧
        head sS sD (vec sS sD / 2 ^ step) rect < 0 then
      vec sS sD / 2 ^ step / 2
    else width) width

/-! ## Launches -/

/-- What a launch runs. -/
inductive Kernel where
  | narrow (tiles : Int)
  | small (maxRows : Int)
  | wide (width : Nat) (tiles : Int)

structure Launch where
  kernel : Kernel
  rects : List CopyRect

/-- The tile counts of the rectangles and their sums, each stored in its descriptor. -/
def withTiles (count : CopyRect → Int) (fill : CopyRect → CopyRect) :
    Int → List CopyRect → List CopyRect × Int
  | tiles, [] => ([], tiles)
  | tiles, rect :: rects =>
    let tiles := tiles + count rect
    let rest := withTiles count fill tiles rects
    ({ fill rect with tileEnd := int32 tiles } :: rest.1, rest.2)

/-- `ceildiv` -/
def ceildiv (a : Int) (b : Nat) : Int := -(-a / b)

/-- The launch of a batch of descriptors. -/
def launchOf (rects : List CopyRect) : List Launch :=
  let largest := (rects.map CopyRect.cols).foldl max 0
  let maxRows := (rects.map CopyRect.rows).foldl max 0
  let maxTotal := (rects.map fun r => r.rows * (r.cols : Int)).foldl max 0
  let width := rects.foldl (narrow sS sD) (vec sS sD)
  if maxRows > COPY_SMALL_ROWS ∧ largest < COPY_BATCH_THREADS ∧ maxTotal ≤ COPY_BATCH_MAX_PITCH then
    let filled := withTiles (fun r => ceildiv (r.rows * r.cols) (tile sS 1)) id 0 rects
    [⟨.narrow filled.2, filled.1⟩]
  else if largest ≤ tile sS (vec sS sD) ∧ maxRows ≤ COPY_SMALL_ROWS then
    [⟨.small maxRows, rects⟩]
  else
    (List.range 5).flatMap fun step =>
      let V := vec sS sD / 2 ^ step
      if V ≥ 1 ∧ width = V then
        let filled := withTiles (fun r => r.rows * ceildiv r.cols (tile sS V))
          (fun r => { r with
            head := int32 (head sS sD V r), rowTiles := int32 (ceildiv r.cols (tile sS V)) })
          0 rects
        [⟨.wide V filled.2, filled.1⟩]
      else []

/-- The rectangles of the next launch and those after: up to 80 that are not empty. -/
def takeBatch : Nat → List Rect → List Rect × List Rect
  | 0, rects => ([], rects)
  | _ + 1, [] => ([], [])
  | room + 1, r :: rects =>
    if r.rows > 0 ∧ r.cols > 0 then
      let rest := takeBatch room rects
      (r :: rest.1, rest.2)
    else takeBatch (room + 1) rects

/-- `while index < len(cols)`; `fuel` bounds the number of launches. -/
def batches : Nat → List Rect → List (List Rect)
  | 0, _ => []
  | _ + 1, [] => []
  | fuel + 1, rects =>
    let batch := takeBatch COPY_BATCH_CAP rects
    if batch.1 = [] then batches fuel batch.2 else batch.1 :: batches fuel batch.2

/-! ## Accesses -/

/-- A load of `width` elements and the store of them, at byte addresses. -/
structure Access where
  src : Int
  dst : Int
  width : Nat

/-- The elements it moves. -/
def Access.elements (a : Access) : List (Int × Int) :=
  (List.range a.width).map fun e : Nat => (a.src + e * sS.1, a.dst + e * sD.1)

/-- Both sides start at a multiple of the access. -/
def Access.Aligned (a : Access) : Prop :=
  a.src % (a.width * sS.1 : Nat) = 0 ∧ a.dst % (a.width * sD.1 : Nat) = 0

/-- The access at column `i` of a row. -/
def accessAt (rect : CopyRect) (row i : Int) (width : Nat) : Access :=
  ⟨rect.src + row * rect.srcPitch * sS.1 + i * sS.1,
    rect.dst + row * rect.dstPitch * sD.1 + i * sD.1, width⟩

/-- `copy_segment_index` -/
def segmentIndex (rects : List CopyRect) (tile : Nat) : Nat :=
  firstFalse (fun mid => decide (((rects[mid]?).map CopyRect.tileEnd).getD 0 ≤ tile)) rects.length 0
    (rects.length - 1)

/-- `_copy_rect_kernel`: what a lane does for a tile. -/
def wideAccesses (width : Nat) (rects : List CopyRect) (t lane : Nat) : List Access :=
  let lo := segmentIndex rects t
  match rects[lo]? with
  | none => []
  | some rect =>
    let before := if lo = 0 then 0 else ((rects[lo - 1]?).map CopyRect.tileEnd).getD 0
    let part := (t : Int) - before
    let row : Int := if rect.rows > 1 then (uint32 part / uint32 rect.rowTiles : Nat) else 0
    let chunk := if rect.rows > 1 then part - row * rect.rowTiles else part
    let start := chunk * tile sS width
    (if start = 0 ∧ (lane : Int) < rect.head then [accessAt sS sD rect row lane 1] else []) ++
      (List.range (items sS width)).flatMap fun k =>
        let i := rect.head + start + (lane + k * COPY_BATCH_THREADS : Nat) * width
        if i + width ≤ rect.cols then [accessAt sS sD rect row i width]
        else if i < rect.cols then
          (List.range (rect.cols - i).toNat).map fun j : Nat => accessAt sS sD rect row (i + j) 1
        else []

/-- `_copy_rect_small_kernel`: what the block of a row does. -/
def smallAccesses (rects : List CopyRect) (block row lane : Nat) : List Access :=
  match rects[block]? with
  | none => []
  | some rect =>
    if (row : Int) < rect.rows then
      (strided rect.cols COPY_BATCH_THREADS rect.cols lane).map fun i : Nat =>
        accessAt sS sD rect row i 1
    else []

/-- `_copy_rect_narrow_kernel`: what a lane does for a tile. -/
def narrowAccesses (rects : List CopyRect) (t lane : Nat) : List Access :=
  let lo := segmentIndex rects t
  match rects[lo]? with
  | none => []
  | some rect =>
    let before := if lo = 0 then 0 else ((rects[lo - 1]?).map CopyRect.tileEnd).getD 0
    let part := (t : Int) - before
    (List.range (tile sS 1 / COPY_BATCH_THREADS)).flatMap fun k : Nat =>
      let i := part * tile sS 1 + lane + k * COPY_BATCH_THREADS
      if i < rect.rows * rect.cols then
        let row : Int := (uint32 i / uint32 rect.cols : Nat)
        [accessAt sS sD rect row (i - row * rect.cols) 1]
      else []

/-- All accesses of a launch. -/
def Launch.accesses (l : Launch) : List Access :=
  match l.kernel with
  | .narrow tiles =>
    (gridItems (min tiles.toNat COPY_BATCH_MAX_BLOCKS) tiles.toNat).flatMap fun t =>
      (List.range COPY_BATCH_THREADS).flatMap (narrowAccesses sS sD l.rects t)
  | .small maxRows =>
    (List.range l.rects.length).flatMap fun block =>
      (List.range maxRows.toNat).flatMap fun row =>
        (List.range COPY_BATCH_THREADS).flatMap (smallAccesses sS sD l.rects block row)
  | .wide width tiles =>
    (gridItems (min tiles.toNat COPY_BATCH_MAX_BLOCKS) tiles.toNat).flatMap fun t =>
      (List.range COPY_BATCH_THREADS).flatMap (wideAccesses sS sD width l.rects t)

/-- `copy_batched` -/
def copyBatched (rects : List Rect) : List Launch :=
  (batches rects.length rects).flatMap fun batch => launchOf sS sD (batch.map Rect.describe)

/-! ## Purpose -/

/-- The values that a launch of a batch stores in 32 bits: rows, pitches and tile counts. -/
def counters (batch : List Rect) : List Int :=
  (batch.flatMap fun r => [(r.rows : Int), r.srcPitch, r.dstPitch]) ++
    (launchOf sS sD (batch.map Rect.describe)).flatMap fun l =>
      match l.kernel with
      | .narrow tiles => [tiles]
      | .small _ => []
      | .wide width tiles => tiles :: l.rects.map fun r => ceildiv r.cols (tile sS width)

/-- The elements of a rectangle. -/
def Rect.elements (r : Rect) : List (Int × Int) :=
  (List.range r.rows).flatMap fun row => (List.range r.cols).map fun c =>
    (((r.src + (row * r.srcPitch + c) * sS.1 : Nat) : Int),
      ((r.dst + (row * r.dstPitch + c) * sD.1 : Nat) : Int))

/-- A copy is exact: every element is moved once and nothing else is, every access is aligned and
no 32-bit counter overflows. -/
structure Exact (rects : List Rect) : Prop where
  once : (((copyBatched sS sD rects).flatMap (Launch.accesses sS sD)).flatMap
    (Access.elements sS sD)).Perm (rects.flatMap (Rect.elements sS sD))
  aligned : ∀ l ∈ copyBatched sS sD rects, ∀ a ∈ l.accesses sS sD, a.Aligned sS sD
  fits : ∀ batch ∈ batches rects.length rects, ∀ x ∈ counters sS sD batch, x < 2 ^ 31

/-- What a caller of `copy_batched` sees to. -/
structure Rect.Ok (r : Rect) : Prop where
  src : sS.1 ∣ r.src
  dst : sD.1 ∣ r.dst
  srcPitch : r.cols ≤ r.srcPitch ∧ r.srcPitch < 2 ^ 31
  dstPitch : r.cols ≤ r.dstPitch ∧ r.dstPitch < 2 ^ 31

end

end TorchMojoBackend.Kernels.BatchedCopy
