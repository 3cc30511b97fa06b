/-
  `Kernels.Nms`: non-maximum suppression.

  The device sorts the boxes by descending score in merge passes over two buffers that
  change roles, and writes for each box the 64-bit masks of the later boxes it overlaps.
  The host sweeps the masks for the boxes to keep and the device gathers these.  The
  overlap of an ordered pair of boxes is a parameter; a word of the mask that no thread
  has written is `none`, and the sweep of such a word fails.
-/
import TorchMojoBackend.Foundation.Launch
import TorchMojoBackend.Foundation.MergePass
import TorchMojoBackend.Foundation.Scalar

set_option autoImplicit false

namespace TorchMojoBackend.Kernels.Nms

open TorchMojoBackend.Foundation

universe u v

variable {α : Type u} {V : Type v} [LinearOrder V] [Scalar α V]

/-! ## Merge sort -/

/-- `_before`: descending scores, not-a-number first, ties by index. -/
def before (a : α) (ai : Nat) (b : α) (bi : Nat) : Bool :=
  let an := Scalar.isNaN a
  let bn := Scalar.isNaN b
  (an && !bn) ||
    (an == bn && (Scalar.gt a b || ((Scalar.eq a b || an) && decide (ai < bi))))

/-- The order of the boxes. -/
def Before (scores : Nat → α) (a b : Nat) : Prop := before (scores a) a (scores b) b = true

instance (scores : Nat → α) : DecidableRel (Before scores) := fun _ _ =>
  inferInstanceAs (Decidable (_ = true))

/-- Where `_merge` puts the item at `i`. -/
def mergeSlot (scores : Nat → α) (n width : Nat) (src : Nat → Nat) (i : Nat) : Nat :=
  let base := i / (2 * width) * (2 * width)
  let middle := min (base + width) n
  let stop := min (base + 2 * width) n
  let left := if i ≥ middle then base else middle
  let right := if i ≥ middle then middle else stop
  let found := firstFalse (fun mid => decide (Before scores (src mid) (src i))) n left right
  base + (i - if i ≥ middle then middle else base) + (found - left)

/-- The stores of `_merge`. -/
def mergeStores (scores : Nat → α) (n threads width : Nat) (src : Nat → Nat) : List (Nat × Nat) :=
  (gridItems threads n).map fun i => (mergeSlot scores n width src i, src i)

/-- The buffers `order` (`false`) and `temporary` (`true`). -/
abbrev Buffers : Type := Bool → Nat → Nat

/-- `while width < n`: the passes from the buffer `src`; `fuel` bounds their number. -/
def MergeLoop (scores : Nat → α) (n threads : Nat) :
    Nat → Nat → Bool → Buffers → Bool → Buffers → Prop
  | 0, _, src, buf, src', buf' => src' = src ∧ buf' = buf
  | fuel + 1, width, src, buf, src', buf' =>
    if width < n then
      ∃ mid : Buffers, mid src = buf src ∧
        Stores (mergeStores scores n threads width (buf src)) (buf !src) (mid !src) ∧
        MergeLoop scores n threads fuel (width * 2) (!src) mid src' buf'
    else src' = src ∧ buf' = buf

/-- `odd` of `op_nms`, from a loop of its own. -/
def oddPasses (n : Nat) : Nat → Nat → Bool → Bool
  | 0, _, odd => odd
  | fuel + 1, width, odd => if width < n then oddPasses n fuel (width * 2) (!odd) else odd

/-! ## Masks -/

variable (overlap : Nat → Nat → Bool)

/-- The mask of the box at `row * 64 + lane` for the column `col`. -/
def maskBits (n row col lane : Nat) (order : Nat → Nat) : BitVec 64 :=
  let colCount := min 64 (n - col * 64)
  let tile := fun j => order (col * 64 + j)
  let start := if row = col then lane + 1 else 0
  (List.range' start (colCount - start)).foldl
    (fun bits j =>
      if overlap (order (row * 64 + lane)) (tile j) then bits ||| 1#64 <<< j else bits) 0

/-- The stores of a block of `_mask` for a task. -/
def maskTask (n columns : Nat) (order : Nat → Nat) (task : Nat) :
    List (Nat × Option (BitVec 64)) :=
  let row := task / columns
  let col := task % columns
  if col ≥ row then
    (List.range 64).flatMap fun lane =>
      if row * 64 + lane < n then
        [((row * 64 + lane) * columns + col, some (maskBits overlap n row col lane order))]
      else []
  else []

/-- The stores of `_mask`. -/
def maskStores (n blocks : Nat) (order : Nat → Nat) : List (Nat × Option (BitVec 64)) :=
  let columns := (n + 63) / 64
  (gridItems blocks (columns * columns)).flatMap (maskTask overlap n columns order)

/-- `_run_mask` on a device of `sms` multiprocessors: the buffer that is sorted, both buffers
and the mask it leaves. -/
def RunMask (scores : Nat → α) (n sms : Nat) (src : Bool) (buf : Buffers)
    (mask : Nat → Option (BitVec 64)) : Prop :=
  let sms := max 1 sms
  let blocks := max 1 (min ((n + 255) / 256) (sms * 4))
  let columns := (n + 63) / 64
  ∃ fresh start : Buffers, start true = fresh true ∧
    Stores ((gridItems (blocks * 256) n).map fun i => (i, i)) (fresh false) (start false) ∧
    MergeLoop scores n (blocks * 256) n 1 false start src buf ∧
    Stores (maskStores overlap n (min (columns * columns) (sms * 8)) (buf src)) (fun _ => none)
      mask

/-! ## Sweep -/

/-- The words of removed boxes and the positions kept. -/
structure Sweep where
  removed : Nat → BitVec 64
  kept : List Nat

/-- The sweep at position `i`. -/
def sweepStep (columns : Nat) (masks : Nat → Option (BitVec 64)) (s : Sweep) (i : Nat) :
    Option Sweep :=
  let word := i / 64
  if s.removed word &&& 1#64 <<< (i % 64) ≠ 0 then some s
  else
    ((List.range' word (columns - word)).foldlM
      (fun removed j => (masks (i * columns + j)).map fun bits =>
        Function.update removed j (removed j ||| bits)) s.removed).map
      fun removed => ⟨removed, s.kept ++ [i]⟩

/-- The sweep of the host over the mask. -/
def sweep (n : Nat) (masks : Nat → Option (BitVec 64)) : Option (List Nat) :=
  ((List.range n).foldlM (sweepStep ((n + 63) / 64) masks) ⟨fun _ => 0, []⟩).map Sweep.kept

/-- The stores of `_gather` on a device of `sms` multiprocessors. -/
def gatherStores (sms : Nat) (order : Nat → Nat) (keep : List Nat) : List (Nat × Nat) :=
  let blocks := max 1 (min ((keep.length + 255) / 256) (max 1 sms * 4))
  (gridItems (blocks * 256) keep.length).map fun i => (i, order (keep.getD i 0))

/-- `op_nms` of `n` boxes returns `out`. -/
def OpNms (scores : Nat → α) (n sms : Nat) (out : List Nat) : Prop :=
  ∃ (src : Bool) (buf : Buffers) (mask : Nat → Option (BitVec 64)) (keep : List Nat)
    (fresh gathered : Nat → Nat),
    RunMask overlap scores n sms src buf mask ∧ sweep n mask = some keep ∧
      Stores (gatherStores sms (buf (oddPasses n n 1 false)) keep) fresh gathered ∧
      out = (List.range keep.length).map gathered

/-! ## Reference -/

/-- The greedy choice: a box is kept if no box kept before it overlaps it. -/
def greedy (boxes : List Nat) : List Nat :=
  boxes.foldl (fun kept b => if kept.any fun a => overlap a b then kept else kept ++ [b]) []

end TorchMojoBackend.Kernels.Nms
