/-
  `Kernels.Pool`: the pooling kernels and im2col / col2im, over exact arithmetic.

  Source: tmb/kernels/pool/entry.mojo.

  One kernel serves 2-D and 3-D: the 2-D forms have a depth of one with a unit window.
  Pointers are functions of a flat index, and accumulators are exact, so that a loop that
  adds up a range is a sum.  Extents, strides and dilations are positive, so that `//` and
  `%` are the division with a remainder from zero on.
-/
import Mathlib.Algebra.Field.Basic
import TorchMojoBackend.Foundation.Atomics
import TorchMojoBackend.Foundation.IntLoops
import TorchMojoBackend.Foundation.Scalar

set_option autoImplicit false

namespace TorchMojoBackend.Kernels.Pool

open TorchMojoBackend.Foundation

attribute [local instance] intOrder neZero_three

universe u v

/-- The slots of the pooling kernels; the vectors are over (D, H, W). -/
structure Geom where
  planes : Int
  in_ : Fin 3 → Int
  out : Fin 3 → Int
  k : Fin 3 → Int
  s : Fin 3 → Int
  p : Fin 3 → Int
  dil : Fin 3 → Int
  /-- `G_CIP` -/
  countIncludePad : Bool
  /-- `G_DIV`, zero for none -/
  divisorOverride : Int
  /-- `G_3D` -/
  three : Bool

/-! ## Windows -/

/-- `floor(a * c / b)` -/
def startIndex (a b c : Int) : Int := a / b * c + a % b * c / b

/-- `ceil((a + 1) * c / b)` -/
def endIndex (a b c : Int) : Int := 1 + ((a + 1) * c - 1) / b

/-- `_max_window` -/
def maxWindow (g : Geom) (dim : Fin 3) (o : Int) : Int × Int :=
  let s := o * g.s dim - g.p dim
  let e := min (s + (g.k dim - 1) * g.dil dim + 1) (g.in_ dim)
  (pastZero (g.dil dim) (-s).toNat s, e)

/-- `_max_out_range` -/
def maxOutRange (g : Geom) (dim : Fin 3) (x : Int) : Int × Int :=
  let extent := (g.k dim - 1) * g.dil dim + 1
  let xp := x + g.p dim
  let s := if xp < extent then 0 else (xp - extent) / g.s dim + 1
  let e := min (xp / g.s dim + 1) (g.out dim)
  (s, e)

/-- `_avg_window`: the bounds inside the input and the padded extent. -/
def avgWindow (g : Geom) (dim : Fin 3) (o : Int) : Int × Int × Int :=
  let s := o * g.s dim - g.p dim
  let e := min (s + g.k dim) (g.in_ dim + g.p dim)
  let extent := e - s
  (max s 0, min e (g.in_ dim), extent)

/-- `_avg_out_range` -/
def avgOutRange (g : Geom) (dim : Fin 3) (x : Int) : Int × Int :=
  let xp := x + g.p dim
  let k := g.k dim
  let s := if xp < k then 0 else (xp - k) / g.s dim + 1
  let e := min (xp / g.s dim + 1) (g.out dim)
  (s, e)

/-- `_adaptive_window` -/
def adaptiveWindow (g : Geom) (dim : Fin 3) (o : Int) : Int × Int :=
  (startIndex o (g.out dim) (g.in_ dim), endIndex o (g.out dim) (g.in_ dim))

/-- `_adaptive_out_range` -/
def adaptiveOutRange (g : Geom) (dim : Fin 3) (x : Int) : Int × Int :=
  (startIndex x (g.in_ dim) (g.out dim), endIndex x (g.in_ dim) (g.out dim))

/-- `_split_out` -/
def splitOut (g : Geom) (i : Int) : Int × Int × Int × Int :=
  let ow := i % g.out 2
  let oh := i / g.out 2 % g.out 1
  let od := i / (g.out 2 * g.out 1) % g.out 0
  let plane := i / (g.out 2 * g.out 1 * g.out 0)
  (plane, od, oh, ow)

/-- `_split_in` -/
def splitIn (g : Geom) (i : Int) : Int × Int × Int × Int :=
  let iw := i % g.in_ 2
  let ih := i / g.in_ 2 % g.in_ 1
  let id := i / (g.in_ 2 * g.in_ 1) % g.in_ 0
  let plane := i / (g.in_ 2 * g.in_ 1 * g.in_ 0)
  (plane, id, ih, iw)

def inPlane (g : Geom) : Int := g.in_ 0 * g.in_ 1 * g.in_ 2

def outPlane (g : Geom) : Int := g.out 0 * g.out 1 * g.out 2

/-! ## Max pooling -/

/-- `min_or_neg_inf`: the one scalar that no other number is below. -/
class MinOrNegInf (α : Type u) {V : outParam (Type v)} [LinearOrder V] [Scalar α V] where
  minOrNegInf : α
  eq_of_not_gt : ∀ a : α, Scalar.gt a minOrNegInf = false → Scalar.isNaN a = false → a = minOrNegInf

export MinOrNegInf (minOrNegInf)

/-- Numbers with a least one, and one that is none. -/
instance {V : Type v} [LinearOrder V] [OrderBot V] : MinOrNegInf (Option V) where
  minOrNegInf := some ⊥
  eq_of_not_gt := by
    rintro (_ | a) hgt hnan
    · exact nomatch hnan
    · have hle : ¬⊥ < a := of_decide_eq_false hgt
      rw [not_bot_lt_iff.mp hle]

/-- The window of either form. -/
def window (adaptive : Bool) (g : Geom) (dim : Fin 3) (o : Int) : Int × Int :=
  if adaptive then adaptiveWindow g dim o else maxWindow g dim o

/-- `step_d`, `step_h`, `step_w` -/
def step (adaptive : Bool) (g : Geom) (dim : Fin 3) : Int := if adaptive then 1 else g.dil dim

/-- The positions that the loop of one dim visits. -/
def taps (adaptive : Bool) (g : Geom) (dim : Fin 3) (o : Int) : List Int :=
  let w := window adaptive g dim o
  stepping w.2 (step adaptive g dim) (w.2 - w.1).toNat w.1

/-- The positions in the plane that the three loops visit, in order. -/
def visited (adaptive : Bool) (g : Geom) (od oh ow : Int) : List Int :=
  (taps adaptive g 0 od).flatMap fun d => (taps adaptive g 1 oh).flatMap fun h =>
    (taps adaptive g 2 ow).map fun w => (d * g.in_ 1 + h) * g.in_ 2 + w

/-- The body of the loops: `best` and `best_idx`. -/
def visit {α : Type u} {V : Type v} [LinearOrder V] [Scalar α V] (input : Int → α) (base : Int)
    (acc : α × Int) (position : Int) : α × Int :=
  let v := input (base + position)
  if Scalar.gt v acc.1 || Scalar.isNaN v then (v, position) else acc

/-- `_max_pool`: the output and the saved index of the element `i`. -/
def maxPool {α : Type u} {V : Type v} [LinearOrder V] [Scalar α V] [MinOrNegInf α]
    (adaptive : Bool) (g : Geom) (input : Int → α) (i : Int) : α × Int :=
  let o := splitOut g i
  let wd := window adaptive g 0 o.2.1
  let wh := window adaptive g 1 o.2.2.1
  let ww := window adaptive g 2 o.2.2.2
  let base := o.1 * inPlane g
  let bestIdx := (wd.1 * g.in_ 1 + wh.1) * g.in_ 2 + ww.1
  (visited adaptive g o.2.1 o.2.2.1 o.2.2.2).foldl (visit input base) (minOrNegInf, bestIdx)

/-- `_max_pool_backward`: the gather. -/
def maxPoolBackward {M : Type u} [AddCommMonoid M] (g : Geom) (gout : Int → M) (idx : Int → Int)
    (i : Int) : M :=
  let x := splitIn g i
  let rd := maxOutRange g 0 x.2.1
  let rh := maxOutRange g 1 x.2.2.1
  let rw_ := maxOutRange g 2 x.2.2.2
  let me := (x.2.1 * g.in_ 1 + x.2.2.1) * g.in_ 2 + x.2.2.2
  let base := x.1 * outPlane g
  ∑ od ∈ Finset.Ico rd.1 rd.2, ∑ oh ∈ Finset.Ico rh.1 rh.2, ∑ ow ∈ Finset.Ico rw_.1 rw_.2,
    let row := base + (od * g.out 1 + oh) * g.out 2
    if idx (row + ow) = me then gout (row + ow) else 0

def scatterBlock : Nat := 256

/-- `_max_pool_scatter`: the atomic additions to the zeroed gradient. -/
def maxPoolScatter {M : Type u} (count outPlane inPlane : Int) (gout : Int → M)
    (idx : Int → Int) : List (Int × Update M) :=
  let blocks := min ((count + scatterBlock - 1) / scatterBlock) 65535
  (gridItems (blocks.toNat * scatterBlock) count.toNat).filterMap fun i : Nat =>
    let target := idx i
    if target ≥ 0 ∧ target < inPlane then
      some (i / outPlane * inPlane + target, .add (gout i))
    else none

/-! ## Average pooling -/

/-- `_avg_divisor` -/
def avgDivisor (g : Geom) (wd wh ww : Int × Int × Int) : Int :=
  if g.divisorOverride ≠ 0 then g.divisorOverride
  else if g.countIncludePad then wd.2.2 * wh.2.2 * ww.2.2
  else (wd.2.1 - wd.1) * (wh.2.1 - wh.1) * (ww.2.1 - ww.1)

section
variable {K : Type u} [Field K]

/-- `_adaptive_scale` -/
def adaptiveScale (v : K) (g : Geom) (kd kh kw : Int) : K :=
  if g.three then v / ((kd * kh * kw : Int) : K) else v / (kh : K) / (kw : K)

/-- `_avg_pool` -/
def avgPool (adaptive : Bool) (g : Geom) (input : Int → K) (i : Int) : K :=
  let o := splitOut g i
  let base := o.1 * inPlane g
  let total := fun (wd wh ww : Int × Int) =>
    ∑ d ∈ Finset.Ico wd.1 wd.2, ∑ h ∈ Finset.Ico wh.1 wh.2, ∑ w ∈ Finset.Ico ww.1 ww.2,
      let row := base + (d * g.in_ 1 + h) * g.in_ 2
      input (row + w)
  if adaptive then
    let wd := adaptiveWindow g 0 o.2.1
    let wh := adaptiveWindow g 1 o.2.2.1
    let ww := adaptiveWindow g 2 o.2.2.2
    adaptiveScale (total wd wh ww) g (wd.2 - wd.1) (wh.2 - wh.1) (ww.2 - ww.1)
  else
    let wd := avgWindow g 0 o.2.1
    let wh := avgWindow g 1 o.2.2.1
    let ww := avgWindow g 2 o.2.2.2
    if wd.1 ≥ wd.2.1 ∨ wh.1 ≥ wh.2.1 ∨ ww.1 ≥ ww.2.1 then 0
    else
      total (wd.1, wd.2.1) (wh.1, wh.2.1) (ww.1, ww.2.1) / (avgDivisor g wd wh ww : K)

/-- `stride1`: the shortcut of the 3-D form. -/
def stride1 (g : Geom) : Prop :=
  g.s 0 = 1 ∧ g.s 1 = 1 ∧ g.s 2 = 1 ∧ g.p 0 = 0 ∧ g.p 1 = 0 ∧ g.p 2 = 0

instance (g : Geom) : Decidable (stride1 g) := by
  unfold stride1
  exact inferInstance

/-- `divisible` -/
def divisible (g : Geom) : Prop :=
  g.in_ 0 % g.out 0 = 0 ∧ g.in_ 1 % g.out 1 = 0 ∧ g.in_ 2 % g.out 2 = 0

instance (g : Geom) : Decidable (divisible g) := by
  unfold divisible
  exact inferInstance

/-- What an output of the adaptive form passes back to each element of its window. -/
def adaptiveDelta (g : Geom) (v : K) (od oh ow : Int) : K :=
  let ad := adaptiveWindow g 0 od
  let ah := adaptiveWindow g 1 oh
  let aw := adaptiveWindow g 2 ow
  let kt := ad.2 - ad.1
  let kh := ah.2 - ah.1
  let kw := aw.2 - aw.1
  if g.three = false then v / (kw : K) / (kh : K)
  else if ¬divisible g then v / (kt : K) / (kh : K) / (kw : K)
  else v / ((kt * kh * kw : Int) : K)

/-- What an output of the padded form passes back, before the factor of the shortcut. -/
def avgDelta (g : Geom) (v : K) (od oh ow : Int) : K :=
  let wd := avgWindow g 0 od
  let wh := avgWindow g 1 oh
  let ww := avgWindow g 2 ow
  if wd.1 ≥ wd.2.1 ∨ wh.1 ≥ wh.2.1 ∨ ww.1 ≥ ww.2.1 then 0
  else
    let div := avgDivisor g wd wh ww
    if g.three = true ∧ stride1 g then v else v / (div : K)

/-- `_avg_pool_backward` -/
def avgPoolBackward (adaptive : Bool) (g : Geom) (gout : Int → K) (i : Int) : K :=
  let x := splitIn g i
  let base := x.1 * outPlane g
  let total := fun (rd rh rw_ : Int × Int) (delta : K → Int → Int → Int → K) =>
    ∑ od ∈ Finset.Ico rd.1 rd.2, ∑ oh ∈ Finset.Ico rh.1 rh.2, ∑ ow ∈ Finset.Ico rw_.1 rw_.2,
      let row := base + (od * g.out 1 + oh) * g.out 2
      delta (gout (row + ow)) od oh ow
  if adaptive then
    total (adaptiveOutRange g 0 x.2.1) (adaptiveOutRange g 1 x.2.2.1)
      (adaptiveOutRange g 2 x.2.2.2) (adaptiveDelta g)
  else
    let sum := total (avgOutRange g 0 x.2.1) (avgOutRange g 1 x.2.2.1) (avgOutRange g 2 x.2.2.2)
      (avgDelta g)
    if g.three = true ∧ stride1 g then
      let div := if g.divisorOverride ≠ 0 then g.divisorOverride else g.k 0 * g.k 1 * g.k 2
      sum * (1 / (div : K))
    else sum

end

/-! ## im2col and col2im -/

/-- The slots of im2col and col2im. -/
structure Fold where
  channels : Int
  inH : Int
  inW : Int
  outH : Int
  outW : Int
  kh : Int
  kw : Int
  sh : Int
  sw : Int
  ph : Int
  pw : Int
  dh : Int
  dw : Int
  batch : Int

section
variable {M : Type u} [AddCommMonoid M]

/-- `_im2col` -/
def im2col (f : Fold) (input : Int → M) (i : Int) : M :=
  let cols := f.outH * f.outW
  let j := i % cols
  let r := i / cols % (f.channels * f.kh * f.kw)
  let s := i / (cols * f.channels * f.kh * f.kw)
  let fw := r % f.kw
  let fh := r / f.kw % f.kh
  let c := r / (f.kw * f.kh)
  let ih := j / f.outW * f.sh - f.ph + fh * f.dh
  let iw := j % f.outW * f.sw - f.pw + fw * f.dw
  if ih < 0 ∨ ih ≥ f.inH ∨ iw < 0 ∨ iw ≥ f.inW then 0
  else input (((s * f.channels + c) * f.inH + ih) * f.inW + iw)

/-- The output columns that `_col2im` visits along one dim. -/
def colRange (im ext stride out : Int) : Int × Int :=
  (if im < ext then 0 else (im - ext) / stride + 1, min (im / stride + 1) out)

/-- `_col2im` -/
def col2im (f : Fold) (input : Int → M) (i : Int) : M :=
  let wIm := i % f.inW + f.pw
  let hIm := i / f.inW % f.inH + f.ph
  let cIm := i / (f.inW * f.inH)
  let extW := (f.kw - 1) * f.dw + 1
  let extH := (f.kh - 1) * f.dh + 1
  let rw_ := colRange wIm extW f.sw f.outW
  let rh := colRange hIm extH f.sh f.outH
  ∑ hCol ∈ Finset.Ico rh.1 rh.2,
    let hk := hIm - hCol * f.sh
    if hk % f.dh ≠ 0 then 0
    else ∑ wCol ∈ Finset.Ico rw_.1 rw_.2,
      let wk := wIm - wCol * f.sw
      if wk % f.dw ≠ 0 then 0
      else
        input ((((cIm * f.kh + hk / f.dh) * f.kw + wk / f.dw) * f.outH + hCol) * f.outW + wCol)

end

end TorchMojoBackend.Kernels.Pool
