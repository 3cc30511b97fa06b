/-
  `Ops.AveragePooling`: the backwards of average pooling and of folding are adjoints.

  A geometry is accepted by the checks of a padded or of an adaptive average.  The checks
  leave no window empty and no divisor zero.
-/
import TorchMojoBackend.Kernels.PoolAvg
import TorchMojoBackend.Kernels.PoolFold
import TorchMojoBackend.Ops.PoolingChecks

set_option autoImplicit false

namespace TorchMojoBackend.Ops.Pooling

open TorchMojoBackend.Foundation
open TorchMojoBackend.Kernels.Pool

attribute [local instance] intOrder neZero_three

universe u

/-- The geometries that average pooling launches with, of the padded (`false`) and of the
adaptive form. -/
inductive AvgPoolAccepts : Bool → Geom → Prop
  | window {three : Bool} {x : List Nat} {kernel stride padding : List Int}
      {ceilMode : Bool} {countIncludePad : Bool} {divisor : Option Int} {w : Window}
      {outs : Fin 3 → Int} (parse : avgWindowArgs three kernel stride padding ceilMode = .ok w)
      (check : avgCheck three x w divisor = .ok outs) :
      AvgPoolAccepts false (windowGeom three x outs w countIncludePad (divisor.getD 0))
  | adaptive {three : Bool} {x : List Nat} {l : List Int} {name : String} {outs : Fin 3 → Int}
      (check : adaptiveSize three x l name false = .ok outs) (pos : ∀ dim, 1 ≤ outs dim) :
      AvgPoolAccepts true (adaptiveGeom three x outs)

theorem AvgPoolAccepts.valid {adaptive : Bool} {g : Geom} (h : AvgPoolAccepts adaptive g) :
    g.AvgValid adaptive := by
  cases h with
  | adaptive check pos => exact adaptiveGeom_sized check pos
  | @window three x kernel stride padding ceilMode cip divisor w outs parse check =>
      obtain ⟨-, houts, hshape⟩ := avgCheck_ok check
      refine ⟨windowGeom_windowed parse houts hshape cip (divisor.getD 0), fun dim hs hp => ?_⟩
      obtain ⟨hsize, hunit⟩ := outSpatial_eq houts
      obtain ⟨hvalid, -, -⟩ := shapeCheck_ok hshape
      change w.s dim = 1 at hs
      change w.p dim = 0 at hp
      change outs dim - 1 + w.k dim ≤ inSpatial x three dim
      by_cases hmem : dim ∈ dims three
      · have hsize := hsize dim hmem
        rw [hs, hp, init_dilation parse] at hsize
        exact poolOutSize_whole hsize
      · have := inSpatial_pos hvalid dim
        rw [hunit dim hmem, (init_depth parse hmem).1]
        omega

/-- A backward and its forward are adjoint, visit the same pairs and never divide by zero. -/
structure AvgPoolAdjoint (K : Type u) [Field K] (adaptive : Bool) (g : Geom) : Prop where
  adjoint : ∀ input gout : Int → K,
    ∑ i ∈ Finset.Ico 0 (g.planes * outPlane g), gout i * avgPool adaptive g input i =
      ∑ j ∈ Finset.Ico 0 (g.planes * inPlane g), avgPoolBackward adaptive g gout j * input j
  /-- Along a dim, the backward visits the outputs whose window holds the position. -/
  visits : ∀ dim o x, ((0 ≤ o ∧ o < g.out dim) ∧ x ∈ avgInterval adaptive g dim o) ↔
    (o ∈ avgOutInterval adaptive g dim x ∧ 0 ≤ x ∧ x < g.in_ dim)
  extents_ne_zero : ∀ dim, g.in_ dim ≠ 0 ∧ g.out dim ≠ 0 ∧ g.s dim ≠ 0
  divisor_ne_zero : adaptive = false → ∀ o ∈ volume g.out, (divisorAt g o : K) ≠ 0
  shortcut_ne_zero : adaptive = false → (shortcutDivisor g : K) ≠ 0
  adaptive_ne_zero : adaptive = true → ∀ dim o, (adaptiveExtent g dim o : K) ≠ 0

/-- The same of folding. -/
structure FoldAdjoint (K : Type u) [Field K] (f : Fold) : Prop where
  adjoint : ∀ input grad : Int → K,
    ∑ i ∈ Finset.Ico 0 (f.batch * f.channels * f.kh * f.kw * f.outH * f.outW),
        grad i * im2col f input i =
      ∑ j ∈ Finset.Ico 0 (f.batch * f.channels * f.inH * f.inW), col2im f grad j * input j
  /-- Along the rows, col2im visits the places that hold the position under a tap. -/
  visits_rows : ∀ x o, ((colRange (x + f.ph) ((f.kh - 1) * f.dh + 1) f.sh f.outH).1 ≤ o ∧
      o < (colRange (x + f.ph) ((f.kh - 1) * f.dh + 1) f.sh f.outH).2) ∧
      (x + f.ph - o * f.sh) % f.dh = 0 ↔
    (0 ≤ o ∧ o < f.outH) ∧ ∃ j, (0 ≤ j ∧ j < f.kh) ∧ x = o * f.sh - f.ph + j * f.dh
  /-- The same along the columns. -/
  visits_cols : ∀ x o, ((colRange (x + f.pw) ((f.kw - 1) * f.dw + 1) f.sw f.outW).1 ≤ o ∧
      o < (colRange (x + f.pw) ((f.kw - 1) * f.dw + 1) f.sw f.outW).2) ∧
      (x + f.pw - o * f.sw) % f.dw = 0 ↔
    (0 ≤ o ∧ o < f.outW) ∧ ∃ j, (0 ≤ j ∧ j < f.kw) ∧ x = o * f.sw - f.pw + j * f.dw
  /-- What im2col divides by, where it runs. -/
  im2col_ne_zero : ∀ i ∈ Finset.Ico 0 (f.batch * f.channels * f.kh * f.kw * f.outH * f.outW),
    f.outH * f.outW ≠ 0 ∧ f.channels * f.kh * f.kw ≠ 0 ∧
      f.outH * f.outW * f.channels * f.kh * f.kw ≠ 0 ∧ f.kh ≠ 0 ∧ f.kw ≠ 0 ∧
      f.kw * f.kh ≠ 0 ∧ f.outW ≠ 0
  /-- What col2im divides by, where it runs. -/
  col2im_ne_zero : ∀ j ∈ Finset.Ico 0 (f.batch * f.channels * f.inH * f.inW),
    f.inW ≠ 0 ∧ f.inH ≠ 0 ∧ f.inW * f.inH ≠ 0 ∧ f.sh ≠ 0 ∧ f.sw ≠ 0 ∧ f.dh ≠ 0 ∧ f.dw ≠ 0

section
variable {K : Type u} [Field K] [CharZero K]

theorem AvgPoolAccepts.adjoint {adaptive : Bool} {g : Geom} (h : AvgPoolAccepts adaptive g) :
    AvgPoolAdjoint K adaptive g := by
  have hg := h.valid
  have hs := hg.sized
  refine ⟨avgPool_adjoint hg, fun dim o x => mem_avgOutInterval hg, fun dim => ?_, ?_, ?_, ?_⟩
  · refine ⟨(hs.in_pos dim).ne', (hs.out_pos dim).ne', ?_⟩
    cases h with
    | window parse check => exact (hg.s_pos dim).ne'
    | adaptive check pos => exact one_ne_zero
  · rintro rfl o ho
    exact Int.cast_ne_zero.mpr (divisorAt_ne_zero (Geom.Averaged.toWindowed hg) ho)
  · rintro rfl
    exact Int.cast_ne_zero.mpr (shortcutDivisor_ne_zero (Geom.Averaged.toWindowed hg))
  · rintro rfl dim o
    exact Int.cast_ne_zero.mpr (adaptiveExtent_pos hs dim o).ne'

omit [CharZero K] in
theorem foldAdjoint {f : Fold} (hf : f.Valid) : FoldAdjoint K f := by
  refine ⟨fold_adjoint hf, fun x o => mem_colRange hf.sh hf.dh, fun x o => mem_colRange hf.sw hf.dw,
    fun i hi => ?_, fun j hj => ?_⟩
  · have hi := Finset.mem_Ico.mp hi
    have hne : f.batch * f.channels * f.kh * f.kw * f.outH * f.outW ≠ 0 := by omega
    simp only [ne_eq, mul_eq_zero, not_or] at hne ⊢
    tauto
  · have hj := Finset.mem_Ico.mp hj
    have hne : f.batch * f.channels * f.inH * f.inW ≠ 0 := by omega
    simp only [ne_eq, mul_eq_zero, not_or] at hne ⊢
    exact ⟨hne.2, hne.1.2, ⟨hne.2, hne.1.2⟩, hf.sh.ne', hf.sw.ne', hf.dh.ne', hf.dw.ne'⟩

end

end TorchMojoBackend.Ops.Pooling
