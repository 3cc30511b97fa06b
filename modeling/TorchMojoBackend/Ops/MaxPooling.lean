/-
  `Ops.MaxPooling`: when max pooling saves positions of its windows and conserves gradient.

  A geometry is accepted by the checks of a dilated or of an adaptive operation.  Every
  window meets the input just if, in every dim, each window that starts in the padding
  steps by the dilation to a position inside the input.
-/
import TorchMojoBackend.Kernels.PoolMax
import TorchMojoBackend.Ops.PoolingChecks

set_option autoImplicit false

namespace TorchMojoBackend.Ops.Pooling

open TorchMojoBackend.Foundation
open TorchMojoBackend.Kernels.Pool

attribute [local instance] intOrder neZero_three

/-- The geometries that max pooling launches with, of the dilated (`false`) and of the
adaptive form. -/
inductive MaxPoolAccepts : Bool → Geom → Prop
  | window {three : Bool} {x : List Nat} {kernel stride padding dilation : List Int}
      {ceilMode : Bool} {w : Window} {outs : Fin 3 → Int}
      (parse : maxWindowArgs three kernel stride padding dilation ceilMode = .ok w)
      (check : maxPoolCheck three x w (maxPoolName three) = .ok outs) :
      MaxPoolAccepts false (windowGeom three x outs w false 0)
  | adaptive {three : Bool} {x : List Nat} {l : List Int} {name : String} {outs : Fin 3 → Int}
      (check : adaptiveSize three x l name true = .ok outs) (pos : ∀ dim, 1 ≤ outs dim) :
      MaxPoolAccepts true (adaptiveGeom three x outs)

theorem MaxPoolAccepts.sized {adaptive : Bool} {g : Geom} (h : MaxPoolAccepts adaptive g) :
    g.Sized := by
  cases h with
  | window parse check =>
      obtain ⟨houts, hshape⟩ := maxPoolCheck_ok check
      exact (windowGeom_windowed parse houts hshape false 0).toSized
  | adaptive check pos => exact adaptiveGeom_sized check pos

theorem MaxPoolAccepts.windowed {adaptive : Bool} {g : Geom} (h : MaxPoolAccepts adaptive g)
    (hadaptive : adaptive = false) : g.Windowed := by
  cases h with
  | window parse check =>
      obtain ⟨houts, hshape⟩ := maxPoolCheck_ok check
      exact windowGeom_windowed parse houts hshape false 0
  | adaptive check pos => exact nomatch hadaptive

/-- The saved indices of a forward. -/
def savedIndices {α V : Type} [LinearOrder V] [Scalar α V] [MinOrNegInf α] (adaptive : Bool)
    (g : Geom) (input : Int → α) (i : Int) : Int := (maxPool adaptive g input i).2

/-- Max pooling and its backwards on a geometry. -/
structure MaxPoolSound (adaptive : Bool) (g : Geom) : Prop where
  /-- The loop of a dim visits the window, each position once. -/
  taps_window : ∀ dim o, 0 ≤ o → o < g.out dim → (taps adaptive g dim o).Nodup ∧
    ∀ x, x ∈ taps adaptive g dim o ↔ InWindow adaptive g dim o x
  taps_nonempty : ∀ dim o, 0 ≤ o → o < g.out dim → taps adaptive g dim o ≠ []
  /-- A saved index is a position of the window, in the plane, that holds the output. -/
  saved : ∀ {α V : Type} [LinearOrder V] [Scalar α V] [MinOrNegInf α] (input : Int → α),
    ∀ i ∈ Finset.Ico 0 (g.planes * outPlane g),
      ∃ x, InBox adaptive g (splitOut g i).2 x ∧
        savedIndices adaptive g input i = cellIndex g.in_ x ∧
        savedIndices adaptive g input i ∈ Finset.Ico 0 (inPlane g) ∧
        input ((splitOut g i).1 * inPlane g + savedIndices adaptive g input i) =
          (maxPool adaptive g input i).1
  gather : adaptive = false → ∀ {α V M : Type} [LinearOrder V] [Scalar α V] [MinOrNegInf α]
    [AddCommMonoid M] (input : Int → α) (gout : Int → M),
    ∀ j ∈ Finset.Ico 0 (g.planes * inPlane g),
      maxPoolBackward g gout (savedIndices adaptive g input) j =
        ∑ i ∈ savers g (savedIndices adaptive g input) j, gout i
  scatter : ∀ {α V M : Type} [LinearOrder V] [Scalar α V] [MinOrNegInf α]
    [AddCommMonoid M] (input : Int → α) (gout gin : Int → M),
    Updates (maxPoolScatter (g.planes * outPlane g) (outPlane g) (inPlane g) gout
      (savedIndices adaptive g input)) (fun _ => 0) gin →
    ∀ j ∈ Finset.Ico 0 (g.planes * inPlane g),
      gin j = ∑ i ∈ savers g (savedIndices adaptive g input) j, gout i
  /-- What a plane is given is what its outputs have. -/
  total : ∀ {α V M : Type} [LinearOrder V] [Scalar α V] [MinOrNegInf α]
    [AddCommMonoid M] (input : Int → α) (gout : Int → M), ∀ p ∈ Finset.Ico 0 g.planes,
    ∑ r ∈ Finset.Ico 0 (inPlane g),
        ∑ i ∈ savers g (savedIndices adaptive g input) (p * inPlane g + r), gout i =
      ∑ r ∈ Finset.Ico 0 (outPlane g), gout (p * outPlane g + r)

/-- Each window that starts in the padding steps to a position inside the input. -/
def PaddingStepsInside (g : Geom) : Prop :=
  ∀ dim o, 0 ≤ o → o < g.out dim → o * g.s dim < g.p dim →
    (o * g.s dim - g.p dim) % g.dil dim < g.in_ dim

/-- A sum over the cells of one plane. -/
theorem sum_cells {M : Type} [AddCommMonoid M] {e : Fin 3 → Int} (he : ∀ dim, 0 < e dim) (p : Int)
    (f : Int → M) : ∑ r ∈ Finset.Ico 0 (e 0 * e 1 * e 2), f (p * (e 0 * e 1 * e 2) + r) =
      ∑ x ∈ volume e, f (volumeIndex e p x) := by
  have hsum := sum_volumes (fun dim => (he dim).le) 1 fun r => f (p * (e 0 * e 1 * e 2) + r)
  rw [Int.one_mul] at hsum
  rw [hsum]
  refine (Finset.sum_singleton _ 0).trans (Finset.sum_congr rfl fun x _ => ?_)
  rw [volumeIndex_cell e p, cellIndex_eq]

section
variable {adaptive : Bool} {g : Geom}

theorem meets_iff (h : MaxPoolAccepts adaptive g) :
    Meets adaptive g ↔ PaddingStepsInside g := by
  have hs := h.sized
  cases h with
  | window parse check =>
      have hg := MaxPoolAccepts.windowed (.window parse check) rfl
      exact forall₄_congr fun dim o ho hout => exists_inMaxWindow_iff hg ho hout
  | @adaptive three x l name outs check pos =>
      refine iff_of_true (fun dim o _ _ =>
        ⟨(adaptiveWindow (adaptiveGeom three x outs) dim o).1, ?_⟩)
        fun dim o ho _ hlt => ?_
      · exact (inAdaptiveWindow_iff (hs.out_pos dim)).mpr
          ⟨Int.le_refl _, adaptiveWindow_lt (hs.in_pos dim) (hs.out_pos dim)⟩
      · change o * 1 < 0 at hlt
        omega

end

end TorchMojoBackend.Ops.Pooling
