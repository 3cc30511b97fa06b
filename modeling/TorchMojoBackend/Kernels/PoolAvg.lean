/-
  `Kernels.PoolAvg`: the average backwards are adjoint to the forwards.

  An output is the sum over its window times a factor of the output alone.  A backward adds
  up, over the outputs whose window holds the position, their gradients times their
  factors.  The two sums run over the same pairs.
-/
import Mathlib.Algebra.BigOperators.Ring.Finset
import Mathlib.Algebra.CharZero.Defs
import Mathlib.Algebra.Ring.Int.Field
import TorchMojoBackend.Kernels.PoolWindows

set_option autoImplicit false

namespace TorchMojoBackend.Kernels.Pool

open TorchMojoBackend.Foundation

attribute [local instance] intOrder neZero_three

universe u

/-- What the average checks establish: besides the window, no dilation, a divisor that is
not zero, and that windows without stride and padding are whole. -/
structure Geom.Averaged (g : Geom) : Prop extends g.Windowed where
  whole : ∀ dim, g.s dim = 1 → g.p dim = 0 → g.out dim - 1 + g.k dim ≤ g.in_ dim

/-- What the geometry of either form meets. -/
def Geom.AvgValid (adaptive : Bool) (g : Geom) : Prop := if adaptive then g.Sized else g.Averaged

/-- The window of an output along a dim. -/
def avgInterval (adaptive : Bool) (g : Geom) (dim : Fin 3) (o : Int) : Finset Int :=
  if adaptive then Finset.Ico (adaptiveWindow g dim o).1 (adaptiveWindow g dim o).2
  else Finset.Ico (avgWindow g dim o).1 (avgWindow g dim o).2.1

/-- The outputs that the backward visits along a dim. -/
def avgOutInterval (adaptive : Bool) (g : Geom) (dim : Fin 3) (x : Int) : Finset Int :=
  if adaptive then Finset.Ico (adaptiveOutRange g dim x).1 (adaptiveOutRange g dim x).2
  else Finset.Ico (avgOutRange g dim x).1 (avgOutRange g dim x).2

/-- The window of an output. -/
def avgBox (adaptive : Bool) (g : Geom) (o : Int × Int × Int) : Finset (Int × Int × Int) :=
  avgInterval adaptive g 0 o.1 ×ˢ avgInterval adaptive g 1 o.2.1 ×ˢ avgInterval adaptive g 2 o.2.2

/-- The outputs that the backward visits. -/
def avgOutBox (adaptive : Bool) (g : Geom) (x : Int × Int × Int) : Finset (Int × Int × Int) :=
  avgOutInterval adaptive g 0 x.1 ×ˢ avgOutInterval adaptive g 1 x.2.1 ×ˢ
    avgOutInterval adaptive g 2 x.2.2

/-- The divisor of the shortcut. -/
def shortcutDivisor (g : Geom) : Int :=
  if g.divisorOverride ≠ 0 then g.divisorOverride else g.k 0 * g.k 1 * g.k 2

/-- The divisor of an output of the padded form. -/
def divisorAt (g : Geom) (o : Int × Int × Int) : Int :=
  avgDivisor g (avgWindow g 0 o.1) (avgWindow g 1 o.2.1) (avgWindow g 2 o.2.2)

/-- The extent of an adaptive window. -/
def adaptiveExtent (g : Geom) (dim : Fin 3) (o : Int) : Int :=
  (adaptiveWindow g dim o).2 - (adaptiveWindow g dim o).1

variable {adaptive : Bool} {g : Geom} {dim : Fin 3}

theorem Geom.AvgValid.sized (h : g.AvgValid adaptive) : g.Sized := by
  cases adaptive with
  | false => exact Geom.Windowed.toSized (Geom.Averaged.toWindowed h)
  | true => exact h

/-! ## Pairs -/

/-- Along a dim, the backward visits the outputs whose window holds the position. -/
theorem mem_avgOutInterval (hg : g.AvgValid adaptive) {o x : Int} :
    ((0 ≤ o ∧ o < g.out dim) ∧ x ∈ avgInterval adaptive g dim o) ↔
      (o ∈ avgOutInterval adaptive g dim x ∧ 0 ≤ x ∧ x < g.in_ dim) := by
  have hs := hg.sized
  have hin := hs.in_pos dim
  have hout := hs.out_pos dim
  cases adaptive with
  | true =>
      unfold avgInterval avgOutInterval
      simp only [if_true, Finset.mem_Ico, mem_adaptiveWindow hout, mem_adaptiveOutRange hin]
      constructor
      · rintro ⟨⟨ho, hlt⟩, hlow, hhigh⟩
        exact ⟨⟨hhigh, hlow⟩, cell_bounds hin hout ho hlt hlow hhigh⟩
      · rintro ⟨⟨hhigh, hlow⟩, hx, hlt⟩
        exact ⟨cell_bounds hout hin hx hlt hhigh hlow, hlow, hhigh⟩
  | false =>
      have hw : g.Windowed := Geom.Averaged.toWindowed hg
      unfold avgInterval avgOutInterval
      simp only [Bool.false_eq_true, if_false, Finset.mem_Ico, mem_avgOutRange hw]
      constructor
      · rintro ⟨ho, hmem⟩
        have hx : 0 ≤ x ∧ x < g.in_ dim := by
          unfold avgWindow at hmem
          simp only [max_le_iff, lt_min_iff] at hmem
          omega
        exact ⟨⟨ho, (mem_avgWindow hw hx.1 hx.2).mp hmem⟩, hx⟩
      · rintro ⟨⟨ho, hmem⟩, hx, hlt⟩
        exact ⟨ho, (mem_avgWindow hw hx hlt).mpr hmem⟩

theorem mem_avgOutBox (hg : g.AvgValid adaptive) {o x : Int × Int × Int} :
    (o ∈ volume g.out ∧ x ∈ avgBox adaptive g o) ↔
      (o ∈ avgOutBox adaptive g x ∧ x ∈ volume g.in_) := by
  have hd := @mem_avgOutInterval adaptive g 0 hg o.1 x.1
  have hh := @mem_avgOutInterval adaptive g 1 hg o.2.1 x.2.1
  have hw := @mem_avgOutInterval adaptive g 2 hg o.2.2 x.2.2
  unfold avgBox avgOutBox
  rw [mem_volume, mem_volume, Finset.mem_product, Finset.mem_product, Finset.mem_product,
    Finset.mem_product]
  constructor
  · rintro ⟨⟨hod, hoh, how⟩, hxd, hxh, hxw⟩
    obtain ⟨hod, hxd⟩ := hd.mp ⟨hod, hxd⟩
    obtain ⟨hoh, hxh⟩ := hh.mp ⟨hoh, hxh⟩
    obtain ⟨how, hxw⟩ := hw.mp ⟨how, hxw⟩
    exact ⟨⟨hod, hoh, how⟩, hxd, hxh, hxw⟩
  · rintro ⟨⟨hod, hoh, how⟩, hxd, hxh, hxw⟩
    obtain ⟨hod, hxd⟩ := hd.mpr ⟨hod, hxd⟩
    obtain ⟨hoh, hxh⟩ := hh.mpr ⟨hoh, hxh⟩
    obtain ⟨how, hxw⟩ := hw.mpr ⟨how, hxw⟩
    exact ⟨⟨hod, hoh, how⟩, hxd, hxh, hxw⟩

/-! ## Divisors -/

/-- Every window of the padded form meets the input, so its extents are positive. -/
theorem divisorAt_ne_zero (hg : g.Windowed) {o : Int × Int × Int} (ho : o ∈ volume g.out) :
    divisorAt g o ≠ 0 := by
  obtain ⟨⟨hd, hdlt⟩, ⟨hh, hhlt⟩, hw, hwlt⟩ := mem_volume.mp ho
  have hin : ∀ {dim c}, 0 ≤ c → c < g.out dim → 0 < (avgWindow g dim c).2.1 - (avgWindow g dim c).1 :=
    fun hc hlt => Int.sub_pos_of_lt (avgWindow_lt hg hc hlt)
  have hpad : ∀ {dim c}, 0 ≤ c → c < g.out dim → 0 < (avgWindow g dim c).2.2 := by
    intro dim c hc hlt
    have hlt := avgWindow_lt hg hc hlt
    unfold avgWindow at hlt ⊢
    dsimp only at hlt ⊢
    omega
  unfold divisorAt avgDivisor
  split
  · rename_i hne
    exact hne
  · split
    · exact (Int.mul_pos (Int.mul_pos (hpad hd hdlt) (hpad hh hhlt)) (hpad hw hwlt)).ne'
    · exact (Int.mul_pos (Int.mul_pos (hin hd hdlt) (hin hh hhlt)) (hin hw hwlt)).ne'

/-- Without stride and padding all windows are whole. -/
theorem divisorAt_of_stride1 (hg : g.Averaged) (hstride : stride1 g) {o : Int × Int × Int}
    (ho : o ∈ volume g.out) : divisorAt g o = shortcutDivisor g := by
  obtain ⟨⟨hd, hdlt⟩, ⟨hh, hhlt⟩, hw, hwlt⟩ := mem_volume.mp ho
  have hwhole : ∀ {dim c}, g.s dim = 1 → g.p dim = 0 → 0 ≤ c → c < g.out dim →
      (avgWindow g dim c).2.1 - (avgWindow g dim c).1 = g.k dim ∧
        (avgWindow g dim c).2.2 = g.k dim := by
    intro dim c hs hp hc hlt
    have hle := hg.whole dim hs hp
    unfold avgWindow
    rw [hs, hp]
    dsimp only
    omega
  obtain ⟨hs0, hs1, hs2, hp0, hp1, hp2⟩ := hstride
  unfold divisorAt avgDivisor shortcutDivisor
  rw [(hwhole hs0 hp0 hd hdlt).1, (hwhole hs0 hp0 hd hdlt).2, (hwhole hs1 hp1 hh hhlt).1,
    (hwhole hs1 hp1 hh hhlt).2, (hwhole hs2 hp2 hw hwlt).1, (hwhole hs2 hp2 hw hwlt).2, ite_self]

theorem shortcutDivisor_ne_zero (hg : g.Windowed) : shortcutDivisor g ≠ 0 := by
  unfold shortcutDivisor
  split
  · rename_i hne
    exact hne
  · exact (Int.mul_pos (Int.mul_pos (hg.k_pos 0) (hg.k_pos 1)) (hg.k_pos 2)).ne'

theorem adaptiveExtent_pos (hg : g.Sized) (dim : Fin 3) (o : Int) : 0 < adaptiveExtent g dim o :=
  Int.sub_pos_of_lt (adaptiveWindow_lt (hg.in_pos dim) (hg.out_pos dim))

/-! ## Factors -/

section
variable {K : Type u} [Field K]

/-- The factor of an output. -/
def avgFactor (K : Type u) [Field K] (adaptive : Bool) (g : Geom) (o : Int × Int × Int) : K :=
  if adaptive then
    if g.three then
      1 / ((adaptiveExtent g 0 o.1 * adaptiveExtent g 1 o.2.1 * adaptiveExtent g 2 o.2.2 : Int) : K)
    else 1 / (adaptiveExtent g 1 o.2.1 : K) / (adaptiveExtent g 2 o.2.2 : K)
  else 1 / (divisorAt g o : K)

variable {p : Int}

theorem avgPool_eq (hg : g.AvgValid adaptive) (input : Int → K) {o : Int × Int × Int}
    (ho : o ∈ volume g.out) : avgPool adaptive g input (volumeIndex g.out p o) =
      ∑ x ∈ avgBox adaptive g o, avgFactor K adaptive g o * input (volumeIndex g.in_ p x) := by
  have hsplit : splitOut g (volumeIndex g.out p o) = (p, o) := volumeSplit_index ho
  rw [← Finset.mul_sum]
  unfold avgPool
  rw [hsplit]
  cases adaptive with
  | true =>
      simp only [if_true, sum_box]
      unfold adaptiveScale avgFactor avgBox avgInterval
      simp only [if_true]
      split
      · rw [one_div_mul_eq_div]
        rfl
      · rw [div_div, div_div, one_div_mul_eq_div]
        rfl
  | false =>
      have hw : g.Windowed := Geom.Averaged.toWindowed hg
      obtain ⟨⟨hd, hdlt⟩, ⟨hh, hhlt⟩, hw', hwlt⟩ := mem_volume.mp ho
      have hd := avgWindow_lt hw hd hdlt
      have hh := avgWindow_lt hw hh hhlt
      have hw := avgWindow_lt hw hw' hwlt
      simp only [Bool.false_eq_true, if_false, sum_box]
      rw [if_neg (by omega)]
      unfold avgFactor avgBox avgInterval divisorAt
      simp only [Bool.false_eq_true, if_false]
      rw [one_div_mul_eq_div]
      rfl

theorem adaptiveDelta_eq (v : K) (o : Int × Int × Int) :
    adaptiveDelta g v o.1 o.2.1 o.2.2 = avgFactor K true g o * v := by
  unfold adaptiveDelta avgFactor adaptiveExtent
  simp only [if_true]
  cases g.three with
  | false =>
      simp only [if_true, Bool.false_eq_true, if_false]
      rw [div_div, div_div, one_div_mul_eq_div, mul_comm]
  | true =>
      simp only [Bool.true_eq_false, if_false, if_true]
      rw [one_div_mul_eq_div, div_div, div_div, Int.cast_mul, Int.cast_mul, mul_assoc, ite_self]

/-- What an output of the padded form passes back: no window is empty. -/
theorem avgDelta_whole (hg : g.Windowed) (v : K) {o : Int × Int × Int} (ho : o ∈ volume g.out) :
    avgDelta g v o.1 o.2.1 o.2.2 =
      if g.three = true ∧ stride1 g then v else v / (divisorAt g o : K) := by
  obtain ⟨⟨hd, hdlt⟩, ⟨hh, hhlt⟩, hw, hwlt⟩ := mem_volume.mp ho
  have hd := avgWindow_lt hg hd hdlt
  have hh := avgWindow_lt hg hh hhlt
  have hw := avgWindow_lt hg hw hwlt
  unfold avgDelta
  exact if_neg (by omega)

theorem avgPoolBackward_eq (hg : g.AvgValid adaptive) (gout : Int → K) {x : Int × Int × Int}
    (hx : x ∈ volume g.in_) : avgPoolBackward adaptive g gout (volumeIndex g.in_ p x) =
      ∑ o ∈ avgOutBox adaptive g x, avgFactor K adaptive g o * gout (volumeIndex g.out p o) := by
  have hsplit : splitIn g (volumeIndex g.in_ p x) = (p, x) := volumeSplit_index hx
  unfold avgPoolBackward
  rw [hsplit]
  cases adaptive with
  | true =>
      simp only [if_true, sum_box]
      exact Finset.sum_congr rfl fun o _ => adaptiveDelta_eq _ o
  | false =>
      have hmem : ∀ o ∈ avgOutBox false g x, o ∈ volume g.out := fun o ho =>
        ((mem_avgOutBox hg).mpr ⟨ho, hx⟩).1
      have hdelta : ∀ o ∈ avgOutBox false g x, ∀ v : K, avgDelta g v o.1 o.2.1 o.2.2 =
          if g.three = true ∧ stride1 g then v else v / (divisorAt g o : K) :=
        fun o ho v => avgDelta_whole (Geom.Averaged.toWindowed hg) v (hmem o ho)
      have hbox : avgOutBox false g x = Finset.Ico (avgOutRange g 0 x.1).1 (avgOutRange g 0 x.1).2 ×ˢ
          Finset.Ico (avgOutRange g 1 x.2.1).1 (avgOutRange g 1 x.2.1).2 ×ˢ
            Finset.Ico (avgOutRange g 2 x.2.2).1 (avgOutRange g 2 x.2.2).2 := rfl
      simp only [Bool.false_eq_true, if_false, sum_box]
      rw [← hbox]
      unfold avgFactor
      by_cases hshort : g.three = true ∧ stride1 g
      · rw [if_pos hshort, Finset.sum_mul]
        refine Finset.sum_congr rfl fun o ho => ?_
        rw [hdelta o ho, if_pos hshort, if_neg Bool.false_ne_true,
          divisorAt_of_stride1 hg hshort.2 (hmem o ho), mul_comm]
        rfl
      · rw [if_neg hshort]
        refine Finset.sum_congr rfl fun o ho => ?_
        rw [hdelta o ho, if_neg hshort, if_neg Bool.false_ne_true, one_div_mul_eq_div]
        rfl

/-- The backward is adjoint to the forward. -/
theorem avgPool_adjoint (hg : g.AvgValid adaptive) (input gout : Int → K) :
    ∑ i ∈ Finset.Ico 0 (g.planes * outPlane g), gout i * avgPool adaptive g input i =
      ∑ j ∈ Finset.Ico 0 (g.planes * inPlane g), avgPoolBackward adaptive g gout j * input j := by
  have hs := hg.sized
  unfold outPlane inPlane
  rw [sum_volumes (fun dim => (hs.out_pos dim).le), sum_volumes fun dim => (hs.in_pos dim).le]
  refine Finset.sum_congr rfl fun p _ => ?_
  calc ∑ o ∈ volume g.out, gout (volumeIndex g.out p o) *
        avgPool adaptive g input (volumeIndex g.out p o)
    _ = ∑ o ∈ volume g.out, ∑ x ∈ avgBox adaptive g o, gout (volumeIndex g.out p o) *
          (avgFactor K adaptive g o * input (volumeIndex g.in_ p x)) :=
        Finset.sum_congr rfl fun o ho => by rw [avgPool_eq hg input ho, Finset.mul_sum]
    _ = ∑ x ∈ volume g.in_, ∑ o ∈ avgOutBox adaptive g x, gout (volumeIndex g.out p o) *
          (avgFactor K adaptive g o * input (volumeIndex g.in_ p x)) :=
        Finset.sum_comm' fun _ _ => mem_avgOutBox hg
    _ = _ := Finset.sum_congr rfl fun x hx => by
        rw [avgPoolBackward_eq hg gout hx, Finset.sum_mul]
        exact Finset.sum_congr rfl fun o _ => by ring

end

end TorchMojoBackend.Kernels.Pool
