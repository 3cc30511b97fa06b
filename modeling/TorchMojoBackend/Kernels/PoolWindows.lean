/-
  `Kernels.PoolWindows`: the windows of an output and the outputs of a position, dim by dim.

  The window of an output is a set of positions: of the dilated form, the taps inside the
  input; of the average, the interval of the kernel inside the input; of the adaptive form,
  the cells that the output's share of the input meets.  Each range of outputs that a
  backward visits is the set of outputs whose window can hold the position.
-/
import TorchMojoBackend.Kernels.Pool

set_option autoImplicit false

namespace TorchMojoBackend.Kernels.Pool

open TorchMojoBackend.Foundation

/-! ## Geometries -/

/-- The extents of a tensor that a kernel runs on. -/
structure Geom.Sized (g : Geom) : Prop where
  planes : 0 ≤ g.planes
  in_pos : ∀ dim, 0 < g.in_ dim
  out_pos : ∀ dim, 0 < g.out dim

/-- What the checks establish of a window: the padding is at most half of the kernel, and
the last window starts inside the input. -/
structure Geom.Windowed (g : Geom) : Prop extends g.Sized where
  k_pos : ∀ dim, 0 < g.k dim
  s_pos : ∀ dim, 0 < g.s dim
  dil_pos : ∀ dim, 0 < g.dil dim
  p_nonneg : ∀ dim, 0 ≤ g.p dim
  p_le : ∀ dim, 2 * g.p dim ≤ g.k dim
  last : ∀ dim, (g.out dim - 1) * g.s dim - g.p dim < g.in_ dim

/-- The taps of a dilated window that lie in the input. -/
def InMaxWindow (g : Geom) (dim : Fin 3) (o x : Int) : Prop :=
  (∃ j, 0 ≤ j ∧ j < g.k dim ∧ x = o * g.s dim - g.p dim + j * g.dil dim) ∧
    0 ≤ x ∧ x < g.in_ dim

/-- The adaptive interval, from `floor(o * in / out)` to `ceil((o + 1) * in / out)`. -/
def InAdaptiveWindow (g : Geom) (dim : Fin 3) (o x : Int) : Prop :=
  o * g.in_ dim / g.out dim ≤ x ∧ x < -(-((o + 1) * g.in_ dim) / g.out dim)

/-- The window of either form of max pooling. -/
def InWindow (adaptive : Bool) (g : Geom) (dim : Fin 3) (o x : Int) : Prop :=
  if adaptive then InAdaptiveWindow g dim o x else InMaxWindow g dim o x

variable {g : Geom} {dim : Fin 3} {o x : Int}

/-! ## Adaptive windows -/

theorem startIndex_eq {a b c : Int} (hb : 0 < b) : startIndex a b c = a * c / b := by
  unfold startIndex
  have hsplit : a * c = a % b * c + a / b * c * b := by
    conv_lhs => rw [← Int.ediv_mul_add_emod a b]
    ring
  rw [hsplit, Int.add_mul_ediv_right _ _ (by omega), Int.add_comm]

theorem startIndex_le_iff {a b c x : Int} (hb : 0 < b) :
    startIndex a b c ≤ x ↔ a * c < (x + 1) * b := by
  rw [startIndex_eq hb, ← Int.lt_add_one_iff, Int.ediv_lt_iff_lt_mul hb]

theorem lt_endIndex_iff {a b c x : Int} (hb : 0 < b) :
    x < endIndex a b c ↔ x * b < (a + 1) * c := by
  unfold endIndex
  have hle : x ≤ ((a + 1) * c - 1) / b ↔ x * b ≤ (a + 1) * c - 1 := Int.le_ediv_iff_mul_le hb
  omega

theorem endIndex_eq {a b c : Int} (hb : 0 < b) : endIndex a b c = -(-((a + 1) * c) / b) := by
  refine eq_of_forall_lt_iff fun x => ?_
  rw [lt_endIndex_iff hb, lt_neg, Int.ediv_lt_iff_lt_mul hb, Int.neg_mul, neg_lt_neg_iff]

/-- The cells that the share of an output meets. -/
theorem mem_adaptiveWindow (hout : 0 < g.out dim) :
    ((adaptiveWindow g dim o).1 ≤ x ∧ x < (adaptiveWindow g dim o).2) ↔
      o * g.in_ dim < (x + 1) * g.out dim ∧ x * g.out dim < (o + 1) * g.in_ dim :=
  and_congr (startIndex_le_iff hout) (lt_endIndex_iff hout)

theorem mem_adaptiveOutRange (hin : 0 < g.in_ dim) :
    ((adaptiveOutRange g dim x).1 ≤ o ∧ o < (adaptiveOutRange g dim x).2) ↔
      x * g.out dim < (o + 1) * g.in_ dim ∧ o * g.in_ dim < (x + 1) * g.out dim :=
  and_congr (startIndex_le_iff hin) (lt_endIndex_iff hin)

theorem inAdaptiveWindow_iff (hout : 0 < g.out dim) : InAdaptiveWindow g dim o x ↔
    (adaptiveWindow g dim o).1 ≤ x ∧ x < (adaptiveWindow g dim o).2 := by
  unfold InAdaptiveWindow adaptiveWindow
  rw [startIndex_eq hout, endIndex_eq hout]

/-- A cell that a share meets, of as many cells as there are shares of. -/
theorem cell_bounds {a b o x : Int} (ha : 0 < a) (hb : 0 < b) (ho : 0 ≤ o) (hob : o < b)
    (hlow : o * a < (x + 1) * b) (hhigh : x * b < (o + 1) * a) : 0 ≤ x ∧ x < a := by
  constructor
  · have hpos : 0 < (x + 1) * b := lt_of_le_of_lt (Int.mul_nonneg ho ha.le) hlow
    have := Int.pos_of_mul_pos_left hpos hb
    omega
  · have hle : (o + 1) * a ≤ b * a := Int.mul_le_mul_of_nonneg_right (by omega) ha.le
    rw [mul_comm b] at hle
    exact lt_of_mul_lt_mul_right (lt_of_lt_of_le hhigh hle) hb.le

/-- Every share meets a cell. -/
theorem adaptiveWindow_lt (hin : 0 < g.in_ dim) (hout : 0 < g.out dim) :
    (adaptiveWindow g dim o).1 < (adaptiveWindow g dim o).2 := by
  refine (lt_endIndex_iff hout).mpr ?_
  have hstart : (adaptiveWindow g dim o).1 = o * g.in_ dim / g.out dim := startIndex_eq hout
  rw [hstart]
  calc o * g.in_ dim / g.out dim * g.out dim ≤ o * g.in_ dim := Int.ediv_mul_le _ (by omega)
    _ < (o + 1) * g.in_ dim := by
      rw [Int.add_mul, Int.one_mul]
      omega

/-! ## Average windows -/

theorem mem_avgWindow (hg : g.Windowed) (hx : 0 ≤ x) (hlt : x < g.in_ dim) :
    ((avgWindow g dim o).1 ≤ x ∧ x < (avgWindow g dim o).2.1) ↔
      o * g.s dim ≤ x + g.p dim ∧ x + g.p dim < o * g.s dim + g.k dim := by
  have hp := hg.p_nonneg dim
  unfold avgWindow
  simp only [max_le_iff, lt_min_iff]
  omega

theorem mem_avgOutRange (hg : g.Windowed) :
    ((avgOutRange g dim x).1 ≤ o ∧ o < (avgOutRange g dim x).2) ↔
      (0 ≤ o ∧ o < g.out dim) ∧
        o * g.s dim ≤ x + g.p dim ∧ x + g.p dim < o * g.s dim + g.k dim := by
  have hs := hg.s_pos dim
  have hp := hg.p_nonneg dim
  have hk := hg.k_pos dim
  have hle : o ≤ (x + g.p dim) / g.s dim ↔ o * g.s dim ≤ x + g.p dim := Int.le_ediv_iff_mul_le hs
  have hgt : (x + g.p dim - g.k dim) / g.s dim < o ↔ x + g.p dim - g.k dim < o * g.s dim :=
    Int.ediv_lt_iff_lt_mul hs
  unfold avgOutRange
  simp only [lt_min_iff]
  by_cases hfirst : x + g.p dim < g.k dim
  · rw [if_pos hfirst]
    constructor
    · rintro ⟨ho, hlast, hout⟩
      have := Int.mul_nonneg ho hs.le
      exact ⟨⟨ho, hout⟩, hle.mp (by omega), by omega⟩
    · rintro ⟨⟨ho, hout⟩, hstart, -⟩
      have := hle.mpr hstart
      exact ⟨ho, by omega, hout⟩
  · rw [if_neg hfirst]
    have hq : 0 ≤ (x + g.p dim - g.k dim) / g.s dim := Int.ediv_nonneg (by omega) hs.le
    constructor
    · rintro ⟨ho, hlast, hout⟩
      have := hgt.mp (by omega)
      exact ⟨⟨by omega, hout⟩, hle.mp (by omega), by omega⟩
    · rintro ⟨⟨ho, hout⟩, hstart, hend⟩
      have := hle.mpr hstart
      have := hgt.mpr (by omega)
      exact ⟨by omega, by omega, hout⟩

/-- Every window meets the input: its start is before the end of the input, and it is longer
than the padding. -/
theorem avgWindow_lt (hg : g.Windowed) (ho : 0 ≤ o) (hout : o < g.out dim) :
    (avgWindow g dim o).1 < (avgWindow g dim o).2.1 := by
  have hs := hg.s_pos dim
  have hp := hg.p_nonneg dim
  have hk := hg.k_pos dim
  have hin := hg.in_pos dim
  have hle := hg.p_le dim
  have hlast := hg.last dim
  have hstart : 0 ≤ o * g.s dim := Int.mul_nonneg ho hs.le
  have hend : o * g.s dim ≤ (g.out dim - 1) * g.s dim :=
    Int.mul_le_mul_of_nonneg_right (by omega) hs.le
  unfold avgWindow
  simp only [max_lt_iff, lt_min_iff]
  omega

/-! ## Dilated windows -/

theorem maxWindow_start (hg : g.Windowed) : (maxWindow g dim o).1 =
    if o * g.s dim < g.p dim then (o * g.s dim - g.p dim) % g.dil dim
    else o * g.s dim - g.p dim := by
  unfold maxWindow
  dsimp only
  split
  · exact pastZero_of_neg (hg.dil_pos dim) (by omega) (Int.self_le_toNat _)
  · exact pastZero_of_nonneg (by omega)

/-- The multiples of the dilation before the end of the kernel. -/
theorem exists_tap_iff (hg : g.Windowed) : (∃ j, 0 ≤ j ∧ j < g.k dim ∧
    x = o * g.s dim - g.p dim + j * g.dil dim) ↔
      o * g.s dim - g.p dim ≤ x ∧
        x < o * g.s dim - g.p dim + (g.k dim - 1) * g.dil dim + 1 ∧
        g.dil dim ∣ x - (o * g.s dim - g.p dim) := by
  have hdil := hg.dil_pos dim
  generalize o * g.s dim - g.p dim = s
  constructor
  · rintro ⟨j, hj, hlt, rfl⟩
    have hnonneg : 0 ≤ j * g.dil dim := Int.mul_nonneg hj hdil.le
    have hle : j * g.dil dim ≤ (g.k dim - 1) * g.dil dim :=
      Int.mul_le_mul_of_nonneg_right (by omega) hdil.le
    refine ⟨by omega, by omega, ?_⟩
    rw [add_sub_cancel_left]
    exact dvd_mul_left _ _
  · rintro ⟨hle, hlt, j, hj⟩
    rw [mul_comm] at hj
    refine ⟨j, ?_, ?_, by omega⟩
    · exact nonneg_of_mul_nonneg_left (by omega) hdil
    · have hlt : j * g.dil dim < g.k dim * g.dil dim := by
        rw [Int.sub_mul, Int.one_mul] at hlt
        omega
      exact lt_of_mul_lt_mul_right hlt hdil.le

/-- The loop of one dim visits the window. -/
theorem mem_taps_max (hg : g.Windowed) : x ∈ taps false g dim o ↔ InMaxWindow g dim o x := by
  have hdil := hg.dil_pos dim
  unfold InMaxWindow taps window step
  simp only [Bool.false_eq_true, if_false]
  rw [mem_stepping hdil (by omega), exists_tap_iff hg, maxWindow_start hg]
  have hend : x < (maxWindow g dim o).2 ↔
      x < o * g.s dim - g.p dim + (g.k dim - 1) * g.dil dim + 1 ∧ x < g.in_ dim := lt_min_iff
  rw [hend]
  split
  · rename_i hneg
    have hlow := Int.emod_nonneg (o * g.s dim - g.p dim) (by omega : g.dil dim ≠ 0)
    have hdvd : g.dil dim ∣ x - (o * g.s dim - g.p dim) % g.dil dim ↔
        g.dil dim ∣ x - (o * g.s dim - g.p dim) := by
      have hmul := Int.emod_add_mul_ediv (o * g.s dim - g.p dim) (g.dil dim)
      have hsum : x - (o * g.s dim - g.p dim) % g.dil dim =
          x - (o * g.s dim - g.p dim) +
            g.dil dim * ((o * g.s dim - g.p dim) / g.dil dim) := by omega
      rw [hsum]
      exact Int.dvd_add_left (dvd_mul_right _ _)
    rw [hdvd]
    constructor
    · rintro ⟨hle, ⟨hlt, hin⟩, hd⟩
      exact ⟨⟨by omega, hlt, hd⟩, by omega, hin⟩
    · rintro ⟨⟨-, hlt, hd⟩, hx, hin⟩
      refine ⟨?_, ⟨hlt, hin⟩, hd⟩
      -- the residue is the least number of its class from zero on
      have hmod : x % g.dil dim = (o * g.s dim - g.p dim) % g.dil dim :=
        Int.emod_eq_emod_iff_emod_sub_eq_zero.mpr (Int.emod_eq_zero_of_dvd hd)
      have hself := Int.emod_add_mul_ediv x (g.dil dim)
      have hquot := Int.mul_nonneg hdil.le (Int.ediv_nonneg hx hdil.le)
      omega
  · omega

/-- A window meets the input just if its first tap from zero on does. -/
theorem exists_inMaxWindow_iff (hg : g.Windowed) (ho : 0 ≤ o) (hout : o < g.out dim) :
    (∃ x, InMaxWindow g dim o x) ↔
      (o * g.s dim < g.p dim → (o * g.s dim - g.p dim) % g.dil dim < g.in_ dim) := by
  have hs := hg.s_pos dim
  have hdil := hg.dil_pos dim
  have hk := hg.k_pos dim
  have hp := hg.p_nonneg dim
  have hpk := hg.p_le dim
  have hstart : 0 ≤ o * g.s dim := Int.mul_nonneg ho hs.le
  constructor
  · rintro ⟨x, hx⟩ hneg
    obtain ⟨hle, hlt, hd⟩ :=
      (mem_stepping hdil (by omega)).mp ((mem_taps_max hg).mpr hx)
    have hfirst : (window false g dim o).1 = (o * g.s dim - g.p dim) % g.dil dim := by
      refine (maxWindow_start hg).trans ?_
      rw [if_pos hneg]
    have := hx.2.2
    omega
  · intro hhit
    by_cases hneg : o * g.s dim < g.p dim
    · have hmod := Int.emod_add_mul_ediv (o * g.s dim - g.p dim) (g.dil dim)
      have hlow := Int.emod_nonneg (o * g.s dim - g.p dim) (by omega : g.dil dim ≠ 0)
      have hhigh := Int.emod_lt_of_pos (o * g.s dim - g.p dim) hdil
      refine ⟨(o * g.s dim - g.p dim) % g.dil dim, ?_, hlow, hhit hneg⟩
      refine (exists_tap_iff hg).mpr ⟨by omega, ?_, ?_⟩
      · -- the kernel has a tap behind the padding, being twice as long
        have hmul : (g.k dim - 2) * 1 ≤ (g.k dim - 2) * g.dil dim :=
          Int.mul_le_mul_of_nonneg_left (by omega) (by omega)
        have hsplit : (g.k dim - 1) * g.dil dim = (g.k dim - 2) * g.dil dim + g.dil dim := by ring
        omega
      · refine ⟨-((o * g.s dim - g.p dim) / g.dil dim), ?_⟩
        rw [mul_neg]
        omega
    · have hend : o * g.s dim ≤ (g.out dim - 1) * g.s dim :=
        Int.mul_le_mul_of_nonneg_right (by omega) hs.le
      have hlast := hg.last dim
      refine ⟨o * g.s dim - g.p dim, ⟨0, Int.le_refl 0, hk, ?_⟩, by omega, by omega⟩
      rw [Int.zero_mul, Int.add_zero]

/-- The backward visits outputs only. -/
theorem maxOutRange_bounds (hg : g.Windowed) (hlow : (maxOutRange g dim x).1 ≤ o)
    (hhigh : o < (maxOutRange g dim x).2) : 0 ≤ o ∧ o < g.out dim := by
  have hs := hg.s_pos dim
  unfold maxOutRange at hlow hhigh
  dsimp only at hlow hhigh
  obtain ⟨-, hout⟩ := lt_min_iff.mp hhigh
  refine ⟨?_, hout⟩
  split at hlow
  · exact hlow
  · have := Int.ediv_nonneg (b := g.s dim)
      (by omega : 0 ≤ x + g.p dim - ((g.k dim - 1) * g.dil dim + 1)) hs.le
    omega

/-- The backward visits every output whose window holds the position. -/
theorem mem_maxOutRange (hg : g.Windowed) (ho : 0 ≤ o) (hout : o < g.out dim)
    (hx : InMaxWindow g dim o x) : (maxOutRange g dim x).1 ≤ o ∧ o < (maxOutRange g dim x).2 := by
  have hs := hg.s_pos dim
  obtain ⟨hle, hlt, -⟩ := (exists_tap_iff hg).mp hx.1
  unfold maxOutRange
  dsimp only
  constructor
  · split
    · exact ho
    · have := (Int.ediv_lt_iff_lt_mul (a := x + g.p dim - ((g.k dim - 1) * g.dil dim + 1))
        (b := o) hs).mpr (by omega)
      omega
  · have := (Int.le_ediv_iff_mul_le (a := o) (b := x + g.p dim) hs).mpr (by omega)
    exact lt_min (by omega) hout

/-! ## Either form of max pooling -/

theorem mem_taps (adaptive : Bool) (hg : adaptive = false → g.Windowed) (hout : 0 < g.out dim) :
    x ∈ taps adaptive g dim o ↔ InWindow adaptive g dim o x := by
  cases adaptive with
  | false => exact mem_taps_max (hg rfl)
  | true =>
      unfold InWindow taps window step
      simp only [if_true]
      rw [mem_stepping Int.one_pos (by omega), inAdaptiveWindow_iff hout]
      simp only [one_dvd, and_true]

theorem taps_nodup (adaptive : Bool) (hg : adaptive = false → g.Windowed) :
    (taps adaptive g dim o).Nodup := by
  have hstep : 0 < step adaptive g dim := by
    cases adaptive with
    | false => exact (hg rfl).dil_pos dim
    | true => exact Int.one_pos
  exact (stepping_pairwise hstep).imp Int.ne_of_lt

/-- A window lies in the input. -/
theorem InWindow.bounds {adaptive : Bool} (h : InWindow adaptive g dim o x) (hg : g.Sized)
    (ho : 0 ≤ o) (hout : o < g.out dim) : 0 ≤ x ∧ x < g.in_ dim := by
  cases adaptive with
  | false => exact h.2
  | true =>
      obtain ⟨hlow, hhigh⟩ := (mem_adaptiveWindow (hg.out_pos dim)).mp
        ((inAdaptiveWindow_iff (hg.out_pos dim)).mp h)
      exact cell_bounds (hg.in_pos dim) (hg.out_pos dim) ho hout hlow hhigh

/-- The start of a window that meets the input is a position of it. -/
theorem window_start_mem (adaptive : Bool) (hg : adaptive = false → g.Windowed)
    (hin : x ∈ taps adaptive g dim o) : (window adaptive g dim o).1 ∈ taps adaptive g dim o := by
  have hstep : 0 < step adaptive g dim := by
    cases adaptive with
    | false => exact (hg rfl).dil_pos dim
    | true => exact Int.one_pos
  have hfuel : (window adaptive g dim o).2 ≤ (window adaptive g dim o).1 +
      ((window adaptive g dim o).2 - (window adaptive g dim o).1).toNat := by omega
  obtain ⟨hle, hlt, -⟩ := (mem_stepping hstep hfuel).mp hin
  refine (mem_stepping hstep hfuel).mpr ⟨Int.le_refl _, by omega, ?_⟩
  rw [Int.sub_self]
  exact dvd_zero _

end TorchMojoBackend.Kernels.Pool
