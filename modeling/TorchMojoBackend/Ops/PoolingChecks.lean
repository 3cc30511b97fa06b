/-
  `Ops.PoolingChecks`: what the checks of the pooling operations establish.

  A launch is accepted with a geometry.  The checks leave positive extents, a padding of at
  most half of the kernel, and a last window that starts inside the input: the output count
  is rounded down, or rounded up and corrected.
-/
import TorchMojoBackend.Ops.Pooling

set_option autoImplicit false

namespace TorchMojoBackend.Ops.Pooling

open TorchMojoBackend.Kernels.Pool (Geom)

attribute [local instance] Foundation.neZero_three

variable {three : Bool} {x : List Nat} {w : Window} {ins outs : Fin 3 → Int}

/-- A check that passes, then the rest. -/
theorem bind_ok {α β : Type} {m : Except String α} {f : α → Except String β} {b : β}
    (h : m >>= f = .ok b) : ∃ a, m = .ok a ∧ f a = .ok b := by
  cases m with
  | error e => exact nomatch h
  | ok a => exact ⟨a, rfl, h⟩

/-! ## Arguments -/

theorem mem_dims {i : Fin 3} : i ∈ dims three ↔ three = true ∨ i ≠ 0 := by
  revert i
  cases three <;> decide

/-- The depth of a 2-D argument. -/
theorem spatial_fill {l : List Int} {what : String} {fill : Int} {v : Fin 3 → Int}
    (h : spatial l three what fill = .ok v) {i : Fin 3} (hi : i ∉ dims three) : v i = fill := by
  unfold spatial at h
  split at h
  · cases h
    exact if_neg hi
  · split at h
    · cases h
      exact if_neg hi
    · exact nomatch h

/-- A parsed window has the unit window for the depth of a 2-D operation. -/
theorem init_depth {name : String} {kernel stride padding dilation : List Int}
    {hasDilation ceilMode : Bool}
    (h : Window.init three name kernel stride padding dilation hasDilation ceilMode = .ok w)
    {i : Fin 3} (hi : i ∉ dims three) : w.k i = 1 ∧ w.s i = 1 ∧ w.p i = 0 ∧ w.d i = 1 := by
  unfold Window.init at h
  obtain ⟨k, hk, h⟩ := bind_ok h
  obtain ⟨s, hs, h⟩ := bind_ok h
  obtain ⟨p, hp, h⟩ := bind_ok h
  obtain ⟨d, hd, h⟩ := bind_ok h
  cases h
  have hk := spatial_fill hk hi
  refine ⟨hk, ?_, spatial_fill hp hi, ?_⟩
  · split at hs
    · cases hs
      exact hk
    · exact spatial_fill hs hi
  · split at hd
    · exact spatial_fill hd hi
    · cases hd
      rfl

/-- Without an argument for it the dilation is one. -/
theorem init_dilation {name : String} {kernel stride padding dilation : List Int}
    {ceilMode : Bool}
    (h : Window.init three name kernel stride padding dilation false ceilMode = .ok w)
    (i : Fin 3) : w.d i = 1 := by
  unfold Window.init at h
  obtain ⟨k, -, h⟩ := bind_ok h
  obtain ⟨s, -, h⟩ := bind_ok h
  obtain ⟨p, -, h⟩ := bind_ok h
  obtain ⟨d, hd, h⟩ := bind_ok h
  cases hd
  cases h
  rfl

/-! ## Output sizes -/

/-- The padding is not negative, and the last window starts inside the input. -/
theorem poolOutSize_last {isz k pad s dil o : Int} {ceilMode : Bool}
    (h : poolOutSize isz k pad s dil ceilMode = .ok o) (hk : 0 < k) (hs : 0 < s) (hdil : 0 < dil)
    (hle : pad ≤ k / 2) : 0 ≤ pad ∧ (o - 1) * s - pad < isz := by
  unfold poolOutSize at h
  rw [if_neg (by omega : s ≠ 0)] at h
  by_cases hneg : pad < 0
  · rw [if_pos hneg] at h
    exact nomatch h
  rw [if_neg hneg] at h
  split at h
  · exact nomatch h
  refine ⟨by omega, ?_⟩
  have hreach : (k - 1) * 1 ≤ dil * (k - 1) := by
    rw [mul_comm dil]
    exact Int.mul_le_mul_of_nonneg_left (by omega) (by omega)
  dsimp only at h
  rw [Int.fdiv_eq_ediv_of_nonneg _ hs.le] at h
  have hfloor := Int.ediv_mul_le
    (if ceilMode = true then isz + 2 * pad - dil * (k - 1) - 1 + (s - 1)
      else isz + 2 * pad - dil * (k - 1) - 1) (by omega : s ≠ 0)
  revert h hfloor
  generalize (if ceilMode = true then isz + 2 * pad - dil * (k - 1) - 1 + (s - 1)
      else isz + 2 * pad - dil * (k - 1) - 1) / s = q
  intro h hfloor
  rw [Int.add_sub_cancel] at h
  cases ceilMode with
  | false =>
      cases h
      simp only [Bool.false_eq_true, if_false, false_and] at hfloor ⊢
      rw [Int.add_sub_cancel]
      omega
  | true =>
      simp only [if_true, true_and] at h hfloor
      by_cases hround : q * s ≥ isz + pad
      · rw [if_pos hround] at h
        cases h
        rw [Int.sub_mul, Int.one_mul]
        omega
      · rw [if_neg hround] at h
        cases h
        rw [Int.add_sub_cancel]
        omega

/-- Without stride, padding and dilation the windows fill the input. -/
theorem poolOutSize_whole {isz k o : Int} {ceilMode : Bool}
    (h : poolOutSize isz k 0 1 1 ceilMode = .ok o) : o - 1 + k ≤ isz := by
  unfold poolOutSize at h
  rw [if_neg (by omega : (1 : Int) ≠ 0), if_neg (by omega : ¬(0 : Int) < 0)] at h
  split at h
  · exact nomatch h
  simp only [Int.fdiv_one, Int.mul_one, Int.sub_self, Int.add_zero, ite_self, Int.one_mul,
    Int.mul_zero, Int.add_sub_cancel] at h
  cases h
  split <;> omega

theorem outSpatial_eq (h : w.outSpatial ins three = .ok outs) :
    (∀ i ∈ dims three, poolOutSize (ins i) (w.k i) (w.p i) (w.s i) (w.d i) w.ceilMode =
      .ok (outs i)) ∧ ∀ i, i ∉ dims three → outs i = 1 := by
  unfold Window.outSpatial at h
  obtain ⟨o0, h0, h⟩ := bind_ok h
  obtain ⟨o1, h1, h⟩ := bind_ok h
  obtain ⟨o2, h2, h⟩ := bind_ok h
  cases h
  constructor
  · intro i hi
    match i with
    | 0 =>
        obtain rfl | hne := mem_dims.mp hi
        · exact h0
        · exact absurd rfl hne
    | 1 => exact h1
    | 2 => exact h2
  · intro i hi
    rw [mem_dims, not_or, not_not] at hi
    obtain ⟨hthree, rfl⟩ := hi
    rw [if_neg hthree] at h0
    cases h0
    rfl

/-! ## Shapes -/

/-- The extents of a shape that is taken. -/
theorem inSpatial_pos {fnName : String} (h : Window.shapeError x three fnName = none) (i : Fin 3) :
    0 < inSpatial x three i := by
  unfold inSpatial
  by_cases hi : i ∈ dims three
  · rw [if_pos hi]
    unfold Window.shapeError at h
    cases three with
    | false =>
        rw [if_pos rfl] at h
        dsimp only at h
        split at h
        · rename_i hvalid
          match i with
          | 0 => exact absurd hi (by decide)
          | 1 =>
              obtain ⟨hlen, -, h1, -⟩ | ⟨hlen, ⟨-, h2⟩, -⟩ := hvalid
              · rw [hlen]
                exact Int.natCast_pos.mpr (Nat.pos_of_ne_zero h1)
              · rw [hlen]
                exact Int.natCast_pos.mpr (Nat.pos_of_ne_zero h2)
          | 2 =>
              obtain ⟨hlen, -, -, h2⟩ | ⟨hlen, -, h3⟩ := hvalid
              · rw [hlen]
                exact Int.natCast_pos.mpr (Nat.pos_of_ne_zero h2)
              · rw [hlen]
                exact Int.natCast_pos.mpr (Nat.pos_of_ne_zero h3)
        · cases h
    | true =>
        rw [if_neg (by decide)] at h
        split at h
        · cases h
        rename_i hlen
        split at h
        · cases h
        rename_i hnone
        have hall := List.find?_eq_none.mp hnone (x.length + i - 3)
        have hi3 := i.isLt
        have := hall (List.mem_range.mpr (by omega))
        rw [decide_eq_true_iff] at this
        omega
  · rw [if_neg hi]
    exact Int.one_pos

theorem shapeCheck_ok {fnName : String} {checkInputSize : Bool}
    (h : w.shapeCheck x three ins outs fnName checkInputSize = .ok ()) :
    Window.shapeError x three fnName = none ∧
      (∀ i ∈ dims three, 0 < w.k i ∧ 0 < w.s i ∧ 0 < w.d i ∧ w.p i ≤ w.k i / 2 ∧ 1 ≤ outs i) ∧
      (three = true → checkInputSize = true → ∀ i, w.k i ≤ ins i) := by
  unfold Window.shapeCheck at h
  split at h
  · exact nomatch h
  rename_i hk
  split at h
  · exact nomatch h
  rename_i hs
  split at h
  · exact nomatch h
  rename_i hd
  split at h
  · exact nomatch h
  rename_i hshape
  split at h
  · exact nomatch h
  rename_i hsize
  split at h
  · exact nomatch h
  rename_i hp
  split at h
  · exact nomatch h
  rename_i hout
  push Not at hk hs hd hsize hp hout
  exact ⟨hshape, fun i hi => ⟨hk i hi, hs i hi, hd i hi, hp i hi, hout i hi⟩, hsize⟩

theorem planes_nonneg : 0 ≤ planes x three := Int.natCast_nonneg _

/-! ## Geometries -/

/-- A window whose output sizes and shape were checked. -/
theorem windowGeom_windowed {name fnName : String} {kernel stride padding dilation : List Int}
    {hasDilation ceilMode checkInputSize : Bool}
    (hw : Window.init three name kernel stride padding dilation hasDilation ceilMode = .ok w)
    (houts : w.outSpatial (inSpatial x three) three = .ok outs)
    (hshape : w.shapeCheck x three (inSpatial x three) outs fnName checkInputSize = .ok ())
    (countIncludePad : Bool) (divisor : Int) :
    (windowGeom three x outs w countIncludePad divisor).Windowed := by
  obtain ⟨hvalid, hdims, -⟩ := shapeCheck_ok hshape
  obtain ⟨hsize, hunit⟩ := outSpatial_eq houts
  have hin := inSpatial_pos hvalid
  have hdim : ∀ i, 0 < outs i ∧ 0 < w.k i ∧ 0 < w.s i ∧ 0 < w.d i ∧ 0 ≤ w.p i ∧
      2 * w.p i ≤ w.k i ∧ (outs i - 1) * w.s i - w.p i < inSpatial x three i := by
    intro i
    have hpos := hin i
    by_cases hmem : i ∈ dims three
    · obtain ⟨hk, hs, hd, hp, hout⟩ := hdims i hmem
      obtain ⟨hnonneg, hlast⟩ := poolOutSize_last (hsize i hmem) hk hs hd hp
      exact ⟨by omega, hk, hs, hd, hnonneg, by omega, hlast⟩
    · obtain ⟨hk, hs, hp, hd⟩ := init_depth hw hmem
      rw [hunit i hmem, hk, hs, hp, hd]
      omega
  exact {
    planes := planes_nonneg
    in_pos := hin
    out_pos := fun i => (hdim i).1
    k_pos := fun i => (hdim i).2.1
    s_pos := fun i => (hdim i).2.2.1
    dil_pos := fun i => (hdim i).2.2.2.1
    p_nonneg := fun i => (hdim i).2.2.2.2.1
    p_le := fun i => (hdim i).2.2.2.2.2.1
    last := fun i => (hdim i).2.2.2.2.2.2 }

theorem maxPoolCheck_ok {name : String} (h : maxPoolCheck three x w name = .ok outs) :
    w.outSpatial (inSpatial x three) three = .ok outs ∧
      w.shapeCheck x three (inSpatial x three) outs name false = .ok () := by
  unfold maxPoolCheck at h
  split at h
  · exact nomatch h
  split at h
  · exact nomatch h
  obtain ⟨o, ho, h⟩ := bind_ok h
  obtain ⟨_, hcheck, h⟩ := bind_ok h
  cases h
  exact ⟨ho, hcheck⟩

theorem avgCheck_ok {divisor : Option Int} (h : avgCheck three x w divisor = .ok outs) :
    divisor ≠ some 0 ∧ w.outSpatial (inSpatial x three) three = .ok outs ∧
      w.shapeCheck x three (inSpatial x three) outs "avg_pool3d()" true = .ok () := by
  unfold avgCheck at h
  split at h
  · exact nomatch h
  split at h
  · exact nomatch h
  rename_i hdiv
  split at h
  · exact nomatch h
  obtain ⟨o, ho, h⟩ := bind_ok h
  obtain ⟨_, hcheck, h⟩ := bind_ok h
  cases h
  exact ⟨hdiv, ho, hcheck⟩

/-- The extents of an adaptive launch. -/
theorem adaptiveSize_ok {l : List Int} {name : String} {maxPool : Bool}
    (h : adaptiveSize three x l name maxPool = .ok outs) :
    (∀ i, 0 < inSpatial x three i) ∧ ∀ i, i ∉ dims three → outs i = 1 := by
  unfold adaptiveSize at h
  dsimp only at h
  split at h
  · cases h
  split at h
  · cases h
  rename_i hrank
  split at h
  · cases h
  rename_i hempty
  split at h
  · cases h
  split at h
  · cases h
  cases h
  refine ⟨fun i => ?_, fun i hi => if_neg hi⟩
  unfold inSpatial
  by_cases hi : i ∈ dims three
  · rw [if_pos hi]
    have hlast : i.val < 3 := i.isLt
    have hfirst := mem_dims.mp hi
    have hall := List.find?_eq_none.mp hempty (x.length + i - 3)
    have hne : i ≠ 0 → 0 < i.val := fun hne => Nat.pos_of_ne_zero fun hzero => hne (Fin.ext hzero)
    cases three with
    | false =>
        have hpos := hne (hfirst.resolve_left (by decide))
        have hrank : x.length = 3 ∨ x.length = 4 := by
          change ¬(x.length ≠ 3 ∧ x.length ≠ 4) at hrank
          omega
        have hcell := hall (List.mem_range.mpr (by omega))
        rw [decide_eq_true_iff] at hcell
        cases maxPool with
        | false =>
            have hle : x.length - spatialRank false ≤ x.length + i - 3 := by
              change x.length - 2 ≤ _
              omega
            have hcell : ¬(x.length - spatialRank false ≤ x.length + i - 3 ∧
              x.getD (x.length + i - 3) 0 = 0) := hcell
            omega
        | true =>
            have hcell : ¬(1 ≤ x.length + i - 3 ∧ x.getD (x.length + i - 3) 0 = 0) := hcell
            omega
    | true =>
        have hrank : x.length = 4 ∨ x.length = 5 := by
          change ¬(x.length ≠ 4 ∧ x.length ≠ 5) at hrank
          omega
        have hcell := hall (List.mem_range.mpr (by omega))
        rw [decide_eq_true_iff] at hcell
        have hcell : ¬((if maxPool = false ∧ true = false then x.length - spatialRank true else 1) ≤
          x.length + i - 3 ∧ x.getD (x.length + i - 3) 0 = 0) := hcell
        rw [if_neg fun h => Bool.noConfusion h.2] at hcell
        omega
  · rw [if_neg hi]
    exact Int.one_pos

/-- The geometry of an adaptive launch with output sizes from one on. -/
theorem adaptiveGeom_sized {l : List Int} {name : String} {maxPool : Bool}
    (h : adaptiveSize three x l name maxPool = .ok outs) (hpos : ∀ i, 1 ≤ outs i) :
    (adaptiveGeom three x outs).Sized where
  planes := planes_nonneg
  in_pos := (adaptiveSize_ok h).1
  out_pos := hpos

end TorchMojoBackend.Ops.Pooling
