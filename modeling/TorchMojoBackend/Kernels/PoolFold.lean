/-
  `Kernels.PoolFold`: col2im is adjoint to im2col.

  A tap of the kernel and a place of the sliding window name a position of the image along
  each dim; a position and a place name the tap, where the dilation divides their distance.
  Both kernels run over these triples.
-/
import Mathlib.Algebra.BigOperators.Ring.Finset
import TorchMojoBackend.Kernels.Pool

set_option autoImplicit false

namespace TorchMojoBackend.Kernels.Pool

open TorchMojoBackend.Foundation

attribute [local instance] intOrder neZero_three

universe u

/-- Positive kernels, strides and dilations, and extents from zero on. -/
structure Fold.Valid (f : Fold) : Prop where
  batch : 0 ≤ f.batch
  channels : 0 ≤ f.channels
  inH : 0 ≤ f.inH
  inW : 0 ≤ f.inW
  outH : 0 ≤ f.outH
  outW : 0 ≤ f.outW
  kh : 0 < f.kh
  kw : 0 < f.kw
  sh : 0 < f.sh
  sw : 0 < f.sw
  dh : 0 < f.dh
  dw : 0 < f.dw

/-! ## One dim -/

section
variable {k s d p n out : Int}

/-- The places that hold a position under one of the taps. -/
theorem mem_colRange (hs : 0 < s) (hd : 0 < d) {x o : Int} :
    ((colRange (x + p) ((k - 1) * d + 1) s out).1 ≤ o ∧
        o < (colRange (x + p) ((k - 1) * d + 1) s out).2) ∧ (x + p - o * s) % d = 0 ↔
      (0 ≤ o ∧ o < out) ∧ ∃ j, (0 ≤ j ∧ j < k) ∧ x = o * s - p + j * d := by
  have hle : o ≤ (x + p) / s ↔ o * s ≤ x + p := Int.le_ediv_iff_mul_le hs
  have hgt : (x + p - ((k - 1) * d + 1)) / s < o ↔ x + p - ((k - 1) * d + 1) < o * s :=
    Int.ediv_lt_iff_lt_mul hs
  unfold colRange
  simp only [lt_min_iff]
  constructor
  · rintro ⟨⟨hlow, hhigh, hout⟩, hdvd⟩
    obtain ⟨j, hj⟩ := Int.dvd_of_emod_eq_zero hdvd
    rw [mul_comm d] at hj
    have hstart := hle.mp (by omega)
    have hbounds : 0 ≤ o ∧ x + p - ((k - 1) * d + 1) < o * s := by
      split at hlow
      · have := Int.mul_nonneg hlow hs.le
        exact ⟨hlow, by omega⟩
      · have := Int.ediv_nonneg (b := s) (by omega : 0 ≤ x + p - ((k - 1) * d + 1)) hs.le
        exact ⟨by omega, hgt.mp (by omega)⟩
    refine ⟨⟨hbounds.1, hout⟩, j, ⟨?_, ?_⟩, by omega⟩
    · exact nonneg_of_mul_nonneg_left (by omega) hd
    · have hlt : j * d < k * d := by
        have hlast := hbounds.2
        rw [Int.sub_mul, Int.one_mul] at hlast
        omega
      exact lt_of_mul_lt_mul_right hlt hd.le
  · rintro ⟨⟨ho, hout⟩, j, ⟨hj, hjk⟩, rfl⟩
    have hnonneg := Int.mul_nonneg hj hd.le
    have hlast : j * d ≤ (k - 1) * d := Int.mul_le_mul_of_nonneg_right (by omega) hd.le
    have hdist : o * s - p + j * d + p - o * s = j * d := by ring
    refine ⟨⟨?_, ?_, hout⟩, ?_⟩
    · split
      · exact ho
      · have := hgt.mpr (by omega)
        omega
    · have := hle.mpr (by omega)
      omega
    · rw [hdist]
      exact Int.mul_emod_left j d

/-- Taps and places are positions and places. -/
theorem sum_taps {M : Type u} [AddCommMonoid M] (hs : 0 < s) (hd : 0 < d)
    (F : Int → Int → Int → M) :
    (∑ j ∈ Finset.Ico 0 k, ∑ o ∈ Finset.Ico 0 out,
      if o * s - p + j * d < 0 ∨ o * s - p + j * d ≥ n then 0 else F j o (o * s - p + j * d)) =
    ∑ x ∈ Finset.Ico 0 n, ∑ o ∈ Finset.Ico (colRange (x + p) ((k - 1) * d + 1) s out).1
        (colRange (x + p) ((k - 1) * d + 1) s out).2,
      if (x + p - o * s) % d ≠ 0 then 0 else F ((x + p - o * s) / d) o x := by
  have hquot : ∀ j o : Int, (o * s - p + j * d + p - o * s) / d = j := by
    intro j o
    have hdist : o * s - p + j * d + p - o * s = j * d := by ring
    rw [hdist, Int.mul_ediv_cancel _ hd.ne']
  rw [Finset.sum_sigma', Finset.sum_sigma']
  simp only [ne_eq, ite_not, ← not_lt (b := n), ← not_le (a := (0 : Int)), ← not_and_or]
  rw [← Finset.sum_filter, ← Finset.sum_filter]
  refine Finset.sum_bij' (fun t _ => ⟨t.2 * s - p + t.1 * d, t.2⟩)
    (fun t _ => ⟨(t.1 + p - t.2 * s) / d, t.2⟩) ?_ ?_ ?_ ?_ ?_
  · rintro ⟨j, o⟩ ht
    simp only [Finset.mem_filter, Finset.mem_sigma, Finset.mem_Ico] at ht ⊢
    obtain ⟨⟨hj, ho⟩, hx⟩ := ht
    have hrange := (@mem_colRange k s d p out hs hd _ _).mpr ⟨ho, j, hj, rfl⟩
    exact ⟨⟨hx, hrange.1⟩, hrange.2⟩
  · rintro ⟨x, o⟩ ht
    simp only [Finset.mem_filter, Finset.mem_sigma, Finset.mem_Ico] at ht ⊢
    obtain ⟨⟨hx, hrange⟩, hdvd⟩ := ht
    obtain ⟨ho, j, hj, rfl⟩ := (@mem_colRange k s d p out hs hd _ _).mp ⟨hrange, hdvd⟩
    rw [hquot]
    exact ⟨⟨hj, ho⟩, hx⟩
  · rintro ⟨j, o⟩ _
    dsimp only
    rw [hquot]
  · rintro ⟨x, o⟩ ht
    simp only [Finset.mem_filter, Finset.mem_sigma, Finset.mem_Ico] at ht
    obtain ⟨⟨hx, hrange⟩, hdvd⟩ := ht
    obtain ⟨ho, j, hj, rfl⟩ := (@mem_colRange k s d p out hs hd _ _).mp ⟨hrange, hdvd⟩
    dsimp only
    rw [hquot]
  · rintro ⟨j, o⟩ _
    dsimp only
    rw [hquot]

end

/-! ## The two kernels -/

variable {f : Fold}

section
variable {M : Type u} [AddCommMonoid M]

/-- A column entry reads the position that its tap and its place name. -/
theorem im2col_eq (f : Fold) (input : Int → M) {q fh fw oh ow : Int}
    (hq : q ∈ Finset.Ico 0 (f.batch * f.channels)) (hchannels : 0 ≤ f.channels)
    (hfh : fh ∈ Finset.Ico 0 f.kh) (hfw : fw ∈ Finset.Ico 0 f.kw) (hoh : oh ∈ Finset.Ico 0 f.outH)
    (how : ow ∈ Finset.Ico 0 f.outW) :
    im2col f input ((((q * f.kh + fh) * f.kw + fw) * f.outH + oh) * f.outW + ow) =
      if oh * f.sh - f.ph + fh * f.dh < 0 ∨ oh * f.sh - f.ph + fh * f.dh ≥ f.inH then 0
      else if ow * f.sw - f.pw + fw * f.dw < 0 ∨ ow * f.sw - f.pw + fw * f.dw ≥ f.inW then 0
      else input ((q * f.inH + (oh * f.sh - f.ph + fh * f.dh)) * f.inW +
        (ow * f.sw - f.pw + fw * f.dw)) := by
  obtain ⟨b, -, c, hc, rfl⟩ := exists_flat hchannels hq
  have hrow := flat_mem (flat_mem hc hfh) hfw
  have hplace := flat_mem hoh how
  obtain ⟨hfh, hfhlt⟩ := Finset.mem_Ico.mp hfh
  obtain ⟨hfw, hfwlt⟩ := Finset.mem_Ico.mp hfw
  obtain ⟨how, howlt⟩ := Finset.mem_Ico.mp how
  obtain ⟨hrow, hrowlt⟩ := Finset.mem_Ico.mp hrow
  obtain ⟨hplace, hplacelt⟩ := Finset.mem_Ico.mp hplace
  obtain ⟨hoh, hohlt⟩ := Finset.mem_Ico.mp hoh
  have hsplit : ((((b * f.channels + c) * f.kh + fh) * f.kw + fw) * f.outH + oh) * f.outW + ow =
      (b * (f.channels * f.kh * f.kw) + ((c * f.kh + fh) * f.kw + fw)) * (f.outH * f.outW) +
        (oh * f.outW + ow) := by ring
  have hsample : (b * (f.channels * f.kh * f.kw) + ((c * f.kh + fh) * f.kw + fw)) *
      (f.outH * f.outW) + (oh * f.outW + ow) = b * (f.outH * f.outW * f.channels * f.kh * f.kw) +
        (((c * f.kh + fh) * f.kw + fw) * (f.outH * f.outW) + (oh * f.outW + ow)) := by ring
  have hinner := flat_mem (Finset.mem_Ico.mpr ⟨hrow, hrowlt⟩)
    (Finset.mem_Ico.mpr ⟨hplace, hplacelt⟩)
  have hcount : f.channels * f.kh * f.kw * (f.outH * f.outW) =
      f.outH * f.outW * f.channels * f.kh * f.kw := by ring
  rw [hcount] at hinner
  obtain ⟨hinner, hinnerlt⟩ := Finset.mem_Ico.mp hinner
  have hchannel : ((c * f.kh + fh) * f.kw + fw) / (f.kw * f.kh) = c := by
    rw [← Int.ediv_ediv_of_nonneg (by omega), flat_div hfw hfwlt, flat_div hfh hfhlt]
  unfold im2col
  dsimp only
  rw [hsplit, flat_div hplace hplacelt, flat_mod hplace hplacelt, flat_mod hrow hrowlt, hsample,
    flat_div hinner hinnerlt, hchannel, flat_div hfw hfwlt, flat_mod hfw hfwlt,
    flat_mod hfh hfhlt, flat_div how howlt, flat_mod how howlt]
  by_cases hh : oh * f.sh - f.ph + fh * f.dh < 0 ∨ oh * f.sh - f.ph + fh * f.dh ≥ f.inH
  · rw [if_pos hh, if_pos (by omega)]
  · rw [if_neg hh]
    exact if_congr (by omega) rfl rfl

/-- What a position is given by one row of places. -/
def rowGiven (f : Fold) (input : Int → M) (q ih iw oh : Int) : M :=
  if (ih + f.ph - oh * f.sh) % f.dh ≠ 0 then 0
  else ∑ ow ∈ Finset.Ico (colRange (iw + f.pw) ((f.kw - 1) * f.dw + 1) f.sw f.outW).1
      (colRange (iw + f.pw) ((f.kw - 1) * f.dw + 1) f.sw f.outW).2,
    if (iw + f.pw - ow * f.sw) % f.dw ≠ 0 then 0
    else input ((((q * f.kh + (ih + f.ph - oh * f.sh) / f.dh) * f.kw +
      (iw + f.pw - ow * f.sw) / f.dw) * f.outH + oh) * f.outW + ow)

theorem col2im_eq (input : Int → M) {q ih iw : Int}
    (hih : ih ∈ Finset.Ico 0 f.inH) (hiw : iw ∈ Finset.Ico 0 f.inW) :
    col2im f input ((q * f.inH + ih) * f.inW + iw) =
      ∑ oh ∈ Finset.Ico (colRange (ih + f.ph) ((f.kh - 1) * f.dh + 1) f.sh f.outH).1
          (colRange (ih + f.ph) ((f.kh - 1) * f.dh + 1) f.sh f.outH).2,
        rowGiven f input q ih iw oh := by
  obtain ⟨hih, hihlt⟩ := Finset.mem_Ico.mp hih
  obtain ⟨hiw, hiwlt⟩ := Finset.mem_Ico.mp hiw
  have hsample : ((q * f.inH + ih) * f.inW + iw) / (f.inW * f.inH) = q := by
    rw [← Int.ediv_ediv_of_nonneg (by omega), flat_div hiw hiwlt, flat_div hih hihlt]
  unfold col2im
  rw [flat_div hiw hiwlt, flat_mod hiw hiwlt, flat_mod hih hihlt, hsample]
  rfl

end

/-- The taps and places of both dims. -/
theorem sum_taps_both {M : Type u} [AddCommMonoid M] (hf : f.Valid)
    (F : Int → Int → Int → Int → Int → Int → M) :
    (∑ fh ∈ Finset.Ico 0 f.kh, ∑ oh ∈ Finset.Ico 0 f.outH,
      if oh * f.sh - f.ph + fh * f.dh < 0 ∨ oh * f.sh - f.ph + fh * f.dh ≥ f.inH then 0
      else ∑ fw ∈ Finset.Ico 0 f.kw, ∑ ow ∈ Finset.Ico 0 f.outW,
        if ow * f.sw - f.pw + fw * f.dw < 0 ∨ ow * f.sw - f.pw + fw * f.dw ≥ f.inW then 0
        else F fh oh (oh * f.sh - f.ph + fh * f.dh) fw ow (ow * f.sw - f.pw + fw * f.dw)) =
    ∑ ih ∈ Finset.Ico 0 f.inH,
      ∑ oh ∈ Finset.Ico (colRange (ih + f.ph) ((f.kh - 1) * f.dh + 1) f.sh f.outH).1
        (colRange (ih + f.ph) ((f.kh - 1) * f.dh + 1) f.sh f.outH).2,
      if (ih + f.ph - oh * f.sh) % f.dh ≠ 0 then 0
      else ∑ iw ∈ Finset.Ico 0 f.inW,
        ∑ ow ∈ Finset.Ico (colRange (iw + f.pw) ((f.kw - 1) * f.dw + 1) f.sw f.outW).1
          (colRange (iw + f.pw) ((f.kw - 1) * f.dw + 1) f.sw f.outW).2,
        if (iw + f.pw - ow * f.sw) % f.dw ≠ 0 then 0
        else F ((ih + f.ph - oh * f.sh) / f.dh) oh ih ((iw + f.pw - ow * f.sw) / f.dw) ow iw := by
  refine Eq.trans ?_ (sum_taps hf.sh hf.dh fun fh oh ih => ∑ iw ∈ Finset.Ico 0 f.inW,
    ∑ ow ∈ Finset.Ico (colRange (iw + f.pw) ((f.kw - 1) * f.dw + 1) f.sw f.outW).1
      (colRange (iw + f.pw) ((f.kw - 1) * f.dw + 1) f.sw f.outW).2,
    if (iw + f.pw - ow * f.sw) % f.dw ≠ 0 then 0
    else F fh oh ih ((iw + f.pw - ow * f.sw) / f.dw) ow iw)
  refine Finset.sum_congr rfl fun fh _ => Finset.sum_congr rfl fun oh _ => ?_
  rw [sum_taps hf.sw hf.dw (F fh oh (oh * f.sh - f.ph + fh * f.dh))]

section
variable {K : Type u} [CommSemiring K] {q : Int}

/-- One sample and channel of the forward's sum, along taps and places. -/
theorem sum_im2col (hf : f.Valid) (input grad : Int → K)
    (hq : q ∈ Finset.Ico 0 (f.batch * f.channels)) :
    (∑ fh ∈ Finset.Ico 0 f.kh, ∑ fw ∈ Finset.Ico 0 f.kw, ∑ oh ∈ Finset.Ico 0 f.outH,
      ∑ ow ∈ Finset.Ico 0 f.outW,
        grad ((((q * f.kh + fh) * f.kw + fw) * f.outH + oh) * f.outW + ow) *
          im2col f input ((((q * f.kh + fh) * f.kw + fw) * f.outH + oh) * f.outW + ow)) =
    ∑ fh ∈ Finset.Ico 0 f.kh, ∑ oh ∈ Finset.Ico 0 f.outH,
      if oh * f.sh - f.ph + fh * f.dh < 0 ∨ oh * f.sh - f.ph + fh * f.dh ≥ f.inH then 0
      else ∑ fw ∈ Finset.Ico 0 f.kw, ∑ ow ∈ Finset.Ico 0 f.outW,
        if ow * f.sw - f.pw + fw * f.dw < 0 ∨ ow * f.sw - f.pw + fw * f.dw ≥ f.inW then 0
        else grad ((((q * f.kh + fh) * f.kw + fw) * f.outH + oh) * f.outW + ow) *
          input ((q * f.inH + (oh * f.sh - f.ph + fh * f.dh)) * f.inW +
            (ow * f.sw - f.pw + fw * f.dw)) := by
  refine Finset.sum_congr rfl fun fh hfh => ?_
  rw [Finset.sum_comm]
  refine Finset.sum_congr rfl fun oh hoh => ?_
  by_cases hh : oh * f.sh - f.ph + fh * f.dh < 0 ∨ oh * f.sh - f.ph + fh * f.dh ≥ f.inH
  · rw [if_pos hh]
    refine Finset.sum_eq_zero fun fw hfw => Finset.sum_eq_zero fun ow how => ?_
    rw [im2col_eq f input hq hf.channels hfh hfw hoh how, if_pos hh, mul_zero]
  · rw [if_neg hh]
    refine Finset.sum_congr rfl fun fw hfw => Finset.sum_congr rfl fun ow how => ?_
    rw [im2col_eq f input hq hf.channels hfh hfw hoh how, if_neg hh, mul_ite, mul_zero]

/-- One sample and channel of the backward's sum, along positions and places. -/
theorem sum_col2im (input grad : Int → K) :
    (∑ ih ∈ Finset.Ico 0 f.inH,
      ∑ oh ∈ Finset.Ico (colRange (ih + f.ph) ((f.kh - 1) * f.dh + 1) f.sh f.outH).1
        (colRange (ih + f.ph) ((f.kh - 1) * f.dh + 1) f.sh f.outH).2,
      if (ih + f.ph - oh * f.sh) % f.dh ≠ 0 then 0
      else ∑ iw ∈ Finset.Ico 0 f.inW,
        ∑ ow ∈ Finset.Ico (colRange (iw + f.pw) ((f.kw - 1) * f.dw + 1) f.sw f.outW).1
          (colRange (iw + f.pw) ((f.kw - 1) * f.dw + 1) f.sw f.outW).2,
        if (iw + f.pw - ow * f.sw) % f.dw ≠ 0 then 0
        else grad ((((q * f.kh + (ih + f.ph - oh * f.sh) / f.dh) * f.kw +
            (iw + f.pw - ow * f.sw) / f.dw) * f.outH + oh) * f.outW + ow) *
          input ((q * f.inH + ih) * f.inW + iw)) =
    ∑ ih ∈ Finset.Ico 0 f.inH, ∑ iw ∈ Finset.Ico 0 f.inW,
      col2im f grad ((q * f.inH + ih) * f.inW + iw) * input ((q * f.inH + ih) * f.inW + iw) := by
  refine Finset.sum_congr rfl fun ih hih => ?_
  have hrow : ∀ iw ∈ Finset.Ico 0 f.inW,
      col2im f grad ((q * f.inH + ih) * f.inW + iw) * input ((q * f.inH + ih) * f.inW + iw) =
        ∑ oh ∈ Finset.Ico (colRange (ih + f.ph) ((f.kh - 1) * f.dh + 1) f.sh f.outH).1
            (colRange (ih + f.ph) ((f.kh - 1) * f.dh + 1) f.sh f.outH).2,
          rowGiven f grad q ih iw oh * input ((q * f.inH + ih) * f.inW + iw) := fun iw hiw => by
    rw [col2im_eq grad hih hiw, Finset.sum_mul]
  rw [Finset.sum_congr rfl hrow, Finset.sum_comm (s := Finset.Ico 0 f.inW)]
  refine Finset.sum_congr rfl fun oh _ => ?_
  unfold rowGiven
  by_cases hh : (ih + f.ph - oh * f.sh) % f.dh ≠ 0
  · simp only [if_pos hh, zero_mul, Finset.sum_const_zero]
  · simp only [if_neg hh]
    refine Finset.sum_congr rfl fun iw _ => ?_
    rw [Finset.sum_mul]
    refine Finset.sum_congr rfl fun ow _ => ?_
    rw [ite_mul, zero_mul]

/-- col2im is adjoint to im2col. -/
theorem fold_adjoint (hf : f.Valid) (input grad : Int → K) :
    ∑ i ∈ Finset.Ico 0 (f.batch * f.channels * f.kh * f.kw * f.outH * f.outW),
        grad i * im2col f input i =
      ∑ j ∈ Finset.Ico 0 (f.batch * f.channels * f.inH * f.inW), col2im f grad j * input j := by
  rw [sum_flat hf.outW, sum_flat hf.outH, sum_flat hf.kw.le, sum_flat hf.kh.le, sum_flat hf.inW,
    sum_flat hf.inH]
  refine Finset.sum_congr rfl fun q hq => ?_
  refine (sum_im2col hf input grad hq).trans (Eq.trans ?_ (sum_col2im input grad))
  exact sum_taps_both hf fun fh oh ih fw ow iw =>
    grad ((((q * f.kh + fh) * f.kw + fw) * f.outH + oh) * f.outW + ow) *
      input ((q * f.inH + ih) * f.inW + iw)

end

end TorchMojoBackend.Kernels.Pool
