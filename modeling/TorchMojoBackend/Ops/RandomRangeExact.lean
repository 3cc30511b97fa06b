/-
  `Ops.RandomRangeExact`: when the draws of `random_` stay in the range asked for.

  A bound of a floating type is moved to the next value of the type if the test of its
  neighbour says so.  Above, the test is right; below, it looks at `from + 1` where `from`
  itself may be rounded down, and near `2 ^ 63` the step to the next value or the conversion
  back to an integer overflows.
-/
import TorchMojoBackend.Ops.RandomRange

set_option autoImplicit false

namespace TorchMojoBackend.Ops.RandomRange

open TorchMojoBackend.Foundation.ExactFloat

/-- An argument of 64 bits. -/
def Fits (v : Int) : Prop := INT64_MIN ≤ v ∧ v ≤ INT64_MAX

/-- The largest value that the rule of a type admits in `random_(from)`. -/
def largest (dtype : DType) (from_ : Int) : Int :=
  match dtype with
  | .float f => if from_ = INT64_MIN then f.round INT64_MAX else 2 ^ f.digits
  | .int i => i.lowestHighest.2

/-- A value from `from` on and below `to`, or at most the largest one. -/
def InRange (dtype : DType) (from_ : Int) (to_ : Option Int) : Value → Prop
  | .int v => from_ ≤ v ∧
    match to_ with
    | some to_ => v < to_
    | none => v ≤ largest dtype from_
  | .inf _ => False

/-- The modulus of a launch, if it has one, is not zero. -/
def Draw.Modulus : Draw → Prop
  | .fromTo range _ => range ≠ 0
  | .full64 => True

/-- The call ends with a launch whose values are all in the range. -/
def Stays (host : Host) (dtype : DType) (from_ : Int) (to_ : Option Int) : Prop :=
  ∃ fuel draw, randomFromTo host fuel dtype from_ to_ = some (.ok draw) ∧ draw.Modulus ∧
    ∀ w, ∀ v ∈ draw.values dtype w, InRange dtype from_ to_ v

/-- The largest value of the type below `2 ^ 63`. -/
def FloatType.top (f : FloatType) : Int := 2 ^ 63 - 2 ^ (63 - f.digits)

/-- The type does not round `from` down, or rounds `from + 1` below `from` too; and the next value
of the type is an `Int`. A saturating conversion leaves a `from` in place that is rounded to
`2 ^ 63`. -/
def FromFits (host : Host) (f : FloatType) (from_ : Int) : Prop :=
  (from_ ≤ f.round from_ ∧ (host = .saturating ∨ from_ ≤ f.top)) ∨
    (f.round (from_ + 1) < from_ ∧ from_ ≤ f.top)

/-- When the draws stay in the range. -/
def Condition (host : Host) (dtype : DType) (from_ : Int) (to_ : Option Int) : Prop :=
  match dtype with
  | .int _ => True
  | .float f => FromFits host f from_ ∧
    match to_ with
    | some to_ => host = .indefinite → f.round (to_ - 1) < 2 ^ 63
    | none => from_ ≠ INT64_MAX

/-! ## Integers of 64 bits -/

theorem wrap64_eq (v : Int) :
    wrap64 v = if v % 2 ^ 64 < 2 ^ 63 then v % 2 ^ 64 else v % 2 ^ 64 - 2 ^ 64 := rfl

theorem wrap64_of_fits {v : Int} (h : Fits v) : wrap64 v = v := by
  unfold Fits INT64_MIN INT64_MAX at h
  rw [wrap64_eq]
  split <;> omega

theorem wrap64_add_emod (a b : Int) : wrap64 (a + b % 2 ^ 64) = wrap64 (a + b) := by
  rw [wrap64_eq, wrap64_eq, Int.add_emod_emod]

theorem fits_wrap64 (v : Int) : Fits (wrap64 v) := by
  unfold Fits INT64_MIN INT64_MAX
  rw [wrap64_eq]
  split <;> omega

/-! ## The loop over the bits -/

theorem bitLoop_eq {fuel : Nat} {f : Int} {n : Nat} (hf : 0 ≤ f) (hfuel : Nat.log2 f.toNat < fuel) :
    bitLoop fuel f n = some (n + Nat.log2 f.toNat) := by
  induction fuel generalizing f n with
  | zero => exact absurd hfuel (Nat.not_lt_zero _)
  | succ fuel ih =>
      unfold bitLoop
      by_cases hhalf : f / 2 = 0
      · have hlog : Nat.log2 f.toNat = 0 := by
          rw [Nat.log2_def, if_neg (by omega)]
        rw [if_neg (not_not_intro hhalf), hlog, Nat.add_zero]
      · have hlog : Nat.log2 f.toNat = Nat.log2 (f / 2).toNat + 1 := by
          rw [Nat.log2_def, if_pos (by omega)]
          congr 2
          omega
        rw [if_pos hhalf, ih (by omega) (by omega), hlog]
        congr 1
        omega

/-- A negative number has no end of bits. -/
theorem bitLoop_neg {fuel : Nat} {f : Int} {n : Nat} (hf : f < 0) : bitLoop fuel f n = none := by
  induction fuel generalizing f n with
  | zero => rfl
  | succ fuel ih =>
      unfold bitLoop
      rw [if_pos (by omega), ih (by omega)]

theorem log2_lt_of_fits {v : Int} (h : Fits v) : Nat.log2 v.natAbs < 64 := by
  unfold Fits INT64_MIN INT64_MAX at h
  by_cases hzero : v.natAbs = 0
  · rw [hzero]
    decide
  · exact (Nat.log2_lt hzero).mpr (by omega)

/-- The loop over the bits of an argument. -/
theorem bitLoop_abs {v : Int} (h : Fits v) (hmin : v ≠ INT64_MIN) :
    bitLoop 64 (wrap64 |v|) 0 = some (Nat.log2 v.natAbs) := by
  have habs : Fits v.natAbs := by
    unfold Fits INT64_MIN INT64_MAX at *
    omega
  have hloop := @bitLoop_eq 64 v.natAbs 0 (Int.natCast_nonneg _) (log2_lt_of_fits h)
  rw [Int.abs_eq_natAbs, wrap64_of_fits habs, hloop, Nat.zero_add]
  rfl

/-! ## Rounding -/

namespace FloatType

theorem rounding (f : FloatType) : Rounding f.digits f.round := by
  cases f with
  | float64 => exact rounding_roundInt (by decide)
  | float32 => exact rounding_roundInt (by decide)
  | float16 =>
      exact (rounding_roundInt (by decide)).comp (rounding_roundInt (by decide)) (by decide)
  | bfloat16 =>
      exact (rounding_roundInt (by decide)).comp (rounding_roundInt (by decide)) (by decide)

theorem digits_le (f : FloatType) : 8 ≤ f.digits ∧ f.digits ≤ 53 := by
  cases f <;> decide

theorem short_two_pow (f : FloatType) (k : Nat) : Short f.digits (2 ^ k) := by
  have habs : ((2 : Int) ^ k).natAbs = 2 ^ k := by
    rw [Int.natAbs_pow]
    rfl
  refine short_of_dvd f.rounding.pos (n := k) (le_of_eq habs.symm) ?_ ?_
  · rw [habs]
    exact Nat.pow_le_pow_right (by decide) (Nat.le_succ k)
  · have := f.digits_le
    exact two_pow_dvd (by omega)

theorem round_two_pow (f : FloatType) (k : Nat) : f.round (2 ^ k) = 2 ^ k :=
  f.rounding.fixed (f.short_two_pow k)

theorem round_neg_two_pow (f : FloatType) (k : Nat) : f.round (-2 ^ k) = -2 ^ k :=
  f.rounding.fixed (short_neg.mpr (f.short_two_pow k))

theorem round_zero (f : FloatType) : f.round 0 = 0 := f.rounding.fixed (short_zero _)

/-- An integer of 64 bits stays in `2 ^ 63`. -/
theorem round_bounds (f : FloatType) {v : Int} (h : Fits v) :
    -2 ^ 63 ≤ f.round v ∧ f.round v ≤ 2 ^ 63 := by
  unfold Fits INT64_MIN INT64_MAX at h
  constructor
  · rw [← f.round_neg_two_pow 63]
    exact f.rounding.mono (by omega)
  · rw [← f.round_two_pow 63]
    exact f.rounding.mono (by omega)

theorem top_eq (f : FloatType) : f.top = 2 ^ 63 - 2 ^ (63 - f.digits) := rfl

theorem top_bounds (f : FloatType) : 2 ^ 62 < f.top ∧ f.top < 2 ^ 63 - 2 := by
  cases f <;> decide

theorem short_top (f : FloatType) : Short f.digits f.top := by
  refine short_of_dvd (n := 62) ?_ ?_ ?_ ?_
  · cases f <;> decide
  · have := f.top_bounds
    omega
  · have := f.top_bounds
    omega
  · rw [top_eq]
    exact dvd_sub (two_pow_dvd (by omega)) dvd_rfl

/-- Nothing of few bits lies between the largest value and `2 ^ 63`. -/
theorem short_le_top (f : FloatType) {w : Int} (hw : Short f.digits w) (hlt : w < 2 ^ 63) :
    w ≤ f.top := by
  have htop := f.top_bounds
  by_cases hsmall : w ≤ 2 ^ 62
  · omega
  · obtain ⟨c, hc⟩ := hw.dvd (n := 62) (by omega)
    obtain ⟨b, hb⟩ : (2 : Int) ^ (63 - f.digits) ∣ 2 ^ 63 := two_pow_dvd (by omega)
    have hpos : (0 : Int) < 2 ^ (63 - f.digits) := Int.pow_pos (by decide)
    rw [top_eq, hb]
    rw [hb] at hlt
    rw [Nat.add_comm 62] at hc
    generalize (2 : Int) ^ (63 - f.digits) = s at *
    have hcb : c < b := by
      refine Int.lt_of_mul_lt_mul_left ?_ hpos.le
      omega
    have hstep : s * c ≤ s * (b - 1) := Int.mul_le_mul_of_nonneg_left (by omega) hpos.le
    rw [Int.mul_sub, Int.mul_one] at hstep
    omega

theorem round_top_succ (f : FloatType) : f.round (f.top + 1) = f.top := by
  cases f <;> rfl

/-- A type of a wide exponent holds every integer of 64 bits. -/
theorem cast_of_wide {f : FloatType} (hwide : f ≠ .float16) {v : Int} (h : Fits v) :
    f.cast v = .int (f.round v) := by
  obtain ⟨hlo, hhi⟩ := f.round_bounds h
  have hhighest : (2 : Int) ^ 63 ≤ f.highest := by
    cases f with
    | float16 => exact absurd rfl hwide
    | float64 =>
        have hsplit : (2 : Int) ^ 1024 = 2 ^ 971 * 2 ^ 53 := by rw [← pow_add]
        have hpos : (0 : Int) < 2 ^ 971 := Int.pow_pos (by decide)
        have hstep : (2 : Int) ^ 63 ≤ 2 ^ 971 := pow_le_pow_right₀ (by decide) (by decide)
        change (2 : Int) ^ 63 ≤ 2 ^ 1024 - 2 ^ 971
        omega
    | float32 => decide
    | bfloat16 => decide
  rw [cast, if_neg (by omega), if_neg (by omega)]

end FloatType

/-! ## The lower bound -/

section
variable {host : Host} {f : FloatType} {from_ to_ : Int}

theorem toInt_of_fits {v : Int} (h : Fits v) : host.toInt (.int v) = v := if_pos h

/-- The end of the bits of the neighbour of a bound. -/
theorem updateFrom_adjusted (h : Fits (from_ + 1)) (hmin : from_ + 1 ≠ INT64_MIN)
    (hlt : roundTrip host f (from_ + 1) < from_) : updateFrom host 64 f from_ =
      some (wrap64 (roundTrip host f (from_ + 1) + spacing f.digits (from_ + 1))) := by
  unfold updateFrom
  rw [wrap64_of_fits h, if_pos hlt, bitLoop_abs h hmin]
  rfl

theorem updateFrom_kept (h : Fits (from_ + 1)) (hle : from_ ≤ roundTrip host f (from_ + 1)) :
    updateFrom host 64 f from_ = some from_ := by
  unfold updateFrom
  rw [wrap64_of_fits h, if_neg (by omega)]

theorem fromFits_of_le_top (hle : from_ ≤ f.top) (h : from_ ≤ f.round from_) :
    FromFits host f from_ := .inl ⟨h, .inr hle⟩

/-- The lower bound where the neighbour is rounded to an `Int`. -/
theorem updateFrom_int (h : Fits from_) (hmax : from_ ≠ INT64_MAX)
    (hcast : f.cast (from_ + 1) = .int (f.round (from_ + 1)))
    (hint : f.round (from_ + 1) < 2 ^ 63) : ∃ lo, updateFrom host 64 f from_ = some lo ∧ Fits lo ∧
      (from_ ≤ f.round lo ↔ FromFits host f from_) := by
  have hnext : Fits (from_ + 1) := by
    unfold Fits INT64_MIN INT64_MAX at *
    omega
  have hfrom := h
  have hbounds := (f.round_bounds hnext).1
  have htop := f.top_bounds
  have htrip : roundTrip host f (from_ + 1) = f.round (from_ + 1) := by
    rw [roundTrip, hcast]
    refine toInt_of_fits ?_
    unfold Fits INT64_MIN INT64_MAX
    omega
  have hle : f.round from_ ≤ f.round (from_ + 1) := f.rounding.mono (by omega)
  unfold Fits INT64_MIN INT64_MAX at h
  by_cases hlt : f.round (from_ + 1) < from_
  · -- moved to the next value, which may be `2 ^ 63`
    obtain ⟨hshort, habove, hgap⟩ := f.rounding.down (by omega : f.round (from_ + 1) < from_ + 1)
    have hadjusted := @updateFrom_adjusted host f from_ hnext (by unfold INT64_MIN; omega)
      (by rw [htrip]; exact hlt)
    rw [htrip] at hadjusted
    have hlow : ¬from_ ≤ f.round from_ := by omega
    refine ⟨_, hadjusted, fits_wrap64 _, ?_⟩
    by_cases hfits : f.round (from_ + 1) + spacing f.digits (from_ + 1) < 2 ^ 63
    · have hwrap : wrap64 (f.round (from_ + 1) + spacing f.digits (from_ + 1)) =
          f.round (from_ + 1) + spacing f.digits (from_ + 1) := by
        refine wrap64_of_fits ?_
        unfold Fits INT64_MIN INT64_MAX
        omega
      have htople := f.short_le_top hshort hfits
      rw [hwrap, f.rounding.fixed hshort]
      exact iff_of_true (by omega) (.inr ⟨hlt, by omega⟩)
    · have hmax := hgap _ (f.short_two_pow 63) (by omega)
      have hsum : f.round (from_ + 1) + spacing f.digits (from_ + 1) = 2 ^ 63 := by omega
      have hwrap : wrap64 (2 ^ 63) = -2 ^ 63 := by decide
      rw [hsum, hwrap, f.round_neg_two_pow]
      refine iff_of_false (by omega) ?_
      rintro (⟨hge, -⟩ | ⟨-, hletop⟩)
      · exact hlow hge
      · have := hgap _ f.short_top (by omega)
        omega
  · refine ⟨from_, updateFrom_kept hnext (by rw [htrip]; omega), hfrom, ?_⟩
    have hletop := f.short_le_top (f.rounding.short (from_ + 1)) hint
    constructor
    · exact fromFits_of_le_top (by omega)
    · rintro (⟨hge, -⟩ | ⟨hlt', -⟩)
      · exact hge
      · omega

theorem toInt_of_large {v : Int} (h : 2 ^ 63 ≤ v) :
    host.toInt (.int v) = if host = .saturating then INT64_MAX else INT64_MIN := by
  have hout : ¬(INT64_MIN ≤ v ∧ v ≤ INT64_MAX) := by
    unfold INT64_MIN INT64_MAX
    omega
  cases host with
  | indefinite => exact if_neg hout
  | saturating => exact (if_neg hout).trans (if_neg (by omega))

/-- The lower bound where the neighbour is rounded to `2 ^ 63`. -/
theorem updateFrom_large (h : Fits from_) (hmax : from_ ≠ INT64_MAX)
    (hcast : f.cast (from_ + 1) = .int (f.round (from_ + 1)))
    (hlarge : 2 ^ 63 ≤ f.round (from_ + 1)) : ∃ lo, updateFrom host 64 f from_ = some lo ∧ Fits lo ∧
      (from_ ≤ f.round lo ↔ FromFits host f from_) := by
  have hnext : Fits (from_ + 1) := by
    unfold Fits INT64_MIN INT64_MAX at *
    omega
  have hfrom := h
  have htop := f.top_bounds
  have habove : f.top < from_ := by
    by_contra hle
    have hmono := f.rounding.mono (show from_ + 1 ≤ f.top + 1 by omega)
    rw [f.round_top_succ] at hmono
    omega
  have htrip : roundTrip host f (from_ + 1) =
      if host = .saturating then INT64_MAX else INT64_MIN := by
    rw [roundTrip, hcast, toInt_of_large hlarge]
  unfold Fits INT64_MIN INT64_MAX at h
  unfold INT64_MAX at hmax
  cases host with
  | saturating =>
      rw [if_pos rfl] at htrip
      refine ⟨from_, updateFrom_kept hnext (by rw [htrip]; exact hfrom.2), hfrom, ?_⟩
      constructor
      · exact fun hge => .inl ⟨hge, .inl rfl⟩
      · rintro (⟨hge, -⟩ | ⟨-, hle⟩)
        · exact hge
        · omega
  | indefinite =>
      rw [if_neg (by decide)] at htrip
      have hadjusted := @updateFrom_adjusted .indefinite f from_ hnext
        (by unfold INT64_MIN; omega) (by rw [htrip]; unfold INT64_MIN; omega)
      rw [htrip] at hadjusted
      refine ⟨_, hadjusted, fits_wrap64 _, iff_of_false ?_ ?_⟩
      · -- the step of at most `2 ^ 62` leaves the bound negative
        have hspace : spacing f.digits (from_ + 1) ≤ 2 ^ 62 := by
          have hlog : Nat.log2 (from_ + 1).natAbs < 63 :=
            (Nat.log2_lt (by omega)).mpr (by omega)
          have hdigits := f.digits_le
          exact pow_le_pow_right₀ (by decide) (by omega)
        have hpos := spacing_pos f.digits (from_ + 1)
        have hwrap : wrap64 (INT64_MIN + spacing f.digits (from_ + 1)) =
            INT64_MIN + spacing f.digits (from_ + 1) := by
          refine wrap64_of_fits ?_
          unfold Fits INT64_MIN INT64_MAX
          omega
        have hneg : f.round (INT64_MIN + spacing f.digits (from_ + 1)) ≤ f.round 0 := by
          refine f.rounding.mono ?_
          unfold INT64_MIN
          omega
        rw [f.round_zero] at hneg
        rw [hwrap]
        omega
      · rintro (⟨-, hsat | hle⟩ | ⟨-, hle⟩)
        · exact nomatch hsat
        · omega
        · omega

/-! ## The upper bound -/

theorem updateTo_adjusted (h : Fits (to_ - 1)) (hmin : to_ - 1 ≠ INT64_MIN)
    (hge : to_ ≤ roundTrip host f (to_ - 1)) : updateTo host 64 f to_ =
      some (wrap64 (roundTrip host f (to_ - 1) - spacing f.digits (to_ - 1))) := by
  unfold updateTo
  rw [wrap64_of_fits h, if_pos hge, bitLoop_abs h hmin]
  rfl

theorem updateTo_kept (h : Fits (to_ - 1)) (hlt : roundTrip host f (to_ - 1) < to_) :
    updateTo host 64 f to_ = some to_ := by
  unfold updateTo
  rw [wrap64_of_fits h, if_neg (by omega)]

/-- The upper bound where the neighbour is rounded to an `Int`. -/
theorem updateTo_int (h : Fits to_) (hmin : to_ ≠ INT64_MIN)
    (hcast : f.cast (to_ - 1) = .int (f.round (to_ - 1)))
    (hint : f.round (to_ - 1) < 2 ^ 63) : ∃ hi, updateTo host 64 f to_ = some hi ∧ Fits hi ∧
      f.round (hi - 1) < to_ := by
  have hbelow : Fits (to_ - 1) := by
    unfold Fits INT64_MIN INT64_MAX at *
    omega
  have hbounds := (f.round_bounds hbelow).1
  have htrip : roundTrip host f (to_ - 1) = f.round (to_ - 1) := by
    rw [roundTrip, hcast]
    refine toInt_of_fits ?_
    unfold Fits INT64_MIN INT64_MAX
    omega
  by_cases hge : to_ ≤ f.round (to_ - 1)
  · obtain ⟨hshort, hlt, hgap⟩ := f.rounding.up (by omega : to_ - 1 < f.round (to_ - 1))
    have hlow := hgap _ (short_neg.mpr (f.short_two_pow 63))
    have hpos := spacing_pos f.digits (to_ - 1)
    unfold Fits INT64_MIN INT64_MAX at h
    unfold INT64_MIN at hmin
    have hfits : Fits (f.round (to_ - 1) - spacing f.digits (to_ - 1)) := by
      unfold Fits INT64_MIN INT64_MAX
      omega
    have hadjusted := @updateTo_adjusted host f to_ hbelow (by unfold INT64_MIN; omega)
      (by rw [htrip]; exact hge)
    rw [htrip, wrap64_of_fits hfits] at hadjusted
    have hmono := f.rounding.mono (Int.sub_le_self
      (f.round (to_ - 1) - spacing f.digits (to_ - 1)) (by decide : (0 : Int) ≤ 1))
    rw [f.rounding.fixed hshort] at hmono
    exact ⟨_, hadjusted, hfits, by omega⟩
  · exact ⟨to_, updateTo_kept hbelow (by rw [htrip]; omega), h, by omega⟩

/-- The upper bound where the neighbour is rounded to `2 ^ 63`. -/
theorem updateTo_large (h : Fits to_) (hmin : to_ ≠ INT64_MIN)
    (hcast : f.cast (to_ - 1) = .int (f.round (to_ - 1)))
    (hlarge : 2 ^ 63 ≤ f.round (to_ - 1)) : ∃ hi, updateTo host 64 f to_ = some hi ∧ Fits hi ∧
      (f.round (hi - 1) < to_ ↔ host = .saturating) := by
  have hbelow : Fits (to_ - 1) := by
    unfold Fits INT64_MIN INT64_MAX at *
    omega
  have hto := h
  have htop := f.top_bounds
  have habove : f.top < to_ - 1 := by
    by_contra hle
    have hmono := f.rounding.mono (show to_ - 1 ≤ f.top by omega)
    rw [f.rounding.fixed f.short_top] at hmono
    omega
  have htrip : roundTrip host f (to_ - 1) =
      if host = .saturating then INT64_MAX else INT64_MIN := by
    rw [roundTrip, hcast, toInt_of_large hlarge]
  unfold Fits INT64_MIN INT64_MAX at h
  cases host with
  | indefinite =>
      rw [if_neg (by decide)] at htrip
      have hkept := @updateTo_kept .indefinite f to_ hbelow (by rw [htrip]; unfold INT64_MIN; omega)
      exact ⟨to_, hkept, hto, iff_of_false (by omega) (by decide)⟩
  | saturating =>
      rw [if_pos rfl] at htrip
      have hadjusted := @updateTo_adjusted .saturating f to_ hbelow (by unfold INT64_MIN; omega)
        (by rw [htrip]; exact hto.2)
      have hspace : spacing f.digits (to_ - 1) = 2 ^ 63 - f.top := by
        have hlog : Nat.log2 (to_ - 1).natAbs = 62 :=
          (Nat.log2_eq_iff (by omega)).mpr ⟨by omega, by omega⟩
        rw [spacing, hlog, f.top_eq]
        exact (Int.sub_sub_self _ _).symm
      have hdiff : INT64_MAX - spacing f.digits (to_ - 1) = f.top - 1 := by
        rw [hspace]
        unfold INT64_MAX
        omega
      have hfits : Fits (f.top - 1) := by
        unfold Fits INT64_MIN INT64_MAX
        omega
      have hmono := f.rounding.mono (show f.top - 1 - 1 ≤ f.top by omega)
      rw [f.rounding.fixed f.short_top] at hmono
      rw [htrip, hdiff, wrap64_of_fits hfits] at hadjusted
      exact ⟨_, hadjusted, hfits, iff_of_true (by omega) rfl⟩

/-! ## Bounds beyond a narrow type -/

/-- Only float16 has integers of 64 bits beyond its largest value. -/
theorem cast_cases {v : Int} (h : Fits v) : f.cast v = .int (f.round v) ∨
    f = .float16 ∧ ((f.cast v = .inf true ∧ v < -65504) ∨ (f.cast v = .inf false ∧ 65505 < v)) := by
  by_cases hwide : f ≠ .float16
  · exact .inl (FloatType.cast_of_wide hwide h)
  · obtain rfl := not_not.mp hwide
    have hR := FloatType.rounding .float16
    have hlow : FloatType.round .float16 (-65504) = -65504 := rfl
    have hhigh : FloatType.round .float16 65505 = 65504 := rfl
    unfold FloatType.cast FloatType.highest
    dsimp only
    by_cases hneg : FloatType.round .float16 v < -65504
    · refine .inr ⟨rfl, .inl ⟨if_pos hneg, ?_⟩⟩
      by_contra hge
      have := hR.mono (not_lt.mp hge)
      omega
    · by_cases hpos : 65504 < FloatType.round .float16 v
      · refine .inr ⟨rfl, .inr ⟨by rw [if_neg hneg, if_pos hpos], ?_⟩⟩
        by_contra hle
        have := hR.mono (not_lt.mp hle)
        omega
      · left
        rw [if_neg hneg, if_neg hpos]

theorem not_admits_float16 {v : Int} (h : v < -65504 ∨ 65504 < v) :
    (DType.float .float16).admits v = false := by
  have hR := rounding_roundInt (show 0 < 53 by decide)
  have hlow : roundInt 53 (-65505) = -65505 := rfl
  have hhigh : roundInt 53 65505 = 65505 := rfl
  unfold DType.admits FloatType.highest
  dsimp only
  rw [Bool.and_eq_false_iff, decide_eq_false_iff_not, decide_eq_false_iff_not]
  obtain h | h := h
  · have := hR.mono (show v ≤ -65505 by omega)
    omega
  · have := hR.mono (show 65505 ≤ v by omega)
    omega

/-- The size of a step of float16. -/
theorem spacing_float16 {v : Int} (h : Fits v) : 0 < spacing 11 v ∧ spacing 11 v ≤ 2 ^ 53 := by
  have hlog := log2_lt_of_fits h
  exact ⟨spacing_pos _ _, pow_le_pow_right₀ (by decide) (by omega)⟩

theorem updateFrom_inf (h : Fits from_) (hmax : from_ ≠ INT64_MAX) {negative : Bool}
    (hcast : FloatType.cast .float16 (from_ + 1) = .inf negative)
    (hbeyond : if negative then from_ + 1 < -65504 else 65505 < from_ + 1) :
    ∃ lo, updateFrom host 64 .float16 from_ = some lo ∧ Fits lo ∧
      (DType.float .float16).admits lo = false := by
  have hnext : Fits (from_ + 1) := by
    unfold Fits INT64_MIN INT64_MAX at *
    omega
  obtain ⟨hpos, hstep⟩ := spacing_float16 hnext
  have hfrom := h
  unfold Fits INT64_MIN INT64_MAX at h
  by_cases hlt : roundTrip host .float16 (from_ + 1) < from_
  · -- the conversion has given the least integer
    have htrip : roundTrip host .float16 (from_ + 1) = INT64_MIN := by
      rw [roundTrip, hcast] at hlt ⊢
      unfold Host.toInt INT64_MIN INT64_MAX at *
      cases host <;> cases negative <;> first | rfl | (simp at hlt; omega)
    have hmin : from_ + 1 ≠ INT64_MIN := by
      unfold INT64_MIN
      omega
    have hadjusted := updateFrom_adjusted hnext hmin hlt
    rw [htrip] at hadjusted
    have hwrap : wrap64 (INT64_MIN + spacing 11 (from_ + 1)) =
        INT64_MIN + spacing 11 (from_ + 1) := by
      refine wrap64_of_fits ?_
      unfold Fits INT64_MIN INT64_MAX
      omega
    refine ⟨_, hadjusted, fits_wrap64 _, not_admits_float16 (.inl ?_)⟩
    change wrap64 (INT64_MIN + spacing 11 (from_ + 1)) < _
    rw [hwrap]
    unfold INT64_MIN
    omega
  · refine ⟨from_, updateFrom_kept hnext (not_lt.mp hlt), hfrom, not_admits_float16 ?_⟩
    cases negative with
    | true =>
        have : from_ + 1 < -65504 := hbeyond
        omega
    | false =>
        have : 65505 < from_ + 1 := hbeyond
        omega

theorem updateTo_inf (h : Fits to_) (hmin : to_ ≠ INT64_MIN) {negative : Bool}
    (hcast : FloatType.cast .float16 (to_ - 1) = .inf negative)
    (hbeyond : if negative then to_ - 1 < -65504 else 65505 < to_ - 1) :
    ∃ hi, updateTo host 64 .float16 to_ = some hi ∧ Fits hi ∧
      (DType.float .float16).admits (hi - 1) = false := by
  have hbelow : Fits (to_ - 1) := by
    unfold Fits INT64_MIN INT64_MAX at *
    omega
  obtain ⟨hpos, hstep⟩ := spacing_float16 hbelow
  by_cases hge : to_ ≤ roundTrip host .float16 (to_ - 1)
  · unfold Fits INT64_MIN INT64_MAX at h
    unfold INT64_MIN at hmin
    -- the conversion has given the largest integer
    have hlarge : roundTrip host .float16 (to_ - 1) = INT64_MAX ∧ negative = false := by
      rw [roundTrip, hcast] at hge ⊢
      unfold Host.toInt INT64_MIN INT64_MAX at *
      cases host <;> cases negative <;> first | exact ⟨rfl, rfl⟩ | (simp at hge; omega)
    obtain ⟨htrip, rfl⟩ := hlarge
    have hbeyond : 65505 < to_ - 1 := hbeyond
    have hadjusted := updateTo_adjusted hbelow (by unfold INT64_MIN; omega) hge
    have hfits : Fits (INT64_MAX - spacing 11 (to_ - 1)) := by
      unfold Fits INT64_MIN INT64_MAX
      omega
    have hspace : spacing (FloatType.digits .float16) (to_ - 1) = spacing 11 (to_ - 1) := rfl
    rw [htrip, hspace, wrap64_of_fits hfits] at hadjusted
    refine ⟨_, hadjusted, hfits, not_admits_float16 (.inr ?_)⟩
    unfold INT64_MAX
    omega
  · refine ⟨to_, updateTo_kept hbelow (not_le.mp hge), h, not_admits_float16 ?_⟩
    cases negative with
    | true => exact .inl hbeyond
    | false =>
        have : 65505 < to_ - 1 := hbeyond
        omega

/-- The lower bound of a draw: it is rounded to `from` or above exactly where `from` fits. -/
theorem updateFrom_spec (h : Fits from_) (hmax : from_ ≠ INT64_MAX) :
    ∃ lo, updateFrom host 64 f from_ = some lo ∧ Fits lo ∧
      ((DType.float f).admits lo = true → (from_ ≤ f.round lo ↔ FromFits host f from_)) := by
  have hnext : Fits (from_ + 1) := by
    unfold Fits INT64_MIN INT64_MAX at *
    omega
  obtain hcast | ⟨rfl, hinf⟩ := @cast_cases f _ hnext
  · obtain hint | hlarge := lt_or_ge (f.round (from_ + 1)) (2 ^ 63)
    · obtain ⟨lo, heq, hfits, hiff⟩ := updateFrom_int h hmax hcast hint
      exact ⟨lo, heq, hfits, fun _ => hiff⟩
    · obtain ⟨lo, heq, hfits, hiff⟩ := updateFrom_large h hmax hcast hlarge
      exact ⟨lo, heq, hfits, fun _ => hiff⟩
  · have hbeyond : ∃ negative, FloatType.cast .float16 (from_ + 1) = .inf negative ∧
        if negative then from_ + 1 < -65504 else 65505 < from_ + 1 := by
      obtain ⟨hcast, hlow⟩ | ⟨hcast, hhigh⟩ := hinf
      · exact ⟨true, hcast, hlow⟩
      · exact ⟨false, hcast, hhigh⟩
    obtain ⟨negative, hcast, hside⟩ := hbeyond
    obtain ⟨lo, heq, hfits, hrefused⟩ := @updateFrom_inf host from_ h hmax negative hcast hside
    refine ⟨lo, heq, hfits, fun hadmits => ?_⟩
    rw [hrefused] at hadmits
    exact nomatch hadmits

/-- The upper bound of a draw: its largest integer is rounded below `to`, unless a conversion that
gives `INT64_MIN` beyond `2 ^ 63` has hidden the rounding. -/
theorem updateTo_spec (h : Fits to_) (hmin : to_ ≠ INT64_MIN) :
    ∃ hi, updateTo host 64 f to_ = some hi ∧ Fits hi ∧
      ((DType.float f).admits (hi - 1) = true →
        (f.round (hi - 1) < to_ ↔ (host = .indefinite → f.round (to_ - 1) < 2 ^ 63))) := by
  have hbelow : Fits (to_ - 1) := by
    unfold Fits INT64_MIN INT64_MAX at *
    omega
  obtain hcast | ⟨rfl, hinf⟩ := @cast_cases f _ hbelow
  · obtain hint | hlarge := lt_or_ge (f.round (to_ - 1)) (2 ^ 63)
    · obtain ⟨hi, heq, hfits, hlt⟩ := @updateTo_int host f to_ h hmin hcast hint
      exact ⟨hi, heq, hfits, fun _ => iff_of_true hlt fun _ => hint⟩
    · obtain ⟨hi, heq, hfits, hiff⟩ := @updateTo_large host f to_ h hmin hcast hlarge
      refine ⟨hi, heq, hfits, fun _ => hiff.trans ?_⟩
      cases host with
      | indefinite =>
          exact iff_of_false (by decide) fun himp => absurd (himp rfl) (not_lt.mpr hlarge)
      | saturating => exact iff_of_true rfl fun himp => nomatch himp
  · have hbeyond : ∃ negative, FloatType.cast .float16 (to_ - 1) = .inf negative ∧
        if negative then to_ - 1 < -65504 else 65505 < to_ - 1 := by
      obtain ⟨hcast, hlow⟩ | ⟨hcast, hhigh⟩ := hinf
      · exact ⟨true, hcast, hlow⟩
      · exact ⟨false, hcast, hhigh⟩
    obtain ⟨negative, hcast, hside⟩ := hbeyond
    obtain ⟨hi, heq, hfits, hrefused⟩ := @updateTo_inf host to_ h hmin negative hcast hside
    refine ⟨hi, heq, hfits, fun hadmits => ?_⟩
    rw [hrefused] at hadmits
    exact nomatch hadmits

/-- The neighbour above the largest integer is the least one, which has no absolute value. -/
theorem updateFrom_max (fuel : Nat) : updateFrom host fuel f INT64_MAX = none := by
  have hwrap : wrap64 (INT64_MAX + 1) = -2 ^ 63 := by decide
  have habs : wrap64 |(-2 : Int) ^ 63| = -2 ^ 63 := by decide
  have hlt : roundTrip host f (-2 ^ 63) < INT64_MAX := by
    have hfits : Fits (-2 ^ 63) := by
      unfold Fits
      decide
    have hround := f.round_neg_two_pow 63
    obtain hcast | ⟨rfl, -⟩ := @cast_cases f _ hfits
    · rw [roundTrip, hcast, hround]
      cases host <;> decide
    · cases host <;> decide
  unfold updateFrom
  rw [hwrap, if_pos hlt]
  have hloop : bitLoop fuel (wrap64 |(-2 ^ 63 : Int)|) 0 = none := bitLoop_neg (by decide)
  rw [hloop]
  rfl

end

end TorchMojoBackend.Ops.RandomRange
