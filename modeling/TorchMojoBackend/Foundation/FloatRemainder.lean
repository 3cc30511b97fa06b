/-
  `Foundation.FloatRemainder`: the remainder of two floats.

  Everything in this file is independent of the modelled program.  Long division keeps a
  number below twice the divisor and doubles it; a float with its leading bit in place is a
  mantissa times a power of two, also where its exponent field is zero.
-/
import Mathlib.Tactic.FieldSimp
import Mathlib.Tactic.LinearCombination
import TorchMojoBackend.Foundation.ExactFloat
import TorchMojoBackend.Foundation.FloatBits

set_option autoImplicit false

namespace TorchMojoBackend.Foundation

/-! ## Long division -/

/-- One subtraction, where there is one. -/
def reduceOnce (d h : Nat) : Nat := if d ≤ h then h - d else h

theorem reduceOnce_lt {d h : Nat} (hlt : h < 2 * d) : reduceOnce d h < d := by
  unfold reduceOnce
  split <;> omega

theorem reduceOnce_mul_mod (d h c : Nat) : reduceOnce d h * c % d = h * c % d := by
  unfold reduceOnce
  split
  · rename_i hle
    obtain ⟨r, rfl⟩ := Nat.exists_eq_add_of_le hle
    rw [Nat.add_sub_cancel_left, Nat.add_mul, Nat.mul_add_mod]
  · rfl

theorem reduceOnce_eq {d h : Nat} (hlt : h < 2 * d) : reduceOnce d h = h % d := by
  have hmod := reduceOnce_mul_mod d h 1
  rwa [Nat.mul_one, Nat.mul_one, Nat.mod_eq_of_lt (reduceOnce_lt hlt)] at hmod

/-- A step of long division: one more doubling is left out of the power. -/
theorem reduceOnce_double_mod (d h k : Nat) :
    reduceOnce d h * 2 * 2 ^ k % d = h * 2 ^ (k + 1) % d := by
  rw [Nat.mul_assoc, reduceOnce_mul_mod, Nat.pow_succ, Nat.mul_comm 2]

/-- A number of at most `M + 1` bits can be shifted so that it has them all. -/
theorem exists_shift {M h : Nat} (hpos : 0 < h) (hlt : h < 2 ^ (M + 1)) :
    ∃ j, j ≤ M ∧ 2 ^ M ≤ h * 2 ^ j ∧ h * 2 ^ j < 2 ^ (M + 1) := by
  have hne : h ≠ 0 := Nat.ne_of_gt hpos
  have hlog : Nat.log2 h ≤ M := Nat.le_of_lt_succ ((Nat.log2_lt hne).mpr hlt)
  refine ⟨M - Nat.log2 h, Nat.sub_le _ _, ?_, ?_⟩
  · calc 2 ^ M = 2 ^ Nat.log2 h * 2 ^ (M - Nat.log2 h) := by
          rw [← Nat.pow_add, Nat.add_sub_cancel' hlog]
      _ ≤ _ := Nat.mul_le_mul_right _ (Nat.log2_self_le hne)
  · calc h * 2 ^ (M - Nat.log2 h) < 2 ^ (Nat.log2 h + 1) * 2 ^ (M - Nat.log2 h) :=
          Nat.mul_lt_mul_of_pos_right ((Nat.log2_lt hne).mp (Nat.lt_succ_self _))
            (Nat.two_pow_pos _)
      _ = 2 ^ (M + 1) := by rw [← Nat.pow_add]; congr 1; omega

/-! ## Mantissas with their leading bit -/

/-- `units` is the mantissa `m` of `M + 1` bits at the exponent `a`, `M` places further up. -/
structure Normalised (M units m a : Nat) : Prop where
  lo : 2 ^ M ≤ m
  hi : m < 2 ^ (M + 1)
  eq : units * 2 ^ M = m * 2 ^ a

namespace Normalised

variable {M X mx a Y my b : Nat}

theorem pos (hx : Normalised M X mx a) : 0 < X := by
  have hm := Nat.lt_of_lt_of_le (Nat.two_pow_pos M) hx.lo
  have hpos : 0 < X * 2 ^ M := hx.eq ▸ Nat.mul_pos hm (Nat.two_pow_pos a)
  exact Nat.pos_of_mul_pos_right hpos

/-- The larger number has the larger exponent. -/
theorem exponent_le (hx : Normalised M X mx a) (hy : Normalised M Y my b) (hle : Y ≤ X) :
    b ≤ a := by
  by_contra hlt
  have hpow : 2 ^ (a + 1) ≤ 2 ^ b := Nat.pow_le_pow_right (by decide) (by omega)
  have hless : mx * 2 ^ a < my * 2 ^ b := by
    calc mx * 2 ^ a < 2 ^ (M + 1) * 2 ^ a := Nat.mul_lt_mul_of_pos_right hx.hi (Nat.two_pow_pos a)
      _ = 2 ^ M * 2 ^ (a + 1) := by rw [← Nat.pow_add, ← Nat.pow_add]; congr 1; omega
      _ ≤ my * 2 ^ b := Nat.mul_le_mul hy.lo hpow
  rw [← hx.eq, ← hy.eq] at hless
  exact absurd (Nat.mul_le_mul_right (2 ^ M) hle) (Nat.not_le_of_lt hless)

theorem lt_two_mul (hx : Normalised M X mx a) (hy : Normalised M Y my b) : mx < 2 * my := by
  have hhi := hx.hi
  have hlo := hy.lo
  rw [Nat.pow_succ] at hhi
  omega

/-- The remainder of the numbers is that of the mantissas, once they are aligned. -/
theorem mod_eq (hx : Normalised M X mx a) (hy : Normalised M Y my b) (hle : b ≤ a) :
    mx * 2 ^ (a - b) % my * 2 ^ b = X % Y * 2 ^ M := by
  rw [← Nat.mul_mod_mul_right, ← Nat.mul_mod_mul_right, hx.eq, hy.eq, Nat.mul_assoc,
    ← Nat.pow_add, Nat.sub_add_cancel hle]

/-- A nonzero remainder gets its leading bit back before its exponent runs out. -/
theorem of_shift {R c Z : Nat} (hZ : 0 < Z) (heq : R * 2 ^ b = Z * 2 ^ M)
    (hlo : 2 ^ M ≤ R * 2 ^ c) (hhi : R * 2 ^ c < 2 ^ (M + 1)) :
    c ≤ b ∧ Normalised M Z (R * 2 ^ c) (b - c) := by
  have hc : c ≤ b := by
    by_contra hlt
    have hge : Z * 2 ^ M * 2 ≤ R * 2 ^ c := by
      rw [← heq, Nat.mul_assoc, ← Nat.pow_succ]
      exact Nat.mul_le_mul_left _ (Nat.pow_le_pow_right (by decide) (by omega))
    have hone : 2 ^ (M + 1) ≤ Z * 2 ^ M * 2 := by
      rw [Nat.pow_succ]
      exact Nat.mul_le_mul_right 2 (Nat.le_mul_of_pos_left _ hZ)
    omega
  refine ⟨hc, hlo, hhi, ?_⟩
  rw [← heq, Nat.mul_assoc, ← Nat.pow_add, Nat.add_sub_cancel' hc]

/-- A number whose exponent has run out is its mantissa shifted down, and no bit is lost. -/
theorem shift_eq (hx : Normalised M X mx a) (ha : a < M) :
    mx = X * 2 ^ (M - a) ∧ X < 2 ^ M := by
  have heq : mx = X * 2 ^ (M - a) := by
    refine Nat.eq_of_mul_eq_mul_right (Nat.two_pow_pos a) ?_
    rw [← hx.eq, Nat.mul_assoc, ← Nat.pow_add, Nat.sub_add_cancel (Nat.le_of_lt ha)]
  refine ⟨heq, ?_⟩
  have hpow : 2 ^ 1 ≤ 2 ^ (M - a) := Nat.pow_le_pow_right (by decide) (by omega)
  have hle : X * 2 ≤ X * 2 ^ (M - a) := Nat.mul_le_mul_left X hpow
  have hhi := hx.hi
  rw [Nat.pow_succ] at hhi
  omega

end Normalised

namespace FloatFormat

variable (f : FloatFormat)

/-- The magnitude of a number, in units of the least subnormal. -/
def units (b : Nat) : Nat := f.scale (f.exponent b) (f.mantissa b)

def isFinite (b : Nat) : Bool := f.exponent b != 2 ^ f.exponentBits - 1

/-- The place of the least subnormal's bit after the point. -/
def leastPlace : Nat := 2 ^ (f.exponentBits - 1) - 2 + f.mantissaBits

def signRat (b : Nat) : ℚ := if f.sign b then -1 else 1

/-- The number of a finite pattern. -/
def toRat (b : Nat) : ℚ := f.signRat b * f.units b / 2 ^ f.leastPlace

/-- The pattern of a sign, an exponent and a mantissa. -/
def pack (sign : Bool) (exponent mantissa : Nat) : Nat :=
  (if sign then 2 ^ f.lowBits else 0) + exponent * 2 ^ f.mantissaBits + mantissa

variable {f}

theorem exponent_lt (b : Nat) : f.exponent b < 2 ^ f.exponentBits := by
  refine Nat.div_lt_of_lt_mul ?_
  rw [← Nat.pow_add]
  exact Nat.mod_lt _ (Nat.two_pow_pos _)

theorem isFinite_iff {b : Nat} : f.isFinite b = true ↔ f.low b < f.infBits := by
  have hlt := f.exponent_lt b
  have hpos := Nat.two_pow_pos f.exponentBits
  rw [isFinite, bne_iff_ne, infBits, ← Nat.div_lt_iff_lt_mul (Nat.two_pow_pos f.mantissaBits)]
  change _ ↔ f.exponent b < _
  omega

theorem mantissa_lt (b : Nat) : f.mantissa b < 2 ^ f.mantissaBits :=
  Nat.mod_lt _ (Nat.two_pow_pos _)

theorem pack_low {e m : Nat} (he : e < 2 ^ f.exponentBits) (hm : m < 2 ^ f.mantissaBits) :
    e * 2 ^ f.mantissaBits + m < 2 ^ f.lowBits := by
  have hle := Nat.mul_le_mul_right (2 ^ f.mantissaBits) (Nat.succ_le_of_lt he)
  rw [Nat.succ_mul, ← Nat.pow_add, Nat.add_comm f.exponentBits] at hle
  exact Nat.lt_of_lt_of_le (Nat.add_lt_add_left hm _) hle

theorem low_pack {s : Bool} {e m : Nat} (he : e < 2 ^ f.exponentBits)
    (hm : m < 2 ^ f.mantissaBits) : f.low (f.pack s e m) = e * 2 ^ f.mantissaBits + m := by
  have hlt := pack_low he hm
  unfold low pack
  rw [Nat.add_assoc]
  split
  · rw [Nat.add_mod_left, Nat.mod_eq_of_lt hlt]
  · rw [Nat.zero_add, Nat.mod_eq_of_lt hlt]

theorem sign_pack {s : Bool} {e m : Nat} (he : e < 2 ^ f.exponentBits)
    (hm : m < 2 ^ f.mantissaBits) : f.sign (f.pack s e m) = s := by
  have hlt := pack_low he hm
  unfold sign pack
  cases s
  · exact decide_eq_false (by rw [if_neg Bool.false_ne_true]; omega)
  · exact decide_eq_true (by rw [if_pos rfl]; omega)

theorem exponent_pack {s : Bool} {e m : Nat} (he : e < 2 ^ f.exponentBits)
    (hm : m < 2 ^ f.mantissaBits) : f.exponent (f.pack s e m) = e := by
  rw [exponent, low_pack he hm, Nat.mul_comm, Nat.mul_add_div (Nat.two_pow_pos _),
    Nat.div_eq_of_lt hm, Nat.add_zero]

theorem mantissa_pack {s : Bool} {e m : Nat} (he : e < 2 ^ f.exponentBits)
    (hm : m < 2 ^ f.mantissaBits) : f.mantissa (f.pack s e m) = m := by
  rw [mantissa, low_pack he hm, Nat.mul_comm, Nat.mul_add_mod, Nat.mod_eq_of_lt hm]

/-! ### Fields by masks -/

theorem low_eq_and (b : Nat) : b &&& (2 ^ f.lowBits - 1) = f.low b :=
  Nat.and_two_pow_sub_one_eq_mod b _

theorem pack_zero (s : Bool) : f.pack s 0 0 = if s then 2 ^ f.lowBits else 0 := by
  rw [pack, Nat.zero_mul, Nat.add_zero]

theorem signBit_eq_and {b : Nat} (hb : b < 2 ^ (f.lowBits + 1)) :
    b &&& 2 ^ f.lowBits = f.pack (f.sign b) 0 0 := by
  have hbit : b.testBit f.lowBits = f.sign b := by
    unfold sign
    by_cases hle : 2 ^ f.lowBits ≤ b
    · rw [Nat.testBit_of_two_pow_le_and_two_pow_add_one_gt hle hb, decide_eq_true hle]
    · rw [Nat.testBit_lt_two_pow (Nat.lt_of_not_le hle), decide_eq_false hle]
  refine Nat.eq_of_testBit_eq fun i => ?_
  rw [Nat.testBit_and, Nat.testBit_two_pow, pack_zero, ← hbit]
  by_cases hi : f.lowBits = i
  · subst hi
    cases hs : b.testBit f.lowBits
    · exact (Nat.zero_testBit _).symm
    · rw [if_pos rfl, Nat.testBit_two_pow_self, Bool.true_and, decide_eq_true rfl]
  · rw [decide_eq_false hi, Bool.and_false]
    split
    · rw [Nat.testBit_two_pow, decide_eq_false hi]
    · exact (Nat.zero_testBit i).symm

theorem pack_eq_or {s : Bool} {e m : Nat} (he : e < 2 ^ f.exponentBits)
    (hm : m < 2 ^ f.mantissaBits) :
    m ||| e * 2 ^ f.mantissaBits ||| f.pack s 0 0 = f.pack s e m := by
  have hor : m ||| e * 2 ^ f.mantissaBits = e * 2 ^ f.mantissaBits + m := by
    rw [Nat.or_comm, Nat.mul_comm, ← Nat.two_pow_add_eq_or_of_lt hm]
  rw [hor, pack_zero, pack, Nat.add_assoc]
  cases s
  · rw [if_neg Bool.false_ne_true, Nat.zero_add, Nat.or_zero]
  · rw [if_pos rfl, Nat.or_comm]
    have hadd := Nat.two_pow_add_eq_or_of_lt (pack_low he hm) 1
    rw [Nat.mul_one] at hadd
    exact hadd.symm

theorem units_lt_iff {a b : Nat} : f.units a < f.units b ↔ f.low a < f.low b :=
  f.scale_strictMono.lt_iff_lt

theorem units_eq_iff {a b : Nat} : f.units a = f.units b ↔ f.low a = f.low b :=
  f.scale_strictMono.injective.eq_iff

theorem units_eq_zero_iff {b : Nat} : f.units b = 0 ↔ f.low b = 0 := by
  have hzero : f.units 0 = 0 := by
    rw [units, exponent, mantissa, low, Nat.zero_mod, Nat.zero_div, Nat.zero_mod]
    rfl
  have hlow : f.low 0 = 0 := Nat.zero_mod _
  have heq : f.units b = f.units 0 ↔ f.low b = f.low 0 := units_eq_iff
  rwa [hzero, hlow] at heq

/-! ## A number as a mantissa with its leading bit -/

theorem normalised_of_normal {b : Nat} (he : f.exponent b ≠ 0) :
    Normalised f.mantissaBits (f.units b) (f.mantissa b + 2 ^ f.mantissaBits)
      (f.exponent b - 1 + f.mantissaBits) := by
  have hm := f.mantissa_lt b
  refine ⟨Nat.le_add_left _ _, by rw [Nat.pow_succ]; omega, ?_⟩
  rw [units, scale, if_neg he, Nat.mul_assoc, ← Nat.pow_add, Nat.add_comm (2 ^ _)]

theorem normalised_of_subnormal {b j : Nat} (he : f.exponent b = 0)
    (hlo : 2 ^ f.mantissaBits ≤ f.mantissa b * 2 ^ j)
    (hhi : f.mantissa b * 2 ^ j < 2 ^ (f.mantissaBits + 1)) :
    j ≤ f.mantissaBits ∧
      Normalised f.mantissaBits (f.units b) (f.mantissa b * 2 ^ j) (f.mantissaBits - j) := by
  have hunits : f.units b = f.mantissa b := by rw [units, scale, if_pos he]
  have hpos : 0 < f.mantissa b := by
    refine Nat.pos_of_ne_zero fun hzero => ?_
    rw [hzero, Nat.zero_mul] at hlo
    exact absurd (Nat.two_pow_pos f.mantissaBits) (Nat.not_lt_of_le hlo)
  rw [hunits]
  exact Normalised.of_shift hpos rfl hlo hhi

/-- A number from its mantissa with the leading bit in place. -/
theorem units_pack_normal {Z r a : Nat} (h : Normalised f.mantissaBits Z r a)
    (ha : f.mantissaBits ≤ a) (s : Bool) (he : a - f.mantissaBits + 1 < 2 ^ f.exponentBits) :
    f.units (f.pack s (a - f.mantissaBits + 1) (r - 2 ^ f.mantissaBits)) = Z := by
  have hlo := h.lo
  have hhi := h.hi
  rw [Nat.pow_succ] at hhi
  have hm : r - 2 ^ f.mantissaBits < 2 ^ f.mantissaBits := by omega
  rw [units, exponent_pack he hm, mantissa_pack he hm, scale, if_neg (Nat.succ_ne_zero _),
    Nat.add_sub_cancel' hlo, Nat.add_sub_cancel]
  refine Nat.eq_of_mul_eq_mul_right (Nat.two_pow_pos f.mantissaBits) ?_
  rw [h.eq, Nat.mul_assoc, ← Nat.pow_add, Nat.sub_add_cancel ha]

theorem units_pack_subnormal {Z : Nat} (hZ : Z < 2 ^ f.mantissaBits) (s : Bool) :
    f.units (f.pack s 0 Z) = Z := by
  rw [units, exponent_pack (Nat.two_pow_pos _) hZ, mantissa_pack (Nat.two_pow_pos _) hZ, scale,
    if_pos rfl]

end FloatFormat

/-! ## The remainder -/

theorem ExactFloat.truncate_div (n d : Nat) : ExactFloat.truncate ((n : ℚ) / d) = (n / d : Nat) := by
  unfold ExactFloat.truncate
  rw [if_pos (by positivity), Rat.floor_natCast_div_natCast]
  rfl

theorem ExactFloat.truncate_neg (q : ℚ) : ExactFloat.truncate (-q) = -ExactFloat.truncate q := by
  unfold ExactFloat.truncate
  rcases lt_trichotomy q 0 with hneg | rfl | hpos
  · rw [if_pos (by linarith), if_neg (by linarith), Int.floor_neg]
  · simp
  · rw [if_neg (by linarith), if_pos hpos.le, Int.ceil_neg]

namespace FloatFormat

variable {f : FloatFormat}

theorem signRat_mul_self (b : Nat) : f.signRat b * f.signRat b = 1 := by
  unfold signRat
  split <;> norm_num

theorem truncate_signRat_mul (b : Nat) (q : ℚ) :
    (ExactFloat.truncate (f.signRat b * q) : ℚ) = f.signRat b * ExactFloat.truncate q := by
  unfold signRat
  split
  · rw [neg_one_mul, neg_one_mul, ExactFloat.truncate_neg, Int.cast_neg]
  · rw [one_mul, one_mul]

/-- The remainder of the units, with the sign of the dividend, is the remainder of the numbers. -/
theorem toRat_mod {x y r : Nat} (hy : f.units y ≠ 0) (hsign : f.sign r = f.sign x)
    (hunits : f.units r = f.units x % f.units y) :
    f.toRat r = f.toRat x - ExactFloat.truncate (f.toRat x / f.toRat y) * f.toRat y := by
  have hsr : f.signRat r = f.signRat x := by rw [signRat, signRat, hsign]
  have hyne : (f.units y : ℚ) ≠ 0 := Nat.cast_ne_zero.mpr hy
  have hp : (2 : ℚ) ^ f.leastPlace ≠ 0 := pow_ne_zero _ two_ne_zero
  have hsx := f.signRat_mul_self x
  have hsy := f.signRat_mul_self y
  have hsyne : f.signRat y ≠ 0 := fun h => by rw [h, mul_zero] at hsy; exact zero_ne_one hsy
  have hquot : f.toRat x / f.toRat y =
      f.signRat x * (f.signRat y * ((f.units x : ℚ) / f.units y)) := by
    unfold toRat
    field_simp
    rw [pow_two, hsy, mul_one]
  have hmod : (f.units r : ℚ) =
      f.units x - (f.units x / f.units y : Nat) * f.units y := by
    rw [hunits, eq_sub_iff_add_eq]
    exact_mod_cast Nat.mod_add_div' (f.units x) (f.units y)
  rw [hquot, truncate_signRat_mul, truncate_signRat_mul, ExactFloat.truncate_div]
  unfold toRat
  rw [hsr, hmod, Int.cast_natCast]
  linear_combination (f.signRat x * (f.units x / f.units y : Nat) * f.units y /
    2 ^ f.leastPlace) * hsy

end FloatFormat

end TorchMojoBackend.Foundation
