/-
  `Foundation.FloatBits`: the numbers that the patterns of a float format stand for.

  Everything in this file is independent of the modelled program.  A pattern has a sign
  bit, an exponent field and a mantissa field.  Patterns that are no number apart, the
  order of the numbers is that of the patterns read as a sign and a magnitude, the two
  zeros being equal.
-/
import Mathlib.Algebra.Order.Field.Power
import Mathlib.Algebra.Order.Field.Rat
import Mathlib.Order.Monotone.Basic
import Mathlib.Order.WithBot
import Mathlib.Tactic.FieldSimp
import Mathlib.Tactic.Ring

set_option autoImplicit false

namespace TorchMojoBackend.Foundation

/-- The widths of the fields of a binary interchange format. -/
structure FloatFormat where
  exponentBits : Nat
  mantissaBits : Nat

namespace FloatFormat

variable (f : FloatFormat)

/-- The bits below the sign bit. -/
def lowBits : Nat := f.mantissaBits + f.exponentBits

/-- The pattern of infinity. -/
def infBits : Nat := (2 ^ f.exponentBits - 1) * 2 ^ f.mantissaBits

def sign (b : Nat) : Bool := decide (2 ^ f.lowBits ≤ b)

/-- The fields below the sign. -/
def low (b : Nat) : Nat := b % 2 ^ f.lowBits

def exponent (b : Nat) : Nat := f.low b / 2 ^ f.mantissaBits

def mantissa (b : Nat) : Nat := f.low b % 2 ^ f.mantissaBits

def isNaN (b : Nat) : Bool :=
  f.exponent b == 2 ^ f.exponentBits - 1 && f.mantissa b != 0

/-- What an exponent and a mantissa stand for, in units of the least subnormal. -/
def scale (exponent mantissa : Nat) : Nat :=
  if exponent = 0 then mantissa
  else (2 ^ f.mantissaBits + mantissa) * 2 ^ (exponent - 1)

/-- The number of a pattern; infinity is the number after the last. -/
def value (b : Nat) : Option Int :=
  if f.isNaN b then none
  else
    let magnitude : Int := f.scale (f.exponent b) (f.mantissa b)
    some (if f.sign b then -magnitude else magnitude)

/-- A pattern read as a sign and a magnitude. -/
def signed (b : Nat) : Int := if f.sign b then -(f.low b : Int) else f.low b

variable {f}

theorem isNaN_iff {b : Nat} : f.isNaN b = true ↔ f.infBits < f.low b := by
  have hpos := Nat.two_pow_pos f.mantissaBits
  have hlow : f.low b < 2 ^ f.mantissaBits * 2 ^ f.exponentBits := by
    rw [← Nat.pow_add]
    exact Nat.mod_lt _ (Nat.two_pow_pos _)
  have hexp : f.exponent b < 2 ^ f.exponentBits := Nat.div_lt_of_lt_mul hlow
  have hsplit := Nat.div_add_mod (f.low b) (2 ^ f.mantissaBits)
  have hman := Nat.mod_lt (f.low b) hpos
  unfold isNaN infBits
  rw [Bool.and_eq_true, beq_iff_eq, bne_iff_ne]
  change _ < _ at hman
  constructor
  · rintro ⟨heq, hne⟩
    rw [← heq, Nat.mul_comm]
    exact Nat.lt_of_lt_of_eq (Nat.lt_add_of_pos_right (Nat.pos_of_ne_zero hne)) hsplit
  · intro hlt
    have hge : 2 ^ f.exponentBits - 1 ≤ f.exponent b :=
      (Nat.le_div_iff_mul_le hpos).mpr (Nat.le_of_lt hlt)
    have heq : f.exponent b = 2 ^ f.exponentBits - 1 := by omega
    refine ⟨heq, fun hzero => ?_⟩
    rw [← heq, Nat.mul_comm] at hlt
    unfold mantissa at hzero
    unfold exponent at hlt
    omega

/-- One pattern further is one unit of the exponent further. -/
theorem scale_succ (n : Nat) :
    f.scale ((n + 1) / 2 ^ f.mantissaBits) ((n + 1) % 2 ^ f.mantissaBits) =
      f.scale (n / 2 ^ f.mantissaBits) (n % 2 ^ f.mantissaBits) + 2 ^ (n / 2 ^ f.mantissaBits - 1) := by
  unfold scale
  have hpos := Nat.two_pow_pos f.mantissaBits
  generalize 2 ^ f.mantissaBits = M at hpos ⊢
  have hman := Nat.mod_lt n hpos
  by_cases hlast : n % M + 1 = M
  · -- the next exponent
    have hdiv : (n + 1) / M = n / M + 1 := by
      rw [← Nat.div_add_mod n M, Nat.add_assoc, hlast, Nat.mul_add_div hpos,
        Nat.mul_add_div hpos, Nat.div_self hpos, Nat.div_eq_of_lt hman, Nat.add_zero]
    have hmod : (n + 1) % M = 0 := by
      rw [← Nat.mod_add_mod, hlast, Nat.mod_self]
    rw [hdiv, hmod, if_neg (Nat.succ_ne_zero _), Nat.add_sub_cancel]
    split
    · rename_i hzero
      simp only [hzero, Nat.pow_zero, Nat.zero_sub]
      omega
    · rename_i hne
      have hpow : 2 ^ (n / M) = 2 ^ (n / M - 1) * 2 := by
        rw [← Nat.pow_succ, Nat.succ_eq_add_one, Nat.sub_add_cancel (Nat.pos_of_ne_zero hne)]
      have hsum : M + n % M = 2 * M - 1 := by omega
      rw [hpow, hsum, Nat.mul_comm (2 ^ _) 2, ← Nat.mul_assoc, ← Nat.succ_mul]
      congr 1
      omega
  · have hlt : n % M + 1 < M := by omega
    have hdiv : (n + 1) / M = n / M := by
      rw [← Nat.div_add_mod n M, Nat.add_assoc, Nat.mul_add_div hpos, Nat.mul_add_div hpos,
        Nat.div_eq_of_lt hlt, Nat.div_eq_of_lt hman]
    have hmod : (n + 1) % M = n % M + 1 := by
      rw [← Nat.mod_add_mod, Nat.mod_eq_of_lt hlt]
    rw [hdiv, hmod]
    split
    · rename_i hzero
      rw [hzero, Nat.zero_sub, Nat.pow_zero]
    · rw [← Nat.add_assoc, Nat.succ_mul]

theorem scale_lt_succ (n : Nat) :
    f.scale (n / 2 ^ f.mantissaBits) (n % 2 ^ f.mantissaBits) <
      f.scale ((n + 1) / 2 ^ f.mantissaBits) ((n + 1) % 2 ^ f.mantissaBits) := by
  rw [scale_succ]
  exact Nat.lt_add_of_pos_right (Nat.two_pow_pos _)

theorem scale_strictMono : StrictMono fun n =>
    f.scale (n / 2 ^ f.mantissaBits) (n % 2 ^ f.mantissaBits) :=
  strictMono_nat_of_lt_succ scale_lt_succ

/-- The order of the numbers. -/
theorem value_lt_iff {a b : Nat} {x y : Int} (ha : f.value a = some x) (hb : f.value b = some y) :
    x < y ↔ f.signed a < f.signed b := by
  have hlt := f.scale_strictMono.lt_iff_lt (a := f.low a) (b := f.low b)
  have hgt := f.scale_strictMono.lt_iff_lt (a := f.low b) (b := f.low a)
  have hza := f.scale_strictMono.lt_iff_lt (a := 0) (b := f.low a)
  have hzb := f.scale_strictMono.lt_iff_lt (a := 0) (b := f.low b)
  have hzero : f.scale (0 / 2 ^ f.mantissaBits) (0 % 2 ^ f.mantissaBits) = 0 := by
    rw [Nat.zero_div, Nat.zero_mod]
    rfl
  rw [hzero] at hza hzb
  unfold value exponent mantissa at ha hb
  dsimp only at ha hb
  split at ha
  · exact absurd ha (by simp)
  · split at hb
    · exact absurd hb (by simp)
    · obtain rfl := Option.some.inj ha
      obtain rfl := Option.some.inj hb
      unfold signed
      split <;> split <;> omega

/-! ## The numbers themselves -/

variable (f)

/-- The exponent field of the number 1. -/
def bias : Nat := 2 ^ (f.exponentBits - 1) - 1

/-- The least subnormal. -/
def least : ℚ := 2 ^ (1 - (f.bias : Int) - f.mantissaBits)

/-- The magnitude of a number that is not infinite. -/
def magnitude (exponent mantissa : Nat) : ℚ :=
  if exponent = 0 then mantissa / 2 ^ f.mantissaBits * 2 ^ (1 - (f.bias : Int))
  else (1 + mantissa / 2 ^ f.mantissaBits) * 2 ^ (exponent - (f.bias : Int))

/-- A number among the infinities. -/
def finite (q : ℚ) : WithBot (WithTop ℚ) := WithBot.some (WithTop.some q)

/-- The number of a pattern, or an infinity. -/
def ieee (b : Nat) : Option (WithBot (WithTop ℚ)) :=
  if f.isNaN b then none
  else if f.exponent b = 2 ^ f.exponentBits - 1 then some (if f.sign b then ⊥ else ⊤)
  else
    let number : ℚ := f.magnitude (f.exponent b) (f.mantissa b)
    some (finite (if f.sign b then -number else number))

variable {f}

theorem least_pos : 0 < f.least := zpow_pos two_pos _

theorem magnitude_eq (exponent mantissa : Nat) :
    f.magnitude exponent mantissa = f.scale exponent mantissa * f.least := by
  have hsplit : f.least = 2 ^ (1 - (f.bias : Int)) / 2 ^ f.mantissaBits := by
    rw [least, zpow_sub₀ two_ne_zero, zpow_natCast]
  unfold magnitude scale
  rw [hsplit]
  split
  · ring
  · rename_i hne
    have hpow : (2 : ℚ) ^ (exponent - (f.bias : Int)) = 2 ^ (exponent - 1) * 2 ^ (1 - (f.bias : Int)) := by
      rw [← zpow_natCast, ← zpow_add₀ two_ne_zero]
      congr 1
      omega
    have hpos : (2 : ℚ) ^ f.mantissaBits ≠ 0 := pow_ne_zero _ two_ne_zero
    rw [hpow]
    push_cast
    field_simp

/-- The value of infinity. -/
def top (f : FloatFormat) : Nat := f.scale (2 ^ f.exponentBits - 1) 0

theorem scale_lt_top {b : Nat} (hb : f.exponent b < 2 ^ f.exponentBits - 1) :
    f.scale (f.exponent b) (f.mantissa b) < f.top := by
  have hpos := Nat.two_pow_pos f.mantissaBits
  have hlow : f.low b < f.infBits := Nat.lt_mul_of_div_lt hb hpos
  have hlt := f.scale_strictMono hlow
  unfold infBits at hlt
  dsimp only at hlt
  rwa [Nat.mul_div_cancel _ hpos, Nat.mul_mod_left] at hlt

/-- The number of a value. -/
theorem ieee_of_value {b : Nat} {x : Int} (h : f.value b = some x) :
    (x.natAbs < f.top ∧ f.ieee b = some (finite (x * f.least))) ∨
      (x = f.top ∧ f.ieee b = some ⊤) ∨ (x = -f.top ∧ f.ieee b = some ⊥) := by
  unfold value at h
  unfold ieee
  split at h
  · cases h
  · rename_i hnan
    rw [if_neg hnan]
    obtain rfl := Option.some.inj h
    by_cases htop : f.exponent b = 2 ^ f.exponentBits - 1
    · have hmantissa : f.mantissa b = 0 := by
        unfold isNaN at hnan
        rw [htop] at hnan
        simpa using hnan
      rw [if_pos htop, htop, hmantissa]
      by_cases hs : f.sign b = true
      · rw [if_pos hs, if_pos hs]
        exact .inr (.inr ⟨rfl, rfl⟩)
      · rw [if_neg hs, if_neg hs]
        exact .inr (.inl ⟨rfl, rfl⟩)
    · have hexp : f.exponent b < 2 ^ f.exponentBits := by
        refine Nat.div_lt_of_lt_mul ?_
        rw [← Nat.pow_add]
        exact Nat.mod_lt _ (Nat.two_pow_pos _)
      have hlt := scale_lt_top (f := f) (b := b) (by omega)
      rw [if_neg htop, magnitude_eq]
      refine .inl ⟨?_, ?_⟩
      · split <;> omega
      · split
        · rw [Int.cast_neg, neg_mul, Int.cast_natCast]
        · rw [Int.cast_natCast]

theorem top_pos (h : 0 < f.exponentBits) : 0 < f.top := by
  have htwo : 2 ^ 1 ≤ 2 ^ f.exponentBits := Nat.pow_le_pow_right (by decide) h
  unfold top scale
  rw [if_neg (by omega)]
  exact Nat.mul_pos (Nat.add_pos_left (Nat.two_pow_pos _) 0) (Nat.two_pow_pos _)

theorem finite_lt_iff (p q : ℚ) : finite p < finite q ↔ p < q := by
  unfold finite
  rw [WithBot.coe_lt_coe, WithTop.coe_lt_coe]

theorem finite_le_iff (p q : ℚ) : finite p ≤ finite q ↔ p ≤ q := by
  unfold finite
  rw [WithBot.coe_le_coe, WithTop.coe_le_coe]

theorem finite_lt_top (q : ℚ) : finite q < ⊤ := WithBot.coe_lt_coe.mpr (WithTop.coe_lt_top q)

theorem bot_lt_finite (q : ℚ) : ⊥ < finite q := WithBot.bot_lt_coe _

/-- The order of the numbers is that of their values. -/
theorem ieee_lt_iff (hexp : 0 < f.exponentBits) {a b : Nat} {x y : Int} (ha : f.value a = some x)
    (hb : f.value b = some y) : ∃ p q, f.ieee a = some p ∧ f.ieee b = some q ∧ (p < q ↔ x < y) := by
  have hpos := top_pos hexp
  obtain ⟨hx, ha⟩ | ⟨hx, ha⟩ | ⟨hx, ha⟩ := ieee_of_value ha <;>
    obtain ⟨hy, hb⟩ | ⟨hy, hb⟩ | ⟨hy, hb⟩ := ieee_of_value hb
  all_goals refine ⟨_, _, ha, hb, ?_⟩
  · rw [finite_lt_iff, mul_lt_mul_iff_left₀ least_pos, Int.cast_lt]
  · exact iff_of_true (finite_lt_top _) (by omega)
  · exact iff_of_false not_lt_bot (by omega)
  · exact iff_of_false not_top_lt (by omega)
  · exact iff_of_false (lt_irrefl _) (by omega)
  · exact iff_of_false not_lt_bot (by omega)
  · exact iff_of_true (bot_lt_finite _) (by omega)
  · exact iff_of_true bot_lt_top (by omega)
  · exact iff_of_false (lt_irrefl _) (by omega)

end FloatFormat

end TorchMojoBackend.Foundation
