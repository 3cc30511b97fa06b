/-
  `Foundation.FloatRounding`: numbers rounded to a float format, and the sum of two floats.

  Everything in this file is independent of the modelled program.  The patterns without a
  sign are the codes of a rising list of numbers, also past the largest exponent; a number
  is rounded by a division at its own exponent, where a carry goes on to the next one.
-/
import TorchMojoBackend.Foundation.NearestCode

set_option autoImplicit false

namespace TorchMojoBackend.Foundation.FloatFormat

variable (f : FloatFormat)

/-- The number of a pattern without a sign, in units of the least subnormal. -/
def grid (n : Nat) : Nat := f.scale (n / 2 ^ f.mantissaBits) (n % 2 ^ f.mantissaBits)

/-- The pattern nearest to a number in units of the least subnormal. -/
def encode (n : Nat) : Nat :=
  let e := Nat.log2 n - f.mantissaBits
  e * 2 ^ f.mantissaBits + roundHalfEven (2 ^ e) n

/-- The sum of two patterns without signs, to the nearest, ties to even. -/
def addPositive (a b : Nat) : Nat :=
  if f.isNaN a then a
  else if f.isNaN b then b
  else min (f.encode (f.grid a + f.grid b)) f.infBits

variable {f}

theorem grid_strictMono : StrictMono f.grid := scale_strictMono

theorem cast_grid_strictMono : StrictMono fun c => (f.grid c : ℚ) :=
  fun _ _ hlt => Nat.cast_lt.mpr (grid_strictMono hlt)

theorem grid_succ (n : Nat) : f.grid (n + 1) = f.grid n + 2 ^ (n / 2 ^ f.mantissaBits - 1) := scale_succ n

@[simp] theorem grid_zero : f.grid 0 = 0 := by simp [grid, scale]

/-- The numbers of the least exponents are their patterns. -/
theorem grid_small {n : Nat} (h : n ≤ 2 ^ (f.mantissaBits + 1)) : f.grid n = n := by
  induction n with
  | zero => exact grid_zero
  | succ n ih =>
      have hdiv : n / 2 ^ f.mantissaBits < 2 := by
        refine Nat.div_lt_of_lt_mul ?_
        rw [← Nat.pow_succ]
        exact h
      have hexp : n / 2 ^ f.mantissaBits - 1 = 0 := by omega
      rw [grid_succ, hexp, ih (Nat.le_of_succ_le h), Nat.pow_zero]

/-- A number of a normal exponent. -/
theorem grid_normal {e m : Nat} (hm : m < 2 ^ f.mantissaBits) :
    f.grid ((e + 1) * 2 ^ f.mantissaBits + m) = (2 ^ f.mantissaBits + m) * 2 ^ e := by
  have hpos := Nat.two_pow_pos f.mantissaBits
  unfold grid
  rw [Nat.mul_comm (e + 1), Nat.mul_add_div hpos, Nat.mul_add_mod, Nat.div_eq_of_lt hm, Nat.mod_eq_of_lt hm,
    Nat.add_zero, scale, if_neg (Nat.succ_ne_zero e), Nat.add_sub_cancel]

/-- The number of a pattern by its place among those without a sign. -/
theorem ieee_eq (b : Nat) : f.ieee b =
    if f.infBits < f.low b then none
    else if f.low b = f.infBits then some (if f.sign b then ⊥ else ⊤)
    else some (finite (if f.sign b then -(f.grid (f.low b) * f.least) else f.grid (f.low b) * f.least)) := by
  have hlow : f.low b < 2 ^ f.mantissaBits * 2 ^ f.exponentBits := by
    rw [← Nat.pow_add]
    exact Nat.mod_lt _ (Nat.two_pow_pos _)
  have hexp : f.exponent b < 2 ^ f.exponentBits := Nat.div_lt_of_lt_mul hlow
  have hmax : f.exponent b = 2 ^ f.exponentBits - 1 ↔ f.infBits ≤ f.low b := by
    unfold infBits
    rw [← Nat.le_div_iff_mul_le (Nat.two_pow_pos _)]
    change f.exponent b = _ ↔ _ ≤ f.exponent b
    omega
  unfold ieee
  rw [magnitude_eq]
  by_cases hnan : f.infBits < f.low b
  · rw [if_pos hnan, if_pos (isNaN_iff.mpr hnan)]
  · rw [if_neg hnan, if_neg (mt isNaN_iff.mp hnan)]
    by_cases hinf : f.low b = f.infBits
    · rw [if_pos hinf, if_pos (hmax.mpr hinf.ge)]
    · rw [if_neg hinf, if_neg (mt hmax.mp (by omega))]
      rfl

theorem ieee_eq_finite {b : Nat} {q : ℚ} : f.ieee b = some (finite q) ↔ f.low b < f.infBits ∧
    q = if f.sign b then -(f.grid (f.low b) * f.least) else f.grid (f.low b) * f.least := by
  rw [ieee_eq]
  split
  · exact iff_of_false (fun h => by cases h) fun h => by omega
  · split
    · refine iff_of_false (fun h => ?_) fun h => by omega
      have h := Option.some.inj h
      split at h
      · exact absurd h (bot_lt_finite q).ne
      · exact absurd h (finite_lt_top q).ne'
    · constructor
      · intro h
        exact ⟨by omega, (WithTop.coe_inj.mp (WithBot.coe_inj.mp (Option.some.inj h))).symm⟩
      · rintro ⟨-, rfl⟩
        rfl

theorem isNaN_eq_false {b : Nat} (h : b ≤ f.infBits) : f.isNaN b = false := by
  rw [← Bool.not_eq_true, isNaN_iff, not_lt]
  exact (Nat.mod_le b _).trans h

/-- Numbers are rounded to the nearest pattern, ties to even. -/
theorem encode_nearest (hm : 0 < f.mantissaBits) (n : Nat) :
    Nearest (fun c => (f.grid c : ℚ)) n (f.encode n) := by
  have hmod := Nat.mod_lt n (Nat.two_pow_pos (Nat.log2 n - f.mantissaBits))
  have hsplit := Nat.div_add_mod n (2 ^ (Nat.log2 n - f.mantissaBits))
  have hdvd : 2 ∣ (Nat.log2 n - f.mantissaBits) * 2 ^ f.mantissaBits :=
    Dvd.dvd.mul_left (dvd_pow_self 2 (by omega)) _
  unfold encode roundHalfEven
  dsimp only
  by_cases hsmall : Nat.log2 n ≤ f.mantissaBits
  · have hlt : n < 2 ^ (f.mantissaBits + 1) :=
      Nat.lt_log2_self.trans_le (Nat.pow_le_pow_right (by decide) (by omega))
    rw [Nat.sub_eq_zero_of_le hsmall, Nat.pow_zero, Nat.mod_one, Nat.div_one, Nat.zero_mul, Nat.zero_add,
      if_neg (by omega)]
    have hself := nearest_self (cast_grid_strictMono (f := f)) n
    rwa [grid_small hlt.le] at hself
  · have hne : n ≠ 0 := by
      rintro rfl
      exact hsmall (by simp)
    generalize he : Nat.log2 n - f.mantissaBits = e at *
    have hlog : Nat.log2 n = f.mantissaBits + e := by omega
    have hlo : 2 ^ f.mantissaBits ≤ n / 2 ^ e := by
      rw [Nat.le_div_iff_mul_le (Nat.two_pow_pos e), ← Nat.pow_add, ← hlog]
      exact Nat.log2_self_le hne
    have hhi : n / 2 ^ e < 2 ^ f.mantissaBits * 2 := by
      refine Nat.div_lt_of_lt_mul ?_
      rw [← Nat.pow_succ, ← Nat.pow_add]
      exact Nat.lt_log2_self.trans_eq (congrArg _ (by omega))
    obtain ⟨m, hq⟩ := Nat.exists_eq_add_of_le hlo
    have hm' : m < 2 ^ f.mantissaBits := by omega
    have hcode : e * 2 ^ f.mantissaBits + n / 2 ^ e = (e + 1) * 2 ^ f.mantissaBits + m := by
      rw [hq, Nat.succ_mul, Nat.add_assoc]
    have hgrid : f.grid (e * 2 ^ f.mantissaBits + n / 2 ^ e) = 2 ^ e * (n / 2 ^ e) := by
      rw [hcode, grid_normal hm', ← hq, Nat.mul_comm]
    have hstep : f.grid (e * 2 ^ f.mantissaBits + n / 2 ^ e + 1) =
        f.grid (e * 2 ^ f.mantissaBits + n / 2 ^ e) + 2 ^ e * 1 := by
      rw [grid_succ, hcode, Nat.mul_comm (e + 1), Nat.mul_add_div (Nat.two_pow_pos _), Nat.div_eq_of_lt hm',
        Nat.add_zero, Nat.add_sub_cancel, Nat.mul_one]
    have hnear := nearest_roundHalfEven grid_strictMono Nat.one_pos hmod (x := n) (by rw [hgrid, Nat.mul_one, hsplit])
      hstep
    have hparity : (e * 2 ^ f.mantissaBits + n / 2 ^ e) % 2 = n / 2 ^ e % 2 := by omega
    rw [hparity] at hnear
    split
    · rename_i hup
      rwa [if_pos hup] at hnear
    · rename_i hup
      rwa [if_neg hup] at hnear

/-- The nearest number to a sum, below infinity, is the sum. -/
theorem addPositive_eq (hm : 0 < f.mantissaBits) {a b n : Nat} (ha : a ≤ f.infBits) (hb : b ≤ f.infBits)
    (hnear : Nearest (fun c => (f.grid c : ℚ)) ((f.grid a : ℚ) + f.grid b) n) (hn : n ≤ f.infBits) :
    f.addPositive a b = n := by
  have hencode := encode_nearest hm (f.grid a + f.grid b)
  push_cast at hencode
  have heq := hencode.unique cast_grid_strictMono hnear
  unfold addPositive
  rw [isNaN_eq_false ha, isNaN_eq_false hb, if_neg Bool.false_ne_true, if_neg Bool.false_ne_true, heq,
    Nat.min_eq_left hn]

end TorchMojoBackend.Foundation.FloatFormat
