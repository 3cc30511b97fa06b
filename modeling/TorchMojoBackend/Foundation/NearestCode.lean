/-
  `Foundation.NearestCode`: rounding to the nearest number of a rising list, ties to even.

  Everything in this file is independent of the modelled program.  The numbers of a float
  format rise with their codes, also past the largest exponent.  A number has at most one
  nearest code, which does not fall when the number rises; between two neighbours that have
  the same distance everywhere it is found by a division that rounds half to even.
-/
import Mathlib.Tactic.Linarith
import TorchMojoBackend.Foundation.FloatBits

set_option autoImplicit false

namespace TorchMojoBackend.Foundation

universe u

/-! ## The nearest code -/

section

variable {K : Type u} [Field K] [LinearOrder K] [IsStrictOrderedRing K]

/-- The code `n` is nearest to `x`, and even where another one is as near. -/
def Nearest (G : Nat → K) (x : K) (n : Nat) : Prop :=
  ∀ k, |G n - x| ≤ |G k - x| ∧ (|G n - x| = |G k - x| → n = k ∨ n % 2 = 0)

variable {G : Nat → K}

/-- Of two numbers the one that is not farther lies on its side of the middle. -/
theorem le_middle {a b x : K} (hab : a < b) : |b - x| ≤ |a - x| ↔ a + b ≤ 2 * x := by
  rw [← sq_le_sq]
  have hsplit : (b - x) ^ 2 - (a - x) ^ 2 = (b - a) * (a + b - 2 * x) := by ring
  rw [← sub_nonpos, hsplit, ← mul_zero (b - a), mul_le_mul_iff_right₀ (sub_pos.mpr hab), sub_nonpos]

theorem middle_le {a b x : K} (hab : a < b) : |a - x| ≤ |b - x| ↔ 2 * x ≤ a + b := by
  rw [← sq_le_sq]
  have hsplit : (a - x) ^ 2 - (b - x) ^ 2 = (b - a) * (2 * x - (a + b)) := by ring
  rw [← sub_nonpos, hsplit, ← mul_zero (b - a), mul_le_mul_iff_right₀ (sub_pos.mpr hab), sub_nonpos]

/-- Two even codes are not both nearest: one lies between. -/
theorem Nearest.not_both (hG : StrictMono G) {x : K} {a b : Nat} (ha : Nearest G x a) (hb : Nearest G x b)
    (hlt : a < b) : False := by
  have heq : |G a - x| = |G b - x| := le_antisymm (ha b).1 (hb a).1
  have haeven := ((ha b).2 heq).resolve_left hlt.ne
  have hbeven := ((hb a).2 heq.symm).resolve_left hlt.ne'
  have hmid : a + 1 < b := by omega
  have hleft := hG (Nat.lt_add_one a)
  have hright := hG hmid
  have h1 := (middle_le hleft).mp (ha (a + 1)).1
  have h2 := (le_middle hright).mp (hb (a + 1)).1
  linarith

/-- The nearest code rises with the number. -/
theorem Nearest.mono (hG : StrictMono G) {x y : K} (hxy : x ≤ y) {a b : Nat} (ha : Nearest G x a)
    (hb : Nearest G y b) : a ≤ b := by
  by_contra hlt
  rw [not_le] at hlt
  have h1 := (le_middle (hG hlt)).mp (ha b).1
  have h2 := (middle_le (hG hlt)).mp (hb a).1
  obtain rfl : x = y := by linarith
  exact hb.not_both hG ha hlt

theorem Nearest.unique (hG : StrictMono G) {x : K} {a b : Nat} (ha : Nearest G x a) (hb : Nearest G x b) : a = b :=
  le_antisymm (ha.mono hG le_rfl hb) (hb.mono hG le_rfl ha)

/-- A number of the list is its own nearest one. -/
theorem nearest_self (hG : StrictMono G) (n : Nat) : Nearest G (G n) n := by
  intro k
  rw [sub_self, abs_zero]
  refine ⟨abs_nonneg _, fun h => ?_⟩
  exact .inl (hG.injective (sub_eq_zero.mp (abs_eq_zero.mp h.symm)).symm)

/-- The nearest code stays so in another unit. -/
theorem Nearest.mul_right {x u : K} (hu : 0 < u) {n : Nat} (h : Nearest G x n) :
    Nearest (fun k => G k * u) (x * u) n := by
  intro k
  have hdist : ∀ k, |G k * u - x * u| = |G k - x| * u := fun k => by
    rw [← sub_mul, abs_mul, abs_of_pos hu]
  dsimp only
  rw [hdist, hdist, mul_le_mul_iff_left₀ hu, mul_left_inj' hu.ne']
  exact h k

/-- Of two neighbours the nearer one, or the even one, is nearest. -/
theorem nearest_of_between (hG : StrictMono G) {x : K} {n r : Nat} (hlo : G n ≤ x) (hhi : x ≤ G (n + 1))
    (hr : (r = n ∧ 2 * x ≤ G n + G (n + 1)) ∨ (r = n + 1 ∧ G n + G (n + 1) ≤ 2 * x))
    (heven : 2 * x = G n + G (n + 1) → r % 2 = 0) : Nearest G x r := by
  intro k
  have hstep := hG (Nat.lt_add_one n)
  rcases hr with ⟨rfl, hx⟩ | ⟨rfl, hx⟩
  · rcases lt_trichotomy k r with hk | rfl | hk
    · have hk := hG hk
      have hlt : ¬ |G k - x| ≤ |G r - x| := by
        rw [middle_le hk]
        linarith
      exact ⟨(not_le.mp hlt).le, fun h => absurd h.ge hlt⟩
    · exact ⟨le_rfl, fun _ => .inl rfl⟩
    · have hle : G (r + 1) ≤ G k := hG.monotone hk
      refine ⟨(middle_le (hG hk)).mpr (by linarith), fun h => .inr (heven ?_)⟩
      have := (le_middle (hG hk)).mp h.ge
      linarith
  · rcases lt_trichotomy k (n + 1) with hk | rfl | hk
    · have hle : G k ≤ G n := hG.monotone (Nat.le_of_lt_succ hk)
      refine ⟨(le_middle (hG hk)).mpr (by linarith), fun h => .inr (heven ?_)⟩
      have := (middle_le (hG hk)).mp h.ge
      linarith
    · exact ⟨le_rfl, fun _ => .inl rfl⟩
    · have hk := hG hk
      have hlt : ¬ |G k - x| ≤ |G (n + 1) - x| := by
        rw [le_middle hk]
        linarith
      exact ⟨(not_le.mp hlt).le, fun h => absurd h.ge hlt⟩

end

/-! ## Division that rounds half to even -/

/-- The nearest integer to `a / d`, ties to even. -/
def roundHalfEven (d a : Nat) : Nat :=
  if d < 2 * (a % d) ∨ 2 * (a % d) = d ∧ a / d % 2 = 1 then a / d + 1 else a / d

@[simp] theorem roundHalfEven_one (a : Nat) : roundHalfEven 1 a = a := by
  simp [roundHalfEven, Nat.mod_one]

/-- Half of the divisor, less one and one again at an odd quotient, is added before a division. -/
theorem add_half_div {h : Nat} (hpos : 0 < h) (a : Nat) :
    (a + (h - 1) + a / (2 * h) % 2) / (2 * h) = roundHalfEven (2 * h) a := by
  have hsplit := Nat.div_add_mod a (2 * h)
  have hmod := Nat.mod_lt a (Nat.mul_pos two_pos hpos)
  unfold roundHalfEven
  generalize a / (2 * h) = q at *
  generalize a % (2 * h) = r at *
  generalize hd : 2 * h = d at *
  subst hsplit
  split
  · refine Nat.div_eq_of_lt_le ?_ ?_
    · rw [Nat.succ_mul, Nat.mul_comm q]
      omega
    · rw [Nat.succ_mul, Nat.succ_mul, Nat.mul_comm q]
      omega
  · refine Nat.div_eq_of_lt_le ?_ ?_
    · rw [Nat.mul_comm q]
      omega
    · rw [Nat.succ_mul, Nat.mul_comm q]
      omega

/-- The quotient finds the nearest code where the numbers are in steps of `d * w`. -/
theorem nearest_roundHalfEven {G : Nat → Nat} (hG : StrictMono G) {q r d w x : Nat} (hw : 0 < w) (hr : r < d)
    (hx : x = G q + r * w) (hstep : G (q + 1) = G q + d * w) :
    Nearest (fun n => (G n : ℚ)) x (if d < 2 * r ∨ 2 * r = d ∧ q % 2 = 1 then q + 1 else q) := by
  have hmono : StrictMono fun n => (G n : ℚ) := fun a b hab => Nat.cast_lt.mpr (hG hab)
  have hwpos : (0 : ℚ) < w := Nat.cast_pos.mpr hw
  have hstepQ : (G (q + 1) : ℚ) = G q + d * w := by exact_mod_cast hstep
  have hxQ : (x : ℚ) = G q + r * w := by exact_mod_cast hx
  have hrd : (r : ℚ) * w ≤ d * w := mul_le_mul_of_nonneg_right (Nat.cast_le.mpr hr.le) hwpos.le
  -- twice the number against the middle is twice the remainder against the step
  have hle : 2 * (x : ℚ) ≤ G q + G (q + 1) ↔ 2 * r ≤ d := by
    have hscaled : (2 * r : ℚ) * w ≤ d * w ↔ 2 * r ≤ d := by
      rw [mul_le_mul_iff_left₀ hwpos]
      exact_mod_cast Iff.rfl
    rw [← hscaled, hxQ, hstepQ]
    constructor <;> intro h <;> linarith
  have hge : (G q : ℚ) + G (q + 1) ≤ 2 * x ↔ d ≤ 2 * r := by
    have hscaled : (d : ℚ) * w ≤ 2 * r * w ↔ d ≤ 2 * r := by
      rw [mul_le_mul_iff_left₀ hwpos]
      exact_mod_cast Iff.rfl
    rw [← hscaled, hxQ, hstepQ]
    constructor <;> intro h <;> linarith
  refine nearest_of_between (n := q) hmono ?_ ?_ ?_ fun htie => ?_
  · rw [hxQ]
    exact le_add_of_nonneg_right (mul_nonneg (Nat.cast_nonneg r) hwpos.le)
  · rw [hxQ, hstepQ]
    linarith
  · by_cases hup : d < 2 * r ∨ 2 * r = d ∧ q % 2 = 1
    · rw [if_pos hup]
      exact .inr ⟨rfl, hge.mpr (by omega)⟩
    · rw [if_neg hup]
      exact .inl ⟨rfl, hle.mpr (by omega)⟩
  · have h1 := hle.mp htie.le
    have h2 := hge.mp htie.ge
    split <;> omega

end TorchMojoBackend.Foundation
