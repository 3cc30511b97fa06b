/-
  `Foundation.RoundInt`: integers rounded to a number of significant bits.

  Everything in this file is independent of the modelled program.  A rounding keeps the
  integers of few bits and the order of all of them; so it moves any other integer to one of
  the two neighbours that have few bits.
-/
import Mathlib.Algebra.Order.Group.Unbundled.Int
import Mathlib.Algebra.Order.Ring.Int
import TorchMojoBackend.Foundation.ExactFloat

set_option autoImplicit false

namespace TorchMojoBackend.Foundation.ExactFloat

/-- The distance of the integers of `p` significant bits around `v`. -/
def spacing (p : Nat) (v : Int) : Int := 2 ^ (Nat.log2 v.natAbs + 1 - p)

/-- The integers of at most `p` significant bits. -/
def Short (p : Nat) (v : Int) : Prop := spacing p v ∣ v

instance (p : Nat) (v : Int) : Decidable (Short p v) := inferInstanceAs (Decidable (_ ∣ _))

/-- An integer rounded to `p` significant bits, ties to even. -/
def roundInt (p : Nat) (v : Int) : Int :=
  if v < 0 then -(roundBits p v.natAbs : Int) else roundBits p v.natAbs

/-! ## Integers of few bits -/

theorem spacing_pos (p : Nat) (v : Int) : 0 < spacing p v := Int.pow_pos (by decide)

/-- The size of an integer, by its logarithm. -/
theorem two_pow_log2_le {v : Int} (hv : v ≠ 0) :
    2 ^ Nat.log2 v.natAbs ≤ v.natAbs ∧ v.natAbs < 2 ^ (Nat.log2 v.natAbs + 1) :=
  ⟨Nat.log2_self_le (Int.natAbs_ne_zero.mpr hv), Nat.lt_log2_self⟩

theorem two_pow_dvd {k n : Nat} (h : k ≤ n) : (2 : Int) ^ k ∣ 2 ^ n := pow_dvd_pow 2 h

theorem short_of_dvd {p n : Nat} (hp : 0 < p) {v : Int} (hlo : 2 ^ n ≤ v.natAbs)
    (hhi : v.natAbs ≤ 2 ^ (n + 1)) (hdvd : (2 : Int) ^ (n + 1 - p) ∣ v) : Short p v := by
  have hne : v.natAbs ≠ 0 := by
    have := Nat.two_pow_pos n
    omega
  obtain hlt | heq := Nat.lt_or_eq_of_le hhi
  · have hlog : Nat.log2 v.natAbs = n := (Nat.log2_eq_iff hne).mpr ⟨hlo, hlt⟩
    rw [Short, spacing, hlog]
    exact hdvd
  · have hlog : Nat.log2 v.natAbs = n + 1 := by rw [heq, Nat.log2_two_pow]
    rw [Short, spacing, hlog, ← Int.dvd_natAbs, heq]
    push_cast
    exact two_pow_dvd (by omega)

theorem Short.dvd {p n : Nat} {v : Int} (h : Short p v) (hlo : 2 ^ n ≤ v.natAbs) :
    (2 : Int) ^ (n + 1 - p) ∣ v := by
  have hlog : n ≤ Nat.log2 v.natAbs :=
    (Nat.le_log2 (by have := Nat.two_pow_pos n; omega)).mpr hlo
  exact (two_pow_dvd (by omega)).trans h

theorem Short.mono {p q : Nat} (hpq : p ≤ q) {v : Int} (h : Short p v) : Short q v :=
  (two_pow_dvd (by omega)).trans h

theorem short_zero (p : Nat) : Short p 0 := dvd_zero _

theorem short_neg {p : Nat} {v : Int} : Short p (-v) ↔ Short p v := by
  rw [Short, Short, spacing, spacing, Int.natAbs_neg, dvd_neg]

/-- The neighbours of an integer that is not short. -/
theorem neighbours {p : Nat} (hp : 0 < p) {v : Int} (hv : ¬Short p v) :
    Short p (v / spacing p v * spacing p v) ∧
      Short p (v / spacing p v * spacing p v + spacing p v) ∧
      v / spacing p v * spacing p v < v ∧ v < v / spacing p v * spacing p v + spacing p v ∧
      ∀ w, Short p w → v / spacing p v * spacing p v ≤ w →
        w ≤ v / spacing p v * spacing p v + spacing p v →
        w = v / spacing p v * spacing p v ∨ w = v / spacing p v * spacing p v + spacing p v := by
  have hne : v ≠ 0 := fun h => hv (h ▸ short_zero p)
  obtain ⟨hlo, hhi⟩ := two_pow_log2_le hne
  have hspos := spacing_pos p v
  have hmod := Int.emod_add_mul_ediv v (spacing p v)
  have hmod0 : v % spacing p v ≠ 0 := fun h => hv (Int.dvd_of_emod_eq_zero h)
  have hmodpos := Int.emod_nonneg v hspos.ne'
  have hmodlt := Int.emod_lt_of_pos v hspos
  rw [Int.mul_comm] at hmod
  have hs : spacing p v = 2 ^ (Nat.log2 v.natAbs + 1 - p) := rfl
  generalize Nat.log2 v.natAbs = n at hlo hhi hs
  generalize v % spacing p v = r at hmod hmod0 hmodpos hmodlt
  generalize v / spacing p v = k at *
  generalize spacing p v = s at *
  -- the bounds of the binade are multiples of the spacing
  obtain ⟨a, ha⟩ : s ∣ (2 : Int) ^ n := hs ▸ two_pow_dvd (by omega)
  obtain ⟨b, hb⟩ : s ∣ (2 : Int) ^ (n + 1) := hs ▸ two_pow_dvd (by omega)
  have hlo' : (2 : Int) ^ n ≤ v.natAbs := by exact_mod_cast hlo
  have hhi' : (v.natAbs : Int) < 2 ^ (n + 1) := by exact_mod_cast hhi
  have hdown : ∀ c : Int, c * s ≤ v → c ≤ k := by
    intro c hc
    by_contra hlt
    have hstep : (k + 1) * s ≤ c * s := Int.mul_le_mul_of_nonneg_right (by omega) hspos.le
    rw [Int.add_mul, Int.one_mul] at hstep
    omega
  have hup : ∀ c : Int, v ≤ c * s → k + 1 ≤ c := by
    intro c hc
    by_contra hlt
    have hstep : c * s ≤ k * s := Int.mul_le_mul_of_nonneg_right (by omega) hspos.le
    omega
  have hbinade : (2 : Int) ^ n ≤ k * s ∧ k * s + s ≤ 2 ^ (n + 1) ∨
      -(2 : Int) ^ (n + 1) ≤ k * s ∧ k * s + s ≤ -(2 : Int) ^ n := by
    have hsucc : k * s + s = (k + 1) * s := by rw [Int.add_mul, Int.one_mul]
    rw [hsucc, ha, hb, Int.mul_comm s a, Int.mul_comm s b, ← Int.neg_mul, ← Int.neg_mul]
    rw [ha, Int.mul_comm] at hlo'
    rw [hb, Int.mul_comm] at hhi'
    obtain hpos | hneg := Int.lt_or_gt_of_ne hne
    · right
      exact ⟨Int.mul_le_mul_of_nonneg_right (hdown _ (by rw [Int.neg_mul]; omega)) hspos.le,
        Int.mul_le_mul_of_nonneg_right (hup _ (by rw [Int.neg_mul]; omega)) hspos.le⟩
    · left
      exact ⟨Int.mul_le_mul_of_nonneg_right (hdown _ (by omega)) hspos.le,
        Int.mul_le_mul_of_nonneg_right (hup _ (by omega)) hspos.le⟩
  have hbetween : ∀ w : Int, k * s ≤ w → w ≤ k * s + s →
      2 ^ n ≤ w.natAbs ∧ w.natAbs ≤ 2 ^ (n + 1) := by
    intro w hw hw'
    have hcast : (2 : Int) ^ n ≤ w.natAbs ∧ (w.natAbs : Int) ≤ 2 ^ (n + 1) := by
      have hpos : (0 : Int) < 2 ^ n := Int.pow_pos (by decide)
      clear ha hb
      generalize (2 : Int) ^ n = x at *
      generalize (2 : Int) ^ (n + 1) = y at *
      omega
    exact_mod_cast hcast
  have hshort : ∀ w : Int, k * s ≤ w → w ≤ k * s + s → s ∣ w → Short p w := by
    intro w hw hw' hdvd
    obtain ⟨h1, h2⟩ := hbetween w hw hw'
    exact short_of_dvd hp h1 h2 (hs ▸ hdvd)
  refine ⟨hshort _ (le_refl _) (by omega) (Dvd.intro_left k rfl),
    hshort _ (by omega) (le_refl _) ⟨k + 1, by rw [Int.mul_add, Int.mul_one, Int.mul_comm s]⟩,
    by omega, by omega, fun w hw hlow hhigh => ?_⟩
  obtain ⟨c, hc⟩ : s ∣ w := hs ▸ hw.dvd (hbetween w hlow hhigh).1
  rw [Int.mul_comm] at hc
  subst hc
  have h1 : k ≤ c := Int.le_of_mul_le_mul_right hlow hspos
  have h2 : c ≤ k + 1 := by
    refine Int.le_of_mul_le_mul_right ?_ hspos
    rwa [Int.add_mul, Int.one_mul]
  obtain rfl | rfl : c = k ∨ c = k + 1 := by omega
  · exact .inl rfl
  · exact .inr (by rw [Int.add_mul, Int.one_mul])

/-! ## Rounding -/

/-- A map that keeps the order and the integers of few bits, and has no other values. -/
structure Rounding (p : Nat) (R : Int → Int) : Prop where
  pos : 0 < p
  mono : ∀ {v w}, v ≤ w → R v ≤ R w
  fixed : ∀ {v}, Short p v → R v = v
  short : ∀ v, Short p (R v)

namespace Rounding

variable {p : Nat} {R : Int → Int} (h : Rounding p R)
include h

/-- Rounding twice, to more bits first. -/
theorem comp {q : Nat} {R' : Int → Int} (h' : Rounding q R') (hpq : p ≤ q) :
    Rounding p fun v => R (R' v) where
  pos := h.pos
  mono hle := h.mono (h'.mono hle)
  fixed hv := by rw [h'.fixed (hv.mono hpq), h.fixed hv]
  short v := h.short _

/-- An integer that is not short goes to a neighbour. -/
theorem cases {v : Int} (hv : ¬Short p v) : R v = v / spacing p v * spacing p v ∨
    R v = v / spacing p v * spacing p v + spacing p v := by
  obtain ⟨hlo, hhi, hlt, hgt, honly⟩ := neighbours h.pos hv
  refine honly _ (h.short v) ?_ ?_
  · rw [← h.fixed hlo]
    exact h.mono hlt.le
  · rw [← h.fixed hhi]
    exact h.mono hgt.le

/-- Rounded down: the next integer of few bits is above. -/
theorem down {v : Int} (hlt : R v < v) : Short p (R v + spacing p v) ∧ v < R v + spacing p v ∧
    ∀ w, Short p w → R v < w → R v + spacing p v ≤ w := by
  have hv : ¬Short p v := fun hs => by
    rw [h.fixed hs] at hlt
    exact lt_irrefl _ hlt
  obtain ⟨hlo, hhi, hlow, hhigh, honly⟩ := neighbours h.pos hv
  have hspos := spacing_pos p v
  have heq := (h.cases hv).resolve_right fun heq => by omega
  rw [heq]
  refine ⟨hhi, hhigh, fun w hw hgt => ?_⟩
  by_contra hle
  obtain hcase | hcase := honly w hw hgt.le (by omega) <;> omega

/-- Rounded up: the next integer of few bits is below. -/
theorem up {v : Int} (hlt : v < R v) : Short p (R v - spacing p v) ∧ R v - spacing p v < v ∧
    ∀ w, Short p w → w < R v → w ≤ R v - spacing p v := by
  have hv : ¬Short p v := fun hs => by
    rw [h.fixed hs] at hlt
    exact lt_irrefl _ hlt
  obtain ⟨hlo, hhi, hlow, hhigh, honly⟩ := neighbours h.pos hv
  have heq := (h.cases hv).resolve_left fun heq => by omega
  rw [heq, Int.add_sub_cancel]
  refine ⟨hlo, hlow, fun w hw hgt => ?_⟩
  by_contra hle
  obtain hcase | hcase := honly w hw (by omega) hgt.le <;> omega

end Rounding

/-! ## To the nearest -/

/-- A number of `p` bits is one of the multiples around. -/
theorem roundBits_cases (p n : Nat) :
    let s := 2 ^ (Nat.log2 n + 1 - p)
    (roundBits p n = n / s * s ∧ 2 * (n % s) ≤ s) ∨
      (roundBits p n = n / s * s + s ∧ s ≤ 2 * (n % s) ∧ 0 < n % s) := by
  intro s
  have hs : 0 < s := Nat.two_pow_pos _
  unfold roundBits
  dsimp only
  by_cases hcond : s < 2 * (n % s) ∨ 2 * (n % s) = s ∧ n / s % 2 = 1
  · rw [if_pos hcond, Nat.add_mul, Nat.one_mul]
    exact .inr ⟨rfl, by omega, by omega⟩
  · rw [if_neg hcond]
    exact .inl ⟨rfl, by omega⟩

theorem roundBits_of_short {p n : Nat} (h : Short p n) : roundBits p n = n := by
  have hdvd : 2 ^ (Nat.log2 n + 1 - p) ∣ n := by
    rw [Short, spacing, Int.natAbs_natCast] at h
    exact_mod_cast h
  have hmod := Nat.mod_eq_zero_of_dvd hdvd
  obtain ⟨heq, -⟩ | ⟨-, -, hpos⟩ := roundBits_cases p n
  · rw [heq, Nat.div_mul_cancel hdvd]
  · omega

theorem roundBits_binade {p n : Nat} (hp : 0 < p) (hn : n ≠ 0) :
    2 ^ Nat.log2 n ≤ roundBits p n ∧ roundBits p n ≤ 2 ^ (Nat.log2 n + 1) ∧ Short p (roundBits p n) := by
  have hlo := Nat.log2_self_le hn
  have hhi := @Nat.lt_log2_self n
  have hlow : (2 ^ (Nat.log2 n + 1 - p)) ∣ 2 ^ Nat.log2 n := pow_dvd_pow 2 (by omega)
  have hhigh : (2 ^ (Nat.log2 n + 1 - p)) ∣ 2 ^ (Nat.log2 n + 1) := pow_dvd_pow 2 (by omega)
  have hspos : 0 < 2 ^ (Nat.log2 n + 1 - p) := Nat.two_pow_pos _
  have hcases := roundBits_cases p n
  have hbounds : 2 ^ Nat.log2 n ≤ roundBits p n ∧ roundBits p n ≤ 2 ^ (Nat.log2 n + 1) ∧
      2 ^ (Nat.log2 n + 1 - p) ∣ roundBits p n := by
    dsimp only at hcases
    generalize 2 ^ (Nat.log2 n + 1 - p) = s at *
    have hfloor : 2 ^ Nat.log2 n ≤ n / s * s := by
      obtain ⟨a, ha⟩ := hlow
      rw [ha, Nat.mul_comm s] at hlo ⊢
      exact Nat.mul_le_mul_right _ ((Nat.le_div_iff_mul_le hspos).mpr hlo)
    have hceil : n / s * s + s ≤ 2 ^ (Nat.log2 n + 1) := by
      obtain ⟨b, hb⟩ := hhigh
      rw [hb] at hhi ⊢
      rw [Nat.mul_comm s b, ← Nat.succ_mul]
      exact Nat.mul_le_mul_right _ (Nat.div_lt_of_lt_mul hhi)
    have hdvd : s ∣ n / s * s := Dvd.intro_left _ rfl
    obtain ⟨heq, -⟩ | ⟨heq, -⟩ := hcases
    · rw [heq]
      exact ⟨hfloor, by omega, hdvd⟩
    · rw [heq]
      exact ⟨by omega, hceil, Nat.dvd_add hdvd (dvd_refl s)⟩
  obtain ⟨h1, h2, h3⟩ := hbounds
  refine ⟨h1, h2, short_of_dvd hp (by rwa [Int.natAbs_natCast]) (by rwa [Int.natAbs_natCast]) ?_⟩
  exact_mod_cast h3

theorem roundBits_mono {p n m : Nat} (hp : 0 < p) (hle : n ≤ m) : roundBits p n ≤ roundBits p m := by
  by_cases hn : n = 0
  · subst hn
    rw [roundBits_of_lt hp (Nat.two_pow_pos p)]
    exact Nat.zero_le _
  · have hm : m ≠ 0 := by omega
    have hlog : Nat.log2 n ≤ Nat.log2 m := (Nat.le_log2 hm).mpr ((Nat.log2_self_le hn).trans hle)
    obtain hlt | heq := Nat.lt_or_eq_of_le hlog
    · calc roundBits p n ≤ 2 ^ (Nat.log2 n + 1) := (roundBits_binade hp hn).2.1
        _ ≤ 2 ^ Nat.log2 m := Nat.pow_le_pow_right (by decide) hlt
        _ ≤ roundBits p m := (roundBits_binade hp hm).1
    · -- in one binade, the quotients decide, then the remainders
      unfold roundBits
      rw [heq]
      dsimp only
      generalize hs : 2 ^ (Nat.log2 m + 1 - p) = s
      have hspos : 0 < s := hs ▸ Nat.two_pow_pos _
      have hdiv : n / s ≤ m / s := Nat.div_le_div_right hle
      have hn' := Nat.div_add_mod n s
      have hm' := Nat.div_add_mod m s
      refine Nat.mul_le_mul_right _ ?_
      obtain hlt | hsame := Nat.lt_or_eq_of_le hdiv
      · split <;> split <;> omega
      · rw [hsame] at hn' ⊢
        split <;> split <;> omega

theorem rounding_roundInt {p : Nat} (hp : 0 < p) : Rounding p (roundInt p) where
  pos := hp
  mono {v w} hle := by
    unfold roundInt
    by_cases hv : v < 0
    · by_cases hw : w < 0
      · rw [if_pos hv, if_pos hw]
        have := @roundBits_mono p w.natAbs v.natAbs hp (by omega)
        omega
      · rw [if_pos hv, if_neg hw]
        omega
    · rw [if_neg hv, if_neg (by omega)]
      have := @roundBits_mono p v.natAbs w.natAbs hp (by omega)
      omega
  fixed {v} hv := by
    have habs : Short p v.natAbs := by
      obtain heq | heq := Int.natAbs_eq v
      · rwa [← heq]
      · rw [heq] at hv
        exact short_neg.mp hv
    unfold roundInt
    rw [roundBits_of_short habs]
    split <;> omega
  short v := by
    by_cases hv : v.natAbs = 0
    · obtain rfl : v = 0 := Int.natAbs_eq_zero.mp hv
      have hzero : roundInt p 0 = 0 := by
        rw [roundInt, if_neg (lt_irrefl _)]
        exact congrArg Nat.cast (roundBits_of_lt hp (Nat.two_pow_pos p))
      rw [hzero]
      exact short_zero p
    · have hshort := (roundBits_binade hp hv).2.2
      unfold roundInt
      split
      · exact short_neg.mpr hshort
      · exact hshort

end TorchMojoBackend.Foundation.ExactFloat
