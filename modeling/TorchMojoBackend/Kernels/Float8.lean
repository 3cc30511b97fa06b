/-
  `Kernels.Float8`: the conversions between float8 and float32.

  Source: tmb/kernels/common/float8.mojo (`_u32`, `_ieee_fp8_to_f32`, `fp8_to_f32`,
  `_round_ieee`, `f32_to_fp8`).

  One lane of a SIMD vector is a bit vector, and a float32 is its pattern.  The one float
  addition of the source adds two numbers that are not negative.

  `_round_ieee` finds the nearest code: in the normal range the exponents of a float32 are
  moved to those of the type and the pattern is divided.  Below it a float addition
  divides: the sum with the mask has the least number of the type as its last bit.
-/
import TorchMojoBackend.Foundation.FloatRounding

set_option autoImplicit false

namespace TorchMojoBackend.Kernels.Float8

open TorchMojoBackend.Foundation

/-- The types of `is_float8`. -/
inductive DType where
  | float8_e4m3fn
  | float8_e5m2
  | float8_e4m3fnuz
  | float8_e5m2fnuz
  | float8_e8m0fnu
  deriving DecidableEq

def float32 : FloatFormat := ⟨8, 23⟩

def _u32 (v : Int) : BitVec 32 := BitVec.ofInt 32 v

/-- `+` on patterns without signs. -/
def addF32 (a b : BitVec 32) : BitVec 32 := BitVec.ofNat 32 (float32.addPositive a.toNat b.toNat)

/-! ## To float32 -/

def _ieee_fp8_to_f32 (E M BIAS : Nat) (x : BitVec 32) : BitVec 32 :=
  let sign := (x >>> 7) <<< 31
  let e := (x >>> _u32 M) &&& _u32 (2 ^ E - 1)
  let m := x &&& _u32 (2 ^ M - 1)
  let normal := sign ||| ((e + _u32 (127 - BIAS)) <<< 23) ||| (m <<< _u32 (23 - M))
  -- the top set bit of a subnormal
  let p := _u32 31 - (m ||| 1).clz
  let sub := sign ||| ((p + _u32 (1 - BIAS - M + 127)) <<< 23) ||| ((m - (_u32 1 <<< p)) <<< (_u32 23 - p))
  let zero := sign
  if e ≠ 0 then normal else if m ≠ 0 then sub else zero

def fp8_to_f32 (dt : DType) (bits : BitVec 8) : BitVec 32 :=
  let x := bits.setWidth 32
  match dt with
  | .float8_e4m3fn =>
      let v := _ieee_fp8_to_f32 4 3 7 x
      if x &&& 0x7F = 0x7F then (x >>> 7) <<< 31 ||| 0x7FF00000 else v
  | .float8_e5m2 =>
      let v := _ieee_fp8_to_f32 5 2 15 x
      let m := x &&& 3
      let quiet := if m ≠ 0 then _u32 0x400000 else _u32 0
      let s := (x >>> 7) <<< 31 ||| 0x7F800000 ||| (m <<< 21) ||| quiet
      if x &&& 0x7C = 0x7C then s else v
  | .float8_e4m3fnuz => if x = 0x80 then _u32 0x7F800001 else _ieee_fp8_to_f32 4 3 8 x
  | .float8_e5m2fnuz => if x = 0x80 then _u32 0x7F800001 else _ieee_fp8_to_f32 5 2 16 x
  | .float8_e8m0fnu =>
      let v := x <<< 23
      let v := if x = 0 then _u32 0x00400000 else v
      if x = 0xFF then _u32 0x7F800001 else v

/-! ## From float32 -/

def _round_ieee (M BIAS DENORM_EXP MIN_NORMAL_EXP : Nat) (f : BitVec 32) : BitVec 32 :=
  let denorm_mask := _u32 (DENORM_EXP * 2 ^ 23)
  let den := addF32 f denorm_mask - denorm_mask
  let mant_odd := (f >>> _u32 (23 - M)) &&& 1
  let norm := (f + _u32 ((BIAS - 127) * 2 ^ 23 + 2 ^ (22 - M) - 1) + mant_odd) >>> _u32 (23 - M)
  (if f < _u32 (MIN_NORMAL_EXP * 2 ^ 23) then den else norm) &&& 0xFF

def f32_to_fp8 (dt : DType) (bits : BitVec 32) : BitVec 8 :=
  let sign := bits &&& 0x80000000
  let f := bits ^^^ sign
  let sign8 := sign >>> 24
  match dt with
  | .float8_e4m3fn =>
      let r := _round_ieee 3 7 141 121 f
      let r := if f ≥ _u32 (1087 * 2 ^ 20) then _u32 0x7F else r
      (r ||| sign8).setWidth 8
  | .float8_e5m2 =>
      let r := _round_ieee 2 15 134 113 f
      let over_ := if f > _u32 (255 * 2 ^ 23) then _u32 0x7F else _u32 0x7C
      let r := if f ≥ _u32 (143 * 2 ^ 23) then over_ else r
      (r ||| sign8).setWidth 8
  | .float8_e4m3fnuz =>
      let r := _round_ieee 3 8 0x8C 0x78 f
      let r := if r = 0 then r else r ||| sign8
      let r := if f ≥ _u32 (0x87 * 2 ^ 23) then _u32 0x80 else r
      r.setWidth 8
  | .float8_e5m2fnuz =>
      let r := _round_ieee 2 16 0x85 0x70 f
      let r := if r = 0 then r else r ||| sign8
      let r := if f ≥ _u32 (0x8F * 2 ^ 23) then _u32 0x80 else r
      r.setWidth 8
  | .float8_e8m0fnu =>
      let e := (bits >>> 23) &&& 0xFF
      let g := bits &&& 0x400000 ≠ 0
      let rest := bits &&& 0x3FFFFF ≠ 0
      let r := if g ∧ (rest ∨ e > 0) then e + 1 else e
      (if e = 0xFF then e else r).setWidth 8

open TorchMojoBackend.Foundation.FloatFormat

/-! ## The nearest code -/

section

variable {E M B : Nat}

/-- The code `n` in units of the least float32. -/
def scaled (E M B n : Nat) : Nat := grid ⟨E, M⟩ n * 2 ^ (150 - B - M)

theorem scaled_strictMono : StrictMono (scaled E M B) := fun _ _ hlt =>
  Nat.mul_lt_mul_of_pos_right (grid_strictMono hlt) (Nat.two_pow_pos _)

/-- The nearest code in the normal range. -/
theorem nearest_normal (hM : M ≤ 23) (hB : B ≤ 127) {f : Nat} (hf : (128 - B) * 2 ^ 23 ≤ f) :
    Nearest (fun n => (scaled E M B n : ℚ)) (float32.grid f)
      (roundHalfEven (2 ^ (23 - M)) (f - (127 - B) * 2 ^ 23)) := by
  obtain ⟨e, m, hm, rfl⟩ : ∃ e m, m < 2 ^ 23 ∧ f = (e + (127 - B) + 1) * 2 ^ 23 + m :=
    ⟨f / 2 ^ 23 - (128 - B), f % 2 ^ 23, Nat.mod_lt _ (Nat.two_pow_pos 23), by omega⟩
  have hmove : (e + (127 - B) + 1) * 2 ^ 23 + m - (127 - B) * 2 ^ 23 = (e + 1) * 2 ^ 23 + m := by omega
  have hpow : 2 ^ 23 = 2 ^ (23 - M) * 2 ^ M := by
    rw [← Nat.pow_add]
    congr 1
    omega
  have hpos := Nat.two_pow_pos (23 - M)
  have hmod := Nat.mod_lt m hpos
  have hsplit := Nat.div_add_mod m (2 ^ (23 - M))
  have hquot : m / 2 ^ (23 - M) < 2 ^ M := Nat.div_lt_of_lt_mul (by rwa [← hpow])
  have hq : ((e + 1) * 2 ^ 23 + m) / 2 ^ (23 - M) = (e + 1) * 2 ^ M + m / 2 ^ (23 - M) := by
    rw [hpow, Nat.mul_left_comm, Nat.mul_add_div hpos]
  have hr : ((e + 1) * 2 ^ 23 + m) % 2 ^ (23 - M) = m % 2 ^ (23 - M) := by
    rw [hpow, Nat.mul_left_comm, Nat.mul_add_mod]
  have hunit : 2 ^ e * 2 ^ (150 - B - M) = 2 ^ (23 - M) * 2 ^ (e + (127 - B)) := by
    rw [← Nat.pow_add, ← Nat.pow_add]
    congr 1
    omega
  have hcode : scaled E M B ((e + 1) * 2 ^ M + m / 2 ^ (23 - M)) =
      (2 ^ M + m / 2 ^ (23 - M)) * (2 ^ (23 - M) * 2 ^ (e + (127 - B))) := by
    rw [scaled, grid_normal hquot, Nat.mul_assoc, hunit]
  rw [hmove]
  unfold roundHalfEven
  rw [hq, hr]
  refine nearest_roundHalfEven scaled_strictMono (Nat.two_pow_pos (e + (127 - B))) hmod ?_ ?_
  · have hgrid : float32.grid ((e + (127 - B) + 1) * 2 ^ 23 + m) = (2 ^ 23 + m) * 2 ^ (e + (127 - B)) :=
      grid_normal hm
    rw [hgrid, hcode, hpow, ← Nat.mul_assoc, ← Nat.add_mul]
    congr 1
    rw [Nat.add_mul, Nat.add_assoc, Nat.mul_comm (m / _), hsplit, Nat.mul_comm]
  · have hexp : ((e + 1) * 2 ^ M + m / 2 ^ (23 - M)) / 2 ^ M - 1 = e := by
      rw [Nat.mul_comm, Nat.mul_add_div (Nat.two_pow_pos M), Nat.div_eq_of_lt hquot]
      rfl
    have hstep : grid ⟨E, M⟩ ((e + 1) * 2 ^ M + m / 2 ^ (23 - M) + 1) =
        grid ⟨E, M⟩ ((e + 1) * 2 ^ M + m / 2 ^ (23 - M)) + 2 ^ e := by
      rw [grid_succ]
      dsimp only
      rw [hexp]
    rw [scaled, hstep, Nat.add_mul, hunit]
    rfl

/-- The nearest code below the normal range. -/
theorem nearest_subnormal {x : Nat} (hx : x < 2 ^ M * 2 ^ (150 - B - M)) :
    Nearest (fun n => (scaled E M B n : ℚ)) x (roundHalfEven (2 ^ (150 - B - M)) x) := by
  have hmod := Nat.mod_lt x (Nat.two_pow_pos (150 - B - M))
  have hsplit := Nat.div_add_mod x (2 ^ (150 - B - M))
  have hquot : x / 2 ^ (150 - B - M) < 2 ^ M := Nat.div_lt_of_lt_mul (by rwa [Nat.mul_comm])
  have hsmall : ∀ n ≤ 2 ^ M, scaled E M B n = n * 2 ^ (150 - B - M) := fun n hn => by
    rw [scaled, grid_small]
    exact hn.trans (Nat.pow_le_pow_right (by decide) (Nat.le_succ M))
  refine nearest_roundHalfEven scaled_strictMono Nat.one_pos hmod ?_ ?_
  · rw [hsmall _ hquot.le, Nat.mul_one, Nat.mul_comm, hsplit]
  · rw [hsmall _ hquot.le, hsmall _ hquot, Nat.mul_one, Nat.succ_mul]

theorem grid_lt_of_subnormal (hBM : B + M ≤ 127) {f : Nat} (hf : f < (128 - B) * 2 ^ 23) :
    float32.grid f < 2 ^ M * 2 ^ (150 - B - M) := by
  have hbound : float32.grid ((127 - B + 1) * 2 ^ 23 + 0) = (2 ^ 23 + 0) * 2 ^ (127 - B) :=
    grid_normal (Nat.two_pow_pos 23)
  have hexp : 127 - B + 1 = 128 - B := by omega
  rw [hexp, Nat.add_zero, Nat.add_zero, ← Nat.pow_add] at hbound
  calc float32.grid f < float32.grid ((128 - B) * 2 ^ 23) := grid_strictMono hf
    _ = 2 ^ (23 + (127 - B)) := hbound
    _ = 2 ^ M * 2 ^ (150 - B - M) := by
      rw [← Nat.pow_add]
      congr 1
      omega

/-- The sum with the mask has the nearest code behind the mask. -/
theorem add_mask (hM : M ≤ 22) (hBM : B + M ≤ 127) {f : Nat} (hf : f < (128 - B) * 2 ^ 23) :
    float32.addPositive f ((151 - B - M) * 2 ^ 23) =
      (151 - B - M) * 2 ^ 23 + roundHalfEven (2 ^ (150 - B - M)) (float32.grid f) := by
  have hmod := Nat.mod_lt (float32.grid f) (Nat.two_pow_pos (150 - B - M))
  have hsplit := Nat.div_add_mod (float32.grid f) (2 ^ (150 - B - M))
  have hquot : float32.grid f / 2 ^ (150 - B - M) < 2 ^ M :=
    Nat.div_lt_of_lt_mul ((grid_lt_of_subnormal hBM hf).trans_eq (Nat.mul_comm _ _))
  have hlarge : 2 ^ M ≤ 2 ^ 22 := Nat.pow_le_pow_right (by decide) hM
  have hmask : 151 - B - M = 150 - B - M + 1 := by omega
  have hinf : float32.infBits = 255 * 2 ^ 23 := rfl
  -- behind the mask the numbers are in steps of its last bit
  have hbehind : ∀ j < 2 ^ 23, float32.grid ((150 - B - M + 1) * 2 ^ 23 + j) = (2 ^ 23 + j) * 2 ^ (150 - B - M) :=
    fun j hj => grid_normal hj
  have hnear : Nearest (fun c => (float32.grid c : ℚ))
      ((float32.grid f : ℚ) + float32.grid ((151 - B - M) * 2 ^ 23))
      ((151 - B - M) * 2 ^ 23 + roundHalfEven (2 ^ (150 - B - M)) (float32.grid f)) := by
    have hzero : float32.grid ((150 - B - M + 1) * 2 ^ 23) = 2 ^ 23 * 2 ^ (150 - B - M) := by
      simpa only [Nat.add_zero] using hbehind 0 (by decide)
    have hstep := nearest_roundHalfEven (G := float32.grid) grid_strictMono
      (q := (150 - B - M + 1) * 2 ^ 23 + float32.grid f / 2 ^ (150 - B - M)) Nat.one_pos hmod
      (x := float32.grid f + float32.grid ((150 - B - M + 1) * 2 ^ 23)) ?_ ?_
    · have hparity : ((150 - B - M + 1) * 2 ^ 23 + float32.grid f / 2 ^ (150 - B - M)) % 2 =
          float32.grid f / 2 ^ (150 - B - M) % 2 := by omega
      rw [hparity] at hstep
      push_cast at hstep
      rw [hmask]
      unfold roundHalfEven
      split
      · rename_i hup
        rw [if_pos hup] at hstep
        rwa [← Nat.add_assoc]
      · rename_i hup
        rwa [if_neg hup] at hstep
    · rw [hbehind _ (by omega), hzero, Nat.add_mul, Nat.mul_one, Nat.mul_comm (float32.grid f / _), Nat.add_assoc,
        hsplit, Nat.add_comm]
    · rw [Nat.add_assoc, hbehind _ (by omega), hbehind _ (by omega), ← Nat.add_assoc, Nat.succ_mul, Nat.mul_one]
  have hround : roundHalfEven (2 ^ (150 - B - M)) (float32.grid f) ≤ 2 ^ 22 := by
    unfold roundHalfEven
    split <;> omega
  exact addPositive_eq (by decide) (by omega) (by omega) hnear (by omega)

/-! ## On bits -/

theorem toNat_u32 {n : Nat} (h : n < 2 ^ 32) : (_u32 n).toNat = n := by
  unfold _u32
  rw [BitVec.toNat_ofInt]
  omega

theorem shift_u32 (x : BitVec 32) {n : Nat} (h : n < 2 ^ 32) : x >>> _u32 n = x >>> n := by
  rw [BitVec.ushiftRight_eq', toNat_u32 h]

theorem toNat_and_one (x : BitVec 32) : (x &&& 1).toNat = x.toNat % 2 := by
  rw [BitVec.toNat_and]
  exact Nat.and_one_is_mod _

theorem toNat_and_byte {x : BitVec 32} (h : x.toNat < 256) : (x &&& 0xFF).toNat = x.toNat := by
  rw [BitVec.toNat_and]
  exact (Nat.and_two_pow_sub_one_eq_mod x.toNat 8).trans (Nat.mod_eq_of_lt h)

/-- The normal range: the division of the moved pattern. -/
theorem toNat_norm (hM : 0 < M) (hM' : M ≤ 22) (hB : B ≤ 127) {f : BitVec 32} (hlo : (128 - B) * 2 ^ 23 ≤ f.toNat)
    (hhi : f.toNat < 2 ^ 31) :
    ((f + _u32 ((B - 127) * 2 ^ 23 + 2 ^ (22 - M) - 1) + ((f >>> _u32 (23 - M)) &&& 1)) >>> _u32 (23 - M)).toNat =
      roundHalfEven (2 ^ (23 - M)) (f.toNat - (127 - B) * 2 ^ 23) := by
  have hshift : (23 - M : Int) = (23 - M : Nat) := by omega
  have htwice : 2 ^ (23 - M) = 2 * 2 ^ (22 - M) := by
    rw [← Nat.pow_succ']
    congr 1
    omega
  have hhalf := Nat.two_pow_pos (22 - M)
  have hsmall : 2 ^ (22 - M) ≤ 2 ^ 22 := Nat.pow_le_pow_right (by decide) (Nat.sub_le 22 M)
  -- the exponents are moved by whole quotients, an even number of them
  have hmoved : f.toNat / 2 ^ (23 - M) % 2 = (f.toNat - (127 - B) * 2 ^ 23) / 2 ^ (23 - M) % 2 := by
    have hsplit : f.toNat = f.toNat - (127 - B) * 2 ^ 23 + 2 ^ (23 - M) * ((127 - B) * 2 ^ M) := by
      have hpow : 2 ^ (23 - M) * ((127 - B) * 2 ^ M) = (127 - B) * 2 ^ 23 := by
        rw [Nat.mul_left_comm, ← Nat.pow_add]
        congr 2
        omega
      omega
    have heven : 2 ∣ (127 - B) * 2 ^ M := Dvd.dvd.mul_left (dvd_pow_self 2 (by omega)) _
    nth_rewrite 1 [hsplit]
    rw [Nat.add_mul_div_left _ _ (Nat.two_pow_pos _)]
    omega
  have hconst : (_u32 ((B - 127) * 2 ^ 23 + 2 ^ (22 - M) - 1)).toNat =
      (((B - 127 : Int) * 2 ^ 23 + (2 ^ (22 - M) : Nat) - 1) % 2 ^ 32).toNat := by
    unfold _u32
    rw [BitVec.toNat_ofInt]
    push_cast
    rfl
  rw [hshift, shift_u32 _ (by omega), shift_u32 _ (by omega), BitVec.toNat_ushiftRight, Nat.shiftRight_eq_div_pow,
    BitVec.toNat_add, BitVec.toNat_add, toNat_and_one, BitVec.toNat_ushiftRight, Nat.shiftRight_eq_div_pow, hconst,
    hmoved, htwice, ← add_half_div hhalf]
  congr 1
  generalize 2 ^ (22 - M) = h at *
  have hodd := Nat.mod_lt ((f.toNat - (127 - B) * 2 ^ 23) / (2 * h)) two_pos
  generalize (f.toNat - (127 - B) * 2 ^ 23) / (2 * h) % 2 = odd at *
  omega

/-- `_round_ieee` finds the nearest code, up to the first one that is too large. -/
theorem round_ieee_nearest (hM : 0 < M) (hM' : M ≤ 22) (hBM : B + M ≤ 127) {f : BitVec 32} (hhi : f.toNat < 2 ^ 31)
    {top : Nat} (htop : top < 256) (hle : float32.grid f.toNat ≤ scaled E M B top) :
    (_round_ieee M B (151 - B - M) (128 - B) f).toNat ≤ top ∧
      Nearest (fun n => (scaled E M B n : ℚ)) (float32.grid f.toNat)
        (_round_ieee M B (151 - B - M) (128 - B) f).toNat := by
  have hmono : StrictMono fun n => (scaled E M B n : ℚ) := fun _ _ hlt => Nat.cast_lt.mpr (scaled_strictMono hlt)
  -- the byte that is kept is the nearest code
  have hkeep : ∀ x : BitVec 32, Nearest (fun n => (scaled E M B n : ℚ)) (float32.grid f.toNat) x.toNat →
      (x &&& 0xFF).toNat ≤ top ∧ Nearest (fun n => (scaled E M B n : ℚ)) (float32.grid f.toNat) (x &&& 0xFF).toNat := by
    intro x hx
    have hbound : x.toNat ≤ top := hx.mono hmono (Nat.cast_le.mpr hle) (nearest_self hmono top)
    rw [toNat_and_byte (by omega)]
    exact ⟨hbound, hx⟩
  have hnormal : (_u32 ((128 - B : Nat) * 2 ^ 23)).toNat = (128 - B) * 2 ^ 23 := by
    have hcast : ((128 - B : Nat) * 2 ^ 23 : Int) = ((128 - B) * 2 ^ 23 : Nat) := by push_cast; rfl
    rw [hcast, toNat_u32 (by omega)]
  have hmask : (_u32 ((151 - B - M : Nat) * 2 ^ 23)).toNat = (151 - B - M) * 2 ^ 23 := by
    have hcast : ((151 - B - M : Nat) * 2 ^ 23 : Int) = ((151 - B - M) * 2 ^ 23 : Nat) := by push_cast; rfl
    rw [hcast, toNat_u32 (by omega)]
  unfold _round_ieee
  dsimp only
  refine hkeep _ ?_
  by_cases hlo : f.toNat < (128 - B) * 2 ^ 23
  · have hlt : f < _u32 ((128 - B : Nat) * 2 ^ 23) := by
      rw [BitVec.lt_def, hnormal]
      exact hlo
    have hgrid := grid_lt_of_subnormal hBM hlo
    have hsub := nearest_subnormal (E := E) hgrid
    have hround : roundHalfEven (2 ^ (150 - B - M)) (float32.grid f.toNat) ≤ top :=
      hsub.mono hmono (Nat.cast_le.mpr hle) (nearest_self hmono top)
    rw [if_pos hlt, BitVec.toNat_sub, hmask, addF32, BitVec.toNat_ofNat, hmask, add_mask hM' hBM hlo]
    have hcode : (2 ^ 32 - (151 - B - M) * 2 ^ 23 + ((151 - B - M) * 2 ^ 23 +
        roundHalfEven (2 ^ (150 - B - M)) (float32.grid f.toNat)) % 2 ^ 32) % 2 ^ 32 =
        roundHalfEven (2 ^ (150 - B - M)) (float32.grid f.toNat) := by omega
    rw [hcode]
    exact hsub
  · have hnlt : ¬f < _u32 ((128 - B : Nat) * 2 ^ 23) := by
      rw [BitVec.lt_def, hnormal]
      exact hlo
    rw [if_neg hnlt, toNat_norm hM hM' (by omega) (not_lt.mp hlo) hhi]
    exact nearest_normal (by omega) (by omega) (not_lt.mp hlo)

end

end TorchMojoBackend.Kernels.Float8
