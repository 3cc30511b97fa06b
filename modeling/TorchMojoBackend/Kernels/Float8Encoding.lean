/-
  `Kernels.Float8Encoding`: float32 numbers become the nearest float8 numbers.

  Source: tmb/kernels/common/float8.mojo (`fp8_to_f32`, `f32_to_fp8`).

  The codes of a type are numbered on past the largest exponent.  A number whose nearest
  code has no finite value overflows; every other one becomes its nearest code.
-/
import TorchMojoBackend.Kernels.Float8

set_option autoImplicit false

namespace TorchMojoBackend.Kernels.Float8

open TorchMojoBackend.Foundation
open TorchMojoBackend.Foundation.FloatFormat

namespace DType

def format : DType → FloatFormat
  | float8_e4m3fn | float8_e4m3fnuz => ⟨4, 3⟩
  | float8_e5m2 | float8_e5m2fnuz => ⟨5, 2⟩
  | float8_e8m0fnu => ⟨8, 0⟩

def bias : DType → Nat
  | float8_e4m3fn => 7
  | float8_e5m2 => 15
  | float8_e4m3fnuz => 8
  | float8_e5m2fnuz => 16
  | float8_e8m0fnu => 127

/-- Without a negative zero and infinities. -/
def fnuz : DType → Bool
  | float8_e4m3fnuz | float8_e5m2fnuz => true
  | _ => false

/-- The first code that is too large for a number. -/
def top : DType → Nat
  | float8_e4m3fn => 0x7F
  | float8_e5m2 => 0x7C
  | _ => 0x80

/-- The number of a code, also past the largest exponent. -/
def code (d : DType) (n : Nat) : ℚ := d.format.grid n * 2 ^ (1 - (d.bias : Int) - d.format.mantissaBits)

/-- What an overflow becomes. -/
def overflow (d : DType) (negative : Bool) : Option (WithBot (WithTop ℚ)) :=
  if d = float8_e5m2 then some (if negative then ⊥ else ⊤) else none

/-- The code in units of the least float32. -/
def units (d : DType) : Nat → Nat := scaled d.format.exponentBits d.format.mantissaBits d.bias

/-- The codes with a number. -/
def isNumber (d : DType) (c : BitVec 8) : Bool := decide (c.toNat % 128 < d.top) && !(d.fnuz && c == 0x80)

end DType

/-- A float32 that is a number. -/
def Number (b : BitVec 32) (q : ℚ) : Prop := float32.ieee b.toNat = some (finite q)

/-- At an unbounded exponent range the nearest code is past every number of the type. -/
def Overflows (d : DType) (q : ℚ) : Prop :=
  ∃ n, Nearest d.code |q| n ∧ ∀ c z, Number (fp8_to_f32 d c) z → z < d.code n

/-- The types of IEEE kind. -/
def ieeeTypes : List DType := [.float8_e4m3fn, .float8_e5m2, .float8_e4m3fnuz, .float8_e5m2fnuz]

theorem mem_ieeeTypes {d : DType} (hd : d ≠ .float8_e8m0fnu) : d ∈ ieeeTypes := by
  cases d with
  | float8_e8m0fnu => exact absurd rfl hd
  | _ => simp [ieeeTypes]

/-! ## Codes as float32 -/

/-- The patterns of all codes. -/
theorem pattern_table : ∀ d ∈ ieeeTypes, ∀ c : Fin 256,
    let b := fp8_to_f32 d (BitVec.ofFin c)
    if d.isNumber (BitVec.ofFin c) = true then
      float32.low b.toNat < float32.infBits ∧ float32.grid (float32.low b.toNat) = d.units (c % 128) ∧
        b.msb = decide (128 ≤ c.val)
    else if d = .float8_e5m2 ∧ c.val % 128 = 0x7C then
      float32.low b.toNat = float32.infBits ∧ b.msb = decide (128 ≤ c.val)
    else float32.infBits < float32.low b.toNat := by
  decide +kernel

/-! ## The sign -/

theorem mask_bit : ∀ i : Fin 32, (0x80000000#32)[i] = decide (i.val = 31) := by decide

theorem sign_bit (v : BitVec 32) : v &&& 0x80000000 = if v.msb then 0x80000000#32 else 0#32 := by
  ext i hi
  have hmask : (0x80000000#32)[i] = decide (i = 31) := mask_bit ⟨i, hi⟩
  have hmsb : v.msb = v[31] := BitVec.msb_eq_getLsbD_last v
  rw [BitVec.getElem_and]
  by_cases h31 : i = 31
  · subst h31
    cases hs : v.msb <;> simp_all
  · cases hs : v.msb <;> simp_all

theorem sign_byte (v : BitVec 32) : (v &&& 0x80000000) >>> 24 = if v.msb then 0x80#32 else 0#32 := by
  rw [sign_bit]
  cases v.msb <;> rfl

theorem msb_eq_sign (v : BitVec 32) : v.msb = float32.sign v.toNat := BitVec.msb_eq_decide v

theorem toNat_magnitude (v : BitVec 32) : (v ^^^ (v &&& 0x80000000)).toNat = float32.low v.toNat := by
  have hbits : v ^^^ (v &&& 0x80000000) = (v.setWidth 31).setWidth 32 := by
    ext i hi
    have hmask : (0x80000000#32)[i] = decide (i = 31) := mask_bit ⟨i, hi⟩
    simp only [BitVec.getElem_xor, BitVec.getElem_and, BitVec.getElem_setWidth, BitVec.getLsbD_setWidth]
    by_cases h31 : i = 31
    · subst h31
      simp
    · have hlt : i < 31 := by omega
      simp_all
  have hlow : float32.low v.toNat = v.toNat % 2 ^ 31 := rfl
  rw [hbits, BitVec.toNat_setWidth, BitVec.toNat_setWidth, hlow]
  omega

/-- The sign in front of a code. -/
theorem or_sign {r : BitVec 32} (hr : r.toNat < 128) (negative : Bool) :
    ((r ||| if negative then 0x80#32 else 0#32).setWidth 8).toNat = r.toNat + if negative then 128 else 0 := by
  rw [BitVec.toNat_setWidth, BitVec.toNat_or]
  cases negative with
  | false => exact (congrArg (· % 256) (Nat.or_zero _)).trans (Nat.mod_eq_of_lt (by omega))
  | true =>
      have hadd : 128 + r.toNat = 128 ||| r.toNat := Nat.two_pow_add_eq_or_of_lt (i := 7) hr 1
      have hor : r.toNat ||| 128 = r.toNat + 128 := by rw [Nat.or_comm, ← hadd, Nat.add_comm]
      exact (congrArg (· % 256) hor).trans (Nat.mod_eq_of_lt (by omega))

/-! ## Codes of numbers -/

namespace DType

/-- The byte of an overflow. -/
def overflowByte (d : DType) (negative : Bool) : Nat := if d.fnuz then 0x80 else d.top + if negative then 128 else 0

/-- The byte of a code with a sign. -/
def byte (d : DType) (negative : Bool) (n : Nat) : Nat :=
  if d.top ≤ n then d.overflowByte negative
  else if d.fnuz ∧ n = 0 then 0
  else n + if negative then 128 else 0

/-- The first float32 that is too large. -/
def limit : DType → Nat
  | float8_e4m3fn => 1087 * 2 ^ 20
  | float8_e5m2 => 143 * 2 ^ 23
  | float8_e4m3fnuz => 0x87 * 2 ^ 23
  | _ => 0x8F * 2 ^ 23

end DType

variable {d : DType}

theorem units_strictMono : StrictMono d.units := scaled_strictMono

theorem cast_units_strictMono : StrictMono fun n => (d.units n : ℚ) :=
  fun _ _ hlt => Nat.cast_lt.mpr (units_strictMono hlt)

theorem grid_limit (hd : d ≠ .float8_e8m0fnu) : float32.grid d.limit = d.units d.top := by
  cases d with
  | float8_e8m0fnu => exact absurd rfl hd
  | _ => rfl

/-- The unsigned code that `_round_ieee` gives below the limit. -/
theorem round_nearest (hd : d ≠ .float8_e8m0fnu) {f : BitVec 32} (hf : f.toNat < d.limit) {r : BitVec 32}
    (hr : r = _round_ieee d.format.mantissaBits d.bias (151 - d.bias - d.format.mantissaBits) (128 - d.bias) f) :
    r.toNat ≤ d.top ∧ Nearest (fun n => (d.units n : ℚ)) (float32.grid f.toNat) r.toNat := by
  have hle : float32.grid f.toNat ≤ d.units d.top := by
    rw [← grid_limit hd]
    exact (grid_strictMono hf).le
  have hbounds : 0 < d.format.mantissaBits ∧ d.format.mantissaBits ≤ 22 ∧ d.bias + d.format.mantissaBits ≤ 127 ∧
      d.top < 256 ∧ d.limit ≤ 2 ^ 31 := by
    cases d with
    | float8_e8m0fnu => exact absurd rfl hd
    | _ => decide
  obtain ⟨hM, hM', hBM, htop, hlimit⟩ := hbounds
  rw [hr]
  exact round_ieee_nearest hM hM' hBM (by omega) htop hle

/-- Past the limit the nearest code is too large. -/
theorem nearest_past_limit (hd : d ≠ .float8_e8m0fnu) {f : Nat} (hf : d.limit ≤ f) :
    ∃ n, d.top ≤ n ∧ Nearest (fun n => (d.units n : ℚ)) (float32.grid f) n := by
  have hbounds : d.format.mantissaBits ≤ 23 ∧ d.bias ≤ 127 ∧ (128 - d.bias) * 2 ^ 23 ≤ d.limit := by
    cases d with
    | float8_e8m0fnu => exact absurd rfl hd
    | _ => decide
  obtain ⟨hM, hB, hlimit⟩ := hbounds
  have hnear := nearest_normal (E := d.format.exponentBits) hM hB (hlimit.trans hf)
  refine ⟨_, ?_, hnear⟩
  refine (nearest_self cast_units_strictMono d.top).mono cast_units_strictMono ?_ hnear
  rw [← grid_limit hd]
  exact Nat.cast_le.mpr (grid_strictMono.monotone hf)

theorem byte_ge {negative : Bool} {n : Nat} (h : d.top ≤ n) : d.byte negative n = d.overflowByte negative := if_pos h

/-- The byte of a type with a negative zero. -/
theorem byte_signed (hfnuz : d.fnuz = false) (htop : d.top < 128) {r : BitVec 32} (hr : r.toNat ≤ d.top)
    (negative : Bool) :
    ((r ||| if negative then 0x80#32 else 0#32).setWidth 8).toNat = d.byte negative r.toNat := by
  rw [or_sign (by omega)]
  unfold DType.byte DType.overflowByte
  simp only [hfnuz, Bool.false_eq_true, false_and, if_false]
  by_cases hle : d.top ≤ r.toNat
  · rw [if_pos hle, Nat.le_antisymm hr hle]
  · rw [if_neg hle]

/-- The byte of a type without one: the first code that is too large is the NaN. -/
theorem byte_fnuz (hfnuz : d.fnuz = true) (htop : d.top = 128) {r : BitVec 32} (hr : r.toNat ≤ d.top)
    (negative : Bool) :
    ((if r = 0 then r else r ||| if negative then 0x80#32 else 0#32).setWidth 8).toNat = d.byte negative r.toNat := by
  unfold DType.byte DType.overflowByte
  simp only [hfnuz, htop, true_and, if_true]
  by_cases hzero : r = 0
  · rw [if_pos hzero, hzero]
    rfl
  · have hne : r.toNat ≠ 0 := fun h => hzero (BitVec.eq_of_toNat_eq h)
    rw [if_neg hzero]
    by_cases hlast : r.toNat = 128
    · obtain rfl : r = 128#32 := BitVec.eq_of_toNat_eq hlast
      cases negative <;> rfl
    · have hlt : ¬128 ≤ r.toNat := by omega
      rw [or_sign (by omega), if_neg hlt, if_neg hne]

/-- `f32_to_fp8` below the limit of the type. -/
theorem toNat_below (hd : d ≠ .float8_e8m0fnu) {v : BitVec 32} (hlim : float32.low v.toNat < d.limit) :
    ∃ n, Nearest (fun n => (d.units n : ℚ)) (float32.grid (float32.low v.toNat)) n ∧
      (f32_to_fp8 d v).toNat = d.byte v.msb n := by
  rw [← toNat_magnitude] at hlim ⊢
  obtain ⟨hle, hnear⟩ := round_nearest hd hlim rfl
  refine ⟨_, hnear, ?_⟩
  cases d with
  | float8_e8m0fnu => exact absurd rfl hd
  | float8_e4m3fn | float8_e5m2 =>
      refine Eq.trans ?_ (byte_signed rfl (by decide) hle v.msb)
      rw [← sign_byte]
      exact congrArg (fun r : BitVec 32 => ((r ||| _).setWidth 8).toNat) (if_neg (not_le.mpr hlim))
  | float8_e4m3fnuz | float8_e5m2fnuz =>
      refine Eq.trans ?_ (byte_fnuz rfl rfl hle v.msb)
      rw [← sign_byte]
      exact congrArg (fun r : BitVec 32 => (r.setWidth 8).toNat) (if_neg (not_le.mpr hlim))

/-- `f32_to_fp8` past the limit: a NaN of the two types with a sign has the last byte. -/
theorem toNat_past (hd : d ≠ .float8_e8m0fnu) {v : BitVec 32} (hlim : d.limit ≤ float32.low v.toNat) :
    (f32_to_fp8 d v).toNat =
      if d = .float8_e5m2 ∧ float32.infBits < float32.low v.toNat then 0x7F + if v.msb then 128 else 0
      else d.overflowByte v.msb := by
  rw [← toNat_magnitude] at hlim ⊢
  cases d with
  | float8_e8m0fnu => exact absurd rfl hd
  | float8_e4m3fn =>
      refine Eq.trans ?_ (or_sign (r := _u32 0x7F) (by decide) v.msb)
      rw [← sign_byte]
      exact congrArg (fun r : BitVec 32 => ((r ||| _).setWidth 8).toNat) (if_pos hlim)
  | float8_e5m2 =>
      by_cases hnan : float32.infBits < (v ^^^ (v &&& 0x80000000)).toNat
      · rw [if_pos ⟨rfl, hnan⟩]
        refine Eq.trans ?_ (or_sign (r := _u32 0x7F) (by decide) v.msb)
        rw [← sign_byte]
        exact congrArg (fun r : BitVec 32 => ((r ||| _).setWidth 8).toNat) ((if_pos hlim).trans (if_pos hnan))
      · rw [if_neg fun h => hnan h.2]
        refine Eq.trans ?_ (or_sign (r := _u32 0x7C) (by decide) v.msb)
        rw [← sign_byte]
        exact congrArg (fun r : BitVec 32 => ((r ||| _).setWidth 8).toNat) ((if_pos hlim).trans (if_neg hnan))
  | float8_e4m3fnuz | float8_e5m2fnuz =>
      exact congrArg (fun r : BitVec 32 => (r.setWidth 8).toNat) (if_pos hlim)

theorem limit_le_infBits (d : DType) : d.limit ≤ float32.infBits := by cases d <;> decide

/-- A number becomes its nearest code with its sign, or the byte of an overflow. -/
theorem encode_finite (hd : d ≠ .float8_e8m0fnu) {v : BitVec 32} (hfinite : float32.low v.toNat < float32.infBits) :
    ∃ n, Nearest (fun n => (d.units n : ℚ)) (float32.grid (float32.low v.toNat)) n ∧
      (f32_to_fp8 d v).toNat = d.byte v.msb n := by
  by_cases hlim : float32.low v.toNat < d.limit
  · exact toNat_below hd hlim
  · obtain ⟨n, htop, hnear⟩ := nearest_past_limit hd (not_lt.mp hlim)
    refine ⟨n, hnear, ?_⟩
    rw [toNat_past hd (not_lt.mp hlim), if_neg fun h => absurd h.2 (not_lt.mpr hfinite.le), byte_ge htop]

/-! ## Numbers -/

theorem code_eq (hd : d ≠ .float8_e8m0fnu) (n : Nat) : d.code n = d.units n * float32.least := by
  have hexp : (2 : ℚ) ^ (1 - (d.bias : Int) - d.format.mantissaBits) =
      2 ^ (150 - d.bias - d.format.mantissaBits) * float32.least := by
    have hleast : float32.least = 2 ^ (-149 : Int) := rfl
    have hsum : ((150 - d.bias - d.format.mantissaBits : Nat) : Int) + -149 =
        1 - (d.bias : Int) - d.format.mantissaBits := by
      cases d with
      | float8_e8m0fnu => exact absurd rfl hd
      | _ => rfl
    rw [hleast, ← zpow_natCast, ← zpow_add₀ two_ne_zero, hsum]
  unfold DType.code DType.units scaled
  rw [hexp]
  push_cast
  ring

theorem code_strictMono (hd : d ≠ .float8_e8m0fnu) : StrictMono d.code := fun _ _ hlt => by
  rw [code_eq hd, code_eq hd]
  exact mul_lt_mul_of_pos_right (cast_units_strictMono hlt) least_pos

@[simp] theorem code_zero (d : DType) : d.code 0 = 0 := by simp [DType.code]

theorem code_nonneg (hd : d ≠ .float8_e8m0fnu) (n : Nat) : 0 ≤ d.code n := by
  rw [← code_zero d]
  exact (code_strictMono hd).monotone (Nat.zero_le n)

theorem number_iff {b : BitVec 32} {q : ℚ} : Number b q ↔ float32.low b.toNat < float32.infBits ∧
    q = if b.msb then -(float32.grid (float32.low b.toNat) * float32.least)
      else float32.grid (float32.low b.toNat) * float32.least := by
  rw [msb_eq_sign]
  exact ieee_eq_finite

/-- A number becomes the byte of its nearest code. -/
theorem encode_number (hd : d ≠ .float8_e8m0fnu) {v : BitVec 32} {q : ℚ} (h : Number v q) :
    ∃ n, Nearest d.code |q| n ∧ (f32_to_fp8 d v).toNat = d.byte v.msb n ∧ q = if v.msb then -|q| else |q| := by
  obtain ⟨hfinite, hq⟩ := number_iff.mp h
  obtain ⟨n, hnear, hbyte⟩ := encode_finite hd hfinite
  have hpos : (0 : ℚ) ≤ float32.grid (float32.low v.toNat) * float32.least :=
    mul_nonneg (Nat.cast_nonneg _) least_pos.le
  have habs : |q| = float32.grid (float32.low v.toNat) * float32.least := by
    rw [hq]
    split
    · rw [abs_neg, abs_of_nonneg hpos]
    · exact abs_of_nonneg hpos
  refine ⟨n, ?_, hbyte, habs ▸ hq⟩
  have hcode : d.code = fun n => (d.units n : ℚ) * float32.least := funext fun n => code_eq hd n
  rw [hcode, habs]
  exact hnear.mul_right least_pos

/-- The entry of a byte in the table. -/
theorem pattern_of_byte (hd : d ≠ .float8_e8m0fnu) (c : BitVec 8) :
    if d.isNumber c = true then
      float32.low (fp8_to_f32 d c).toNat < float32.infBits ∧
        float32.grid (float32.low (fp8_to_f32 d c).toNat) = d.units (c.toNat % 128) ∧
        (fp8_to_f32 d c).msb = decide (128 ≤ c.toNat)
    else if d = .float8_e5m2 ∧ c.toNat % 128 = 0x7C then
      float32.low (fp8_to_f32 d c).toNat = float32.infBits ∧ (fp8_to_f32 d c).msb = decide (128 ≤ c.toNat)
    else float32.infBits < float32.low (fp8_to_f32 d c).toNat :=
  pattern_table d (mem_ieeeTypes hd) c.toFin

/-- The number of a code that has one. -/
theorem number_of_isNumber (hd : d ≠ .float8_e8m0fnu) {c : BitVec 8} (hc : d.isNumber c = true) :
    Number (fp8_to_f32 d c) (if 128 ≤ c.toNat then -d.code (c.toNat % 128) else d.code (c.toNat % 128)) := by
  have htable := pattern_of_byte hd c
  rw [if_pos hc] at htable
  obtain ⟨hfinite, hgrid, hsign⟩ := htable
  refine number_iff.mpr ⟨hfinite, ?_⟩
  rw [hsign, hgrid, ← code_eq hd]
  simp only [decide_eq_true_eq]

/-- Every number of the type is the number of a code. -/
theorem exists_code (hd : d ≠ .float8_e8m0fnu) {c : BitVec 8} {z : ℚ} (h : Number (fp8_to_f32 d c) z) :
    d.isNumber c = true ∧ |z| = d.code (c.toNat % 128) ∧ c.toNat % 128 < d.top := by
  have hnum : d.isNumber c = true := by
    by_contra hc
    have htable := pattern_of_byte hd c
    obtain ⟨hfinite, -⟩ := number_iff.mp h
    rw [if_neg hc] at htable
    split at htable <;> omega
  have hz := number_of_isNumber hd hnum
  obtain rfl : z = if 128 ≤ c.toNat then -d.code (c.toNat % 128) else d.code (c.toNat % 128) :=
    (number_iff.mp h).2.trans (number_iff.mp hz).2.symm
  refine ⟨hnum, ?_, ?_⟩
  · split
    · rw [abs_neg, abs_of_nonneg (code_nonneg hd _)]
    · exact abs_of_nonneg (code_nonneg hd _)
  · unfold DType.isNumber at hnum
    rw [Bool.and_eq_true, decide_eq_true_iff] at hnum
    exact hnum.1

/-- The byte of a code below the first one that is too large. -/
theorem number_of_byte (hd : d ≠ .float8_e8m0fnu) {c : BitVec 8} {negative : Bool} {n : Nat} (hn : n < d.top)
    (hc : c.toNat = d.byte negative n) :
    c.toNat % 2 = n % 2 ∧ c.toNat % 128 = n ∧ Number (fp8_to_f32 d c) (if negative then -d.code n else d.code n) := by
  have htop : d.top ≤ 128 := by cases d <;> decide
  unfold DType.byte at hc
  rw [if_neg (not_le.mpr hn)] at hc
  by_cases hzero : d.fnuz = true ∧ n = 0
  · rw [if_pos hzero] at hc
    obtain ⟨-, rfl⟩ := hzero
    have hnum : d.isNumber c = true := by
      obtain rfl : c = 0#8 := BitVec.eq_of_toNat_eq hc
      cases d <;> rfl
    have h := number_of_isNumber hd hnum
    rw [hc, if_neg (by decide)] at h
    refine ⟨by rw [hc], by rw [hc], ?_⟩
    rw [Nat.zero_mod, code_zero] at h
    rwa [code_zero, neg_zero, ite_self]
  · rw [if_neg hzero] at hc
    have hmod : c.toNat % 128 = n := by
      split at hc <;> omega
    have hneg : 128 ≤ c.toNat ↔ negative = true := by
      cases negative <;> simp at hc ⊢ <;> omega
    have hnum : d.isNumber c = true := by
      unfold DType.isNumber
      rw [Bool.and_eq_true, decide_eq_true_iff, hmod, Bool.not_eq_true', Bool.and_eq_false_iff]
      refine ⟨hn, ?_⟩
      by_cases hfnuz : d.fnuz = true
      · refine .inr (beq_false_of_ne fun h => hzero ⟨hfnuz, ?_⟩)
        rw [← hmod, h]
        rfl
      · exact .inl (Bool.not_eq_true _ ▸ hfnuz)
    have h := number_of_isNumber hd hnum
    rw [hmod] at h
    refine ⟨by omega, hmod, ?_⟩
    simpa only [hneg] using h

/-- The byte of an overflow. -/
theorem overflow_of_byte (hd : d ≠ .float8_e8m0fnu) {c : BitVec 8} {negative : Bool}
    (hc : c.toNat = d.overflowByte negative) : float32.ieee (fp8_to_f32 d c).toNat = d.overflow negative := by
  have htable := pattern_of_byte hd c
  obtain rfl : c = BitVec.ofNat 8 (d.overflowByte negative) := by
    rw [← hc, BitVec.ofNat_toNat, BitVec.setWidth_eq]
  have hnum : ¬d.isNumber (BitVec.ofNat 8 (d.overflowByte negative)) = true := by
    cases d with
    | float8_e8m0fnu => exact absurd rfl hd
    | _ => cases negative <;> decide
  rw [if_neg hnum] at htable
  rw [ieee_eq, ← msb_eq_sign]
  unfold DType.overflow
  by_cases hd5 : d = .float8_e5m2
  · subst hd5
    have hlast : (BitVec.ofNat 8 (DType.float8_e5m2.overflowByte negative)).toNat % 128 = 0x7C := by
      cases negative <;> rfl
    rw [if_pos ⟨rfl, hlast⟩] at htable
    rw [htable.1, htable.2, if_neg (lt_irrefl _), if_pos rfl, if_pos rfl]
    cases negative <;> rfl
  · rw [if_neg fun h => hd5 h.1] at htable
    rw [if_pos htable, if_neg hd5]

/-- A number overflows where its nearest code is too large. -/
theorem overflows_iff (hd : d ≠ .float8_e8m0fnu) {q : ℚ} {n : Nat} (hnear : Nearest d.code |q| n) :
    Overflows d q ↔ d.top ≤ n := by
  constructor
  · rintro ⟨k, hk, hpast⟩
    obtain rfl := hk.unique (code_strictMono hd) hnear
    -- the last number of the type
    have htop : 0 < d.top := by cases d <;> decide
    have hbyte : d.byte false (d.top - 1) < 2 ^ 8 := by cases d <;> decide
    have hlast := (number_of_byte hd (Nat.sub_lt htop Nat.one_pos) (c := BitVec.ofNat 8 (d.byte false (d.top - 1)))
      (by rw [BitVec.toNat_ofNat, Nat.mod_eq_of_lt hbyte])).2.2
    have hlt := (code_strictMono hd).lt_iff_lt.mp (hpast _ _ hlast)
    omega
  · intro hle
    refine ⟨n, hnear, fun c z hz => ?_⟩
    obtain ⟨-, habs, hlt⟩ := exists_code hd hz
    calc z ≤ |z| := le_abs_self z
      _ = d.code (c.toNat % 128) := habs
      _ < d.code n := code_strictMono hd (hlt.trans_le hle)

/-! ## The conversion -/

/-- A number becomes the nearest number of the type, ties to the even code, or overflows. -/
structure Rounds (d : DType) (v : BitVec 32) (q : ℚ) : Prop where
  near : ¬Overflows d q → ∃ y, Number (fp8_to_f32 d (f32_to_fp8 d v)) y ∧
    ∀ c z, Number (fp8_to_f32 d c) z →
      |y - q| ≤ |z - q| ∧ (|y - q| = |z - q| → y = z ∨ (f32_to_fp8 d v).toNat % 2 = 0)
  overflow : Overflows d q → float32.ieee (fp8_to_f32 d (f32_to_fp8 d v)).toNat = d.overflow v.msb

/-- What a float32 that is a number becomes. -/
theorem encode_cases (hd : d ≠ .float8_e8m0fnu) {v : BitVec 32} {q : ℚ} (h : Number v q) :
    ∃ n, Nearest d.code |q| n ∧ q = (if v.msb then -|q| else |q|) ∧
      ((n < d.top ∧ (f32_to_fp8 d v).toNat % 2 = n % 2 ∧ (f32_to_fp8 d v).toNat % 128 = n ∧
          Number (fp8_to_f32 d (f32_to_fp8 d v)) (if v.msb then -d.code n else d.code n)) ∨
        (d.top ≤ n ∧ float32.ieee (fp8_to_f32 d (f32_to_fp8 d v)).toNat = d.overflow v.msb)) := by
  obtain ⟨n, hnear, hbyte, hq⟩ := encode_number hd h
  refine ⟨n, hnear, hq, ?_⟩
  rcases lt_or_ge n d.top with hlt | hge
  · exact .inl ⟨hlt, number_of_byte hd hlt hbyte⟩
  · exact .inr ⟨hge, overflow_of_byte hd (hbyte.trans (byte_ge hge))⟩

/-- Two numbers of one size at one distance from a third one are equal, unless that is zero. -/
theorem eq_or_eq_zero {y z q : ℚ} (hsize : |y| = |z|) (hdist : |y - q| = |z - q|) : y = z ∨ q = 0 := by
  have h1 := (sq_eq_sq_iff_abs_eq_abs y z).mpr hsize
  have h2 := (sq_eq_sq_iff_abs_eq_abs (y - q) (z - q)).mpr hdist
  have hprod : q * (y - z) = 0 := by linarith
  rcases mul_eq_zero.mp hprod with hq | hyz
  · exact .inr hq
  · exact .inl (sub_eq_zero.mp hyz)

theorem rounds (hd : d ≠ .float8_e8m0fnu) {v : BitVec 32} {q : ℚ} (h : Number v q) : Rounds d v q := by
  obtain ⟨n, hnear, hq, ⟨hlt, heven, -, hnumber⟩ | ⟨hge, hover⟩⟩ := encode_cases hd h
  · refine ⟨fun _ => ⟨_, hnumber, fun c z hz => ?_⟩, fun hoverflow => ?_⟩
    · obtain ⟨-, habs, -⟩ := exists_code hd hz
      obtain ⟨hle, htie⟩ := hnear (c.toNat % 128)
      -- the sign of the result is that of the number
      have hdist : |(if v.msb then -d.code n else d.code n) - q| = abs (d.code n - |q|) := by
        nth_rewrite 1 [hq]
        split
        · rw [← abs_neg]
          congr 1
          ring
        · rfl
      have hsize : |if v.msb then -d.code n else d.code n| = d.code n := by
        split
        · rw [abs_neg, abs_of_nonneg (code_nonneg hd n)]
        · exact abs_of_nonneg (code_nonneg hd n)
      have hreverse : abs (d.code (c.toNat % 128) - |q|) ≤ |z - q| := by
        rw [← habs]
        exact abs_abs_sub_abs_le z q
      rw [heven]
      refine ⟨hdist.le.trans (hle.trans hreverse), fun heq => ?_⟩
      rcases htie (le_antisymm hle (hreverse.trans_eq (heq.symm.trans hdist))) with hcode | hn
      · -- the same code, so the same number or its negative
        rw [← hcode] at habs
        rcases eq_or_eq_zero (hsize.trans habs.symm) heq with hyz | rfl
        · exact .inl hyz
        · rw [abs_zero, ← code_zero d] at hnear
          obtain rfl := hnear.unique (code_strictMono hd) (nearest_self (code_strictMono hd) 0)
          rw [code_zero] at habs ⊢
          rw [neg_zero, ite_self]
          exact .inl (abs_eq_zero.mp habs).symm
      · exact .inr hn
    · exact absurd ((overflows_iff hd hnear).mp hoverflow) (not_le.mpr hlt)
  · exact ⟨fun hno => absurd ((overflows_iff hd hnear).mpr hge) hno, fun _ => hover⟩

/-- The result of a number by the number's sign, where it is no NaN. -/
theorem result_cases (hd : d ≠ .float8_e8m0fnu) {v : BitVec 32} {q : ℚ} (h : Number v q)
    {x : WithBot (WithTop ℚ)} (hx : float32.ieee (fp8_to_f32 d (f32_to_fp8 d v)).toNat = some x) :
    ∃ n, Nearest d.code |q| n ∧
      ((0 ≤ q ∧ ((n < d.top ∧ x = finite (d.code n)) ∨ (d.top ≤ n ∧ x = ⊤))) ∨
        (q < 0 ∧ ((n < d.top ∧ x = finite (-d.code n)) ∨ (d.top ≤ n ∧ x = ⊥)))) := by
  obtain ⟨n, hnear, hq, hcase⟩ := encode_cases hd h
  refine ⟨n, hnear, ?_⟩
  have htop : 0 < d.top := by cases d <;> decide
  have hzero : q = 0 → n = 0 := by
    rintro rfl
    rw [abs_zero, ← code_zero d] at hnear
    exact hnear.unique (code_strictMono hd) (nearest_self (code_strictMono hd) 0)
  have hsign : v.msb = false → 0 ≤ q := fun hs => by
    rw [hs, if_neg Bool.false_ne_true] at hq
    exact hq ▸ abs_nonneg q
  have hneg : v.msb = true → q ≤ 0 := fun hs => by
    rw [hs, if_pos rfl] at hq
    exact hq ▸ neg_nonpos.mpr (abs_nonneg q)
  rcases hcase with ⟨hlt, -, -, hnumber⟩ | ⟨hge, hover⟩
  · have hx' := Option.some.inj (hx.symm.trans hnumber)
    cases hs : v.msb with
    | false =>
        rw [hs, if_neg Bool.false_ne_true] at hx'
        exact .inl ⟨hsign hs, .inl ⟨hlt, hx'⟩⟩
    | true =>
        rw [hs, if_pos rfl] at hx'
        rcases (hneg hs).lt_or_eq with hq | heq
        · exact .inr ⟨hq, .inl ⟨hlt, hx'⟩⟩
        · refine .inl ⟨heq.ge, .inl ⟨hlt, ?_⟩⟩
          rw [hx', hzero heq, code_zero, neg_zero]
  · have hne : q ≠ 0 := fun h0 => by
      have := hzero h0
      omega
    rw [hover] at hx
    unfold DType.overflow at hx
    split at hx
    · obtain rfl := Option.some.inj hx
      cases hs : v.msb with
      | false => exact .inl ⟨hsign hs, .inr ⟨hge, rfl⟩⟩
      | true => exact .inr ⟨lt_of_le_of_ne (hneg hs) hne, .inr ⟨hge, rfl⟩⟩
    · cases hx

/-- The order of two numbers is kept where both results are ordered. -/
theorem encode_mono (hd : d ≠ .float8_e8m0fnu) {v w : BitVec 32} {p q : ℚ} (hv : Number v p) (hw : Number w q)
    (hle : p ≤ q) {x y : WithBot (WithTop ℚ)} (hx : float32.ieee (fp8_to_f32 d (f32_to_fp8 d v)).toNat = some x)
    (hy : float32.ieee (fp8_to_f32 d (f32_to_fp8 d w)).toNat = some y) : x ≤ y := by
  obtain ⟨n, hn, hxcase⟩ := result_cases hd hv hx
  obtain ⟨m, hm, hycase⟩ := result_cases hd hw hy
  have hcode := (code_strictMono hd).monotone
  rcases hxcase with ⟨hp, hxcase⟩ | ⟨hp, hxcase⟩
  · rcases hycase with ⟨hq, hycase⟩ | ⟨hq, -⟩
    · rw [abs_of_nonneg hp] at hn
      rw [abs_of_nonneg hq] at hm
      have hnm := hn.mono (code_strictMono hd) hle hm
      rcases hycase with ⟨hmtop, rfl⟩ | ⟨-, rfl⟩
      · rcases hxcase with ⟨-, rfl⟩ | ⟨hntop, -⟩
        · exact (finite_le_iff _ _).mpr (hcode hnm)
        · omega
      · exact le_top
    · exact absurd (hp.trans hle) (not_le.mpr hq)
  · rcases hycase with ⟨hq, hycase⟩ | ⟨hq, hycase⟩
    · have hxzero : x ≤ finite 0 := by
        rcases hxcase with ⟨-, rfl⟩ | ⟨-, rfl⟩
        · exact (finite_le_iff _ _).mpr (neg_nonpos.mpr (code_nonneg hd n))
        · exact bot_le
      refine hxzero.trans ?_
      rcases hycase with ⟨-, rfl⟩ | ⟨-, rfl⟩
      · exact (finite_le_iff _ _).mpr (code_nonneg hd m)
      · exact le_top
    · rw [abs_of_neg hp] at hn
      rw [abs_of_neg hq] at hm
      have hmn := hm.mono (code_strictMono hd) (neg_le_neg hle) hn
      rcases hxcase with ⟨hntop, rfl⟩ | ⟨-, rfl⟩
      · rcases hycase with ⟨-, rfl⟩ | ⟨hmtop, -⟩
        · exact (finite_le_iff _ _).mpr (neg_le_neg (hcode hmn))
        · omega
      · exact bot_le

/-- What is larger than an overflow overflows. -/
theorem Overflows.mono (hd : d ≠ .float8_e8m0fnu) {v w : BitVec 32} {p q : ℚ} (hv : Number v p) (hw : Number w q)
    (hle : |p| ≤ |q|) (h : Overflows d p) : Overflows d q := by
  obtain ⟨n, hn, -⟩ := encode_cases hd hv
  obtain ⟨m, hm, -⟩ := encode_cases hd hw
  rw [overflows_iff hd hn] at h
  exact (overflows_iff hd hm).mpr (h.trans (hn.mono (code_strictMono hd) hle hm))

/-- Every code that is no NaN comes back. -/
theorem round_trip (hd : d ≠ .float8_e8m0fnu) {c : BitVec 8} (hc : float32.ieee (fp8_to_f32 d c).toNat ≠ none) :
    f32_to_fp8 d (fp8_to_f32 d c) = c := by
  have htable := pattern_of_byte hd c
  have hnan : ¬float32.infBits < float32.low (fp8_to_f32 d c).toNat := fun h => hc (by rw [ieee_eq, if_pos h])
  have hbyte := c.isLt
  refine BitVec.eq_of_toNat_eq ?_
  by_cases hnum : d.isNumber c = true
  · rw [if_pos hnum] at htable
    obtain ⟨hfinite, hgrid, hsign⟩ := htable
    obtain ⟨n, hnear, hcode⟩ := encode_finite hd hfinite
    rw [hgrid] at hnear
    obtain rfl := hnear.unique cast_units_strictMono (nearest_self cast_units_strictMono (c.toNat % 128))
    unfold DType.isNumber at hnum
    rw [Bool.and_eq_true, decide_eq_true_iff, Bool.not_eq_true', Bool.and_eq_false_iff] at hnum
    rw [hcode, hsign]
    unfold DType.byte
    rw [if_neg (not_le.mpr hnum.1)]
    by_cases hzero : d.fnuz = true ∧ c.toNat % 128 = 0
    · rw [if_pos hzero]
      have hne : c.toNat ≠ 128 := fun h => by
        obtain rfl : c = 0x80#8 := BitVec.eq_of_toNat_eq h
        rcases hnum.2 with hsigned | hne
        · exact Bool.noConfusion (hzero.1.symm.trans hsigned)
        · exact absurd hne (by decide)
      omega
    · rw [if_neg hzero]
      by_cases hs : 128 ≤ c.toNat
      · rw [decide_eq_true hs, if_pos rfl]
        omega
      · rw [decide_eq_false hs, if_neg Bool.false_ne_true]
        omega
  · rw [if_neg hnum] at htable
    by_cases hinf : d = .float8_e5m2 ∧ c.toNat % 128 = 0x7C
    · rw [if_pos hinf] at htable
      obtain ⟨rfl, hlast⟩ := hinf
      rw [toNat_past hd (by rw [htable.1]; exact limit_le_infBits _), htable.1, if_neg fun h => lt_irrefl _ h.2, htable.2]
      change 0x7C + _ = _
      by_cases hs : 128 ≤ c.toNat
      · rw [decide_eq_true hs, if_pos rfl]
        omega
      · rw [decide_eq_false hs, if_neg Bool.false_ne_true]
        omega
    · rw [if_neg hinf] at htable
      exact absurd htable hnan

/-- A NaN stays one. -/
theorem encode_nan (hd : d ≠ .float8_e8m0fnu) {v : BitVec 32} (hv : float32.infBits < float32.low v.toNat) :
    float32.ieee (fp8_to_f32 d (f32_to_fp8 d v)).toNat = none := by
  have hbyte := toNat_past hd ((limit_le_infBits d).trans hv.le)
  by_cases hd5 : d = .float8_e5m2
  · subst hd5
    rw [if_pos ⟨rfl, hv⟩] at hbyte
    have htable := pattern_of_byte hd (f32_to_fp8 .float8_e5m2 v)
    have hlow : (f32_to_fp8 .float8_e5m2 v).toNat % 128 = 0x7F := by
      rw [hbyte]
      cases v.msb <;> rfl
    have hnum : ¬DType.isNumber .float8_e5m2 (f32_to_fp8 .float8_e5m2 v) = true := by
      unfold DType.isNumber
      rw [Bool.and_eq_true, decide_eq_true_iff, hlow]
      exact fun h => absurd h.1 (by decide)
    rw [if_neg hnum, hlow, if_neg (by decide)] at htable
    rw [ieee_eq, if_pos htable]
  · rw [if_neg fun h => hd5 h.1] at hbyte
    rw [overflow_of_byte hd hbyte]
    exact if_neg hd5

/-- An infinity overflows. -/
theorem encode_infinity (hd : d ≠ .float8_e8m0fnu) {v : BitVec 32} (hv : float32.low v.toNat = float32.infBits) :
    float32.ieee (fp8_to_f32 d (f32_to_fp8 d v)).toNat = d.overflow v.msb := by
  refine overflow_of_byte hd ?_
  rw [toNat_past hd (hv ▸ limit_le_infBits d), if_neg fun h => absurd h.2 (hv ▸ lt_irrefl _)]

/-- The one zero of a type without signs. -/
theorem encode_zero (hd : d ≠ .float8_e8m0fnu) (hfnuz : d.fnuz = true) {c : BitVec 8}
    (h : Number (fp8_to_f32 d c) 0) : c = 0 := by
  obtain ⟨hnum, habs, -⟩ := exists_code hd h
  rw [abs_zero, ← code_zero d] at habs
  have hzero := (code_strictMono hd).injective habs
  unfold DType.isNumber at hnum
  rw [hfnuz, Bool.and_eq_true, Bool.true_and, Bool.not_eq_true', beq_eq_false_iff_ne] at hnum
  have hne : c.toNat ≠ 128 := fun h => hnum.2 (BitVec.eq_of_toNat_eq h)
  have hbyte := c.isLt
  refine BitVec.eq_of_toNat_eq ?_
  change c.toNat = 0
  omega

/-- What the conversions promise. -/
structure RoundsCorrectly (d : DType) : Prop where
  nan : ∀ v, float32.ieee v.toNat = none → float32.ieee (fp8_to_f32 d (f32_to_fp8 d v)).toNat = none
  infinity : ∀ v, float32.ieee v.toNat = some ⊤ ∨ float32.ieee v.toNat = some ⊥ →
    float32.ieee (fp8_to_f32 d (f32_to_fp8 d v)).toNat = d.overflow v.msb
  number : ∀ v q, Number v q → Rounds d v q
  zero : d.fnuz = true → ∀ v, Number (fp8_to_f32 d (f32_to_fp8 d v)) 0 → f32_to_fp8 d v = 0
  mono : ∀ v w p q, Number v p → Number w q →
    (p ≤ q → ∀ x y, float32.ieee (fp8_to_f32 d (f32_to_fp8 d v)).toNat = some x →
      float32.ieee (fp8_to_f32 d (f32_to_fp8 d w)).toNat = some y → x ≤ y) ∧
    (|p| ≤ |q| → Overflows d p → Overflows d q)
  back : ∀ c, float32.ieee (fp8_to_f32 d c).toNat ≠ none → f32_to_fp8 d (fp8_to_f32 d c) = c

/-- The four types of IEEE kind round to the nearest, ties to even. -/
theorem float8_rounds_correctly (hd : d ≠ .float8_e8m0fnu) : RoundsCorrectly d where
  nan v hv := by
    refine encode_nan hd ?_
    rw [ieee_eq] at hv
    by_contra hle
    rw [if_neg hle] at hv
    split at hv <;> cases hv
  infinity v hv := by
    refine encode_infinity hd ?_
    by_contra hne
    rw [ieee_eq] at hv
    split at hv
    · rcases hv with hv | hv <;> cases hv
    · rcases hv with hv | hv
      · exact absurd (Option.some.inj hv) (finite_lt_top _).ne
      · exact absurd (Option.some.inj hv) (bot_lt_finite _).ne'
  number v q hv := rounds hd hv
  zero hfnuz v hv := encode_zero hd hfnuz hv
  mono v w p q hv hw := ⟨fun hle x y hx hy => encode_mono hd hv hw hle hx hy, fun hle h => h.mono hd hv hw hle⟩
  back c hc := round_trip hd hc

theorem float8_rounds_correctly_e4m3fn : RoundsCorrectly .float8_e4m3fn := float8_rounds_correctly (by decide)

end TorchMojoBackend.Kernels.Float8
