/-
  `Kernels.SortKey`: the keys that elements are sorted by.

  An element is a bit pattern of its dtype and stands for a number or for none.  Its key
  is an unsigned number: the patterns of a float with those below zero in reverse, those
  of a signed integer from the least.  The keys are in the order of the numbers, with
  equal keys for equal numbers, and what is no number has the greatest.
-/
import Mathlib.Order.Fin.Basic
import TorchMojoBackend.Foundation.FloatBits
import TorchMojoBackend.Foundation.Scalar

set_option autoImplicit false

namespace TorchMojoBackend.Kernels.SortKey

open TorchMojoBackend.Foundation

/-- The dtypes that are sorted; a bool is a byte that is 0 or 1. -/
inductive DType where
  | float64 | float32 | float16 | bfloat16 | int64 | int32 | int16 | int8 | uint8 | bool
  deriving DecidableEq

namespace DType

def bits : DType → Nat
  | float64 | int64 => 64
  | float32 | int32 => 32
  | float16 | bfloat16 | int16 => 16
  | int8 | uint8 => 8
  | bool => 1

/-- Keys of 64 bits, for elements of 8 bytes. -/
def wide (d : DType) : Bool := d.bits == 64

/-- The bits of `KT`. -/
def keyBits (d : DType) : Nat := if d.wide then 64 else 32

end DType

/-- An element of a tensor. -/
structure Elem (d : DType) where
  bits : BitVec d.bits

/-- The number of an element. -/
def number : (d : DType) → BitVec d.bits → Option Int
  | .float64, b => FloatFormat.value ⟨11, 52⟩ b.toNat
  | .float32, b => FloatFormat.value ⟨8, 23⟩ b.toNat
  | .float16, b => FloatFormat.value ⟨5, 10⟩ b.toNat
  | .bfloat16, b => FloatFormat.value ⟨8, 7⟩ b.toNat
  | .int64, b | .int32, b | .int16, b | .int8, b => some b.toInt
  | .uint8, b | .bool, b => some b.toNat

instance (d : DType) : Scalar (Elem d) Int := ⟨fun a => number d a.bits⟩

/-- `_float_key` -/
def floatKey {w : Nat} (KT absMask infBits signShift : Nat) (raw : BitVec w) : BitVec KT :=
  let magnitude := raw &&& BitVec.ofNat w absMask
  if magnitude > BitVec.ofNat w infBits then ~~~BitVec.ofNat KT 0
  else
    let bits := if magnitude = 0 then 0 else raw
    (bits ^^^ (-(bits >>> signShift) ||| 1#w <<< signShift)).setWidth KT

/-- The key of a signed integer. -/
def intKey {w : Nat} (KT top : Nat) (v : BitVec w) : BitVec KT := (v ^^^ BitVec.ofNat w top).setWidth KT

/-- `_sort_key` as bits. -/
def keyOf : (d : DType) → BitVec d.bits → BitVec d.keyBits
  | .float64, v => floatKey 64 0x7FFFFFFFFFFFFFFF 0x7FF0000000000000 63 v
  | .float32, v => floatKey 32 0x7FFFFFFF 0x7F800000 31 v
  | .float16, v => floatKey 32 0x7FFF 0x7C00 15 v
  | .bfloat16, v => floatKey 32 0x7FFF 0x7F80 15 v
  | .int64, v => intKey 64 (1 <<< 63) v
  | .int32, v => intKey 32 0x80000000 v
  | .int16, v => intKey 32 0x8000 v
  | .int8, v => intKey 32 0x80 v
  | .uint8, v | .bool, v => v.setWidth 32

/-- `_sort_key` -/
def sortKey (d : DType) (a : Elem d) : Fin (2 ^ d.keyBits) := (keyOf d a.bits).toFin

/-! ## Bits -/

/-- The top bit added or taken away. -/
theorem xor_top {k n : Nat} (h : n < 2 * 2 ^ k) :
    n ^^^ 2 ^ k = if n < 2 ^ k then n + 2 ^ k else n - 2 ^ k := by
  have hfields : n ^^^ 2 ^ k = 2 ^ k * (n / 2 ^ k ^^^ 1) + n % 2 ^ k :=
    calc n ^^^ 2 ^ k = 2 ^ k * ((n ^^^ 2 ^ k) / 2 ^ k) + (n ^^^ 2 ^ k) % 2 ^ k :=
          (Nat.div_add_mod _ _).symm
      _ = 2 ^ k * (n / 2 ^ k ^^^ 1) + n % 2 ^ k := by
          rw [Nat.xor_div_two_pow, Nat.xor_mod_two_pow, Nat.mod_self, Nat.xor_zero,
            Nat.div_self (Nat.two_pow_pos k)]
  by_cases hlow : n < 2 ^ k
  · rw [if_pos hlow, hfields, Nat.div_eq_of_lt hlow, Nat.mod_eq_of_lt hlow, Nat.zero_xor,
      Nat.mul_one, Nat.add_comm]
  · have hone : n / 2 ^ k = 1 := Nat.div_eq_of_lt_le (by omega) (by omega)
    rw [if_neg hlow, hfields, hone, Nat.xor_self, Nat.mul_zero, Nat.zero_add,
      Nat.mod_eq_sub_mod (Nat.not_lt.mp hlow), Nat.mod_eq_of_lt (by omega)]

/-- Integers from the least. -/
theorem intKey_toNat {w k KT : Nat} (hw : w = k + 1) (hKT : w ≤ KT) (v : BitVec w) :
    ((intKey KT (2 ^ k) v).toNat : Int) = v.toInt + 2 ^ k := by
  subst hw
  have hv := v.isLt
  have hpow : 2 ^ (k + 1) = 2 * 2 ^ k := Nat.pow_succ'
  have htop : 2 ^ k < 2 ^ (k + 1) := Nat.pow_lt_pow_right (by decide) (Nat.lt_succ_self k)
  have hwide : (v ^^^ BitVec.ofNat (k + 1) (2 ^ k)).toNat < 2 ^ KT :=
    Nat.lt_of_lt_of_le (BitVec.isLt _) (Nat.pow_le_pow_right (by decide) hKT)
  unfold intKey
  rw [BitVec.toNat_setWidth, Nat.mod_eq_of_lt hwide, BitVec.toNat_xor, BitVec.toNat_ofNat,
    Nat.mod_eq_of_lt htop, xor_top (by omega), BitVec.toInt_eq_toNat_cond]
  have hcast : ((2 ^ k : Nat) : Int) = 2 ^ k := by push_cast; rfl
  rw [← hcast]
  split <;> split <;> omega

/-- What the key of a float is made from. -/
theorem floatKey_bits {k : Nat} (v : BitVec (k + 1)) :
    (v ^^^ (-(v >>> k) ||| BitVec.ofNat (k + 1) 1 <<< k)).toNat =
      if v.toNat < 2 ^ k then v.toNat + 2 ^ k else 2 ^ (k + 1) - 1 - v.toNat := by
  have hv := v.isLt
  have hpow : 2 ^ (k + 1) = 2 * 2 ^ k := Nat.pow_succ'
  by_cases hlow : v.toNat < 2 ^ k
  · have hzero : v >>> k = BitVec.ofNat (k + 1) 0 := by
      apply BitVec.eq_of_toNat_eq
      rw [BitVec.toNat_ushiftRight, Nat.shiftRight_eq_div_pow, Nat.div_eq_of_lt hlow,
        BitVec.toNat_ofNat, Nat.zero_mod]
    have htop : (BitVec.ofNat (k + 1) 1 <<< k).toNat = 2 ^ k := by
      rw [BitVec.toNat_shiftLeft, BitVec.toNat_ofNat, Nat.one_mod_two_pow (Nat.succ_pos k),
        Nat.shiftLeft_eq, Nat.one_mul, Nat.mod_eq_of_lt (by omega)]
    rw [hzero, BitVec.neg_zero, BitVec.zero_or, BitVec.toNat_xor, htop, xor_top (by omega),
      if_pos hlow, if_pos hlow]
  · have hone : v >>> k = BitVec.ofNat (k + 1) 1 := by
      apply BitVec.eq_of_toNat_eq
      rw [BitVec.toNat_ushiftRight, Nat.shiftRight_eq_div_pow, BitVec.toNat_ofNat,
        Nat.one_mod_two_pow (Nat.succ_pos k)]
      exact Nat.div_eq_of_lt_le (by omega) (by omega)
    rw [hone, BitVec.neg_one_eq_allOnes, BitVec.allOnes_or, BitVec.xor_allOnes, BitVec.toNat_not,
      if_neg hlow]

/-- Patterns of floats, those below zero in reverse. -/
theorem floatKey_toNat {w KT : Nat} (f : FloatFormat) (hw : w = f.lowBits + 1) (hKT : w ≤ KT)
    (v : BitVec w) :
    (floatKey KT (2 ^ f.lowBits - 1) f.infBits f.lowBits v).toNat =
      if f.isNaN v.toNat then 2 ^ KT - 1
      else (2 ^ f.lowBits + f.signed v.toNat - if f.signed v.toNat < 0 then 1 else 0).toNat := by
  subst hw
  have hv := v.isLt
  have hpos := Nat.two_pow_pos f.lowBits
  have hpow : 2 ^ (f.lowBits + 1) = 2 * 2 ^ f.lowBits := Nat.pow_succ'
  have hcast : ((2 ^ f.lowBits : Nat) : Int) = 2 ^ f.lowBits := by push_cast; rfl
  have hinf : f.infBits ≤ 2 ^ f.lowBits := by
    unfold FloatFormat.infBits FloatFormat.lowBits
    rw [Nat.add_comm, Nat.pow_add]
    exact Nat.mul_le_mul_right _ (Nat.sub_le _ _)
  have hwide : ∀ x : BitVec (f.lowBits + 1), (x.setWidth KT).toNat = x.toNat := fun x => by
    rw [BitVec.toNat_setWidth, Nat.mod_eq_of_lt]
    exact Nat.lt_of_lt_of_le x.isLt (Nat.pow_le_pow_right (by decide) hKT)
  have hmag : (v &&& BitVec.ofNat (f.lowBits + 1) (2 ^ f.lowBits - 1)).toNat = f.low v.toNat := by
    rw [BitVec.toNat_and, BitVec.toNat_ofNat, Nat.mod_eq_of_lt (by omega),
      Nat.and_two_pow_sub_one_eq_mod]
    rfl
  have hnan : v &&& BitVec.ofNat (f.lowBits + 1) (2 ^ f.lowBits - 1) >
      BitVec.ofNat (f.lowBits + 1) f.infBits ↔ f.isNaN v.toNat = true := by
    rw [gt_iff_lt, BitVec.lt_def, hmag, BitVec.toNat_ofNat, Nat.mod_eq_of_lt (by omega),
      FloatFormat.isNaN_iff]
  have hzero : v &&& BitVec.ofNat (f.lowBits + 1) (2 ^ f.lowBits - 1) = 0 ↔ f.low v.toNat = 0 := by
    rw [← hmag, ← BitVec.toNat_inj]
    rfl
  unfold floatKey
  dsimp only
  simp only [hnan, hzero]
  split
  · rw [BitVec.toNat_not, BitVec.toNat_ofNat, Nat.zero_mod, Nat.sub_zero]
  · have hlow : v.toNat = f.low v.toNat + if f.sign v.toNat then 2 ^ f.lowBits else 0 := by
      unfold FloatFormat.low FloatFormat.sign
      by_cases hs : v.toNat < 2 ^ f.lowBits
      · rw [Nat.mod_eq_of_lt hs, decide_eq_false (Nat.not_le.mpr hs)]
        rfl
      · rw [decide_eq_true (Nat.not_lt.mp hs), Nat.mod_eq_sub_mod (Nat.not_lt.mp hs),
          Nat.mod_eq_of_lt (by omega), if_pos rfl, Nat.sub_add_cancel (Nat.not_lt.mp hs)]
    have hlt : f.low v.toNat < 2 ^ f.lowBits := Nat.mod_lt _ hpos
    rw [hwide]
    unfold FloatFormat.signed
    split
    · rename_i hz
      have hself := floatKey_bits (BitVec.ofNat (f.lowBits + 1) 0)
      rw [BitVec.toNat_ofNat, Nat.zero_mod, if_pos hpos] at hself
      refine hself.trans ?_
      rw [hz]
      split <;> simp <;> omega
    · rw [floatKey_bits]
      split at hlow <;> split <;> split <;> omega

/-! ## Order -/

theorem infBits_lt {f : FloatFormat} (hm : 0 < f.mantissaBits) : f.infBits + 2 ≤ 2 ^ f.lowBits := by
  have hm' : 2 ^ 1 ≤ 2 ^ f.mantissaBits := Nat.pow_le_pow_right (by decide) hm
  have he := Nat.two_pow_pos f.exponentBits
  unfold FloatFormat.infBits FloatFormat.lowBits
  rw [Nat.add_comm f.mantissaBits, Nat.pow_add, Nat.sub_mul, Nat.one_mul]
  have hle := Nat.le_mul_of_pos_left (2 ^ f.mantissaBits) he
  omega

/-- A number is not beyond infinity. -/
theorem signed_le {f : FloatFormat} {b : Nat} (hb : f.isNaN b = false) :
    -(f.infBits : Int) ≤ f.signed b ∧ f.signed b ≤ f.infBits := by
  have hle : f.low b ≤ f.infBits := Nat.not_lt.mp fun h => by
    rw [FloatFormat.isNaN_iff.mpr h] at hb
    exact Bool.noConfusion hb
  unfold FloatFormat.signed
  split <;> omega

/-- The key of a float format is in the order of its numbers. -/
theorem floatKey_lt {w KT : Nat} (f : FloatFormat) (hw : w = f.lowBits + 1) (hKT : w ≤ KT)
    (hm : 0 < f.mantissaBits) (u v : BitVec w) :
    (floatKey KT (2 ^ f.lowBits - 1) f.infBits f.lowBits u).toNat <
        (floatKey KT (2 ^ f.lowBits - 1) f.infBits f.lowBits v).toNat ↔
      match f.value u.toNat, f.value v.toNat with
      | some x, some y => x < y
      | some _, none => True
      | none, _ => False := by
  have hpow : 2 * 2 ^ f.lowBits ≤ 2 ^ KT := by
    rw [← Nat.pow_succ', ← Nat.add_one, ← hw]
    exact Nat.pow_le_pow_right (by decide) hKT
  have hinf := infBits_lt hm
  have hcast : ((2 ^ f.lowBits : Nat) : Int) = 2 ^ f.lowBits := by push_cast; rfl
  have hvalue : ∀ b, f.isNaN b = false → ∃ x, f.value b = some x := fun b hb => by
    unfold FloatFormat.value
    rw [hb]
    exact ⟨_, rfl⟩
  have hnone : ∀ b, f.isNaN b = true → f.value b = none := fun b hb => if_pos hb
  rw [floatKey_toNat f hw hKT, floatKey_toNat f hw hKT]
  cases hu : f.isNaN u.toNat with
  | true =>
      rw [hnone _ hu, if_pos rfl]
      refine iff_of_false (fun h => ?_) id
      split at h
      · exact Nat.lt_irrefl _ h
      · rename_i hv
        obtain ⟨hge, hle⟩ := signed_le (Bool.not_eq_true _ ▸ hv)
        split at h <;> omega
  | false =>
      obtain ⟨x, hx⟩ := hvalue _ hu
      obtain ⟨hge, hle⟩ := signed_le hu
      rw [hx, if_neg Bool.false_ne_true]
      cases hv : f.isNaN v.toNat with
      | true =>
          rw [hnone _ hv, if_pos rfl]
          refine iff_of_true ?_ trivial
          split <;> omega
      | false =>
          obtain ⟨y, hy⟩ := hvalue _ hv
          obtain ⟨hge', hle'⟩ := signed_le hv
          rw [hy, if_neg Bool.false_ne_true]
          dsimp only
          rw [FloatFormat.value_lt_iff hx hy]
          split <;> split <;> omega

/-- The key of a signed integer is in the order of the integers. -/
theorem intKey_lt {w k KT : Nat} (hw : w = k + 1) (hKT : w ≤ KT) (u v : BitVec w) :
    (intKey KT (2 ^ k) u).toNat < (intKey KT (2 ^ k) v).toNat ↔ u.toInt < v.toInt := by
  have hu := intKey_toNat hw hKT u
  have hv := intKey_toNat hw hKT v
  omega

/-- The keys are in the order of the numbers, what is no number last. -/
theorem sortKey_lt (d : DType) (a b : Elem d) : sortKey d a < sortKey d b ↔
    match Scalar.value a, Scalar.value b with
    | some x, some y => x < y
    | some _, none => True
    | none, _ => False := by
  obtain ⟨u⟩ := a
  obtain ⟨v⟩ := b
  change (keyOf d u).toNat < (keyOf d v).toNat ↔ match number d u, number d v with
    | some x, some y => x < y
    | some _, none => True
    | none, _ => False
  have hcast : ∀ {w : Nat} (x : BitVec w), w ≤ 32 → (x.setWidth 32).toNat = x.toNat := fun x h => by
    rw [BitVec.toNat_setWidth, Nat.mod_eq_of_lt]
    exact Nat.lt_of_lt_of_le x.isLt (Nat.pow_le_pow_right (by decide) h)
  cases d with
  | float64 => exact floatKey_lt ⟨11, 52⟩ rfl (Nat.le_refl 64) (by decide) u v
  | float32 => exact floatKey_lt ⟨8, 23⟩ rfl (Nat.le_refl 32) (by decide) u v
  | float16 => exact floatKey_lt ⟨5, 10⟩ rfl (by decide : 16 ≤ 32) (by decide) u v
  | bfloat16 => exact floatKey_lt ⟨8, 7⟩ rfl (by decide : 16 ≤ 32) (by decide) u v
  | int64 => exact intKey_lt (k := 63) rfl (Nat.le_refl 64) u v
  | int32 => exact intKey_lt (k := 31) rfl (Nat.le_refl 32) u v
  | int16 => exact intKey_lt (k := 15) rfl (by decide : 16 ≤ 32) u v
  | int8 => exact intKey_lt (k := 7) rfl (by decide : 8 ≤ 32) u v
  | uint8 =>
      change (u.setWidth 32).toNat < (v.setWidth 32).toNat ↔ _
      rw [hcast u (by decide : 8 ≤ 32), hcast v (by decide : 8 ≤ 32)]
      exact Int.ofNat_lt.symm
  | bool =>
      change (u.setWidth 32).toNat < (v.setWidth 32).toNat ↔ _
      rw [hcast u (by decide : 1 ≤ 32), hcast v (by decide : 1 ≤ 32)]
      exact Int.ofNat_lt.symm

/-! ## The numbers themselves -/

/-- The floats. -/
def DType.format : DType → Option FloatFormat
  | .float64 => some ⟨11, 52⟩
  | .float32 => some ⟨8, 23⟩
  | .float16 => some ⟨5, 10⟩
  | .bfloat16 => some ⟨8, 7⟩
  | _ => none

/-- What a pattern stands for: a number, an infinity, or none of these for a NaN. -/
def meaning (d : DType) (b : BitVec d.bits) : Option (WithBot (WithTop ℚ)) :=
  match d.format with
  | some f => f.ieee b.toNat
  | none => (number d b).map fun x => FloatFormat.finite x

/-- The order of a sort: NaNs come last, and none before another. -/
def Precedes : Option (WithBot (WithTop ℚ)) → Option (WithBot (WithTop ℚ)) → Prop
  | some x, some y => x < y
  | some _, none => True
  | none, _ => False

/-- The order of the values of a float is that of its numbers. -/
theorem precedes_ieee {f : FloatFormat} (hexp : 0 < f.exponentBits) (a b : Nat) :
    (match f.value a, f.value b with
      | some x, some y => x < y
      | some _, none => True
      | none, _ => False) ↔ Precedes (f.ieee a) (f.ieee b) := by
  have hnone : ∀ b, f.value b = none → f.ieee b = none := fun b hb => by
    unfold FloatFormat.value at hb
    split at hb
    · rename_i hnan
      exact if_pos hnan
    · exact nomatch hb
  cases ha : f.value a with
  | none => rw [hnone a ha]; rfl
  | some x =>
      obtain ⟨p, -, hp, -, -⟩ := FloatFormat.ieee_lt_iff hexp ha ha
      cases hb : f.value b with
      | none => rw [hp, hnone b hb]; rfl
      | some y =>
          obtain ⟨p, q, hp, hq, hlt⟩ := FloatFormat.ieee_lt_iff hexp ha hb
          rw [hp, hq]
          exact hlt.symm

theorem precedes_meaning (d : DType) (a b : BitVec d.bits) :
    (match number d a, number d b with
      | some x, some y => x < y
      | some _, none => True
      | none, _ => False) ↔ Precedes (meaning d a) (meaning d b) := by
  have hint : ∀ x y : Int, x < y ↔ Precedes (some (FloatFormat.finite x)) (some (FloatFormat.finite y)) :=
    fun x y => by rw [Precedes, FloatFormat.finite_lt_iff, Int.cast_lt]
  cases d with
  | float64 => exact precedes_ieee (f := ⟨11, 52⟩) (by decide) _ _
  | float32 => exact precedes_ieee (f := ⟨8, 23⟩) (by decide) _ _
  | float16 => exact precedes_ieee (f := ⟨5, 10⟩) (by decide) _ _
  | bfloat16 => exact precedes_ieee (f := ⟨8, 7⟩) (by decide) _ _
  | int64 | int32 | int16 | int8 | uint8 | bool => exact hint _ _

/-- Only a NaN has the greatest key. -/
theorem floatKey_allOnes {w KT : Nat} (f : FloatFormat) (hw : w = f.lowBits + 1) (hKT : w ≤ KT)
    (hm : 0 < f.mantissaBits) (v : BitVec w) :
    floatKey KT (2 ^ f.lowBits - 1) f.infBits f.lowBits v = BitVec.allOnes KT ↔ f.ieee v.toNat = none := by
  have hieee : f.ieee v.toNat = none ↔ f.isNaN v.toNat = true := by
    unfold FloatFormat.ieee
    split
    · rename_i hnan
      exact iff_of_true rfl hnan
    · rename_i hnan
      refine iff_of_false (fun h => ?_) hnan
      split at h <;> exact nomatch h
  rw [hieee, ← BitVec.toNat_inj, BitVec.toNat_allOnes, floatKey_toNat f hw hKT]
  have hpow : 2 * 2 ^ f.lowBits ≤ 2 ^ KT := by
    rw [← Nat.pow_succ', ← Nat.add_one, ← hw]
    exact Nat.pow_le_pow_right (by decide) hKT
  split
  · rename_i hnan
    exact iff_of_true rfl hnan
  · rename_i hnan
    refine iff_of_false (fun h => ?_) hnan
    have hinf := infBits_lt hm
    have hle := signed_le (Bool.not_eq_true _ ▸ hnan)
    have hcast : ((2 ^ f.lowBits : Nat) : Int) = 2 ^ f.lowBits := by push_cast; rfl
    split at h <;> omega

/-- The key is an order embedding, and a float has the greatest one only if it is a NaN. -/
theorem sort_key_embeds (d : DType) (a b : BitVec d.bits) :
    (keyOf d a < keyOf d b ↔ Precedes (meaning d a) (meaning d b)) ∧
      (d.format.isSome = true → (keyOf d a = BitVec.allOnes d.keyBits ↔ meaning d a = none)) := by
  refine ⟨(sortKey_lt d ⟨a⟩ ⟨b⟩).trans (precedes_meaning d a b), fun hfloat => ?_⟩
  cases d with
  | float64 => exact floatKey_allOnes ⟨11, 52⟩ rfl (Nat.le_refl 64) (by decide) a
  | float32 => exact floatKey_allOnes ⟨8, 23⟩ rfl (Nat.le_refl 32) (by decide) a
  | float16 => exact floatKey_allOnes ⟨5, 10⟩ rfl (by decide : 16 ≤ 32) (by decide) a
  | bfloat16 => exact floatKey_allOnes ⟨8, 7⟩ rfl (by decide : 16 ≤ 32) (by decide) a
  | int64 | int32 | int16 | int8 | uint8 | bool => exact nomatch hfloat

end TorchMojoBackend.Kernels.SortKey
