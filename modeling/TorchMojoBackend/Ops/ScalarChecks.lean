/-
  `Ops.ScalarChecks`: the three checks that a Scalar fits a dtype.

  Source: tmb/ops/common.mojo (`is_int_stype`, `scalar_to_int`, `_scalar_to_name`,
  `threshold_scalar_overflows`, `threshold_scalar_value`, `scalar_type_token`,
  `check_real_scalar_fits`), tmb/backend/abi.mojo (`v_int`, `v_f64`,
  `v_scalar_is_integral`, `v_scalar_is_bool`).

  Scalars are real, and a double is an exact number, an infinity or NaN.  The value of a
  Scalar in a floating dtype is a parameter.
-/
import TorchMojoBackend.Foundation.ExactFloat

set_option autoImplicit false

namespace TorchMojoBackend.Ops.ScalarChecks

open TorchMojoBackend.Foundation

/-- Real dtypes; `other` are the complex and the 8-bit floating ones. -/
inductive SType where
  | uint8 | int8 | int16 | int32 | int64
  | uint16 | uint32 | uint64
  | float16 | bfloat16 | float32 | float64
  | bool | other
  deriving DecidableEq, Repr

/-- A Scalar's record. -/
inductive Value where
  | scalarInt (a : Int64)
  | scalarBool (a : Bool)
  | scalarDouble (f : ExactFloat)

namespace Value

def isIntegral : Value → Bool
  | scalarDouble _ => false
  | _ => true

def isBool : Value → Bool
  | scalarBool _ => true
  | _ => false

/-- `v_int` of an integral Scalar. -/
def toInt : Value → Int
  | scalarInt a => a.toInt
  | scalarBool a => if a then 1 else 0
  | scalarDouble _ => 0

/-- `v_f64`. -/
def toF64 : Value → ExactFloat
  | scalarDouble f => f
  | v => ExactFloat.ofInt v.toInt

end Value

/-! ## The value in an integer dtype -/

/-- `is_int_stype`. -/
def isIntStype (st : SType) : Bool :=
  st == .uint8 || st == .int8 || st == .int16 || st == .int32 || st == .int64

/-- The bounds of `scalar_to_int` and the name in its error. -/
def intBounds : SType → Int × Int × String
  | .int8 => (-128, 127, "int8_t")
  | .int16 => (-32768, 32767, "int16_t")
  | .int32 => (-2147483648, 2147483647, "int")
  | .uint8 => (-255, 255, "uint8_t")
  | _ => (-2 ^ 63, 2 ^ 63 - 1, "int64_t")

def overflowError (name : String) : String :=
  "value cannot be converted to type " ++ name ++ " without overflow"

/-- `Int(f)`. -/
def intOf : ExactFloat → Int
  | .fin q => ExactFloat.truncate q
  | _ => 0

/-- `scalar_to_int`. -/
def scalarToInt (v : Value) (st : SType) : Except String Int :=
  let (lo, hi, name) := intBounds st
  if v.isIntegral then
    let i := v.toInt
    if i < lo ∨ i > hi then .error (overflowError name) else .ok i
  else
    let f := v.toF64
    let loF := if st = .uint8 then .fin 0 else ExactFloat.ofInt lo
    let ok := loF.le f && f.le (ExactFloat.ofInt hi)
    if st = .int64 then
      -- the bound is the double of the largest integer, which is 2 ** 63
      let ok := ExactFloat.le (.fin (-2 ^ 63)) f && f.le (.fin (2 ^ 63))
      if ok ∧ f = .fin (2 ^ 63) then .ok (-2 ^ 63)
      else if ok then .ok (intOf f) else .error (overflowError name)
    else if ok then .ok (intOf f) else .error (overflowError name)

/-! ## The check of a threshold -/

/-- `_scalar_to_name`. -/
def scalarToName : SType → String
  | .uint8 => "uint8_t"
  | .int8 => "int8_t"
  | .int16 => "int16_t"
  | .int32 => "int"
  | .int64 => "int64_t"
  | .float16 => "c10::Half"
  | .bfloat16 => "c10::BFloat16"
  | .float32 => "float"
  | _ => ""

/-- The bounds of `threshold_scalar_overflows`, whole numbers all; the upper one is exclusive for
an integer dtype. -/
def thresholdBounds : SType → Int × Int
  | .uint8 => (0, 256)
  | .int8 => (-128, 128)
  | .int16 => (-32768, 32768)
  | .int32 => (-2147483648, 2147483648)
  | .int64 => (-2 ^ 63, 2 ^ 63)
  | .float16 => (-65504, 65504)
  | .bfloat16 => (-(2 ^ 8 - 1) * 2 ^ 120, (2 ^ 8 - 1) * 2 ^ 120)
  | _ => (-(2 ^ 24 - 1) * 2 ^ 104, (2 ^ 24 - 1) * 2 ^ 104)

/-- One turn of the loop of `threshold_scalar_overflows`. -/
def scalarOverflows (v : Value) (st : SType) : Bool :=
  let (lo, hi) := thresholdBounds st
  let isInt := isIntStype st
  if v.isBool then false
  else if v.isIntegral then
    let n := v.toInt
    if isInt then
      if st = .int64 then false
      else
        let top := ExactFloat.truncate (hi : ℚ) - 1
        if n > top then true
        else if st = .uint8 then decide (n < -top)
        else decide (n < ExactFloat.truncate (lo : ℚ))
    else (ExactFloat.ofInt n).lt (.fin lo) || ExactFloat.lt (.fin hi) (ExactFloat.ofInt n)
  else
    let f := v.toF64
    if f = .nan then isInt
    else if isInt then f.lt (.fin lo) || ExactFloat.le (.fin hi) f
    else f.isFinite && (f.lt (.fin lo) || ExactFloat.lt (.fin hi) f)

/-- `threshold_scalar_overflows`. -/
def thresholdScalarOverflows (args : List Value) (first last : Nat) (st : SType) : Bool :=
  if scalarToName st = "" then false
  else (List.range' first (last + 1 - first)).any fun i =>
    (args[i]?.map (scalarOverflows · st)).getD false

/-- `threshold_scalar_value`; `floatValue` gives the double of a floating dtype. -/
def thresholdScalarValue (floatValue : Value → SType → ExactFloat) (v : Value) (st : SType) :
    Except String Value :=
  if isIntStype st then (scalarToInt v st).map fun n => .scalarInt (Int64.ofInt n)
  else .ok (.scalarDouble (floatValue v st))

/-! ## The check of a fill value -/

/-- `scalar_type_token`. -/
def scalarTypeToken : SType → String
  | .float32 => "float"
  | .float64 => "double"
  | .float16 => "c10::Half"
  | .bfloat16 => "c10::BFloat16"
  | .int64 => "int64_t"
  | .int32 => "int"
  | .int16 => "int16_t"
  | .int8 => "int8_t"
  | .uint8 => "uint8_t"
  | .uint16 => "uint16_t"
  | .uint32 => "uint32_t"
  | .uint64 => "uint64_t"
  | _ => "c10::complex<double>"

/-- The largest number of a floating dtype. -/
def floatMax : SType → Int
  | .float16 => 65504
  | .bfloat16 => (2 ^ 8 - 1) * 2 ^ 120
  | _ => (2 ^ 24 - 1) * 2 ^ 104

/-- The bounds of `check_real_scalar_fits`; the double nearest to the largest integer of 64 bits
is the power of two after it. -/
def fitBounds : SType → Int × Int
  | .uint8 => (0, 255)
  | .uint16 => (0, 65535)
  | .uint32 => (0, 4294967295)
  | .uint64 => (0, 2 ^ 64)
  | .int8 => (-128, 127)
  | .int16 => (-32768, 32767)
  | .int32 => (-2147483648, 2147483647)
  | _ => (-2 ^ 63, 2 ^ 63)

def isUnsigned (st : SType) : Bool :=
  st == .uint8 || st == .uint16 || st == .uint32 || st == .uint64

/-- A Scalar is refused by `check_real_scalar_fits`. -/
def unfit (st : SType) (v : Value) : Bool :=
  let re := v.toF64
  if st = .float16 ∨ st = .bfloat16 ∨ st = .float32 then
    re.isFinite && ExactFloat.lt (.fin (floatMax st)) re.abs
  else if st = .float64 then false
  else
    let (lo, hi) := fitBounds st
    if v.isIntegral then
      let iv := v.toInt
      if st = .uint64 then false
      else if isUnsigned st then
        let mag := if iv < 0 then (-(iv + 1)).toNat + 1 else iv.toNat
        decide (mag > (ExactFloat.truncate (hi : ℚ)).toNat)
      else if st = .int64 then false
      else re.lt (.fin lo) || ExactFloat.lt (.fin hi) re
    else !re.isFinite || re.lt (.fin lo) || ExactFloat.lt (.fin hi) re

/-- `check_real_scalar_fits`. -/
def checkRealScalarFits (st : SType) (v : Value) : Except String Unit :=
  if st = .bool ∨ st = .other then .ok ()
  else if v.isBool then .ok ()
  else if unfit st v then .error (overflowError (scalarTypeToken st))
  else .ok ()

/-! ## What the checks accept -/

/-- An integer Scalar within the bounds of `scalar_to_int`. -/
def IntFits (st : SType) (n : Int) : Prop := (intBounds st).1 ≤ n ∧ n ≤ (intBounds st).2.1

/-- The least value of an integer dtype. -/
def lowest (st : SType) : Int := if st = .uint8 then 0 else (intBounds st).1

/-- An integer dtype of less than 64 bits, as the three checks know it. -/
structure Narrow (st : SType) : Prop where
  ne_int64 : st ≠ .int64
  int : isIntStype st = true
  sign : if st = .uint8 then isUnsigned st = true ∧ (intBounds st).1 = -(intBounds st).2.1
    else isUnsigned st = false
  bounds : -2 ^ 53 < (intBounds st).1 ∧ (intBounds st).1 < 0 ∧ 0 < (intBounds st).2.1 ∧
    (intBounds st).2.1 < 2 ^ 53
  threshold : thresholdBounds st = (lowest st, (intBounds st).2.1 + 1)
  fit : fitBounds st = (lowest st, (intBounds st).2.1)
  not_float : ¬(st = .float16 ∨ st = .bfloat16 ∨ st = .float32) ∧ st ≠ .float64 ∧ st ≠ .uint64

/-- An integer dtype has 64 bits or is narrow. -/
theorem narrow_of_ne {st : SType} (hst : isIntStype st = true) (hne : st ≠ .int64) :
    Narrow st := by
  cases st
  case int64 => exact absurd rfl hne
  case uint8 | int8 | int16 | int32 => constructor <;> decide
  all_goals exact absurd hst (by decide)

theorem scalarToInt_int (a : Int64) (st : SType) : scalarToInt (.scalarInt a) st =
    if a.toInt < (intBounds st).1 ∨ a.toInt > (intBounds st).2.1 then
      .error (overflowError (intBounds st).2.2) else .ok a.toInt := rfl

section
variable {st : SType} (hst : Narrow st)
include hst

theorem Narrow.scalarOverflows_int (a : Int64) :
    scalarOverflows (.scalarInt a) st = false ↔ IntFits st a.toInt := by
  have hsign := hst.sign
  simp only [scalarOverflows, hst.threshold, hst.int, hst.ne_int64, Value.isBool,
    Value.isIntegral, Value.toInt, if_true, if_false, Bool.false_eq_true,
    ExactFloat.truncate_intCast, IntFits, lowest]
  by_cases htop : a.toInt > (intBounds st).2.1 + 1 - 1
  · rw [if_pos htop]
    exact iff_of_false (by decide) (by omega)
  · rw [if_neg htop]
    by_cases hu : st = .uint8
    · rw [if_pos hu] at hsign ⊢
      rw [decide_eq_false_iff_not]
      omega
    · rw [if_neg hu, if_neg hu, decide_eq_false_iff_not]
      omega

theorem Narrow.unfit_int (a : Int64) :
    unfit st (.scalarInt a) = false ↔ IntFits st a.toInt := by
  have hsign := hst.sign
  obtain ⟨hlo, hneg, hpos, hhi⟩ := hst.bounds
  obtain ⟨m, hm, hcases⟩ := ExactFloat.ofInt_cases a.toInt
  dsimp only [unfit, Value.isIntegral, Value.toF64, Value.toInt]
  simp only [hst.fit, hst.not_float, hst.ne_int64, if_true, if_false, hm, ExactFloat.lt_fin,
    IntFits, lowest]
  by_cases hu : st = .uint8
  · rw [if_pos hu] at hsign
    rw [if_pos hsign.1, decide_eq_false_iff_not, ExactFloat.truncate_intCast]
    by_cases hn : a.toInt < 0
    · rw [if_pos hn]
      omega
    · rw [if_neg hn]
      omega
  · rw [if_neg hu] at hsign ⊢
    rw [hsign, if_neg (by decide), Bool.or_eq_false_iff, decide_eq_false_iff_not,
      decide_eq_false_iff_not, Int.cast_lt, Int.cast_lt]
    omega

theorem Narrow.scalarToInt_fin (q : ℚ) : scalarToInt (.scalarDouble (.fin q)) st =
    if (lowest st : ℚ) ≤ q ∧ q ≤ (intBounds st).2.1 then .ok (ExactFloat.truncate q)
    else .error (overflowError (intBounds st).2.2) := by
  obtain ⟨hlo, hneg, hpos, hhi⟩ := hst.bounds
  have hlowest : (if st = .uint8 then ExactFloat.fin 0 else ExactFloat.ofInt (intBounds st).1) =
      .fin (lowest st) := by
    unfold lowest
    split
    · rfl
    · rw [ExactFloat.ofInt_of_lt hlo (by omega)]
  have htop : ExactFloat.ofInt (intBounds st).2.1 = .fin (intBounds st).2.1 :=
    ExactFloat.ofInt_of_lt (by omega) hhi
  simp only [scalarToInt, hst.ne_int64, Value.isIntegral, Value.toF64, hlowest, htop, if_false,
    Bool.false_eq_true, ExactFloat.le_fin, Bool.and_eq_true, decide_eq_true_eq, intOf]

theorem Narrow.scalarOverflows_fin (q : ℚ) : scalarOverflows (.scalarDouble (.fin q)) st = false ↔
    (lowest st : ℚ) ≤ q ∧ q < (intBounds st).2.1 + 1 := by
  simp only [scalarOverflows, hst.threshold, hst.int, Value.isBool, Value.isIntegral, Value.toF64,
    if_true, if_false, Bool.false_eq_true, reduceCtorEq, ExactFloat.le_fin, ExactFloat.lt_fin,
    Bool.or_eq_false_iff, decide_eq_false_iff_not, not_lt, not_le, Int.cast_add, Int.cast_one]

theorem Narrow.unfit_fin (q : ℚ) : unfit st (.scalarDouble (.fin q)) = false ↔
    (lowest st : ℚ) ≤ q ∧ q ≤ (intBounds st).2.1 := by
  simp only [unfit, hst.fit, hst.not_float, Value.isIntegral, Value.toF64, if_false,
    Bool.false_eq_true, ExactFloat.isFinite_fin, Bool.not_true, Bool.false_or, ExactFloat.lt_fin,
    Bool.or_eq_false_iff, decide_eq_false_iff_not, not_lt]

end

/-! ## The dtype of 64 bits -/

theorem intFits_int64 (a : Int64) : IntFits .int64 a.toInt := by
  have hlo := a.le_toInt
  have hhi := a.toInt_lt
  exact ⟨by simpa [intBounds] using hlo, by simp only [intBounds]; omega⟩

theorem scalarToInt_int64 (q : ℚ) (hq : q ≠ 2 ^ 63) : scalarToInt (.scalarDouble (.fin q)) .int64 =
    if -2 ^ 63 ≤ q ∧ q < 2 ^ 63 then .ok (ExactFloat.truncate q)
    else .error (overflowError "int64_t") := by
  simp only [scalarToInt, Value.isIntegral, Value.toF64, if_true, if_false, Bool.false_eq_true,
    ExactFloat.le_fin, Bool.and_eq_true, decide_eq_true_eq, intOf, ExactFloat.fin.injEq, hq,
    and_false, intBounds, lt_iff_le_and_ne, ne_eq, not_false_eq_true, and_true]

theorem scalarOverflows_int64 (q : ℚ) :
    scalarOverflows (.scalarDouble (.fin q)) .int64 = false ↔ -2 ^ 63 ≤ q ∧ q < 2 ^ 63 := by
  simp only [scalarOverflows, thresholdBounds, isIntStype, Value.isBool, Value.isIntegral,
    Value.toF64, Bool.false_eq_true, if_false, reduceCtorEq, beq_self_eq_true, Bool.or_true,
    if_true, ExactFloat.lt_fin, ExactFloat.le_fin, Bool.or_eq_false_iff, decide_eq_false_iff_not,
    not_lt, not_le]
  norm_num

theorem unfit_int64 (q : ℚ) :
    unfit .int64 (.scalarDouble (.fin q)) = false ↔ -2 ^ 63 ≤ q ∧ q ≤ 2 ^ 63 := by
  simp only [unfit, fitBounds, Value.isIntegral, Value.toF64, reduceCtorEq, or_self, if_false,
    Bool.false_eq_true, ExactFloat.isFinite_fin, Bool.not_true, Bool.false_or, ExactFloat.lt_fin,
    Bool.or_eq_false_iff, decide_eq_false_iff_not, not_lt]
  norm_num

/-! ## The checks agree -/

/-- The integer that a Scalar stands for, its fraction left out. -/
def Value.exactInt : Value → Option Int
  | .scalarDouble (.fin q) => some (ExactFloat.truncate q)
  | .scalarDouble _ => none
  | v => some v.toInt

/-- The three checks accept the Scalar or all refuse it, and if it passes for a threshold, its value
is its integer. -/
def Agree (floatValue : Value → SType → ExactFloat) (v : Value) (st : SType) : Prop :=
  ((∃ n, scalarToInt v st = .ok n) ↔ thresholdScalarOverflows [v] 0 0 st = false) ∧
  (thresholdScalarOverflows [v] 0 0 st = false ↔ checkRealScalarFits st v = .ok ()) ∧
  (thresholdScalarOverflows [v] 0 0 st = false → ∃ a,
    thresholdScalarValue floatValue v st = .ok (.scalarInt a) ∧ v.exactInt = some a.toInt)

/-- A double between the largest integer of a narrow dtype and the next one, or the power of two
after the largest integer of 64 bits. -/
def BetweenBounds (v : Value) (st : SType) : Prop :=
  ∃ q : ℚ, v = .scalarDouble (.fin q) ∧
    if st = .int64 then q = 2 ^ 63
    else ((intBounds st).2.1 : ℚ) < q ∧ q < (intBounds st).2.1 + 1

/-- One threshold Scalar overflows as its turn of the loop says. -/
theorem thresholdScalarOverflows_single {st : SType} (hst : isIntStype st = true) (v : Value) :
    thresholdScalarOverflows [v] 0 0 st = scalarOverflows v st := by
  have hname : scalarToName st ≠ "" := by
    cases st <;> first | decide | exact absurd hst (by decide)
  simp [thresholdScalarOverflows, hname]

/-- A Scalar that is no bool is refused by `check_real_scalar_fits` if it is unfit. -/
theorem checkRealScalarFits_iff {st : SType} (hst : isIntStype st = true) {v : Value}
    (hv : v.isBool = false) : checkRealScalarFits st v = .ok () ↔ unfit st v = false := by
  have hreal : ¬(st = .bool ∨ st = .other) := by
    rintro (rfl | rfl) <;> exact absurd hst (by decide)
  unfold checkRealScalarFits
  rw [if_neg hreal, hv, if_neg (by decide)]
  cases unfit st v
  · exact iff_of_true rfl rfl
  · exact iff_of_false (fun h => nomatch h) (by decide)

/-- Checks that accept a Scalar for one condition agree, if the value is then the integer. -/
theorem agree_of_iff {floatValue : Value → SType → ExactFloat} {v : Value} {st : SType}
    (hst : isIntStype st = true) (hv : v.isBool = false) {P : Prop} {n : Int}
    (hthreshold : scalarOverflows v st = false ↔ P) (hfit : unfit st v = false ↔ P)
    (hok : P → scalarToInt v st = .ok n ∧ v.exactInt = some n ∧ -2 ^ 63 ≤ n ∧ n < 2 ^ 63)
    (herr : ¬P → ∃ e, scalarToInt v st = .error e) : Agree floatValue v st := by
  unfold Agree
  rw [thresholdScalarOverflows_single hst, checkRealScalarFits_iff hst hv, hthreshold, hfit]
  refine ⟨⟨fun ⟨n, hn⟩ => ?_, fun h => ⟨n, (hok h).1⟩⟩, Iff.rfl, fun h => ?_⟩
  · by_contra hP
    obtain ⟨e, he⟩ := herr hP
    exact nomatch he.symm.trans hn
  · obtain ⟨hval, hexact, hlo, hhi⟩ := hok h
    refine ⟨Int64.ofInt n, ?_, ?_⟩
    · rw [thresholdScalarValue, if_pos hst, hval]
      rfl
    · rw [hexact, Int64.toInt_ofInt_of_le (by simpa using hlo) (by simpa using hhi)]

/-- A double that is no number has no value. -/
theorem scalarToInt_notFinite {f : ExactFloat} (hf : f.isFinite = false) (st : SType) :
    scalarToInt (.scalarDouble f) st = .error (overflowError (intBounds st).2.2) := by
  have hlo : (if st = .uint8 then ExactFloat.fin 0 else ExactFloat.ofInt (intBounds st).1) =
      .fin (if st = .uint8 then 0 else
        if (intBounds st).1 < 0 then -(ExactFloat.roundBits 53 (intBounds st).1.natAbs : ℚ)
        else ExactFloat.roundBits 53 (intBounds st).1.natAbs) := by
    split <;> rfl
  obtain ⟨m, hm, -⟩ := ExactFloat.ofInt_cases (intBounds st).2.1
  simp only [scalarToInt, Value.isIntegral, Value.toF64, Bool.false_eq_true, if_false, hlo, hm,
    ExactFloat.between_of_isFinite hf, false_and, ite_self]

section
variable {floatValue : Value → SType → ExactFloat} {st : SType} (hst : isIntStype st = true)
include hst

theorem agree_int (a : Int64) : Agree floatValue (.scalarInt a) st := by
  have hboth : (scalarOverflows (.scalarInt a) st = false ↔ IntFits st a.toInt) ∧
      (unfit st (.scalarInt a) = false ↔ IntFits st a.toInt) := by
    by_cases h64 : st = .int64
    · subst h64
      exact ⟨iff_of_true rfl (intFits_int64 a), iff_of_true rfl (intFits_int64 a)⟩
    · exact ⟨(narrow_of_ne hst h64).scalarOverflows_int a, (narrow_of_ne hst h64).unfit_int a⟩
  refine agree_of_iff (n := a.toInt) hst rfl hboth.1 hboth.2 (fun h => ?_) fun h => ?_
  · unfold IntFits at h
    rw [scalarToInt_int, if_neg (by omega)]
    exact ⟨rfl, rfl, by simpa using a.le_toInt, by simpa using a.toInt_lt⟩
  · unfold IntFits at h
    rw [scalarToInt_int, if_pos (by omega)]
    exact ⟨_, rfl⟩

theorem agree_bool (b : Bool) : Agree floatValue (.scalarBool b) st := by
  have hlo : (intBounds st).1 ≤ 0 := by cases st <;> decide
  have hhi : 1 ≤ (intBounds st).2.1 := by cases st <;> decide
  have hval : scalarToInt (.scalarBool b) st = .ok (Value.scalarBool b).toInt := by
    refine if_neg ?_
    cases b
    · exact (by omega : ¬((0 : Int) < (intBounds st).1 ∨ (0 : Int) > (intBounds st).2.1))
    · exact (by omega : ¬((1 : Int) < (intBounds st).1 ∨ (1 : Int) > (intBounds st).2.1))
  have hover : thresholdScalarOverflows [.scalarBool b] 0 0 st = false := by
    rw [thresholdScalarOverflows_single hst]
    rfl
  have hfit : checkRealScalarFits st (.scalarBool b) = .ok () := by
    unfold checkRealScalarFits
    split <;> rfl
  refine ⟨iff_of_true ⟨_, hval⟩ hover, iff_of_true hover hfit, fun _ => ⟨if b then 1 else 0, ?_, ?_⟩⟩
  · rw [thresholdScalarValue, if_pos hst, hval]
    cases b <;> rfl
  · cases b <;> rfl

/-- No check takes a double that is no number. -/
theorem agree_notFinite {f : ExactFloat} (hf : f.isFinite = false) :
    Agree floatValue (.scalarDouble f) st := by
  refine agree_of_iff (P := False) (n := 0) hst rfl (iff_of_false ?_ id) (iff_of_false ?_ id)
    False.elim fun _ => ?_
  · cases f with
    | fin q => exact absurd hf (by simp)
    | inf n => cases n <;> simp [scalarOverflows, Value.isBool, Value.isIntegral, Value.toF64, hst]
    | nan => simp [scalarOverflows, Value.isBool, Value.isIntegral, Value.toF64, hst]
  · have hint : ¬(st = .float16 ∨ st = .bfloat16 ∨ st = .float32) ∧ st ≠ .float64 := by
      cases st <;> first | decide | exact absurd hst (by decide)
    simp [unfit, hint, Value.isIntegral, Value.toF64, hf]
  · exact ⟨_, scalarToInt_notFinite hf st⟩

theorem agree_fin_iff (q : ℚ) : Agree floatValue (.scalarDouble (.fin q)) st ↔
    ¬BetweenBounds (.scalarDouble (.fin q)) st := by
  have hbetween : BetweenBounds (.scalarDouble (.fin q)) st ↔ if st = .int64 then q = 2 ^ 63
      else ((intBounds st).2.1 : ℚ) < q ∧ q < (intBounds st).2.1 + 1 := by
    constructor
    · rintro ⟨r, h, hr⟩
      cases h
      exact hr
    · exact fun h => ⟨q, rfl, h⟩
  rw [hbetween]
  by_cases h64 : st = .int64
  · subst h64
    rw [if_pos rfl]
    by_cases hq : q = 2 ^ 63
    · -- the value is cast to the least integer, and the threshold overflows
      subst hq
      refine iff_of_false (fun hagree => ?_) (not_not.mpr rfl)
      have hval : scalarToInt (.scalarDouble (.fin (2 ^ 63))) .int64 = .ok (-2 ^ 63) := by
        simp [scalarToInt, Value.isIntegral, Value.toF64]
      have hover := hagree.1.mp ⟨_, hval⟩
      rw [thresholdScalarOverflows_single hst, scalarOverflows_int64] at hover
      exact absurd hover.2 (lt_irrefl _)
    · refine iff_of_true (agree_of_iff (n := ExactFloat.truncate q) hst rfl
        (scalarOverflows_int64 q) ?_ (fun h => ?_) fun h => ?_) hq
      · rw [unfit_int64, lt_iff_le_and_ne]
        exact ⟨fun h => ⟨h.1, h.2, hq⟩, fun h => ⟨h.1, h.2.1⟩⟩
      · rw [scalarToInt_int64 q hq, if_pos h]
        refine ⟨rfl, rfl, ExactFloat.le_truncate ?_, ExactFloat.truncate_lt (by decide) ?_⟩
        · push_cast
          exact h.1
        · push_cast
          exact h.2
      · rw [scalarToInt_int64 q hq, if_neg h]
        exact ⟨_, rfl⟩
  · rw [if_neg h64]
    have hnarrow := narrow_of_ne hst h64
    obtain ⟨hlo, hneg, hpos, hhi⟩ := hnarrow.bounds
    have hlowest : (intBounds st).1 ≤ lowest st ∧ lowest st ≤ 0 := by
      unfold lowest
      split <;> omega
    by_cases hq : ((intBounds st).2.1 : ℚ) < q ∧ q < (intBounds st).2.1 + 1
    · refine iff_of_false (fun hagree => ?_) (not_not.mpr hq)
      have hover : thresholdScalarOverflows [.scalarDouble (.fin q)] 0 0 st = false := by
        rw [thresholdScalarOverflows_single hst, hnarrow.scalarOverflows_fin]
        refine ⟨le_trans ?_ hq.1.le, hq.2⟩
        exact Int.cast_le.mpr (by omega)
      obtain ⟨n, hn⟩ := hagree.1.mpr hover
      rw [hnarrow.scalarToInt_fin, if_neg fun h => absurd h.2 (not_le.mpr hq.1)] at hn
      exact nomatch hn
    · refine iff_of_true (agree_of_iff (n := ExactFloat.truncate q) hst rfl
        ?_ (hnarrow.unfit_fin q) (fun h => ?_) fun h => ?_) hq
      · rw [hnarrow.scalarOverflows_fin]
        refine and_congr_right fun _ => ⟨fun h => ?_, fun h => lt_of_le_of_lt h (lt_add_one _)⟩
        exact not_lt.mp fun hgt => hq ⟨hgt, h⟩
      · have hle := ExactFloat.le_truncate h.1
        have hge := ExactFloat.truncate_le h.2
        rw [hnarrow.scalarToInt_fin, if_pos h]
        exact ⟨rfl, rfl, by omega, by omega⟩
      · rw [hnarrow.scalarToInt_fin, if_neg h]
        exact ⟨_, rfl⟩

end

/-- The checks agree on a Scalar just if it is not a double between their bounds. -/
theorem agree_iff (floatValue : Value → SType → ExactFloat) (v : Value) (st : SType)
    (hst : isIntStype st = true) : Agree floatValue v st ↔ ¬BetweenBounds v st := by
  cases v with
  | scalarInt a => exact iff_of_true (agree_int hst a) fun ⟨_, h, _⟩ => nomatch h
  | scalarBool b => exact iff_of_true (agree_bool hst b) fun ⟨_, h, _⟩ => nomatch h
  | scalarDouble f =>
      cases f with
      | fin q => exact agree_fin_iff hst q
      | inf n => exact iff_of_true (agree_notFinite hst rfl) fun ⟨_, h, _⟩ => nomatch h
      | nan => exact iff_of_true (agree_notFinite hst rfl) fun ⟨_, h, _⟩ => nomatch h

/-- A byte and an integer of 32 bits, checked. -/
theorem agree_iff_checked :
    (Agree (fun _ _ => .nan) (.scalarInt (-200)) .uint8 ↔
      ¬BetweenBounds (.scalarInt (-200)) .uint8) ∧
    (Agree (fun _ _ => .nan) (.scalarDouble (.fin (2147483647 / 2))) .int32 ↔
      ¬BetweenBounds (.scalarDouble (.fin (2147483647 / 2))) .int32) :=
  ⟨agree_iff _ _ _ rfl, agree_iff _ _ _ rfl⟩

/-- A threshold of 127.5 passes for a byte, and its value is then refused. -/
theorem half_above_int8 :
    thresholdScalarOverflows [.scalarDouble (.fin (255 / 2))] 0 0 .int8 = false ∧
    scalarToInt (.scalarDouble (.fin (255 / 2))) .int8 = .error (overflowError "int8_t") ∧
    checkRealScalarFits .int8 (.scalarDouble (.fin (255 / 2))) =
      .error (overflowError "int8_t") ∧
    thresholdScalarValue (fun _ _ => .nan) (.scalarDouble (.fin (255 / 2))) .int8 =
      .error (overflowError "int8_t") := by
  have hnarrow : Narrow .int8 := narrow_of_ne rfl (by decide)
  have hval : scalarToInt (.scalarDouble (.fin (255 / 2))) .int8 =
      .error (overflowError "int8_t") := by
    rw [hnarrow.scalarToInt_fin]
    refine if_neg fun h => absurd h.2 ?_
    norm_num [intBounds]
  have hunfit : unfit .int8 (.scalarDouble (.fin (255 / 2))) = true := by
    rw [← Bool.not_eq_false, hnarrow.unfit_fin]
    norm_num [intBounds]
  refine ⟨?_, hval, ?_, ?_⟩
  · rw [thresholdScalarOverflows_single rfl, hnarrow.scalarOverflows_fin]
    rw [show lowest .int8 = -128 from rfl, show (intBounds .int8).2.1 = 127 from rfl]
    norm_num
  · unfold checkRealScalarFits
    rw [if_neg (by decide), hunfit]
    rfl
  · rw [thresholdScalarValue, if_pos (by decide), hval]
    rfl

end TorchMojoBackend.Ops.ScalarChecks
