/-
  `Ops.RandomRange`: the range of `random_`.

  Source: tmb/ops/random.mojo (`_digits`, `_round_trip`, `_update_from`, `_update_to`,
  `_int_lowest_highest`, `_check_from_to_in_range`, `_random_from_to`,
  `_random_from_to_impl`) and tmb/kernels/random/distribution_kernels.mojo (`_int64_to`,
  `_random_words`, `_draw_random_from_to`, `_draw_random_full_64`).

  The bounds of a floating type are moved to values of the type where they are rounded the
  wrong way, and a draw is rounded once more where it is stored.  A float out of the range
  of an integer is converted as the host does it.
-/
import TorchMojoBackend.Foundation.RoundInt

set_option autoImplicit false

namespace TorchMojoBackend.Ops.RandomRange

open TorchMojoBackend.Foundation.ExactFloat

def INT64_MIN : Int := -9223372036854775808
def INT64_MAX : Int := 9223372036854775807

/-- An integer in 64 bits. -/
def wrap64 (v : Int) : Int := Int.bmod v (2 ^ 64)

/-! ## Types -/

/-- What converts a float to `Int`: out of range, one instruction gives `INT64_MIN` and the other
one the nearest integer. -/
inductive Host where
  | indefinite | saturating
  deriving DecidableEq

inductive FloatType where
  | float64 | float32 | float16 | bfloat16
  deriving DecidableEq

inductive IntType where
  | int64 | int32 | int16 | int8 | uint8 | uint16 | uint32 | uint64 | bool
  deriving DecidableEq

inductive DType where
  | float (f : FloatType)
  | int (i : IntType)
  deriving DecidableEq

def DType.name : DType → String
  | .float .float64 => "float64"
  | .float .float32 => "float32"
  | .float .float16 => "float16"
  | .float .bfloat16 => "bfloat16"
  | .int .int64 => "int64"
  | .int .int32 => "int32"
  | .int .int16 => "int16"
  | .int .int8 => "int8"
  | .int .uint8 => "uint8"
  | .int .uint16 => "uint16"
  | .int .uint32 => "uint32"
  | .int .uint64 => "uint64"
  | .int .bool => "bool"

/-- `_digits`. -/
def FloatType.digits : FloatType → Nat
  | .float64 => 53
  | .float32 => 24
  | .float16 => 11
  | .bfloat16 => 8

/-- The second one of `_lowest_highest`; the first one is its negative. -/
def FloatType.highest : FloatType → Int
  | .float64 => 2 ^ 1024 - 2 ^ 971
  | .float32 => 2 ^ 128 - 2 ^ 104
  | .float16 => 65504
  | .bfloat16 => 2 ^ 128 - 2 ^ 120

/-- `_int_lowest_highest`. -/
def IntType.lowestHighest : IntType → Int × Int
  | .int64 => (INT64_MIN, INT64_MAX)
  | .int32 => (-2147483648, 2147483647)
  | .int16 => (-32768, 32767)
  | .int8 => (-128, 127)
  | .uint8 => (0, 255)
  | .uint16 => (0, 65535)
  | .uint32 => (0, 4294967295)
  | .uint64 => (0, INT64_MAX)
  | .bool => (0, 1)

/-! ## Conversions -/

/-- A value of a type. -/
inductive Value where
  | int (v : Int)
  | inf (negative : Bool)
  deriving DecidableEq

/-- An integer rounded to the type, without a bound; the 16-bit types go through float32. -/
def FloatType.round (f : FloatType) (v : Int) : Int :=
  match f with
  | .float64 => roundInt 53 v
  | .float32 => roundInt 24 v
  | .float16 => roundInt 11 (roundInt 24 v)
  | .bfloat16 => roundInt 8 (roundInt 24 v)

/-- An integer as a value of the type. -/
def FloatType.cast (f : FloatType) (v : Int) : Value :=
  if f.round v < -f.highest then .inf true
  else if f.highest < f.round v then .inf false
  else .int (f.round v)

/-- An integer in the bits of the type. -/
def IntType.cast : IntType → Int → Int
  | .int64, v => Int.bmod v (2 ^ 64)
  | .int32, v => Int.bmod v (2 ^ 32)
  | .int16, v => Int.bmod v (2 ^ 16)
  | .int8, v => Int.bmod v (2 ^ 8)
  | .uint8, v => v % 2 ^ 8
  | .uint16, v => v % 2 ^ 16
  | .uint32, v => v % 2 ^ 32
  | .uint64, v => v % 2 ^ 64
  | .bool, v => if v ≠ 0 then 1 else 0

/-- `_int64_to`. -/
def DType.cast : DType → Int → Value
  | .float f, v => f.cast v
  | .int i, v => .int (i.cast v)

/-- `Int` of a float. -/
def Host.toInt (host : Host) : Value → Int
  | .int v =>
    if INT64_MIN ≤ v ∧ v ≤ INT64_MAX then v
    else
      match host with
      | .indefinite => INT64_MIN
      | .saturating => if v < 0 then INT64_MIN else INT64_MAX
  | .inf negative =>
    match host with
    | .indefinite => INT64_MIN
    | .saturating => if negative then INT64_MIN else INT64_MAX

/-- `_round_trip`. -/
def roundTrip (host : Host) (f : FloatType) (v : Int) : Int := host.toInt (f.cast v)

/-! ## Bounds -/

/-- `while f >> 1 != 0: f >>= 1; n += 1`; it has none if the fuel runs out. -/
def bitLoop : Nat → Int → Nat → Option Nat
  | 0, _, _ => none
  | fuel + 1, f, n => if f / 2 ≠ 0 then bitLoop fuel (f / 2) (n + 1) else some n

/-- `_update_from`. -/
def updateFrom (host : Host) (fuel : Nat) (f : FloatType) (from_ : Int) : Option Int :=
  let fromPlus1 := roundTrip host f (wrap64 (from_ + 1))
  if fromPlus1 < from_ then
    (bitLoop fuel (wrap64 |wrap64 (from_ + 1)|) 0).map fun n =>
      wrap64 (fromPlus1 + 2 ^ (n + 1 - f.digits))
  else some from_

/-- `_update_to`. -/
def updateTo (host : Host) (fuel : Nat) (f : FloatType) (to_ : Int) : Option Int :=
  let toMinus1 := roundTrip host f (wrap64 (to_ - 1))
  if toMinus1 ≥ to_ then
    (bitLoop fuel (wrap64 |wrap64 (to_ - 1)|) 0).map fun n =>
      wrap64 (toMinus1 - 2 ^ (n + 1 - f.digits))
  else some to_

/-- `lowest <= Float64(v) <= highest`, or without the rounding for an integer type. -/
def DType.admits : DType → Int → Bool
  | .float f, v => decide (-f.highest ≤ roundInt 53 v) && decide (roundInt 53 v ≤ f.highest)
  | .int i, v => decide (i.lowestHighest.1 ≤ v) && decide (v ≤ i.lowestHighest.2)

/-- `_check_from_to_in_range`. -/
def checkFromToInRange (from_ toInc : Int) (dtype : DType) : Except String Unit :=
  if ¬dtype.admits from_ then .error ("from is out of bounds for " ++ dtype.name)
  else if ¬dtype.admits toInc then .error ("to - 1 is out of bounds for " ++ dtype.name)
  else .ok ()

/-- A launch: `RandomFromTo32` or `RandomFromTo64` by the range, or `RandomFull64`. -/
inductive Draw where
  | fromTo (range : Nat) (base : Int)
  | full64
  deriving DecidableEq

/-- The launch of a range that ends at `toInc`, if the type admits it. -/
def launch (lo toInc : Int) (dtype : DType) : Except String Draw :=
  match checkFromToInRange lo toInc dtype with
  | .error e => .error e
  | .ok () => .ok (.fromTo ((toInc - lo + 1) % 2 ^ 64).toNat lo)

/-- The error of an empty range; `casted` and `bound` are what the message says of the bounds. -/
def emptyRange (casted bound relation : String) (lo hi : Int) : String :=
  "random_ expects 'lo' " ++ casted ++ "to be less than " ++ bound ++ ", but got lo=" ++
    toString lo ++ relation ++ toString hi

/-- `random_(from, to)` in `_random_from_to_impl`. -/
def randomBetween (host : Host) (fuel : Nat) (dtype : DType) (from_ to_ : Int) :
    Option (Except String Draw) :=
  if ¬from_ < to_ then some (.error (emptyRange "" "'to'" " >= to=" from_ to_))
  else
    match dtype with
    | .float f =>
      (updateFrom host fuel f from_).bind fun lo =>
        (updateTo host fuel f to_).bind fun to_ =>
          if ¬lo < to_ then
            some (.error (emptyRange "casted to dtype " "'to' casted to dtype" " >= to=" lo to_))
          else some (launch lo (wrap64 (to_ - 1)) dtype)
    | .int _ => some (launch from_ (wrap64 (to_ - 1)) dtype)

/-- `random_(from)` in `_random_from_to_impl`. -/
def randomAbove (host : Host) (fuel : Nat) (dtype : DType) (from_ : Int) :
    Option (Except String Draw) :=
  if from_ ≠ INT64_MIN then
    match dtype with
    | .float f =>
      let toInc : Int := if f.digits ≥ 63 then INT64_MAX else 2 ^ f.digits
      (updateFrom host fuel f from_).bind fun lo =>
        if ¬lo < toInc then
          some (.error (emptyRange "casted to dtype " "or equal to 'to_inc' casted to dtype"
            " > to_inc=" lo toInc))
        else some (launch lo toInc dtype)
    | .int .uint64 => some (launch from_ (-1) dtype)
    | .int i => some (launch from_ i.lowestHighest.2 dtype)
  else
    match dtype with
    | .int .int64 | .float .float64 | .float .float32 | .float .bfloat16 => some (.ok .full64)
    | _ => some (.error ("random_full_64_bits_range_kernel_cuda handles only int64," ++
      " double, float and bfloat16"))

/-- `_random_from_to_impl`, up to the launch. -/
def randomFromTo (host : Host) (fuel : Nat) (dtype : DType) (from_ : Int) :
    Option Int → Option (Except String Draw)
  | some to_ => randomBetween host fuel dtype from_ to_
  | none => randomAbove host fuel dtype from_

/-! ## Draws -/

/-- `_random_words`: four words, or two pairs of words. -/
def randomWords (wide : Bool) (w : Fin 4 → UInt32) : List Nat :=
  if wide then [(w 0).toNat * 2 ^ 32 + (w 1).toNat, (w 2).toNat * 2 ^ 32 + (w 3).toNat]
  else [(w 0).toNat, (w 1).toNat, (w 2).toNat, (w 3).toNat]

/-- `_draw_random_from_to` for one value. -/
def drawRandomFromTo (dtype : DType) (range : Nat) (base : Int) (val : Nat) : Value :=
  dtype.cast (wrap64 ((val % range : Nat) + base % 2 ^ 64))

/-- The values that a launch stores for a block of words. -/
def Draw.values (dtype : DType) (w : Fin 4 → UInt32) : Draw → List Value
  | .fromTo range base =>
    (randomWords (decide (2 ^ 28 ≤ range)) w).map (drawRandomFromTo dtype range base)
  | .full64 => (randomWords true w).map fun val => dtype.cast (wrap64 val)

end TorchMojoBackend.Ops.RandomRange
