/-
  `Ops.RandomRangeStays`: the draws of `random_` stay in the range asked for exactly where
  both bounds of the launch are rounded into it.

  A launch draws every integer between its bounds, and the rounding where a value is stored
  keeps the order; so only the two bounds matter.
-/
import TorchMojoBackend.Ops.RandomRangeExact

set_option autoImplicit false

namespace TorchMojoBackend.Ops.RandomRange

open TorchMojoBackend.Foundation.ExactFloat

/-! ## The fuel -/

theorem bitLoop_unique {fuel fuel' : Nat} {f : Int} {n r r' : Nat} (h : bitLoop fuel f n = some r)
    (h' : bitLoop fuel' f n = some r') : r = r' := by
  induction fuel generalizing f n fuel' with
  | zero => exact nomatch h
  | succ fuel ih =>
      cases fuel' with
      | zero => exact nomatch h'
      | succ fuel' =>
          unfold bitLoop at h h'
          by_cases hhalf : f / 2 ≠ 0
          · rw [if_pos hhalf] at h h'
            exact ih h h'
          · rw [if_neg hhalf] at h h'
            exact Option.some.inj (h.symm.trans h')

/-- Two computations of one result. -/
theorem bind_unique {α β : Type} {x y : Option α} {g g' : α → Option β}
    (hxy : ∀ a b, x = some a → y = some b → a = b)
    (hg : ∀ a r r', g a = some r → g' a = some r' → r = r') :
    ∀ r r', x.bind g = some r → y.bind g' = some r' → r = r' := by
  intro r r' h h'
  obtain ⟨a, ha, hr⟩ := Option.bind_eq_some_iff.mp h
  obtain ⟨b, hb, hr'⟩ := Option.bind_eq_some_iff.mp h'
  obtain rfl := hxy a b ha hb
  exact hg a r r' hr hr'

section
variable {host : Host} {fuel fuel' : Nat}

theorem updateFrom_unique {f : FloatType} {from_ : Int} : ∀ lo lo',
    updateFrom host fuel f from_ = some lo → updateFrom host fuel' f from_ = some lo' →
      lo = lo' := by
  intro lo lo' h h'
  unfold updateFrom at h h'
  dsimp only at h h'
  by_cases hlt : roundTrip host f (wrap64 (from_ + 1)) < from_
  · rw [if_pos hlt] at h h'
    obtain ⟨n, hn, rfl⟩ := Option.map_eq_some_iff.mp h
    obtain ⟨n', hn', rfl⟩ := Option.map_eq_some_iff.mp h'
    rw [bitLoop_unique hn hn']
  · rw [if_neg hlt] at h h'
    exact Option.some.inj (h.symm.trans h')

theorem updateTo_unique {f : FloatType} {to_ : Int} : ∀ hi hi',
    updateTo host fuel f to_ = some hi → updateTo host fuel' f to_ = some hi' → hi = hi' := by
  intro hi hi' h h'
  unfold updateTo at h h'
  dsimp only at h h'
  by_cases hge : roundTrip host f (wrap64 (to_ - 1)) ≥ to_
  · rw [if_pos hge] at h h'
    obtain ⟨n, hn, rfl⟩ := Option.map_eq_some_iff.mp h
    obtain ⟨n', hn', rfl⟩ := Option.map_eq_some_iff.mp h'
    rw [bitLoop_unique hn hn']
  · rw [if_neg hge] at h h'
    exact Option.some.inj (h.symm.trans h')

/-- More fuel does not change the outcome of a call. -/
theorem randomFromTo_unique {dtype : DType} {from_ : Int} {to_ : Option Int} : ∀ r r',
    randomFromTo host fuel dtype from_ to_ = some r →
    randomFromTo host fuel' dtype from_ to_ = some r' → r = r' := by
  have hsame : ∀ {x : Option (Except String Draw)} r r', x = some r → x = some r' → r = r' :=
    fun r r' h h' => Option.some.inj (h.symm.trans h')
  cases to_ with
  | some to_ =>
      change ∀ r r', randomBetween host fuel dtype from_ to_ = some r →
        randomBetween host fuel' dtype from_ to_ = some r' → r = r'
      unfold randomBetween
      by_cases hlt : from_ < to_
      · rw [if_neg (not_not_intro hlt), if_neg (not_not_intro hlt)]
        cases dtype with
        | int i => exact hsame
        | float f =>
            exact bind_unique updateFrom_unique fun lo =>
              bind_unique updateTo_unique fun hi => hsame
      · rw [if_pos hlt, if_pos hlt]
        exact hsame
  | none =>
      change ∀ r r', randomAbove host fuel dtype from_ = some r →
        randomAbove host fuel' dtype from_ = some r' → r = r'
      unfold randomAbove
      by_cases hmin : from_ ≠ INT64_MIN
      · rw [if_pos hmin, if_pos hmin]
        cases dtype with
        | int i => cases i <;> exact hsame
        | float f => exact bind_unique updateFrom_unique fun lo => hsame
      · rw [if_neg hmin, if_neg hmin]
        exact hsame

end

/-! ## The values of a launch -/

theorem exists_words {wide : Bool} {val : Nat} (h : val < if wide then 2 ^ 64 else 2 ^ 32) :
    ∃ w, val ∈ randomWords wide w := by
  cases wide with
  | false =>
      have hlt : val < 2 ^ 32 := h
      refine ⟨fun _ => UInt32.ofNat val, ?_⟩
      have hword : (UInt32.ofNat val).toNat = val := UInt32.toNat_ofNat_of_lt hlt
      exact List.mem_cons.mpr (.inl hword.symm)
  | true =>
      have hlt : val < 2 ^ 64 := h
      have hlow : (UInt32.ofNat (val % 2 ^ 32)).toNat = val % 2 ^ 32 :=
        UInt32.toNat_ofNat_of_lt (Nat.mod_lt _ (by decide))
      have hhigh : (UInt32.ofNat (val / 2 ^ 32)).toNat = val / 2 ^ 32 :=
        UInt32.toNat_ofNat_of_lt ((Nat.div_lt_iff_lt_mul (by decide)).mpr hlt)
      refine ⟨fun i => UInt32.ofNat (if i = 0 then val / 2 ^ 32 else val % 2 ^ 32), ?_⟩
      refine List.mem_cons.mpr (.inl ?_)
      change val = (UInt32.ofNat (val / 2 ^ 32)).toNat * 2 ^ 32 +
        (UInt32.ofNat (val % 2 ^ 32)).toNat
      rw [hlow, hhigh, Nat.mul_comm]
      exact (Nat.div_add_mod val (2 ^ 32)).symm

/-- A launch draws every integer between its bounds and no other one. -/
theorem forall_fromTo_values {dtype : DType} {lo toInc : Int} (hlo : Fits lo) (htoInc : Fits toInc)
    (hle : lo ≤ toInc) (hrange : toInc - lo + 1 < 2 ^ 64) {P : Value → Prop} :
    (∀ w, ∀ v ∈ (Draw.fromTo ((toInc - lo + 1) % 2 ^ 64).toNat lo).values dtype w, P v) ↔
      ∀ k, lo ≤ k → k ≤ toInc → P (dtype.cast k) := by
  have hmod : (toInc - lo + 1) % 2 ^ 64 = toInc - lo + 1 := Int.emod_eq_of_lt (by omega) hrange
  have hpos : 0 < (toInc - lo + 1).toNat := by omega
  have hdraw : ∀ val : Nat, drawRandomFromTo dtype (toInc - lo + 1).toNat lo val =
      dtype.cast (lo + (val % (toInc - lo + 1).toNat : Nat)) := by
    intro val
    have hlt := Nat.mod_lt val hpos
    have hfits : Fits ((val % (toInc - lo + 1).toNat : Nat) + lo) := by
      unfold Fits INT64_MIN INT64_MAX at *
      omega
    rw [drawRandomFromTo, wrap64_add_emod, wrap64_of_fits hfits, Int.add_comm]
  rw [hmod]
  constructor
  · intro hall k hk hk'
    have hword : (k - lo).toNat <
        if decide (2 ^ 28 ≤ (toInc - lo + 1).toNat) = true then 2 ^ 64 else 2 ^ 32 := by
      by_cases hwide : 2 ^ 28 ≤ (toInc - lo + 1).toNat
      · rw [if_pos (decide_eq_true hwide)]
        omega
      · rw [if_neg (by rw [decide_eq_true_iff]; exact hwide)]
        omega
    obtain ⟨w, hw⟩ := exists_words hword
    have hval := hall w _ (List.mem_map_of_mem hw)
    have hmodk : (k - lo).toNat % (toInc - lo + 1).toNat = (k - lo).toNat :=
      Nat.mod_eq_of_lt (by omega)
    have hk : lo + ((k - lo).toNat : Nat) = k := by omega
    rw [hdraw, hmodk, hk] at hval
    exact hval
  · intro hall w v hv
    obtain ⟨val, -, rfl⟩ := List.mem_map.mp hv
    have hlt := Nat.mod_lt val hpos
    rw [hdraw]
    exact hall _ (by omega) (by omega)

/-! ## Admitted bounds -/

theorem launch_cases (lo toInc : Int) (dtype : DType) :
    (dtype.admits lo = true ∧ dtype.admits toInc = true ∧
      launch lo toInc dtype = .ok (.fromTo ((toInc - lo + 1) % 2 ^ 64).toNat lo)) ∨
    ∃ msg, launch lo toInc dtype = .error msg := by
  unfold launch checkFromToInRange
  by_cases hlo : dtype.admits lo = true
  · by_cases hto : dtype.admits toInc = true
    · rw [if_neg (not_not_intro hlo), if_neg (not_not_intro hto)]
      exact .inl ⟨hlo, hto, rfl⟩
    · rw [if_neg (not_not_intro hlo), if_pos hto]
      exact .inr ⟨_, rfl⟩
  · rw [if_pos hlo]
    exact .inr ⟨_, rfl⟩

/-- The integers between two that are admitted. -/
theorem admits_between {dtype : DType} {lo toInc k : Int} (hlo : dtype.admits lo = true)
    (hto : dtype.admits toInc = true) (hk : lo ≤ k) (hk' : k ≤ toInc) : dtype.admits k = true := by
  have hR := rounding_roundInt (show 0 < 53 by decide)
  cases dtype with
  | float f =>
      unfold DType.admits at *
      dsimp only at *
      rw [Bool.and_eq_true, decide_eq_true_iff, decide_eq_true_iff] at *
      exact ⟨hlo.1.trans (hR.mono hk), (hR.mono hk').trans hto.2⟩
  | int i =>
      unfold DType.admits at *
      dsimp only at *
      rw [Bool.and_eq_true, decide_eq_true_iff, decide_eq_true_iff] at *
      exact ⟨hlo.1.trans hk, hk'.trans hto.2⟩

/-- An integer type holds what it admits. -/
theorem cast_of_admits_int {i : IntType} {k : Int} (h : (DType.int i).admits k = true) :
    (DType.int i).cast k = .int k := by
  unfold DType.admits IntType.lowestHighest INT64_MIN INT64_MAX at h
  dsimp only at h
  rw [Bool.and_eq_true, decide_eq_true_iff, decide_eq_true_iff] at h
  refine congrArg Value.int ?_
  unfold IntType.cast
  cases i with
  | int64 | int32 | int16 | int8 =>
      dsimp only at h
      exact Int.bmod_eq_of_le (by omega) (by omega)
  | uint8 | uint16 | uint32 | uint64 =>
      dsimp only at h ⊢
      omega
  | bool =>
      dsimp only at h ⊢
      split <;> omega

/-- A floating type rounds what it admits to a finite value. -/
theorem cast_of_admits_float {f : FloatType} {k : Int} (hfits : Fits k)
    (h : (DType.float f).admits k = true) : (DType.float f).cast k = .int (f.round k) := by
  obtain hcast | ⟨rfl, hinf⟩ := @cast_cases f k hfits
  · exact hcast
  · have hbeyond : k < -65504 ∨ 65504 < k := by
      obtain ⟨-, hlow⟩ | ⟨-, hhigh⟩ := hinf
      · exact .inl hlow
      · exact .inr (by omega)
    rw [not_admits_float16 hbeyond] at h
    exact nomatch h

/-! ## Calls -/

section
variable {host : Host} {dtype : DType} {from_ : Int} {to_ : Option Int}

theorem stays_iff_of_eq {fuel : Nat} {draw : Draw}
    (h : randomFromTo host fuel dtype from_ to_ = some (.ok draw)) :
    Stays host dtype from_ to_ ↔ draw.Modulus ∧
      ∀ w, ∀ v ∈ draw.values dtype w, InRange dtype from_ to_ v := by
  constructor
  · rintro ⟨fuel', draw', h', hstays⟩
    obtain rfl := Except.ok.inj (randomFromTo_unique _ _ h h')
    exact hstays
  · exact fun hstays => ⟨fuel, draw, h, hstays⟩

theorem accepted_of_eq {fuel : Nat} {draw : Draw}
    (h : randomFromTo host fuel dtype from_ to_ = some (.ok draw)) :
    ∀ fuel msg, randomFromTo host fuel dtype from_ to_ ≠ some (.error msg) :=
  fun _ _ herror => nomatch randomFromTo_unique _ _ h herror

/-- A call that launches between two bounds: every integer between them has to be stored in the
range. -/
theorem stays_iff_of_launch {fuel : Nat} {lo toInc : Int}
    (haccepted : ∀ fuel msg, randomFromTo host fuel dtype from_ to_ ≠ some (.error msg))
    (h : randomFromTo host fuel dtype from_ to_ = some (launch lo toInc dtype))
    (hlo : Fits lo) (htoInc : Fits toInc) (hle : lo ≤ toInc) (hrange : toInc - lo + 1 < 2 ^ 64) :
    dtype.admits lo = true ∧ dtype.admits toInc = true ∧
      (Stays host dtype from_ to_ ↔
        ∀ k, lo ≤ k → k ≤ toInc → InRange dtype from_ to_ (dtype.cast k)) := by
  obtain ⟨hadm, hadm', hok⟩ | ⟨msg, herror⟩ := launch_cases lo toInc dtype
  · rw [hok] at h
    refine ⟨hadm, hadm', (stays_iff_of_eq h).trans ?_⟩
    have hmod : (toInc - lo + 1) % 2 ^ 64 = toInc - lo + 1 :=
      Int.emod_eq_of_lt (by omega) hrange
    have hmodulus : (Draw.fromTo ((toInc - lo + 1) % 2 ^ 64).toNat lo).Modulus := by
      rw [hmod]
      change (toInc - lo + 1).toNat ≠ 0
      omega
    exact (and_iff_right hmodulus).trans (forall_fromTo_values hlo htoInc hle hrange)
  · rw [herror] at h
    exact absurd h (haccepted _ _)

/-- A floating type between two bounds: the two of them decide. -/
theorem stays_iff_of_float {f : FloatType} {fuel : Nat} {lo toInc : Int} {below : Int → Prop}
    (haccepted : ∀ fuel msg, randomFromTo host fuel (.float f) from_ to_ ≠ some (.error msg))
    (h : randomFromTo host fuel (.float f) from_ to_ = some (launch lo toInc (.float f)))
    (hlo : Fits lo) (htoInc : Fits toInc) (hle : lo ≤ toInc) (hrange : toInc - lo + 1 < 2 ^ 64)
    (hin : ∀ v, InRange (.float f) from_ to_ (.int v) ↔ from_ ≤ v ∧ below v)
    (hbelow : ∀ v w, v ≤ w → below w → below v) :
    (DType.float f).admits lo = true ∧ (DType.float f).admits toInc = true ∧
      (Stays host (.float f) from_ to_ ↔ from_ ≤ f.round lo ∧ below (f.round toInc)) := by
  obtain ⟨hadm, hadm', hiff⟩ := stays_iff_of_launch haccepted h hlo htoInc hle hrange
  refine ⟨hadm, hadm', hiff.trans ?_⟩
  have hcast : ∀ k, lo ≤ k → k ≤ toInc →
      (InRange (.float f) from_ to_ ((DType.float f).cast k) ↔ from_ ≤ f.round k ∧
        below (f.round k)) := by
    intro k hk hk'
    rw [cast_of_admits_float ⟨hlo.1.trans hk, hk'.trans htoInc.2⟩
      (admits_between hadm hadm' hk hk')]
    exact hin _
  constructor
  · intro hall
    exact ⟨((hcast lo le_rfl hle).mp (hall lo le_rfl hle)).1,
      ((hcast toInc hle le_rfl).mp (hall toInc hle le_rfl)).2⟩
  · rintro ⟨hfrom, hto⟩ k hk hk'
    exact (hcast k hk hk').mpr ⟨hfrom.trans (f.rounding.mono hk),
      hbelow _ _ (f.rounding.mono hk') hto⟩

/-- An integer type stores what it draws. -/
theorem stays_of_int {i : IntType} {fuel : Nat} {lo toInc : Int}
    (haccepted : ∀ fuel msg, randomFromTo host fuel (.int i) from_ to_ ≠ some (.error msg))
    (h : randomFromTo host fuel (.int i) from_ to_ = some (launch lo toInc (.int i)))
    (hlo : Fits lo) (htoInc : Fits toInc) (hle : lo ≤ toInc) (hrange : toInc - lo + 1 < 2 ^ 64)
    (hin : ∀ v, lo ≤ v → v ≤ toInc → InRange (.int i) from_ to_ (.int v)) :
    Stays host (.int i) from_ to_ := by
  obtain ⟨hadm, hadm', hiff⟩ := stays_iff_of_launch haccepted h hlo htoInc hle hrange
  refine hiff.mpr fun k hk hk' => ?_
  rw [cast_of_admits_int (admits_between hadm hadm' hk hk')]
  exact hin k hk hk'

end

/-! ## `random_(from, to)` -/

section
variable {host : Host} {from_ to_ : Int}

/-- An accepted call has `from` below `to`. -/
theorem lt_of_accepted {dtype : DType}
    (haccepted : ∀ fuel msg, randomFromTo host fuel dtype from_ (some to_) ≠ some (.error msg)) :
    from_ < to_ := by
  by_contra hge
  exact haccepted 0 _ (if_pos hge)

theorem between_int {i : IntType} (hfrom : Fits from_) (hto : Fits to_)
    (haccepted : ∀ fuel msg, randomFromTo host fuel (.int i) from_ (some to_) ≠ some (.error msg)) :
    Stays host (.int i) from_ (some to_) := by
  have hlt := lt_of_accepted haccepted
  have hbelow : Fits (to_ - 1) := by
    unfold Fits INT64_MIN INT64_MAX at *
    omega
  have heq : randomFromTo host 0 (.int i) from_ (some to_) =
      some (launch from_ (to_ - 1) (.int i)) := by
    unfold randomFromTo randomBetween
    dsimp only
    rw [if_neg (not_not_intro hlt), wrap64_of_fits hbelow]
  have hrange : to_ - 1 - from_ + 1 < 2 ^ 64 := by
    unfold Fits INT64_MIN INT64_MAX at *
    omega
  exact stays_of_int haccepted heq hfrom hbelow (by omega) hrange fun v hv hv' =>
    ⟨hv, Int.lt_of_le_sub_one hv'⟩

theorem between_float {f : FloatType} (hfrom : Fits from_) (hto : Fits to_)
    (haccepted : ∀ fuel msg, randomFromTo host fuel (.float f) from_ (some to_) ≠
      some (.error msg)) :
    Stays host (.float f) from_ (some to_) ↔ Condition host (.float f) from_ (some to_) := by
  have hlt := lt_of_accepted haccepted
  obtain ⟨lo, hlo, hlofits, hloiff⟩ := @updateFrom_spec host f from_ hfrom (by
    unfold Fits INT64_MAX at *
    omega)
  obtain ⟨hi, hhi, hhifits, hhiiff⟩ := @updateTo_spec host f to_ hto (by
    unfold Fits INT64_MIN at *
    omega)
  have hcall : randomFromTo host 64 (.float f) from_ (some to_) =
      if ¬lo < hi then
        some (.error (emptyRange "casted to dtype " "'to' casted to dtype" " >= to=" lo hi))
      else some (launch lo (wrap64 (hi - 1)) (.float f)) := by
    unfold randomFromTo randomBetween
    dsimp only
    rw [if_neg (not_not_intro hlt), hlo, Option.bind_some, hhi, Option.bind_some]
  have horder : lo < hi := by
    by_contra hge
    rw [if_pos hge] at hcall
    exact haccepted _ _ hcall
  have hbelow : Fits (hi - 1) := by
    unfold Fits INT64_MIN INT64_MAX at *
    omega
  have hrange : hi - 1 - lo + 1 < 2 ^ 64 := by
    unfold Fits INT64_MIN INT64_MAX at *
    omega
  rw [if_neg (not_not_intro horder), wrap64_of_fits hbelow] at hcall
  obtain ⟨hadm, hadm', hiff⟩ := @stays_iff_of_float host from_ (some to_) f 64 lo (hi - 1)
    (fun v => v < to_) haccepted hcall hlofits hbelow (by omega) hrange (fun v => Iff.rfl)
    fun v w hle hw => lt_of_le_of_lt hle hw
  exact hiff.trans (and_congr (hloiff hadm) (hhiiff hadm'))

end

/-! ## `random_(from)` -/

section
variable {host : Host} {from_ : Int}

theorem above_int {i : IntType} (hfrom : Fits from_)
    (haccepted : ∀ fuel msg, randomFromTo host fuel (.int i) from_ none ≠ some (.error msg)) :
    Stays host (.int i) from_ none := by
  by_cases hmin : from_ ≠ INT64_MIN
  · by_cases hu : i = .uint64
    · -- the bound `-1` of uint64 is always refused
      obtain rfl := hu
      have heq : randomFromTo host 0 (.int .uint64) from_ none =
          some (launch from_ (-1) (.int .uint64)) := if_pos hmin
      obtain ⟨-, hadm, -⟩ | ⟨msg, herror⟩ := launch_cases from_ (-1) (.int .uint64)
      · exact absurd hadm (by decide)
      · rw [herror] at heq
        exact absurd heq (haccepted _ _)
    · have heq : randomFromTo host 0 (.int i) from_ none =
          some (launch from_ i.lowestHighest.2 (.int i)) := by
        refine (if_pos hmin).trans ?_
        cases i with
        | uint64 => exact absurd rfl hu
        | int64 | int32 | int16 | int8 | uint8 | uint16 | uint32 | bool => rfl
      have hle : from_ ≤ i.lowestHighest.2 := by
        obtain ⟨hadm, -, -⟩ | ⟨msg, herror⟩ := launch_cases from_ i.lowestHighest.2 (.int i)
        · unfold DType.admits at hadm
          dsimp only at hadm
          rw [Bool.and_eq_true, decide_eq_true_iff, decide_eq_true_iff] at hadm
          exact hadm.2
        · rw [herror] at heq
          exact absurd heq (haccepted _ _)
      have htop : Fits i.lowestHighest.2 := by
        unfold Fits
        cases i <;> decide
      have hrange : i.lowestHighest.2 - from_ + 1 < 2 ^ 64 := by
        unfold Fits INT64_MIN INT64_MAX at *
        omega
      exact stays_of_int haccepted heq hfrom htop hle hrange fun v hv hv' => ⟨hv, hv'⟩
  · obtain rfl := not_not.mp hmin
    have heq : randomFromTo host 0 (.int i) INT64_MIN none =
        if i = .int64 then some (.ok .full64)
        else some (.error ("random_full_64_bits_range_kernel_cuda handles only int64," ++
          " double, float and bfloat16")) := by
      change randomAbove host 0 (.int i) INT64_MIN = _
      unfold randomAbove
      rw [if_neg (not_not_intro rfl)]
      cases i <;> rfl
    by_cases hi : i = .int64
    · obtain rfl := hi
      rw [if_pos rfl] at heq
      refine (stays_iff_of_eq heq).mpr ⟨trivial, fun w v hv => ?_⟩
      obtain ⟨val, -, rfl⟩ := List.mem_map.mp hv
      have hfits := fits_wrap64 val
      have hcast : (DType.int .int64).cast (wrap64 val) = .int (wrap64 val) :=
        congrArg Value.int (wrap64_of_fits hfits)
      rw [hcast]
      exact hfits
    · rw [if_neg hi] at heq
      exact absurd heq (haccepted _ _)

theorem above_float {f : FloatType} (hfrom : Fits from_)
    (haccepted : ∀ fuel msg, randomFromTo host fuel (.float f) from_ none ≠ some (.error msg)) :
    Stays host (.float f) from_ none ↔ Condition host (.float f) from_ none := by
  have htop := f.top_bounds
  by_cases hmin : from_ ≠ INT64_MIN
  · have hcall : ∀ fuel, randomFromTo host fuel (.float f) from_ none =
        (updateFrom host fuel f from_).bind fun lo =>
          if ¬lo < 2 ^ f.digits then
            some (.error (emptyRange "casted to dtype " "or equal to 'to_inc' casted to dtype"
              " > to_inc=" lo (2 ^ f.digits)))
          else some (launch lo (2 ^ f.digits) (.float f)) := by
      intro fuel
      have hdigits : ¬f.digits ≥ 63 := by
        have := f.digits_le
        omega
      unfold randomFromTo randomAbove
      dsimp only
      rw [if_pos hmin, if_neg hdigits]
    by_cases hmax : from_ = INT64_MAX
    · obtain rfl := hmax
      refine iff_of_false ?_ fun hcond => hcond.2 rfl
      rintro ⟨fuel, draw, h, -⟩
      rw [hcall, updateFrom_max] at h
      exact nomatch h
    · obtain ⟨lo, hlo, hlofits, hloiff⟩ := @updateFrom_spec host f from_ hfrom hmax
      have hlaunch := hcall 64
      rw [hlo, Option.bind_some] at hlaunch
      have horder : lo < 2 ^ f.digits := by
        by_contra hge
        rw [if_pos hge] at hlaunch
        exact haccepted _ _ hlaunch
      have htoInc : Fits (2 ^ f.digits) := by
        unfold Fits
        cases f <;> decide
      have hrange : 2 ^ f.digits - lo + 1 < 2 ^ 64 := by
        have hsmall : (2 : Int) ^ f.digits ≤ 2 ^ 53 := pow_le_pow_right₀ (by decide) f.digits_le.2
        unfold Fits INT64_MIN INT64_MAX at *
        omega
      rw [if_neg (not_not_intro horder)] at hlaunch
      have hin : ∀ v, InRange (.float f) from_ none (.int v) ↔ from_ ≤ v ∧ v ≤ 2 ^ f.digits := by
        intro v
        change from_ ≤ v ∧ v ≤ (if from_ = INT64_MIN then _ else _) ↔ _
        rw [if_neg hmin]
      obtain ⟨hadm, hadm', hiff⟩ := @stays_iff_of_float host from_ none f 64 lo (2 ^ f.digits)
        (fun v => v ≤ 2 ^ f.digits) haccepted hlaunch hlofits htoInc horder.le hrange hin
        fun v w hle hw => hle.trans hw
      refine hiff.trans (and_congr (hloiff hadm) (iff_of_true ?_ hmax))
      rw [f.round_two_pow]
  · obtain rfl := not_not.mp hmin
    have heq : randomFromTo host 0 (.float f) INT64_MIN none =
        if f ≠ .float16 then some (.ok .full64)
        else some (.error ("random_full_64_bits_range_kernel_cuda handles only int64," ++
          " double, float and bfloat16")) := by
      change randomAbove host 0 (.float f) INT64_MIN = _
      unfold randomAbove
      rw [if_neg (not_not_intro rfl)]
      cases f <;> rfl
    by_cases hwide : f ≠ .float16
    · rw [if_pos hwide] at heq
      have hround : f.round INT64_MIN = INT64_MIN := f.round_neg_two_pow 63
      refine iff_of_true ((stays_iff_of_eq heq).mpr ⟨trivial, fun w v hv => ?_⟩)
        ⟨.inl ⟨hround.ge, .inr ?_⟩, (by decide : INT64_MIN ≠ INT64_MAX)⟩
      · obtain ⟨val, -, rfl⟩ := List.mem_map.mp hv
        have hfits := fits_wrap64 val
        have hcast : (DType.float f).cast (wrap64 val) = .int (f.round (wrap64 val)) :=
          FloatType.cast_of_wide hwide hfits
        rw [hcast]
        refine ⟨hround.ge.trans (f.rounding.mono hfits.1), ?_⟩
        change _ ≤ (if INT64_MIN = INT64_MIN then f.round INT64_MAX else 2 ^ f.digits)
        rw [if_pos rfl]
        exact f.rounding.mono hfits.2
      · unfold INT64_MIN
        omega
    · rw [if_neg hwide] at heq
      exact absurd heq (haccepted _ _)

end

/-- Every accepted call ends with all its values in the range exactly where the condition on its
bounds holds. -/
theorem random_stays_iff {host : Host} {dtype : DType} {from_ : Int} {to_ : Option Int}
    (hfrom : Fits from_) (hto : ∀ t ∈ to_, Fits t)
    (haccepted : ∀ fuel msg, randomFromTo host fuel dtype from_ to_ ≠ some (.error msg)) :
    Stays host dtype from_ to_ ↔ Condition host dtype from_ to_ := by
  cases dtype with
  | int i =>
      refine iff_of_true ?_ trivial
      cases to_ with
      | some to_ => exact between_int hfrom (hto to_ rfl) haccepted
      | none => exact above_int hfrom haccepted
  | float f =>
      cases to_ with
      | some to_ => exact between_float hfrom (hto to_ rfl) haccepted
      | none => exact above_float hfrom haccepted

theorem random_float16_stays : Fits 2048 ∧ Fits 2060 ∧
    Stays .indefinite (.float .float16) 2048 (some 2060) := by
  have hlaunch : randomFromTo .indefinite 64 (.float .float16) 2048 (some 2060) =
      some (.ok (.fromTo 10 2048)) := rfl
  have hfits : Fits 2060 := by
    unfold Fits
    decide
  have hfrom : Fits 2048 := by
    unfold Fits
    decide
  refine ⟨hfrom, hfits, (random_stays_iff hfrom ?_ (accepted_of_eq hlaunch)).mpr ?_⟩
  · intro t ht
    obtain rfl := Option.mem_some_iff.mp ht
    exact hfits
  · exact ⟨.inl (by decide), fun _ => by decide⟩

/-- In float16 the neighbour `2050` of `2049` is a value of the type, and `2049` is not. -/
theorem random_float16_below :
    (∀ fuel msg, randomFromTo .indefinite fuel (.float .float16) 2049 (some 2060) ≠
      some (.error msg)) ∧
    (Draw.fromTo 9 2049).values (.float .float16) (fun _ => 0) = List.replicate 4 (.int 2048) ∧
    ¬Stays .indefinite (.float .float16) 2049 (some 2060) := by
  have hlaunch : randomFromTo .indefinite 64 (.float .float16) 2049 (some 2060) =
      some (.ok (.fromTo 9 2049)) := rfl
  have hvalues : (Draw.fromTo 9 2049).values (.float .float16) (fun _ => 0) =
      List.replicate 4 (.int 2048) := by decide
  refine ⟨accepted_of_eq hlaunch, hvalues, fun hstays => ?_⟩
  have hin := ((stays_iff_of_eq hlaunch).mp hstays).2 (fun _ => 0) (.int 2048) (by
    rw [hvalues]
    exact List.mem_cons_self)
  exact absurd hin.1 (by decide)

end TorchMojoBackend.Ops.RandomRange
