/-
  `Foundation.Bitonic`: the bitonic network.

  Everything in this file is independent of the modelled program.  A step puts the pairs
  at one stride in order, the direction of a pair from its position; a stage takes the
  strides down to one and turns blocks of two opposite runs into runs.  Seen from a
  threshold a sequence is one of truth values, and a block of it is bitonic when it
  changes at most twice.
-/
import Mathlib.Data.List.Range
import Mathlib.Data.Multiset.MapFold
import Mathlib.Data.Multiset.Range
import Mathlib.Order.Basic
import Mathlib.Tactic.Ring

set_option autoImplicit false

namespace TorchMojoBackend.Foundation

universe u v

/-! ## Loops over powers of two -/

/-- The values of `j` in `while j >= stop: ...; j /= 2`; `fuel` bounds their number. -/
def halvings (stop : Nat) : Nat → Nat → List Nat
  | 0, _ => []
  | fuel + 1, j => if j ≥ stop then j :: halvings stop fuel (j / 2) else []

/-- The values of `k` in `while k <= stop: ...; k *= 2`; `fuel` bounds their number. -/
def doublings (stop : Nat) : Nat → Nat → List Nat
  | 0, _ => []
  | fuel + 1, k => if k ≤ stop then k :: doublings stop fuel (k * 2) else []

/-- The powers of two below `2 ^ s` and from `2 ^ a` on, the largest first. -/
def strides (a : Nat) : Nat → List Nat
  | 0 => []
  | m + 1 => if a ≤ m then 2 ^ m :: strides a m else []

theorem halvings_eq {a s fuel : Nat} (hfuel : s ≤ fuel) :
    halvings (2 ^ a) fuel (2 ^ s / 2) = strides a s := by
  induction s generalizing fuel with
  | zero =>
      have hpos : 0 < 2 ^ a := Nat.pow_pos (by decide)
      cases fuel with
      | zero => rfl
      | succ fuel =>
          rw [halvings, if_neg (by omega)]
          rfl
  | succ s ih =>
      obtain ⟨fuel, rfl⟩ := Nat.exists_eq_add_of_le' hfuel
      have hhalf : 2 ^ (s + 1) / 2 = 2 ^ s := by
        rw [Nat.pow_succ, Nat.mul_div_cancel _ (by decide)]
      rw [hhalf, ← Nat.add_assoc, halvings, strides, ih (by omega)]
      exact ite_congr (propext (Nat.pow_le_pow_iff_right (by decide))) (fun _ => rfl) fun _ => rfl

theorem doublings_eq {a b fuel : Nat} (hfuel : b + 1 ≤ a + fuel) :
    doublings (2 ^ b) fuel (2 ^ a) = (List.range' a (b + 1 - a)).map (2 ^ ·) := by
  induction fuel generalizing a with
  | zero =>
      rw [Nat.sub_eq_zero_of_le (show b + 1 ≤ a from hfuel)]
      rfl
  | succ fuel ih =>
      rw [doublings, ← Nat.pow_succ, ih (by omega)]
      by_cases hle : a ≤ b
      · rw [if_pos (Nat.pow_le_pow_right (by decide) hle),
          show b + 1 - a = b + 1 - (a + 1) + 1 by omega, List.range'_succ]
        rfl
      · rw [if_neg fun h => hle ((Nat.pow_le_pow_iff_right (by decide)).mp h),
          Nat.sub_eq_zero_of_le (by omega)]
        rfl

/-! ## Steps -/

/-- The lower position of the pair of `i` at stride `j`. -/
def pairLow (j i : Nat) : Nat := if i / j % 2 = 0 then i else i - j

/-- The other position of the pair. -/
def pairOther (j i : Nat) : Nat := if i / j % 2 = 0 then i + j else i - j

section
variable {P : Type u} (after : P → P → Bool)

/-- Whether a pair changes places. -/
def crossed (up : Nat → Bool) (j : Nat) (v : Nat → P) (t : Nat) : Bool :=
  if up t then after (v t) (v (t + j)) else after (v (t + j)) (v t)

/-- The pairs at stride `j` in order: the later value last where `up`. -/
def exchange (up : Nat → Bool) (j : Nat) (v : Nat → P) (i : Nat) : P :=
  if crossed after up j v (pairLow j i) then v (pairOther j i) else v i

/-- The direction of a position in the stage of blocks of `k`. -/
def upAt (k t : Nat) : Bool := t / k % 2 = 0

/-- Steps at several strides. -/
def crossAll (up : Nat → Bool) (js : List Nat) (v : Nat → P) : Nat → P :=
  js.foldl (fun v j => exchange after up j v) v

end

section
variable {i j : Nat}

theorem pairLow_cases (hj : 0 < j) : (i / j % 2 = 0 ∧ (i + j) / j % 2 = 1 ∧ (i + j) / j = i / j + 1) ∨
    (i / j % 2 = 1 ∧ j ≤ i ∧ (i - j) / j % 2 = 0 ∧ (i - j) / j + 1 = i / j) := by
  have hdiv := Nat.add_div_right i hj
  obtain h0 | h1 := Nat.mod_two_eq_zero_or_one (i / j)
  · exact .inl ⟨h0, by omega, hdiv⟩
  · have hle : j ≤ i := by
      by_contra hlt
      rw [Nat.div_eq_of_lt (by omega)] at h1
      omega
    have hsub := Nat.add_div_right (i - j) hj
    rw [Nat.sub_add_cancel hle] at hsub
    exact .inr ⟨h1, hle, by omega, by omega⟩

/-- A pair has two positions. -/
theorem pairOther_pairOther (hj : 0 < j) : pairOther j (pairOther j i) = i ∧
    pairLow j (pairOther j i) = pairLow j i := by
  unfold pairOther pairLow
  obtain ⟨h0, h1, -⟩ | ⟨h1, hle, h0, -⟩ := @pairLow_cases i j hj
  · have hn : ¬ (i + j) / j % 2 = 0 := by omega
    simp only [if_pos h0, if_neg hn, Nat.add_sub_cancel, and_self]
  · have hn : ¬ i / j % 2 = 0 := by omega
    simp only [if_neg hn, if_pos h0, Nat.sub_add_cancel hle, and_self]

/-- A pair lies in one block. -/
theorem pairOther_div {m : Nat} (hj : 0 < j) (hm : 2 * j ∣ m) : pairOther j i / m = i / m := by
  obtain ⟨c, rfl⟩ := hm
  rw [Nat.mul_comm 2 j, Nat.mul_assoc, ← Nat.div_div_eq_div_mul, ← Nat.div_div_eq_div_mul,
    ← Nat.div_div_eq_div_mul, ← Nat.div_div_eq_div_mul]
  refine congrArg (· / c) ?_
  unfold pairOther
  obtain ⟨h0, -, hdiv⟩ | ⟨h1, hle, h0, hdiv⟩ := @pairLow_cases i j hj
  · rw [if_pos h0]
    omega
  · rw [if_neg (by omega)]
    omega

theorem pairLow_div {m : Nat} (hj : 0 < j) (hm : 2 * j ∣ m) : pairLow j i / m = i / m := by
  have hother := @pairOther_div i j m hj hm
  unfold pairOther at hother
  unfold pairLow
  split
  · rfl
  · rename_i h
    rwa [if_neg h] at hother

theorem pairOther_lt {n : Nat} (hj : 0 < j) (hn : 2 * j ∣ n) (hi : i < n) : pairOther j i < n := by
  have hdiv := @pairOther_div i j n hj hn
  rw [Nat.div_eq_of_lt hi] at hdiv
  exact (Nat.div_eq_zero_iff_lt (Nat.zero_lt_of_lt hi)).mp hdiv

end

/-! ## Rearrangement -/

section
variable {P : Type u} {after : P → P → Bool} {up : Nat → Bool} {j : Nat} {v : Nat → P}

/-- A step moves the values between the positions of pairs. -/
theorem exchange_eq (hj : 0 < j) : ∃ σ : Nat → Nat, (∀ i, σ (σ i) = i) ∧
    (∀ i m, 2 * j ∣ m → σ i / m = i / m) ∧ exchange after up j v = fun i => v (σ i) := by
  refine ⟨fun i => if crossed after up j v (pairLow j i) then pairOther j i else i, fun i => ?_,
    fun i m hm => ?_, funext fun i => ?_⟩
  · obtain ⟨hother, hlow⟩ := @pairOther_pairOther i j hj
    dsimp only
    by_cases hcross : crossed after up j v (pairLow j i) = true
    · rw [if_pos hcross, hlow, if_pos hcross, hother]
    · rw [if_neg hcross, if_neg hcross]
  · dsimp only
    split
    · exact pairOther_div hj hm
    · rfl
  · exact (apply_ite v _ _ _).symm

/-- A rearrangement of the positions of whole blocks. -/
theorem map_range_involution {σ : Nat → Nat} (hσ : ∀ i, σ (σ i) = i) {n : Nat}
    (hn : ∀ i, i < n → σ i < n) (v : Nat → P) :
    ((List.range n).map fun i => v (σ i)).Perm ((List.range n).map v) := by
  have hperm : ((List.range n).map σ).Perm (List.range n) := by
    refine (List.perm_ext_iff_of_nodup (List.nodup_range.map fun a b h => ?_)
      List.nodup_range).mpr fun x => ?_
    · rw [← hσ a, h, hσ b]
    · rw [List.mem_map, List.mem_range]
      constructor
      · rintro ⟨i, hi, rfl⟩
        exact hn i (List.mem_range.mp hi)
      · exact fun hx => ⟨σ x, List.mem_range.mpr (hn x hx), hσ x⟩
  have hmap := hperm.map v
  rwa [List.map_map] at hmap

theorem exchange_perm (hj : 0 < j) {n : Nat} (hn : 2 * j ∣ n) :
    ((List.range n).map (exchange after up j v)).Perm ((List.range n).map v) := by
  obtain ⟨σ, hσ, hblock, heq⟩ := @exchange_eq P after up j v hj
  rw [heq]
  refine map_range_involution hσ (fun i hi => ?_) v
  have hdiv := hblock i n hn
  rw [Nat.div_eq_of_lt hi] at hdiv
  exact (Nat.div_eq_zero_iff_lt (Nat.zero_lt_of_lt hi)).mp hdiv

/-- A step at the positions of whole blocks reads nothing else. -/
theorem exchange_congr {w : Nat → P} (hj : 0 < j) {n : Nat} (hn : 2 * j ∣ n)
    (h : ∀ i, i < n → v i = w i) {i : Nat} (hi : i < n) :
    exchange after up j v i = exchange after up j w i := by
  have hother := pairOther_lt hj hn hi
  have hpair : v (pairLow j i) = w (pairLow j i) ∧
      v (pairLow j i + j) = w (pairLow j i + j) := by
    unfold pairLow
    unfold pairOther at hother
    obtain ⟨h0, -, -⟩ | ⟨h1, hle, -, -⟩ := @pairLow_cases i j hj
    · rw [if_pos h0] at hother ⊢
      exact ⟨h i hi, h _ hother⟩
    · rw [if_neg (by omega)] at hother ⊢
      exact ⟨h _ hother, by rw [Nat.sub_add_cancel hle]; exact h i hi⟩
  unfold exchange crossed
  rw [hpair.1, hpair.2, h i hi, h _ hother]

/-- A step some blocks further on. -/
theorem exchange_shift (hj : 0 < j) {d : Nat} (hd : 2 * j ∣ d) (i : Nat) :
    exchange after up j v (d + i) =
      exchange after (fun t => up (d + t)) j (fun t => v (d + t)) i := by
  have hpar : (d + i) / j % 2 = i / j % 2 := by
    obtain ⟨c, rfl⟩ := hd
    rw [show 2 * j * c + i = j * (2 * c) + i by ring, Nat.mul_add_div hj]
    omega
  have hlow : pairLow j (d + i) = d + pairLow j i := by
    unfold pairLow
    obtain ⟨h0, -, -⟩ | ⟨h1, hle, -, -⟩ := @pairLow_cases i j hj
    · rw [hpar, if_pos h0, if_pos h0]
    · rw [hpar, if_neg (by omega), if_neg (by omega)]
      omega
  have hother : pairOther j (d + i) = d + pairOther j i := by
    unfold pairOther
    obtain ⟨h0, -, -⟩ | ⟨h1, hle, -, -⟩ := @pairLow_cases i j hj
    · rw [hpar, if_pos h0, if_pos h0, Nat.add_assoc]
    · rw [hpar, if_neg (by omega), if_neg (by omega)]
      omega
  unfold exchange crossed
  rw [hlow, hother, Nat.add_assoc]

/-- The strides of whole blocks of `n`. -/
def Strides (n : Nat) (js : List Nat) : Prop := ∀ j ∈ js, 0 < j ∧ 2 * j ∣ n

theorem mem_strides {a s j : Nat} : j ∈ strides a s ↔ ∃ m, a ≤ m ∧ m < s ∧ j = 2 ^ m := by
  induction s with
  | zero =>
      refine iff_of_false List.not_mem_nil ?_
      rintro ⟨m, -, hm, -⟩
      omega
  | succ s ih =>
      unfold strides
      split
      · rw [List.mem_cons, ih]
        constructor
        · rintro (rfl | ⟨m, ha, hm, rfl⟩)
          · exact ⟨s, by omega, by omega, rfl⟩
          · exact ⟨m, ha, by omega, rfl⟩
        · rintro ⟨m, ha, hm, rfl⟩
          by_cases heq : m = s
          · exact .inl (by rw [heq])
          · exact .inr ⟨m, ha, by omega, rfl⟩
      · refine iff_of_false List.not_mem_nil ?_
        rintro ⟨m, ha, hm, -⟩
        omega

theorem strides_strides {a s n : Nat} (hn : 2 ^ s ∣ n) : Strides n (strides a s) := by
  intro j hj
  obtain ⟨m, -, hm, rfl⟩ := mem_strides.mp hj
  refine ⟨Nat.pow_pos (by decide), dvd_trans ?_ hn⟩
  rw [Nat.mul_comm, ← Nat.pow_succ]
  exact Nat.pow_dvd_pow 2 hm

/-- The strides above a block and those inside it. -/
theorem strides_append {a s : Nat} (ha : a ≤ s) : strides 0 s = strides a s ++ strides 0 a := by
  induction s with
  | zero =>
      obtain rfl := Nat.le_zero.mp ha
      rfl
  | succ s ih =>
      by_cases heq : a = s + 1
      · have hnone : strides a (s + 1) = [] := by
          unfold strides
          rw [if_neg (by omega)]
        rw [hnone, heq]
        rfl
      · have hle : a ≤ s := by omega
        conv_lhs => unfold strides
        conv_rhs => enter [1]; unfold strides
        rw [if_pos (Nat.zero_le s), if_pos hle, ih hle]
        rfl

theorem crossAll_perm {n : Nat} {js : List Nat} (hjs : Strides n js) (v : Nat → P) :
    ((List.range n).map (crossAll after up js v)).Perm ((List.range n).map v) := by
  induction js generalizing v with
  | nil => exact List.Perm.refl _
  | cons j js ih =>
      obtain ⟨hj, hn⟩ := hjs j List.mem_cons_self
      exact (ih (fun j hj => hjs j (List.mem_cons_of_mem _ hj)) _).trans (exchange_perm hj hn)

theorem crossAll_congr {n : Nat} {js : List Nat} (hjs : Strides n js) {v w : Nat → P}
    (h : ∀ i, i < n → v i = w i) {i : Nat} (hi : i < n) :
    crossAll after up js v i = crossAll after up js w i := by
  induction js generalizing v w with
  | nil => exact h i hi
  | cons j js ih =>
      obtain ⟨hj, hn⟩ := hjs j List.mem_cons_self
      exact ih (fun j hj => hjs j (List.mem_cons_of_mem _ hj)) fun i hi => exchange_congr hj hn h hi

theorem crossAll_shift {d : Nat} {js : List Nat} (hjs : Strides d js) (v : Nat → P) (i : Nat) :
    crossAll after up js v (d + i) =
      crossAll after (fun t => up (d + t)) js (fun t => v (d + t)) i := by
  induction js generalizing v with
  | nil => rfl
  | cons j js ih =>
      obtain ⟨hj, hd⟩ := hjs j List.mem_cons_self
      change crossAll after up js (exchange after up j v) (d + i) = _
      rw [ih fun j hj => hjs j (List.mem_cons_of_mem _ hj)]
      have hstep : (fun t => exchange after up j v (d + t)) =
          exchange after (fun t => up (d + t)) j fun t => v (d + t) :=
        funext fun t => exchange_shift hj hd t
      rw [hstep]
      rfl

end

/-! ## Truth values -/

/-- The step on truth values, false before true. -/
def crossUp (j : Nat) (w : Nat → Bool) (i : Nat) : Bool :=
  if i / j % 2 = 0 then w i && w (i + j) else w (i - j) || w i

/-- `m` truth values that change at most twice. -/
def ChangesTwice (w : Nat → Bool) (base m : Nat) : Prop :=
  ∃ (flip : Bool) (a b : Nat), a ≤ b ∧ b ≤ m ∧
    ∀ i, i < m → w (base + i) = (flip ^^ decide (a ≤ i ∧ i < b))

/-- A block of two halves that a step crosses. -/
theorem crossUp_halves {j : Nat} (hj : 0 < j) (w : Nat → Bool) (c : Nat) {i : Nat} (hi : i < j) :
    crossUp j w (c * (2 * j) + i) = (w (c * (2 * j) + i) && w (c * (2 * j) + (j + i))) ∧
      crossUp j w (c * (2 * j) + (j + i)) =
        (w (c * (2 * j) + i) || w (c * (2 * j) + (j + i))) := by
  have hdiv : (c * (2 * j) + i) / j = 2 * c := by
    rw [show c * (2 * j) + i = j * (2 * c) + i by ring, Nat.mul_add_div hj, Nat.div_eq_of_lt hi,
      Nat.add_zero]
  have hdiv' : (c * (2 * j) + (j + i)) / j = 2 * c + 1 := by
    rw [show c * (2 * j) + (j + i) = c * (2 * j) + i + j by ring, Nat.add_div_right _ hj, hdiv]
  unfold crossUp
  rw [hdiv, hdiv', if_pos (by omega), if_neg (by omega),
    show c * (2 * j) + (j + i) - j = c * (2 * j) + i by omega,
    show c * (2 * j) + i + j = c * (2 * j) + (j + i) by omega]
  exact ⟨rfl, rfl⟩

/-- The two halves of a block that changes at most twice, met and joined. -/
theorem halves_change {j a b : Nat} (flip : Bool) (hab : a ≤ b) (hb : b ≤ 2 * j) :
    ∃ (f g : Bool) (p q p' q' : Nat), (p ≤ q ∧ q ≤ j) ∧ (p' ≤ q' ∧ q' ≤ j) ∧
      (f = false ∧ p = q ∨ g = true ∧ p' = q') ∧ ∀ i, i < j →
        ((flip ^^ decide (a ≤ i ∧ i < b)) && (flip ^^ decide (a ≤ j + i ∧ j + i < b))) =
          (f ^^ decide (p ≤ i ∧ i < q)) ∧
        ((flip ^^ decide (a ≤ i ∧ i < b)) || (flip ^^ decide (a ≤ j + i ∧ j + i < b))) =
          (g ^^ decide (p' ≤ i ∧ i < q')) := by
  have hdecide : ∀ {x y : Bool}, (x = true ↔ y = true) → x = y := Bool.eq_iff_iff.mpr
  by_cases hfirst : b ≤ j
  · -- both changes in the first half
    cases flip
    · refine ⟨false, false, 0, 0, a, b, by omega, by omega, .inl ⟨rfl, rfl⟩, fun i hi => ?_⟩
      exact ⟨hdecide (by simp; omega), hdecide (by simp; omega)⟩
    · refine ⟨true, true, a, b, 0, 0, by omega, by omega, .inr ⟨rfl, rfl⟩, fun i hi => ?_⟩
      exact ⟨hdecide (by simp; omega), hdecide (by simp; omega)⟩
  · by_cases hsecond : j ≤ a
    · -- both changes in the second half
      cases flip
      · refine ⟨false, false, 0, 0, a - j, b - j, by omega, by omega, .inl ⟨rfl, rfl⟩,
          fun i hi => ?_⟩
        exact ⟨hdecide (by simp; omega), hdecide (by simp; omega)⟩
      · refine ⟨true, true, a - j, b - j, 0, 0, by omega, by omega, .inr ⟨rfl, rfl⟩,
          fun i hi => ?_⟩
        exact ⟨hdecide (by simp; omega), hdecide (by simp; omega)⟩
    · by_cases hover : b - j ≤ a
      · cases flip
        · refine ⟨false, true, 0, 0, b - j, a, by omega, by omega, .inl ⟨rfl, rfl⟩,
            fun i hi => ?_⟩
          exact ⟨hdecide (by simp; omega), hdecide (by simp; omega)⟩
        · refine ⟨false, true, b - j, a, 0, 0, by omega, by omega, .inr ⟨rfl, rfl⟩,
            fun i hi => ?_⟩
          exact ⟨hdecide (by simp; omega), hdecide (by simp; omega)⟩
      · cases flip
        · refine ⟨false, true, a, b - j, 0, 0, by omega, by omega, .inr ⟨rfl, rfl⟩,
            fun i hi => ?_⟩
          exact ⟨hdecide (by simp; omega), hdecide (by simp; omega)⟩
        · refine ⟨false, true, 0, 0, a, b - j, by omega, by omega, .inl ⟨rfl, rfl⟩,
            fun i hi => ?_⟩
          exact ⟨hdecide (by simp; omega), hdecide (by simp; omega)⟩

/-- A step makes two blocks of a block that changes at most twice, the first all false or the
second all true. -/
theorem crossUp_changesTwice {j : Nat} (hj : 0 < j) {w : Nat → Bool} {c : Nat}
    (h : ChangesTwice w (c * (2 * j)) (2 * j)) :
    ChangesTwice (crossUp j w) (c * (2 * j)) j ∧ ChangesTwice (crossUp j w) (c * (2 * j) + j) j ∧
      ((∀ i, i < j → crossUp j w (c * (2 * j) + i) = false) ∨
        ∀ i, i < j → crossUp j w (c * (2 * j) + (j + i)) = true) := by
  obtain ⟨flip, a, b, hab, hb, hw⟩ := h
  obtain ⟨f, g, p, q, p', q', hpq, hpq', hconst, hboth⟩ := halves_change flip hab hb
  have hlow : ∀ i, i < j → crossUp j w (c * (2 * j) + i) = (f ^^ decide (p ≤ i ∧ i < q)) :=
    fun i hi => by
      rw [(crossUp_halves hj w c hi).1, hw i (by omega), hw (j + i) (by omega), (hboth i hi).1]
  have hhigh : ∀ i, i < j →
      crossUp j w (c * (2 * j) + (j + i)) = (g ^^ decide (p' ≤ i ∧ i < q')) := fun i hi => by
    rw [(crossUp_halves hj w c hi).2, hw i (by omega), hw (j + i) (by omega), (hboth i hi).2]
  refine ⟨⟨f, p, q, hpq.1, hpq.2, hlow⟩, ⟨g, p', q', hpq'.1, hpq'.2, fun i hi => ?_⟩, ?_⟩
  · rw [Nat.add_assoc]
    exact hhigh i hi
  · refine hconst.imp (fun hf i hi => ?_) fun hg i hi => ?_
    · rw [hlow i hi, hf.1, decide_eq_false (by omega)]
      rfl
    · rw [hhigh i hi, hg.1, decide_eq_false (by omega)]
      rfl

/-! ## Merging -/

/-- The blocks of `2 ^ m` change at most twice, and in a block of `2 ^ s` they are in order. -/
structure Merging (s m : Nat) (w : Nat → Bool) : Prop where
  twice : ∀ c, ChangesTwice w (c * 2 ^ m) (2 ^ m)
  ordered : ∀ i i', i / 2 ^ s = i' / 2 ^ s → i / 2 ^ m < i' / 2 ^ m → w i = true → w i' = true

/-- A crossed position has the values of its block. -/
theorem crossUp_mem {j : Nat} (hj : 0 < j) (w : Nat → Bool) (i : Nat) :
    (crossUp j w i = true → ∃ x, x / (2 * j) = i / (2 * j) ∧ w x = true) ∧
      ((∀ x, x / (2 * j) = i / (2 * j) → w x = true) → crossUp j w i = true) := by
  have hdiv := @pairOther_div i j (2 * j) hj (dvd_refl _)
  unfold pairOther at hdiv
  unfold crossUp
  split
  · rename_i h
    rw [if_pos h] at hdiv
    refine ⟨fun hw => ⟨i, rfl, (Bool.and_eq_true_iff.mp hw).1⟩, fun hw => ?_⟩
    exact Bool.and_eq_true_iff.mpr ⟨hw i rfl, hw _ hdiv⟩
  · rename_i h
    rw [if_neg h] at hdiv
    refine ⟨fun hw => ?_, fun hw => Bool.or_eq_true_iff.mpr (.inr (hw i rfl))⟩
    obtain hw | hw := Bool.or_eq_true_iff.mp hw
    · exact ⟨_, hdiv, hw⟩
    · exact ⟨i, rfl, hw⟩

theorem Merging.step {s m : Nat} {w : Nat → Bool} (h : Merging s (m + 1) w) (hm : m < s) :
    Merging s m (crossUp (2 ^ m) w) := by
  have hj : 0 < 2 ^ m := Nat.pow_pos (by decide)
  have hpow : 2 ^ (m + 1) = 2 * 2 ^ m := by rw [Nat.pow_succ, Nat.mul_comm]
  have hhalf : ∀ i, i / (2 * 2 ^ m) = i / 2 ^ m / 2 := fun i => by
    rw [Nat.mul_comm, Nat.div_div_eq_div_mul]
  have hblocks := fun c => crossUp_changesTwice hj (hpow ▸ h.twice c)
  constructor
  · intro c
    obtain ⟨hlow, hhigh, -⟩ := hblocks (c / 2)
    obtain h0 | h1 := Nat.mod_two_eq_zero_or_one c
    · rwa [show c / 2 * (2 * 2 ^ m) = c / 2 * 2 * 2 ^ m by ring,
        show c / 2 * 2 = c by omega] at hlow
    · rwa [show c / 2 * (2 * 2 ^ m) + 2 ^ m = (c / 2 * 2 + 1) * 2 ^ m by ring,
        show c / 2 * 2 + 1 = c by omega] at hhigh
  · intro i i' hs hlt hi
    by_cases hblock : i / (2 * 2 ^ m) = i' / (2 * 2 ^ m)
    · -- the two halves of one block
      obtain ⟨-, -, hconst⟩ := hblocks (i / (2 * 2 ^ m))
      have hsplit := Nat.div_add_mod' i (2 ^ m)
      have hsplit' := Nat.div_add_mod' i' (2 ^ m)
      have hmod := Nat.mod_lt i hj
      have hmod' := Nat.mod_lt i' hj
      rw [hhalf, hhalf] at hblock
      rw [hhalf] at hconst
      have hq : i / 2 ^ m = 2 * (i / 2 ^ m / 2) := by omega
      have hq' : i' / 2 ^ m = 2 * (i / 2 ^ m / 2) + 1 := by omega
      have hat : i / 2 ^ m / 2 * (2 * 2 ^ m) + i % 2 ^ m = i := by
        rw [show i / 2 ^ m / 2 * (2 * 2 ^ m) = 2 * (i / 2 ^ m / 2) * 2 ^ m by ring, ← hq]
        exact hsplit
      have hat' : i / 2 ^ m / 2 * (2 * 2 ^ m) + (2 ^ m + i' % 2 ^ m) = i' := by
        rw [show i / 2 ^ m / 2 * (2 * 2 ^ m) + (2 ^ m + i' % 2 ^ m) =
          (2 * (i / 2 ^ m / 2) + 1) * 2 ^ m + i' % 2 ^ m by ring, ← hq']
        exact hsplit'
      obtain hfalse | htrue := hconst
      · rw [← hat, hfalse _ hmod] at hi
        cases hi
      · rw [← hat']
        exact htrue _ hmod'
    · obtain ⟨x, hx, hwx⟩ := (crossUp_mem hj w i).1 hi
      refine (crossUp_mem hj w i').2 fun y hy => ?_
      have hdvd : 2 * 2 ^ m ∣ 2 ^ s := hpow ▸ Nat.pow_dvd_pow 2 hm
      obtain ⟨c, hc⟩ := hdvd
      have hin : ∀ {a b : Nat}, a / (2 * 2 ^ m) = b / (2 * 2 ^ m) → a / 2 ^ s = b / 2 ^ s :=
        fun {a b} h => by
          rw [hc, ← Nat.div_div_eq_div_mul a, ← Nat.div_div_eq_div_mul b, h]
      have hle : i / (2 * 2 ^ m) ≤ i' / (2 * 2 ^ m) := by
        rw [hhalf, hhalf]
        exact Nat.div_le_div_right (Nat.le_of_lt hlt)
      refine h.ordered x y ((hin hx).trans (hs.trans (hin hy).symm)) ?_ hwx
      rw [hpow, hx, hy]
      omega

/-! ## Stages -/

section
variable {P : Type u} {L : Type v} [LinearOrder L] (rank : P → L)

/-- Where values rank at least `c`, the other way round in the blocks that fall. -/
def seen (s : Nat) (c : L) (v : Nat → P) (i : Nat) : Bool :=
  if upAt (2 ^ s) i then decide (c ≤ rank (v i)) else !decide (c ≤ rank (v i))

/-- The blocks of `2 ^ s` are runs, rising and falling in turn. -/
def Alternating (s : Nat) (v : Nat → P) : Prop :=
  ∀ c i i', i / 2 ^ s = i' / 2 ^ s → i ≤ i' → seen rank s c v i = true → seen rank s c v i' = true

variable {rank}

/-- The value of the lower rank, at a threshold. -/
theorem le_lower (c : L) (a b : P) : decide (c ≤ rank (if rank b < rank a then b else a)) =
    (decide (c ≤ rank a) && decide (c ≤ rank b)) := by
  split
  · rename_i hlt
    exact Bool.eq_iff_iff.mpr (by simp; exact fun hc => hc.trans (le_of_lt hlt))
  · rename_i hle
    exact Bool.eq_iff_iff.mpr (by simp; exact fun hc => hc.trans (not_lt.mp hle))

/-- The value of the higher rank, at a threshold. -/
theorem le_higher (c : L) (a b : P) : decide (c ≤ rank (if rank b < rank a then a else b)) =
    (decide (c ≤ rank a) || decide (c ≤ rank b)) := by
  split
  · rename_i hlt
    exact Bool.eq_iff_iff.mpr (by simp; exact fun hc => hc.trans (le_of_lt hlt))
  · rename_i hle
    exact Bool.eq_iff_iff.mpr (by simp; exact fun hc => hc.trans (not_lt.mp hle))

variable {after : P → P → Bool} (hafter : ∀ a b, after a b = decide (rank b < rank a))
include hafter

/-- A step, as a threshold sees it. -/
theorem seen_exchange {s m : Nat} (hm : m < s) (c : L) (v : Nat → P) :
    seen rank s c (exchange after (upAt (2 ^ s)) (2 ^ m) v) =
      crossUp (2 ^ m) (seen rank s c v) := by
  have hj : 0 < 2 ^ m := Nat.pow_pos (by decide)
  have hdvd : 2 * 2 ^ m ∣ 2 ^ s := by
    rw [Nat.mul_comm, ← Nat.pow_succ]
    exact Nat.pow_dvd_pow 2 hm
  funext i
  have hup : ∀ x, x / 2 ^ s = i / 2 ^ s → upAt (2 ^ s) x = upAt (2 ^ s) i := fun x hx => by
    unfold upAt
    rw [hx]
  have hother := hup _ (pairOther_div hj hdvd)
  have hlow := hup _ (pairLow_div hj hdvd)
  unfold seen crossUp exchange crossed
  rw [hlow]
  unfold pairOther at hother ⊢
  unfold pairLow
  obtain ⟨h0, -, -⟩ | ⟨h1, hle, -, -⟩ := @pairLow_cases i (2 ^ m) hj
  · rw [if_pos h0] at hother
    simp only [if_pos h0, hother, hafter]
    cases upAt (2 ^ s) i
    · simp [le_higher, Bool.and_comm]
    · simp [le_lower]
  · have hn : ¬ i / 2 ^ m % 2 = 0 := by omega
    rw [if_neg hn] at hother
    simp only [if_neg hn, hother, hafter, Nat.sub_add_cancel hle]
    cases upAt (2 ^ s) i
    · simp [le_lower, Bool.or_comm]
    · simp [le_higher]

omit [LinearOrder L] hafter in
/-- Truth values that rise once. -/
theorem exists_threshold {f : Nat → Bool} {m : Nat}
    (hf : ∀ i i', i ≤ i' → i' < m → f i = true → f i' = true) :
    ∃ a, a ≤ m ∧ ∀ i, i < m → f i = decide (a ≤ i) := by
  induction m with
  | zero => exact ⟨0, Nat.le_refl _, fun i hi => absurd hi (Nat.not_lt_zero i)⟩
  | succ m ih =>
      obtain ⟨a, ha, hat⟩ := ih fun i i' hle hlt => hf i i' hle (Nat.lt_succ_of_lt hlt)
      by_cases htop : f m = true
      · refine ⟨a, Nat.le_succ_of_le ha, fun i hi => ?_⟩
        obtain hlt | rfl := Nat.lt_succ_iff_lt_or_eq.mp hi
        · exact hat i hlt
        · rw [htop, decide_eq_true ha]
      · have hnone : ∀ i, i < m + 1 → f i = false := fun i hi =>
          Bool.not_eq_true _ ▸ fun h => htop (hf i m (by omega) (Nat.lt_succ_self m) h)
        exact ⟨m + 1, Nat.le_refl _, fun i hi => by
          rw [hnone i hi, decide_eq_false (by omega)]⟩

omit hafter in
/-- A rising and a falling run change at most twice. -/
theorem Alternating.twice {s : Nat} {v : Nat → P} (h : Alternating rank s v) (c : L) (b : Nat) :
    ChangesTwice (seen rank (s + 1) c v) (b * 2 ^ (s + 1)) (2 ^ (s + 1)) := by
  have hpos : 0 < 2 ^ s := Nat.pow_pos (by decide)
  have hpow : 2 ^ (s + 1) = 2 * 2 ^ s := by rw [Nat.pow_succ, Nat.mul_comm]
  have hbase : b * 2 ^ (s + 1) = 2 ^ s * (2 * b) := by rw [hpow]; ring
  have hdiv : ∀ i, i < 2 ^ s → (b * 2 ^ (s + 1) + i) / 2 ^ s = 2 * b := fun i hi => by
    rw [hbase, Nat.mul_add_div hpos, Nat.div_eq_of_lt hi, Nat.add_zero]
  have hdiv' : ∀ i, i < 2 ^ s → (b * 2 ^ (s + 1) + (2 ^ s + i)) / 2 ^ s = 2 * b + 1 := fun i hi => by
    rw [Nat.add_left_comm, Nat.add_div_left _ hpos, hdiv i hi]
  have hlow : ∀ i, i < 2 ^ s → seen rank s c v (b * 2 ^ (s + 1) + i) =
      decide (c ≤ rank (v (b * 2 ^ (s + 1) + i))) := fun i hi => by
    unfold seen upAt
    rw [hdiv i hi, if_pos (decide_eq_true (by omega))]
  have hhigh : ∀ i, i < 2 ^ s → seen rank s c v (b * 2 ^ (s + 1) + (2 ^ s + i)) =
      !decide (c ≤ rank (v (b * 2 ^ (s + 1) + (2 ^ s + i)))) := fun i hi => by
    unfold seen upAt
    rw [hdiv' i hi, if_neg fun h => absurd (of_decide_eq_true h) (by omega)]
  obtain ⟨x, hx, hrise⟩ := exists_threshold
    (f := fun i => seen rank s c v (b * 2 ^ (s + 1) + i)) (m := 2 ^ s) fun i i' hle hlt =>
      h c _ _ (by rw [hdiv i (by omega), hdiv i' hlt]) (by omega)
  obtain ⟨y, hy, hfall⟩ := exists_threshold
    (f := fun i => seen rank s c v (b * 2 ^ (s + 1) + (2 ^ s + i))) (m := 2 ^ s) fun i i' hle hlt =>
      h c _ _ (by rw [hdiv' i (by omega), hdiv' i' hlt]) (by omega)
  refine ⟨!decide (b % 2 = 0), x, 2 ^ s + y, by omega, by omega, fun i hi => ?_⟩
  have hup : upAt (2 ^ (s + 1)) (b * 2 ^ (s + 1) + i) = decide (b % 2 = 0) := by
    unfold upAt
    rw [Nat.mul_comm, Nat.mul_add_div (Nat.pow_pos (by decide)), Nat.div_eq_of_lt hi, Nat.add_zero]
  have hvalue : decide (c ≤ rank (v (b * 2 ^ (s + 1) + i))) =
      decide (x ≤ i ∧ i < 2 ^ s + y) := by
    by_cases hhalf : i < 2 ^ s
    · rw [← hlow i hhalf, hrise i hhalf]
      exact decide_eq_decide.mpr (by omega)
    · have hfall := hfall (i - 2 ^ s) (by omega)
      rw [hhigh _ (by omega), Nat.add_sub_of_le (by omega), Bool.not_eq_eq_eq_not] at hfall
      rw [hfall, ← decide_not]
      exact decide_eq_decide.mpr (by omega)
  unfold seen
  rw [hup, hvalue]
  cases decide (b % 2 = 0) <;> simp

/-- The strides below `2 ^ m` finish a merge. -/
theorem Merging.finish {s m : Nat} (hm : m ≤ s) {c : L} {v : Nat → P}
    (h : Merging s m (seen rank s c v)) :
    Merging s 0 (seen rank s c (crossAll after (upAt (2 ^ s)) (strides 0 m) v)) := by
  induction m generalizing v with
  | zero => exact h
  | succ m ih =>
      unfold strides
      rw [if_pos (Nat.zero_le m)]
      refine ih (by omega) ?_
      rw [seen_exchange hafter (by omega)]
      exact h.step (by omega)

/-- A stage makes runs of twice the length. -/
theorem Alternating.stage {s : Nat} {v : Nat → P} (h : Alternating rank s v) :
    Alternating rank (s + 1) (crossAll after (upAt (2 ^ (s + 1))) (strides 0 (s + 1)) v) := by
  intro c i i' hblock hle
  have hmerging : Merging (s + 1) (s + 1) (seen rank (s + 1) c v) :=
    ⟨h.twice c, fun i i' heq hlt => absurd heq (Nat.ne_of_lt hlt)⟩
  obtain rfl | hlt := Nat.eq_or_lt_of_le hle
  · exact id
  · refine (Merging.finish hafter (Nat.le_refl _) hmerging).ordered i i' hblock ?_
    rwa [Nat.pow_zero, Nat.div_one, Nat.div_one]

omit hafter in
/-- Single values are runs. -/
theorem alternating_zero (v : Nat → P) : Alternating rank 0 v := by
  intro c i i' hblock _
  rw [Nat.pow_zero, Nat.div_one, Nat.div_one] at hblock
  rw [hblock]
  exact id

/-- The stages from one length of runs to another. -/
theorem Alternating.stages {a : Nat} (n : Nat) {v : Nat → P} (h : Alternating rank a v) :
    Alternating rank (a + n) ((List.range' (a + 1) n).foldl
      (fun v s => crossAll after (upAt (2 ^ s)) (strides 0 s) v) v) := by
  induction n generalizing a v with
  | zero => exact h
  | succ n ih =>
      rw [List.range'_succ, List.foldl_cons, Nat.add_comm n 1, ← Nat.add_assoc]
      exact ih (h.stage hafter)

omit hafter in
/-- The first run rises. -/
theorem Alternating.sorted {s : Nat} {v : Nat → P} (h : Alternating rank s v) {i i' : Nat}
    (hle : i ≤ i') (hi' : i' < 2 ^ s) : rank (v i) ≤ rank (v i') := by
  have hdiv : ∀ x, x < 2 ^ s → upAt (2 ^ s) x = true := fun x hx => by
    unfold upAt
    rw [Nat.div_eq_of_lt hx]
    rfl
  have hseen := h (rank (v i)) i i'
    (by rw [Nat.div_eq_of_lt hi', Nat.div_eq_of_lt (Nat.lt_of_le_of_lt hle hi')]) hle
  unfold seen at hseen
  rw [hdiv i (Nat.lt_of_le_of_lt hle hi'), hdiv i' hi'] at hseen
  exact of_decide_eq_true (hseen (decide_eq_true (le_refl _)))

end

end TorchMojoBackend.Foundation
