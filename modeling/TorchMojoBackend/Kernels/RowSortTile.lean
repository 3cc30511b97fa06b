/-
  `Kernels.RowSortTile`: the network in a buffer.

  The threads of a step take the pairs by number, and two pairs share no position: the
  stores of a step are the exchange at its stride, in any order.  A tile in shared memory
  runs every stage up to its width.
-/
import TorchMojoBackend.Foundation.Selection
import TorchMojoBackend.Kernels.RowSort

set_option autoImplicit false

namespace TorchMojoBackend.Kernels.RowSort

open TorchMojoBackend.Foundation

universe u v

/-! ## Bits -/

theorem ldiff_two_pow (p m : Nat) : p.ldiff (2 ^ m - 1) = p / 2 ^ m * 2 ^ m := by
  refine Nat.eq_of_testBit_eq fun i => ?_
  rw [Nat.testBit_ldiff, Nat.testBit_two_pow_sub_one, Nat.testBit_mul_two_pow,
    Nat.testBit_div_two_pow]
  by_cases hi : i < m
  · rw [decide_eq_true hi, decide_eq_false (by omega)]
    simp
  · rw [decide_eq_false hi, decide_eq_true (Nat.not_lt.mp hi), Nat.sub_add_cancel (by omega)]
    simp

theorem bitonicPartner_eq (p m : Nat) :
    bitonicPartner p (2 ^ m) = p / 2 ^ m * (2 * 2 ^ m) + p % 2 ^ m := by
  have hlt : p % 2 ^ m < 2 ^ (m + 1) :=
    (Nat.mod_lt _ (Nat.pow_pos (by decide))).trans (Nat.pow_lt_pow_right (by decide) (by omega))
  have hshift : p.ldiff (2 ^ m - 1) <<< 1 = 2 ^ (m + 1) * (p / 2 ^ m) := by
    rw [ldiff_two_pow, Nat.shiftLeft_eq, Nat.pow_succ]
    ring
  unfold bitonicPartner
  rw [hshift, Nat.and_two_pow_sub_one_eq_mod, ← Nat.two_pow_add_eq_or_of_lt hlt, Nat.pow_succ]
  ring

theorem and_two_pow_eq_zero (i s : Nat) : (i &&& 2 ^ s = 0) ↔ upAt (2 ^ s) i = true := by
  unfold upAt
  rw [decide_eq_true_iff, Nat.and_two_pow, Nat.testBit_eq_decide_div_mod_eq]
  have hpos : 0 < 2 ^ s := Nat.pow_pos (by decide)
  obtain h | h := Nat.mod_two_eq_zero_or_one (i / 2 ^ s)
  · simp [h]
  · simp [h]

/-! ## Pairs by number -/

section
variable {j p : Nat}

/-- The pair of a number. -/
theorem partner_low {m : Nat} (hm : j = 2 ^ m) : pairLow j (bitonicPartner p j) = bitonicPartner p j ∧
    pairOther j (bitonicPartner p j) = bitonicPartner p j + j ∧
    pairLow j (bitonicPartner p j + j) = bitonicPartner p j ∧
    pairOther j (bitonicPartner p j + j) = bitonicPartner p j := by
  have hj : 0 < j := hm ▸ Nat.pow_pos (by decide)
  have hdiv : bitonicPartner p j / j = 2 * (p / j) := by
    rw [hm, bitonicPartner_eq, ← hm, show p / j * (2 * j) + p % j = j * (2 * (p / j)) + p % j by ring,
      Nat.mul_add_div hj, Nat.div_eq_of_lt (Nat.mod_lt _ hj), Nat.add_zero]
  have hdiv' : (bitonicPartner p j + j) / j = 2 * (p / j) + 1 := by
    rw [Nat.add_div_right _ hj, hdiv]
  unfold pairLow pairOther
  rw [hdiv, hdiv', if_pos (by omega), if_pos (by omega), if_neg (by omega), if_neg (by omega),
    Nat.add_sub_cancel]
  exact ⟨rfl, rfl, rfl, rfl⟩

/-- The pairs below `n` have the numbers below its half. -/
theorem partner_lt_iff {m n : Nat} (hm : j = 2 ^ m) (hn : 2 * j ∣ n) :
    bitonicPartner p j + j < n ↔ p < n / 2 := by
  have hj : 0 < j := hm ▸ Nat.pow_pos (by decide)
  have hmod := Nat.mod_lt p hj
  have hsplit := Nat.div_add_mod' p j
  obtain ⟨c, rfl⟩ := hn
  rw [hm, bitonicPartner_eq, ← hm, show 2 * j * c / 2 = c * j by
    rw [Nat.mul_assoc, Nat.mul_div_cancel_left _ (by decide), Nat.mul_comm]]
  by_cases hc : p / j < c
  · have hmul := Nat.mul_le_mul_right j (Nat.succ_le_of_lt hc)
    rw [Nat.succ_mul] at hmul
    have hleft : 2 * j * c = 2 * (c * j) := by ring
    have hright : p / j * (2 * j) = 2 * (p / j * j) := by ring
    refine iff_of_true ?_ (by omega)
    omega
  · have hmul := Nat.mul_le_mul_right j (Nat.not_lt.mp hc)
    have hleft : 2 * j * c = 2 * (c * j) := by ring
    have hright : p / j * (2 * j) = 2 * (p / j * j) := by ring
    refine iff_of_false ?_ (by omega)
    omega

/-- Every position has its pair. -/
theorem exists_partner {m n : Nat} (hm : j = 2 ^ m) (hn : 2 * j ∣ n) {a : Nat} (ha : a < n) :
    ∃ p, p < n / 2 ∧ bitonicPartner p j = pairLow j a := by
  have hj : 0 < j := hm ▸ Nat.pow_pos (by decide)
  have hdiv : pairLow j a / j % 2 = 0 := by
    unfold pairLow
    obtain ⟨h0, -, -⟩ | ⟨h1, -, h0, -⟩ := @pairLow_cases a j hj
    · rwa [if_pos h0]
    · rwa [if_neg (by omega)]
  have hpartner : bitonicPartner (pairLow j a / j / 2 * j + pairLow j a % j) j = pairLow j a := by
    have hmod := Nat.mod_lt (pairLow j a) hj
    have hsplit := Nat.div_add_mod' (pairLow j a) j
    rw [hm, bitonicPartner_eq, ← hm, Nat.mul_comm (pairLow j a / j / 2) j, Nat.mul_add_div hj,
      Nat.div_eq_of_lt hmod, Nat.mul_add_mod, Nat.mod_eq_of_lt hmod, Nat.add_zero,
      show pairLow j a / j / 2 * (2 * j) = pairLow j a / j / 2 * 2 * j by ring,
      show pairLow j a / j / 2 * 2 = pairLow j a / j by omega]
    exact hsplit
  refine ⟨_, (partner_lt_iff hm hn).mp ?_, hpartner⟩
  rw [hpartner]
  have hother := pairOther_lt hj hn ha
  unfold pairOther at hother
  unfold pairLow
  obtain ⟨h0, -, -⟩ | ⟨h1, hle, -, -⟩ := @pairLow_cases a j hj
  · rwa [if_pos h0] at hother ⊢
  · rw [if_neg (by omega)]
    omega

end

/-! ## Steps -/

section
variable {K : Type u} [LinearOrder K] {descending : Bool} {start s m n : Nat}

/-- The stores of a step. -/
theorem mem_exchanges {pairs : List Nat} (hpairs : ∀ p, p ∈ pairs ↔ p < n / 2)
    (hn : 2 * 2 ^ m ∣ n) (v : Nat → Pair K) {w : Nat × Pair K} :
    w ∈ exchanges descending start (2 ^ s) (2 ^ m) pairs v ↔ w.1 < n ∧
      crossed (after descending) (fun t => upAt (2 ^ s) (start + t)) (2 ^ m) v
        (pairLow (2 ^ m) w.1) = true ∧ w.2 = v (pairOther (2 ^ m) w.1) := by
  have hswap : ∀ t, (if (start + t) &&& 2 ^ s = 0 then after descending (v t) (v (t + 2 ^ m))
      else after descending (v (t + 2 ^ m)) (v t)) =
      crossed (after descending) (fun t => upAt (2 ^ s) (start + t)) (2 ^ m) v t := fun t => by
    unfold crossed
    exact if_congr (and_two_pow_eq_zero _ _) rfl rfl
  unfold exchanges
  simp only [List.mem_flatMap, hswap]
  constructor
  · rintro ⟨p, hp, hw⟩
    obtain ⟨hlow, hother, hlow', hother'⟩ := @partner_low (2 ^ m) p m rfl
    have hlt := (partner_lt_iff rfl hn).mpr ((hpairs p).mp hp)
    split at hw
    · rename_i hcross
      obtain rfl | hw := List.mem_cons.mp hw
      · dsimp only
        rw [hlow, hother]
        exact ⟨Nat.lt_of_le_of_lt (Nat.le_add_right _ _) hlt, hcross, rfl⟩
      · obtain rfl := List.mem_singleton.mp hw
        dsimp only
        rw [hlow', hother']
        exact ⟨hlt, hcross, rfl⟩
    · exact absurd hw List.not_mem_nil
  · rintro ⟨hlt, hcross, hval⟩
    obtain ⟨p, hp, hpartner⟩ := exists_partner rfl hn hlt
    obtain ⟨-, hother, -, hother'⟩ := @partner_low (2 ^ m) p m rfl
    refine ⟨p, (hpairs p).mpr hp, ?_⟩
    rw [hpartner, if_pos hcross]
    unfold pairLow pairOther at *
    obtain ⟨h0, -, -⟩ | ⟨h1, hle, -, -⟩ := @pairLow_cases w.1 (2 ^ m) (Nat.pow_pos (by decide))
    · rw [if_pos h0] at hval ⊢
      exact List.mem_cons.mpr (.inl (Prod.ext rfl hval))
    · have hn : ¬ w.1 / 2 ^ m % 2 = 0 := by omega
      rw [if_neg hn] at hval ⊢
      refine List.mem_cons_of_mem _ (List.mem_singleton.mpr (Prod.ext ?_ hval))
      exact (Nat.sub_add_cancel hle).symm

/-- The stores of a step, in any order, are an exchange. -/
theorem exchanges_at {pairs : List Nat} (hpairs : ∀ p, p ∈ pairs ↔ p < n / 2)
    (hn : 2 * 2 ^ m ∣ n) {v v' : Nat → Pair K}
    (h : Stores (exchanges descending start (2 ^ s) (2 ^ m) pairs v) v v') {i : Nat} (hi : i < n) :
    v' i = exchange (after descending) (fun t => upAt (2 ^ s) (start + t)) (2 ^ m) v i := by
  have hmem := fun b => @mem_exchanges K _ descending start s m n pairs hpairs hn v (i, b)
  unfold exchange
  split
  · rename_i hcross
    exact h.at ((hmem _).mpr ⟨hi, hcross, rfl⟩) fun b hb => ((hmem b).mp hb).2.2
  · rename_i hcross
    exact h.off fun b hb => hcross ((hmem b).mp hb).2.1

/-- The steps of a block. -/
theorem localSteps_at {js : List Nat} (hjs : Strides n js) (hpow : ∀ j ∈ js, ∃ m, j = 2 ^ m)
    (v : Nat → Pair K) {i : Nat} (hi : i < n) :
    localSteps descending start (2 ^ s) n js v i =
      crossAll (after descending) (fun t => upAt (2 ^ s) (start + t)) js v i := by
  have hthreads : 0 < SORT_THREADS := Nat.succ_pos 1023
  induction js generalizing v with
  | nil =>
      unfold localSteps crossAll
      rw [List.foldl_nil, List.foldl_nil]
  | cons j js ih =>
      obtain ⟨m, rfl⟩ := hpow j List.mem_cons_self
      obtain ⟨hj, hn⟩ := hjs _ List.mem_cons_self
      have hrest : Strides n js := fun j hj => hjs j (List.mem_cons_of_mem _ hj)
      unfold localSteps crossAll
      rw [List.foldl_cons, List.foldl_cons]
      refine (ih hrest (fun j hj => hpow j (List.mem_cons_of_mem _ hj)) _).trans ?_
      exact crossAll_congr hrest (fun x hx =>
        exchanges_at (fun p => mem_gridItems hthreads) hn (Stores.inOrder _ v) hx) hi

/-- The steps of a block, in the row that its buffer is part of. -/
theorem localSteps_shift {a b : Nat} (hn : 2 ^ b ∣ n) (hstart : 2 ^ b ∣ start)
    {v X : Nat → Pair K} (h : ∀ i, i < n → v i = X (start + i)) {i : Nat} (hi : i < n) :
    localSteps descending start (2 ^ s) n (strides a b) v i =
      crossAll (after descending) (upAt (2 ^ s)) (strides a b) X (start + i) := by
  have hpow : ∀ j ∈ strides a b, ∃ m, j = 2 ^ m := fun j hj => by
    obtain ⟨m, -, -, rfl⟩ := mem_strides.mp hj
    exact ⟨m, rfl⟩
  rw [localSteps_at (strides_strides hn) hpow v hi, crossAll_shift (strides_strides hstart)]
  exact crossAll_congr (strides_strides hn) h hi

/-! ## Loops -/

theorem steps_eq (a s : Nat) : steps (2 ^ a) (2 ^ s / 2) = strides a s := by
  refine halvings_eq ?_
  cases s with
  | zero => exact Nat.zero_le _
  | succ s =>
      have hlt : s < 2 ^ s := Nat.lt_two_pow_self
      rw [Nat.pow_succ, Nat.mul_div_cancel _ (by decide)]
      omega

theorem stages_eq (a b : Nat) : stages (2 ^ a) (2 ^ b) = (List.range' a (b + 1 - a)).map (2 ^ ·) := by
  have hlt : b < 2 ^ b := Nat.lt_two_pow_self
  exact doublings_eq (by omega)

/-! ## Tiles -/

/-- The stages up to blocks of `2 ^ S`. -/
def network (descending : Bool) (S : Nat) (X : Nat → Pair K) : Nat → Pair K :=
  (List.range' 1 S).foldl
    (fun v s => crossAll (after descending) (upAt (2 ^ s)) (strides 0 s) v) X

/-- A tile when it has been sorted, in its row. -/
theorem sortedTile_at {S : Nat} (hstart : 2 ^ S ∣ start) {loaded X : Nat → Pair K}
    (h : ∀ i, i < 2 ^ S → loaded i = X (start + i)) {i : Nat} (hi : i < 2 ^ S) :
    sortedTile descending (2 ^ S) start loaded i = network descending S X (start + i) := by
  have hfold : ∀ ss : List Nat, (∀ s ∈ ss, s ≤ S) → ∀ v X : Nat → Pair K,
      (∀ i, i < 2 ^ S → v i = X (start + i)) → ∀ i, i < 2 ^ S →
      (ss.map (2 ^ ·)).foldl (fun v k => localSteps descending start k (2 ^ S)
        (steps 1 (k / 2)) v) v i = ss.foldl (fun v s => crossAll (after descending)
        (upAt (2 ^ s)) (strides 0 s) v) X (start + i) := by
    intro ss
    induction ss with
    | nil => exact fun _ v X h => h
    | cons s ss ih =>
        intro hss v X h i hi
        rw [List.map_cons, List.foldl_cons, List.foldl_cons]
        have hdvd : 2 ^ s ∣ 2 ^ S := Nat.pow_dvd_pow 2 (hss s List.mem_cons_self)
        have hsteps : steps 1 (2 ^ s / 2) = strides 0 s := steps_eq 0 s
        refine ih (fun s hs => hss s (List.mem_cons_of_mem _ hs)) _ _ (fun i hi => ?_) i hi
        rw [hsteps]
        exact localSteps_shift hdvd (hdvd.trans hstart) h hi
  unfold sortedTile network
  rw [show stages 2 (2 ^ S) = (List.range' 1 S).map (2 ^ ·) from stages_eq 1 S]
  refine hfold _ (fun s hs => ?_) loaded X h i hi
  rw [List.mem_range'_1] at hs
  omega

theorem network_perm {S : Nat} (hn : 2 ^ S ∣ n) (X : Nat → Pair K) :
    ((List.range n).map (network descending S X)).Perm ((List.range n).map X) := by
  have hfold : ∀ ss : List Nat, (∀ s ∈ ss, s ≤ S) → ∀ X : Nat → Pair K,
      ((List.range n).map (ss.foldl (fun v s => crossAll (after descending) (upAt (2 ^ s))
        (strides 0 s) v) X)).Perm ((List.range n).map X) := by
    intro ss
    induction ss with
    | nil => exact fun _ X => List.Perm.refl _
    | cons s ss ih =>
        intro hss X
        have hdvd : 2 ^ s ∣ n := (Nat.pow_dvd_pow 2 (hss s List.mem_cons_self)).trans hn
        exact (ih (fun s hs => hss s (List.mem_cons_of_mem _ hs)) _).trans
          (crossAll_perm (strides_strides hdvd) X)
  refine hfold _ (fun s hs => ?_) X
  rw [List.mem_range'_1] at hs
  omega

end

/-! ## Order -/

section
variable {K : Type u} [LinearOrder K] {L : Type v} [LinearOrder L] {descending : Bool}
  {rank : Pair K → L}

theorem network_sorted (hrank : ∀ a b, after descending a b = decide (rank b < rank a))
    {S : Nat} (X : Nat → Pair K) {i i' : Nat} (hle : i ≤ i') (hi' : i' < 2 ^ S) :
    rank (network descending S X i) ≤ rank (network descending S X i') := by
  have hruns := Alternating.stages hrank S (alternating_zero X)
  rw [Nat.zero_add] at hruns
  exact hruns.sorted hle hi'

/-- The first pairs of a sorted tile. -/
theorem network_least (hrank : ∀ a b, after descending a b = decide (rank b < rank a)) {S : Nat}
    (X : Nat → Pair K) {k : Nat} (hk : k ≤ 2 ^ S) :
    Least (↑((List.range (2 ^ S)).map fun i => rank (X i)))
      ((List.range k).map fun i => rank (network descending S X i)) := by
  have hsorted : ((List.range (2 ^ S)).map fun i =>
      rank (network descending S X i)).Pairwise (· ≤ ·) := by
    rw [List.pairwise_map]
    refine List.Pairwise.imp_of_mem ?_ List.pairwise_lt_range
    exact fun _ hb hlt => network_sorted hrank X (Nat.le_of_lt hlt) (List.mem_range.mp hb)
  have hperm := (@network_perm K _ descending (2 ^ S) S (dvd_refl _) X).map rank
  rw [List.map_map, List.map_map] at hperm
  have hcoe : (↑((List.range (2 ^ S)).map fun i => rank (network descending S X i)) :
      Multiset L) = ↑((List.range (2 ^ S)).map fun i => rank (X i)) := Multiset.coe_eq_coe.mpr hperm
  have htake := Least.take hsorted k
  rw [← List.map_take, List.take_range, Nat.min_eq_left hk] at htake
  rwa [hcoe] at htake

end

end TorchMojoBackend.Kernels.RowSort
