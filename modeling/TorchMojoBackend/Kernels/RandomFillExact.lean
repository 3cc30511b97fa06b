/-
  `Kernels.RandomFillExact`: a random fill draws each element once.

  The rounds of the threads spread the values of a launch over its elements, one each,
  and every thread reads the blocks that were reserved.  No word serves two elements but
  the two of a Box-Muller pair.
-/
import TorchMojoBackend.Kernels.RandomFillPlan

set_option autoImplicit false

namespace TorchMojoBackend.Kernels.RandomFill

open TorchMojoBackend.Foundation TorchMojoBackend.Kernels.OpUtils

/-! ## Rounds -/

theorem drawLoop_eq {bound step rand : Nat} (rounds : Nat) {fuel linear k : Nat}
    (hend : bound ≤ linear + rounds * step) (hin : ∀ j, j < rounds → linear + j * step < bound)
    (hfuel : rounds ≤ fuel) : drawLoop bound step rand fuel linear k =
      (List.range rounds).map fun j => (linear + j * step, k + j * rand) := by
  induction rounds generalizing fuel linear k with
  | zero =>
      have hout : ¬ linear < bound := by omega
      cases fuel with
      | zero => rfl
      | succ fuel => exact if_neg hout
  | succ rounds ih =>
      obtain ⟨fuel, rfl⟩ := Nat.exists_eq_add_of_lt (Nat.lt_of_lt_of_le (Nat.succ_pos _) hfuel)
      rw [Nat.zero_add]
      unfold drawLoop
      have hfirst := hin 0 (Nat.succ_pos _)
      rw [Nat.zero_mul, Nat.add_zero] at hfirst
      rw [if_pos hfirst, ih, List.range_succ_eq_map, List.map_cons, List.map_map]
      · simp only [Nat.zero_mul, Nat.add_zero, Function.comp_def, Nat.succ_mul, Nat.add_assoc,
          Nat.add_comm step, Nat.add_comm rand]
      · rw [Nat.succ_mul] at hend
        omega
      · intro j hj
        have hnext := hin (j + 1) (Nat.succ_lt_succ hj)
        rw [Nat.succ_mul] at hnext
        omega
      · omega

/-- The rounds of each thread. -/
def roundsOf (numel grid N : Nat) : Nat := (numel - 1) / (grid * BLOCK * N) + 1

variable {numel grid N : Nat}

theorem distRounds_eq (hgrid : 0 < grid) (hN : 0 < N) {idx : Nat} (hidx : idx < grid * BLOCK) :
    distRounds numel grid N idx =
      (List.range (roundsOf numel grid N)).map fun j => (idx + j * (grid * BLOCK * N), j) := by
  have htotal : 0 < grid * BLOCK := Nat.mul_pos hgrid (Nat.succ_pos 255)
  have hstep : grid * BLOCK ≤ grid * BLOCK * N := Nat.le_mul_of_pos_right _ hN
  unfold distRounds
  dsimp only
  rw [Nat.mul_assoc ((numel - 1) / (grid * BLOCK * N) + 1), drawLoop_eq (roundsOf numel grid N)]
  · simp only [Nat.zero_add, Nat.mul_one]
  · exact Nat.le_add_left _ _
  · intro j hj
    have hmul := Nat.mul_le_mul_right (grid * BLOCK * N) (Nat.succ_le_of_lt hj)
    rw [Nat.succ_mul] at hmul
    unfold roundsOf at hmul
    omega
  · exact Nat.le_mul_of_pos_right _ (Nat.mul_pos htotal hN)

/-- A thread reads the blocks of the reservation. -/
theorem distRounds_length (hgrid : 0 < grid) (hN : 0 < N) {idx : Nat}
    (hidx : idx < grid * BLOCK) :
    (distRounds numel grid N idx).length * 4 = counterOffset numel grid N := by
  rw [distRounds_eq hgrid hN hidx, List.length_map, List.length_range]
  unfold roundsOf counterOffset
  rw [Nat.mul_comm grid]

/-! ## Elements -/

/-- The element of a value. -/
def Value.li (grid N : Nat) (v : Value) : Nat :=
  v.idx + v.k * (grid * BLOCK * N) + grid * BLOCK * v.lane

/-- The values of a launch, within the output or not. -/
def allValues (numel grid N : Nat) : List Value :=
  (List.range (grid * BLOCK)).flatMap fun idx =>
    (List.range (roundsOf numel grid N)).flatMap fun k =>
      (List.range N).map fun lane => ⟨idx, k, lane⟩

theorem flatMap_if {α β : Type*} (f : α → β) (p : β → Prop) [DecidablePred p] (l : List α) :
    (l.flatMap fun x => if p (f x) then [f x] else []) = (l.map f).filter (fun y => decide (p y)) := by
  induction l with
  | nil => rfl
  | cons x l ih =>
      rw [List.flatMap_cons, List.map_cons, List.filter_cons, ih]
      split
      · rename_i hp
        rw [if_pos (decide_eq_true hp)]
        rfl
      · rename_i hp
        rw [if_neg (by rwa [decide_eq_true_eq])]
        rfl

/-- The kernel gives the elements of the output their values. -/
theorem distKernel_eq (hgrid : 0 < grid) (hN : 0 < N) : distKernel numel grid N =
    ((allValues numel grid N).map fun v => (v.li grid N, v)).filter
      fun w => decide (w.1 < numel) := by
  unfold distKernel allValues
  rw [List.map_flatMap, List.filter_flatMap]
  refine List.flatMap_congr fun idx hidx => ?_
  rw [distRounds_eq hgrid hN (List.mem_range.mp hidx), List.flatMap_map, List.map_flatMap,
    List.filter_flatMap]
  refine List.flatMap_congr fun k _ => ?_
  rw [List.map_map]
  exact flatMap_if (fun lane => (Value.li grid N ⟨idx, k, lane⟩, (⟨idx, k, lane⟩ : Value)))
    (fun w => w.1 < numel) _

/-- The values of a launch in the order of their elements. -/
theorem allValues_perm (numel grid N : Nat) : ((allValues numel grid N).map (Value.li grid N)).Perm
    (List.range (roundsOf numel grid N * N * (grid * BLOCK))) := by
  unfold allValues
  simp only [List.map_flatMap, List.map_map]
  refine (flatMap_comm_perm _ _ _).trans ?_
  rw [range_mul (roundsOf numel grid N * N), range_mul (roundsOf numel grid N),
    List.flatMap_assoc]
  refine List.Perm.flatMap_left _ fun k _ => ?_
  rw [List.flatMap_map]
  have hsingle : ∀ idx, (List.range N).map (Value.li grid N ∘ fun lane => ⟨idx, k, lane⟩) =
      (List.range N).flatMap fun lane => [Value.li grid N ⟨idx, k, lane⟩] := fun idx =>
    List.map_eq_flatMap
  simp only [hsingle]
  refine (flatMap_comm_perm _ _ _).trans (List.Perm.of_eq ?_)
  refine List.flatMap_congr fun lane _ => ?_
  rw [← List.map_eq_flatMap]
  refine List.map_congr_left fun idx _ => ?_
  change idx + k * (grid * BLOCK * N) + grid * BLOCK * lane = (k * N + lane) * (grid * BLOCK) + idx
  ring

theorem numel_le_rounds (numel : Nat) (hgrid : 0 < grid) (hN : 0 < N) :
    numel ≤ roundsOf numel grid N * N * (grid * BLOCK) := by
  have hpos : 0 < grid * BLOCK * N := Nat.mul_pos (Nat.mul_pos hgrid (Nat.succ_pos 255)) hN
  have hsplit := Nat.div_add_mod' (numel - 1) (grid * BLOCK * N)
  have hlt := Nat.mod_lt (numel - 1) hpos
  unfold roundsOf
  rw [Nat.mul_assoc, Nat.mul_comm N, Nat.succ_mul]
  omega

/-- Each element of a launch is drawn once. -/
theorem distKernel_perm (numel : Nat) (hgrid : 0 < grid) (hN : 0 < N) :
    ((distKernel numel grid N).map Prod.fst).Perm (List.range numel) := by
  have hle := numel_le_rounds numel hgrid hN
  rw [distKernel_eq hgrid hN, List.filter_map, List.map_map]
  have hfilter := ((allValues_perm numel grid N).filter fun li => decide (li < numel))
  rw [List.filter_map] at hfilter
  refine hfilter.trans (List.Perm.of_eq ?_)
  obtain ⟨d, hd⟩ := Nat.exists_eq_add_of_le hle
  rw [hd, List.range_add, List.filter_append]
  have hin : (List.range numel).filter (fun li => decide (li < numel)) = List.range numel :=
    List.filter_eq_self.mpr fun li hli => decide_eq_true (List.mem_range.mp hli)
  have hout : ((List.range d).map (numel + ·)).filter (fun li => decide (li < numel)) = [] := by
    refine List.filter_eq_nil_iff.mpr fun li hli => ?_
    obtain ⟨x, -, rfl⟩ := List.mem_map.mp hli
    rw [decide_eq_true_eq]
    omega
  rw [hin, hout, List.append_nil]

theorem distKernel_mem (hgrid : 0 < grid) (hN : 0 < N) {v : Value} (hidx : v.idx < grid * BLOCK)
    (hk : v.k < roundsOf numel grid N) (hlane : v.lane < N) (hli : v.li grid N < numel) :
    (v.li grid N, v) ∈ distKernel numel grid N := by
  rw [distKernel_eq hgrid hN]
  refine List.mem_filter.mpr ⟨List.mem_map.mpr ⟨v, ?_, rfl⟩, decide_eq_true hli⟩
  refine List.mem_flatMap.mpr ⟨v.idx, List.mem_range.mpr hidx, ?_⟩
  refine List.mem_flatMap.mpr ⟨v.k, List.mem_range.mpr hk, ?_⟩
  exact List.mem_map.mpr ⟨v.lane, List.mem_range.mpr hlane, rfl⟩

theorem mem_distKernel (hgrid : 0 < grid) (hN : 0 < N) {w : Nat × Value}
    (hw : w ∈ distKernel numel grid N) : w.1 = w.2.li grid N ∧ w.2.lane < N := by
  rw [distKernel_eq hgrid hN] at hw
  obtain ⟨v, hv, rfl⟩ := List.mem_map.mp (List.mem_filter.mp hw).1
  obtain ⟨idx, -, hv⟩ := List.mem_flatMap.mp hv
  obtain ⟨k, -, hv⟩ := List.mem_flatMap.mp hv
  obtain ⟨lane, hlane, rfl⟩ := List.mem_map.mp hv
  exact ⟨rfl, List.mem_range.mp hlane⟩

/-! ## Offsets -/

theorem peelOffset_eq (ds : List (Dim Int)) {li : Nat} (hli : li < count ds) :
    peelOffset ds li = unravel ds li := by
  induction ds generalizing li with
  | nil => rfl
  | cons d ds ih =>
      rw [count_cons] at hli
      have hrest : li / d.extent < count ds := Nat.div_lt_of_lt_mul hli
      cases ds with
      | nil =>
          rw [count_nil, Nat.mul_one] at hli
          unfold peelOffset unravel peelOffset
          rw [Nat.mod_eq_of_lt hli, add_zero, nsmul_eq_mul]
      | cons d' ds =>
          unfold peelOffset unravel
          rw [ih hrest, nsmul_eq_mul]

theorem offsetOf_eq (ds : List (Dim Int)) {li : Nat} (hli : li < count ds) :
    offsetOf ds li = unravel ds li := by
  unfold offsetOf
  split
  · exact (nsmul_eq_mul _ _).symm
  · exact peelOffset_eq ds hli

theorem gridOf_pos {cap : Nat} (hcap : 0 < cap) (hnumel : numel ≠ 0) : 0 < gridOf cap numel :=
  Nat.lt_min.mpr ⟨ceildiv_pos (Nat.pos_of_ne_zero hnumel) (Nat.succ_pos 255), hcap⟩

theorem distUnroll_pos (dist : Dist) (double : Bool) : 0 < distUnroll dist double := by
  cases dist <;> cases double <;> decide

/-- The launch of a piece writes its elements, each once. -/
theorem pieceWrites_perm {cap : Nat} (hcap : 0 < cap) (dist : Dist) (double : Bool) {p : Plan}
    (h : p.Ok) : ((pieceWrites cap dist double p).map Prod.fst).Perm p.elements := by
  have hgrid := gridOf_pos hcap h.numel_ne
  have hN := distUnroll_pos dist double
  have hperm := (distKernel_perm p.numel hgrid hN).map fun li =>
    p.base + offsetOf p.dims li
  unfold pieceWrites
  rw [List.map_map] at hperm ⊢
  refine hperm.trans ?_
  have hoffsets : (List.range p.numel).map (fun li => p.base + offsetOf p.dims li) =
      ((List.range (count p.dims)).map (unravel p.dims)).map (p.base + ·) := by
    rw [h.numel_eq, List.map_map]
    refine List.map_congr_left fun li hli => ?_
    rw [Function.comp_apply, offsetOf_eq _ (List.mem_range.mp hli)]
  rw [hoffsets]
  exact (unravel_perm _).map _

/-! ## Words -/

/-- The distributions that draw their values in pairs. -/
def Dist.boxMuller : Dist → Bool
  | .normal | .logNormal => true
  | _ => false

/-- Two lanes share a word only as a Box-Muller pair. -/
theorem laneWords_disjoint {dist : Dist} {double : Bool} {lane lane' x : Nat}
    (hlane : lane < distUnroll dist double) (hlane' : lane' < distUnroll dist double)
    (hx : x ∈ laneWords dist double lane) (hx' : x ∈ laneWords dist double lane') :
    lane = lane' ∨ dist.boxMuller = true ∧ lane / 2 = lane' / 2 := by
  cases dist <;> cases double <;>
    simp only [distUnroll, laneWords, List.mem_cons, List.not_mem_nil, or_false, if_true,
      if_false, Bool.false_eq_true, Dist.boxMuller, false_and, true_and] at * <;> omega

/-! ## Fitting -/

theorem offsets_le {ds : List (Dim Int)} (hasc : Ascends ds) (hpos : ∀ d ∈ ds, d.extent ≠ 0)
    {o : Int} (ho : o ∈ offsets ds) :
    0 ≤ o ∧ o ≤ (ds.map fun d => ((d.extent : Int) - 1) * d.stride).sum := by
  induction ds generalizing o with
  | nil =>
      obtain rfl := mem_offsets_nil.mp ho
      exact ⟨le_refl _, le_refl _⟩
  | cons d ds ih =>
      obtain ⟨i, hi, o', ho', rfl⟩ := mem_offsets_cons.mp ho
      obtain ⟨hlow, hhigh⟩ := ih (fun e he => hasc e (List.mem_cons_of_mem _ he))
        (fun e he => hpos e (List.mem_cons_of_mem _ he)) ho'
      have hdim : 0 ≤ i • d.stride ∧ i • d.stride ≤ ((d.extent : Int) - 1) * d.stride := by
        rw [nsmul_eq_mul]
        by_cases hlong : 1 < d.extent
        · have hstride := hasc d List.mem_cons_self hlong
          exact ⟨mul_nonneg (Int.natCast_nonneg i) hstride,
            mul_le_mul_of_nonneg_right (by omega) hstride⟩
        · have hzero : i = 0 := by omega
          have hone : d.extent = 1 := by
            have := hpos d List.mem_cons_self
            omega
          rw [hzero, hone]
          simp
      rw [List.map_cons, List.sum_cons]
      omega

/-- What fits has 32-bit indices and 32-bit byte offsets. -/
theorem fits32bit_spec {itemsize : Nat} {p : Plan} (h : p.Ok) (hfits : fits32bit itemsize p = true) :
    p.numel ≤ INT32_MAX ∧ ∀ o ∈ offsets p.dims, 0 ≤ o * itemsize ∧ o * itemsize < INT32_MAX := by
  unfold fits32bit at hfits
  rw [Bool.and_eq_true, decide_eq_true_eq, decide_eq_true_eq] at hfits
  refine ⟨hfits.1, fun o ho => ?_⟩
  have hpos : ∀ d ∈ p.dims, d.extent ≠ 0 := by
    intro d hd
    obtain ⟨i, hi, rfl⟩ := List.getElem_of_mem hd
    exact h.extent_ne hi
  obtain ⟨hlow, hhigh⟩ := offsets_le h.ascends hpos ho
  have hitem : (0 : Int) ≤ itemsize := Int.natCast_nonneg _
  have hbytes := mul_le_mul_of_nonneg_right hhigh hitem
  rw [← List.sum_map_mul_right] at hbytes
  exact ⟨mul_nonneg hlow hitem, by omega⟩

/-! ## A draw -/

/-- The launch of a piece: its indices and offsets fit in 32 bits, no word serves two of its
elements but the two of a Box-Muller pair, and its threads read what was reserved. -/
structure PieceExact (cap itemsize : Nat) (dist : Dist) (double : Bool) (q : Plan) : Prop where
  numel_le : q.numel ≤ INT32_MAX
  bytes : ∀ o ∈ offsets q.dims, 0 ≤ o * itemsize ∧ o * itemsize < INT32_MAX
  words : ∀ w ∈ pieceWrites cap dist double q, ∀ w' ∈ pieceWrites cap dist double q, w ≠ w' →
    w.2.idx = w'.2.idx → w.2.k = w'.2.k → ∀ x ∈ laneWords dist double w.2.lane,
      x ∈ laneWords dist double w'.2.lane →
        dist.boxMuller = true ∧ w.2.lane / 2 = w'.2.lane / 2
  reserved : ∀ idx, idx < gridOf cap q.numel * BLOCK →
    (distRounds q.numel (gridOf cap q.numel) (distUnroll dist double) idx).length * 4 =
      counterOffset q.numel (gridOf cap q.numel) (distUnroll dist double)

theorem pieceExact {cap itemsize : Nat} (hcap : 0 < cap) (dist : Dist) (double : Bool) {q : Plan}
    (h : q.Ok) (hfits : fits32bit itemsize q = true) :
    PieceExact cap itemsize dist double q := by
  have hgrid := gridOf_pos hcap h.numel_ne
  have hN := distUnroll_pos dist double
  obtain ⟨hnumel, hbytes⟩ := fits32bit_spec h hfits
  refine ⟨hnumel, hbytes, ?_, fun idx hidx => distRounds_length hgrid hN hidx⟩
  intro w hw w' hw' hne hidx hk x hx hx'
  obtain ⟨⟨li, v⟩, hmem, rfl⟩ := List.mem_map.mp hw
  obtain ⟨⟨li', v'⟩, hmem', rfl⟩ := List.mem_map.mp hw'
  obtain ⟨hli, hlane⟩ := mem_distKernel hgrid hN hmem
  obtain ⟨hli', hlane'⟩ := mem_distKernel hgrid hN hmem'
  rcases laneWords_disjoint hlane hlane' hx hx' with heq | hpair
  · -- one lane of one block is one element
    obtain ⟨idx, k, lane⟩ := v
    obtain ⟨idx', k', lane'⟩ := v'
    dsimp only at hidx hk heq hli hli'
    subst hidx hk heq hli hli'
    exact absurd rfl hne
  · exact hpair

/-- A draw gives each element of the output one value: the plan and the pieces have its
elements, and the launches write them, each as `PieceExact` says. -/
theorem draw_exact {itemsize cap : Nat} {ds : List (Dim Int)} (hitem : 0 < itemsize)
    (hcap : 0 < cap) (hasc : Ascends ds) (hnodup : (offsets ds).Nodup) (dist : Dist)
    (double : Bool) :
    ∃ ps, drawPieces itemsize ds = some ps ∧
      (count ds ≠ 0 → ∃ p, plan ds = some p ∧ p.base = 0 ∧ (offsets p.dims).Perm (offsets ds) ∧
        ∀ fuel, p.numel ≤ fuel → pieces itemsize fuel p = some ps) ∧
      (ps.flatMap Plan.elements).Perm (offsets ds) ∧
      (ps.flatMap fun q => (pieceWrites cap dist double q).map Prod.fst).Perm (offsets ds) ∧
      ∀ q ∈ ps, PieceExact cap itemsize dist double q := by
  by_cases hcount : count ds = 0
  · have hnil : offsets ds = [] := List.eq_nil_of_length_eq_zero (by rw [length_offsets, hcount])
    refine ⟨[], if_pos hcount, fun h => absurd hcount h, ?_, ?_, fun q hq => absurd hq ?_⟩
    · rw [hnil, List.flatMap_nil]
    · rw [hnil, List.flatMap_nil]
    · exact List.not_mem_nil
  · obtain ⟨p, hplan, hbase, -, hok, hperm⟩ := plan_ok hasc hnodup hcount
    obtain ⟨ps, hpieces, helements, hparts⟩ := pieces_spec hitem p hok
    have hself : p.elements = offsets p.dims := by
      unfold Plan.elements
      rw [hbase]
      exact (List.map_congr_left fun o _ => zero_add o).trans (List.map_id _)
    have hall : (ps.flatMap Plan.elements).Perm (offsets ds) :=
      (helements.trans (List.Perm.of_eq hself)).trans hperm
    refine ⟨ps, ?_, fun _ => ⟨p, hplan, hbase, hperm, hpieces⟩, hall, ?_,
      fun q hq => pieceExact hcap dist double (hparts q hq).1 (hparts q hq).2⟩
    · unfold drawPieces
      rw [if_neg hcount, hplan]
      exact hpieces _ (le_refl _)
    · refine (List.Perm.flatMap_left _ fun q hq => ?_).trans hall
      exact pieceWrites_perm hcap dist double (hparts q hq).1

/-- A float32 matrix of two rows of three, filled from the normal distribution. -/
theorem draw_exact_rows : ∃ ps, drawPieces 4 [⟨2, 3⟩, ⟨3, 1⟩] = some ps ∧
    (ps.flatMap Plan.elements).Perm (offsets [⟨2, 3⟩, ⟨3, 1⟩]) := by
  have hasc : Ascends [⟨2, 3⟩, ⟨3, 1⟩] := by
    intro d hd _
    rcases List.mem_cons.mp hd with rfl | hd
    · decide
    · obtain rfl := List.mem_singleton.mp hd
      decide
  obtain ⟨ps, hps, -, hall, -⟩ := draw_exact (by decide : 0 < 4) (by decide : 0 < 1056) hasc
    (by decide) .normal false
  exact ⟨ps, hps, hall⟩

/-- The only piece of a vector of 257 elements. -/
def longRow : Plan := ⟨[⟨257, 1⟩], 257, 0⟩

/-- Two elements of a normal float32 vector that are drawn from one word. -/
theorem draw_pair_shares_word : drawPieces 4 [⟨257, 1⟩] = some [longRow] ∧
    ∃ w ∈ pieceWrites 1 .normal false longRow, ∃ w' ∈ pieceWrites 1 .normal false longRow,
      w.1 = 0 ∧ w'.1 = 256 ∧ w.2.idx = w'.2.idx ∧ w.2.k = w'.2.k ∧
      ∃ x, x ∈ laneWords .normal false w.2.lane ∧ x ∈ laneWords .normal false w'.2.lane := by
  have hfirst : (Value.li 1 4 ⟨0, 0, 0⟩, (⟨0, 0, 0⟩ : Value)) ∈ distKernel 257 1 4 :=
    distKernel_mem (by decide) (by decide) (by decide) (by decide) (by decide) (by decide)
  have hsecond : (Value.li 1 4 ⟨0, 0, 1⟩, (⟨0, 0, 1⟩ : Value)) ∈ distKernel 257 1 4 :=
    distKernel_mem (by decide) (by decide) (by decide) (by decide) (by decide) (by decide)
  have hgrid : gridOf 1 longRow.numel = 1 := by decide
  have hwrites : pieceWrites 1 .normal false longRow =
      (distKernel 257 1 4).map fun w => (0 + offsetOf [⟨257, 1⟩] w.1, w.2) := by
    unfold pieceWrites
    rw [hgrid]
    rfl
  rw [hwrites]
  exact ⟨by decide, _, List.mem_map_of_mem hfirst, _, List.mem_map_of_mem hsecond, by decide,
    by decide, rfl, rfl, 0, by decide, by decide⟩

end TorchMojoBackend.Kernels.RandomFill
