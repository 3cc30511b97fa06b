/-
  `Kernels.WelfordExact`: every route of var, std and var_mean gives the exact moments.

  The shards of a line are its elements, in whichever units and segments they are read.
  States that keep their offsets show that each element is folded once; the arithmetic
  leaves the mean and the sum of squared deviations of the same elements.
-/
import TorchMojoBackend.Kernels.WelfordFolds

set_option autoImplicit false

namespace TorchMojoBackend.Kernels.Welford

open TorchMojoBackend.Foundation
open TorchMojoBackend.Kernels.OpUtils
open WelfordOps

universe u

/-! ## Lines -/

namespace WelfordArgs

variable (a : WelfordArgs)

/-- The offset of the element `x` of the line of output `r`. -/
def element (r x : Nat) : Nat :=
  if a.inner = 1 then (x / a.seg * a.outputs + r) * a.seg + x % a.seg
  else (r / a.inner * a.n + x) * a.inner + r % a.inner

/-- The line of an output. -/
def line (r : Nat) : Multiset Nat := (Multiset.range a.n).map (a.element r)

/-- A vector load at a multiple of its bytes, inside the input. -/
def Aligned (off : Nat) : Prop :=
  (a.inAddr + off * a.dt.size) % (welfordVec a.dt * a.dt.size) = 0 ∧
    off + welfordVec a.dt ≤ a.outer * a.n * a.inner

/-- What the code relies on: there is input, segments of one length, and numbers of units of
segmented rows that fit in 31 bits. -/
structure Valid : Prop where
  outer : 0 < a.outer
  n : 0 < a.n
  inner : 0 < a.inner
  seg : a.seg ∣ a.n
  units : a.inner = 1 → a.seg ≠ a.n → a.units < 2 ^ 31

variable {a}

namespace Valid

variable (h : a.Valid)
include h

theorem seg_pos : 0 < a.seg := Nat.pos_of_dvd_of_pos h.seg h.n

theorem element_lt {r x : Nat} (hr : r < a.outputs) (hx : x < a.n) :
    a.element r x < a.outer * a.n * a.inner := by
  unfold element
  split
  · rename_i hone
    obtain ⟨m, hm⟩ := h.seg
    have hq : x / a.seg < m := Nat.div_lt_of_lt_mul (hm ▸ hx)
    have hlt := row_major_lt (row_major_lt hq hr) (Nat.mod_lt x h.seg_pos)
    have houtputs : a.outputs = a.outer := by rw [outputs, hone, Nat.mul_one]
    have htotal : m * a.outputs * a.seg = a.outer * a.n * a.inner := by
      rw [hone, Nat.mul_one, houtputs, hm]
      ring
    rwa [htotal] at hlt
  · exact row_major_lt (row_major_lt (Nat.div_lt_of_lt_mul (by rwa [Nat.mul_comm])) hx)
      (Nat.mod_lt r h.inner)

/-- No element is of two lines, or twice of one. -/
theorem element_inj {r x r' x' : Nat} (hr : r < a.outputs) (hx : x < a.n) (hr' : r' < a.outputs)
    (hx' : x' < a.n) (heq : a.element r x = a.element r' x') : r = r' ∧ x = x' := by
  unfold element at heq
  split at heq
  · obtain ⟨hrow, hmod⟩ := flat_inj (Nat.mod_lt x h.seg_pos) (Nat.mod_lt x' h.seg_pos) heq
    obtain ⟨hdiv, hr⟩ := flat_inj hr hr' hrow
    refine ⟨hr, ?_⟩
    rw [← Nat.div_add_mod' x a.seg, ← Nat.div_add_mod' x' a.seg, hdiv, hmod]
  · obtain ⟨hrow, hmod⟩ := flat_inj (Nat.mod_lt r h.inner) (Nat.mod_lt r' h.inner) heq
    obtain ⟨hdiv, hx⟩ := flat_inj hx hx' hrow
    refine ⟨?_, hx⟩
    rw [← Nat.div_add_mod' r a.inner, ← Nat.div_add_mod' r' a.inner, hdiv, hmod]

omit h in
theorem splits_pos : 0 < a.splits := by
  unfold splits
  split
  · exact Nat.lt_of_lt_of_le Nat.one_pos (Nat.le_max_left _ _)
  · exact Nat.one_pos

end Valid

end WelfordArgs

/-! ## The route -/

theorem shrinkTpr_eq (perThread units : Nat) {fuel t : Nat} (ht : t ≤ 8) :
    ∃ s ≤ 8, shrinkTpr perThread units fuel (2 ^ t) = 2 ^ s := by
  induction fuel generalizing t with
  | zero => exact ⟨t, ht, rfl⟩
  | succ fuel ih =>
      rw [shrinkTpr]
      split
      · rename_i hmore
        obtain ⟨s, rfl⟩ : ∃ s, t = s + 1 := by
          refine ⟨t - 1, ?_⟩
          have hbig : t ≠ 0 := by
            rintro rfl
            exact absurd hmore.1 (by decide)
          omega
        rw [Nat.pow_succ, Nat.mul_div_cancel _ Nat.two_pos]
        exact ih (by omega)
      · exact ⟨t, ht, rfl⟩

theorem growCw_eq (inner : Nat) {fuel cw : Nat} (hcw : cw = 16 ∨ cw = 32) :
    growCw inner fuel cw = 16 ∨ growCw inner fuel cw = 32 := by
  induction fuel generalizing cw with
  | zero => exact hcw
  | succ fuel ih =>
      rw [growCw]
      split
      · rename_i hmore
        refine ih (.inr ?_)
        obtain rfl | rfl := hcw
        · rfl
        · exact absurd hmore.2 (by decide)
      · exact hcw

/-- A power of two up to the block's threads divides them. -/
theorem threads_groups {t : Nat} (ht : t ≤ 8) : welfordThreads = 2 ^ (8 - t) * 2 ^ t := by
  rw [← Nat.pow_add, Nat.sub_add_cancel ht]
  rfl

namespace WelfordArgs.Valid

variable {a : WelfordArgs} (h : a.Valid)
include h

omit h in
theorem exists_tpr : ∃ t ≤ 8, a.tpr = 2 ^ t := shrinkTpr_eq _ _ (Nat.le_refl 8)

omit h in
theorem cw_eq : 0 < a.cw ∧ welfordThreads = a.colsArgs.lanes * a.cw := by
  unfold ColsArgs.lanes
  change 0 < a.cw ∧ welfordThreads = welfordThreads / a.cw * a.cw
  obtain hcw | hcw : a.cw = 16 ∨ a.cw = 32 := growCw_eq _ (.inl rfl)
  · rw [hcw]
    decide
  · rw [hcw]
    decide

theorem outputs_pos : 0 < a.outputs := Nat.mul_pos h.outer h.inner

theorem rows_grid (hone : a.inner = 1) : 0 < min a.baseBlocks statsMaxBlocks := by
  obtain ⟨t, ht, htpr⟩ := exists_tpr (a := a)
  have hgroups : welfordThreads / a.tpr = 2 ^ (8 - t) := by
    rw [threads_groups ht, htpr, Nat.mul_div_cancel _ (Nat.two_pow_pos t)]
  refine lt_min ?_ (by decide)
  unfold baseBlocks
  rw [if_neg (by omega), hgroups]
  exact ceildiv_pos h.outputs_pos (Nat.two_pow_pos _)

omit h in
theorem exists_mergeTpr : ∃ t ≤ 8, a.mergeTpr = 2 ^ t := by
  unfold mergeTpr
  split
  · exact ⟨0, by omega, rfl⟩
  · exact ⟨8, by omega, rfl⟩

theorem merge_grid : 0 < a.mergeGrid := by
  obtain ⟨t, ht, htpr⟩ := exists_mergeTpr (a := a)
  have hgroups : welfordThreads / a.mergeTpr = 2 ^ (8 - t) := by
    rw [threads_groups ht, htpr, Nat.mul_div_cancel _ (Nat.two_pow_pos t)]
  refine lt_min ?_ (by decide)
  rw [hgroups]
  exact ceildiv_pos h.outputs_pos (Nat.two_pow_pos _)

/-! ### Units -/

omit h in
theorem width_dvd : a.rowsArgs.width ∣ a.seg := by
  unfold RowsArgs.width
  split
  · rename_i hvec
    exact Nat.dvd_of_mod_eq_zero (of_decide_eq_true hvec).1
  · exact Nat.one_dvd _

omit h in
theorem seg_eq : a.seg = a.rowsArgs.segUnits * a.rowsArgs.width :=
  (Nat.div_mul_cancel width_dvd).symm

theorem n_eq : a.n = a.rowsArgs.units * a.rowsArgs.width :=
  (Nat.div_mul_cancel (width_dvd.trans h.seg)).symm

omit h in
theorem units_eq : a.rowsArgs.units = a.units := by
  unfold RowsArgs.units RowsArgs.width
  change a.n / (if a.vec = true then welfordVec a.dt else 1) =
    if a.vec = true then a.n / welfordVec a.dt else a.n
  split
  · rfl
  · exact Nat.div_one _

/-- The elements of a unit of a row, in order. -/
theorem element_unit (hone : a.inner = 1) {r jj e : Nat} (hjj : jj < a.rowsArgs.units)
    (he : e < a.rowsArgs.width) : a.element r (jj * a.rowsArgs.width + e) =
      a.rowsArgs.unitOffset r jj * a.rowsArgs.width + e := by
  have hdiv : (jj * a.rowsArgs.width + e) / a.seg = jj / a.rowsArgs.segUnits := by
    rw [seg_eq, Nat.mul_comm a.rowsArgs.segUnits, ← Nat.div_div_eq_div_mul, row_div he]
  have hmod : (jj * a.rowsArgs.width + e) % a.seg =
      jj % a.rowsArgs.segUnits * a.rowsArgs.width + e := by
    rw [seg_eq, Nat.mul_comm a.rowsArgs.segUnits, Nat.mod_mul, Nat.mul_add_mod_of_lt he,
      row_div he]
    ring
  have hplace : a.rowsArgs.unitOffset r jj =
      (jj / a.rowsArgs.segUnits * a.outputs + r) * a.rowsArgs.segUnits + jj % a.rowsArgs.segUnits := by
    unfold RowsArgs.unitOffset
    by_cases hplain : a.seg = a.n
    · have hsegs : a.rowsArgs.segUnits = a.rowsArgs.units := congrArg (· / a.rowsArgs.width) hplain
      have hflag : a.rowsArgs.segmented = false := decide_eq_false (not_not.mpr hplain)
      rw [if_neg (by rw [hflag]; decide), hsegs, Nat.div_eq_of_lt hjj, Nat.mod_eq_of_lt hjj,
        Nat.zero_mul, Nat.zero_add]
    · have hflag : a.rowsArgs.segmented = true := decide_eq_true hplain
      have hfit := h.units hone hplain
      rw [← units_eq] at hfit
      have hseg : a.rowsArgs.segUnits ≤ a.rowsArgs.units :=
        Nat.div_le_div_right (Nat.le_of_dvd h.n h.seg)
      have hjj32 : jj % 2 ^ 32 = jj := Nat.mod_eq_of_lt (by omega)
      have hseg32 : a.rowsArgs.segUnits % 2 ^ 32 = a.rowsArgs.segUnits :=
        Nat.mod_eq_of_lt (by omega)
      have hsplit := Nat.div_add_mod' jj a.rowsArgs.segUnits
      rw [if_pos hflag, hjj32, hseg32]
      change (jj / a.rowsArgs.segUnits * a.outputs + r) * a.rowsArgs.segUnits + jj - _ = _
      omega
  unfold element
  rw [if_pos hone, hdiv, hmod, hplace]
  conv => lhs; rw [seg_eq]
  ring

/-- A row is its units. -/
theorem rows_line (hone : a.inner = 1) (r : Nat) :
    ∑ split ∈ Finset.range a.splits, a.rowsArgs.shard r split =
      a.line r := by
  unfold line
  have hcover : a.rowsArgs.units ≤ a.splits * a.rowsArgs.chunk := by
    rw [Nat.mul_comm]
    exact ceildiv_mul_ge splits_pos
  have hchunks := sum_chunks (a.rowsArgs.unitFolds r) a.rowsArgs.units a.rowsArgs.chunk a.splits
  rw [Nat.min_eq_left hcover] at hchunks
  refine hchunks.trans ?_
  rw [← sum_singletons, h.n_eq, sum_runs]
  refine Finset.sum_congr rfl fun jj hjj => ?_
  unfold RowsArgs.unitFolds
  rw [← sum_singletons]
  refine Finset.sum_congr rfl fun e he => ?_
  rw [h.element_unit hone (Finset.mem_range.mp hjj) (Finset.mem_range.mp he)]

omit h in
/-- A column is its rows. -/
theorem cols_line (hmany : a.inner ≠ 1) (r : Nat) :
    ∑ split ∈ Finset.range a.splits, a.colsArgs.shard r split =
      a.line r := by
  unfold line
  have hcover : a.n ≤ a.splits * a.colsArgs.chunk := by
    rw [Nat.mul_comm]
    exact ceildiv_mul_ge splits_pos
  have hchunks := sum_chunks (fun x => ({r / a.inner * a.n * a.inner + r % a.inner +
    x * a.inner} : Multiset Nat)) a.n a.colsArgs.chunk a.splits
  rw [Nat.min_eq_left hcover] at hchunks
  refine hchunks.trans ?_
  rw [sum_singletons]
  refine Multiset.map_congr rfl fun x _ => ?_
  unfold element
  rw [if_neg hmany]
  ring

theorem aligned_unit (hone : a.inner = 1) (hvec : a.vec = true) {r jj : Nat} (hr : r < a.outputs)
    (hjj : jj < a.rowsArgs.units) : a.Aligned (a.rowsArgs.unitOffset r jj * welfordVec a.dt) := by
  have hwidth : a.rowsArgs.width = welfordVec a.dt := if_pos hvec
  have hpos := welfordVec_pos a.dt
  refine ⟨?_, ?_⟩
  · rw [Nat.mul_assoc, Nat.add_mul_mod_self_right]
    exact (of_decide_eq_true hvec).2
  · -- the last element of the unit is inside
    have hlast := h.element_unit (r := r) hone hjj
      (by rw [hwidth]; omega : welfordVec a.dt - 1 < a.rowsArgs.width)
    have hx : jj * a.rowsArgs.width + (welfordVec a.dt - 1) < a.n := by
      have hlt := row_major_lt hjj (by rw [hwidth]; omega : welfordVec a.dt - 1 < a.rowsArgs.width)
      rwa [← h.n_eq] at hlt
    have hin := h.element_lt hr hx
    rw [hlast, hwidth] at hin
    omega

section
variable {S V : Type u} {o : WelfordOps S V} {stands : S → Multiset Nat → Prop}
  {vecStands : V → Multiset Nat → Prop}
  (hfolds : Folds o (welfordVec a.dt) a.Aligned stands vecStands) (warpBits : Nat)
include hfolds

/-- The first kernel's partials are shards of the lines. -/
theorem partials_shards : ∃ shard : Nat → Nat → Multiset Nat,
    Shards stands shard a.outputs a.splits (a.partials o warpBits) ∧
      ∀ r, ∑ split ∈ Finset.range a.splits, shard r split = a.line r := by
  unfold partials
  by_cases hone : a.inner = 1
  · obtain ⟨t, ht, htpr⟩ := exists_tpr (a := a)
    refine ⟨a.rowsArgs.shard, ?_, h.rows_line hone⟩
    rw [if_pos hone]
    exact Folds.rowsPartials (a := a.rowsArgs) hfolds htpr (threads_groups ht) (h.rows_grid hone)
      fun hvec r hr jj hjj => h.aligned_unit hone hvec hr hjj
  · obtain ⟨hcw, hthreads⟩ := cw_eq (a := a)
    have hblocks : a.baseBlocks = a.outer * a.colsArgs.tiles := by
      have := h.inner
      unfold baseBlocks
      rw [if_pos (by omega)]
      rfl
    refine ⟨a.colsArgs.shard, ?_, cols_line hone⟩
    rw [if_neg hone, hblocks]
    exact Folds.colsPartials (a := a.colsArgs) hfolds hcw hthreads

end

end WelfordArgs.Valid

section
variable {S : Type u} {stands : S → Multiset Nat → Prop} {shard : Nat → Nat → Multiset Nat}
  {rows splits : Nat} {partials : List ((Nat × Nat) × S)}

theorem Shards.mem_keys (h : Shards stands shard rows splits partials) {k : Nat × Nat} :
    (∃ p ∈ partials, p.1 = k) ↔ k.1 < rows ∧ k.2 < splits := by
  have hkeys := h.keys
  rw [sum_map_singletons] at hkeys
  have hmem : k ∈ (partials.map Prod.fst : Multiset (Nat × Nat)) ↔ k.1 < rows ∧ k.2 < splits := by
    rw [hkeys]
    simp only [Multiset.mem_sum, Finset.mem_range, Multiset.mem_singleton]
    constructor
    · rintro ⟨r, hr, split, hsplit, rfl⟩
      exact ⟨hr, hsplit⟩
    · exact fun ⟨hr, hsplit⟩ => ⟨k.1, hr, k.2, hsplit, rfl⟩
  rwa [Multiset.mem_coe, List.mem_map] at hmem

/-- Partials do not share their words. -/
theorem partialAddr_inj {r split r' split' : Nat} (hsplit : split < splits) (hsplit' : split' < splits)
    (h : partialAddr splits r split = partialAddr splits r' split') : r = r' ∧ split = split' :=
  flat_inj hsplit hsplit' (Nat.eq_of_mul_eq_mul_right (by decide : 0 < 3) h)

/-- The workspace holds a shard wherever the merge kernel reads. -/
theorem Shards.workspace (h : Shards stands shard rows splits partials) {ws ws' : Nat → S}
    (hws : Stores (partials.map fun p => (partialAddr splits p.1.1 p.1.2, p.2)) ws ws') {r k : Nat}
    (hr : r < rows) (hk : k < splits) : stands (ws' (partialAddr splits r k)) (shard r k) := by
  obtain ⟨p, hp, hkey⟩ := h.mem_keys (k := (r, k)).mpr ⟨hr, hk⟩
  obtain hmem | ⟨hnone, -⟩ := hws (partialAddr splits r k)
  · obtain ⟨q, hq, heq⟩ := List.mem_map.mp hmem
    obtain ⟨haddr, hval⟩ := Prod.mk.inj heq
    have hin := h.mem_keys.mp ⟨q, hq, rfl⟩
    obtain ⟨hrow, hsplit⟩ := partialAddr_inj hin.2 hk haddr
    rw [← hval, ← hrow, ← hsplit]
    exact h.stands q hq
  · refine absurd ?_ (hnone p.2)
    refine List.mem_map.mpr ⟨p, hp, ?_⟩
    rw [hkey]

end

namespace WelfordArgs.Valid

variable {a : WelfordArgs} (h : a.Valid) {S V : Type u} {o : WelfordOps S V}
  {stands : S → Multiset Nat → Prop} {vecStands : V → Multiset Nat → Prop}
  (hfolds : Folds o (welfordVec a.dt) a.Aligned stands vecStands) (warpBits : Nat)
include h hfolds

/-- Every output is projected once, from a state of its whole line. -/
theorem results_stands {ws : Nat → S} {results : List (Nat × S)}
    (hresults : a.Results o warpBits ws results) :
    (results.map Prod.fst).Perm (List.range a.outputs) ∧
      ∀ p ∈ results, stands p.2 (a.line p.1) := by
  obtain ⟨shard, hshards, hline⟩ := h.partials_shards hfolds warpBits
  unfold Results at hresults
  split at hresults
  · rename_i hone
    subst hresults
    refine ⟨Multiset.coe_eq_coe.mp ?_, fun p hp => ?_⟩
    · have hkeys := hshards.keys
      rw [sum_map_singletons, hone] at hkeys
      simp only [Finset.sum_range_one] at hkeys
      rw [sum_singletons fun r => (r, 0)] at hkeys
      have hfirst := congrArg (Multiset.map Prod.fst) hkeys
      rw [Multiset.map_coe, Multiset.map_map, List.map_map] at hfirst
      rw [List.map_map]
      exact hfirst.trans (Multiset.map_id' _)
    · obtain ⟨q, hq, rfl⟩ := List.mem_map.mp hp
      have hin := hshards.mem_keys.mp ⟨q, hq, rfl⟩
      have hsplit : q.1.2 = 0 := by omega
      dsimp only
      rw [← hline, hone, Finset.sum_range_one, ← hsplit]
      exact hshards.stands q hq
  · obtain ⟨ws', hws, rfl⟩ := hresults
    obtain ⟨t, ht, htpr⟩ := exists_mergeTpr (a := a)
    obtain ⟨hstands, hkeys⟩ := @Folds.mergeResults _ _ _ _ _ _ _ hfolds shard warpBits a.mergeGrid
      a.outputs a.splits t _ ws' (threads_groups ht) h.merge_grid fun r hr k hk =>
        hshards.workspace hws hr hk
    rw [← htpr] at hstands hkeys
    rw [sum_map_singletons, sum_singletons fun r => r, Multiset.map_id'] at hkeys
    refine ⟨Multiset.coe_eq_coe.mp hkeys, fun p hp => ?_⟩
    rw [← hline]
    exact hstands p hp

end WelfordArgs.Valid

end TorchMojoBackend.Kernels.Welford
