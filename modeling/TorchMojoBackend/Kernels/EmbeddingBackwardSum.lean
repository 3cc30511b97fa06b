/-
  `Kernels.EmbeddingBackwardSum`: what the regimes without a table leave.

  What a scatter does is, up to order, one update for each column of each row that is not
  the padding row.  After a cleared output the additions leave the sum.  With the
  histogram the output is cleared where rows are added, and stored once elsewhere.  A
  thread that owns a cell sums it up alone.
-/
import Mathlib.Algebra.BigOperators.Intervals
import Mathlib.Algebra.BigOperators.Ring.Finset
import TorchMojoBackend.Kernels.EmbeddingBackward

set_option autoImplicit false

namespace TorchMojoBackend.Kernels.EmbeddingBackward

open TorchMojoBackend.Foundation

universe u

section
variable {R : Type u} [AddCommMonoid R] {a : Args R}

/-- The indices name rows of the table. -/
def Args.InRange (a : Args R) : Prop := ∀ i, i < a.numIndices → a.indices i < a.numWeights

/-- The rows of the output's gradient that are added to the row `w`. -/
def Args.named (a : Args R) (w : Nat) : Finset Nat :=
  (Finset.range a.numIndices).filter fun i => a.indices i = w ∧ (w : Int) ≠ a.paddingIdx

/-- The gradient of the cell of the row `w` at the column `c`. -/
def gradSum (a : Args R) (w c : Nat) : R :=
  ∑ i ∈ a.named w, a.gradOutput (i * a.embeddingDim + c)

/-! ## Updates by rows -/

/-- One update for each column of each row. -/
def rowUpdates (a : Args R) (update : Nat → R → Update R) : List (Nat × Update R) :=
  (List.range a.numIndices).flatMap fun i =>
    if (a.indices i : Int) ≠ a.paddingIdx then
      (List.range a.embeddingDim).map fun c => (a.indices i * a.embeddingDim + c,
        update (a.indices i) (a.gradOutput (i * a.embeddingDim + c)))
    else []

omit [AddCommMonoid R] in
/-- The updates of a cell. -/
theorem mem_rowUpdates {update : Nat → R → Update R} {w c : Nat} {x : Update R}
    (hc : c < a.embeddingDim) : (w * a.embeddingDim + c, x) ∈ rowUpdates a update ↔
      ∃ i ∈ a.named w, x = update w (a.gradOutput (i * a.embeddingDim + c)) := by
  unfold rowUpdates Args.named
  simp only [List.mem_flatMap, List.mem_range, Finset.mem_filter, Finset.mem_range]
  constructor
  · rintro ⟨i, hi, hmem⟩
    split at hmem
    · rename_i hpad
      obtain ⟨c', hc', heq⟩ := List.mem_map.mp hmem
      obtain ⟨haddr, rfl⟩ := Prod.mk.inj heq
      obtain ⟨rfl, rfl⟩ := flat_inj (List.mem_range.mp hc') hc haddr
      exact ⟨i, ⟨hi, rfl, hpad⟩, rfl⟩
    · exact absurd hmem List.not_mem_nil
  · rintro ⟨i, ⟨hi, rfl, hpad⟩, rfl⟩
    refine ⟨i, hi, ?_⟩
    rw [if_pos hpad]
    exact List.mem_map.mpr ⟨c, List.mem_range.mpr hc, rfl⟩

omit [AddCommMonoid R] in
/-- Every update is of a cell. -/
theorem rowUpdates_lt (ha : a.InRange) {update : Nat → R → Update R} {e : Nat × Update R}
    (he : e ∈ rowUpdates a update) : e.1 < a.numWeights * a.embeddingDim := by
  obtain ⟨i, hi, he⟩ := List.mem_flatMap.mp he
  split at he
  · obtain ⟨c, hc, rfl⟩ := List.mem_map.mp he
    exact row_major_lt (ha i (List.mem_range.mp hi)) (List.mem_range.mp hc)
  · exact absurd he List.not_mem_nil

/-- What is added to a cell whose rows are added. -/
theorem sum_rowUpdates {update : Nat → R → Update R} {w c : Nat} (hc : c < a.embeddingDim)
    (hadd : ∀ r, update w r = .add r) :
    ((rowUpdates a update).map (amount (w * a.embeddingDim + c))).sum = gradSum a w c := by
  unfold rowUpdates gradSum Args.named
  rw [sum_map_flatMap, sum_map_range, Finset.sum_filter]
  refine Finset.sum_congr rfl fun i _ => ?_
  by_cases hpad : (a.indices i : Int) ≠ a.paddingIdx
  · rw [if_pos hpad, List.map_map, sum_map_range]
    by_cases hw : a.indices i = w
    · rw [if_pos ⟨hw, hw ▸ hpad⟩, Finset.sum_eq_single_of_mem c (Finset.mem_range.mpr hc)]
      · simp [amount, hw, hadd]
      · intro c' hc' hne
        have haddr : a.indices i * a.embeddingDim + c' ≠ w * a.embeddingDim + c := fun heq =>
          hne (flat_inj (Finset.mem_range.mp hc') hc heq).2
        unfold amount
        simp only [Function.comp_apply, if_neg haddr]
        split <;> rfl
    · rw [if_neg fun h => hw h.1]
      refine Finset.sum_eq_zero fun c' hc' => ?_
      have haddr : a.indices i * a.embeddingDim + c' ≠ w * a.embeddingDim + c := fun heq =>
        hw (flat_inj (Finset.mem_range.mp hc') hc heq).1
      unfold amount
      simp only [Function.comp_apply, if_neg haddr]
      split <;> rfl
  · have hout : ¬ (a.indices i = w ∧ (w : Int) ≠ a.paddingIdx) := fun h => hpad (h.1 ▸ h.2)
    rw [if_neg hpad, if_neg hout]
    rfl

/-! ## Scatters -/

theorem vec_div_mod {q r c : Nat} (h : r < c) : (q * c + r) / c = q ∧ q * c + r - q * c = r := by
  constructor
  · rw [Nat.mul_comm, Nat.mul_add_div (by omega), Nat.div_eq_of_lt h, Nat.add_zero]
  · exact Nat.add_sub_cancel_left ..

/-- The columns of a row in vectors. -/
theorem flatMap_vectors {β : Type*} (f : Nat → β) (cols width : Nat) :
    (List.range cols).flatMap (fun col => (List.range width).map fun j => f (col * width + j)) =
      (List.range (cols * width)).map f := by
  rw [range_mul, List.map_flatMap]
  simp only [List.map_map]
  rfl

omit [AddCommMonoid R] in
/-- A scatter updates each column of each row once. -/
theorem scatter_perm {width threads cols : Nat} (hthreads : 0 < threads)
    (hdim : a.embeddingDim = cols * width) :
    (scatter a width threads cols).Perm (rowUpdates a fun _ r => .add r) := by
  refine (gridItems_flatMap_perm a.numIndices cols hthreads _).trans (List.Perm.of_eq ?_)
  refine List.flatMap_congr fun i _ => ?_
  by_cases hpad : (a.indices i : Int) ≠ a.paddingIdx
  · rw [if_pos hpad, hdim, ← flatMap_vectors]
    refine List.flatMap_congr fun col hcol => ?_
    obtain ⟨hrow, hcol'⟩ := vec_div_mod (q := i) (List.mem_range.mp hcol)
    dsimp only
    rw [hrow, hcol', if_pos hpad]
    refine List.map_congr_left fun j _ => ?_
    rw [Nat.add_mul, Nat.add_mul, Nat.mul_assoc, Nat.mul_assoc, Nat.add_assoc, Nat.add_assoc]
  · rw [if_neg hpad]
    refine List.flatMap_eq_nil_iff.mpr fun col hcol => ?_
    dsimp only
    rw [(vec_div_mod (List.mem_range.mp hcol)).1, if_neg hpad]

/-! ## The plain regime -/

theorem flatThreads_pos (sms n : Nat) : VEC ≤ flatThreads sms n := by
  unfold flatThreads VEC BLOCK
  omega

theorem mem_zeroVec4 {threads head vecCount tail : Nat} (hthreads : VEC ≤ threads)
    (hhead : head < VEC) (htail : tail < VEC) {p : Nat} {x : R} :
    (p, x) ∈ zeroVec4 R threads head vecCount tail ↔
      p < head + vecCount * VEC + tail ∧ x = 0 := by
  have hstrided : ∀ {tid v}, v ∈ strided vecCount threads vecCount tid ↔
      tid ≤ v ∧ v < vecCount ∧ v % threads = tid % threads :=
    mem_strided (Nat.lt_of_lt_of_le hhead.pos hthreads) (Nat.le_add_left _ _)
  have hvec : VEC = 4 := rfl
  unfold zeroVec4
  simp only [List.mem_flatMap, List.mem_range, List.mem_append, List.mem_map, hstrided]
  constructor
  · rintro ⟨tid, -, (hmem | hmem) | ⟨v, ⟨-, hv, -⟩, j, hj, heq⟩⟩
    · split at hmem
      · obtain ⟨rfl, rfl⟩ := Prod.mk.inj (List.mem_singleton.mp hmem)
        exact ⟨by omega, rfl⟩
      · exact absurd hmem List.not_mem_nil
    · split at hmem
      · obtain ⟨rfl, rfl⟩ := Prod.mk.inj (List.mem_singleton.mp hmem)
        exact ⟨by omega, rfl⟩
      · exact absurd hmem List.not_mem_nil
    · obtain ⟨rfl, rfl⟩ := Prod.mk.inj heq
      have := row_major_lt hv hj
      exact ⟨by omega, rfl⟩
  · rintro ⟨hp, rfl⟩
    by_cases hlow : p < head
    · exact ⟨p, by omega, .inl (.inl (by rw [if_pos hlow]; exact List.mem_singleton_self _))⟩
    · by_cases hhigh : head + vecCount * VEC ≤ p
      · refine ⟨p - (head + vecCount * VEC), by omega, .inl (.inr ?_)⟩
        rw [if_pos (by omega), Nat.add_sub_cancel' hhigh]
        exact List.mem_singleton_self _
      · have hv : (p - head) / VEC < vecCount :=
          Nat.div_lt_of_lt_mul (by rw [Nat.mul_comm]; omega)
        have hsplit := Nat.div_add_mod' (p - head) VEC
        refine ⟨(p - head) / VEC % threads, Nat.mod_lt _ (by omega), .inr ⟨(p - head) / VEC,
          ⟨Nat.mod_le _ _, hv, (Nat.mod_mod _ _).symm⟩, (p - head) % VEC,
          Nat.mod_lt _ (Nat.succ_pos 3), ?_⟩⟩
        rw [Nat.add_assoc, hsplit, Nat.add_sub_cancel' (by omega)]

/-- Stage 1 clears the output, each address of it. -/
theorem zeroStores_writesOf (a : Args R) (sms : Nat) :
    WritesOf (· < a.numWeights * a.embeddingDim) id (fun _ => 0) (zeroStores a sms) := by
  have hmem : ∀ p x, (p, x) ∈ zeroStores a sms ↔ p < a.numWeights * a.embeddingDim ∧ x = 0 := by
    intro p x
    unfold zeroStores
    generalize a.numWeights * a.embeddingDim = total
    dsimp only
    split
    · rw [mem_zeroVec4 (flatThreads_pos _ _) (by unfold VEC; omega) (by unfold VEC; omega)]
      have hhead : min ((16 - a.outAddr % 16) % 16 / 4) total ≤ total := Nat.min_le_right _ _
      generalize min ((16 - a.outAddr % 16) % 16 / 4) total = head at hhead ⊢
      unfold VEC
      constructor
      · rintro ⟨hp, hx⟩
        exact ⟨by omega, hx⟩
      · rintro ⟨hp, hx⟩
        exact ⟨by omega, hx⟩
    · have hthreads : 0 < flatThreads sms total :=
        Nat.lt_of_lt_of_le (Nat.succ_pos 3) (flatThreads_pos _ _)
      unfold zeroScalar
      simp only [List.mem_map, mem_gridItems hthreads]
      constructor
      · rintro ⟨i, hi, heq⟩
        obtain ⟨rfl, rfl⟩ := Prod.mk.inj heq
        exact ⟨hi, rfl⟩
      · rintro ⟨hp, rfl⟩
        exact ⟨p, hp, rfl⟩
  refine ⟨fun w hw => ?_, fun p hp => (hmem p 0).mpr ⟨hp, rfl⟩⟩
  obtain ⟨hp, hx⟩ := (hmem w.1 w.2).mp hw
  exact ⟨w.1, hp, Prod.ext rfl hx⟩

/-- Each cell has the sum of its rows, and the rest of the memory is left alone. -/
def Summed (a : Args R) (m m' : Nat → R) : Prop :=
  (∀ w c, w < a.numWeights → c < a.embeddingDim → m' (w * a.embeddingDim + c) = gradSum a w c) ∧
    ∀ p, a.numWeights * a.embeddingDim ≤ p → m' p = m p

omit [AddCommMonoid R] in
theorem vecOk_dim (h : vecOk a = true) : a.embeddingDim = a.embeddingDim / VEC * VEC := by
  unfold vecOk at h
  rw [Bool.and_eq_true, decide_eq_true_eq] at h
  exact (Nat.div_mul_cancel (Nat.dvd_of_mod_eq_zero h.1)).symm

omit [AddCommMonoid R] in
theorem scatterUpdates_perm (a : Args R) (sms : Nat) :
    (scatterUpdates a sms).Perm (rowUpdates a fun _ r => .add r) := by
  have hthreads : ∀ n, 0 < flatThreads sms n := fun n =>
    Nat.lt_of_lt_of_le (Nat.succ_pos 3) (flatThreads_pos _ _)
  unfold scatterUpdates
  split
  · rename_i hvec
    exact scatter_perm (hthreads _) (vecOk_dim hvec)
  · exact scatter_perm (hthreads _) (Nat.mul_one _).symm

/-- The plain regime clears and sums up. -/
theorem PlainRegime.summed (ha : a.InRange) {sms : Nat} {m m' : Nat → R}
    (h : PlainRegime a sms m m') : Summed a m m' := by
  obtain ⟨mid, hzero, hscatter⟩ := h
  have hclear : ∀ p, p < a.numWeights * a.embeddingDim → mid p = 0 := fun p hp =>
    hzero.writesOf (zeroStores_writesOf a sms) (fun _ _ _ _ heq => heq) hp
  have hkeep : ∀ p, a.numWeights * a.embeddingDim ≤ p → mid p = m p := by
    intro p hp
    refine hzero.off fun b hb => ?_
    obtain ⟨q, hq, heq⟩ := (zeroStores_writesOf a sms).1 _ hb
    obtain ⟨rfl, -⟩ := Prod.mk.inj heq
    exact absurd hp (Nat.not_le_of_lt hq)
  split at hscatter
  · rename_i hempty
    subst hscatter
    refine ⟨fun w c hw hc => ?_, hkeep⟩
    rw [hclear _ (row_major_lt hw hc)]
    refine (Finset.sum_eq_zero fun i hi => ?_).symm
    have := Finset.mem_range.mp (Finset.mem_filter.mp hi).1
    omega
  · have hrows := hscatter.perm (scatterUpdates_perm a sms)
    refine ⟨fun w c hw hc => ?_, fun p hp => ?_⟩
    · rw [hrows.add_at, hclear _ (row_major_lt hw hc), zero_add, sum_rowUpdates hc fun _ => rfl]
      rintro ⟨p, x⟩ hmem rfl
      obtain ⟨i, -, hx⟩ := (mem_rowUpdates hc).mp hmem
      exact ⟨_, hx⟩
    · rw [hrows.off fun e he heq => ?_, hkeep p hp]
      exact Nat.not_lt_of_le hp (heq ▸ rowUpdates_lt ha he)

/-! ## The histogram -/

omit [AddCommMonoid R] in
/-- The counter of a row is the number of its hits modulo 2^32. -/
theorem counts_eq {threads threads' : Nat} {fresh zeroed counts : Nat → BitVec 32}
    (hthreads : 0 < threads) (hthreads' : 0 < threads')
    (hzero : Stores (countZero threads a.numWeights) fresh zeroed)
    (hcount : Updates (count a threads') zeroed counts) {w : Nat} (hw : w < a.numWeights) :
    counts w = BitVec.ofNat 32 (a.named w).card := by
  have hclear : zeroed w = 0 := hzero.map_at (fun _ _ _ _ heq => heq)
    ((mem_gridItems hthreads).mpr hw)
  have hadd : ∀ e ∈ count a threads', e.1 = w → ∃ r, e.2 = .add r := by
    intro e he _
    obtain ⟨i, -, he⟩ := List.mem_flatMap.mp he
    dsimp only at he
    split at he
    · exact ⟨1, congrArg Prod.snd (List.mem_singleton.mp he)⟩
    · exact absurd he List.not_mem_nil
  rw [hcount.add_at hadd, hclear, zero_add]
  unfold count
  rw [(((gridItems_perm _ hthreads').flatMap_right _).map _).sum_eq, sum_map_flatMap,
    sum_map_range, ← BitVec.natCast_eq_ofNat, Args.named, ← Finset.sum_boole]
  refine Finset.sum_congr rfl fun i _ => ?_
  dsimp only
  by_cases hpad : (a.indices i : Int) ≠ a.paddingIdx
  · rw [if_pos hpad, List.map_singleton, List.sum_singleton]
    by_cases hi : a.indices i = w
    · rw [if_pos ⟨hi, hi ▸ hpad⟩]
      exact if_pos hi
    · have hout : ¬ (a.indices i = w ∧ (w : Int) ≠ a.paddingIdx) := fun h => hi h.1
      rw [if_neg hout]
      exact if_neg hi
  · have hout : ¬ (a.indices i = w ∧ (w : Int) ≠ a.paddingIdx) := fun h => hpad (h.1 ▸ h.2)
    rw [if_neg hpad, if_neg hout]
    rfl

/-- A counter reads one when the hits are one modulo 2^32. -/
theorem count_eq_one {hits : Nat} : BitVec.ofNat 32 hits = 1 ↔ hits % 2 ^ 32 = 1 := by
  rw [← BitVec.toNat_inj, BitVec.toNat_ofNat]
  exact Iff.rfl

theorem ceildiv_mul_ge {n b : Nat} (hb : 0 < b) : n ≤ ceildiv n b * b := by
  unfold ceildiv
  have hsplit := Nat.div_add_mod' (n + b - 1) b
  have hlt := Nat.mod_lt (n + b - 1) hb
  omega

omit [AddCommMonoid R] in
/-- The scatter after the count updates each column of each row once. -/
theorem scatterHistVec4_perm {counts : Nat → BitVec 32} {gridY : Nat} (hgrid : 0 < gridY)
    (hdim : a.embeddingDim = a.embeddingDim / VEC * VEC) :
    (scatterHistVec4 a counts (ceildiv (a.embeddingDim / VEC) BLOCK) gridY
      (a.embeddingDim / VEC)).Perm
      (rowUpdates a fun t r => if counts t = 1 then .set r else .add r) := by
  have hblock : 0 < BLOCK := Nat.succ_pos 255
  generalize a.embeddingDim / VEC = vecCols at hdim ⊢
  unfold scatterHistVec4
  rw [flatMap_range_guard _ (ceildiv_mul_ge hblock)]
  refine (List.Perm.flatMap_left _ fun col _ =>
    (gridItems_perm a.numIndices hgrid).flatMap_right _).trans ?_
  refine (flatMap_comm_perm _ _ _).trans (List.Perm.of_eq ?_)
  refine List.flatMap_congr fun i _ => ?_
  dsimp only
  by_cases hpad : (a.indices i : Int) ≠ a.paddingIdx
  · simp only [if_pos hpad]
    rw [hdim, ← flatMap_vectors]
    refine List.flatMap_congr fun col _ => List.map_congr_left fun j _ => ?_
    rw [Nat.add_mul, Nat.add_mul, Nat.mul_assoc, Nat.mul_assoc, Nat.add_assoc, Nat.add_assoc]
  · simp only [if_neg hpad]
    exact List.flatMap_eq_nil_iff.mpr fun _ _ => rfl

/-- The rows that are cleared are those whose counter is not one. -/
theorem mem_zeroUntouched {counts : Nat → BitVec 32} {gridY : Nat} (hgrid : 0 < gridY)
    (hdim : a.embeddingDim = a.embeddingDim / VEC * VEC) {p : Nat} {x : R} :
    (p, x) ∈ zeroUntouched a counts (ceildiv (a.embeddingDim / VEC) BLOCK) gridY
      (a.embeddingDim / VEC) ↔
      ∃ w c, w < a.numWeights ∧ c < a.embeddingDim ∧ counts w ≠ 1 ∧
        p = w * a.embeddingDim + c ∧ x = 0 := by
  have hblock : 0 < BLOCK := Nat.succ_pos 255
  generalize a.embeddingDim / VEC = vecCols at hdim ⊢
  unfold zeroUntouched
  rw [flatMap_range_guard _ (ceildiv_mul_ge hblock)]
  simp only [List.mem_flatMap, List.mem_range, mem_gridItems hgrid]
  constructor
  · rintro ⟨col, hcol, w, hw, hmem⟩
    split at hmem
    · rename_i hne
      obtain ⟨j, hj, heq⟩ := List.mem_map.mp hmem
      obtain ⟨rfl, rfl⟩ := Prod.mk.inj heq
      refine ⟨w, col * VEC + j, hw, ?_, hne, ?_, rfl⟩
      · rw [hdim]
        exact row_major_lt hcol (List.mem_range.mp hj)
      · rw [hdim, Nat.add_mul, Nat.mul_assoc, Nat.add_assoc]
    · exact absurd hmem List.not_mem_nil
  · rintro ⟨w, c, hw, hc, hne, rfl, rfl⟩
    have hsplit := Nat.div_add_mod' c VEC
    refine ⟨c / VEC, Nat.div_lt_of_lt_mul (by rw [Nat.mul_comm, ← hdim]; exact hc), w, hw, ?_⟩
    rw [if_pos hne]
    refine List.mem_map.mpr ⟨c % VEC, List.mem_range.mpr (Nat.mod_lt _ (Nat.succ_pos 3)), ?_⟩
    rw [hdim, Nat.add_mul, Nat.mul_assoc, Nat.add_assoc, hsplit]

/-- Some row is hit more than once, and its counter wraps to one. -/
def Wraps (a : Args R) : Prop :=
  ∃ w, w < a.numWeights ∧ (a.named w).card ≠ 1 ∧ (a.named w).card % 2 ^ 32 = 1

/-- The histogram regime sums up if no counter wraps to one. -/
theorem HistRegime.summed (ha : a.InRange) (hvec : vecOk a = true) (hn : 0 < a.numIndices)
    (hnw : 0 < a.numWeights) (hwrap : ¬ Wraps a) {sms : Nat} {m m' : Nat → R}
    (h : HistRegime a sms m m') : Summed a m m' := by
  obtain ⟨fresh, zeroed, counts, mid, hfresh, hcount, hzero, hscatter⟩ := h
  have hdim := vecOk_dim hvec
  have hthreads : ∀ n, 0 < flatThreads sms n := fun n =>
    Nat.lt_of_lt_of_le (Nat.succ_pos 3) (flatThreads_pos _ _)
  have hgrid : 0 < min a.numWeights MAX_GRID_Y := by
    unfold MAX_GRID_Y
    omega
  have hcounts : ∀ w, w < a.numWeights → (counts w = 1 ↔ (a.named w).card % 2 ^ 32 = 1) :=
    fun w hw => by rw [counts_eq (hthreads _) (hthreads _) hfresh hcount hw, count_eq_one]
  have hclear : ∀ w c, w < a.numWeights → c < a.embeddingDim → counts w ≠ 1 →
      mid (w * a.embeddingDim + c) = 0 := fun w c hw hc hne =>
    hzero.at ((mem_zeroUntouched hgrid hdim).mpr ⟨w, c, hw, hc, hne, rfl, rfl⟩) fun b hb => by
      obtain ⟨-, -, -, -, -, -, hb⟩ := (mem_zeroUntouched hgrid hdim).mp hb
      exact hb
  have hkeep : ∀ p, a.numWeights * a.embeddingDim ≤ p → mid p = m p := by
    intro p hp
    refine hzero.off fun b hb => ?_
    obtain ⟨w, c, hw, hc, -, rfl, -⟩ := (mem_zeroUntouched hgrid hdim).mp hb
    exact absurd hp (Nat.not_le_of_lt (row_major_lt hw hc))
  have hrows := hscatter.perm (scatterHistVec4_perm (by unfold MAX_GRID_Y; omega) hdim)
  refine ⟨fun w c hw hc => ?_, fun p hp => ?_⟩
  · by_cases hone : counts w = 1
    · have hcard : (a.named w).card = 1 := by
        by_contra hne
        exact hwrap ⟨w, hw, hne, (hcounts w hw).mp hone⟩
      obtain ⟨i, hi⟩ := Finset.card_eq_one.mp hcard
      have hsum : gradSum a w c = a.gradOutput (i * a.embeddingDim + c) := by
        unfold gradSum
        rw [hi, Finset.sum_singleton]
      rw [hsum]
      refine hrows.set_at ((mem_rowUpdates hc).mpr ⟨i, hi ▸ Finset.mem_singleton_self i, ?_⟩) ?_
      · rw [if_pos hone]
      · rintro ⟨p, x⟩ hmem rfl
        obtain ⟨i', hi', rfl⟩ := (mem_rowUpdates hc).mp hmem
        rw [hi, Finset.mem_singleton] at hi'
        rw [if_pos hone, hi']
    · rw [hrows.add_at, hclear w c hw hc hone, zero_add,
        sum_rowUpdates hc fun r => if_neg hone]
      rintro ⟨p, x⟩ hmem rfl
      obtain ⟨i, -, rfl⟩ := (mem_rowUpdates hc).mp hmem
      exact ⟨_, if_neg hone⟩
  · rw [hrows.off fun e he heq => ?_, hkeep p hp]
    exact Nat.not_lt_of_le hp (heq ▸ rowUpdates_lt ha he)

/-! ## Ownership -/

omit [AddCommMonoid R] in
/-- The staged index of a row is the index unless it is the padding. -/
theorem ownerTile_eq (ha : a.InRange) (hnw : a.numWeights ≤ OWN_MAX_ROWS) {base k row : Nat}
    (hk : base + k < a.numIndices) : (ownerTile a base k).toInt = row ↔
      a.indices (base + k) = row ∧ (row : Int) ≠ a.paddingIdx := by
  have hlt := Nat.lt_of_lt_of_le (ha _ hk) hnw
  unfold OWN_MAX_ROWS at hlt
  unfold ownerTile
  dsimp only
  generalize a.indices (base + k) = t at hlt ⊢
  split
  · rename_i hpad
    rw [BitVec.toInt_ofInt]
    refine iff_of_false (fun h => ?_) fun h => h.2 (h.1 ▸ hpad)
    have hneg : Int.bmod (-1) (2 ^ 32) = -1 := rfl
    omega
  · rename_i hpad
    have hsame : (BitVec.ofInt 32 t).toInt = t := by
      rw [BitVec.toInt_ofInt, Int.bmod_eq_of_le (by omega) (by omega)]
    rw [hsame]
    constructor
    · intro h
      obtain rfl := Int.ofNat_inj.mp h
      exact ⟨rfl, hpad⟩
    · rintro ⟨rfl, -⟩
      rfl

/-- An owner adds the rows of its cell from a tile on. -/
theorem ownerAcc_eq (ha : a.InRange) (hnw : a.numWeights ≤ OWN_MAX_ROWS) {row c fuel : Nat} :
    ∀ {base : Nat} {acc : R}, a.numIndices ≤ base + fuel → ownerAcc a row c fuel base acc =
      acc + ∑ i ∈ Finset.Ico base a.numIndices,
        if a.indices i = row ∧ (row : Int) ≠ a.paddingIdx
        then a.gradOutput (i * a.embeddingDim + c) else 0 := by
  induction fuel with
  | zero =>
      intro base acc hfuel
      rw [Finset.Ico_eq_empty_of_le (by omega), Finset.sum_empty, add_zero]
      rfl
  | succ fuel ih =>
      intro base acc hfuel
      unfold ownerAcc
      split
      · rename_i hin
        dsimp only
        have htile : OWN_TILE = 256 := rfl
        rw [ih (by omega), foldl_range_add, add_assoc]
        congr 1
        have hmid : base + min OWN_TILE (a.numIndices - base) =
            min (base + OWN_TILE) a.numIndices := by omega
        have hrest : Finset.Ico (base + OWN_TILE) a.numIndices =
            Finset.Ico (min (base + OWN_TILE) a.numIndices) a.numIndices := by
          by_cases hend : base + OWN_TILE ≤ a.numIndices
          · rw [Nat.min_eq_left hend]
          · rw [Nat.min_eq_right (by omega), Finset.Ico_self,
              Finset.Ico_eq_empty_of_le (by omega)]
        rw [hrest, ← Finset.sum_Ico_consecutive _ (m := base)
          (n := min (base + OWN_TILE) a.numIndices) (by omega) (Nat.min_le_right _ _)]
        congr 1
        rw [← hmid, Finset.sum_Ico_eq_sum_range, Nat.add_sub_cancel_left]
        refine Finset.sum_congr rfl fun k hk => ?_
        have hk := Finset.mem_range.mp hk
        rw [if_congr (ownerTile_eq ha hnw (by omega)) rfl rfl]
      · rw [Finset.Ico_eq_empty_of_le (by omega), Finset.sum_empty, add_zero]

/-- A thread for each cell stores the sum of its rows. -/
theorem owner_summed (ha : a.InRange) (hnw : a.numWeights ≤ OWN_MAX_ROWS) {width cols : Nat}
    (hdim : a.embeddingDim = cols * width) {m m' : Nat → R}
    (h : Stores (owner a width cols) m m') : Summed a m m' := by
  have hmem : ∀ {p x}, (p, x) ∈ owner a width cols ↔ ∃ w c, w < a.numWeights ∧
      c < a.embeddingDim ∧ p = w * a.embeddingDim + c ∧ x = gradSum a w c := by
    intro p x
    have hacc : ∀ w c, ownerAcc a w c a.numIndices 0 0 = gradSum a w c := by
      intro w c
      rw [ownerAcc_eq ha hnw (Nat.le_add_left _ _), zero_add, ← Finset.range_eq_Ico]
      exact (Finset.sum_filter _ _).symm
    have haddr : ∀ w col j, (w * cols + col) * width + j =
        w * a.embeddingDim + (col * width + j) := fun w col j => by
      rw [hdim, Nat.add_mul, Nat.mul_assoc, Nat.add_assoc]
    unfold owner
    simp only [List.mem_flatMap, List.mem_range, hacc, haddr]
    constructor
    · rintro ⟨col, -, w, -, hmem⟩
      split at hmem
      · rename_i hactive
        obtain ⟨j, hj, heq⟩ := List.mem_map.mp hmem
        obtain ⟨rfl, rfl⟩ := Prod.mk.inj heq
        refine ⟨w, col * width + j, hactive.1, ?_, rfl, rfl⟩
        rw [hdim]
        exact row_major_lt hactive.2 (List.mem_range.mp hj)
      · exact absurd hmem List.not_mem_nil
    · rintro ⟨w, c, hw, hc, rfl, rfl⟩
      have hc' : c < width * cols := by rwa [Nat.mul_comm, ← hdim]
      have hwidth : 0 < width := Nat.pos_of_mul_pos_right (Nat.zero_lt_of_lt hc')
      have hcol : c / width < cols := Nat.div_lt_of_lt_mul hc'
      refine ⟨c / width, Nat.lt_of_lt_of_le hcol (ceildiv_mul_ge (Nat.succ_pos 31)), w,
        Nat.lt_of_lt_of_le hw (ceildiv_mul_ge (Nat.succ_pos 7)), ?_⟩
      rw [if_pos ⟨hw, hcol⟩]
      refine List.mem_map.mpr ⟨c % width, List.mem_range.mpr (Nat.mod_lt _ hwidth), ?_⟩
      rw [Nat.div_add_mod']
  constructor
  · intro w c hw hc
    refine h.at (hmem.mpr ⟨w, c, hw, hc, rfl, rfl⟩) fun b hb => ?_
    obtain ⟨w', c', -, hc', haddr, rfl⟩ := hmem.mp hb
    obtain ⟨rfl, rfl⟩ := flat_inj hc hc' haddr
    rfl
  · intro p hp
    refine h.off fun b hb => ?_
    obtain ⟨w, c, hw, hc, rfl, -⟩ := hmem.mp hb
    exact Nat.not_lt_of_le hp (row_major_lt hw hc)

end

end TorchMojoBackend.Kernels.EmbeddingBackward
