/-
  `Kernels.EmbeddingBackwardTable`: what the table regime leaves.

  The rows of a block are shared by groups that take eight at a time; its table has, for
  each row of the weights, the sum over the block's rows.  The tables are stored side by
  side with the columns padded to a vector, and a thread for each vector adds them up.
-/
import Mathlib.Tactic.Abel
import TorchMojoBackend.Kernels.EmbeddingBackwardSum

set_option autoImplicit false

namespace TorchMojoBackend.Kernels.EmbeddingBackward

open TorchMojoBackend.Foundation

universe u

section
variable {R : Type u} [AddCommMonoid R] {a : Args R}

/-- What the row `i` of the output's gradient adds to a cell. -/
def rowTerm (a : Args R) (w c i : Nat) : R :=
  if a.indices i = w ∧ (w : Int) ≠ a.paddingIdx then a.gradOutput (i * a.embeddingDim + c) else 0

theorem gradSum_eq (a : Args R) (w c : Nat) :
    gradSum a w c = ∑ i ∈ Finset.range a.numIndices, rowTerm a w c i :=
  Finset.sum_filter _ _

/-! ## Blocks -/

/-- The unrolled loop takes the rows of the plain one. -/
theorem tableRows_eq {rowEnd fuel : Nat} : ∀ {row : Nat}, rowEnd ≤ row + fuel →
    tableRows rowEnd fuel row = strided rowEnd TABLE_ROWG rowEnd row := by
  have hstep : TABLE_UNROLL * TABLE_ROWG = 32 := rfl
  induction fuel with
  | zero => exact fun hfuel =>
      @strided_fuel _ _ (Nat.succ_pos 3) 0 _ _ hfuel (Nat.le_add_left _ _)
  | succ fuel ih =>
      intro row hfuel
      unfold tableRows
      split
      · rename_i hin
        have hmore : strided rowEnd TABLE_ROWG rowEnd row =
            strided rowEnd TABLE_ROWG (TABLE_UNROLL - 1 + 1 + rowEnd) row :=
          strided_fuel (Nat.succ_pos 3) (Nat.le_add_left _ _) (by omega)
        rw [ih (by omega), hmore, strided_unroll _ hin]
        rfl
      · rfl

/-- The rows of a block, shared by the groups of its threads. -/
theorem tableRows_perm {rowEnd fuel start : Nat} (hfuel : rowEnd ≤ start + fuel) :
    ((List.range TABLE_ROWG).flatMap fun ty => tableRows rowEnd fuel (start + ty)).Perm
      ((List.range (rowEnd - start)).map (start + ·)) := by
  have hrows : ((List.range TABLE_ROWG).flatMap fun ty => tableRows rowEnd fuel (start + ty)) =
      (List.range TABLE_ROWG).flatMap fun ty => strided rowEnd TABLE_ROWG rowEnd (start + ty) :=
    List.flatMap_congr fun ty _ => tableRows_eq (by omega)
  rw [hrows]
  exact strided_from_perm (Nat.succ_pos 3) (Nat.le_refl _)

/-- The rows of the block `k` of `size` rows. -/
def blockRows (n size k : Nat) : Finset Nat :=
  Finset.Ico (k * size) (min (k * size + size) n)

/-- What a block adds to a cell of its table. -/
theorem sum_tableAdds {size bx rowBlock w tx : Nat} (htx : tx < TABLE_COLS)
    (hcol : bx * TABLE_COLS + tx < a.embeddingDim) :
    ((tableAdds a size bx rowBlock).map (amount (w * TABLE_COLS + tx))).sum =
      ∑ i ∈ blockRows a.numIndices size rowBlock, rowTerm a w (bx * TABLE_COLS + tx) i := by
  have hother : ∀ {t tx'}, tx' < TABLE_COLS → tx' ≠ tx →
      t * TABLE_COLS + tx' ≠ w * TABLE_COLS + tx := fun htx' hne heq =>
    hne (flat_inj htx' htx heq).2
  unfold tableAdds
  dsimp only
  generalize hend : min (rowBlock * size + size) a.numIndices = rowEnd
  rw [sum_map_flatMap, sum_map_range, Finset.sum_eq_single_of_mem tx (Finset.mem_range.mpr htx)]
  · rw [if_pos hcol, ← List.flatMap_assoc,
      (((tableRows_perm (by omega)).flatMap_right _).map _).sum_eq, sum_map_flatMap, List.map_map,
      sum_map_range, blockRows, hend, Finset.sum_Ico_eq_sum_range]
    refine Finset.sum_congr rfl fun k _ => ?_
    dsimp only [Function.comp_apply]
    generalize rowBlock * size + k = i
    unfold rowTerm
    by_cases hpad : (a.indices i : Int) ≠ a.paddingIdx
    · rw [if_pos hpad, List.map_singleton, List.sum_singleton]
      by_cases hw : a.indices i = w
      · rw [if_pos ⟨hw, hw ▸ hpad⟩, hw]
        exact if_pos rfl
      · have hout : ¬ (a.indices i = w ∧ (w : Int) ≠ a.paddingIdx) := fun h => hw h.1
        rw [if_neg hout]
        exact if_neg fun heq => hw (flat_inj htx htx heq).1
    · have hout : ¬ (a.indices i = w ∧ (w : Int) ≠ a.paddingIdx) := fun h => hpad (h.1 ▸ h.2)
      rw [if_neg hpad, if_neg hout]
      rfl
  · intro tx' htx' hne
    refine List.sum_eq_zero fun x hx => ?_
    obtain ⟨e, he, rfl⟩ := List.mem_map.mp hx
    split at he
    · obtain ⟨ty, -, he⟩ := List.mem_flatMap.mp he
      obtain ⟨row, -, he⟩ := List.mem_flatMap.mp he
      split at he
      · obtain rfl := List.mem_singleton.mp he
        exact if_neg (hother (Finset.mem_range.mp htx') hne)
      · exact absurd he List.not_mem_nil
    · exact absurd he List.not_mem_nil

/-- The table of a block has the sums over the block's rows. -/
theorem BlockTable.at {size bx rowBlock w tx : Nat} {table : Nat → R}
    (h : BlockTable a size bx rowBlock table) (hw : w < a.numWeights) (htx : tx < TABLE_COLS)
    (hcol : bx * TABLE_COLS + tx < a.embeddingDim) : table (w * TABLE_COLS + tx) =
      ∑ i ∈ blockRows a.numIndices size rowBlock, rowTerm a w (bx * TABLE_COLS + tx) i := by
  obtain ⟨smem, cleared, hclear, hadds⟩ := h
  have hzero : cleared (w * TABLE_COLS + tx) = 0 :=
    hclear.map_at (fun _ _ _ _ heq => heq)
      ((mem_gridItems (Nat.succ_pos 511)).mpr (row_major_lt hw htx))
  rw [hadds.add_at, hzero, zero_add, sum_tableAdds htx hcol]
  intro e he _
  obtain ⟨tx', -, he⟩ := List.mem_flatMap.mp he
  dsimp only at he
  split at he
  · obtain ⟨ty, -, he⟩ := List.mem_flatMap.mp he
    obtain ⟨row, -, he⟩ := List.mem_flatMap.mp he
    split at he
    · obtain rfl := List.mem_singleton.mp he
      exact ⟨_, rfl⟩
    · exact absurd he List.not_mem_nil
  · exact absurd he List.not_mem_nil

/-- The scratch buffer has the tables side by side. -/
theorem TableAccum.at {colChunks blocksY dimPad size : Nat} {scratch scratch' : Nat → R}
    (h : TableAccum a colChunks blocksY dimPad size scratch scratch')
    (hpad : dimPad ≤ colChunks * TABLE_COLS) (hdim : a.embeddingDim ≤ dimPad)
    {k w c : Nat} (hk : k < blocksY) (hw : w < a.numWeights) (hc : c < a.embeddingDim) :
    scratch' ((k * a.numWeights + w) * dimPad + c) =
      ∑ i ∈ blockRows a.numIndices size k, rowTerm a w c i := by
  obtain ⟨tables, htables, hflush⟩ := h
  have hcols : TABLE_COLS = 128 := rfl
  have hsplit := Nat.div_add_mod' c TABLE_COLS
  have htx : c % TABLE_COLS < TABLE_COLS := Nat.mod_lt _ (Nat.succ_pos 127)
  have hbx : c / TABLE_COLS < colChunks :=
    Nat.div_lt_of_lt_mul (by rw [Nat.mul_comm]; omega)
  have hvalue := (htables _ k hbx hk).at hw htx (by omega)
  rw [hsplit] at hvalue
  rw [← hvalue]
  have hrowg : 0 < TABLE_ROWG := Nat.succ_pos 3
  unfold tableFlush at hflush
  refine hflush.at ?_ fun b hb => ?_
  · simp only [List.mem_flatMap, List.mem_range]
    refine ⟨c / TABLE_COLS, hbx, k, hk, c % TABLE_COLS, htx, ?_⟩
    rw [hsplit, if_pos (by omega)]
    exact List.mem_map.mpr ⟨w, (mem_gridItems hrowg).mpr hw, rfl⟩
  · simp only [List.mem_flatMap, List.mem_range] at hb
    obtain ⟨bx, -, k', -, tx, htx', hb⟩ := hb
    split at hb
    · rename_i hcol
      obtain ⟨w', hw', heq⟩ := List.mem_map.mp hb
      obtain ⟨haddr, rfl⟩ := Prod.mk.inj heq
      obtain ⟨hrow, rfl⟩ := flat_inj hcol (by omega) haddr
      obtain ⟨rfl, rfl⟩ := flat_inj ((mem_gridItems hrowg).mp hw') hw hrow
      rw [(vec_div_mod htx').1, Nat.mul_add_mod', Nat.mod_eq_of_lt htx']
    · exact absurd hb List.not_mem_nil

/-! ## Adding the tables up -/

/-- A row of the weights over all blocks. -/
theorem sum_blockRows (f : Nat → R) (n size blocks : Nat) :
    ∑ k ∈ Finset.range blocks, ∑ i ∈ blockRows n size k, f i =
      ∑ i ∈ Finset.range (min (blocks * size) n), f i := by
  induction blocks with
  | zero => rw [Nat.zero_mul, Nat.zero_min]; rfl
  | succ blocks ih =>
      rw [Finset.sum_range_succ, ih, Nat.succ_mul, blockRows]
      by_cases hend : blocks * size ≤ n
      · rw [Nat.min_eq_left hend, Finset.sum_range_add_sum_Ico f (by omega)]
      · rw [Nat.min_eq_right (by omega), Nat.min_eq_right (by omega),
          Finset.Ico_eq_empty_of_le (by omega), Finset.sum_empty, add_zero]

/-- The four accumulators together. -/
def total (acc : R × R × R × R) : R := acc.1 + acc.2.1 + (acc.2.2.1 + acc.2.2.2)

/-- A thread row adds its chunks. -/
theorem total_reduceLoop {load : Nat → R} {chunks fuel : Nat} :
    ∀ {k : Nat} {acc : R × R × R × R}, chunks ≤ k + fuel →
      total (reduceLoop load chunks fuel k acc) =
        total acc + ((strided chunks RED_TY chunks k).map load).sum := by
  have hty : RED_TY = 4 := rfl
  induction fuel with
  | zero =>
      intro k acc hfuel
      have hnone : strided chunks RED_TY chunks k = [] :=
        @strided_fuel _ _ (Nat.succ_pos 3) _ 0 _ (Nat.le_add_left _ _) hfuel
      rw [hnone, List.map_nil, List.sum_nil, add_zero]
      rfl
  | succ fuel ih =>
      rintro k ⟨acc0, acc1, acc2, acc3⟩ hfuel
      unfold reduceLoop
      split
      · rename_i hin
        have hmore : strided chunks RED_TY chunks k =
            strided chunks RED_TY (3 + 1 + chunks) k :=
          strided_fuel (Nat.succ_pos 3) (Nat.le_add_left _ _) (by omega)
        have hfour : (List.range (3 + 1)).map (fun u => k + u * RED_TY) =
            [k, k + RED_TY, k + 2 * RED_TY, k + 3 * RED_TY] := rfl
        rw [ih (by omega), hmore, strided_unroll 3 hin, hfour]
        simp only [total, List.map_append, List.map_cons, List.map_nil, List.sum_append,
          List.sum_cons, List.sum_nil, add_zero]
        abel
      · dsimp only [total]
        rw [foldl_add_map]
        abel

/-- The thread rows of a block add all chunks. -/
theorem sum_reducePartial (load : Nat → R) (chunks : Nat) :
    (List.range RED_TY).foldl (fun acc y => acc + reducePartial load chunks y) 0 =
      ∑ k ∈ Finset.range chunks, load k := by
  have hone : reducePartial load chunks = fun y =>
      ((strided chunks RED_TY chunks y).map load).sum := by
    funext y
    refine (total_reduceLoop (Nat.le_add_left _ _)).trans ?_
    simp only [total, add_zero, zero_add]
  rw [foldl_add_map, zero_add, hone, ← sum_map_flatMap, ← sum_map_range]
  exact ((gridItems_perm chunks (Nat.succ_pos 3)).map load).sum_eq

/-- The stores of the reduction: each cell has the sum of its copies. -/
theorem mem_tableReduce {scratch : Nat → R} {blocks chunks : Nat} {outVecOk : Bool}
    (hblocks : 0 < blocks) (hvec : outVecOk = true → a.embeddingDim % VEC = 0) {p : Nat} {x : R} :
    (p, x) ∈ tableReduce a scratch blocks (ceildiv a.embeddingDim VEC * VEC) chunks outVecOk ↔
      ∃ w c, w < a.numWeights ∧ c < a.embeddingDim ∧ p = w * a.embeddingDim + c ∧
        x = ∑ k ∈ Finset.range chunks, scratch
          ((k * a.numWeights + w) * (ceildiv a.embeddingDim VEC * VEC) + c) := by
  have hcell : ∀ w v j k, w * (ceildiv a.embeddingDim VEC * VEC) + v * VEC +
      k * (a.numWeights * (ceildiv a.embeddingDim VEC * VEC)) + j =
      (k * a.numWeights + w) * (ceildiv a.embeddingDim VEC * VEC) + (v * VEC + j) := by
    intro w v j k
    ring
  have hvecPos : 0 < VEC := Nat.succ_pos 3
  have hgrid : 0 < blocks * RED_TX := Nat.mul_pos hblocks (Nat.succ_pos 63)
  have hpadding : ceildiv a.embeddingDim VEC * VEC ≤ a.embeddingDim + 3 := by
    unfold ceildiv VEC
    omega
  unfold tableReduce
  dsimp only
  rw [Nat.mul_div_cancel _ hvecPos]
  generalize hpad : ceildiv a.embeddingDim VEC = vecPad at hcell hpadding ⊢
  have hdim : a.embeddingDim ≤ vecPad * VEC := hpad ▸ ceildiv_mul_ge (Nat.succ_pos 3)
  simp only [List.mem_flatMap, mem_gridItems hgrid, sum_reducePartial, hcell]
  constructor
  · rintro ⟨e, he, hmem⟩
    have hw : e / vecPad < a.numWeights :=
      Nat.div_lt_of_lt_mul (by rwa [Nat.mul_comm])
    have hv : e - e / vecPad * vecPad < vecPad := by
      have hpos := Nat.pos_of_mul_pos_left (Nat.zero_lt_of_lt he)
      have := Nat.div_add_mod' e vecPad
      have := Nat.mod_lt e hpos
      omega
    generalize e - e / vecPad * vecPad = v at hv hmem
    split at hmem
    · rename_i hok
      obtain ⟨j, hj, heq⟩ := List.mem_map.mp hmem
      obtain ⟨rfl, rfl⟩ := Prod.mk.inj heq
      have hfull : vecPad * VEC = a.embeddingDim := by
        rw [← hpad]
        have := hvec hok
        unfold ceildiv VEC at *
        omega
      refine ⟨e / vecPad, v * VEC + j, hw, ?_, Nat.add_assoc .., rfl⟩
      rw [← hfull]
      exact row_major_lt hv (List.mem_range.mp hj)
    · obtain ⟨j, -, hmem⟩ := List.mem_flatMap.mp hmem
      split at hmem
      · rename_i hin
        obtain ⟨rfl, rfl⟩ := Prod.mk.inj (List.mem_singleton.mp hmem)
        exact ⟨e / vecPad, v * VEC + j, hw, hin, Nat.add_assoc .., rfl⟩
      · exact absurd hmem List.not_mem_nil
  · rintro ⟨w, c, hw, hc, rfl, rfl⟩
    have hv : c / VEC < vecPad := Nat.div_lt_of_lt_mul (by rw [Nat.mul_comm]; omega)
    have hj : c % VEC ∈ List.range VEC := List.mem_range.mpr (Nat.mod_lt _ (Nat.succ_pos 3))
    have hsplit := Nat.div_add_mod' c VEC
    refine ⟨w * vecPad + c / VEC, row_major_lt hw hv, ?_⟩
    obtain ⟨hrow, hcol⟩ := vec_div_mod (q := w) hv
    rw [hrow, hcol]
    split
    · refine List.mem_map.mpr ⟨c % VEC, hj, ?_⟩
      rw [Nat.add_assoc, hsplit]
    · refine List.mem_flatMap.mpr ⟨c % VEC, hj, ?_⟩
      rw [hsplit, if_pos hc, Nat.add_assoc, hsplit]
      exact List.mem_singleton_self _

/-- The table regime sums up. -/
theorem TableRegime.summed {sms : Nat} {m m' : Nat → R} (hn : 0 < a.numIndices)
    (h : TableRegime a sms m m') : Summed a m m' := by
  obtain ⟨fresh, scratch, haccum, hreduce⟩ := h
  generalize hblocks : max 1 (min (ceildiv (max 1 (maxGrid sms / 16) * 2)
    (ceildiv a.embeddingDim TABLE_COLS))
    (ceildiv a.numIndices (4 * TABLE_ROWG * TABLE_UNROLL))) = blocks at haccum hreduce
  have hblocksPos : 0 < blocks := by omega
  have hsize : 0 < ceildiv a.numIndices blocks :=
    Nat.pos_of_mul_pos_right (Nat.lt_of_lt_of_le hn (ceildiv_mul_ge hblocksPos))
  have hcover := ceildiv_mul_ge (n := a.numIndices) hsize
  generalize ceildiv a.numIndices blocks = size at haccum hreduce hcover
  generalize ceildiv a.numIndices size = chunks at haccum hreduce hcover
  have hpad : ceildiv a.embeddingDim VEC * VEC ≤
      ceildiv a.embeddingDim TABLE_COLS * TABLE_COLS := by
    unfold ceildiv VEC TABLE_COLS
    omega
  have hgrid : ∀ n, 0 < max 1 (min n (maxGrid sms)) := fun n => by omega
  have hvec : (decide (a.embeddingDim % VEC = 0) && decide (a.outAddr % 16 = 0)) = true →
      a.embeddingDim % VEC = 0 := by
    rw [Bool.and_eq_true, decide_eq_true_eq]
    exact fun h => h.1
  have hcell : ∀ w c, w < a.numWeights → c < a.embeddingDim →
      ∑ k ∈ Finset.range chunks, scratch
        ((k * a.numWeights + w) * (ceildiv a.embeddingDim VEC * VEC) + c) = gradSum a w c := by
    intro w c hw hc
    rw [gradSum_eq, ← Nat.min_eq_right hcover, ← sum_blockRows]
    refine Finset.sum_congr rfl fun k hk => ?_
    exact haccum.at hpad (ceildiv_mul_ge (Nat.succ_pos 3)) (Finset.mem_range.mp hk) hw hc
  constructor
  · intro w c hw hc
    rw [← hcell w c hw hc]
    refine hreduce.at ((mem_tableReduce (hgrid _) hvec).mpr ⟨w, c, hw, hc, rfl, rfl⟩) fun b hb => ?_
    obtain ⟨w', c', -, hc', haddr, rfl⟩ := (mem_tableReduce (hgrid _) hvec).mp hb
    obtain ⟨rfl, rfl⟩ := flat_inj hc hc' haddr
    rfl
  · intro p hp
    refine hreduce.off fun b hb => ?_
    obtain ⟨w, c, hw, hc, rfl, -⟩ := (mem_tableReduce (hgrid _) hvec).mp hb
    exact Nat.not_lt_of_le hp (row_major_lt hw hc)

end

end TorchMojoBackend.Kernels.EmbeddingBackward
