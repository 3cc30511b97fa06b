/-
  `Kernels.EmbeddingBackwardWrap`: when the regimes agree.

  Every regime leaves the sum of the rows that name a cell, whatever the alignment and
  the order of the additions, unless the histogram is taken and the 32-bit counter of a
  row wraps to one.  Such a row is stored once for each hit and keeps the last of them.
-/
import TorchMojoBackend.Kernels.EmbeddingBackwardTable

set_option autoImplicit false

namespace TorchMojoBackend.Kernels.EmbeddingBackward

open TorchMojoBackend.Foundation

universe u

section
variable {R : Type u} [AddCommMonoid R] {a : Args R} {apple : Bool} {sms : Nat} {m m' : Nat → R}

omit [AddCommMonoid R] in
/-- What the choice of a regime says of the arguments. -/
theorem regime_spec (a : Args R) (apple : Bool) : match regime a apple with
    | .none => a.numWeights * a.embeddingDim = 0
    | .ownership => a.numWeights ≤ OWN_MAX_ROWS
    | .table => 128 ≤ a.numIndices
    | .histogram =>
      0 < a.numIndices ∧ 0 < a.numWeights ∧ 0 < a.embeddingDim ∧ vecOk a = true
    | .plain => True := by
  unfold regime
  split_ifs with hnone hown htable hhist
  · exact Nat.le_zero.mp hnone
  · exact hown.2.1
  · exact htable.2.2.2
  · have hpos : 0 < a.numWeights * a.embeddingDim := Nat.lt_of_not_le hnone
    exact ⟨hhist.1, Nat.pos_of_mul_pos_right hpos, Nat.pos_of_mul_pos_left hpos, hhist.2.1⟩
  · trivial

omit [AddCommMonoid R] in
theorem regime_histogram (h : regime a apple = .histogram) :
    0 < a.numIndices ∧ 0 < a.numWeights ∧ 0 < a.embeddingDim ∧ vecOk a = true := by
  have hspec := regime_spec a apple
  rwa [h] at hspec

/-- Every regime sums up, the histogram if no counter wraps to one. -/
theorem EmbeddingDenseBackward.summed (ha : a.InRange)
    (hok : ¬ (regime a apple = .histogram ∧ Wraps a))
    (h : EmbeddingDenseBackward a apple sms m m') : Summed a m m' := by
  have hspec := regime_spec a apple
  unfold EmbeddingDenseBackward at h
  cases hreg : regime a apple with
  | none =>
      rw [hreg] at h hspec
      refine ⟨fun w c hw hc => ?_, fun p _ => congrFun h p⟩
      have hlt := row_major_lt hw hc
      rw [hspec] at hlt
      exact absurd hlt (Nat.not_lt_zero _)
  | ownership =>
      rw [hreg] at h hspec
      dsimp only at h
      split at h
      · rename_i hvec
        exact owner_summed ha hspec (vecOk_dim hvec) h
      · exact owner_summed ha hspec (Nat.mul_one _).symm h
  | table =>
      rw [hreg] at h hspec
      exact TableRegime.summed (Nat.lt_of_lt_of_le (Nat.succ_pos 127) hspec) h
  | histogram =>
      rw [hreg] at h hspec
      obtain ⟨hn, hnw, -, hvec⟩ := hspec
      exact HistRegime.summed ha hvec hn hnw (fun hwrap => hok ⟨hreg, hwrap⟩) h
  | plain =>
      rw [hreg] at h
      exact PlainRegime.summed ha h

/-! ## Runs -/

theorem TableAccum.exists (a : Args R) (colChunks blocksY dimPad size : Nat) (scratch : Nat → R) :
    ∃ scratch', TableAccum a colChunks blocksY dimPad size scratch scratch' :=
  ⟨_, fun bx rowBlock => updateAll (tableAdds a size bx rowBlock) (storeAll ((gridItems
    (TABLE_COLS * TABLE_ROWG) (a.numWeights * TABLE_COLS)).map fun i => (i, 0)) scratch),
    fun _ _ _ _ => ⟨scratch, _, Stores.inOrder _ _, Updates.inOrder _ _⟩, Stores.inOrder _ _⟩

/-- Every call has a run. -/
theorem EmbeddingDenseBackward.exists (a : Args R) (apple : Bool) (sms : Nat) (m : Nat → R) :
    ∃ m', EmbeddingDenseBackward a apple sms m m' := by
  unfold EmbeddingDenseBackward
  cases regime a apple with
  | none => exact ⟨m, rfl⟩
  | ownership => exact ⟨_, Stores.inOrder _ _⟩
  | table =>
      obtain ⟨scratch, haccum⟩ := TableAccum.exists a _ _ _ _ m
      exact ⟨_, m, scratch, haccum, Stores.inOrder _ _⟩
  | histogram =>
      exact ⟨_, fun _ => 0, _, _, _, Stores.inOrder _ _, Updates.inOrder _ _,
        Stores.inOrder _ _, Updates.inOrder _ _⟩
  | plain =>
      refine ⟨if a.numIndices = 0 then storeAll (zeroStores a sms) m
        else updateAll (scatterUpdates a sms) (storeAll (zeroStores a sms) m),
        _, Stores.inOrder _ _, ?_⟩
      split
      · rfl
      · exact Updates.inOrder _ _

/-- A row whose counter wraps to one may keep any of its hits. -/
theorem EmbeddingDenseBackward.exists_wrapped (hreg : regime a apple = .histogram) {w c i : Nat}
    (hw : w < a.numWeights) (hc : c < a.embeddingDim)
    (hhits : (a.named w).card % 2 ^ 32 = 1) (hi : i ∈ a.named w) (sms : Nat) (m : Nat → R) :
    ∃ m', EmbeddingDenseBackward a apple sms m m' ∧
      m' (w * a.embeddingDim + c) = a.gradOutput (i * a.embeddingDim + c) := by
  obtain ⟨hn, -, -, hvec⟩ := regime_histogram hreg
  have hthreads : ∀ n, 0 < flatThreads sms n := fun n =>
    Nat.lt_of_lt_of_le (Nat.succ_pos 3) (flatThreads_pos _ _)
  have hgrid : 0 < min a.numIndices MAX_GRID_Y := by
    unfold MAX_GRID_Y
    omega
  have hzero := Stores.inOrder (countZero (flatThreads sms a.numWeights) a.numWeights)
    (fun _ => (0 : BitVec 32))
  have hcount := Updates.inOrder (count a (flatThreads sms a.numIndices))
    (storeAll (countZero (flatThreads sms a.numWeights) a.numWeights) fun _ => (0 : BitVec 32))
  have hone := (counts_eq (hthreads _) (hthreads _) hzero hcount hw).trans
    (count_eq_one.mpr hhits)
  generalize hcounts : updateAll (count a (flatThreads sms a.numIndices)) _ = counts at hcount hone
  have hmem := (@scatterHistVec4_perm R a counts _ hgrid
    (vecOk_dim hvec)).mem_iff.mpr ((mem_rowUpdates hc).mpr ⟨i, hi, rfl⟩)
  rw [if_pos hone] at hmem
  obtain ⟨m', hscatter, hlast⟩ := Updates.exists_last hmem (storeAll (zeroUntouched a counts
    (ceildiv (a.embeddingDim / VEC) BLOCK) (min a.numWeights MAX_GRID_Y)
    (a.embeddingDim / VEC)) m)
  refine ⟨m', ?_, hlast⟩
  unfold EmbeddingDenseBackward
  rw [hreg]
  exact ⟨_, _, counts, _, hzero, hcount, Stores.inOrder _ _, hscatter⟩

/-- A gradient that is zero but for one element. -/
def single (r : R) (at' p : Nat) : R := if p = at' then r else 0

theorem gradSum_single {w i : Nat} {r : R} (hi : i ∈ a.named w) (hdim : 0 < a.embeddingDim) :
    gradSum { a with gradOutput := single r (i * a.embeddingDim) } w 0 = r := by
  refine (Finset.sum_eq_single_of_mem i hi fun i' _ hne => ?_).trans (if_pos rfl)
  exact if_neg fun heq => hne (Nat.eq_of_mul_eq_mul_right hdim heq)

/-- A row whose counter wraps to one and that is hit more than once may miss its sum. -/
theorem EmbeddingDenseBackward.exists_wrong {w i i' : Nat} {r : R} (hr : r ≠ 0)
    (hreg : regime a apple = .histogram) (hw : w < a.numWeights)
    (hhits : (a.named w).card % 2 ^ 32 = 1) (hi : i ∈ a.named w) (hi' : i' ∈ a.named w)
    (hne : i' ≠ i) (sms : Nat) (m : Nat → R) :
    ∃ m', EmbeddingDenseBackward { a with gradOutput := single r (i * a.embeddingDim) }
        apple sms m m' ∧
      ¬ Summed { a with gradOutput := single r (i * a.embeddingDim) } m m' := by
  obtain ⟨-, -, hdim, -⟩ := regime_histogram hreg
  obtain ⟨m', hrun, hlast⟩ := EmbeddingDenseBackward.exists_wrapped
    (a := { a with gradOutput := single r (i * a.embeddingDim) }) hreg hw hdim hhits hi' sms m
  refine ⟨m', hrun, fun hsum => hr ?_⟩
  have hzero : single r (i * a.embeddingDim) (i' * a.embeddingDim) = 0 :=
    if_neg fun heq => hne (Nat.eq_of_mul_eq_mul_right hdim heq)
  exact (gradSum_single hi hdim).symm.trans ((hsum.1 w 0 hw hdim).symm.trans (hlast.trans hzero))

/-- The gradient is the sum in every run, for every gradient of the output, exactly if no
row's counter wraps to one in the histogram regime. -/
theorem embedding_dense_backward_sums [Nontrivial R] (a : Args R) (apple : Bool) (sms : Nat)
    (ha : a.InRange) :
    (∀ (gradOutput : Nat → R) (m : Nat → R),
      (∃ m', EmbeddingDenseBackward { a with gradOutput } apple sms m m') ∧
      ∀ m', EmbeddingDenseBackward { a with gradOutput } apple sms m m' →
        Summed { a with gradOutput } m m') ↔
      ¬ (regime a apple = .histogram ∧ Wraps a) := by
  constructor
  · rintro hall ⟨hreg, w, hw, hmany, hhits⟩
    have hcard : 1 < (a.named w).card := by
      have hne : (a.named w).card ≠ 0 := fun h => by
        rw [h] at hhits
        exact absurd hhits (by decide)
      omega
    obtain ⟨i, hi, i', hi', hne⟩ := Finset.one_lt_card.mp hcard
    obtain ⟨r, hr⟩ := exists_ne (0 : R)
    obtain ⟨m', hrun, hwrong⟩ :=
      EmbeddingDenseBackward.exists_wrong hr hreg hw hhits hi hi' hne.symm sms fun _ => 0
    exact hwrong ((hall _ _).2 m' hrun)
  · intro hok gradOutput m
    exact ⟨EmbeddingDenseBackward.exists _ apple sms m, fun m' h =>
      EmbeddingDenseBackward.summed (a := { a with gradOutput }) ha hok h⟩

end

/-- Two rows that name one row of a table of three. -/
def twoHits : Args Int where
  gradOutput := fun p => p
  indices := fun _ => 1
  numIndices := 2
  embeddingDim := 2
  numWeights := 3
  paddingIdx := 0
  gradAddr := 0
  outAddr := 4

theorem embedding_dense_backward_sums_twoHits : regime twoHits false = .plain ∧
    ∀ gradOutput m m' : Nat → Int, EmbeddingDenseBackward { twoHits with gradOutput } false 1 m m' →
      Summed { twoHits with gradOutput } m m' := by
  have hplain : regime twoHits false = .plain := by decide
  have hrange : twoHits.InRange := fun _ _ => Nat.succ_lt_succ (Nat.succ_pos 1)
  have hsums := (embedding_dense_backward_sums twoHits false 1 hrange).mpr
    fun hwrap => absurd (hplain.symm.trans hwrap.1) (by decide)
  exact ⟨hplain, fun gradOutput m m' h => (hsums gradOutput m).2 m' h⟩

/-- Rows that all name the first row of a large table. -/
def manyHits : Args Int where
  gradOutput := fun p => if p = 0 then 1 else 0
  indices := fun _ => 0
  numIndices := 2 ^ 32 + 1
  embeddingDim := 4
  numWeights := 2 ^ 20
  paddingIdx := -1
  gradAddr := 0
  outAddr := 0

theorem manyHits_named : manyHits.named 0 = Finset.range (2 ^ 32 + 1) :=
  Finset.filter_true_of_mem fun _ _ => ⟨rfl, by decide⟩

/-- The counter wraps to one and the first row keeps a zero. -/
theorem embedding_dense_backward_manyHits : manyHits.InRange ∧
    ∃ m', EmbeddingDenseBackward manyHits false 132 (fun _ => 0) m' ∧ m' 0 = 0 ∧
      gradSum manyHits 0 0 = 1 ∧ ¬ Summed manyHits (fun _ => 0) m' := by
  have hfirst : 0 ∈ manyHits.named 0 := by
    rw [manyHits_named]
    exact Finset.mem_range.mpr (Nat.succ_pos _)
  have hsecond : 1 ∈ manyHits.named 0 := by
    rw [manyHits_named]
    exact Finset.mem_range.mpr (Nat.lt_add_of_pos_left (Nat.pow_pos (Nat.succ_pos 1)))
  have hhits : (manyHits.named 0).card % 2 ^ 32 = 1 := by
    rw [manyHits_named, Finset.card_range]
    rfl
  have hrows : 0 < manyHits.numWeights := Nat.two_pow_pos 20
  have hreg : regime manyHits false = .histogram := by
    have hlarge : ¬ 2 ^ 20 ≤ TABLE_MAX_ROWS := by decide
    have hout : 2 ^ 20 * 4 ≥ HIST_MIN_OUT := by decide
    unfold regime
    rw [if_neg (by decide), if_neg fun h => Bool.false_ne_true h.1,
      if_neg fun h => hlarge h.2.1, if_pos ⟨Nat.succ_pos _, rfl, hout⟩]
  obtain ⟨m', hrun, hlast⟩ := EmbeddingDenseBackward.exists_wrapped hreg (w := 0) (c := 0)
    hrows (Nat.succ_pos 3) hhits hsecond 132 fun _ => 0
  have hsum : gradSum manyHits 0 0 = 1 := by
    refine (Finset.sum_eq_single_of_mem 0 hfirst fun i _ hne => ?_).trans rfl
    exact if_neg fun heq => hne ((Nat.mul_eq_zero.mp heq).resolve_right (by decide))
  have hzero : m' 0 = 0 := hlast
  refine ⟨fun _ _ => hrows, m', hrun, hzero, hsum, fun h => ?_⟩
  have hone : m' 0 = gradSum manyHits 0 0 := h.1 0 0 hrows (Nat.succ_pos 3)
  rw [hzero, hsum] at hone
  exact absurd hone (by decide)

end TorchMojoBackend.Kernels.EmbeddingBackward
