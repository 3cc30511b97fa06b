/-
  `Kernels.BatchNormSyncExact`: the statistics do not depend on how the data is split.

  A thread's state, a slot of the tree and the state of the merge over replicas describe
  the values that went into them, however these were dealt out.  The backward reductions
  add up what the threads hold, through shared memory or through shuffles.
-/
import Mathlib.Analysis.Real.Sqrt
import TorchMojoBackend.Foundation.ThreadSums
import TorchMojoBackend.Kernels.BatchNormSync

set_option autoImplicit false

namespace TorchMojoBackend.Kernels.BatchNormSync

open TorchMojoBackend.Foundation

universe u

section
variable {K : Type u} [Field K]

/-- A thread's state as moments. -/
def Welford.moments (s : Welford K) : Moments K := ⟨s.avg, s.m2, s.n⟩

/-- A state of a number of values. -/
structure Welford.Describes (s : Welford K) (l : Multiset K) : Prop where
  n_eq : s.n = l.card
  moments : s.moments.Describes l

theorem Welford.describes_zero : Welford.Describes (⟨0, 0, 0⟩ : Welford K) 0 := by
  refine ⟨rfl, ?_⟩
  have hzero : (⟨0, 0, 0⟩ : Welford K).moments = Moments.zero := by
    unfold Welford.moments Moments.zero
    rw [Int.cast_zero]
  rw [hzero]
  exact Moments.describes_zero

variable [CharZero K]

theorem Welford.Describes.pass {s : Welford K} {l : Multiset K} (h : s.Describes l) (v : K) :
    (s.pass v).Describes (v ::ₘ l) := by
  have hn : ((s.n + 1 : Int) : K) ≠ 0 := by
    rw [h.n_eq]
    exact_mod_cast Nat.succ_ne_zero l.card
  refine ⟨?_, h.moments.add_value v ?_ ?_ ?_⟩
  · rw [Multiset.card_cons, Nat.cast_succ, ← h.n_eq]
    rfl
  · change ((s.n + 1 : Int) : K) = (s.n : K) + 1
    push_cast
    rfl
  · change ((s.n + 1 : Int) : K) * (s.avg + (v - s.avg) / ((s.n + 1 : Int) : K) - s.avg) = v - s.avg
    rw [add_sub_cancel_left, mul_div_cancel₀ _ hn]
  · rfl

theorem Welford.Describes.merge {a b : Welford K} {A B : Multiset K} (ha : a.Describes A)
    (hb : b.Describes B) : (a.merge b).Describes (A + B) := by
  have hcount : ((a.n + b.n : Int) : K) = (a.n : K) + (b.n : K) := Int.cast_add _ _
  have hfactor : (a.n + b.n = 0 ∧ a.n = 0 ∧ b.n = 0) ∨
      ((a.n + b.n : Int) : K) ≠ 0 ∧ max 1 (a.n + b.n) = a.n + b.n := by
    have hA := ha.n_eq
    have hB := hb.n_eq
    by_cases hzero : a.n + b.n = 0
    · exact .inl ⟨hzero, by omega, by omega⟩
    · exact .inr ⟨Int.cast_ne_zero.mpr hzero, by omega⟩
  refine ⟨?_, ha.moments.merge hb.moments ?_ ?_ ?_ ?_⟩
  · rw [Multiset.card_add, Nat.cast_add, ← ha.n_eq, ← hb.n_eq]
    rfl
  · exact hcount
  · change ((a.n + b.n : Int) : K) * (((a.n : K) * a.avg + (b.n : K) * b.avg) *
      (1 / ((max 1 (a.n + b.n) : Int) : K))) = (a.n : K) * a.avg + (b.n : K) * b.avg
    obtain ⟨hzero, han, hbn⟩ | ⟨hne, hmax⟩ := hfactor
    · rw [hzero, han, hbn, Int.cast_zero, zero_mul, zero_mul, zero_mul, add_zero]
    · rw [hmax, mul_one_div, mul_div_cancel₀ _ hne]
  · change ((a.n + b.n : Int) : K) * (a.m2 + b.m2 + (a.avg - b.avg) * (a.avg - b.avg) * (a.n : K) *
        (b.n : K) * (1 / ((max 1 (a.n + b.n) : Int) : K))) =
      ((a.n + b.n : Int) : K) * (a.m2 + b.m2) + (a.avg - b.avg) ^ 2 * (a.n : K) * (b.n : K)
    obtain ⟨hzero, han, hbn⟩ | ⟨hne, hmax⟩ := hfactor
    · rw [hzero, han, hbn, Int.cast_zero]
      ring
    · rw [hmax]
      field_simp
  · intro hzero
    change a.m2 + b.m2 + (a.avg - b.avg) * (a.avg - b.avg) * (a.n : K) * (b.n : K) *
      (1 / ((max 1 (a.n + b.n) : Int) : K)) = 0
    obtain ⟨-, han, hbn⟩ | ⟨hne, -⟩ := hfactor
    · have hA : A = 0 := (ha.moments.count_eq_zero_iff).mp (by rw [Welford.moments, han, Int.cast_zero])
      have hB : B = 0 := (hb.moments.count_eq_zero_iff).mp (by rw [Welford.moments, hbn, Int.cast_zero])
      have ha2 := (hA ▸ ha.moments).m2_of_empty.2
      have hb2 := (hB ▸ hb.moments).m2_of_empty.2
      change a.m2 = 0 at ha2
      change b.m2 = 0 at hb2
      rw [ha2, hb2, han, Int.cast_zero]
      ring
    · exact absurd hzero hne

/-- A thread's pass, from a state of some values. -/
theorem Welford.Describes.foldl {s : Welford K} {l : Multiset K} (h : s.Describes l)
    (value : Nat → K) (js : List Nat) :
    (js.foldl (fun s j => s.pass (value j)) s).Describes (l + (js.map value : Multiset K)) := by
  induction js generalizing s l with
  | nil => rwa [List.map_nil, Multiset.coe_nil, add_zero]
  | cons j js ih =>
      rw [List.foldl_cons, List.map_cons, ← Multiset.cons_coe, Multiset.add_cons, ← Multiset.cons_add]
      exact ih (h.pass (value j))

/-- The values of a channel. -/
def channelValues (input : Nat → K) (cl : Bool) (channels hxw c count : Nat) : Multiset K :=
  (Multiset.range count).map (channelValue input cl channels hxw c)

/-- However the elements are dealt out to the threads, the tree describes the channel. -/
theorem collect_describes {elements : Nat → List Nat} {count : Nat}
    (helements : ((List.range syncThreads).flatMap elements).Perm (List.range count))
    (input : Nat → K) (cl : Bool) (channels hxw c : Nat) :
    (collect elements input cl channels hxw c).Describes
      (channelValues input cl channels hxw c count) := by
  have hthreads : ∀ tid, Welford.Describes ((elements tid).foldl (fun s j =>
      Welford.pass s (channelValue input cl channels hxw c j)) ⟨0, 0, 0⟩)
        ((elements tid).map (channelValue input cl channels hxw c) : Multiset K) := fun tid => by
    have hfold := Welford.describes_zero.foldl (channelValue input cl channels hxw c) (elements tid)
    rwa [zero_add] at hfold
  have hvalues : channelValues input cl channels hxw c count =
      ∑ tid ∈ Finset.range (2 ^ blockStages),
        ((elements tid).map (channelValue input cl channels hxw c) : Multiset K) := by
    have hcoe : Multiset.range count = (List.range count : Multiset Nat) := rfl
    unfold channelValues
    rw [hcoe, Multiset.map_coe, Multiset.coe_eq_coe.mpr (helements.symm.map _)]
    change _ = ∑ tid ∈ Finset.range syncThreads, _
    generalize syncThreads = n
    induction n with
    | zero => rfl
    | succ n ih => rw [List.range_succ, List.flatMap_append, List.map_append, ← Multiset.coe_add, ih,
        Finset.sum_range_succ, List.flatMap_singleton]
  rw [hvalues]
  exact tree_merge Welford.Describes.merge fun tid _ => hthreads tid

/-- The kernel's own way to deal them out. -/
theorem threadElements_perm (count : Nat) :
    ((List.range syncThreads).flatMap (threadElements count)).Perm (List.range count) :=
  gridItems_perm count (by decide)

/-! ## Replicas -/

/-- The merged state as moments. -/
def Merged.moments (s : Merged K) : Moments K := ⟨s.avg, s.varN, s.n⟩

/-- A merged state of the data of some replicas. -/
structure Merged.Describes (s : Merged K) (l : Multiset K) : Prop where
  n_eq : s.n = l.card
  moments : s.moments.Describes l

omit [CharZero K] in
theorem Merged.describes_zero : Merged.Describes (⟨0, 0, 0⟩ : Merged K) 0 := by
  refine ⟨rfl, ?_⟩
  have hzero : (⟨0, 0, 0⟩ : Merged K).moments = Moments.zero := by
    unfold Merged.moments Moments.zero
    rw [Int.cast_zero]
  rw [hzero]
  exact Moments.describes_zero

section
variable [LinearOrder K] [IsStrictOrderedRing K] [FloorRing K]

omit [CharZero K] in
theorem truncate_natCast (n : Nat) : truncate (n : K) = n := by
  unfold truncate
  rw [if_pos (Nat.cast_nonneg n), Int.floor_natCast]

/-- The row of a replica: its exact mean, an inverse standard deviation of its variance and
its count. -/
structure ExactRow (eps mean invstd count : K) (data : Multiset K) : Prop where
  nonempty : data ≠ 0
  mean_eq : mean = Moments.meanOf data
  invstd_eq : 1 / invstd * (1 / invstd) = Moments.deviations data / data.card + eps
  count_eq : count = data.card

theorem Merged.Describes.step {s : Merged K} {l data : Multiset K} (h : s.Describes l)
    {eps mean invstd count : K} (hrow : ExactRow eps mean invstd count data) :
    (gatherStep eps s mean invstd count).Describes (l + data) := by
  obtain ⟨hne, rfl, hinv, rfl⟩ := hrow
  have hcard := Moments.card_ne_zero (K := K) hne
  have hv : (1 / invstd * (1 / invstd) - eps) * (data.card : K) = Moments.deviations data := by
    rw [hinv, add_sub_cancel_right, div_mul_cancel₀ _ hcard]
  have hn : truncate ((s.n : K) + data.card) = s.n + data.card := by
    rw [h.n_eq, Int.cast_natCast, ← Nat.cast_add, truncate_natCast, Nat.cast_add]
  have hcount : ((s.n + data.card : Int) : K) = (s.n : K) + data.card := by
    rw [Int.cast_add, Int.cast_natCast]
  have htotal : (s.n : K) + data.card ≠ 0 := by
    rw [h.n_eq, Int.cast_natCast, ← Nat.cast_add]
    exact Nat.cast_ne_zero.mpr fun hzero => hne (Multiset.card_eq_zero.mp (by omega))
  refine ⟨?_, h.moments.merge (Moments.describes_exact hne) ?_ ?_ ?_ ?_⟩
  · rw [Multiset.card_add, Nat.cast_add, ← h.n_eq]
    exact hn
  · change ((truncate ((s.n : K) + data.card) : Int) : K) = (s.n : K) + data.card
    rw [hn, hcount]
  · change ((truncate ((s.n : K) + data.card) : Int) : K) *
      ((s.n : K) * (1 / ((s.n : K) + data.card)) * s.avg +
        (data.card : K) * (1 / ((s.n : K) + data.card)) * Moments.meanOf data) =
      (s.n : K) * s.avg + (data.card : K) * Moments.meanOf data
    rw [hn, hcount]
    field_simp
  · change ((truncate ((s.n : K) + data.card) : Int) : K) *
      (s.varN + ((1 / invstd * (1 / invstd) - eps) * (data.card : K) +
        (s.avg - Moments.meanOf data) * (s.avg - Moments.meanOf data) * (s.n : K) * data.card *
          (1 / ((s.n : K) + data.card)))) =
      ((truncate ((s.n : K) + data.card) : Int) : K) * (s.varN + Moments.deviations data) +
        (s.avg - Moments.meanOf data) ^ 2 * (s.n : K) * data.card
    rw [hn, hcount, hv]
    field_simp
    ring
  · intro hzero
    change ((truncate ((s.n : K) + data.card) : Int) : K) = 0 at hzero
    rw [hn, hcount] at hzero
    exact absurd hzero htotal

/-- The loop over the replicas. -/
theorem Merged.Describes.foldl {eps : K} {mean invstd counts : Nat → K} {data : Nat → Multiset K}
    (js : List Nat) (hrows : ∀ j ∈ js, ExactRow eps (mean j) (invstd j) (counts j) (data j)) :
    ∀ {s : Merged K} {l : Multiset K}, s.Describes l →
      (js.foldl (fun s j => gatherStep eps s (mean j) (invstd j) (counts j)) s).Describes
        (l + (js.map data).sum) := by
  induction js with
  | nil =>
      intro s l h
      rwa [List.map_nil, List.sum_nil, add_zero]
  | cons j js ih =>
      intro s l h
      rw [List.foldl_cons, List.map_cons, List.sum_cons, ← add_assoc]
      exact ih (fun j hj => hrows j (List.mem_cons_of_mem _ hj))
        (h.step (hrows j List.mem_cons_self))

/-- What `bn_gather` leaves is a function of all the data together. -/
theorem bnGather_eq (sqrt : K → K) {mean invstd counts : Nat → K} {world features : Nat}
    {eps momentum : K} {runMean runVar : Option K} {i : Nat} {data : Nat → Multiset K}
    (hworld : 0 < world)
    (hrows : ∀ j < world, ExactRow eps (mean (j * features + i)) (invstd (j * features + i))
      (counts j) (data j)) :
    bnGather sqrt mean invstd counts world features eps momentum runMean runVar i =
      let all := ((List.range world).map data).sum
      { saveMean := Moments.meanOf all
        saveInvstd := 1 / sqrt (Moments.deviations all / all.card + eps)
        runMean := runMean.map fun r => (1 - momentum) * r + momentum * Moments.meanOf all
        runVar := runVar.map fun r =>
          (1 - momentum) * r + momentum * (Moments.deviations all / ((all.card : K) - 1)) } := by
  have hfold := Merged.Describes.foldl (List.range world)
    (fun j hj => hrows j (List.mem_range.mp hj)) Merged.describes_zero
  rw [zero_add] at hfold
  have hne : ((List.range world).map data).sum ≠ 0 := by
    intro hzero
    have hmem := List.mem_map_of_mem (f := data) (List.mem_range.mpr hworld)
    have hle : data 0 ≤ ((List.range world).map data).sum := List.single_le_sum (by simp) _ hmem
    rw [hzero] at hle
    exact (hrows 0 hworld).nonempty (Multiset.le_zero.mp hle)
  have hmean := hfold.moments.mean_of hne
  have hm2 := hfold.moments.m2_of
  have hn := hfold.n_eq
  unfold bnGather
  dsimp only [Merged.moments] at hmean hm2 ⊢
  rw [hmean, hm2, hn, Int.cast_sub, Int.cast_natCast, Int.cast_one]

end

end

/-! ## The backward reductions -/

section
variable {K : Type u} [Field K]

/-- The elements of a channel, row by row. -/
theorem sum_rows (F : Nat → Nat → K) (batch hxw : Nat) :
    ∑ j ∈ Finset.range (batch * hxw), F (j / hxw) (j - j / hxw * hxw) =
      ∑ n ∈ Finset.range batch, ∑ s ∈ Finset.range hxw, F n s := by
  rw [sum_runs]
  refine Finset.sum_congr rfl fun n _ => Finset.sum_congr rfl fun s hs => ?_
  rw [row_div (Finset.mem_range.mp hs), Nat.add_sub_cancel_left]

namespace ReduceArgs

variable (a : ReduceArgs K) (c : Nat)

/-- The sum of `dy` of the channel. -/
def sumDy : K := ∑ n ∈ Finset.range a.batch, ∑ s ∈ Finset.range a.hxw, a.grad c n s

/-- The sum of `dy * (x - mean)` of the channel. -/
def sumDyXmu : K :=
  ∑ n ∈ Finset.range a.batch, ∑ s ∈ Finset.range a.hxw, a.grad c n s * a.centered c n s

theorem threadSums_eq (tid : Nat) : a.threadSums id c tid =
    (((strided (a.batch * a.hxw) syncThreads (a.batch * a.hxw) tid).map fun j =>
        a.grad c (j / a.hxw) (j - j / a.hxw * a.hxw)).sum,
      ((strided (a.batch * a.hxw) syncThreads (a.batch * a.hxw) tid).map fun j =>
        a.grad c (j / a.hxw) (j - j / a.hxw * a.hxw) *
          a.centered c (j / a.hxw) (j - j / a.hxw * a.hxw)).sum) := by
  unfold threadSums
  simp only [id_eq, ite_self]
  rw [foldl_pair (fun j => a.grad c (j / a.hxw) (j - j / a.hxw * a.hxw)), zero_add, zero_add]

/-- A tree that adds. -/
theorem tree_sum (lanes : Nat → K) : stages (treeHalf (· + ·)) blockStages lanes 0 =
    ∑ tid ∈ Finset.range syncThreads, lanes tid :=
  @tree_merge K K _ (fun x y => x = y) _ (fun ha hb => by rw [ha, hb]) _ _ _ fun _ _ => rfl

/-- The reduction through shared memory. -/
theorem backwardReduce_eq : a.backwardReduce id c =
    storeReduced a.flags (a.invstd c) (a.sumDy c) (a.sumDyXmu c) := by
  unfold backwardReduce
  simp only [tree_sum, threadSums_eq]
  rw [sum_threads _ _ (by decide), sum_threads _ _ (by decide), sum_rows (a.grad c),
    sum_rows fun n s => a.grad c n s * a.centered c n s]
  rfl

/-! ### Shuffles -/

/-- The sums of CUDA's threads. -/
theorem cudaThreadSums_eq {bx by_ tid : Nat} (htid : tid < bx * by_) :
    a.cudaThreadSums id c bx by_ tid =
      (((strided a.batch by_ a.batch (tid / bx)).map fun n =>
          ((strided a.hxw bx a.hxw (tid % bx)).map fun x => a.grad c n x).sum).sum,
        ((strided a.batch by_ a.batch (tid / bx)).map fun n =>
          ((strided a.hxw bx a.hxw (tid % bx)).map fun x =>
            a.grad c n x * a.centered c n x).sum).sum) := by
  unfold cudaThreadSums
  rw [if_pos htid]
  simp only [id_eq]
  rw [foldl_pair (fun e : Nat × Nat => a.grad c e.1 e.2), zero_add, zero_add, sum_map_flatMap,
    sum_map_flatMap]
  simp only [List.map_map, Function.comp_def]

/-- All of CUDA's threads together. -/
theorem sum_cudaThreads (F : Nat → Nat → K) {bx by_ : Nat} (hbx : 0 < bx) (hby : 0 < by_)
    (batch hxw : Nat) :
    ∑ tid ∈ Finset.range (by_ * bx), ((strided batch by_ batch (tid / bx)).map fun n =>
      ((strided hxw bx hxw (tid % bx)).map fun x => F n x).sum).sum =
    ∑ n ∈ Finset.range batch, ∑ x ∈ Finset.range hxw, F n x := by
  have hrows := sum_rows (fun ty tx => ((strided batch by_ batch ty).map fun n =>
      ((strided hxw bx hxw tx).map fun x => F n x).sum).sum) by_ bx
  have hmod : ∀ tid : Nat, tid - tid / bx * bx = tid % bx := fun tid => by
    have := Nat.div_add_mod' tid bx
    omega
  simp only [hmod] at hrows
  rw [hrows]
  simp only [sum_map_comm, sum_threads _ _ hbx]
  exact sum_threads _ _ hby

/-- A warp's lanes, shuffled into its first. -/
theorem shuffle_sum (lanes : Nat → K × K) (w : Nat) :
    stages (shuffleDown (float2Add id) shuffleSource) warpStages lanes (w * cudaWarp) =
      ∑ l ∈ Finset.range cudaWarp, lanes (w * cudaWarp + l) := by
  refine @shuffle_merge _ _ _ (fun x y => x = y) _ (fun ha hb => by rw [ha, hb]; rfl) _ _ _
    (fun m hm l hl => ?_) _ (fun l => lanes (w * cudaWarp + l)) fun _ _ => rfl
  have hpow : 2 ^ m + 2 ^ m ≤ cudaWarp := by
    rw [← Nat.mul_two, ← Nat.pow_succ]
    exact Nat.pow_le_pow_right (by decide) hm
  unfold shuffleSource
  rw [Nat.mul_add_mod_of_lt (by omega), if_pos (by omega)]

/-- The reduction through shuffles, of any number of warps that fits. -/
theorem backwardReduceCudaOrder_eq {bx by_ warps : Nat} (hbx : 0 < bx) (hby : 0 < by_)
    (hactive : bx * by_ = warps * cudaWarp) (hwarps : warps ≤ cudaWarp) :
    a.backwardReduceCudaOrder id c bx by_ =
      storeReduced a.flags (a.invstd c) (a.sumDy c) (a.sumDyXmu c) := by
  have hdiv : bx * by_ / cudaWarp = warps := by
    rw [hactive, Nat.mul_div_cancel _ (by decide)]
  have hrange : (Finset.range cudaWarp).filter (· < warps) = Finset.range warps := by
    ext w
    rw [Finset.mem_filter, Finset.mem_range, Finset.mem_range]
    omega
  -- the second shuffles, over the warps that are active
  have hsums := shuffle_sum (K := K) (fun tid =>
    if tid < warps then stages (shuffleDown (float2Add id) shuffleSource) warpStages
      (a.cudaThreadSums id c bx by_) (tid % cudaWarp * cudaWarp) else (0, 0)) 0
  rw [Nat.zero_mul, ← Prod.zero_eq_mk] at hsums
  have hwarp : ∀ w ∈ Finset.range warps, stages (shuffleDown (float2Add id) shuffleSource)
      warpStages (a.cudaThreadSums id c bx by_) (w % cudaWarp * cudaWarp) =
        ∑ l ∈ Finset.range cudaWarp, a.cudaThreadSums id c bx by_ (w * cudaWarp + l) := by
    intro w hw
    have hlt := Finset.mem_range.mp hw
    rw [Nat.mod_eq_of_lt (by omega), shuffle_sum]
  simp only [Nat.zero_add] at hsums
  rw [← Finset.sum_filter, hrange, Finset.sum_congr rfl hwarp, ← sum_runs, ← hactive] at hsums
  have hthreads : ∑ tid ∈ Finset.range (bx * by_), a.cudaThreadSums id c bx by_ tid =
      (a.sumDy c, a.sumDyXmu c) := by
    rw [Finset.sum_congr rfl fun tid htid => cudaThreadSums_eq a c (Finset.mem_range.mp htid),
      Nat.mul_comm bx]
    refine Prod.ext ?_ ?_
    · rw [Prod.fst_sum]
      exact sum_cudaThreads (a.grad c) hbx hby a.batch a.hxw
    · rw [Prod.snd_sum]
      exact sum_cudaThreads (fun n s => a.grad c n s * a.centered c n s) hbx hby a.batch a.hxw
  unfold backwardReduceCudaOrder
  dsimp only
  rw [hdiv, ← Prod.zero_eq_mk, hsums, hthreads]

end ReduceArgs

/-! ### Geometry -/

theorem lastPow2_eq (n fuel : Nat) {p : Nat} (hp : ∃ i, p = 2 ^ i) :
    ∃ i, lastPow2 n fuel p = 2 ^ i := by
  induction fuel generalizing p with
  | zero => exact hp
  | succ fuel ih =>
      rw [lastPow2]
      split
      · obtain ⟨i, rfl⟩ := hp
        exact ih ⟨i + 1, (Nat.pow_succ 2 i).symm⟩
      · exact hp

theorem getNumThreads_mem (n : Nat) : getNumThreads n ∈ [32, 64, 128, 256, 512] := by
  unfold getNumThreads cudaMaxBlock
  repeat' split
  all_goals decide

/-- CUDA's geometry is a number of whole warps. -/
theorem geometry_warps {by_ bx i : Nat} (hby : by_ = min (2 ^ i) (cudaMaxBlock / cudaWarp))
    {t : Nat} (ht : t ∈ [32, 64, 128, 256, 512])
    (hbx : bx = min (max t cudaWarp) (cudaMaxBlock / by_)) :
    0 < bx ∧ 0 < by_ ∧ ∃ warps ≤ cudaWarp, bx * by_ = warps * cudaWarp := by
  have hpow : by_ ∈ [1, 2, 4, 8, 16] := by
    rw [hby]
    by_cases hi : i < 4
    · have hsmall : ∀ i < 4, min (2 ^ i) (cudaMaxBlock / cudaWarp) ∈ [1, 2, 4, 8, 16] := by decide
      exact hsmall i hi
    · have hblock : cudaMaxBlock / cudaWarp = 2 ^ 4 := rfl
      rw [hblock, Nat.min_eq_right (Nat.pow_le_pow_right (by decide) (by omega))]
      decide
  have hall : ∀ y ∈ [1, 2, 4, 8, 16], ∀ t ∈ [32, 64, 128, 256, 512],
      0 < min (max t cudaWarp) (cudaMaxBlock / y) ∧ 0 < y ∧
        min (max t cudaWarp) (cudaMaxBlock / y) * y =
          min (max t cudaWarp) (cudaMaxBlock / y) * y / cudaWarp * cudaWarp ∧
        min (max t cudaWarp) (cudaMaxBlock / y) * y / cudaWarp ≤ cudaWarp := by decide
  obtain ⟨hpos, hy, hwarps, hle⟩ := hall by_ hpow t ht
  rw [hbx]
  exact ⟨hpos, hy, _, hle, hwarps⟩

/-- Either kernel gives the two sums. -/
theorem bnBackwardReduce_eq (half : Bool) (a : ReduceArgs K) (c : Nat) :
    bnBackwardReduce half id a c =
      storeReduced a.flags (a.invstd c) (a.sumDy c) (a.sumDyXmu c) := by
  unfold bnBackwardReduce
  split
  · obtain ⟨i, hi⟩ := lastPow2_eq a.batch a.batch (p := 1) ⟨0, rfl⟩
    dsimp only
    rw [hi]
    obtain ⟨hbx, hby, warps, hle, hactive⟩ := geometry_warps rfl (getNumThreads_mem a.hxw) rfl
    exact a.backwardReduceCudaOrder_eq c hbx hby hactive hle
  · exact a.backwardReduce_eq c

end

/-! ## Real arithmetic -/

/-- The mean of the channel `c`. -/
noncomputable def channelMean (input : Nat → ℝ) (cl : Bool) (channels batch hxw c : Nat) : ℝ :=
  (∑ n ∈ Finset.range batch, ∑ s ∈ Finset.range hxw, input (off cl n c s channels hxw)) /
    (batch * hxw : Nat)

/-- The biased variance of the channel `c`. -/
noncomputable def channelVar (input : Nat → ℝ) (cl : Bool) (channels batch hxw c : Nat) : ℝ :=
  (∑ n ∈ Finset.range batch, ∑ s ∈ Finset.range hxw, (input (off cl n c s channels hxw) -
    channelMean input cl channels batch hxw c) ^ 2) / (batch * hxw : Nat)

theorem sum_channelValues (f : ℝ → ℝ) (input : Nat → ℝ) (cl : Bool)
    (channels batch hxw c : Nat) :
    ((channelValues input cl channels hxw c (batch * hxw)).map f).sum =
      ∑ n ∈ Finset.range batch, ∑ s ∈ Finset.range hxw, f (input (off cl n c s channels hxw)) := by
  rw [channelValues, Multiset.map_map, ← sum_rows]
  rfl

theorem card_channelValues (input : Nat → ℝ) (cl : Bool) (channels hxw c count : Nat) :
    (channelValues input cl channels hxw c count).card = count := by
  rw [channelValues, Multiset.card_map, Multiset.card_range]

theorem meanOf_channelValues (input : Nat → ℝ) (cl : Bool) (channels batch hxw c : Nat) :
    Moments.meanOf (channelValues input cl channels hxw c (batch * hxw)) =
      channelMean input cl channels batch hxw c := by
  have hsum := sum_channelValues id input cl channels batch hxw c
  rw [Multiset.map_id] at hsum
  rw [Moments.meanOf, hsum, card_channelValues]
  rfl

theorem deviations_channelValues (input : Nat → ℝ) (cl : Bool) (channels batch hxw c : Nat) :
    Moments.deviations (channelValues input cl channels hxw c (batch * hxw)) / (batch * hxw : Nat) =
      channelVar input cl channels batch hxw c := by
  rw [Moments.deviations, meanOf_channelValues,
    sum_channelValues fun x => (x - channelMean input cl channels batch hxw c) ^ 2]
  rfl

theorem deviations_nonneg (l : Multiset ℝ) : 0 ≤ Moments.deviations l := by
  refine Multiset.sum_nonneg fun y hy => ?_
  obtain ⟨x, -, rfl⟩ := Multiset.mem_map.mp hy
  exact sq_nonneg _

/-- What one device that held all values would leave. -/
noncomputable def pooledStats (eps momentum : ℝ) (runMean runVar : Option ℝ) (l : List ℝ) :
    Gathered ℝ where
  saveMean := Moments.meanOf l
  saveInvstd := 1 / √(Moments.deviations (l : Multiset ℝ) / l.length + eps)
  runMean := runMean.map fun r => (1 - momentum) * r + momentum * Moments.meanOf l
  runVar := runVar.map fun r =>
    (1 - momentum) * r + momentum * (Moments.deviations (l : Multiset ℝ) / ((l.length : ℝ) - 1))

/-- The rows of some replicas, each with the statistics of its own values. -/
def RowsOf (eps : ℝ) (features i : Nat) (mean invstd counts : Nat → ℝ)
    (data : List (List ℝ)) : Prop :=
  ∀ j (hj : j < data.length), data[j] ≠ [] ∧ mean (j * features + i) = Moments.meanOf data[j] ∧
    invstd (j * features + i) =
      1 / √(Moments.deviations (data[j] : Multiset ℝ) / data[j].length + eps) ∧
    counts j = data[j].length

theorem RowsOf.exactRow {eps : ℝ} {features i : Nat} {mean invstd counts : Nat → ℝ}
    {data : List (List ℝ)} (h : RowsOf eps features i mean invstd counts data) (heps : 0 < eps)
    {j : Nat} (hj : j < data.length) :
    ExactRow eps (mean (j * features + i)) (invstd (j * features + i)) (counts j)
      ((data[j]?.getD [] : List ℝ) : Multiset ℝ) := by
  rw [List.getElem?_eq_getElem hj, Option.getD_some]
  obtain ⟨hne, hmean, hinvstd, hcount⟩ := h j hj
  refine ⟨fun hzero => hne ((Multiset.coe_eq_zero _).mp hzero), hmean, ?_, ?_⟩
  · have hvar := div_nonneg (deviations_nonneg (data[j] : Multiset ℝ))
      (Nat.cast_nonneg (α := ℝ) data[j].length)
    rw [hinvstd, one_div_one_div, Multiset.coe_card]
    exact Real.mul_self_sqrt (by linarith)
  · rw [hcount, Multiset.coe_card]

theorem sum_coe_flatten (data : List (List ℝ)) :
    ((List.range data.length).map fun j => ((data[j]?.getD [] : List ℝ) : Multiset ℝ)).sum =
      (data.flatten : Multiset ℝ) := by
  induction data with
  | nil => rfl
  | cons l data ih =>
      rw [List.length_cons, List.range_succ_eq_map, List.map_cons, List.sum_cons, List.map_map,
        List.flatten_cons, ← Multiset.coe_add]
      exact congrArg ((l : Multiset ℝ) + ·) ih

/-- The merge of the replicas is the statistics of all their values together. -/
theorem gather_pooled {eps momentum : ℝ} {runMean runVar : Option ℝ} {features i : Nat}
    {mean invstd counts : Nat → ℝ} {data : List (List ℝ)} (heps : 0 < eps) (hne : data ≠ [])
    (h : RowsOf eps features i mean invstd counts data) :
    bnGather Real.sqrt mean invstd counts data.length features eps momentum runMean runVar i =
      pooledStats eps momentum runMean runVar data.flatten := by
  rw [bnGather_eq Real.sqrt (List.length_pos_of_ne_nil hne) fun j hj => h.exactRow heps hj]
  dsimp only
  rw [sum_coe_flatten, Multiset.coe_card]
  rfl

theorem pooledStats_perm {eps momentum : ℝ} {runMean runVar : Option ℝ} {l l' : List ℝ}
    (h : l.Perm l') :
    pooledStats eps momentum runMean runVar l = pooledStats eps momentum runMean runVar l' := by
  unfold pooledStats
  rw [Multiset.coe_eq_coe.mpr h, h.length_eq]

/-! ## The two splits and the two reductions -/

/-- What `bn_stats` leaves of the exact mean and variance, of any assignment of a channel's
elements to the threads; one value alone has no unbiased variance (`0 / 0` on both sides). -/
def StatsExact : Prop :=
  ∀ (elements : Nat → List Nat) (input : Nat → ℝ) (cl : Bool) (channels batch hxw mode : Nat)
    (running : Option (ℝ × ℝ)) (eps momentum : ℝ) (c : Nat),
    0 < batch → 0 < hxw → c < channels → 0 < eps →
    ((List.range syncThreads).flatMap elements).Perm (List.range (batch * hxw)) →
    let mean := channelMean input cl channels batch hxw c
    let var := channelVar input cl channels batch hxw c
    let stats := bnStats Real.sqrt elements input cl channels batch hxw mode running eps momentum c
    stats.mean = mean ∧
      stats.var = (if mode = 1 ∨ mode = 2 then 1 / √(var + eps) else var) ∧
      stats.running = if mode = 1 then running else running.map fun r =>
        (mean * momentum + (1 - momentum) * r.1,
          var * (((batch * hxw : Nat) : ℝ) / (((batch * hxw : Nat) : ℝ) - 1)) * momentum +
            (1 - momentum) * r.2)

theorem statsExact : StatsExact := by
  intro elements input cl channels batch hxw mode running eps momentum c hbatch hhxw _ heps hel
  have hcount : 0 < batch * hxw := Nat.mul_pos hbatch hhxw
  have hw := collect_describes hel input cl channels hxw c
  have hne : channelValues input cl channels hxw c (batch * hxw) ≠ 0 := by
    intro hzero
    have hcard := card_channelValues input cl channels hxw c (batch * hxw)
    rw [hzero, Multiset.card_zero] at hcard
    omega
  have hmean : (collect elements input cl channels hxw c).avg =
      channelMean input cl channels batch hxw c := by
    rw [← meanOf_channelValues]
    exact hw.moments.mean_of hne
  have hvar : (collect elements input cl channels hxw c).m2 / ((batch * hxw : Nat) : ℝ) =
      channelVar input cl channels batch hxw c := by
    rw [← deviations_channelValues]
    exact congrArg (· / ((batch * hxw : Nat) : ℝ)) hw.moments.m2_of
  dsimp only
  unfold bnStats storeStats
  dsimp only
  rw [hvar, hmean]
  by_cases hone : mode = 1
  · have hinv : invStd Real.sqrt (channelVar input cl channels batch hxw c) eps =
        1 / √(channelVar input cl channels batch hxw c + eps) := by
      unfold invStd
      rw [if_neg fun h => heps.ne' h.2]
    rw [if_pos hone, if_pos hone, if_pos (.inl hone)]
    exact ⟨rfl, hinv, rfl⟩
  · rw [if_neg hone, if_neg hone]
    refine ⟨rfl, ?_, rfl⟩
    by_cases htwo : mode = 2
    · rw [if_pos htwo, if_pos (Or.inr htwo)]
    · rw [if_neg htwo, if_neg fun h => h.elim hone htwo]

/-- What `bn_gather` leaves of the replicas' rows is what one device would leave of all the
data, whatever the order of the replicas. -/
def GatherExact : Prop :=
  ∀ (data : List (List ℝ)) (mean invstd counts : Nat → ℝ) (features i : Nat)
    (eps momentum : ℝ) (runMean runVar : Option ℝ),
    0 < eps → data ≠ [] → RowsOf eps features i mean invstd counts data →
    let merged := bnGather Real.sqrt mean invstd counts data.length features eps momentum
      runMean runVar i
    merged = pooledStats eps momentum runMean runVar data.flatten ∧
      (∀ mean' invstd' counts', RowsOf eps features i mean' invstd' counts' [data.flatten] →
        merged = bnGather Real.sqrt mean' invstd' counts' 1 features eps momentum
          runMean runVar i) ∧
      ∀ data' mean' invstd' counts', data.Perm data' →
        RowsOf eps features i mean' invstd' counts' data' →
        merged = bnGather Real.sqrt mean' invstd' counts' data'.length features eps momentum
          runMean runVar i

theorem gatherExact : GatherExact := by
  intro data mean invstd counts features i eps momentum runMean runVar heps hne hrows
  have hpooled := @gather_pooled _ momentum runMean runVar _ _ _ _ _ _ heps hne hrows
  dsimp only
  rw [hpooled]
  refine ⟨rfl, fun mean' invstd' counts' hrows' => ?_,
    fun data' mean' invstd' counts' hperm hrows' => ?_⟩
  · have hone := @gather_pooled _ momentum runMean runVar _ _ _ _ _ _ heps
      (List.cons_ne_nil _ _) hrows'
    rw [List.flatten_cons, List.flatten_nil, List.append_nil] at hone
    exact hone.symm
  · have hne' : data' ≠ [] := fun hnil => hne (hnil ▸ hperm).eq_nil
    rw [gather_pooled heps hne' hrows']
    exact pooledStats_perm hperm.flatten

/-- Both reduction kernels, and the one that `bn_backward_reduce` picks, store the sums of `dy`
and of `dy * (x - mean)`. -/
def ReduceExact : Prop :=
  ∀ (a : ReduceArgs ℝ) (c : Nat), 0 < a.batch → 0 < a.hxw → c < a.channels →
    let reduced := storeReduced a.flags (a.invstd c) (a.sumDy c) (a.sumDyXmu c)
    a.backwardReduce id c = reduced ∧
      (∀ bx by_ warps, 0 < bx → 0 < by_ → bx * by_ = warps * cudaWarp → warps ≤ cudaWarp →
        a.backwardReduceCudaOrder id c bx by_ = reduced) ∧
      ∀ half, bnBackwardReduce half id a c = reduced

theorem reduceExact : ReduceExact := fun a c _ _ _ =>
  ⟨a.backwardReduce_eq c, fun _ _ _ hbx hby hactive hwarps =>
    a.backwardReduceCudaOrder_eq c hbx hby hactive hwarps, fun half => bnBackwardReduce_eq half a c⟩

/-- The statistics do not depend on how the data is split. -/
theorem sync_batch_norm : StatsExact ∧ GatherExact ∧ ReduceExact :=
  ⟨statsExact, gatherExact, reduceExact⟩

theorem sync_batch_norm_two :
    let row := fun (l : List ℝ) => 1 / √(Moments.deviations (l : Multiset ℝ) / l.length + 1)
    let input := fun i : Nat => (i : ℝ)
    (bnStats Real.sqrt (threadElements (2 * 2)) input false 1 2 2 0 none 1 0 0).mean =
        channelMean input false 1 2 2 0 ∧
      bnGather Real.sqrt (fun j => if j = 0 then Moments.meanOf ([1, 3] : List ℝ) else
          Moments.meanOf ([5] : List ℝ)) (fun j => if j = 0 then row [1, 3] else row [5])
          (fun j => if j = 0 then 2 else 1) 2 1 1 0 none none 0 =
        pooledStats 1 0 none none [1, 3, 5] := by
  intro row input
  refine ⟨(sync_batch_norm.1 _ input false 1 2 2 0 none 1 0 0 (by decide) (by decide) (by decide)
    one_pos (threadElements_perm _)).1, ?_⟩
  refine (sync_batch_norm.2.1 [[1, 3], [5]] _ _ _ 1 0 1 0 none none one_pos
    (List.cons_ne_nil _ _) fun j hj => ?_).1
  obtain rfl | rfl : j = 0 ∨ j = 1 := by
    rw [List.length_cons, List.length_singleton] at hj
    omega
  · exact ⟨List.cons_ne_nil _ _, rfl, rfl, Nat.cast_two.symm⟩
  · exact ⟨List.cons_ne_nil _ _, rfl, rfl, Nat.cast_one.symm⟩

end TorchMojoBackend.Kernels.BatchNormSync
