/-
  `Kernels.Multinomial`: sampling of categories with replacement.

  Source: tmb/kernels/random/multinomial_kernels.mojo (`_check_kernel`, `_positive`, `_draw_kernel`,
  `enqueue_multinomial_check`, `enqueue_multinomial_draw`), tmb/ops/random.mojo (`_multinomial_check`).

  A first launch looks at every row for entries that are no weights and for a sum that is not
  positive.  In the second, a block does rows one after the other.  Its threads add up a chunk of
  the weights each, scan these sums, store the running sums of their chunks to the row's cdf, and
  after a barrier draw samples: a bisection finds where the cdf passes a fraction of the total, and
  a category without weight is exchanged for the next one that has some.

  What is proved:
    * in exact arithmetic, the check passes if and only if every row is a distribution
      (`multinomial_check_exact`);
    * in any arithmetic, whatever its rounding, behind the check a sample is a category of
      positive weight, and the search for it stays in the row (`draws_have_weight`);
    * in exact arithmetic it is the category whose share of the total holds the fraction
      (`draws_exact`).

  A weight is the element cast to the accumulation type, as every read of it is.
-/
import Mathlib.Algebra.BigOperators.Intervals
import Mathlib.Algebra.Order.BigOperators.Group.Finset
import Mathlib.Algebra.Order.Field.Basic
import Mathlib.Algebra.Order.Ring.Rat
import TorchMojoBackend.Foundation.Reductions
import TorchMojoBackend.Foundation.ScanNetwork
import TorchMojoBackend.Foundation.ThreadSums

set_option autoImplicit false

namespace TorchMojoBackend.Kernels.Multinomial

open TorchMojoBackend.Foundation

def MN_THREADS : Nat := 256
def MN_MAX_BLOCKS : Nat := 65535

/-! ## The cdf of a row -/

section Cdf

variable {R : Type} [Zero R] [Add R] (w : Nat → R) (n : Nat)

def chunk : Nat := (n + MN_THREADS - 1) / MN_THREADS

/-- `start` -/
def chunkStart (tid : Nat) : Nat := min (tid * chunk n) n

/-- `end` -/
def chunkEnd (tid : Nat) : Nat := min (chunkStart n tid + chunk n) n

/-- `x` and `k` weights from `lo` on, added one after the other. -/
def addWeights (x : R) (lo : Nat) : Nat → R
  | 0 => x
  | k + 1 => addWeights x lo k + w (lo + k)

/-- `local` -/
def chunkSum (tid : Nat) : R := addWeights w 0 (chunkStart n tid) (chunkEnd n tid - chunkStart n tid)

/-- A step of the scan, from the sums before the first barrier of it. -/
def scanStep (step : Nat) (v : Nat → R) (tid : Nat) : R :=
  v tid + if tid ≥ step then v (tid - step) else 0

/-- The scanned sums: `step = 1; while step < MN_THREADS: ...; step <<= 1`. -/
def s_part : Nat → R := doubling scanStep MN_THREADS 8 1 (chunkSum w n)

/-- The stores of a thread to the cdf of its row. -/
def cdfStores (tid : Nat) : List (Nat × R) :=
  let running := if tid > 0 then s_part w n (tid - 1) else 0
  (List.range (chunkEnd n tid - chunkStart n tid)).map fun i =>
    (chunkStart n tid + i, addWeights w running (chunkStart n tid) (i + 1))

end Cdf

/-! ## The check of a row -/

def MN_BAD_NEGATIVE : Nat := 1
def MN_BAD_NONFINITE : Nat := 2
def MN_BAD_SUM : Nat := 4

section Check

variable {R : Type} [Zero R] [Add R] [LT R] [DecidableLT R] (kind : R → Int) (w : Nat → R) (n : Nat)

/-- The sum and the flags of a thread after one more entry. -/
def checkStep (s : R × Nat) (v : R) : R × Nat :=
  if kind v = 1 ∨ v < 0 then (s.1, s.2 ||| MN_BAD_NEGATIVE)
  else if kind v = 0 then (s.1, s.2 ||| MN_BAD_NONFINITE)
  else (s.1 + v, s.2)

def threadCheck (tid : Nat) : R × Nat :=
  (strided n MN_THREADS n tid).foldl (fun s i => checkStep kind s (w i)) (0, 0)

/-- What the tree over the threads leaves: `width = MN_THREADS // 2; while width > 0: ...`. -/
def rowCheck : R × Nat :=
  stages (treeHalf fun a b => (a.1 + b.1, a.2 ||| b.2)) 8 (threadCheck kind w n) 0

/-- `code` -/
def rowCode : Nat :=
  if (rowCheck kind w n).2 = 0 ∧ ¬ 0 < (rowCheck kind w n).1 then MN_BAD_SUM else (rowCheck kind w n).2

end Check

/-- `_multinomial_check`, from the flag that the kernel leaves. -/
def _multinomial_check (code : Nat) (fast_path : Bool) : Except String Unit :=
  if code = 0 then .ok ()
  else if fast_path then
    if code &&& (MN_BAD_NEGATIVE ||| MN_BAD_NONFINITE) ≠ 0 then
      .error "probability tensor contains either `inf`, `nan` or element < 0"
    else .error "invalid multinomial distribution (sum of probabilities <= 0)"
  else if code &&& MN_BAD_NEGATIVE ≠ 0 then
    .error "invalid multinomial distribution (encountering probability entry < 0)"
  else if code &&& MN_BAD_NONFINITE ≠ 0 then
    .error "invalid multinomial distribution (encountering probability entry = infinity or NaN)"
  else .error "invalid multinomial distribution (sum of probabilities <= 0)"

/-! ## Samples -/

section Draw

variable {R : Type} [Zero R] [LT R] [DecidableLT R]

def _positive (v : R) : Bool := decide (0 < v)

/-- `while lo < hi` of the bisection. -/
def bisect (cdf : Nat → R) (x : R) (lo hi : Nat) : Nat :=
  if lo < hi then
    if x < cdf ((lo + hi) / 2) then bisect cdf x lo ((lo + hi) / 2)
    else bisect cdf x ((lo + hi) / 2 + 1) hi
  else lo
termination_by hi - lo
decreasing_by all_goals omega

/-- The elements of the cdf that the bisection reads. -/
def bisectReads (cdf : Nat → R) (x : R) (lo hi : Nat) : List Nat :=
  if lo < hi then
    if x < cdf ((lo + hi) / 2) then (lo + hi) / 2 :: bisectReads cdf x lo ((lo + hi) / 2)
    else (lo + hi) / 2 :: bisectReads cdf x ((lo + hi) / 2 + 1) hi
  else []
termination_by hi - lo
decreasing_by all_goals omega

/-- `while j < n and not _positive(probs[base + j]): j += 1` -/
def forward (w : Nat → R) (n j : Nat) : Nat :=
  if j < n ∧ _positive (w j) = false then forward w n (j + 1) else j
termination_by n - j

/-- `while j > 0 and not _positive(probs[base + j]): j -= 1` -/
def backward (w : Nat → R) : Nat → Nat
  | 0 => 0
  | j + 1 => if _positive (w (j + 1)) then j + 1 else backward w j

/-- The category for the place that the bisection found. -/
def settle (w : Nat → R) (n lo : Nat) : Int :=
  if _positive (w lo) then lo
  else
    let j := forward w n (lo + 1)
    -- `lo - 1` is -1 in the first place, and the loop leaves it
    if j = n then (if lo = 0 then -1 else (backward w (lo - 1) : Int)) else j

end Draw

/-! ## The launch -/

/-- The arguments of the launches, and of the arithmetic what is neither an addition nor a comparison:
`kind` is `_magnitude_vs_inf`, and `uniform` makes a number of the upper 24 bits of a word.  Sample `e`
gets word `e % 4` of the Philox block `e / 4`. -/
structure Launch (R : Type) where
  rows : Nat
  n : Nat
  n_sample : Nat
  probs : Nat → R
  kind : R → Int
  word : Nat → UInt32
  uniform : UInt32 → R

namespace Launch

variable {R : Type} [Zero R] [Add R] [Mul R] [LT R] [DecidableLT R] (L : Launch R)

/-- The blocks of `enqueue_multinomial_check` and `enqueue_multinomial_draw`. -/
def grid : Nat := max 1 (min L.rows MN_MAX_BLOCKS)

/-- The weights of a row. -/
def weights (row : Nat) : Nat → R := fun i => L.probs (row * L.n + i)

/-- The stores of all blocks to the flag. -/
def flagWrites : List (Unit × Nat) :=
  (gridItems L.grid L.rows).flatMap fun row =>
    let code := rowCode L.kind (L.weights row) L.n
    if code ≠ 0 then [((), code)] else []

/-- `_check_kernel`: a run of the launch, from a flag of 0. -/
structure CheckRun where
  flag : Unit → Nat
  flag_stored : Stores L.flagWrites (fun _ => 0) flag

/-- The stores of all threads to the cdf. -/
def cdfWrites : List (Nat × R) :=
  (gridItems L.grid L.rows).flatMap fun row => (List.range MN_THREADS).flatMap fun tid =>
    (cdfStores (L.weights row) L.n tid).map fun c => (row * L.n + c.1, c.2)

/-- `x`: the fraction of the total that a sample looks for. -/
def target (cdf : Nat → R) (row s : Nat) : R :=
  L.uniform (L.word (row * L.n_sample + s) >>> 8) * cdf (row * L.n + L.n - 1)

/-- The place that the bisection finds. -/
def place (cdf : Nat → R) (row s : Nat) : Nat :=
  bisect (fun i => cdf (row * L.n + i)) (L.target cdf row s) 0 (L.n - 1)

/-- The stores of all threads to the result. -/
def dstWrites (cdf : Nat → R) : List (Nat × Int) :=
  (gridItems L.grid L.rows).flatMap fun row => (gridItems MN_THREADS L.n_sample).map fun s =>
    (row * L.n_sample + s, settle (L.weights row) L.n (L.place cdf row s))

/-- `_draw_kernel`: a run of the launch.  A row's samples read its cdf behind the barrier after its
stores, which are those of one block; the threads of a phase store in any order. -/
structure Run where
  cdf₀ : Nat → R
  cdf : Nat → R
  cdf_stored : Stores L.cdfWrites cdf₀ cdf
  dst₀ : Nat → Int
  dst : Nat → Int
  dst_stored : Stores (L.dstWrites cdf) dst₀ dst

/-- The runs in the order of the lists. -/
def checkInOrder : L.CheckRun where
  flag := storeAll L.flagWrites fun _ => 0
  flag_stored := .inOrder _ _

def inOrder : L.Run where
  cdf₀ _ := 0
  cdf := storeAll L.cdfWrites fun _ => 0
  cdf_stored := .inOrder _ _
  dst₀ _ := 0
  dst := storeAll (L.dstWrites (storeAll L.cdfWrites fun _ => 0)) fun _ => 0
  dst_stored := .inOrder _ _

end Launch

/-! ## The search in any arithmetic -/

section Search

variable {R : Type} [Zero R] [LT R] [DecidableLT R]

omit [Zero R] in
theorem bisect_between (cdf : Nat → R) (x : R) {lo hi : Nat} (h : lo ≤ hi) :
    lo ≤ bisect cdf x lo hi ∧ bisect cdf x lo hi ≤ hi := by
  fun_induction bisect cdf x lo hi with
  | case1 lo hi hlt hx ih =>
      obtain ⟨hlo, hhi⟩ := ih (by omega)
      exact ⟨hlo, by omega⟩
  | case2 lo hi hlt hx ih =>
      obtain ⟨hlo, hhi⟩ := ih (by omega)
      exact ⟨by omega, hhi⟩
  | case3 lo hi hlt => exact ⟨Nat.le_refl _, h⟩

omit [Zero R] in
theorem bisectReads_lt (cdf : Nat → R) (x : R) (lo hi : Nat) : ∀ i ∈ bisectReads cdf x lo hi, i < hi := by
  fun_induction bisectReads cdf x lo hi with
  | case1 lo hi hlt hx ih =>
      intro i hi
      obtain rfl | hi := List.mem_cons.mp hi
      · omega
      · have := ih i hi
        omega
  | case2 lo hi hlt hx ih =>
      intro i hi
      obtain rfl | hi := List.mem_cons.mp hi
      · omega
      · exact ih i hi
  | case3 lo hi hlt => exact fun i hi => absurd hi List.not_mem_nil

/-- The next category with weight, or the end of the row. -/
theorem forward_spec (w : Nat → R) {n j : Nat} (h : j ≤ n) :
    forward w n j ≤ n ∧ (forward w n j < n → _positive (w (forward w n j)) = true) ∧
      ∀ i, j ≤ i → i < forward w n j → _positive (w i) = false := by
  fun_induction forward w n j with
  | case1 j hj ih =>
      obtain ⟨hle, hpos, hskip⟩ := ih hj.1
      refine ⟨hle, hpos, fun i hi hlt => ?_⟩
      obtain rfl | hi := Nat.eq_or_lt_of_le hi
      · exact hj.2
      · exact hskip i hi hlt
  | case2 j hj =>
      refine ⟨h, fun hlt => ?_, fun i hi hlt => absurd hlt (Nat.not_lt_of_le hi)⟩
      exact Bool.eq_true_of_not_eq_false fun hnone => hj ⟨hlt, hnone⟩

/-- A category with weight below. -/
theorem backward_spec (w : Nat → R) {j : Nat} (h : ∃ i ≤ j, _positive (w i) = true) :
    backward w j ≤ j ∧ _positive (w (backward w j)) = true := by
  induction j with
  | zero =>
      obtain ⟨i, hi, hpos⟩ := h
      obtain rfl := Nat.le_zero.mp hi
      exact ⟨Nat.le_refl 0, hpos⟩
  | succ j ih =>
      unfold backward
      split
      · next hpos => exact ⟨Nat.le_refl _, hpos⟩
      · next hnone =>
          obtain ⟨i, hi, hpos⟩ := h
          have hne : i ≠ j + 1 := fun heq => hnone (heq ▸ hpos)
          obtain ⟨hle, hback⟩ := ih ⟨i, by omega, hpos⟩
          exact ⟨Nat.le_succ_of_le hle, hback⟩

/-- A row with some weight gives a category with weight, from any place. -/
theorem settle_spec {w : Nat → R} {n lo : Nat} (hlo : lo < n) (h : ∃ i < n, _positive (w i) = true) :
    ∃ k < n, settle w n lo = k ∧ _positive (w k) = true := by
  obtain ⟨hle, hpos, hskip⟩ := forward_spec w (show lo + 1 ≤ n from hlo)
  unfold settle
  split
  · next hhere => exact ⟨lo, hlo, rfl, hhere⟩
  · next hhere =>
      dsimp only
      split
      · next hend =>
          -- none from the place on, so there is one before it
          obtain ⟨i, hi, hweight⟩ := h
          have hbefore : i < lo := by
            refine Nat.lt_of_not_le fun hge => ?_
            obtain rfl | hgt := Nat.eq_or_lt_of_le hge
            · exact hhere hweight
            · rw [hskip i hgt (by omega)] at hweight
              cases hweight
          obtain ⟨hback, hk⟩ := backward_spec w ⟨i, Nat.le_sub_one_of_lt hbefore, hweight⟩
          rw [if_neg (by omega)]
          exact ⟨_, by omega, rfl, hk⟩
      · next hend =>
          have hlt : forward w n (lo + 1) < n := Nat.lt_of_le_of_ne hle hend
          exact ⟨_, hlt, rfl, hpos hlt⟩

end Search

namespace Launch

section Any

variable {R : Type} [Zero R] [Add R] [Mul R] [LT R] [DecidableLT R] {L : Launch R}

omit [Zero R] [Add R] [Mul R] [LT R] [DecidableLT R] in
theorem mem_rows {row : Nat} : row ∈ gridItems L.grid L.rows ↔ row < L.rows :=
  mem_gridItems (Nat.lt_of_lt_of_le Nat.zero_lt_one (Nat.le_max_left _ _))

omit [Add R] in
theorem dstWrites_writesOf (cdf : Nat → R) :
    WritesOf (fun x : Nat × Nat => x.1 < L.rows ∧ x.2 < L.n_sample) (fun x => x.1 * L.n_sample + x.2)
      (fun x => settle (L.weights x.1) L.n (L.place cdf x.1 x.2)) (L.dstWrites cdf) := by
  have hthreads : 0 < MN_THREADS := by decide
  refine ⟨fun c hc => ?_, fun x hx => ?_⟩
  · obtain ⟨row, hrow, hc⟩ := List.mem_flatMap.mp hc
    obtain ⟨s, hs, rfl⟩ := List.mem_map.mp hc
    exact ⟨(row, s), ⟨mem_rows.mp hrow, (mem_gridItems hthreads).mp hs⟩, rfl⟩
  · refine List.mem_flatMap.mpr ⟨x.1, mem_rows.mpr hx.1, ?_⟩
    exact List.mem_map.mpr ⟨x.2, (mem_gridItems hthreads).mpr hx.2, rfl⟩

/-- What a sample is, from the cdf that the run leaves. -/
theorem Run.dst_eq (r : L.Run) {row s : Nat} (hrow : row < L.rows) (hs : s < L.n_sample) :
    r.dst (row * L.n_sample + s) = settle (L.weights row) L.n (L.place r.cdf row s) :=
  r.dst_stored.writesOf (dstWrites_writesOf r.cdf) (x := (row, s))
    (fun _ _ hx hy h => Prod.ext (flat_inj hx.2 hy.2 h).1 (flat_inj hx.2 hy.2 h).2) ⟨hrow, hs⟩

omit [Zero R] [Add R] in
theorem place_lt (cdf : Nat → R) (row s : Nat) (hn : 0 < L.n) : L.place cdf row s < L.n := by
  have hle := (bisect_between (fun i => cdf (row * L.n + i)) (L.target cdf row s) (Nat.zero_le (L.n - 1))).2
  unfold place
  omega

/-- A sample of a row with some weight. -/
theorem Run.dst_weight (r : L.Run) {row s : Nat} (hrow : row < L.rows) (hs : s < L.n_sample)
    (hweight : ∃ i < L.n, 0 < L.weights row i) :
    ∃ k < L.n, r.dst (row * L.n_sample + s) = k ∧ 0 < L.weights row k := by
  obtain ⟨i, hi, hpos⟩ := hweight
  obtain ⟨k, hk, heq, hkpos⟩ := settle_spec (w := L.weights row)
    (place_lt r.cdf row s (Nat.zero_lt_of_lt hi)) ⟨i, hi, decide_eq_true hpos⟩
  exact ⟨k, hk, (r.dst_eq hrow hs).trans heq, of_decide_eq_true hkpos⟩

/-- Nothing is stored but samples. -/
theorem Run.dst_off (r : L.Run) {a : Nat} (ha : L.rows * L.n_sample ≤ a) : r.dst a = r.dst₀ a := by
  refine r.dst_stored.off fun b hb => ?_
  obtain ⟨x, hx, heq⟩ := (dstWrites_writesOf r.cdf).1 _ hb
  have haddr : a = x.1 * L.n_sample + x.2 := congrArg Prod.fst heq
  have hlt := row_major_lt hx.1 hx.2
  omega

end Any

end Launch

/-! ## The cdf in exact arithmetic -/

section Exact

variable {K : Type} [AddCommMonoid K] (w : Nat → K) (n : Nat)

theorem addWeights_eq (x : K) (lo k : Nat) :
    addWeights w x lo k = x + ∑ i ∈ Finset.range k, w (lo + i) := by
  induction k with
  | zero => exact (add_zero x).symm
  | succ k ih =>
      unfold addWeights
      rw [ih, Finset.sum_range_succ, add_assoc]

theorem chunkEnd_eq (tid : Nat) : chunkEnd n tid = chunkStart n (tid + 1) := by
  unfold chunkEnd chunkStart
  rw [Nat.succ_mul]
  omega

/-- The chunks in front of a thread. -/
theorem sum_chunks (tid : Nat) : ∑ t ∈ Finset.range tid, chunkSum w n t =
    ∑ i ∈ Finset.range (chunkStart n tid), w i := by
  induction tid with
  | zero =>
      unfold chunkStart
      rw [Nat.zero_mul, Nat.zero_min]
      rfl
  | succ tid ih =>
      have hle : chunkStart n tid ≤ chunkStart n (tid + 1) := by
        unfold chunkStart
        rw [Nat.succ_mul]
        omega
      unfold chunkSum at ih ⊢
      rw [Finset.sum_range_succ, ih, chunkEnd_eq, addWeights_eq, zero_add, ← Finset.sum_range_add,
        Nat.add_sub_cancel' hle]

theorem fold1_sum (f : Nat → K) (n : Nat) :
    fold1 (fun a b => b + a) f 0 n = ∑ i ∈ Finset.range (n + 1), f i := by
  induction n with
  | zero => exact (Finset.sum_range_one f).symm
  | succ n ih =>
      unfold fold1
      rw [ih, Finset.sum_range_succ f (n + 1), Nat.zero_add, add_comm]

/-- The scan adds up the chunks to the end of the thread's own. -/
theorem s_part_eq {tid : Nat} (htid : tid < MN_THREADS) :
    s_part w n tid = ∑ i ∈ Finset.range (chunkStart n (tid + 1)), w i := by
  have hstep : (scanStep : Nat → (Nat → K) → Nat → K) = offsetStep (fun a b => b + a) id := by
    funext step v t
    unfold scanStep offsetStep
    split
    · next h => exact (if_pos h).symm
    · next h => exact (add_zero _).trans (if_neg h).symm
  unfold s_part
  rw [hstep, doubling_block (fun a b c => (add_assoc c b a).symm) (chunkSum w n) (by decide) htid,
    fold1_sum, sum_chunks]

/-- A thread stores the running sums of its chunk. -/
theorem mem_cdfStores {tid : Nat} (htid : tid < MN_THREADS) {c : Nat × K} : c ∈ cdfStores w n tid ↔
    (chunkStart n tid ≤ c.1 ∧ c.1 < chunkStart n (tid + 1)) ∧ c.2 = ∑ i ∈ Finset.range (c.1 + 1), w i := by
  have hrunning : (if tid > 0 then s_part w n (tid - 1) else 0) =
      ∑ i ∈ Finset.range (chunkStart n tid), w i := by
    cases tid with
    | zero =>
        unfold chunkStart
        rw [Nat.zero_mul, Nat.zero_min]
        rfl
    | succ tid =>
        rw [if_pos (Nat.succ_pos tid), Nat.succ_sub_one]
        exact s_part_eq w n (Nat.lt_of_succ_lt htid)
  have hvalue : ∀ i, addWeights w (if tid > 0 then s_part w n (tid - 1) else 0) (chunkStart n tid) (i + 1) =
      ∑ j ∈ Finset.range (chunkStart n tid + i + 1), w j := fun i => by
    rw [hrunning, addWeights_eq, ← Finset.sum_range_add, Nat.add_assoc]
  unfold cdfStores
  dsimp only
  rw [List.mem_map, chunkEnd_eq]
  constructor
  · rintro ⟨i, hi, rfl⟩
    have hi := List.mem_range.mp hi
    exact ⟨⟨Nat.le_add_right _ _, by dsimp only; omega⟩, hvalue i⟩
  · rintro ⟨⟨hlo, hhi⟩, hc⟩
    refine ⟨c.1 - chunkStart n tid, List.mem_range.mpr (by omega), Prod.ext (by dsimp only; omega) ?_⟩
    dsimp only
    rw [hvalue, hc, Nat.add_sub_cancel' hlo]

/-- Every element has a thread. -/
theorem exists_chunk {i : Nat} (hi : i < n) :
    ∃ tid < MN_THREADS, chunkStart n tid ≤ i ∧ i < chunkStart n (tid + 1) := by
  have hcover : n ≤ chunk n * MN_THREADS := by
    unfold chunk MN_THREADS
    omega
  have hpos : 0 < chunk n := Nat.pos_of_ne_zero fun hzero => by
    rw [hzero, Nat.zero_mul] at hcover
    omega
  have hlo := Nat.div_mul_le_self i (chunk n)
  have hhi := Nat.lt_div_mul_add hpos (a := i)
  refine ⟨i / chunk n, Nat.div_lt_of_lt_mul (Nat.lt_of_lt_of_le hi hcover), ?_, ?_⟩
  · unfold chunkStart
    omega
  · unfold chunkStart
    rw [Nat.succ_mul]
    omega

end Exact

/-! ## Samples in exact arithmetic -/

/-- With a cdf that does not decrease, the bisection finds its first element above `x`. -/
theorem bisect_first {K : Type} [LinearOrder K] {f : Nat → K} {x : K} {lo hi : Nat} (h : lo ≤ hi)
    (hmono : ∀ i j, i ≤ j → j ≤ hi → f i ≤ f j) (hhi : x < f hi) (hlo : ∀ i < lo, f i ≤ x) :
    x < f (bisect f x lo hi) ∧ ∀ i < bisect f x lo hi, f i ≤ x := by
  fun_induction bisect f x lo hi with
  | case1 lo hi hlt hx ih =>
      exact ih (by omega) (fun i j hij hj => hmono i j hij (by omega)) hx hlo
  | case2 lo hi hlt hx ih =>
      refine ih (by omega) hmono hhi fun i hi => ?_
      exact (hmono i _ (Nat.le_of_lt_succ hi) (by omega)).trans (le_of_not_gt hx)
  | case3 lo hi hlt =>
      obtain rfl : lo = hi := by omega
      exact ⟨hhi, hlo⟩

namespace Launch

section Exact

variable {K : Type} [Field K] [LinearOrder K] [IsStrictOrderedRing K] {L : Launch K}

/-- The share of the total weight in front of a category. -/
def share (L : Launch K) (row k : Nat) : K := ∑ i ∈ Finset.range k, L.weights row i

omit [LinearOrder K] [IsStrictOrderedRing K] in
theorem cdfWrites_writesOf : WritesOf (fun x : Nat × Nat => x.1 < L.rows ∧ x.2 < L.n)
    (fun x => x.1 * L.n + x.2) (fun x => L.share x.1 (x.2 + 1)) L.cdfWrites := by
  refine ⟨fun c hc => ?_, fun x hx => ?_⟩
  · obtain ⟨row, hrow, hc⟩ := List.mem_flatMap.mp hc
    obtain ⟨tid, htid, hc⟩ := List.mem_flatMap.mp hc
    obtain ⟨e, he, rfl⟩ := List.mem_map.mp hc
    obtain ⟨⟨-, hhi⟩, hvalue⟩ := (mem_cdfStores _ _ (List.mem_range.mp htid)).mp he
    exact ⟨(row, e.1), ⟨mem_rows.mp hrow, Nat.lt_of_lt_of_le hhi (Nat.min_le_right _ _)⟩,
      Prod.ext rfl hvalue⟩
  · obtain ⟨tid, htid, hchunk⟩ := exists_chunk L.n hx.2
    refine List.mem_flatMap.mpr ⟨x.1, mem_rows.mpr hx.1, ?_⟩
    refine List.mem_flatMap.mpr ⟨tid, List.mem_range.mpr htid, ?_⟩
    exact List.mem_map.mpr ⟨(x.2, L.share x.1 (x.2 + 1)), (mem_cdfStores _ _ htid).mpr ⟨hchunk, rfl⟩, rfl⟩

omit [IsStrictOrderedRing K] in
/-- The cdf holds the running sums of its rows. -/
theorem Run.cdf_eq (r : L.Run) {row i : Nat} (hrow : row < L.rows) (hi : i < L.n) :
    r.cdf (row * L.n + i) = L.share row (i + 1) :=
  r.cdf_stored.writesOf cdfWrites_writesOf (x := (row, i))
    (fun _ _ hx hy h => Prod.ext (flat_inj hx.2 hy.2 h).1 (flat_inj hx.2 hy.2 h).2) ⟨hrow, hi⟩

theorem share_mono {row i j : Nat} (hw : ∀ i < L.n, 0 ≤ L.weights row i) (hij : i ≤ j) (hj : j ≤ L.n) :
    L.share row i ≤ L.share row j :=
  Finset.sum_le_sum_of_subset_of_nonneg (Finset.range_subset_range.mpr hij) fun k hk _ =>
    hw k (Nat.lt_of_lt_of_le (Finset.mem_range.mp hk) hj)

/-- `(w >> 8).cast[ACC]() * _TWO_POW_M24` in exact arithmetic. -/
def exactUniform (bits : UInt32) : K := (bits.toNat : K) / ((2 ^ 24 : Nat) : K)

theorem uniform_range (word : UInt32) :
    (0 : K) ≤ exactUniform (word >>> 8) ∧ exactUniform (word >>> 8) < (1 : K) := by
  have hlt : (word >>> 8).toNat < 2 ^ 24 := by
    have hword := word.toNat_lt
    rw [UInt32.toNat_shiftRight, Nat.shiftRight_eq_div_pow]
    exact Nat.div_lt_of_lt_mul hword
  refine ⟨div_nonneg (Nat.cast_nonneg _) (by positivity), (div_lt_one (by positivity)).mpr ?_⟩
  exact_mod_cast hlt

/-- What `u` is for a sample. -/
def fraction (L : Launch K) (row s : Nat) : K := exactUniform (L.word (row * L.n_sample + s) >>> 8)

/-- The sample of a row is the one category whose share of the total weight holds the fraction of
its random word. -/
theorem Run.dst_exact (r : L.Run) (huniform : ∀ bits, L.uniform bits = exactUniform bits)
    {row s : Nat} (hrow : row < L.rows) (hs : s < L.n_sample) (hw : ∀ i < L.n, 0 ≤ L.weights row i)
    (hsum : 0 < L.share row L.n) :
    ∃ k < L.n, r.dst (row * L.n_sample + s) = k ∧ ∀ k' < L.n,
      L.share row k' ≤ L.fraction row s * L.share row L.n ∧
        L.fraction row s * L.share row L.n < L.share row (k' + 1) ↔ k' = k := by
  have hn : 0 < L.n := Nat.pos_of_ne_zero fun hzero => by
    rw [hzero] at hsum
    exact lt_irrefl _ hsum
  obtain ⟨hu, hu1⟩ := uniform_range (K := K) (L.word (row * L.n_sample + s))
  have htotal : r.cdf (row * L.n + L.n - 1) = L.share row L.n := by
    rw [Nat.add_sub_assoc hn, r.cdf_eq hrow (by omega), Nat.sub_add_cancel hn]
  have htarget : L.target r.cdf row s = L.fraction row s * L.share row L.n := by
    unfold target
    rw [huniform, htotal]
    rfl
  change 0 ≤ L.fraction row s at hu
  change L.fraction row s < 1 at hu1
  generalize L.fraction row s = u at hu hu1 htarget ⊢
  have hlt : u * L.share row L.n < L.share row L.n := mul_lt_of_lt_one_left hsum hu1
  have hle : 0 ≤ u * L.share row L.n := mul_nonneg hu hsum.le
  have hcdf : ∀ i < L.n, r.cdf (row * L.n + i) = L.share row (i + 1) := fun i => r.cdf_eq hrow
  -- the place is the first one whose running sum is above the target
  obtain ⟨habove, hbelow⟩ := bisect_first (f := fun i => r.cdf (row * L.n + i))
    (x := u * L.share row L.n) (Nat.zero_le (L.n - 1))
    (fun i j hij hj => by
      rw [hcdf i (by omega), hcdf j (by omega)]
      exact share_mono hw (Nat.succ_le_succ hij) (by omega))
    (by rw [hcdf (L.n - 1) (by omega), Nat.sub_add_cancel hn]; exact hlt)
    (fun i hi => absurd hi (Nat.not_lt_zero i))
  have hplace := place_lt r.cdf row s hn
  have hdst := r.dst_eq hrow hs
  unfold place at hplace hdst
  rw [htarget] at hplace hdst
  generalize bisect (fun i => r.cdf (row * L.n + i)) (u * L.share row L.n) 0 (L.n - 1) = k at *
  rw [hcdf k hplace] at habove
  have hfront : L.share row k ≤ u * L.share row L.n := by
    cases k with
    | zero => exact hle
    | succ k =>
        rw [← hcdf k (Nat.lt_of_succ_lt hplace)]
        exact hbelow k (Nat.lt_succ_self k)
  have hpos : 0 < L.weights row k := by
    have hsucc : L.share row (k + 1) = L.share row k + L.weights row k := Finset.sum_range_succ _ _
    rw [hsucc] at habove
    exact pos_of_lt_add_right (lt_of_le_of_lt hfront habove)
  refine ⟨k, hplace, hdst.trans ?_, fun k' hk' => ⟨fun h => ?_, ?_⟩⟩
  · exact if_pos (decide_eq_true hpos)
  · obtain ⟨hk, hk1⟩ := h
    rcases Nat.lt_trichotomy k' k with hless | heq | hmore
    · exact absurd (hk1.trans_le (share_mono hw hless (by omega))) (not_lt_of_ge hfront)
    · exact heq
    · exact absurd (habove.trans_le (share_mono hw hmore (by omega))) (not_lt_of_ge hk)
  · rintro rfl
    exact ⟨hfront, habove⟩

end Exact

end Launch

/-! ## The check -/

theorem check_ok_iff {code : Nat} {fast_path : Bool} :
    _multinomial_check code fast_path = .ok () ↔ code = 0 := by
  unfold _multinomial_check
  split
  · next h => exact iff_of_true rfl h
  · next h =>
      refine iff_of_false (fun hok => ?_) h
      split at hok
      · split at hok <;> cases hok
      · split at hok
        · cases hok
        · split at hok <;> cases hok

section Check

variable {R : Type} [Zero R] [Add R] [LT R] [DecidableLT R] {kind : R → Int} {w : Nat → R} {n : Nat}

/-- What the sum and the flags of a row stand for: the steps of a thread and of the tree keep it. -/
theorem row_stands (kind : R → Int) (w : Nat → R) (n : Nat) {M : Type} [AddCommMonoid M]
    {P : R × Nat → M → Prop} {f : Nat → M} (hstart : P (0, 0) 0)
    (hstep : ∀ i, ∀ {s A}, P s A → P (checkStep kind s (w i)) (A + f i))
    (hmerge : ∀ {a b A B}, P a A → P b B → P (a.1 + b.1, a.2 ||| b.2) (A + B)) :
    P (rowCheck kind w n) (∑ i ∈ Finset.range n, f i) := by
  have hthreads : ∀ tid < 2 ^ 8, P (threadCheck kind w n tid) ((strided n MN_THREADS n tid).map f).sum :=
    fun tid _ => by
      have h := foldl_stands (l := strided n MN_THREADS n tid) (fun i _ => hstep i) hstart
      rwa [zero_add] at h
  have h := tree_merge hmerge hthreads
  rwa [show 2 ^ 8 = MN_THREADS from rfl, sum_threads f n (by decide)] at h

/-- No flag is set if and only if all entries are weights. -/
theorem rowCheck_clean : (rowCheck kind w n).2 = 0 ↔
    ∀ i < n, kind (w i) ≠ 1 ∧ kind (w i) ≠ 0 ∧ ¬ w i < 0 := by
  have h := row_stands kind w n (P := fun s (A : Nat) => s.2 = 0 ↔ A = 0)
    (f := fun i => if kind (w i) ≠ 1 ∧ kind (w i) ≠ 0 ∧ ¬ w i < 0 then 0 else 1) Iff.rfl
    (fun i s A hs => by
      unfold checkStep
      split
      · next hbad =>
          refine iff_of_false (fun h => ?_) (by rw [if_neg fun h => hbad.elim h.1 h.2.2]; omega)
          exact absurd (Nat.or_eq_zero_iff.mp h).2 (by decide)
      · next hneg =>
          split
          · next hinf =>
              refine iff_of_false (fun h => ?_) (by rw [if_neg fun h => h.2.1 hinf]; omega)
              exact absurd (Nat.or_eq_zero_iff.mp h).2 (by decide)
          · next hinf =>
              rw [if_pos ⟨fun h => hneg (.inl h), hinf, fun h => hneg (.inr h)⟩]
              exact hs)
    (fun ha hb => by rw [Nat.or_eq_zero_iff, ha, hb, Nat.add_eq_zero_iff])
  rw [h, Finset.sum_eq_zero_iff]
  refine forall_congr' fun i => ?_
  rw [Finset.mem_range]
  refine imp_congr_right fun _ => ?_
  split
  · next hgood => exact iff_of_true rfl hgood
  · next hbad => exact iff_of_false Nat.one_ne_zero hbad

/-- A sum is positive only if some entry is. -/
theorem rowCheck_weight (hzero : ¬ (0 : R) < 0) (hadd : ∀ a b : R, ¬ 0 < a → ¬ 0 < b → ¬ 0 < a + b)
    (hsum : 0 < (rowCheck kind w n).1) : ∃ i < n, 0 < w i := by
  have h := row_stands kind w n (P := fun s (A : Nat) => 0 < s.1 → 0 < A)
    (f := fun i => if 0 < w i then 1 else 0) (fun h => absurd h hzero)
    (fun i s A hs hpos => by
      by_cases hi : 0 < w i
      · rw [if_pos hi]
        exact Nat.succ_pos A
      · refine Nat.add_pos_left (hs ?_) _
        unfold checkStep at hpos
        split at hpos
        · exact hpos
        · split at hpos
          · exact hpos
          · exact not_not.mp fun hnone => hadd _ _ hnone hi hpos)
    (fun {a b A B} ha hb hpos => by
      by_cases hfirst : 0 < a.1
      · exact Nat.add_pos_left (ha hfirst) B
      · exact Nat.add_pos_right A (hb (not_not.mp fun hnone => hadd _ _ hfirst hnone hpos)))
    hsum
  by_contra hnone
  refine absurd h (Nat.not_lt.mpr (Nat.le_of_eq (Finset.sum_eq_zero fun i hi => if_neg fun hpos => ?_)))
  exact hnone ⟨i, Finset.mem_range.mp hi, hpos⟩

theorem rowCode_eq_zero : rowCode kind w n = 0 ↔ (rowCheck kind w n).2 = 0 ∧ 0 < (rowCheck kind w n).1 := by
  unfold rowCode
  split
  · next h => exact iff_of_false (by decide) fun h' => h.2 h'.2
  · next h => exact ⟨fun hflags => ⟨hflags, not_not.mp fun hsum => h ⟨hflags, hsum⟩⟩, And.left⟩

namespace Launch

variable {L : Launch R}

/-- The flag stays 0 if and only if no row has a code. -/
theorem CheckRun.flag_eq_zero (c : L.CheckRun) :
    c.flag () = 0 ↔ ∀ row < L.rows, rowCode L.kind (L.weights row) L.n = 0 := by
  have hmem : ∀ code, ((), code) ∈ L.flagWrites ↔
      ∃ row < L.rows, rowCode L.kind (L.weights row) L.n ≠ 0 ∧ rowCode L.kind (L.weights row) L.n = code := by
    intro code
    unfold flagWrites
    rw [List.mem_flatMap]
    constructor
    · rintro ⟨row, hrow, hcode⟩
      dsimp only at hcode
      split at hcode
      · next hne => exact ⟨row, mem_rows.mp hrow, hne, (congrArg Prod.snd (List.mem_singleton.mp hcode)).symm⟩
      · exact absurd hcode List.not_mem_nil
    · rintro ⟨row, hrow, hne, rfl⟩
      refine ⟨row, mem_rows.mpr hrow, ?_⟩
      dsimp only
      rw [if_pos hne]
      exact List.mem_singleton_self _
  obtain hstored | ⟨hnone, heq⟩ := c.flag_stored ()
  · obtain ⟨row, hrow, hne, hcode⟩ := (hmem _).mp hstored
    exact iff_of_false (hcode ▸ hne) fun h => hne (h row hrow)
  · refine iff_of_true heq fun row hrow => not_not.mp fun hne => ?_
    exact hnone _ ((hmem _).mpr ⟨row, hrow, hne, rfl⟩)

end Launch

end Check

namespace Launch

/-! ## Behind the check -/

section Exact

variable {K : Type} [Field K] [LinearOrder K] [IsStrictOrderedRing K] {L : Launch K}

/-- The runs in the order of the lists, with the arithmetic of the field. -/
def exactCheck (L : Launch K) : L.CheckRun := L.checkInOrder

def exactRun (L : Launch K) : L.Run := L.inOrder

omit [IsStrictOrderedRing K] in
/-- The sum of a row without bad entries. -/
theorem rowCheck_sum {row : Nat} (hclean : (rowCheck L.kind (L.weights row) L.n).2 = 0) :
    (rowCheck L.kind (L.weights row) L.n).1 = L.share row L.n := by
  refine row_stands _ _ _ (P := fun s A => s.2 = 0 → s.1 = A) (fun _ => rfl) (fun i s A hs => ?_)
    (fun ha hb h => ?_) hclean
  · unfold checkStep
    split
    · exact fun h => absurd (Nat.or_eq_zero_iff.mp h).2 (by decide)
    · split
      · exact fun h => absurd (Nat.or_eq_zero_iff.mp h).2 (by decide)
      · exact fun h => congrArg (· + L.weights row i) (hs h)
  · obtain ⟨h1, h2⟩ := Nat.or_eq_zero_iff.mp h
    exact congrArg₂ (· + ·) (ha h1) (hb h2)

omit [IsStrictOrderedRing K] in
theorem check_rows (hkind : ∀ v, L.kind v = -1) (c : L.CheckRun) : c.flag () = 0 ↔
    ∀ row < L.rows, (∀ i < L.n, 0 ≤ L.weights row i) ∧ 0 < L.share row L.n := by
  rw [c.flag_eq_zero]
  refine forall_congr' fun row => imp_congr_right fun _ => ?_
  have hclean : (rowCheck L.kind (L.weights row) L.n).2 = 0 ↔ ∀ i < L.n, 0 ≤ L.weights row i := by
    rw [rowCheck_clean]
    refine forall_congr' fun i => imp_congr_right fun _ => ?_
    rw [hkind, not_lt]
    exact ⟨fun h => h.2.2, fun h => ⟨by decide, by decide, h⟩⟩
  rw [rowCode_eq_zero, ← hclean]
  exact and_congr_right fun h => by rw [rowCheck_sum h]

/-- One row with the weights 0, 1 and 0, and two samples. -/
def middle : Launch ℚ where
  rows := 1
  n := 3
  n_sample := 2
  probs i := if i = 1 then 1 else 0
  kind _ := -1
  word e := if e = 0 then 0 else 0xFFFFFFFF
  uniform := exactUniform

theorem middle_passes : _multinomial_check (middle.exactCheck.flag ()) false = .ok () := by
  refine check_ok_iff.mpr ((check_rows (fun _ => rfl) _).mpr fun row hrow => ?_)
  obtain rfl : row = 0 := Nat.lt_one_iff.mp hrow
  refine ⟨fun i _ => ?_, ?_⟩
  · change (0 : ℚ) ≤ if 0 * 3 + i = 1 then 1 else 0
    split
    · exact zero_le_one
    · exact le_refl 0
  · change (0 : ℚ) < ∑ i ∈ Finset.range 3, if 0 * 3 + i = 1 then 1 else 0
    simp

omit [IsStrictOrderedRing K] in
/-- In exact arithmetic the check passes if and only if every row is a distribution up to its total. -/
theorem multinomial_check_exact (hkind : ∀ v, L.kind v = -1) (c : L.CheckRun) (fast_path : Bool) :
    _multinomial_check (c.flag ()) fast_path = .ok () ↔
      ∀ row < L.rows, (∀ i < L.n, 0 ≤ L.weights row i) ∧ 0 < L.share row L.n :=
  check_ok_iff.trans (check_rows hkind c)

theorem multinomial_check_exact_middle : _multinomial_check (middle.exactCheck.flag ()) true = .ok () ↔
    ∀ row < 1, (∀ i < 3, 0 ≤ middle.weights row i) ∧ 0 < middle.share row 3 :=
  multinomial_check_exact (fun _ => rfl) middle.exactCheck true

end Exact

section Any

variable {R : Type} [Zero R] [Add R] [Mul R] [LT R] [DecidableLT R] {L : Launch R}

/-- In any arithmetic where numbers that are not positive have no positive sum: when the check passes,
every sample is a category of its row with weight, the bisection for it reads the cdf of the row only,
and nothing is stored but samples. -/
theorem draws_have_weight (hzero : ¬ (0 : R) < 0) (hadd : ∀ a b : R, ¬ 0 < a → ¬ 0 < b → ¬ 0 < a + b)
    (c : L.CheckRun) {fast_path : Bool} (hok : _multinomial_check (c.flag ()) fast_path = .ok ()) (r : L.Run) :
    (∀ row < L.rows, ∀ s < L.n_sample,
      (∃ k < L.n, r.dst (row * L.n_sample + s) = k ∧ 0 < L.weights row k) ∧
      ∀ i ∈ bisectReads (fun i => r.cdf (row * L.n + i)) (L.target r.cdf row s) 0 (L.n - 1), i < L.n) ∧
    ∀ a, L.rows * L.n_sample ≤ a → r.dst a = r.dst₀ a := by
  have hrows := c.flag_eq_zero.mp (check_ok_iff.mp hok)
  refine ⟨fun row hrow s hs => ⟨?_, fun i hi => ?_⟩, fun a => r.dst_off⟩
  · exact r.dst_weight hrow hs (rowCheck_weight hzero hadd (rowCode_eq_zero.mp (hrows row hrow)).2)
  · exact Nat.lt_of_lt_of_le (bisectReads_lt _ _ _ _ i hi) (Nat.sub_le _ _)

theorem draws_have_weight_middle : ∃ k < 3, middle.exactRun.dst 1 = (k : Nat) ∧ 0 < middle.weights 0 k :=
  ((draws_have_weight (lt_irrefl 0) (fun _ _ ha hb => not_lt.mpr (add_nonpos (not_lt.mp ha) (not_lt.mp hb)))
    middle.exactCheck middle_passes middle.exactRun).1 0 Nat.zero_lt_one 1 Nat.one_lt_two).1

end Any

section Exact

variable {K : Type} [Field K] [LinearOrder K] [IsStrictOrderedRing K] {L : Launch K}

/-- In exact arithmetic, when the check passes, a sample is the one category whose share of the total
weight of its row holds the fraction of its random word. -/
theorem draws_exact (hkind : ∀ v, L.kind v = -1) (huniform : ∀ bits, L.uniform bits = exactUniform bits)
    (c : L.CheckRun) {fast_path : Bool} (hok : _multinomial_check (c.flag ()) fast_path = .ok ()) (r : L.Run)
    {row s : Nat} (hrow : row < L.rows) (hs : s < L.n_sample) :
    ∃ k < L.n, r.dst (row * L.n_sample + s) = k ∧ ∀ k' < L.n,
      L.share row k' ≤ L.fraction row s * L.share row L.n ∧
        L.fraction row s * L.share row L.n < L.share row (k' + 1) ↔ k' = k := by
  obtain ⟨hw, hsum⟩ := (check_rows hkind c).mp (check_ok_iff.mp hok) row hrow
  exact r.dst_exact huniform hrow hs hw hsum

theorem draws_exact_middle : ∃ k < middle.n, middle.exactRun.dst (0 * middle.n_sample + 1) = (k : Nat) ∧
    ∀ k' < middle.n, middle.share 0 k' ≤ middle.fraction 0 1 * middle.share 0 middle.n ∧
      middle.fraction 0 1 * middle.share 0 middle.n < middle.share 0 (k' + 1) ↔ k' = k :=
  draws_exact (fun _ => rfl) (fun _ => rfl) middle.exactCheck middle_passes middle.exactRun Nat.zero_lt_one
    Nat.one_lt_two

end Exact

end Launch

end TorchMojoBackend.Kernels.Multinomial
