/-
  `Foundation.ThreadSums`: what the threads of a launch do, as sums.

  Everything in this file is independent of the modelled program.  Threads share items by
  strides, groups of threads share rows, a line is cut into chunks; whatever is added up
  over the threads is added up over the items, each once.  A loop keeps what a state
  stands for, item by item.
-/
import TorchMojoBackend.Foundation.Atomics

set_option autoImplicit false

namespace TorchMojoBackend.Foundation

universe u v

/-! ## Loops over states -/

/-- A loop over two sums at once. -/
theorem foldl_pair {ι : Type*} {K : Type u} [AddMonoid K] (F G : ι → K) (l : List ι) (s : K × K) :
    l.foldl (fun s e => (s.1 + F e, s.2 + G e)) s = (s.1 + (l.map F).sum, s.2 + (l.map G).sum) := by
  induction l generalizing s with
  | nil => rw [List.foldl_nil, List.map_nil, List.map_nil, List.sum_nil, add_zero, add_zero]
  | cons e l ih => rw [List.foldl_cons, ih, List.map_cons, List.map_cons, List.sum_cons,
      List.sum_cons, add_assoc, add_assoc]

/-- A loop over independent states, seen from one of them. -/
theorem foldl_states {ι κ T : Type*} (step : ι → κ → T → T) (l : List ι) (states : κ → T) (k : κ) :
    l.foldl (fun states j k => step j k (states k)) states k =
      l.foldl (fun s j => step j k s) (states k) := by
  induction l generalizing states with
  | nil => rfl
  | cons j l ih => rw [List.foldl_cons, ih, List.foldl_cons]

/-- A loop keeps what its state stands for. -/
theorem foldl_stands {ι T : Type*} {M : Type u} [AddCommMonoid M] {stands : T → M → Prop}
    {step : T → ι → T} {f : ι → M} :
    ∀ {l : List ι}, (∀ i ∈ l, ∀ {s A}, stands s A → stands (step s i) (A + f i)) →
      ∀ {s A}, stands s A → stands (l.foldl step s) (A + (l.map f).sum) := by
  intro l
  induction l with
  | nil =>
      intro _ s A h
      rwa [List.map_nil, List.sum_nil, add_zero]
  | cons i l ih =>
      intro hstep s A h
      rw [List.foldl_cons, List.map_cons, List.sum_cons, ← add_assoc]
      exact ih (fun j hj => hstep j (List.mem_cons_of_mem i hj)) (hstep i List.mem_cons_self h)

/-! ## Strides -/

/-- A loop that looks ahead by less than its step. -/
theorem strided_ahead {n step fuel i c : Nat} :
    (strided n step fuel i).filterMap (fun j => if j + c < n then some (j + c) else none) =
      strided n step fuel (i + c) := by
  induction fuel generalizing i with
  | zero => rfl
  | succ fuel ih =>
      have hnext : i + step + c = i + c + step := by omega
      have hrest := ih (i := i + step)
      rw [hnext] at hrest
      rw [strided, strided]
      by_cases hin : i + c < n
      · rw [if_pos hin, if_pos (by omega : i < n), List.filterMap_cons, if_pos hin, hrest]
      · rw [if_neg hin]
        split
        · rw [List.filterMap_cons, if_neg hin, hrest]
          cases fuel with
          | zero => rfl
          | succ fuel => rw [strided, if_neg (by omega)]
        · rfl

section
variable {M : Type u} [AddCommMonoid M]

/-- The threads of a grid add up every item once. -/
theorem sum_threads (f : Nat → M) {threads : Nat} (n : Nat) (hthreads : 0 < threads) :
    ∑ tid ∈ Finset.range threads, ((strided n threads n tid).map f).sum =
      ∑ j ∈ Finset.range n, f j := by
  rw [← sum_map_range, ← sum_map_flatMap, ← sum_map_range f n]
  exact ((gridItems_perm n hthreads).map f).sum_eq

/-- Threads that start at `base`. -/
theorem sum_threads_from (f : Nat → M) {threads base n fuel : Nat} (hthreads : 0 < threads)
    (hfuel : n ≤ fuel) :
    ∑ tid ∈ Finset.range threads, ((strided n threads fuel (base + tid)).map f).sum =
      ∑ i ∈ Finset.range (n - base), f (base + i) := by
  rw [← sum_map_range, ← sum_map_flatMap, ← sum_map_range (fun i => f (base + i)),
    ((strided_from_perm hthreads hfuel).map f).sum_eq, List.map_map]
  rfl

/-- A sum by runs of one length. -/
theorem sum_runs (f : Nat → M) (m n : Nat) :
    ∑ j ∈ Finset.range (m * n), f j =
      ∑ w ∈ Finset.range m, ∑ l ∈ Finset.range n, f (w * n + l) := by
  induction m with
  | zero => rw [Nat.zero_mul, Finset.range_zero, Finset.sum_empty, Finset.sum_empty]
  | succ m ih => rw [Nat.succ_mul, Finset.sum_range_add, ih, Finset.sum_range_succ]

/-- A sum by chunks of one length, of which the last ones may be short or empty. -/
theorem sum_chunks (f : Nat → M) (n chunk splits : Nat) :
    ∑ s ∈ Finset.range splits,
        ∑ i ∈ Finset.range (min n (s * chunk + chunk) - s * chunk), f (s * chunk + i) =
      ∑ i ∈ Finset.range (min n (splits * chunk)), f i := by
  induction splits with
  | zero => rw [Nat.zero_mul, Nat.min_zero, Finset.range_zero, Finset.sum_empty, Finset.sum_empty]
  | succ s ih =>
      rw [Finset.sum_range_succ, ih, Nat.succ_mul]
      by_cases hin : s * chunk ≤ n
      · have hsplit : min n (s * chunk + chunk) =
            s * chunk + (min n (s * chunk + chunk) - s * chunk) := by omega
        rw [Nat.min_eq_right hin]
        conv_rhs => rw [hsplit, Finset.sum_range_add]
      · have hnone : min n (s * chunk + chunk) - s * chunk = 0 := by omega
        rw [hnone, Finset.range_zero, Finset.sum_empty, add_zero, Nat.min_eq_left (by omega),
          Nat.min_eq_left (by omega)]

/-- Sums over a list and over a set. -/
theorem sum_map_comm {ι κ : Type*} (l : List ι) (t : Finset κ) (F : ι → κ → M) :
    ∑ k ∈ t, (l.map fun i => F i k).sum = (l.map fun i => ∑ k ∈ t, F i k).sum := by
  induction l with
  | nil => exact Finset.sum_const_zero
  | cons i l ih => simp only [List.map_cons, List.sum_cons, Finset.sum_add_distrib, ih]

/-- Threads in groups, of which the first ones act on rows. -/
theorem sum_firsts (g : Nat → M) {groups tpr : Nat} (htpr : 0 < tpr) :
    ∑ tid ∈ Finset.range (groups * tpr), (if tid % tpr = 0 then g (tid / tpr) else 0) =
      ∑ q ∈ Finset.range groups, g q := by
  rw [sum_runs]
  refine Finset.sum_congr rfl fun q _ => ?_
  rw [Finset.sum_eq_single_of_mem 0 (Finset.mem_range.mpr htpr) fun e he hne => ?_]
  · rw [row_div htpr, Nat.add_zero, Nat.mul_mod_left, if_pos rfl]
  · rw [Nat.mul_add_mod_of_lt (Finset.mem_range.mp he), if_neg hne]

/-- Blocks of groups of threads, which walk over the rows in rounds. -/
theorem sum_rounds (g : Nat → M) {grid groups tpr : Nat} (rows : Nat) (hgrid : 0 < grid)
    (hgroups : 0 < groups) (htpr : 0 < tpr) :
    ∑ bx ∈ Finset.range grid, ((strided rows (grid * groups) rows (bx * groups)).map fun r0 =>
      ∑ tid ∈ Finset.range (groups * tpr),
        if r0 + tid / tpr < rows ∧ tid % tpr = 0 then g (r0 + tid / tpr) else 0).sum =
      ∑ r ∈ Finset.range rows, g r := by
  have hround : ∀ r0, ∑ tid ∈ Finset.range (groups * tpr),
      (if r0 + tid / tpr < rows ∧ tid % tpr = 0 then g (r0 + tid / tpr) else 0) =
        ∑ q ∈ Finset.range groups, if r0 + q < rows then g (r0 + q) else 0 := fun r0 => by
    rw [← sum_firsts (fun q => if r0 + q < rows then g (r0 + q) else 0) htpr]
    refine Finset.sum_congr rfl fun tid _ => ?_
    rw [← ite_and]
    exact if_congr and_comm rfl rfl
  have hrow : ∀ bx q, ((strided rows (grid * groups) rows (bx * groups)).map fun r0 =>
      if r0 + q < rows then g (r0 + q) else 0).sum =
        ((strided rows (grid * groups) rows (bx * groups + q)).map g).sum := fun bx q => by
    rw [← strided_ahead, sum_map_filterMap]
    refine congrArg List.sum (List.map_congr_left fun r0 _ => ?_)
    split <;> rfl
  simp only [hround, ← sum_map_comm, hrow]
  rw [← sum_runs fun t => ((strided rows (grid * groups) rows t).map g).sum]
  exact sum_threads g rows (Nat.mul_pos hgrid hgroups)

/-- Tiles of columns, of which the first lanes act on those inside. -/
theorem sum_tiles (g : Nat → M) {tiles lanes cw n : Nat} (hlanes : 0 < lanes)
    (hn : n ≤ tiles * cw) :
    ∑ tile ∈ Finset.range tiles, ∑ tid ∈ Finset.range (lanes * cw),
      (if tile * cw + tid % cw < n ∧ tid / cw = 0 then g (tile * cw + tid % cw) else 0) =
      ∑ i ∈ Finset.range n, g i := by
  have hinside : (Finset.range (tiles * cw)).filter (· < n) = Finset.range n := by
    ext i
    rw [Finset.mem_filter, Finset.mem_range, Finset.mem_range]
    omega
  rw [← hinside, Finset.sum_filter, sum_runs]
  refine Finset.sum_congr rfl fun tile _ => ?_
  rw [sum_runs, Finset.sum_eq_single_of_mem 0 (Finset.mem_range.mpr hlanes) fun l _ hne => ?_]
  · refine Finset.sum_congr rfl fun c hc => ?_
    have hlt := Finset.mem_range.mp hc
    have hfirst : (0 * cw + c) / cw = 0 := row_div hlt
    rw [Nat.mul_add_mod_of_lt hlt]
    exact if_congr (and_iff_left hfirst) rfl rfl
  · refine Finset.sum_eq_zero fun c hc => ?_
    rw [row_div (Finset.mem_range.mp hc), if_neg fun h => hne h.2]

end

/-- The items of a range, one by one. -/
theorem sum_singletons {α : Type u} (f : Nat → α) (n : Nat) :
    ∑ i ∈ Finset.range n, ({f i} : Multiset α) = (Multiset.range n).map f := by
  induction n with
  | zero => rfl
  | succ n ih => rw [Finset.sum_range_succ, ih, Multiset.range_succ, Multiset.map_cons, add_comm,
      Multiset.singleton_add]

/-- The items of a list, one by one. -/
theorem sum_map_singletons {ι : Type*} {α : Type u} (f : ι → α) (l : List ι) :
    (l.map fun i => ({f i} : Multiset α)).sum = (l.map f : List α) := by
  induction l with
  | nil => rfl
  | cons i l ih => rw [List.map_cons, List.sum_cons, ih, List.map_cons, Multiset.singleton_add,
      Multiset.cons_coe]

end TorchMojoBackend.Foundation
