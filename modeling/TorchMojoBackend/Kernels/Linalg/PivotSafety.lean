/-
  `Kernels.Linalg.PivotSafety`: what the pivots of a caller make the kernels access.

  Source: tmb/kernels/linalg/entry.mojo (`_laswp_kernel`, `_sytrs_kernel`),
  tmb/ops/linalg.mojo (`_perm_matrix`, `_lu_solve`, `_ldl_solve`).

  A pivots tensor holds any integers.  `_laswp_kernel` skips those that are no row.
  `_sytrs_kernel` guards the target of an interchange only: an entry that is not positive takes
  the next row with it, on the way down the following one and on the way up the one before,
  whether there is one or not.
-/
import TorchMojoBackend.Kernels.Linalg.Pivots

set_option autoImplicit false

namespace TorchMojoBackend.Kernels.Linalg

open TorchMojoBackend.Foundation
open TorchMojoBackend.Foundation.Code (Within within_bind within_each within_get within_put
  within_first within_of_get within_of_put within_of_bind)

variable {K : Type}

/-- The pivots are known; a cell of another kind may hold anything, as other threads write too. -/
def Known (piv : Int → Int) : ∀ c : Cell, Cell.Val K c → Prop
  | .piv x => fun v => v = piv x
  | _ => fun _ => True

/-- The cells of the batch entry `bb`: of the matrix, of its pivots and of its right-hand sides. -/
def Entry (n k nrows ncols : Nat) (aRs aCs aBs pivBs bRs bCs bBs : Int) (bb : Nat) : Cell → Prop
  | .a x => InMatrix n n aRs aCs (bb * aBs) x
  | .piv x => InVector k (bb * pivBs) x
  | .b x => InMatrix nrows ncols bRs bCs (bb * bBs) x
  | _ => False

/-! ## Row interchanges -/

/-- Row interchanges keep to their batch entry whatever the pivots are. -/
theorem laswpColumn_within {n k nrows ncols : Nat} {aRs aCs aBs pivBs bRs bCs bBs : Int}
    (piv : Int → Int) (forward : Bool) {t : Nat} (hcols : 0 < ncols) :
    (laswpColumn k nrows ncols bRs bCs bBs pivBs forward t : Code (Cell.Val K) Unit).Within
      (Entry n k nrows ncols aRs aCs aBs pivBs bRs bCs bBs (t / ncols)) (Known piv) := by
  have hrow : ∀ i : Nat, i < nrows → Entry n k nrows ncols aRs aCs aBs pivBs bRs bCs bBs
      (t / ncols) (.b (((t / ncols : Nat) : Int) * bBs + ((t % ncols : Nat) : Int) * bCs + i * bRs)) :=
    fun i hi => ⟨i, t % ncols, hi, Nat.mod_lt _ hcols, Int.add_right_comm _ _ _⟩
  refine within_each fun step hstep => ?_
  have hstep : step < k := List.mem_range.mp hstep
  dsimp only
  generalize hi : (if forward then step else k - 1 - step) = i
  have hik : i < k := by
    rw [← hi]
    split <;> omega
  refine within_get ⟨i, hik, rfl⟩ fun v _ => ?_
  split
  · rename_i hguard
    obtain ⟨-, hlow, hhigh, hin⟩ := hguard
    obtain ⟨p, hp⟩ := Int.eq_ofNat_of_zero_le hlow
    rw [hp] at hhigh ⊢
    have hpn := hrow p (Int.ofNat_lt.mp hhigh)
    exact ⟨hrow i hin, fun _ _ => ⟨hpn, fun _ _ => ⟨hrow i hin, trivial, hpn, trivial, trivial⟩⟩⟩
  · trivial

/-! ## The pattern of the pivots -/

/-- A walk that takes one row at a positive entry and two rows at any other ends at the end. -/
def Paired : List Int → Prop
  | [] => True
  | [p] => 0 < p
  | p :: q :: ps => if 0 < p then Paired (q :: ps) else Paired ps

def decidePaired : (ps : List Int) → Decidable (Paired ps)
  | [] => .isTrue trivial
  | [p] => inferInstanceAs (Decidable (0 < p))
  | p :: q :: ps =>
      have := decidePaired (q :: ps)
      have := decidePaired ps
      inferInstanceAs (Decidable (if 0 < p then Paired (q :: ps) else Paired ps))

instance : DecidablePred Paired := decidePaired

theorem paired_cons_pos {p : Int} {ps : List Int} (hp : 0 < p) : Paired (p :: ps) ↔ Paired ps := by
  cases ps with
  | nil => exact iff_of_true hp trivial
  | cons q ps => exact iff_of_eq (if_pos hp)

theorem paired_cons_nonpos {p q : Int} {ps : List Int} (hp : ¬ 0 < p) :
    Paired (p :: q :: ps) ↔ Paired ps := iff_of_eq (if_neg hp)

/-- The pivots of a batch entry. -/
def pivotList (piv : Int → Int) (pb : Int) (n : Nat) : List Int :=
  (List.range n).map fun i : Nat => piv (pb + i)

theorem length_pivotList (piv : Int → Int) (pb : Int) (n : Nat) : (pivotList piv pb n).length = n := by
  rw [pivotList, List.length_map, List.length_range]

theorem drop_pivotList (piv : Int → Int) (pb : Int) {n k : Nat} (hk : k < n) :
    (pivotList piv pb n).drop k = piv (pb + k) :: (pivotList piv pb n).drop (k + 1) := by
  have hlen : k < (pivotList piv pb n).length := by rwa [length_pivotList]
  rw [List.drop_eq_getElem_cons hlen]
  simp only [pivotList, List.getElem_map, List.getElem_range]

theorem reverse_pivotList (piv : Int → Int) (pb : Int) (n : Nat) :
    (pivotList piv pb (n + 1)).reverse = piv (pb + n) :: (pivotList piv pb n).reverse := by
  rw [pivotList, List.range_succ, List.map_append, List.reverse_append]
  rfl

/-! ## The solve -/

section Solve

variable [One K] [Zero K] [Add K] [Sub K] [Mul K] [Div K]
variable {n : Nat} {aRs aCs bRs ab pb cb : Int} {piv : Int → Int} {R : Cell → Prop}

/-- The cells of one column of an entry are in a region. -/
structure Column (n : Nat) (aRs aCs bRs ab pb cb : Int) (R : Cell → Prop) : Prop where
  a : ∀ i j : Nat, i < n → j < n → R (.a (ab + i * aRs + j * aCs))
  piv : ∀ i : Nat, i < n → R (.piv (pb + i))
  b : ∀ i : Nat, i < n → R (.b (cb + i * bRs))

omit [One K] [Zero K] [Add K] [Sub K] [Mul K] [Div K] in
theorem swap_within (h : Column n aRs aCs bRs ab pb cb R) {i : Nat} (hi : i < n) (j : Int) :
    (sytrsSwap n bRs cb i j : Code (Cell.Val K) Unit).Within R (Known piv) := by
  unfold sytrsSwap
  split
  · rename_i hguard
    obtain ⟨-, hlow, hhigh⟩ := hguard
    obtain ⟨p, rfl⟩ := Int.eq_ofNat_of_zero_le hlow
    have hp := h.b p (Int.ofNat_lt.mp hhigh)
    exact ⟨h.b i hi, fun _ _ => ⟨hp, fun _ _ => ⟨h.b i hi, trivial, hp, trivial, trivial⟩⟩⟩
  · trivial

omit [One K] [Zero K] [Add K] [Div K] in
theorem update_within (h : Column n aRs aCs bRs ab pb cb R) (start : Nat) {j : Nat} (hj : j < n)
    (x : K) : (sytrsUpdate n aRs aCs bRs ab cb start j x).Within R (Known piv) := by
  refine within_each fun i hi => ?_
  obtain ⟨-, hin⟩ := mem_rangeFrom.mp hi
  exact ⟨h.b i hin, fun _ _ => ⟨h.a i j hin hj, fun _ _ => ⟨h.b i hin, trivial, trivial⟩⟩⟩

omit [One K] [Sub K] [Div K] in
theorem dot_within (h : Column n aRs aCs bRs ab pb cb R) (start : Nat) {j : Nat} (hj : j < n) :
    (sytrsDot n aRs aCs bRs ab cb start j : Code (Cell.Val K) K).Within R (Known piv) := by
  unfold sytrsDot
  have hall : ∀ i ∈ rangeFrom start n, i < n := fun i hi => (mem_rangeFrom.mp hi).2
  generalize rangeFrom start n = l at hall
  generalize (0 : K) = acc
  induction l generalizing acc with
  | nil => trivial
  | cons i l ih =>
      have hin := hall i List.mem_cons_self
      exact ⟨h.b i hin, fun b _ => ⟨h.a i j hin hj, fun x _ =>
        ih (fun i' hi' => hall i' (List.mem_cons_of_mem _ hi')) _⟩⟩

omit [Zero K] [Add K] in
theorem forward_within (h : Column n aRs aCs bRs ab pb cb R) (k : Nat)
    (hpaired : Paired ((pivotList piv pb n).drop k)) :
    (sytrsForward n aRs aCs bRs ab pb cb k : Code (Cell.Val K) Unit).Within R (Known piv) := by
  induction hd : n - k using Nat.strong_induction_on generalizing k with
  | h d ih =>
      rw [sytrsForward]
      split
      · rename_i hk
        rw [drop_pivotList piv pb hk] at hpaired
        refine within_get (h.piv k hk) fun p hp => ?_
        obtain rfl : p = piv (pb + k) := hp
        split
        · rename_i hpos
          have hnext := ih (n - (k + 1)) (by omega) (k + 1) ((paired_cons_pos hpos).mp hpaired) rfl
          refine within_bind (swap_within h hk _) fun _ => within_get (h.b k hk) fun bk _ => ?_
          refine within_bind (update_within h _ hk _) fun _ => ?_
          exact within_get (h.a k k hk hk) fun d _ => within_put (h.b k hk) trivial hnext
        · rename_i hnonpos
          -- the block has a second row
          have hk1 : k + 1 < n := by
            by_contra hlast
            have hnil : (pivotList piv pb n).drop (k + 1) = [] :=
              List.drop_eq_nil_of_le (by rw [length_pivotList]; omega)
            rw [hnil] at hpaired
            exact hnonpos hpaired
          rw [drop_pivotList piv pb hk1, paired_cons_nonpos hnonpos] at hpaired
          have hnext := ih (n - (k + 2)) (by omega) (k + 2) hpaired rfl
          have hb1 : R (.b (cb + ((k : Int) + 1) * bRs)) := h.b (k + 1) hk1
          have ha1 : R (.a (ab + ((k : Int) + 1) * aRs + k * aCs)) := h.a (k + 1) k hk1 hk
          have ha11 : R (.a (ab + ((k : Int) + 1) * aRs + ((k : Int) + 1) * aCs)) :=
            h.a (k + 1) (k + 1) hk1 hk1
          refine within_bind (swap_within h hk1 _) fun _ => within_get (h.b k hk) fun bk _ => ?_
          refine within_get hb1 fun bk1 _ => within_bind (update_within h _ hk _) fun _ => ?_
          refine within_bind (update_within h _ hk1 _) fun _ => within_get ha1 fun _ _ => ?_
          refine within_get (h.a k k hk hk) fun _ _ => within_get ha11 fun _ _ => ?_
          exact within_put (h.b k hk) trivial (within_put hb1 trivial hnext)
      · trivial

omit [One K] [Div K] in
theorem backward_within (h : Column n aRs aCs bRs ab pb cb R) (c : Nat) (hc : c ≤ n)
    (hpaired : Paired (pivotList piv pb c).reverse) :
    (sytrsBackward n aRs aCs bRs ab pb cb (c - 1) : Code (Cell.Val K) Unit).Within R
      (Known piv) := by
  induction c using Nat.strong_induction_on with
  | h c ih =>
      cases c with
      | zero =>
          rw [sytrsBackward, if_neg (by omega)]
          trivial
      | succ k =>
          have hk : k < n := hc
          have hcast : (((k + 1 : Nat) : Int) - 1) = (k : Int) := by omega
          rw [hcast, sytrsBackward, if_pos (Int.natCast_nonneg k)]
          rw [reverse_pivotList] at hpaired
          refine within_get (h.piv k hk) fun p hp => within_bind (dot_within h _ hk) fun acc => ?_
          obtain rfl : p = piv (pb + k) := hp
          split
          · rename_i hpos
            have hnext := ih k (Nat.lt_succ_self k) (Nat.le_of_lt hk) ((paired_cons_pos hpos).mp hpaired)
            exact within_get (h.b k hk) fun _ _ => within_put (h.b k hk) trivial
              (within_bind (swap_within h hk _) fun _ => hnext)
          · rename_i hnonpos
            -- the block has a row before this one
            obtain ⟨j, rfl⟩ : ∃ j, k = j + 1 := by
              refine Nat.exists_eq_succ_of_ne_zero fun hzero => ?_
              subst hzero
              exact hnonpos hpaired
            have hj : j < n := by omega
            rw [reverse_pivotList, paired_cons_nonpos hnonpos] at hpaired
            have hnext := ih j (by omega) (Nat.le_of_lt hj) hpaired
            have hrow : (((j + 1 : Nat) : Int) - 1) = (j : Int) := by omega
            have hrow2 : (((j + 1 : Nat) : Int) - 2) = (j : Int) - 1 := by omega
            rw [hrow, hrow2]
            refine within_bind (dot_within h _ hj) fun acc1 => within_get (h.b _ hk) fun _ _ => ?_
            refine within_put (h.b _ hk) trivial (within_get (h.b j hj) fun _ _ => ?_)
            exact within_put (h.b j hj) trivial (within_bind (swap_within h hk _) fun _ => hnext)

/-! ### Where the pattern fails -/

omit [One K] [Add K] [Sub K] [Mul K] [Div K] in
theorem exists_known (piv : Int → Int) (c : Cell) : ∃ v : Cell.Val K c, Known piv c v := by
  cases c with
  | float arg x => exact ⟨(0 : K), trivial⟩
  | int arg x =>
      cases arg with
      | piv => exact ⟨piv x, rfl⟩
      | info => exact ⟨(0 : Int), trivial⟩
  | sv block tid => exact ⟨(0 : K), trivial⟩
  | si block tid => exact ⟨(0 : Int), trivial⟩

omit [Add K] in
/-- A walk down that keeps to a region without the row behind the last one follows the pattern. -/
theorem paired_of_forward (hlast : ¬ R (.b (cb + n * bRs))) (k : Nat)
    (h : (sytrsForward n aRs aCs bRs ab pb cb k : Code (Cell.Val K) Unit).Within R (Known piv)) :
    Paired ((pivotList piv pb n).drop k) := by
  induction hd : n - k using Nat.strong_induction_on generalizing k with
  | h d ih =>
      by_cases hk : k < n
      · rw [sytrsForward, if_pos hk] at h
        rw [drop_pivotList piv pb hk]
        have h := (within_of_get h).2 (piv (pb + k)) rfl
        by_cases hpos : 0 < piv (pb + k)
        · rw [if_pos hpos] at h
          obtain ⟨_, h⟩ := within_of_bind (exists_known piv) h
          obtain ⟨_, h⟩ := within_of_bind (exists_known piv) ((within_of_get h).2 (0 : K) trivial)
          have h := (within_of_put ((within_of_get h).2 (0 : K) trivial)).2
          exact (paired_cons_pos hpos).mpr (ih (n - (k + 1)) (by omega) (k + 1) h rfl)
        · rw [if_neg hpos] at h
          obtain ⟨_, h⟩ := within_of_bind (exists_known piv) h
          have h := (within_of_get h).2 (0 : K) trivial
          by_cases hk1 : k + 1 < n
          · rw [drop_pivotList piv pb hk1, paired_cons_nonpos hpos]
            obtain ⟨_, h⟩ := within_of_bind (exists_known piv) ((within_of_get h).2 (0 : K) trivial)
            obtain ⟨_, h⟩ := within_of_bind (exists_known piv) h
            have h := (within_of_get h).2 (0 : K) trivial
            have h := (within_of_get ((within_of_get h).2 (0 : K) trivial)).2 (0 : K) trivial
            have h := (within_of_put (within_of_put h).2).2
            exact ih (n - (k + 2)) (by omega) (k + 2) h rfl
          · -- it loads the row behind the last one
            have hn : (k : Int) + 1 = (n : Int) := by omega
            rw [hn] at h
            exact absurd (within_of_get h).1 hlast
      · rw [List.drop_eq_nil_of_le (by rw [length_pivotList]; omega)]
        trivial

omit [One K] [Div K] in
/-- A walk up that keeps to a region without the row before the first one follows the pattern. -/
theorem paired_of_backward (hfirst : ¬ R (.b (cb + (-1 : Int) * bRs))) (c : Nat)
    (h : (sytrsBackward n aRs aCs bRs ab pb cb (c - 1) : Code (Cell.Val K) Unit).Within R
      (Known piv)) : Paired (pivotList piv pb c).reverse := by
  induction c using Nat.strong_induction_on with
  | h c ih =>
      cases c with
      | zero => trivial
      | succ k =>
          have hcast : (((k + 1 : Nat) : Int) - 1) = (k : Int) := by omega
          rw [hcast, sytrsBackward, if_pos (Int.natCast_nonneg k)] at h
          rw [reverse_pivotList]
          obtain ⟨_, h⟩ := within_of_bind (exists_known piv) ((within_of_get h).2 (piv (pb + k)) rfl)
          by_cases hpos : 0 < piv (pb + k)
          · rw [if_pos hpos] at h
            have h := (within_of_put ((within_of_get h).2 (0 : K) trivial)).2
            obtain ⟨_, h⟩ := within_of_bind (exists_known piv) h
            exact (paired_cons_pos hpos).mpr (ih k (Nat.lt_succ_self k) h)
          · rw [if_neg hpos] at h
            obtain ⟨_, h⟩ := within_of_bind (exists_known piv) h
            have h := (within_of_put ((within_of_get h).2 (0 : K) trivial)).2
            cases k with
            | zero => exact absurd (within_of_get h).1 hfirst
            | succ j =>
                have hrow : (((j + 1 : Nat) : Int) - 2) = (j : Int) - 1 := by omega
                rw [reverse_pivotList, paired_cons_nonpos hpos]
                have h := (within_of_put ((within_of_get h).2 (0 : K) trivial)).2
                obtain ⟨_, h⟩ := within_of_bind (exists_known piv) h
                rw [hrow] at h
                exact ih j (by omega) h

end Solve

/-! ## All columns -/

section Columns

variable [One K] [Zero K] [Add K] [Sub K] [Mul K] [Div K]
variable {n ncols batch : Nat} {aRs aCs aBs pivBs bBs : Int} {piv : Int → Int}

omit [One K] [Zero K] [Add K] [Sub K] [Mul K] [Div K] in
/-- The columns of all threads are the columns of all entries. -/
theorem forall_threadColumns {threads total : Nat} (hthreads : 0 < threads) {p : Nat → Prop} :
    (∀ thread < threads, ∀ t ∈ threadColumns threads total thread, p t) ↔ ∀ t < total, p t := by
  have hmem : ∀ {thread t}, t ∈ threadColumns threads total thread ↔
      thread ≤ t ∧ t < total ∧ t % threads = thread % threads :=
    mem_strided hthreads (Nat.le_add_left _ _)
  constructor
  · intro h t ht
    exact h (t % threads) (Nat.mod_lt _ hthreads) t
      (hmem.mpr ⟨Nat.mod_le _ _, ht, (Nat.mod_mod _ _).symm⟩)
  · intro h thread _ t ht
    exact h t (hmem.mp ht).2.1

omit [One K] [Zero K] [Add K] [Sub K] [Mul K] [Div K] in
/-- No element of a dense column-major matrix is one row behind its last column. -/
theorem not_inMatrix_last (hcols : 0 < ncols) (base : Int) :
    ¬ InMatrix n ncols 1 n base (base + ((ncols - 1 : Nat) : Int) * n + n * 1) := by
  rintro ⟨i, j, hi, hj, heq⟩
  have hlt : i + j * n < ncols * n := by
    have hrow := row_major_lt hj hi
    omega
  have hnat : ((ncols - 1 : Nat) : Int) * n + n = ((ncols * n : Nat) : Int) := by
    obtain ⟨c, rfl⟩ := Nat.exists_eq_succ_of_ne_zero (Nat.ne_of_gt hcols)
    rw [Nat.succ_sub_one, Nat.succ_mul]
    push_cast
    rfl
  have hcell : ((i + j * n : Nat) : Int) = i + (j : Int) * n := by push_cast; rfl
  omega

omit [One K] [Zero K] [Add K] [Sub K] [Mul K] [Div K] in
/-- No element is one row before its first column. -/
theorem not_inMatrix_first (base : Int) :
    ¬ InMatrix n ncols 1 n base (base + ((0 : Nat) : Int) * n + (-1 : Int) * 1) := by
  rintro ⟨i, j, -, -, heq⟩
  have hcell : ((j * n : Nat) : Int) = (j : Int) * n := by push_cast; rfl
  omega

/-- The columns of an entry, where its pivots follow the pattern in both directions. -/
theorem sytrsColumn_within {bRs bCs : Int} {t : Nat} (hcols : 0 < ncols)
    (hdown : Paired (pivotList piv ((t / ncols : Nat) * pivBs) n))
    (hup : Paired (pivotList piv ((t / ncols : Nat) * pivBs) n).reverse) :
    (sytrsColumn n ncols aRs aCs aBs pivBs bRs bCs bBs t : Code (Cell.Val K) Unit).Within
      (Entry n n n ncols aRs aCs aBs pivBs bRs bCs bBs (t / ncols)) (Known piv) := by
  have hcolumn : Column n aRs aCs bRs ((t / ncols : Nat) * aBs) ((t / ncols : Nat) * pivBs)
      ((t / ncols : Nat) * bBs + (t % ncols : Nat) * bCs)
      (Entry n n n ncols aRs aCs aBs pivBs bRs bCs bBs (t / ncols)) :=
    ⟨fun i j hi hj => ⟨i, j, hi, hj, rfl⟩, fun i hi => ⟨i, hi, rfl⟩,
      fun i hi => ⟨i, t % ncols, hi, Nat.mod_lt _ hcols, Int.add_right_comm _ _ _⟩⟩
  exact within_bind (forward_within hcolumn 0 hdown) fun _ =>
    backward_within hcolumn n (Nat.le_refl n) hup

/-- The last column of an entry needs the pattern on the way down. -/
theorem paired_of_last (hcols : 0 < ncols) {bb : Nat}
    (h : (sytrsColumn n ncols aRs aCs aBs pivBs 1 n bBs (bb * ncols + (ncols - 1)) :
      Code (Cell.Val K) Unit).Within (Entry n n n ncols aRs aCs aBs pivBs 1 n bBs bb) (Known piv)) :
    Paired (pivotList piv (bb * pivBs) n) := by
  have hlast : ncols - 1 < ncols := by omega
  unfold sytrsColumn at h
  dsimp only at h
  rw [row_div hlast, Nat.mul_add_mod_of_lt hlast] at h
  exact paired_of_forward (not_inMatrix_last hcols _) 0 (within_first h)

/-- The first column of an entry needs the pattern on the way up. -/
theorem paired_of_first (hcols : 0 < ncols) {bb : Nat}
    (h : (sytrsColumn n ncols aRs aCs aBs pivBs 1 n bBs (bb * ncols + 0) :
      Code (Cell.Val K) Unit).Within (Entry n n n ncols aRs aCs aBs pivBs 1 n bBs bb) (Known piv)) :
    Paired (pivotList piv (bb * pivBs) n).reverse := by
  unfold sytrsColumn at h
  dsimp only at h
  rw [row_div hcols, Nat.mul_add_mod_of_lt hcols] at h
  obtain ⟨_, h⟩ := within_of_bind (exists_known piv) h
  exact paired_of_backward (not_inMatrix_first _) n h

end Columns

end TorchMojoBackend.Kernels.Linalg
