/-
  `Kernels.OrderStatistics`: the order statistics of rows.

  Source: tmb/kernels/sort/entry.mojo (`_select_kernel`, `_dispatch_select`), tmb/ops/reductions.mojo
  (`_order_stat_rows_into`).

  One position of each sorted row is read: the one asked for, or one that a bisection for the first
  NaN decides.  NaN has the greatest key.
-/
import TorchMojoBackend.Kernels.RowSortStable

set_option autoImplicit false

namespace TorchMojoBackend.Kernels.RowSort

open TorchMojoBackend.Foundation

universe u w

/-- `SELECT_KTH`, `SELECT_MEDIAN` and `SELECT_NANMEDIAN`. -/
inductive SelectMode where
  | kth
  | median
  | nanmedian
  deriving DecidableEq

section Model

variable {K : Type u} [LinearOrder K] [BoundedOrder K] {α : Type w}

/-- `while lo < hi`: the bisection for the first all-ones key of a row. -/
def firstNan (keys : Nat → K) (lo hi : Nat) : Nat :=
  if lo < hi then
    if keys ((lo + hi) / 2) = ⊤ then firstNan keys lo ((lo + hi) / 2)
    else firstNan keys ((lo + hi) / 2 + 1) hi
  else lo
termination_by hi - lo
decreasing_by all_goals omega

/-- `p` in `_select_kernel`. -/
def selectPos (mode : SelectMode) (keys : Nat → K) (n pos : Nat) : Nat :=
  match mode with
  | .kth => pos
  | .median => if firstNan keys 0 n < n then firstNan keys 0 n else pos
  | .nanmedian => if firstNan keys 0 n > 0 then (firstNan keys 0 n - 1) / 2 else 0

/-- `src` in `_select_kernel`. -/
def selectSrc (n pad : Nat) (mode : SelectMode) (pos : Nat) (ws : Nat → Pair K) (row : Nat) : Nat :=
  (ws (row * pad + selectPos mode (fun i => (ws (row * pad + i)).1) n pos)).2

/-- The elements that `_select_kernel` moves: a row of the result and a position of the operand. -/
def selects (rows n pad : Nat) (mode : SelectMode) (pos : Nat) (ws : Nat → Pair K) :
    List (Nat × Nat × Nat) :=
  (gridItems (gsBlocks rows * GS_THREADS) rows).map fun row =>
    (row, row * n + selectSrc n pad mode pos ws row, selectSrc n pad mode pos ws row)

/-- `_select_kernel`, to the result at `outAt`. -/
structure Select (rows n pad outAt : Nat) (mode : SelectMode) (pos : Nat) (vals : Nat → α)
    (ws : Nat → Pair K) (out out' : Out α) : Prop where
  values : Stores ((selects rows n pad mode pos ws).map fun g => (outAt + g.1, vals g.2.1))
    out.values out'.values
  indices : Stores ((selects rows n pad mode pos ws).map fun g => (outAt + g.1, g.2.2))
    out.indices out'.indices

/-- The calls of `_sort_rows_into` with a select mode, for the rows from each `r0` on. -/
def StatCalls (wide topk : Bool) (sortKey : α → K) (vals : Nat → α) (rows n outK : Nat)
    (mode : SelectMode) (pos : Nat) : List Nat → (Nat → Pair K) → Out α → Out α → Prop
  | [], _, out, out' => out' = out
  | r0 :: rest, ws, out, out' =>
    let route := (routePad wide topk n outK).1
    let pad := (routePad wide topk n outK).2
    let r := min (min rows SORT_MAX_GRID_ROWS) (rows - r0)
    ∃ plan ws' mid, sortPairsGpu wide n outK pad route = some plan ∧
      RunLaunches wide false r (fun p => sortKey (vals (r0 * n + p))) plan ws ws' ∧
      Select r n pad r0 mode pos (fun p => vals (r0 * n + p)) ws' out mid ∧
      StatCalls wide topk sortKey vals rows n outK mode pos rest ws' mid out'

/-- The mode that the kernel gets: only a float row has NaN. -/
def kernelMode (isFloat : Bool) (mode : SelectMode) : SelectMode := if isFloat then mode else .kth

/-- `_order_stat_rows_into` with its workspace `ws`. -/
def OrderStat (wide isFloat : Bool) (sortKey : α → K) (vals : Nat → α) (rows n k : Nat)
    (mode : SelectMode) (ws : Nat → Pair K) (out out' : Out α) : Prop :=
  let topk := decide (mode = .kth)
  StatCalls wide topk sortKey vals rows n (if topk then k else n) (kernelMode isFloat mode) (k - 1)
    (strided rows (min rows SORT_MAX_GRID_ROWS) rows 0) ws out out'

/-! ## What a row is asked for -/

/-- An element comes before another one: by key, and with equal keys by position. -/
def Before (key : Nat → K) (i j : Nat) : Prop := key i < key j ∨ key i = key j ∧ i < j

instance (key : Nat → K) (i j : Nat) : Decidable (Before key i j) :=
  inferInstanceAs (Decidable (key i < key j ∨ key i = key j ∧ i < j))

/-- The number of elements in front of one. -/
def rankOf (key : Nat → K) (n s : Nat) : Nat := (List.range n).countP fun i => decide (Before key i s)

/-- The number of elements that are not NaN. -/
def numbers (key : Nat → K) (n : Nat) : Nat := (List.range n).countP fun i => decide (key i ≠ ⊤)

/-- What `s` is for a row: the `k`-th element; the same or the first NaN if there is one; the lower
middle of the numbers, or the first NaN if there are none. -/
def IsStat (mode : SelectMode) (key : Nat → K) (n k s : Nat) : Prop :=
  match mode with
  | .kth => rankOf key n s = k - 1
  | .median => ((∀ i < n, key i ≠ ⊤) → rankOf key n s = k - 1) ∧
      ((∃ i < n, key i = ⊤) → key s = ⊤ ∧ ∀ i < n, key i = ⊤ → s ≤ i)
  | .nanmedian => rankOf key n s = (numbers key n - 1) / 2

end Model

/-! ## Sorted lists -/

/-- In a sorted list, as many elements are before one as it has in front of it. -/
theorem countP_front {ι : Type} {r : ι → ι → Prop} [∀ a b, Decidable (r a b)] (hasymm : ∀ a b, r a b → ¬ r b a)
    {l : List ι} (h : l.Pairwise r) {i : Nat} {s : ι} (hs : l[i]? = some s) :
    l.countP (fun a => decide (r a s)) = i := by
  induction l generalizing i with
  | nil => cases hs
  | cons a l ih =>
      obtain ⟨ha, hl⟩ := List.pairwise_cons.mp h
      cases i with
      | zero =>
          obtain rfl : a = s := Option.some.inj hs
          refine List.countP_eq_zero.mpr fun x hx => ?_
          rw [decide_eq_true_iff]
          obtain rfl | hx := List.mem_cons.mp hx
          · exact fun hself => hasymm _ _ hself hself
          · exact hasymm _ _ (ha x hx)
      | succ i =>
          have hs : l[i]? = some s := hs
          have hfront : decide (r a s) = true := decide_eq_true (ha s (List.mem_of_getElem? hs))
          rw [List.countP_cons, if_pos hfront, ih hl hs]

theorem countP_prefix {ι : Type} {p : ι → Bool} {l : List ι} {m : Nat} (hm : m ≤ l.length)
    (hin : ∀ i s, i < m → l[i]? = some s → p s = true) (hout : ∀ i s, m ≤ i → l[i]? = some s → p s = false) :
    l.countP p = m := by
  rw [← List.take_append_drop m l, List.countP_append]
  have htake : (l.take m).countP p = (l.take m).length := List.countP_eq_length.mpr fun s hs => by
    obtain ⟨i, hi⟩ := List.mem_iff_getElem?.mp hs
    rw [List.getElem?_take] at hi
    split at hi
    · next hlt => exact hin i s hlt hi
    · cases hi
  have hdrop : (l.drop m).countP p = 0 := List.countP_eq_zero.mpr fun s hs => by
    obtain ⟨i, hi⟩ := List.mem_iff_getElem?.mp hs
    rw [List.getElem?_drop] at hi
    rw [hout (m + i) s (Nat.le_add_right m i) hi]
    exact Bool.false_ne_true
  rw [htake, hdrop, List.length_take, Nat.add_zero, Nat.min_eq_left hm]

section Row

variable {K : Type u} [LinearOrder K] [BoundedOrder K]

theorem firstNan_spec {keys : Nat → K} {n lo hi : Nat} (hle : lo ≤ hi) (hhi : hi ≤ n)
    (hmono : ∀ i j, i ≤ j → j < n → keys i ≤ keys j) (hlo : ∀ i < lo, keys i ≠ ⊤)
    (hnan : ∀ i, hi ≤ i → i < n → keys i = ⊤) :
    firstNan keys lo hi ≤ n ∧ (∀ i < firstNan keys lo hi, keys i ≠ ⊤) ∧
      ∀ i, firstNan keys lo hi ≤ i → i < n → keys i = ⊤ := by
  fun_induction firstNan keys lo hi with
  | case1 lo hi hlt htop ih =>
      refine ih (by omega) (by omega) hlo fun i hi' hi => ?_
      exact top_le_iff.mp (htop ▸ hmono _ i hi' hi)
  | case2 lo hi hlt htop ih =>
      refine ih (by omega) hhi (fun i hi' hnone => htop ?_) hnan
      exact top_le_iff.mp (hnone ▸ hmono i _ (Nat.le_of_lt_succ hi') (by omega))
  | case3 lo hi hlt =>
      obtain rfl : lo = hi := by omega
      exact ⟨hhi, hlo, hnan⟩

omit [BoundedOrder K] in
theorem stableOrder_before (key : Nat → K) (n : Nat) : (stableOrder false key n).Pairwise (Before key) := by
  have hstable := @mergeSort_range_pairwise (fun i j => keyLe false (key i) (key j))
    (fun a b c => keyLe_trans) (fun a b => keyLe_total false (key a) (key b)) n
  refine hstable.imp fun {i j} h => ?_
  obtain ⟨hle, htie⟩ := h
  have hle : key i ≤ key j := of_decide_eq_true hle
  rcases lt_or_eq_of_le hle with hlt | heq
  · exact .inl hlt
  · exact .inr ⟨heq, htie (decide_eq_true (le_of_eq heq.symm))⟩

omit [BoundedOrder K] in
theorem before_asymm (key : Nat → K) (i j : Nat) (h : Before key i j) : ¬ Before key j i := by
  intro h'
  rcases h with h | ⟨heq, hlt⟩
  · exact h'.elim (fun h' => lt_asymm h h') fun h' => h.ne' h'.1
  · exact h'.elim (fun h' => h'.ne' heq) fun h' => Nat.lt_asymm hlt h'.2

omit [BoundedOrder K] in
/-- The position of an element in the stable sort is its rank. -/
theorem rankOf_eq {key : Nat → K} {n i s : Nat} (hs : (stableOrder false key n)[i]? = some s) :
    rankOf key n s = i := by
  unfold rankOf
  rw [← (stableOrder_perm false key n).countP_eq]
  exact countP_front (before_asymm key) (stableOrder_before key n) hs

omit [BoundedOrder K] in
theorem length_stableOrder (key : Nat → K) (n : Nat) : (stableOrder false key n).length = n :=
  (stableOrder_perm false key n).length_eq.trans List.length_range

omit [BoundedOrder K] in
/-- The pairs of a sorted row. -/
theorem RowSorted.get {keys : Nat → K} {n k pad row : Nat} {ws : Nat → Pair K}
    (h : RowSorted false keys n k pad ws row) (hkn : k ≤ n) {i : Nat} (hi : i < k) :
    (ws (row * pad + i)).2 < n ∧
      (stableOrder false (fun i => keys (row * n + i)) n)[i]? = some (ws (row * pad + i)).2 ∧
      (ws (row * pad + i)).1 = keys (row * n + (ws (row * pad + i)).2) := by
  have hget := congrArg (·[i]?) h
  have hsome := List.getElem?_eq_getElem (show i < (stableOrder false (fun i => keys (row * n + i)) n).length by
    rw [length_stableOrder]
    omega)
  rw [List.getElem?_map, List.getElem?_map, List.getElem?_take, if_pos hi, hsome,
    List.getElem?_eq_getElem (by rw [List.length_range]; exact hi), List.getElem_range] at hget
  have hpair : ws (row * pad + i) = _ := Option.some.inj hget
  rw [hpair]
  exact ⟨List.mem_range.mp ((stableOrder_perm false _ n).mem_iff.mp (List.getElem_mem _)), hsome, rfl⟩

/-- The element that is read in a sorted row. -/
theorem RowSorted.stat {keys : Nat → K} {n k outK pad row : Nat} {ws : Nat → Pair K} {mode : SelectMode}
    (h : RowSorted false keys n outK pad ws row) (hk : 0 < k) (hkout : k ≤ outK) (hout : outK ≤ n)
    (hmode : mode = .kth ∨ outK = n) :
    selectSrc n pad mode (k - 1) ws row < n ∧
      IsStat mode (fun i => keys (row * n + i)) n k (selectSrc n pad mode (k - 1) ws row) := by
  have hread := fun p => RowSorted.get h hout (i := p)
  by_cases hkth : mode = .kth
  · subst hkth
    obtain ⟨hs, hget, -⟩ := hread (k - 1) (by omega)
    exact ⟨hs, rankOf_eq hget⟩
  · obtain rfl : outK = n := hmode.resolve_left hkth
    -- a pair is before the later ones
    have hbefore : ∀ i j, i < j → j < outK →
        Before (fun i => keys (row * outK + i)) (ws (row * pad + i)).2 (ws (row * pad + j)).2 := fun i j hlt hj => by
      obtain ⟨hil, hi⟩ := List.getElem?_eq_some_iff.mp (hread i (hlt.trans hj)).2.1
      obtain ⟨hjl, hj⟩ := List.getElem?_eq_some_iff.mp (hread j hj).2.1
      rw [← hi, ← hj]
      exact List.pairwise_iff_getElem.mp (stableOrder_before _ outK) i j hil hjl hlt
    have hmono : ∀ i j, i ≤ j → j < outK → (ws (row * pad + i)).1 ≤ (ws (row * pad + j)).1 := fun i j hij hj => by
      rcases Nat.eq_or_lt_of_le hij with rfl | hlt
      · exact le_refl _
      · rw [(hread i (hlt.trans hj)).2.2, (hread j hj).2.2]
        exact (hbefore i j hlt hj).elim le_of_lt fun heq => le_of_eq heq.1
    obtain ⟨hm, hnumbers, hnan⟩ := firstNan_spec (Nat.zero_le outK) (Nat.le_refl outK) hmono
      (fun i hi => absurd hi (Nat.not_lt_zero i)) fun i hi hi' => absurd hi' (by omega)
    generalize hfirst : firstNan (fun i => (ws (row * pad + i)).1) 0 outK = m at hm hnumbers hnan
    -- the place of a NaN
    have hplace : ∀ i < outK, keys (row * outK + i) = ⊤ →
        ∃ j, m ≤ j ∧ j < outK ∧ (ws (row * pad + j)).2 = i := fun i hi htop => by
      obtain ⟨j, hj⟩ := List.mem_iff_getElem?.mp ((stableOrder_perm false (fun i => keys (row * outK + i)) outK).mem_iff.mpr
        (List.mem_range.mpr hi))
      obtain ⟨hjl, -⟩ := List.getElem?_eq_some_iff.mp hj
      rw [length_stableOrder] at hjl
      have hsame := Option.some.inj ((hread j hjl).2.1.symm.trans hj)
      refine ⟨j, Nat.le_of_not_lt fun hlt => hnumbers j hlt ?_, hjl, hsame⟩
      rw [(hread j hjl).2.2, hsame, htop]
    cases mode with
    | kth => exact absurd rfl hkth
    | median =>
        unfold selectSrc selectPos
        dsimp only
        rw [hfirst]
        split
        · next hlt =>
            obtain ⟨hs, -, hkey⟩ := hread m hlt
            have htop := hkey.symm.trans (hnan m (Nat.le_refl m) hlt)
            refine ⟨hs, fun hnone => absurd htop (hnone _ hs), fun _ => ⟨htop, fun i hi htopi => ?_⟩⟩
            obtain ⟨j, hmj, hj, rfl⟩ := hplace i hi htopi
            rcases Nat.eq_or_lt_of_le hmj with rfl | hless
            · exact Nat.le_refl _
            · rcases hbefore m j hless hj with hbelow | ⟨-, hbelow⟩
              · have hbelow : keys (row * outK + (ws (row * pad + m)).2) < keys (row * outK + (ws (row * pad + j)).2) := hbelow
                rw [htop] at hbelow
                exact absurd hbelow not_top_lt
              · exact Nat.le_of_lt hbelow
        · next hge =>
            obtain ⟨hs, hget, -⟩ := hread (k - 1) (by omega)
            refine ⟨hs, fun _ => rankOf_eq hget, fun ⟨i, hi, htopi⟩ => ?_⟩
            obtain ⟨j, hmj, hj, -⟩ := hplace i hi htopi
            omega
    | nanmedian =>
        have hcount : numbers (fun i => keys (row * outK + i)) outK = m := by
          unfold numbers
          rw [← (stableOrder_perm false (fun i => keys (row * outK + i)) outK).countP_eq]
          refine countP_prefix (by rwa [length_stableOrder]) (fun i s hi hs => ?_) fun i s hi hs => ?_
          · obtain ⟨-, hget, hkey⟩ := hread i (by omega)
            obtain rfl := Option.some.inj (hget.symm.trans hs)
            exact decide_eq_true fun htop => hnumbers i hi (hkey.trans htop)
          · obtain ⟨hil, -⟩ := List.getElem?_eq_some_iff.mp hs
            rw [length_stableOrder] at hil
            obtain ⟨-, hget, hkey⟩ := hread i hil
            obtain rfl := Option.some.inj (hget.symm.trans hs)
            exact decide_eq_false fun hne => hne (hkey.symm.trans (hnan i hi hil))
        have hpos : (if m > 0 then (m - 1) / 2 else 0) = (m - 1) / 2 := by
          split
          · rfl
          · omega
        unfold selectSrc selectPos
        dsimp only
        rw [hfirst, hpos]
        obtain ⟨hs, hget, -⟩ := hread ((m - 1) / 2) (by omega)
        exact ⟨hs, (rankOf_eq hget).trans (by rw [hcount])⟩

end Row

/-! ## Calls -/

section Calls

variable {K : Type u} [LinearOrder K] [BoundedOrder K] {α : Type w} {wide topk : Bool}
  {rows n k outK pos pad outAt : Nat} {mode : SelectMode} {sortKey : α → K} {vals : Nat → α}
  {ws : Nat → Pair K} {out out' : Out α}

theorem Select.at (h : Select rows n pad outAt mode pos vals ws out out') {row : Nat} (hrow : row < rows) :
    out'.values (outAt + row) = vals (row * n + selectSrc n pad mode pos ws row) ∧
      out'.indices (outAt + row) = selectSrc n pad mode pos ws row := by
  have hblocks : 0 < gsBlocks rows * GS_THREADS :=
    Nat.mul_pos (by unfold gsBlocks; omega) (Nat.succ_pos 255)
  have hinj : ∀ g ∈ selects rows n pad mode pos ws, ∀ g' ∈ selects rows n pad mode pos ws,
      outAt + g.1 = outAt + g'.1 → g = g' := fun g hg g' hg' heq => by
    obtain ⟨i, -, rfl⟩ := List.mem_map.mp hg
    obtain ⟨j, -, rfl⟩ := List.mem_map.mp hg'
    obtain rfl : i = j := Nat.add_left_cancel heq
    rfl
  have hmem : (row, row * n + selectSrc n pad mode pos ws row, selectSrc n pad mode pos ws row) ∈
      selects rows n pad mode pos ws := List.mem_map.mpr ⟨row, (mem_gridItems hblocks).mpr hrow, rfl⟩
  exact ⟨h.values.map_at hinj hmem, h.indices.map_at hinj hmem⟩

theorem Select.off (h : Select rows n pad outAt mode pos vals ws out out') {a : Nat} (ha : a < outAt) :
    out'.values a = out.values a ∧ out'.indices a = out.indices a := by
  have hnone : ∀ g ∈ selects rows n pad mode pos ws, outAt + g.1 ≠ a := fun g _ heq => by omega
  exact ⟨h.values.map_off hnone, h.indices.map_off hnone⟩

/-- The index of a row is the one that it is asked for, and the value is the element there. -/
def StatAnswers (mode : SelectMode) (sortKey : α → K) (vals : Nat → α) (n k : Nat) (out : Out α)
    (row : Nat) : Prop :=
  out.indices row < n ∧ out.values row = vals (row * n + out.indices row) ∧
    IsStat mode (fun i => sortKey (vals (row * n + i))) n k (out.indices row)

/-- A call answers for its rows. -/
theorem selectCall_answers {plan : List Launch} {r r0 : Nat} {ws' : Nat → Pair K}
    (hfits : PlanFits.{u} wide n outK pad plan) (hk : 0 < k) (hkout : k ≤ outK) (hout : outK ≤ n)
    (hmode : mode = .kth ∨ outK = n)
    (hrun : RunLaunches wide false r (fun p => sortKey (vals (r0 * n + p))) plan ws ws')
    (hselect : Select r n pad r0 mode (k - 1) (fun p => vals (r0 * n + p)) ws' out out') {row : Nat}
    (hle : r0 ≤ row) (hlt : row < r0 + r) : StatAnswers mode sortKey vals n k out' row := by
  obtain ⟨d, rfl⟩ := Nat.exists_eq_add_of_le hle
  have hd : d < r := by omega
  have haddr : ∀ i, r0 * n + (d * n + i) = (r0 + d) * n + i := fun i => by ring
  obtain ⟨hlt, hstat⟩ := (hfits.sorted hrun d hd).stat hk hkout hout hmode
  obtain ⟨hval, hidx⟩ := hselect.at hd
  simp only [haddr] at hstat hval
  unfold StatAnswers
  rw [hidx]
  exact ⟨hlt, hval, hstat⟩

/-- The calls for the rows from `r0` on. -/
theorem statCalls_answers {chunk fuel r0 : Nat} (hk : 0 < k) (hkout : k ≤ outK) (hout : outK ≤ n)
    (hn : n ≤ SORT_MAX_ROW) (hmode : mode = .kth ∨ outK = n) (hchunk : chunk = min rows SORT_MAX_GRID_ROWS)
    (hpos : 0 < chunk) (hfuel : rows ≤ r0 + fuel)
    (h : StatCalls wide topk sortKey vals rows n outK mode (k - 1) (strided rows chunk fuel r0) ws out out') :
    (∀ row, r0 ≤ row → row < rows → StatAnswers mode sortKey vals n k out' row) ∧
      ∀ a, a < r0 → out'.values a = out.values a ∧ out'.indices a = out.indices a := by
  induction fuel generalizing r0 ws out with
  | zero =>
      obtain rfl : out' = out := h
      exact ⟨fun row hle hlt => absurd hlt (by omega), fun a _ => ⟨rfl, rfl⟩⟩
  | succ fuel ih =>
      unfold strided at h
      split at h
      · obtain ⟨plan, ws', mid, hplan, hrun, hselect, hrest⟩ := h
        obtain ⟨plan', hplan', hfits⟩ := plan_fits.{u} wide topk (hk.trans_le hkout) hout hn
        obtain rfl := Option.some.inj (hplan.symm.trans hplan')
        obtain ⟨hanswers, hframe⟩ := ih (by omega) hrest
        refine ⟨fun row hle hlt => ?_, fun a ha => ?_⟩
        · by_cases hlater : r0 + chunk ≤ row
          · exact hanswers row hlater hlt
          · have hrow := selectCall_answers hfits hk hkout hout hmode hrun hselect hle (by omega)
            obtain ⟨hv, hi⟩ := hframe row (by omega)
            unfold StatAnswers
            rw [hv, hi]
            exact hrow
        · obtain ⟨hv, hi⟩ := hframe a (by omega)
          obtain ⟨hv', hi'⟩ := hselect.off ha
          exact ⟨hv.trans hv', hi.trans hi'⟩
      · obtain rfl : out' = out := h
        exact ⟨fun row hle hlt => absurd hlt (by omega), fun a _ => ⟨rfl, rfl⟩⟩

theorem statCalls_exists (wide topk : Bool) (sortKey : α → K) (vals : Nat → α) (rows : Nat) (mode : SelectMode)
    (pos : Nat) (hout : 0 < outK) (houtn : outK ≤ n) (hn : n ≤ SORT_MAX_ROW) (calls : List Nat)
    (ws : Nat → Pair K) (out : Out α) :
    ∃ out', StatCalls wide topk sortKey vals rows n outK mode pos calls ws out out' := by
  induction calls generalizing ws out with
  | nil => exact ⟨out, rfl⟩
  | cons r0 calls ih =>
      obtain ⟨plan, hplan, -⟩ := plan_fits.{u} wide topk hout houtn hn
      obtain ⟨ws', hrun⟩ := runLaunches_exists wide false (min (min rows SORT_MAX_GRID_ROWS) (rows - r0))
        (fun p => sortKey (vals (r0 * n + p))) plan ws
      have hselect : Select (min (min rows SORT_MAX_GRID_ROWS) (rows - r0)) n (routePad wide topk n outK).2 r0
          mode pos (fun p => vals (r0 * n + p)) ws' out ⟨_, _⟩ := ⟨Stores.inOrder _ _, Stores.inOrder _ _⟩
      obtain ⟨out', hrest⟩ := ih ws' _
      exact ⟨out', plan, ws', _, hplan, hrun, hselect, hrest⟩

/-- Every row's index and value are those that it is asked for, on every route. -/
theorem order_statistics (wide isFloat : Bool) (sortKey : α → K) (vals : Nat → α) (rows : Nat)
    (mode : SelectMode) (ws : Nat → Pair K) (out : Out α) (hk : 0 < k) (hkn : k ≤ n) (hn : n ≤ SORT_MAX_ROW) :
    (∃ out', OrderStat wide isFloat sortKey vals rows n k mode ws out out') ∧
      ∀ out', OrderStat wide isFloat sortKey vals rows n k mode ws out out' →
        ∀ row < rows, StatAnswers (kernelMode isFloat mode) sortKey vals n k out' row := by
  have hkout : k ≤ (if decide (mode = .kth) then k else n) := by split <;> omega
  have hout : (if decide (mode = .kth) then k else n) ≤ n := by split <;> omega
  have hmode : kernelMode isFloat mode = .kth ∨ (if decide (mode = .kth) then k else n) = n := by
    by_cases hkth : mode = .kth
    · refine .inl ?_
      unfold kernelMode
      split
      · exact hkth
      · rfl
    · exact .inr (if_neg fun h => hkth (of_decide_eq_true h))
  refine ⟨statCalls_exists wide _ sortKey vals rows _ _ (hk.trans_le hkout) hout hn _ ws out,
    fun out' h row hrow => ?_⟩
  have hmax : 0 < SORT_MAX_GRID_ROWS := Nat.succ_pos 65534
  exact (statCalls_answers hk hkout hout hn hmode rfl (by omega) (Nat.le_add_left _ _) h).1 row
    (Nat.zero_le row) hrow

end Calls

/-- Four bytes, two of them the greatest key. -/
def nanRow (i : Nat) : Fin 256 := [7, 255, 3, 255].getD i 0

theorem order_statistics_nan :
    ∃ out', OrderStat false true id nanRow 1 4 2 .median (fun _ => (0, 0)) ⟨fun _ => 0, fun _ => 0⟩ out' ∧
      StatAnswers .median id nanRow 4 2 out' 0 := by
  obtain ⟨⟨out', hrun⟩, hanswers⟩ := order_statistics false true id nanRow 1 .median (fun _ => (0, 0))
    ⟨fun _ => 0, fun _ => 0⟩ (show 0 < 2 by decide) (show 2 ≤ 4 by decide)
    (show 4 ≤ SORT_MAX_ROW by unfold SORT_MAX_ROW; omega)
  exact ⟨out', hrun, hanswers out' hrun 0 Nat.one_pos⟩

end TorchMojoBackend.Kernels.RowSort
