/-
  `Kernels.UniqueCorrect`: what the unique operations return.

  One position stands for each group, the first or the last.  The select pass stores the
  row at that position, and for each row that is read its group; the count pass takes
  the distance of the first positions.  Each output is that of one division of the input
  rows into groups with a row that stands for each.
-/
import TorchMojoBackend.Kernels.UniqueGroups

set_option autoImplicit false

namespace TorchMojoBackend.Kernels.Unique

open TorchMojoBackend.Foundation
open TorchMojoBackend.Kernels.RowSort (SORT_MAX_ROW Out Pair)
open TorchMojoBackend.Kernels.SortKey

universe u v

/-! ## Positions that stand for groups -/

section
variable {n : Nat} {gid : Nat → Nat}

/-- `pos` has the one position of each group that is chosen. -/
def Chooses (takeLast : Bool) (n : Nat) (gid pos : Nat → Nat) : Prop :=
  ∀ g, g < gid (n - 1) + 1 → pos g < n ∧ gid (pos g) = g ∧
    ∀ i, i < n → (chosen takeLast n gid i = true ↔ i = pos (gid i)) 

theorem chosen_iff (h : RunNumbers n gid) (takeLast : Bool) {p : Nat} (hp : p < n) :
    chosen takeLast n gid p = true ↔
      ∀ i, i < n → gid i = gid p → if takeLast then i ≤ p else p ≤ i := by
  cases takeLast with
  | true =>
      rw [show chosen true n gid p = isEnd n gid p from rfl]
      unfold isEnd
      rw [Bool.or_eq_true, beq_iff_eq, bne_iff_ne]
      exact h.last_iff hp
  | false =>
      rw [show chosen false n gid p = isStart gid p from rfl]
      unfold isStart
      rw [Bool.or_eq_true, beq_iff_eq, bne_iff_ne]
      exact h.first_iff hp

theorem exists_chooses (h : RunNumbers n gid) (takeLast : Bool) (hn : 0 < n) :
    ∃ pos, Chooses takeLast n gid pos := by
  have hex : ∀ g, ∃ p, g < gid (n - 1) + 1 → p < n ∧ gid p = g ∧
      ∀ i, i < n → gid i = g → if takeLast then i ≤ p else p ≤ i := fun g => by
    by_cases hg : g < gid (n - 1) + 1
    · cases takeLast with
      | true =>
          obtain ⟨p, hp⟩ := h.exists_last (Nat.le_of_lt_succ hg) hn
          exact ⟨p, fun _ => hp⟩
      | false =>
          obtain ⟨p, hp⟩ := h.exists_first (Nat.le_of_lt_succ hg) hn
          exact ⟨p, fun _ => hp⟩
    · exact ⟨0, fun h => absurd h hg⟩
  choose pos hpos using hex
  refine ⟨pos, fun g hg => ⟨(hpos g hg).1, (hpos g hg).2.1, fun i hi => ?_⟩⟩
  have hgi : gid i < gid (n - 1) + 1 := Nat.lt_succ_of_le (h.mono (by omega) (by omega))
  obtain ⟨hp, heq, hend⟩ := hpos (gid i) hgi
  rw [chosen_iff h takeLast hi]
  constructor
  · intro hall
    have hle := hall _ hp heq
    have hge := hend i hi rfl
    cases takeLast with
    | true => exact Nat.le_antisymm hge hle
    | false => exact Nat.le_antisymm hle hge
  · intro hsame j hj hjg
    have hat := hend j hj hjg
    rwa [← hsame] at hat

/-- The stores of the chosen rows, `w` for each group. -/
theorem chosen_writesOf {β : Type u} {takeLast : Bool} {pos : Nat → Nat}
    (hpos : Chooses takeLast n gid pos) (hmono : ∀ i, i < n → gid i < gid (n - 1) + 1)
    (f : Nat → Nat → β) (w : Nat) :
    WritesOf (fun x : Nat × Nat => x.1 < gid (n - 1) + 1 ∧ x.2 < w) (fun x => x.1 * w + x.2)
      (fun x => f (pos x.1) x.2)
      ((gsItems n).flatMap fun i => if chosen takeLast n gid i then
        (List.range w).map fun k => (gid i * w + k, f i k) else []) := by
  refine ⟨fun e he => ?_, fun x hx => ?_⟩
  · obtain ⟨i, hi, he⟩ := List.mem_flatMap.mp he
    rw [mem_gsItems] at hi
    split at he
    · rename_i hchosen
      obtain ⟨k, hk, rfl⟩ := List.mem_map.mp he
      have hsame := ((hpos _ (hmono i hi)).2.2 i hi).mp hchosen
      refine ⟨(gid i, k), ⟨hmono i hi, List.mem_range.mp hk⟩, ?_⟩
      dsimp only
      rw [← hsame]
    · exact absurd he List.not_mem_nil
  · obtain ⟨hlt, hgid, hall⟩ := hpos x.1 hx.1
    refine List.mem_flatMap.mpr ⟨pos x.1, mem_gsItems.mpr hlt, ?_⟩
    rw [if_pos ((hall _ hlt).mpr (by rw [hgid])), hgid]
    exact List.mem_map.mpr ⟨x.2, List.mem_range.mpr hx.2, rfl⟩

/-- The stores of one item for each group. -/
theorem chosen_at {β : Type u} {takeLast : Bool} {pos : Nat → Nat}
    (hpos : Chooses takeLast n gid pos) (hmono : ∀ i, i < n → gid i < gid (n - 1) + 1)
    {f : Nat → β} {fresh out : Nat → β} (h : Stores ((gsItems n).flatMap fun i =>
      if chosen takeLast n gid i then [(gid i, f i)] else []) fresh out) {g : Nat}
    (hg : g < gid (n - 1) + 1) : out g = f (pos g) := by
  have hws := chosen_writesOf hpos hmono (fun i _ => f i) 1
  simp only [List.range_one, List.map_singleton, Nat.mul_one, Nat.add_zero] at hws
  have hat := h.writesOf hws (fun x y hx hy heq => ?_) (x := (g, 0)) ⟨hg, Nat.one_pos⟩
  · exact hat
  · exact Prod.ext (by omega) (by omega)

end

/-! ## Divisions -/

section
variable {α : Type u} {V : Type v} [LinearOrder V] [Scalar α V]

/-- The input rows are divided into `m` groups, the runs of equal rows as they are read; `rep` has
the row that stands for a group. -/
structure Division (data : Nat → α) (n w : Nat) (consecutive : Bool) (perm : Option (Nat → Nat))
    (m : Nat) (group rep : Nat → Nat) : Prop where
  reads : ReadOrder data n w consecutive perm
  runs : ∀ i j, i ≤ j → j < n → (group (row perm i) = group (row perm j) ↔
    ∀ l, i < l → l ≤ j → RowEq data w (row perm (l - 1)) (row perm l))
  ordered : ∀ i j, i ≤ j → j < n → group (row perm i) ≤ group (row perm j)
  group_lt : ∀ r, r < n → group r < m
  alone : ∀ r r', r < n → r' < n → HoldsNaN data w r → group r' = group r → r' = r
  equal : ∀ r, r < n → RowEq data w r (rep (group r)) ∨ HoldsNaN data w r ∧ rep (group r) = r
  rep_mem : ∀ g, g < m → rep g < n ∧ group (rep g) = g
  together : consecutive = false → ∀ a b, a < n → b < n → RowEq data w a b → group a = group b
  increasing : consecutive = false → ∀ g g', g < g' → g' < m → RowLess data w (rep g) (rep g')

/-- An output that was wanted has the property. -/
def Has {β : Type u} (want : Bool) (out : Option (Nat → β)) (P : (Nat → β) → Prop) : Prop :=
  if want then ∃ result, out = some result ∧ P result else out = none

/-- The outputs are those of the division. -/
structure Returned (data : Nat → α) (n w : Nat) (wantVals wantRows wantInverse wantCounts : Bool)
    (group rep : Nat → Nat) (g : Groups α) : Prop where
  outVals : Has wantVals g.outVals fun out =>
    ∀ c k, c < g.m → k < w → out (c * w + k) = data (rep c * w + k)
  outRows : Has wantRows g.outRows fun out => ∀ c, c < g.m → out c = rep c
  inverse : Has wantInverse g.inverse fun out => ∀ r, r < n → out r = group r
  counts : Has wantCounts g.counts fun out =>
    (∀ c, c < g.m → out c = ((Finset.range n).filter fun r => group r = c).card) ∧
      ∑ c ∈ Finset.range g.m, out c = n

theorem Wanted.has {β : Type u} {want : Bool} {ws : List (Nat × β)} {out : Option (Nat → β)}
    {P : (Nat → β) → Prop} (h : Wanted want ws out)
    (hP : ∀ fresh result, Stores ws fresh result → P result) : Has want out P := by
  unfold Wanted at h
  unfold Has
  cases want with
  | true =>
      obtain ⟨fresh, result, hstores, rfl⟩ := h
      exact ⟨result, rfl, hP fresh result hstores⟩
  | false => exact h

variable {data : Nat → α} {perm : Option (Nat → Nat)} {n w : Nat} {consecutive takeLast wantVals
  wantRows wantInverse wantCounts : Bool} {marks gid : Nat → Nat} {g : Groups α}

/-- The positions that stand for groups divide the rows. -/
theorem division_of_grouped {pos seat group : Nat → Nat} (hread : ReadOrder data n w consecutive perm)
    (hgrouped : Grouped data perm n w gid) (hpos : Chooses takeLast n gid pos)
    (hseat : ∀ r, r < n → seat r < n ∧ row perm (seat r) = r)
    (hgroup : ∀ i, i < n → group (row perm i) = gid i) :
    Division data n w consecutive perm (gid (n - 1) + 1) group fun c => row perm (pos c) := by
  have hmono := fun i j hij hj => hgrouped.numbers.mono (i := i) (j := j) hij hj
  have hlt : ∀ i, i < n → gid i < gid (n - 1) + 1 := fun i hi =>
    Nat.lt_succ_of_le (hmono i (n - 1) (by omega) (by omega))
  have hgroupOf : ∀ r, r < n → group r = gid (seat r) := fun r hr => by
    obtain ⟨hs, hrow⟩ := hseat r hr
    rw [← hgroup _ hs, hrow]
  refine ⟨hread, fun i j hij hj => ?_, fun i j hij hj => ?_, fun r hr => ?_,
    fun r r' hr hr' hnan heq => ?_, fun r hr => ?_, fun c hc => ?_, fun hsorted a b ha hb hab => ?_,
    fun hsorted c c' hcc hc' => ?_⟩
  · rw [hgroup i (by omega), hgroup j hj]
    exact hgrouped.runs hij hj
  · rw [hgroup i (by omega), hgroup j hj]
    exact hmono i j hij hj
  · rw [hgroupOf r hr]
    exact hlt _ (hseat r hr).1
  · obtain ⟨hs, hrow⟩ := hseat r hr
    obtain ⟨hs', hrow'⟩ := hseat r' hr'
    rw [hgroupOf r hr, hgroupOf r' hr'] at heq
    obtain hsame | hequal := hgrouped.rowEq_or_eq hs hs' heq.symm
    · rw [← hrow, ← hrow', hsame]
    · rw [hrow] at hequal
      exact absurd hnan hequal.not_holdsNaN
  · obtain ⟨hs, hrow⟩ := hseat r hr
    obtain ⟨hp, hgid, -⟩ := hpos _ (hlt _ hs)
    rw [hgroupOf r hr]
    obtain hsame | hequal := hgrouped.rowEq_or_eq hs hp hgid.symm
    · rw [← hsame, hrow]
      by_cases hnan : HoldsNaN data w r
      · exact .inr ⟨hnan, rfl⟩
      · exact .inl (rowEq_self_iff.mpr hnan)
    · rw [hrow] at hequal
      exact .inl hequal
  · obtain ⟨hp, hgid, -⟩ := hpos c hc
    exact ⟨hread.bij.mapsTo hp, (hgroup _ hp).trans hgid⟩
  · subst hsorted
    obtain ⟨hs, hrow⟩ := hseat a ha
    obtain ⟨hs', hrow'⟩ := hseat b hb
    rw [hgroupOf a ha, hgroupOf b hb]
    exact hgrouped.together hread hs hs' (by rwa [hrow, hrow'])
  · obtain ⟨hp, hgid, -⟩ := hpos c (by omega)
    obtain ⟨hp', hgid', -⟩ := hpos c' hc'
    refine hread.sorted hsorted _ _ ?_ hp'
    by_contra hge
    have hle := hmono _ _ (Nat.not_lt.mp hge) hp
    omega

omit [LinearOrder V] [Scalar α V] in
/-- The rows of a group are as many as its positions. -/
theorem card_group {group : Nat → Nat} (hbij : Set.BijOn (row perm) (Set.Iio n) (Set.Iio n))
    (hgroup : ∀ i, i < n → group (row perm i) = gid i) (c : Nat) :
    ((Finset.range n).filter fun r => group r = c).card =
      ((Finset.range n).filter fun i => gid i = c).card := by
  symm
  refine Finset.card_bij (fun i _ => row perm i) (fun i hi => ?_) (fun i hi j hj heq => ?_)
    fun r hr => ?_
  · obtain ⟨hi, heq⟩ := Finset.mem_filter.mp hi
    rw [Finset.mem_range] at hi
    refine Finset.mem_filter.mpr ⟨Finset.mem_range.mpr (hbij.mapsTo hi), ?_⟩
    rw [hgroup i hi, heq]
  · exact hbij.injOn (Finset.mem_range.mp (Finset.mem_filter.mp hi).1)
      (Finset.mem_range.mp (Finset.mem_filter.mp hj).1) heq
  · obtain ⟨hr, heq⟩ := Finset.mem_filter.mp hr
    obtain ⟨i, hi, rfl⟩ := hbij.surjOn (Finset.mem_range.mp hr)
    rw [hgroup i hi] at heq
    exact ⟨i, Finset.mem_filter.mpr ⟨Finset.mem_range.mpr hi, heq⟩, rfl⟩

/-- The count pass measures the groups. -/
theorem counts_at {m : Nat} {first starts fresh out : Nat → Nat} (hnumbers : RunNumbers n gid)
    (hm : m = gid (n - 1) + 1) (hfirst : Chooses false n gid first)
    (hstarts : ∀ c, c < m → starts c = first c)
    (h : Stores (countsStores m n starts) fresh out) {c : Nat} (hc : c < m) :
    out c = ((Finset.range n).filter fun i => gid i = c).card := by
  subst hm
  have hat : out c = (if c + 1 = gid (n - 1) + 1 then n else starts (c + 1)) - starts c :=
    h.map_at (fun _ _ _ _ heq => heq) (mem_gsItems.mpr hc)
  have hleast : ∀ d, d < gid (n - 1) + 1 → ∀ i, i < n → gid i = d → first d ≤ i :=
    fun d hd i hi heq => by
      obtain ⟨hp, hgid, hall⟩ := hfirst d hd
      have hchosen := (hall _ hp).mpr (by rw [hgid])
      exact (chosen_iff hnumbers false hp).mp hchosen i hi (heq.trans hgid.symm)
  obtain ⟨hp, hgid, -⟩ := hfirst c hc
  rw [hat, hstarts c hc]
  refine (hnumbers.card_eq hgid (hleast c hc) ?_).symm
  by_cases hlast : c + 1 = gid (n - 1) + 1
  · rw [if_pos hlast]
    exact .inr ⟨rfl, Nat.succ.inj hlast⟩
  · have hnext : c + 1 < gid (n - 1) + 1 := by omega
    rw [if_neg hlast, hstarts _ hnext]
    exact .inl ⟨(hfirst _ hnext).1, (hfirst _ hnext).2.1, hleast _ hnext⟩

/-- The passes return the division. -/
theorem GroupsOf.returned (hn : 0 < n) (hread : ReadOrder data n w consecutive perm)
    (h : GroupsOf data perm n w wantVals wantRows wantInverse wantCounts takeLast marks gid g) :
    ∃ group rep, Division data n w consecutive perm g.m group rep ∧
      Returned data n w wantVals wantRows wantInverse wantCounts group rep g := by
  have hgrouped := h.grouped hn
  have hlt : ∀ i, i < n → gid i < gid (n - 1) + 1 := fun i hi =>
    Nat.lt_succ_of_le (hgrouped.numbers.mono (by omega) (by omega))
  have hseat : ∀ r, ∃ i, r < n → i < n ∧ row perm i = r := fun r => by
    by_cases hr : r < n
    · obtain ⟨i, hi, heq⟩ := hread.bij.surjOn hr
      exact ⟨i, fun _ => ⟨hi, heq⟩⟩
    · exact ⟨0, fun h => absurd h hr⟩
  choose seat hseat using hseat
  have hgroup : ∀ i, i < n → gid (seat (row perm i)) = gid i := fun i hi => by
    obtain ⟨hs, heq⟩ := hseat _ (hread.bij.mapsTo hi)
    rw [hread.bij.injOn hs hi heq]
  obtain ⟨pos, hpos⟩ := exists_chooses hgrouped.numbers takeLast hn
  obtain ⟨first, hfirst⟩ := exists_chooses hgrouped.numbers false hn
  refine ⟨fun r => gid (seat r), fun c => row perm (pos c), ?_, ?_, ?_, ?_, ?_⟩
  · rw [h.size]
    exact division_of_grouped hread hgrouped hpos hseat hgroup
  · refine h.outVals.has fun fresh result hstores c k hc hk => ?_
    rw [h.size] at hc
    refine hstores.writesOf (chosen_writesOf hpos hlt (fun i k => data (row perm i * w + k)) w)
      (fun x y hx hy heq => Prod.ext_iff.mpr (flat_inj hx.2 hy.2 heq)) (x := (c, k)) ⟨hc, hk⟩
  · refine h.outRows.has fun fresh result hstores c hc => ?_
    rw [h.size] at hc
    exact chosen_at hpos hlt hstores hc
  · refine h.inverse.has fun fresh result hstores r hr => ?_
    obtain ⟨hs, heq⟩ := hseat r hr
    have hat := hstores.map_at (fun i hi j hj heq => hread.bij.injOn (mem_gsItems.mp hi)
      (mem_gsItems.mp hj) heq) (mem_gsItems.mpr hs)
    rwa [heq] at hat
  · obtain ⟨starts, hstarts, hcounts⟩ := h.counts
    cases wantCounts with
    | false => exact hcounts
    | true =>
        obtain ⟨fresh', starts, hstarts, rfl⟩ := hstarts
        refine hcounts.has fun fresh result hstores => ?_
        have hat : ∀ c, c < g.m → result c =
            ((Finset.range n).filter fun r => gid (seat r) = c).card := fun c hc => by
          rw [card_group hread.bij hgroup]
          refine counts_at hgrouped.numbers h.size hfirst (fun c hc => ?_) hstores hc
          rw [h.size] at hc
          exact chosen_at hfirst hlt hstarts hc
        refine ⟨hat, ?_⟩
        rw [Finset.sum_congr rfl fun c hc => hat c (Finset.mem_range.mp hc)]
        refine sum_card_parts fun r hr => ?_
        rw [h.size]
        exact hlt _ (hseat r hr).1

/-! ## Results -/

theorem wanted_exists {β : Type u} (want : Bool) (ws : List (Nat × β)) (b : β) :
    ∃ out, Wanted want ws out := by
  cases want with
  | true => exact ⟨_, fun _ => b, _, Stores.inOrder _ _, rfl⟩
  | false => exact ⟨none, rfl⟩

theorem groupsOf_exists (data : Nat → α) (perm : Option (Nat → Nat)) (n w : Nat)
    (wantVals wantRows wantInverse wantCounts takeLast : Bool) :
    ∃ marks gid g, GroupsOf data perm n w wantVals wantRows wantInverse wantCounts takeLast marks gid
      g := by
  obtain ⟨marks, hmarks⟩ : ∃ marks, Stores (marksStores data perm n w) (fun _ => 0) marks :=
    ⟨_, Stores.inOrder _ _⟩
  let gid := fun i => ((List.range (i + 1)).map marks).sum
  obtain ⟨vals, hvals⟩ := wanted_exists wantVals (valsStores data perm gid takeLast n w) (data 0)
  obtain ⟨rows, hrows⟩ := wanted_exists wantRows (rowsStores perm gid takeLast n) 0
  obtain ⟨inverse, hinverse⟩ := wanted_exists wantInverse (inverseStores perm gid n) 0
  obtain ⟨starts, hstarts⟩ := wanted_exists wantCounts (startsStores gid n) 0
  obtain ⟨counts, hcounts⟩ := wanted_exists wantCounts
    (countsStores (gid (n - 1) + 1) n (starts.getD fun _ => 0)) 0
  exact ⟨marks, gid, ⟨gid (n - 1) + 1, vals, rows, inverse, counts⟩, ⟨_, hmarks⟩, fun _ _ => rfl,
    rfl, hvals, hrows, hinverse, starts, hstarts, hcounts⟩

theorem mergePasses_exists (data : Nat → α) (n w fuel width : Nat) (order other : Nat → Nat) :
    ∃ order', MergePasses data n w fuel width order other order' := by
  induction fuel generalizing width order other with
  | zero => exact ⟨order, rfl⟩
  | succ fuel ih =>
      unfold MergePasses
      by_cases hlt : width < n
      · obtain ⟨order', h⟩ := ih (width * 2) (storeAll (mergeStores data n w width order) other) order
        refine ⟨order', ?_⟩
        rw [if_pos hlt]
        exact ⟨_, Stores.inOrder _ _, h⟩
      · exact ⟨order, by rw [if_neg hlt]⟩

theorem rowsPerm_exists (data : Nat → α) (n w : Nat) (consecutive : Bool) :
    ∃ perm, RowsPerm data n w consecutive perm := by
  cases consecutive with
  | true => exact ⟨none, rfl⟩
  | false =>
      obtain ⟨order, horder⟩ := mergePasses_exists data n w n 1 id fun _ => 0
      exact ⟨some order, id, fun _ => 0, order, fun _ _ => rfl, horder, rfl⟩

end

theorem flatPerm_exists {d : DType} (data : Nat → Elem d) {n : Nat} (consecutive : Bool) (hn : 0 < n)
    (hmax : consecutive = false → n ≤ SORT_MAX_ROW) :
    ∃ perm, FlatPerm data n consecutive perm := by
  cases consecutive with
  | true => exact ⟨none, rfl⟩
  | false =>
      obtain ⟨out', hsort⟩ := RowSort.sortCalls_exists d.wide false false (sortKey d) data 1 hn
        (Nat.le_refl n) (hmax rfl) (strided 1 (min 1 RowSort.SORT_MAX_GRID_ROWS) 1 0)
        (fun _ => (⊤, 0)) ⟨data, fun _ => 0⟩
      exact ⟨some out'.indices, hmax rfl, _, _, out', hsort, rfl⟩

/-- The unique operations return, and what they return is the division of the rows into the runs of
equal rows of the sequence that is read. -/
theorem unique_divides :
    (∀ (α : Type u) (V : Type v) [LinearOrder V] [Scalar α V] (data : Nat → α) (n w : Nat)
      (consecutive wantInverse wantCounts : Bool), 0 < n →
      (∃ g, UniqueRows data n w consecutive wantInverse wantCounts g) ∧
      ∀ g, UniqueRows data n w consecutive wantInverse wantCounts g →
        ∃ perm group rep, Division data n w consecutive perm g.m group rep ∧
          Returned data n w false true wantInverse wantCounts group rep g) ∧
    ∀ (d : DType) (data : Nat → Elem d) (n : Nat) (consecutive wantInverse wantCounts : Bool),
      0 < n →
      ((consecutive = false → n ≤ SORT_MAX_ROW) →
        ∃ g, UniqueFlat data n consecutive wantInverse wantCounts g) ∧
      ∀ g, UniqueFlat data n consecutive wantInverse wantCounts g →
        ∃ perm group rep, Division data n 1 consecutive perm g.m group rep ∧
          Returned data n 1 true false wantInverse
            (wantCounts || (decide (d = .bool) && !consecutive)) group rep g := by
  constructor
  · intro α V _ _ data n w consecutive wantInverse wantCounts hn
    constructor
    · obtain ⟨perm, hperm⟩ := rowsPerm_exists data n w consecutive
      obtain ⟨marks, gid, g, hgroups⟩ :=
        groupsOf_exists data perm n w false true wantInverse wantCounts false
      exact ⟨g, perm, marks, gid, hperm, hgroups⟩
    · rintro g ⟨perm, marks, gid, hperm, hgroups⟩
      exact ⟨perm, hgroups.returned hn hperm.reads⟩
  · intro d data n consecutive wantInverse wantCounts hn
    constructor
    · intro hmax
      obtain ⟨perm, hperm⟩ := flatPerm_exists data consecutive hn hmax
      obtain ⟨marks, gid, g, hgroups⟩ := groupsOf_exists data perm n 1 true false wantInverse
        (wantCounts || (decide (d = .bool) && !consecutive)) wantCounts
      exact ⟨g, perm, marks, gid, hperm, hgroups⟩
    · rintro g ⟨perm, marks, gid, hperm, hgroups⟩
      exact ⟨perm, hgroups.returned hn (hperm.reads hn)⟩

/-- The two zeros of half floats, each followed by what is no number. -/
def halfZeros (i : Nat) : Elem .float16 :=
  ⟨([0x8000, 0x7E00, 0x0000, 0x7E00] : List (BitVec 16)).getD i 0⟩

/-- The zeros are one group, and of the two that are no number each is its own. -/
theorem unique_divides_zeros : ∃ g perm group rep, UniqueFlat halfZeros 4 false true true g ∧
    Division halfZeros 4 1 false perm g.m group rep ∧ group 0 = group 2 ∧ group 1 ≠ group 3 := by
  obtain ⟨hruns, hall⟩ :=
    unique_divides.{0, 0}.2 .float16 halfZeros 4 false true true (Nat.succ_pos 3)
  obtain ⟨g, hg⟩ := hruns fun _ => by unfold SORT_MAX_ROW; omega
  obtain ⟨perm, group, rep, hdivision, -⟩ := hall g hg
  refine ⟨g, perm, group, rep, hg, hdivision, ?_, fun heq => ?_⟩
  · refine hdivision.together rfl 0 2 (by omega) (by omega) fun k hk => ?_
    obtain rfl : k = 0 := by omega
    decide
  · have hnan : HoldsNaN halfZeros 1 1 := ⟨0, Nat.one_pos, by decide⟩
    exact absurd (hdivision.alone 1 3 (by omega) (by omega) hnan heq.symm) (by decide)

end TorchMojoBackend.Kernels.Unique
