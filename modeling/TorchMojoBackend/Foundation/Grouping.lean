/-
  `Foundation.Grouping`: items numbered by group and by place in their group.

  Groups are numbered by first appearance, and a place in a group counts the items of
  the group before.  Where the groups have one size, the numbers make a grid.
-/
import Mathlib.Algebra.BigOperators.Group.Finset.Basic
import Mathlib.Algebra.Order.Ring.Nat
import Mathlib.Data.List.GetD
import Mathlib.Data.Finset.Range

set_option autoImplicit false

namespace TorchMojoBackend.Foundation

universe u v

/-! ## Tables filled in any order -/

section
variable {ι : Type u} {β : Type v} {p : ι → Nat} {f : ι → β}

@[simp] theorem length_foldl_set (items : List ι) (t : List β) :
    (items.foldl (fun t i => t.set (p i) (f i)) t).length = t.length := by
  induction items generalizing t with
  | nil => rfl
  | cons i items ih => rw [List.foldl_cons, ih, List.length_set]

theorem foldl_set_of_ne {items : List ι} {t : List β} {k : Nat} (hk : ∀ i ∈ items, p i ≠ k) :
    (items.foldl (fun t i => t.set (p i) (f i)) t)[k]? = t[k]? := by
  induction items generalizing t with
  | nil => rfl
  | cons i items ih =>
      rw [List.foldl_cons, ih fun j hj => hk j (List.mem_cons_of_mem _ hj),
        List.getElem?_set_ne (hk i List.mem_cons_self)]

/-- Entries of different positions are all there in the end. -/
theorem foldl_set_of_mem {items : List ι} {t : List β} {i : ι} (hnd : items.Nodup)
    (hinj : ∀ j ∈ items, ∀ k ∈ items, p j = p k → j = k) (hi : i ∈ items) (hlt : p i < t.length) :
    (items.foldl (fun t i => t.set (p i) (f i)) t)[p i]? = some (f i) := by
  induction items generalizing t with
  | nil => exact nomatch hi
  | cons j items ih =>
      rw [List.nodup_cons] at hnd
      rw [List.foldl_cons]
      by_cases hmem : i ∈ items
      · refine ih hnd.2 (fun k hk l hl => ?_) hmem (by rw [List.length_set]; exact hlt)
        exact hinj k (List.mem_cons_of_mem _ hk) l (List.mem_cons_of_mem _ hl)
      · have hij : i = j := (List.mem_cons.mp hi).resolve_right hmem
        subst hij
        rw [foldl_set_of_ne, List.getElem?_set_self hlt]
        intro k hk heq
        exact hmem (hinj k (List.mem_cons_of_mem _ hk) i List.mem_cons_self heq ▸ hk)

end

/-! ## Groups by first appearance -/

section
variable {α : Type u} [DecidableEq α]

/-- The next item: its key joins the keys if it is new. -/
def numberItem (s : List α × List Nat) (a : α) : List α × List Nat :=
  match s.1.findIdx? (· == a) with
  | some idx => (s.1, s.2 ++ [idx])
  | none => (s.1 ++ [a], s.2 ++ [s.1.length])

/-- The keys by first appearance, and the group of each item. -/
def numberItems (items : List α) : List α × List Nat := items.foldl numberItem ([], [])

/-- Keys are different and are those of the items, and a group is the place of its key. -/
structure Numbered (items : List α) (s : List α × List Nat) : Prop where
  nodup : s.1.Nodup
  mem_iff : ∀ a, a ∈ s.1 ↔ a ∈ items
  groups : s.2 = items.map (s.1.idxOf ·)

theorem Numbered.step {items : List α} {s : List α × List Nat} (h : Numbered items s) (a : α) :
    Numbered (items ++ [a]) (numberItem s a) := by
  unfold numberItem
  split
  · rename_i idx heq
    have hidx : s.1.idxOf a = idx := by
      rw [List.idxOf_eq_getD_idxOf?, List.idxOf?, heq, Option.getD_some]
    have hmem : a ∈ s.1 := by
      rw [List.findIdx?_eq_some_iff_getElem] at heq
      obtain ⟨hlt, heq, -⟩ := heq
      exact beq_iff_eq.mp heq ▸ List.getElem_mem hlt
    refine ⟨h.nodup, fun b => ?_, ?_⟩
    · rw [h.mem_iff, List.mem_append, List.mem_singleton]
      refine ⟨Or.inl, fun hb => hb.elim id fun hb => ?_⟩
      exact hb ▸ (h.mem_iff a).mp hmem
    · rw [List.map_append, List.map_singleton, hidx, ← h.groups]
  · rename_i heq
    have hmem : a ∉ s.1 := by
      intro hmem
      have := (List.findIdx?_eq_none_iff.mp heq) a hmem
      simp at this
    refine ⟨List.nodup_append.mpr ⟨h.nodup, List.nodup_singleton a, ?_⟩, fun b => ?_, ?_⟩
    · rintro b hb c hc rfl
      exact hmem (List.mem_singleton.mp hc ▸ hb)
    · rw [List.mem_append, List.mem_append, h.mem_iff]
    · rw [List.map_append, List.map_singleton, List.idxOf_append_of_notMem hmem,
        List.idxOf_cons_self, Nat.add_zero, h.groups]
      refine congrArg (· ++ _) (List.map_congr_left fun b hb => ?_)
      rw [List.idxOf_append_of_mem ((h.mem_iff b).mpr hb)]

theorem numbered_numberItems (items : List α) : Numbered items (numberItems items) := by
  induction items using List.reverseRecOn with
  | nil => exact ⟨List.nodup_nil, fun a => Iff.rfl, rfl⟩
  | append_singleton items a ih =>
      rw [numberItems, List.foldl_append]
      exact ih.step a

section
variable {items : List α} {s : List α × List Nat} (h : Numbered items s)
include h

@[simp] theorem Numbered.length : s.2.length = items.length := by
  rw [h.groups, List.length_map]

theorem Numbered.getElem? (r : Nat) : s.2[r]? = items[r]?.map (s.1.idxOf ·) := by
  rw [h.groups, List.getElem?_map]

theorem Numbered.idxOf_lt {a : α} (ha : a ∈ items) : s.1.idxOf a < s.1.length :=
  List.idxOf_lt_length_of_mem ((h.mem_iff a).mpr ha)

theorem Numbered.lt {k : Nat} (hk : k ∈ s.2) : k < s.1.length := by
  rw [h.groups] at hk
  obtain ⟨a, ha, rfl⟩ := List.mem_map.mp hk
  exact h.idxOf_lt ha

/-- Two items are of one group just if they have one key. -/
theorem Numbered.idxOf_inj {a b : α} (ha : a ∈ items) (hb : b ∈ items) :
    s.1.idxOf a = s.1.idxOf b ↔ a = b := by
  constructor
  · intro heq
    rw [← List.getElem_idxOf (h.idxOf_lt ha), ← List.getElem_idxOf (h.idxOf_lt hb)]
    congr 1
  · exact congrArg (s.1.idxOf ·)

/-- A group is as large as its key is frequent. -/
theorem Numbered.count {a : α} (ha : a ∈ items) : s.2.count (s.1.idxOf a) = items.count a := by
  rw [h.groups, List.count, List.countP_map, List.count]
  refine List.countP_congr fun b hb => ?_
  simp only [Function.comp_apply, beq_iff_eq]
  exact h.idxOf_inj hb ha

end

end

/-! ## Places in a group -/

/-- The next item of group `k`: the group counts it, and its place is how many came before. -/
def placeItem (s : List Nat × List Nat) (k : Nat) : List Nat × List Nat :=
  (s.1.modify k (· + 1), s.2 ++ [s.1.getD k 0])

/-- How large each of `m` groups is, and the place of each item in its group. -/
def placeItems (m : Nat) (groups : List Nat) : List Nat × List Nat :=
  groups.foldl placeItem (List.replicate m 0, [])

/-- The counts and the places after some items. -/
structure Placed (m : Nat) (groups : List Nat) (s : List Nat × List Nat) : Prop where
  counts : s.1 = (List.range m).map groups.count
  length : s.2.length = groups.length
  places : ∀ (r : Nat) (hr : r < groups.length),
    s.2[r]? = some (groups.countBefore groups[r] r)

theorem Placed.step {m : Nat} {groups : List Nat} {s : List Nat × List Nat}
    (h : Placed m groups s) {k : Nat} (hk : k < m) : Placed m (groups ++ [k]) (placeItem s k) := by
  refine ⟨?_, ?_, fun r hr => ?_⟩
  · refine List.ext_getElem ?_ fun j hj hj' => ?_
    · simp [placeItem, h.counts]
    · simp only [placeItem, h.counts, List.getElem_modify, List.getElem_map, List.getElem_range,
        List.count_append, List.count_singleton, beq_iff_eq]
      split <;> rfl
  · rw [placeItem, List.length_append, List.length_append, h.length]
    rfl
  · rw [List.length_append, List.length_singleton] at hr
    rw [List.countBefore_eq_count_take, placeItem]
    by_cases hlt : r < groups.length
    · rw [List.getElem?_append_left (by rw [h.length]; exact hlt), h.places r hlt,
        List.take_append_of_le_length (by omega), List.getElem_append_left hlt,
        List.countBefore_eq_count_take]
    · obtain rfl : r = groups.length := by omega
      have hlast : s.1[k]?.getD 0 = groups.count k := by
        simp [h.counts, hk]
      simp [← h.length, hlast]

theorem placed_placeItems {m : Nat} {groups : List Nat} (hlt : ∀ k ∈ groups, k < m) :
    Placed m groups (placeItems m groups) := by
  induction groups using List.reverseRecOn with
  | nil =>
      refine ⟨?_, rfl, fun r hr => nomatch hr⟩
      refine List.ext_getElem (by simp [placeItems]) fun j hj hj' => ?_
      simp [placeItems]
  | append_singleton groups k ih =>
      rw [placeItems, List.foldl_append]
      refine (ih fun j hj => hlt j (List.mem_append_left _ hj)).step ?_
      exact hlt k (List.mem_append_right _ List.mem_cons_self)

/-! ## Groups of one size -/

section
variable {m w : Nat} {groups : List Nat} (hlt : ∀ k ∈ groups, k < m)
  (hcount : ∀ k, k < m → groups.count k = w)
include hlt hcount

/-- The groups make up all the items. -/
theorem length_of_counts : groups.length = m * w := by
  have hsum := Multiset.sum_count_eq_card (s := Finset.range m) (m := (groups : Multiset Nat))
    fun k hk => Finset.mem_range.mpr (hlt k (Multiset.mem_coe.mp hk))
  rw [Multiset.coe_card] at hsum
  have hall : ∀ k ∈ Finset.range m, Multiset.count k (groups : Multiset Nat) = w := by
    intro k hk
    rw [Multiset.coe_count]
    exact hcount k (Finset.mem_range.mp hk)
  rw [← hsum, Finset.sum_congr rfl hall, Finset.sum_const, Finset.card_range, Nat.nsmul_eq_mul]

/-- An item's place is below the size of the groups. -/
theorem place_lt {r : Nat} (hr : r < groups.length) :
    groups.countBefore groups[r] r < w := by
  rw [← hcount _ (hlt _ (List.getElem_mem hr))]
  exact List.countBefore_lt_count_getElem

omit hlt in
/-- Every place of every group is taken. -/
theorem exists_place {k place : Nat} (hk : k < m) (hplace : place < w) :
    ∃ (r : Nat) (hr : r < groups.length), groups[r] = k ∧ groups.countBefore groups[r] r = place := by
  rw [← hcount k hk] at hplace
  refine ⟨groups.idxOfNth k place, List.idxOfNth_lt_length_of_lt_count hplace,
    List.getElem_idxOfNth_eq, ?_⟩
  rw [List.getElem_idxOfNth_eq]
  exact List.countBefore_idxOfNth_of_lt_count hplace

end

/-- The group and the place tell which item it is. -/
theorem eq_of_countBefore {groups : List Nat} {r s : Nat} (hr : r < groups.length)
    (hs : s < groups.length) (hgroup : groups[r] = groups[s])
    (hplace : groups.countBefore groups[r] r = groups.countBefore groups[s] s) : r = s := by
  rw [← List.idxOfNth_countBefore_getElem (h := hr),
    ← List.idxOfNth_countBefore_getElem (h := hs), hplace, hgroup]

/-- A later item of a group has a higher place. -/
theorem countBefore_strictMono {groups : List Nat} {r s : Nat} (hrs : r < s)
    (hs : s < groups.length) (hgroup : groups[r] = groups[s]) :
    groups.countBefore groups[r] r < groups.countBefore groups[s] s := by
  rw [hgroup, List.countBefore_eq_count_take, List.countBefore_eq_count_take]
  have htake : groups.take (r + 1) <+: groups.take s :=
    List.take_prefix_take_left (by omega)
  refine Nat.lt_of_lt_of_le ?_ (htake.sublist.count_le _)
  rw [List.take_succ_eq_append_getElem (by omega), List.count_append, hgroup]
  simp

/-- The place of an item in the grid of `w` places a group. -/
theorem grid_inj {w k k' place place' : Nat} (hplace : place < w) (hplace' : place' < w)
    (heq : k * w + place = k' * w + place') : k = k' ∧ place = place' := by
  have hw : 0 < w := by omega
  have hk : k = k' := by
    have hdiv := congrArg (· / w) heq
    simpa only [Nat.mul_comm _ w, Nat.mul_add_div hw, Nat.div_eq_of_lt hplace,
      Nat.div_eq_of_lt hplace', Nat.add_zero] using hdiv
  subst hk
  exact ⟨rfl, by omega⟩

end TorchMojoBackend.Foundation
