/-
  `Foundation.Selection`: the least elements of a collection.

  Everything in this file is independent of the modelled program.  The first elements of
  a sorted collection are determined by their number, and are found from the first
  elements of its parts.  A stable sort of positions keeps those that tie in order.
-/
import Mathlib.Data.Multiset.Sort
import Mathlib.Algebra.BigOperators.Group.Finset.Basic
import Mathlib.Data.List.Sort

set_option autoImplicit false

namespace TorchMojoBackend.Foundation

universe u

variable {L : Type u} [LinearOrder L] {X Z : Multiset L} {l m : List L}

/-- `l` is the beginning of `X` in order. -/
structure Least (X : Multiset L) (l : List L) : Prop where
  sorted : l.Pairwise (· ≤ ·)
  rest : ∃ Q : Multiset L, X = ↑l + Q ∧ ∀ p ∈ l, ∀ q ∈ Q, p ≤ q

/-- The beginning of a sorted list. -/
theorem Least.take (hl : l.Pairwise (· ≤ ·)) (k : Nat) : Least (↑l) (l.take k) := by
  have hsplit := List.take_append_drop k l
  rw [← hsplit, List.pairwise_append] at hl
  refine ⟨hl.1, ↑(l.drop k), ?_, fun p hp q hq => hl.2.2 p hp q hq⟩
  rw [Multiset.coe_add, hsplit]

/-- Beginnings of one length are the same. -/
theorem Least.unique (hl : Least X l) (hm : Least X m) (hlen : l.length = m.length) : l = m := by
  obtain ⟨Q, hQ, hlow⟩ := hl.rest
  obtain ⟨R, hR, hlow'⟩ := hm.rest
  have hwhole : ∀ {a : List L} {S : Multiset L}, a.Pairwise (· ≤ ·) →
      (∀ p ∈ a, ∀ q ∈ S, p ≤ q) → (a ++ S.sort).Pairwise (· ≤ ·) := fun ha hS =>
    List.pairwise_append.mpr ⟨ha, Multiset.pairwise_sort .., fun p hp q hq =>
      hS p hp q ((Multiset.mem_sort _).mp hq)⟩
  have hperm : (l ++ Q.sort).Perm (m ++ R.sort) := by
    rw [← Multiset.coe_eq_coe, ← Multiset.coe_add, ← Multiset.coe_add, Multiset.sort_eq,
      Multiset.sort_eq, ← hQ, hR]
  have heq := hperm.eq_of_pairwise (fun a b _ _ hab hba => le_antisymm hab hba)
    (hwhole hl.sorted hlow) (hwhole hm.sorted hlow')
  exact (List.append_inj heq hlen).1

/-- The beginning of a part may stand for the part. -/
theorem Least.thin (hl : Least X l) (hm : Least ((l : Multiset L) + Z) m) (hlen : m.length ≤ l.length) :
    Least (X + Z) m := by
  obtain ⟨Q, rfl, hlow⟩ := hl.rest
  obtain ⟨R, hR, hlow'⟩ := hm.rest
  refine ⟨hm.sorted, R + Q, ?_, fun p hp q hq => ?_⟩
  · rw [add_right_comm, hR, add_assoc]
  · obtain hq | hq := Multiset.mem_add.mp hq
    · exact hlow' p hp q hq
    · -- all of `l` is below an element that is left out of the part
      by_contra hlt
      have hbelow : ∀ x ∈ l, x < p := fun x hx => lt_of_le_of_lt (hlow x hx q hq) (not_le.mp hlt)
      have hcount := congrArg (Multiset.countP (· < p)) hR
      rw [Multiset.countP_add, Multiset.countP_add, Multiset.coe_countP, Multiset.coe_countP,
        List.countP_eq_length.mpr (fun x hx => decide_eq_true (hbelow x hx)),
        Multiset.countP_eq_zero.mpr (fun x hx => not_lt.mpr (hlow' p hp x hx))] at hcount
      have hfew : m.countP (fun x => decide (x < p)) < m.length := by
        refine lt_of_le_of_ne List.countP_le_length fun h => ?_
        have hall := List.countP_eq_length.mp h p hp
        exact lt_irrefl p (of_decide_eq_true hall)
      omega

/-- The beginnings of the parts may stand for the parts. -/
theorem Least.parts {p : Nat → Multiset L} {firsts : Nat → List L} (n : Nat)
    (hparts : ∀ c, c < n → Least (p c) (firsts c) ∧ m.length ≤ (firsts c).length)
    (hm : Least ((∑ c ∈ Finset.range n, (firsts c : Multiset L)) + Z) m) :
    Least ((∑ c ∈ Finset.range n, p c) + Z) m := by
  induction n generalizing Z with
  | zero => exact hm
  | succ n ih =>
      obtain ⟨hfirst, hlen⟩ := hparts n (Nat.lt_succ_self n)
      rw [Finset.sum_range_succ, add_assoc] at hm ⊢
      have hbefore := ih (fun c hc => hparts c (Nat.lt_succ_of_lt hc)) hm
      rw [add_left_comm] at hbefore ⊢
      exact hfirst.thin hbefore hlen

/-! ## Ranges -/

section
variable {M : Type u}

/-- A range that is padded. -/
theorem map_range_pad (f : Nat → M) (pad : M) {n N : Nat} (hn : n ≤ N) :
    (List.range N).map (fun i => if i < n then f i else pad) =
      (List.range n).map f ++ List.replicate (N - n) pad := by
  obtain ⟨z, rfl⟩ := Nat.exists_eq_add_of_le hn
  rw [List.range_add, List.map_append, List.map_map, Nat.add_sub_cancel_left]
  congr 1
  · exact List.map_congr_left fun i hi => if_pos (List.mem_range.mp hi)
  · refine List.eq_replicate_iff.mpr ⟨by rw [List.length_map, List.length_range], ?_⟩
    rintro _ hb
    obtain ⟨i, -, rfl⟩ := List.mem_map.mp hb
    exact if_neg (Nat.not_lt.mpr (Nat.le_add_right n i))

/-- A range in parts of one length. -/
theorem coe_map_range_mul (f : Nat → M) (k n : Nat) :
    (((List.range (n * k)).map f : List M) : Multiset M) =
      ∑ c ∈ Finset.range n, (((List.range k).map fun i => f (c * k + i) : List M) : Multiset M) := by
  induction n with
  | zero => rw [Nat.zero_mul]; rfl
  | succ n ih =>
      rw [Finset.sum_range_succ, ← ih, Nat.succ_mul, List.range_add, List.map_append, List.map_map,
        ← Multiset.coe_add]
      rfl

end

/-- The items of a range in pairs. -/
theorem of_map_range_pairwise {M : Type u} {R : M → M → Prop} {f : Nat → M} {n i j : Nat}
    (h : ((List.range n).map f).Pairwise R) (hij : i < j) (hj : j < n) : R (f i) (f j) := by
  have hat := List.pairwise_iff_getElem.mp (List.pairwise_map.mp h) i j
    (by rw [List.length_range]; omega) (by rwa [List.length_range]) hij
  rwa [List.getElem_range, List.getElem_range] at hat

/-- A list of the positions of a range is one-to-one. -/
theorem bijOn_of_map_range_perm {f : Nat → Nat} {n : Nat}
    (h : ((List.range n).map f).Perm (List.range n)) : Set.BijOn f (Set.Iio n) (Set.Iio n) := by
  refine ⟨fun i hi => ?_, fun i hi j hj heq => ?_, fun x hx => ?_⟩
  · exact List.mem_range.mp (h.mem_iff.mp (List.mem_map.mpr ⟨i, List.mem_range.mpr hi, rfl⟩))
  · exact List.inj_on_of_nodup_map (h.nodup_iff.mpr List.nodup_range) (List.mem_range.mpr hi)
      (List.mem_range.mpr hj) heq
  · obtain ⟨i, hi, heq⟩ := List.mem_map.mp (h.mem_iff.mpr (List.mem_range.mpr hx))
    exact ⟨i, List.mem_range.mp hi, heq⟩

/-! ## Stable sorts of positions -/

section
variable {le : Nat → Nat → Bool}

/-- Two positions come in one order only. -/
theorem not_sublist_swap {s : List Nat} (hs : s.Nodup) {a b : Nat} (h : [a, b].Sublist s) :
    ¬ [b, a].Sublist s := by
  have hidx : s.Pairwise fun x y => s.idxOf x < s.idxOf y := by
    rw [List.pairwise_iff_getElem]
    intro i j hi hj hij
    rwa [hs.idxOf_getElem, hs.idxOf_getElem]
  exact fun h' => Nat.lt_asymm (hidx.forall_sublist h) (hidx.forall_sublist h')

/-- A stable sort has the positions that tie in order. -/
theorem mergeSort_range_pairwise (htrans : ∀ a b c, le a b = true → le b c = true → le a c = true)
    (htotal : ∀ a b, (le a b || le b a) = true) (n : Nat) :
    ((List.range n).mergeSort le).Pairwise fun i j => le i j = true ∧ (le j i = true → i < j) := by
  have hperm := List.mergeSort_perm (List.range n) le
  have hnodup : ((List.range n).mergeSort le).Nodup := hperm.nodup_iff.mpr List.nodup_range
  refine List.pairwise_of_forall_sublist fun {a b} hab => ⟨?_, fun htie => ?_⟩
  · exact (List.pairwise_mergeSort htrans htotal _).forall_sublist hab
  · by_contra hle
    have hmem : ∀ x ∈ [a, b], x ∈ List.range n := fun x hx => hperm.mem_iff.mp (hab.subset hx)
    have hne : a ≠ b := hnodup.forall_sublist hab
    -- the pair in the other order is one of the range, which the sort keeps
    have hsub : [b, a].Sublist (List.range n) := by
      refine List.sublist_of_subperm_of_pairwise (r := (· < ·)) ?_ ?_ List.pairwise_lt_range
      · have hpair : [b, a].Nodup := List.pairwise_pair.mpr hne.symm
        refine hpair.subperm fun x hx => hmem x ?_
        rw [List.mem_cons, List.mem_singleton] at hx ⊢
        exact hx.symm
      · exact List.pairwise_pair.mpr (by omega)
    exact not_sublist_swap hnodup hab (List.pair_sublist_mergeSort htrans htotal htie hsub)

end

end TorchMojoBackend.Foundation
