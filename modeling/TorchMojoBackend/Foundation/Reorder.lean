/-
  `Foundation.Reorder`: choosing from a list and from its rearrangement.

  Everything in this file is independent of the modelled program.  Takers choose from one
  list by their numbers.  A taker that likes its element keeps it; the others take the
  element at their number from the list with the liked elements moved to the front.
-/
import Mathlib.Data.List.Perm.Basic
import Mathlib.Data.List.Nodup
import Mathlib.Order.Nat

set_option autoImplicit false

namespace TorchMojoBackend.Foundation

universe u

variable {α : Type u} (p : α → Bool)

/-- The list with the elements that satisfy `p` moved to the front. -/
def front (l : List α) : List α := l.filter p ++ l.filter fun a => !p a

theorem front_perm (l : List α) : (front p l).Perm l := List.filter_append_perm p l

/-- What the taker `i` takes. -/
def taken (l : List α) (i : Nat) : Option α :=
  l[i]?.bind fun a => if p a then some a else (front p l)[i]?

variable {p}

theorem taken_pos {l : List α} {i : Nat} (hi : i < l.length) (h : p l[i] = true) :
    taken p l i = some l[i] := by
  rw [taken, List.getElem?_eq_getElem hi, Option.bind_some, if_pos h]

theorem taken_neg {l : List α} {i : Nat} (hi : i < l.length) (h : p l[i] ≠ true) :
    taken p l i = (front p l)[i]? := by
  rw [taken, List.getElem?_eq_getElem hi, Option.bind_some, if_neg h]

/-- Elements in front that satisfy `p` stay where they are. -/
theorem filter_of_prefix {l : List α} {k : Nat} (h : ∀ a ∈ l.take k, p a = true) :
    l.filter p = l.take k ++ (l.drop k).filter p := by
  conv_lhs => rw [← List.take_append_drop k l]
  rw [List.filter_append, List.filter_eq_self.mpr h]

/-- Elements in front that do not satisfy `p` are left out. -/
theorem filter_of_gap {l : List α} {k : Nat} (h : ∀ a ∈ l.take k, p a ≠ true) :
    l.filter p = (l.drop k).filter p := by
  conv_lhs => rw [← List.take_append_drop k l]
  rw [List.filter_append, List.filter_eq_nil_iff.mpr h, List.nil_append]

theorem mem_take_getElem {l : List α} {k : Nat} {a : α} (h : a ∈ l.take k) :
    ∃ i, ∃ hi : i < l.length, i < k ∧ l[i] = a := by
  obtain ⟨i, hi, rfl⟩ := List.getElem_of_mem h
  rw [List.length_take] at hi
  exact ⟨i, by omega, by omega, List.getElem_take.symm⟩

/-- A taker in front of which everyone keeps its element may take from the rearranged list as
well. -/
theorem taken_of_first {l : List α} {i : Nat} (hi : i < l.length)
    (h : p l[i] = true → ∀ j, ∀ hj : j < i, p (l.get ⟨j, hj.trans hi⟩) = true) :
    taken p l i = (front p l)[i]? := by
  by_cases hp : p l[i] = true
  · have hprefix : ∀ a ∈ l.take (i + 1), p a = true := by
      intro a ha
      obtain ⟨j, hj, hlt, rfl⟩ := mem_take_getElem ha
      by_cases heq : j = i
      · subst heq
        exact hp
      · exact h hp j (by omega)
    rw [taken_pos hi hp, front, filter_of_prefix hprefix, List.append_assoc,
      List.getElem?_append_left (by rw [List.length_take]; omega), List.getElem?_take,
      if_pos (Nat.lt_succ_self i), List.getElem?_eq_getElem hi]
  · exact taken_neg hi hp

/-- The takers get different elements just if those that keep theirs come first. -/
theorem taken_injective_iff {l : List α} (hnodup : l.Nodup) {n : Nat} (hn : n ≤ l.length) :
    (∀ i j, i < n → j < n → i ≠ j → taken p l i ≠ taken p l j) ↔
      ∀ i j, ∀ hij : i < j, ∀ hj : j < n, p (l.get ⟨j, hj.trans_le hn⟩) = true →
        p (l.get ⟨i, (hij.trans hj).trans_le hn⟩) = true := by
  constructor
  · intro hinj i j hij hj hpj
    by_contra hpi
    -- the first one that does not keep its element, and the first one after it that does
    have hdirty : ∃ a, ∃ ha : a < l.length, p l[a] ≠ true := ⟨i, by omega, hpi⟩
    classical
    obtain ⟨ha, hpa⟩ := Nat.find_spec hdirty
    have hamin : ∀ k, k < Nat.find hdirty → ∀ hk : k < l.length, p l[k] = true := by
      intro k hk hlt
      by_contra hpk
      exact Nat.find_min hdirty hk ⟨hlt, hpk⟩
    have hai : Nat.find hdirty ≤ i := Nat.find_min' hdirty ⟨by omega, hpi⟩
    generalize Nat.find hdirty = a at ha hpa hamin hai
    have hkeeps : ∃ b, a < b ∧ ∃ hb : b < l.length, p l[b] = true :=
      ⟨j, by omega, by omega, hpj⟩
    obtain ⟨hab, hb, hpb⟩ := Nat.find_spec hkeeps
    have hbmin : ∀ k, a < k → k < Nat.find hkeeps → ∀ hk : k < l.length, p l[k] ≠ true :=
      fun k hak hk hlt hpk => Nat.find_min hkeeps hk ⟨hak, hlt, hpk⟩
    have hbj : Nat.find hkeeps ≤ j := Nat.find_min' hkeeps ⟨by omega, by omega, hpj⟩
    generalize Nat.find hkeeps = b at hab hb hpb hbmin hbj
    have hprefix : ∀ x ∈ l.take a, p x = true := by
      intro x hx
      obtain ⟨k, hk, hlt, rfl⟩ := mem_take_getElem hx
      exact hamin k hlt hk
    have hgap : ∀ x ∈ (l.drop a).take (b - a), p x ≠ true := by
      intro x hx
      obtain ⟨k, hk, hlt, rfl⟩ := mem_take_getElem hx
      rw [List.getElem_drop]
      by_cases hzero : k = 0
      · subst hzero
        exact hpa
      · exact hbmin (a + k) (by omega) (by omega) _
    have hfront : (front p l)[a]? = some l[b] := by
      have hlen : (l.take a).length = a := by rw [List.length_take]; omega
      have hdrop : l.drop b = l[b] :: l.drop (b + 1) := List.drop_eq_getElem_cons hb
      rw [front, filter_of_prefix hprefix, filter_of_gap hgap, List.drop_drop,
        show a + (b - a) = b by omega, hdrop, List.filter_cons_of_pos hpb, List.append_assoc,
        List.getElem?_append_right (by omega), hlen, Nat.sub_self]
      rfl
    refine hinj a b (by omega) (by omega) (by omega) ?_
    rw [taken_neg ha hpa, taken_pos hb hpb, hfront]
  · intro hfirst i j hi hj hne heq
    have hi' := hi.trans_le hn
    have hj' := hj.trans_le hn
    rw [taken_of_first hi' fun hp k hk => hfirst k i hk hi hp,
      taken_of_first hj' fun hp k hk => hfirst k j hk hj hp] at heq
    have hperm := front_perm p l
    exact hne ((List.getElem?_inj (hperm.length_eq ▸ hi') (hperm.nodup_iff.mpr hnodup)).mp heq)

end TorchMojoBackend.Foundation
