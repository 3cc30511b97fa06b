/-
  `FlightRecorder.Completion`: when an entry a dump reports completed has completed.

  The submission an entry belongs to is known when its call or its group is
  submitted, and the entries of a communicator that are not folded are recorded in
  the order of their submissions.  A folded entry is recorded before, so that an
  entry after it may have been submitted first; when the commit of its group is then
  dropped, the later entry's completion passes for its own.
-/
import TorchMojoBackend.FlightRecorder.Dump
import TorchMojoBackend.Watchdog.GroupCalls
import Mathlib.Data.List.Flatten
import Mathlib.Data.List.Perm.Subperm

set_option autoImplicit false

namespace TorchMojoBackend.FlightRecorder

open TorchMojoBackend.Foundation TorchMojoBackend.Watchdog TorchMojoBackend.Watchdog.Groups

/-! ## The invariant -/

/-- The watchdog may stamp the entry. -/
def FrEntry.tracked (e : FrEntry) (rid : Nat) : Prop := e.own rid = true ∧ e.untracked = false

/-- The ring, the submissions of its entries and the watchdog's queue agree.  `bound`
bounds the submissions so far and `opened` lists the entries of open folds, each with
its communicator. -/
structure RingInv (bound : Nat → Nat) (opened : List (Nat × Nat)) (s : State) : Prop where
  sub_lt : ∀ i a, s.sub i = some a → ∃ e, s.ring[i]? = some e ∧ a < bound e.comm
  queue : ∀ q ∈ s.queue, q.fr ≠ 0 → ∃ e, s.ring[q.fr - 1]? = some e ∧ e.comm = q.tracker ∧
    e.tracked (q.fr - 1) ∧ s.sub (q.fr - 1) = some q.index
  done : ∀ (i : Nat) e, s.ring[i]? = some e → e.done = true → e.tracked i ∧
    ∃ a, s.sub i = some a ∧ a < s.completed e.comm
  link : ∀ (i : Nat) e, s.ring[i]? = some e → e.link ≠ 0 → ∃ e' a,
    s.ring[e.link - 1]? = some e' ∧ e'.comm = e.comm ∧ s.sub i = some a ∧
    s.sub (e.link - 1) = some a
  waiting : ∀ p ∈ opened, 0 < p.2 ∧ s.sub (p.2 - 1) = none ∧ ∃ e, s.ring[p.2 - 1]? = some e ∧
    e.comm = p.1 ∧ e.folded = true ∧ e.untracked = false ∧ e.link = 0 ∧ e.done = false
  distinct : (opened.map Prod.snd).Nodup
  order : ∀ (i j : Nat) e e' a b, i < j → s.ring[i]? = some e → s.ring[j]? = some e' →
    e'.comm = e.comm → e.folded = false → s.sub i = some a → s.sub j = some b → a < b
  untracked : ∀ (i : Nat) e, s.ring[i]? = some e → e.untracked = true → e.member = false →
    e.own i = true → ∃ a, s.sub i = some a ∧ ∀ (j : Nat) e' b, i < j → s.ring[j]? = some e' →
      e'.pg = e.pg → e'.comm = e.comm → e'.tracked j → e'.member = false →
      s.sub j = some b → a < b

namespace RingInv

variable {bound : Nat → Nat} {opened : List (Nat × Nat)} {s s' : State}

theorem congr (h : RingInv bound opened s) (hring : s'.ring = s.ring) (hsub : s'.sub = s.sub)
    (hqueue : s'.queue = s.queue) (hcompleted : s'.completed = s.completed) :
    RingInv bound opened s' := by
  obtain ⟨h₁, h₂, h₃, h₄, h₅, h₆, h₇, h₈⟩ := h
  refine ⟨?_, ?_, ?_, ?_, ?_, h₆, ?_, ?_⟩ <;> simpa only [hring, hsub, hqueue, hcompleted]

/-- More submissions and fewer open entries. -/
theorem mono (h : RingInv bound opened s) {bound' : Nat → Nat} {opened' : List (Nat × Nat)}
    (hbound : ∀ t, bound t ≤ bound' t) (hsub : opened'.Subperm opened) :
    RingInv bound' opened' s := by
  refine ⟨fun i a hi => ?_, h.queue, h.done, h.link, fun p hp => h.waiting p (hsub.subset hp), ?_,
    h.order, h.untracked⟩
  · obtain ⟨e, he, hlt⟩ := h.sub_lt i a hi
    exact ⟨e, he, Nat.lt_of_lt_of_le hlt (hbound e.comm)⟩
  · obtain ⟨l, hperm, hsublist⟩ := hsub
    exact (hperm.map Prod.snd).nodup_iff.mp (h.distinct.sublist (hsublist.map Prod.snd))

theorem perm (h : RingInv bound opened s) {opened' : List (Nat × Nat)}
    (hperm : opened'.Perm opened) : RingInv bound opened' s :=
  h.mono (fun _ => Nat.le_refl _) hperm.subperm

theorem sub_none (h : RingInv bound opened s) {i : Nat} (hi : s.ring.length ≤ i) :
    s.sub i = none := by
  cases hsub : s.sub i with
  | none => rfl
  | some a =>
      obtain ⟨e, he, -⟩ := h.sub_lt i a hsub
      have := (List.getElem?_eq_some_iff.mp he).1
      omega

end RingInv

/-- An entry of a ring with one more is an old one or the new one. -/
theorem getElem?_concat_cases {α : Type} {l : List α} {x a : α} {i : Nat}
    (h : (l ++ [x])[i]? = some a) : l[i]? = some a ∨ i = l.length ∧ a = x := by
  obtain hlt | hge := Nat.lt_or_ge i l.length
  · rw [List.getElem?_append_left hlt] at h
    exact .inl h
  · rw [List.getElem?_append_right hge, List.getElem?_singleton] at h
    split at h
    · exact .inr ⟨by omega, (Option.some.inj h).symm⟩
    · cases h

theorem getElem?_concat_old {α : Type} {l : List α} {a : α} (x : α) {i : Nat}
    (h : l[i]? = some a) : (l ++ [x])[i]? = some a := by
  rw [List.getElem?_append_left (List.getElem?_eq_some_iff.mp h).1, h]

theorem getElem?_modify_old {α : Type} {l : List α} (f : α → α) (i : Nat) {j : Nat} {x : α}
    (hx : l[j]? = some x) : (l.modify i f)[j]? = some (if i = j then f x else x) := by
  rw [List.getElem?_modify, hx]
  rfl

/-- An entry of a ring with one changed is another old one or the changed one. -/
theorem getElem?_modify_cases {α : Type} {l : List α} {f : α → α} {i : Nat} {a : α}
    (hi : l[i]? = some a) {j : Nat} {x : α} (hx : (l.modify i f)[j]? = some x) :
    (j ≠ i ∧ l[j]? = some x) ∨ (j = i ∧ x = f a) := by
  by_cases heq : i = j
  · subst heq
    rw [getElem?_modify_old f i hi, if_pos rfl] at hx
    exact .inr ⟨rfl, (Option.some.inj hx).symm⟩
  · refine .inl ⟨fun h => heq h.symm, ?_⟩
    cases hl : l[j]? with
    | none =>
        rw [List.getElem?_modify, hl] at hx
        cases hx
    | some y => rwa [getElem?_modify_old f i hl, if_neg heq] at hx

namespace RingInv

variable {bound : Nat → Nat} {opened : List (Nat × Nat)} {s s' : State}

/-! ### New entries -/

/-- A new entry, not submitted yet. -/
theorem record (h : RingInv bound opened s) {e : FrEntry} (huntracked : e.untracked = false)
    (hlink : e.link = 0) (hdone : e.done = false) :
    RingInv bound opened { s with ring := s.ring ++ [e] } := by
  have hnone : s.sub s.ring.length = none := h.sub_none (Nat.le_refl _)
  refine ⟨fun i a hi => ?_, fun q hq hfr => ?_, fun i x hi hd => ?_, fun i x hi hl => ?_,
    fun p hp => ?_, h.distinct, fun i j x y a b hij hi hj hc hf ha hb => ?_,
    fun i x hi hu hm ho => ?_⟩
  · obtain ⟨x, hx, hlt⟩ := h.sub_lt i a hi
    exact ⟨x, getElem?_concat_old e hx, hlt⟩
  · obtain ⟨x, hx, hrest⟩ := h.queue q hq hfr
    exact ⟨x, getElem?_concat_old e hx, hrest⟩
  · obtain hi | ⟨-, rfl⟩ := getElem?_concat_cases hi
    · exact h.done i x hi hd
    · rw [hdone] at hd
      cases hd
  · obtain hi | ⟨-, rfl⟩ := getElem?_concat_cases hi
    · obtain ⟨y, a, hy, hrest⟩ := h.link i x hi hl
      exact ⟨y, a, getElem?_concat_old e hy, hrest⟩
    · exact absurd hlink hl
  · obtain ⟨hpos, hsub, x, hx, hrest⟩ := h.waiting p hp
    exact ⟨hpos, hsub, x, getElem?_concat_old e hx, hrest⟩
  · obtain hi | ⟨rfl, -⟩ := getElem?_concat_cases hi
    · obtain hj | ⟨rfl, -⟩ := getElem?_concat_cases hj
      · exact h.order i j x y a b hij hi hj hc hf ha hb
      · rw [hnone] at hb
        cases hb
    · rw [hnone] at ha
      cases ha
  · obtain hi | ⟨-, rfl⟩ := getElem?_concat_cases hi
    · obtain ⟨a, ha, hlater⟩ := h.untracked i x hi hu hm ho
      refine ⟨a, ha, fun j y b hij hj hpg hc ht hym hb => ?_⟩
      obtain hj | ⟨rfl, -⟩ := getElem?_concat_cases hj
      · exact hlater j y b hij hj hpg hc ht hym hb
      · rw [hnone] at hb
        cases hb
    · rw [huntracked] at hu
      cases hu

/-- A new entry of an open fold. -/
theorem recordFolded (h : RingInv bound opened s) {e : FrEntry} (huntracked : e.untracked = false)
    (hlink : e.link = 0) (hdone : e.done = false) (hfolded : e.folded = true) :
    RingInv bound ((e.comm, s.ring.length + 1) :: opened) { s with ring := s.ring ++ [e] } := by
  have hrecord := h.record huntracked hlink hdone
  refine { hrecord with waiting := fun p hp => ?_, distinct := ?_ }
  · obtain rfl | hp := List.mem_cons.mp hp
    · exact ⟨Nat.succ_pos _, h.sub_none (Nat.le_refl _), e, List.getElem?_concat_length, rfl,
        hfolded,
        huntracked, hlink, hdone⟩
    · exact hrecord.waiting p hp
  · rw [List.map_cons, List.nodup_cons]
    refine ⟨fun hmem => ?_, h.distinct⟩
    obtain ⟨p, hp, heq⟩ := List.mem_map.mp hmem
    obtain ⟨hpos, -, x, hx, -⟩ := h.waiting p hp
    have hlt := (List.getElem?_eq_some_iff.mp hx).1
    dsimp only at heq
    omega

/-- A new entry, submitted at once. -/
theorem recordCommit (h : RingInv bound opened s) {e : FrEntry} (huntracked : e.untracked = false)
    (hlink : e.link = 0) (hdone : e.done = false) :
    RingInv (Function.update bound e.comm (bound e.comm + 1)) opened
      { s with ring := s.ring ++ [e]
               sub := Function.update s.sub s.ring.length (some (bound e.comm)) } := by
  have hrecord := h.record huntracked hlink hdone
  have hnone : s.sub s.ring.length = none := h.sub_none (Nat.le_refl _)
  have hold : ∀ i a, s.sub i = some a →
      Function.update s.sub s.ring.length (some (bound e.comm)) i = some a := fun i a hi => by
    have hne : i ≠ s.ring.length := by
      rintro rfl
      rw [hnone] at hi
      cases hi
    rw [Function.update_of_ne hne, hi]
  have hcases : ∀ i a, Function.update s.sub s.ring.length (some (bound e.comm)) i = some a →
      s.sub i = some a ∨ i = s.ring.length ∧ a = bound e.comm := fun i a hi => by
    by_cases heq : i = s.ring.length
    · rw [heq, Function.update_self] at hi
      exact .inr ⟨heq, (Option.some.inj hi).symm⟩
    · rw [Function.update_of_ne heq] at hi
      exact .inl hi
  -- an earlier submission on the communicator of `e` comes before this one
  have hbefore : ∀ i x a, s.ring[i]? = some x → s.sub i = some a → x.comm = e.comm →
      a < bound e.comm := fun i x a hx ha hc => by
    obtain ⟨y, hy, hlt⟩ := h.sub_lt i a ha
    obtain rfl : y = x := Option.some.inj (hy.symm.trans hx)
    exact hc ▸ hlt
  refine ⟨fun i a hi => ?_, fun q hq hfr => ?_, fun i x hi hd => ?_, fun i x hi hl => ?_,
    fun p hp => ?_, h.distinct, fun i j x y a b hij hi hj hc hf ha hb => ?_,
    fun i x hi hu hm ho => ?_⟩
  · obtain hi | ⟨rfl, rfl⟩ := hcases i a hi
    · obtain ⟨x, hx, hlt⟩ := h.sub_lt i a hi
      refine ⟨x, getElem?_concat_old e hx, ?_⟩
      by_cases hc : x.comm = e.comm
      · rw [hc, Function.update_self]
        rw [hc] at hlt
        omega
      · rw [Function.update_of_ne hc]
        exact hlt
    · refine ⟨e, List.getElem?_concat_length, ?_⟩
      rw [Function.update_self]
      omega
  · obtain ⟨x, hx, hc, ht, hsub⟩ := hrecord.queue q hq hfr
    exact ⟨x, hx, hc, ht, hold _ _ hsub⟩
  · obtain ⟨ht, a, ha, hlt⟩ := hrecord.done i x hi hd
    exact ⟨ht, a, hold _ _ ha, hlt⟩
  · obtain ⟨y, a, hy, hc, ha, hb⟩ := hrecord.link i x hi hl
    exact ⟨y, a, hy, hc, hold _ _ ha, hold _ _ hb⟩
  · obtain ⟨hpos, hsub, x, hx, hrest⟩ := h.waiting p hp
    have hlt := (List.getElem?_eq_some_iff.mp hx).1
    refine ⟨hpos, ?_, x, getElem?_concat_old e hx, hrest⟩
    dsimp only
    rw [Function.update_of_ne (by omega), hsub]
  · dsimp only at hi hj ha hb
    have hji := (List.getElem?_eq_some_iff.mp hj).1
    rw [List.length_append, List.length_singleton] at hji
    obtain ha' | ⟨rfl, -⟩ := hcases i a ha
    · obtain hb' | ⟨rfl, rfl⟩ := hcases j b hb
      · exact hrecord.order i j x y a b hij hi hj hc hf ha' hb'
      · obtain hi' | ⟨rfl, -⟩ := getElem?_concat_cases hi
        · obtain hj' | ⟨-, rfl⟩ := getElem?_concat_cases hj
          · have := (List.getElem?_eq_some_iff.mp hj').1
            omega
          · exact hbefore i x a hi' ha' hc.symm
        · omega
    · omega
  · obtain ⟨a, ha, hlater⟩ := hrecord.untracked i x hi hu hm ho
    refine ⟨a, hold _ _ ha, fun j y b hij hj hpg hc ht hym hb => ?_⟩
    obtain hb | ⟨rfl, rfl⟩ := hcases j b hb
    · exact hlater j y b hij hj hpg hc ht hym hb
    · obtain hi' | ⟨rfl, -⟩ := getElem?_concat_cases hi
      · obtain hj' | ⟨-, rfl⟩ := getElem?_concat_cases hj
        · have := (List.getElem?_eq_some_iff.mp hj').1
          omega
        · exact hbefore i x a hi' ha hc.symm
      · omega

/-! ### Changes of an entry -/

/-- The watchdog drops a submitted entry, of which no later one tells too early. -/
theorem untrack (h : RingInv bound opened s) {i index : Nat} {e : FrEntry}
    (hi : s.ring[i]? = some e) (hsub : s.sub i = some index) (hdone : e.done = false)
    (hqueue : ∀ q ∈ s.queue, q.fr ≠ 0 → q.fr ≠ i + 1)
    (hlater : e.member = false → e.own i = true → ∀ (j : Nat) e' b, i < j →
      s.ring[j]? = some e' → e'.pg = e.pg → e'.comm = e.comm → e'.tracked j →
      e'.member = false → s.sub j = some b → index < b) :
    RingInv bound opened
      { s with ring := s.ring.modify i fun e => { e with untracked := true } } := by
  have hold : ∀ (j : Nat) x, s.ring[j]? = some x →
      ∃ x', (s.ring.modify i fun e => { e with untracked := true })[j]? = some x' ∧
        x'.comm = x.comm ∧ (j ≠ i → x' = x) := by
    intro j x hx
    refine ⟨_, getElem?_modify_old _ i hx, ?_, fun hne => if_neg fun h => hne h.symm⟩
    split <;> rfl
  refine ⟨fun j a hj => ?_, fun q hq hfr => ?_, fun j x hj hd => ?_, fun j x hj hl => ?_,
    fun p hp => ?_, h.distinct, fun j k x y a b hjk hj hk hc hf ha hb => ?_,
    fun j x hj hu hm ho => ?_⟩
  · obtain ⟨x, hx, hlt⟩ := h.sub_lt j a hj
    obtain ⟨x', hx', hc, -⟩ := hold j x hx
    exact ⟨x', hx', hc ▸ hlt⟩
  · obtain ⟨x, hx, hrest⟩ := h.queue q hq hfr
    obtain ⟨x', hx', -, hsame⟩ := hold _ x hx
    have hne := hqueue q hq hfr
    rw [hsame (by omega)] at hx'
    exact ⟨x, hx', hrest⟩
  · obtain ⟨-, hj⟩ | ⟨rfl, rfl⟩ := getElem?_modify_cases hi hj
    · exact h.done j x hj hd
    · rw [hdone] at hd
      cases hd
  · have hlink : ∃ x₀, s.ring[j]? = some x₀ ∧ x₀.link = x.link ∧ x₀.comm = x.comm := by
      obtain ⟨-, hj⟩ | ⟨rfl, rfl⟩ := getElem?_modify_cases hi hj
      · exact ⟨x, hj, rfl, rfl⟩
      · exact ⟨e, hi, rfl, rfl⟩
    obtain ⟨x₀, hx₀, hlink, hcomm⟩ := hlink
    obtain ⟨y, a, hy, hc, hrest⟩ := h.link j x₀ hx₀ (hlink ▸ hl)
    rw [hlink] at hy hrest
    obtain ⟨y', hy', hc', -⟩ := hold _ y hy
    exact ⟨y', a, hy', hc'.trans (hc.trans hcomm), hrest⟩
  · obtain ⟨hpos, hnone, x, hx, hrest⟩ := h.waiting p hp
    obtain ⟨x', hx', -, hsame⟩ := hold _ x hx
    have hne : p.2 - 1 ≠ i := by
      rintro heq
      rw [heq, hsub] at hnone
      cases hnone
    rw [hsame hne] at hx'
    exact ⟨hpos, hnone, x, hx', hrest⟩
  · have hback : ∀ (m : Nat) z,
        (s.ring.modify i fun e => { e with untracked := true })[m]? = some z →
        ∃ z₀, s.ring[m]? = some z₀ ∧ z₀.comm = z.comm ∧ z₀.folded = z.folded := by
      intro m z hz
      obtain ⟨-, hz⟩ | ⟨rfl, rfl⟩ := getElem?_modify_cases hi hz
      · exact ⟨z, hz, rfl, rfl⟩
      · exact ⟨e, hi, rfl, rfl⟩
    obtain ⟨x₀, hx₀, hxc, hxf⟩ := hback j x hj
    obtain ⟨y₀, hy₀, hyc, -⟩ := hback k y hk
    exact h.order j k x₀ y₀ a b hjk hx₀ hy₀ (by rw [hyc, hc, hxc]) (hxf.trans hf) ha hb
  · have hpast : ∀ (k : Nat) y,
        (s.ring.modify i fun e => { e with untracked := true })[k]? = some y →
        y.tracked k → s.ring[k]? = some y := by
      intro k y hk ht
      obtain ⟨-, hk⟩ | ⟨rfl, rfl⟩ := getElem?_modify_cases hi hk
      · exact hk
      · cases ht.2
    obtain ⟨-, hj⟩ | ⟨rfl, rfl⟩ := getElem?_modify_cases hi hj
    · obtain ⟨a, ha, hlast⟩ := h.untracked j x hj hu hm ho
      exact ⟨a, ha, fun k y b hjk hk hpg hc ht hym hb =>
        hlast k y b hjk (hpast k y hk ht) hpg hc ht hym hb⟩
    · exact ⟨index, hsub, fun k y b hjk hk hpg hc ht hym hb =>
        hlater hm ho k y b hjk (hpast k y hk ht) hpg hc ht hym hb⟩

/-- The watchdog stamps an entry whose submission has completed. -/
theorem stamp (h : RingInv bound opened s) {q : Queued} (hq : q ∈ s.queue)
    (hcompleted : q.index < s.completed q.tracker) :
    RingInv bound opened (s.frModify q.fr fun e => { e with done := true }) := by
  unfold State.frModify
  split
  · exact h
  rename_i hfr
  obtain ⟨e, hi, hcomm, htracked, hsub⟩ := h.queue q hq hfr
  generalize q.fr - 1 = i at hi htracked hsub
  have hold : ∀ (j : Nat) x, s.ring[j]? = some x →
      ∃ x', (s.ring.modify i fun e => { e with done := true })[j]? = some x' ∧
        x'.comm = x.comm ∧ (x'.tracked j ↔ x.tracked j) ∧ (j ≠ i → x' = x) := by
    intro j x hx
    refine ⟨_, getElem?_modify_old _ i hx, ?_, ?_, fun hne => if_neg fun h => hne h.symm⟩
    · split <;> rfl
    · split <;> exact Iff.rfl
  have hback : ∀ (m : Nat) z, (s.ring.modify i fun e => { e with done := true })[m]? = some z →
      ∃ z₀, s.ring[m]? = some z₀ ∧ z₀.comm = z.comm ∧ z₀.folded = z.folded ∧ z₀.link = z.link ∧
        z₀.pg = z.pg ∧ z₀.untracked = z.untracked ∧ z₀.member = z.member ∧
        (z₀.tracked m ↔ z.tracked m) := by
    intro m z hz
    obtain ⟨-, hz⟩ | ⟨rfl, rfl⟩ := getElem?_modify_cases hi hz
    · exact ⟨z, hz, rfl, rfl, rfl, rfl, rfl, rfl, Iff.rfl⟩
    · exact ⟨e, hi, rfl, rfl, rfl, rfl, rfl, rfl, Iff.rfl⟩
  refine ⟨fun j a hj => ?_, fun q hq hfr => ?_, fun j x hj hd => ?_, fun j x hj hl => ?_,
    fun p hp => ?_, h.distinct, fun j k x y a b hjk hj hk hc hf ha hb => ?_,
    fun j x hj hu hm ho => ?_⟩
  · obtain ⟨x, hx, hlt⟩ := h.sub_lt j a hj
    obtain ⟨x', hx', hc, -⟩ := hold j x hx
    exact ⟨x', hx', hc ▸ hlt⟩
  · obtain ⟨x, hx, hc, ht, hrest⟩ := h.queue q hq hfr
    obtain ⟨x', hx', hc', ht', -⟩ := hold _ x hx
    exact ⟨x', hx', hc'.trans hc, ht'.mpr ht, hrest⟩
  · obtain ⟨-, hj⟩ | ⟨rfl, rfl⟩ := getElem?_modify_cases hi hj
    · exact h.done j x hj hd
    · exact ⟨htracked, q.index, hsub, hcomm ▸ hcompleted⟩
  · obtain ⟨x₀, hx₀, hcomm, -, hlink, -⟩ := hback j x hj
    obtain ⟨y, a, hy, hc, hrest⟩ := h.link j x₀ hx₀ (hlink ▸ hl)
    rw [hlink] at hy hrest
    obtain ⟨y', hy', hc', -⟩ := hold _ y hy
    exact ⟨y', a, hy', hc'.trans (hc.trans hcomm), hrest⟩
  · obtain ⟨hpos, hnone, x, hx, hrest⟩ := h.waiting p hp
    obtain ⟨x', hx', -, -, hsame⟩ := hold _ x hx
    have hne : p.2 - 1 ≠ i := by
      rintro heq
      rw [heq, hsub] at hnone
      cases hnone
    rw [hsame hne] at hx'
    exact ⟨hpos, hnone, x, hx', hrest⟩
  · obtain ⟨x₀, hx₀, hxc, hxf, -⟩ := hback j x hj
    obtain ⟨y₀, hy₀, hyc, -⟩ := hback k y hk
    exact h.order j k x₀ y₀ a b hjk hx₀ hy₀ (by rw [hyc, hc, hxc]) (hxf.trans hf) ha hb
  · obtain ⟨x₀, hx₀, hxc, hxf, hxl, hxp, hxu, hxm, -⟩ := hback j x hj
    have hown : x₀.own j = true := by rw [FrEntry.own, hxf, hxl]; exact ho
    obtain ⟨a, ha, hlast⟩ := h.untracked j x₀ hx₀ (hxu.trans hu) (hxm.trans hm) hown
    refine ⟨a, ha, fun k y b hjk hk hpg hc ht hym hb => ?_⟩
    obtain ⟨y₀, hy₀, hyc, -, -, hyp, -, hym₀, hyt⟩ := hback k y hk
    exact hlast k y₀ b hjk hy₀ (by rw [hyp, hpg, hxp]) (by rw [hyc, hc, hxc]) (hyt.mpr ht)
      (hym₀.trans hym) hb

/-- More operations complete. -/
theorem complete (h : RingInv bound opened s) {completed : Nat → Nat}
    (hle : ∀ t, s.completed t ≤ completed t) :
    RingInv bound opened { s with completed := completed } := by
  refine { h with done := fun i e hi hd => ?_ }
  obtain ⟨ht, a, ha, hlt⟩ := h.done i e hi hd
  exact ⟨ht, a, ha, Nat.lt_of_lt_of_le hlt (hle e.comm)⟩

/-- The watchdog queues a submitted entry. -/
theorem enqueue (h : RingInv bound opened s) {q : Queued}
    (hq : q.fr ≠ 0 → ∃ e, s.ring[q.fr - 1]? = some e ∧ e.comm = q.tracker ∧
      e.tracked (q.fr - 1) ∧ s.sub (q.fr - 1) = some q.index) :
    RingInv bound opened { s with queue := s.queue ++ [q] } := by
  refine { h with queue := fun q' hq' hfr => ?_ }
  obtain hq' | hq' := List.mem_append.mp hq'
  · exact h.queue q' hq' hfr
  · rw [List.mem_singleton.mp hq'] at hfr ⊢
    exact hq hfr

end RingInv

/-! ### The links of a group -/

/-- What linking entries does to the ring. -/
structure Linked (s s' : State) (rids : List Nat) (link index : Nat) : Prop where
  ring : ∀ i : Nat, s'.ring[i]? = (s.ring[i]?).map fun e =>
    if i + 1 ∈ rids then { e with link := link } else e
  sub : ∀ i, s'.sub i = if i + 1 ∈ rids then some index else s.sub i
  queue : s'.queue = s.queue
  completed : s'.completed = s.completed
  submitted : s'.submitted = s.submitted
  counters : s'.counters = s.counters

theorem foldl_frLink_linked (link index : Nat) (rids : List Nat) (hpos : ∀ rid ∈ rids, 0 < rid)
    (s : State) :
    Linked s (rids.foldl (fun s rid => s.frLink rid link index) s) rids link index := by
  induction rids generalizing s with
  | nil => exact ⟨fun i => by simp, fun i => by simp, rfl, rfl, rfl, rfl⟩
  | cons rid rids ih =>
      have hrid : 0 < rid := hpos rid List.mem_cons_self
      have hfirst : Linked s (s.frLink rid link index) [rid] link index := by
        unfold State.frLink State.frModify
        rw [if_neg (by omega), if_neg (by omega)]
        refine ⟨fun i => ?_, fun i => ?_, rfl, rfl, rfl, rfl⟩
        · have hiff : rid - 1 = i ↔ i + 1 ∈ [rid] := by
            rw [List.mem_singleton]
            omega
          rw [List.getElem?_modify]
          simp only [hiff]
          rfl
        · dsimp only
          by_cases heq : i = rid - 1
          · rw [heq, Function.update_self, if_pos (by rw [List.mem_singleton]; omega)]
          · rw [Function.update_of_ne heq, if_neg (by rw [List.mem_singleton]; omega)]
      have hrest := ih (fun r hr => hpos r (List.mem_cons_of_mem _ hr)) (s.frLink rid link index)
      refine ⟨fun i => ?_, fun i => ?_, hrest.queue.trans hfirst.queue,
        hrest.completed.trans hfirst.completed, hrest.submitted.trans hfirst.submitted,
        hrest.counters.trans hfirst.counters⟩
      · rw [List.foldl_cons, hrest.ring, hfirst.ring, Option.map_map]
        congr 1
        funext e
        simp only [Function.comp_apply, List.mem_cons, List.not_mem_nil, or_false]
        by_cases h₁ : i + 1 = rid
        · simp [h₁]
        · simp [h₁]
      · rw [List.foldl_cons, hrest.sub, hfirst.sub]
        simp only [List.mem_cons, List.not_mem_nil, or_false]
        by_cases h₁ : i + 1 = rid
        · simp [h₁]
        · simp [h₁]

/-- The entries of a submitted fold are linked to its last one. -/
theorem RingInv.linkAll {bound : Nat → Nat} {opened : List (Nat × Nat)} {s s' : State}
    {t last : Nat}
    {rids : List Nat} (h : RingInv bound (rids.map (fun rid => (t, rid)) ++ opened) s)
    (hlast : last ∈ rids) (hl : Linked s s' rids last (bound t)) :
    RingInv (Function.update bound t (bound t + 1)) opened s' := by
  -- an entry of the fold waits
  have hwait : ∀ i, i + 1 ∈ rids → s.sub i = none ∧ ∃ e, s.ring[i]? = some e ∧ e.comm = t ∧
      e.folded = true ∧ e.untracked = false ∧ e.link = 0 ∧ e.done = false := by
    intro i hi
    exact (h.waiting (t, i + 1) (List.mem_append_left _ (List.mem_map_of_mem hi))).2
  have hcases : ∀ (i : Nat) x, s'.ring[i]? = some x → ∃ e, s.ring[i]? = some e ∧
      ((i + 1 ∉ rids ∧ x = e) ∨ (i + 1 ∈ rids ∧ x = { e with link := last })) := by
    intro i x hx
    rw [hl.ring, Option.map_eq_some_iff] at hx
    obtain ⟨e, he, rfl⟩ := hx
    refine ⟨e, he, ?_⟩
    by_cases hi : i + 1 ∈ rids
    · exact .inr ⟨hi, if_pos hi⟩
    · exact .inl ⟨hi, if_neg hi⟩
  have hold : ∀ (i : Nat) e, s.ring[i]? = some e → i + 1 ∉ rids → s'.ring[i]? = some e := by
    intro i e he hi
    rw [hl.ring, he]
    simp [hi]
  have hnew : ∀ (i : Nat) e, s.ring[i]? = some e → i + 1 ∈ rids →
      s'.ring[i]? = some { e with link := last } := by
    intro i e he hi
    rw [hl.ring, he]
    simp [hi]
  have hsub : ∀ i a, s.sub i = some a → i + 1 ∉ rids ∧ s'.sub i = some a := by
    intro i a hi
    have hnot : i + 1 ∉ rids := fun hmem => by
      rw [(hwait i hmem).1] at hi
      cases hi
    rw [hl.sub, if_neg hnot]
    exact ⟨hnot, hi⟩
  have hsubs : ∀ i a, s'.sub i = some a →
      (i + 1 ∉ rids ∧ s.sub i = some a) ∨ (i + 1 ∈ rids ∧ a = bound t) := by
    intro i a hi
    rw [hl.sub] at hi
    by_cases hmem : i + 1 ∈ rids
    · rw [if_pos hmem] at hi
      exact .inr ⟨hmem, (Option.some.inj hi).symm⟩
    · rw [if_neg hmem] at hi
      exact .inl ⟨hmem, hi⟩
  -- the submissions so far on `t` are before this one
  have hbefore : ∀ (i : Nat) x a, s.ring[i]? = some x → s.sub i = some a → x.comm = t →
      a < bound t := fun i x a hx ha hc => by
    obtain ⟨y, hy, hlt⟩ := h.sub_lt i a ha
    obtain rfl : y = x := Option.some.inj (hy.symm.trans hx)
    exact hc ▸ hlt
  have hlastpos : 0 < last :=
    (h.waiting (t, last) (List.mem_append_left _ (List.mem_map_of_mem hlast))).1
  refine ⟨fun i a hi => ?_, fun q hq hfr => ?_, fun i x hi hd => ?_, fun i x hi hlink => ?_,
    fun p hp => ?_, ?_, fun i j x y a b hij hi hj hc hf ha hb => ?_, fun i x hi hu hm ho => ?_⟩
  · obtain ⟨hmem, hi⟩ | ⟨hmem, rfl⟩ := hsubs i a hi
    · obtain ⟨e, he, hlt⟩ := h.sub_lt i a hi
      refine ⟨e, hold i e he hmem, ?_⟩
      by_cases hc : e.comm = t
      · rw [hc, Function.update_self]
        rw [hc] at hlt
        omega
      · rw [Function.update_of_ne hc]
        exact hlt
    · obtain ⟨-, e, he, hc, -⟩ := hwait i hmem
      refine ⟨_, hnew i e he hmem, ?_⟩
      rw [hc, Function.update_self]
      omega
  · rw [hl.queue] at hq
    obtain ⟨e, he, hc, ht, hs⟩ := h.queue q hq hfr
    obtain ⟨hmem, hs'⟩ := hsub _ _ hs
    exact ⟨e, hold _ e he hmem, hc, ht, hs'⟩
  · obtain ⟨e, he, ⟨-, rfl⟩ | ⟨hmem, rfl⟩⟩ := hcases i x hi
    · obtain ⟨ht, a, ha, hlt⟩ := h.done i x he hd
      exact ⟨ht, a, (hsub i a ha).2, hl.completed ▸ hlt⟩
    · obtain ⟨-, e', he', -, -, -, -, hdone⟩ := hwait i hmem
      obtain rfl : e = e' := Option.some.inj (he.symm.trans he')
      dsimp only at hd
      rw [hdone] at hd
      cases hd
  · obtain ⟨e, he, ⟨-, rfl⟩ | ⟨hmem, rfl⟩⟩ := hcases i x hi
    · obtain ⟨y, a, hy, hc, ha, hb⟩ := h.link i x he hlink
      obtain ⟨hmem', hb'⟩ := hsub _ a hb
      exact ⟨y, a, hold _ y hy hmem', hc, (hsub i a ha).2, hb'⟩
    · have hlast' : last - 1 + 1 ∈ rids := by rwa [Nat.sub_add_cancel hlastpos]
      obtain ⟨-, e', he', hc, -⟩ := hwait i hmem
      obtain rfl : e = e' := Option.some.inj (he.symm.trans he')
      obtain ⟨-, y, hy, hyc, -⟩ := hwait (last - 1) hlast'
      refine ⟨_, bound t, hnew _ y hy hlast', hyc.trans hc.symm, ?_, ?_⟩
      · rw [hl.sub, if_pos hmem]
      · rw [hl.sub, if_pos hlast']
  · obtain ⟨hpos, hnone, e, he, hrest⟩ := h.waiting p (List.mem_append_right _ hp)
    have hmem : p.2 - 1 + 1 ∉ rids := by
      rw [Nat.sub_add_cancel hpos]
      intro hmem
      have hdistinct := h.distinct
      rw [List.map_append, List.nodup_append] at hdistinct
      refine hdistinct.2.2 p.2 ?_ p.2 (List.mem_map_of_mem hp) rfl
      simpa using hmem
    refine ⟨hpos, ?_, e, hold _ e he hmem, hrest⟩
    rw [hl.sub, if_neg hmem, hnone]
  · have hdistinct := h.distinct
    rw [List.map_append, List.nodup_append] at hdistinct
    exact hdistinct.2.1
  · obtain ⟨x₀, hx₀, ⟨hxm, rfl⟩ | ⟨hxm, rfl⟩⟩ := hcases i x hi
    · obtain ⟨-, ha⟩ | ⟨hmem, -⟩ := hsubs i a ha
      · obtain ⟨y₀, hy₀, ⟨hym, rfl⟩ | ⟨hym, rfl⟩⟩ := hcases j y hj
        · obtain ⟨-, hb⟩ | ⟨hmem, -⟩ := hsubs j b hb
          · exact h.order i j x y a b hij hx₀ hy₀ hc hf ha hb
          · exact absurd hmem hym
        · obtain ⟨hmem, -⟩ | ⟨-, rfl⟩ := hsubs j b hb
          · exact absurd hym hmem
          · obtain ⟨-, y', hy', hyc, -⟩ := hwait j hym
            obtain rfl : y₀ = y' := Option.some.inj (hy₀.symm.trans hy')
            exact hbefore i x a hx₀ ha (hc.symm.trans hyc)
      · exact absurd hmem hxm
    · obtain ⟨-, x', hx', -, hfolded, -⟩ := hwait i hxm
      obtain rfl : x₀ = x' := Option.some.inj (hx₀.symm.trans hx')
      dsimp only at hf
      rw [hfolded] at hf
      cases hf
  · obtain ⟨x₀, hx₀, ⟨hxm, rfl⟩ | ⟨hxm, rfl⟩⟩ := hcases i x hi
    · obtain ⟨a, ha, hlater⟩ := h.untracked i x hx₀ hu hm ho
      refine ⟨a, (hsub i a ha).2, fun j y b hij hj hpg hc ht hym hb => ?_⟩
      obtain ⟨y₀, hy₀, ⟨hyr, rfl⟩ | ⟨hyr, rfl⟩⟩ := hcases j y hj
      · obtain ⟨-, hb⟩ | ⟨hmem, -⟩ := hsubs j b hb
        · exact hlater j y b hij hy₀ hpg hc ht hym hb
        · exact absurd hmem hyr
      · obtain ⟨hmem, -⟩ | ⟨-, rfl⟩ := hsubs j b hb
        · exact absurd hyr hmem
        · obtain ⟨-, y', hy', hyc, -⟩ := hwait j hyr
          obtain rfl : y₀ = y' := Option.some.inj (hy₀.symm.trans hy')
          exact hbefore i x a hx₀ ha (hc.symm.trans hyc)
    · obtain ⟨-, x', hx', -, -, huntracked, -⟩ := hwait i hxm
      obtain rfl : x₀ = x' := Option.some.inj (hx₀.symm.trans hx')
      dsimp only at hu
      rw [huntracked] at hu
      cases hu

/-! ## The operations -/

section

variable {bound : Nat → Nat} {opened : List (Nat × Nat)} {s : State}

theorem frRecord_none {w : Nat} (hw : s.counters w = none) (t : Nat) (e : Entry) (tag : Tag)
    (deferred : Bool) : s.frRecord w t e tag deferred = (s, 0) := by
  unfold State.frRecord
  rw [hw]

/-- The entry made when the group records. -/
theorem frRecord_some {w : Nat} (hw : s.counters w ≠ none) (t : Nat) (e : Entry) (tag : Tag)
    (deferred : Bool) : ∃ c x, s.frRecord w t e tag deferred =
      ({ s with counters := Function.update s.counters w (some c), ring := s.ring ++ [x] },
        s.ring.length + 1) ∧
      x.comm = t ∧ x.untracked = false ∧ x.link = 0 ∧ x.done = false ∧ x.folded = deferred := by
  unfold State.frRecord
  cases hc : s.counters w with
  | none => exact absurd hc hw
  | some c => exact ⟨_, _, rfl, rfl, rfl, rfl, rfl, rfl⟩

/-- A member's own entry. -/
theorem RingInv.frMember (h : RingInv bound opened s) (w t : Nat) (e : Entry) (tag : Tag) :
    RingInv bound opened (s.frRecord w t e tag false).1 := by
  by_cases hw : s.counters w = none
  · rw [frRecord_none hw]
    exact h
  · obtain ⟨c, x, heq, -, hu, hl, hd, -⟩ := frRecord_some hw t e tag false
    rw [heq]
    exact (h.record hu hl hd).congr rfl rfl rfl rfl

end

/-- What an entry keeps, whatever happens to it. -/
structure Advances (e e' : FrEntry) : Prop where
  pg : e'.pg = e.pg
  comm : e'.comm = e.comm
  member : e'.member = e.member
  folded : e'.folded = e.folded
  untracked : e.untracked = true → e'.untracked = true
  done : e.done = true → e'.done = true
  link : e.link ≠ 0 → e'.link = e.link

theorem Advances.refl (e : FrEntry) : Advances e e :=
  ⟨rfl, rfl, rfl, rfl, fun h => h, fun h => h, fun _ => rfl⟩

theorem Advances.trans {e e' e'' : FrEntry} (h : Advances e e') (h' : Advances e' e'') :
    Advances e e'' := by
  refine ⟨h'.pg.trans h.pg, h'.comm.trans h.comm, h'.member.trans h.member,
    h'.folded.trans h.folded, fun hu => h'.untracked (h.untracked hu),
    fun hd => h'.done (h.done hd), fun hl => ?_⟩
  rw [h'.link (h.link hl ▸ hl), h.link hl]

/-- Entries and submissions stay, and no operation is undone. -/
structure Grows (s s' : State) : Prop where
  ring : ∀ (i : Nat) e, s.ring[i]? = some e → ∃ e', s'.ring[i]? = some e' ∧ Advances e e'
  sub : ∀ i a, s.sub i = some a → s'.sub i = some a
  completed : ∀ t, s.completed t ≤ s'.completed t

theorem Grows.of_eq {s s' : State} (hring : s'.ring = s.ring) (hsub : s'.sub = s.sub)
    (hcompleted : ∀ t, s.completed t ≤ s'.completed t) : Grows s s' := by
  refine ⟨fun i e hi => ⟨e, ?_, .refl e⟩, fun i a hi => ?_, hcompleted⟩
  · rwa [hring]
  · rwa [hsub]

theorem Grows.refl (s : State) : Grows s s := .of_eq rfl rfl fun _ => Nat.le_refl _

theorem Grows.trans {s s' s'' : State} (h : Grows s s') (h' : Grows s' s'') : Grows s s'' := by
  refine ⟨fun i e hi => ?_, fun i a hi => h'.sub i a (h.sub i a hi),
    fun t => Nat.le_trans (h.completed t) (h'.completed t)⟩
  obtain ⟨e', hi', hadv⟩ := h.ring i e hi
  obtain ⟨e'', hi'', hadv'⟩ := h'.ring i e' hi'
  exact ⟨e'', hi'', hadv.trans hadv'⟩

/-- A change of one entry that keeps what entries keep. -/
theorem Grows.of_modify {s s' : State} {i : Nat} {f : FrEntry → FrEntry}
    (hf : ∀ e, Advances e (f e)) (hring : s'.ring = s.ring.modify i f) (hsub : s'.sub = s.sub)
    (hcompleted : s'.completed = s.completed) : Grows s s' := by
  refine ⟨fun j e hj => ?_, fun j a hj => hsub ▸ hj,
    fun t => Nat.le_of_eq (congrFun hcompleted.symm t)⟩
  rw [hring, getElem?_modify_old f i hj]
  refine ⟨_, rfl, ?_⟩
  split
  · exact hf e
  · exact .refl e

/-- What an operation on the communicator `t` does to the ring: it leaves the entries
of the others alone. -/
structure OthersSame (s s' : State) (t : Nat) : Prop extends Grows s s' where
  keep : ∀ (i : Nat) e, s.ring[i]? = some e → e.comm ≠ t →
    s'.ring[i]? = some e ∧ s'.sub i = s.sub i
  back : ∀ (i : Nat) e, s'.ring[i]? = some e → e.comm ≠ t → s.ring[i]? = some e

theorem OthersSame.refl (s : State) (t : Nat) : OthersSame s s t :=
  ⟨.refl s, fun _ _ h _ => ⟨h, rfl⟩, fun _ _ h _ => h⟩

theorem OthersSame.trans {s s' s'' : State} {t : Nat} (h : OthersSame s s' t)
    (h' : OthersSame s' s'' t) : OthersSame s s'' t := by
  refine ⟨h.toGrows.trans h'.toGrows, fun i e hi hne => ?_,
    fun i e hi hne => h.back i e (h'.back i e hi hne) hne⟩
  obtain ⟨hring, hsub⟩ := h.keep i e hi hne
  obtain ⟨hring', hsub'⟩ := h'.keep i e hring hne
  exact ⟨hring', hsub'.trans hsub⟩

theorem OthersSame.of_eq {s s' : State} (t : Nat) (hring : s'.ring = s.ring)
    (hsub : s'.sub = s.sub) (hcompleted : s'.completed = s.completed) : OthersSame s s' t := by
  refine ⟨.of_eq hring hsub fun t => Nat.le_of_eq (congrFun hcompleted.symm t),
    fun i e hi _ => ?_, fun i e hi _ => ?_⟩
  · rw [hring, hsub]
    exact ⟨hi, rfl⟩
  · rwa [hring] at hi

/-- One more entry, on the communicator. -/
theorem OthersSame.of_concat {s s' : State} {x : FrEntry} {bound : Nat → Nat}
    {opened : List (Nat × Nat)} (h : RingInv bound opened s) (hring : s'.ring = s.ring ++ [x])
    (hsub : ∀ i, i < s.ring.length → s'.sub i = s.sub i)
    (hcompleted : s'.completed = s.completed) : OthersSame s s' x.comm := by
  refine ⟨⟨fun i e hi => ⟨e, ?_, .refl e⟩, fun i a hi => ?_,
      fun t => Nat.le_of_eq (congrFun hcompleted.symm t)⟩,
    fun i e hi _ => ?_, fun i e hi hne => ?_⟩
  · rw [hring]
    exact getElem?_concat_old x hi
  · obtain ⟨e, he, -⟩ := h.sub_lt i a hi
    rw [hsub i (List.getElem?_eq_some_iff.mp he).1, hi]
  · rw [hring]
    exact ⟨getElem?_concat_old x hi, hsub i (List.getElem?_eq_some_iff.mp hi).1⟩
  · rw [hring] at hi
    obtain hi | ⟨-, rfl⟩ := getElem?_concat_cases hi
    · exact hi
    · exact absurd rfl hne

/-- A change of one entry, of the communicator. -/
theorem OthersSame.of_modify {s s' : State} {i : Nat} {x : FrEntry} {f : FrEntry → FrEntry}
    (hx : s.ring[i]? = some x) (hf : ∀ e, Advances e (f e)) (hring : s'.ring = s.ring.modify i f)
    (hsub : s'.sub = s.sub) (hcompleted : s'.completed = s.completed) :
    OthersSame s s' x.comm := by
  refine ⟨.of_modify hf hring hsub hcompleted, fun j e hj hne => ?_, fun j e hj hne => ?_⟩
  · rw [hring, hsub]
    refine ⟨?_, rfl⟩
    rw [getElem?_modify_old f i hj]
    have hij : i ≠ j := by
      rintro rfl
      exact hne (congrArg FrEntry.comm (Option.some.inj (hj.symm.trans hx)))
    rw [if_neg hij]
  · rw [hring] at hj
    obtain ⟨-, hj⟩ | ⟨rfl, rfl⟩ := getElem?_modify_cases hx hj
    · exact hj
    · exact absurd (hf x).comm hne

theorem advances_untracked (e : FrEntry) : Advances e { e with untracked := true } :=
  ⟨rfl, rfl, rfl, rfl, fun _ => rfl, fun h => h, fun _ => rfl⟩

theorem advances_done (e : FrEntry) : Advances e { e with done := true } :=
  ⟨rfl, rfl, rfl, rfl, fun h => h, fun _ => rfl, fun _ => rfl⟩

theorem frRecord_grows (s : State) (w t : Nat) (e : Entry) (tag : Tag) (deferred : Bool) :
    Grows s (s.frRecord w t e tag deferred).1 := by
  by_cases hw : s.counters w = none
  · rw [frRecord_none hw]
    exact .refl s
  · obtain ⟨c, x, heq, -⟩ := frRecord_some hw t e tag deferred
    rw [heq]
    exact ⟨fun i e hi => ⟨e, getElem?_concat_old x hi, .refl e⟩, fun _ _ h => h,
      fun _ => Nat.le_refl _⟩

/-! ### Deferred entries -/

/-- What making the deferred entry of a fold's operation does. -/
structure Flushed (s : State) (f : GroupFold) (s' : State) (f' : GroupFold) : Prop where
  submitted : s'.submitted = s.submitted
  sub : s'.sub = s.sub
  queue : s'.queue = s.queue
  completed : s'.completed = s.completed
  empty : f'.entry.nops = 0
  rids : (s'.ring = s.ring ∧ f'.rids = f.rids ∧ f.entry.nops = 0) ∨
    ∃ x, s'.ring = s.ring ++ [x] ∧ f'.rids = f.rids ++ [s.ring.length + 1] ∧
      x.comm = f.tracker ∧ x.untracked = false ∧ x.link = 0 ∧ x.done = false ∧ x.folded = true

theorem frFlush_flushed {s : State} {w : Nat} (hw : s.counters w ≠ none) (f : GroupFold)
    (tag : Tag) : Flushed s f (s.frFlush w f tag).1 (s.frFlush w f tag).2 := by
  unfold State.frFlush
  split
  · rename_i hzero
    exact ⟨rfl, rfl, rfl, rfl, hzero, .inl ⟨rfl, rfl, hzero⟩⟩
  · obtain ⟨c, x, heq, hrest⟩ := frRecord_some hw f.tracker f.entry tag true
    rw [heq]
    exact ⟨rfl, rfl, rfl, rfl, rfl, .inr ⟨x, rfl, rfl, hrest⟩⟩

/-- The entries a fold waits with, with its communicator. -/
def waitingOf (f : GroupFold) : List (Nat × Nat) := f.rids.map fun rid => (f.tracker, rid)

namespace Flushed

variable {s s' : State} {f f' : GroupFold}

theorem ringInv (hf : Flushed s f s' f') : ∃ new, f'.rids = f.rids ++ new ∧
    ∀ {bound : Nat → Nat} {opened : List (Nat × Nat)}, RingInv bound opened s →
      RingInv bound (new.map (fun rid => (f.tracker, rid)) ++ opened) s' := by
  obtain ⟨hring, hrids, -⟩ | ⟨x, hring, hrids, hcomm, hu, hl, hd, hfold⟩ := hf.rids
  · exact ⟨[], by simp [hrids], fun h => h.congr hring hf.sub hf.queue hf.completed⟩
  · refine ⟨_, hrids, fun h => ?_⟩
    have hnew := h.recordFolded hu hl hd hfold
    rw [hcomm] at hnew
    exact hnew.congr hring hf.sub hf.queue hf.completed

theorem others (hf : Flushed s f s' f') {bound : Nat → Nat} {opened : List (Nat × Nat)}
    (h : RingInv bound opened s) : OthersSame s s' f.tracker := by
  obtain ⟨hring, -⟩ | ⟨x, hring, -, hcomm, -⟩ := hf.rids
  · exact .of_eq _ hring hf.sub hf.completed
  · exact hcomm ▸ .of_concat h hring (fun i _ => by rw [hf.sub]) hf.completed

end Flushed

/-! ### The condition -/

instance (e : FrEntry) (rid : Nat) : Decidable (e.tracked rid) :=
  inferInstanceAs (Decidable (_ ∧ _))

/-- The completion of `e'`, with the record id `rid`, would pass for that of `e`. -/
def Passes (e e' : FrEntry) (rid : Nat) : Prop :=
  e'.pg = e.pg ∧ e'.comm = e.comm ∧ e'.tracked rid ∧ e'.member = false

instance (e e' : FrEntry) (rid : Nat) : Decidable (Passes e e' rid) :=
  inferInstanceAs (Decidable (_ ∧ _ ∧ _ ∧ _))

/-- No operation whose entry is after the fold's last one was submitted yet, of those
whose completion would pass for it. -/
def LastClear (s : State) (f : GroupFold) : Prop :=
  ∀ last ∈ f.rids.getLast?, ∀ e ∈ s.ring[last - 1]?, e.member = false →
    ∀ j < s.ring.length, last ≤ j → ∀ e' ∈ s.ring[j]?, Passes e e' j → s.sub j = none

instance (s : State) (f : GroupFold) : Decidable (LastClear s f) := by
  unfold LastClear
  infer_instance

/-- The operation of another communicator does not matter. -/
theorem LastClear.of_others {s u : State} {t : Nat} {g : GroupFold} (h : LastClear s g)
    (ho : OthersSame s u t) (hne : g.tracker ≠ t) {bound : Nat → Nat} {opened : List (Nat × Nat)}
    (hring : RingInv bound opened u) (hmem : ∀ p ∈ waitingOf g, p ∈ opened) : LastClear u g := by
  intro last hlast e he hmember j _ hle e' he' hpasses
  have hcomm : e'.comm = e.comm := hpasses.2.1
  have hrid : last ∈ g.rids := List.mem_of_getLast? hlast
  obtain ⟨-, -, x, hx, hc, -⟩ :=
    hring.waiting (g.tracker, last) (hmem _ (List.mem_map_of_mem hrid))
  obtain rfl : e = x := Option.some.inj (he.symm.trans hx)
  have hne' : e.comm ≠ t := fun h => hne (hc.symm.trans h)
  have hj := ho.back j e' he' (hcomm ▸ hne')
  rw [(ho.keep j e' hj (hcomm ▸ hne')).2]
  exact h last hlast e (ho.back _ e he hne') hmember j (List.getElem?_eq_some_iff.mp hj).1 hle e'
    hj hpasses

theorem Flushed.lastClear {s s' : State} {f f' : GroupFold} (hf : Flushed s f s' f')
    (h : f.entry.nops = 0 → LastClear s f) : LastClear s' f' := by
  obtain ⟨hring, hrids, hzero⟩ | ⟨x, hring, hrids, -⟩ := hf.rids
  · have hclear := h hzero
    unfold LastClear at hclear ⊢
    rwa [hring, hrids, hf.sub]
  · intro last hlast e _ _ j hj hle
    rw [hrids, List.getLast?_concat] at hlast
    obtain rfl : last = s.ring.length + 1 := (Option.some.inj hlast).symm
    rw [hring, List.length_append, List.length_singleton] at hj
    omega

/-! ### Commits -/

section

variable {bound : Nat → Nat} {opened : List (Nat × Nat)} {s : State}

/-- The end of `watch_commit`: the submitted entry is queued or dropped. -/
theorem RingInv.settle (h : RingInv bound opened s) {t fr index : Nat} {x : FrEntry}
    (hfr : 0 < fr) (hx : s.ring[fr - 1]? = some x) (hcomm : x.comm = t)
    (htracked : x.tracked (fr - 1)) (hdone : x.done = false) (hsub : s.sub (fr - 1) = some index)
    (hqueue : ∀ q ∈ s.queue, q.fr ≠ 0 → q.fr ≠ fr) (drop : Bool)
    (hclear : drop = true → x.member = false → ∀ (j : Nat) e' b, fr ≤ j → s.ring[j]? = some e' →
      Passes x e' j → s.sub j = some b → index < b) :
    let s' := if drop then s.frUntracked fr else { s with queue := s.queue ++ [⟨t, index, fr⟩] }
    RingInv bound opened s' ∧ OthersSame s s' t := by
  dsimp only
  cases drop with
  | false =>
      exact ⟨h.enqueue fun _ => ⟨x, hx, hcomm, htracked, hsub⟩, .of_eq _ rfl rfl rfl⟩
  | true =>
      rw [if_pos rfl, State.frUntracked, State.frModify, if_neg (by omega)]
      refine ⟨h.untrack hx hsub hdone (fun q hq hne => ?_)
        fun hm _ j e' b hj he' hpg hc ht hm' hb =>
        hclear rfl hm j e' b (by omega) he' ⟨hpg, hc, ht, hm'⟩ hb,
        hcomm ▸ .of_modify hx advances_untracked rfl rfl rfl⟩
      have := hqueue q hq hne
      omega

/-- `watch_commit` of an entry the ring has. -/
theorem RingInv.watchCommit (h : RingInv bound opened s) {w t fr index : Nat} {x : FrEntry}
    (e : Entry) (tag : Tag) (hfr : 0 < fr) (hx : s.ring[fr - 1]? = some x) (hcomm : x.comm = t)
    (htracked : x.tracked (fr - 1)) (hdone : x.done = false) (hsub : s.sub (fr - 1) = some index)
    (hqueue : ∀ q ∈ s.queue, q.fr ≠ 0 → q.fr ≠ fr) (drop : Bool)
    (hclear : drop = true → x.member = false → ∀ (j : Nat) e' b, fr ≤ j → s.ring[j]? = some e' →
      Passes x e' j → s.sub j = some b → index < b) :
    RingInv bound opened (s.watchCommit w t e tag fr index drop) ∧
      OthersSame s (s.watchCommit w t e tag fr index drop) t := by
  have hsame : Function.update s.sub (fr - 1) (some index) = s.sub :=
    Function.update_eq_self_iff.mpr hsub.symm
  have hsettle := h.settle hfr hx hcomm htracked hdone hsub hqueue drop hclear
  unfold State.watchCommit
  simp only [if_pos (show fr ≠ 0 by omega), if_neg (show ¬ fr = 0 by omega), hsame]
  exact hsettle

theorem le_update_succ (f : Nat → Nat) (t t' : Nat) :
    f t' ≤ Function.update f t (f t + 1) t' := by
  by_cases heq : t' = t
  · obtain rfl := heq
    calc f t' ≤ f t' + 1 := Nat.le_succ _
      _ = Function.update f t' (f t' + 1) t' := by rw [Function.update_self]
  · exact Nat.le_of_eq (by rw [Function.update_of_ne heq])

/-- `watch_commit` of an entry it records itself. -/
theorem RingInv.watchCommit_new (h : RingInv bound opened s) (w t : Nat) (e : Entry) (tag : Tag)
    (drop : Bool) :
    RingInv (Function.update bound t (bound t + 1)) opened
        (s.watchCommit w t e tag 0 (bound t) drop) ∧
      OthersSame s (s.watchCommit w t e tag 0 (bound t) drop) t := by
  unfold State.watchCommit
  simp only [ne_eq, not_true_eq_false, if_false]
  by_cases hw : s.counters w = none
  · -- without a recorder the entry has no place in the ring
    have hmono := h.mono (le_update_succ bound t) (List.Subperm.refl _)
    rw [frRecord_none hw]
    dsimp only
    cases drop with
    | false => exact ⟨hmono.enqueue fun hne => absurd rfl hne, .of_eq _ rfl rfl rfl⟩
    | true => exact ⟨hmono, .refl s t⟩
  · obtain ⟨c, x, heq, hcomm, hu, hl, hd, hf⟩ := frRecord_some hw t e tag false
    rw [heq]
    simp only [Nat.add_one_ne_zero, if_false, Nat.add_sub_cancel]
    have hnew := h.recordCommit hu hl hd
    rw [hcomm] at hnew
    generalize hs₂ : ({ s with
      counters := Function.update s.counters w (some c)
      ring := s.ring ++ [x]
      sub := Function.update s.sub s.ring.length (some (bound t)) } : State) = s₂
    have hring : s₂.ring = s.ring ++ [x] := by rw [← hs₂]
    have hsub : s₂.sub = Function.update s.sub s.ring.length (some (bound t)) := by rw [← hs₂]
    have hqueue : s₂.queue = s.queue := by rw [← hs₂]
    have hcompleted : s₂.completed = s.completed := by rw [← hs₂]
    have hinv : RingInv (Function.update bound t (bound t + 1)) opened s₂ :=
      hnew.congr hring hsub hqueue hcompleted
    have hother : OthersSame s s₂ t := by
      refine hcomm ▸ .of_concat h hring (fun i hi => ?_) hcompleted
      rw [hsub, Function.update_of_ne (by omega)]
    have hlast : s₂.ring[s.ring.length + 1 - 1]? = some x := by
      rw [hring]
      exact List.getElem?_concat_length
    have hlinked : s₂.sub (s.ring.length + 1 - 1) = some (bound t) := by
      rw [hsub, Nat.add_sub_cancel, Function.update_self]
    have hsettle := hinv.settle (Nat.succ_pos _) hlast hcomm ⟨by simp [FrEntry.own, hf], hu⟩ hd
      hlinked ?_ drop ?_
    · subst hs₂
      exact ⟨hsettle.1, hother.trans hsettle.2⟩
    · intro q hq hfr
      rw [hqueue] at hq
      obtain ⟨y, hy, -⟩ := h.queue q hq hfr
      have := (List.getElem?_eq_some_iff.mp hy).1
      omega
    · intro _ _ j e' b hj he'
      rw [hring] at he'
      have := (List.getElem?_eq_some_iff.mp he').1
      rw [List.length_append, List.length_singleton] at this
      omega

/-- Links within a communicator, of entries that were not linked before. -/
theorem Linked.others {s s' : State} {rids : List Nat} {link index t : Nat}
    (hl : Linked s s' rids link index)
    (ht : ∀ i, i + 1 ∈ rids → s.sub i = none ∧ ∀ e, s.ring[i]? = some e → e.comm = t ∧ e.link = 0) :
    OthersSame s s' t := by
  have hnot : ∀ (i : Nat) e, s.ring[i]? = some e → e.comm ≠ t → i + 1 ∉ rids :=
    fun i e he hne hmem => hne ((ht i hmem).2 e he).1
  refine ⟨⟨fun i e hi => ?_, fun i a hi => ?_,
      fun t => Nat.le_of_eq (congrFun hl.completed.symm t)⟩,
    fun i e hi hne => ?_, fun i e hi hne => ?_⟩
  · rw [hl.ring, hi]
    refine ⟨_, rfl, ?_⟩
    split
    · rename_i hmem
      exact ⟨rfl, rfl, rfl, rfl, fun h => h, fun h => h,
        fun hne => absurd ((ht i hmem).2 e hi).2 hne⟩
    · exact .refl e
  · rw [hl.sub, if_neg, hi]
    intro hmem
    rw [(ht i hmem).1] at hi
    cases hi
  · rw [hl.ring, hl.sub, hi, if_neg (hnot i e hi hne)]
    simp [hnot i e hi hne]
  · rw [hl.ring, Option.map_eq_some_iff] at hi
    obtain ⟨x, hx, rfl⟩ := hi
    have hc : x.comm ≠ t := by
      intro h
      refine hne ?_
      split <;> exact h
    rw [hx, if_neg (hnot i x hx hc)]

/-- What `_fr_submit` leaves: no entry to stamp, or the last one of the fold, submitted
and not told of too early. -/
structure Stampable (s : State) (t fr index : Nat) : Prop where
  pos : 0 < fr
  entry : ∃ x, s.ring[fr - 1]? = some x ∧ x.comm = t ∧ x.tracked (fr - 1) ∧ x.done = false
  sub : s.sub (fr - 1) = some index
  queue : ∀ q ∈ s.queue, q.fr ≠ 0 → q.fr ≠ fr

theorem RingInv.frSubmit {f : GroupFold} (h : RingInv bound (waitingOf f ++ opened) s) :
    let r := s.frSubmit f (bound f.tracker)
    r.1.submitted = s.submitted ∧ OthersSame s r.1 f.tracker ∧
    ((r.2 = 0 ∧ RingInv bound opened r.1) ∨
      (RingInv (Function.update bound f.tracker (bound f.tracker + 1)) opened r.1 ∧
        Stampable r.1 f.tracker r.2 (bound f.tracker) ∧
        ((f.entry.nops = 0 → LastClear s f) → ∀ x, r.1.ring[r.2 - 1]? = some x →
          x.member = false → ∀ (j : Nat) e', r.2 ≤ j → r.1.ring[j]? = some e' →
            Passes x e' j → r.1.sub j = none))) := by
  have hdrop : ∀ {s' : State} {l : List (Nat × Nat)}, RingInv bound (l ++ opened) s' →
      RingInv bound opened s' := fun h =>
    h.mono (fun _ => Nat.le_refl _) (List.sublist_append_right _ _).subperm
  unfold State.frSubmit
  cases hw : s.counters f.watch with
  | none => exact ⟨rfl, .refl _ _, .inl ⟨rfl, hdrop h⟩⟩
  | some c =>
      have hflushed := frFlush_flushed (w := f.watch) (by rw [hw]; exact nofun) f f.tag
      generalize s.frFlush f.watch f f.tag = flushed at hflushed ⊢
      obtain ⟨s', f'⟩ := flushed
      dsimp only at hflushed ⊢
      obtain ⟨new, hrids, hring⟩ := hflushed.ringInv
      have hinv := hring h
      have hwaiting : RingInv bound
          (f'.rids.map (fun rid => (f.tracker, rid)) ++ opened) s' := by
        refine hinv.perm ?_
        rw [hrids, List.map_append, List.append_assoc, waitingOf, ← List.append_assoc]
        exact List.perm_append_comm.append_right _ |>.trans (by rw [List.append_assoc])
      cases hlast : f'.rids.getLast? with
      | none => exact ⟨hflushed.submitted, hflushed.others h, .inl ⟨rfl, hdrop hwaiting⟩⟩
      | some last =>
          have hmem : last ∈ f'.rids := List.mem_of_getLast? hlast
          have hwait : ∀ i, i + 1 ∈ f'.rids → s'.sub i = none ∧ ∃ e, s'.ring[i]? = some e ∧
              e.comm = f.tracker ∧ e.folded = true ∧ e.untracked = false ∧ e.link = 0 ∧
              e.done = false := fun i hi =>
            (hwaiting.waiting (f.tracker, i + 1)
              (List.mem_append_left _ (List.mem_map_of_mem hi))).2
          have hpos : ∀ rid ∈ f'.rids, 0 < rid := fun rid hr =>
            (hwaiting.waiting (f.tracker, rid)
              (List.mem_append_left _ (List.mem_map_of_mem hr))).1
          have hlinked := foldl_frLink_linked last (bound f.tracker) f'.rids hpos s'
          have hafter := hwaiting.linkAll hmem hlinked
          have hothers := hlinked.others (t := f.tracker) fun i hi => by
            obtain ⟨hnone, x, hx, hc, -, -, hlink, -⟩ := hwait i hi
            refine ⟨hnone, fun e he => ?_⟩
            obtain rfl := Option.some.inj (he.symm.trans hx)
            exact ⟨hc, hlink⟩
          dsimp only
          generalize f'.rids.foldl (fun s rid => s.frLink rid last (bound f.tracker)) s' = u
            at hlinked hafter hothers ⊢
          have hlastpos := hpos last hmem
          have hlast' : last - 1 + 1 ∈ f'.rids := by rwa [Nat.sub_add_cancel hlastpos]
          obtain ⟨hnone, x, hx, hxc, hxf, hxu, -, hxd⟩ := hwait (last - 1) hlast'
          have hux : u.ring[last - 1]? = some { x with link := last } := by
            rw [hlinked.ring, hx]
            simp [hlast']
          refine ⟨hlinked.submitted.trans hflushed.submitted, (hflushed.others h).trans hothers,
            .inr ⟨hafter,
              ⟨hlastpos, ⟨_, hux, hxc, ⟨?_, hxu⟩, hxd⟩, ?_, fun q hq hfr heq => ?_⟩, ?_⟩⟩
          · have hid : last - 1 + 1 = last := Nat.sub_add_cancel hlastpos
            simp [FrEntry.own, hid]
          · rw [hlinked.sub, if_pos hlast']
          · rw [hlinked.queue] at hq
            obtain ⟨-, -, -, -, hsub⟩ := hwaiting.queue q hq hfr
            rw [heq, hnone] at hsub
            cases hsub
          · intro hclear y hy hm j e' hle he' hpasses
            obtain rfl : y = { x with link := last } := Option.some.inj (hy.symm.trans hux)
            have hclear' := hflushed.lastClear hclear
            rw [hlinked.ring, Option.map_eq_some_iff] at he'
            obtain ⟨z, hz, rfl⟩ := he'
            by_cases hj : j + 1 ∈ f'.rids
            · -- another entry of the group, which the commit does not stamp
              exfalso
              obtain ⟨-, z', hz', -, hzf, -⟩ := hwait j hj
              obtain rfl : z = z' := Option.some.inj (hz.symm.trans hz')
              have hown := hpasses.2.2.1.1
              rw [if_pos hj] at hown
              have : last ≠ j + 1 := by omega
              simp [FrEntry.own, hzf, this] at hown
            · rw [hlinked.sub, if_neg hj]
              rw [if_neg hj] at hpasses
              exact hclear' last hlast x hx hm j (List.getElem?_eq_some_iff.mp hz).1 hle z hz
                hpasses

theorem watchCommit_submitted (s : State) (w t : Nat) (e : Entry) (tag : Tag) (frRid index : Nat)
    (drop : Bool) : (s.watchCommit w t e tag frRid index drop).submitted = s.submitted := by
  have hrecord : (if frRid ≠ 0 then (s, frRid) else s.frRecord w t e tag false).1.submitted =
      s.submitted := by
    unfold State.frRecord
    split
    · rfl
    · split <;> rfl
  have hmodify : ∀ (u : State) rid g, (u.frModify rid g).submitted = u.submitted := by
    intro u rid g
    unfold State.frModify
    split <;> rfl
  unfold State.watchCommit
  generalize (if frRid ≠ 0 then (s, frRid) else s.frRecord w t e tag false) = r at hrecord ⊢
  obtain ⟨s', fr⟩ := r
  dsimp only at hrecord ⊢
  have hsub : (if fr = 0 then s' else
      { s' with sub := Function.update s'.sub (fr - 1) (some index) }).submitted =
      s.submitted := by
    split <;> exact hrecord
  split
  · exact (hmodify _ _ _).trans hsub
  · exact hsub

/-- A fold of a submitted group is committed. -/
theorem RingInv.commitFold {f : GroupFold} (h : RingInv s.submitted (waitingOf f ++ opened) s)
    (lv : Level) (drop : Nat → Bool) (hnops : f.commit.nops ≠ 0)
    (hclear : drop f.tracker = true → f.entry.nops = 0 → LastClear s f) :
    let s' := s.commitFold lv drop f
    RingInv s'.submitted opened s' ∧ OthersSame s s' f.tracker := by
  have h₁ : RingInv s.submitted (waitingOf f ++ opened) (s.submit f.tracker) :=
    h.congr rfl rfl rfl rfl
  have hother₁ : OthersSame s (s.submit f.tracker) f.tracker :=
    .of_eq _ rfl rfl rfl
  obtain ⟨hsubmitted, hother₂, hcases⟩ := h₁.frSubmit
  unfold State.commitFold
  dsimp only
  generalize (s.submit f.tracker).frSubmit f (s.submitted f.tracker) = r
    at hsubmitted hother₂ hcases ⊢
  obtain ⟨s₂, fr⟩ := r
  dsimp only at hsubmitted hother₂ hcases ⊢
  rw [if_pos hnops]
  have hbound : ∀ fr, (s₂.watchCommit f.watch f.tracker f.commit .zero fr (s.submitted f.tracker)
      (drop f.tracker)).submitted =
      Function.update s.submitted f.tracker (s.submitted f.tracker + 1) := fun fr =>
    (watchCommit_submitted s₂ _ _ _ _ _ _ _).trans hsubmitted
  obtain ⟨rfl, hinv⟩ | ⟨hinv, hstamp, hpast⟩ := hcases
  · obtain ⟨hcommit, hother₃⟩ := hinv.watchCommit_new f.watch f.tracker f.commit .zero
      (drop f.tracker)
    rw [← hbound 0] at hcommit
    exact ⟨hcommit.congr rfl rfl rfl rfl,
      (hother₁.trans (hother₂.trans hother₃)).trans (.of_eq _ rfl rfl rfl)⟩
  · obtain ⟨x, hx, hcomm, htracked, hdone⟩ := hstamp.entry
    obtain ⟨hcommit, hother₃⟩ := hinv.watchCommit (w := f.watch) f.commit .zero hstamp.pos hx hcomm
      htracked hdone hstamp.sub hstamp.queue (drop f.tracker)
      fun hd hm j e' b hle he' hpasses hb => by
        rw [hpast (hclear hd) x hx hm j e' hle he' hpasses] at hb
        cases hb
    rw [← hbound fr] at hcommit
    exact ⟨hcommit.congr rfl rfl rfl rfl,
      (hother₁.trans (hother₂.trans hother₃)).trans (.of_eq _ rfl rfl rfl)⟩

end

/-! ### The folds of a group, and its level -/

/-- The entries the open folds wait with. -/
def waitingInLevel (lv : Level) : List (Nat × Nat) := lv.folds.flatMap waitingOf

def waitingIn (s : State) : List (Nat × Nat) := s.levels.flatMap waitingInLevel

/-- The folds of a group are committed one after the other. -/
theorem RingInv.foldl_commitFold (lv : Level) (drop : Nat → Bool) {opened : List (Nat × Nat)}
    {folds : List GroupFold} (hnodup : (folds.map GroupFold.tracker).Nodup)
    (hnops : ∀ f ∈ folds, f.commit.nops ≠ 0) {s : State}
    (h : RingInv s.submitted (folds.flatMap waitingOf ++ opened) s)
    (hclear : ∀ f ∈ folds, drop f.tracker = true → f.entry.nops = 0 → LastClear s f) :
    let s' := folds.foldl (fun s f => s.commitFold lv drop f) s
    RingInv s'.submitted opened s' ∧ Grows s s' := by
  induction folds generalizing s with
  | nil => exact ⟨h, .refl s⟩
  | cons f folds ih =>
      rw [List.flatMap_cons, List.append_assoc] at h
      obtain ⟨hfresh, hnodup⟩ := List.nodup_cons.mp hnodup
      obtain ⟨hinv, hother⟩ := h.commitFold lv drop (hnops f List.mem_cons_self)
        (hclear f List.mem_cons_self)
      have hclear' : ∀ g ∈ folds, drop g.tracker = true → g.entry.nops = 0 →
          LastClear (s.commitFold lv drop f) g := by
        intro g hg hd hzero
        have hne : g.tracker ≠ f.tracker := fun heq =>
          hfresh (heq ▸ List.mem_map_of_mem (f := GroupFold.tracker) hg)
        exact (hclear g (List.mem_cons_of_mem _ hg) hd hzero).of_others hother hne hinv
          fun p hp => List.mem_append_left _ (List.mem_flatMap.mpr ⟨g, hg, hp⟩)
      obtain ⟨hinv', hgrows⟩ :=
        ih hnodup (fun g hg => hnops g (List.mem_cons_of_mem _ hg)) hinv hclear'
      exact ⟨hinv', hother.toGrows.trans hgrows⟩

/-- A fold of a level gives way to one with more entries. -/
theorem waiting_setFold {s s' : State} {extra : Nat → Nat} (hinv : s.Inv extra)
    (hb : SameBooks s s') {thread lib : Nat} {lv lv' : Level}
    (hlv : s.level? thread lib = some lv) {old f' : GroupFold}
    (hset : Level.SetFold lv old f' lv') (htracker : old.tracker = f'.tracker) {new : List Nat}
    (hrids : f'.rids = old.rids ++ new) :
    (waitingIn (s'.setLevel lv')).Perm
      (new.map (fun rid => (f'.tracker, rid)) ++ waitingIn s) := by
  have hlv' : s'.level? thread lib = some lv := by
    unfold State.level?
    rw [hb.levels]
    exact hlv
  obtain ⟨-, -, l₁, l₂, hl, hlevels, -⟩ := (hinv.of_books hb).split hlv'
  have hkey : lv'.key = lv.key := by simp only [Level.key, hset.thread, hset.lib]
  obtain ⟨m₁, mid, m₂, hfolds, hfolds', hmid⟩ := hset.split
  have hf' : waitingOf f' = waitingOf old ++ new.map (fun rid => (f'.tracker, rid)) := by
    rw [waitingOf, waitingOf, hrids, List.map_append, htracker]
  have hold : mid.flatMap waitingOf = waitingOf old := by
    obtain rfl | ⟨rfl, hempty⟩ := hmid
    · simp
    · simp [waitingOf, hempty]
  refine List.perm_iff_count.mpr fun p => ?_
  rw [waitingIn, waitingIn, hlevels lv' hkey, ← hb.levels, hl]
  simp only [List.flatMap_append, List.flatMap_cons, waitingInLevel, hfolds, hfolds', hf', hold,
    List.count_append]
  omega

/-! ## Steps -/

/-- The invariant of a state. -/
def Agrees (s : State) : Prop := RingInv s.submitted (waitingIn s) s

theorem Agrees.of_levels {s s' : State} (h : Agrees s)
    (hwaiting : (waitingIn s').Perm (waitingIn s)) (hsubmitted : s'.submitted = s.submitted)
    (hring : s'.ring = s.ring) (hsub : s'.sub = s.sub) (hqueue : s'.queue = s.queue)
    (hcompleted : s'.completed = s.completed) : Agrees s' := by
  unfold Agrees
  rw [hsubmitted]
  exact (h.perm hwaiting).congr hring hsub hqueue hcompleted

/-- The folds of a thread's group whose commits will be dropped are clear. -/
def Ready (s : State) (thread lib : Nat) (drop : Nat → Bool) : Prop :=
  ∀ lv ∈ s.level? thread lib, ∀ f ∈ lv.folds, drop f.tracker = true → f.entry.nops = 0 →
    LastClear s f

instance (s : State) (thread lib : Nat) (drop : Nat → Bool) :
    Decidable (Ready s thread lib drop) := by
  unfold Ready
  infer_instance

/-- A level gives way to one of the same folds. -/
theorem waiting_setDepth {s : State} {extra : Nat → Nat} (hinv : s.Inv extra) {thread lib : Nat}
    {lv : Level} (hlv : s.level? thread lib = some lv) (depth : Nat) :
    waitingIn (s.setLevel { lv with depth := depth }) = waitingIn s := by
  obtain ⟨-, -, l₁, l₂, hl, hlevels, -⟩ := hinv.split hlv
  rw [waitingIn, waitingIn, hlevels { lv with depth := depth } rfl, hl]
  simp only [List.flatMap_append, List.flatMap_cons, waitingInLevel]

theorem waiting_remove {s : State} {extra : Nat → Nat} (hinv : s.Inv extra) {thread lib : Nat}
    {lv : Level} (hlv : s.level? thread lib = some lv) :
    (waitingIn s).Perm (waitingInLevel lv ++ waitingIn { s with
      levels := s.levels.filter fun l => ¬ (l.thread = thread ∧ l.lib = lib) }) := by
  obtain ⟨-, -, l₁, l₂, hl, -, hfilter⟩ := hinv.split hlv
  refine List.perm_iff_count.mpr fun p => ?_
  rw [waitingIn, waitingIn]
  dsimp only
  rw [hfilter, hl]
  simp only [List.flatMap_append, List.flatMap_cons, List.count_append]
  omega

theorem Agrees.groupEnter {s : State} (h : Agrees s) {extra : Nat → Nat} (hinv : s.Inv extra)
    (thread lib : Nat) : Agrees (s.groupEnter thread lib) := by
  unfold State.groupEnter
  split
  · rename_i lv hlv
    exact h.of_levels (waiting_setDepth hinv hlv _ ▸ .refl _) rfl rfl rfl rfl rfl
  · refine h.of_levels ?_ rfl rfl rfl rfl rfl
    simp [waitingIn, waitingInLevel]

theorem groupEnter_grows (s : State) (thread lib : Nat) : Grows s (s.groupEnter thread lib) := by
  unfold State.groupEnter
  split <;> exact .of_eq rfl rfl fun _ => Nat.le_refl _

/-- What `group_add` does to the ring. -/
theorem groupAdd_ring (s : State) (lv : Level) (w t : Nat) (e : Entry) (tag : Tag) (n : Nat) :
    ∃ s' f' new, SameBooks s s' ∧ s'.submitted = s.submitted ∧ f'.tracker = t ∧
      f'.rids = (lv.foldOf w t).rids ++ new ∧
      (∀ {bound : Nat → Nat} {opened : List (Nat × Nat)}, RingInv bound opened s →
        RingInv bound (new.map (fun rid => (t, rid)) ++ opened) s' ∧ Grows s s') ∧
      s.groupAdd lv w t e tag n = s'.setLevel (lv.setFold f') := by
  have htracker : ((lv.foldOf w t).add e n).tracker = t := lv.foldOf_tracker w t
  have hrids : ((lv.foldOf w t).add e n).rids = (lv.foldOf w t).rids := rfl
  unfold State.groupAdd
  dsimp only
  generalize (lv.foldOf w t).add e n = f at htracker hrids ⊢
  cases hw : s.counters w with
  | none =>
      exact ⟨s, f, [], .refl s, rfl, htracker, by rw [hrids, List.append_nil],
        fun h => ⟨h, .refl s⟩,
        rfl⟩
  | some c =>
      have hflush : ∀ (c : Prop) [Decidable c],
          let r := if c then s.frFlush w f f.tag else (s, f)
          SameBooks s r.1 ∧ r.1.submitted = s.submitted ∧ r.2.tracker = t ∧
            ∃ new, r.2.rids = (lv.foldOf w t).rids ++ new ∧
              ∀ {bound : Nat → Nat} {opened : List (Nat × Nat)}, RingInv bound opened s →
                RingInv bound (new.map (fun rid => (t, rid)) ++ opened) r.1 ∧ Grows s r.1 := by
        intro c _
        dsimp only
        split
        · have hf := frFlush_flushed (w := w) (by rw [hw]; exact nofun) f f.tag
          obtain ⟨new, hnew, hring⟩ := hf.ringInv
          refine ⟨s.frFlush_books w f f.tag, hf.submitted,
            (s.frFlush_fold w f f.tag).tracker.trans htracker, new, hrids ▸ hnew, ?_⟩
          rw [← htracker]
          exact fun h => ⟨hring h, (hf.others h).toGrows⟩
        · exact ⟨.refl s, rfl, htracker, [], by rw [hrids, List.append_nil],
            fun h => ⟨h, .refl s⟩⟩
      dsimp only
      split
      · obtain ⟨hb, hs, ht, new, hr, hring⟩ := hflush (f.entry.nops ≠ 0 ∧ f.members = false)
        generalize (if f.entry.nops ≠ 0 ∧ f.members = false then s.frFlush w f f.tag else (s, f)) =
          flushed at hb hs ht hr hring ⊢
        exact ⟨flushed.1, { flushed.2 with members := true, entry := flushed.2.entry.fold e }, new,
          hb, hs, ht, hr, hring, rfl⟩
      · obtain ⟨hb, hs, ht, new, hr, hring⟩ :=
          hflush (f.entry.nops ≠ 0 ∧ (f.members = true ∨ f.tag ≠ tag))
        generalize (if f.entry.nops ≠ 0 ∧ (f.members = true ∨ f.tag ≠ tag) then
          s.frFlush w f f.tag else (s, f)) = flushed at hb hs ht hr hring ⊢
        exact ⟨flushed.1, { flushed.2 with tag := tag, entry := flushed.2.entry.fold e }, new,
          hb, hs, ht, hr, hring, rfl⟩

theorem Agrees.groupAdd {s : State} (h : Agrees s) {extra : Nat → Nat} (hinv : s.Inv extra)
    {thread lib : Nat} {lv : Level} (hlv : s.level? thread lib = some lv) (w t : Nat) (e : Entry)
    (tag : Tag) (n : Nat) :
    Agrees (s.groupAdd lv w t e tag n) ∧ Grows s (s.groupAdd lv w t e tag n) := by
  obtain ⟨s', f', new, hb, hsubmitted, htracker, hrids, hring, heq⟩ :=
    groupAdd_ring s lv w t e tag n
  rw [heq]
  have hset := Level.setFold_spec (hinv.trackers lv (State.level?_mem hlv)) w (f := f')
  rw [htracker] at hset
  have hperm := waiting_setFold hinv hb hlv hset ((lv.foldOf_tracker w t).trans htracker.symm) hrids
  rw [htracker] at hperm
  obtain ⟨hinv', hgrows⟩ := hring h
  have hnew := hinv'.perm hperm
  rw [← hsubmitted] at hnew
  exact ⟨hnew.congr rfl rfl rfl rfl,
    hgrows.trans (.of_eq rfl rfl fun _ => Nat.le_refl _)⟩

/-- The deferred entry of one communicator at a group's end. -/
theorem Agrees.groupFrMark {s : State} (h : Agrees s) {extra : Nat → Nat} (hinv : s.Inv extra)
    (thread lib w t : Nat) (tag : Tag) {drop : Nat → Bool} (hready : Ready s thread lib drop) :
    Agrees (s.groupFrMark thread lib w t tag) ∧ Grows s (s.groupFrMark thread lib w t tag) ∧
      Ready (s.groupFrMark thread lib w t tag) thread lib drop := by
  unfold State.groupFrMark
  split
  · rename_i c lv hw hlv
    split
    · rename_i f hfind
      have hb := s.frFlush_books w f tag
      have hfold := s.frFlush_fold w f tag
      have hf := frFlush_flushed (w := w) (by rw [hw]; exact nofun) f tag
      generalize s.frFlush w f tag = flushed at hb hfold hf ⊢
      obtain ⟨s', f'⟩ := flushed
      dsimp only at hb hfold hf ⊢
      have hft : f.tracker = t := by simpa using List.find?_some hfind
      have hset := Level.setFold_spec (hinv.trackers lv (State.level?_mem hlv)) w (f := f')
      have hold : lv.foldOf w f'.tracker = f := by
        unfold Level.foldOf
        rw [hfold.tracker, hft, hfind]
        rfl
      rw [hold] at hset
      obtain ⟨new, hrids, hring⟩ := hf.ringInv
      have hperm := waiting_setFold hinv hb hlv hset hfold.tracker.symm hrids
      rw [hfold.tracker] at hperm
      have hnew : RingInv s'.submitted (waitingIn (s'.setLevel (lv.setFold f'))) s' := by
        rw [hf.submitted]
        exact (hring h).perm hperm
      refine ⟨hnew.congr rfl rfl rfl rfl, (hf.others h).toGrows.trans
        (.of_eq rfl rfl fun _ => Nat.le_refl _), fun lv' hlv' g hg hd hzero => ?_⟩
      have hkey : (lv.setFold f').key = lv.key := by simp only [Level.key, hset.thread, hset.lib]
      have hself := State.setLevel_groups ((hb.level? thread lib).trans hlv) hkey thread lib
      rw [if_pos rfl] at hself
      obtain rfl : lv.setFold f' = lv' := Option.some.inj (hself.symm.trans hlv')
      have hmem := List.mem_of_find?_eq_some hfind
      obtain rfl | ⟨hgold, hne⟩ := hset.others hg
      · exact hf.lastClear fun hz => hready lv hlv f hmem (hfold.tracker ▸ hd) hz
      · have hclear := hready lv hlv g hgold hd hzero
        rw [hfold.tracker] at hne
        refine hclear.of_others (u := s') (hf.others h) hne hnew fun p hp => ?_
        refine List.mem_flatMap.mpr ⟨_, State.level?_mem hself, ?_⟩
        exact List.mem_flatMap.mpr ⟨g, hg, hp⟩
    · exact ⟨h, .refl s, hready⟩
  · exact ⟨h, .refl s, hready⟩

theorem Agrees.foldl_groupFrMark (thread lib w : Nat) (tag : Tag) {drop : Nat → Bool}
    (comms : List Nat) {s : State} (h : Agrees s) (hinv : s.Inv fun _ => 0)
    (hready : Ready s thread lib drop) :
    let s' := comms.foldl (fun s t => s.groupFrMark thread lib w t tag) s
    Agrees s' ∧ Grows s s' ∧ Ready s' thread lib drop := by
  induction comms generalizing s with
  | nil => exact ⟨h, .refl s, hready⟩
  | cons t comms ih =>
      obtain ⟨hmark, hgrows, hready'⟩ := h.groupFrMark hinv thread lib w t tag hready
      obtain ⟨hall, hgrows', hready''⟩ := ih hmark (hinv.groupFrMark thread lib w t tag) hready'
      exact ⟨hall, hgrows.trans hgrows', hready''⟩

/-- The end of a group, whose dropped commits are clear if it is the outermost one. -/
theorem Agrees.groupExit {s : State} (h : Agrees s) (hinv : s.Inv fun _ => 0)
    (thread lib : Nat) (submitted : Bool) (drop : Nat → Bool)
    (hready : submitted = true → s.depthOf thread lib = 1 → Ready s thread lib drop) :
    Agrees (s.groupExit thread lib submitted drop) ∧
      Grows s (s.groupExit thread lib submitted drop) := by
  have hsame : ∀ levels dropped, Grows s { s with levels := levels, dropped := dropped } :=
    fun _ _ => .of_eq rfl rfl fun _ => Nat.le_refl _
  unfold State.groupExit
  cases hlv : s.level? thread lib with
  | none => exact ⟨h, .refl s⟩
  | some lv =>
      have hmem := State.level?_mem hlv
      dsimp only
      split
      · exact ⟨h.of_levels (waiting_setDepth hinv hlv _ ▸ .refl _) rfl rfl rfl rfl rfl, hsame _ _⟩
      · rename_i hdepth
        have hperm := waiting_remove hinv hlv
        have hone : s.depthOf thread lib = 1 := by
          have hpos := hinv.depth lv hmem
          rw [State.depthOf, hlv, Option.map_some, Option.getD_some]
          omega
        cases submitted with
        | false =>
            have hless := h.mono (fun _ => Nat.le_refl _)
              ((List.sublist_append_right _ _).subperm.trans hperm.symm.subperm)
            exact ⟨hless.congr rfl rfl rfl rfl, hsame _ _⟩
        | true =>
            have hnops : ∀ f ∈ lv.folds, f.commit.nops ≠ 0 := fun f hf =>
              (hinv.folds lv hmem f hf).nops_ne_zero hinv.one
            have hall : RingInv (fun t => s.submitted t) _ { s with
                levels := s.levels.filter fun l => ¬ (l.thread = thread ∧ l.lib = lib) } :=
              (h.perm hperm.symm).congr rfl rfl rfl rfl
            obtain ⟨hcommit, hgrows⟩ := RingInv.foldl_commitFold (s := { s with
              levels := s.levels.filter fun l => ¬ (l.thread = thread ∧ l.lib = lib) })
              lv drop (hinv.trackers lv hmem) hnops hall
              fun f hf hd hz => hready rfl hone lv hlv f hf hd hz
            obtain ⟨hl, -⟩ := State.foldl_commitFold_spec lv drop lv.folds hnops
              { s with levels := s.levels.filter fun l => ¬ (l.thread = thread ∧ l.lib = lib) }
            simp only [if_true]
            refine ⟨hcommit.perm ?_, (hsame _ s.dropped).trans hgrows⟩
            rw [waitingIn, hl, ← waitingIn]

theorem nextCpos_ring (s : State) (t : Nat) (op : Op) :
    (s.nextCpos t op).1.submitted = s.submitted ∧ (s.nextCpos t op).1.ring = s.ring ∧
      (s.nextCpos t op).1.sub = s.sub ∧ (s.nextCpos t op).1.queue = s.queue ∧
      (s.nextCpos t op).1.completed = s.completed := by
  unfold State.nextCpos
  split <;> exact ⟨rfl, rfl, rfl, rfl, rfl⟩

theorem waiting_of_books {s s' : State} (hb : SameBooks s s') :
    waitingIn s' = waitingIn s := by
  rw [waitingIn, hb.levels, ← waitingIn]

theorem frRecord_submitted (s : State) (w t : Nat) (e : Entry) (tag : Tag) (deferred : Bool) :
    (s.frRecord w t e tag deferred).1.submitted = s.submitted := by
  unfold State.frRecord
  split <;> rfl

theorem Agrees.track {s : State} (h : Agrees s) (hinv : s.Inv fun _ => 0)
    (thread lib w t : Nat) (op : Op) (count dtype root redop : Int) (tag : Tag) (drop : Bool) :
    Agrees (s.track thread lib w t op count dtype root redop tag drop) ∧
      Grows s (s.track thread lib w t op count dtype root redop tag drop) := by
  unfold State.track
  have hb := s.nextCpos_books t op
  obtain ⟨hs, hr, hsub, hq, hc⟩ := nextCpos_ring s t op
  generalize s.nextCpos t op = numbered at hb hs hr hsub hq hc ⊢
  obtain ⟨s', cpos⟩ := numbered
  dsimp only at hb hs hr hsub hq hc ⊢
  have h' : Agrees s' := h.of_levels (waiting_of_books hb ▸ .refl _) hs hr hsub hq hc
  have hgrows : ∀ calls commits, Grows s { s' with calls := calls, commits := commits } :=
    fun _ _ => .of_eq hr hsub fun t => Nat.le_of_eq (congrFun hc.symm t)
  have hinv' : s'.Inv fun _ => 0 := hinv.of_books hb
  have hlevel : ∀ c : Call, State.level? { s' with calls := s'.calls ++ [c] } thread lib =
      s'.level? thread lib := fun _ => rfl
  simp only [hlevel]
  cases hlv : s'.level? thread lib with
  | some lv =>
      have hbooks := hinv'.call ⟨thread, lib, w, t,
        ⟨op, 1, count, dtype, root, redop, callFp op count dtype root redop, cpos⟩,
        (some lv).isSome⟩ rfl
      generalize (⟨op, 1, count, dtype, root, redop, callFp op count dtype root redop, cpos⟩ :
        Entry) = e at hbooks ⊢
      generalize (⟨thread, lib, w, t, e, (some lv).isSome⟩ : Call) = c at hbooks ⊢
      have hagree : Agrees { s' with calls := s'.calls ++ [c] } :=
        h'.of_levels (.refl _) rfl rfl rfl rfl rfl
      obtain ⟨hadd, hgrows'⟩ :=
        hagree.groupAdd hbooks ((hlevel c).trans hlv) w t e tag s'.calls.length
      have hall := (hgrows (s'.calls ++ [c]) s'.commits).trans hgrows'
      dsimp only
      split
      · refine ⟨?_, hall.trans (frRecord_grows _ _ _ _ _ _)⟩
        unfold Agrees
        rw [frRecord_submitted, waiting_of_books (State.frRecord_books _ _ _ _ _ _)]
        exact RingInv.frMember hadd w t e tag
      · exact ⟨hadd, hall⟩
  | none =>
      dsimp only
      have hsubmit : RingInv s'.submitted (waitingIn s') (State.submit { s' with
          calls := s'.calls ++ [⟨thread, lib, w, t,
            ⟨op, 1, count, dtype, root, redop, callFp op count dtype root redop, cpos⟩, false⟩]
          commits := s'.commits ++ [⟨t,
            ⟨op, 1, count, dtype, root, redop, callFp op count dtype root redop, cpos⟩,
            [s'.calls.length], none⟩] } t) := h'.congr rfl rfl rfl rfl
      obtain ⟨hnew, hother⟩ := hsubmit.watchCommit_new w t
        ⟨op, 1, count, dtype, root, redop, callFp op count dtype root redop, cpos⟩ tag drop
      refine ⟨?_, Grows.trans ?_ hother.toGrows⟩
      · unfold Agrees
        rw [watchCommit_submitted, waiting_of_books (State.watchCommit_books _ _ _ _ _ _ _ _)]
        exact hnew
      · exact .of_eq hr hsub fun t => Nat.le_of_eq (congrFun hc.symm t)

theorem frModify_submitted (s : State) (rid1 : Nat) (f : FrEntry → FrEntry) :
    (s.frModify rid1 f).submitted = s.submitted := by
  unfold State.frModify
  split <;> rfl

theorem frModify_grows (s : State) (rid1 : Nat) {f : FrEntry → FrEntry}
    (hf : ∀ e, Advances e (f e)) : Grows s (s.frModify rid1 f) := by
  unfold State.frModify
  split
  · exact .refl s
  · exact .of_modify hf rfl rfl rfl

/-- No later entry tells of a commit the watchdog drops: what the completions rest on. -/
def DropsClear (s : State) : Event → Prop
  | .groupEnd thread lib _ _ _ outcome drop =>
    outcome = .submitted → s.depthOf thread lib = 1 → Ready s thread lib drop
  | _ => True

instance (s : State) : (e : Event) → Decidable (DropsClear s e)
  | .groupEnd .. => inferInstanceAs (Decidable (_ → _ → Ready ..))
  | .groupStart .. => inferInstanceAs (Decidable True)
  | .track .. => inferInstanceAs (Decidable True)
  | .setFr .. => inferInstanceAs (Decidable True)
  | .forget .. => inferInstanceAs (Decidable True)
  | .complete .. => inferInstanceAs (Decidable True)
  | .retire .. => inferInstanceAs (Decidable True)

theorem Agrees.next {s s' : State} {e : Event} (h : Agrees s) (hinv : s.Inv fun _ => 0)
    (hclear : DropsClear s e) (hnext : Groups.next s e = some s') : Agrees s' ∧ Grows s s' := by
  have hsame : ∀ levels counters, Grows s { s with levels := levels, counters := counters } :=
    fun _ _ => .of_eq rfl rfl fun _ => Nat.le_refl _
  cases e with
  | groupStart thread lib ok =>
      cases hnext
      split
      · exact ⟨h.groupEnter hinv thread lib, groupEnter_grows s thread lib⟩
      · exact ⟨h, .refl s⟩
  | groupEnd thread lib w comms tag outcome drop =>
      simp only [Groups.next] at hnext
      split at hnext
      · cases hnext
        exact ⟨h, .refl s⟩
      · rename_i hopen
        cases hnext
        obtain ⟨hsame, hmarked⟩ := SameGroups.foldl_groupFrMark thread lib w tag comms hinv
        by_cases hout : outcome = .submitted ∧ s.depthOf thread lib = 1
        · obtain ⟨hagree, hgrows, hready⟩ := h.foldl_groupFrMark thread lib w tag comms hinv
            (hclear hout.1 hout.2)
          obtain ⟨hexit, hgrows'⟩ :=
            hagree.groupExit hmarked thread lib (outcome = .submitted) drop fun _ _ => hready
          exact ⟨hexit, hgrows.trans hgrows'⟩
        · -- nothing is committed
          have hnone : Ready s thread lib fun _ => false := fun _ _ _ _ hd => by cases hd
          obtain ⟨hagree, hgrows, -⟩ := h.foldl_groupFrMark thread lib w tag comms hinv hnone
          obtain ⟨hexit, hgrows'⟩ := hagree.groupExit hmarked thread lib
            (outcome = .submitted) drop fun hs hone => absurd
              ⟨of_decide_eq_true hs, (hsame.depth thread lib).symm.trans hone⟩ hout
          exact ⟨hexit, hgrows.trans hgrows'⟩
  | track thread lib w t op count dtype root redop tag drop =>
      cases hnext
      exact h.track hinv thread lib w t op count dtype root redop tag drop
  | setFr w =>
      obtain ⟨-, heq⟩ := Option.ite_none_right_eq_some.mp hnext
      cases heq
      exact ⟨h.of_levels (.refl _) rfl rfl rfl rfl rfl, hsame _ _⟩
  | forget w =>
      cases hnext
      have hless : (waitingIn (s.groupsForget w)).Sublist (waitingIn s) := by
        unfold waitingIn State.groupsForget
        dsimp only
        generalize s.levels = levels
        induction levels with
        | nil => exact .refl _
        | cons lv levels ih =>
            rw [List.map_cons, List.flatMap_cons, List.flatMap_cons]
            exact (List.filter_sublist.flatMap _).append ih
      refine ⟨(RingInv.mono h (fun _ => Nat.le_refl _) hless.subperm).congr rfl rfl rfl rfl, ?_⟩
      exact .of_eq rfl rfl fun _ => Nat.le_refl _
  | complete t =>
      obtain ⟨-, heq⟩ := Option.ite_none_right_eq_some.mp hnext
      cases heq
      have hle := le_update_succ s.completed t
      exact ⟨RingInv.complete h hle, .of_eq rfl rfl hle⟩
  | retire i =>
      simp only [Groups.next] at hnext
      split at hnext
      · rename_i q hq
        obtain ⟨hcompleted, heq⟩ := Option.ite_none_right_eq_some.mp hnext
        cases heq
        have hstamp := RingInv.stamp h (List.mem_of_getElem? hq) hcompleted
        refine ⟨?_, frModify_grows s _ advances_done⟩
        unfold Agrees
        rw [waiting_of_books (State.frModify_books _ _ _), frModify_submitted]
        exact hstamp
      · cases hnext

theorem start_agrees : Agrees .start where
  sub_lt _ _ h := nomatch h
  queue _ h := nomatch h
  done _ _ h := nomatch h
  link _ _ h := nomatch h
  waiting _ h := nomatch h
  distinct := List.nodup_nil
  order _ _ _ _ _ _ _ h := nomatch h
  untracked _ _ h := nomatch h

/-! ## A snapshot taken while the process runs -/

/-- The process and the entries a snapshot of the ring has read so far. -/
structure Observed where
  process : State
  snap : List SnapEntry

/-- An event of the process, or the snapshot reads the entry with a record id. -/
inductive ObservedEvent where
  | step (e : Event)
  | read (rid : Nat)

/-- The snapshot reads in the order of the ids and may miss any entry. -/
def nextObserved (s : Observed) : ObservedEvent → Option Observed
  | .step e => (Groups.next s.process e).map fun p => { s with process := p }
  | .read rid =>
    if ∀ r ∈ s.snap, r.rid < rid then
      s.process.ring[rid]?.map fun e => { s with snap := s.snap ++ [⟨rid, e⟩] }
    else none

def observed : System Observed ObservedEvent where
  Init s := s = ⟨.start, []⟩
  next := nextObserved

/-- The condition on an event of the process; a read has none. -/
def DropsClearObserved (s : Observed) : ObservedEvent → Prop
  | .step e => DropsClear s.process e
  | .read _ => True

instance (s : Observed) : (e : ObservedEvent) → Decidable (DropsClearObserved s e)
  | .step e => inferInstanceAs (Decidable (DropsClear s.process e))
  | .read _ => inferInstanceAs (Decidable True)

/-- The operation of an entry has completed. -/
def Completed (s : State) (r : SnapEntry) : Prop :=
  ∃ a ∈ s.sub r.rid, a < s.completed r.entry.comm

instance (s : State) (r : SnapEntry) : Decidable (Completed s r) :=
  inferInstanceAs (Decidable (∃ a ∈ s.sub r.rid, a < s.completed r.entry.comm))

/-- The snapshot's entries are in the ring, in order. -/
structure Follows (s : Observed) : Prop where
  books : s.process.Inv fun _ => 0
  agrees : Agrees s.process
  sorted : s.snap.Pairwise fun r r' => r.rid < r'.rid
  entries : ∀ r ∈ s.snap, ∃ e, s.process.ring[r.rid]? = some e ∧ Advances r.entry e

theorem follows_of_reachable {s : Observed}
    (hs : (observed.restrict DropsClearObserved).Reachable s) : Follows s := by
  refine hs.invariant ?_ ?_
  · rintro s rfl
    exact ⟨start_inv, start_agrees, .nil, fun r hr => absurd hr List.not_mem_nil⟩
  · intro s e s' _ h hnext
    obtain ⟨hclear, hnext⟩ := System.restrict_next_eq_some.mp hnext
    cases e with
    | step e =>
        obtain ⟨p, hp, rfl⟩ := Option.map_eq_some_iff.mp hnext
        obtain ⟨hagrees, hgrows⟩ := h.agrees.next h.books hclear hp
        refine ⟨h.books.next hp, hagrees, h.sorted, fun r hr => ?_⟩
        obtain ⟨e, he, hadv⟩ := h.entries r hr
        obtain ⟨e', he', hadv'⟩ := hgrows.ring r.rid e he
        exact ⟨e', he', hadv.trans hadv'⟩
    | read rid =>
        obtain ⟨hlast, hread⟩ := Option.ite_none_right_eq_some.mp hnext
        obtain ⟨e, he, rfl⟩ := Option.map_eq_some_iff.mp hread
        refine ⟨h.books, h.agrees, ?_, fun r hr => ?_⟩
        · refine List.pairwise_append.mpr ⟨h.sorted, List.pairwise_singleton _ _, ?_⟩
          intro r hr r' hr'
          rw [List.mem_singleton.mp hr']
          exact hlast r hr
        · obtain hr | hr := List.mem_append.mp hr
          · exact h.entries r hr
          · rw [List.mem_singleton.mp hr]
            exact ⟨e, he, .refl e⟩

/-- In a run that drops no commit a later entry tells of, the operation of every entry
a dump of the snapshot reports completed has completed. -/
theorem dump_completed_sound {s : Observed}
    (hs : (observed.restrict DropsClearObserved).Reachable s) (known : Nat → Bool) :
    ∀ p ∈ dump known s.snap, p.2 = true → Completed s.process p.1 := by
  have h := follows_of_reachable hs
  have hagrees : RingInv _ _ s.process := h.agrees
  -- a stamp still stands, and its operation has completed
  have hstamp : ∀ r ∈ s.snap, r.entry.done = true → ∃ e, s.process.ring[r.rid]? = some e ∧
      Advances r.entry e ∧ e.tracked r.rid ∧
      ∃ a, s.process.sub r.rid = some a ∧ a < s.process.completed e.comm := by
    intro r hr hd
    obtain ⟨e, he, hadv⟩ := h.entries r hr
    obtain ⟨ht, hdone⟩ := hagrees.done r.rid e he (hadv.done hd)
    exact ⟨e, he, hadv, ht, hdone⟩
  refine dump_reports known h.sorted (fun r hr hd => ?_) (fun r hr r' hr' hinfers => ?_)
    fun r hr r' hr' hlink hcompleted => ?_
  · obtain ⟨e, -, hadv, -, a, ha, hlt⟩ := hstamp r hr hd
    exact ⟨a, ha, hadv.comm ▸ hlt⟩
  · obtain ⟨e, he, hadv⟩ := h.entries r hr
    obtain ⟨e', he', hadv', ht', b, hb, hlt⟩ := hstamp r' hr' hinfers.done
    have hown : e.own r.rid = true := by
      have hfold := hinfers.own
      simp only [FrEntry.own, Bool.or_eq_true, Bool.not_eq_true', beq_iff_eq] at hfold ⊢
      obtain hf | hl := hfold
      · exact .inl (hadv.folded.trans hf)
      · exact .inr ((hadv.link (by omega)).trans hl)
    obtain ⟨a, ha, hlater⟩ := hagrees.untracked r.rid e he (hadv.untracked hinfers.untracked)
      (hadv.member.trans hinfers.member) hown
    have hcomm : e'.comm = e.comm := by rw [hadv'.comm, hinfers.comm, hadv.comm]
    have hab : a < b := hlater r'.rid e' b hinfers.later he'
      (by rw [hadv'.pg, hinfers.pg, hadv.pg]) hcomm ht' (hadv'.member.trans hinfers.member') hb
    refine ⟨a, ha, ?_⟩
    rw [← hadv.comm, ← hcomm]
    omega
  · obtain ⟨e, he, hadv⟩ := h.entries r hr
    obtain ⟨b, hb, hlt⟩ := hcompleted
    have hne : r.entry.link ≠ 0 := by omega
    have hsame := hadv.link hne
    obtain ⟨x, a, hx, hxc, ha, ha'⟩ := hagrees.link r.rid e he (hsame ▸ hne)
    have hid : e.link - 1 = r'.rid := by omega
    rw [hid] at hx ha'
    obtain rfl : a = b := Option.some.inj (ha'.symm.trans hb)
    obtain ⟨x', hx', hadv'⟩ := h.entries r' hr'
    obtain rfl : x = x' := Option.some.inj (hx.symm.trans hx')
    refine ⟨a, ha, ?_⟩
    rw [← hadv.comm, ← hxc, hadv'.comm]
    exact hlt

/-- A group's commit is dropped, and a later call on its communicator completes. -/
def droppedGroup : List ObservedEvent :=
  [.step (.setFr 5), .step (.groupStart 1 10 true),
    .step (.track 1 10 5 6 .send 4 0 1 (-1) .zero false),
    .step (.groupEnd 1 10 5 [6] .zero .submitted fun _ => true),
    .step (.track 2 10 5 6 .allreduce 4 0 (-1) 0 .zero false),
    .step (.complete 6), .step (.complete 6), .step (.retire 0), .read 0, .read 1]

theorem dump_completed_sound_droppedGroup :
    ∃ s, (observed.restrict DropsClearObserved).run ⟨.start, []⟩ droppedGroup = some s ∧
      (dump (fun _ => true) s.snap).map Prod.snd = [true, true] ∧
      ∀ p ∈ dump (fun _ => true) s.snap, p.2 = true → Completed s.process p.1 := by
  have hrun : ((observed.restrict DropsClearObserved).run ⟨.start, []⟩ droppedGroup).any
      (fun s => decide ((dump (fun _ => true) s.snap).map Prod.snd = [true, true])) = true := by
    decide
  obtain ⟨s, hs, hdump⟩ := (Option.any_eq_true _ _).mp hrun
  exact ⟨s, hs, of_decide_eq_true hdump,
    dump_completed_sound ⟨_, _, rfl, hs⟩ fun _ => true⟩

/-- Thread 1 has a group open around a group of its own process group, whose entry is
thus recorded, when thread 2 issues a collective on the same communicator, which
completes.  The outer group is then submitted and its commit dropped. -/
def earlyGroup : List ObservedEvent :=
  [.step (.setFr 5), .step (.groupStart 1 10 true), .step (.groupStart 1 10 true),
    .step (.track 1 10 5 6 .send 4 0 1 (-1) .zero false),
    .step (.groupEnd 1 10 5 [6] .zero .submitted fun _ => false),
    .step (.track 2 10 5 6 .allreduce 4 0 (-1) 0 .zero false),
    .step (.complete 6), .step (.retire 0),
    .step (.groupEnd 1 10 7 [] .zero .submitted fun _ => true), .read 0, .read 1]

/-- The dump reports its entry completed while its operation has not. -/
theorem dump_completed_early : ¬ ∀ (es : List ObservedEvent) (s : Observed) (known : Nat → Bool),
    observed.run ⟨.start, []⟩ es = some s →
      ∀ p ∈ dump known s.snap, p.2 = true → Completed s.process p.1 := by
  intro h
  have hrun : (observed.run ⟨.start, []⟩ earlyGroup).any (fun s : Observed => decide
      (¬ ∀ p ∈ dump (fun _ => true) s.snap, p.2 = true → Completed s.process p.1)) = true := by
    decide
  obtain ⟨s, hs, hdump⟩ := (Option.any_eq_true _ _).mp hrun
  exact of_decide_eq_true hdump (h earlyGroup s (fun _ => true) hs)

end TorchMojoBackend.FlightRecorder
