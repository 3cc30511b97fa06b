/-
  `Watchdog.GroupsInvariant`: where every tracked library call is.

  A call is in one open fold, in one commit, or among those of a group whose end
  failed or of a watch that went, and in exactly one place of these.  The entry of
  a fold is its calls folded in order, all of them on its communicator and made
  inside the group of its level.
-/
import TorchMojoBackend.Watchdog.Groups
import Mathlib.Data.List.Basic
import Mathlib.Data.List.Nodup

set_option autoImplicit false

namespace TorchMojoBackend.Watchdog.Groups

open TorchMojoBackend.Foundation TorchMojoBackend.FlightRecorder

/-! ## The flight recorder leaves the books alone -/

/-- The levels and the histories of two states agree. -/
structure SameBooks (s s' : State) : Prop where
  levels : s'.levels = s.levels
  calls : s'.calls = s.calls
  commits : s'.commits = s.commits
  dropped : s'.dropped = s.dropped
  forgotten : s'.forgotten = s.forgotten

theorem SameBooks.refl (s : State) : SameBooks s s := ⟨rfl, rfl, rfl, rfl, rfl⟩

theorem SameBooks.trans {s t u : State} (hst : SameBooks s t) (htu : SameBooks t u) :
    SameBooks s u :=
  ⟨htu.levels.trans hst.levels, htu.calls.trans hst.calls, htu.commits.trans hst.commits,
    htu.dropped.trans hst.dropped, htu.forgotten.trans hst.forgotten⟩

namespace State

theorem frRecord_books (s : State) (w t : Nat) (e : Entry) (tag : Tag) (deferred : Bool) :
    SameBooks s (s.frRecord w t e tag deferred).1 := by
  unfold frRecord
  split <;> exact ⟨rfl, rfl, rfl, rfl, rfl⟩

theorem frModify_books (s : State) (rid1 : Nat) (f : FrEntry → FrEntry) :
    SameBooks s (s.frModify rid1 f) := by
  unfold frModify
  split <;> exact ⟨rfl, rfl, rfl, rfl, rfl⟩

theorem frLink_books (s : State) (rid1 link index : Nat) :
    SameBooks s (s.frLink rid1 link index) := by
  unfold frLink
  split
  · exact .refl s
  · have h := s.frModify_books rid1 fun e => { e with link := link }
    exact ⟨h.levels, h.calls, h.commits, h.dropped, h.forgotten⟩

theorem foldl_frLink_books (link index : Nat) (rids : List Nat) (s : State) :
    SameBooks s (rids.foldl (fun s rid => s.frLink rid link index) s) := by
  induction rids generalizing s with
  | nil => exact .refl s
  | cons rid rids ih => exact (s.frLink_books rid link index).trans (ih _)

theorem frFlush_books (s : State) (w : Nat) (f : GroupFold) (tag : Tag) :
    SameBooks s (s.frFlush w f tag).1 := by
  unfold frFlush
  split
  · exact .refl s
  · exact s.frRecord_books w f.tracker f.entry tag true

theorem frSubmit_books (s : State) (f : GroupFold) (index : Nat) :
    SameBooks s (s.frSubmit f index).1 := by
  unfold frSubmit
  split
  · exact .refl s
  · have hflush := s.frFlush_books f.watch f f.tag
    generalize s.frFlush f.watch f f.tag = flushed at hflush
    obtain ⟨s', f'⟩ := flushed
    dsimp only
    split
    · exact hflush
    · exact hflush.trans (foldl_frLink_books _ _ _ _)

theorem watchCommit_books (s : State) (w t : Nat) (e : Entry) (tag : Tag) (frRid index : Nat)
    (drop : Bool) : SameBooks s (s.watchCommit w t e tag frRid index drop) := by
  have hrecord : SameBooks s (if frRid ≠ 0 then (s, frRid) else s.frRecord w t e tag false).1 := by
    split
    · exact .refl s
    · exact s.frRecord_books w t e tag false
  unfold watchCommit
  generalize (if frRid ≠ 0 then (s, frRid) else s.frRecord w t e tag false) = r at hrecord ⊢
  obtain ⟨s', fr⟩ := r
  dsimp only at hrecord ⊢
  have hsub : SameBooks s
      (if fr = 0 then s' else { s' with sub := Function.update s'.sub (fr - 1) (some index) }) := by
    split
    · exact hrecord
    · exact ⟨hrecord.levels, hrecord.calls, hrecord.commits, hrecord.dropped,
        hrecord.forgotten⟩
  split
  · exact hsub.trans (frModify_books _ _ _)
  · exact ⟨hsub.levels, hsub.calls, hsub.commits, hsub.dropped, hsub.forgotten⟩

end State

/-- What a flush leaves of a fold. -/
structure SameFold (f f' : GroupFold) : Prop where
  tracker : f'.tracker = f.tracker
  watch : f'.watch = f.watch
  commit : f'.commit = f.commit
  calls : f'.calls = f.calls

theorem SameFold.refl (f : GroupFold) : SameFold f f := ⟨rfl, rfl, rfl, rfl⟩

theorem State.frFlush_fold (s : State) (w : Nat) (f : GroupFold) (tag : Tag) :
    SameFold f (s.frFlush w f tag).2 := by
  unfold State.frFlush
  split <;> exact ⟨rfl, rfl, rfl, rfl⟩

/-! ## Levels and folds in their lists -/

/-- The thread and library of a level. -/
def Level.key (lv : Level) : Nat × Nat := (lv.thread, lv.lib)

theorem Level.key_eq_iff {lv l : Level} :
    (l.thread = lv.thread ∧ l.lib = lv.lib) ↔ l.key = lv.key := by
  simp [Level.key]

/-- A list with distinct keys splits at the element with a given key. -/
theorem exists_split_of_find? {α β : Type} [DecidableEq β] (key : α → β) {l : List α} {b : β}
    {a : α} (hfind : l.find? (fun x => key x = b) = some a) (hnodup : (l.map key).Nodup) :
    key a = b ∧ ∃ l₁ l₂, l = l₁ ++ a :: l₂ ∧ (∀ x ∈ l₁, key x ≠ b) ∧ ∀ x ∈ l₂, key x ≠ b := by
  obtain ⟨ha, l₁, l₂, hl, hl₁⟩ := List.find?_eq_some_iff_append.mp hfind
  have hkey : key a = b := of_decide_eq_true ha
  refine ⟨hkey, l₁, l₂, hl, fun x hx => ?_, fun x hx hxb => ?_⟩
  · simpa using hl₁ x hx
  · rw [hl, List.map_append, List.map_cons, List.nodup_append] at hnodup
    have hcons := List.nodup_cons.mp hnodup.2.1
    exact hcons.1 (hkey ▸ hxb ▸ List.mem_map_of_mem hx)

/-- Replacing the element with a given key. -/
theorem map_replace_split {α β : Type} [DecidableEq β] (key : α → β) {l₁ l₂ : List α}
    {a c : α} (h₁ : ∀ x ∈ l₁, key x ≠ key a) (h₂ : ∀ x ∈ l₂, key x ≠ key a) :
    (l₁ ++ a :: l₂).map (fun x => if key x = key a then c else x) = l₁ ++ c :: l₂ := by
  have hid : ∀ l : List α, (∀ x ∈ l, key x ≠ key a) →
      l.map (fun x => if key x = key a then c else x) = l := by
    intro l hl
    calc l.map (fun x => if key x = key a then c else x)
        = l.map id := List.map_congr_left fun x hx => by rw [if_neg (hl x hx)]; rfl
      _ = l := List.map_id l
  rw [List.map_append, List.map_cons, hid l₁ h₁, hid l₂ h₂, if_pos rfl]

/-- Taking the element with a given key out. -/
theorem filter_split {α β : Type} [DecidableEq β] (key : α → β) {l₁ l₂ : List α} {a : α}
    (h₁ : ∀ x ∈ l₁, key x ≠ key a) (h₂ : ∀ x ∈ l₂, key x ≠ key a) :
    (l₁ ++ a :: l₂).filter (fun x => ¬ key x = key a) = l₁ ++ l₂ := by
  have hid : ∀ l : List α, (∀ x ∈ l, key x ≠ key a) →
      l.filter (fun x => ¬ key x = key a) = l := by
    intro l hl
    exact List.filter_eq_self.mpr fun x hx => decide_eq_true (hl x hx)
  rw [List.filter_append, List.filter_cons, hid l₁ h₁, hid l₂ h₂]
  simp

/-- The calls of a level's folds. -/
def Level.calls (lv : Level) : List Nat := lv.folds.flatMap GroupFold.calls

theorem Level.foldOf_tracker (lv : Level) (w t : Nat) : (lv.foldOf w t).tracker = t := by
  unfold Level.foldOf
  cases hfind : lv.folds.find? fun f => f.tracker = t with
  | none => rfl
  | some f => simpa using List.find?_some hfind

/-- The fold of a communicator is one of the level's, or a new one. -/
theorem Level.foldOf_cases (lv : Level) (w t : Nat) :
    lv.foldOf w t ∈ lv.folds ∨
      (lv.foldOf w t = .fresh w t ∧ ∀ f ∈ lv.folds, f.tracker ≠ t) := by
  unfold Level.foldOf
  cases hfind : lv.folds.find? fun f => f.tracker = t with
  | none =>
      refine .inr ⟨rfl, fun f hf => ?_⟩
      simpa using List.find?_eq_none.mp hfind f hf
  | some f => exact .inl (List.mem_of_find?_eq_some hfind)

/-- What putting a fold back does to a level. -/
structure Level.SetFold (lv : Level) (old new : GroupFold) (lv' : Level) : Prop where
  thread : lv'.thread = lv.thread
  lib : lv'.lib = lv.lib
  depth : lv'.depth = lv.depth
  trackers : (lv'.folds.map GroupFold.tracker).Nodup
  folds : ∀ f ∈ lv'.folds, f = new ∨ f ∈ lv.folds
  count : ∀ n, lv'.calls.count n + old.calls.count n = lv.calls.count n + new.calls.count n
  split : ∃ l₁ mid l₂, lv.folds = l₁ ++ mid ++ l₂ ∧ lv'.folds = l₁ ++ new :: l₂ ∧
    (mid = [old] ∨ mid = [] ∧ old.rids = [])

/-- Putting back a fold the level has. -/
theorem Level.setFold_of_find? {lv : Level} (hnodup : (lv.folds.map GroupFold.tracker).Nodup)
    {f g : GroupFold} (hfind : lv.folds.find? (fun g => g.tracker = f.tracker) = some g) :
    ∃ l₁ l₂, lv.folds = l₁ ++ g :: l₂ ∧ lv.setFold f = { lv with folds := l₁ ++ f :: l₂ } ∧
      g.tracker = f.tracker := by
  obtain ⟨hg, l₁, l₂, hl, h₁, h₂⟩ := exists_split_of_find? GroupFold.tracker hfind hnodup
  have hany : (lv.folds.any fun g => g.tracker = f.tracker) = true :=
    List.any_eq_true.mpr ⟨g, List.mem_of_find?_eq_some hfind, decide_eq_true hg⟩
  refine ⟨l₁, l₂, hl, ?_, hg⟩
  simp only [Level.setFold, hany, if_true]
  rw [hl, ← hg, map_replace_split GroupFold.tracker (hg ▸ h₁) (hg ▸ h₂)]

/-- Putting a new fold in a level. -/
theorem Level.setFold_of_none {lv : Level} {f : GroupFold}
    (hfind : lv.folds.find? (fun g => g.tracker = f.tracker) = none) :
    lv.setFold f = { lv with folds := lv.folds ++ [f] } ∧
      ∀ g ∈ lv.folds, g.tracker ≠ f.tracker := by
  have hnone : ∀ g ∈ lv.folds, g.tracker ≠ f.tracker := fun g hg => by
    simpa using List.find?_eq_none.mp hfind g hg
  have hany : (lv.folds.any fun g => g.tracker = f.tracker) = false := by
    simpa using hnone
  refine ⟨?_, hnone⟩
  simp only [Level.setFold, hany, Bool.false_eq_true, if_false]

theorem Level.setFold_spec {lv : Level} (hnodup : (lv.folds.map GroupFold.tracker).Nodup)
    (w : Nat) {f : GroupFold} :
    Level.SetFold lv (lv.foldOf w f.tracker) f (lv.setFold f) := by
  unfold Level.foldOf
  cases hfind : lv.folds.find? fun g => g.tracker = f.tracker with
  | none =>
      obtain ⟨hset, hnone⟩ := Level.setFold_of_none hfind
      rw [hset]
      refine ⟨rfl, rfl, rfl, ?_, ?_, fun n => ?_,
        ⟨lv.folds, [], [], by simp, rfl, .inr ⟨rfl, rfl⟩⟩⟩
      · simp only [List.map_append, List.map_cons, List.map_nil]
        refine List.nodup_append.mpr ⟨hnodup, List.nodup_singleton _, ?_⟩
        intro a ha b hb
        obtain ⟨g, hg, rfl⟩ := List.mem_map.mp ha
        rw [List.mem_singleton.mp hb]
        exact hnone g hg
      · intro g hg
        obtain hold | hnew := List.mem_append.mp hg
        · exact .inr hold
        · exact .inl (List.mem_singleton.mp hnew)
      · simp [Level.calls, GroupFold.fresh]
  | some g =>
      obtain ⟨l₁, l₂, hl, hset, hg⟩ := Level.setFold_of_find? hnodup hfind
      rw [hset]
      refine ⟨rfl, rfl, rfl, ?_, ?_, fun n => ?_, ⟨l₁, [g], l₂, by simp [hl], rfl, .inl rfl⟩⟩
      · rw [hl] at hnodup
        simpa [hg] using hnodup
      · intro x hx
        rw [hl]
        obtain hx | hx := List.mem_append.mp hx
        · exact .inr (List.mem_append_left _ hx)
        · obtain rfl | hx := List.mem_cons.mp hx
          · exact .inl rfl
          · exact .inr (List.mem_append_right _ (List.mem_cons_of_mem _ hx))
      · simp only [Level.calls, hl, List.flatMap_append, List.flatMap_cons, List.count_append,
          Option.getD_some]
        omega

/-- A fold of the changed level is the new one or one of another communicator. -/
theorem Level.SetFold.others {lv lv' : Level} {old new : GroupFold}
    (hset : Level.SetFold lv old new lv') {g : GroupFold} (hg : g ∈ lv'.folds) :
    g = new ∨ g ∈ lv.folds ∧ g.tracker ≠ new.tracker := by
  obtain ⟨m₁, mid, m₂, hfolds, hfolds', -⟩ := hset.split
  have hnodup := hset.trackers
  rw [hfolds', List.map_append, List.map_cons, List.nodup_append] at hnodup
  obtain ⟨-, hcons, hdisjoint⟩ := hnodup
  obtain ⟨hfresh, -⟩ := List.nodup_cons.mp hcons
  rw [hfolds'] at hg
  rw [hfolds]
  obtain hg | hg := List.mem_append.mp hg
  · refine .inr ⟨List.mem_append_left _ (List.mem_append_left _ hg), ?_⟩
    exact hdisjoint _ (List.mem_map_of_mem hg) _ List.mem_cons_self
  · obtain rfl | hg := List.mem_cons.mp hg
    · exact .inl rfl
    · refine .inr ⟨List.mem_append_right _ hg, fun heq => hfresh ?_⟩
      exact heq ▸ List.mem_map_of_mem hg

/-! ## The invariant -/

/-- The entries of calls, in order. -/
def entriesOf (calls : List Call) (ns : List Nat) : List Entry :=
  ns.filterMap fun n => (calls[n]?).map Call.entry

/-- A fold holds calls of its communicator made inside its group. -/
structure FoldOk (calls : List Call) (thread lib : Nat) (f : GroupFold) : Prop where
  nonempty : f.calls ≠ []
  mem : ∀ n ∈ f.calls, ∃ c, calls[n]? = some c ∧ c.thread = thread ∧ c.lib = lib ∧
    c.tracker = f.tracker ∧ c.grouped = true
  commit : f.commit = Entry.foldAll (entriesOf calls f.calls)

/-- A commit holds calls of its communicator, those of one group of one thread and
library or a single call made outside any. -/
structure CommitOk (calls : List Call) (k : Commit) : Prop where
  nonempty : k.calls ≠ []
  mem : ∀ n ∈ k.calls, ∃ c, calls[n]? = some c ∧ c.tracker = k.tracker ∧
    (∀ thread lib, k.group = some (thread, lib) →
      c.thread = thread ∧ c.lib = lib ∧ c.grouped = true) ∧
    (k.group = none → c.grouped = false ∧ k.calls = [n])
  entry : k.entry = Entry.foldAll (entriesOf calls k.calls)

namespace State

/-- The calls of the open folds. -/
def pending (s : State) : List Nat := s.levels.flatMap Level.calls

/-- The calls of the commits. -/
def committed (s : State) : List Nat := s.commits.flatMap Commit.calls

/-- How many places a call is in. -/
def times (s : State) (n : Nat) : Nat :=
  s.pending.count n + s.committed.count n + s.dropped.count n + s.forgotten.count n

/-- The invariant; `extra` counts calls that are between two places. -/
structure Inv (extra : Nat → Nat) (s : State) : Prop where
  keys : (s.levels.map Level.key).Nodup
  depth : ∀ lv ∈ s.levels, 0 < lv.depth
  trackers : ∀ lv ∈ s.levels, (lv.folds.map GroupFold.tracker).Nodup
  folds : ∀ lv ∈ s.levels, ∀ f ∈ lv.folds, FoldOk s.calls lv.thread lv.lib f
  commits : ∀ k ∈ s.commits, CommitOk s.calls k
  one : ∀ c ∈ s.calls, c.entry.nops = 1
  places : ∀ n, s.times n + extra n = if n < s.calls.length then 1 else 0

theorem Inv.of_books {s s' : State} {extra : Nat → Nat} (h : s.Inv extra) (hb : SameBooks s s') :
    s'.Inv extra := by
  have htimes : ∀ n, s'.times n = s.times n := fun n => by
    simp only [times, pending, committed, hb.levels, hb.commits, hb.dropped, hb.forgotten]
  refine ⟨hb.levels ▸ h.keys, hb.levels ▸ h.depth, hb.levels ▸ h.trackers, ?_, ?_,
    hb.calls ▸ h.one, fun n => ?_⟩
  · rw [hb.levels, hb.calls]
    exact h.folds
  · rw [hb.commits, hb.calls]
    exact h.commits
  · rw [htimes, hb.calls]
    exact h.places n

/-- The level found, and the lists with another one in its place or without it. -/
theorem Inv.split {s : State} {extra : Nat → Nat} (h : s.Inv extra) {thread lib : Nat}
    {lv : Level} (hlv : s.level? thread lib = some lv) :
    lv.thread = thread ∧ lv.lib = lib ∧ ∃ l₁ l₂, s.levels = l₁ ++ lv :: l₂ ∧
      (∀ lv' : Level, lv'.key = lv.key → (s.setLevel lv').levels = l₁ ++ lv' :: l₂) ∧
      s.levels.filter (fun l => ¬ (l.thread = thread ∧ l.lib = lib)) = l₁ ++ l₂ := by
  have hfind : s.levels.find? (fun l => l.key = (thread, lib)) = some lv := by
    simpa only [level?, Level.key, Prod.mk.injEq] using hlv
  obtain ⟨hkey, l₁, l₂, hl, h₁, h₂⟩ := exists_split_of_find? Level.key hfind h.keys
  obtain ⟨hthread, hlib⟩ := Prod.mk.injEq .. ▸ hkey
  refine ⟨hthread, hlib, l₁, l₂, hl, fun lv' hkey' => ?_, ?_⟩
  · have hmap := map_replace_split (c := lv') Level.key (hkey ▸ h₁) (hkey ▸ h₂)
    rw [← hl, ← hkey'] at hmap
    simpa only [setLevel, Level.key_eq_iff] using hmap
  · have hfilter := filter_split Level.key (hkey ▸ h₁) (hkey ▸ h₂)
    rw [← hl, hkey] at hfilter
    simpa only [Level.key, Prod.mk.injEq] using hfilter

/-- A level gives way to one of the same thread and library. -/
theorem Inv.setLevel {s : State} {extra extra' : Nat → Nat} (h : s.Inv extra)
    {thread lib : Nat} {lv lv' : Level} (hlv : s.level? thread lib = some lv)
    (hthread : lv'.thread = lv.thread) (hlib : lv'.lib = lv.lib) (hdepth : 0 < lv'.depth)
    (htrackers : (lv'.folds.map GroupFold.tracker).Nodup)
    (hfolds : ∀ f ∈ lv'.folds, FoldOk s.calls lv.thread lv.lib f)
    (hcount : ∀ n, lv'.calls.count n + extra' n = lv.calls.count n + extra n) :
    (s.setLevel lv').Inv extra' := by
  obtain ⟨-, -, l₁, l₂, hl, hset, -⟩ := h.split hlv
  have hkey : lv'.key = lv.key := by simp [Level.key, hthread, hlib]
  have hlevels := hset lv' hkey
  have hmem : ∀ l ∈ (s.setLevel lv').levels, l = lv' ∨ l ∈ s.levels := by
    intro l hmem
    rw [hlevels] at hmem
    rw [hl]
    obtain hmem | hmem := List.mem_append.mp hmem
    · exact .inr (List.mem_append_left _ hmem)
    · obtain rfl | hmem := List.mem_cons.mp hmem
      · exact .inl rfl
      · exact .inr (List.mem_append_right _ (List.mem_cons_of_mem _ hmem))
  refine ⟨?_, fun l hl' => ?_, fun l hl' => ?_, fun l hl' f hf => ?_, h.commits, h.one,
    fun n => ?_⟩
  · have hkeys := h.keys
    rw [hl] at hkeys
    rw [hlevels]
    simpa [hkey] using hkeys
  · obtain rfl | hl' := hmem l hl'
    · exact hdepth
    · exact h.depth l hl'
  · obtain rfl | hl' := hmem l hl'
    · exact htrackers
    · exact h.trackers l hl'
  · obtain rfl | hl' := hmem l hl'
    · rw [hthread, hlib]
      exact hfolds f hf
    · exact h.folds l hl' f hf
  · have hplaces := h.places n
    have hcount := hcount n
    simp only [times, pending, hl, List.flatMap_append, List.flatMap_cons,
      List.count_append] at hplaces
    simp only [times, pending, hlevels, List.flatMap_append, List.flatMap_cons,
      List.count_append]
    have hrest : (s.setLevel lv').committed = s.committed ∧
        (s.setLevel lv').dropped = s.dropped ∧ (s.setLevel lv').forgotten = s.forgotten ∧
        (s.setLevel lv').calls = s.calls := ⟨rfl, rfl, rfl, rfl⟩
    rw [hrest.1, hrest.2.1, hrest.2.2.1, hrest.2.2.2]
    omega

theorem level?_mem {s : State} {thread lib : Nat} {lv : Level}
    (hlv : s.level? thread lib = some lv) : lv ∈ s.levels :=
  List.mem_of_find?_eq_some hlv

theorem groupEnter_inv {s : State} {extra : Nat → Nat} (h : s.Inv extra) (thread lib : Nat) :
    (s.groupEnter thread lib).Inv extra := by
  unfold groupEnter
  split
  · rename_i lv hlv
    exact h.setLevel hlv rfl rfl (Nat.succ_pos _) (h.trackers lv (level?_mem hlv))
      (h.folds lv (level?_mem hlv)) fun n => rfl
  · rename_i hnone
    have hfresh : ∀ l ∈ s.levels, l.key ≠ (thread, lib) := by
      intro l hl heq
      have := List.find?_eq_none.mp hnone l hl
      simp_all [Level.key]
    refine ⟨?_, fun l hl => ?_, fun l hl => ?_, fun l hl f hf => ?_, h.commits, h.one, ?_⟩
    · rw [List.map_append]
      refine List.nodup_append.mpr ⟨h.keys, List.nodup_singleton _, fun a ha b hb => ?_⟩
      obtain ⟨l, hl, rfl⟩ := List.mem_map.mp ha
      rw [List.mem_singleton.mp hb]
      exact hfresh l hl
    · obtain hl | hl := List.mem_append.mp hl
      · exact h.depth l hl
      · rw [List.mem_singleton.mp hl]
        exact Nat.one_pos
    · obtain hl | hl := List.mem_append.mp hl
      · exact h.trackers l hl
      · rw [List.mem_singleton.mp hl]
        exact List.nodup_nil
    · obtain hl | hl := List.mem_append.mp hl
      · exact h.folds l hl f hf
      · rw [List.mem_singleton.mp hl] at hf
        cases hf
    · intro n
      have hplaces := h.places n
      simpa [times, pending, committed, Level.calls] using hplaces

/-! ### A call in a group -/

/-- What `group_add` does beyond the flight recorder. -/
theorem groupAdd_spec (s : State) (lv : Level) (w t : Nat) (e : Entry) (tag : Tag) (n : Nat) :
    ∃ s' f', SameBooks s s' ∧ f'.tracker = t ∧
      f'.commit = (lv.foldOf w t).commit.fold e ∧ f'.calls = (lv.foldOf w t).calls ++ [n] ∧
      s.groupAdd lv w t e tag n = s'.setLevel (lv.setFold f') := by
  have htracker : ((lv.foldOf w t).add e n).tracker = t := lv.foldOf_tracker w t
  have hcommit : ((lv.foldOf w t).add e n).commit = (lv.foldOf w t).commit.fold e := rfl
  have hcalls : ((lv.foldOf w t).add e n).calls = (lv.foldOf w t).calls ++ [n] := rfl
  have hflush : ∀ (c : Prop) [Decidable c] (f : GroupFold) (tag : Tag),
      SameBooks s (if c then s.frFlush w f tag else (s, f)).1 ∧
        SameFold f (if c then s.frFlush w f tag else (s, f)).2 := by
    intro c _ f tag
    split
    · exact ⟨s.frFlush_books w f tag, s.frFlush_fold w f tag⟩
    · exact ⟨.refl s, .refl f⟩
  unfold groupAdd
  dsimp only
  generalize (lv.foldOf w t).add e n = f at htracker hcommit hcalls ⊢
  split
  · exact ⟨s, f, .refl s, htracker, hcommit, hcalls, rfl⟩
  · split
    · obtain ⟨hb, hf⟩ := hflush (f.entry.nops ≠ 0 ∧ f.members = false) f f.tag
      generalize (if f.entry.nops ≠ 0 ∧ f.members = false then s.frFlush w f f.tag else (s, f)) =
        flushed at hb hf ⊢
      exact ⟨flushed.1, { flushed.2 with members := true, entry := flushed.2.entry.fold e }, hb,
        hf.tracker.trans htracker, hf.commit.trans hcommit, hf.calls.trans hcalls, rfl⟩
    · obtain ⟨hb, hf⟩ := hflush (f.entry.nops ≠ 0 ∧ (f.members = true ∨ f.tag ≠ tag)) f f.tag
      generalize (if f.entry.nops ≠ 0 ∧ (f.members = true ∨ f.tag ≠ tag) then
        s.frFlush w f f.tag else (s, f)) = flushed at hb hf ⊢
      exact ⟨flushed.1, { flushed.2 with tag := tag, entry := flushed.2.entry.fold e }, hb,
        hf.tracker.trans htracker, hf.commit.trans hcommit, hf.calls.trans hcalls, rfl⟩

end State

theorem entriesOf_append (calls : List Call) (ms ns : List Nat) :
    entriesOf calls (ms ++ ns) = entriesOf calls ms ++ entriesOf calls ns := by
  simp [entriesOf]

/-- Later calls do not change the entries of earlier ones. -/
theorem entriesOf_concat {calls : List Call} {ns : List Nat} (c : Call)
    (h : ∀ n ∈ ns, n < calls.length) : entriesOf (calls ++ [c]) ns = entriesOf calls ns := by
  refine List.filterMap_congr fun n hn => ?_
  rw [List.getElem?_append_left (h n hn)]

theorem getElem?_concat_of_some {calls : List Call} {n : Nat} {c : Call} (d : Call)
    (h : calls[n]? = some c) : (calls ++ [d])[n]? = some c := by
  obtain ⟨hn, -⟩ := List.getElem?_eq_some_iff.mp h
  rw [List.getElem?_append_left hn, h]

theorem FoldOk.concat {calls : List Call} {thread lib : Nat} {f : GroupFold}
    (h : FoldOk calls thread lib f) (d : Call) : FoldOk (calls ++ [d]) thread lib f := by
  refine ⟨h.nonempty, fun n hn => ?_, ?_⟩
  · obtain ⟨c, hc, hrest⟩ := h.mem n hn
    exact ⟨c, getElem?_concat_of_some d hc, hrest⟩
  · rw [entriesOf_concat d fun n hn => ?_]
    · exact h.commit
    · obtain ⟨c, hc, -⟩ := h.mem n hn
      exact (List.getElem?_eq_some_iff.mp hc).1

/-- A call made outside any group is a commit by itself. -/
theorem CommitOk.single (calls : List Call) {c : Call} (hgrouped : c.grouped = false) :
    CommitOk (calls ++ [c]) ⟨c.tracker, c.entry, [calls.length], none⟩ := by
  have hget : (calls ++ [c])[calls.length]? = some c := List.getElem?_concat_length
  refine ⟨List.cons_ne_nil _ _, fun n hn => ?_, ?_⟩
  · rw [List.mem_singleton.mp hn]
    refine ⟨c, hget, rfl, ?_, fun _ => ⟨hgrouped, rfl⟩⟩
    intro _ _ hgroup
    cases hgroup
  · have hentries : entriesOf (calls ++ [c]) [calls.length] = [c.entry] := by
      simp [entriesOf]
    rw [hentries]
    simp [Entry.foldAll]

theorem CommitOk.concat {calls : List Call} {k : Commit} (h : CommitOk calls k) (d : Call) :
    CommitOk (calls ++ [d]) k := by
  refine ⟨h.nonempty, fun n hn => ?_, ?_⟩
  · obtain ⟨c, hc, hrest⟩ := h.mem n hn
    exact ⟨c, getElem?_concat_of_some d hc, hrest⟩
  · rw [entriesOf_concat d fun n hn => ?_]
    · exact h.entry
    · obtain ⟨c, hc, -⟩ := h.mem n hn
      exact (List.getElem?_eq_some_iff.mp hc).1

namespace State

/-- A call is made, and is yet to be put in its place. -/
theorem Inv.call {s : State} (h : s.Inv fun _ => 0) (c : Call) (hone : c.entry.nops = 1) :
    Inv (fun n => if n = s.calls.length then 1 else 0) { s with calls := s.calls ++ [c] } := by
  refine ⟨h.keys, h.depth, h.trackers, fun lv hlv f hf => (h.folds lv hlv f hf).concat c,
    fun k hk => (h.commits k hk).concat c, fun d hd => ?_, fun n => ?_⟩
  · obtain hd | hd := List.mem_append.mp hd
    · exact h.one d hd
    · rw [List.mem_singleton.mp hd]
      exact hone
  · have hplaces := h.places n
    have htimes : times { s with calls := s.calls ++ [c] } n = s.times n := rfl
    rw [htimes, List.length_append, List.length_singleton]
    simp only [Nat.add_zero] at hplaces
    rw [hplaces]
    split <;> split <;> split <;> omega

/-- The call `n` joins the fold of its communicator. -/
theorem Inv.groupAdd {s : State} {thread lib : Nat} {lv : Level}
    (hlv : s.level? thread lib = some lv) {w t : Nat} {e : Entry} (tag : Tag) {n : Nat}
    (hcall : s.calls[n]? = some ⟨thread, lib, w, t, e, true⟩)
    (h : s.Inv fun m => if m = n then 1 else 0) :
    (s.groupAdd lv w t e tag n).Inv fun _ => 0 := by
  obtain ⟨s', f, hb, htracker, hcommit, hcalls, heq⟩ := s.groupAdd_spec lv w t e tag n
  have h' := h.of_books hb
  have hlv' : s'.level? thread lib = some lv := by
    unfold level?
    rw [hb.levels]
    exact hlv
  obtain ⟨hthread, hlib, -⟩ := h'.split hlv'
  have hmem := level?_mem hlv'
  have hset := Level.setFold_spec (h'.trackers lv hmem) w (f := f)
  rw [htracker] at hset
  have hentry : entriesOf s.calls [n] = [e] := by simp [entriesOf, hcall]
  -- the fold so far is right, and empty when it is a new one
  have hold : (lv.foldOf w t).commit = Entry.foldAll (entriesOf s.calls (lv.foldOf w t).calls) ∧
      ∀ m ∈ (lv.foldOf w t).calls, ∃ c, s.calls[m]? = some c ∧ c.thread = thread ∧
        c.lib = lib ∧ c.tracker = t ∧ c.grouped = true := by
    obtain hf | ⟨hfresh, -⟩ := lv.foldOf_cases w t
    · have hok := h'.folds lv hmem _ hf
      rw [hb.calls] at hok
      refine ⟨hok.commit, fun m hm => ?_⟩
      obtain ⟨c, hc, hct, hcl, hctr, hcg⟩ := hok.mem m hm
      exact ⟨c, hc, hct.trans hthread, hcl.trans hlib, hctr.trans (lv.foldOf_tracker w t), hcg⟩
    · rw [hfresh]
      exact ⟨rfl, fun m hm => nomatch hm⟩
  have hnew : FoldOk s.calls lv.thread lv.lib f := by
    refine ⟨?_, fun m hm => ?_, ?_⟩
    · rw [hcalls]
      simp
    · rw [hcalls] at hm
      rw [hthread, hlib, htracker]
      obtain hm | hm := List.mem_append.mp hm
      · exact hold.2 m hm
      · rw [List.mem_singleton.mp hm]
        exact ⟨_, hcall, rfl, rfl, rfl, rfl⟩
    · rw [hcommit, hcalls, entriesOf_append, hentry, Entry.foldAll_concat, ← hold.1]
  rw [heq]
  refine h'.setLevel hlv' hset.thread hset.lib (hset.depth ▸ h'.depth lv hmem) hset.trackers
    (fun g hg => ?_) fun m => ?_
  · rw [hb.calls]
    obtain rfl | hg := hset.folds g hg
    · exact hnew
    · have hok := h'.folds lv hmem g hg
      rw [hb.calls] at hok
      exact hok
  · have hcount := hset.count m
    rw [hcalls, List.count_append] at hcount
    have hsingle : List.count m [n] = if m = n then 1 else 0 := by
      rw [List.count_singleton]
      simp only [beq_iff_eq, eq_comm (a := n)]
    omega

theorem Inv.groupFrMark {s : State} {extra : Nat → Nat} (h : s.Inv extra)
    (thread lib w t : Nat) (tag : Tag) : (s.groupFrMark thread lib w t tag).Inv extra := by
  unfold State.groupFrMark
  split
  · rename_i lv _ hlv
    split
    · rename_i f hfind
      have hb := s.frFlush_books w f tag
      have hf := s.frFlush_fold w f tag
      generalize s.frFlush w f tag = flushed at hb hf ⊢
      obtain ⟨s', f'⟩ := flushed
      have h' := h.of_books hb
      have hlv' : s'.level? thread lib = some lv := by
        unfold level?
        rw [hb.levels]
        exact hlv
      have hmem := level?_mem hlv'
      have hft : f.tracker = t := by simpa using List.find?_some hfind
      have hset := Level.setFold_spec (h'.trackers lv hmem) w (f := f')
      have hfold : lv.foldOf w f'.tracker = f := by
        unfold Level.foldOf
        rw [hf.tracker, hft, hfind]
        rfl
      rw [hfold] at hset
      refine h'.setLevel hlv' hset.thread hset.lib (hset.depth ▸ h'.depth lv hmem)
        hset.trackers (fun g hg => ?_) fun m => ?_
      · obtain rfl | hg := hset.folds g hg
        · have hok := h'.folds lv hmem f (List.mem_of_find?_eq_some hfind)
          refine ⟨hf.calls ▸ hok.nonempty, ?_, ?_⟩
          · rw [hf.calls, hf.tracker]
            exact hok.mem
          · rw [hf.calls, hf.commit]
            exact hok.commit
        · exact h'.folds lv hmem g hg
      · have hcount := hset.count m
        rw [hf.calls] at hcount
        omega
    · exact h
  · exact h

/-! ### The end of a group -/

/-- What committing a fold does to the books. -/
theorem commitFold_spec (s : State) (lv : Level) (drop : Nat → Bool) {f : GroupFold}
    (hnops : f.commit.nops ≠ 0) :
    (s.commitFold lv drop f).levels = s.levels ∧ (s.commitFold lv drop f).calls = s.calls ∧
      (s.commitFold lv drop f).commits =
        s.commits ++ [⟨f.tracker, f.commit, f.calls, some (lv.thread, lv.lib)⟩] ∧
      (s.commitFold lv drop f).dropped = s.dropped ∧
      (s.commitFold lv drop f).forgotten = s.forgotten := by
  have hb := (s.submit f.tracker).frSubmit_books f (s.submitted f.tracker)
  unfold commitFold
  dsimp only
  generalize (s.submit f.tracker).frSubmit f (s.submitted f.tracker) = submitted at hb ⊢
  obtain ⟨s', fr⟩ := submitted
  dsimp only at hb ⊢
  rw [if_pos hnops]
  have hc := s'.watchCommit_books f.watch f.tracker f.commit .zero fr
    (s.submitted f.tracker) (drop f.tracker)
  exact ⟨hc.levels.trans hb.levels, hc.calls.trans hb.calls, by rw [hb.commits]; rfl,
    hc.dropped.trans hb.dropped, hc.forgotten.trans hb.forgotten⟩

/-- Committing folds one after the other. -/
theorem foldl_commitFold_spec (lv : Level) (drop : Nat → Bool) (folds : List GroupFold)
    (hnops : ∀ f ∈ folds, f.commit.nops ≠ 0) (s : State) :
    let s' := folds.foldl (fun s f => s.commitFold lv drop f) s
    s'.levels = s.levels ∧ s'.calls = s.calls ∧
      s'.commits = s.commits ++
        folds.map (fun f => ⟨f.tracker, f.commit, f.calls, some (lv.thread, lv.lib)⟩) ∧
      s'.dropped = s.dropped ∧ s'.forgotten = s.forgotten := by
  induction folds generalizing s with
  | nil => simp
  | cons f folds ih =>
      obtain ⟨hl, hc, hk, hd, hf⟩ :=
        s.commitFold_spec lv drop (hnops f List.mem_cons_self)
      obtain ⟨hl', hc', hk', hd', hf'⟩ :=
        ih (fun g hg => hnops g (List.mem_cons_of_mem _ hg)) (s.commitFold lv drop f)
      refine ⟨hl'.trans hl, hc'.trans hc, ?_, hd'.trans hd, hf'.trans hf⟩
      rw [List.foldl_cons, hk', hk]
      simp

end State

/-- The entries of known calls count one each. -/
theorem entriesOf_nops {calls : List Call} (hone : ∀ c ∈ calls, c.entry.nops = 1)
    (ns : List Nat) : ∀ e ∈ entriesOf calls ns, e.nops = 1 := by
  intro e he
  obtain ⟨n, -, hn⟩ := List.mem_filterMap.mp he
  obtain ⟨c, hc, rfl⟩ := Option.map_eq_some_iff.mp hn
  exact hone c (List.mem_of_getElem? hc)

theorem FoldOk.nops_ne_zero {calls : List Call} (hone : ∀ c ∈ calls, c.entry.nops = 1)
    {thread lib : Nat} {f : GroupFold} (h : FoldOk calls thread lib f) : f.commit.nops ≠ 0 := by
  rw [h.commit, Entry.foldAll_nops _ (entriesOf_nops hone f.calls)]
  obtain ⟨n, ns, hns⟩ := List.exists_cons_of_ne_nil h.nonempty
  obtain ⟨c, hc, -⟩ := h.mem n (hns ▸ List.mem_cons_self)
  simp [hns, entriesOf, hc]

theorem FoldOk.commitOk {calls : List Call} {thread lib : Nat} {f : GroupFold}
    (h : FoldOk calls thread lib f) :
    CommitOk calls ⟨f.tracker, f.commit, f.calls, some (thread, lib)⟩ := by
  refine ⟨h.nonempty, fun n hn => ?_, h.commit⟩
  obtain ⟨c, hc, hct, hcl, hctr, hcg⟩ := h.mem n hn
  refine ⟨c, hc, hctr, fun thread' lib' heq => ?_, fun hnone => nomatch hnone⟩
  cases heq
  exact ⟨hct, hcl, hcg⟩

namespace State

/-- The level found is taken out; its calls are between two places. -/
theorem Inv.removeLevel {s : State} (h : s.Inv fun _ => 0) {thread lib : Nat} {lv : Level}
    (hlv : s.level? thread lib = some lv) :
    Inv (fun n => lv.calls.count n)
      { s with levels := s.levels.filter fun l => ¬ (l.thread = thread ∧ l.lib = lib) } := by
  obtain ⟨-, -, l₁, l₂, hl, -, hfilter⟩ := h.split hlv
  have hsub : ∀ l, l ∈ s.levels.filter (fun l => ¬ (l.thread = thread ∧ l.lib = lib)) →
      l ∈ s.levels := fun l hmem => (List.mem_filter.mp hmem).1
  refine ⟨?_, fun l hl => h.depth l (hsub l hl), fun l hl => h.trackers l (hsub l hl),
    fun l hl => h.folds l (hsub l hl), h.commits, h.one, fun n => ?_⟩
  · exact h.keys.sublist (List.filter_sublist.map Level.key)
  · have hplaces := h.places n
    simp only [times, pending, committed, hl, List.flatMap_append, List.flatMap_cons,
      List.count_append] at hplaces
    simp only [times, pending, committed, hfilter, List.flatMap_append, List.count_append]
    omega

/-- The calls of folds, as commits or as they are. -/
theorem flatMap_commits (group : Option (Nat × Nat)) (folds : List GroupFold) :
    (folds.map fun f => (⟨f.tracker, f.commit, f.calls, group⟩ : Commit)).flatMap Commit.calls =
      folds.flatMap GroupFold.calls := by
  rw [List.flatMap_map]

/-- What `group_exit` does to the books, by what it finds. -/
theorem groupExit_cases {s : State} (h : s.Inv fun _ => 0) (thread lib : Nat)
    (submitted : Bool) (drop : Nat → Bool) :
    (s.level? thread lib = none ∧ s.groupExit thread lib submitted drop = s) ∨
    ∃ lv, s.level? thread lib = some lv ∧
      ((1 < lv.depth ∧
          s.groupExit thread lib submitted drop = s.setLevel { lv with depth := lv.depth - 1 }) ∨
        (lv.depth = 1 ∧
          let s' := s.groupExit thread lib submitted drop
          s'.levels = s.levels.filter (fun l => ¬ (l.thread = thread ∧ l.lib = lib)) ∧
          s'.calls = s.calls ∧ s'.forgotten = s.forgotten ∧
          (submitted = true → s'.dropped = s.dropped ∧ s'.commits = s.commits ++
            lv.folds.map fun f => ⟨f.tracker, f.commit, f.calls, some (lv.thread, lv.lib)⟩) ∧
          (submitted = false → s'.commits = s.commits ∧
            s'.dropped = s.dropped ++ lv.calls))) := by
  unfold groupExit
  cases hlv : s.level? thread lib with
  | none => exact .inl ⟨rfl, rfl⟩
  | some lv =>
      refine .inr ⟨lv, rfl, ?_⟩
      by_cases hdepth : 1 < lv.depth
      · exact .inl ⟨hdepth, by simp only [if_pos hdepth]⟩
      · have hpos := h.depth lv (level?_mem hlv)
        refine .inr ⟨by omega, ?_⟩
        simp only [if_neg hdepth]
        cases submitted with
        | false =>
            exact ⟨rfl, rfl, rfl, fun hs => absurd hs (by decide), fun _ => ⟨rfl, rfl⟩⟩
        | true =>
            have hnops : ∀ f ∈ lv.folds, f.commit.nops ≠ 0 := fun f hf =>
              (h.folds lv (level?_mem hlv) f hf).nops_ne_zero h.one
            obtain ⟨hl, hc, hk, hd, hf⟩ := foldl_commitFold_spec lv drop lv.folds hnops
              { s with levels := s.levels.filter fun l => ¬ (l.thread = thread ∧ l.lib = lib) }
            simp only [if_true]
            exact ⟨hl, hc, hf, fun _ => ⟨hd, hk⟩, fun hs => absurd hs (by decide)⟩

theorem Inv.groupExit {s : State} (h : s.Inv fun _ => 0) (thread lib : Nat)
    (submitted : Bool) (drop : Nat → Bool) :
    (s.groupExit thread lib submitted drop).Inv fun _ => 0 := by
  obtain ⟨-, heq⟩ | ⟨lv, hlv, hinner | ⟨-, hlevels, hcalls, hforgotten, hyes, hno⟩⟩ :=
    groupExit_cases h thread lib submitted drop
  · rw [heq]
    exact h
  · rw [hinner.2]
    have hdepth : 0 < lv.depth - 1 := by have := hinner.1; omega
    exact h.setLevel hlv rfl rfl hdepth (h.trackers lv (level?_mem hlv))
      (h.folds lv (level?_mem hlv)) fun n => rfl
  · have hrem := h.removeLevel hlv
    obtain ⟨hthread, hlib, -⟩ := h.split hlv
    generalize s.groupExit thread lib submitted drop = s' at hlevels hcalls hforgotten hyes hno ⊢
    refine ⟨hlevels ▸ hrem.keys, hlevels ▸ hrem.depth, hlevels ▸ hrem.trackers, ?_, ?_,
      hcalls ▸ h.one, fun n => ?_⟩
    · rw [hlevels, hcalls]
      exact hrem.folds
    · rw [hcalls]
      cases submitted with
      | false =>
          rw [(hno rfl).1]
          exact h.commits
      | true =>
          rw [(hyes rfl).2]
          intro k hk
          obtain hk | hk := List.mem_append.mp hk
          · exact h.commits k hk
          · obtain ⟨f, hf, rfl⟩ := List.mem_map.mp hk
            exact (h.folds lv (level?_mem hlv) f hf).commitOk
    · have hplaces := hrem.places n
      simp only [times, pending, committed] at hplaces
      simp only [times, pending, committed, hlevels, hcalls, hforgotten, Nat.add_zero]
      cases submitted with
      | false =>
          rw [(hno rfl).1, (hno rfl).2, List.count_append]
          omega
      | true =>
          rw [(hyes rfl).1, (hyes rfl).2, List.flatMap_append, List.count_append,
            flatMap_commits]
          rw [Level.calls] at hplaces
          omega

/-! ### The other operations -/

theorem nextCpos_books (s : State) (t : Nat) (op : Op) : SameBooks s (s.nextCpos t op).1 := by
  unfold nextCpos
  split <;> exact ⟨rfl, rfl, rfl, rfl, rfl⟩

theorem Inv.track {s : State} (h : s.Inv fun _ => 0) (thread lib w t : Nat) (op : Op)
    (count dtype root redop : Int) (tag : Tag) (drop : Bool) :
    (s.track thread lib w t op count dtype root redop tag drop).Inv fun _ => 0 := by
  unfold State.track
  have hcpos := s.nextCpos_books t op
  generalize s.nextCpos t op = numbered at hcpos ⊢
  obtain ⟨s', cpos⟩ := numbered
  have h' : s'.Inv fun _ => 0 := h.of_books hcpos
  dsimp only
  generalize he : (⟨op, 1, count, dtype, root, redop, callFp op count dtype root redop, cpos⟩ :
    Entry) = e
  have hnops : e.nops = 1 := by rw [← he]
  have hcall := h'.call ⟨thread, lib, w, t, e, (s'.level? thread lib).isSome⟩ hnops
  have hlevel : ∀ c : Call, level? { s' with calls := s'.calls ++ [c] } thread lib =
      s'.level? thread lib := fun _ => rfl
  simp only [hlevel]
  cases hlv : s'.level? thread lib with
  | some lv =>
      rw [hlv] at hcall
      have hget : (s'.calls ++ [(⟨thread, lib, w, t, e, true⟩ : Call)])[s'.calls.length]? =
          some ⟨thread, lib, w, t, e, true⟩ := by simp
      have hadd := Inv.groupAdd ((hlevel _).trans hlv) tag hget hcall
      dsimp only
      split
      · exact hadd.of_books (frRecord_books _ _ _ _ _ _)
      · exact hadd
  | none =>
      rw [hlv] at hcall
      refine Inv.of_books ?_ (watchCommit_books _ _ _ _ _ _ _ _)
      refine ⟨hcall.keys, hcall.depth, hcall.trackers, hcall.folds, fun k hk => ?_, hcall.one,
        fun n => ?_⟩
      · obtain hk | hk := List.mem_append.mp hk
        · exact hcall.commits k hk
        · rw [List.mem_singleton.mp hk]
          exact CommitOk.single s'.calls (c := ⟨thread, lib, w, t, e, false⟩) rfl
      · refine Eq.trans ?_ (hcall.places n)
        simp only [times, pending, committed, submit, List.flatMap_append, List.count_append,
          List.flatMap_cons, List.flatMap_nil, List.append_nil, Nat.add_zero]
        have hsingle : List.count n [s'.calls.length] =
            if n = s'.calls.length then 1 else 0 := by
          rw [List.count_singleton]
          simp only [beq_iff_eq, eq_comm (a := s'.calls.length)]
        omega

/-- A list of folds splits into those of a watch and the others. -/
theorem count_filter_folds (w n : Nat) (folds : List GroupFold) :
    (folds.flatMap GroupFold.calls).count n =
      ((folds.filter fun f => f.watch ≠ w).flatMap GroupFold.calls).count n +
        ((folds.filter fun f => f.watch = w).flatMap GroupFold.calls).count n := by
  induction folds with
  | nil => rfl
  | cons f folds ih =>
      rw [List.flatMap_cons, List.count_append, ih, List.filter_cons, List.filter_cons]
      by_cases hw : f.watch = w
      · rw [if_neg (by simp [hw]), if_pos (by simp [hw]), List.flatMap_cons, List.count_append]
        omega
      · rw [if_pos (by simp [hw]), if_neg (by simp [hw]), List.flatMap_cons, List.count_append]
        omega

theorem Inv.groupsForget {s : State} (h : s.Inv fun _ => 0) (w : Nat) :
    (s.groupsForget w).Inv fun _ => 0 := by
  have hmem : ∀ lv ∈ (s.groupsForget w).levels, ∃ l ∈ s.levels,
      lv = { l with folds := l.folds.filter fun f => f.watch ≠ w } := by
    intro lv hlv
    obtain ⟨l, hl, rfl⟩ := List.mem_map.mp hlv
    exact ⟨l, hl, rfl⟩
  refine ⟨?_, fun lv hlv => ?_, fun lv hlv => ?_, fun lv hlv f hf => ?_, h.commits, h.one,
    fun n => ?_⟩
  · have hkeys : (s.groupsForget w).levels.map Level.key = s.levels.map Level.key := by
      simp only [State.groupsForget, List.map_map]
      rfl
    rw [hkeys]
    exact h.keys
  · obtain ⟨l, hl, rfl⟩ := hmem lv hlv
    exact h.depth l hl
  · obtain ⟨l, hl, rfl⟩ := hmem lv hlv
    exact (h.trackers l hl).sublist (List.filter_sublist.map GroupFold.tracker)
  · obtain ⟨l, hl, rfl⟩ := hmem lv hlv
    exact h.folds l hl f (List.mem_filter.mp hf).1
  · refine Eq.trans ?_ (h.places n)
    have hsplit : ∀ levels : List Level, (levels.flatMap Level.calls).count n =
        ((levels.map fun lv => { lv with folds := lv.folds.filter fun f => f.watch ≠ w }).flatMap
          Level.calls).count n +
        (levels.flatMap fun lv =>
          (lv.folds.filter fun f => f.watch = w).flatMap GroupFold.calls).count n := by
      intro levels
      induction levels with
      | nil => rfl
      | cons lv levels ih =>
          simp only [List.flatMap_cons, List.map_cons, List.count_append, ih]
          have hlv := count_filter_folds w n lv.folds
          simp only [Level.calls]
          omega
    have hlevels := hsplit s.levels
    simp only [times, pending, committed, State.groupsForget, List.count_append]
    omega

theorem Inv.next {s s' : State} (h : s.Inv fun _ => 0) {e : Event} (hnext : next s e = some s') :
    s'.Inv fun _ => 0 := by
  cases e with
  | groupStart thread lib ok =>
      cases hnext
      split
      · exact groupEnter_inv h thread lib
      · exact h
  | groupEnd thread lib w comms tag outcome drop =>
      simp only [Groups.next] at hnext
      split at hnext
      · cases hnext
        exact h
      · cases hnext
        refine Inv.groupExit ?_ thread lib _ drop
        clear * - h
        induction comms generalizing s with
        | nil => exact h
        | cons t comms ih => exact ih (h.groupFrMark thread lib w t tag)
  | track thread lib w t op count dtype root redop tag drop =>
      cases hnext
      exact h.track thread lib w t op count dtype root redop tag drop
  | setFr w =>
      obtain ⟨-, heq⟩ := Option.ite_none_right_eq_some.mp hnext
      cases heq
      exact h.of_books ⟨rfl, rfl, rfl, rfl, rfl⟩
  | forget w =>
      cases hnext
      exact h.groupsForget w
  | complete t =>
      obtain ⟨-, heq⟩ := Option.ite_none_right_eq_some.mp hnext
      cases heq
      exact h.of_books ⟨rfl, rfl, rfl, rfl, rfl⟩
  | retire i =>
      simp only [Groups.next] at hnext
      split at hnext
      · obtain ⟨-, heq⟩ := Option.ite_none_right_eq_some.mp hnext
        cases heq
        exact h.of_books (frModify_books _ _ _)
      · cases hnext

end State

theorem start_inv : State.start.Inv fun _ => 0 where
  keys := List.nodup_nil
  depth := fun _ hlv => nomatch hlv
  trackers := fun _ hlv => nomatch hlv
  folds := fun _ hlv => nomatch hlv
  commits := fun _ hk => nomatch hk
  one := fun _ hc => nomatch hc
  places := fun _ => rfl

theorem inv_of_reachable {s : State} (hs : native.Reachable s) : s.Inv fun _ => 0 := by
  refine hs.invariant ?_ ?_
  · rintro s rfl
    exact start_inv
  · intro s e s' _ hinv hnext
    exact hinv.next hnext

end TorchMojoBackend.Watchdog.Groups
