/-
  `Watchdog.GroupCalls`: what a step does with the calls of the open groups.

  The depth of a thread's group on a library is the nesting of its starts and ends
  so far, and the calls pending there leave it only at the outermost end: into
  commits when the library submitted the group, among the dropped ones when it
  failed.  The groups of other threads and libraries stay as they are.
-/
import TorchMojoBackend.Watchdog.GroupsInvariant
import Mathlib.Data.List.Perm.Basic

set_option autoImplicit false

namespace TorchMojoBackend.Watchdog.Groups

open TorchMojoBackend.Foundation TorchMojoBackend.FlightRecorder

/-! ## What a step should do -/

/-- The starts less the ends of `thread` on `lib`, of those that reached the library. -/
def nestingStep (thread lib depth : Nat) : Event → Nat
  | .groupStart th l ok => if th = thread ∧ l = lib ∧ ok = true then depth + 1 else depth
  | .groupEnd th l _ _ _ outcome _ =>
    if th = thread ∧ l = lib ∧ outcome ≠ .closed then depth - 1 else depth
  | _ => depth

def nesting (es : List Event) (thread lib : Nat) : Nat :=
  es.foldl (nestingStep thread lib) 0

theorem nesting_concat (es : List Event) (e : Event) (thread lib : Nat) :
    nesting (es ++ [e]) thread lib = nestingStep thread lib (nesting es thread lib) e := by
  simp [nesting]

namespace State

/-- The depth of a thread's group on a library, 0 when none is open. -/
def depthOf (s : State) (thread lib : Nat) : Nat :=
  ((s.level? thread lib).map Level.depth).getD 0

/-- The calls pending in a thread's group on a library. -/
def pendingOn (s : State) (thread lib : Nat) : List Nat :=
  ((s.level? thread lib).map Level.calls).getD []

/-- The open groups other than that of `thread` on `lib` keep their calls. -/
def OthersKeep (s s' : State) (thread lib : Nat) : Prop :=
  ∀ th l, (th, l) ≠ (thread, lib) → (s'.pendingOn th l).Perm (s.pendingOn th l)

/-- Every open group keeps its calls. -/
def AllKeep (s s' : State) : Prop :=
  ∀ th l, (s'.pendingOn th l).Perm (s.pendingOn th l)

/-- What `e` does with the calls, by the nesting `depth` before it.  A call outside
any group is committed at once and alone, one inside joins the calls pending in its
group.  The outermost end commits the calls pending there, with one entry for each
communicator, or drops them; any other start or end moves none. -/
def Moves (depth : Nat → Nat → Nat) (s s' : State) : Event → Prop
  | .track thread lib _ t _ _ _ _ _ _ _ =>
    (∃ c : Call, s'.calls = s.calls ++ [c] ∧ c.thread = thread ∧ c.lib = lib ∧ c.tracker = t ∧
      c.grouped = decide (depth thread lib ≠ 0)) ∧
    s'.dropped = s.dropped ∧ s'.forgotten = s.forgotten ∧ s.OthersKeep s' thread lib ∧
    if depth thread lib = 0 then
      s'.pendingOn thread lib = [] ∧
        ∃ e, s'.commits = s.commits ++ [⟨t, e, [s.calls.length], none⟩]
    else
      s'.commits = s.commits ∧
        (s'.pendingOn thread lib).Perm (s.pendingOn thread lib ++ [s.calls.length])
  | .groupEnd thread lib _ _ _ outcome _ =>
    s'.calls = s.calls ∧ s'.forgotten = s.forgotten ∧ s.OthersKeep s' thread lib ∧
    if outcome ≠ .closed ∧ depth thread lib = 1 then
      s'.pendingOn thread lib = [] ∧
        if outcome = .submitted then
          s'.dropped = s.dropped ∧ ∃ ks, s'.commits = s.commits ++ ks ∧
            (∀ k ∈ ks, k.group = some (thread, lib)) ∧ (ks.map Commit.tracker).Nodup ∧
            (ks.flatMap Commit.calls).Perm (s.pendingOn thread lib)
        else
          s'.commits = s.commits ∧ ∃ ns, s'.dropped = s.dropped ++ ns ∧
            ns.Perm (s.pendingOn thread lib)
    else
      s'.commits = s.commits ∧ s'.dropped = s.dropped ∧
        (s'.pendingOn thread lib).Perm (s.pendingOn thread lib)
  | .forget _ =>
    s'.calls = s.calls ∧ s'.commits = s.commits ∧ s'.dropped = s.dropped ∧
      s.forgotten <+: s'.forgotten
  | _ =>
    s'.calls = s.calls ∧ s'.commits = s.commits ∧ s'.dropped = s.dropped ∧
      s'.forgotten = s.forgotten ∧ s.AllKeep s'

/-! ## Finding a level -/

theorem level?_eq (s : State) (thread lib : Nat) :
    s.level? thread lib = s.levels.find? fun l => l.key = (thread, lib) := by
  simp only [level?, Level.key, Prod.mk.injEq]

end State

theorem find?_map_replace {α β : Type} [DecidableEq β] (key : α → β) (a : α) (b : β)
    (l : List α) :
    (l.map fun x => if key x = key a then a else x).find? (fun x => key x = b) =
      if b = key a then (l.find? fun x => key x = b).map fun _ => a
      else l.find? fun x => key x = b := by
  induction l with
  | nil => simp
  | cons x l ih =>
      rw [List.map_cons, List.find?_cons, List.find?_cons, ih]
      by_cases hx : key x = key a
      · by_cases hb : b = key a
        · simp [hx, hb]
        · have hne : key a ≠ b := fun h => hb h.symm
          simp [hx, hb, hne]
      · by_cases hb : b = key a
        · simp [hx, hb]
        · simp only [hx, hb, if_false]

namespace State

theorem level?_setLevel (s : State) (lv : Level) (thread lib : Nat) :
    (s.setLevel lv).level? thread lib =
      if (thread, lib) = lv.key then (s.level? thread lib).map fun _ => lv
      else s.level? thread lib := by
  have h := find?_map_replace Level.key lv (thread, lib) s.levels
  rw [level?_eq, level?_eq, ← h]
  simp only [setLevel, Level.key, Prod.mk.injEq]

theorem level?_key {s : State} {thread lib : Nat} {lv : Level}
    (hlv : s.level? thread lib = some lv) : lv.key = (thread, lib) := by
  rw [level?_eq] at hlv
  simpa using List.find?_some hlv

theorem level?_groupEnter (s : State) (thread lib th l : Nat) :
    (s.groupEnter thread lib).level? th l =
      if (th, l) = (thread, lib) then
        some (((s.level? thread lib).map fun lv => { lv with depth := lv.depth + 1 }).getD
          ⟨thread, lib, 1, []⟩)
      else s.level? th l := by
  unfold groupEnter
  cases hlv : s.level? thread lib with
  | some lv =>
      have hkey := level?_key hlv
      dsimp only
      rw [level?_setLevel]
      by_cases heq : (th, l) = (thread, lib)
      · obtain ⟨rfl, rfl⟩ := Prod.mk.injEq .. ▸ heq
        rw [if_pos rfl, if_pos (by rw [← hkey]; rfl), hlv]
        rfl
      · rw [if_neg heq, if_neg (fun h => heq (h.trans hkey))]
  | none =>
      simp only [level?_eq, List.find?_append, List.find?_singleton] at hlv ⊢
      by_cases heq : (th, l) = (thread, lib)
      · rw [if_pos heq, heq, hlv]
        simp [Level.key]
      · rw [if_neg heq]
        have hne : (thread, lib) ≠ (th, l) := fun h => heq h.symm
        simp [Level.key, hne]

theorem level?_remove (s : State) (thread lib th l : Nat) :
    State.level? { s with
        levels := s.levels.filter fun l => ¬ (l.thread = thread ∧ l.lib = lib) } th l =
      if (th, l) = (thread, lib) then none else s.level? th l := by
  rw [level?_eq, level?_eq]
  dsimp only
  rw [List.find?_filter]
  by_cases heq : (th, l) = (thread, lib)
  · rw [if_pos heq, List.find?_eq_none]
    intro lv _ h
    simp_all [Level.key]
    omega
  · rw [if_neg heq]
    congr 1
    funext lv
    by_cases hlv : lv.key = (th, l)
    · have hne : ¬ (lv.thread = thread ∧ lv.lib = lib) := fun h => heq (hlv.symm.trans (by
        simp [Level.key, h]))
      simp [hlv, hne]
    · simp [hlv]

end State

open State

theorem SameBooks.level? {s s' : State} (hb : SameBooks s s') (thread lib : Nat) :
    s'.level? thread lib = s.level? thread lib := by
  unfold State.level?
  rw [hb.levels]

/-! ## Steps within the groups -/

/-- The histories stay, and every group its depth and its calls. -/
structure SameGroups (s s' : State) : Prop where
  calls : s'.calls = s.calls
  commits : s'.commits = s.commits
  dropped : s'.dropped = s.dropped
  forgotten : s'.forgotten = s.forgotten
  depth : ∀ thread lib, s'.depthOf thread lib = s.depthOf thread lib
  keep : s.AllKeep s'

theorem SameGroups.of_books {s s' : State} (hb : SameBooks s s') : SameGroups s s' := by
  refine ⟨hb.calls, hb.commits, hb.dropped, hb.forgotten, fun th l => ?_, fun th l => ?_⟩
  · simp only [depthOf, hb.level?]
  · simp only [pendingOn, hb.level?]
    exact .refl _

theorem SameGroups.refl (s : State) : SameGroups s s := .of_books (.refl s)

theorem SameGroups.trans {s t u : State} (hst : SameGroups s t) (htu : SameGroups t u) :
    SameGroups s u :=
  ⟨htu.calls.trans hst.calls, htu.commits.trans hst.commits, htu.dropped.trans hst.dropped,
    htu.forgotten.trans hst.forgotten, fun th l => (htu.depth th l).trans (hst.depth th l),
    fun th l => (htu.keep th l).trans (hst.keep th l)⟩

/-- What replacing a level makes of the groups. -/
theorem State.setLevel_groups {s : State} {thread lib : Nat} {lv lv' : Level}
    (hlv : s.level? thread lib = some lv) (hkey : lv'.key = lv.key) (th l : Nat) :
    (s.setLevel lv').level? th l =
      if (th, l) = (thread, lib) then some lv' else s.level? th l := by
  rw [level?_setLevel, hkey, level?_key hlv]
  by_cases heq : (th, l) = (thread, lib)
  · obtain ⟨rfl, rfl⟩ := Prod.mk.injEq .. ▸ heq
    rw [if_pos rfl, if_pos rfl, hlv]
    rfl
  · rw [if_neg heq, if_neg heq]

/-- A level gives way to one of the same depth and calls. -/
theorem SameGroups.setLevel {s : State} {thread lib : Nat} {lv lv' : Level}
    (hlv : s.level? thread lib = some lv) (hkey : lv'.key = lv.key)
    (hdepth : lv'.depth = lv.depth) (hcalls : lv'.calls.Perm lv.calls) :
    SameGroups s (s.setLevel lv') := by
  have hlevel := setLevel_groups hlv hkey
  refine ⟨rfl, rfl, rfl, rfl, fun th l => ?_, fun th l => ?_⟩
  · simp only [depthOf, hlevel]
    split
    · rename_i heq
      obtain ⟨rfl, rfl⟩ := Prod.mk.injEq .. ▸ heq
      simp [hlv, hdepth]
    · rfl
  · simp only [pendingOn, hlevel]
    split
    · rename_i heq
      obtain ⟨rfl, rfl⟩ := Prod.mk.injEq .. ▸ heq
      simpa [hlv] using hcalls
    · exact .refl _

theorem SameGroups.groupFrMark {s : State} {extra : Nat → Nat} (h : s.Inv extra)
    (thread lib w t : Nat) (tag : Tag) :
    SameGroups s (s.groupFrMark thread lib w t tag) := by
  unfold State.groupFrMark
  split
  · rename_i lv _ hlv
    split
    · rename_i f hfind
      have hb := s.frFlush_books w f tag
      have hf := s.frFlush_fold w f tag
      generalize s.frFlush w f tag = flushed at hb hf ⊢
      obtain ⟨s', f'⟩ := flushed
      have hlv' : s'.level? thread lib = some lv := (hb.level? thread lib).trans hlv
      have hft : f.tracker = t := by simpa using List.find?_some hfind
      have hset := Level.setFold_spec (h.trackers lv (level?_mem hlv)) w (f := f')
      have hfold : lv.foldOf w f'.tracker = f := by
        unfold Level.foldOf
        rw [hf.tracker, hft, hfind]
        rfl
      rw [hfold] at hset
      have hkey : (lv.setFold f').key = lv.key := by
        simp only [Level.key, hset.thread, hset.lib]
      have hcalls : (lv.setFold f').calls.Perm lv.calls := by
        refine List.perm_iff_count.mpr fun n => ?_
        have hcount := hset.count n
        rw [hf.calls] at hcount
        omega
      exact (SameGroups.of_books hb).trans (.setLevel hlv' hkey hset.depth hcalls)
    · exact .refl s
  · exact .refl s

theorem SameGroups.foldl_groupFrMark (thread lib w : Nat) (tag : Tag) (comms : List Nat)
    {s : State} (h : s.Inv fun _ => 0) :
    SameGroups s (comms.foldl (fun s t => s.groupFrMark thread lib w t tag) s) ∧
      (comms.foldl (fun s t => s.groupFrMark thread lib w t tag) s).Inv fun _ => 0 := by
  induction comms generalizing s with
  | nil => exact ⟨.refl s, h⟩
  | cons t comms ih =>
      obtain ⟨hsame, hinv⟩ := ih (h.groupFrMark thread lib w t tag)
      exact ⟨(SameGroups.groupFrMark h thread lib w t tag).trans hsame, hinv⟩

/-! ## Starts -/

theorem groupEnter_groups (s : State) (thread lib : Nat) :
    s.AllKeep (s.groupEnter thread lib) ∧ ∀ th l,
      (s.groupEnter thread lib).depthOf th l =
        if th = thread ∧ l = lib then s.depthOf thread lib + 1 else s.depthOf th l := by
  refine ⟨fun th l => ?_, fun th l => ?_⟩
  · simp only [pendingOn, level?_groupEnter]
    split
    · rename_i heq
      obtain ⟨rfl, rfl⟩ := Prod.mk.injEq .. ▸ heq
      cases s.level? th l with
      | none => exact .refl _
      | some lv => exact .refl _
    · exact .refl _
  · simp only [depthOf, level?_groupEnter, Prod.mk.injEq]
    split
    · cases s.level? thread lib with
      | none => rfl
      | some lv => rfl
    · rfl

theorem groupEnter_histories (s : State) (thread lib : Nat) :
    (s.groupEnter thread lib).calls = s.calls ∧
      (s.groupEnter thread lib).commits = s.commits ∧
      (s.groupEnter thread lib).dropped = s.dropped ∧
      (s.groupEnter thread lib).forgotten = s.forgotten := by
  unfold groupEnter
  split <;> exact ⟨rfl, rfl, rfl, rfl⟩

/-! ## Ends -/

/-- What `group_exit` does with the groups and the histories. -/
structure Exited (s s' : State) (thread lib : Nat) (submitted : Bool) : Prop where
  calls : s'.calls = s.calls
  forgotten : s'.forgotten = s.forgotten
  others : ∀ th l, (th, l) ≠ (thread, lib) → s'.level? th l = s.level? th l
  depth : s'.depthOf thread lib = s.depthOf thread lib - 1
  outermost : s.depthOf thread lib = 1 → s'.level? thread lib = none ∧
    (submitted = true → s'.dropped = s.dropped ∧ ∃ ks, s'.commits = s.commits ++ ks ∧
      (∀ k ∈ ks, k.group = some (thread, lib)) ∧ (ks.map Commit.tracker).Nodup ∧
      ks.flatMap Commit.calls = s.pendingOn thread lib) ∧
    (submitted = false → s'.commits = s.commits ∧
      s'.dropped = s.dropped ++ s.pendingOn thread lib)
  inner : s.depthOf thread lib ≠ 1 → s'.commits = s.commits ∧ s'.dropped = s.dropped ∧
    s'.pendingOn thread lib = s.pendingOn thread lib

theorem groupExit_exited {s : State} (h : s.Inv fun _ => 0) (thread lib : Nat)
    (submitted : Bool) (drop : Nat → Bool) :
    Exited s (s.groupExit thread lib submitted drop) thread lib submitted := by
  obtain ⟨hnone, heq⟩ | ⟨lv, hlv, ⟨hdepth, heq⟩ |
      ⟨hdepth, hlevels, hcalls, hforgotten, hyes, hno⟩⟩ :=
    groupExit_cases h thread lib submitted drop
  · rw [heq]
    have hzero : s.depthOf thread lib = 0 := by simp [depthOf, hnone]
    refine ⟨rfl, rfl, fun _ _ _ => rfl, by omega, fun hone => ?_, fun _ => ⟨rfl, rfl, rfl⟩⟩
    omega
  · rw [heq]
    have hlevel := @setLevel_groups s thread lib lv { lv with depth := lv.depth - 1 } hlv rfl
    have hd : s.depthOf thread lib = lv.depth := by simp [depthOf, hlv]
    have hself := hlevel thread lib
    rw [if_pos rfl] at hself
    refine ⟨rfl, rfl, fun th l hne => ?_, ?_, fun hone => ?_, fun _ => ⟨rfl, rfl, ?_⟩⟩
    · rw [hlevel, if_neg hne]
    · rw [hd, depthOf, hself]
      rfl
    · omega
    · rw [pendingOn, pendingOn, hself, hlv]
      rfl
  · have hd : s.depthOf thread lib = 1 := by simp [depthOf, hlv, hdepth]
    have hp : s.pendingOn thread lib = lv.calls := by simp [pendingOn, hlv]
    have hlevel : ∀ th l, (s.groupExit thread lib submitted drop).level? th l =
        if (th, l) = (thread, lib) then none else s.level? th l := fun th l => by
      rw [← level?_remove, level?_eq, hlevels, level?_eq]
    generalize s.groupExit thread lib submitted drop = s' at *
    refine ⟨hcalls, hforgotten, fun th l hne => ?_, ?_, fun _ => ⟨?_, fun hs => ?_, fun hs => ?_⟩,
      fun hne => absurd hd hne⟩
    · rw [hlevel, if_neg hne]
    · rw [hd, depthOf, hlevel, if_pos rfl]
      rfl
    · rw [hlevel, if_pos rfl]
    · refine ⟨(hyes hs).1, _, (hyes hs).2, fun k hk => ?_, ?_, ?_⟩
      · obtain ⟨f, -, rfl⟩ := List.mem_map.mp hk
        exact congrArg some (level?_key hlv)
      · rw [List.map_map]
        exact h.trackers lv (level?_mem hlv)
      · rw [flatMap_commits, hp, Level.calls]
    · rw [hp]
      exact hno hs

/-! ## Calls -/

/-- What a tracked call does with the groups and the histories. -/
structure Tracked (s s' : State) (thread lib t : Nat) : Prop where
  call : ∃ c : Call, s'.calls = s.calls ++ [c] ∧ c.thread = thread ∧ c.lib = lib ∧
    c.tracker = t ∧ c.grouped = decide (s.depthOf thread lib ≠ 0)
  dropped : s'.dropped = s.dropped
  forgotten : s'.forgotten = s.forgotten
  depth : ∀ th l, s'.depthOf th l = s.depthOf th l
  others : s.OthersKeep s' thread lib
  outside : s.depthOf thread lib = 0 → s'.pendingOn thread lib = [] ∧
    ∃ e, s'.commits = s.commits ++ [⟨t, e, [s.calls.length], none⟩]
  inside : s.depthOf thread lib ≠ 0 → s'.commits = s.commits ∧
    (s'.pendingOn thread lib).Perm (s.pendingOn thread lib ++ [s.calls.length])

theorem SameGroups.tracked {s s' u : State} {thread lib t : Nat} (hb : SameBooks s s')
    (h : Tracked s' u thread lib t) : Tracked s u thread lib t := by
  have hsame := SameGroups.of_books hb
  have hpending : ∀ th l, s'.pendingOn th l = s.pendingOn th l := fun th l => by
    rw [pendingOn, pendingOn, hb.level?]
  refine ⟨?_, h.dropped.trans hb.dropped, h.forgotten.trans hb.forgotten,
    fun th l => (h.depth th l).trans (hsame.depth th l),
    fun th l hne => hpending th l ▸ h.others th l hne, fun hzero => ?_, fun hne => ?_⟩
  · rw [← hb.calls, ← hsame.depth thread lib]
    exact h.call
  · have hout := h.outside ((hsame.depth thread lib).trans hzero)
    rwa [hb.commits, hb.calls] at hout
  · have hin := h.inside (hsame.depth thread lib ▸ hne)
    rwa [hb.commits, hb.calls, hpending] at hin

theorem Tracked.of_books {s s' u : State} {thread lib t : Nat} (h : Tracked s s' thread lib t)
    (hb : SameBooks s' u) : Tracked s u thread lib t := by
  have hsame := SameGroups.of_books hb
  have hpending : ∀ th l, u.pendingOn th l = s'.pendingOn th l := fun th l => by
    rw [pendingOn, pendingOn, hb.level?]
  refine ⟨hb.calls ▸ h.call, hb.dropped.trans h.dropped, hb.forgotten.trans h.forgotten,
    fun th l => (hsame.depth th l).trans (h.depth th l),
    fun th l hne => hpending th l ▸ h.others th l hne, fun hzero => ?_, fun hne => ?_⟩
  · rw [hb.commits, hpending]
    exact h.outside hzero
  · rw [hb.commits, hpending]
    exact h.inside hne

theorem groupAdd_tracked {s : State} {extra : Nat → Nat} (h : s.Inv extra) {thread lib : Nat}
    {lv : Level} (hlv : s.level? thread lib = some lv) (w t : Nat) (e : Entry) (tag : Tag) :
    let c : Call := ⟨thread, lib, w, t, e, true⟩
    Tracked s (State.groupAdd { s with calls := s.calls ++ [c] } lv w t e tag s.calls.length)
      thread lib t := by
  intro c
  obtain ⟨s', f, hb, htracker, -, hcalls, heq⟩ :=
    State.groupAdd_spec { s with calls := s.calls ++ [c] } lv w t e tag s.calls.length
  rw [heq]
  have hset := Level.setFold_spec (h.trackers lv (level?_mem hlv)) w (f := f)
  rw [htracker] at hset
  have hlv' : s'.level? thread lib = some lv := (hb.level? thread lib).trans hlv
  have hothers : ∀ th l, s'.level? th l = s.level? th l := hb.level?
  have hkey : (lv.setFold f).key = lv.key := by
    simp only [Level.key, hset.thread, hset.lib]
  have hlevel := setLevel_groups hlv' hkey
  have hd : s.depthOf thread lib = lv.depth := by simp [depthOf, hlv]
  have hpos := h.depth lv (level?_mem hlv)
  refine ⟨⟨c, hb.calls, rfl, rfl, rfl, ?_⟩, hb.dropped, hb.forgotten, fun th l => ?_,
    fun th l hne => ?_, fun hzero => ?_, fun _ => ⟨hb.commits, ?_⟩⟩
  · have hne : s.depthOf thread lib ≠ 0 := by omega
    simp [c, hne]
  · simp only [depthOf, hlevel, hothers]
    split
    · rename_i heq
      obtain ⟨rfl, rfl⟩ := Prod.mk.injEq .. ▸ heq
      simp [hlv, hset.depth]
    · rfl
  · simp only [pendingOn, hlevel, if_neg hne, hothers]
    exact .refl _
  · omega
  · have hself := hlevel thread lib
    rw [if_pos rfl] at hself
    simp only [pendingOn, hself, hlv, Option.map_some, Option.getD_some]
    refine List.perm_iff_count.mpr fun n => ?_
    have hcount := hset.count n
    rw [hcalls, List.count_append] at hcount
    rw [List.count_append]
    omega

theorem track_tracked {s : State} (h : s.Inv fun _ => 0) (thread lib w t : Nat) (op : Op)
    (count dtype root redop : Int) (tag : Tag) (drop : Bool) :
    Tracked s (s.track thread lib w t op count dtype root redop tag drop) thread lib t := by
  unfold State.track
  have hcpos := s.nextCpos_books t op
  generalize s.nextCpos t op = numbered at hcpos ⊢
  obtain ⟨s', cpos⟩ := numbered
  have h' : s'.Inv fun _ => 0 := h.of_books hcpos
  refine SameGroups.tracked hcpos ?_
  dsimp only
  have hlevel : ∀ c : Call, level? { s' with calls := s'.calls ++ [c] } thread lib =
      s'.level? thread lib := fun _ => rfl
  simp only [hlevel]
  cases hlv : s'.level? thread lib with
  | some lv =>
      have hadd := groupAdd_tracked h' hlv w t
        ⟨op, 1, count, dtype, root, redop, callFp op count dtype root redop, cpos⟩ tag
      dsimp only
      split
      · exact hadd.of_books (frRecord_books _ _ _ _ _ _)
      · exact hadd
  | none =>
      have hzero : s'.depthOf thread lib = 0 := by simp [depthOf, hlv]
      have hempty : s'.pendingOn thread lib = [] := by simp [pendingOn, hlv]
      refine Tracked.of_books ?_ (watchCommit_books _ _ _ _ _ _ _ _)
      exact ⟨⟨_, rfl, rfl, rfl, rfl, by simp [hzero]⟩, rfl, rfl, fun _ _ => rfl,
        fun _ _ _ => .refl _, fun _ => ⟨hempty, _, rfl⟩, fun hne => absurd hzero hne⟩

/-! ## Steps -/

theorem level?_groupsForget (s : State) (w th l : Nat) :
    (s.groupsForget w).level? th l =
      (s.level? th l).map fun lv => { lv with folds := lv.folds.filter fun f => f.watch ≠ w } := by
  rw [level?, State.groupsForget]
  dsimp only
  rw [List.find?_map]
  rfl

theorem next_depth {s s' : State} {e : Event} (h : s.Inv fun _ => 0)
    (hnext : next s e = some s') (th l : Nat) :
    s'.depthOf th l = nestingStep th l (s.depthOf th l) e := by
  cases e with
  | groupStart thread lib ok =>
      cases hnext
      cases ok with
      | false => simp [nestingStep]
      | true =>
          simp only [nestingStep, if_true, (groupEnter_groups s thread lib).2 th l, and_true,
            eq_comm (a := th), eq_comm (a := l)]
          split
          · rename_i heq
            rw [heq.1, heq.2]
          · rfl
  | groupEnd thread lib w comms tag outcome drop =>
      simp only [next] at hnext
      split at hnext
      · rename_i hclosed
        cases hnext
        simp [nestingStep, hclosed]
      · rename_i hopen
        cases hnext
        obtain ⟨hsame, hinv⟩ := SameGroups.foldl_groupFrMark thread lib w tag comms h
        have hexit := groupExit_exited hinv thread lib (outcome = .submitted) drop
        by_cases heq : (th, l) = (thread, lib)
        · obtain ⟨rfl, rfl⟩ := Prod.mk.injEq .. ▸ heq
          rw [hexit.depth, hsame.depth]
          simp [nestingStep, hopen]
        · have hne : ¬ (thread = th ∧ lib = l) := fun h => heq (by rw [h.1, h.2])
          have hlevel := hexit.others th l heq
          rw [depthOf, hlevel, ← depthOf, hsame.depth]
          simp only [nestingStep]
          rw [if_neg fun h => hne ⟨h.1, h.2.1⟩]
  | track thread lib w t op count dtype root redop tag drop =>
      cases hnext
      exact (track_tracked h thread lib w t op count dtype root redop tag drop).depth th l
  | setFr w =>
      obtain ⟨-, heq⟩ := Option.ite_none_right_eq_some.mp hnext
      cases heq
      rfl
  | forget w =>
      cases hnext
      simp only [depthOf, level?_groupsForget, nestingStep, Option.map_map]
      rfl
  | complete t =>
      obtain ⟨-, heq⟩ := Option.ite_none_right_eq_some.mp hnext
      cases heq
      rfl
  | retire i =>
      simp only [next] at hnext
      split at hnext
      · obtain ⟨-, heq⟩ := Option.ite_none_right_eq_some.mp hnext
        cases heq
        exact (SameGroups.of_books (frModify_books _ _ _)).depth th l
      · cases hnext

theorem next_moves {s s' : State} {e : Event} (h : s.Inv fun _ => 0)
    (hnext : next s e = some s') : Moves s.depthOf s s' e := by
  cases e with
  | groupStart thread lib ok =>
      cases hnext
      cases ok with
      | false => exact ⟨rfl, rfl, rfl, rfl, fun _ _ => .refl _⟩
      | true =>
          obtain ⟨hc, hk, hd, hf⟩ := groupEnter_histories s thread lib
          exact ⟨hc, hk, hd, hf, (groupEnter_groups s thread lib).1⟩
  | groupEnd thread lib w comms tag outcome drop =>
      simp only [next] at hnext
      split at hnext
      · rename_i hclosed
        cases hnext
        refine ⟨rfl, rfl, fun _ _ _ => .refl _, ?_⟩
        rw [if_neg fun h => h.1 hclosed]
        exact ⟨rfl, rfl, .refl _⟩
      · rename_i hopen
        cases hnext
        obtain ⟨hsame, hinv⟩ := SameGroups.foldl_groupFrMark thread lib w tag comms h
        have hexit := groupExit_exited hinv thread lib (outcome = .submitted) drop
        generalize comms.foldl (fun s t => s.groupFrMark thread lib w t tag) s = marked at *
        refine ⟨hexit.calls.trans hsame.calls, hexit.forgotten.trans hsame.forgotten,
          fun th l hne => ?_, ?_⟩
        · rw [pendingOn, hexit.others th l hne, ← pendingOn]
          exact hsame.keep th l
        · by_cases hone : s.depthOf thread lib = 1
          · rw [if_pos ⟨hopen, hone⟩]
            obtain ⟨hnone, hyes, hno⟩ := hexit.outermost ((hsame.depth _ _).trans hone)
            refine ⟨by simp [pendingOn, hnone], ?_⟩
            split
            · rename_i hsub
              obtain ⟨hd, ks, hks, hgroup, htrackers, hcalls⟩ := hyes (decide_eq_true hsub)
              refine ⟨hd.trans hsame.dropped, ks, hsame.commits ▸ hks, hgroup, htrackers, ?_⟩
              rw [hcalls]
              exact hsame.keep thread lib
            · rename_i hsub
              obtain ⟨hk, hd⟩ := hno (decide_eq_false hsub)
              exact ⟨hk.trans hsame.commits, _, hsame.dropped ▸ hd, hsame.keep thread lib⟩
          · rw [if_neg fun h => hone h.2]
            obtain ⟨hk, hd, hp⟩ := hexit.inner fun h => hone ((hsame.depth _ _).symm.trans h)
            refine ⟨hk.trans hsame.commits, hd.trans hsame.dropped, ?_⟩
            rw [hp]
            exact hsame.keep thread lib
  | track thread lib w t op count dtype root redop tag drop =>
      cases hnext
      have htracked := track_tracked h thread lib w t op count dtype root redop tag drop
      refine ⟨htracked.call, htracked.dropped, htracked.forgotten, htracked.others, ?_⟩
      split
      · rename_i hzero
        exact htracked.outside hzero
      · rename_i hne
        exact htracked.inside hne
  | setFr w =>
      obtain ⟨-, heq⟩ := Option.ite_none_right_eq_some.mp hnext
      cases heq
      exact ⟨rfl, rfl, rfl, rfl, fun _ _ => .refl _⟩
  | forget w =>
      cases hnext
      exact ⟨rfl, rfl, rfl, List.prefix_append _ _⟩
  | complete t =>
      obtain ⟨-, heq⟩ := Option.ite_none_right_eq_some.mp hnext
      cases heq
      exact ⟨rfl, rfl, rfl, rfl, fun _ _ => .refl _⟩
  | retire i =>
      simp only [next] at hnext
      split at hnext
      · obtain ⟨-, heq⟩ := Option.ite_none_right_eq_some.mp hnext
        cases heq
        refine ⟨?_, ?_, ?_, ?_, (SameGroups.of_books (frModify_books _ _ _)).keep⟩
        · exact (frModify_books _ _ _).calls
        · exact (frModify_books _ _ _).commits
        · exact (frModify_books _ _ _).dropped
        · exact (frModify_books _ _ _).forgotten
      · cases hnext

/-- What is committed, dropped or forgotten stays so. -/
theorem moves_prefixes {depth : Nat → Nat → Nat} {s s' : State} {e : Event}
    (h : Moves depth s s' e) :
    s.commits <+: s'.commits ∧ s.dropped <+: s'.dropped ∧ s.forgotten <+: s'.forgotten := by
  have same : ∀ {α : Type} {l l' : List α}, l' = l → l <+: l' := fun h => h ▸ List.prefix_rfl
  cases e with
  | groupStart thread lib ok => exact ⟨same h.2.1, same h.2.2.1, same h.2.2.2.1⟩
  | groupEnd thread lib w comms tag outcome drop =>
      obtain ⟨-, hf, -, hrest⟩ := h
      refine ⟨?_, ?_, same hf⟩
      · split at hrest
        · obtain ⟨-, hrest⟩ := hrest
          split at hrest
          · obtain ⟨-, ks, hks, -⟩ := hrest
            exact ⟨ks, hks.symm⟩
          · exact same hrest.1
        · exact same hrest.1
      · split at hrest
        · obtain ⟨-, hrest⟩ := hrest
          split at hrest
          · exact same hrest.1
          · obtain ⟨-, ns, hns, -⟩ := hrest
            exact ⟨ns, hns.symm⟩
        · exact same hrest.2.1
  | track thread lib w t op count dtype root redop tag drop =>
      obtain ⟨-, hd, hf, -, hrest⟩ := h
      refine ⟨?_, same hd, same hf⟩
      split at hrest
      · obtain ⟨-, _, hk⟩ := hrest
        exact ⟨_, hk.symm⟩
      · exact same hrest.1
  | setFr w => exact ⟨same h.2.1, same h.2.2.1, same h.2.2.2.1⟩
  | forget w => exact ⟨same h.2.1, same h.2.2.1, h.2.2.2⟩
  | complete t => exact ⟨same h.2.1, same h.2.2.1, same h.2.2.2.1⟩
  | retire i => exact ⟨same h.2.1, same h.2.2.1, same h.2.2.2.1⟩

/-! ## Runs -/

/-- The depth of a group is its nesting. -/
theorem depth_eq_nesting {es : List Event} {s : State} (hrun : native.run .start es = some s) :
    s.depthOf = nesting es := by
  refine native.run_induction (P := fun es s => s.depthOf = nesting es) rfl ?_ hrun
  intro es s e t hes hdepth hnext
  have hinv := inv_of_reachable ⟨State.start, es, rfl, hes⟩
  funext th l
  rw [next_depth hinv hnext, nesting_concat, hdepth]

/-- A tracked call is in one place only, in an open fold of its communicator or in a
commit of it, until its group's end failed or its watch went.  The entry there is the
group's calls on the communicator folded in order.  A step moves the calls as `Moves`
says by the nesting so far, so that the entries of a group are committed at the
outermost end if it succeeds, and what was committed or dropped stays so. -/
theorem grouped_calls_committed_once {es : List Event} {s : State}
    (hrun : native.run .start es = some s) :
    (∀ n, s.times n = if n < s.calls.length then 1 else 0) ∧
    (∀ lv ∈ s.levels, (lv.folds.map GroupFold.tracker).Nodup ∧
      ∀ f ∈ lv.folds, FoldOk s.calls lv.thread lv.lib f) ∧
    (∀ k ∈ s.commits, CommitOk s.calls k) ∧
    (∀ e s', native.next s e = some s' → Moves (nesting es) s s' e) ∧
    ∀ fs u, native.run s fs = some u →
      s.commits <+: u.commits ∧ s.dropped <+: u.dropped ∧ s.forgotten <+: u.forgotten := by
  have hreach : native.Reachable s := ⟨State.start, es, rfl, hrun⟩
  have hinv := inv_of_reachable hreach
  refine ⟨hinv.places, fun lv hlv => ⟨hinv.trackers lv hlv, hinv.folds lv hlv⟩, hinv.commits,
    fun e s' hnext => ?_, fun fs u hfs => ?_⟩
  · rw [← depth_eq_nesting hrun]
    exact next_moves hinv hnext
  · refine System.run_relates (R := fun s u => s.commits <+: u.commits ∧
      s.dropped <+: u.dropped ∧ s.forgotten <+: u.forgotten) ?_ ?_ ?_ hreach hfs
    · exact fun s => ⟨List.prefix_rfl, List.prefix_rfl, List.prefix_rfl⟩
    · rintro s t u ⟨hk, hd, hf⟩ ⟨hk', hd', hf'⟩
      exact ⟨hk.trans hk', hd.trans hd', hf.trans hf'⟩
    · intro s e t hs hnext
      exact moves_prefixes (next_moves (inv_of_reachable hs) hnext)

/-- A thread's groups on two libraries, interleaved, with another thread's call outside
any; the second library submits its group and the first one fails. -/
def twoLibraries : List Event :=
  [.groupStart 1 10 true, .track 1 10 5 6 .allreduce 4 0 (-1) 0 .zero false,
    .groupStart 1 20 true, .track 1 20 7 8 .send 4 0 1 (-1) .zero false,
    .groupStart 1 10 true, .track 1 10 5 6 .allreduce 2 0 (-1) 0 .zero false,
    .groupEnd 1 10 5 [6] .zero .submitted fun _ => false,
    .track 2 10 5 6 .broadcast 3 0 0 (-1) .zero false,
    .groupEnd 1 20 7 [8] .zero .submitted fun _ => false,
    .groupEnd 1 10 5 [6] .zero .failed fun _ => false]

theorem grouped_calls_committed_once_twoLibraries :
    ∃ s, native.run .start twoLibraries = some s ∧ s.committed = [3, 1] ∧ s.dropped = [0, 2] ∧
      ∀ n, s.times n = if n < s.calls.length then 1 else 0 := by
  have hrun : (native.run .start twoLibraries).any
      (fun s => decide (s.committed = [3, 1] ∧ s.dropped = [0, 2])) = true := by
    decide
  obtain ⟨s, hs, hbooks⟩ := (Option.any_eq_true _ _).mp hrun
  obtain ⟨hcommitted, hdropped⟩ := of_decide_eq_true hbooks
  exact ⟨s, hs, hcommitted, hdropped, (grouped_calls_committed_once hs).1⟩

end TorchMojoBackend.Watchdog.Groups
