/-
  `Watchdog.Positions`: the collective positions of a communicator's calls, and the
  calls a committed entry spans.

  A compared collective takes the next position of its communicator when it is
  called, whatever group it is in, so the compared calls of a communicator have the
  positions from 1 on in order.  A thread's calls on a communicator come into the
  entries in runs: the entry of a group is folded from consecutive calls.  So an
  entry whose operation is a compared one spans the positions from that of its
  first call, as many as it has calls.
-/
import TorchMojoBackend.Watchdog.GroupCalls

set_option autoImplicit false

namespace TorchMojoBackend.Watchdog

/-! ## Entries of calls -/

/-- The arguments of a call. -/
structure CallArgs where
  op : Op
  count : Int
  dtype : Int
  root : Int
  redop : Int
  deriving DecidableEq

def Entry.args (e : Entry) : CallArgs := ⟨e.op, e.count, e.dtype, e.root, e.redop⟩

/-- The entry of a call with a position. -/
def CallArgs.entry (a : CallArgs) (cpos : Nat) : Entry :=
  ⟨a.op, 1, a.count, a.dtype, a.root, a.redop, callFp a.op a.count a.dtype a.root a.redop, cpos⟩

/-- A folded operation is a compared one only when both are that operation. -/
theorem Op.eq_of_fold_compared {g e : Op} (h : (g.fold e).compared = true) :
    g.fold e = g ∧ e = g := by
  unfold Op.fold at h ⊢
  by_cases heq : g = e
  · rw [if_pos heq]
    exact ⟨rfl, heq.symm⟩
  · rw [if_neg heq] at h
    split at h <;> cases h

/-- The calls of an entry with a compared operation are of that operation. -/
theorem Entry.op_of_foldAll {es : List Entry} (hone : ∀ e ∈ es, e.nops = 1)
    (h : (Entry.foldAll es).op.compared = true) : ∀ e ∈ es, e.op = (Entry.foldAll es).op := by
  induction es using List.reverseRecOn with
  | nil => exact fun e he => absurd he List.not_mem_nil
  | append_singleton es e ih =>
      have hes : ∀ x ∈ es, x.nops = 1 := fun x hx => hone x (List.mem_append_left _ hx)
      rw [Entry.foldAll_concat, Entry.fold, Entry.foldAll_nops es hes] at h ⊢
      intro x hx
      by_cases hnil : es.length = 0
      · rw [if_pos hnil] at h ⊢
        rw [List.eq_nil_of_length_eq_zero hnil, List.nil_append] at hx
        rw [List.mem_singleton.mp hx]
      · rw [if_neg hnil] at h ⊢
        obtain ⟨hfold, he⟩ := Op.eq_of_fold_compared h
        dsimp only at h ⊢
        rw [hfold] at h ⊢
        obtain hx | hx := List.mem_append.mp hx
        · exact ih hes h x hx
        · rw [List.mem_singleton.mp hx]
          exact he

/-- An entry has the position of its first call if that one has any. -/
theorem Entry.foldAll_cpos {e : Entry} (hcpos : e.cpos ≠ 0) (es : List Entry)
    (hone : ∀ x ∈ e :: es, x.nops = 1) : (Entry.foldAll (e :: es)).cpos = e.cpos := by
  induction es using List.reverseRecOn with
  | nil => rfl
  | append_singleton es x ih =>
      have hes : ∀ y ∈ e :: es, y.nops = 1 := fun y hy => hone y (by
        rw [← List.cons_append]
        exact List.mem_append_left _ hy)
      rw [← List.cons_append, Entry.foldAll_concat, Entry.fold,
        Entry.foldAll_nops (e :: es) hes, if_neg (by simp)]
      dsimp only
      rw [ih hes, if_neg hcpos]

namespace Groups

open TorchMojoBackend.Foundation TorchMojoBackend.FlightRecorder

/-! ## Positions -/

/-- The entries of the calls on a communicator, in order. -/
def callsOn (calls : List Call) (t : Nat) : List Entry :=
  (calls.filter fun c => c.tracker = t).map Call.entry

/-- Those of its compared calls. -/
def comparedOn (calls : List Call) (t : Nat) : List Entry :=
  (callsOn calls t).filter fun e => e.op.compared

/-- Positions count the compared calls of each communicator. -/
structure Numbered (s : State) : Prop where
  positions : ∀ t, (comparedOn s.calls t).map Entry.cpos = List.range' 1 (s.cpos t)
  entries : ∀ c ∈ s.calls, c.entry = c.entry.args.entry c.entry.cpos

theorem callsOn_concat (calls : List Call) (c : Call) (t : Nat) :
    callsOn (calls ++ [c]) t = callsOn calls t ++ (if c.tracker = t then [c.entry] else []) := by
  unfold callsOn
  rw [List.filter_append, List.map_append]
  by_cases ht : c.tracker = t <;> simp [ht]

theorem comparedOn_concat (calls : List Call) (c : Call) (t : Nat) :
    comparedOn (calls ++ [c]) t = comparedOn calls t ++
      (if c.tracker = t ∧ c.entry.op.compared = true then [c.entry] else []) := by
  unfold comparedOn
  rw [callsOn_concat, List.filter_append]
  by_cases ht : c.tracker = t <;> by_cases hc : c.entry.op.compared = true <;> simp [ht, hc]

/-! ### What keeps the positions -/

namespace State

@[simp] theorem frRecord_cpos (s : State) (w t : Nat) (e : Entry) (tag : Tag) (deferred : Bool) :
    (s.frRecord w t e tag deferred).1.cpos = s.cpos := by
  unfold frRecord
  split <;> rfl

@[simp] theorem frModify_cpos (s : State) (rid1 : Nat) (f : FrEntry → FrEntry) :
    (s.frModify rid1 f).cpos = s.cpos := by
  unfold frModify
  split <;> rfl

@[simp] theorem frLink_cpos (s : State) (rid1 link index : Nat) :
    (s.frLink rid1 link index).cpos = s.cpos := by
  unfold frLink
  split
  · rfl
  · exact s.frModify_cpos rid1 _

theorem foldl_frLink_cpos (link index : Nat) (rids : List Nat) (s : State) :
    (rids.foldl (fun s rid => s.frLink rid link index) s).cpos = s.cpos := by
  induction rids generalizing s with
  | nil => rfl
  | cons rid rids ih => rw [List.foldl_cons, ih, frLink_cpos]

@[simp] theorem frFlush_cpos (s : State) (w : Nat) (f : GroupFold) (tag : Tag) :
    (s.frFlush w f tag).1.cpos = s.cpos := by
  unfold frFlush
  split
  · rfl
  · exact s.frRecord_cpos w f.tracker f.entry tag true

@[simp] theorem frSubmit_cpos (s : State) (f : GroupFold) (index : Nat) :
    (s.frSubmit f index).1.cpos = s.cpos := by
  unfold frSubmit
  split
  · rfl
  · have hflush := s.frFlush_cpos f.watch f f.tag
    generalize s.frFlush f.watch f f.tag = flushed at hflush
    obtain ⟨s', f'⟩ := flushed
    dsimp only
    split
    · exact hflush
    · exact (foldl_frLink_cpos _ _ _ _).trans hflush

@[simp] theorem watchCommit_cpos (s : State) (w t : Nat) (e : Entry) (tag : Tag)
    (frRid index : Nat) (drop : Bool) :
    (s.watchCommit w t e tag frRid index drop).cpos = s.cpos := by
  unfold watchCommit
  have hrecord : (if frRid ≠ 0 then (s, frRid) else s.frRecord w t e tag false).1.cpos =
      s.cpos := by
    split
    · rfl
    · exact s.frRecord_cpos w t e tag false
  generalize (if frRid ≠ 0 then (s, frRid) else s.frRecord w t e tag false) = r at hrecord
  obtain ⟨s', fr⟩ := r
  dsimp only at hrecord ⊢
  have hsub : (if fr = 0 then s'
      else { s' with sub := Function.update s'.sub (fr - 1) (some index) }).cpos = s'.cpos := by
    split <;> rfl
  cases drop with
  | false => exact hsub.trans hrecord
  | true => exact ((frModify_cpos _ _ _).trans hsub).trans hrecord

@[simp] theorem setLevel_cpos (s : State) (lv : Level) : (s.setLevel lv).cpos = s.cpos := rfl

theorem groupEnter_cpos (s : State) (thread lib : Nat) :
    (s.groupEnter thread lib).cpos = s.cpos := by
  unfold groupEnter
  split <;> rfl

theorem groupAdd_cpos (s : State) (lv : Level) (w t : Nat) (e : Entry) (tag : Tag) (n : Nat) :
    (s.groupAdd lv w t e tag n).cpos = s.cpos := by
  have hflush : ∀ (c : Prop) [Decidable c] (f : GroupFold) (tag : Tag),
      (if c then s.frFlush w f tag else (s, f)).1.cpos = s.cpos := by
    intro c _ f tag
    split
    · exact s.frFlush_cpos w f tag
    · rfl
  unfold groupAdd
  dsimp only
  split
  · rfl
  · split
    · exact hflush _ _ _
    · exact hflush _ _ _

theorem groupFrMark_cpos (s : State) (thread lib w t : Nat) (tag : Tag) :
    (s.groupFrMark thread lib w t tag).cpos = s.cpos := by
  unfold groupFrMark
  split
  · split
    · exact s.frFlush_cpos _ _ _
    · rfl
  · rfl

theorem foldl_groupFrMark_cpos (thread lib w : Nat) (tag : Tag) (comms : List Nat) (s : State) :
    (comms.foldl (fun s t => s.groupFrMark thread lib w t tag) s).cpos = s.cpos := by
  induction comms generalizing s with
  | nil => rfl
  | cons t comms ih => rw [List.foldl_cons, ih, groupFrMark_cpos]

theorem commitFold_cpos (s : State) (lv : Level) (drop : Nat → Bool) (f : GroupFold) :
    (s.commitFold lv drop f).cpos = s.cpos := by
  have hsubmit := (s.submit f.tracker).frSubmit_cpos f (s.submitted f.tracker)
  unfold commitFold
  dsimp only
  generalize (s.submit f.tracker).frSubmit f (s.submitted f.tracker) = r at hsubmit ⊢
  obtain ⟨s', fr⟩ := r
  dsimp only at hsubmit ⊢
  split
  · exact (s'.watchCommit_cpos _ _ _ _ _ _ _).trans hsubmit
  · exact hsubmit

theorem groupExit_cpos (s : State) (thread lib : Nat) (submitted : Bool) (drop : Nat → Bool) :
    (s.groupExit thread lib submitted drop).cpos = s.cpos := by
  have hfolds : ∀ (lv : Level) (folds : List GroupFold) (u : State),
      (folds.foldl (fun s f => s.commitFold lv drop f) u).cpos = u.cpos := by
    intro lv folds
    induction folds with
    | nil => exact fun _ => rfl
    | cons f folds ih => exact fun u => (ih _).trans (u.commitFold_cpos lv drop f)
  unfold groupExit
  split
  · rfl
  · split
    · rfl
    · dsimp only
      split
      · exact hfolds _ _ _
      · rfl

/-- A call and its position. -/
theorem track_call (s : State) (thread lib w t : Nat) (op : Op) (count dtype root redop : Int)
    (tag : Tag) (drop : Bool) :
    let s' := s.track thread lib w t op count dtype root redop tag drop
    (∃ c : Call, s'.calls = s.calls ++ [c] ∧ c.thread = thread ∧ c.lib = lib ∧ c.tracker = t ∧
      c.entry = (⟨op, count, dtype, root, redop⟩ : CallArgs).entry (s.nextCpos t op).2) ∧
    s'.cpos = (s.nextCpos t op).1.cpos := by
  have hb := s.nextCpos_books t op
  unfold track
  dsimp only
  generalize s.nextCpos t op = numbered at hb ⊢
  obtain ⟨s', cpos⟩ := numbered
  dsimp only at hb ⊢
  split
  · rename_i lv hlv
    obtain ⟨u, f, hbu, -, -, -, heq⟩ := groupAdd_spec
      { s' with calls := s'.calls ++ [⟨thread, lib, w, t,
        ⟨op, 1, count, dtype, root, redop, callFp op count dtype root redop, cpos⟩,
        (s'.level? thread lib).isSome⟩] } lv w t
      ⟨op, 1, count, dtype, root, redop, callFp op count dtype root redop, cpos⟩ tag
      s'.calls.length
    have hcalls := congrArg State.calls heq
    have hcpos := groupAdd_cpos
      { s' with calls := s'.calls ++ [⟨thread, lib, w, t,
        ⟨op, 1, count, dtype, root, redop, callFp op count dtype root redop, cpos⟩,
        (s'.level? thread lib).isSome⟩] } lv w t
      ⟨op, 1, count, dtype, root, redop, callFp op count dtype root redop, cpos⟩ tag
      s'.calls.length
    split
    · rw [(frRecord_books _ _ _ _ _ _).calls, frRecord_cpos]
      exact ⟨⟨_, (hcalls.trans hbu.calls).trans (by rw [hb.calls]), rfl, rfl, rfl, rfl⟩, hcpos⟩
    · exact ⟨⟨_, (hcalls.trans hbu.calls).trans (by rw [hb.calls]), rfl, rfl, rfl, rfl⟩, hcpos⟩
  · rw [(watchCommit_books _ _ _ _ _ _ _ _).calls, watchCommit_cpos]
    exact ⟨⟨_, congrArg (· ++ _) hb.calls, rfl, rfl, rfl, rfl⟩, rfl⟩

end State

theorem Numbered.of_eq {s s' : State} (h : Numbered s) (hcalls : s'.calls = s.calls)
    (hcpos : s'.cpos = s.cpos) : Numbered s' := by
  refine ⟨fun t => ?_, hcalls ▸ h.entries⟩
  rw [hcalls, hcpos]
  exact h.positions t

/-- A compared call takes the next position of its communicator. -/
theorem Numbered.track {s : State} (h : Numbered s) (thread lib w t : Nat) (op : Op)
    (count dtype root redop : Int) (tag : Tag) (drop : Bool) :
    Numbered (s.track thread lib w t op count dtype root redop tag drop) := by
  obtain ⟨⟨c, hcalls, -, -, ht, hentry⟩, hcpos⟩ :=
    s.track_call thread lib w t op count dtype root redop tag drop
  generalize s.track thread lib w t op count dtype root redop tag drop = s' at hcalls hcpos ⊢
  have hop : c.entry.op = op := by rw [hentry]; rfl
  refine ⟨fun t' => ?_, fun d hd => ?_⟩
  · rw [hcalls, comparedOn_concat, List.map_append, h.positions, hcpos, hop, ht, hentry]
    unfold State.nextCpos
    by_cases hcompared : op.compared = true
    · rw [if_pos hcompared]
      dsimp only
      by_cases heq : t = t'
      · obtain rfl := heq
        rw [if_pos ⟨rfl, hcompared⟩, Function.update_self, List.range'_concat, Nat.one_mul,
          Nat.add_comm 1]
        rfl
      · rw [if_neg fun hc => heq hc.1, Function.update_of_ne (Ne.symm heq)]
        exact List.append_nil _
    · rw [if_neg hcompared, if_neg fun hc => hcompared hc.2]
      exact List.append_nil _
  · rw [hcalls] at hd
    obtain hd | hd := List.mem_append.mp hd
    · exact h.entries d hd
    · rw [List.mem_singleton.mp hd, hentry]
      rfl

theorem Numbered.next {s s' : State} {e : Event} (h : Numbered s) (hinv : s.Inv fun _ => 0)
    (hnext : next s e = some s') : Numbered s' := by
  cases e with
  | groupStart thread lib ok =>
      cases hnext
      split
      · exact h.of_eq (groupEnter_histories s thread lib).1 (s.groupEnter_cpos thread lib)
      · exact h
  | groupEnd thread lib w comms tag outcome drop =>
      simp only [Groups.next] at hnext
      split at hnext
      · cases hnext
        exact h
      · cases hnext
        obtain ⟨hsame, hinv'⟩ := SameGroups.foldl_groupFrMark thread lib w tag comms hinv
        refine h.of_eq ?_ ?_
        · exact (groupExit_exited hinv' thread lib _ drop).calls.trans hsame.calls
        · rw [State.groupExit_cpos, State.foldl_groupFrMark_cpos]
  | track thread lib w t op count dtype root redop tag drop =>
      cases hnext
      exact h.track thread lib w t op count dtype root redop tag drop
  | setFr w =>
      obtain ⟨-, heq⟩ := Option.ite_none_right_eq_some.mp hnext
      cases heq
      exact h.of_eq rfl rfl
  | forget w =>
      cases hnext
      exact h.of_eq rfl rfl
  | complete t =>
      obtain ⟨-, heq⟩ := Option.ite_none_right_eq_some.mp hnext
      cases heq
      exact h.of_eq rfl rfl
  | retire i =>
      simp only [Groups.next] at hnext
      split at hnext
      · obtain ⟨-, heq⟩ := Option.ite_none_right_eq_some.mp hnext
        cases heq
        exact h.of_eq (State.frModify_books _ _ _).calls (State.frModify_cpos _ _ _)
      · cases hnext

theorem numbered_of_reachable {s : State} (hs : native.Reachable s) : Numbered s := by
  refine hs.invariant ?_ ?_
  · rintro s rfl
    exact ⟨fun _ => rfl, fun c hc => absurd hc List.not_mem_nil⟩
  · intro s e s' hs hn hnext
    exact hn.next (inv_of_reachable hs) hnext

/-! ## Runs of calls -/

/-- The entries of a thread's calls on a library and communicator, in order. -/
def threadOn (calls : List Call) (thread lib t : Nat) : List Entry :=
  (calls.filter fun c => c.thread = thread ∧ c.lib = lib ∧ c.tracker = t).map Call.entry

theorem threadOn_concat (calls : List Call) (c : Call) (thread lib t : Nat) :
    threadOn (calls ++ [c]) thread lib t = threadOn calls thread lib t ++
      (if c.thread = thread ∧ c.lib = lib ∧ c.tracker = t then [c.entry] else []) := by
  unfold threadOn
  rw [List.filter_append, List.map_append]
  by_cases hc : c.thread = thread ∧ c.lib = lib ∧ c.tracker = t
  · rw [if_pos hc, List.filter_cons, if_pos (decide_eq_true hc)]
    rfl
  · rw [if_neg hc, List.filter_cons, if_neg (by simpa using hc)]
    rfl

/-- Entries are folded from a thread's calls in a row; those of an open group end with its
latest one. -/
structure InRuns (s : State) : Prop where
  folds : ∀ lv ∈ s.levels, ∀ f ∈ lv.folds,
    entriesOf s.calls f.calls <:+ threadOn s.calls lv.thread lv.lib f.tracker
  commits : ∀ k ∈ s.commits, ∃ thread lib,
    entriesOf s.calls k.calls <:+: threadOn s.calls thread lib k.tracker

/-- A fold of one of the levels, as another one has it. -/
def FoldsOf (levels : List Level) (lv : Level) (f : GroupFold) : Prop :=
  ∃ lv₀ ∈ levels, ∃ f₀ ∈ lv₀.folds, lv.thread = lv₀.thread ∧ lv.lib = lv₀.lib ∧
    f.tracker = f₀.tracker ∧ f.calls = f₀.calls

theorem FoldsOf.refl {levels : List Level} {lv : Level} (hlv : lv ∈ levels) {f : GroupFold}
    (hf : f ∈ lv.folds) : FoldsOf levels lv f := ⟨lv, hlv, f, hf, rfl, rfl, rfl, rfl⟩

theorem InRuns.of_folds {s s' : State} (h : InRuns s) (hcalls : s'.calls = s.calls)
    (hcommits : s'.commits = s.commits)
    (hlevels : ∀ lv ∈ s'.levels, ∀ f ∈ lv.folds, FoldsOf s.levels lv f) : InRuns s' := by
  refine ⟨fun lv hlv f hf => ?_, ?_⟩
  · obtain ⟨lv₀, hlv₀, f₀, hf₀, hthread, hlib, htracker, heq⟩ := hlevels lv hlv f hf
    rw [hcalls, hthread, hlib, htracker, heq]
    exact h.folds lv₀ hlv₀ f₀ hf₀
  · rw [hcalls, hcommits]
    exact h.commits

theorem InRuns.of_books {s s' : State} (h : InRuns s) (hb : SameBooks s s') : InRuns s' :=
  h.of_folds hb.calls hb.commits fun _ hlv _ hf => .refl (hb.levels ▸ hlv) hf

/-- A level after one has been replaced. -/
theorem mem_setLevel {s : State} {lv l : Level} (h : l ∈ (s.setLevel lv).levels) :
    l = lv ∨ l ∈ s.levels ∧ ¬ (l.thread = lv.thread ∧ l.lib = lv.lib) := by
  obtain ⟨l₀, hl₀, rfl⟩ := List.mem_map.mp h
  by_cases hkey : l₀.thread = lv.thread ∧ l₀.lib = lv.lib
  · rw [if_pos hkey]
    exact .inl rfl
  · rw [if_neg hkey]
    exact .inr ⟨hl₀, hkey⟩

theorem InRuns.groupFrMark {s : State} (h : InRuns s) {extra : Nat → Nat} (hinv : s.Inv extra)
    (thread lib w t : Nat) (tag : Tag) : InRuns (s.groupFrMark thread lib w t tag) := by
  unfold State.groupFrMark
  split
  · rename_i lv _ hlv
    split
    · rename_i f hfind
      have hb := s.frFlush_books w f tag
      have hf := s.frFlush_fold w f tag
      generalize s.frFlush w f tag = flushed at hb hf ⊢
      obtain ⟨s', f'⟩ := flushed
      have hmem := State.level?_mem hlv
      have hset := Level.setFold_spec (hinv.trackers lv hmem) w (f := f')
      refine h.of_folds hb.calls hb.commits fun l hl g hg => ?_
      obtain rfl | ⟨hl, -⟩ := mem_setLevel hl
      · refine ⟨lv, hmem, ?_⟩
        obtain rfl | ⟨hg, -⟩ := hset.others hg
        · exact ⟨f, List.mem_of_find?_eq_some hfind, hset.thread, hset.lib, hf.tracker, hf.calls⟩
        · exact ⟨g, hg, hset.thread, hset.lib, rfl, rfl⟩
      · exact .refl (hb.levels ▸ hl) hg
    · exact h
  · exact h

theorem InRuns.foldl_groupFrMark (thread lib w : Nat) (tag : Tag) (comms : List Nat)
    {s : State} (h : InRuns s) (hinv : s.Inv fun _ => 0) :
    InRuns (comms.foldl (fun s t => s.groupFrMark thread lib w t tag) s) := by
  induction comms generalizing s with
  | nil => exact h
  | cons t comms ih =>
      exact ih (h.groupFrMark hinv thread lib w t tag) (hinv.groupFrMark thread lib w t tag)

theorem InRuns.groupExit {s : State} (h : InRuns s) (hinv : s.Inv fun _ => 0)
    (thread lib : Nat) (submitted : Bool) (drop : Nat → Bool) :
    InRuns (s.groupExit thread lib submitted drop) := by
  obtain ⟨-, heq⟩ | ⟨lv, hlv, ⟨-, heq⟩ | ⟨-, hlevels, hcalls, -, hyes, hno⟩⟩ :=
    State.groupExit_cases hinv thread lib submitted drop
  · rw [heq]
    exact h
  · rw [heq]
    refine h.of_folds rfl rfl fun l hl f hf => ?_
    obtain rfl | ⟨hl, -⟩ := mem_setLevel hl
    · exact ⟨lv, State.level?_mem hlv, f, hf, rfl, rfl, rfl, rfl⟩
    · exact .refl hl hf
  · refine ⟨fun l hl f hf => ?_, fun k hk => ?_⟩
    · rw [hlevels] at hl
      rw [hcalls]
      exact h.folds l (List.mem_filter.mp hl).1 f hf
    · rw [hcalls]
      cases submitted with
      | false => exact h.commits k ((hno rfl).1 ▸ hk)
      | true =>
          rw [(hyes rfl).2] at hk
          obtain hk | hk := List.mem_append.mp hk
          · exact h.commits k hk
          · -- the group's entries end where their threads are
            obtain ⟨f, hf, rfl⟩ := List.mem_map.mp hk
            exact ⟨_, _, (h.folds lv (State.level?_mem hlv) f hf).isInfix⟩

/-- A call of another group or communicator does not come into a fold. -/
theorem InRuns.concat_fold {s : State} (h : InRuns s) {extra : Nat → Nat} (hinv : s.Inv extra)
    {lv : Level} (hlv : lv ∈ s.levels) {f : GroupFold} (hf : f ∈ lv.folds) {c : Call}
    (hne : ¬ (c.thread = lv.thread ∧ c.lib = lv.lib ∧ c.tracker = f.tracker)) :
    entriesOf (s.calls ++ [c]) f.calls <:+
      threadOn (s.calls ++ [c]) lv.thread lv.lib f.tracker := by
  rw [threadOn_concat, if_neg hne, List.append_nil, entriesOf_concat c fun n hn => ?_]
  · exact h.folds lv hlv f hf
  · obtain ⟨d, hd, -⟩ := (hinv.folds lv hlv f hf).mem n hn
    exact (List.getElem?_eq_some_iff.mp hd).1

/-- Later calls leave the commits as they are. -/
theorem InRuns.concat_commit {s : State} (h : InRuns s) {extra : Nat → Nat} (hinv : s.Inv extra)
    {k : Commit} (hk : k ∈ s.commits) (c : Call) : ∃ thread lib,
      entriesOf (s.calls ++ [c]) k.calls <:+: threadOn (s.calls ++ [c]) thread lib k.tracker := by
  obtain ⟨thread, lib, hrun⟩ := h.commits k hk
  refine ⟨thread, lib, ?_⟩
  rw [threadOn_concat, entriesOf_concat c fun n hn => ?_]
  · exact hrun.trans (List.prefix_append _ _).isInfix
  · obtain ⟨d, hd, -⟩ := (hinv.commits k hk).mem n hn
    exact (List.getElem?_eq_some_iff.mp hd).1

/-- A call in a group joins the end of its thread's run. -/
theorem InRuns.groupAdd {s : State} (h : InRuns s) {extra : Nat → Nat} (hinv : s.Inv extra)
    {thread lib : Nat} {lv : Level} (hlv : s.level? thread lib = some lv) (w t : Nat) (e : Entry)
    (tag : Tag) :
    InRuns (State.groupAdd { s with calls := s.calls ++ [⟨thread, lib, w, t, e, true⟩] }
      lv w t e tag s.calls.length) := by
  obtain ⟨u, f, hb, htracker, -, hcalls, heq⟩ := State.groupAdd_spec
    { s with calls := s.calls ++ [⟨thread, lib, w, t, e, true⟩] } lv w t e tag s.calls.length
  have hmem := State.level?_mem hlv
  obtain ⟨hthread, hlib, -⟩ := hinv.split hlv
  have hset := Level.setFold_spec (hinv.trackers lv hmem) w (f := f)
  rw [heq]
  refine ⟨fun l hl g hg => ?_, fun k hk => ?_⟩
  · change entriesOf u.calls g.calls <:+ threadOn u.calls l.thread l.lib g.tracker
    rw [hb.calls]
    obtain rfl | ⟨hl, hkey⟩ := mem_setLevel hl
    · rw [hset.thread, hset.lib]
      obtain rfl | ⟨hg, hne⟩ := hset.others hg
      · -- the fold so far ends with the thread's latest call
        have hold : entriesOf s.calls (lv.foldOf w t).calls <:+ threadOn s.calls thread lib t ∧
            ∀ n ∈ (lv.foldOf w t).calls, n < s.calls.length := by
          obtain hf | ⟨hfresh, -⟩ := lv.foldOf_cases w t
          · have hrun := h.folds lv hmem _ hf
            rw [hthread, hlib, lv.foldOf_tracker w t] at hrun
            refine ⟨hrun, fun n hn => ?_⟩
            obtain ⟨d, hd, -⟩ := (hinv.folds lv hmem _ hf).mem n hn
            exact (List.getElem?_eq_some_iff.mp hd).1
          · rw [hfresh]
            exact ⟨List.nil_suffix, fun n hn => absurd hn List.not_mem_nil⟩
        obtain ⟨⟨before, hbefore⟩, hlt⟩ := hold
        have hlast : entriesOf (s.calls ++ [(⟨thread, lib, w, t, e, true⟩ : Call)])
            [s.calls.length] = [e] := by
          simp [entriesOf]
        rw [hcalls, entriesOf_append, hlast, entriesOf_concat _ hlt, htracker, threadOn_concat,
          hthread, hlib, if_pos ⟨rfl, rfl, rfl⟩, ← hbefore, List.append_assoc]
        exact List.suffix_append _ _
      · refine h.concat_fold hinv hmem hg ?_
        rw [htracker] at hne
        exact fun hc => hne hc.2.2.symm
    · rw [hset.thread, hset.lib, hthread, hlib] at hkey
      have hl : l ∈ s.levels := hb.levels ▸ hl
      exact h.concat_fold hinv hl hg fun hc => hkey ⟨hc.1.symm, hc.2.1.symm⟩
  · change ∃ thread lib, entriesOf u.calls k.calls <:+: threadOn u.calls thread lib k.tracker
    rw [hb.calls]
    have hk : k ∈ s.commits := hb.commits ▸ hk
    exact h.concat_commit hinv hk _

theorem InRuns.track {s : State} (h : InRuns s) (hinv : s.Inv fun _ => 0)
    (thread lib w t : Nat) (op : Op) (count dtype root redop : Int) (tag : Tag) (drop : Bool) :
    InRuns (s.track thread lib w t op count dtype root redop tag drop) := by
  unfold State.track
  have hcpos := s.nextCpos_books t op
  generalize s.nextCpos t op = numbered at hcpos ⊢
  obtain ⟨s', cpos⟩ := numbered
  have h' : InRuns s' := h.of_books hcpos
  have hinv' : s'.Inv fun _ => 0 := hinv.of_books hcpos
  dsimp only
  generalize (⟨op, 1, count, dtype, root, redop, callFp op count dtype root redop, cpos⟩ :
    Entry) = e
  have hlevel : ∀ c : Call, State.level? { s' with calls := s'.calls ++ [c] } thread lib =
      s'.level? thread lib := fun _ => rfl
  simp only [hlevel]
  cases hlv : s'.level? thread lib with
  | some lv =>
      have hadd := h'.groupAdd hinv' hlv w t e tag
      dsimp only
      split
      · exact hadd.of_books (State.frRecord_books _ _ _ _ _ _)
      · exact hadd
  | none =>
      refine InRuns.of_books ?_ (State.watchCommit_books _ _ _ _ _ _ _ _)
      refine ⟨fun l hl g hg => ?_, fun k hk => ?_⟩
      · refine h'.concat_fold hinv' hl hg fun hc => ?_
        have hnone := List.find?_eq_none.mp hlv l hl
        exact hnone (decide_eq_true ⟨hc.1.symm, hc.2.1.symm⟩)
      · obtain hk | hk := List.mem_append.mp hk
        · exact h'.concat_commit hinv' hk _
        · rw [List.mem_singleton.mp hk]
          refine ⟨thread, lib, ?_⟩
          have hlast : entriesOf (s'.calls ++ [(⟨thread, lib, w, t, e, false⟩ : Call)])
              [s'.calls.length] = [e] := by
            simp [entriesOf]
          change entriesOf (s'.calls ++ [(⟨thread, lib, w, t, e, false⟩ : Call)])
            [s'.calls.length] <:+: threadOn (s'.calls ++ [_]) thread lib t
          rw [hlast, threadOn_concat, if_pos ⟨rfl, rfl, rfl⟩]
          exact (List.suffix_append _ _).isInfix

theorem InRuns.next {s s' : State} {e : Event} (h : InRuns s) (hinv : s.Inv fun _ => 0)
    (hnext : next s e = some s') : InRuns s' := by
  cases e with
  | groupStart thread lib ok =>
      cases hnext
      split
      · obtain ⟨hcalls, hcommits, -⟩ := groupEnter_histories s thread lib
        refine h.of_folds hcalls hcommits fun l hl f hf => ?_
        unfold State.groupEnter at hl
        split at hl
        · rename_i lv hlv
          obtain rfl | ⟨hl, -⟩ := mem_setLevel hl
          · exact ⟨lv, State.level?_mem hlv, f, hf, rfl, rfl, rfl, rfl⟩
          · exact .refl hl hf
        · obtain hl | hl := List.mem_append.mp hl
          · exact .refl hl hf
          · rw [List.mem_singleton.mp hl] at hf
            exact absurd hf List.not_mem_nil
      · exact h
  | groupEnd thread lib w comms tag outcome drop =>
      simp only [Groups.next] at hnext
      split at hnext
      · cases hnext
        exact h
      · cases hnext
        obtain ⟨-, hinv'⟩ := SameGroups.foldl_groupFrMark thread lib w tag comms hinv
        exact (h.foldl_groupFrMark thread lib w tag comms hinv).groupExit hinv' thread lib _ drop
  | track thread lib w t op count dtype root redop tag drop =>
      cases hnext
      exact h.track hinv thread lib w t op count dtype root redop tag drop
  | setFr w =>
      obtain ⟨-, heq⟩ := Option.ite_none_right_eq_some.mp hnext
      cases heq
      exact h.of_books ⟨rfl, rfl, rfl, rfl, rfl⟩
  | forget w =>
      cases hnext
      refine h.of_folds rfl rfl fun l hl f hf => ?_
      obtain ⟨l₀, hl₀, rfl⟩ := List.mem_map.mp hl
      exact ⟨l₀, hl₀, f, (List.mem_filter.mp hf).1, rfl, rfl, rfl, rfl⟩
  | complete t =>
      obtain ⟨-, heq⟩ := Option.ite_none_right_eq_some.mp hnext
      cases heq
      exact h.of_books ⟨rfl, rfl, rfl, rfl, rfl⟩
  | retire i =>
      simp only [Groups.next] at hnext
      split at hnext
      · obtain ⟨-, heq⟩ := Option.ite_none_right_eq_some.mp hnext
        cases heq
        exact h.of_books (State.frModify_books _ _ _)
      · cases hnext

theorem inRuns_of_reachable {s : State} (hs : native.Reachable s) : InRuns s := by
  refine hs.invariant ?_ ?_
  · rintro s rfl
    exact ⟨fun lv hlv => absurd hlv List.not_mem_nil, fun k hk => absurd hk List.not_mem_nil⟩
  · intro s e s' hs hruns hnext
    exact hruns.next (inv_of_reachable hs) hnext

/-! ## What an entry spans -/

/-- The calls on a communicator are a sequence: those of one thread. -/
def OneThread (s : State) (t : Nat) : Prop :=
  ∃ thread lib, ∀ c ∈ s.calls, c.tracker = t → c.thread = thread ∧ c.lib = lib

/-- The calls of a commit are consecutive ones of its communicator. -/
theorem commit_run {s : State} (hs : native.Reachable s) {k : Commit} (hk : k ∈ s.commits)
    (hone : OneThread s k.tracker) :
    entriesOf s.calls k.calls <:+: callsOn s.calls k.tracker := by
  obtain ⟨thread, lib, hrun⟩ := (inRuns_of_reachable hs).commits k hk
  obtain ⟨thread₀, lib₀, hone⟩ := hone
  by_cases hsame : thread = thread₀ ∧ lib = lib₀
  · obtain ⟨rfl, rfl⟩ := hsame
    have hall : threadOn s.calls thread lib k.tracker = callsOn s.calls k.tracker := by
      unfold threadOn callsOn
      congr 1
      refine List.filter_congr fun c hc => ?_
      simp only [decide_eq_decide]
      exact ⟨fun h => h.2.2, fun h => ⟨(hone c hc h).1, (hone c hc h).2, h⟩⟩
    exact hall ▸ hrun
  · have hnone : threadOn s.calls thread lib k.tracker = [] := by
      refine List.map_eq_nil_iff.mpr (List.filter_eq_nil_iff.mpr fun c hc h => hsame ?_)
      obtain ⟨hthread, hlib, ht⟩ := of_decide_eq_true h
      obtain ⟨hthread₀, hlib₀⟩ := hone c hc ht
      exact ⟨hthread.symm.trans hthread₀, hlib.symm.trans hlib₀⟩
    rw [hnone] at hrun
    rw [List.infix_nil.mp hrun]
    exact List.nil_infix

/-- The `i`th compared call has position `i + 1`, and its arguments give the rest. -/
theorem Numbered.eq_entry {s : State} (h : Numbered s) {t i : Nat} {e : Entry}
    (he : (comparedOn s.calls t)[i]? = some e) : e = e.args.entry (i + 1) := by
  have hcpos : e.cpos = i + 1 := by
    have hpos : (List.range' 1 (s.cpos t))[i]? = some e.cpos := by
      rw [← h.positions t, List.getElem?_map, he, Option.map_some]
    obtain ⟨hlt, hval⟩ := List.getElem?_eq_some_iff.mp hpos
    rw [List.getElem_range'] at hval
    omega
  obtain ⟨hmem, -⟩ := List.mem_filter.mp (List.mem_of_getElem? he)
  obtain ⟨c, hc, rfl⟩ := List.mem_map.mp hmem
  have hentry := h.entries c (List.mem_filter.mp hc).1
  rw [hcpos] at hentry
  exact hentry

/-- A communicator's compared calls that begin with another one's arguments begin with its
entries. -/
theorem Numbered.begins {s s' : State} (h : Numbered s) (h' : Numbered s') {t t' : Nat}
    (hargs : (comparedOn s.calls t).map Entry.args <+: (comparedOn s'.calls t').map Entry.args) :
    comparedOn s.calls t <+: comparedOn s'.calls t' := by
  refine List.prefix_iff_getElem?.mpr fun i hi => ?_
  have hget : (comparedOn s.calls t)[i]? = some (comparedOn s.calls t)[i] :=
    List.getElem?_eq_getElem hi
  have hargs' := List.prefix_iff_getElem?.mp hargs i (by rwa [List.length_map])
  rw [List.getElem?_map, List.getElem_map] at hargs'
  obtain ⟨e, he, heq⟩ := Option.map_eq_some_iff.mp hargs'
  rw [he, h.eq_entry hget, h'.eq_entry he, heq]

/-- An entry with a compared operation is folded from the calls with the positions from its
own on. -/
theorem commit_span {s : State} (hs : native.Reachable s) {k : Commit} (hk : k ∈ s.commits)
    (hone : OneThread s k.tracker) (hop : k.entry.op.compared = true) :
    0 < k.entry.cpos ∧ (entriesOf s.calls k.calls).length = k.entry.nops ∧
      entriesOf s.calls k.calls =
        ((comparedOn s.calls k.tracker).drop (k.entry.cpos - 1)).take k.entry.nops := by
  have hinv := inv_of_reachable hs
  have hok := hinv.commits k hk
  have hrun := commit_run hs hk hone
  have hnops := entriesOf_nops hinv.one k.calls
  have hne : entriesOf s.calls k.calls ≠ [] := by
    obtain ⟨n, ns, hns⟩ := List.exists_cons_of_ne_nil hok.nonempty
    obtain ⟨c, hc, -⟩ := hok.mem n (hns ▸ List.mem_cons_self)
    simp [hns, entriesOf, hc]
  have hentry := hok.entry
  generalize entriesOf s.calls k.calls = es at *
  rw [hentry] at hop
  have hcompared : es.filter (fun e => e.op.compared) = es :=
    List.filter_eq_self.mpr fun e he => Entry.op_of_foldAll hnops hop e he ▸ hop
  have hrun' : es <:+: comparedOn s.calls k.tracker := hcompared ▸ hrun.filter _
  obtain ⟨a, b, hab⟩ := hrun'
  obtain ⟨e, es, rfl⟩ := List.exists_cons_of_ne_nil hne
  have hfirst : (comparedOn s.calls k.tracker)[a.length]? = some e := by
    rw [← hab, List.append_assoc, List.getElem?_append_right (Nat.le_refl _), Nat.sub_self]
    rfl
  have hcpos : e.cpos = a.length + 1 := by
    have := (numbered_of_reachable hs).eq_entry hfirst
    rw [this]
    rfl
  have hk' : k.entry.cpos = a.length + 1 := by
    rw [hentry, Entry.foldAll_cpos (by omega) es hnops, hcpos]
  have hlength : k.entry.nops = (e :: es).length := by
    rw [hentry, Entry.foldAll_nops _ hnops]
  refine ⟨by omega, hlength.symm, ?_⟩
  rw [hk', hlength, Nat.add_sub_cancel, ← hab, List.append_assoc, List.drop_left, List.take_left]

end Groups

end TorchMojoBackend.Watchdog
