/-
  `Watchdog.Groups`: library calls inside NCCL groups.

  A call made inside a group of its thread on its library is not enqueued before
  the outermost group end, so the watchdog folds it into one entry for each
  communicator and commits that entry there.  The table of open groups is one for
  the process, under the backend mutex: a level for each thread and library, with
  its depth and its folds.  The flight recorder's entries of the folded operations
  are made when the operations end and linked to their commit at the group's end.

  The ring of the flight recorder is unbounded here; its wrap-around is the
  subject of `FlightRecorder.Ring`.
-/
import TorchMojoBackend.FlightRecorder.Record
import TorchMojoBackend.Foundation.Transition
import Mathlib.Logic.Function.Basic

set_option autoImplicit false

namespace TorchMojoBackend.Watchdog.Groups

open TorchMojoBackend.Foundation TorchMojoBackend.FlightRecorder

/-! ## The state -/

/-- One communicator in a thread's open group.  `commit` is the entry the outermost
end commits; `entry`, `tag` and `members` describe the operation in progress for the
flight recorder, `rids` the entries it already made.  `calls` lists the calls in
`commit`. -/
structure GroupFold where
  watch : Nat
  tracker : Nat
  commit : Entry
  entry : Entry
  tag : Tag
  members : Bool
  rids : List Nat
  calls : List Nat

/-- A thread's open group on a library. -/
structure Level where
  thread : Nat
  lib : Nat
  depth : Nat
  folds : List GroupFold

/-- A tracked library call, as the history keeps it: `grouped` when it was made
inside a group of its thread on its library. -/
structure Call where
  thread : Nat
  lib : Nat
  watch : Nat
  tracker : Nat
  entry : Entry
  grouped : Bool

/-- An entry handed to `watch_commit`, with the calls in it and the group that ended. -/
structure Commit where
  tracker : Nat
  entry : Entry
  calls : List Nat
  group : Option (Nat × Nat)

/-- What the watchdog waits for: the `index`th submission on a communicator's stream
and the ring entry it stamps. -/
structure Queued where
  tracker : Nat
  index : Nat
  fr : Nat

/-- The watchdog's and the flight recorder's state of a process.  `counters` is
`none` for a group that does not record.  `submitted` and `completed` count the
operations of each comm stream; `sub` is the submission an entry of the ring belongs
to, once there is one.  `calls`, `commits`, `dropped` and `forgotten` are histories:
the last two are the calls of groups whose end failed and of watches that went. -/
structure State where
  levels : List Level
  cpos : Nat → Nat
  counters : Nat → Option Counters
  ring : List FrEntry
  queue : List Queued
  submitted : Nat → Nat
  completed : Nat → Nat
  sub : Nat → Option Nat
  calls : List Call
  commits : List Commit
  dropped : List Nat
  forgotten : List Nat

/-- A process before its first call. -/
def State.start : State where
  levels := []
  cpos _ := 0
  counters _ := none
  ring := []
  queue := []
  submitted _ := 0
  completed _ := 0
  sub _ := none
  calls := []
  commits := []
  dropped := []
  forgotten := []

namespace State

/-! ## The flight recorder -/

/-- `fr_commit`, `fr_deferred` and `fr_member`: a new entry and its id plus one, 0 when
the group does not record. -/
def frRecord (s : State) (w t : Nat) (e : Entry) (tag : Tag) (deferred : Bool) : State × Nat :=
  match s.counters w with
  | none => (s, 0)
  | some c =>
    let (c, entry) := c.record w e false t tag deferred
    ({ s with counters := Function.update s.counters w (some c), ring := s.ring ++ [entry] },
      s.ring.length + 1)

/-- A change of the entry `rid1` names, if any. -/
def frModify (s : State) (rid1 : Nat) (f : FrEntry → FrEntry) : State :=
  if rid1 = 0 then s else { s with ring := s.ring.modify (rid1 - 1) f }

/-- `fr_link`, with the submission it tells of. -/
def frLink (s : State) (rid1 link index : Nat) : State :=
  if rid1 = 0 then s
  else
    { s.frModify rid1 fun e => { e with link := link } with
      sub := Function.update s.sub (rid1 - 1) (some index) }

/-- `fr_untracked` -/
def frUntracked (s : State) (rid1 : Nat) : State :=
  s.frModify rid1 fun e => { e with untracked := true }

/-- `_fr_flush`: the deferred entry of a fold's operation. -/
def frFlush (s : State) (w : Nat) (f : GroupFold) (tag : Tag) : State × GroupFold :=
  if f.entry.nops = 0 then (s, f)
  else
    let (s, rid) := s.frRecord w f.tracker f.entry tag true
    (s, { f with rids := f.rids ++ [rid], entry := .empty, tag := .zero, members := false })

/-- `_fr_submit`: the entries of a submitted fold are linked to its last one, which
the commit stamps. -/
def frSubmit (s : State) (f : GroupFold) (index : Nat) : State × Nat :=
  match s.counters f.watch with
  | none => (s, 0)
  | some _ =>
    let (s, f) := s.frFlush f.watch f f.tag
    match f.rids.getLast? with
    | none => (s, 0)
    | some last => (f.rids.foldl (fun s rid => s.frLink rid last index) s, last)

/-! ## The watchdog's queue -/

/-- `watch_next_cpos` -/
def nextCpos (s : State) (t : Nat) (op : Op) : State × Nat :=
  if op.compared then
    ({ s with cpos := Function.update s.cpos t (s.cpos t + 1) }, s.cpos t + 1)
  else (s, 0)

/-- An operation is enqueued on the comm stream of `t`. -/
def submit (s : State) (t : Nat) : State :=
  { s with submitted := Function.update s.submitted t (s.submitted t + 1) }

/-- `watch_commit` of the `index`th submission; `drop` when the queue is full, the
communicator has a fault or was claimed, or its event failed. -/
def watchCommit (s : State) (w t : Nat) (e : Entry) (tag : Tag) (frRid index : Nat)
    (drop : Bool) : State :=
  let (s, fr) := if frRid ≠ 0 then (s, frRid) else s.frRecord w t e tag false
  let s := if fr = 0 then s else { s with sub := Function.update s.sub (fr - 1) (some index) }
  if drop then s.frUntracked fr else { s with queue := s.queue ++ [⟨t, index, fr⟩] }

/-! ## Groups -/

/-- `_level`: this thread's open group on a library. -/
def level? (s : State) (thread lib : Nat) : Option Level :=
  s.levels.find? fun lv => lv.thread = thread ∧ lv.lib = lib

/-- Replace the level of a thread and library. -/
def setLevel (s : State) (lv : Level) : State :=
  { s with levels := s.levels.map fun l => if l.thread = lv.thread ∧ l.lib = lv.lib then lv else l }

/-- `group_enter` -/
def groupEnter (s : State) (thread lib : Nat) : State :=
  match s.level? thread lib with
  | some lv => s.setLevel { lv with depth := lv.depth + 1 }
  | none => { s with levels := s.levels ++ [⟨thread, lib, 1, []⟩] }

end State

/-- A communicator's first call in a group. -/
def GroupFold.fresh (w t : Nat) : GroupFold := ⟨w, t, .empty, .empty, .zero, false, [], []⟩

/-- `_fold_of`: the fold of a communicator, a new one if there is none. -/
def Level.foldOf (lv : Level) (w t : Nat) : GroupFold :=
  (lv.folds.find? fun f => f.tracker = t).getD (.fresh w t)

/-- `_fold` of the call with index `n` into the entry to commit. -/
def GroupFold.add (f : GroupFold) (e : Entry) (n : Nat) : GroupFold :=
  { f with commit := f.commit.fold e, calls := f.calls ++ [n] }

/-- Put a fold back in its place, or at the end. -/
def Level.setFold (lv : Level) (f : GroupFold) : Level :=
  if lv.folds.any fun g => g.tracker = f.tracker then
    { lv with folds := lv.folds.map fun g => if g.tracker = f.tracker then f else g }
  else { lv with folds := lv.folds ++ [f] }

namespace State

/-- `group_add`: the call with index `n`. -/
def groupAdd (s : State) (lv : Level) (w t : Nat) (e : Entry) (tag : Tag) (n : Nat) : State :=
  let f := (lv.foldOf w t).add e n
  match s.counters w with
  | none => s.setLevel (lv.setFold f)
  | some _ =>
    let (s, f) :=
      if tag.member then
        -- an operation before the block
        let (s, f) := if f.entry.nops ≠ 0 ∧ f.members = false then s.frFlush w f f.tag else (s, f)
        (s, { f with members := true })
      else
        let (s, f) :=
          if f.entry.nops ≠ 0 ∧ (f.members = true ∨ f.tag ≠ tag) then s.frFlush w f f.tag
          else (s, f)
        (s, { f with tag := tag })
    s.setLevel (lv.setFold { f with entry := f.entry.fold e })

/-- `group_fr_mark` for one communicator of the group whose end it is. -/
def groupFrMark (s : State) (thread lib w t : Nat) (tag : Tag) : State :=
  match s.counters w, s.level? thread lib with
  | some _, some lv =>
    match lv.folds.find? fun f => f.tracker = t with
    | some f =>
      let (s, f) := s.frFlush w f tag
      s.setLevel (lv.setFold f)
    | none => s
  | _, _ => s

/-- One fold of a group that was submitted. -/
def commitFold (s : State) (lv : Level) (drop : Nat → Bool) (f : GroupFold) : State :=
  let index := s.submitted f.tracker
  let (s, fr) := (s.submit f.tracker).frSubmit f index
  if f.commit.nops ≠ 0 then
    { s.watchCommit f.watch f.tracker f.commit .zero fr index (drop f.tracker) with
      commits := s.commits ++ [⟨f.tracker, f.commit, f.calls, some (lv.thread, lv.lib)⟩] }
  else s

/-- `group_exit` -/
def groupExit (s : State) (thread lib : Nat) (submitted : Bool) (drop : Nat → Bool) : State :=
  match s.level? thread lib with
  | none => s
  | some lv =>
    if 1 < lv.depth then s.setLevel { lv with depth := lv.depth - 1 }
    else
      let s := { s with
        levels := s.levels.filter fun l => ¬ (l.thread = thread ∧ l.lib = lib) }
      if submitted then lv.folds.foldl (fun s f => s.commitFold lv drop f) s
      else { s with dropped := s.dropped ++ lv.folds.flatMap GroupFold.calls }

/-- `PG.track`: a library call that was just made, on a communicator with a tracker. -/
def track (s : State) (thread lib w t : Nat) (op : Op) (count dtype root redop : Int)
    (tag : Tag) (drop : Bool) : State :=
  let (s, cpos) := s.nextCpos t op
  let e : Entry := ⟨op, 1, count, dtype, root, redop, callFp op count dtype root redop, cpos⟩
  let n := s.calls.length
  let call : Call := ⟨thread, lib, w, t, e, (s.level? thread lib).isSome⟩
  let s := { s with calls := s.calls ++ [call] }
  match s.level? thread lib with
  | some lv =>
    let s := s.groupAdd lv w t e tag n
    if tag.member then (s.frRecord w t e tag false).1 else s
  | none =>
    let s := { s with commits := s.commits ++ [(⟨t, e, [n], none⟩ : Commit)] }
    (s.submit t).watchCommit w t e tag 0 (s.submitted t) drop

/-- `groups_forget`: a watch goes away. -/
def groupsForget (s : State) (w : Nat) : State :=
  { s with
    levels := s.levels.map fun lv => { lv with folds := lv.folds.filter fun f => f.watch ≠ w }
    forgotten := s.forgotten ++ s.levels.flatMap fun lv =>
      (lv.folds.filter fun f => f.watch = w).flatMap GroupFold.calls }

end State

/-! ## The system -/

/-- How `tmb_pg_group_end` went: the process group was closing, so that the library
was not called; the library failed, which leaves its group all the same; or the
group was submitted. -/
inductive EndOutcome where
  | closed
  | failed
  | submitted
  deriving DecidableEq

inductive Event where
  /-- `tmb_pg_group_start`; it fails without a trace -/
  | groupStart (thread lib : Nat) (ok : Bool)
  | groupEnd (thread lib watch : Nat) (comms : List Nat) (tag : Tag) (outcome : EndOutcome)
      (drop : Nat → Bool)
  | track (thread lib watch tracker : Nat) (op : Op) (count dtype root redop : Int) (tag : Tag)
      (drop : Bool)
  /-- `watch_set_fr` -/
  | setFr (watch : Nat)
  | forget (watch : Nat)
  /-- the oldest operation of a comm stream completes -/
  | complete (tracker : Nat)
  /-- the watchdog retires an entry of its queue -/
  | retire (q : Nat)

open State in
def next (s : State) : Event → Option State
  | .groupStart thread lib ok => some (if ok then s.groupEnter thread lib else s)
  | .groupEnd thread lib w comms tag outcome drop =>
    if outcome = .closed then some s
    else
      let s := comms.foldl (fun s t => s.groupFrMark thread lib w t tag) s
      some (s.groupExit thread lib (outcome = .submitted) drop)
  | .track thread lib w t op count dtype root redop tag drop =>
    some (s.track thread lib w t op count dtype root redop tag drop)
  | .setFr w =>
    if s.counters w = none then
      some { s with counters := Function.update s.counters w (some ⟨0, 0, 0, false, false⟩) }
    else none
  | .forget w => some (s.groupsForget w)
  | .complete t =>
    if s.completed t < s.submitted t then
      some { s with completed := Function.update s.completed t (s.completed t + 1) }
    else none
  | .retire i =>
    match s.queue[i]? with
    | some q =>
      if q.index < s.completed q.tracker then
        some (s.frModify q.fr fun e => { e with done := true })
      else none
    | none => none

/-- The library calls and group calls of any number of threads, on any libraries and
process groups. -/
def native : System State Event where
  Init s := s = .start
  next := next

end TorchMojoBackend.Watchdog.Groups
