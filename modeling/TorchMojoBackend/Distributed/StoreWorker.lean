/-
  `Distributed.StoreWorker`: store operations on a thread of their own, each
  bounded by a deadline its caller enforces.
  Source: src/torch_mojo_backend/distributed/store_worker.py.

  A job that overruns is abandoned together with the session that serves it: its
  thread exits once the operation returns, and the next job starts a fresh thread.
  One thread calls `run` and `close`; the threads of all the sessions, the deadline
  and the owner's writes to `latest` interleave with it at every shared access.

  An operation includes making its client.  An exception object a job returns is
  an error to `run`, as one it raises is; both are `Boxed.error`.

  Here: the worker, what each of its steps can do, and what a session knows of its
  jobs.  What holds of every interleaving is in `Distributed.StoreWorkerRuns`.
-/
import TorchMojoBackend.Foundation.Transition
import Mathlib.Data.List.Nodup
import Mathlib.Order.Nat
import Mathlib.Logic.Function.Basic

set_option autoImplicit false

namespace TorchMojoBackend.Distributed

open TorchMojoBackend.Foundation

/-! ## The worker -/

namespace StoreWorker

/-- What the box of a job holds: `None` for a stale one, what the job returned, or
the exception it raised. -/
inductive Boxed (T : Type) where
  | stale
  | result (x : T)
  | error

/-- What `run` returns for the item of a box. -/
def Boxed.answer {T : Type} : Boxed T → Option T
  | .result x => some x
  | .stale | .error => none

/-- A job that was put.  The last four fields are histories: `latest` when its
generation was compared, how often its operation was started, what it returned
(`none` for a raise), and what `run` returned for it. -/
structure Job (T : Type) where
  gen : Option Int
  session : Nat
  box : List (Boxed T)
  done : Bool
  seen : Option Int
  starts : Nat
  returned : Option (Option T)
  answer : Option (Option T)

/-- Where the thread of a session is in `_serve`. -/
inductive Serving where
  /-- in `jobs.get()` -/
  | waiting
  /-- before the comparison with `latest` -/
  | compare (j : Nat)
  /-- in the operation -/
  | calling (j : Nat)
  /-- the box is filled, before the lock -/
  | boxed (j : Nat)
  /-- in the lock, before `done.set()` -/
  | locked (j : Nat)
  /-- in the lock, before `abandoned.is_set()` -/
  | marked (j : Nat)
  | exited
  deriving DecidableEq

/-- A queue, its event and the thread that serves it. -/
structure Session where
  jobs : List (Option Nat)
  abandoned : Bool
  serving : Serving

/-- Where the calling thread is in `run`. -/
inductive Running where
  /-- in no call -/
  | idle
  /-- before the test of `max_abandoned` -/
  | check (gen : Option Int)
  /-- before `self._jobs is None` -/
  | ensure (gen : Option Int)
  | put (gen : Option Int)
  /-- in `done.wait` -/
  | wait (j : Nat)
  /-- the wait timed out, before the lock -/
  | overdue (j : Nat)
  /-- in the lock, before `done.is_set()` -/
  | locked (j : Nat)
  /-- before `close` -/
  | giveUp (j : Nat)
  /-- before `box[0]` -/
  | read (j : Nat)
  /-- `box[0]` raised an `IndexError` -/
  | failed
  deriving DecidableEq

inductive Holder where
  | caller
  | server (k : Nat)
  deriving DecidableEq

end StoreWorker

open StoreWorker

/-- A worker with its sessions and jobs, numbered in the order they were made.
`isOpen` says that `_jobs` is the queue of the last session. -/
structure StoreWorker (T : Type) where
  latest : Int
  stuck : Int
  isOpen : Bool
  lock : Option Holder
  running : Running
  sessions : Nat
  session : Nat → Session
  jobs : Nat
  job : Nat → Job T

namespace StoreWorker

variable {T : Type}

/-- The session `_jobs` and `_abandoned` belong to. -/
def current (w : StoreWorker T) : Nat := w.sessions - 1

def setSession (w : StoreWorker T) (k : Nat) (x : Session) : StoreWorker T :=
  { w with session := Function.update w.session k x }

def setJob (w : StoreWorker T) (j : Nat) (x : Job T) : StoreWorker T :=
  { w with job := Function.update w.job j x }

/-- The server `k` goes on to `x`. -/
def goto (w : StoreWorker T) (k : Nat) (x : Serving) : StoreWorker T :=
  w.setSession k { w.session k with serving := x }

/-- The server `k` drops the job `j` as stale. -/
def drop (w : StoreWorker T) (k j : Nat) : StoreWorker T :=
  let x := w.job j
  (w.setJob j { x with box := x.box ++ [.stale], seen := some w.latest }).goto k (.boxed j)

/-- The server `k` starts the operation of the job `j`. -/
def start (w : StoreWorker T) (k j : Nat) : StoreWorker T :=
  let x := w.job j
  (w.setJob j { x with seen := some w.latest, starts := x.starts + 1 }).goto k (.calling j)

/-- The operation of the job `j` returns `r`, or raises. -/
def fill (w : StoreWorker T) (k j : Nat) (r : Option T) : StoreWorker T :=
  let x := w.job j
  (w.setJob j { x with box := x.box ++ [r.elim .error .result], returned := some r }).goto k
    (.boxed j)

/-- `run` returns `x` for the job `j`. -/
def conclude (w : StoreWorker T) (j : Nat) (x : Option T) : StoreWorker T :=
  { w.setJob j { w.job j with answer := some x } with running := .idle }

/-- A new queue and event, and the thread that serves them. -/
def openSession (w : StoreWorker T) : StoreWorker T :=
  { w.setSession w.sessions ⟨[], false, .waiting⟩ with
    sessions := w.sessions + 1, isOpen := true }

/-- `self._jobs.put((job, gen, box, done))`. -/
def push (w : StoreWorker T) (gen : Option Int) : StoreWorker T :=
  let x := w.session w.current
  { (w.setSession w.current { x with jobs := x.jobs ++ [some w.jobs] }).setJob w.jobs
      ⟨gen, w.current, [], false, none, 0, none, none⟩ with
    jobs := w.jobs + 1 }

/-- Counts the job as abandoned and sets the event of its session. -/
def abandon (w : StoreWorker T) : StoreWorker T :=
  { w.setSession w.current { w.session w.current with abandoned := true } with
    stuck := w.stuck + 1 }

def close (w : StoreWorker T) : StoreWorker T :=
  if w.isOpen then
    let x := w.session w.current
    { w.setSession w.current { x with jobs := x.jobs ++ [none] } with isOpen := false }
  else w

/-- `gen is not None and gen < latest`. -/
def isStale (gen : Option Int) (latest : Int) : Bool :=
  gen.any fun g => decide (g < latest)

/-- `max_abandoned is not None and stuck >= max_abandoned`. -/
def refuses (w : StoreWorker T) (maxAbandoned : Option Int) : Bool :=
  maxAbandoned.any fun n => decide (n ≤ w.stuck)

/-! ## Steps -/

/-- The next step of the calling thread; `none` while it cannot go on. -/
def stepCaller (maxAbandoned : Option Int) (w : StoreWorker T) : Option (StoreWorker T) :=
  match w.running with
  | .idle | .failed => none
  | .check gen =>
    some { w with running := if w.refuses maxAbandoned then .idle else .ensure gen }
  | .ensure gen => some { (if w.isOpen then w else w.openSession) with running := .put gen }
  | .put gen => some { w.push gen with running := .wait w.jobs }
  | .wait j => if (w.job j).done then some { w with running := .read j } else none
  | .overdue j =>
    if w.lock = none then some { w with lock := some .caller, running := .locked j } else none
  | .locked j =>
    if (w.job j).done then some { w with lock := none, running := .read j }
    else some { w.abandon with lock := none, running := .giveUp j }
  | .giveUp j => some (w.close.conclude j none)
  | .read j =>
    match (w.job j).box with
    | [] => some { w with running := .failed }
    | item :: _ => some (w.conclude j item.answer)

/-- The next step of the thread of session `k`; `none` while it cannot go on. -/
def stepServer (w : StoreWorker T) (k : Nat) : Option (StoreWorker T) :=
  let x := w.session k
  match x.serving with
  | .waiting =>
    match x.jobs with
    | [] => none
    | some j :: rest => some (w.setSession k { x with jobs := rest, serving := .compare j })
    | none :: rest => some (w.setSession k { x with jobs := rest, serving := .exited })
  | .compare j =>
    some (if isStale (w.job j).gen w.latest then w.drop k j else w.start k j)
  | .calling _ | .exited => none
  | .boxed j =>
    if w.lock = none then some { w.goto k (.locked j) with lock := some (.server k) } else none
  | .locked j => some ((w.setJob j { w.job j with done := true }).goto k (.marked j))
  | .marked _ =>
    if x.abandoned then some { w.goto k .exited with lock := none, stuck := w.stuck - 1 }
    else some { w.goto k .waiting with lock := none }

/-- The operation of session `k` returns `x`, or raises. -/
def finish (w : StoreWorker T) (k : Nat) (x : Option T) : Option (StoreWorker T) :=
  match (w.session k).serving with
  | .calling j => some (w.fill k j x)
  | _ => none

inductive Event (T : Type) where
  /-- `run` is called -/
  | run (gen : Option Int)
  /-- the owner closes the worker -/
  | close
  | setLatest (gen : Int)
  /-- the calling thread goes on -/
  | caller
  /-- its wait times out -/
  | timeout
  /-- the thread of session `k` goes on -/
  | serve (k : Nat)
  /-- the operation of session `k` returns -/
  | finish (k : Nat) (x : Option T)

def next (maxAbandoned : Option Int) (w : StoreWorker T) :
    Event T → Option (StoreWorker T)
  | .run gen => if w.running = .idle then some { w with running := .check gen } else none
  | .close => if w.running = .idle then some w.close else none
  | .setLatest gen => some { w with latest := gen }
  | .caller => w.stepCaller maxAbandoned
  | .timeout =>
    match w.running with
    | .wait j => some { w with running := .overdue j }
    | _ => none
  | .serve k => if k < w.sessions then w.stepServer k else none
  | .finish k x => if k < w.sessions then w.finish k x else none

/-- A worker as `__init__` makes it. -/
def init (T : Type) : StoreWorker T where
  latest := 0
  stuck := 0
  isOpen := false
  lock := none
  running := .idle
  sessions := 0
  session := fun _ => ⟨[], false, .waiting⟩
  jobs := 0
  job := fun _ => ⟨none, 0, [], false, none, 0, none, none⟩

/-- A worker with its limit, under every interleaving. -/
def system (T : Type) (maxAbandoned : Option Int) : System (StoreWorker T) (Event T) where
  Init := fun w => w = init T
  next := next maxAbandoned

/-! ## What a step can do -/

/-- The steps of the thread of session `k`, the return of its operation among them. -/
inductive ServerStep (w : StoreWorker T) (k : Nat) : StoreWorker T → Prop where
  | take {j : Nat} {rest : List (Option Nat)} (hs : (w.session k).serving = .waiting)
      (hq : (w.session k).jobs = some j :: rest) :
      ServerStep w k
        (w.setSession k { w.session k with jobs := rest, serving := .compare j })
  | stop {rest : List (Option Nat)} (hs : (w.session k).serving = .waiting)
      (hq : (w.session k).jobs = none :: rest) :
      ServerStep w k (w.setSession k { w.session k with jobs := rest, serving := .exited })
  | drop {j : Nat} (hs : (w.session k).serving = .compare j)
      (hg : isStale (w.job j).gen w.latest = true) : ServerStep w k (w.drop k j)
  | start {j : Nat} (hs : (w.session k).serving = .compare j)
      (hg : isStale (w.job j).gen w.latest = false) : ServerStep w k (w.start k j)
  | fill {j : Nat} (r : Option T) (hs : (w.session k).serving = .calling j) :
      ServerStep w k (w.fill k j r)
  | lock {j : Nat} (hs : (w.session k).serving = .boxed j) (hl : w.lock = none) :
      ServerStep w k { w.goto k (.locked j) with lock := some (.server k) }
  | mark {j : Nat} (hs : (w.session k).serving = .locked j) :
      ServerStep w k ((w.setJob j { w.job j with done := true }).goto k (.marked j))
  | leave {j : Nat} (hs : (w.session k).serving = .marked j)
      (ha : (w.session k).abandoned = true) :
      ServerStep w k { w.goto k .exited with lock := none, stuck := w.stuck - 1 }
  | release {j : Nat} (hs : (w.session k).serving = .marked j)
      (ha : (w.session k).abandoned = false) :
      ServerStep w k { w.goto k .waiting with lock := none }

theorem serverStep_of_stepServer {w t : StoreWorker T} {k : Nat}
    (h : w.stepServer k = some t) : ServerStep w k t := by
  unfold stepServer at h
  dsimp only at h
  split at h
  case h_1 hs =>
    split at h
    · cases h
    · rename_i hq
      obtain rfl := Option.some.inj h
      exact .take hs hq
    · rename_i hq
      obtain rfl := Option.some.inj h
      exact .stop hs hq
  case h_2 j hs =>
    obtain rfl := Option.some.inj h
    split
    · exact .drop hs ‹_›
    · exact .start hs (Bool.eq_false_iff.mpr ‹_›)
  case h_3 => cases h
  case h_4 => cases h
  case h_5 j hs =>
    split at h
    · obtain rfl := Option.some.inj h
      exact .lock hs ‹_›
    · cases h
  case h_6 j hs =>
    obtain rfl := Option.some.inj h
    exact .mark hs
  case h_7 j hs =>
    split at h
    · obtain rfl := Option.some.inj h
      exact .leave hs ‹_›
    · obtain rfl := Option.some.inj h
      exact .release hs (Bool.eq_false_iff.mpr ‹_›)

theorem serverStep_of_finish {w t : StoreWorker T} {k : Nat} {r : Option T}
    (h : w.finish k r = some t) : ServerStep w k t := by
  unfold finish at h
  split at h
  case h_1 j hs =>
    obtain rfl := Option.some.inj h
    exact .fill r hs
  case h_2 => cases h

/-- The steps of the calling thread, and what its owner asks of it. -/
inductive CallerStep (limit : Option Int) (w : StoreWorker T) : StoreWorker T → Prop where
  | run {gen : Option Int} (hr : w.running = .idle) :
      CallerStep limit w { w with running := .check gen }
  | shut (hr : w.running = .idle) : CallerStep limit w w.close
  | setLatest {gen : Int} : CallerStep limit w { w with latest := gen }
  | refuse {gen : Option Int} (hr : w.running = .check gen) (hm : w.refuses limit = true) :
      CallerStep limit w { w with running := .idle }
  | enter {gen : Option Int} (hr : w.running = .check gen) (hm : w.refuses limit = false) :
      CallerStep limit w { w with running := .ensure gen }
  | reuse {gen : Option Int} (hr : w.running = .ensure gen) (ho : w.isOpen = true) :
      CallerStep limit w { w with running := .put gen }
  | openSession {gen : Option Int} (hr : w.running = .ensure gen) (ho : w.isOpen = false) :
      CallerStep limit w { w.openSession with running := .put gen }
  | put {gen : Option Int} (hr : w.running = .put gen) :
      CallerStep limit w { w.push gen with running := .wait w.jobs }
  | answered {j : Nat} (hr : w.running = .wait j) (hd : (w.job j).done = true) :
      CallerStep limit w { w with running := .read j }
  | timeout {j : Nat} (hr : w.running = .wait j) :
      CallerStep limit w { w with running := .overdue j }
  | lock {j : Nat} (hr : w.running = .overdue j) (hl : w.lock = none) :
      CallerStep limit w { w with lock := some .caller, running := .locked j }
  | late {j : Nat} (hr : w.running = .locked j) (hd : (w.job j).done = true) :
      CallerStep limit w { w with lock := none, running := .read j }
  | abandon {j : Nat} (hr : w.running = .locked j) (hd : (w.job j).done = false) :
      CallerStep limit w { w.abandon with lock := none, running := .giveUp j }
  | giveUp {j : Nat} (hr : w.running = .giveUp j) :
      CallerStep limit w (w.close.conclude j none)
  | fail {j : Nat} (hr : w.running = .read j) (hb : (w.job j).box = []) :
      CallerStep limit w { w with running := .failed }
  | read {j : Nat} {item : Boxed T} {rest : List (Boxed T)} (hr : w.running = .read j)
      (hb : (w.job j).box = item :: rest) : CallerStep limit w (w.conclude j item.answer)

theorem callerStep_of_stepCaller {limit : Option Int} {w t : StoreWorker T}
    (h : w.stepCaller limit = some t) : CallerStep limit w t := by
  cases hr : w.running <;> simp only [stepCaller, hr] at h
  case idle | failed => cases h
  case check gen =>
    obtain rfl := Option.some.inj h
    split
    · exact .refuse hr ‹_›
    · exact .enter hr (Bool.eq_false_iff.mpr ‹_›)
  case ensure gen =>
    obtain rfl := Option.some.inj h
    split
    · exact .reuse hr ‹_›
    · exact .openSession hr (Bool.eq_false_iff.mpr ‹_›)
  case put gen =>
    obtain rfl := Option.some.inj h
    exact .put hr
  case wait j =>
    split at h
    · obtain rfl := Option.some.inj h
      exact .answered hr ‹_›
    · cases h
  case overdue j =>
    split at h
    · obtain rfl := Option.some.inj h
      exact .lock hr ‹_›
    · cases h
  case locked j =>
    split at h
    · obtain rfl := Option.some.inj h
      exact .late hr ‹_›
    · obtain rfl := Option.some.inj h
      exact .abandon hr (Bool.eq_false_iff.mpr ‹_›)
  case giveUp j =>
    obtain rfl := Option.some.inj h
    exact .giveUp hr
  case read j =>
    split at h
    · obtain rfl := Option.some.inj h
      exact .fail hr ‹_›
    · obtain rfl := Option.some.inj h
      exact .read hr ‹_›

/-- Every step of the system is one of these. -/
theorem next_cases {limit : Option Int} {w t : StoreWorker T} {e : Event T}
    (h : next limit w e = some t) :
    CallerStep limit w t ∨ ∃ k < w.sessions, ServerStep w k t := by
  cases e with
  | run gen =>
      obtain ⟨hr, h⟩ := Option.ite_none_right_eq_some.mp h
      obtain rfl := Option.some.inj h
      exact .inl (.run hr)
  | close =>
      obtain ⟨hr, h⟩ := Option.ite_none_right_eq_some.mp h
      obtain rfl := Option.some.inj h
      exact .inl (.shut hr)
  | setLatest gen =>
      obtain rfl := Option.some.inj h
      exact .inl .setLatest
  | caller => exact .inl (callerStep_of_stepCaller h)
  | timeout =>
      simp only [next] at h
      split at h
      · obtain rfl := Option.some.inj h
        exact .inl (.timeout ‹_›)
      · cases h
  | serve k =>
      obtain ⟨hk, h⟩ := Option.ite_none_right_eq_some.mp h
      exact .inr ⟨k, hk, serverStep_of_stepServer h⟩
  | finish k r =>
      obtain ⟨hk, h⟩ := Option.ite_none_right_eq_some.mp h
      exact .inr ⟨k, hk, serverStep_of_finish h⟩

/-! ## What a session holds of its jobs -/

/-- The job the thread of a session has taken and not yet marked as done. -/
def Serving.job? : Serving → Option Nat
  | .compare j | .calling j | .boxed j | .locked j => some j
  | .waiting | .marked _ | .exited => none

/-- A job before its turn. -/
structure Job.Fresh (x : Job T) : Prop where
  done : x.done = false
  box : x.box = []
  starts : x.starts = 0
  returned : x.returned = none

/-- A job whose operation is running. -/
structure Job.Started (x : Job T) : Prop where
  done : x.done = false
  box : x.box = []
  starts : x.starts = 1
  returned : x.returned = none
  current : ∃ l, x.seen = some l ∧ isStale x.gen l = false

/-- A job whose box is filled: it was dropped as stale and never started, or it was
started once and the box holds what it returned. -/
def Job.Filled (x : Job T) : Prop :=
  ∃ l, x.seen = some l ∧
    if isStale x.gen l then x.box = [.stale] ∧ x.starts = 0 ∧ x.returned = none
    else ∃ r, x.box = [r.elim .error .result] ∧ x.starts = 1 ∧ x.returned = some r

/-- What a job is when the thread of its session is at `x`. -/
def Job.At (y : Job T) : Serving → Prop
  | .compare _ => y.Fresh
  | .calling _ => y.Started
  | .boxed _ | .locked _ => y.done = false ∧ y.Filled
  | .waiting | .marked _ | .exited => True

/-- What session `k` knows of its jobs, the first `n` jobs being there. -/
structure Knows (n : Nat) (job : Nat → Job T) (k : Nat) (x : Session) : Prop where
  taken : ∀ j, x.serving.job? = some j →
    j < n ∧ (job j).session = k ∧ some j ∉ x.jobs ∧ (job j).At x.serving
  queued : ∀ j, some j ∈ x.jobs → j < n ∧ (job j).session = k ∧ (job j).Fresh
  nodup : x.jobs.Nodup
  done : ∀ j < n, (job j).session = k → (job j).done = true → (job j).Filled
  undone : ∀ j < n, (job j).session = k → (job j).done = false →
    some j ∈ x.jobs ∨ x.serving.job? = some j

namespace Knows

variable {n k j : Nat} {job : Nat → Job T} {x : Session}

/-- Steps of the other sessions do not matter. -/
theorem frame {n' : Nat} {job' : Nat → Job T} (h : Knows n job k x) (hn : n ≤ n')
    (hsame : ∀ j < n, (job j).session = k → job' j = job j)
    (hback : ∀ j < n', (job' j).session = k → j < n ∧ (job j).session = k) :
    Knows n' job' k x where
  taken i hi := by
    obtain ⟨hlt, hk, hq, hat⟩ := h.taken i hi
    rw [hsame i hlt hk]
    exact ⟨hlt.trans_le hn, hk, hq, hat⟩
  queued i hi := by
    obtain ⟨hlt, hk, hf⟩ := h.queued i hi
    rw [hsame i hlt hk]
    exact ⟨hlt.trans_le hn, hk, hf⟩
  nodup := h.nodup
  done i hlt hk := by
    obtain ⟨hlt', hk'⟩ := hback i hlt hk
    rw [hsame i hlt' hk']
    exact h.done i hlt' hk'
  undone i hlt hk := by
    obtain ⟨hlt', hk'⟩ := hback i hlt hk
    rw [hsame i hlt' hk']
    exact h.undone i hlt' hk'

/-- A job of another session changes. -/
theorem update_other {y : Job T} (h : Knows n job k x) (hj : (job j).session ≠ k)
    (hy : y.session ≠ k) : Knows n (Function.update job j y) k x := by
  refine h.frame le_rfl ?_ ?_
  · rintro i - hi
    exact Function.update_of_ne (by rintro rfl; exact hj hi) ..
  · intro i hlt hi
    rcases eq_or_ne i j with rfl | hne
    · rw [Function.update_self] at hi
      exact absurd hi hy
    · rw [Function.update_of_ne hne] at hi
      exact ⟨hlt, hi⟩

/-- The thread takes the first job of the queue. -/
theorem take {rest : List (Option Nat)} (h : Knows n job k x) (hj : x.jobs = some j :: rest)
    (hw : x.serving = .waiting) :
    Knows n job k { x with jobs := rest, serving := .compare j } := by
  obtain ⟨-, hq, hd, hdone, hu⟩ := h
  rw [hj] at hq hd hu
  rw [hw] at hu
  rw [List.nodup_cons] at hd
  refine ⟨?_, fun i hi => hq i (List.mem_cons_of_mem _ hi), hd.2, hdone, ?_⟩
  · rintro i hi
    obtain rfl : j = i := by simpa [Serving.job?] using hi
    obtain ⟨hn, hk, hf⟩ := hq j List.mem_cons_self
    exact ⟨hn, hk, hd.1, hf⟩
  · intro i hn hk hdn
    simpa [Serving.job?, or_comm, eq_comm] using hu i hn hk hdn

/-- The thread goes on with the job it has taken. -/
theorem advance {y : Job T} {s : Serving} (h : Knows n job k x) (hat : y.At s)
    (hx : x.serving.job? = some j) (hs : s.job? = some j) (hy : y.session = k)
    (hdone : y.done = false) :
    Knows n (Function.update job j y) k { x with serving := s } := by
  obtain ⟨hlt, -, hq, -⟩ := h.taken j hx
  refine ⟨?_, ?_, h.nodup, ?_, ?_⟩
  · rintro i hi
    obtain rfl : j = i := by simpa [hs] using hi
    simpa [hlt, hy, hq] using hat
  · intro i hi
    have hne : i ≠ j := by rintro rfl; exact hq hi
    rw [Function.update_of_ne hne]
    exact h.queued i hi
  · intro i hn hk
    rcases eq_or_ne i j with rfl | hne
    · simp [hdone]
    · rw [Function.update_of_ne hne] at hk ⊢
      exact h.done i hn hk
  · intro i hn hk hu
    rcases eq_or_ne i j with rfl | hne
    · exact .inr hs
    · rw [Function.update_of_ne hne] at hk hu
      rw [hs, ← hx]
      exact h.undone i hn hk hu

/-- The thread marks the job it has taken as done. -/
theorem mark {y : Job T} (h : Knows n job k x) (hx : x.serving = .locked j)
    (hy : y = { job j with done := true }) :
    Knows n (Function.update job j y) k { x with serving := .marked j } := by
  obtain ⟨-, hk, hq, hat⟩ := h.taken j (by rw [hx]; rfl)
  rw [hx] at hat
  refine ⟨by simp [Serving.job?], ?_, h.nodup, ?_, ?_⟩
  · intro i hi
    have hne : i ≠ j := by rintro rfl; exact hq hi
    rw [Function.update_of_ne hne]
    exact h.queued i hi
  · intro i hn hki hd
    rcases eq_or_ne i j with rfl | hne
    · rw [Function.update_self, hy]
      exact hat.2
    · rw [Function.update_of_ne hne] at hki hd ⊢
      exact h.done i hn hki hd
  · intro i hn hki hu
    rcases eq_or_ne i j with rfl | hne
    · simp [hy] at hu
    · rw [Function.update_of_ne hne] at hki hu
      have := h.undone i hn hki hu
      rw [hx] at this
      simpa [Serving.job?, hne.symm] using this

/-- The session changes in nothing but its end mark or a thread without a job. -/
theorem rest {y : Session} (h : Knows n job k x)
    (hs : y.serving = x.serving ∨ x.serving.job? = none ∧ y.serving.job? = none)
    (hq : ∀ j, some j ∈ y.jobs ↔ some j ∈ x.jobs) (hd : y.jobs.Nodup) : Knows n job k y := by
  have hjob : y.serving.job? = x.serving.job? := by
    rcases hs with hs | ⟨hx, hy⟩
    · rw [hs]
    · rw [hx, hy]
  refine ⟨?_, fun i hi => h.queued i ((hq i).mp hi), hd, h.done, ?_⟩
  · intro i hi
    rcases hs with hs | ⟨-, hy⟩
    · rw [hs] at hi ⊢
      rw [hq]
      exact h.taken i hi
    · simp [hy] at hi
  · intro i hn hk hu
    rw [hq, hjob]
    exact h.undone i hn hk hu

/-- A new job is put. -/
theorem push {y : Job T} (h : Knows n job k x) (hy : y.session = k) (hf : y.Fresh) :
    Knows (n + 1) (Function.update job n y) k { x with jobs := x.jobs ++ [some n] } := by
  have hfresh : some n ∉ x.jobs := fun hm => (h.queued n hm).1.false
  refine ⟨?_, ?_, ?_, ?_, ?_⟩
  · intro i hi
    obtain ⟨hlt, hk, hq, hat⟩ := h.taken i hi
    rw [Function.update_of_ne hlt.ne]
    exact ⟨hlt.trans_le n.le_succ, hk, by simp [hq, hlt.ne], hat⟩
  · intro i hi
    rcases List.mem_append.mp hi with hi | hi
    · obtain ⟨hlt, hk, hfi⟩ := h.queued i hi
      rw [Function.update_of_ne hlt.ne]
      exact ⟨hlt.trans_le n.le_succ, hk, hfi⟩
    · obtain rfl : i = n := by simpa using hi
      simp [hy, hf]
  · rw [List.nodup_append]
    refine ⟨h.nodup, List.nodup_singleton _, ?_⟩
    rintro a ha b hb rfl
    rw [List.mem_singleton.mp hb] at ha
    exact hfresh ha
  · intro i hlt hk hd
    rcases Nat.lt_succ_iff_lt_or_eq.mp hlt with hlt | rfl
    · rw [Function.update_of_ne hlt.ne] at hk hd ⊢
      exact h.done i hlt hk hd
    · simp [hf.done] at hd
  · intro i hlt hk hu
    rcases Nat.lt_succ_iff_lt_or_eq.mp hlt with hlt | rfl
    · rw [Function.update_of_ne hlt.ne] at hk hu
      rcases h.undone i hlt hk hu with hm | hm
      · exact .inl (List.mem_append_left _ hm)
      · exact .inr hm
    · exact .inl (by simp)

/-- What a call returns changes nothing else. -/
theorem answer {a : Option (Option T)} (h : Knows n job k x) :
    Knows n (Function.update job j { job j with answer := a }) k x := by
  have hsame : ∀ i, ∃ b, Function.update job j { job j with answer := a } i =
      { job i with answer := b } := by
    intro i
    rcases eq_or_ne i j with rfl | hne
    · exact ⟨a, by simp⟩
    · exact ⟨(job i).answer, by simp [hne]⟩
  generalize Function.update job j { job j with answer := a } = job' at hsame
  refine ⟨?_, ?_, h.nodup, ?_, ?_⟩
  · intro i hi
    obtain ⟨hlt, hk, hq, hat⟩ := h.taken i hi
    obtain ⟨b, hb⟩ := hsame i
    rw [hb]
    refine ⟨hlt, hk, hq, ?_⟩
    cases hs : x.serving <;> rw [hs] at hat
    case compare => exact ⟨hat.1, hat.2, hat.3, hat.4⟩
    case calling => exact ⟨hat.1, hat.2, hat.3, hat.4, hat.5⟩
    all_goals exact hat
  · intro i hi
    obtain ⟨hlt, hk, hf⟩ := h.queued i hi
    obtain ⟨b, hb⟩ := hsame i
    rw [hb]
    exact ⟨hlt, hk, hf.1, hf.2, hf.3, hf.4⟩
  · intro i hlt
    obtain ⟨b, hb⟩ := hsame i
    rw [hb]
    exact h.done i hlt
  · intro i hlt
    obtain ⟨b, hb⟩ := hsame i
    rw [hb]
    exact h.undone i hlt

end Knows

section Updates

variable (w : StoreWorker T) (k j i : Nat) (x : Session) (y : Job T) (s : Serving)

@[simp, grind =] theorem setSession_latest : (w.setSession k x).latest = w.latest := rfl
@[simp, grind =] theorem setSession_stuck : (w.setSession k x).stuck = w.stuck := rfl
@[simp, grind =] theorem setSession_isOpen : (w.setSession k x).isOpen = w.isOpen := rfl
@[simp, grind =] theorem setSession_lock : (w.setSession k x).lock = w.lock := rfl
@[simp, grind =] theorem setSession_running : (w.setSession k x).running = w.running := rfl
@[simp, grind =] theorem setSession_sessions : (w.setSession k x).sessions = w.sessions := rfl
@[simp, grind =] theorem setSession_jobs : (w.setSession k x).jobs = w.jobs := rfl
@[simp] theorem setSession_job : (w.setSession k x).job = w.job := rfl
@[grind =] theorem setSession_job_apply : (w.setSession k x).job j = w.job j := rfl
@[simp] theorem setSession_session :
    (w.setSession k x).session = Function.update w.session k x := rfl
@[grind =] theorem setSession_apply :
    (w.setSession k x).session i = if i = k then x else w.session i := Function.update_apply ..

@[simp, grind =] theorem setJob_latest : (w.setJob j y).latest = w.latest := rfl
@[simp, grind =] theorem setJob_stuck : (w.setJob j y).stuck = w.stuck := rfl
@[simp, grind =] theorem setJob_isOpen : (w.setJob j y).isOpen = w.isOpen := rfl
@[simp, grind =] theorem setJob_lock : (w.setJob j y).lock = w.lock := rfl
@[simp, grind =] theorem setJob_running : (w.setJob j y).running = w.running := rfl
@[simp, grind =] theorem setJob_sessions : (w.setJob j y).sessions = w.sessions := rfl
@[simp, grind =] theorem setJob_jobs : (w.setJob j y).jobs = w.jobs := rfl
@[simp] theorem setJob_session : (w.setJob j y).session = w.session := rfl
@[grind =] theorem setJob_session_apply : (w.setJob j y).session k = w.session k := rfl
@[simp] theorem setJob_job : (w.setJob j y).job = Function.update w.job j y := rfl
@[grind =] theorem setJob_apply :
    (w.setJob j y).job i = if i = j then y else w.job i := Function.update_apply ..

@[simp] theorem goto_session :
    (w.goto k s).session = Function.update w.session k { w.session k with serving := s } := rfl
@[simp] theorem goto_job : (w.goto k s).job = w.job := rfl
@[simp] theorem goto_jobs : (w.goto k s).jobs = w.jobs := rfl
@[simp] theorem goto_lock : (w.goto k s).lock = w.lock := rfl

end Updates

/-- Every session knows its jobs. -/
def JobInv (w : StoreWorker T) : Prop :=
  ∀ k, Knows w.jobs w.job k (w.session k)

/-- A box is filled once. -/
theorem JobInv.server_self {w t : StoreWorker T} {k : Nat} (h : JobInv w)
    (hst : ServerStep w k t) : Knows t.jobs t.job k (t.session k) := by
  have hself := h k
  cases hst with
  | take hs hq => simpa using hself.take hq hs
  | stop hs hq =>
      have hd := hself.nodup
      rw [hq, List.nodup_cons] at hd
      simpa using hself.rest (y := { w.session k with jobs := _, serving := .exited })
        (.inr ⟨by rw [hs]; rfl, rfl⟩) (by simp [hq]) hd.2
  | @drop j hs hg =>
      obtain ⟨-, hk, -, hf⟩ := hself.taken j (by rw [hs]; rfl)
      rw [hs] at hf
      have hat : ({ w.job j with box := (w.job j).box ++ [.stale], seen := some w.latest } :
          Job T).At (.boxed j) :=
        ⟨hf.done, w.latest, rfl, by simp [hg, hf.box, hf.starts, hf.returned]⟩
      simpa [StoreWorker.drop] using hself.advance hat (by rw [hs]; rfl) rfl hk hf.done
  | @start j hs hg =>
      obtain ⟨-, hk, -, hf⟩ := hself.taken j (by rw [hs]; rfl)
      rw [hs] at hf
      have hat : ({ w.job j with seen := some w.latest, starts := (w.job j).starts + 1 } :
          Job T).At (.calling j) :=
        ⟨hf.done, hf.box, by simp [hf.starts], hf.returned, w.latest, rfl, hg⟩
      simpa [StoreWorker.start] using hself.advance hat (by rw [hs]; rfl) rfl hk hf.done
  | @fill j r hs =>
      obtain ⟨-, hk, -, hf⟩ := hself.taken j (by rw [hs]; rfl)
      rw [hs] at hf
      obtain ⟨l, hl, hg⟩ := hf.current
      have hat : ({ w.job j with
          box := (w.job j).box ++ [r.elim .error .result], returned := some r } :
          Job T).At (.boxed j) :=
        ⟨hf.done, l, hl, by simp [hg, hf.box, hf.starts]⟩
      simpa [StoreWorker.fill] using hself.advance hat (by rw [hs]; rfl) rfl hk hf.done
  | @lock j hs hl =>
      obtain ⟨-, hk, -, hf⟩ := hself.taken j (by rw [hs]; rfl)
      rw [hs] at hf
      have := hself.advance (y := w.job j) (s := .locked j) hf (by rw [hs]; rfl) rfl hk hf.1
      simpa using this
  | mark hs => simpa using hself.mark hs rfl
  | leave hs ha =>
      simpa using hself.rest (y := { w.session k with serving := .exited })
        (.inr ⟨by rw [hs]; rfl, rfl⟩) (fun _ => Iff.rfl) hself.nodup
  | release hs ha =>
      simpa using hself.rest (y := { w.session k with serving := .waiting })
        (.inr ⟨by rw [hs]; rfl, rfl⟩) (fun _ => Iff.rfl) hself.nodup

theorem JobInv.server_other {w t : StoreWorker T} {k i : Nat} (h : JobInv w)
    (hst : ServerStep w k t) (hne : i ≠ k) : Knows t.jobs t.job i (t.session i) := by
  have hother : ∀ {j : Nat} (y : Job T), (w.session k).serving.job? = some j →
      y.session = (w.job j).session →
      Knows w.jobs (Function.update w.job j y) i (w.session i) := by
    intro j y hj hy
    obtain ⟨-, hk, -⟩ := (h k).taken j hj
    refine (h i).update_other ?_ ?_
    · rw [hk]
      exact hne.symm
    · rw [hy, hk]
      exact hne.symm
  cases hst with
  | take | stop | lock | leave | release => simpa [Function.update_of_ne hne] using h i
  | drop hs _ | start hs _ | fill _ hs | mark hs =>
      simp only [StoreWorker.drop, StoreWorker.start, StoreWorker.fill, setJob_jobs, setJob_job,
        setJob_session, goto_jobs, goto_job, goto_session, Function.update_of_ne hne]
      exact hother _ (by rw [hs]; rfl) rfl

theorem JobInv.server {w t : StoreWorker T} {k : Nat} (h : JobInv w) (hst : ServerStep w k t) :
    JobInv t := by
  intro i
  rcases eq_or_ne i k with rfl | hne
  · exact h.server_self hst
  · exact h.server_other hst hne

end StoreWorker

end TorchMojoBackend.Distributed
