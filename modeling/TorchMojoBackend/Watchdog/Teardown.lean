/-
  `Watchdog.Teardown`: who may abort a communicator, and when the exit path's
  reaper is cancelled.

  Source: tmb/backend/watchdog.mojo (`InCall`, `watch_claim`, `watch_release`,
  `_idle`, `_arm_reaper`, `_cancel_reaper`, `_abort_all`, `_exit_cleanup`,
  `_poll_async`, `_reaper_main`) and tmb/backend/pg.mojo (`tmb_pg_abort`,
  `tmb_pg_destroy`).

  Every load, store and compare-exchange of the shared words is one step of one
  thread, so that a run is an interleaving of those accesses.
-/
import TorchMojoBackend.Foundation.Threads

set_option autoImplicit false

namespace TorchMojoBackend.Watchdog

open TorchMojoBackend.Foundation

/-! ## Shared words -/

/-- The values of `T_STATE`: who may touch the communicator. -/
inductive CommState where
  | live
  | claimed
  | polling
  | released
  deriving DecidableEq, Repr

/-- The words of one watch and of its trackers that teardown reads or writes. -/
structure Watch where
  /-- The backend mutex is held (`with Locked()`). -/
  locked : Bool
  /-- `W_CALL_NS`: host start of a library call in progress, 0 if none. -/
  callNs : Nat
  /-- `W_NTRACK`: number of published trackers. -/
  ntrack : Nat
  /-- `T_STATE` of each tracker. -/
  state : Nat → CommState
  /-- `T_UNWATCHED` of each tracker. -/
  unwatched : Nat → Bool
  /-- `T_ASYNC` of each tracker: the code of an asynchronous error, 0 if none. -/
  async : Nat → Nat
  /-- `T_FAULT` of each tracker: the code of a driver error, 0 if none. -/
  fault : Nat → Nat
  /-- `wa.reaper_cell`: the cell of the reaper armed last, 0 if none. -/
  reaperCell : Nat
  /-- `W_RETAINED`: the published reaper cell, 0 if none. -/
  retained : Nat
  /-- A reaper thread sleeps on this cell. -/
  armed : Nat → Bool
  /-- `cell[1]`: the reaper on this cell is cancelled. -/
  cancelled : Nat → Bool
  /-- The next cell address the allocator hands out. -/
  nextCell : Nat
  /-- The process has ended (`_exit`). -/
  exited : Bool

/-- A watch with its trackers still to come. -/
def Watch.boot : Watch where
  locked := false
  callNs := 0
  ntrack := 0
  state _ := .live
  unwatched _ := false
  async _ := 0
  fault _ := 0
  reaperCell := 0
  retained := 0
  armed _ := false
  cancelled _ := false
  nextCell := 1
  exited := false

/-- `_claimed`. -/
def Watch.claimed (m : Watch) (i : Nat) : Bool :=
  m.state i = .claimed || m.state i = .released

/-- `_terminal`: made unwatched by a reported driver fault or async error. -/
def Watch.terminal (m : Watch) (i : Nat) : Bool :=
  !m.claimed i && (m.async i ≠ 0 || m.fault i ≠ 0)

/-! ## Where a thread is -/

/-- The three callers of an exit-time abort loop. -/
inductive ExitKind where
  /-- `_exit_cleanup`: only the communicators in error. -/
  | cleanup
  /-- `watch_exit`, `_fail` at exit in report mode: all, then `_cancel_reaper`. -/
  | abortAll
  /-- `_fail` in abort mode: all, then `_exit(1)`. -/
  | fatal
  deriving DecidableEq, Repr

/-- Who runs `watch_claim`, the abort and `watch_release`. -/
inductive Path where
  /-- `tmb_pg_abort` and `tmb_pg_destroy`: under the backend mutex, the abort
  inside `InCall`. -/
  | group
  /-- An exit-time loop over the first `n` trackers. -/
  | exit (kind : ExitKind) (n : Nat)
  deriving DecidableEq, Repr

/-- Who asked for the `_idle` look, and with which cell. -/
inductive Look where
  | release (path : Path) (i cell : Nat)
  | cancel
  deriving DecidableEq, Repr

/-- The control location of a thread. -/
inductive Pc where
  | idle
  /-- Holds the backend mutex. -/
  | locked
  /-- Inside `with InCall(...)` around a collective. -/
  | calling
  | claimCas (path : Path) (i : Nat)
  | claimLoad (path : Path) (i : Nat)
  | claimMark (path : Path) (i : Nat) (ok : Bool)
  /-- `watch_claim` returned True. -/
  | won (path : Path) (i : Nat)
  /-- `tmb_pg_abort`, `tmb_pg_destroy`: `InCall` entered, abort not started. -/
  | entered (i : Nat)
  /-- Inside `ncclCommAbort`. -/
  | aborting (path : Path) (i : Nat)
  /-- `tmb_pg_abort`, `tmb_pg_destroy`: the abort returned, `InCall` not left. -/
  | aborted (i : Nat)
  | releasing (path : Path) (i : Nat)
  /-- `watch_release` stored `RELEASED` and will load `W_RETAINED`. -/
  | releaseLook (path : Path) (i : Nat)
  /-- `_idle`: about to load `W_CALL_NS`. -/
  | idleCall (look : Look)
  /-- `_any_tearing`: about to load `W_NTRACK`. -/
  | idleCount (look : Look)
  /-- `_any_tearing`: about to load the state of tracker `j` of `n`. -/
  | idleScan (look : Look) (j n : Nat)
  /-- `_idle` was true: about to store the cancellation. -/
  | storeCancel (look : Look)
  /-- An exit-time loop: about to load `W_NTRACK`. -/
  | exitCount (kind : ExitKind)
  | exitLoop (kind : ExitKind) (j n : Nat)
  /-- `_cancel_reaper`: about to look at `wa.reaper_cell`. -/
  | cancelReaper
  /-- `_cancel_reaper`: about to store `W_RETAINED`. -/
  | publish
  /-- `_poll_async`: inside the library's asynchronous error query. -/
  | querying (i : Nat)
  /-- The query returned `code`: about to store `LIVE`. -/
  | pollBack (i code : Nat)
  | pollAsync (i code : Nat)
  | pollMark (i : Nat)
  deriving DecidableEq, Repr

/-- Where the abort of tracker `i` continues once it is over or was lost. -/
def Path.next (i : Nat) : Path → Pc
  | .group => .locked
  | .exit kind n => .exitLoop kind (i + 1) n

/-- Where the code goes on after an `_idle` look. -/
def Look.next : Look → Pc
  | .release path i _ => path.next i
  | .cancel => .idle

/-! ## Atomic steps -/

/-- The accesses and calls the model distinguishes. -/
inductive Action where
  | lock
  | unlock
  /-- `watch_add`: publish one more tracker. -/
  | track
  /-- `watch_fault`. -/
  | fault (i rc : Nat)
  /-- `InCall.__enter__` at host time `ns`. -/
  | enterCall (ns : Nat)
  /-- `InCall.__exit__`. -/
  | exitCall
  /-- Call `watch_claim` on tracker `i`. -/
  | beginClaim (i : Nat)
  | claimCas
  | claimLoad
  /-- `watch_claim` stores `T_UNWATCHED` and returns `ok`. -/
  | claimReturn (i : Nat) (ok : Bool)
  /-- Call `ncclCommAbort` on the communicator of tracker `i`. -/
  | abort (i : Nat)
  | abortReturn
  | release
  | releaseLook
  | idleCall
  | idleCount
  | idleScan
  | storeCancel
  /-- `_arm_reaper`; `spawned` is whether the thread could be started. -/
  | arm (kind : ExitKind) (spawned : Bool)
  | exitCount
  | exitLoop
  | cancelReaper
  | publish
  /-- `_poll_async`'s compare-exchange on tracker `i`. -/
  | poll (i : Nat)
  /-- The asynchronous error query returned; `code` is 0 without an error. -/
  | queryReturn (code : Nat)
  | pollBack
  | pollAsync
  | pollMark
  /-- `_reaper_main` wakes on an uncancelled cell. -/
  | reap (cell : Nat)
  deriving DecidableEq, Repr

/-- The backend mutex, `watch_add`, `watch_fault` and `InCall`. -/
def callStep : Pc → Action → Watch → Option (Pc × Watch)
  | .idle, .lock, m =>
      if m.locked then none else some (.locked, { m with locked := true })
  | .locked, .unlock, m => some (.idle, { m with locked := false })
  | .locked, .track, m => some (.locked, { m with ntrack := m.ntrack + 1 })
  | .locked, .fault i rc, m =>
      some (.locked, { m with fault := Function.update m.fault i rc })
  | .locked, .enterCall ns, m =>
      if ns = 0 then none else some (.calling, { m with callNs := ns })
  | .won .group i, .enterCall ns, m =>
      if ns = 0 then none else some (.entered i, { m with callNs := ns })
  | .calling, .exitCall, m => some (.locked, { m with callNs := 0 })
  | .aborted i, .exitCall, m => some (.releasing .group i, { m with callNs := 0 })
  | _, _, _ => none

/-- `watch_claim`. -/
def claimStep : Pc → Action → Watch → Option (Pc × Watch)
  | .locked, .beginClaim i, m =>
      if i < m.ntrack then some (.claimCas .group i, m) else none
  | .claimCas path i, .claimCas, m =>
      if m.state i = .live then
        some (.claimMark path i true,
          { m with state := Function.update m.state i .claimed })
      else some (.claimLoad path i, m)
  | .claimLoad path i, .claimLoad, m =>
      if m.state i = .claimed ∨ m.state i = .released then
        some (.claimMark path i false, m)
      else some (.claimCas path i, m)
  | .claimMark path i ok, .claimReturn i' ok', m =>
      if i = i' ∧ ok = ok' then
        some (if ok then .won path i else path.next i,
          { m with unwatched := Function.update m.unwatched i true })
      else none
  | _, _, _ => none

/-- The call of `ncclCommAbort` by the winner of the claim. -/
def abortStep : Pc → Action → Watch → Option (Pc × Watch)
  | .entered i, .abort i', m =>
      if i = i' then some (.aborting .group i, m) else none
  | .won (.exit kind n) i, .abort i', m =>
      if i = i' then some (.aborting (.exit kind n) i, m) else none
  | .aborting .group i, .abortReturn, m => some (.aborted i, m)
  | .aborting (.exit kind n) i, .abortReturn, m =>
      some (.releasing (.exit kind n) i, m)
  | _, _, _ => none

/-- `watch_release` up to its call of `_idle`. -/
def releaseStep : Pc → Action → Watch → Option (Pc × Watch)
  | .releasing path i, .release, m =>
      some (.releaseLook path i,
        { m with state := Function.update m.state i .released })
  | .releaseLook path i, .releaseLook, m =>
      if m.retained = 0 then some (path.next i, m)
      else some (.idleCall (.release path i m.retained), m)
  | _, _, _ => none

/-- `_idle` and `_any_tearing`, and the store of the cancellation. -/
def idleStep : Pc → Action → Watch → Option (Pc × Watch)
  | .idleCall look, .idleCall, m =>
      if m.callNs = 0 then some (.idleCount look, m) else some (look.next, m)
  | .idleCount look, .idleCount, m => some (.idleScan look 0 m.ntrack, m)
  | .idleScan look j n, .idleScan, m =>
      if j < n then
        if m.state j = .claimed then some (look.next, m)
        else some (.idleScan look (j + 1) n, m)
      else some (.storeCancel look, m)
  | .storeCancel (.release path i cell), .storeCancel, m =>
      some (path.next i, { m with cancelled := Function.update m.cancelled cell true })
  | .storeCancel .cancel, .storeCancel, m =>
      some (.idle,
        { m with cancelled := Function.update m.cancelled m.reaperCell true })
  | _, _, _ => none

/-- `_arm_reaper`, the exit-time abort loops, `_cancel_reaper` up to its call of
`_idle`, and `_reaper_main`. -/
def exitStep : Pc → Action → Watch → Option (Pc × Watch)
  | .idle, .arm kind spawned, m =>
      if kind = .cleanup ∧ m.ntrack = 0 then none
      else some (if spawned then .exitCount kind else .idle,
        { m with
          reaperCell := m.nextCell
          armed := Function.update m.armed m.nextCell spawned
          nextCell := m.nextCell + 1
          exited := !spawned && kind = .fatal })
  | .exitCount kind, .exitCount, m => some (.exitLoop kind 0 m.ntrack, m)
  | .exitLoop kind j n, .exitLoop, m =>
      if j < n then
        if kind = .cleanup ∧ m.terminal j = false then
          some (.exitLoop kind (j + 1) n, m)
        else some (.claimCas (.exit kind n) j, m)
      else if kind = .fatal then some (.idle, { m with exited := true })
      else some (.cancelReaper, m)
  | .cancelReaper, .cancelReaper, m =>
      if m.reaperCell = 0 then some (.idle, m) else some (.publish, m)
  | .publish, .publish, m =>
      some (.idleCall .cancel, { m with retained := m.reaperCell })
  | .idle, .reap cell, m =>
      if m.armed cell ∧ m.cancelled cell = false then
        some (.idle, { m with exited := true })
      else none
  | _, _, _ => none

/-- `_poll_async`. -/
def pollStep : Pc → Action → Watch → Option (Pc × Watch)
  | .idle, .poll i, m =>
      if i < m.ntrack then
        if m.state i = .live then
          some (.querying i, { m with state := Function.update m.state i .polling })
        else some (.idle, m)
      else none
  | .querying i, .queryReturn code, m => some (.pollBack i code, m)
  | .pollBack i code, .pollBack, m =>
      some (if code = 0 then .idle else .pollAsync i code,
        { m with state := Function.update m.state i .live })
  | .pollAsync i code, .pollAsync, m =>
      some (.pollMark i, { m with async := Function.update m.async i code })
  | .pollMark i, .pollMark, m =>
      some (.idle, { m with unwatched := Function.update m.unwatched i true })
  | _, _, _ => none

/-- One atomic step of a thread; nothing runs after `_exit`. -/
def atom (p : Pc) (a : Action) (m : Watch) : Option (Pc × Watch) :=
  if m.exited then none
  else
    callStep p a m <|> claimStep p a m <|> abortStep p a m <|> releaseStep p a m <|>
      idleStep p a m <|> exitStep p a m <|> pollStep p a m

/-- The program every thread of the process runs. -/
def program : Program Watch Pc Action where
  start := .idle
  boot := Watch.boot
  atom := atom

/-- All interleavings of the threads of the process. -/
def teardown (Thread : Type) [DecidableEq Thread] :
    System (Config Thread Watch Pc) (Thread × Action) :=
  program.system Thread

/-- The shared steps, one alternative for each group of functions. -/
theorem atom_eq_some {p p' : Pc} {a : Action} {m m' : Watch} :
    atom p a m = some (p', m') → m.exited = false ∧
      (callStep p a m = some (p', m') ∨ claimStep p a m = some (p', m') ∨
        abortStep p a m = some (p', m') ∨ releaseStep p a m = some (p', m') ∨
        idleStep p a m = some (p', m') ∨ exitStep p a m = some (p', m') ∨
        pollStep p a m = some (p', m')) := by
  intro h
  unfold atom at h
  by_cases hx : m.exited
  · simp [hx] at h
  · simp only [hx, Bool.false_eq_true, if_false, Option.orElse_eq_some] at h
    refine ⟨by simpa using hx, ?_⟩
    tauto

end TorchMojoBackend.Watchdog
