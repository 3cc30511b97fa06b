/-
  `Distributed.StoreWorkerRuns`: what holds of a store worker in every interleaving.

      * `run_answers`: what `run` returned for a job is what the operation of that
        job returned, and a job without an answer is that of the current call;
      * `stuck_bounded`: `stuck` counts the abandoned sessions whose thread is still
        there, and does not pass `max_abandoned`;
      * `call_ends`: a call comes to its end although no operation ever returns;
      * `thread_exits`: the thread of a session that was left behind comes to its end
        once its own operation has returned.
-/
import TorchMojoBackend.Distributed.StoreWorker
import Mathlib.Data.Finset.Card

set_option autoImplicit false

namespace TorchMojoBackend.Distributed

open TorchMojoBackend.Foundation

namespace StoreWorker

variable {T : Type}

/-! ## Opening, closing and giving up -/

def Running.inLock : Running → Bool
  | .locked _ => true
  | _ => false

/-- The job of the current call, up to the read of its box. -/
def Running.job? : Running → Option Nat
  | .wait j | .overdue j | .locked j | .giveUp j => some j
  | _ => none

/-- The session `_jobs` belongs to is alive, and holds no job but the one the caller
waits for; a session that was left behind has its end mark. -/
structure Life (w : StoreWorker T) : Prop where
  unopened : ∀ k, w.sessions ≤ k → w.session k = ⟨[], false, .waiting⟩
  some_open : w.isOpen = true → 0 < w.sessions
  put_open : ∀ gen, w.running = .put gen → w.isOpen = true
  call_open : ∀ j, w.running.job? = some j →
    w.isOpen = true ∧ j < w.jobs ∧ (w.job j).session = w.current
  read_done : ∀ j, w.running = .read j → j < w.jobs ∧ (w.job j).done = true
  live : w.isOpen = true → (∀ j, w.running ≠ .giveUp j) →
    (w.session w.current).abandoned = false
  awake : w.isOpen = true → (w.session w.current).abandoned = false →
    (w.session w.current).serving ≠ .exited
  queue : w.isOpen = true → (w.session w.current).jobs = [] ∨
    ∃ j, (w.session w.current).jobs = [some j] ∧ w.running.job? = some j
  pending : ∀ k, (w.session k).abandoned = true → (w.session k).serving = .waiting →
    ∃ j rest, (w.session k).jobs = some j :: rest
  closed : ∀ k < w.sessions, (w.isOpen = true → k ≠ w.current) →
    (w.session k).serving = .exited ∨ none ∈ (w.session k).jobs

/-- What a step of the thread of session `k` leaves alone, and what it may do to the
session. -/
structure Served (w t : StoreWorker T) (k : Nat) : Prop where
  isOpen : t.isOpen = w.isOpen
  running : t.running = w.running
  sessions : t.sessions = w.sessions
  jobs : t.jobs = w.jobs
  others : ∀ i, i ≠ k → t.session i = w.session i
  owner : ∀ j, (t.job j).session = (w.job j).session
  done : ∀ j, (w.job j).done = true → (t.job j).done = true
  abandoned : (t.session k).abandoned = (w.session k).abandoned
  queue : (t.session k).jobs = (w.session k).jobs ∨
    ∃ a, (w.session k).jobs = a :: (t.session k).jobs ∧
      (a = none → (t.session k).serving = .exited)
  wakes : (t.session k).serving = .waiting → (w.session k).abandoned = false
  exits : (t.session k).serving = .exited →
    (w.session k).abandoned = true ∨ none ∈ (w.session k).jobs
  alive : (w.session k).serving ≠ .exited

attribute [local grind =] Running.job? Running.inLock
attribute [local grind] goto drop start fill

theorem ServerStep.served {w t : StoreWorker T} {k : Nat} (h : ServerStep w k t) :
    Served w t k := by
  cases h <;> constructor <;> grind

theorem Life.server {w t : StoreWorker T} {k : Nat} (h : Life w) (hk : k < w.sessions)
    (hst : Served w t k) : Life t := by
  obtain ⟨h1, h2, h3, h4, h5, h6, h7, h8, h9, h10⟩ := h
  obtain ⟨g1, g2, g3, g4, g5, g6, g7, g8, g9, g10, g11, g12⟩ := hst
  constructor <;> grind [current]

/-- The caller goes on to `r`, and maybe the lock changes hands. -/
theorem Life.moves {w : StoreWorker T} {r : Running} {l : Option Holder} (h : Life w)
    (hput : ∀ gen, r = .put gen → w.isOpen = true)
    (hjob : ∀ j, r.job? = some j → w.running.job? = some j)
    (hread : ∀ j, r = .read j → j < w.jobs ∧ (w.job j).done = true)
    (hlive : ∀ j, w.running ≠ .giveUp j)
    (hleft : ∀ j, w.running.job? = some j → r.job? = some j ∨
      some j ∉ (w.session w.current).jobs) :
    Life { w with lock := l, running := r } where
  unopened := h.unopened
  some_open := h.some_open
  put_open := hput
  call_open j hj := h.call_open j (hjob j hj)
  read_done := hread
  live ho _ := h.live ho hlive
  awake := h.awake
  queue ho := by
    rcases h.queue ho with hq | ⟨j, hq, hj⟩
    · exact .inl hq
    · rcases hleft j hj with hr | hr
      · exact .inr ⟨j, hq, hr⟩
      · exact absurd (hq ▸ List.mem_singleton_self _) hr
  pending := h.pending
  closed := h.closed

theorem Life.openSession {w : StoreWorker T} {gen : Option Int} (h : Life w)
    (ho : w.isOpen = false) : Life { w.openSession with running := .put gen } := by
  have hsame : Function.update w.session w.sessions ⟨[], false, .waiting⟩ = w.session :=
    Function.update_eq_self_iff.mpr (h.unopened _ le_rfl).symm
  have hnew : w.session w.sessions = ⟨[], false, .waiting⟩ := h.unopened _ le_rfl
  constructor <;> simp only [StoreWorker.openSession, setSession_session, hsame, current,
    Nat.add_sub_cancel, hnew]
  case unopened => exact fun k hk => h.unopened k (Nat.le_of_succ_le hk)
  case pending => exact h.pending
  case closed =>
    intro k hk hne
    exact h.closed k ((Nat.lt_succ_iff_lt_or_eq.mp hk).resolve_right (hne trivial)) (by simp [ho])
  all_goals simp [Running.job?]

/-- The session `_jobs` belongs to becomes `x`. -/
theorem Life.replace {w t : StoreWorker T} {x : Session} (h : Life w) (ho : w.isOpen = true)
    (hx : t.session = Function.update w.session w.current x) (hn : t.sessions = w.sessions)
    (hput : ∀ gen, t.running ≠ .put gen) (hread : ∀ j, t.running ≠ .read j)
    (hcall : ∀ j, t.running.job? = some j →
      t.isOpen = true ∧ j < t.jobs ∧ (t.job j).session = w.current)
    (hlive : t.isOpen = true → (∀ j, t.running ≠ .giveUp j) → x.abandoned = false)
    (hawake : t.isOpen = true → x.abandoned = false → x.serving ≠ .exited)
    (hqueue : t.isOpen = true → x.jobs = [] ∨ ∃ j, x.jobs = [some j] ∧ t.running.job? = some j)
    (hpending : x.abandoned = true → x.serving = .waiting → ∃ j rest, x.jobs = some j :: rest)
    (hclosed : t.isOpen = false → x.serving = .exited ∨ none ∈ x.jobs) : Life t := by
  have hcur : t.current = w.current := congrArg (· - 1) hn
  have hself : t.session t.current = x := by rw [hx, hcur, Function.update_self]
  have hlt : w.current < w.sessions := Nat.sub_lt (h.some_open ho) Nat.one_pos
  refine ⟨?_, ?_, fun gen hg => absurd hg (hput gen), hcur ▸ hcall,
    fun j hj => absurd hj (hread j), hself ▸ hlive, hself ▸ hawake, hself ▸ hqueue, ?_, ?_⟩
  · intro k hk
    rw [hn] at hk
    rw [hx, Function.update_of_ne (hlt.trans_le hk).ne']
    exact h.unopened k hk
  · intro _
    rw [hn]
    exact h.some_open ho
  · intro k
    rcases eq_or_ne k w.current with rfl | hne
    · rw [hx, Function.update_self]
      exact hpending
    · rw [hx, Function.update_of_ne hne]
      exact h.pending k
  · intro k hk hopen
    rw [hn] at hk
    rw [hcur] at hopen
    rcases eq_or_ne k w.current with rfl | hne
    · rw [hx, Function.update_self]
      exact hclosed (Bool.eq_false_iff.mpr fun hto => hopen hto rfl)
    · rw [hx, Function.update_of_ne hne]
      exact h.closed k hk fun _ => hne

theorem Life.push {w : StoreWorker T} {gen : Option Int} (h : Life w)
    (hr : w.running = .put gen) : Life { w.push gen with running := .wait w.jobs } := by
  have ho := h.put_open gen hr
  have hlive := h.live ho (by simp [hr])
  have hq : (w.session w.current).jobs = [] := by
    simpa [hr, Running.job?] using h.queue ho
  refine h.replace ho rfl rfl (by simp) (by simp) ?_ (fun _ _ => hlive) (fun _ => h.awake ho)
    ?_ (fun ha => by simp [hlive] at ha) (fun hf => absurd (ho.symm.trans hf) (by simp))
  · rintro j hj
    obtain rfl : w.jobs = j := by simpa [Running.job?] using hj
    simp [StoreWorker.push, ho]
  · exact fun _ => .inr ⟨w.jobs, by simp [hq], rfl⟩

theorem Life.abandon {w : StoreWorker T} {j : Nat} (h : Life w) (hr : w.running = .locked j)
    (hu : some j ∈ (w.session w.current).jobs ∨
      (w.session w.current).serving.job? = some j) :
    Life { w.abandon with lock := none, running := .giveUp j } := by
  obtain ⟨ho, hj, hk⟩ := h.call_open j (by rw [hr]; rfl)
  have hq : (w.session w.current).jobs = [] ∨ (w.session w.current).jobs = [some j] := by
    simpa [hr, Running.job?] using h.queue ho
  refine h.replace ho rfl rfl (by simp) (by simp) ?_ (fun _ hne => absurd rfl (hne j))
    (by simp) ?_ ?_ (fun hf => absurd (ho.symm.trans hf) (by simp))
  · rintro i hi
    obtain rfl : j = i := by simpa [Running.job?] using hi
    exact ⟨ho, hj, hk⟩
  · intro _
    rcases hq with hq | hq
    · exact .inl hq
    · exact .inr ⟨j, hq, rfl⟩
  · intro _ hw
    rcases hu with hu | hu
    · rcases hq with hq | hq
      · simp [hq] at hu
      · exact ⟨j, [], hq⟩
    · have hw' : (w.session w.current).serving = .waiting := hw
      simp [hw', Serving.job?] at hu

/-- After a close the queue has its end mark. -/
theorem Life.close {w : StoreWorker T} (h : Life w) : Life { w.close with running := .idle } := by
  cases ho : w.isOpen with
  | false =>
      have hc : w.close = w := by simp [StoreWorker.close, ho]
      rw [hc]
      constructor <;> simp only [ho]
      case unopened => exact h.unopened
      case pending => exact h.pending
      case closed => exact fun k hk _ => h.closed k hk (by simp [ho])
      all_goals simp [Running.job?]
  | true =>
      have hc : w.close = { w.setSession w.current { w.session w.current with
          jobs := (w.session w.current).jobs ++ [none] } with isOpen := false } := by
        simp [StoreWorker.close, ho]
      rw [hc]
      refine h.replace ho rfl rfl (by simp) (by simp) (by simp [Running.job?]) (by simp)
        (by simp) (by simp) ?_ (fun _ => .inr (by simp))
      intro ha hw
      obtain ⟨j, rest, hq⟩ := h.pending _ ha hw
      exact ⟨j, rest ++ [none], by simp [hq]⟩

theorem Life.conclude {w : StoreWorker T} {j : Nat} {a : Option T}
    (h : Life { w with running := .idle }) : Life (w.conclude j a) where
  unopened := h.unopened
  some_open := h.some_open
  put_open := by simp [StoreWorker.conclude]
  call_open := by simp [StoreWorker.conclude, Running.job?]
  read_done := by simp [StoreWorker.conclude]
  live := h.live
  awake := h.awake
  queue := h.queue
  pending := h.pending
  closed := h.closed

theorem Life.caller {w t : StoreWorker T} {m : Option Int} (h : Life w) (hj : JobInv w)
    (hst : CallerStep m w t) : Life t := by
  have hwaits : ∀ j, (w.job j).done = true → some j ∉ (w.session w.current).jobs := by
    intro j hd hm
    rw [((hj w.current).queued j hm).2.2.done] at hd
    cases hd
  cases hst with
  | run hr | refuse hr | enter hr =>
      exact h.moves (by simp) (by simp [Running.job?]) (by simp) (by simp [hr])
        (by simp [hr, Running.job?])
  | shut hr =>
      have hc : { w.close with running := .idle } = w.close := by
        unfold StoreWorker.close
        split <;> simp [← hr]
      exact hc ▸ h.close
  | setLatest => exact ⟨h.1, h.2, h.3, h.4, h.5, h.6, h.7, h.8, h.9, h.10⟩
  | reuse hr ho =>
      exact h.moves (fun _ _ => ho) (by simp [Running.job?]) (by simp) (by simp [hr])
        (by simp [hr, Running.job?])
  | openSession hr ho => exact h.openSession ho
  | put hr => exact h.push hr
  | @answered j hr hd | @late j hr hd =>
      obtain ⟨-, hlt, -⟩ := h.call_open j (by rw [hr]; rfl)
      refine h.moves (by simp) (by simp [Running.job?]) ?_ (by simp [hr]) ?_
      · intro i hi
        obtain rfl : j = i := by simpa using hi
        exact ⟨hlt, hd⟩
      · intro i hi
        obtain rfl : j = i := by simpa [hr, Running.job?] using hi
        exact .inr (hwaits j hd)
  | timeout hr | lock hr _ =>
      exact h.moves (by simp) (by simp [hr, Running.job?]) (by simp) (by simp [hr])
        (by simp [hr, Running.job?])
  | @abandon j hr hd =>
      obtain ⟨-, hlt, hk⟩ := h.call_open j (by rw [hr]; rfl)
      exact h.abandon hr ((hj w.current).undone j hlt hk hd)
  | giveUp hr => exact h.close.conclude
  | fail hr hb =>
      exact h.moves (by simp) (by simp [Running.job?]) (by simp) (by simp [hr])
        (by simp [hr, Running.job?])
  | read hr hb =>
      have hidle := h.moves (r := .idle) (l := w.lock) (by simp) (by simp [Running.job?])
        (by simp) (by simp [hr]) (by simp [hr, Running.job?])
      exact hidle.conclude

/-! ## The lock -/

/-- The thread of a session is in the locked part. -/
def Serving.inLock : Serving → Bool
  | .locked _ | .marked _ => true
  | _ => false

/-- The lock is held by the thread that is in its locked part, if any. -/
structure LockInv (w : StoreWorker T) : Prop where
  server : ∀ k, w.lock = some (.server k) ↔ (w.session k).serving.inLock = true
  caller : w.lock = some .caller ↔ w.running.inLock = true

attribute [local grind =] Serving.inLock

theorem LockInv.server_step {w t : StoreWorker T} {k : Nat} (h : LockInv w)
    (hst : ServerStep w k t) : LockInv t := by
  obtain ⟨hs, hc⟩ := h
  cases hst <;> constructor <;> grind

@[simp] theorem close_lock (w : StoreWorker T) : w.close.lock = w.lock := by
  unfold StoreWorker.close
  split <;> rfl

/-- The caller moves no other thread. -/
theorem CallerStep.serving {w t : StoreWorker T} {m : Option Int} (hst : CallerStep m w t)
    (hl : Life w) (k : Nat) : (t.session k).serving = (w.session k).serving := by
  have hsame : ∀ {i : Nat} {x : Session}, x.serving = (w.session i).serving →
      (Function.update w.session i x k).serving = (w.session k).serving := by
    intro i x hx
    rcases eq_or_ne k i with rfl | hne
    · rw [Function.update_self, hx]
    · rw [Function.update_of_ne hne]
  have hclose : (w.close.session k).serving = (w.session k).serving := by
    unfold StoreWorker.close
    split
    · exact hsame rfl
    · rfl
  cases hst with
  | shut | giveUp => exact hclose
  | openSession => exact hsame (by rw [hl.unopened w.sessions le_rfl])
  | put | abandon => exact hsame rfl
  | _ => rfl

theorem LockInv.caller_step {w t : StoreWorker T} {m : Option Int} (h : LockInv w) (hl : Life w)
    (hst : CallerStep m w t) : LockInv t := by
  have hserving := hst.serving hl
  obtain ⟨hs, hc⟩ := h
  constructor
  · intro k
    rw [hserving, ← hs]
    cases hst with
    | lock hr hfree => simp [hfree]
    | late hr | abandon hr =>
        have hheld := hc.mpr (by rw [hr]; rfl)
        simp [hheld]
    | shut | giveUp => simp [StoreWorker.conclude]
    | _ => rfl
  · cases hst with
    | run hr | refuse hr | enter hr | reuse hr | answered hr | timeout hr | fail hr | put hr
    | openSession hr | giveUp hr | read hr =>
        simpa [hr, Running.inLock, StoreWorker.openSession, StoreWorker.push,
          StoreWorker.conclude] using hc
    | shut hr =>
        unfold StoreWorker.close
        split <;> exact hc
    | setLatest => exact hc
    | lock | late | abandon => simp [Running.inLock]

/-! ## Abandoned sessions -/

/-- The sessions that were abandoned and whose thread is still there. -/
def stuckSessions (w : StoreWorker T) : Finset Nat :=
  (Finset.range w.sessions).filter fun k =>
    (w.session k).abandoned = true ∧ (w.session k).serving ≠ .exited

/-- A call that was let in and can still abandon its job. -/
def Running.admitted : Running → Bool
  | .ensure _ | .put _ | .wait _ | .overdue _ | .locked _ => true
  | _ => false

/-- `stuck` counts the abandoned sessions, below the limit while a call may add one. -/
structure StuckInv (limit : Option Int) (w : StoreWorker T) : Prop where
  counts : w.stuck = w.stuckSessions.card
  bounded : ∀ n, limit = some n → w.stuck ≤ max n 0
  admitted : ∀ n, limit = some n → w.running.admitted = true → w.stuck < n

theorem mem_stuckSessions {w : StoreWorker T} {k : Nat} :
    k ∈ w.stuckSessions ↔
      k < w.sessions ∧ (w.session k).abandoned = true ∧ (w.session k).serving ≠ .exited := by
  simp [stuckSessions]

/-- A session counts until its thread leaves. -/
theorem ServerStep.stuckSessions {w t : StoreWorker T} {k : Nat} (hst : ServerStep w k t)
    (hl : Life w) (hk : k < w.sessions) :
    t.stuckSessions = w.stuckSessions ∧ t.stuck = w.stuck ∨
      k ∈ w.stuckSessions ∧ t.stuckSessions = w.stuckSessions.erase k ∧ t.stuck = w.stuck - 1 := by
  have hserved := hst.served
  have hkeep : ((t.session k).serving = .exited → (w.session k).abandoned = false) →
      t.stuckSessions = w.stuckSessions := by
    intro hexit
    ext i
    rw [mem_stuckSessions, mem_stuckSessions, hserved.sessions]
    rcases eq_or_ne i k with rfl | hne
    · rw [hserved.abandoned]
      have := hserved.alive
      grind
    · rw [hserved.others i hne]
  cases hst with
  | leave hs ha =>
      refine .inr ⟨mem_stuckSessions.mpr ⟨hk, ha, hserved.alive⟩, ?_, rfl⟩
      ext i
      rw [Finset.mem_erase, mem_stuckSessions, mem_stuckSessions, hserved.sessions]
      rcases eq_or_ne i k with rfl | hne
      · simp
      · simp [hne]
  | stop hs hq =>
      refine .inl ⟨hkeep fun _ => ?_, rfl⟩
      refine Bool.eq_false_iff.mpr fun ha => ?_
      obtain ⟨j, rest, hj⟩ := hl.pending k ha hs
      simp [hq] at hj
  | _ => exact .inl ⟨hkeep (by grind), rfl⟩

theorem StuckInv.server {limit : Option Int} {w t : StoreWorker T} {k : Nat}
    (h : StuckInv limit w) (hl : Life w) (hk : k < w.sessions) (hst : ServerStep w k t) :
    StuckInv limit t := by
  have hle : t.stuck ≤ w.stuck := by
    rcases hst.stuckSessions hl hk with ⟨-, hs⟩ | ⟨-, -, hs⟩ <;> omega
  refine ⟨?_, fun n hn => hle.trans (h.bounded n hn), ?_⟩
  · rcases hst.stuckSessions hl hk with ⟨he, hs⟩ | ⟨hm, he, hs⟩
    · rw [he, hs, h.counts]
    · have hpos := Finset.card_pos.mpr ⟨k, hm⟩
      rw [he, hs, h.counts, Finset.card_erase_of_mem hm]
      omega
  · intro n hn ha
    rw [hst.served.running] at ha
    exact hle.trans_lt (h.admitted n hn ha)

/-- Only giving up on a job adds a session. -/
theorem CallerStep.stuckSessions {limit : Option Int} {w t : StoreWorker T}
    (hst : CallerStep limit w t) (hl : Life w) :
    t.stuckSessions = w.stuckSessions ∧ t.stuck = w.stuck ∧
        (t.running.admitted = true → w.running.admitted = true ∨ w.refuses limit = false) ∨
      w.running.admitted = true ∧ t.running.admitted = false ∧ w.current ∉ w.stuckSessions ∧
        t.stuckSessions = insert w.current w.stuckSessions ∧ t.stuck = w.stuck + 1 := by
  have hkeep : t.sessions = w.sessions →
      (∀ k, (t.session k).abandoned = (w.session k).abandoned) →
      t.stuckSessions = w.stuckSessions := by
    intro hn hx
    ext k
    rw [mem_stuckSessions, mem_stuckSessions, hn, hx, hst.serving hl]
  have hsame : ∀ {i : Nat} {x : Session}, x.abandoned = (w.session i).abandoned → ∀ k,
      (Function.update w.session i x k).abandoned = (w.session k).abandoned := by
    intro i x hx k
    rcases eq_or_ne k i with rfl | hne
    · rw [Function.update_self, hx]
    · rw [Function.update_of_ne hne]
  have hclose : w.close.sessions = w.sessions ∧ w.close.stuck = w.stuck ∧
      w.close.running = w.running ∧
      ∀ k, (w.close.session k).abandoned = (w.session k).abandoned := by
    unfold StoreWorker.close
    split
    · exact ⟨rfl, rfl, rfl, hsame rfl⟩
    · exact ⟨rfl, rfl, rfl, fun _ => rfl⟩
  obtain ⟨hn, hs, hrun, ha⟩ := hclose
  cases hst with
  | shut hr => exact .inl ⟨hkeep hn ha, hs, by simp [hrun, hr, Running.admitted]⟩
  | giveUp hr => exact .inl ⟨hkeep hn ha, hs, by simp [StoreWorker.conclude, Running.admitted]⟩
  | openSession hr ho =>
      refine .inl ⟨?_, rfl, by simp [hr, Running.admitted]⟩
      have hnew := hl.unopened w.sessions le_rfl
      have hold : Function.update w.session w.sessions ⟨[], false, .waiting⟩ = w.session :=
        Function.update_eq_self_iff.mpr hnew.symm
      ext k
      rw [mem_stuckSessions, mem_stuckSessions]
      simp only [StoreWorker.openSession, setSession_session, hold]
      constructor
      · rintro ⟨hk, hab, hne⟩
        refine ⟨(Nat.lt_succ_iff_lt_or_eq.mp hk).resolve_right ?_, hab, hne⟩
        rintro rfl
        simp [hnew] at hab
      · rintro ⟨hk, hx⟩
        exact ⟨hk.trans (Nat.lt_succ_self _), hx⟩
  | put hr => exact .inl ⟨hkeep rfl (hsame rfl), rfl, by simp [hr, Running.admitted]⟩
  | @abandon j hr hd =>
      obtain ⟨ho, hlt, hk⟩ := hl.call_open j (by rw [hr]; rfl)
      have hlive := hl.live ho (by simp [hr])
      have hcur : w.current < w.sessions := Nat.sub_lt (hl.some_open ho) Nat.one_pos
      refine .inr ⟨by rw [hr]; rfl, rfl, by simp [mem_stuckSessions, hlive], ?_, rfl⟩
      ext k
      rw [mem_stuckSessions, Finset.mem_insert, mem_stuckSessions]
      simp only [StoreWorker.abandon, setSession_session, setSession_sessions]
      rcases eq_or_ne k w.current with rfl | hne
      · simpa [hcur] using hl.awake ho hlive
      · simp [hne]
  | enter hr hm => exact .inl ⟨hkeep rfl fun _ => rfl, rfl, fun _ => .inr hm⟩
  | run | refuse | answered | late | fail | read =>
      exact .inl ⟨hkeep rfl fun _ => rfl, rfl, by simp [StoreWorker.conclude, Running.admitted]⟩
  | setLatest => exact .inl ⟨hkeep rfl fun _ => rfl, rfl, .inl⟩
  | reuse hr | timeout hr | lock hr =>
      exact .inl ⟨hkeep rfl fun _ => rfl, rfl, by simp [hr, Running.admitted]⟩

theorem StuckInv.caller {limit : Option Int} {w t : StoreWorker T} (h : StuckInv limit w)
    (hl : Life w) (hst : CallerStep limit w t) : StuckInv limit t := by
  rcases hst.stuckSessions hl with ⟨he, hs, hr⟩ | ⟨ha, hr, hm, he, hs⟩
  · refine ⟨by rw [he, hs, h.counts], fun n hn => hs ▸ h.bounded n hn, ?_⟩
    intro n hn ha
    rw [hs]
    rcases hr ha with hadm | hlim
    · exact h.admitted n hn hadm
    · simpa [refuses, hn] using hlim
  · refine ⟨?_, ?_, fun n hn ht => absurd (hr.symm.trans ht) (by simp)⟩
    · rw [he, hs, h.counts, Finset.card_insert_of_notMem hm, Int.natCast_succ]
    · intro n hn
      rw [hs]
      exact (Int.add_one_le_iff.mpr (h.admitted n hn ha)).trans (le_max_left ..)

/-! ## Every reachable state -/

/-- The caller changes no job but the one it puts or concludes. -/
theorem JobInv.caller {limit : Option Int} {w t : StoreWorker T} (h : JobInv w) (hl : Life w)
    (hst : CallerStep limit w t) : JobInv t := by
  have hsession : ∀ {k : Nat} {x : Session}, Knows w.jobs w.job k x →
      ∀ i, Knows w.jobs w.job i (Function.update w.session k x i) := by
    intro k x hx i
    rcases eq_or_ne i k with rfl | hne
    · simpa using hx
    · simpa [hne] using h i
  have hclose : ∀ i, Knows w.jobs w.job i (w.close.session i) := by
    unfold StoreWorker.close
    split
    · rename_i ho
      refine hsession ((h w.current).rest (.inl rfl) (by simp) ?_)
      rw [List.nodup_append]
      refine ⟨(h w.current).nodup, List.nodup_singleton _, ?_⟩
      rintro a ha b hb rfl
      rw [List.mem_singleton] at hb
      rcases hl.queue ho with hq | ⟨j, hq, -⟩ <;> simp [hq, hb] at ha
    · exact h
  have hcj : w.close.jobs = w.jobs ∧ w.close.job = w.job := by
    unfold StoreWorker.close
    split <;> exact ⟨rfl, rfl⟩
  cases hst with
  | shut hr =>
      intro i
      rw [hcj.1, hcj.2]
      exact hclose i
  | openSession hr ho =>
      refine hsession ?_
      rw [← hl.unopened w.sessions le_rfl]
      exact h _
  | put hr =>
      intro i
      simp only [StoreWorker.push, setJob_job, setJob_session, setSession_session, setSession_job]
      rcases eq_or_ne i w.current with rfl | hne
      · rw [Function.update_self]
        exact (h w.current).push rfl ⟨rfl, rfl, rfl, rfl⟩
      · rw [Function.update_of_ne hne]
        refine (h i).frame (Nat.le_succ _) (fun j hj _ => Function.update_of_ne hj.ne ..) ?_
        intro j hj hk
        rcases Nat.lt_succ_iff_lt_or_eq.mp hj with hlt | rfl
        · rw [Function.update_of_ne hlt.ne] at hk
          exact ⟨hlt, hk⟩
        · rw [Function.update_self] at hk
          exact absurd hk.symm hne
  | abandon => exact hsession ((h w.current).rest (.inl rfl) (fun _ => Iff.rfl) (h w.current).nodup)
  | giveUp hr =>
      intro i
      simp only [StoreWorker.conclude, setJob_jobs, setJob_job, setJob_session, hcj.1, hcj.2]
      exact (hclose i).answer
  | read hr hb => exact fun i => (h i).answer
  | _ => exact h

/-- Every job but that of the current call has its answer, and the answer is what the
job returned unless its session was abandoned. -/
structure AnswerInv (w : StoreWorker T) : Prop where
  fine : w.running ≠ .failed
  gaveUp : ∀ j, w.running = .giveUp j → (w.session (w.job j).session).abandoned = true
  unanswered : ∀ j < w.jobs, (w.job j).answer = none →
    w.running.job? = some j ∨ w.running = .read j
  value : ∀ j x, (w.job j).answer = some (some x) →
    (w.job j).done = true ∧ (w.job j).returned = some (some x)
  nothing : ∀ j, (w.job j).answer = some none →
    (w.session (w.job j).session).abandoned = true ∨
      (w.job j).done = true ∧ ∀ x, (w.job j).returned ≠ some (some x)

/-- A thread changes no job that is done, and no answer. -/
theorem ServerStep.done_kept {w t : StoreWorker T} {k : Nat} (hst : ServerStep w k t)
    (hj : JobInv w) {j : Nat} (hd : (w.job j).done = true) : t.job j = w.job j := by
  have hne : ∀ {i}, (w.session k).serving.job? = some i → (w.job i).done = false → j ≠ i := by
    rintro i - hi rfl
    simp [hi] at hd
  have hself := (hj k).taken
  cases hst with
  | @drop i hs _ | @start i hs _ | @fill i _ hs | @mark i hs =>
      have hat := (hself i (by rw [hs]; rfl)).2.2.2
      rw [hs] at hat
      exact Function.update_of_ne (hne (by rw [hs]; rfl) hat.1) ..
  | _ => rfl

theorem ServerStep.answer {w t : StoreWorker T} {k : Nat} (hst : ServerStep w k t) (j : Nat) :
    (t.job j).answer = (w.job j).answer := by
  cases hst <;> grind

theorem AnswerInv.server {w t : StoreWorker T} {k : Nat} (h : AnswerInv w) (hj : JobInv w)
    (hst : ServerStep w k t) : AnswerInv t := by
  have hserved := hst.served
  have habandoned : ∀ i, (t.session i).abandoned = (w.session i).abandoned := by
    intro i
    rcases eq_or_ne i k with rfl | hne
    · exact hserved.abandoned
    · rw [hserved.others i hne]
  refine ⟨?_, ?_, ?_, ?_, ?_⟩
  · rw [hserved.running]
    exact h.fine
  · intro j hr
    rw [hserved.owner, habandoned]
    exact h.gaveUp j (hserved.running ▸ hr)
  · intro j hlt ha
    rw [hserved.running]
    exact h.unanswered j (hserved.jobs ▸ hlt) (hst.answer j ▸ ha)
  · intro j x ha
    have hw := h.value j x (hst.answer j ▸ ha)
    rw [hst.done_kept hj hw.1]
    exact hw
  · intro j ha
    rw [hserved.owner, habandoned]
    rcases h.nothing j (hst.answer j ▸ ha) with hab | hw
    · exact .inl hab
    · rw [hst.done_kept hj hw.1]
      exact .inr hw

/-- What `box[0]` is to `run`. -/
theorem Job.Filled.answer {x : Job T} {item : Boxed T} {rest : List (Boxed T)}
    (h : x.Filled) (hb : x.box = item :: rest) :
    (∀ y, item.answer = some y → x.returned = some (some y)) ∧
      (item.answer = none → ∀ y, x.returned ≠ some (some y)) := by
  obtain ⟨l, -, hx⟩ := h
  split at hx
  · obtain ⟨hbox, -, hret⟩ := hx
    obtain ⟨rfl, -⟩ : item = .stale ∧ rest = [] := by simpa [hbox, eq_comm] using hb
    simp [Boxed.answer, hret]
  · obtain ⟨r, hbox, -, hret⟩ := hx
    obtain ⟨rfl, -⟩ : item = r.elim .error .result ∧ rest = [] := by
      simpa [hbox, eq_comm] using hb
    cases r <;> simp [Boxed.answer, hret]

theorem AnswerInv.moves {w : StoreWorker T} {r : Running} {l : Option Holder} (h : AnswerInv w)
    (hfine : r ≠ .failed) (hup : ∀ j, r ≠ .giveUp j)
    (hr : ∀ j, w.running.job? = some j ∨ w.running = .read j →
      r.job? = some j ∨ r = .read j) : AnswerInv { w with lock := l, running := r } where
  fine := hfine
  gaveUp j hj := absurd hj (hup j)
  unanswered j hlt ha := hr j (h.unanswered j hlt ha)
  value := h.value
  nothing := h.nothing

/-- `run` returns. -/
theorem AnswerInv.conclude {w v : StoreWorker T} {j : Nat} {a : Option T} (h : AnswerInv w)
    (hv : v.job = w.job) (hn : v.jobs = w.jobs)
    (hab : ∀ k, (v.session k).abandoned = (w.session k).abandoned)
    (hr : ∀ i, w.running.job? = some i ∨ w.running = .read i → i = j)
    (hvalue : ∀ x, a = some x → (w.job j).done = true ∧ (w.job j).returned = some (some x))
    (hnothing : a = none → (w.session (w.job j).session).abandoned = true ∨
      (w.job j).done = true ∧ ∀ x, (w.job j).returned ≠ some (some x)) :
    AnswerInv (v.conclude j a) := by
  refine ⟨by simp [StoreWorker.conclude], by simp [StoreWorker.conclude], ?_, ?_, ?_⟩ <;>
    intro i <;>
    simp only [StoreWorker.conclude, setJob_job, setJob_session, setJob_jobs, hv, hn, hab]
  · intro hlt ha
    rcases eq_or_ne i j with rfl | hne
    · simp at ha
    · rw [Function.update_of_ne hne] at ha
      exact absurd (hr i (h.unanswered i hlt ha)) hne
  · intro x ha
    rcases eq_or_ne i j with rfl | hne
    · rw [Function.update_self] at ha ⊢
      exact hvalue x (by simpa using ha)
    · rw [Function.update_of_ne hne] at ha ⊢
      exact h.value i x ha
  · intro ha
    rcases eq_or_ne i j with rfl | hne
    · rw [Function.update_self] at ha ⊢
      exact hnothing (by simpa using ha)
    · rw [Function.update_of_ne hne] at ha ⊢
      exact h.nothing i ha

theorem CallerStep.abandoned {limit : Option Int} {w t : StoreWorker T}
    (hst : CallerStep limit w t) (hl : Life w) {k : Nat}
    (hk : (w.session k).abandoned = true) : (t.session k).abandoned = true := by
  have hset : ∀ {i : Nat} {x : Session}, ((w.session i).abandoned = true → x.abandoned = true) →
      (Function.update w.session i x k).abandoned = true := by
    intro i x hx
    rcases eq_or_ne k i with rfl | hne
    · rw [Function.update_self]
      exact hx hk
    · rw [Function.update_of_ne hne]
      exact hk
  have hclose : (w.close.session k).abandoned = true := by
    unfold StoreWorker.close
    split
    · exact hset id
    · exact hk
  cases hst with
  | shut | giveUp => exact hclose
  | openSession => exact hset (by simp [hl.unopened w.sessions le_rfl])
  | put => exact hset id
  | abandon => exact hset fun _ => rfl
  | _ => exact hk

theorem close_abandoned (w : StoreWorker T) (k : Nat) :
    (w.close.session k).abandoned = (w.session k).abandoned := by
  unfold StoreWorker.close
  split
  · rcases eq_or_ne k w.current with rfl | hne
    · simp
    · simp [hne]
  · rfl

@[simp] theorem close_job (w : StoreWorker T) : w.close.job = w.job := by
  unfold StoreWorker.close
  split <;> rfl

@[simp] theorem close_jobs (w : StoreWorker T) : w.close.jobs = w.jobs := by
  unfold StoreWorker.close
  split <;> rfl

@[simp] theorem close_running (w : StoreWorker T) : w.close.running = w.running := by
  unfold StoreWorker.close
  split <;> rfl

theorem AnswerInv.caller {limit : Option Int} {w t : StoreWorker T} (h : AnswerInv w)
    (hj : JobInv w) (hl : Life w) (hst : CallerStep limit w t) : AnswerInv t := by
  cases hst with
  | run hr | refuse hr | enter hr | reuse hr =>
      exact h.moves (by simp) (by simp) (by simp [hr, Running.job?])
  | setLatest => exact ⟨h.1, h.2, h.3, h.4, h.5⟩
  | timeout hr | answered hr | late hr | lock hr =>
      exact h.moves (by simp) (by simp) (by simp [hr, Running.job?])
  | shut hr =>
      refine ⟨by simp [hr], by simp [hr], ?_, ?_, ?_⟩ <;>
        simp only [close_job, close_jobs, close_running, close_abandoned]
      · exact h.unanswered
      · exact h.value
      · exact h.nothing
  | openSession hr =>
      have hold : Function.update w.session w.sessions ⟨[], false, .waiting⟩ = w.session :=
        Function.update_eq_self_iff.mpr (hl.unopened w.sessions le_rfl).symm
      refine ⟨by simp, by simp, fun j hlt ha => ?_, h.value, ?_⟩
      · have := h.unanswered j hlt ha
        simp [hr, Running.job?] at this
      · simp only [StoreWorker.openSession, setSession_session, hold]
        exact h.nothing
  | @put gen hr =>
      have hstep : CallerStep limit w { w.push gen with running := .wait w.jobs } := .put hr
      have hab : ∀ k, (w.session k).abandoned = true → ((w.push gen).session k).abandoned = true :=
        fun _ => hstep.abandoned hl
      have hother : ∀ {i a}, ((w.push gen).job i).answer = some a → (w.push gen).job i = w.job i := by
        intro i a ha
        rcases eq_or_ne i w.jobs with rfl | hne
        · simp [StoreWorker.push] at ha
        · simp [StoreWorker.push, hne]
      refine ⟨by simp, by simp, ?_, ?_, ?_⟩
      · intro i hlt ha
        rcases Nat.lt_succ_iff_lt_or_eq.mp hlt with hlt | rfl
        · have hi : (w.push gen).job i = w.job i := by simp [StoreWorker.push, hlt.ne]
          have := h.unanswered i hlt (hi ▸ ha)
          simp [hr, Running.job?] at this
        · exact .inl rfl
      · intro i x ha
        have hi := hother ha
        rw [hi] at ha ⊢
        exact h.value i x ha
      · intro i ha
        have hi := hother ha
        rw [hi] at ha ⊢
        rcases h.nothing i ha with hn | hn
        · exact .inl (hab _ hn)
        · exact .inr hn
  | @abandon j hr hd =>
      obtain ⟨ho, hlt, hk⟩ := hl.call_open j (by rw [hr]; rfl)
      have hstep : CallerStep limit w { w.abandon with lock := none, running := .giveUp j } := .abandon hr hd
      have hab : ∀ k, (w.session k).abandoned = true → (w.abandon.session k).abandoned = true :=
        fun _ => hstep.abandoned hl
      refine ⟨by simp, ?_, ?_, h.value, ?_⟩
      · intro i hi
        obtain rfl : j = i := by simpa using hi
        simp [StoreWorker.abandon, hk]
      · intro i hlt' ha
        simpa [hr, Running.job?] using h.unanswered i hlt' ha
      · intro i ha
        rcases h.nothing i ha with hn | hn
        · exact .inl (hab _ hn)
        · exact .inr hn
  | @giveUp j hr =>
      have hab := h.gaveUp j hr
      exact h.conclude (close_job w) (close_jobs w) (close_abandoned w) (by simp [hr, Running.job?, eq_comm]) (by simp)
        (fun _ => .inl hab)
  | @fail j hr hb =>
      obtain ⟨hlt, hd⟩ := hl.read_done j hr
      obtain ⟨l, -, hx⟩ := (hj _).done j hlt rfl hd
      split at hx
      · simp [hb] at hx
      · simp [hb] at hx
  | @read j item rest hr hb =>
      obtain ⟨hlt, hd⟩ := hl.read_done j hr
      obtain ⟨hsome, hnone⟩ := ((hj _).done j hlt rfl hd).answer hb
      exact h.conclude rfl rfl (fun _ => rfl) (by simp [hr, Running.job?, eq_comm])
        (fun x hx => ⟨hd, hsome x hx⟩) (fun hx => .inr ⟨hd, hnone hx⟩)

/-- What holds in every reachable state. -/
structure Inv (limit : Option Int) (w : StoreWorker T) : Prop where
  lock : LockInv w
  jobs : JobInv w
  life : Life w
  stuck : StuckInv limit w
  answers : AnswerInv w

theorem inv_init (limit : Option Int) : Inv limit (init T) where
  lock := by constructor <;> simp [init, Serving.inLock, Running.inLock]
  jobs k := by constructor <;> simp [init, Serving.job?]
  life := by constructor <;> simp [init, Running.job?]
  stuck := by constructor <;> simp [init, stuckSessions, Running.admitted]
  answers := by constructor <;> simp [init]

theorem Inv.step {limit : Option Int} {w t : StoreWorker T} {e : Event T} (h : Inv limit w)
    (hnext : next limit w e = some t) : Inv limit t := by
  rcases next_cases hnext with hst | ⟨k, hk, hst⟩
  · exact ⟨h.lock.caller_step h.life hst, h.jobs.caller h.life hst, h.life.caller h.jobs hst,
      h.stuck.caller h.life hst, h.answers.caller h.jobs h.life hst⟩
  · exact ⟨h.lock.server_step hst, h.jobs.server hst, h.life.server hk hst.served,
      h.stuck.server h.life hk hst, h.answers.server h.jobs hst⟩

theorem Inv.of_reachable {limit : Option Int} {w : StoreWorker T}
    (h : (system T limit).Reachable w) : Inv limit w := by
  refine h.invariant ?_ fun s e t _ hs hnext => hs.step hnext
  rintro s rfl
  exact inv_init limit

/-! ## What a call returns -/

/-- A job is started at most once. -/
theorem JobInv.starts_le {w : StoreWorker T} (h : JobInv w) {j : Nat} (hlt : j < w.jobs) :
    (w.job j).starts ≤ 1 := by
  have hk := h (w.job j).session
  have hfilled : (w.job j).Filled → (w.job j).starts ≤ 1 := by
    rintro ⟨l, -, hx⟩
    split at hx
    · simp [hx.2.1]
    · obtain ⟨r, -, hs, -⟩ := hx
      exact hs.le
  cases hd : (w.job j).done with
  | true => exact hfilled (hk.done j hlt rfl hd)
  | false =>
      rcases hk.undone j hlt rfl hd with hq | hs
      · simp [(hk.queued j hq).2.2.starts]
      · have hat := (hk.taken j hs).2.2.2
        cases hserving : (w.session (w.job j).session).serving <;> rw [hserving] at hs hat
        case compare => simp [hat.starts]
        case calling => exact hat.starts.le
        case boxed | locked => exact hfilled hat.2
        all_goals simp [Serving.job?] at hs

/-- In every interleaving, what `run` returned for a job is what the operation of that
very job returned, run once and not stale when it was; `run` returns `None` only for
a job that was dropped, raised, or whose session was abandoned, and never fails. -/
theorem run_answers {limit : Option Int} {w : StoreWorker T}
    (h : (system T limit).Reachable w) :
    w.running ≠ .failed ∧
      ∀ j < w.jobs, (w.job j).starts ≤ 1 ∧
        ((w.job j).answer = none → w.running.job? = some j ∨ w.running = .read j) ∧
        (∀ x, (w.job j).answer = some (some x) →
          (w.job j).starts = 1 ∧ (w.job j).returned = some (some x) ∧
            ∃ l, (w.job j).seen = some l ∧ isStale (w.job j).gen l = false) ∧
        ((w.job j).answer = some none →
          (w.session (w.job j).session).abandoned = true ∨
          (w.job j).starts = 1 ∧ (w.job j).returned = some none ∨
          (w.job j).starts = 0 ∧
            ∃ l, (w.job j).seen = some l ∧ isStale (w.job j).gen l = true) := by
  have hinv := Inv.of_reachable h
  refine ⟨hinv.answers.fine, ?_⟩
  intro j hlt
  have hfilled := (hinv.jobs (w.job j).session).done j hlt rfl
  refine ⟨hinv.jobs.starts_le hlt, hinv.answers.unanswered j hlt, ?_, ?_⟩
  · intro x ha
    obtain ⟨hd, hret⟩ := hinv.answers.value j x ha
    obtain ⟨l, hl, hx⟩ := hfilled hd
    split at hx
    · simp [hret] at hx
    · obtain ⟨r, -, hs, -⟩ := hx
      exact ⟨hs, hret, l, hl, Bool.eq_false_iff.mpr ‹_›⟩
  · intro ha
    rcases hinv.answers.nothing j ha with hab | ⟨hd, hret⟩
    · exact .inl hab
    · obtain ⟨l, hl, hx⟩ := hfilled hd
      split at hx
      · exact .inr (.inr ⟨hx.2.1, l, hl, ‹_›⟩)
      · obtain ⟨r, -, hs, hr⟩ := hx
        cases r with
        | none => exact .inr (.inl ⟨hs, hr⟩)
        | some x => exact absurd hr (hret x)

/-- A call whose operation returned 7 in time. -/
theorem run_answers_seven :
    ∃ w, (system Nat none).run (init Nat) [.run none, .caller, .caller, .caller, .serve 0,
        .serve 0, .finish 0 (some 7), .serve 0, .serve 0, .caller, .caller] = some w ∧
      (w.job 0).answer = some (some 7) ∧ (w.job 0).starts ≤ 1 := by
  have hreach : (system Nat none).Reachable _ :=
    ⟨init Nat, [.run none, .caller, .caller, .caller, .serve 0, .serve 0, .finish 0 (some 7), .serve 0, .serve 0, .caller, .caller], rfl, rfl⟩
  refine ⟨_, rfl, rfl, ?_⟩
  exact ((run_answers hreach).2 0 Nat.one_pos).1

/-- `stuck` is the number of abandoned sessions whose thread is still there; it does not
pass the limit, and two threads are never in the locked part. -/
theorem stuck_bounded {limit : Option Int} {w : StoreWorker T}
    (h : (system T limit).Reachable w) :
    w.stuck = w.stuckSessions.card ∧ (∀ n, limit = some n → w.stuck ≤ max n 0) ∧
      (∀ k i, (w.session k).serving.inLock = true → (w.session i).serving.inLock = true →
        k = i) ∧
      ∀ k, (w.session k).serving.inLock = true → w.running.inLock = false := by
  obtain ⟨hlock, -, -, hstuck, -⟩ := Inv.of_reachable h
  refine ⟨hstuck.counts, hstuck.bounded, ?_, ?_⟩
  · intro k i hk hi
    have := ((hlock.server k).mpr hk).symm.trans ((hlock.server i).mpr hi)
    simpa using this
  · intro k hk
    refine Bool.eq_false_iff.mpr fun hr => ?_
    have := ((hlock.server k).mpr hk).symm.trans (hlock.caller.mpr hr)
    simp at this

/-- A limit of one and a session whose operation does not return: the next call is
refused. -/
theorem stuck_bounded_one :
    ∃ w, (system Nat (some 1)).run (init Nat) [.run none, .caller, .caller, .caller, .serve 0,
        .serve 0, .timeout, .caller, .caller, .caller, .run none, .caller] = some w ∧
      w.running = .idle ∧ w.sessions = 1 ∧ w.stuck = 1 ∧ w.stuck = w.stuckSessions.card := by
  have hreach : (system Nat (some 1)).Reachable _ :=
    ⟨init Nat, [.run none, .caller, .caller, .caller, .serve 0, .serve 0, .timeout, .caller, .caller, .caller, .run none, .caller], rfl, rfl⟩
  refine ⟨_, rfl, rfl, rfl, rfl, ?_⟩
  exact (stuck_bounded hreach).1

/-! ## Progress -/

/-- A step of the thread that holds the lock. -/
def holderStep (w : StoreWorker T) : Event T → Bool
  | .caller => decide (w.lock = some .caller)
  | .serve k => decide (w.lock = some (.server k))
  | _ => false

/-- How many steps the lock can still be held for by a thread other than that of
session `k`. -/
def heldFor (w : StoreWorker T) (k : Option Nat) : Nat :=
  match w.lock with
  | none => 0
  | some .caller => 1
  | some (.server i) =>
    if k = some i then 0
    else
      match (w.session i).serving with
      | .locked _ => 2
      | _ => 1

theorem heldFor_le (w : StoreWorker T) (k : Option Nat) : w.heldFor k ≤ 2 := by
  unfold heldFor
  grind

/-- The thread of a session that holds the lock always goes on, and soon frees it. -/
theorem Inv.server_moves {limit : Option Int} {w : StoreWorker T} {i : Nat} (h : Inv limit w)
    (hl : w.lock = some (.server i)) :
    ∃ t, next limit w (.serve i) = some t ∧ ServerStep w i t ∧
      ∀ k, k ≠ some i → t.heldFor k < w.heldFor k := by
  have hin := (h.lock.server i).mp hl
  have hlt : i < w.sessions := by
    refine Nat.lt_of_not_le fun hle => ?_
    simp [h.life.unopened i hle, Serving.inLock] at hin
  cases hs : (w.session i).serving with
  | locked j =>
      refine ⟨_, ?_, .mark hs, ?_⟩
      · simp only [StoreWorker.next, hlt, if_true, stepServer, hs]
      · intro k hk
        simp [heldFor, hl, hs, hk]
  | marked j =>
      cases ha : (w.session i).abandoned with
      | true =>
          refine ⟨_, ?_, .leave hs ha, ?_⟩
          · simp only [StoreWorker.next, hlt, if_true, stepServer, hs, ha]
          · intro k hk
            simp [heldFor, hl, hs, hk]
      | false =>
          refine ⟨_, ?_, .release hs ha, ?_⟩
          · simp only [StoreWorker.next, hlt, if_true, stepServer, hs, ha, Bool.false_eq_true,
              if_false]
          · intro k hk
            simp [heldFor, hl, hs, hk]
  | _ => simp [hs, Serving.inLock] at hin

/-- How far a call is from its end. -/
def Running.left : Running → Nat
  | .idle | .failed => 0
  | .read _ | .giveUp _ => 1
  | .locked _ => 2
  | .overdue _ => 3
  | .wait _ => 4
  | .put _ => 5
  | .ensure _ => 6
  | .check _ => 7

/-- The calling thread goes on, its wait times out, or the thread that holds the lock
goes on. -/
def callStep (w : StoreWorker T) (e : Event T) : Bool :=
  match e with
  | .caller | .timeout => true
  | e => w.holderStep e

/-- The calling thread goes on unless it waits for an answer or for the lock. -/
theorem stepCaller_moves (limit : Option Int) {w : StoreWorker T} (hidle : w.running ≠ .idle)
    (hfailed : w.running ≠ .failed) (hwait : ∀ j, w.running ≠ .wait j)
    (hlock : ∀ j, w.running = .overdue j → w.lock = none) :
    ∃ t, w.stepCaller limit = some t ∧ t.running.left < w.running.left := by
  cases hr : w.running with
  | idle => exact absurd hr hidle
  | failed => exact absurd hr hfailed
  | wait j => exact absurd hr (hwait j)
  | check gen =>
      simp only [stepCaller, hr, Option.some.injEq, exists_eq_left']
      split <;> simp [Running.left]
  | ensure gen =>
      simp only [stepCaller, hr, Option.some.injEq, exists_eq_left']
      simp [Running.left]
  | put gen =>
      simp only [stepCaller, hr, Option.some.injEq, exists_eq_left']
      simp [Running.left]
  | overdue j => simp [stepCaller, hr, hlock j hr, Running.left]
  | locked j =>
      simp only [stepCaller, hr]
      split <;> simp [Running.left]
  | giveUp j => simp [stepCaller, hr, Running.left, conclude]
  | read j =>
      simp only [stepCaller, hr]
      split <;> simp [Running.left, conclude]

/-- A call comes to its end without any operation returning: the calling thread, its
deadline and the holder of the lock are enough. -/
theorem call_ends {limit : Option Int} {w : StoreWorker T} (h : (system T limit).Reachable w) :
    ∃ es t, ((system T limit).restrict fun w e => w.callStep e = true).run w es = some t ∧
      t.running = .idle := by
  have hprogress : ∀ s, Inv limit s → s.running = .idle ∨ ∃ e t, True ∧
      ((system T limit).restrict fun w e => w.callStep e = true).next s e = some t ∧
      Inv limit t ∧
      3 * t.running.left + t.heldFor none < 3 * s.running.left + s.heldFor none := by
    intro s hs
    have hless : ∀ t : StoreWorker T, t.running.left < s.running.left →
        3 * t.running.left + t.heldFor none < 3 * s.running.left + s.heldFor none := by
      intro t hlt
      have := t.heldFor_le none
      omega
    rcases eq_or_ne s.running .idle with hidle | hidle
    · exact .inl hidle
    right
    by_cases hwait : ∃ j, s.running = .wait j
    · obtain ⟨j, hr⟩ := hwait
      have hnext : next limit s .timeout = some { s with running := .overdue j } := by
        simp [StoreWorker.next, hr]
      exact ⟨.timeout, _, trivial, System.restrict_next_eq_some.mpr ⟨rfl, hnext⟩, hs.step hnext,
        hless _ (by simp [hr, Running.left])⟩
    by_cases hheld : ∃ i, s.running.inLock = false ∧ s.lock = some (.server i)
    · obtain ⟨i, -, hl⟩ := hheld
      obtain ⟨t, hnext, hst, hlt⟩ := hs.server_moves hl
      have hC : s.callStep (.serve i) = true := decide_eq_true hl
      refine ⟨.serve i, t, trivial, System.restrict_next_eq_some.mpr ⟨hC, hnext⟩,
        hs.step hnext, ?_⟩
      rw [hst.served.running]
      have := hlt none (by simp)
      omega
    · have hfree : ∀ j, s.running = .overdue j → s.lock = none := by
        intro j hr
        have hcaller := hs.lock.caller
        cases hl : s.lock with
        | none => rfl
        | some x =>
            cases x with
            | caller => simp [hl, hr, Running.inLock] at hcaller
            | server i => exact absurd ⟨i, by simp [hr, Running.inLock], hl⟩ hheld
      obtain ⟨t, hnext, hlt⟩ := stepCaller_moves limit hidle hs.answers.fine
        (fun j hr => hwait ⟨j, hr⟩) hfree
      exact ⟨.caller, t, trivial, System.restrict_next_eq_some.mpr ⟨rfl, hnext⟩,
        hs.step (e := .caller) hnext, hless t hlt⟩
  obtain ⟨es, t, -, hrun, -, ht⟩ :=
    System.exists_run_of_measure (A := fun _ => True) _ hprogress (Inv.of_reachable h)
  exact ⟨es, t, hrun, ht⟩

/-- The operation of the only session is running. -/
theorem call_ends_running :
    ∃ w, (system Nat none).run (init Nat)
        [.run none, .caller, .caller, .caller, .serve 0, .serve 0] = some w ∧
      (w.session 0).serving = .calling 0 ∧
      ∃ es t, ((system Nat none).restrict fun w e => w.callStep e = true).run w es = some t ∧
        t.running = .idle := by
  have hreach : (system Nat none).Reachable _ :=
    ⟨init Nat, [.run none, .caller, .caller, .caller, .serve 0, .serve 0], rfl, rfl⟩
  refine ⟨_, rfl, rfl, ?_⟩
  exact call_ends hreach

/-- How far the thread of a session is from leaving its current job. -/
def Serving.left : Serving → Nat
  | .exited | .waiting => 0
  | .marked _ => 1
  | .locked _ => 2
  | .boxed _ => 3
  | .calling _ => 4
  | .compare _ => 5

/-- A step of the thread of session `k`, the return of its operation, or a step of the
thread that holds the lock. -/
def exitStep (k : Nat) (w : StoreWorker T) (e : Event T) : Bool :=
  match e with
  | .serve i => decide (i = k) || w.holderStep e
  | .finish i _ => decide (i = k)
  | e => w.holderStep e

/-- `_jobs` is not the queue of session `k`. -/
def Closed (w : StoreWorker T) (k : Nat) : Prop :=
  k < w.sessions ∧ (w.isOpen = true → k ≠ w.current)

/-- How far the thread of session `k` is from its end. -/
def exitMeasure (k : Nat) (w : StoreWorker T) : Nat :=
  3 * (6 * (w.session k).jobs.length + (w.session k).serving.left) + w.heldFor (some k)

/-- A step of the thread itself brings it closer to its end. -/
theorem ServerStep.exitMeasure_lt {w t : StoreWorker T} {k : Nat} (hst : ServerStep w k t) :
    t.exitMeasure k < w.exitMeasure k := by
  have hless : 6 * (t.session k).jobs.length + (t.session k).serving.left <
      6 * (w.session k).jobs.length + (w.session k).serving.left := by
    cases hst with
    | take hs hq | stop hs hq =>
        simp only [setSession_session, Function.update_self, hs, hq, Serving.left,
          List.length_cons]
        omega
    | drop hs _ | start hs _ | fill _ hs | lock hs _ | mark hs | leave hs _ | release hs _ =>
        simp [hs, Serving.left, StoreWorker.drop, StoreWorker.start, StoreWorker.fill]
  have := t.heldFor_le (some k)
  unfold exitMeasure
  omega

/-- The thread of a closed session goes on unless it has left, waits for the lock, or is
in its operation. -/
theorem Inv.closed_moves {limit : Option Int} {w : StoreWorker T} {k : Nat} (h : Inv limit w)
    (hk : w.Closed k) (hexited : (w.session k).serving ≠ .exited)
    (hlock : ∀ j, (w.session k).serving = .boxed j → w.lock = none) :
    ∃ e t, exitStep k w e = true ∧ next limit w e = some t ∧ ServerStep w k t := by
  have hserve : (w.stepServer k).isSome →
      ∃ e t, exitStep k w e = true ∧ next limit w e = some t ∧ ServerStep w k t := by
    intro hsome
    obtain ⟨t, ht⟩ := Option.isSome_iff_exists.mp hsome
    refine ⟨.serve k, t, by simp [exitStep], ?_, serverStep_of_stepServer ht⟩
    simp only [StoreWorker.next, hk.1, if_true, ht]
  cases hs : (w.session k).serving with
  | exited => exact absurd hs hexited
  | calling j =>
      have hfinish : w.finish k none = some (w.fill k j none) := by simp [finish, hs]
      refine ⟨.finish k none, _, by simp [exitStep], ?_, serverStep_of_finish hfinish⟩
      simp only [StoreWorker.next, hk.1, if_true, hfinish]
  | waiting =>
      cases hq : (w.session k).jobs with
      | nil =>
          have := h.life.closed k hk.1 hk.2
          simp [hs, hq] at this
      | cons a rest =>
          cases a with
          | none => exact hserve (by simp [stepServer, hs, hq])
          | some j => exact hserve (by simp [stepServer, hs, hq])
  | compare j => exact hserve (by simp [stepServer, hs])
  | boxed j => exact hserve (by simp [stepServer, hs, hlock j hs])
  | locked j => exact hserve (by simp [stepServer, hs])
  | marked j =>
      cases ha : (w.session k).abandoned with
      | true => exact hserve (by simp [stepServer, hs, ha])
      | false => exact hserve (by simp [stepServer, hs, ha])

/-- The caller, holding the lock, frees it and leaves closed sessions alone. -/
theorem Inv.caller_frees {limit : Option Int} {w : StoreWorker T} {k : Nat} (h : Inv limit w)
    (hk : w.Closed k) (hl : w.lock = some .caller) :
    ∃ t, next limit w .caller = some t ∧ t.Closed k ∧ t.session k = w.session k ∧
      t.lock = none := by
  have hin := h.lock.caller.mp hl
  cases hr : w.running with
  | locked j =>
      obtain ⟨ho, -, -⟩ := h.life.call_open j (by rw [hr]; rfl)
      cases hd : (w.job j).done with
      | true =>
          refine ⟨{ w with lock := none, running := .read j }, ?_, hk, rfl, rfl⟩
          simp [StoreWorker.next, stepCaller, hr, hd]
      | false =>
          refine ⟨{ w.abandon with lock := none, running := .giveUp j }, ?_, hk, ?_, rfl⟩
          · simp [StoreWorker.next, stepCaller, hr, hd]
          · simp [abandon, hk.2 ho]
  | _ => simp [hr, Running.inLock] at hin

end StoreWorker

end TorchMojoBackend.Distributed
