/-
  `Watchdog.Ownership`: at most one thread owns a communicator.

  The mutex, the library call, the claim of a tracker and its asynchronous error
  query are roles guarded by one shared word each.
-/
import TorchMojoBackend.Watchdog.Teardown

set_option autoImplicit false

namespace TorchMojoBackend.Watchdog

open TorchMojoBackend.Foundation

variable {Thread : Type} [DecidableEq Thread]

/-! ## Roles -/

/-- Whether the code on this path runs under the backend mutex. -/
@[simp] def Path.holdsMutex : Path → Bool
  | .group => true
  | .exit _ _ => false

/-- Whether an `_idle` look runs under the backend mutex. -/
@[simp] def Look.holdsMutex : Look → Bool
  | .release path _ _ => path.holdsMutex
  | .cancel => false

/-- The backend mutex is held at this location. -/
@[simp] def Pc.holdsMutex : Pc → Bool
  | .locked | .calling | .entered _ | .aborted _ => true
  | .claimCas path _ | .claimLoad path _ | .claimMark path _ _ | .won path _
  | .aborting path _ | .releasing path _ | .releaseLook path _ => path.holdsMutex
  | .idleCall look | .idleCount look | .idleScan look _ _ | .storeCancel look =>
      look.holdsMutex
  | _ => false

/-- Inside `with InCall(...)`. -/
@[simp] def Pc.inCall : Pc → Bool
  | .calling | .entered _ | .aborted _ => true
  | .aborting path _ => path.holdsMutex
  | _ => false

/-- The tracker whose claim the thread won and has not released. -/
@[simp] def Pc.owner : Pc → Option Nat
  | .claimMark _ i true | .won _ i | .entered i | .aborting _ i | .aborted i
  | .releasing _ i => some i
  | _ => none

/-- The tracker on which the thread moved `LIVE` to `POLLING`. -/
@[simp] def Pc.poller : Pc → Option Nat
  | .querying i | .pollBack i _ => some i
  | _ => none

section Continuations

variable (path : Path) (look : Look) (i : Nat)

@[simp ↓] theorem holdsMutex_pathNext : (path.next i).holdsMutex = path.holdsMutex := by
  cases path <;> rfl

@[simp ↓] theorem inCall_pathNext : (path.next i).inCall = false := by
  cases path <;> rfl

@[simp ↓] theorem owner_pathNext : (path.next i).owner = none := by
  cases path <;> rfl

@[simp ↓] theorem poller_pathNext : (path.next i).poller = none := by
  cases path <;> rfl

@[simp ↓] theorem holdsMutex_lookNext : look.next.holdsMutex = look.holdsMutex := by
  cases look with
  | release path i cell => exact holdsMutex_pathNext path i
  | cancel => rfl

@[simp ↓] theorem inCall_lookNext : look.next.inCall = false := by
  cases look with
  | release path i cell => exact inCall_pathNext path i
  | cancel => rfl

@[simp ↓] theorem owner_lookNext : look.next.owner = none := by
  cases look with
  | release path i cell => exact owner_pathNext path i
  | cancel => rfl

@[simp ↓] theorem poller_lookNext : look.next.poller = none := by
  cases look with
  | release path i cell => exact poller_pathNext path i
  | cancel => rfl

end Continuations

/-- A library call is only ever made under the backend mutex. -/
theorem holdsMutex_of_inCall {p : Pc} (h : p.inCall = true) : p.holdsMutex = true := by
  cases p <;> simp_all

/-- The exclusive roles. -/
inductive Role where
  | mutex
  | call
  | owner (i : Nat)
  | poller (i : Nat)

/-- The thread at this location plays the role. -/
@[simp] def Role.plays : Role → Pc → Prop
  | .mutex, p => p.holdsMutex = true
  | .call, p => p.inCall = true
  | .owner i, p => p.owner = some i
  | .poller i, p => p.poller = some i

/-- The shared word says that the role is taken. -/
@[simp] def Role.taken : Role → Watch → Prop
  | .mutex, m => m.locked = true
  | .call, m => m.callNs ≠ 0
  | .owner i, m => m.state i = .claimed
  | .poller i, m => m.state i = .polling

/-! ## What one step does to the roles -/

section Steps

variable {p p' : Pc} {a : Action} {m m' : Watch}

theorem role_step_callStep (h : callStep p a m = some (p', m'))
    (hcall : p.holdsMutex = true → p.inCall = false → m.callNs = 0) (k : Role) :
    Program.RoleStep k.plays k.taken p m p' m' := by
  refine .of_cases ?_
  unfold callStep at h
  split at h <;> (try split at h) <;> cases h <;> cases k <;> simp_all

theorem role_step_claimStep (h : claimStep p a m = some (p', m')) (k : Role) :
    Program.RoleStep k.plays k.taken p m p' m' := by
  refine .of_cases ?_
  unfold claimStep at h
  split at h <;> (try split at h) <;> (try split at h) <;> cases h <;> cases k <;>
    simp_all [Function.update_apply] <;> grind

theorem role_step_abortStep (h : abortStep p a m = some (p', m')) (k : Role) :
    Program.RoleStep k.plays k.taken p m p' m' := by
  refine .of_cases ?_
  unfold abortStep at h
  split at h <;> (try split at h) <;> cases h <;> cases k <;> simp_all

theorem role_step_releaseStep (h : releaseStep p a m = some (p', m'))
    (htaken : ∀ k : Role, k.plays p → k.taken m) (k : Role) :
    Program.RoleStep k.plays k.taken p m p' m' := by
  refine .of_cases ?_
  unfold releaseStep at h
  split at h
  · rename_i path i
    cases h
    -- the released tracker was claimed, so no poll of it is under way
    have hclaimed : m.state i = .claimed := htaken (.owner i) (by simp)
    cases k <;> simp [Function.update_apply] <;> grind
  · split at h <;> cases h <;> cases k <;> simp
  · cases h

theorem role_step_idleStep (h : idleStep p a m = some (p', m')) (k : Role) :
    Program.RoleStep k.plays k.taken p m p' m' := by
  refine .of_cases ?_
  unfold idleStep at h
  split at h <;> (try split at h) <;> (try split at h) <;> cases h <;> cases k <;> simp

theorem role_step_exitStep (h : exitStep p a m = some (p', m')) (k : Role) :
    Program.RoleStep k.plays k.taken p m p' m' := by
  refine .of_cases ?_
  unfold exitStep at h
  split at h <;> (try split at h) <;> (try split at h) <;> cases h <;> cases k <;> simp

theorem role_step_pollStep (h : pollStep p a m = some (p', m'))
    (htaken : ∀ k : Role, k.plays p → k.taken m) (k : Role) :
    Program.RoleStep k.plays k.taken p m p' m' := by
  refine .of_cases ?_
  unfold pollStep at h
  split at h
  · split at h <;> (try split at h) <;> cases h <;> cases k <;>
      simp_all [Function.update_apply] <;> grind
  · cases h
    cases k <;> simp
  · rename_i i code
    cases h
    -- the store of LIVE ends this thread's own poll
    have hpolling : m.state i = .polling := htaken (.poller i) (by simp)
    cases k <;> split <;> simp [Function.update_apply] <;> grind
  · cases h
    cases k <;> simp
  · cases h
    cases k <;> simp
  · cases h

/-- Every step keeps each role, takes it from a free word or gives it up. -/
theorem role_step (h : atom p a m = some (p', m'))
    (htaken : ∀ k : Role, k.plays p → k.taken m)
    (hcall : p.holdsMutex = true → p.inCall = false → m.callNs = 0) (k : Role) :
    Program.RoleStep k.plays k.taken p m p' m' := by
  rcases (atom_eq_some h).2 with h | h | h | h | h | h | h
  · exact role_step_callStep h hcall k
  · exact role_step_claimStep h k
  · exact role_step_abortStep h k
  · exact role_step_releaseStep h htaken k
  · exact role_step_idleStep h k
  · exact role_step_exitStep h k
  · exact role_step_pollStep h htaken k

end Steps

/-- In every reachable state each role is played by at most one thread, and
exactly while its word is taken. -/
theorem role_exclusive {s : Config Thread Watch Pc} (hs : (teardown Thread).Reachable s)
    (k : Role) : Program.Exclusive k.plays k.taken s := by
  refine Program.exclusive_of_reachable (P := program) Role.plays Role.taken ?_ ?_ ?_ hs k
  · intro k
    cases k <;> simp [program]
  · intro k
    cases k <;> simp [program, Watch.boot]
  · intro s t e hex hnext k
    obtain ⟨p, hstep, hpc⟩ := Program.next_eq_some.mp hnext
    rw [hpc, Function.update_self]
    refine role_step hstep (fun k hk => (hex k).set_of_role e.1 hk) ?_ k
    intro hlock hnot
    by_contra hns
    obtain ⟨u, hu⟩ := (hex .call).role_of_set hns
    have hue : u = e.1 := (hex .mutex).unique u e.1 (holdsMutex_of_inCall hu) hlock
    rw [hue] at hu
    simp_all

/-! ## The state word -/

/-- The transitions of the live, polling, claimed and released machine. -/
def CommState.Follows : CommState → CommState → Prop
  | .live, .claimed => True
  | .live, .polling => True
  | .polling, .live => True
  | .claimed, .released => True
  | _, _ => False

/-- A claim was won on this communicator, whether or not it was released. -/
def CommState.Taken (c : CommState) : Prop := c = .claimed ∨ c = .released

theorem CommState.Taken.of_follows {c d : CommState} (hc : c.Taken)
    (h : d = c ∨ c.Follows d) : d.Taken := by
  rcases h with rfl | h
  · exact hc
  · rcases hc with rfl | rfl <;> cases d <;> simp_all [CommState.Follows, CommState.Taken]

/-- The word a step leaves behind, given who may be where. -/
theorem state_follows {p p' : Pc} {a : Action} {m m' : Watch}
    (h : atom p a m = some (p', m')) (htaken : ∀ k : Role, k.plays p → k.taken m)
    (i : Nat) : m'.state i = m.state i ∨ (m.state i).Follows (m'.state i) := by
  have hgroup := (atom_eq_some h).2
  clear h
  rcases hgroup with h | h | h | h | h | h | h
  · unfold callStep at h
    split at h <;> (try split at h) <;> cases h <;> exact .inl rfl
  · unfold claimStep at h
    split at h <;> (try split at h) <;> cases h <;> try exact .inl rfl
    rename_i j hlive
    by_cases hij : i = j
    · subst hij
      right
      simp [hlive, CommState.Follows]
    · left
      simp [hij]
  · unfold abortStep at h
    split at h <;> (try split at h) <;> cases h <;> exact .inl rfl
  · unfold releaseStep at h
    split at h
    · rename_i path j
      cases h
      have hclaimed : m.state j = .claimed := htaken (.owner j) (by simp)
      by_cases hij : i = j
      · subst hij
        right
        simp [hclaimed, CommState.Follows]
      · left
        simp [hij]
    · split at h <;> cases h <;> exact .inl rfl
    · cases h
  · unfold idleStep at h
    split at h <;> (try split at h) <;> (try split at h) <;> cases h <;> exact .inl rfl
  · unfold exitStep at h
    split at h <;> (try split at h) <;> (try split at h) <;> cases h <;> exact .inl rfl
  · unfold pollStep at h
    split at h
    · rename_i j
      split at h <;> (try split at h) <;> cases h <;> try exact .inl rfl
      rename_i hlive
      by_cases hij : i = j
      · subst hij
        right
        simp [hlive, CommState.Follows]
      · left
        simp [hij]
    · cases h
      exact .inl rfl
    · rename_i j code
      cases h
      have hpolling : m.state j = .polling := htaken (.poller j) (by simp)
      by_cases hij : i = j
      · subst hij
        right
        simp [hpolling, CommState.Follows]
      · left
        simp [hij]
    · cases h
      exact .inl rfl
    · cases h
      exact .inl rfl
    · cases h

theorem state_follows_of_next {s t : Config Thread Watch Pc} {e : Thread × Action}
    (hs : (teardown Thread).Reachable s) (hnext : (teardown Thread).next s e = some t)
    (i : Nat) :
    t.mem.state i = s.mem.state i ∨ (s.mem.state i).Follows (t.mem.state i) := by
  obtain ⟨p, hstep, _⟩ := Program.next_eq_some.mp hnext
  exact state_follows hstep (fun k hk => (role_exclusive hs k).set_of_role e.1 hk) i

/-- Claimed and released are never left for live or polling. -/
theorem taken_of_next {s t : Config Thread Watch Pc} {e : Thread × Action}
    (hs : (teardown Thread).Reachable s) (hnext : (teardown Thread).next s e = some t)
    {i : Nat} (h : (s.mem.state i).Taken) : (t.mem.state i).Taken :=
  h.of_follows (state_follows_of_next hs hnext i)

/-! ## Winning and aborting happen once -/

/-- How far an owner is: the claim is won, returned, its `InCall` entered, the
abort called, returned, the `InCall` left. -/
@[simp] def Pc.stage : Pc → Nat
  | .won _ _ => 1
  | .entered _ => 2
  | .aborting _ _ => 3
  | .aborted _ => 4
  | .releasing _ _ => 5
  | _ => 0

/-- Owner of tracker `i` and not past stage `k`. -/
def Pc.upTo (i k : Nat) (p : Pc) : Prop := p.owner = some i ∧ p.stage ≤ k

/-- Only a step of `watch_claim` makes a thread owner, and only on a live word. -/
theorem live_of_becomes_owner {p p' : Pc} {a : Action} {m m' : Watch} {i : Nat}
    (h : atom p a m = some (p', m')) (hnot : p.owner ≠ some i)
    (hown : p'.owner = some i) : m.state i = .live := by
  have hgroup := (atom_eq_some h).2
  clear h
  rcases hgroup with h | h | h | h | h | h | h
  · unfold callStep at h
    split at h <;> (try split at h) <;> cases h <;> simp_all
  · unfold claimStep at h
    split at h
    · split at h <;> cases h
      simp at hown
    · rename_i path j
      split at h <;> cases h
      · rename_i hlive
        have hij : j = i := by simpa using hown
        rw [← hij]
        exact hlive
      · simp at hown
    · split at h <;> cases h <;> simp at hown
    · rename_i path j ok _ _
      split at h <;> cases h
      cases ok with
      | true => exact absurd (by simpa using hown) hnot
      | false =>
          have hnone : (path.next j).owner = some i := hown
          rw [owner_pathNext] at hnone
          cases hnone
    · cases h
  · unfold abortStep at h
    split at h <;> (try split at h) <;> cases h <;> simp_all
  · unfold releaseStep at h
    split at h <;> (try split at h) <;> cases h <;> simp at hown
  · unfold idleStep at h
    split at h <;> (try split at h) <;> (try split at h) <;> cases h <;> simp at hown
  · unfold exitStep at h
    split at h <;> (try split at h) <;> (try split at h) <;> cases h <;>
      simp at hown
  · unfold pollStep at h
    split at h <;> (try split at h) <;> (try split at h) <;> cases h <;>
      simp at hown

/-- An owner only moves forward, and stays with its communicator. -/
theorem stage_le_of_owner {p p' : Pc} {a : Action} {m m' : Watch} {i : Nat}
    (h : atom p a m = some (p', m')) (hown : p.owner = some i)
    (hown' : p'.owner = some i) : p.stage ≤ p'.stage := by
  have hgroup := (atom_eq_some h).2
  clear h
  rcases hgroup with h | h | h | h | h | h | h
  · unfold callStep at h
    split at h <;> (try split at h) <;> cases h <;> simp_all
  · unfold claimStep at h
    split at h <;> (try split at h) <;> cases h <;> simp_all
  · unfold abortStep at h
    split at h <;> (try split at h) <;> cases h <;> simp_all
  · unfold releaseStep at h
    split at h <;> (try split at h) <;> cases h <;> simp_all
  · unfold idleStep at h
    split at h <;> (try split at h) <;> (try split at h) <;> cases h <;> simp_all
  · unfold exitStep at h
    split at h <;> (try split at h) <;> (try split at h) <;> cases h <;> simp_all
  · unfold pollStep at h
    split at h <;> (try split at h) <;> (try split at h) <;> cases h <;> simp_all

/-- An action every thread at stage `k` or before takes past stage `k`, and no
other thread takes, happens at most once. -/
theorem oneShot_of_stage {action : Action → Prop} {i k : Nat}
    (hleave : ∀ p a m p' m', atom p a m = some (p', m') → action a →
      p.upTo i k ∧ k < p'.stage) :
    Program.OneShot program Thread action (Pc.upTo i k)
      (fun m => (m.state i).Taken) where
  leave p a m p' m' h ha := by
    obtain ⟨hup, hlt⟩ := hleave p a m p' m' h ha
    exact ⟨hup, fun hup' => absurd hup'.2 (Nat.not_le.mpr hlt)⟩
  enter p a m p' m' h hup' := by
    by_cases hown : p.owner = some i
    · exact .inl ⟨hown, Nat.le_trans (stage_le_of_owner h hown hup'.1) hup'.2⟩
    · right
      have hlive : m.state i = .live := live_of_becomes_owner h hown hup'.1
      simp [hlive, CommState.Taken]
  stable s t e hs hnext h := taken_of_next hs hnext h
  unique s hs t u ht hu := (role_exclusive hs (.owner i)).unique t u ht.1 hu.1
  closed s hs t ht := .inl ((role_exclusive hs (.owner i)).set_of_role t ht.1)

theorem claimMark_of_claimReturn {p p' : Pc} {i : Nat} {ok : Bool} {m m' : Watch}
    (h : atom p (.claimReturn i ok) m = some (p', m')) :
    ∃ path, p = .claimMark path i ok ∧ p' = if ok then .won path i else path.next i := by
  have hgroup := (atom_eq_some h).2
  simp only [callStep, abortStep, releaseStep, idleStep, exitStep, pollStep, reduceCtorEq,
    or_false, false_or] at hgroup
  unfold claimStep at hgroup
  split at hgroup <;> simp_all

theorem oneShot_claimReturn (i : Nat) :
    Program.OneShot program Thread (· = .claimReturn i true) (Pc.upTo i 0)
      (fun m => (m.state i).Taken) := by
  refine oneShot_of_stage ?_
  rintro p a m p' m' h rfl
  obtain ⟨path, rfl, rfl⟩ := claimMark_of_claimReturn h
  simp [Pc.upTo]

theorem oneShot_abort (i : Nat) :
    Program.OneShot program Thread (· = .abort i) (Pc.upTo i 2)
      (fun m => (m.state i).Taken) := by
  refine oneShot_of_stage ?_
  rintro p a m p' m' h rfl
  have hgroup := (atom_eq_some h).2
  simp only [callStep, claimStep, releaseStep, idleStep, exitStep, pollStep, reduceCtorEq,
    or_false, false_or] at hgroup
  unfold abortStep at hgroup
  split at hgroup <;> simp_all [Pc.upTo]
  all_goals simp [← hgroup.2.1]

/-! ## The whole run -/

/-- The tracker whose claim the thread lost, about to return. -/
@[simp] def Pc.lost : Pc → Option Nat
  | .claimMark _ i false => some i
  | _ => none

@[simp ↓] theorem lost_pathNext (path : Path) (i : Nat) : (path.next i).lost = none := by
  cases path <;> rfl

@[simp ↓] theorem lost_lookNext (look : Look) : look.next.lost = none := by
  cases look with
  | release path i cell => exact lost_pathNext path i
  | cancel => rfl

/-- `watch_claim` gives up only on a taken communicator. -/
theorem taken_of_lost {p p' : Pc} {a : Action} {m m' : Watch} {i : Nat}
    (h : atom p a m = some (p', m')) (hlost : p'.lost = some i) :
    (m.state i).Taken := by
  have hgroup := (atom_eq_some h).2
  clear h
  rcases hgroup with h | h | h | h | h | h | h
  · unfold callStep at h
    split at h <;> (try split at h) <;> cases h <;> simp at hlost
  · unfold claimStep at h
    split at h
    · split at h <;> cases h
      simp at hlost
    · split at h <;> cases h <;> simp at hlost
    · rename_i path j
      split at h <;> cases h
      · rename_i hstate
        have hij : j = i := by simpa using hlost
        rw [← hij]
        exact hstate
      · simp at hlost
    · rename_i path j ok _ _
      split at h <;> cases h
      cases ok with
      | true => simp at hlost
      | false => exact absurd ((lost_pathNext path j).symm.trans hlost) (by simp)
    · cases h
  · unfold abortStep at h
    split at h <;> (try split at h) <;> cases h <;> simp at hlost
  · unfold releaseStep at h
    split at h <;> (try split at h) <;> cases h <;> simp at hlost
  · unfold idleStep at h
    split at h <;> (try split at h) <;> (try split at h) <;> cases h <;> simp at hlost
  · unfold exitStep at h
    split at h <;> (try split at h) <;> (try split at h) <;> cases h <;> simp at hlost
  · unfold pollStep at h
    split at h <;> (try split at h) <;> (try split at h) <;> cases h <;> simp at hlost

/-- A thread about to return False from `watch_claim` sees the communicator
taken by another. -/
theorem taken_of_lost_of_reachable {s : Config Thread Watch Pc}
    (hs : (teardown Thread).Reachable s) {t : Thread} {i : Nat}
    (ht : (s.pc t).lost = some i) : (s.mem.state i).Taken := by
  refine hs.invariant (I := fun s => ∀ t, (s.pc t).lost = some i → (s.mem.state i).Taken)
    ?_ ?_ t ht
  · rintro s rfl t ht
    simp [program] at ht
  · intro s e s' hreach hI hnext t ht
    refine taken_of_next hreach hnext ?_
    obtain ⟨p, hstep, hpc⟩ := Program.next_eq_some.mp hnext
    by_cases hte : t = e.1
    · rw [hpc, hte, Function.update_self] at ht
      exact taken_of_lost hstep ht
    · rw [hpc, Function.update_of_ne hte] at ht
      exact hI t ht

/-! ## The whole run -/

/-- Once a `watch_claim` has returned, with either result, the communicator is
taken for good. -/
theorem taken_of_claim_returned {s₀ s : Config Thread Watch Pc}
    (hs₀ : (teardown Thread).Init s₀) {es : List (Thread × Action)}
    (hrun : (teardown Thread).run s₀ es = some s) {i : Nat}
    (hret : ∃ t ok, (t, Action.claimReturn i ok) ∈ es) : (s.mem.state i).Taken := by
  refine (teardown Thread).run_induction
    (P := fun es s => (∃ t ok, (t, Action.claimReturn i ok) ∈ es) →
      (s.mem.state i).Taken) ?_ ?_ hrun hret
  · rintro ⟨t, ok, hmem⟩
    cases hmem
  · rintro es s e s' hes ih hnext ⟨t, ok, hmem⟩
    have hreach : (teardown Thread).Reachable s := ⟨s₀, es, hs₀, hes⟩
    refine taken_of_next hreach hnext ?_
    rcases List.mem_append.mp hmem with hin | hlast
    · exact ih ⟨t, ok, hin⟩
    · rw [List.mem_singleton] at hlast
      subst hlast
      obtain ⟨p, hstep, _⟩ := Program.next_eq_some.mp hnext
      obtain ⟨path, hpc, _⟩ := claimMark_of_claimReturn hstep
      cases ok with
      | true =>
          have hown : (s.pc t).owner = some i := congrArg Pc.owner hpc
          exact .inl ((role_exclusive hreach (.owner i)).set_of_role t hown)
      | false =>
          have hlost : (s.pc t).lost = some i := congrArg Pc.lost hpc
          exact taken_of_lost_of_reachable hreach hlost

/-- Over every run of any number of threads that claim, poll, abort, destroy and
release the communicators of a watch: of each communicator at most one
`watch_claim` returns True and `ncclCommAbort` is called at most once; after any
`watch_claim` has returned no thread is inside the asynchronous error query; and
the next step leaves the state word alone or follows the live, polling, claimed
and released machine. -/
theorem communicator_ownership {s₀ s : Config Thread Watch Pc}
    (hs₀ : (teardown Thread).Init s₀) {es : List (Thread × Action)}
    (hrun : (teardown Thread).run s₀ es = some s) (i : Nat) :
    es.countP (fun e => decide (e.2 = .claimReturn i true)) ≤ 1 ∧
    es.countP (fun e => decide (e.2 = .abort i)) ≤ 1 ∧
    ((∃ t ok, (t, Action.claimReturn i ok) ∈ es) → ∀ u, s.pc u ≠ .querying i) ∧
    (∀ e s', (teardown Thread).next s e = some s' →
      s'.mem.state i = s.mem.state i ∨ (s.mem.state i).Follows (s'.mem.state i)) := by
  have hreach : (teardown Thread).Reachable s := ⟨s₀, es, hs₀, hrun⟩
  refine ⟨((oneShot_claimReturn i).count_le_one hs₀ hrun).1,
    ((oneShot_abort i).count_le_one hs₀ hrun).1, ?_, ?_⟩
  · intro hret u hu
    have htaken := taken_of_claim_returned hs₀ hrun hret
    have hpolling : s.mem.state i = .polling :=
      (role_exclusive hreach (.poller i)).set_of_role u (by rw [hu]; rfl)
    simp [hpolling, CommState.Taken] at htaken
  · intro e s' hnext
    exact state_follows_of_next hreach hnext i

/-- One thread's poll delays the claim of another, which then wins. -/
def pollRace : List (Bool × Action) :=
  [(true, .lock), (true, .track), (false, .poll 0), (true, .beginClaim 0),
    (true, .claimCas), (true, .claimLoad), (false, .queryReturn 0), (false, .pollBack),
    (true, .claimCas), (true, .claimReturn 0 true), (true, .enterCall 7), (true, .abort 0)]

theorem communicator_ownership_pollRace :
    ∃ s, (teardown Bool).run { mem := Watch.boot, pc := fun _ => .idle } pollRace = some s ∧
      ∀ u, s.pc u ≠ .querying 0 := by
  obtain ⟨s, hs⟩ : ∃ s, (teardown Bool).run
      { mem := Watch.boot, pc := fun _ => .idle } pollRace = some s := ⟨_, rfl⟩
  have hret : (true, Action.claimReturn 0 true) ∈ pollRace := by decide
  exact ⟨s, hs, (communicator_ownership rfl hs 0).2.2.1 ⟨true, true, hret⟩⟩

end TorchMojoBackend.Watchdog
