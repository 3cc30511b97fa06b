/-
  `Watchdog.Reaper`: when the exit path's reaper is cancelled.

  `_cancel_reaper` publishes the cell and looks; `watch_release` stores and then
  looks for the cell.  A cell that is published and not cancelled is therefore
  owed a look by some thread: one inside a library call, one that owns a
  communicator, or one that is looking.  `InCall.__exit__` is the one place where
  a debt can be dropped.
-/
import TorchMojoBackend.Watchdog.Ownership

set_option autoImplicit false

namespace TorchMojoBackend.Watchdog

open TorchMojoBackend.Foundation

variable {Thread : Type} [DecidableEq Thread]

/-! ## Requested, quiescent, owed -/

/-- Inside `watch_release` after its store, or inside `_cancel_reaper`. -/
@[simp] def Pc.looking : Pc → Bool
  | .releaseLook _ _ | .idleCall _ | .idleCount _ | .idleScan _ _ _ | .storeCancel _
  | .cancelReaper | .publish => true
  | _ => false

/-- No library call in progress, every claim released, and no release or
cancellation under way. -/
structure Quiescent (s : Config Thread Watch Pc) : Prop where
  noCall : s.mem.callNs = 0
  released : ∀ i, s.mem.state i ≠ .claimed
  settled : ∀ t, (s.pc t).looking = false

/-- The cancellation of the armed reaper was requested: `_cancel_reaper` published
its cell. -/
def Watch.Requested (m : Watch) : Prop := m.retained ≠ 0 ∧ m.retained = m.reaperCell

/-- Requested, and not cancelled yet. -/
def Watch.Pending (m : Watch) : Prop :=
  m.Requested ∧ m.cancelled m.reaperCell = false

/-- The cell an `_idle` look will cancel is the published one. -/
@[simp] def Look.covers (m : Watch) : Look → Prop
  | .release _ _ cell => cell = m.retained
  | .cancel => True

/-- The thread is still to look at the published cell. -/
@[simp] def Pc.owesLook (m : Watch) : Pc → Prop
  | .releaseLook _ _ => True
  | .idleCall look | .idleCount look | .idleScan look _ _ | .storeCancel look =>
      look.covers m
  | _ => False

/-- The thread will look at the published cell, or is inside a library call. -/
def Pc.Owes (m : Watch) (p : Pc) : Prop :=
  p.inCall = true ∨ p.owner ≠ none ∨ p.owesLook m

/-- A thread leaves a library call made outside any claim, with the cancellation
pending and no other thread to look. -/
def DropsCancel (s : Config Thread Watch Pc) (e : Thread × Action) : Prop :=
  s.mem.Pending ∧ s.pc e.1 = .calling ∧ e.2 = .exitCall ∧
    ∀ u, u ≠ e.1 → ¬ (s.pc u).Owes s.mem

/-- The cells handed out so far. -/
structure Watch.CellsBelow (m : Watch) : Prop where
  retained : m.retained < m.nextCell
  reaperCell : m.reaperCell < m.nextCell

theorem cellsBelow_of_atom {p p' : Pc} {a : Action} {m m' : Watch}
    (hm : m.CellsBelow) (h : atom p a m = some (p', m')) : m'.CellsBelow := by
  have hgroup := (atom_eq_some h).2
  clear h
  obtain ⟨hr, hc⟩ := hm
  rcases hgroup with h | h | h | h | h | h | h
  · unfold callStep at h
    split at h <;> (try split at h) <;> cases h <;> exact ⟨hr, hc⟩
  · unfold claimStep at h
    split at h <;> (try split at h) <;> cases h <;> exact ⟨hr, hc⟩
  · unfold abortStep at h
    split at h <;> (try split at h) <;> cases h <;> exact ⟨hr, hc⟩
  · unfold releaseStep at h
    split at h <;> (try split at h) <;> cases h <;> exact ⟨hr, hc⟩
  · unfold idleStep at h
    split at h <;> (try split at h) <;> (try split at h) <;> cases h <;> exact ⟨hr, hc⟩
  · unfold exitStep at h
    split at h
    · split at h <;> cases h
      exact ⟨Nat.lt_succ_of_lt hr, Nat.lt_succ_self _⟩
    · cases h
      exact ⟨hr, hc⟩
    · split at h <;> (try split at h) <;> cases h <;> exact ⟨hr, hc⟩
    · split at h <;> cases h <;> exact ⟨hr, hc⟩
    · cases h
      exact ⟨hc, hc⟩
    · split at h <;> cases h
      exact ⟨hr, hc⟩
    · cases h
  · unfold pollStep at h
    split at h <;> (try split at h) <;> (try split at h) <;> cases h <;> exact ⟨hr, hc⟩

theorem cellsBelow_of_reachable {s : Config Thread Watch Pc}
    (hs : (teardown Thread).Reachable s) : s.mem.CellsBelow :=
  Program.mem_invariant (P := program) ⟨Nat.one_pos, Nat.one_pos⟩
    (fun _ _ _ _ _ hm h => cellsBelow_of_atom hm h) hs

/-! ## What one step does to a debt -/

/-- A cancellation becomes pending only by the publication of the cell. -/
theorem pending_of_atom {p p' : Pc} {a : Action} {m m' : Watch} (hm : m.CellsBelow)
    (h : atom p a m = some (p', m')) (hpend : m'.Pending) :
    (m.Pending ∧ m'.retained = m.retained) ∨ p' = .idleCall .cancel := by
  have hgroup := (atom_eq_some h).2
  clear h
  rcases hgroup with h | h | h | h | h | h | h
  · unfold callStep at h
    split at h <;> (try split at h) <;> cases h <;> exact .inl ⟨hpend, rfl⟩
  · unfold claimStep at h
    split at h <;> (try split at h) <;> cases h <;> exact .inl ⟨hpend, rfl⟩
  · unfold abortStep at h
    split at h <;> (try split at h) <;> cases h <;> exact .inl ⟨hpend, rfl⟩
  · unfold releaseStep at h
    split at h <;> (try split at h) <;> cases h <;> exact .inl ⟨hpend, rfl⟩
  · left
    obtain ⟨hreq, hnot⟩ := hpend
    unfold idleStep at h
    split at h <;> (try split at h) <;> (try split at h) <;> cases h
    -- a look that cancels some cell has not cancelled the published one
    all_goals
      refine ⟨⟨hreq, ?_⟩, rfl⟩
      first
      | exact hnot
      | (simp only [Function.update_apply] at hnot
         split at hnot <;> simp_all)
  · unfold exitStep at h
    split at h
    · split at h <;> cases h
      -- the new cell is above every published one
      have hlt := hm.retained
      have heq : m.retained = m.nextCell := hpend.1.2
      omega
    · cases h
      exact .inl ⟨hpend, rfl⟩
    · split at h <;> (try split at h) <;> cases h <;> exact .inl ⟨hpend, rfl⟩
    · split at h <;> cases h <;> exact .inl ⟨hpend, rfl⟩
    · cases h
      exact .inr rfl
    · split at h <;> cases h
      exact .inl ⟨hpend, rfl⟩
    · cases h
  · unfold pollStep at h
    split at h <;> (try split at h) <;> (try split at h) <;> cases h <;>
      exact .inl ⟨hpend, rfl⟩

/-- How one step ends a debt while the cancellation stays pending: another thread
holds a call or a claim, or a library call outside any claim ends. -/
theorem owes_of_atom {p p' : Pc} {a : Action} {m m' : Watch}
    (h : atom p a m = some (p', m')) (hret : m'.retained = m.retained)
    (hpend : m.Pending) (hpend' : m'.Pending) (howes : p.Owes m) :
    p'.Owes m' ∨ (m.callNs ≠ 0 ∧ p.inCall = false) ∨
      (∃ i, m.state i = .claimed ∧ p.owner = none) ∨ (p = .calling ∧ a = .exitCall) := by
  have hgroup := (atom_eq_some h).2
  clear h
  unfold Pc.Owes at *
  rcases hgroup with h | h | h | h | h | h | h
  · unfold callStep at h
    split at h <;> (try split at h) <;> cases h <;> simp_all
  · unfold claimStep at h
    split at h
    · split at h <;> cases h
      simp at howes
    · split at h <;> cases h <;> simp at howes
    · split at h <;> cases h <;> simp at howes
    · rename_i ok _ _
      split at h <;> cases h
      cases ok with
      | true => exact .inl (.inr (.inl (by simp)))
      | false => simp at howes
    · cases h
  · unfold abortStep at h
    split at h <;> (try split at h) <;> cases h <;> simp_all
  · unfold releaseStep at h
    split at h
    · cases h
      simp
    · split at h <;> cases h
      · rename_i hzero
        exact absurd hzero hpend.1.1
      · simp
    · cases h
  · unfold idleStep at h
    split at h
    · split at h <;> cases h
      · simp_all
      · simp_all
    · cases h
      simp_all
    · split at h
      · split at h <;> cases h
        · rename_i hclaimed
          exact .inr (.inr (.inl ⟨_, hclaimed, rfl⟩))
        · simp_all
      · cases h
        simp_all
    · rename_i cell
      cases h
      have hcell : cell = m.retained := by simpa using howes
      have hnot := hpend'.2
      simp [hcell, hpend.1.2] at hnot
    · cases h
      have hnot := hpend'.2
      simp at hnot
    · cases h
  · unfold exitStep at h
    split at h <;> (try split at h) <;> (try split at h) <;> cases h <;> simp_all
  · unfold pollStep at h
    split at h <;> (try split at h) <;> (try split at h) <;> cases h <;> simp_all

/-! ## No cancellation is lost, but for one -/

/-- A debt never depends on more of the memory than the published cell. -/
theorem owes_congr {p : Pc} {m m' : Watch} (h : m'.retained = m.retained)
    (howes : p.Owes m) : p.Owes m' := by
  unfold Pc.Owes at *
  refine howes.imp_right (Or.imp_right ?_)
  intro hlook
  cases p <;> simp_all

/-- One step keeps a pending cancellation owed, unless it is the one that drops
it. -/
theorem owed_of_next {s t : Config Thread Watch Pc} {e : Thread × Action}
    (hs : (teardown Thread).Reachable s) (hnext : (teardown Thread).next s e = some t)
    (hkeep : ¬ DropsCancel s e)
    (howed : s.mem.Pending → ∃ u, (s.pc u).Owes s.mem)
    (hpend : t.mem.Pending) : ∃ u, (t.pc u).Owes t.mem := by
  obtain ⟨p, hstep, hpc⟩ := Program.next_eq_some.mp hnext
  have hself : t.pc e.1 = p := by rw [hpc, Function.update_self]
  have hother : ∀ u, u ≠ e.1 → t.pc u = s.pc u := by
    intro u hu
    rw [hpc, Function.update_of_ne hu]
  rcases pending_of_atom (cellsBelow_of_reachable hs) hstep hpend with
    ⟨hbefore, hret⟩ | hpub
  · -- a debt of another thread survives the step
    have hframe : ∀ u, u ≠ e.1 → (s.pc u).Owes s.mem → ∃ u, (t.pc u).Owes t.mem := by
      intro u hu howes
      refine ⟨u, ?_⟩
      rw [hother u hu]
      exact owes_congr hret howes
    obtain ⟨u, hu⟩ := howed hbefore
    by_cases hue : u = e.1
    · subst hue
      rcases owes_of_atom hstep hret hbefore hpend hu with
        howes | ⟨hcall, hnot⟩ | ⟨i, hclaimed, hnot⟩ | ⟨hcalling, hexit⟩
      · exact ⟨e.1, hself ▸ howes⟩
      · obtain ⟨v, hv⟩ := (role_exclusive hs .call).role_of_set hcall
        refine hframe v ?_ (.inl hv)
        rintro rfl
        simp_all
      · obtain ⟨v, hv⟩ := (role_exclusive hs (.owner i)).role_of_set hclaimed
        have howner : (s.pc v).owner = some i := hv
        refine hframe v ?_ (.inr (.inl (Option.ne_none_iff_exists'.mpr ⟨i, howner⟩)))
        rintro rfl
        rw [hnot] at howner
        cases howner
      · by_contra hnone
        refine hkeep ⟨hbefore, hcalling, hexit, ?_⟩
        intro v hv hvowes
        exact hnone (hframe v hv hvowes)
    · exact hframe u hue hu
  · refine ⟨e.1, ?_⟩
    rw [hself, hpub]
    exact .inr (.inr trivial)

/-- The condition is exact: after a step that drops the cancellation it is still
pending and no thread owes a look. -/
theorem nothing_owed_of_dropsCancel {s t : Config Thread Watch Pc} {e : Thread × Action}
    (hdrop : DropsCancel s e) (hnext : (teardown Thread).next s e = some t) :
    t.mem.Pending ∧ ∀ u, ¬ (t.pc u).Owes t.mem := by
  obtain ⟨hpend, hcalling, hexit, hothers⟩ := hdrop
  obtain ⟨p, hstep, hpc⟩ := Program.next_eq_some.mp hnext
  rw [hcalling, hexit] at hstep
  have hgroup := (atom_eq_some hstep).2
  simp only [callStep, claimStep, abortStep, releaseStep, idleStep, exitStep, pollStep,
    reduceCtorEq, or_false, Option.some.injEq, Prod.mk.injEq] at hgroup
  obtain ⟨hp, hm⟩ := hgroup
  refine ⟨by rw [← hm]; exact hpend, ?_⟩
  intro u hu
  by_cases hue : u = e.1
  · rw [hpc, hue, Function.update_self, ← hp] at hu
    simp [Pc.Owes] at hu
  · rw [hpc, Function.update_of_ne hue] at hu
    have hret : s.mem.retained = t.mem.retained := by rw [← hm]
    exact hothers u hue (owes_congr hret hu)

/-- A quiescent state owes nothing. -/
theorem not_owes_of_quiescent {s : Config Thread Watch Pc}
    (hs : (teardown Thread).Reachable s) (hq : Quiescent s) (u : Thread) :
    ¬ (s.pc u).Owes s.mem := by
  rintro (hcall | howner | hlook)
  · exact (role_exclusive hs .call).set_of_role u hcall hq.noCall
  · obtain ⟨i, hi⟩ := Option.ne_none_iff_exists'.mp howner
    exact hq.released i ((role_exclusive hs (.owner i)).set_of_role u hi)
  · have hsettled := hq.settled u
    cases hp : s.pc u <;> rw [hp] at hlook hsettled <;> simp_all

/-- A reaper ends the process only on an uncancelled cell. -/
theorem uncancelled_of_reap {p p' : Pc} {cell : Nat} {m m' : Watch}
    (h : atom p (.reap cell) m = some (p', m')) : m.cancelled cell = false := by
  have hgroup := (atom_eq_some h).2
  simp only [callStep, claimStep, abortStep, releaseStep, idleStep, pollStep, reduceCtorEq,
    or_false, false_or] at hgroup
  unfold exitStep at hgroup
  split at hgroup <;> simp_all

/-- In every run of any number of threads in which no step leaves a library call
made outside a claim while the cancellation is pending and no other thread is
inside a call, owns a communicator or is to look at the cell: in a quiescent
state after a cancellation was requested, the armed reaper is cancelled and can
no longer end the process. -/
theorem reaper_cancelled_when_quiescent {s₀ s : Config Thread Watch Pc}
    (hs₀ : (teardown Thread).Init s₀) {es : List (Thread × Action)}
    (hrun : (teardown Thread).run s₀ es = some s)
    (hkeep : ∀ fs e gs u, es = fs ++ e :: gs → (teardown Thread).run s₀ fs = some u →
      ¬ DropsCancel u e)
    (hq : Quiescent s) (hreq : s.mem.Requested) :
    s.mem.cancelled s.mem.reaperCell = true ∧
      ∀ t, (teardown Thread).next s (t, .reap s.mem.reaperCell) = none := by
  have howed : s.mem.Pending → ∃ u, (s.pc u).Owes s.mem := by
    refine (teardown Thread).run_induction
      (P := fun fs s => (∃ gs, es = fs ++ gs) → s.mem.Pending → ∃ u, (s.pc u).Owes s.mem)
      ?_ ?_ hrun ⟨[], by simp⟩
    · rintro - ⟨⟨hne, _⟩, _⟩
      cases hs₀
      exact absurd rfl hne
    · rintro fs s e t hfs ih hnext ⟨gs, hes⟩ hpend
      have hes' : es = fs ++ e :: gs := by simpa using hes
      exact owed_of_next ⟨s₀, fs, hs₀, hfs⟩ hnext (hkeep fs e gs s hes' hfs)
        (ih ⟨e :: gs, hes'⟩) hpend
  have hcancelled : s.mem.cancelled s.mem.reaperCell = true := by
    by_contra hnot
    obtain ⟨u, hu⟩ := howed ⟨hreq, by simpa using hnot⟩
    exact not_owes_of_quiescent ⟨s₀, es, hs₀, hrun⟩ hq u hu
  refine ⟨hcancelled, ?_⟩
  intro t
  by_contra hsome
  obtain ⟨v, hv⟩ := Option.ne_none_iff_exists'.mp hsome
  obtain ⟨p, hstep, _⟩ := Program.next_eq_some.mp hv
  have hnot : s.mem.cancelled s.mem.reaperCell = false := uncancelled_of_reap hstep
  rw [hcancelled] at hnot
  cases hnot

/-! ## Two exits -/

/-- Every thread idle on a fresh watch. -/
def atBoot : Config Bool Watch Pc := { mem := Watch.boot, pc := fun _ => .idle }

/-- The exit path cancels over another thread's abort, whose release then finds
the published cell. -/
def exitDuringAbort : List (Bool × Action) :=
  [(true, .lock), (true, .track), (true, .beginClaim 0), (true, .claimCas),
    (true, .claimReturn 0 true), (true, .enterCall 7), (true, .abort 0),
    (false, .arm .abortAll true), (false, .exitCount), (false, .exitLoop),
    (false, .claimCas), (false, .claimLoad), (false, .claimReturn 0 false),
    (false, .exitLoop), (false, .cancelReaper), (false, .publish), (false, .idleCall),
    (true, .abortReturn), (true, .exitCall), (true, .release), (true, .releaseLook),
    (true, .idleCall), (true, .idleCount), (true, .idleScan), (true, .idleScan),
    (true, .storeCancel), (true, .unlock)]

/-- A collective's library call outlives the request, and its end looks at
nothing. -/
def exitDuringCall : List (Bool × Action) :=
  [(true, .lock), (true, .track), (true, .enterCall 7),
    (false, .arm .abortAll true), (false, .exitCount), (false, .exitLoop),
    (false, .claimCas), (false, .claimReturn 0 true), (false, .abort 0),
    (false, .abortReturn), (false, .release), (false, .releaseLook), (false, .exitLoop),
    (false, .cancelReaper), (false, .publish), (false, .idleCall),
    (true, .exitCall), (true, .unlock)]

/-- A state whose only tracker was released is quiescent once the threads are
idle. -/
theorem quiescent_of_idle {s : Config Bool Watch Pc} (hcall : s.mem.callNs = 0)
    (hstate : s.mem.state = Function.update
      (Function.update (fun _ => CommState.live) 0 .claimed) 0 .released)
    (hidle : ∀ t, s.pc t = .idle) : Quiescent s := by
  refine ⟨hcall, ?_, ?_⟩
  · intro i
    by_cases hi : i = 0 <;> simp [hstate, hi]
  · intro t
    rw [hidle t]
    rfl

/-- The only library call of `exitDuringAbort` is the abort's. -/
theorem not_dropsCancel_exitDuringAbort {fs gs : List (Bool × Action)}
    {e : Bool × Action} {u : Config Bool Watch Pc} (hes : exitDuringAbort = fs ++ e :: gs)
    (hu : (teardown Bool).run atBoot fs = some u) : ¬ DropsCancel u e := by
  rintro ⟨_, hcalling, hexit, _⟩
  have hlen : fs.length < 27 := by
    have h := congrArg List.length hes
    simp [exitDuringAbort] at h
    omega
  have hget : exitDuringAbort[fs.length]? = some e := by simp [hes]
  have hpos : ∀ k < 27, (exitDuringAbort[k]?.map Prod.snd) = some .exitCall → k = 18 := by
    decide
  have hk : fs.length = 18 := hpos _ hlen (by rw [hget, ← hexit]; rfl)
  have hfs : fs = exitDuringAbort.take 18 := by rw [hes, ← hk, List.take_left]
  have he : e = (true, .exitCall) := by
    rw [hk] at hget
    exact (Option.some.inj hget).symm
  rw [hfs] at hu
  rw [he] at hcalling
  have hpc : u.pc true = .aborted 0 := by
    have h := Option.some.inj hu
    rw [← h]
    rfl
  rw [hpc] at hcalling
  cases hcalling

theorem reaper_cancelled_exitDuringAbort :
    ∃ s, (teardown Bool).run atBoot exitDuringAbort = some s ∧
      s.mem.cancelled s.mem.reaperCell = true := by
  have hsome : ((teardown Bool).run atBoot exitDuringAbort).isSome := by decide
  refine ⟨_, (Option.some_get hsome).symm, ?_⟩
  have hinit : (teardown Bool).Init atBoot := rfl
  refine (reaper_cancelled_when_quiescent hinit (Option.some_get hsome).symm
    (fun fs e gs u hes hu => not_dropsCancel_exitDuringAbort hes hu) ?_ ?_).1
  · refine quiescent_of_idle rfl rfl ?_
    intro t
    cases t <;> rfl
  · exact ⟨Nat.one_ne_zero, rfl⟩

/-- A cancellation can be lost: the library call of a collective is in progress
when the exit path asks, and its end does not look at the published cell. -/
theorem reaper_armed_after_exitDuringCall :
    ¬ ∀ s : Config Bool Watch Pc, (teardown Bool).Reachable s → Quiescent s →
      s.mem.Requested → s.mem.cancelled s.mem.reaperCell = true := by
  intro hall
  have hsome : ((teardown Bool).run atBoot exitDuringCall).isSome := by decide
  have hcancelled := hall (((teardown Bool).run atBoot exitDuringCall).get hsome)
    ⟨atBoot, exitDuringCall, rfl, (Option.some_get hsome).symm⟩
    (quiescent_of_idle rfl rfl (by intro t; cases t <;> rfl)) ⟨Nat.one_ne_zero, rfl⟩
  exact Bool.false_ne_true hcancelled

end TorchMojoBackend.Watchdog
