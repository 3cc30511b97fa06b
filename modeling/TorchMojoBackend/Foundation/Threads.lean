/-
  `Foundation.Threads`: any number of threads over one shared memory.

  A program is a partial function from a control location, an action and the
  shared memory to the next location and memory.  Two rules follow from facts
  about single steps: a role that one memory flag guards is played by at most
  one thread, and an event behind a one-way gate happens at most once.
-/
import Mathlib.Data.List.Count
import Mathlib.Logic.Function.Basic
import TorchMojoBackend.Foundation.Transition

set_option autoImplicit false

namespace TorchMojoBackend.Foundation

universe u v w x

/-- What one thread does at a control location: the actions enabled there and
their effect on its location and on the shared memory. -/
structure Program (Mem : Type u) (Pc : Type v) (Action : Type w) where
  /-- The location every thread starts at. -/
  start : Pc
  /-- The memory the threads start with. -/
  boot : Mem
  /-- One atomic step of a thread. -/
  atom : Pc → Action → Mem → Option (Pc × Mem)

/-- The shared memory and the location of every thread. -/
structure Config (Thread : Type x) (Mem : Type u) (Pc : Type v) where
  mem : Mem
  pc : Thread → Pc

namespace Program

variable {Mem : Type u} {Pc : Type v} {Action : Type w} {Thread : Type x}
  [DecidableEq Thread]

/-- The step of thread `e.1` doing `e.2`. -/
def next (P : Program Mem Pc Action) (s : Config Thread Mem Pc)
    (e : Thread × Action) : Option (Config Thread Mem Pc) :=
  (P.atom (s.pc e.1) e.2 s.mem).map fun r =>
    { mem := r.2, pc := Function.update s.pc e.1 r.1 }

/-- All interleavings of the threads. -/
def system (P : Program Mem Pc Action) (Thread : Type x) [DecidableEq Thread] :
    System (Config Thread Mem Pc) (Thread × Action) where
  Init s := s = { mem := P.boot, pc := fun _ => P.start }
  next := P.next

variable {P : Program Mem Pc Action}

/-- A step of the system is a local step of one thread; the other threads stay
where they are. -/
theorem next_eq_some {s t : Config Thread Mem Pc} {e : Thread × Action} :
    (P.system Thread).next s e = some t ↔
      ∃ p, P.atom (s.pc e.1) e.2 s.mem = some (p, t.mem) ∧
        t.pc = Function.update s.pc e.1 p := by
  cases t with
  | mk m' pc' =>
      simp only [system, next, Option.map_eq_some_iff, Prod.exists, Config.mk.injEq]
      constructor
      · rintro ⟨p, m, h, rfl, rfl⟩
        exact ⟨p, h, rfl⟩
      · rintro ⟨p, h, rfl⟩
        exact ⟨p, m', h, rfl, rfl⟩

/-! ## Memory invariants -/

/-- What every local step preserves of the memory holds in every reachable
state. -/
theorem mem_invariant {I : Mem → Prop} (hboot : I P.boot)
    (hlocal : ∀ p a m p' m', I m → P.atom p a m = some (p', m') → I m')
    {s : Config Thread Mem Pc} (hs : (P.system Thread).Reachable s) : I s.mem := by
  refine hs.invariant (I := fun s => I s.mem) ?_ ?_
  · rintro s rfl
    exact hboot
  · intro s e t _ hI hnext
    obtain ⟨p, hstep, _⟩ := next_eq_some.mp hnext
    exact hlocal _ _ _ _ _ hI hstep

/-! ## Exclusive roles -/

/-- How one step may change a role and the flag that guards it: not at all, by
taking a free flag, or by giving up a held one. -/
inductive RoleStep (role : Pc → Prop) (flag : Mem → Prop) (p : Pc) (m : Mem)
    (p' : Pc) (m' : Mem) : Prop
  | keep (hrole : role p' ↔ role p) (hflag : flag m' ↔ flag m)
  | acquire (hfree : ¬ flag m) (hnot : ¬ role p) (hset : flag m') (hrole : role p')
  | release (hrole : role p) (hclear : ¬ flag m') (hnot : ¬ role p')

/-- The three kinds of step, as a proposition to be checked branch by branch. -/
theorem RoleStep.of_cases {role : Pc → Prop} {flag : Mem → Prop} {p p' : Pc}
    {m m' : Mem}
    (h : ((role p' ↔ role p) ∧ (flag m' ↔ flag m)) ∨
      (¬ flag m ∧ ¬ role p ∧ flag m' ∧ role p') ∨
      (role p ∧ ¬ flag m' ∧ ¬ role p')) : RoleStep role flag p m p' m' := by
  rcases h with ⟨hrole, hflag⟩ | ⟨hfree, hnot, hset, hrole⟩ | ⟨hrole, hclear, hnot⟩
  · exact .keep hrole hflag
  · exact .acquire hfree hnot hset hrole
  · exact .release hrole hclear hnot

/-- The flag is set exactly while some thread plays the role, and never two do. -/
structure Exclusive (role : Pc → Prop) (flag : Mem → Prop)
    (s : Config Thread Mem Pc) : Prop where
  unique : ∀ t u, role (s.pc t) → role (s.pc u) → t = u
  set_of_role : ∀ t, role (s.pc t) → flag s.mem
  role_of_set : flag s.mem → ∃ t, role (s.pc t)

/-- One step keeps a role exclusive. -/
theorem Exclusive.step {role : Pc → Prop} {flag : Mem → Prop}
    {s t : Config Thread Mem Pc} {e : Thread × Action} (hI : Exclusive role flag s)
    (hnext : (P.system Thread).next s e = some t)
    (hrole : RoleStep role flag (s.pc e.1) s.mem (t.pc e.1) t.mem) :
    Exclusive role flag t := by
  obtain ⟨p, _, hpc⟩ := next_eq_some.mp hnext
  have hself : t.pc e.1 = p := by rw [hpc, Function.update_self]
  have hother : ∀ u, u ≠ e.1 → t.pc u = s.pc u := by
    intro u hu
    rw [hpc, Function.update_of_ne hu]
  cases hrole with
  | keep hr hf =>
      have hsame : ∀ u, role (t.pc u) ↔ role (s.pc u) := by
        intro u
        by_cases hu : u = e.1
        · rw [hu]
          exact hr
        · rw [hother u hu]
      refine ⟨?_, ?_, ?_⟩
      · intro u v hu hv
        exact hI.unique u v ((hsame u).mp hu) ((hsame v).mp hv)
      · intro u hu
        exact hf.mpr (hI.set_of_role u ((hsame u).mp hu))
      · intro hset
        obtain ⟨u, hu⟩ := hI.role_of_set (hf.mp hset)
        exact ⟨u, (hsame u).mpr hu⟩
  | acquire hfree _ hset hr =>
      have honly : ∀ u, role (t.pc u) → u = e.1 := by
        intro u hu
        by_contra hne
        rw [hother u hne] at hu
        exact hfree (hI.set_of_role u hu)
      refine ⟨?_, ?_, ?_⟩
      · intro u v hu hv
        rw [honly u hu, honly v hv]
      · intro _ _
        exact hset
      · intro _
        exact ⟨e.1, hr⟩
  | release hr hclear hnot =>
      have hnone : ∀ u, ¬ role (t.pc u) := by
        intro u hu
        by_cases hue : u = e.1
        · rw [hue] at hu
          exact hnot hu
        · rw [hother u hue] at hu
          exact hue (hI.unique u e.1 hu hr)
      refine ⟨?_, ?_, ?_⟩
      · intro u _ hu
        exact absurd hu (hnone u)
      · intro u hu
        exact absurd hu (hnone u)
      · intro hset
        exact absurd hset hclear

/-- A family of roles that every step keeps, takes from a free flag or gives up
is exclusive in every reachable state. -/
theorem exclusive_of_reachable {ι : Type*} (role : ι → Pc → Prop)
    (flag : ι → Mem → Prop) (hstart : ∀ k, ¬ role k P.start)
    (hboot : ∀ k, ¬ flag k P.boot)
    (hlocal : ∀ (s t : Config Thread Mem Pc) (e : Thread × Action),
      (∀ k, Exclusive (role k) (flag k) s) → (P.system Thread).next s e = some t →
      ∀ k, RoleStep (role k) (flag k) (s.pc e.1) s.mem (t.pc e.1) t.mem)
    {s : Config Thread Mem Pc} (hs : (P.system Thread).Reachable s) (k : ι) :
    Exclusive (role k) (flag k) s := by
  refine hs.invariant (I := fun s => ∀ k, Exclusive (role k) (flag k) s) ?_ ?_ k
  · rintro s rfl k
    refine ⟨?_, ?_, ?_⟩
    · intro t _ ht
      exact absurd ht (hstart k)
    · intro t ht
      exact absurd ht (hstart k)
    · intro hset
      exact absurd hset (hboot k)
  · intro s e t _ hI hnext k
    exact (hI k).step hnext (hlocal s t e hI hnext k)

/-! ## One-shot events -/

/-- What makes an action happen at most once.  `before` is the part of the code
in front of the action, where at most one thread is at a time; `gate` is a
condition on the memory that stays true once it holds, that holds while a thread
is in that part, and that keeps every other thread from entering it. -/
structure OneShot (P : Program Mem Pc Action) (Thread : Type x) [DecidableEq Thread]
    (action : Action → Prop) (before : Pc → Prop) (gate : Mem → Prop) : Prop where
  leave : ∀ p a m p' m', P.atom p a m = some (p', m') → action a →
    before p ∧ ¬ before p'
  enter : ∀ p a m p' m', P.atom p a m = some (p', m') → before p' →
    before p ∨ ¬ gate m
  stable : ∀ (s t : Config Thread Mem Pc) (e : Thread × Action),
    (P.system Thread).Reachable s → (P.system Thread).next s e = some t →
    gate s.mem → gate t.mem
  unique : ∀ (s : Config Thread Mem Pc), (P.system Thread).Reachable s →
    ∀ t u, before (s.pc t) → before (s.pc u) → t = u
  closed : ∀ (s : Config Thread Mem Pc), (P.system Thread).Reachable s →
    ∀ t, before (s.pc t) → gate s.mem

/-- An action behind a one-shot gate happens at most once in a run, and after it
no thread is in front of it. -/
theorem OneShot.count_le_one {action : Action → Prop} [DecidablePred action]
    {before : Pc → Prop} {gate : Mem → Prop} (h : OneShot P Thread action before gate)
    {s₀ s : Config Thread Mem Pc} (hs₀ : (P.system Thread).Init s₀)
    {es : List (Thread × Action)} (hrun : (P.system Thread).run s₀ es = some s) :
    es.countP (fun e => decide (action e.2)) ≤ 1 ∧
      (es.countP (fun e => decide (action e.2)) = 1 →
        gate s.mem ∧ ∀ t, ¬ before (s.pc t)) := by
  refine (P.system Thread).run_induction
    (P := fun es s => es.countP (fun e => decide (action e.2)) ≤ 1 ∧
      (es.countP (fun e => decide (action e.2)) = 1 →
        gate s.mem ∧ ∀ t, ¬ before (s.pc t))) ?_ ?_ hrun
  · simp
  · intro es s e t hes hI hnext
    have hreach : (P.system Thread).Reachable s := ⟨s₀, es, hs₀, hes⟩
    obtain ⟨p, hstep, hpc⟩ := next_eq_some.mp hnext
    obtain ⟨hle, hdone⟩ := hI
    rw [List.countP_append, List.countP_singleton]
    by_cases ha : action e.2
    · obtain ⟨hbefore, hafter⟩ := h.leave _ _ _ _ _ hstep ha
      have hzero : es.countP (fun e => decide (action e.2)) = 0 := by
        have hne : es.countP (fun e => decide (action e.2)) ≠ 1 := by
          intro h1
          exact (hdone h1).2 e.1 hbefore
        omega
      refine ⟨by simp [hzero, ha], ?_⟩
      intro _
      refine ⟨h.stable s t e hreach hnext (h.closed s hreach e.1 hbefore), ?_⟩
      intro u
      rw [hpc]
      by_cases hu : u = e.1
      · rw [hu, Function.update_self]
        exact hafter
      · rw [Function.update_of_ne hu]
        intro hb
        exact hu (h.unique s hreach u e.1 hb hbefore)
    · simp only [ha, decide_false, Bool.false_eq_true, if_false, Nat.add_zero]
      refine ⟨hle, ?_⟩
      intro h1
      obtain ⟨hg, hnone⟩ := hdone h1
      refine ⟨h.stable s t e hreach hnext hg, ?_⟩
      intro u
      rw [hpc]
      by_cases hu : u = e.1
      · rw [hu, Function.update_self]
        intro hb
        rcases h.enter _ _ _ _ _ hstep hb with hp | hng
        · exact hnone e.1 hp
        · exact hng hg
      · rw [Function.update_of_ne hu]
        exact hnone u

end Program

end TorchMojoBackend.Foundation
