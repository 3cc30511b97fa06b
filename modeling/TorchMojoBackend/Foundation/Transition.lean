/-
  `Foundation.Transition`: labelled transition systems with a partial,
  executable step function.

  Everything in this file is independent of the modelled program: a system is
  an initial-state predicate and a function from a state and an event to the
  next state, `none` when the event is not enabled.
-/
import Mathlib.Data.List.Induction
import Mathlib.Data.Option.Basic

set_option autoImplicit false

namespace TorchMojoBackend.Foundation

universe u v w x

/-- A transition system.  `next s e = none` says that event `e` is not enabled
in `s`. -/
structure System (State : Type u) (Event : Type v) where
  /-- The initial states. -/
  Init : State → Prop
  /-- The state after an event, when the event is enabled. -/
  next : State → Event → Option State

namespace System

variable {State : Type u} {Event : Type v} (M : System State Event)

/-! ## Runs -/

/-- Execute a list of events in order. -/
def run : State → List Event → Option State
  | s, [] => some s
  | s, e :: es => (M.next s e).bind fun t => run t es

@[simp] theorem run_nil (s : State) : M.run s [] = some s := rfl

@[simp] theorem run_cons (s : State) (e : Event) (es : List Event) :
    M.run s (e :: es) = (M.next s e).bind fun t => M.run t es := rfl

theorem run_append (s : State) (es fs : List Event) :
    M.run s (es ++ fs) = (M.run s es).bind fun t => M.run t fs := by
  induction es generalizing s with
  | nil => rfl
  | cons e es ih =>
      simp only [List.cons_append, run_cons]
      cases M.next s e with
      | none => rfl
      | some t => exact ih t

/-- A run of `es ++ fs` passes through the state reached by `es`. -/
theorem run_append_eq_some {s u : State} {es fs : List Event} :
    M.run s (es ++ fs) = some u ↔
      ∃ t, M.run s es = some t ∧ M.run t fs = some u := by
  rw [run_append]
  exact Option.bind_eq_some_iff

/-- A run of `es ++ [e]` is a run of `es` followed by one step. -/
theorem run_concat_eq_some {s u : State} {es : List Event} {e : Event} :
    M.run s (es ++ [e]) = some u ↔
      ∃ t, M.run s es = some t ∧ M.next t e = some u := by
  rw [run_append_eq_some]
  constructor
  · rintro ⟨t, ht, hu⟩
    refine ⟨t, ht, ?_⟩
    simpa using hu
  · rintro ⟨t, ht, hu⟩
    exact ⟨t, ht, by simpa using hu⟩

/-- Induction along a run, with the events executed so far in view. -/
theorem run_induction {P : List Event → State → Prop} {s₀ : State}
    (hinit : P [] s₀)
    (hstep : ∀ es s e t, M.run s₀ es = some s → P es s →
      M.next s e = some t → P (es ++ [e]) t)
    {es : List Event} {s : State} (hrun : M.run s₀ es = some s) : P es s := by
  induction es using List.reverseRecOn generalizing s with
  | nil =>
      rw [run_nil, Option.some.injEq] at hrun
      exact hrun ▸ hinit
  | append_singleton es e ih =>
      obtain ⟨t, ht, hnext⟩ := (M.run_concat_eq_some).mp hrun
      exact hstep es t e s ht (ih ht) hnext

/-! ## Reachable states and invariants -/

/-- The states some run from an initial state ends in. -/
def Reachable (s : State) : Prop :=
  ∃ s₀ es, M.Init s₀ ∧ M.run s₀ es = some s

variable {M}

theorem Reachable.of_init {s : State} (h : M.Init s) : M.Reachable s :=
  ⟨s, [], h, rfl⟩

theorem Reachable.step {s t : State} {e : Event} (hs : M.Reachable s)
    (hnext : M.next s e = some t) : M.Reachable t := by
  obtain ⟨s₀, es, hinit, hrun⟩ := hs
  exact ⟨s₀, es ++ [e], hinit, M.run_concat_eq_some.mpr ⟨s, hrun, hnext⟩⟩

theorem Reachable.run {s t : State} {es : List Event} (hs : M.Reachable s)
    (hrun : M.run s es = some t) : M.Reachable t := by
  obtain ⟨s₀, fs, hinit, hfs⟩ := hs
  exact ⟨s₀, fs ++ es, hinit, M.run_append_eq_some.mpr ⟨s, hfs, hrun⟩⟩

/-- A predicate that holds initially and is kept by every step from a reachable
state holds in every reachable state. -/
theorem Reachable.invariant {I : State → Prop} {s : State} (hs : M.Reachable s)
    (hinit : ∀ s, M.Init s → I s)
    (hstep : ∀ s e t, M.Reachable s → I s → M.next s e = some t → I t) : I s := by
  obtain ⟨s₀, es, h₀, hrun⟩ := hs
  refine M.run_induction (P := fun _ s => I s) (hinit s₀ h₀) ?_ hrun
  intro es s e t hes hI hnext
  exact hstep s e t ⟨s₀, es, h₀, hes⟩ hI hnext

/-- A reflexive and transitive relation every step respects holds between the
ends of every run. -/
theorem run_relates {R : State → State → Prop} (hrefl : ∀ s, R s s)
    (htrans : ∀ s t u, R s t → R t u → R s u)
    (hstep : ∀ s e t, M.Reachable s → M.next s e = some t → R s t)
    {s t : State} {es : List Event} (hs : M.Reachable s)
    (hrun : M.run s es = some t) : R s t := by
  refine M.run_induction (P := fun _ t => R s t) (hrefl s) ?_ hrun
  intro es u e v hes hR hnext
  exact htrans s u v hR (hstep u e v (hs.run hes) hnext)

/-- Progress by a measure: if from every `P`-state short of `Q` some allowed event
leads to a smaller `P`-state, a run of allowed events ends in `Q`. -/
theorem exists_run_of_measure {P Q : State → Prop} {A : Event → Prop} (m : State → Nat)
    (hstep : ∀ s, P s → Q s ∨ ∃ e t, A e ∧ M.next s e = some t ∧ P t ∧ m t < m s)
    {s : State} (hs : P s) :
    ∃ es t, (∀ e ∈ es, A e) ∧ M.run s es = some t ∧ P t ∧ Q t := by
  induction hn : m s using Nat.strongRecOn generalizing s with
  | ind n ih =>
      obtain hq | ⟨e, t, hallowed, hnext, ht, hlt⟩ := hstep s hs
      · exact ⟨[], s, by simp, rfl, hs, hq⟩
      · obtain ⟨es, u, hall, hrun, hu, hqu⟩ := ih (m t) (hn ▸ hlt) ht rfl
        refine ⟨e :: es, u, ?_, ?_, hu, hqu⟩
        · intro e' he'
          obtain rfl | he' := List.mem_cons.mp he'
          · exact hallowed
          · exact hall e' he'
        · rw [run_cons, hnext]
          exact hrun

/-! ## Restricting the steps -/

/-- The system whose steps are those of `M` that satisfy `C` in the state they
start from. -/
def restrict (M : System State Event) (C : State → Event → Prop)
    [∀ s e, Decidable (C s e)] : System State Event where
  Init := M.Init
  next s e := if C s e then M.next s e else none

theorem restrict_next_eq_some {C : State → Event → Prop}
    [∀ s e, Decidable (C s e)] {s t : State} {e : Event} :
    (M.restrict C).next s e = some t ↔ C s e ∧ M.next s e = some t := by
  unfold restrict
  by_cases h : C s e <;> simp [h]

theorem Reachable.of_restrict {C : State → Event → Prop}
    [∀ s e, Decidable (C s e)] {s : State}
    (hs : (M.restrict C).Reachable s) : M.Reachable s := by
  refine hs.invariant (fun s h => Reachable.of_init h) ?_
  intro s e t _ hreach hnext
  exact hreach.step (restrict_next_eq_some.mp hnext).2

/-! ## Forward simulation -/

/-- `A` simulates `M` along `abs`: an initial state abstracts to an initial
state, and each step from a reachable state is matched by some abstract steps. -/
structure Simulates {AState : Type w} {AEvent : Type x} (M : System State Event)
    (A : System AState AEvent) (abs : State → AState) : Prop where
  init : ∀ s, M.Init s → A.Init (abs s)
  step : ∀ s e t, M.Reachable s → M.next s e = some t →
    ∃ fs, A.run (abs s) fs = some (abs t)

/-- A simulation maps reachable states to reachable states, so that every
invariant of the abstract system is one of the concrete system. -/
theorem Simulates.reachable {AState : Type w} {AEvent : Type x}
    {A : System AState AEvent} {abs : State → AState} (h : Simulates M A abs)
    {s : State} (hs : M.Reachable s) : A.Reachable (abs s) := by
  refine hs.invariant (fun s hi => Reachable.of_init (h.init s hi)) ?_
  intro s e t hreach habs hnext
  obtain ⟨fs, hfs⟩ := h.step s e t hreach hnext
  exact habs.run hfs

end System

end TorchMojoBackend.Foundation
