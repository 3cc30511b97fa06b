/-
  `Foundation.SeqLock`: a cell of words whose version is a lock for its writers and
  the check of its readers.

  Everything in this file is independent of the modelled program.  A writer moves
  the version from even to odd, stores words one at a time and moves the version to
  the next even value.  A reader notes an even version, loads words one at a time
  and accepts them if the version is still the one it noted.  The jobs of the
  writers, in the order in which they gave the cell back, explain its words at
  every even version, and so what a reader accepts.
-/
import Mathlib.Data.List.Basic
import Mathlib.Logic.Function.Basic

set_option autoImplicit false

namespace TorchMojoBackend.Foundation

universe u v w

/-- A cell; `log` is the history of the jobs done on it. -/
structure Cell (Job : Type u) (Word : Type v) (Val : Type w) where
  version : Nat
  words : Word → Val
  log : List Job

/-- The words after jobs. -/
def replay {Job : Type u} {Word : Type v} {Val : Type w}
    (apply : Job → (Word → Val) → Word → Val) (zero : Word → Val) (log : List Job) : Word → Val :=
  log.foldl (fun c j => apply j c) zero

/-- Stores in order. -/
def storeAll {Word : Type v} {Val : Type w} [DecidableEq Word] (stores : List (Word × Val))
    (c : Word → Val) : Word → Val :=
  stores.foldl (fun c p => Function.update c p.1 p.2) c

theorem storeAll_of_not_mem {Word : Type v} {Val : Type w} [DecidableEq Word] {x : Word}
    {stores : List (Word × Val)} (h : ∀ p ∈ stores, p.1 ≠ x) (c : Word → Val) :
    storeAll stores c x = c x := by
  induction stores generalizing c with
  | nil => rfl
  | cons p stores ih =>
      refine (ih (fun q hq => h q (List.mem_cons_of_mem _ hq)) _).trans ?_
      exact Function.update_of_ne (h p List.mem_cons_self).symm ..

namespace Cell

variable {Job : Type u} {Word : Type v} {Val : Type w}

/-! ## Writers -/

/-- The version moves from even to odd. -/
def acquire (c : Cell Job Word Val) : Cell Job Word Val := { c with version := c.version + 1 }

/-- A word is stored. -/
def store [DecidableEq Word] (c : Cell Job Word Val) (x : Word) (a : Val) : Cell Job Word Val :=
  { c with words := Function.update c.words x a }

/-- The version moves on from `v`, that before the lock, and the job is done. -/
def release (c : Cell Job Word Val) (v : Nat) (j : Job) : Cell Job Word Val :=
  { c with version := v + 2, log := c.log ++ [j] }

variable (apply : Job → (Word → Val) → Word → Val) (zero : Word → Val)

/-- The version counts the jobs, and at an even version the words are theirs. -/
structure Valid (c : Cell Job Word Val) : Prop where
  length : c.log.length = c.version / 2
  words : c.version % 2 = 0 → c.words = replay apply zero c.log

/-- A writer that noted the even version `v` has the cell and has stored nothing. -/
structure Held (c : Cell Job Word Val) (v : Nat) : Prop where
  even : v % 2 = 0
  version : c.version = v + 1
  words : c.words = replay apply zero c.log

/-- A writer that noted the even version `v` is at work: the stores it has left make the
words those of the job `j`. -/
structure Working [DecidableEq Word] (c : Cell Job Word Val) (v : Nat) (j : Job)
    (stores : List (Word × Val)) : Prop where
  even : v % 2 = 0
  version : c.version = v + 1
  words : storeAll stores c.words = apply j (replay apply zero c.log)

/-- A step of a writer. -/
inductive Step [DecidableEq Word] (c : Cell Job Word Val) : Cell Job Word Val → Prop
  | same : Step c c
  | acquire (heven : c.version % 2 = 0) : Step c c.acquire
  | store (hodd : c.version % 2 = 1) (x : Word) (a : Val) : Step c (c.store x a)
  | release {v : Nat} (heven : v % 2 = 0) (hversion : c.version = v + 1) (j : Job) :
      Step c (c.release v j)

variable {apply zero}
variable {c c' : Cell Job Word Val}

theorem Valid.acquire (h : c.Valid apply zero) (heven : c.version % 2 = 0) :
    c.acquire.Valid apply zero := by
  refine ⟨h.length.trans ?_, fun hnext => ?_⟩
  · change c.version / 2 = (c.version + 1) / 2
    omega
  · change (c.version + 1) % 2 = 0 at hnext
    omega

theorem Valid.store [DecidableEq Word] (h : c.Valid apply zero) (hodd : c.version % 2 = 1)
    (x : Word) (a : Val) : (c.store x a).Valid apply zero := by
  refine ⟨h.length, fun heven => ?_⟩
  change c.version % 2 = 0 at heven
  omega

/-- A writer done with its stores gives the cell back. -/
theorem Valid.release [DecidableEq Word] (h : c.Valid apply zero) {v : Nat} {j : Job}
    (hwork : c.Working apply zero v j []) : (c.release v j).Valid apply zero := by
  have hversion := hwork.version
  have heven := hwork.even
  refine ⟨?_, fun _ => ?_⟩
  · change (c.log ++ [j]).length = (v + 2) / 2
    rw [List.length_append, List.length_singleton, h.length]
    omega
  · change c.words = replay apply zero (c.log ++ [j])
    rw [replay, List.foldl_append]
    exact hwork.words

theorem Valid.held (h : c.Valid apply zero) (heven : c.version % 2 = 0) :
    c.acquire.Held apply zero c.version := ⟨heven, rfl, h.words heven⟩

/-- The stores of a job are laid out. -/
theorem Held.working [DecidableEq Word] {v : Nat} (h : c.Held apply zero v) {j : Job}
    {stores : List (Word × Val)} (hstores : storeAll stores c.words = apply j c.words) :
    c.Working apply zero v j stores :=
  ⟨h.even, h.version, by rw [hstores, h.words]⟩

theorem Working.store [DecidableEq Word] {v : Nat} {j : Job} {x : Word} {a : Val}
    {stores : List (Word × Val)} (h : c.Working apply zero v j ((x, a) :: stores)) :
    (c.store x a).Working apply zero v j stores :=
  ⟨h.even, h.version, h.words⟩

theorem Step.version_le [DecidableEq Word] (h : Step c c') : c.version ≤ c'.version := by
  cases h with
  | same => exact Nat.le_refl _
  | acquire => exact Nat.le_succ _
  | store => exact Nat.le_refl _
  | release heven hversion j =>
      change c.version ≤ _ + 2
      omega

/-- Jobs that were done stay done. -/
theorem Step.log_le [DecidableEq Word] (h : Step c c') : c.log <+: c'.log := by
  cases h with
  | same | acquire | store => exact List.prefix_rfl
  | release => exact List.prefix_append _ _

end Cell

/-! ## Readers -/

/-- What a reader holds: the version it noted and the words it has loaded. -/
structure View (Word : Type v) (Val : Type w) where
  version : Nat
  got : List (Word × Val)

namespace View

variable {Job : Type u} {Word : Type v} {Val : Type w}

/-- The loaded words are those of the cell, unless its version has moved on. -/
structure Sees (c : Cell Job Word Val) (v : View Word Val) : Prop where
  even : v.version % 2 = 0
  le : v.version ≤ c.version
  got : c.version = v.version → ∀ p ∈ v.got, c.words p.1 = p.2

variable {c c' : Cell Job Word Val} {v : View Word Val}

theorem Sees.start (heven : c.version % 2 = 0) : Sees c ⟨c.version, []⟩ :=
  ⟨heven, Nat.le_refl _, fun _ _ hp => absurd hp List.not_mem_nil⟩

theorem Sees.load (h : Sees c v) (x : Word) :
    Sees c ⟨v.version, v.got ++ [(x, c.words x)]⟩ := by
  refine ⟨h.even, h.le, fun hsame p hp => ?_⟩
  obtain hp | hp := List.mem_append.mp hp
  · exact h.got hsame p hp
  · rw [List.mem_singleton.mp hp]

/-- Whatever the writers do in between. -/
theorem Sees.step [DecidableEq Word] (h : Sees c v) (hstep : c.Step c') : Sees c' v := by
  refine ⟨h.even, Nat.le_trans h.le hstep.version_le, fun hsame => ?_⟩
  have heven := h.even
  have hle := h.le
  cases hstep with
  | same => exact h.got hsame
  | acquire =>
      change c.version + 1 = v.version at hsame
      omega
  | store hodd =>
      change c.version = v.version at hsame
      omega
  | release hv hversion j =>
      change _ + 2 = v.version at hsame
      omega

/-- Accepted words are those of the jobs done by then. -/
theorem Sees.accept {apply : Job → (Word → Val) → Word → Val} {zero : Word → Val}
    (h : Sees c v) (hc : c.Valid apply zero) (hsame : c.version = v.version) :
    ∀ p ∈ v.got, replay apply zero c.log p.1 = p.2 := by
  intro p hp
  rw [← hc.words (hsame ▸ h.even)]
  exact h.got hsame p hp

end View

end TorchMojoBackend.Foundation
