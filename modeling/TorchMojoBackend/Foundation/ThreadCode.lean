/-
  `Foundation.ThreadCode`: the code of one thread over a memory that others share.

  Everything in this file is independent of the modelled program.  Code loads and stores cells
  one at a time.  From a memory that nobody else changes it has a result, the cells that it
  loads, and the values that it leaves in the cells that it stores; these are decided by the
  cells that it loads.  `Within` says that the code keeps to a region whatever it loads.
-/
import Mathlib.Data.List.Nodup
import Mathlib.Logic.Function.Basic

set_option autoImplicit false

namespace TorchMojoBackend.Foundation

universe u v w x

/-- What a thread does, with the result `α`. -/
inductive Code {Addr : Type u} (Val : Addr → Type v) (α : Type w) where
  | ret (x : α)
  | load (a : Addr) (k : Val a → Code Val α)
  | store (a : Addr) (x : Val a) (k : Code Val α)

namespace Code

variable {Addr : Type u} {Val : Addr → Type v} {α : Type w} {β : Type x}

def bind : Code Val α → (α → Code Val β) → Code Val β
  | ret x, f => f x
  | load a k, f => .load a fun x => (k x).bind f
  | store a x k, f => .store a x (k.bind f)

instance : Monad (Code Val) where
  pure := ret
  bind := bind

def get (a : Addr) : Code Val (Val a) := .load a .ret

def put (a : Addr) (x : Val a) : Code Val Unit := .store a x (.ret ())

/-- A loop over items. -/
def each {ι : Type x} : List ι → (ι → Code Val Unit) → Code Val Unit
  | [], _ => .ret ()
  | i :: l, f => (f i).bind fun _ => each l f

/-- A loop over items with a value that it changes. -/
def fold {ι : Type x} (f : α → ι → Code Val α) : α → List ι → Code Val α
  | s, [] => .ret s
  | s, i :: l => (f s i).bind fun s => fold f s l

/-! ## The code alone -/

section Alone

variable [DecidableEq Addr]

/-- The result of the code. -/
def result : Code Val α → (∀ a, Val a) → α
  | ret x, _ => x
  | load a k, m => (k (m a)).result m
  | store a x k, m => k.result (Function.update m a x)

/-- The memory after the code. -/
def after : Code Val α → (∀ a, Val a) → ∀ a, Val a
  | ret _, m => m
  | load a k, m => (k (m a)).after m
  | store a x k, m => k.after (Function.update m a x)

/-- The cells that the code loads. -/
def Loads : Code Val α → (∀ a, Val a) → Addr → Prop
  | ret _, _, _ => False
  | load a k, m, b => b = a ∨ (k (m a)).Loads m b
  | store a x k, m, b => k.Loads (Function.update m a x) b

/-- One stored cell. -/
def single (a : Addr) (x : Val a) : ∀ b, Option (Val b) := Function.update (fun _ => none) a (some x)

/-- The value that the code leaves in a cell that it stores. -/
def writes : Code Val α → (∀ a, Val a) → ∀ a, Option (Val a)
  | ret _, _ => fun _ => none
  | load a k, m => (k (m a)).writes m
  | store a x k, m => fun b =>
      (k.writes (Function.update m a x) b).or (single a x b)

/-- The number of its steps. -/
def steps : Code Val α → (∀ a, Val a) → Nat
  | ret _, _ => 0
  | load a k, m => (k (m a)).steps m + 1
  | store a x k, m => k.steps (Function.update m a x) + 1

section

variable (c : Code Val α) (f : α → Code Val β) (m : ∀ a, Val a)

theorem result_bind : (c.bind f).result m = (f (c.result m)).result (c.after m) := by
  induction c generalizing m with
  | ret x => rfl
  | load a k ih => exact ih _ m
  | store a x k ih => exact ih _

theorem loads_bind {b : Addr} : (c.bind f).Loads m b ↔
    c.Loads m b ∨ (f (c.result m)).Loads (c.after m) b := by
  induction c generalizing m with
  | ret x => exact (iff_of_eq (false_or _)).symm
  | load a k ih => exact (or_congr_right (ih _ m)).trans or_assoc.symm
  | store a x k ih => exact ih _

theorem writes_bind (b : Addr) : (c.bind f).writes m b =
    ((f (c.result m)).writes (c.after m) b).or (c.writes m b) := by
  induction c generalizing m with
  | ret x => exact (Option.or_none).symm
  | load a k ih => exact ih _ m
  | store a x k ih => exact (congrArg (Option.or · _) (ih _)).trans Option.or_assoc

/-- The memory after the code differs in the cells that it stores. -/
theorem after_eq (b : Addr) : c.after m b = (c.writes m b).getD (m b) := by
  induction c generalizing m with
  | ret x => rfl
  | load a k ih => exact ih _ m
  | store a x k ih =>
      unfold after writes
      rw [ih]
      cases k.writes (Function.update m a x) b with
      | some v => rfl
      | none =>
          unfold single
          by_cases hb : b = a
          · subst hb
            simp only [Function.update_self, Option.getD_none, Option.or_some, Option.getD_some]
          · simp only [Function.update_of_ne hb, Option.getD_none, Option.none_or]

/-- What the code does is decided by the cells that it loads. -/
theorem congr {m m' : ∀ a, Val a} (h : ∀ a, c.Loads m a → m' a = m a) :
    c.result m' = c.result m ∧ (∀ a, c.Loads m' a ↔ c.Loads m a) ∧
      c.writes m' = c.writes m ∧ c.steps m' = c.steps m := by
  induction c generalizing m m' with
  | ret x => exact ⟨rfl, fun _ => Iff.rfl, rfl, rfl⟩
  | load a k ih =>
      have hsame : m' a = m a := h a (.inl rfl)
      unfold result Loads writes steps
      rw [hsame]
      obtain ⟨hresult, hloads, hwrites, hsteps⟩ := ih (m a) fun b hb => h b (.inr hb)
      exact ⟨hresult, fun b => or_congr_right (hloads b), hwrites, congrArg (· + 1) hsteps⟩
  | store a x k ih =>
      have hsame : ∀ b, k.Loads (Function.update m a x) b →
          Function.update m' a x b = Function.update m a x b := by
        intro b hb
        by_cases hba : b = a
        · subst hba
          rw [Function.update_self, Function.update_self]
        · rw [Function.update_of_ne hba, Function.update_of_ne hba]
          exact h b hb
      obtain ⟨hresult, hloads, hwrites, hsteps⟩ := ih hsame
      unfold result Loads writes steps
      rw [hwrites]
      exact ⟨hresult, hloads, rfl, congrArg (· + 1) hsteps⟩

end

@[simp] theorem result_ret (x : α) (m : ∀ a, Val a) : (ret x : Code Val α).result m = x := rfl
@[simp] theorem result_get (a : Addr) (m : ∀ a, Val a) : (get a : Code Val _).result m = m a := rfl
@[simp] theorem after_ret (x : α) (m : ∀ a, Val a) : (ret x : Code Val α).after m = m := rfl
@[simp] theorem after_get (a : Addr) (m : ∀ a, Val a) : (get a : Code Val _).after m = m := rfl
@[simp] theorem after_put (a : Addr) (x : Val a) (m : ∀ a, Val a) :
    (put a x).after m = Function.update m a x := rfl
@[simp] theorem loads_ret (x : α) (m : ∀ a, Val a) (b : Addr) :
    (ret x : Code Val α).Loads m b ↔ False := Iff.rfl
@[simp] theorem loads_get (a : Addr) (m : ∀ a, Val a) (b : Addr) :
    (get a : Code Val _).Loads m b ↔ b = a := iff_of_eq (or_false _)
@[simp] theorem loads_put (a : Addr) (x : Val a) (m : ∀ a, Val a) (b : Addr) :
    (put a x).Loads m b ↔ False := Iff.rfl
@[simp] theorem writes_ret (x : α) (m : ∀ a, Val a) (b : Addr) :
    (ret x : Code Val α).writes m b = none := rfl
@[simp] theorem writes_get (a : Addr) (m : ∀ a, Val a) (b : Addr) :
    (get a : Code Val _).writes m b = none := rfl
@[simp] theorem writes_put (a : Addr) (x : Val a) (m : ∀ a, Val a) (b : Addr) :
    (put a x).writes m b = single a x b := Option.none_or

@[simp] theorem single_self (a : Addr) (x : Val a) : single a x a = some x :=
  Function.update_self _ _ _

theorem single_of_ne {a b : Addr} (x : Val a) (h : b ≠ a) : single a x b = none :=
  Function.update_of_ne h _ _

@[simp] theorem single_isSome {a b : Addr} {x : Val a} : (single a x b).isSome ↔ b = a := by
  by_cases h : b = a
  · subst h
    rw [single_self]
    exact iff_of_true rfl rfl
  · rw [single_of_ne x h]
    exact iff_of_false (fun h => nomatch h) h

omit [DecidableEq Addr] in
@[simp] theorem pure_eq (x : α) : (pure x : Code Val α) = .ret x := rfl

omit [DecidableEq Addr] in
@[simp] theorem bind_eq {α β : Type w} (c : Code Val α) (f : α → Code Val β) :
    (c >>= f) = c.bind f := rfl

/-! ## Code that stores nothing -/

/-- The code stores nothing, loads from `R` only and has the result `x`. -/
structure Peeks (R : Addr → Prop) (c : Code Val α) (m : ∀ a, Val a) (x : α) : Prop where
  result : c.result m = x
  loads : ∀ a, c.Loads m a → R a
  writes : ∀ a, c.writes m a = none

section Peeks

variable {R : Addr → Prop} {m : ∀ a, Val a}

theorem Peeks.after {c : Code Val α} {x : α} (h : Peeks R c m x) : c.after m = m := funext fun a => by
  rw [after_eq, h.writes a]
  rfl

theorem peeks_get {a : Addr} (ha : R a) : Peeks R (get a : Code Val (Val a)) m (m a) :=
  ⟨rfl, fun b hb => by rwa [(loads_get a m b).mp hb], fun _ => rfl⟩

end Peeks

/-! ## Items -/

/-- Neither of two codes stores a cell that the other one loads or stores. -/
def Apart (c : Code Val α) (d : Code Val β) (m : ∀ a, Val a) : Prop :=
  ∀ a, ((c.writes m a).isSome → ¬ d.Loads m a ∧ d.writes m a = none) ∧
    ((d.writes m a).isSome → ¬ c.Loads m a)

/-- What the code does after another one that is apart from it. -/
theorem Apart.congr {c : Code Val α} {d : Code Val β} {m : ∀ a, Val a} (h : Apart c d m) :
    d.result (c.after m) = d.result m ∧ (∀ a, d.Loads (c.after m) a ↔ d.Loads m a) ∧
      d.writes (c.after m) = d.writes m ∧ d.steps (c.after m) = d.steps m := by
  refine d.congr fun a ha => ?_
  rw [after_eq]
  cases hc : c.writes m a with
  | none => rfl
  | some v => exact absurd ha ((h a).1 (by rw [hc]; rfl)).1

section Each

variable {ι : Type x} {f : ι → Code Val Unit}

/-- Items that are apart do what each of them does alone. -/
theorem each_apart {l : List ι} {m : ∀ a, Val a} (h : l.Pairwise fun i j => Apart (f i) (f j) m) :
    (∀ a, (each l f).Loads m a ↔ ∃ i ∈ l, (f i).Loads m a) ∧
      ∀ a v, (each l f).writes m a = some v ↔ ∃ i ∈ l, (f i).writes m a = some v := by
  induction l generalizing m with
  | nil =>
      refine ⟨fun a => iff_of_false id ?_, fun a v => iff_of_false (fun h => nomatch h) ?_⟩
      · rintro ⟨i, hi, -⟩
        exact absurd hi List.not_mem_nil
      · rintro ⟨i, hi, -⟩
        exact absurd hi List.not_mem_nil
  | cons i l ih =>
      obtain ⟨hi, hl⟩ := List.pairwise_cons.mp h
      have hsame : ∀ j ∈ l, (∀ a, (f j).Loads ((f i).after m) a ↔ (f j).Loads m a) ∧
          (f j).writes ((f i).after m) = (f j).writes m := fun j hj =>
        ⟨(hi j hj).congr.2.1, (hi j hj).congr.2.2.1⟩
      have hrest : l.Pairwise fun j k => Apart (f j) (f k) ((f i).after m) := by
        refine hl.imp_of_mem fun {j k} hj hk hjk a => ?_
        rw [(hsame j hj).2, (hsame k hk).2, (hsame j hj).1, (hsame k hk).1]
        exact hjk a
      obtain ⟨hloads, hwrites⟩ := ih hrest
      unfold each
      refine ⟨fun a => ?_, fun a v => ?_⟩
      · rw [loads_bind, hloads, List.exists_mem_cons_iff]
        refine or_congr_right (exists_congr fun j => and_congr_right fun hj => ?_)
        exact (hsame j hj).1 a
      · rw [writes_bind, List.exists_mem_cons_iff, Option.or_eq_some_iff, hwrites]
        have hlater : (∃ j ∈ l, (f j).writes ((f i).after m) a = some v) ↔
            ∃ j ∈ l, (f j).writes m a = some v :=
          exists_congr fun j => and_congr_right fun hj => by rw [(hsame j hj).2]
        rw [hlater, or_comm]
        refine or_congr_left (and_iff_right_of_imp fun hone => ?_)
        cases hnone : (each l f).writes ((f i).after m) a with
        | none => rfl
        | some v' =>
            -- no later item stores the cell
            obtain ⟨j, hj, hjv⟩ := (hwrites a v').mp hnone
            rw [(hsame j hj).2, (((hi j hj) a).1 (by rw [hone]; rfl)).2] at hjv
            exact nomatch hjv

end Each

end Alone

/-! ## Regions -/

/-- The code keeps to a region whatever it loads, when every cell has a value that `P` admits;
what it stores is admitted. -/
def Within (R : Addr → Prop) (P : ∀ a, Val a → Prop) : Code Val α → Prop
  | ret _ => True
  | load a k => R a ∧ ∀ v, P a v → (k v).Within R P
  | store a x k => R a ∧ P a x ∧ k.Within R P

section Region

variable {R : Addr → Prop} {P : ∀ a, Val a → Prop}

/-- The code goes on after a load. -/
theorem within_get {a : Addr} {f : Val a → Code Val β} (ha : R a)
    (hf : ∀ v, P a v → (f v).Within R P) : ((get a).bind f).Within R P := ⟨ha, hf⟩

/-- The code goes on after a store. -/
theorem within_put {a : Addr} {x : Val a} {f : Unit → Code Val β} (ha : R a) (hx : P a x)
    (hf : (f ()).Within R P) : ((put a x).bind f).Within R P := ⟨ha, hx, hf⟩

theorem within_bind {c : Code Val α} {f : α → Code Val β} (hc : c.Within R P)
    (hf : ∀ x, (f x).Within R P) : (c.bind f).Within R P := by
  induction c with
  | ret x => exact hf x
  | load a k ih => exact ⟨hc.1, fun v hv => ih v (hc.2 v hv)⟩
  | store a x k ih => exact ⟨hc.1, hc.2.1, ih hc.2.2⟩

/-- The first part of a bind. -/
theorem within_first {c : Code Val α} {f : α → Code Val β} (h : (c.bind f).Within R P) :
    c.Within R P := by
  induction c with
  | ret x => trivial
  | load a k ih => exact ⟨h.1, fun v hv => ih v (h.2 v hv)⟩
  | store a x k ih => exact ⟨h.1, h.2.1, ih h.2.2⟩

theorem within_of_get {a : Addr} {f : Val a → Code Val β} (h : ((get a).bind f).Within R P) :
    R a ∧ ∀ v, P a v → (f v).Within R P := h

theorem within_of_put {a : Addr} {x : Val a} {f : Unit → Code Val β}
    (h : ((put a x).bind f).Within R P) : R a ∧ (f ()).Within R P := ⟨h.1, h.2.2⟩

/-- The rest of a bind, for one of the results of its first part. -/
theorem within_of_bind {c : Code Val α} {f : α → Code Val β} (hP : ∀ a, ∃ v, P a v)
    (h : (c.bind f).Within R P) : ∃ x, (f x).Within R P := by
  induction c with
  | ret x => exact ⟨x, h⟩
  | load a k ih =>
      obtain ⟨v, hv⟩ := hP a
      exact ih v (h.2 v hv)
  | store a x k ih => exact ih h.2.2

theorem within_each {ι : Type x} {f : ι → Code Val Unit} {l : List ι}
    (h : ∀ i ∈ l, (f i).Within R P) : (each l f).Within R P := by
  induction l with
  | nil => trivial
  | cons i l ih =>
      exact within_bind (h i List.mem_cons_self) fun _ =>
        ih fun j hj => h j (List.mem_cons_of_mem _ hj)

end Region

end Code

end TorchMojoBackend.Foundation
