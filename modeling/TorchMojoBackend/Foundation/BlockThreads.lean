/-
  `Foundation.BlockThreads`: the threads of a block, between barriers in any order.

  Everything in this file is independent of the modelled program.  A thread's code runs up to its
  next barrier; a barrier is passed when all threads wait at it.  `Surely` says that every order
  of the steps ends, and how, when others may change the cells outside a region at any time.
  Threads of which no one stores a cell that another one loads or stores leave what each of them
  leaves alone (`Ends.merge`).
-/
import Mathlib.Algebra.BigOperators.Group.Finset.Basic
import Mathlib.Algebra.Order.BigOperators.Group.Finset
import TorchMojoBackend.Foundation.ThreadCode

set_option autoImplicit false

namespace TorchMojoBackend.Foundation

universe u v w x

/-- What a thread does after its next barrier. -/
inductive Prog {Addr : Type u} (Val : Addr → Type v) where
  | stop
  | go (c : Code Val (Prog Val))

/-- The cell that the code loads next. -/
def Code.NextLoad {Addr : Type u} {Val : Addr → Type v} {α : Type w} : Code Val α → Addr → Prop
  | .load a _, b => b = a
  | _, _ => False

/-- The cell that the code stores next. -/
def Code.NextStore {Addr : Type u} {Val : Addr → Type v} {α : Type w} : Code Val α → Addr → Prop
  | .store a _ _, b => b = a
  | _, _ => False

/-! ## A block -/

section Block

variable {Addr : Type u} {Val : Addr → Type v} [DecidableEq Addr] {nt : Nat}

/-- One step of a block: a thread loads or stores, or all pass a barrier. -/
inductive BlockStep : (∀ a, Val a) → (Fin nt → Code Val (Prog Val)) → (∀ a, Val a) →
    (Fin nt → Code Val (Prog Val)) → Prop
  | load {m : ∀ a, Val a} {th : Fin nt → Code Val (Prog Val)} {t : Fin nt} {a : Addr}
      {k : Val a → Code Val (Prog Val)} (hth : th t = .load a k) :
      BlockStep m th m (Function.update th t (k (m a)))
  | store {m : ∀ a, Val a} {th : Fin nt → Code Val (Prog Val)} {t : Fin nt} {a : Addr} {x : Val a}
      {k : Code Val (Prog Val)} (hth : th t = .store a x k) :
      BlockStep m th (Function.update m a x) (Function.update th t k)
  | barrier {m : ∀ a, Val a} {th c : Fin nt → Code Val (Prog Val)} (hpos : 0 < nt)
      (hth : ∀ t, th t = .ret (.go (c t))) : BlockStep m th m c

/-- Two memories on a region. -/
def AgreeOn (R : Addr → Prop) (m m' : ∀ a, Val a) : Prop := ∀ a, R a → m' a = m a

/-- Whatever others do outside the region `R`, the block loads from `R` and stores to `W` only, does
not stop before its threads do, and has stopped with `Q` after `n` steps at most. -/
inductive Surely (R W : Addr → Prop) (Q : (∀ a, Val a) → Prop) :
    Nat → (∀ a, Val a) → (Fin nt → Code Val (Prog Val)) → Prop
  | stop {n : Nat} {m : ∀ a, Val a} {th : Fin nt → Code Val (Prog Val)}
      (hth : ∀ t, th t = .ret .stop) (hq : ∀ m', AgreeOn R m m' → Q m') : Surely R W Q n m th
  | more {n : Nat} {m : ∀ a, Val a} {th : Fin nt → Code Val (Prog Val)}
      (loads : ∀ t a, (th t).NextLoad a → R a) (stores : ∀ t a, (th t).NextStore a → W a)
      (live : ∀ m', AgreeOn R m m' → ∃ m'' th'', BlockStep m' th m'' th'')
      (next : ∀ m', AgreeOn R m m' → ∀ m'' th'', BlockStep m' th m'' th'' →
        Surely R W Q n m'' th'') : Surely R W Q (n + 1) m th

/-- The block ends in `Q`. -/
def Ends (R W : Addr → Prop) (Q : (∀ a, Val a) → Prop) (m : ∀ a, Val a)
    (th : Fin nt → Code Val (Prog Val)) : Prop := ∃ n, Surely R W Q n m th

variable {R W : Addr → Prop} {Q Q' : (∀ a, Val a) → Prop} {m m' : ∀ a, Val a}
  {th : Fin nt → Code Val (Prog Val)} {n : Nat}

omit [DecidableEq Addr] in
theorem AgreeOn.refl (R : Addr → Prop) (m : ∀ a, Val a) : AgreeOn R m m := fun _ _ => rfl

omit [DecidableEq Addr] in
theorem AgreeOn.symm (h : AgreeOn R m m') : AgreeOn R m' m := fun a ha => (h a ha).symm

omit [DecidableEq Addr] in
theorem AgreeOn.trans {m'' : ∀ a, Val a} (h : AgreeOn R m m') (h' : AgreeOn R m' m'') :
    AgreeOn R m m'' := fun a ha => (h' a ha).trans (h a ha)

theorem Surely.congr (h : Surely R W Q n m th) (hm : AgreeOn R m m') : Surely R W Q n m' th := by
  cases h with
  | stop hth hq => exact .stop hth fun m'' h' => hq m'' (hm.trans h')
  | more loads stores live next =>
      exact .more loads stores (fun m'' h' => live m'' (hm.trans h')) fun m'' h' =>
        next m'' (hm.trans h')

theorem Surely.mono {k : Nat} (h : Surely R W Q n m th) (hk : n ≤ k) : Surely R W Q k m th := by
  induction h generalizing k with
  | stop hth hq => exact .stop hth hq
  | more loads stores live _ ih =>
      obtain ⟨k, rfl⟩ := Nat.exists_eq_succ_of_ne_zero (Nat.ne_zero_of_lt hk)
      exact .more loads stores live fun m' h' m'' th'' hstep => ih m' h' m'' th'' hstep (by omega)

theorem Surely.weaken (h : Surely R W Q n m th) (hq : ∀ m, Q m → Q' m) : Surely R W Q' n m th := by
  induction h with
  | stop hth hend => exact .stop hth fun m' h' => hq m' (hend m' h')
  | more loads stores live _ ih => exact .more loads stores live ih

theorem Ends.congr (h : Ends R W Q m th) (hm : AgreeOn R m m') : Ends R W Q m' th :=
  h.imp fun _ h => h.congr hm

theorem Ends.weaken (h : Ends R W Q m th) (hq : ∀ m, Q m → Q' m) : Ends R W Q' m th :=
  h.imp fun _ h => h.weaken hq

theorem Ends.stop (hq : ∀ m', AgreeOn R m m' → Q m') :
    Ends R W Q m (fun _ : Fin nt => .ret .stop) := ⟨0, .stop (fun _ => rfl) hq⟩

/-- All threads wait at a barrier. -/
theorem Ends.barrier (hpos : 0 < nt) (h : Ends R W Q m th) :
    Ends R W Q m fun t => .ret (.go (th t)) := by
  obtain ⟨n, h⟩ := h
  refine ⟨n + 1, .more (fun _ _ ha => ha.elim) (fun _ _ ha => ha.elim)
    (fun m' _ => ⟨m', th, .barrier hpos fun _ => rfl⟩) ?_⟩
  intro m' hm m'' th'' hstep
  generalize hwait : (fun t => Code.ret (Prog.go (th t)) : Fin nt → Code Val (Prog Val)) = w at hstep
  cases hstep with
  | load hth => exact nomatch (congrFun hwait _).trans hth
  | store hth => exact nomatch (congrFun hwait _).trans hth
  | barrier _ hth =>
      have hsame : th = th'' := funext fun t =>
        Prog.go.inj (Code.ret.inj ((congrFun hwait t).trans (hth t)))
      exact hsame ▸ h.congr hm

/-! ## Between barriers -/

section Merge

variable {α : Type w} {c r : Fin nt → Code Val α}

/-- The memory after all threads: what each leaves, and no other cell of the region changed. -/
structure Merged (R : Addr → Prop) (c : Fin nt → Code Val α) (m m' : ∀ a, Val a) : Prop where
  leaves : ∀ t a v, (c t).writes m a = some v → m' a = v
  frame : ∀ a, R a → (∀ t, (c t).writes m a = none) → m' a = m a

/-- The threads on their way: what is left of each does what it still has to do. -/
structure Mid (R : Addr → Prop) (c r : Fin nt → Code Val α) (m m' : ∀ a, Val a) : Prop where
  result : ∀ t, (r t).result m' = (c t).result m
  loads : ∀ t a, (r t).Loads m' a → (c t).Loads m a
  writes : ∀ t a, ((r t).writes m' a).isSome → ((c t).writes m a).isSome
  leaves : ∀ t a v, (c t).writes m a = some v → (r t).after m' a = v
  frame : ∀ a, R a → (∀ t, (c t).writes m a = none) → m' a = m a

theorem Mid.start (R : Addr → Prop) (c : Fin nt → Code Val α) (m : ∀ a, Val a) : Mid R c c m m where
  result := fun _ => rfl
  loads := fun _ _ h => h
  writes := fun _ _ h => h
  leaves := fun t a v h => by rw [Code.after_eq, h, Option.getD_some]
  frame := fun _ _ _ => rfl

/-- Others change cells outside the region. -/
theorem Mid.congr (h : Mid R c r m m') (hloads : ∀ t a, (c t).Loads m a → R a)
    (hwrites : ∀ t a, ((c t).writes m a).isSome → R a) {m'' : ∀ a, Val a} (hm : AgreeOn R m' m'') :
    Mid R c r m m'' ∧ ∀ t, (r t).steps m'' = (r t).steps m' := by
  have hsame : ∀ t, _ := fun t => (r t).congr fun a ha => hm a (hloads t a (h.loads t a ha))
  refine ⟨⟨fun t => (hsame t).1.trans (h.result t), fun t a ha => h.loads t a ((hsame t).2.1 a |>.mp ha),
    fun t a ha => h.writes t a (by rwa [(hsame t).2.2.1] at ha), fun t a v hv => ?_, fun a ha hnone =>
      (hm a ha).trans (h.frame a ha hnone)⟩, fun t => (hsame t).2.2.2⟩
  have hin : R a := hwrites t a (by rw [hv, Option.isSome_some])
  rw [← h.leaves t a v hv, Code.after_eq, Code.after_eq, (hsame t).2.2.1, hm a hin]

theorem Mid.load (h : Mid R c r m m') {t : Fin nt} {a : Addr} {k : Val a → Code Val α}
    (hr : r t = .load a k) : Mid R c (Function.update r t (k (m' a))) m m' := by
  have hsame : ∀ s, (Function.update r t (k (m' a)) s).result m' = (r s).result m' ∧
      (Function.update r t (k (m' a)) s).writes m' = (r s).writes m' ∧
      (Function.update r t (k (m' a)) s).after m' = (r s).after m' := by
    intro s
    by_cases hs : s = t
    · subst hs
      rw [Function.update_self, hr]
      exact ⟨rfl, rfl, rfl⟩
    · rw [Function.update_of_ne hs]
      exact ⟨rfl, rfl, rfl⟩
  refine ⟨fun s => (hsame s).1.trans (h.result s), fun s b hb => h.loads s b ?_,
    fun s b hb => h.writes s b (by rwa [(hsame s).2.1] at hb), fun s b v hv => ?_, h.frame⟩
  · by_cases hs : s = t
    · subst hs
      rw [Function.update_self] at hb
      rw [hr]
      exact .inr hb
    · rwa [Function.update_of_ne hs] at hb
  · rw [(hsame s).2.2]
    exact h.leaves s b v hv

theorem Mid.store (h : Mid R c r m m') (hapart : ∀ t t', t ≠ t' → (c t).Apart (c t') m) {t : Fin nt}
    {a : Addr} {x : Val a} {k : Code Val α} (hr : r t = .store a x k) :
    Mid R c (Function.update r t k) m (Function.update m' a x) ∧
      ∀ s, s ≠ t → (r s).steps (Function.update m' a x) = (r s).steps m' := by
  have hstored : ((c t).writes m a).isSome := h.writes t a (by
    rw [hr]
    unfold Code.writes
    rw [Code.single_self]
    exact Option.isSome_or.trans (Bool.or_true _))
  have hother : ∀ s, s ≠ t → _ := fun s hs => by
    have hsame : ∀ b, (r s).Loads m' b → Function.update m' a x b = m' b := fun b hb => by
      refine Function.update_of_ne (fun hba => ?_) _ _
      subst hba
      exact ((hapart t s (Ne.symm hs) b).1 hstored).1 (h.loads s b hb)
    exact (r s).congr hsame
  refine ⟨⟨fun s => ?_, fun s b hb => ?_, fun s b hb => ?_, fun s b v hv => ?_, fun b hb hnone => ?_⟩,
    fun s hs => (hother s hs).2.2.2⟩
  · by_cases hs : s = t
    · subst hs
      rw [Function.update_self, ← h.result s, hr]
      rfl
    · rw [Function.update_of_ne hs, (hother s hs).1, h.result s]
  · by_cases hs : s = t
    · subst hs
      rw [Function.update_self] at hb
      exact h.loads s b (by rw [hr]; exact hb)
    · rw [Function.update_of_ne hs] at hb
      exact h.loads s b (((hother s hs).2.1 b).mp hb)
  · by_cases hs : s = t
    · subst hs
      rw [Function.update_self] at hb
      refine h.writes s b ?_
      rw [hr]
      unfold Code.writes
      rw [Option.isSome_or, hb, Bool.true_or]
    · rw [Function.update_of_ne hs, (hother s hs).2.2.1] at hb
      exact h.writes s b hb
  · by_cases hs : s = t
    · subst hs
      rw [Function.update_self, ← h.leaves s b v hv, hr]
      rfl
    · -- another thread's cell is not the stored one
      have hba : b ≠ a := by
        rintro rfl
        rw [((hapart t s (Ne.symm hs) b).1 hstored).2] at hv
        cases hv
      rw [Function.update_of_ne hs, ← h.leaves s b v hv, Code.after_eq, Code.after_eq,
        (hother s hs).2.2.1, Function.update_of_ne hba]
  · have hba : b ≠ a := by
      rintro rfl
      rw [hnone t] at hstored
      cases hstored
    rw [Function.update_of_ne hba]
    exact h.frame b hb hnone

theorem steps_eq_zero {c : Code Val α} (h : c.steps m = 0) : c = .ret (c.result m) := by
  cases c with
  | ret x => rfl
  | load a k => exact nomatch h
  | store a x k => exact nomatch h

/-- One term of a sum is one less. -/
theorem sum_step {f g : Fin nt → Nat} {t : Fin nt} (ht : g t = f t + 1) (h : ∀ s, s ≠ t → g s = f s) :
    ∑ s, g s = ∑ s, f s + 1 := by
  have hrest : ∑ s ∈ Finset.univ.erase t, g s = ∑ s ∈ Finset.univ.erase t, f s :=
    Finset.sum_congr rfl fun s hs => h s (Finset.ne_of_mem_erase hs)
  rw [← Finset.add_sum_erase _ g (Finset.mem_univ t), ← Finset.add_sum_erase _ f (Finset.mem_univ t),
    ht, hrest, Nat.add_right_comm]

variable {p : Fin nt → α → Prog Val}

omit [DecidableEq Addr] in
theorem update_bind (r : Fin nt → Code Val α) (t : Fin nt) (d : Code Val α) :
    Function.update (fun s => (r s).bind fun x => .ret (p s x)) t (d.bind fun x => .ret (p t x)) =
      fun s => (Function.update r t d s).bind fun x => Code.ret (p s x) := by
  funext s
  by_cases hs : s = t
  · subst hs
    rw [Function.update_self, Function.update_self]
  · rw [Function.update_of_ne hs, Function.update_of_ne hs]

/-- Threads on their way, with what they do when all are through. -/
theorem Mid.surely (hWR : ∀ a, W a → R a) (hloads : ∀ t a, (c t).Loads m a → R a)
    (hstores : ∀ t a, ((c t).writes m a).isSome → W a)
    (hapart : ∀ t t', t ≠ t' → (c t).Apart (c t') m)
    (hend : ∀ m', Merged R c m m' → Surely R W Q n m' fun t => .ret (p t ((c t).result m)))
    (k : Nat) (h : Mid R c r m m') (hk : ∑ t, (r t).steps m' = k) :
    Surely R W Q (k + n) m' fun t => (r t).bind fun x => .ret (p t x) := by
  induction k generalizing r m' with
  | zero =>
      have hret : ∀ t, r t = .ret ((c t).result m) := fun t => by
        have hsteps : (r t).steps m' = 0 := Finset.sum_eq_zero_iff.mp hk t (Finset.mem_univ t)
        rw [← h.result t]
        exact steps_eq_zero hsteps
      have hmerged : Merged R c m m' := by
        refine ⟨fun t a v hv => ?_, h.frame⟩
        have hleaves := h.leaves t a v hv
        rwa [hret t] at hleaves
      have hthreads : (fun t => (r t).bind fun x => .ret (p t x)) =
          fun t => Code.ret (p t ((c t).result m)) := funext fun t => by rw [hret t]; rfl
      rw [hthreads, Nat.zero_add]
      exact hend m' hmerged
  | succ k ih =>
      rw [Nat.succ_add]
      have hnext : ∀ {m''}, AgreeOn R m' m'' → Mid R c r m m'' ∧ ∑ t, (r t).steps m'' = k + 1 :=
        fun hm => by
          obtain ⟨hmid, hsteps⟩ := h.congr hloads (fun t a ha => hWR a (hstores t a ha)) hm
          exact ⟨hmid, (Finset.sum_congr rfl fun t _ => hsteps t).trans hk⟩
      refine .more (fun t a ha => ?_) (fun t a ha => ?_) (fun m'' hm => ?_) fun m'' hm m3 th3 hstep => ?_
      · refine hloads t a (h.loads t a ?_)
        cases hr : r t with
        | ret x =>
            rw [hr] at ha
            exact ha.elim
        | load b d =>
            rw [hr] at ha
            exact .inl ha
        | store b x d =>
            rw [hr] at ha
            exact ha.elim
      · refine hstores t a (h.writes t a ?_)
        cases hr : r t with
        | ret x =>
            rw [hr] at ha
            exact ha.elim
        | load b d =>
            rw [hr] at ha
            exact ha.elim
        | store b x d =>
            rw [hr] at ha
            obtain rfl : a = b := ha
            unfold Code.writes
            rw [Code.single_self]
            exact Option.isSome_or.trans (Bool.or_true _)
      · -- some thread is not through
        obtain ⟨t, -, ht⟩ := Finset.exists_ne_zero_of_sum_ne_zero
          (show ∑ t, (r t).steps m'' ≠ 0 by rw [(hnext hm).2]; exact Nat.succ_ne_zero k)
        cases hr : r t with
        | ret x =>
            rw [hr] at ht
            exact absurd rfl ht
        | load b d => exact ⟨_, _, .load (t := t) (by rw [hr]; rfl)⟩
        | store b x d => exact ⟨_, _, .store (t := t) (by rw [hr]; rfl)⟩
      · obtain ⟨hmid, hsum⟩ := hnext hm
        generalize hthreads : (fun t => (r t).bind fun x => Code.ret (p t x)) = th at hstep
        cases hstep with
        | @load t a d hth =>
            have hrt := (congrFun hthreads t).trans hth
            cases hr : r t with
            | ret x => rw [hr] at hrt; cases hrt
            | store b x e => rw [hr] at hrt; cases hrt
            | load b e =>
                rw [hr] at hrt
                injection hrt with hb hd
                subst hb
                obtain rfl := eq_of_heq hd
                rw [← hthreads, update_bind]
                refine ih (hmid.load hr) (Nat.succ.inj (hsum.symm.trans ?_)).symm
                refine sum_step (t := t) ?_ fun s hs => by rw [Function.update_of_ne hs]
                rw [Function.update_self, hr]
                rfl
        | @store t a x d hth =>
            have hrt := (congrFun hthreads t).trans hth
            cases hr : r t with
            | ret x => rw [hr] at hrt; cases hrt
            | load b e => rw [hr] at hrt; cases hrt
            | store b y e =>
                rw [hr] at hrt
                injection hrt with hb hy hd
                subst hb
                obtain rfl := eq_of_heq hy
                subst hd
                rw [← hthreads, update_bind]
                obtain ⟨hmid', hother⟩ := hmid.store hapart hr
                refine ih hmid' (Nat.succ.inj (hsum.symm.trans ?_)).symm
                refine sum_step (t := t) ?_ fun s hs => ?_
                · rw [Function.update_self, hr]
                  rfl
                · rw [Function.update_of_ne hs, hother s hs]
        | barrier _ hth =>
            -- no thread waits before all are through
            have hzero : ∑ t, (r t).steps m'' = 0 := by
              refine Finset.sum_eq_zero fun t _ => ?_
              have hrt := (congrFun hthreads t).trans (hth t)
              cases hr : r t with
              | ret x => rfl
              | load b e => rw [hr] at hrt; cases hrt
              | store b y e => rw [hr] at hrt; cases hrt
            rw [hzero] at hsum
            cases hsum

/-- Any memory that the threads leave is the same on the region. -/
theorem Merged.agree {m'' : ∀ a, Val a} (h : Merged R c m m') (h' : Merged R c m m'') :
    AgreeOn R m' m'' := by
  intro a ha
  by_cases hnone : ∀ t, (c t).writes m a = none
  · rw [h.frame a ha hnone, h'.frame a ha hnone]
  · obtain ⟨t, ht⟩ := not_forall.mp hnone
    obtain ⟨v, hv⟩ := Option.ne_none_iff_exists'.mp ht
    rw [h.leaves t a v hv, h'.leaves t a v hv]

/-- Threads that are apart leave what each of them leaves alone, in any order of their steps. -/
theorem Ends.merge (hWR : ∀ a, W a → R a) (hloads : ∀ t a, (c t).Loads m a → R a)
    (hstores : ∀ t a, ((c t).writes m a).isSome → W a)
    (hapart : ∀ t t', t ≠ t' → (c t).Apart (c t') m)
    (hend : ∀ m', Merged R c m m' → Ends R W Q m' fun t => .ret (p t ((c t).result m))) :
    Ends R W Q m fun t => (c t).bind fun x => .ret (p t x) := by
  by_cases hsome : ∃ m', Merged R c m m'
  · obtain ⟨m', hm'⟩ := hsome
    obtain ⟨n, hn⟩ := hend m' hm'
    exact ⟨_, Mid.surely hWR hloads hstores hapart (fun m'' hm'' => hn.congr (hm'.agree hm'')) _
      (.start R c m) rfl⟩
  · exact ⟨_, Mid.surely (n := 0) hWR hloads hstores hapart
      (fun m'' hm'' => absurd ⟨m'', hm''⟩ hsome) _ (.start R c m) rfl⟩

end Merge

end Block

end TorchMojoBackend.Foundation
