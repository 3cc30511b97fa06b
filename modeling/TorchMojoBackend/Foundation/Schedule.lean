/-
  `Foundation.Schedule`: tasks over one memory, in any order their barriers allow.

  Everything in this file is independent of the modelled program.  A task reads some
  addresses and stores one value.  Barriers ask that some tasks are done before others.
  Where each task finds at every address it reads the value of one task that is done before
  it, and that every other store there precedes, or a value no task can have changed yet,
  the memory at the end does not depend on the order.
-/
import Mathlib.Data.List.Induction
import Mathlib.Data.List.Nodup
import Mathlib.Data.List.Pairwise
import TorchMojoBackend.Foundation.SeqLock

set_option autoImplicit false

namespace TorchMojoBackend.Foundation

universe u v w

/-- Where a task stores, and what, from the memory it finds. -/
structure Tasks (ι : Type w) (Addr : Type u) (Val : Type v) where
  dst : ι → Addr
  value : ι → (Addr → Val) → Val

namespace Tasks

variable {ι : Type w} {Addr : Type u} {Val : Type v} [DecidableEq Addr] (T : Tasks ι Addr Val)

/-- The tasks one after the other. -/
def exec (order : List ι) (m : Addr → Val) : Addr → Val :=
  order.foldl (fun m x => Function.update m (T.dst x) (T.value x m)) m

/-- No task comes before one that must be done first. -/
structure Allowed (before : ι → ι → Prop) (order : List ι) : Prop where
  nodup : order.Nodup
  ordered : order.Pairwise fun x y => ¬ before y x

/-- A task that reads `a` finds `b` there: the value of a task done before it, after all other
stores to `a` that do not come after the read, or what was there at first. -/
def Finds (before : ι → ι → Prop) (order : List ι) (m : Addr → Val) (out : ι → Val) (x : ι)
    (a : Addr) (b : Val) : Prop :=
  (∃ y ∈ order, T.dst y = a ∧ before y x ∧ out y = b ∧
      ∀ z ∈ order, T.dst z = a → z = y ∨ before z y ∨ z = x ∨ before x z) ∨
    (∀ z ∈ order, T.dst z = a → z = x ∨ before x z) ∧ b = m a

/-- Every task stores its value, when it finds what it should find. -/
def Determined (before : ι → ι → Prop) (order : List ι) (m : Addr → Val) (out : ι → Val) : Prop :=
  ∀ x ∈ order, ∀ m', (∀ a b, T.Finds before order m out x a b → m' a = b) → T.value x m' = out x

variable {T} {before : ι → ι → Prop} {order : List ι} {m : Addr → Val} {out : ι → Val}

theorem exec_append (l l' : List ι) (m : Addr → Val) :
    T.exec (l ++ l') m = T.exec l' (T.exec l m) := List.foldl_append

/-- The last store to an address. -/
theorem storeAll_last {ws ws' : List (Addr × Val)} {a : Addr} {b : Val}
    (h : ∀ w ∈ ws', w.1 ≠ a) (m : Addr → Val) : storeAll (ws ++ (a, b) :: ws') m a = b := by
  have happ : storeAll (ws ++ (a, b) :: ws') m =
      storeAll ws' (Function.update (storeAll ws m) a b) := List.foldl_append
  rw [happ, storeAll_of_not_mem h, Function.update_self]

/-- What a task finds in front of it is there. -/
theorem Finds.holds (hirrefl : ∀ x, ¬ before x x) (h : Allowed before order) {pre post : List ι}
    {x : ι} (horder : order = pre ++ x :: post) {a : Addr} {b : Val}
    (hfinds : T.Finds before order m out x a b) :
    storeAll (pre.map fun y => (T.dst y, out y)) m a = b := by
  obtain ⟨hnodup, hordered⟩ := h
  rw [horder] at hnodup hordered
  obtain ⟨-, hpost, hcross⟩ := List.pairwise_append.mp hordered
  have hlater := (List.pairwise_cons.mp hpost).1
  have hmem : ∀ {z}, z ∈ pre → z ∈ order := fun hz => horder ▸ List.mem_append_left _ hz
  -- a task that must come after `x` is not in front of it
  have hfront : ∀ z ∈ pre, z ≠ x ∧ ¬ before x z := by
    intro z hz
    refine ⟨?_, hcross z hz x List.mem_cons_self⟩
    rintro rfl
    exact (List.nodup_append.mp hnodup).2.2 z hz z List.mem_cons_self rfl
  obtain ⟨y, hy, hdst, hyx, hout, hothers⟩ | ⟨hnone, hb⟩ := hfinds
  · have hypre : y ∈ pre := by
      rw [horder] at hy
      obtain hy | hy := List.mem_append.mp hy
      · exact hy
      · obtain rfl | hy := List.mem_cons.mp hy
        · exact absurd hyx (hirrefl y)
        · exact absurd hyx (hlater y hy)
    obtain ⟨p, p', hp⟩ := List.append_of_mem hypre
    have hlast : ∀ z ∈ p', T.dst z ≠ a := by
      intro z hz hza
      have hzpre : z ∈ pre := hp ▸ List.mem_append_right _ (List.mem_cons_of_mem _ hz)
      obtain rfl | hzy | hzx := hothers z (hmem hzpre) hza
      · have hdup := (List.nodup_append.mp hnodup).1
        rw [hp] at hdup
        exact (List.nodup_cons.mp (List.nodup_append.mp hdup).2.1).1 hz
      · have hpair := (List.pairwise_append.mp hordered).1
        rw [hp] at hpair
        exact (List.pairwise_cons.mp (List.pairwise_append.mp hpair).2.1).1 z hz hzy
      · exact hzx.elim (hfront z hzpre).1 (hfront z hzpre).2
    rw [hp, List.map_append, List.map_cons, hdst, hout]
    refine storeAll_last ?_ m
    intro w hw
    obtain ⟨z, hz, rfl⟩ := List.mem_map.mp hw
    exact hlast z hz
  · rw [hb]
    refine storeAll_of_not_mem ?_ m
    intro w hw
    obtain ⟨z, hz, rfl⟩ := List.mem_map.mp hw
    intro hza
    exact (hnone z (hmem hz) hza).elim (hfront z hz).1 (hfront z hz).2

/-- In every order the barriers allow, each task stores its value. -/
theorem exec_eq (hirrefl : ∀ x, ¬ before x x) (h : Allowed before order)
    (hdet : T.Determined before order m out) :
    T.exec order m = storeAll (order.map fun y => (T.dst y, out y)) m := by
  have hprefix : ∀ pre post, order = pre ++ post →
      T.exec pre m = storeAll (pre.map fun y => (T.dst y, out y)) m := by
    intro pre
    induction pre using List.reverseRecOn with
    | nil => exact fun _ _ => rfl
    | append_singleton pre x ih =>
        intro post horder
        have horder' : order = pre ++ x :: post := by rw [horder, List.append_assoc]; rfl
        have hx : x ∈ order := horder' ▸ List.mem_append_right _ List.mem_cons_self
        have hpre := ih (x :: post) horder'
        have hvalue : T.value x (T.exec pre m) = out x :=
          hdet x hx _ fun a b hfinds => by rw [hpre]; exact hfinds.holds hirrefl h horder'
        rw [exec_append, List.map_append]
        have hlast : storeAll (pre.map (fun y => (T.dst y, out y)) ++ [(T.dst x, out x)]) m =
            Function.update (storeAll (pre.map fun y => (T.dst y, out y)) m) (T.dst x) (out x) :=
          List.foldl_append
        rw [List.map_singleton, hlast, ← hpre, ← hvalue]
        rfl
  exact hprefix order [] (List.append_nil order).symm

/-- An address where one task stores. -/
theorem exec_at (hirrefl : ∀ x, ¬ before x x) (h : Allowed before order)
    (hdet : T.Determined before order m out) {x : ι} (hx : x ∈ order)
    (hone : ∀ y ∈ order, T.dst y = T.dst x → y = x) : T.exec order m (T.dst x) = out x := by
  rw [exec_eq hirrefl h hdet]
  obtain ⟨p, p', hp⟩ := List.append_of_mem hx
  have hnodup := h.nodup
  rw [hp, List.map_append, List.map_cons]
  refine storeAll_last ?_ m
  intro w hw
  obtain ⟨z, hz, rfl⟩ := List.mem_map.mp hw
  intro hza
  obtain rfl := hone z (hp ▸ List.mem_append_right _ (List.mem_cons_of_mem _ hz)) hza
  rw [hp] at hnodup
  exact (List.nodup_cons.mp (List.nodup_append.mp hnodup).2.1).1 hz

/-- An address where no task stores. -/
theorem exec_off {a : Addr} (hnone : ∀ x ∈ order, T.dst x ≠ a) (m : Addr → Val) :
    T.exec order m a = m a := by
  induction order generalizing m with
  | nil => rfl
  | cons x order ih =>
      refine (ih (fun y hy => hnone y (List.mem_cons_of_mem _ hy)) _).trans ?_
      exact Function.update_of_ne (hnone x List.mem_cons_self).symm ..

/-- Tasks in the order of a number that grows from a task to those that wait for it. -/
theorem Allowed.of_phase {phase : ι → Nat} (hphase : ∀ x y, before x y → phase x < phase y)
    (hnodup : order.Nodup) (hsorted : order.Pairwise fun x y => phase x ≤ phase y) :
    Allowed before order where
  nodup := hnodup
  ordered := hsorted.imp fun hle hbefore => Nat.not_lt.mpr hle (hphase _ _ hbefore)

end Tasks

/-- Lists that a key tells apart, one after the other. -/
theorem nodup_flatMap_of_key {ι κ : Type*} {l : List κ} {f : κ → List ι} (key : ι → κ)
    (hl : l.Nodup) (hf : ∀ i ∈ l, (f i).Nodup) (hkey : ∀ i ∈ l, ∀ x ∈ f i, key x = i) :
    (l.flatMap f).Nodup := by
  refine List.nodup_flatMap.mpr ⟨hf, hl.imp_of_mem ?_⟩
  intro i j hi hj hne x hx hx'
  exact hne ((hkey i hi x hx).symm.trans (hkey j hj x hx'))

end TorchMojoBackend.Foundation
