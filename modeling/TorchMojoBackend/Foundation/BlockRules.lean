/-
  `Foundation.BlockRules`: rules for programs of a block's threads.

  Everything in this file is independent of the modelled program.  A thread's program is written
  with its barriers in place (`Thread`).  `Spec` says what a program that all threads of a block
  run does to the memory: it loads from `R`, stores to `W`, and leaves every other cell alone,
  whatever follows it.  A kernel whose blocks walk a batch does every entry in its own cells
  (`BatchEntry`), and the blocks of a launch do not disturb each other (`GridEnds.of_entries`).
-/
import Mathlib.Data.Nat.ModEq
import TorchMojoBackend.Foundation.BlockThreads
import TorchMojoBackend.Foundation.Launch

set_option autoImplicit false

namespace TorchMojoBackend.Foundation

universe u v w x

/-! ## Programs -/

section Programs

variable {Addr : Type u} (Val : Addr → Type v)

/-- A program of a thread, with what it does afterwards left open. -/
def Thread (α : Type w) : Type (max u v w) := (α → Code Val (Prog Val)) → Code Val (Prog Val)

instance : Monad (Thread Val) where
  pure x := fun k => k x
  bind th f := fun k => th fun x => f x k

namespace Thread

variable {Val} {α : Type w}

/-- Code up to a barrier. -/
def sync (c : Code Val α) : Thread Val α := fun k => c.bind fun x => .ret (.go (k x))

/-- A thread with nothing else to do. -/
def start (th : Thread Val Unit) : Code Val (Prog Val) := th fun _ => .ret .stop

end Thread

end Programs

/-! ## What a block does -/

section Rules

variable {Addr : Type u} {Val : Addr → Type v} [DecidableEq Addr] {nt : Nat}

theorem Surely.mono_region {R W R' W' : Addr → Prop} {Q : (∀ a, Val a) → Prop} {m : ∀ a, Val a}
    {th : Fin nt → Code Val (Prog Val)} {n : Nat} (h : Surely R W Q n m th)
    (hR : ∀ a, R a → R' a) (hW : ∀ a, W a → W' a) : Surely R' W' Q n m th := by
  have hagree : ∀ {m m' : ∀ a, Val a}, AgreeOn R' m m' → AgreeOn R m m' := fun h a ha => h a (hR a ha)
  induction h with
  | stop hth hq => exact .stop hth fun m' h' => hq m' (hagree h')
  | more loads stores live _ ih =>
      exact .more (fun t a ha => hR a (loads t a ha)) (fun t a ha => hW a (stores t a ha))
        (fun m' h' => live m' (hagree h')) fun m' h' => ih m' (hagree h')

/-- Cells that the block does not store stay as they are when others leave them alone, too. -/
theorem Surely.frame {R W F : Addr → Prop} {Q : (∀ a, Val a) → Prop} {m m0 : ∀ a, Val a}
    {th : Fin nt → Code Val (Prog Val)} {n : Nat} (h : Surely R W Q n m th)
    (hF : ∀ a, F a → ¬ W a) (hm : AgreeOn F m0 m) :
    Surely (fun a => R a ∨ F a) W (fun m => Q m ∧ AgreeOn F m0 m) n m th := by
  induction h with
  | stop hth hq =>
      exact .stop hth fun m' h' => ⟨hq m' fun a ha => h' a (.inl ha),
        hm.trans fun a ha => h' a (.inr ha)⟩
  | more loads stores live next ih =>
      refine .more (fun t a ha => .inl (loads t a ha)) stores
        (fun m' h' => live m' fun a ha => h' a (.inl ha)) fun m' h' m'' th'' hstep => ?_
      refine ih m' (fun a ha => h' a (.inl ha)) m'' th'' hstep ?_
      have hm' : AgreeOn F m0 m' := hm.trans fun a ha => h' a (.inr ha)
      cases hstep with
      | load hth => exact hm'
      | barrier _ _ => exact hm'
      | @store t a x k hth =>
          intro b hb
          have hba : b ≠ a := fun hba => hF b hb (stores t b (by rw [hth]; exact hba))
          rw [Function.update_of_ne hba]
          exact hm' b hb

/-! ## Rules -/

/-- What a program does that all threads of a block run, where others leave `R` alone: it loads
from `R` and stores to `W`, from memories in `P` it gets to memories and results in `Q`, and it
changes no other cell. -/
def Spec {α : Type w} (R W : Addr → Prop) (P : (∀ a, Val a) → Prop) (th : Fin nt → Thread Val α)
    (Q : (Fin nt → α) → (∀ a, Val a) → Prop) : Prop :=
  ∀ (R' W' : Addr → Prop), (∀ a, R a → R' a) → (∀ a, W a → W' a) → (∀ a, W' a → R' a) →
    ∀ (post : (∀ a, Val a) → Prop) (K : Fin nt → α → Code Val (Prog Val)) (m : ∀ a, Val a), P m →
      (∀ x m', Q x m' → (∀ a, R' a → ¬ W a → m' a = m a) → Ends R' W' post m' fun t => K t (x t)) →
        Ends R' W' post m fun t => th t (K t)

section Spec

variable {α β : Type w} {R W : Addr → Prop} {P : (∀ a, Val a) → Prop}
  {th : Fin nt → Thread Val α} {Q : (Fin nt → α) → (∀ a, Val a) → Prop}

theorem Spec.pure {x : Fin nt → α} (h : ∀ m, P m → Q x m) :
    Spec R W P (fun t => (Pure.pure (x t) : Thread Val α)) Q :=
  fun _ _ _ _ _ _ _ m hm hK => hK x m (h m hm) fun _ _ _ => rfl

theorem Spec.bind {f : Fin nt → α → Thread Val β} {Q' : (Fin nt → β) → (∀ a, Val a) → Prop}
    (h : Spec R W P th Q) (hf : ∀ x, Spec R W (Q x) (fun t => f t (x t)) Q') :
    Spec R W P (fun t => th t >>= f t) Q' :=
  fun R' W' hR hW hWR post K m hm hK =>
    h R' W' hR hW hWR post (fun t x => f t x (K t)) m hm fun x m' hx hframe =>
      hf x R' W' hR hW hWR post K m' hx fun y m'' hy hframe' =>
        hK y m'' hy fun a ha hna => (hframe' a ha hna).trans (hframe a ha hna)

theorem Spec.weaken {P' : (∀ a, Val a) → Prop} {Q' : (Fin nt → α) → (∀ a, Val a) → Prop}
    (h : Spec R W P th Q) (hP : ∀ m, P' m → P m) (hQ : ∀ x m, Q x m → Q' x m) :
    Spec R W P' th Q' :=
  fun R' W' hR hW hWR post K m hm hK => h R' W' hR hW hWR post K m (hP m hm) fun x m' hx =>
    hK x m' (hQ x m' hx)

theorem Spec.mono {R' W' : Addr → Prop} (h : Spec R W P th Q) (hR : ∀ a, R a → R' a)
    (hW : ∀ a, W a → W' a) : Spec R' W' P th Q :=
  fun R1 W1 hR1 hW1 hWR post K m hm hK =>
    h R1 W1 (fun a ha => hR1 a (hR a ha)) (fun a ha => hW1 a (hW a ha)) hWR post K m hm
      fun x m' hx hframe => hK x m' hx fun a ha hna => hframe a ha fun hw => hna (hW a hw)

/-- What does not depend on the cells that are stored. -/
theorem Spec.frame {F : (∀ a, Val a) → Prop} (h : Spec R W P th Q)
    (hF : ∀ m m', (∀ a, R a → ¬ W a → m' a = m a) → F m → F m') :
    Spec R W (fun m => P m ∧ F m) th fun x m => Q x m ∧ F m :=
  fun R1 W1 hR hW hWR post K m hm hK => h R1 W1 hR hW hWR post K m hm.1 fun x m' hx hframe =>
    hK x m' ⟨hx, hF m m' (fun a ha => hframe a (hR a ha)) hm.2⟩ hframe

/-- A fact that does not depend on the memory. -/
theorem Spec.assume {p : Prop} (h : p → Spec R W P th Q) : Spec R W (fun m => p ∧ P m) th Q :=
  fun R' W' hR hW hWR post K m hm => h hm.1 R' W' hR hW hWR post K m hm.2

/-- `if tid == 0: ...` -/
def Code.first (t : Fin nt) (c : Code Val Unit) : Code Val Unit :=
  if (t : Nat) = 0 then c else .ret ()

/-- Code of the threads between two barriers. -/
structure Phase {α : Type w} (R W : Addr → Prop) (P : (∀ a, Val a) → Prop) (c : Fin nt → Code Val α)
    (Q : (Fin nt → α) → (∀ a, Val a) → Prop) : Prop where
  loads : ∀ m, P m → ∀ t a, (c t).Loads m a → R a
  stores : ∀ m, P m → ∀ t a, ((c t).writes m a).isSome → W a
  apart : ∀ m, P m → ∀ t t', t ≠ t' → (c t).Apart (c t') m
  done : ∀ m m', P m → Merged (fun a => R a ∨ W a) c m m' → Q (fun t => (c t).result m) m'

/-- Code up to a barrier. -/
theorem Phase.spec (hpos : 0 < nt) {c : Fin nt → Code Val α} (h : Phase R W P c Q) :
    Spec R W P (fun t => Thread.sync (c t)) Q := by
  intro R' W' hR hW hWR post K m hm hK
  refine Ends.merge (p := fun t x => .go (K t x)) hWR (fun t a ha => hR a (h.loads m hm t a ha))
    (fun t a ha => hW a (h.stores m hm t a ha)) (h.apart m hm) fun m' hm' => ?_
  refine Ends.barrier hpos (hK _ m' (h.done m m' hm ⟨hm'.leaves, fun a ha => hm'.frame a ?_⟩) ?_)
  · exact ha.elim (hR a) fun h => hWR a (hW a h)
  · intro a ha hna
    refine hm'.frame a ha fun t => ?_
    cases hv : (c t).writes m a with
    | none => rfl
    | some v => exact absurd (h.stores m hm t a (by rw [hv]; rfl)) hna

/-- Loads of cells that the phase does not store, before the rest of it. -/
theorem Phase.before {pre : Fin nt → Code Val β} {x : Fin nt → β} {c : Fin nt → β → Code Val α}
    (h : Phase R W P (fun t => c t (x t)) Q)
    (hpre : ∀ m, P m → ∀ t, (pre t).Peeks (fun a => R a ∧ ¬ W a) m (x t)) :
    Phase R W P (fun t => (pre t).bind (c t)) Q := by
  have hload : ∀ m, P m → ∀ t a, ((pre t).bind (c t)).Loads m a →
      R a ∧ ¬ W a ∨ (c t (x t)).Loads m a := fun m hm t a ha => by
    rw [Code.loads_bind, (hpre m hm t).after, (hpre m hm t).result] at ha
    exact ha.imp_left ((hpre m hm t).loads a)
  have hwrite : ∀ m, P m → ∀ t a, ((pre t).bind (c t)).writes m a = (c t (x t)).writes m a :=
    fun m hm t a => by
      rw [Code.writes_bind, (hpre m hm t).after, (hpre m hm t).result, (hpre m hm t).writes a,
        Option.or_none]
  refine ⟨fun m hm t a ha => ?_, fun m hm t a ha => ?_, fun m hm t t' ht a => ?_, fun m m' hm hm' => ?_⟩
  · exact (hload m hm t a ha).elim (fun h => h.1) (h.loads m hm t a)
  · rw [hwrite m hm] at ha
    exact h.stores m hm t a ha
  · rw [hwrite m hm, hwrite m hm]
    obtain ⟨hleft, hright⟩ := h.apart m hm t t' ht a
    refine ⟨fun ha => ⟨fun hl => ?_, (hleft ha).2⟩, fun ha hl => ?_⟩
    · exact (hload m hm t' a hl).elim (fun hna => hna.2 (h.stores m hm t a ha)) (hleft ha).1
    · exact (hload m hm t a hl).elim (fun hna => hna.2 (h.stores m hm t' a ha)) (hright ha)
  · have hres : (fun t => ((pre t).bind (c t)).result m) = fun t => (c t (x t)).result m := funext fun t => by
      rw [Code.result_bind, (hpre m hm t).after, (hpre m hm t).result]
    rw [hres]
    refine h.done m m' hm ⟨fun t a v hv => hm'.leaves t a v ?_, fun a ha hnone =>
      hm'.frame a ha fun t => ?_⟩
    · rw [hwrite m hm]
      exact hv
    · rw [hwrite m hm]
      exact hnone t

theorem Phase.weaken {c : Fin nt → Code Val α} {P' : (∀ a, Val a) → Prop}
    {Q' : (Fin nt → α) → (∀ a, Val a) → Prop} (h : Phase R W P c Q) (hP : ∀ m, P' m → P m)
    (hQ : ∀ x m, Q x m → Q' x m) : Phase R W P' c Q' :=
  ⟨fun m hm => h.loads m (hP m hm), fun m hm => h.stores m (hP m hm), fun m hm => h.apart m (hP m hm),
    fun m m' hm hm' => hQ _ m' (h.done m m' (hP m hm) hm')⟩

theorem Phase.mono {c : Fin nt → Code Val α} {R' W' : Addr → Prop} (h : Phase R W P c Q)
    (hR : ∀ a, R a → R' a) (hW : ∀ a, W a → W' a) : Phase R' W' P c Q :=
  ⟨fun m hm t a ha => hR a (h.loads m hm t a ha), fun m hm t a ha => hW a (h.stores m hm t a ha),
    h.apart, fun m m' hm hm' => h.done m m' hm ⟨hm'.leaves, fun a ha =>
      hm'.frame a (ha.imp (hR a) (hW a))⟩⟩

/-- All threads load one cell. -/
theorem Spec.read {a : Addr} {P : (∀ a, Val a) → Prop} (hpos : 0 < nt) (ha : R a)
    (hP : ∀ m m', (∀ b, R b ∨ W b → m' b = m b) → P m → P m') :
    Spec R W P (fun _ : Fin nt => Thread.sync (Code.get a : Code Val (Val a)))
      fun x m => (∀ t, x t = m a) ∧ P m := by
  refine Phase.spec hpos ⟨fun m _ t b hb => ?_, fun m _ t b hb => (nomatch hb),
    fun m _ t t' _ b => ⟨fun hb => (nomatch hb), fun hb => (nomatch hb)⟩, fun m m' hm hm' => ?_⟩
  · obtain rfl : b = a := Code.loads_get a m b |>.mp hb
    exact ha
  · have hsame : ∀ b, R b ∨ W b → m' b = m b := fun b hb => hm'.frame b hb fun _ => rfl
    exact ⟨fun _ => (hsame a (.inl ha)).symm, hP m m' hsame hm⟩

end Spec

/-! ## Items of a phase -/

/-- The items that a thread does: `i = lo + tid; while i < n: ...; i += nt`. -/
def threadItems (nt lo n : Nat) (t : Fin nt) : List Nat := strided n nt n (lo + t)

theorem mem_threadItems {lo n i : Nat} {t : Fin nt} :
    i ∈ threadItems nt lo n t ↔ lo + t ≤ i ∧ i < n ∧ i % nt = (lo + t) % nt :=
  mem_strided (Nat.zero_lt_of_lt t.isLt) (Nat.le_add_left _ _)

theorem threadItems_nodup (lo n : Nat) (t : Fin nt) : (threadItems nt lo n t).Nodup :=
  strided_nodup (Nat.zero_lt_of_lt t.isLt) (Nat.le_add_left _ _)

/-- Every item has a thread. -/
theorem exists_threadItems {lo n i : Nat} (hpos : 0 < nt) (hlo : lo ≤ i) (hn : i < n) :
    ∃ t : Fin nt, i ∈ threadItems nt lo n t := by
  refine ⟨⟨(i - lo) % nt, Nat.mod_lt _ hpos⟩, mem_threadItems.mpr ⟨?_, hn, ?_⟩⟩
  · have hle := Nat.mod_le (i - lo) nt
    dsimp only
    omega
  · dsimp only
    rw [Nat.add_mod_mod]
    congr 1
    omega

/-- It has one thread only. -/
theorem threadItems_inj {lo n i : Nat} {t t' : Fin nt} (h : i ∈ threadItems nt lo n t)
    (h' : i ∈ threadItems nt lo n t') : t = t' := by
  obtain ⟨-, -, hmod⟩ := mem_threadItems.mp h
  obtain ⟨-, -, hmod'⟩ := mem_threadItems.mp h'
  have heq : (lo + t) ≡ (lo + t') [MOD nt] := hmod.symm.trans hmod'
  have hcancel : (t : Nat) ≡ t' [MOD nt] := Nat.ModEq.add_left_cancel' lo heq
  exact Fin.ext (hcancel.eq_of_lt_of_lt t.isLt t'.isLt)

section Phase

variable {R W : Addr → Prop} {P Q : (∀ a, Val a) → Prop}

/-- Items that are apart, each done by one thread. -/
theorem Phase.items {ι : Type x} {items : Fin nt → List ι} {f : ι → Code Val Unit}
    (hnodup : ∀ t, (items t).Nodup) (hone : ∀ i t t', i ∈ items t → i ∈ items t' → t = t')
    (hloads : ∀ m, P m → ∀ t, ∀ i ∈ items t, ∀ a, (f i).Loads m a → R a)
    (hstores : ∀ m, P m → ∀ t, ∀ i ∈ items t, ∀ a, ((f i).writes m a).isSome → W a)
    (hapart : ∀ m, P m → ∀ t t', ∀ i ∈ items t, ∀ j ∈ items t', i ≠ j → (f i).Apart (f j) m)
    (hQ : ∀ m m', P m → (∀ t, ∀ i ∈ items t, ∀ a v, (f i).writes m a = some v → m' a = v) →
      (∀ a, R a ∨ W a → (∀ t, ∀ i ∈ items t, (f i).writes m a = none) → m' a = m a) → Q m') :
    Phase R W P (fun t => Code.each (items t) f) fun _ => Q := by
  have hpair : ∀ m, P m → ∀ t, (items t).Pairwise fun i j => (f i).Apart (f j) m := fun m hm t =>
    List.Pairwise.imp_of_mem (fun hi hj hij => hapart m hm t t _ hi _ hj hij) (hnodup t)
  have heach := fun m hm t => Code.each_apart (hpair m hm t)
  have hsome : ∀ m, P m → ∀ t a, ((Code.each (items t) f).writes m a).isSome →
      ∃ i ∈ items t, ((f i).writes m a).isSome := fun m hm t a ha => by
    obtain ⟨v, hv⟩ := Option.isSome_iff_exists.mp ha
    obtain ⟨i, hi, hiv⟩ := ((heach m hm t).2 a v).mp hv
    exact ⟨i, hi, by rw [hiv]; rfl⟩
  refine ⟨fun m hm t a ha => ?_, fun m hm t a ha => ?_, fun m hm t t' ht a => ?_,
    fun m m' hm hm' => hQ m m' hm (fun t i hi a v hv => ?_) fun a ha hnone => ?_⟩
  · obtain ⟨i, hi, hia⟩ := ((heach m hm t).1 a).mp ha
    exact hloads m hm t i hi a hia
  · obtain ⟨i, hi, hia⟩ := hsome m hm t a ha
    exact hstores m hm t i hi a hia
  · have hdiff : ∀ i ∈ items t, ∀ j ∈ items t', (f i).Apart (f j) m := fun i hi j hj =>
      hapart m hm t t' i hi j hj fun hij => ht (hone i t t' hi (hij ▸ hj))
    constructor
    · intro ha
      obtain ⟨i, hi, hia⟩ := hsome m hm t a ha
      refine ⟨fun hload => ?_, ?_⟩
      · obtain ⟨j, hj, hja⟩ := ((heach m hm t').1 a).mp hload
        exact ((hdiff i hi j hj a).1 hia).1 hja
      · refine Option.eq_none_iff_forall_not_mem.mpr fun v hv => ?_
        obtain ⟨j, hj, hjv⟩ := ((heach m hm t').2 a v).mp hv
        rw [((hdiff i hi j hj a).1 hia).2] at hjv
        exact nomatch hjv
    · intro ha hload
      obtain ⟨j, hj, hja⟩ := hsome m hm t' a ha
      obtain ⟨i, hi, hia⟩ := ((heach m hm t).1 a).mp hload
      exact (hdiff i hi j hj a).2 hja hia
  · exact hm'.leaves t a v (((heach m hm t).2 a v).mpr ⟨i, hi, hv⟩)
  · refine hm'.frame a ha fun t => Option.eq_none_iff_forall_not_mem.mpr fun v hv => ?_
    obtain ⟨i, hi, hiv⟩ := ((heach m hm t).2 a v).mp hv
    rw [hnone t i hi] at hiv
    exact nomatch hiv

/-- The pieces of a phase: what thread 0 does first, and the items of a loop. -/
def piece (lead : Code Val Unit) (f : Nat → Code Val Unit) : Option Nat → Code Val Unit
  | none => lead
  | some i => f i

def IsPiece (lo n : Nat) : Option Nat → Prop
  | none => True
  | some i => lo ≤ i ∧ i < n

omit [DecidableEq Addr] in
theorem each_map {ι κ : Type x} (h : ι → κ) (f : κ → Code Val Unit) (l : List ι) :
    Code.each (l.map h) f = Code.each l fun i => f (h i) := by
  induction l with
  | nil => rfl
  | cons i l ih =>
      rw [List.map_cons, Code.each, Code.each, ih]

/-- Thread 0 does something first, then all threads do the items of a loop. -/
theorem Phase.pieces (hpos : 0 < nt) {lo n : Nat} {lead : Code Val Unit} {f : Nat → Code Val Unit}
    (hloads : ∀ m, P m → ∀ i, IsPiece lo n i → ∀ a, (piece lead f i).Loads m a → R a)
    (hstores : ∀ m, P m → ∀ i, IsPiece lo n i → ∀ a, ((piece lead f i).writes m a).isSome → W a)
    (hapart : ∀ m, P m → ∀ i j, IsPiece lo n i → IsPiece lo n j → i ≠ j →
      (piece lead f i).Apart (piece lead f j) m)
    (hQ : ∀ m m', P m → (∀ i, IsPiece lo n i → ∀ a v, (piece lead f i).writes m a = some v → m' a = v) →
      (∀ a, R a ∨ W a → (∀ i, IsPiece lo n i → (piece lead f i).writes m a = none) → m' a = m a) →
        Q m') :
    Phase R W P (fun t : Fin nt => (lead.first t).bind fun _ =>
      Code.each (threadItems nt lo n t) f) fun _ => Q := by
  let items : Fin nt → List (Option Nat) := fun t =>
    (if (t : Nat) = 0 then [none] else []) ++ (threadItems nt lo n t).map some
  have hitems : ∀ {t i}, i ∈ items t → IsPiece lo n i ∧ (i = none → (t : Nat) = 0) ∧
      ∀ j, i = some j → j ∈ threadItems nt lo n t := by
    intro t i hi
    obtain hi | hi := List.mem_append.mp hi
    · split at hi
      · rename_i ht
        obtain rfl := List.mem_singleton.mp hi
        exact ⟨trivial, fun _ => ht, fun j hj => nomatch hj⟩
      · exact absurd hi List.not_mem_nil
    · obtain ⟨j, hj, rfl⟩ := List.mem_map.mp hi
      obtain ⟨hlow, hhigh, -⟩ := mem_threadItems.mp hj
      refine ⟨⟨by omega, hhigh⟩, (fun h => nomatch h), fun k hk => ?_⟩
      obtain rfl := Option.some.inj hk
      exact hj
  have hmem : ∀ i, IsPiece lo n i → ∃ t, i ∈ items t := by
    intro i hi
    cases i with
    | none =>
        refine ⟨⟨0, hpos⟩, List.mem_append_left _ ?_⟩
        rw [if_pos rfl]
        exact List.mem_singleton_self _
    | some i =>
        obtain ⟨t, ht⟩ := exists_threadItems hpos hi.1 hi.2
        exact ⟨t, List.mem_append_right _ (List.mem_map_of_mem ht)⟩
  have hcode : (fun t : Fin nt => (lead.first t).bind fun _ =>
      Code.each (threadItems nt lo n t) f) = fun t => Code.each (items t) (piece lead f) := by
    funext t
    by_cases ht : (t : Nat) = 0
    · have hlist : items t = none :: (threadItems nt lo n t).map some := by
        dsimp only [items]
        rw [if_pos ht]
        rfl
      rw [Code.first, if_pos ht, hlist, Code.each, each_map]
      rfl
    · have hlist : items t = (threadItems nt lo n t).map some := by
        dsimp only [items]
        rw [if_neg ht, List.nil_append]
      rw [Code.first, if_neg ht, hlist, each_map]
      rfl
  rw [hcode]
  refine Phase.items (fun t => ?_) (fun i t t' hi hi' => ?_)
    (fun m hm t i hi => hloads m hm i (hitems hi).1) (fun m hm t i hi => hstores m hm i (hitems hi).1)
    (fun m hm t t' i hi j hj => hapart m hm i j (hitems hi).1 (hitems hj).1)
    fun m m' hm hleaves hframe => hQ m m' hm (fun i hi => ?_) fun a ha hnone =>
      hframe a ha fun t i hi => hnone i (hitems hi).1
  · refine List.Nodup.append ?_ ((threadItems_nodup lo n t).map (Option.some_injective _)) ?_
    · split
      · exact List.nodup_singleton _
      · exact List.nodup_nil
    · intro i hi hi'
      obtain ⟨j, -, rfl⟩ := List.mem_map.mp hi'
      split at hi
      · exact nomatch List.mem_singleton.mp hi
      · exact absurd hi List.not_mem_nil
  · cases i with
    | none => exact Fin.ext (((hitems hi).2.1 rfl).trans ((hitems hi').2.1 rfl).symm)
    | some i => exact threadItems_inj ((hitems hi).2.2 i rfl) ((hitems hi').2.2 i rfl)
  · obtain ⟨t, ht⟩ := hmem i hi
    exact hleaves t i ht

end Phase

end Rules

end TorchMojoBackend.Foundation
