/-
  `Kernels.AtomicUpdates`: concurrent updates of the elements of a buffer.

  Source: tmb/kernels/data_movement/entry.mojo (`_rop_apply`, `_atomic_add`,
  `_atomic_rmw`).

  An update is a fetch-and-add, a loop of compare-and-swaps on the word that holds the
  element, or a store.  The plain load before the loop and a swap that fails may see
  any earlier value of the word, and a swap may fail for no reason.  Every update is a
  thread of its own here: several of one thread only have fewer interleavings.

      * `updates_in_some_order`: when all updates are done, every element holds the result
        of its own updates, one after the other in some order;
      * `updates_can_finish`: from every state that is reached, all updates can finish;
      * `split_adds_exact`: 64-bit additions in two halves leave the sum.
-/
import Mathlib.Algebra.BigOperators.Group.Finset.Basic
import Mathlib.Data.BitVec
import Mathlib.Data.Fintype.Basic
import TorchMojoBackend.Foundation.Atomics
import TorchMojoBackend.Foundation.Scalar
import TorchMojoBackend.Foundation.Transition
import Mathlib.Tactic.LinearCombination

set_option autoImplicit false

namespace TorchMojoBackend.Kernels.AtomicUpdates

open TorchMojoBackend.Foundation

/-! ## Elements and words -/

/-- The sizes of elements; a bool is its truth value. -/
inductive Kind where
  | bool
  | two
  | four
  | eight
  deriving DecidableEq

namespace Kind

def bits : Kind → Nat
  | bool => 1
  | two => 16
  | four => 32
  | eight => 64

/-- The word an update works on. -/
def wordBits : Kind → Nat
  | bool => 1
  | two => 32
  | four => 32
  | eight => 64

def bytes : Kind → Nat
  | bool => 1
  | two => 2
  | four => 4
  | eight => 8

/-- The address of an element. -/
def ptr (k : Kind) (e : Nat) : Nat := k.bytes * e

end Kind

/-- `Int(ptr) & 2 != 0` -/
def high (ptr : Nat) : Bool := ptr &&& 2 != 0

/-- The 32-bit word of a 16-bit element. -/
def wordOf (ptr : Nat) : Nat := if high ptr then ptr - 2 else ptr

def shift (ptr : Nat) : Nat := if high ptr then 16 else 0

/-- `(expected >> shift).cast[uint16]()` -/
def half (shift : Nat) (expected : BitVec 32) : BitVec 16 := (expected >>> shift).setWidth 16

/-- `(expected & ~(0xFFFF << shift)) | (bits << shift)` -/
def withHalf (shift : Nat) (expected : BitVec 32) (bits : BitVec 16) : BitVec 32 :=
  (expected &&& ~~~(0xFFFF#32 <<< shift)) ||| (bits.setWidth 32 <<< shift)

namespace Kind

/-- The address of the word of an element. -/
def word (k : Kind) (e : Nat) : Nat :=
  match k with
  | two => wordOf (k.ptr e)
  | _ => k.ptr e

/-- The element of a word. -/
def read (k : Kind) (e : Nat) : BitVec k.wordBits → BitVec k.bits :=
  match k with
  | bool => id
  | two => half (shift (two.ptr e))
  | four => id
  | eight => id

/-- The word with another element. -/
def write (k : Kind) (e : Nat) : BitVec k.wordBits → BitVec k.bits → BitVec k.wordBits :=
  match k with
  | bool => fun _ bits => bits
  | two => withHalf (shift (two.ptr e))
  | four => fun _ bits => bits
  | eight => fun _ bits => bits

end Kind

theorem mask_getLsbD (i : Nat) : (0xFFFF#32).getLsbD i = decide (i < 16) := by
  have hmask : 0xFFFF#32 = (BitVec.allOnes 16).setWidth 32 := rfl
  rw [hmask, BitVec.getLsbD_setWidth, BitVec.getLsbD_allOnes]
  by_cases hi : i < 16
  · simp [hi, show i < 32 by omega]
  · simp [hi]

theorem withHalf_getLsbD (shift : Nat) (w : BitVec 32) (bits : BitVec 16) {j : Nat} (hj : j < 32) :
    (withHalf shift w bits).getLsbD j =
      if shift ≤ j ∧ j < shift + 16 then bits.getLsbD (j - shift) else w.getLsbD j := by
  unfold withHalf
  rw [BitVec.getLsbD_or, BitVec.getLsbD_and, BitVec.getLsbD_not, BitVec.getLsbD_shiftLeft,
    BitVec.getLsbD_shiftLeft, mask_getLsbD, BitVec.getLsbD_setWidth]
  have hsub : j - shift < 32 := by omega
  by_cases hlow : j < shift
  · simp [hj, hlow, show ¬ shift ≤ j by omega]
  · by_cases hhigh : j - shift < 16
    · simp [hj, hlow, hhigh, hsub, show shift ≤ j by omega, show j < shift + 16 by omega]
    · simp [hj, hlow, hhigh, hsub, show ¬ j < shift + 16 by omega,
        BitVec.getLsbD_of_ge bits (j - shift) (by omega)]

theorem half_getLsbD (shift : Nat) (w : BitVec 32) {i : Nat} (hi : i < 16) :
    (half shift w).getLsbD i = w.getLsbD (shift + i) := by
  simp [half, hi]

theorem half_withHalf {shift : Nat} (hshift : shift ≤ 16) (w : BitVec 32) (bits : BitVec 16) :
    half shift (withHalf shift w bits) = bits := by
  refine BitVec.eq_of_getLsbD_eq fun i hi => ?_
  rw [half_getLsbD _ _ hi, withHalf_getLsbD _ _ _ (by omega), if_pos (by omega), Nat.add_sub_cancel_left]

/-- The other half keeps its bits. -/
theorem half_withHalf_other {shift shift' : Nat} (hshift : shift ≤ 16)
    (hne : shift + 16 ≤ shift' ∨ shift' + 16 ≤ shift) (w : BitVec 32) (bits : BitVec 16) :
    half shift (withHalf shift' w bits) = half shift w := by
  refine BitVec.eq_of_getLsbD_eq fun i hi => ?_
  rw [half_getLsbD _ _ hi, withHalf_getLsbD _ _ _ (by omega), if_neg (by omega), half_getLsbD _ _ hi]

theorem two_le_of_high {ptr : Nat} (h : high ptr = true) : 2 ≤ ptr := by
  by_contra hlt
  obtain rfl | rfl : ptr = 0 ∨ ptr = 1 := by omega
  · cases h
  · cases h

/-- The elements of a word are told apart by their place in it. -/
theorem wordOf_inj {ptr ptr' : Nat} (hhigh : high ptr = high ptr') (hword : wordOf ptr = wordOf ptr') :
    ptr = ptr' := by
  unfold wordOf at hword
  rw [← hhigh] at hword
  split at hword
  · next h =>
      have hle := two_le_of_high h
      have hle' := two_le_of_high (hhigh ▸ h)
      omega
  · exact hword

namespace Kind

theorem read_write (k : Kind) (e : Nat) (w : BitVec k.wordBits) (bits : BitVec k.bits) :
    k.read e (k.write e w bits) = bits := by
  cases k with
  | two =>
      refine half_withHalf ?_ w bits
      unfold shift
      split <;> decide
  | bool => rfl
  | four => rfl
  | eight => rfl

/-- The other elements of a word stay. -/
theorem read_write_other {k : Kind} {e e' : Nat} (hne : e ≠ e') (hword : k.word e = k.word e')
    (w : BitVec k.wordBits) (bits : BitVec k.bits) : k.read e (k.write e' w bits) = k.read e w := by
  cases k with
  | two =>
      have hhigh : high (two.ptr e) ≠ high (two.ptr e') := by
        intro h
        have hptr : two.ptr e = two.ptr e' := wordOf_inj h hword
        exact hne (Nat.eq_of_mul_eq_mul_left (by decide) hptr)
      refine half_withHalf_other ?_ ?_ w bits
      · unfold shift
        split <;> decide
      · unfold shift
        cases he : high (two.ptr e) <;> cases he' : high (two.ptr e') <;> simp [he, he'] at hhigh ⊢
  | bool => exact absurd (Nat.eq_of_mul_eq_mul_left (by decide) hword) hne
  | four => exact absurd (Nat.eq_of_mul_eq_mul_left (by decide) hword) hne
  | eight => exact absurd (Nat.eq_of_mul_eq_mul_left (by decide) hword) hne

end Kind

/-! ## Updates -/

def ROP_PROD : Nat := 2

def ROP_MAX : Nat := 3

def ROP_MIN : Nat := 4

/-- Scalars of a dtype, by their bits. -/
structure Dtype (α : Type) where
  kind : Kind
  bits : α ≃ BitVec kind.bits

namespace Dtype

variable {α : Type} (d : Dtype α)

/-- `Bool(cur)` -/
def truth (cur : α) : Bool := d.bits cur != 0

/-- A bool is its truth value. -/
theorem truth_inj (hkind : d.kind = .bool) {x y : α} (h : d.truth x = d.truth y) : x = y := by
  have hbit : ∀ a b : BitVec d.kind.bits, (a != 0) = (b != 0) → a = b := by
    rw [hkind]
    decide
  exact d.bits.injective (hbit _ _ h)

/-- The address of the word of an element. -/
def wordAt (e : Nat) : Nat := d.kind.word e

/-- An element of a word. -/
def element (e : Nat) (w : BitVec d.kind.wordBits) : α := d.bits.symm (d.kind.read e w)

/-- The word with an element replaced. -/
def replace (e : Nat) (w : BitVec d.kind.wordBits) (v : α) : BitVec d.kind.wordBits :=
  d.kind.write e w (d.bits v)

@[simp] theorem element_replace (e : Nat) (w : BitVec d.kind.wordBits) (v : α) :
    d.element e (d.replace e w v) = v := by
  unfold element replace
  rw [Kind.read_write, Equiv.symm_apply_apply]

theorem element_replace_other {e e' : Nat} (hne : e ≠ e') (hword : d.wordAt e = d.wordAt e')
    (w : BitVec d.kind.wordBits) (v : α) : d.element e (d.replace e' w v) = d.element e w := by
  unfold element replace
  rw [Kind.read_write_other hne hword]

end Dtype

section

variable {α V : Type} [Add α] [Mul α] [LinearOrder V] [Scalar α V] (d : Dtype α)

/-- `_rop_apply` -/
def _rop_apply (rop : Nat) (cur v : α) : α :=
  if d.kind = .bool then
    if rop = ROP_MAX then
      if d.truth cur then cur else v
    else if d.truth cur then v else cur
  else if rop = ROP_PROD then cur * v
  else if Scalar.isNaN cur then cur
  else if Scalar.isNaN v then v
  else if rop = ROP_MAX then
    if Scalar.ge cur v then cur else v
  else if Scalar.le cur v then cur else v

/-- What a thread does to an element: `_atomic_add(ptr, v)` or `_atomic_rmw(rop, ptr, v)`. -/
inductive Update (α : Type) where
  | add (v : α)
  | rmw (rop : Nat) (v : α)

/-- What an update means for the element. -/
def Update.apply : Update α → α → α
  | .add v, cur => cur + v
  | .rmw rop v, cur => _rop_apply d rop cur v

/-- Signed integers. -/
instance {n : Nat} : Scalar (BitVec n) Int := ⟨fun x => some x.toInt⟩

/-- The routes of an update: one fetch-and-add, one store, or a loop of swaps. -/
inductive Route where
  | fetch
  | store
  | swaps
  deriving DecidableEq

/-- The route of an update; 64-bit additions on an Apple GPU are not here. -/
def Update.route (apple : Bool) : Update α → Route
  | .add _ => if apple && d.kind = .two then .swaps else .fetch
  | .rmw _ _ => if d.kind = .bool then .store else .swaps

/-- Only the loop of `_atomic_rmw` ends when there is nothing to change. -/
def Update.early : Update α → Bool
  | .add _ => false
  | .rmw _ _ => true

/-- What `_atomic_rmw` stores for a bool. -/
def Update.stored : Update α → Option α
  | .add _ => none
  | .rmw rop v =>
    if rop = ROP_MAX then
      if d.truth v then some v else none
    else if !d.truth v then some v else none

/-! ## The threads -/

/-- Where the thread of an update is. -/
inductive Phase (w : Nat) where
  | start
  /-- In the loop, with `expected`. -/
  | loop (expected : BitVec w)
  | finished
  deriving DecidableEq

/-- The updates of a launch, each of an element. -/
structure Launch (ι α : Type) (d : Dtype α) where
  apple : Bool
  elem : ι → Nat
  op : ι → Update α
  /-- The words before the launch, by their address. -/
  before : Nat → BitVec d.kind.wordBits

/-- The words, the values they had before, and the threads. -/
structure State (ι : Type) (w : Nat) where
  word : Nat → BitVec w
  past : Nat → List (BitVec w)
  phase : ι → Phase w

/-- An event of the thread of update `i`. -/
inductive Event (ι : Type) (w : Nat) where
  /-- The fetch-and-add, or the store. -/
  | update (i : ι)
  /-- The load before the loop reads `v`. -/
  | load (i : ι) (v : BitVec w)
  /-- The loop ends early. -/
  | same (i : ι)
  /-- The swap takes place. -/
  | swap (i : ι)
  /-- The swap fails and leaves `v` in `expected`. -/
  | fail (i : ι) (v : BitVec w)

namespace State

variable {ι : Type} [DecidableEq ι] {w : Nat}

/-- The values that a word has had. -/
def values (s : State ι w) (a : Nat) : List (BitVec w) := s.word a :: s.past a

def setPhase (s : State ι w) (i : ι) (p : Phase w) : State ι w :=
  { s with phase := Function.update s.phase i p }

/-- A word takes a new value. -/
def put (s : State ι w) (a : Nat) (v : BitVec w) : State ι w :=
  { s with
    word := Function.update s.word a v
    past := Function.update s.past a (s.values a) }

theorem setPhase_self (s : State ι w) (i : ι) (p : Phase w) : (s.setPhase i p).phase i = p :=
  Function.update_self ..

theorem setPhase_of_ne (s : State ι w) {i j : ι} (hj : j ≠ i) (p : Phase w) :
    (s.setPhase i p).phase j = s.phase j := Function.update_of_ne hj ..

omit [DecidableEq ι] in
theorem values_put (s : State ι w) (a b : Nat) (v : BitVec w) :
    (s.put a v).values b = if b = a then v :: s.values a else s.values b := by
  unfold put values
  by_cases hb : b = a
  · subst hb
    simp
  · simp [hb]

end State

namespace Launch

variable {ι : Type} [DecidableEq ι] {d} (L : Launch ι α d)

/-- The address of the word of an update. -/
def word (i : ι) : Nat := d.wordAt (L.elem i)

/-- `desired` -/
def desired (i : ι) (expected : BitVec d.kind.wordBits) : BitVec d.kind.wordBits :=
  d.replace (L.elem i) expected ((L.op i).apply d (d.element (L.elem i) expected))

/-- The loop is left before its swap. -/
def leaves (i : ι) (expected : BitVec d.kind.wordBits) : Bool :=
  (L.op i).early && L.desired i expected == expected

/-- The updates as a transition system. -/
def system : System (State ι d.kind.wordBits) (Event ι d.kind.wordBits) where
  Init s := s = ⟨L.before, fun _ => [], fun _ => .start⟩
  next s
    | .update i =>
      match s.phase i, (L.op i).route d L.apple with
      | .start, .fetch =>
        some ((s.put (L.word i) (L.desired i (s.word (L.word i)))).setPhase i .finished)
      | .start, .store =>
        match (L.op i).stored d with
        | some v => some ((s.put (L.word i) (d.replace (L.elem i) (s.word (L.word i)) v)).setPhase i .finished)
        | none => some (s.setPhase i .finished)
      | _, _ => none
    | .load i v =>
      match s.phase i, (L.op i).route d L.apple with
      | .start, .swaps => if v ∈ s.values (L.word i) then some (s.setPhase i (.loop v)) else none
      | _, _ => none
    | .same i =>
      match s.phase i with
      | .loop expected => if L.leaves i expected then some (s.setPhase i .finished) else none
      | _ => none
    | .swap i =>
      match s.phase i with
      | .loop expected =>
        if !L.leaves i expected ∧ s.word (L.word i) = expected then
          some ((s.put (L.word i) (L.desired i expected)).setPhase i .finished)
        else none
      | _ => none
    | .fail i v =>
      match s.phase i with
      | .loop expected =>
        if !L.leaves i expected ∧ v ∈ s.values (L.word i) then some (s.setPhase i (.loop v)) else none
      | _ => none

variable {L}

/-- What a step does: one update takes effect, one is done without a write, or one reads the
word. -/
inductive Step (s : State ι d.kind.wordBits) : State ι d.kind.wordBits → Prop
  | updates (i : ι) (hphase : s.phase i ≠ .finished) :
      Step s ((s.put (L.word i) (L.desired i (s.word (L.word i)))).setPhase i .finished)
  | keeps (i : ι) (x : BitVec d.kind.wordBits) (hphase : s.phase i ≠ .finished)
      (hx : x = s.word (L.word i) ∨ s.phase i = .loop x)
      (hfix : (L.op i).apply d (d.element (L.elem i) x) = d.element (L.elem i) x) :
      Step s (s.setPhase i .finished)
  | reads (i : ι) (x : BitVec d.kind.wordBits) (hphase : s.phase i ≠ .finished)
      (hx : x ∈ s.values (L.word i)) : Step s (s.setPhase i (.loop x))

/-- The store of a bool is the update, whatever is there. -/
theorem stored_apply (rop : Nat) (u : α) (hkind : d.kind = .bool) (cur : α) :
    ((Update.rmw rop u).stored d).getD cur = (Update.rmw rop u).apply d cur := by
  simp only [Update.stored, Update.apply, _rop_apply, if_pos hkind]
  by_cases hp : rop = ROP_MAX <;> cases hu : d.truth u <;> cases hc : d.truth cur <;> simp [hp]
  all_goals exact d.truth_inj hkind (by rw [hu, hc])

/-- What a step does. -/
theorem step_of {s t : State ι d.kind.wordBits} {e : Event ι d.kind.wordBits}
    (h : L.system.next s e = some t) : Step (L := L) s t := by
  cases e with
  | update i =>
      simp only [system] at h
      split at h
      · next hphase hroute =>
          cases h
          exact .updates i (by rw [hphase]; simp)
      · next hphase hroute =>
          have hphase' : s.phase i ≠ .finished := by rw [hphase]; simp
          cases hop : L.op i with
          | add v =>
              rw [hop, Update.route] at hroute
              split at hroute <;> cases hroute
          | rmw rop v =>
              have hkind : d.kind = .bool := by
                rw [hop, Update.route] at hroute
                by_contra hne
                rw [if_neg hne] at hroute
                cases hroute
              have happly := stored_apply rop v hkind (d.element (L.elem i) (s.word (L.word i)))
              rw [← hop] at happly
              split at h
              · next x hx =>
                  cases h
                  rw [hx, Option.getD_some] at happly
                  rw [happly]
                  exact .updates i hphase'
              · next hx =>
                  cases h
                  rw [hx, Option.getD_none] at happly
                  exact .keeps i _ hphase' (.inl rfl) happly.symm
      · cases h
  | load i v =>
      simp only [system] at h
      split at h
      · next hphase _ =>
          split at h
          · next hv =>
              cases h
              exact .reads i v (by rw [hphase]; simp) hv
          · cases h
      · cases h
  | same i =>
      simp only [system] at h
      split at h
      · next expected hphase =>
          split at h
          · next hleaves =>
              cases h
              refine .keeps i expected (by rw [hphase]; simp) (.inr hphase) ?_
              simp only [leaves, Bool.and_eq_true, beq_iff_eq] at hleaves
              have hsame := congrArg (d.element (L.elem i)) hleaves.2
              rwa [desired, Dtype.element_replace] at hsame
          · cases h
      · cases h
  | swap i =>
      simp only [system] at h
      split at h
      · next expected hphase =>
          split at h
          · next hswap =>
              cases h
              rw [← hswap.2]
              exact .updates i (by rw [hphase]; simp)
          · cases h
      · cases h
  | fail i v =>
      simp only [system] at h
      split at h
      · next expected hphase =>
          split at h
          · next hfail =>
              cases h
              exact .reads i v (by rw [hphase]; simp) hfail.2
          · cases h
      · cases h

/-! ## The invariant -/

/-- The updates of an element that are done. -/
structure Done (L : Launch ι α d) (phase : ι → Phase d.kind.wordBits) (e : Nat) (l : List ι) : Prop where
  nodup : l.Nodup
  mem : ∀ i, i ∈ l ↔ L.elem i = e ∧ phase i = .finished

/-- What a loop expects, its word has held, and every element has a history of the updates
of it that are done. -/
structure Inv (L : Launch ι α d) (s : State ι d.kind.wordBits) : Prop where
  expected : ∀ i x, s.phase i = .loop x → x ∈ s.values (L.word i)
  history : ∀ e, ∃ l : List ι, Done L s.phase e l ∧ History (fun i => (L.op i).apply d)
    (d.element e (L.before (d.wordAt e))) ((s.values (d.wordAt e)).map (d.element e)) l

variable {s t : State ι d.kind.wordBits} {phase : ι → Phase d.kind.wordBits} {e : Nat} {l : List ι} {i : ι}

omit [Add α] [Mul α] [DecidableEq ι] in
theorem Done.perm {l' : List ι} (h : Done L phase e l) (hperm : l'.Perm l) : Done L phase e l' :=
  ⟨hperm.nodup_iff.mpr h.nodup, fun i => hperm.mem_iff.trans (h.mem i)⟩

omit [Add α] [Mul α] in
theorem Done.finish (h : Done L phase (L.elem i) l) (hphase : phase i ≠ .finished) :
    Done L (Function.update phase i .finished) (L.elem i) (i :: l) := by
  constructor
  · exact List.nodup_cons.mpr ⟨fun hi => hphase ((h.mem i).mp hi).2, h.nodup⟩
  · intro j
    rw [List.mem_cons]
    by_cases hj : j = i
    · subst hj
      simp
    · rw [Function.update_of_ne hj, h.mem j]
      exact or_iff_right hj

omit [Add α] [Mul α] in
/-- A step of one update is none of another element, and none before it is done. -/
theorem Done.other {p : Phase d.kind.wordBits} (h : Done L phase e l) (hphase : phase i ≠ .finished)
    (hp : L.elem i ≠ e ∨ p ≠ .finished) : Done L (Function.update phase i p) e l := by
  refine ⟨h.nodup, fun j => (h.mem j).trans ?_⟩
  by_cases hj : j = i
  · subst hj
    rw [Function.update_self]
    rcases hp with hp | hp <;> simp [hp, hphase]
  · rw [Function.update_of_ne hj]

theorem inv_init (s : State ι d.kind.wordBits) (h : L.system.Init s) : Inv L s := by
  obtain rfl : s = _ := h
  constructor
  · intro i x hx
    cases hx
  · intro e
    refine ⟨[], ⟨List.nodup_nil, fun i => ?_⟩, .start⟩
    simp

/-- A word that the update leaves as it is. -/
theorem Inv.keeps {x : BitVec d.kind.wordBits} (hinv : Inv L s) (hphase : s.phase i ≠ .finished)
    (hx : x = s.word (L.word i) ∨ s.phase i = .loop x)
    (hfix : (L.op i).apply d (d.element (L.elem i) x) = d.element (L.elem i) x) :
    Inv L (s.setPhase i .finished) := by
  have hmem : x ∈ s.values (L.word i) := by
    rcases hx with rfl | hx
    · exact List.mem_cons_self
    · exact hinv.expected i x hx
  constructor
  · intro j y hy
    by_cases hj : j = i
    · subst hj
      rw [State.setPhase_self] at hy
      cases hy
    · rw [State.setPhase_of_ne _ hj] at hy
      exact hinv.expected j y hy
  · intro e
    obtain ⟨l, hdone, hhist⟩ := hinv.history e
    by_cases he : L.elem i = e
    · subst he
      obtain ⟨l', hperm, hhist'⟩ := hhist.insert (i := i) (List.mem_map_of_mem hmem) hfix
      exact ⟨l', (hdone.finish hphase).perm hperm, hhist'⟩
    · exact ⟨l, hdone.other hphase (.inl he), hhist⟩

theorem Inv.reads {x : BitVec d.kind.wordBits} (hinv : Inv L s) (hphase : s.phase i ≠ .finished)
    (hx : x ∈ s.values (L.word i)) : Inv L (s.setPhase i (.loop x)) := by
  constructor
  · intro j y hy
    by_cases hj : j = i
    · subst hj
      rw [State.setPhase_self] at hy
      cases hy
      exact hx
    · rw [State.setPhase_of_ne _ hj] at hy
      exact hinv.expected j y hy
  · intro e
    obtain ⟨l, hdone, hhist⟩ := hinv.history e
    exact ⟨l, hdone.other hphase (.inr (by simp)), hhist⟩

/-- The update of a word: the other elements in it stay. -/
theorem Inv.updates (hinv : Inv L s) (hphase : s.phase i ≠ .finished) :
    Inv L ((s.put (L.word i) (L.desired i (s.word (L.word i)))).setPhase i .finished) := by
  constructor
  · intro j y hy
    by_cases hj : j = i
    · subst hj
      rw [State.setPhase_self] at hy
      cases hy
    · rw [State.setPhase_of_ne _ hj] at hy
      have hmem := hinv.expected j y hy
      change y ∈ (s.put (L.word i) (L.desired i (s.word (L.word i)))).values (L.word j)
      rw [State.values_put]
      split
      · next hw =>
          rw [hw] at hmem
          exact List.mem_cons_of_mem _ hmem
      · exact hmem
  · intro e
    obtain ⟨l, hdone, hhist⟩ := hinv.history e
    change ∃ l, Done L (Function.update s.phase i .finished) e l ∧ History _ _
      (((s.put (L.word i) (L.desired i (s.word (L.word i)))).values (d.wordAt e)).map (d.element e)) l
    rw [State.values_put]
    by_cases he : L.elem i = e
    · subst he
      refine ⟨i :: l, hdone.finish hphase, ?_⟩
      have hword : d.wordAt (L.elem i) = L.word i := rfl
      rw [if_pos hword, List.map_cons, desired, Dtype.element_replace]
      exact hhist.update i
    · refine ⟨l, hdone.other hphase (.inl he), ?_⟩
      split
      · next hw =>
          rw [List.map_cons, desired, d.element_replace_other (Ne.symm he) hw]
          rw [hw] at hhist ⊢
          exact hhist.keep
      · exact hhist

theorem inv_of_reachable (h : L.system.Reachable s) : Inv L s := by
  refine h.invariant inv_init fun s e t _ hinv hnext => ?_
  cases step_of hnext with
  | updates i hphase => exact hinv.updates hphase
  | keeps i x hphase hx hfix => exact hinv.keeps hphase hx hfix
  | reads i x hphase hx => exact hinv.reads hphase hx

/-! ## Results -/

/-- When all updates are done, every element holds the result of its own updates, one after
the other in some order; an element without updates holds what it held. -/
theorem updates_in_some_order [Fintype ι] (h : L.system.Reachable s)
    (hdone : ∀ i, s.phase i = .finished) (e : Nat) :
    ∃ l : List ι, l.Perm (Finset.univ.filter fun i => L.elem i = e).toList ∧
      d.element e (s.word (d.wordAt e)) =
        l.foldr (fun i => (L.op i).apply d) (d.element e (L.before (d.wordAt e))) := by
  obtain ⟨l, hl, hhist⟩ := (inv_of_reachable h).history e
  refine ⟨l, ?_, Option.some.inj hhist.value⟩
  refine (List.perm_ext_iff_of_nodup hl.nodup (Finset.nodup_toList _)).mpr fun i => ?_
  rw [hl.mem i, Finset.mem_toList, Finset.mem_filter]
  simp [hdone i]

/-- Two additions to the halves of one word. -/
def halves : Launch (Fin 2) (BitVec 16) ⟨.two, Equiv.refl _⟩ where
  apple := true
  elem i := i
  op i := .add (if i = 0 then 5 else 7)
  before := fun _ => 0

/-- Both arrive, though the second swap fails first. -/
theorem updates_in_some_order_halves : ∃ s : State (Fin 2) 32, halves.system.Reachable s ∧
    half 0 (s.word 0) = 5 ∧ half 16 (s.word 0) = 7 := by
  let es : List (Event (Fin 2) 32) := [.load 0 0, .load 1 0, .swap 0, .fail 1 5, .swap 1]
  let init : State (Fin 2) 32 := ⟨fun _ => 0, fun _ => [], fun _ => .start⟩
  obtain ⟨s, hs⟩ : ∃ s, halves.system.run init es = some s := Option.isSome_iff_exists.mp (by decide)
  have hreach : halves.system.Reachable s := ⟨init, es, rfl, hs⟩
  have hdone : ∀ i, s.phase i = .finished := by
    have hphases : ∀ i, (halves.system.run init es).map (fun s => s.phase i) = some .finished := by
      decide
    rw [hs] at hphases
    exact fun i => Option.some.inj (hphases i)
  have hone : ∀ i : Fin 2, (Finset.univ.filter fun j => halves.elem j = i).toList = [i] := by
    intro i
    rw [← Finset.toList_singleton]
    congr 1
    revert i
    decide
  refine ⟨s, hreach, ?_, ?_⟩
  · obtain ⟨l, hl, h⟩ := updates_in_some_order hreach hdone 0
    rw [show (0 : Nat) = (0 : Fin 2) from rfl, hone 0] at hl
    rw [List.perm_singleton.mp hl] at h
    exact h
  · obtain ⟨l, hl, h⟩ := updates_in_some_order hreach hdone 1
    rw [show (1 : Nat) = (1 : Fin 2) from rfl, hone 1] at hl
    rw [List.perm_singleton.mp hl] at h
    exact h

/-- `t` is `s` with the thread of `i` at its end. -/
def Finishes (s : State ι d.kind.wordBits) (i : ι) (t : State ι d.kind.wordBits) : Prop :=
  t.phase i = .finished ∧ ∀ j, j ≠ i → t.phase j = s.phase j

omit [Add α] [Mul α] in
theorem finishes_setPhase {u : State ι d.kind.wordBits} (hu : u.phase = s.phase) :
    Finishes s i (u.setPhase i .finished) :=
  ⟨u.setPhase_self i _, fun _ hj => (u.setPhase_of_ne hj _).trans (congrFun hu _)⟩

/-- A loop that expects what the word holds finishes at once. -/
theorem finish_loop (h : s.phase i = .loop (s.word (L.word i))) :
    ∃ e t, L.system.next s e = some t ∧ Finishes s i t := by
  cases hleaves : L.leaves i (s.word (L.word i)) with
  | true => exact ⟨.same i, _, by simp only [system, h, hleaves, if_true], finishes_setPhase rfl⟩
  | false =>
      refine ⟨.swap i, _, ?_, finishes_setPhase (u := s.put (L.word i) (L.desired i
        (s.word (L.word i)))) rfl⟩
      simp [system, h, hleaves]

/-- An update finishes if the others wait for two of its steps. -/
theorem finish_one (hphase : s.phase i ≠ .finished) :
    ∃ es t, L.system.run s es = some t ∧ Finishes s i t := by
  have hstep : ∀ e (u : State ι d.kind.wordBits), u.phase = s.phase → L.system.next s e = some (u.setPhase i .finished) →
      ∃ es t, L.system.run s es = some t ∧ Finishes s i t := by
    intro e u hu he
    exact ⟨[e], _, by rw [System.run_cons, he]; rfl, finishes_setPhase hu⟩
  have hread : ∀ e, L.system.next s e = some (s.setPhase i (.loop (s.word (L.word i)))) →
      ∃ es t, L.system.run s es = some t ∧ Finishes s i t := by
    intro e he
    obtain ⟨e', t, hnext, hdone, hothers⟩ := finish_loop (L := L)
      (s := s.setPhase i (.loop (s.word (L.word i)))) (s.setPhase_self i _)
    refine ⟨[e, e'], t, ?_, hdone, fun j hj => (hothers j hj).trans (s.setPhase_of_ne hj _)⟩
    rw [System.run_cons, he, Option.bind_some, System.run_cons, hnext]
    rfl
  have hcurrent : s.word (L.word i) ∈ s.values (L.word i) := List.mem_cons_self
  cases h : s.phase i with
  | finished => exact absurd h hphase
  | start =>
      cases hroute : (L.op i).route d L.apple with
      | fetch =>
          exact hstep (.update i) (s.put (L.word i) (L.desired i (s.word (L.word i)))) rfl
            (by simp [system, h, hroute])
      | store =>
          cases hstored : (L.op i).stored d with
          | some v =>
              exact hstep (.update i) (s.put (L.word i) (d.replace (L.elem i) (s.word (L.word i)) v))
                rfl (by simp [system, h, hroute, hstored])
          | none => exact hstep (.update i) s rfl (by simp [system, h, hroute, hstored])
      | swaps => exact hread (.load i (s.word (L.word i))) (by simp [system, h, hroute, hcurrent])
  | loop x =>
      cases hleaves : L.leaves i x with
      | true => exact hstep (.same i) s rfl (by simp [system, h, hleaves])
      | false => exact hread (.fail i (s.word (L.word i))) (by simp [system, h, hleaves, hcurrent])

/-- From every state all updates can finish, so that no order of steps leaves one in its loop
for good. -/
theorem updates_can_finish [Fintype ι] (L : Launch ι α d) (s : State ι d.kind.wordBits) :
    ∃ es t, L.system.run s es = some t ∧ ∀ i, t.phase i = .finished := by
  have hsome : ∀ u : Finset ι, ∃ es t, L.system.run s es = some t ∧ ∀ i ∈ u, t.phase i = .finished := by
    intro u
    induction u using Finset.induction_on with
    | empty => exact ⟨[], s, rfl, by simp⟩
    | insert i u _ ih =>
        obtain ⟨es, t, hrun, ht⟩ := ih
        by_cases hi : t.phase i = .finished
        · refine ⟨es, t, hrun, fun j hj => ?_⟩
          rcases Finset.mem_insert.mp hj with rfl | hj
          · exact hi
          · exact ht j hj
        · obtain ⟨fs, t', hrun', hdone, hothers⟩ := finish_one (L := L) hi
          refine ⟨es ++ fs, t', L.system.run_append_eq_some.mpr ⟨t, hrun, hrun'⟩, fun j hj => ?_⟩
          by_cases hji : j = i
          · rw [hji, hdone]
          · rw [hothers j hji]
            exact ht j ((Finset.mem_insert.mp hj).resolve_left hji)
  obtain ⟨es, t, hrun, ht⟩ := hsome Finset.univ
  exact ⟨es, t, hrun, fun i => ht i (Finset.mem_univ i)⟩

end Launch

end

/-! ## Additions in two halves -/

/-- The 64-bit additions of a launch on an Apple GPU, each to an element. -/
structure SplitLaunch (ι : Type) where
  elem : ι → Nat
  value : ι → BitVec 64
  /-- The 32-bit words before the launch, by their address. -/
  before : Nat → BitVec 32

/-- Where the thread of an addition is. -/
inductive SplitPhase where
  | start
  /-- The low half is added. -/
  | carried (carry : BitVec 32)
  | finished
  deriving DecidableEq

structure SplitState (ι : Type) where
  word : Nat → BitVec 32
  phase : ι → SplitPhase

/-- An event of the thread of an addition: the fetch-and-add of a half. -/
inductive SplitEvent (ι : Type) where
  | low (i : ι)
  | high (i : ι)

/-- The 64-bit element of two words. -/
def int64At (word : Nat → BitVec 32) (e : Nat) : BitVec 64 := word (8 * e + 4) ++ word (8 * e)

namespace SplitLaunch

variable {ι : Type} [DecidableEq ι] (L : SplitLaunch ι)

/-- The additions as a transition system. -/
def system : System (SplitState ι) (SplitEvent ι) where
  Init s := s = ⟨L.before, fun _ => .start⟩
  next s
    | .low i =>
      match s.phase i with
      | .start =>
        let lo := (L.value i).setWidth 32
        let old := s.word (8 * L.elem i)
        let carry := if old + lo < old then 1 else 0
        some ⟨Function.update s.word (8 * L.elem i) (old + lo),
          Function.update s.phase i (.carried carry)⟩
      | _ => none
    | .high i =>
      match s.phase i with
      | .carried carry =>
        let old := s.word (8 * L.elem i + 4)
        some ⟨Function.update s.word (8 * L.elem i + 4)
            (old + ((L.value i >>> 32).setWidth 32 + carry)),
          Function.update s.phase i .finished⟩
      | _ => none

/-- What an addition has still to add. -/
def pending (v : BitVec 64) : SplitPhase → BitVec 64
  | .start => v
  | .carried carry => ((v >>> 32).setWidth 32 + carry) ++ 0#32
  | .finished => 0

theorem append_toNat (hi lo : BitVec 32) : (hi ++ lo).toNat = hi.toNat * 2 ^ 32 + lo.toNat := by
  rw [BitVec.toNat_append, Nat.shiftLeft_eq, ← Nat.shiftLeft_eq, Nat.shiftLeft_add_eq_or_of_lt lo.isLt]

/-- The high half is added without a carry. -/
theorem append_add (hi lo x : BitVec 32) : (hi + x) ++ lo = (hi ++ lo) + (x ++ 0#32) := by
  apply BitVec.eq_of_toNat_eq
  rw [BitVec.toNat_add, append_toNat, append_toNat, append_toNat, BitVec.toNat_add]
  have hlo := lo.isLt
  simp only [BitVec.toNat_ofNat]
  omega

/-- The low half is added with the carry it leaves. -/
theorem append_add_low (hi lo : BitVec 32) (v : BitVec 64) :
    (hi ++ (lo + v.setWidth 32)) + (((v >>> 32).setWidth 32 +
      if lo + v.setWidth 32 < lo then 1 else 0) ++ 0#32) = (hi ++ lo) + v := by
  apply BitVec.eq_of_toNat_eq
  rw [BitVec.toNat_add, append_toNat, append_toNat, BitVec.toNat_add, BitVec.toNat_add,
    BitVec.toNat_add (hi ++ lo), append_toNat, BitVec.toNat_setWidth, BitVec.toNat_setWidth,
    BitVec.toNat_ushiftRight]
  have hlo := lo.isLt
  have hv := v.isLt
  have hcarry : ((if lo + v.setWidth 32 < lo then 1 else 0 : BitVec 32)).toNat =
      (lo.toNat + v.toNat % 2 ^ 32) / 2 ^ 32 := by
    simp only [BitVec.lt_def, BitVec.toNat_add, BitVec.toNat_setWidth]
    split
    · simp; omega
    · simp; omega
  rw [hcarry, Nat.shiftRight_eq_div_pow]
  simp only [BitVec.toNat_ofNat]
  omega

/-- What an element holds and what is still to be added to it never change in sum. -/
def total [Fintype ι] (s : SplitState ι) (e : Nat) : BitVec 64 :=
  int64At s.word e + ∑ i with L.elem i = e, pending (L.value i) (s.phase i)

variable {L} [Fintype ι]

/-- The sum over an element when one addition moves on. -/
theorem sum_update {s : SplitState ι} {i : ι} (p : SplitPhase) (e : Nat) :
    (∑ j with L.elem j = e, pending (L.value j) (Function.update s.phase i p j)) +
        (if L.elem i = e then pending (L.value i) (s.phase i) else 0) =
      (∑ j with L.elem j = e, pending (L.value j) (s.phase j)) +
        if L.elem i = e then pending (L.value i) p else 0 := by
  have hrest : ∀ j, j ≠ i →
      pending (L.value j) (Function.update s.phase i p j) = pending (L.value j) (s.phase j) :=
    fun j hj => by rw [Function.update_of_ne hj]
  by_cases he : L.elem i = e
  · have hi : i ∈ ({j | L.elem j = e} : Finset ι) := by simpa using he
    rw [if_pos he, if_pos he, ← Finset.sum_erase_add _ _ hi, ← Finset.sum_erase_add _ _ hi,
      Finset.sum_congr rfl fun j hj => hrest j (Finset.ne_of_mem_erase hj), Function.update_self]
    ring
  · rw [if_neg he, if_neg he]
    congr 1
    refine Finset.sum_congr rfl fun j hj => hrest j ?_
    rintro rfl
    exact he (by simpa using hj)

theorem total_step {s t : SplitState ι} {ev : SplitEvent ι} (h : L.system.next s ev = some t)
    (e : Nat) : L.total t e = L.total s e := by
  have hlow : 8 * e ≠ 8 * e + 4 := by omega
  cases ev with
  | low i =>
      simp only [system] at h
      split at h
      · next hphase =>
          cases h
          have hsum := sum_update (L := L) (s := s) (i := i) (.carried
            (if s.word (8 * L.elem i) + (L.value i).setWidth 32 < s.word (8 * L.elem i) then 1 else 0)) e
          unfold total int64At
          by_cases he : L.elem i = e
          · subst he
            rw [if_pos rfl, if_pos rfl, hphase] at hsum
            have hadd := append_add_low (s.word (8 * L.elem i + 4)) (s.word (8 * L.elem i)) (L.value i)
            dsimp only [pending] at hsum hadd ⊢
            rw [Function.update_self, Function.update_of_ne (Ne.symm hlow)]
            linear_combination hadd + hsum
          · have hne : 8 * e ≠ 8 * L.elem i := by omega
            have hne' : 8 * e + 4 ≠ 8 * L.elem i := by omega
            rw [if_neg he, if_neg he, add_zero, add_zero] at hsum
            dsimp only
            rw [Function.update_of_ne hne, Function.update_of_ne hne', hsum]
      · cases h
  | high i =>
      simp only [system] at h
      split at h
      · next carry hphase =>
          cases h
          have hsum := sum_update (L := L) (s := s) (i := i) .finished e
          unfold total int64At
          by_cases he : L.elem i = e
          · subst he
            rw [if_pos rfl, if_pos rfl, hphase] at hsum
            have hadd := append_add (s.word (8 * L.elem i + 4)) (s.word (8 * L.elem i))
              ((L.value i >>> 32).setWidth 32 + carry)
            dsimp only [pending] at hsum hadd ⊢
            rw [Function.update_self, Function.update_of_ne hlow]
            linear_combination hadd + hsum
          · have hne : 8 * e ≠ 8 * L.elem i + 4 := by omega
            have hne' : 8 * e + 4 ≠ 8 * L.elem i + 4 := by omega
            rw [if_neg he, if_neg he, add_zero, add_zero] at hsum
            dsimp only
            rw [Function.update_of_ne hne, Function.update_of_ne hne', hsum]
      · cases h

/-- When all additions are done, every element holds what it held plus the sum of its own
additions: the carries of the halves add up, whatever the order. -/
theorem split_adds_exact (L : SplitLaunch ι) {s : SplitState ι} (h : L.system.Reachable s)
    (hdone : ∀ i, s.phase i = .finished) (e : Nat) :
    int64At s.word e = int64At L.before e + ∑ i with L.elem i = e, L.value i := by
  have htotal : L.total s e = int64At L.before e + ∑ i with L.elem i = e, L.value i := by
    refine h.invariant (I := fun s => L.total s e = _) (fun s hs => ?_) fun s ev t _ hI hnext => ?_
    · obtain rfl : s = _ := hs
      rfl
    · rw [total_step hnext, hI]
  rw [← htotal, total, Finset.sum_eq_zero, add_zero]
  intro i _
  rw [hdone i]
  rfl

/-- `0xFFFFFFFF` and `1`. -/
def carries : SplitLaunch (Fin 2) where
  elem := fun _ => 0
  value i := if i = 0 then 0xFFFFFFFF else 1
  before := fun _ => 0

/-- The carry arrives, though the second addition overtakes the first. -/
theorem split_adds_exact_carries : ∃ s : SplitState (Fin 2), carries.system.Reachable s ∧
    int64At s.word 0 = 0x100000000 := by
  let init : SplitState (Fin 2) := ⟨fun _ => 0, fun _ => .start⟩
  let es : List (SplitEvent (Fin 2)) := [.low 0, .low 1, .high 1, .high 0]
  obtain ⟨s, hs⟩ : ∃ s, carries.system.run init es = some s := Option.isSome_iff_exists.mp (by decide)
  have hreach : carries.system.Reachable s := ⟨init, es, rfl, hs⟩
  have hdone : ∀ i, s.phase i = .finished := by
    have hphases : ∀ i, (carries.system.run init es).map (fun s => s.phase i) = some .finished := by
      decide
    rw [hs] at hphases
    exact fun i => Option.some.inj (hphases i)
  refine ⟨s, hreach, (split_adds_exact carries hreach hdone 0).trans ?_⟩
  decide

end SplitLaunch

end TorchMojoBackend.Kernels.AtomicUpdates
