/-
  `Compiler.BufferCache`: the cache of the buffers of graph inputs.

  Source: torch_compile_backend/compiler.py (`_buffer_cache`, `_evict_buffer`,
  `_cached_buffer_for`).

  A tensor object has an id, and metadata that every in-place operation may change: its shape,
  strides, dtype and data pointer.  When it dies its finalizers run, one after the other, and its
  id is free for another object after that.  Anyone may write to memory at any time.
-/
import TorchMojoBackend.Foundation.Transition
import TorchMojoBackend.Ops.Views

set_option autoImplicit false

namespace TorchMojoBackend.Compiler.BufferCache

open TorchMojoBackend.Foundation
open TorchMojoBackend.Ops.Views (T)

universe u

/-! ## Tensors and buffers -/

structure Dtype where
  kind : Nat
  itemsize : Nat
  deriving DecidableEq

/-- What a tensor object refers to. -/
structure Tensor where
  shape : List Nat
  strides : List Int
  dtype : Dtype
  dataPtr : Nat
  strides_length : strides.length = shape.length

/-- `_MAX_INPUT_ALIGNMENT` -/
def MAX_INPUT_ALIGNMENT : Nat := 16

section
variable {β : Type u}

/-- The item at a place of an array of items. -/
def item (mem : Int → β) (ptr itemsize : Nat) (i : Int) : List β :=
  (List.range itemsize).map fun k => mem (ptr + i * itemsize + k)

/-- The items of a tensor. -/
def Tensor.view (t : Tensor) (mem : Int → β) : T (List β) where
  shape := t.shape
  strides := t.strides
  offset := 0
  storage := item mem t.dataPtr t.dtype.itemsize
  strides_length := t.strides_length

/-- The elements of a tensor in row-major order. -/
def Tensor.contents (t : Tensor) (mem : Int → β) : List (List β) :=
  (indices t.shape).map (t.view mem).elem

end

def Tensor.isContiguous (t : Tensor) : Bool := (t.view fun _ => ()).contig

/-- A tensor that is imported as it is. -/
def Tensor.Direct (t : Tensor) : Prop :=
  t.isContiguous = true ∧ t.dataPtr % MAX_INPUT_ALIGNMENT = 0

instance (t : Tensor) : Decidable t.Direct := by
  unfold Tensor.Direct
  infer_instance

/-- A MAX buffer: memory of a tensor, or a copy of its elements. -/
inductive Buffer (β : Type u) where
  | aliased (shape : List Nat) (dtype : Dtype) (ptr : Nat)
  | copied (shape : List Nat) (dtype : Dtype) (contents : List (List β))

namespace Buffer

variable {β : Type u}

def shape : Buffer β → List Nat
  | aliased shape _ _ => shape
  | copied shape _ _ => shape

def dtype : Buffer β → Dtype
  | aliased _ dtype _ => dtype
  | copied _ dtype _ => dtype

/-- The elements that a graph reads. -/
def contents (mem : Int → β) : Buffer β → List (List β)
  | aliased shape dtype ptr =>
      (List.range shape.prod).map fun i : Nat => item mem ptr dtype.itemsize i
  | copied _ _ contents => contents

end Buffer

/-- `fast_from_dlpack(t.detach())` -/
def fromDlpack {β : Type u} (t : Tensor) : Buffer β := .aliased t.shape t.dtype t.dataPtr

/-! ## The system -/

inductive Object where
  | live (t : Tensor)
  | dying

structure Sys (β : Type u) where
  mem : Int → β
  objects : Nat → Option Object
  /-- The finalizers of an object that did not run yet. -/
  finalizers : Nat → Nat
  /-- `_buffer_cache` -/
  cache : Nat → Option (Buffer β × Nat)
  /-- History: what the object was when its buffer was cached last. -/
  imported : Nat → Option Tensor

variable {β : Type u}

def Sys.boot (mem : Int → β) : Sys β := ⟨mem, fun _ => none, fun _ => 0, fun _ => none, fun _ => none⟩

/-- `_evict_buffer` -/
def evictBuffer (cache : Nat → Option (Buffer β × Nat)) (id : Nat) :
    Nat → Option (Buffer β × Nat) := Function.update cache id none

/-- The buffer of a tensor is cached. -/
def Sys.importTensor (s : Sys β) (id : Nat) (t : Tensor) : Buffer β × Sys β :=
  (fromDlpack t, { s with
    finalizers := Function.update s.finalizers id (s.finalizers id + 1)
    cache := Function.update s.cache id (some (fromDlpack t, t.dataPtr))
    imported := Function.update s.imported id (some t) })

/-- `_cached_buffer_for` -/
def Sys.cachedBufferFor (s : Sys β) (id : Nat) (t : Tensor) : Buffer β × Sys β :=
  if ¬ t.Direct then (.copied t.shape t.dtype (t.contents s.mem), s)
  else
    match s.cache id with
    | some (buffer, ptr) => if ptr = t.dataPtr then (buffer, s) else s.importTensor id t
    | none => s.importTensor id t

inductive Event (β : Type u) where
  /-- A new object at a free id. -/
  | create (id : Nat) (t : Tensor)
  /-- An assignment of `.data`, `set_`, `resize_` or an in-place change of metadata. -/
  | mutate (id : Nat) (t : Tensor)
  | write (a : Int) (b : β)
  | die (id : Nat)
  | finalize (id : Nat)
  | free (id : Nat)
  | call (id : Nat)

def next (s : Sys β) : Event β → Option (Sys β)
  | .create id t =>
      match s.objects id with
      | none => some { s with
          objects := Function.update s.objects id (some (.live t))
          imported := Function.update s.imported id none }
      | some _ => none
  | .mutate id t =>
      match s.objects id with
      | some (.live _) => some { s with objects := Function.update s.objects id (some (.live t)) }
      | _ => none
  | .write a b => some { s with mem := Function.update s.mem a b }
  | .die id =>
      match s.objects id with
      | some (.live _) => some { s with objects := Function.update s.objects id (some .dying) }
      | _ => none
  | .finalize id =>
      match s.objects id with
      | some .dying =>
          if 0 < s.finalizers id then some { s with
            finalizers := Function.update s.finalizers id (s.finalizers id - 1)
            cache := evictBuffer s.cache id }
          else none
      | _ => none
  | .free id =>
      match s.objects id with
      | some .dying =>
          if s.finalizers id = 0 then
            some { s with objects := Function.update s.objects id none }
          else none
      | _ => none
  | .call id =>
      match s.objects id with
      | some (.live t) => some (s.cachedBufferFor id t).2
      | _ => none

def system (mem : Int → β) : System (Sys β) (Event β) where
  Init s := s = Sys.boot mem
  next := next

/-! ## Coherence -/

/-- The buffer of a tensor: its shape and dtype, and its memory or a copy of its elements. -/
def Coherent (mem : Int → β) (t : Tensor) (b : Buffer β) : Prop :=
  b.shape = t.shape ∧ b.dtype = t.dtype ∧
    match b with
    | .aliased _ _ ptr => ptr = t.dataPtr ∧ t.isContiguous = true
    | .copied _ _ contents => contents = t.contents mem

/-- A graph reads the elements of the tensor, whatever was written to memory since. -/
theorem Coherent.contents_eq {mem : Int → β} {t : Tensor} {b : Buffer β} (h : Coherent mem t b) :
    b.contents mem = t.contents mem := by
  obtain ⟨hshape, hdtype, hmem⟩ := h
  cases b with
  | copied shape dtype contents => exact hmem
  | aliased shape dtype ptr =>
      obtain rfl : shape = t.shape := hshape
      obtain rfl : dtype = t.dtype := hdtype
      obtain ⟨rfl, hcontig⟩ := hmem
      change (List.range t.shape.prod).map _ = (indices t.shape).map (t.view mem).elem
      rw [← map_flatIndex, List.map_map]
      refine List.map_congr_left fun x hx => ?_
      have halong : along t.strides x = flatIndex t.shape x :=
        (t.view mem).along_of_contig hcontig hx
      change item mem _ _ _ = item mem _ _ (0 + along t.strides x)
      rw [halong, Int.zero_add]

/-- What the cache knows of one object: what a live one was when its buffer was cached; the entry of
another is gone, or will go with a finalizer. -/
def Known : Option Object → Nat → Option (Buffer β × Nat) → Option Tensor → Prop
  | none, finalizers, entry, _ => entry = none ∧ finalizers = 0
  | some .dying, finalizers, entry, _ => entry ≠ none → 0 < finalizers
  | some (.live _), finalizers, entry, imported =>
      entry = imported.map (fun m => (fromDlpack m, m.dataPtr)) ∧ (imported ≠ none → 0 < finalizers)

def Inv (s : Sys β) : Prop :=
  ∀ id, Known (s.objects id) (s.finalizers id) (s.cache id) (s.imported id)

theorem Inv.boot (mem : Int → β) : Inv (Sys.boot mem) := fun _ => ⟨rfl, rfl⟩

/-- A step that concerns one object. -/
theorem Inv.of_others {s s' : Sys β} (h : Inv s) {id : Nat}
    (hobjects : ∀ j ≠ id, s'.objects j = s.objects j)
    (hfinalizers : ∀ j ≠ id, s'.finalizers j = s.finalizers j)
    (hcache : ∀ j ≠ id, s'.cache j = s.cache j)
    (himported : ∀ j ≠ id, s'.imported j = s.imported j)
    (hid : Known (s'.objects id) (s'.finalizers id) (s'.cache id) (s'.imported id)) : Inv s' := by
  intro j
  by_cases hj : j = id
  · exact hj ▸ hid
  · rw [hobjects j hj, hfinalizers j hj, hcache j hj, himported j hj]
    exact h j

/-- Another state of the object. -/
theorem Inv.object {s : Sys β} (h : Inv s) (id : Nat) {o : Option Object}
    (hid : Known o (s.finalizers id) (s.cache id) (s.imported id)) :
    Inv { s with objects := Function.update s.objects id o } := by
  refine h.of_others (fun j hj => Function.update_of_ne hj _ _) (fun _ _ => rfl) (fun _ _ => rfl)
    (fun _ _ => rfl) ?_
  dsimp only
  rwa [Function.update_self]

theorem Inv.create {s : Sys β} (h : Inv s) {id : Nat} (t : Tensor) (hid : s.objects id = none) :
    Inv { s with
      objects := Function.update s.objects id (some (.live t))
      imported := Function.update s.imported id none } := by
  refine h.of_others (fun j hj => Function.update_of_ne hj _ _) (fun _ _ => rfl) (fun _ _ => rfl)
    (fun j hj => Function.update_of_ne hj _ _) ?_
  have hgone := h id
  rw [hid] at hgone
  dsimp only
  rw [Function.update_self, Function.update_self]
  exact ⟨hgone.1, fun hne => absurd rfl hne⟩

theorem Inv.importTensor {s : Sys β} (h : Inv s) {id : Nat} {t : Tensor}
    (hid : s.objects id = some (.live t)) : Inv (s.importTensor id t).2 := by
  refine h.of_others (fun _ _ => rfl) (fun j hj => Function.update_of_ne hj _ _)
    (fun j hj => Function.update_of_ne hj _ _) (fun j hj => Function.update_of_ne hj _ _) ?_
  change Known (s.objects id) (Function.update s.finalizers id _ id)
    (Function.update s.cache id _ id) (Function.update s.imported id _ id)
  rw [hid, Function.update_self, Function.update_self, Function.update_self]
  exact ⟨rfl, fun _ => Nat.succ_pos _⟩

theorem Inv.cachedBufferFor {s : Sys β} (h : Inv s) {id : Nat} {t : Tensor}
    (hid : s.objects id = some (.live t)) : Inv (s.cachedBufferFor id t).2 := by
  unfold Sys.cachedBufferFor
  split
  · exact h
  · split
    · split
      · exact h
      · exact h.importTensor hid
    · exact h.importTensor hid

theorem Inv.next {s s' : Sys β} (h : Inv s) {e : Event β}
    (hnext : BufferCache.next s e = some s') : Inv s' := by
  cases e with
  | create id t =>
      unfold BufferCache.next at hnext
      dsimp only at hnext
      split at hnext
      · rename_i hid
        obtain rfl := Option.some.inj hnext
        exact h.create t hid
      · exact nomatch hnext
  | mutate id t =>
      unfold BufferCache.next at hnext
      dsimp only at hnext
      split at hnext
      · rename_i u hid
        obtain rfl := Option.some.inj hnext
        have hknown := h id
        rw [hid] at hknown
        exact h.object id hknown
      · exact nomatch hnext
  | write a b =>
      obtain rfl := Option.some.inj hnext
      exact h
  | die id =>
      unfold BufferCache.next at hnext
      dsimp only at hnext
      split at hnext
      · rename_i u hid
        obtain rfl := Option.some.inj hnext
        obtain ⟨hentry, hfinalizers⟩ : Known (some (Object.live u)) _ _ _ := hid ▸ h id
        -- an entry has a finalizer
        refine h.object id fun hne => hfinalizers fun hnone => hne ?_
        rw [hentry, hnone]
        rfl
      · exact nomatch hnext
  | finalize id =>
      unfold BufferCache.next at hnext
      dsimp only at hnext
      split at hnext
      · rename_i hid
        split at hnext
        · obtain rfl := Option.some.inj hnext
          refine h.of_others (fun _ _ => rfl) (fun j hj => Function.update_of_ne hj _ _)
            (fun j hj => Function.update_of_ne hj _ _) (fun _ _ => rfl) ?_
          change Known (s.objects id) _ (Function.update s.cache id none id) _
          rw [hid, Function.update_self]
          exact fun hne => absurd rfl hne
        · exact nomatch hnext
      · exact nomatch hnext
  | free id =>
      unfold BufferCache.next at hnext
      dsimp only at hnext
      split at hnext
      · rename_i hid
        split at hnext
        · rename_i hzero
          obtain rfl := Option.some.inj hnext
          have hknown : Known (some Object.dying) _ _ _ := hid ▸ h id
          refine h.object id ⟨?_, hzero⟩
          by_contra hne
          have := hknown hne
          omega
        · exact nomatch hnext
      · exact nomatch hnext
  | call id =>
      unfold BufferCache.next at hnext
      dsimp only at hnext
      split at hnext
      · rename_i t hid
        obtain rfl := Option.some.inj hnext
        exact h.cachedBufferFor hid
      · exact nomatch hnext

theorem Inv.of_reachable {mem : Int → β} {s : Sys β} (hs : (system mem).Reachable s) : Inv s :=
  hs.invariant (fun _ h => h ▸ Inv.boot mem) fun _ _ _ _ h hnext => h.next hnext

/-! ## Calls -/

/-- What a call returns. -/
theorem cachedBufferFor_eq {s : Sys β} (h : Inv s) {id : Nat} {t : Tensor}
    (hid : s.objects id = some (.live t)) : (s.cachedBufferFor id t).1 =
      if ¬ t.Direct then .copied t.shape t.dtype (t.contents s.mem)
      else
        match s.imported id with
        | some m => if m.dataPtr = t.dataPtr then fromDlpack m else fromDlpack t
        | none => fromDlpack t := by
  have hknown := h id
  rw [hid] at hknown
  unfold Sys.cachedBufferFor
  by_cases hdirect : t.Direct
  · rw [if_neg (not_not.mpr hdirect), if_neg (not_not.mpr hdirect), hknown.1]
    cases s.imported id with
    | none => rfl
    | some m =>
        dsimp only [Option.map_some]
        split <;> rfl
  · rw [if_pos hdirect, if_pos hdirect]

theorem coherent_fromDlpack {mem : Int → β} {t : Tensor} (h : t.Direct) :
    Coherent mem t (fromDlpack t) := ⟨rfl, rfl, rfl, h.1⟩

/-- A call returns memory at the tensor's own pointer, or a copy of what the tensor holds; its
shape and dtype are right exactly if the tensor cannot be taken as it is, or did not get another
shape or dtype at the pointer with which its buffer was cached last. -/
theorem cached_buffer_coherent {mem : Int → β} {s : Sys β} (hs : (system mem).Reachable s)
    {id : Nat} {t : Tensor} (hid : s.objects id = some (.live t)) :
    (∀ shape dtype ptr, (s.cachedBufferFor id t).1 = .aliased shape dtype ptr →
        ptr = t.dataPtr ∧ t.isContiguous = true) ∧
      (Coherent s.mem t (s.cachedBufferFor id t).1 ↔
        (t.Direct → ∀ m, s.imported id = some m → m.dataPtr = t.dataPtr →
          m.shape = t.shape ∧ m.dtype = t.dtype)) := by
  rw [cachedBufferFor_eq (.of_reachable hs) hid]
  by_cases hdirect : t.Direct
  · rw [if_neg (not_not.mpr hdirect)]
    cases hm : s.imported id with
    | none =>
        refine ⟨fun shape dtype ptr heq => ?_, iff_of_true (coherent_fromDlpack hdirect) ?_⟩
        · obtain ⟨-, -, rfl⟩ := Buffer.aliased.inj heq
          exact ⟨rfl, hdirect.1⟩
        · exact fun _ m heq => nomatch heq
    | some m =>
        dsimp only
        by_cases hptr : m.dataPtr = t.dataPtr
        · rw [if_pos hptr]
          refine ⟨fun shape dtype ptr heq => ?_, fun h _ m' heq _ => ?_, fun h => ?_⟩
          · obtain ⟨-, -, rfl⟩ := Buffer.aliased.inj heq
            exact ⟨hptr, hdirect.1⟩
          · obtain rfl := Option.some.inj heq
            exact ⟨h.1, h.2.1⟩
          · obtain ⟨hshape, hdtype⟩ := h hdirect m rfl hptr
            exact ⟨hshape, hdtype, hptr, hdirect.1⟩
        · rw [if_neg hptr]
          refine ⟨fun shape dtype ptr heq => ?_, iff_of_true (coherent_fromDlpack hdirect) ?_⟩
          · obtain ⟨-, -, rfl⟩ := Buffer.aliased.inj heq
            exact ⟨rfl, hdirect.1⟩
          · intro _ m' heq hsame
            obtain rfl := Option.some.inj heq
            exact absurd hsame hptr
  · rw [if_pos hdirect]
    refine ⟨fun shape dtype ptr heq => ?_, iff_of_true ⟨rfl, rfl, rfl⟩ fun h => absurd h hdirect⟩
    exact nomatch heq

/-- A matrix at the address 64. -/
def matrix : Tensor := ⟨[2, 3], [3, 1], ⟨0, 4⟩, 64, rfl⟩

/-- The matrix after `unsqueeze_(0)`. -/
def unsqueezed : Tensor := ⟨[1, 2, 3], [6, 3, 1], ⟨0, 4⟩, 64, rfl⟩

def imported : Sys Unit :=
  ⟨fun _ => (), Function.update (fun _ => none) 0 (some (.live matrix)),
    Function.update (fun _ => 0) 0 1,
    Function.update (fun _ => none) 0 (some (fromDlpack matrix, 64)),
    Function.update (Function.update (fun _ => none) 0 none) 0 (some matrix)⟩

theorem reachable_imported : (system fun _ => ()).Reachable imported :=
  ⟨Sys.boot _, [.create 0 matrix, .call 0], rfl, rfl⟩

theorem cached_buffer_coherent_matrix :
    Coherent imported.mem matrix (imported.cachedBufferFor 0 matrix).1 := by
  refine (cached_buffer_coherent reachable_imported rfl).2.mpr fun _ m hm _ => ?_
  obtain rfl := Option.some.inj hm
  exact ⟨rfl, rfl⟩

/-- A hit returns the shape that the tensor had when it was cached. -/
theorem cached_buffer_stale : ∃ s : Sys Unit, (system fun _ => ()).Reachable s ∧
    s.objects 0 = some (.live unsqueezed) ∧
    (s.cachedBufferFor 0 unsqueezed).1 = .aliased [2, 3] ⟨0, 4⟩ 64 ∧
    ¬ Coherent s.mem unsqueezed (s.cachedBufferFor 0 unsqueezed).1 := by
  refine ⟨_, reachable_imported.step (e := .mutate 0 unsqueezed) rfl, rfl, rfl, fun h => ?_⟩
  exact absurd h.1 (by decide)

end TorchMojoBackend.Compiler.BufferCache
