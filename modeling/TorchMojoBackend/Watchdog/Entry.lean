/-
  `Watchdog.Entry`: what the watchdog keeps of a library call, and how the calls
  of an NCCL group are folded into one entry.

  Every call carries a fingerprint of its arguments and, when it is one of the
  collectives every rank issues alike, its position among those.  An entry of a
  group keeps what its calls have in common, their number, their elements
  together, the position of the first compared one and a fingerprint of their
  fingerprints in order.
-/
import Mathlib.Algebra.Group.Int.Defs
import Mathlib.Algebra.Group.Nat.Defs
import Mathlib.Data.List.Induction

set_option autoImplicit false

namespace TorchMojoBackend.Watchdog

/-- The `OP_` constants; `none` is the 0 of an empty entry. -/
inductive Op where
  | none
  | allreduce
  | broadcast
  | reduce
  | allgather
  | reduceScatter
  | send
  | recv
  | sendrecv
  | group
  deriving DecidableEq, Repr

/-- The value of an `OP_` constant. -/
def Op.code : Op → Int
  | .none => 0
  | .allreduce => 1
  | .broadcast => 2
  | .reduce => 3
  | .allgather => 4
  | .reduceScatter => 5
  | .send => 6
  | .recv => 7
  | .sendrecv => 8
  | .group => 9

/-- `_compared`: the collectives every rank issues with the same arguments. -/
def Op.compared : Op → Bool
  | .allreduce | .broadcast | .reduce | .allgather | .reduceScatter => true
  | _ => false

/-- `op >= OP_SEND and op <= OP_SENDRECV` -/
def Op.pointToPoint : Op → Bool
  | .send | .recv | .sendrecv => true
  | _ => false

/-- A watched library call, or the calls of a group folded together. -/
structure Entry where
  op : Op
  nops : Nat
  count : Int
  dtype : Int
  root : Int
  redop : Int
  fp : UInt64
  cpos : Nat
  deriving DecidableEq

/-- `_empty_entry` -/
def Entry.empty : Entry := ⟨.none, 0, 0, 0, -1, -1, 0, 0⟩

/-- `_mix`: a step of FNV-1a on the low 32 bits of `x`. -/
def mix (h : UInt64) (x : Int) : UInt64 :=
  (h ^^^ UInt64.ofNat (x % 2 ^ 32).toNat) * 1099511628211

/-- `call_fp` -/
def callFp (op : Op) (count dtype root redop : Int) : UInt64 :=
  let h : UInt64 := 14695981039346656037
  let h := mix h op.code
  let h := mix h count
  let h := mix h (count / 2 ^ 32)
  let h := mix h dtype
  let h := mix h (root + 1)
  mix h (redop + 1)

/-- The operation of an entry `g` joined by a call of `e`. -/
def Op.fold (g e : Op) : Op :=
  if g = e then g
  else if (g = .send ∨ g = .recv ∨ g = .sendrecv) ∧ (e = .send ∨ e = .recv) then .sendrecv
  else .group

/-- `_fold` -/
def Entry.fold (g e : Entry) : Entry :=
  if g.nops = 0 then e
  else
    { op := g.op.fold e.op
      nops := g.nops + e.nops
      count := g.count + e.count
      dtype := g.dtype
      root := if g.root = e.root then g.root else -1
      redop := if g.redop = e.redop then g.redop else -1
      fp := mix (mix g.fp (e.fp.toNat % 2 ^ 32)) (e.fp.toNat / 2 ^ 32)
      cpos := if g.cpos = 0 then e.cpos else g.cpos }

/-- The entry of a group's calls in order. -/
def Entry.foldAll (calls : List Entry) : Entry := calls.foldl Entry.fold Entry.empty

@[simp] theorem Entry.foldAll_nil : Entry.foldAll [] = Entry.empty := rfl

theorem Entry.foldAll_concat (calls : List Entry) (e : Entry) :
    Entry.foldAll (calls ++ [e]) = (Entry.foldAll calls).fold e := by
  simp [Entry.foldAll]

@[simp] theorem Entry.empty_fold (e : Entry) : Entry.empty.fold e = e := rfl

@[simp] theorem Entry.foldAll_singleton (e : Entry) : Entry.foldAll [e] = e := rfl

/-- An entry counts its calls. -/
theorem Entry.foldAll_nops (calls : List Entry) (h : ∀ e ∈ calls, e.nops = 1) :
    (Entry.foldAll calls).nops = calls.length := by
  induction calls using List.reverseRecOn with
  | nil => rfl
  | append_singleton calls e ih =>
      have hcalls := ih fun e he => h e (List.mem_append_left _ he)
      have he : e.nops = 1 := h e (List.mem_append_right _ List.mem_cons_self)
      rw [Entry.foldAll_concat, Entry.fold, List.length_append, List.length_singleton]
      split
      · rename_i hzero
        rw [he, ← hcalls, hzero]
      · rw [← hcalls, he]

end TorchMojoBackend.Watchdog
