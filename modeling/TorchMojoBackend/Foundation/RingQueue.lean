/-
  `Foundation.RingQueue`: a first-in first-out queue in a ring of cells.

  Everything in this file is independent of the modelled program.  The queue keeps the
  cell of its first item and a count; cells wrap around at the size.  Its contents are a
  list, to which a push appends and from which a pop takes the first.
-/
import Mathlib.Logic.Function.Basic
import Mathlib.Data.List.Range
import Mathlib.Data.Nat.ModEq

set_option autoImplicit false

namespace TorchMojoBackend.Foundation

universe u

structure RingQueue (α : Type u) where
  cells : Nat → α
  head : Nat
  count : Nat

namespace RingQueue

variable {α : Type u} {size : Nat} {q : RingQueue α}

/-- The items, first to last. -/
def contents (size : Nat) (q : RingQueue α) : List α :=
  (List.range q.count).map fun i => q.cells ((q.head + i) % size)

def push (size : Nat) (q : RingQueue α) (x : α) : RingQueue α :=
  { q with
    cells := Function.update q.cells ((q.head + q.count) % size) x
    count := q.count + 1 }

def pop (size : Nat) (q : RingQueue α) : Option (α × RingQueue α) :=
  if q.count = 0 then none
  else some (q.cells (q.head % size), { q with head := (q.head + 1) % size, count := q.count - 1 })

@[simp] theorem length_contents (size : Nat) (q : RingQueue α) :
    (q.contents size).length = q.count := by
  rw [contents, List.length_map, List.length_range]

/-- With room, a push appends. -/
theorem contents_push (hroom : q.count < size) (x : α) :
    (q.push size x).contents size = q.contents size ++ [x] := by
  unfold contents push
  dsimp only
  rw [List.range_succ, List.map_append, List.map_singleton, Function.update_self]
  refine congrArg (· ++ [x]) (List.map_congr_left fun i hi => ?_)
  have hlt := List.mem_range.mp hi
  refine Function.update_of_ne (fun heq => ?_) _ _
  -- two cells less than a turn apart
  have hmod : i % size = q.count % size := Nat.ModEq.add_left_cancel' q.head heq
  rw [Nat.mod_eq_of_lt (by omega), Nat.mod_eq_of_lt hroom] at hmod
  omega

/-- A pop takes the first item. -/
theorem contents_pop {x : α} {q' : RingQueue α} (h : q.pop size = some (x, q')) :
    q.contents size = x :: q'.contents size := by
  unfold pop at h
  split at h
  · exact nomatch h
  · rename_i hcount
    obtain ⟨rfl, rfl⟩ := Prod.mk.inj (Option.some.inj h)
    obtain ⟨n, hn⟩ := Nat.exists_eq_succ_of_ne_zero hcount
    unfold contents
    rw [hn, Nat.succ_eq_add_one, List.range_succ_eq_map, List.map_cons, Nat.add_zero, List.map_map,
      Nat.add_sub_cancel]
    refine congrArg (_ :: ·) (List.map_congr_left fun i _ => ?_)
    rw [Function.comp_apply, Nat.mod_add_mod, Nat.succ_eq_add_one, Nat.add_assoc q.head,
      Nat.add_comm 1]

theorem pop_eq_none : q.pop size = none ↔ q.contents size = [] := by
  unfold pop
  rw [← List.length_eq_zero_iff, length_contents]
  split
  · rename_i hzero
    exact iff_of_true rfl hzero
  · rename_i hcount
    exact iff_of_false (fun h => nomatch h) hcount

end RingQueue

end TorchMojoBackend.Foundation
