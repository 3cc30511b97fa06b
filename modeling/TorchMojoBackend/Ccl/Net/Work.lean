/-
  `Ccl.Net.Work`: the work item of one inter-node exchange.

  Source: tmb/ccl/transport/net.mojo (`IbWork`, `_work`, `_fill_work`).

  A work item is what the caller of `_fill_work` passes, extended by the words
  the engine writes.  The field `t0` of the trace is kept because `_fill_work`
  stores it between fields the engine reads.
-/
import TorchMojoBackend.Foundation.RingBuffer
import Mathlib.Data.List.Basic

set_option autoImplicit false

namespace TorchMojoBackend.Ccl.Net

open TorchMojoBackend.Foundation

/-- Cells of the work ring. -/
def WORK_SLOTS : Nat := 512

/-- The arguments of `_fill_work`, and the communicator `ib` it stores. -/
structure Descriptor where
  state : Int
  sendAddr : Int
  sendBytes : Int
  sendNodeStride : Int
  inboxBase : Int
  slotBytes : Int
  doSend : Bool
  nrecv : Nat
  flushAddr : Int
  seq : Nat
  creditUpto : Nat
  opKind : Nat
  opChunk : Nat
  opNchunks : Nat
  opNumel : Nat
  deriving DecidableEq, Repr

/-- `IbWork`: `status` is 0 while the exchange runs, 1 when it is done, 2 when
it failed. -/
structure IbWork extends Descriptor where
  status : Nat
  sent : Bool
  t0 : Int
  deriving DecidableEq, Repr

/-- The exchange of the cell is running. -/
def IbWork.Running (w : IbWork) : Prop := w.status = 0

/-- `IbWork.__init__`: the status of an unused cell is 1. -/
def IbWork.boot : IbWork where
  state := 0
  sendAddr := 0
  sendBytes := 0
  sendNodeStride := 0
  inboxBase := 0
  slotBytes := 0
  doSend := false
  nrecv := 0
  flushAddr := 0
  seq := 0
  creditUpto := 0
  opKind := 0
  opChunk := 0
  opNchunks := 0
  opNumel := 0
  status := 1
  sent := false
  t0 := 0

/-- `_work`: the cell exchange `seq` lives in. -/
def workSlot (seq : Nat) : Nat := ringSlot WORK_SLOTS seq

/-! ## Filling a work item -/

/-- The stores of `_fill_work` before the last one, in program order. -/
def fillStores (d : Descriptor) : List (IbWork → IbWork) :=
  [fun w => { w with state := d.state },
   fun w => { w with sendAddr := d.sendAddr },
   fun w => { w with sendBytes := d.sendBytes },
   fun w => { w with sendNodeStride := d.sendNodeStride },
   fun w => { w with inboxBase := d.inboxBase },
   fun w => { w with slotBytes := d.slotBytes },
   fun w => { w with doSend := d.doSend },
   fun w => { w with nrecv := d.nrecv },
   fun w => { w with flushAddr := d.flushAddr },
   fun w => { w with seq := d.seq },
   fun w => { w with creditUpto := d.creditUpto },
   fun w => { w with sent := false },
   fun w => { w with t0 := 0 },
   fun w => { w with opKind := d.opKind },
   fun w => { w with opChunk := d.opChunk },
   fun w => { w with opNchunks := d.opNchunks },
   fun w => { w with opNumel := d.opNumel }]

/-- The cell after the first `k` stores of `_fill_work`. -/
def stored (d : Descriptor) (k : Nat) (w : IbWork) : IbWork :=
  ((fillStores d).take k).foldl (fun w f => f w) w

/-- The last store of `_fill_work`: the cell belongs to the engine. -/
def publish (w : IbWork) : IbWork := { w with status := 0 }

/-- The work item `_fill_work` leaves behind. -/
def fillWork (d : Descriptor) : IbWork where
  toDescriptor := d
  status := 0
  sent := false
  t0 := 0

@[simp] theorem fillStores_length (d : Descriptor) : (fillStores d).length = 17 := rfl

@[simp] theorem stored_zero (d : Descriptor) (w : IbWork) : stored d 0 w = w := rfl

theorem stored_succ (d : Descriptor) (w : IbWork) {k : Nat} {f : IbWork → IbWork}
    (hf : (fillStores d)[k]? = some f) : stored d (k + 1) w = f (stored d k w) := by
  unfold stored
  rw [List.take_add_one, hf, List.foldl_append]
  rfl

/-- No store before the last one touches the status. -/
theorem fillStores_status (d : Descriptor) {f : IbWork → IbWork} (hf : f ∈ fillStores d)
    (w : IbWork) : (f w).status = w.status := by
  simp only [fillStores, List.mem_cons, List.not_mem_nil, or_false] at hf
  rcases hf with rfl | rfl | rfl | rfl | rfl | rfl | rfl | rfl | rfl | rfl | rfl | rfl |
    rfl | rfl | rfl | rfl | rfl <;> rfl

/-- Whatever the cell held, all the stores together leave the described item. -/
theorem publish_stored (d : Descriptor) (w : IbWork) {k : Nat}
    (hk : (fillStores d)[k]? = none) : publish (stored d k w) = fillWork d := by
  have hk : (fillStores d).length ≤ k := List.getElem?_eq_none_iff.mp hk
  unfold stored
  rw [List.take_of_length_le hk]
  rfl

end TorchMojoBackend.Ccl.Net
