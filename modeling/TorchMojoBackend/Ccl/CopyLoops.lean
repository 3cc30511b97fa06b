/-
  `Ccl.CopyLoops`: the loops that the threads of a grid copy with.

  Source: tmb/ccl/device/symmetric/data_ops.mojo (`_copy_vec`, `_copy_scalar_tail`, `_copy_bytes`,
  `_copy_bytes2`, `_copy_span`, `_copy_span_flex`).

  A thread is the list of its accesses, each of which loads some elements from the source and
  stores them at the same offset of the destination.  Which elements a thread moves does not
  depend on how wide its accesses are.
-/
import TorchMojoBackend.Ccl.ReduceScatter

set_option autoImplicit false

namespace TorchMojoBackend.Ccl.CopyLoops

open TorchMojoBackend.Foundation
open TorchMojoBackend.Ccl.ReduceScatter

/-- A load and a store of `width` elements from `off` on. -/
structure Move where
  off : Nat
  width : Nat
  deriving DecidableEq, Repr

/-- The elements that accesses move. -/
def moved (ms : List Move) : List Nat := ms.flatMap fun m => (List.range m.width).map fun e => m.off + e

/-- `_copy_vec` -/
def _copy_vec (W U nvec tid stride : Nat) : List Move :=
  (copyVecItems U nvec stride nvec tid).map fun v => ⟨v * W, W⟩

/-- `_copy_scalar_tail` -/
def _copy_scalar_tail (base count tid stride : Nat) : List Move :=
  (strided count stride count tid).map fun i => ⟨base + i, 1⟩

/-- The accesses of `_copy_bytes` and `_copy_bytes2`; `addresses` has every bit that is set in the address
of a source or a destination. -/
def copyChunks (U addresses nbytes tid stride : Nat) : List Move :=
  let nvec := nbytes / 16
  (if addresses % 16 = 0 then _copy_vec 16 U nvec tid stride
    else if addresses % 4 = 0 then
      (strided nvec stride nvec tid).flatMap fun v => (List.range 4).map fun j => ⟨(v * 4 + j) * 4, 4⟩
    else (strided nvec stride nvec tid).flatMap fun v => (List.range 16).map fun j => ⟨v * 16 + j, 1⟩) ++
    _copy_scalar_tail (nvec * 16) (nbytes - nvec * 16) tid stride

/-- `_copy_bytes` -/
def _copy_bytes (U dst src nbytes tid stride : Nat) : List Move := copyChunks U (dst ||| src) nbytes tid stride

/-- `_copy_bytes2`: every access stores to both destinations. -/
def _copy_bytes2 (U dst_a dst_b src nbytes tid stride : Nat) : List Move :=
  copyChunks U (dst_a ||| dst_b ||| src) nbytes tid stride

/-- `_copy_span` -/
def _copy_span (W U count tid stride : Nat) : List Move :=
  let vc := count / W
  _copy_vec W U vc tid stride ++ _copy_scalar_tail (vc * W) (count - vc * W) tid stride

/-- `_copy_span_flex` -/
def _copy_span_flex (W U count tid stride : Nat) (vec : Bool) : List Move :=
  if vec then _copy_span W U count tid stride
  else
    let vc := count / W
    ((strided vc stride vc tid).flatMap fun v => (List.range W).map fun e => ⟨v * W + e, 1⟩) ++
      _copy_scalar_tail (vc * W) (count - vc * W) tid stride

/-! ## The elements of a thread -/

theorem moved_append (ms ms' : List Move) : moved (ms ++ ms') = moved ms ++ moved ms' := List.flatMap_append

/-- Accesses of one element. -/
theorem moved_singles {α : Type} (l : List α) (f : α → Nat) : moved (l.map fun i => ⟨f i, 1⟩) = l.map f := by
  induction l with
  | nil => rfl
  | cons i l ih =>
      rw [List.map_cons, List.map_cons, ← ih]
      rfl

theorem moved_flatMap {α : Type} (l : List α) (f : α → List Move) :
    moved (l.flatMap f) = l.flatMap fun i => moved (f i) := List.flatMap_assoc

theorem moved_tail (base count tid stride : Nat) :
    moved (_copy_scalar_tail base count tid stride) = (strided count stride count tid).map (base + ·) :=
  moved_singles _ _

variable {U stride : Nat} (hU : 0 < U) (hstride : 0 < stride)

include hU hstride in
theorem moved_vec (W nvec tid : Nat) :
    moved (_copy_vec W U nvec tid stride) = (strided nvec stride nvec tid).flatMap (group W) := by
  unfold _copy_vec
  rw [copyVecItems_eq hU hstride (Nat.le_add_left _ _)]
  exact List.flatMap_map _ _ _

/-- The accesses of a chunk, however wide, are those of its bytes in order. -/
theorem moved_words (v : Nat) : moved ((List.range 4).map fun j => ⟨(v * 4 + j) * 4, 4⟩) = group 16 v := by
  have hword : ∀ j, (v * 4 + j) * 4 = v * 16 + j * 4 := fun j => by omega
  simp only [hword]
  unfold moved group
  rw [List.flatMap_map, show List.range 16 = (List.range 4).flatMap fun j => (List.range 4).map fun e => j * 4 + e from rfl,
    List.map_flatMap]
  refine List.flatMap_congr fun j _ => ?_
  rw [List.map_map]
  exact List.map_congr_left fun e _ => Nat.add_assoc _ _ _

include hU hstride in
theorem moved_chunks (addresses nbytes tid : Nat) :
    moved (copyChunks U addresses nbytes tid stride) = reduceItems 16 nbytes stride tid := by
  unfold copyChunks reduceItems scalarTail
  dsimp only
  rw [moved_append, moved_tail]
  congr 1
  split
  · exact moved_vec hU hstride 16 _ tid
  · split
    · rw [moved_flatMap]
      exact List.flatMap_congr fun v _ => moved_words v
    · rw [moved_flatMap]
      exact List.flatMap_congr fun v _ => moved_singles _ _

include hU hstride in
theorem moved_span_flex (W count tid : Nat) (vec : Bool) :
    moved (_copy_span_flex W U count tid stride vec) = reduceItems W count stride tid := by
  unfold _copy_span_flex _copy_span reduceItems scalarTail
  cases vec with
  | true =>
      rw [if_pos rfl]
      dsimp only
      rw [moved_append, moved_tail, moved_vec hU hstride]
  | false =>
      rw [if_neg Bool.false_ne_true]
      dsimp only
      rw [moved_append, moved_tail, moved_flatMap]
      congr 1
      exact List.flatMap_congr fun v _ => moved_singles _ _

/-! ## The threads together -/

/-- The threads copy `count` elements: each element once, by the thread that owns its group of `W`. -/
structure Copies (W count stride : Nat) (accesses : Nat → List Move) : Prop where
  once : ((List.range stride).flatMap fun tid => moved (accesses tid)).Perm (List.range count)
  owned : ∀ tid < stride, ∀ k, k ∈ moved (accesses tid) ↔ k < count ∧ owner W count stride k = tid
  copied : ∀ (α : Type) (data : Nat → α) (dst : Int) (mem mem' : Int → α),
    Stores ((List.range stride).flatMap fun tid => (moved (accesses tid)).map fun k : Nat => ((dst + k : Int), data k))
      mem mem' →
    (∀ k < count, mem' (dst + k) = data k) ∧ ∀ a, (∀ k < count, a ≠ dst + k) → mem' a = mem a

include hstride in
theorem copies_of_moved {W count : Nat} (hW : 0 < W) {accesses : Nat → List Move}
    (h : ∀ tid, moved (accesses tid) = reduceItems W count stride tid) : Copies W count stride accesses := by
  have howned : ∀ tid < stride, ∀ k, k ∈ moved (accesses tid) ↔ k < count ∧ owner W count stride k = tid :=
    fun tid htid k => by rw [h, mem_reduceItems hW hstride htid]
  have hperm : ((List.range stride).flatMap fun tid => moved (accesses tid)).Perm (List.range count) := by
    refine (List.perm_ext_iff_of_nodup ?_ List.nodup_range).mpr fun k => ?_
    · refine List.nodup_flatMap.mpr ⟨fun tid _ => by rw [h]; exact reduceItems_nodup hstride, ?_⟩
      refine List.nodup_range.imp_of_mem fun {tid tid'} ht ht' hne k hk hk' => ?_
      exact hne (((howned _ (List.mem_range.mp ht) k).mp hk).2.symm.trans
        ((howned _ (List.mem_range.mp ht') k).mp hk').2)
    · rw [List.mem_flatMap, List.mem_range]
      constructor
      · rintro ⟨tid, ht, hk⟩
        exact ((howned _ (List.mem_range.mp ht) k).mp hk).1
      · intro hk
        have hlt : owner W count stride k < stride := by
          unfold owner
          split <;> exact Nat.mod_lt _ hstride
        exact ⟨_, List.mem_range.mpr hlt, (howned _ hlt k).mpr ⟨hk, rfl⟩⟩
  refine ⟨hperm, howned, fun α data dst mem mem' hstores => ?_⟩
  rw [← List.map_flatMap] at hstores
  have hmap : Stores ((List.range count).map fun k : Nat => ((dst + k : Int), data k)) mem mem' :=
    hstores.congr fun w => (hperm.map _).mem_iff
  refine ⟨fun k hk => hmap.map_at (fun i _ j _ heq => Int.ofNat.inj (Int.add_left_cancel heq)) (List.mem_range.mpr hk),
    fun a ha => hmap.off fun b hb => ?_⟩
  obtain ⟨k, hk, heq⟩ := List.mem_map.mp hb
  exact ha k (List.mem_range.mp hk) (Prod.mk.inj heq).1.symm

/-- Every loop copies every element once, and no element's thread depends on the path. -/
theorem copy_loops_exact (hU : 0 < U) {blocks threads : Nat} (hblocks : 0 < blocks) (hthreads : 0 < threads) :
    (∀ W nvec, 0 < W → Copies W (nvec * W) (blocks * threads) fun tid => _copy_vec W U nvec tid (blocks * threads)) ∧
      (∀ dst src nbytes, Copies 16 nbytes (blocks * threads) fun tid =>
        _copy_bytes U dst src nbytes tid (blocks * threads)) ∧
      (∀ dst_a dst_b src nbytes, Copies 16 nbytes (blocks * threads) fun tid =>
        _copy_bytes2 U dst_a dst_b src nbytes tid (blocks * threads)) ∧
      ∀ W count vec, 0 < W → Copies W count (blocks * threads) fun tid =>
        _copy_span_flex W U count tid (blocks * threads) vec := by
  have hstride : 0 < blocks * threads := Nat.mul_pos hblocks hthreads
  refine ⟨fun W nvec hW => ?_, fun dst src nbytes => ?_, fun dst_a dst_b src nbytes => ?_, fun W count vec hW => ?_⟩
  · refine copies_of_moved hstride hW fun tid => ?_
    rw [moved_vec hU hstride, reduceItems, Nat.mul_div_cancel _ hW, scalarTail, Nat.mul_div_cancel _ hW, Nat.sub_self]
    exact (List.append_nil _).symm
  · exact copies_of_moved hstride (by decide) fun tid => moved_chunks hU hstride _ _ _
  · exact copies_of_moved hstride (by decide) fun tid => moved_chunks hU hstride _ _ _
  · exact copies_of_moved hstride hW fun tid => moved_span_flex hU hstride _ _ _ _

/-- 50 bytes between addresses that differ by one, in two blocks of three threads. -/
theorem copy_loops_exact_unaligned : Copies 16 50 (2 * 3) fun tid => _copy_bytes 4 4096 8193 50 tid (2 * 3) :=
  (@copy_loops_exact 4 (by decide) 2 3 (by decide) (by decide)).2.1 4096 8193 50

/-! ## Alignment -/

theorem or_mod_eq_zero {a b k : Nat} (h : (a ||| b) % 2 ^ k = 0) : a % 2 ^ k = 0 ∧ b % 2 ^ k = 0 := by
  rw [Nat.or_mod_two_pow] at h
  exact Nat.or_eq_zero_iff.mp h

/-- Every access is aligned to its width, at the source and at the destinations. -/
theorem copyChunks_aligned {addresses nbytes tid stride : Nat} {m : Move}
    (hm : m ∈ copyChunks U addresses nbytes tid stride) :
    ∃ k, m.width = 2 ^ k ∧ m.off % 2 ^ k = 0 ∧ addresses % 2 ^ k = 0 := by
  unfold copyChunks at hm
  dsimp only at hm
  obtain hm | hm := List.mem_append.mp hm
  · split at hm
    · rename_i h16
      obtain ⟨v, -, rfl⟩ := List.mem_map.mp hm
      exact ⟨4, rfl, Nat.mul_mod_left _ _, h16⟩
    · split at hm
      · rename_i h4
        obtain ⟨v, -, hv⟩ := List.mem_flatMap.mp hm
        obtain ⟨j, -, rfl⟩ := List.mem_map.mp hv
        exact ⟨2, rfl, Nat.mul_mod_left _ _, h4⟩
      · obtain ⟨v, -, hv⟩ := List.mem_flatMap.mp hm
        obtain ⟨j, -, rfl⟩ := List.mem_map.mp hv
        exact ⟨0, rfl, Nat.mod_one _, Nat.mod_one _⟩
  · obtain ⟨i, -, rfl⟩ := List.mem_map.mp hm
    exact ⟨0, rfl, Nat.mod_one _, Nat.mod_one _⟩

theorem copy_bytes_aligned {dst src nbytes tid stride : Nat} {m : Move}
    (hm : m ∈ _copy_bytes U dst src nbytes tid stride) :
    m.width ∣ dst + m.off ∧ m.width ∣ src + m.off := by
  obtain ⟨k, hk, hoff, haddr⟩ := copyChunks_aligned hm
  obtain ⟨hdst, hsrc⟩ := or_mod_eq_zero haddr
  rw [hk]
  exact ⟨Nat.dvd_add (Nat.dvd_of_mod_eq_zero hdst) (Nat.dvd_of_mod_eq_zero hoff),
    Nat.dvd_add (Nat.dvd_of_mod_eq_zero hsrc) (Nat.dvd_of_mod_eq_zero hoff)⟩

end TorchMojoBackend.Ccl.CopyLoops
