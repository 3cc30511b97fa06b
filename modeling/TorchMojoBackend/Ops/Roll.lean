/-
  `Ops.Roll`: `roll` by rectangles.

  Source: tmb/ops/indexing.mojo (`_wrap_dim`, `_flat`, `_roll_into`, `op_roll`).

  Every rolled dimension splits the output in two parts, and each choice of parts is a
  rectangle that is copied on its own.  The shifts of a dimension are added in 64 bits.

  The rectangles tile the output, and each copies from the indices that the formula gives
  for the starts.  The starts come from shifts that were added in 64 bits.
-/
import TorchMojoBackend.Ops.RandomRange
import TorchMojoBackend.Ops.Views

set_option autoImplicit false

namespace TorchMojoBackend.Ops.Roll

open TorchMojoBackend.Foundation TorchMojoBackend.Ops.Views
open TorchMojoBackend.Ops.RandomRange (wrap64)
open TorchMojoBackend.Ops.ResizeOut (contiguousStrides)

universe u

/-! ## Rectangles -/

/-- A rectangle with its first element in the output and in the input. -/
structure Rect where
  lengths : List Nat
  dstOff : List Nat
  srcOff : List Nat
  deriving DecidableEq

/-- The dimensions that are rolled, in order. -/
def rolled (starts : List Nat) : List Nat :=
  (starts.zipIdx.filter fun p => p.1 ≠ 0).map Prod.snd

/-- The parts of a dimension of extent `n`: a length with both offsets. -/
def part (n s bit : Nat) : Nat × Nat × Nat := if bit = 0 then (n - s, s, 0) else (s, 0, n - s)

/-- The body of the inner loop of `_roll_into`, for the dimension `d`. -/
def Rect.split (shape starts : List Nat) (r : Rect) (d bit : Nat) : Rect :=
  let p := part (shape.getD d 0) (starts.getD d 0) bit
  ⟨r.lengths.set d p.1, r.dstOff.set d p.2.1, r.srcOff.set d p.2.2⟩

/-- The rectangle of a mask. -/
def rectangle (shape starts : List Nat) (mask : Nat) : Rect :=
  (rolled starts).zipIdx.foldl (fun r p => r.split shape starts p.1 (mask / 2 ^ p.2 % 2))
    ⟨shape, List.replicate shape.length 0, List.replicate shape.length 0⟩

/-- The rectangles of `_roll_into`. -/
def rectangles (shape starts : List Nat) : List Rect :=
  (List.range (2 ^ (rolled starts).length)).map (rectangle shape starts)

/-- `copy_strided_into` of a rectangle, to a buffer with its strides. -/
def Rect.copy {α : Type u} (r : Rect) (dstStrides : List Int) (src : T α) : List (Int × α) :=
  (indices r.lengths).map fun x =>
    (along dstStrides r.dstOff + along dstStrides x,
      src.storage (src.offset + along src.strides r.srcOff + along src.strides x))

/-- `_roll_into`: the copies to the output. -/
def rollInto {α : Type u} (dstStrides : List Int) (src : T α) (starts : List Nat) :
    List (List (Int × α)) :=
  (rectangles src.shape starts).map fun r => r.copy dstStrides src

/-! ## The operation -/

/-- `_wrap_dim`. -/
def wrapDim (dim : Int) (rank : Nat) : Except String Nat :=
  if rank = 0 ∧ dim ≠ 0 ∧ dim ≠ -1 then
    .error ("Dimension out of range (expected to be in range of [-1, 0]," ++
      " but got " ++ toString dim ++ ")")
  else
    let r : Int := max rank 1
    let d := if dim < 0 then dim + r else dim
    if d < 0 ∨ r ≤ d then
      .error ("Dimension out of range (expected to be in range of [" ++ toString (-r) ++ ", " ++
        toString (r - 1) ++ "], but got " ++ toString dim ++ ")")
    else .ok d.toNat

/-- The loop over the pairs of dimensions and shifts. -/
def addShifts (rank : Nat) : List (Int × Int) → (Nat → Int) → Except String (Nat → Int)
  | [], totals => .ok totals
  | (dim, shift) :: rest, totals =>
    match wrapDim dim rank with
    | .error e => .error e
    | .ok d => addShifts rank rest (Function.update totals d (wrap64 (totals d + shift)))

/-- What is copied: nothing, the flattened tensor, or the tensor with a start for each dimension. -/
inductive Plan where
  | nothing
  | flat (start : Nat)
  | dims (starts : List Nat)
  deriving DecidableEq

/-- `op_roll`, up to the copies. -/
def opRoll (shape : List Nat) (shifts dims : List Int) : Except String Plan :=
  match shifts, dims with
  | [], _ => .error "`shifts` required"
  | [shift], [] =>
    .ok (if shape.prod > 0 then .flat (shift % (shape.prod : Int)).toNat else .nothing)
  | shifts, dims =>
    if shifts.length ≠ dims.length then
      .error ("shifts and dimensions must align. shifts: " ++ toString shifts.length ++ ", dims:" ++
        toString dims.length)
    else if shape.length = 0 then
      .error ("Dimension specified as " ++ toString (dims.headD 0) ++
        " but tensor has no dimensions")
    else
      match addShifts shape.length (dims.zip shifts) fun _ => 0 with
      | .error e => .error e
      | .ok totals =>
        .ok (if shape.prod > 0 then
          .dims ((List.range shape.length).map fun d =>
            (totals d % (shape.getD d 0 : Int)).toNat)
        else .nothing)

section
variable {α : Type u} (a : T α)

/-- `_flat` of a contiguous copy of the input. -/
def flatOf (rest : α) : T α := ⟨[a.numel], [1], 0, fun i => a.contiguous rest i.toNat, rfl⟩

/-- The copies of a plan, to a new dense tensor. -/
def Plan.copies (rest : α) : Plan → List (List (Int × α))
  | .nothing => []
  | .flat start => rollInto [1] (flatOf a rest) [start]
  | .dims starts => rollInto (contiguousStrides a.shape) a starts

/-- The rectangles of a plan, and the shape that they are parts of. -/
def Plan.rects (shape : List Nat) : Plan → List Nat × List Rect
  | .nothing => (shape, [])
  | .flat start => ([shape.prod], rectangles [shape.prod] [start])
  | .dims starts => (shape, rectangles shape starts)

end

example : rectangles [3, 2] [1, 0] = [⟨[2, 2], [1, 0], [0, 0]⟩, ⟨[1, 2], [0, 0], [2, 0]⟩] := by
  decide

/-- The index that is rolled to an index. -/
def rolledIndex : List Nat → List Int → List Nat → List Nat
  | n :: shape, s :: shifts, i :: y => (((i : Int) - s) % n).toNat :: rolledIndex shape shifts y
  | _, _, _ => []

/-- An index of a rectangle, from its first element. -/
def from_ (off x : List Nat) : List Nat := List.zipWith (· + ·) off x

/-- The indices that a rectangle is copied to and from. -/
def Rect.pairs (r : Rect) : List (List Nat × List Nat) :=
  (indices r.lengths).map fun x => (from_ r.dstOff x, from_ r.srcOff x)

/-! ## Rectangles by dimensions -/

def Rect.cons (p : Nat × Nat × Nat) (r : Rect) : Rect :=
  ⟨p.1 :: r.lengths, p.2.1 :: r.dstOff, p.2.2 :: r.srcOff⟩

/-- The rectangle of a mask, one dimension after the other. -/
def cut : List Nat → List Nat → Nat → Rect
  | n :: shape, s :: starts, mask =>
    if s = 0 then (cut shape starts mask).cons (n, 0, 0)
    else (cut shape starts (mask / 2)).cons (part n s (mask % 2))
  | _, _, _ => ⟨[], [], []⟩

theorem getD_append_cons {α : Type u} (l : List α) (a : α) (l' : List α) (b : α) :
    (l ++ a :: l').getD l.length b = a := by
  rw [List.getD_eq_getElem?_getD, List.getElem?_append_right (Nat.le_refl _), Nat.sub_self]
  rfl

theorem set_append_cons {α : Type u} (l : List α) (a b : α) (l' : List α) :
    (l ++ a :: l').set l.length b = l ++ b :: l' := by
  rw [List.set_append_right _ _ (Nat.le_refl _), Nat.sub_self]
  rfl

theorem rolled_cons (s : Nat) (starts : List Nat) (p : Nat) :
    (((s :: starts).zipIdx p).filter fun q => q.1 ≠ 0).map Prod.snd =
      if s = 0 then ((starts.zipIdx (p + 1)).filter fun q => q.1 ≠ 0).map Prod.snd
      else p :: ((starts.zipIdx (p + 1)).filter fun q => q.1 ≠ 0).map Prod.snd := by
  by_cases hs : s = 0 <;> simp [List.zipIdx_cons, hs]

/-- The loop over the rolled dimensions, behind dimensions it is done with. -/
theorem foldl_split {shape starts : List Nat} (hlen : starts.length = shape.length) (mask j : Nat)
    {pre preS lens dst src : List Nat} (hpreS : preS.length = pre.length)
    (hlens : lens.length = pre.length) (hdst : dst.length = pre.length)
    (hsrc : src.length = pre.length) :
    ((((starts.zipIdx pre.length).filter fun p => p.1 ≠ 0).map Prod.snd).zipIdx j).foldl
        (fun (r : Rect) p => r.split (pre ++ shape) (preS ++ starts) p.1 (mask / 2 ^ p.2 % 2))
        (⟨lens ++ shape, dst ++ List.replicate shape.length 0,
          src ++ List.replicate shape.length 0⟩ : Rect) =
      ⟨lens ++ (cut shape starts (mask / 2 ^ j)).lengths,
        dst ++ (cut shape starts (mask / 2 ^ j)).dstOff,
        src ++ (cut shape starts (mask / 2 ^ j)).srcOff⟩ := by
  induction shape generalizing starts j pre preS lens dst src with
  | nil =>
      obtain rfl := List.eq_nil_of_length_eq_zero hlen
      rfl
  | cons n shape ih =>
      obtain ⟨s, starts, rfl⟩ := List.exists_cons_of_length_eq_add_one hlen
      have happ : ∀ (l : List Nat) (a : Nat) (l' : List Nat), l ++ a :: l' = (l ++ [a]) ++ l' :=
        fun l a l' => by rw [List.append_assoc, List.singleton_append]
      have hone : ∀ (l : List Nat) (a : Nat), (l ++ [a]).length = l.length + 1 :=
        fun l a => List.length_append
      rw [rolled_cons, List.length_cons, List.replicate_succ, cut]
      by_cases hs : s = 0
      · rw [if_pos hs, if_pos hs, happ pre, happ preS, happ lens, happ dst,
          happ src, ← hone pre n]
        have hrest := @ih starts (Nat.succ.inj hlen) j (pre ++ [n]) (preS ++ [s]) (lens ++ [n])
          (dst ++ [0]) (src ++ [0])
          (by rw [hone, hone, hpreS]) (by rw [hone, hone, hlens]) (by rw [hone, hone, hdst])
          (by rw [hone, hone, hsrc])
        rw [hrest]
        simp only [Rect.cons, List.append_assoc, List.singleton_append]
      · have hstep : Rect.split (pre ++ n :: shape) (preS ++ s :: starts)
            ⟨lens ++ n :: shape, dst ++ 0 :: List.replicate shape.length 0,
              src ++ 0 :: List.replicate shape.length 0⟩ pre.length (mask / 2 ^ j % 2) =
            ⟨lens ++ (part n s (mask / 2 ^ j % 2)).1 :: shape,
              dst ++ (part n s (mask / 2 ^ j % 2)).2.1 :: List.replicate shape.length 0,
              src ++ (part n s (mask / 2 ^ j % 2)).2.2 :: List.replicate shape.length 0⟩ := by
          unfold Rect.split
          dsimp only
          have hS := getD_append_cons preS s starts 0
          have hL := fun a => set_append_cons lens n a shape
          have hD := fun a => set_append_cons dst 0 a (List.replicate shape.length 0)
          have hR := fun a => set_append_cons src 0 a (List.replicate shape.length 0)
          rw [hpreS] at hS
          rw [hlens] at hL
          rw [hdst] at hD
          rw [hsrc] at hR
          rw [getD_append_cons, hS, hL, hD, hR]
        rw [if_neg hs, if_neg hs, List.zipIdx_cons, List.foldl_cons, hstep, happ pre, happ preS,
          happ lens, happ dst, happ src, ← hone pre n]
        have hrest := @ih starts (Nat.succ.inj hlen) (j + 1) (pre ++ [n]) (preS ++ [s])
          (lens ++ [(part n s (mask / 2 ^ j % 2)).1])
          (dst ++ [(part n s (mask / 2 ^ j % 2)).2.1])
          (src ++ [(part n s (mask / 2 ^ j % 2)).2.2])
          (by rw [hone, hone, hpreS]) (by rw [hone, hone, hlens]) (by rw [hone, hone, hdst])
          (by rw [hone, hone, hsrc])
        have hhalf : mask / 2 ^ j / 2 = mask / 2 ^ (j + 1) := by
          rw [Nat.div_div_eq_div_mul, Nat.pow_succ]
        rw [hrest, hhalf]
        simp only [Rect.cons, List.append_assoc, List.singleton_append]

theorem rectangle_eq {shape starts : List Nat} (hlen : starts.length = shape.length) (mask : Nat) :
    rectangle shape starts mask = cut shape starts mask := by
  have h := @foldl_split shape starts hlen mask 0 [] [] [] [] [] rfl rfl rfl rfl
  rw [Nat.pow_zero, Nat.div_one] at h
  exact h

/-! ## The rectangles tile the output -/

/-- The places of a part of a dimension, with those that they are copied from. -/
def heads (p : Nat × Nat × Nat) : List (Nat × Nat) :=
  (List.range p.1).map fun i => (p.2.1 + i, p.2.2 + i)

theorem pairs_cons (p : Nat × Nat × Nat) (r : Rect) : (r.cons p).pairs =
    (heads p).flatMap fun h => r.pairs.map fun q => (h.1 :: q.1, h.2 :: q.2) := by
  unfold Rect.pairs Rect.cons heads
  rw [indices, List.map_flatMap, List.flatMap_map]
  refine List.flatMap_congr fun i _ => ?_
  rw [List.map_map, List.map_map]
  rfl

/-- A dimension that is not rolled. -/
theorem heads_whole (n : Nat) :
    heads (n, 0, 0) = (List.range n).map fun i : Nat => (i, (((i : Int) - (0 : Nat)) % n).toNat) := by
  refine List.map_congr_left fun i hi => ?_
  have hi := List.mem_range.mp hi
  have hmod : ((i : Int) - (0 : Nat)) % n = i := by
    rw [Nat.cast_zero, Int.sub_zero]
    exact Int.emod_eq_of_lt (by omega) (by omega)
  rw [hmod, Int.toNat_natCast]
  exact congrArg₂ _ (Nat.zero_add i) (Nat.zero_add i)

/-- The two parts of a dimension that is rolled. -/
theorem heads_parts {n s : Nat} (hs : s < n) :
    (heads (part n s 0) ++ heads (part n s 1)).Perm
      ((List.range n).map fun i : Nat => (i, (((i : Int) - s) % n).toNat)) := by
  have hrange : List.range n = List.range s ++ (List.range (n - s)).map (s + ·) := by
    rw [← List.range_add, Nat.add_sub_cancel' hs.le]
  rw [hrange, List.map_append, List.map_map]
  refine List.perm_append_comm.trans (List.Perm.of_eq (congrArg₂ _ ?_ ?_))
  · refine List.map_congr_left fun i hi => ?_
    have hi : i < s := List.mem_range.mp hi
    have hmod : ((i : Int) - s) % n = n - s + i := by
      rw [← Int.add_emod_right]
      exact (Int.emod_eq_of_lt (by omega) (by omega)).trans (by omega)
    rw [hmod]
    change (0 + i, n - s + i) = _
    rw [Nat.zero_add]
    congr 1
    omega
  · refine List.map_congr_left fun i hi => ?_
    have hi : i < n - s := List.mem_range.mp hi
    have hmod : (((s + i : Nat) : Int) - s) % n = i := by
      rw [Nat.cast_add, add_sub_cancel_left]
      exact Int.emod_eq_of_lt (by omega) (by omega)
    change (s + i, 0 + i) = (s + i, ((((s + i : Nat) : Int) - s) % n).toNat)
    rw [hmod, Int.toNat_natCast, Nat.zero_add]

theorem flatMap_heads {n s : Nat} {shape : List Nat} {starts : List Int}
    {l : List (Nat × Nat)} (hl : l.Perm ((List.range n).map fun i : Nat =>
      (i, (((i : Int) - s) % n).toNat))) {qs : List (List Nat × List Nat)}
    (hqs : qs.Perm ((indices shape).map fun y => (y, rolledIndex shape starts y))) :
    (l.flatMap fun h => qs.map fun q => (h.1 :: q.1, h.2 :: q.2)).Perm
      ((indices (n :: shape)).map fun y => (y, rolledIndex (n :: shape) (s :: starts) y)) := by
  refine (hl.flatMap_right _).trans ?_
  rw [List.flatMap_map, indices, List.map_flatMap]
  refine List.Perm.flatMap_left _ fun i _ => ?_
  refine (hqs.map _).trans (List.Perm.of_eq ?_)
  rw [List.map_map, List.map_map]
  rfl

/-- The rectangles copy to every index once, from the index that is rolled to it. -/
theorem cut_perm {shape starts : List Nat} (h : List.Forall₂ (· < ·) starts shape) :
    ((List.range (2 ^ (rolled starts).length)).flatMap fun mask => (cut shape starts mask).pairs).Perm
      ((indices shape).map fun y => (y, rolledIndex shape (starts.map Nat.cast) y)) := by
  have hcount : ∀ (l : List Nat) (p : Nat),
      (((l.zipIdx p).filter fun q => q.1 ≠ 0).map Prod.snd).length = (rolled l).length := by
    intro l
    have hany : ∀ p q : Nat, (((l.zipIdx p).filter fun q => q.1 ≠ 0).map Prod.snd).length =
        (((l.zipIdx q).filter fun q => q.1 ≠ 0).map Prod.snd).length := by
      induction l with
      | nil => exact fun _ _ => rfl
      | cons a l ih =>
          intro p q
          rw [rolled_cons, rolled_cons]
          split
          · exact ih _ _
          · rw [List.length_cons, List.length_cons, ih]
    exact fun p => hany p 0
  induction h with
  | nil => exact .refl _
  | @cons s n starts shape hs _ ih =>
      have hlen := congrArg List.length (rolled_cons s starts 0)
      unfold rolled at ih ⊢
      rw [hlen]
      by_cases hzero : s = 0
      · obtain rfl := hzero
        rw [if_pos rfl, hcount]
        have hcut : ∀ mask, (cut (n :: shape) (0 :: starts) mask).pairs = (heads (n, 0, 0)).flatMap
            fun h => (cut shape starts mask).pairs.map fun q => (h.1 :: q.1, h.2 :: q.2) :=
          fun mask => by rw [cut, if_pos rfl, pairs_cons]
        simp only [hcut]
        refine (flatMap_comm_perm _ _ _).trans ?_
        refine List.Perm.trans (List.Perm.of_eq ?_)
          (flatMap_heads (List.Perm.of_eq (heads_whole n)) ih)
        refine List.flatMap_congr fun h _ => ?_
        rw [List.map_flatMap]
        rfl
      · rw [if_neg hzero, List.length_cons, hcount, Nat.pow_succ, range_mul, List.flatMap_assoc]
        have hcut : ∀ mask, (List.flatMap (fun mask' =>
            (cut (n :: shape) (s :: starts) mask').pairs)
              ((List.range 2).map fun j => mask * 2 + j)) =
            (heads (part n s 0) ++ heads (part n s 1)).flatMap
              fun h => (cut shape starts mask).pairs.map fun q => (h.1 :: q.1, h.2 :: q.2) := by
          intro mask
          have hdiv : (mask * 2 + 1) / 2 = mask := by omega
          have hmod : (mask * 2 + 1) % 2 = 1 := by omega
          change (cut (n :: shape) (s :: starts) (mask * 2 + 0)).pairs ++
            ((cut (n :: shape) (s :: starts) (mask * 2 + 1)).pairs ++ []) = _
          rw [cut, if_neg hzero, cut, if_neg hzero, pairs_cons, pairs_cons, hdiv, hmod,
            Nat.add_zero, Nat.mul_div_cancel _ (by decide), Nat.mul_mod_left, List.append_nil,
            List.flatMap_append]
        simp only [hcut]
        refine (flatMap_comm_perm _ _ _).trans ?_
        refine List.Perm.trans (List.Perm.of_eq ?_) (flatMap_heads (heads_parts hs) ih)
        refine List.flatMap_congr fun h _ => ?_
        rw [List.map_flatMap]
        rfl

/-! ## The copies -/

theorem along_from {strides : List Int} {off x : List Nat} (h : off.length = x.length) :
    along strides (from_ off x) = along strides off + along strides x := by
  induction strides generalizing off x with
  | nil => rfl
  | cons s strides ih =>
      cases off with
      | nil =>
          obtain rfl := List.eq_nil_of_length_eq_zero h.symm
          rfl
      | cons o off =>
          obtain ⟨i, x, rfl⟩ := List.exists_cons_of_length_eq_add_one h.symm
          have hrest : along strides (List.zipWith (· + ·) off x) =
              along strides off + along strides x := ih (Nat.succ.inj h)
          rw [from_, List.zipWith_cons_cons, along, along, along, hrest, Nat.cast_add, Int.add_mul]
          omega

theorem length_cut (shape starts : List Nat) (mask : Nat) :
    (cut shape starts mask).dstOff.length = (cut shape starts mask).lengths.length ∧
      (cut shape starts mask).srcOff.length = (cut shape starts mask).lengths.length := by
  induction shape generalizing starts mask with
  | nil => exact ⟨rfl, rfl⟩
  | cons n shape ih =>
      cases starts with
      | nil => exact ⟨rfl, rfl⟩
      | cons s starts =>
          rw [cut]
          split
          · exact ⟨congrArg Nat.succ (ih _ _).1, congrArg Nat.succ (ih _ _).2⟩
          · exact ⟨congrArg Nat.succ (ih _ _).1, congrArg Nat.succ (ih _ _).2⟩

section
variable {α : Type u}

theorem copy_cut (shape starts : List Nat) (mask : Nat) (dstStrides : List Int) (src : T α) :
    (cut shape starts mask).copy dstStrides src = (cut shape starts mask).pairs.map fun q =>
      (along dstStrides q.1, src.elem q.2) := by
  obtain ⟨hdst, hsrc⟩ := length_cut shape starts mask
  unfold Rect.copy Rect.pairs
  rw [List.map_map]
  refine List.map_congr_left fun x hx => ?_
  have hlen := length_of_mem_indices hx
  rw [Function.comp_apply, along_from (hdst.trans hlen.symm), T.elem, T.addr,
    along_from (hsrc.trans hlen.symm), Int.add_assoc]

/-- Together the copies store every element once. -/
theorem rollInto_perm {dstStrides : List Int} {src : T α} {starts : List Nat}
    (h : List.Forall₂ (· < ·) starts src.shape) : ((rollInto dstStrides src starts).flatten).Perm
      ((indices src.shape).map fun y => (along dstStrides y,
        src.elem (rolledIndex src.shape (starts.map Nat.cast) y))) := by
  have hcopies : (rollInto dstStrides src starts).flatten =
      ((List.range (2 ^ (rolled starts).length)).flatMap fun mask =>
        (cut src.shape starts mask).pairs).map fun q => (along dstStrides q.1, src.elem q.2) := by
    rw [rollInto, rectangles, List.map_map, List.map_flatMap, ← List.flatMap_def]
    refine List.flatMap_congr fun mask _ => ?_
    rw [Function.comp_apply, rectangle_eq h.length_eq, copy_cut]
  rw [hcopies]
  refine ((cut_perm h).map _).trans (List.Perm.of_eq ?_)
  rw [List.map_map]
  rfl

end

/-- The rectangles are disjoint parts of the output, and each is copied from inside the input. -/
def Tiles (shape : List Nat) (rects : List Rect) : Prop :=
  ((rects.flatMap Rect.pairs).map Prod.fst).Perm (indices shape) ∧
    ∀ r ∈ rects, ∀ q ∈ r.pairs, q.2 ∈ indices shape

theorem rolledIndex_mem {shape : List Nat} {shifts : List Int}
    (hlen : shifts.length = shape.length) {y : List Nat} (hy : y ∈ indices shape) : rolledIndex shape shifts y ∈ indices shape := by
  have hall := mem_indices.mp hy
  rw [mem_indices]
  clear hy
  induction hall generalizing shifts with
  | nil =>
      obtain rfl := List.eq_nil_of_length_eq_zero hlen
      exact .nil
  | @cons i n y shape hi _ ih =>
      obtain ⟨s, shifts, rfl⟩ := List.exists_cons_of_length_eq_add_one hlen
      have hpos : (0 : Int) < n := by omega
      have hlt := Int.emod_lt_of_pos ((i : Int) - s) hpos
      exact .cons (by omega) (ih (Nat.succ.inj hlen))

theorem rectangles_tile {shape starts : List Nat} (h : List.Forall₂ (· < ·) starts shape) :
    Tiles shape (rectangles shape starts) := by
  have hpairs : (rectangles shape starts).flatMap Rect.pairs =
      (List.range (2 ^ (rolled starts).length)).flatMap fun mask =>
        (cut shape starts mask).pairs := by
    rw [rectangles, List.flatMap_map]
    refine List.flatMap_congr fun mask _ => ?_
    rw [rectangle_eq h.length_eq]
  have hperm := cut_perm h
  rw [← hpairs] at hperm
  constructor
  · refine (hperm.map _).trans (List.Perm.of_eq ?_)
    rw [List.map_map]
    exact List.map_id _
  · intro r hr q hq
    obtain ⟨y, hy, rfl⟩ := List.mem_map.mp (hperm.mem_iff.mp (List.mem_flatMap.mpr ⟨r, hr, hq⟩))
    refine rolledIndex_mem ?_ hy
    rw [List.length_map, h.length_eq]

/-! ## The shifts -/

/-- The total shift of a dimension. -/
def totalShift (rank : Nat) (pairs : List (Int × Int)) (d : Nat) : Int :=
  ((pairs.filter fun p => decide ((wrapDim p.1 rank).toOption = some d)).map Prod.snd).sum

theorem wrap64_add (v w : Int) : wrap64 (wrap64 v + w) = wrap64 (v + w) := Int.bmod_add_bmod

theorem addShifts_ok {rank : Nat} {pairs : List (Int × Int)} {totals base out : Nat → Int}
    (h : addShifts rank pairs totals = .ok out) (htotals : ∀ d, totals d = wrap64 (base d))
    (d : Nat) : out d = wrap64 (base d + totalShift rank pairs d) := by
  induction pairs generalizing totals base with
  | nil =>
      obtain rfl := Except.ok.inj h
      rw [htotals, totalShift, List.filter_nil, List.map_nil, List.sum_nil, Int.add_zero]
  | cons p pairs ih =>
      obtain ⟨dim, shift⟩ := p
      rw [addShifts] at h
      cases hdim : wrapDim dim rank with
      | error e =>
          rw [hdim] at h
          exact nomatch h
      | ok e =>
          rw [hdim] at h
          have hrest := @ih _ (Function.update base e (base e + shift)) h fun d => by
            by_cases hd : d = e
            · rw [hd, Function.update_self, Function.update_self, htotals, wrap64_add]
            · rw [Function.update_of_ne hd, Function.update_of_ne hd, htotals]
          have htotal : totalShift rank ((dim, shift) :: pairs) d =
              (if d = e then shift else 0) + totalShift rank pairs d := by
            unfold totalShift
            rw [List.filter_cons, hdim]
            by_cases hd : d = e
            · have heq : decide ((Except.ok e : Except String Nat).toOption = some d) = true :=
                decide_eq_true (congrArg some hd.symm)
              rw [if_pos heq, if_pos hd, List.map_cons, List.sum_cons]
            · have hne : ¬decide ((Except.ok e : Except String Nat).toOption = some d) = true := by
                rw [decide_eq_true_iff]
                exact fun heq => hd (Option.some.inj heq).symm
              rw [if_neg hne, if_neg hd, Int.zero_add]
          rw [hrest, htotal, ← Int.add_assoc]
          congr 2
          by_cases hd : d = e
          · rw [hd, Function.update_self, if_pos rfl]
          · rw [Function.update_of_ne hd, if_neg hd, Int.add_zero]

/-- Two lists of shifts roll alike where they differ by multiples of the extents. -/
theorem rolledIndex_eq_iff {shape : List Nat} {shifts shifts' : List Int}
    (hlen : shifts.length = shape.length) (hlen' : shifts'.length = shape.length) {y : List Nat}
    (hy : y ∈ indices shape) : rolledIndex shape shifts y = rolledIndex shape shifts' y ↔
      ∀ d < shape.length, (shape.getD d 0 : Int) ∣ shifts.getD d 0 - shifts'.getD d 0 := by
  have hall := mem_indices.mp hy
  clear hy
  induction hall generalizing shifts shifts' with
  | nil =>
      obtain rfl := List.eq_nil_of_length_eq_zero hlen
      obtain rfl := List.eq_nil_of_length_eq_zero hlen'
      exact iff_of_true rfl fun d hd => absurd hd (Nat.not_lt_zero d)
  | @cons i n y shape hi _ ih =>
      obtain ⟨s, shifts, rfl⟩ := List.exists_cons_of_length_eq_add_one hlen
      obtain ⟨s', shifts', rfl⟩ := List.exists_cons_of_length_eq_add_one hlen'
      have hpos : (0 : Int) < n := by omega
      have hnonneg := Int.emod_nonneg ((i : Int) - s) hpos.ne'
      have hnonneg' := Int.emod_nonneg ((i : Int) - s') hpos.ne'
      have hhead : (((i : Int) - s) % n).toNat = (((i : Int) - s') % n).toNat ↔
          (n : Int) ∣ s - s' := by
        have hmod : ((i : Int) - s') % n = ((i : Int) - s) % n ↔ (n : Int) ∣ s - s' := by
          rw [Int.emod_eq_emod_iff_emod_sub_eq_zero, ← Int.dvd_iff_emod_eq_zero]
          have hdiff : (i : Int) - s' - (i - s) = s - s' := by omega
          rw [hdiff]
        rw [← hmod]
        omega
      rw [rolledIndex, rolledIndex, List.cons.injEq]
      refine (and_congr hhead (ih (Nat.succ.inj hlen) (Nat.succ.inj hlen'))).trans ?_
      constructor
      · rintro ⟨h0, hrest⟩ d hd
        cases d with
        | zero => exact h0
        | succ d => exact hrest d (Nat.lt_of_succ_lt_succ hd)
      · exact fun h => ⟨h 0 (Nat.succ_pos _), fun d hd => h (d + 1) (Nat.succ_lt_succ hd)⟩

/-! ## The operation -/

/-- The shifts of the dimensions. -/
def totalShifts (shape : List Nat) (shifts dims : List Int) : List Int :=
  (List.range shape.length).map fun d => totalShift shape.length (dims.zip shifts) d

/-- The formula: `x` is rolled to `y`, as an index or, without dimensions, by its position. -/
def IsSource (shape : List Nat) (shifts dims : List Int) (y x : List Nat) : Prop :=
  if dims = [] then
    (flatIndex shape x : Int) = ((flatIndex shape y : Int) - shifts.headD 0) % (shape.prod : Int)
  else x = rolledIndex shape (totalShifts shape shifts dims) y

/-- The result has at each index the element that is rolled to it, and the rectangles tile it. -/
def Rolls (α : Type u) (shape : List Nat) (shifts dims : List Int) (plan : Plan) : Prop :=
  (∀ (a : T α), a.shape = shape → ∀ (rest : α) (fresh out : Int → α),
    Stores (plan.copies a rest).flatten fresh out → ∀ y ∈ indices shape,
      ∃ x ∈ indices shape, IsSource shape shifts dims y x ∧ (a.newLike out).elem y = a.elem x) ∧
  Tiles (plan.rects shape).1 (plan.rects shape).2

/-- The sums of the shifts are right modulo the extents. -/
def SumsFit (shape : List Nat) (shifts dims : List Int) : Prop :=
  ∀ d < shape.length, (shape.getD d 0 : Int) ∣
    (totalShifts shape shifts dims).getD d 0 - wrap64 ((totalShifts shape shifts dims).getD d 0)

theorem along_one (i : Nat) : along [1] [i] = (i : Int) := by
  change (i : Int) * 1 + 0 = i
  omega

section
variable {α : Type u} {shape : List Nat} {shifts dims : List Int}

theorem rolls_nothing (hempty : shape.prod = 0) : Rolls α shape shifts dims .nothing := by
  have hnil : indices shape = [] :=
    List.eq_nil_of_length_eq_zero ((length_indices shape).trans hempty)
  refine ⟨fun a _ _ _ _ _ y hy => ?_, ?_, fun r hr => nomatch hr⟩
  · rw [hnil] at hy
    exact nomatch hy
  · change [].Perm (indices shape)
    rw [hnil]

/-- The flattened form. -/
theorem rolls_flat (hpos : 0 < shape.prod) (shift : Int) :
    Rolls α shape [shift] [] (.flat (shift % (shape.prod : Int)).toNat) := by
  have hmod := Int.emod_nonneg shift (show (shape.prod : Int) ≠ 0 by omega)
  have hlt := Int.emod_lt_of_pos shift (show (0 : Int) < shape.prod by omega)
  have hstart : List.Forall₂ (· < ·) [(shift % (shape.prod : Int)).toNat] [shape.prod] :=
    .cons (by omega) .nil
  refine ⟨fun a ha rest fresh out hout y hy => ?_, rectangles_tile hstart⟩
  obtain rfl := ha
  have hstores := hout.congr fun w =>
    (@rollInto_perm α [1] (flatOf a rest) _ hstart).mem_iff
  have hy' : [flatIndex a.shape y] ∈ indices [a.shape.prod] :=
    mem_indices.mpr (.cons (flatIndex_lt hy) .nil)
  have hat := hstores.map_at (fun i hi j hj hij => ?_) hy'
  · -- the position that is rolled here
    have hsource : (((flatIndex a.shape y : Int) -
        (shift % (a.shape.prod : Int)).toNat) % (a.shape.prod : Int)).toNat < a.shape.prod := by
      have hlt := Int.emod_lt_of_pos ((flatIndex a.shape y : Int) -
        (shift % (a.shape.prod : Int)).toNat) (show (0 : Int) < a.shape.prod by omega)
      omega
    obtain ⟨x, hx, hflat⟩ := exists_index hsource
    refine ⟨x, hx, ?_, ?_⟩
    · rw [IsSource, if_pos rfl, hflat, Int.toNat_of_nonneg hmod, Int.toNat_of_nonneg
        (Int.emod_nonneg _ (show (a.shape.prod : Int) ≠ 0 by omega)), List.headD_cons]
      exact Int.sub_emod_emod _ _ _
    · rw [T.newLike_elem hy, ← a.contiguous_elem rest hx, hflat]
      have helem : ∀ i : Nat, (flatOf a rest).elem [i] = a.contiguous rest i := by
        intro i
        change a.contiguous rest (0 + along [1] [i]).toNat = _
        rw [along_one, Int.zero_add, Int.toNat_natCast]
      rw [along_one, List.map_singleton] at hat
      exact hat.trans (helem _)
  · obtain ⟨i, rfl⟩ := List.length_eq_one_iff.mp (length_of_mem_indices hi)
    obtain ⟨j, rfl⟩ := List.length_eq_one_iff.mp (length_of_mem_indices hj)
    rw [along_one, along_one] at hij
    rw [Int.ofNat.inj hij]

theorem getD_map_range {β : Type u} (n : Nat) (f : Nat → β) (b : β) {d : Nat} (hd : d < n) :
    ((List.range n).map f).getD d b = f d := by
  rw [List.getD_eq_getElem?_getD, List.getElem?_map, List.getElem?_range hd]
  rfl

theorem extent_pos (hpos : 0 < shape.prod) {d : Nat} (hd : d < shape.length) :
    0 < shape.getD d 0 := by
  rw [List.getD_eq_getElem _ _ hd]
  refine Nat.pos_of_ne_zero fun hzero => ?_
  have hprod := List.prod_eq_zero (hzero ▸ List.getElem_mem hd)
  omega

/-- The form with dimensions. -/
theorem rolls_dims (hpos : 0 < shape.prod) {totals : Nat → Int}
    (htotals : ∀ d, totals d = wrap64 (totalShift shape.length (dims.zip shifts) d))
    {starts : List Nat} (hstarts : starts = (List.range shape.length).map fun d =>
      (totals d % (shape.getD d 0 : Int)).toNat) :
    List.Forall₂ (· < ·) starts shape ∧
      ∀ y ∈ indices shape, (rolledIndex shape (starts.map Nat.cast) y =
        rolledIndex shape (totalShifts shape shifts dims) y ↔ SumsFit shape shifts dims) := by
  have hlen : starts.length = shape.length := by
    rw [hstarts, List.length_map, List.length_range]
  have hstart : ∀ {d : Nat}, d < shape.length →
      starts.getD d 0 = (totals d % (shape.getD d 0 : Int)).toNat := by
    intro d hd
    rw [hstarts, getD_map_range _ _ _ hd]
  constructor
  · refine List.forall₂_iff_get.mpr ⟨hlen, fun d hd hd' => ?_⟩
    have hextent := extent_pos hpos hd'
    have hlt := Int.emod_lt_of_pos (totals d) (show (0 : Int) < shape.getD d 0 by omega)
    have heq := hstart hd'
    rw [List.getD_eq_getElem _ _ hd] at heq
    rw [List.get_eq_getElem, List.get_eq_getElem, heq, ← List.getD_eq_getElem _ 0 hd']
    omega
  · intro y hy
    have hcast : (starts.map (Nat.cast : Nat → Int)).length = shape.length := by
      rw [List.length_map, hlen]
    have htotal : (totalShifts shape shifts dims).length = shape.length := by
      rw [totalShifts, List.length_map, List.length_range]
    refine (rolledIndex_eq_iff hcast htotal hy).trans (forall₂_congr fun d hd => ?_)
    have hextent := extent_pos hpos hd
    have hmod := Int.emod_nonneg (totals d) (show ((shape.getD d 0 : Nat) : Int) ≠ 0 by omega)
    have hleft : (starts.map (Nat.cast : Nat → Int)).getD d 0 =
        totals d % (shape.getD d 0 : Int) := by
      have heq := hstart hd
      rw [List.getD_eq_getElem _ _ (hlen ▸ hd)] at heq
      rw [List.getD_eq_getElem _ _ (hcast ▸ hd), List.getElem_map, heq, Int.toNat_of_nonneg hmod]
    have hexact : (totalShifts shape shifts dims).getD d 0 =
        totalShift shape.length (dims.zip shifts) d := getD_map_range _ _ _ hd
    rw [hleft, hexact, htotals]
    generalize totalShift shape.length (dims.zip shifts) d = v
    generalize ((shape.getD d 0 : Nat) : Int) = n
    have hdvd : n ∣ wrap64 v % n - wrap64 v := Int.dvd_emod_sub_self
    rw [← Int.dvd_neg, Int.neg_sub]
    constructor
    · intro h
      have hsum := Int.dvd_add h hdvd
      have hdiff : v - wrap64 v % n + (wrap64 v % n - wrap64 v) = v - wrap64 v := by omega
      rwa [hdiff] at hsum
    · intro h
      have hsum := Int.dvd_sub h hdvd
      have hdiff : v - wrap64 v - (wrap64 v % n - wrap64 v) = v - wrap64 v % n := by omega
      rwa [hdiff] at hsum

/-- The form with dimensions copies every element from the index of its starts. -/
theorem copies_dims {starts : List Nat} {a : T α}
    (hstarts : List.Forall₂ (· < ·) starts a.shape) {rest : α} {fresh out : Int → α}
    (hout : Stores ((Plan.dims starts).copies a rest).flatten fresh out) {y : List Nat}
    (hy : y ∈ indices a.shape) : (a.newLike out).elem y =
      a.elem (rolledIndex a.shape (starts.map Nat.cast) y) := by
  have hstores := hout.congr fun w =>
    (@rollInto_perm α (contiguousStrides a.shape) _ _ hstarts).mem_iff
  have hat := hstores.map_at (fun i hi j hj hij => ?_) hy
  · rw [along_contiguousStrides hy] at hat
    rw [T.newLike_elem hy]
    exact hat
  · rw [along_contiguousStrides hi, along_contiguousStrides hj] at hij
    exact flatIndex_inj hi hj (Int.ofNat.inj hij)

/-- A tensor that tells an index from the others. -/
theorem exists_marked (shape x : List Nat) (u v : α) : ∃ a : T α, a.shape = shape ∧
    (x ∈ indices shape → a.elem x = u) ∧ ∀ x' ∈ indices shape, x ∈ indices shape → x' ≠ x →
      a.elem x' = v := by
  refine ⟨⟨shape, contiguousStrides shape, 0, fun i => if i = flatIndex shape x then u else v,
    by rw [contiguousStrides, List.length_map, List.length_range]⟩, rfl, ?_, ?_⟩
  · intro hx
    have haddr : (0 : Int) + along (contiguousStrides shape) x = flatIndex shape x := by
      rw [along_contiguousStrides hx, Int.zero_add]
    exact if_pos haddr
  · intro x' hx' hx hne
    have haddr : (0 : Int) + along (contiguousStrides shape) x' ≠ flatIndex shape x := by
      rw [along_contiguousStrides hx', Int.zero_add]
      exact fun heq => hne (flatIndex_inj hx' hx (Int.ofNat.inj heq))
    exact if_neg haddr

theorem rolls_dims_iff [Nontrivial α] (hpos : 0 < shape.prod) (hdims : dims ≠ [])
    {starts : List Nat} (hstarts : List.Forall₂ (· < ·) starts shape)
    (hagree : ∀ y ∈ indices shape, (rolledIndex shape (starts.map Nat.cast) y =
      rolledIndex shape (totalShifts shape shifts dims) y ↔ SumsFit shape shifts dims)) :
    Rolls α shape shifts dims (.dims starts) ↔ SumsFit shape shifts dims := by
  have hcast : (starts.map (Nat.cast : Nat → Int)).length = shape.length := by
    rw [List.length_map, hstarts.length_eq]
  have htotal : (totalShifts shape shifts dims).length = shape.length := by
    rw [totalShifts, List.length_map, List.length_range]
  constructor
  · rintro ⟨hrolls, -⟩
    obtain ⟨y, hy, -⟩ := exists_index hpos
    by_contra hfit
    -- a tensor with another value where the element comes from
    have hne := mt (hagree y hy).mp hfit
    have hmem := rolledIndex_mem hcast hy
    obtain ⟨u, v, huv⟩ := exists_pair_ne α
    obtain ⟨a, rfl, hmark, hother⟩ := exists_marked (α := α) shape
      (rolledIndex shape (starts.map Nat.cast) y) u v
    have hrun := Stores.inOrder ((Plan.dims starts).copies a u).flatten fun _ => u
    obtain ⟨x, hx, hsource, helem⟩ := hrolls a rfl u (fun _ => u) _ hrun y hy
    rw [IsSource, if_neg hdims] at hsource
    rw [copies_dims hstarts hrun hy, hmark hmem, hother x hx hmem (by
      rw [hsource]
      exact fun heq => hne heq.symm)] at helem
    exact huv helem
  · intro hfit
    refine ⟨fun a ha rest fresh out hout y hy => ?_, rectangles_tile hstarts⟩
    obtain rfl := ha
    refine ⟨_, rolledIndex_mem htotal hy, by rw [IsSource, if_neg hdims], ?_⟩
    rw [copies_dims hstarts hout hy, (hagree y hy).mpr hfit]

/-- Every accepted roll is the formula on indices, by rectangles that tile the result, exactly
where the sums of its shifts are right in 64 bits. -/
theorem roll_iff [Nontrivial α] {plan : Plan} (h : opRoll shape shifts dims = .ok plan) :
    Rolls α shape shifts dims plan ↔
      dims = [] ∨ shape.prod = 0 ∨ SumsFit shape shifts dims := by
  unfold opRoll at h
  split at h
  · exact nomatch h
  · rename_i shift
    obtain rfl := Except.ok.inj h
    refine iff_of_true ?_ (.inl rfl)
    by_cases hpos : shape.prod > 0
    · rw [if_pos hpos]
      exact rolls_flat hpos shift
    · rw [if_neg hpos]
      exact rolls_nothing (by omega)
  · rename_i hsome hflat
    by_cases hlen : shifts.length ≠ dims.length
    · rw [if_pos hlen] at h
      exact nomatch h
    · rw [if_neg hlen] at h
      by_cases hrank : shape.length = 0
      · rw [if_pos hrank] at h
        exact nomatch h
      · rw [if_neg hrank] at h
        have hdims : dims ≠ [] := by
          rintro rfl
          exact hsome (List.eq_nil_of_length_eq_zero (not_not.mp hlen))
        cases htotals : addShifts shape.length (dims.zip shifts) fun _ => 0 with
        | error e =>
            rw [htotals] at h
            exact nomatch h
        | ok totals =>
            rw [htotals] at h
            obtain rfl := Except.ok.inj h
            by_cases hpos : shape.prod > 0
            · rw [if_pos hpos]
              have hsums : ∀ d, totals d =
                  wrap64 (totalShift shape.length (dims.zip shifts) d) := by
                intro d
                have hok := @addShifts_ok _ _ _ (fun _ => 0) _ htotals (fun _ => rfl) d
                rwa [Int.zero_add] at hok
              obtain ⟨hstarts, hagree⟩ := rolls_dims hpos hsums rfl
              rw [rolls_dims_iff hpos hdims hstarts hagree, or_iff_right hdims,
                or_iff_right (by omega)]
            · rw [if_neg hpos]
              exact iff_of_true (rolls_nothing (by omega)) (.inr (.inl (by omega)))

end

theorem roll_pair : Rolls Nat [2, 3] [1, -4] [0, -1] (.dims [1, 2]) :=
  (roll_iff (by rfl)).mpr (.inr (.inr (by
    intro d hd
    obtain rfl | rfl : d = 0 ∨ d = 1 := by
      have hd : d < 2 := hd
      omega
    · decide
    · decide)))

/-- Two shifts by `2 ^ 63 - 1` make `-2` in 64 bits, which is another shift modulo three. -/
theorem roll_overflow :
    opRoll [3] [9223372036854775807, 9223372036854775807] [0, 0] = .ok (.dims [1]) ∧
      ¬Rolls Nat [3] [9223372036854775807, 9223372036854775807] [0, 0] (.dims [1]) := by
  have hstarts : List.Forall₂ (· < ·) [1] [3] := .cons (by decide) .nil
  refine ⟨by rfl, ?_⟩
  rintro ⟨hrolls, -⟩
  have hy : [0] ∈ indices [3] := by decide
  have hrun := Stores.inOrder
    ((Plan.dims [1]).copies (⟨[3], [1], 0, fun i => i.toNat, rfl⟩ : T Nat) 0).flatten fun _ => 0
  obtain ⟨x, -, hsource, helem⟩ := hrolls _ rfl 0 (fun _ => 0) _ hrun [0] hy
  have hx : x = [1] := hsource
  rw [copies_dims hstarts hrun hy, hx] at helem
  exact absurd helem (by decide)

end TorchMojoBackend.Ops.Roll
