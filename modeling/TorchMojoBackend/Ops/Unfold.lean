/-
  `Ops.Unfold`: `unfold` and its backward.

  Source: tmb/ops/indexing.mojo (`op_unfold`, `op_unfold_backward`).

  The windows of one dimension become a new last one.  Backwards, windows that are far
  enough apart are disjoint in the output, so the windows are taken in interleaved groups:
  the first one is copied and each other one is added.

  The windows of a group are disjoint in the output, so a group adds at most one gradient to
  an element; the groups partition the windows.
-/
import Mathlib.Algebra.BigOperators.Group.Finset.Basic
import TorchMojoBackend.Ops.Roll

set_option autoImplicit false

namespace TorchMojoBackend.Ops.Unfold

open TorchMojoBackend.Foundation TorchMojoBackend.Ops.Views
open TorchMojoBackend.Ops.Roll (wrapDim set_append_cons getD_append_cons)
open TorchMojoBackend.Ops.ResizeOut (contiguousStrides)

universe u

/-! ## `unfold` -/

/-- A view: its shape, strides and first element. -/
structure View where
  shape : List Nat
  strides : List Int
  offset : Int
  deriving DecidableEq

/-- `op_unfold`. -/
def opUnfold (a : View) (dimension size step : Int) : Except String View :=
  match wrapDim dimension a.shape.length with
  | .error e => .error e
  | .ok d =>
    let maxSize := if a.shape.length = 0 then 1 else a.shape.getD d 0
    if size > maxSize then
      .error ("maximum size for tensor at dimension " ++ toString d ++ " is " ++
        toString maxSize ++ " but size is " ++ toString size)
    else if size < 0 then .error ("size is " ++ toString size ++ " but must be >= 0")
    else if step ≤ 0 then .error ("step is " ++ toString step ++ " but must be > 0")
    else if a.shape.length = 0 then .ok ⟨[size.toNat], [1], a.offset⟩
    else
      .ok ⟨a.shape.set d (((a.shape.getD d 0 : Int) - size) / step + 1).toNat ++ [size.toNat],
        a.strides.set d (a.strides.getD d 0 * step) ++ [a.strides.getD d 0], a.offset⟩

/-! ## `unfold_backward` -/

/-- The views of a group of windows, in the output and in the gradient. -/
structure Group where
  shape : List Nat
  ostrides : List Int
  obase : Int
  gstrides : List Int
  gbase : Int
  deriving DecidableEq

/-- The number of groups. -/
def groupsOf (size step : Nat) : Nat := if step ≥ size then 1 else (size + step - 1) / step

/-- The windows of the group `r`. -/
def countOf (windows groups r : Nat) : Nat := (windows - r + groups - 1) / groups

section
variable {M : Type u} [AddCommMonoid M] (grad : T M)

/-- The body of the loop over the groups, up to the copy or the addition. -/
def group (sizes : List Nat) (d size step r : Nat) : Group :=
  let groups := groupsOf size step
  let od := (contiguousStrides sizes).getD d 0
  let gd := grad.strides.getD d 0
  { shape := sizes.set d (countOf (grad.shape.getD d 0) groups r) ++ [size]
    ostrides := (contiguousStrides sizes).set d (od * step * groups) ++ [od]
    obase := r * step * od
    gstrides := (grad.strides.take sizes.length).set d (gd * groups) ++
      [grad.strides.getD sizes.length 0]
    gbase := grad.offset + r * gd }

/-- `op_unfold_backward`: the groups in order, the first of which is copied. -/
def opUnfoldBackward (sizes : List Nat) (dim : Int) (size step : Nat) :
    Except String (List Group) :=
  if sizes.length = 0 then
    .ok (if size = 1 ∧ grad.numel = 1 then [⟨[], [], 0, [], grad.offset⟩] else [])
  else
    match wrapDim dim sizes.length with
    | .error e => .error e
    | .ok d =>
      let windows := grad.shape.getD d 0
      if grad.numel = 0 ∨ windows = 0 then .ok []
      else .ok ((List.range (min (groupsOf size step) windows)).map (group grad sizes d size step))

/-- The stores of a group to an output that holds `m`. -/
def Group.stores (g : Group) (first : Bool) (m : Int → M) : List (Int × M) :=
  (indices g.shape).map fun x =>
    let o := g.obase + along g.ostrides x
    let v := grad.storage (g.gbase + along g.gstrides x)
    (o, if first then v else m o + v)

/-- The groups one after the other. -/
inductive Run : Bool → List Group → (Int → M) → (Int → M) → Prop
  | done (first : Bool) (m : Int → M) : Run first [] m m
  | group {first : Bool} {g : Group} {rest : List Group} {m m' m'' : Int → M} :
      Stores (g.stores grad first m) m m' → Run false rest m' m'' → Run first (g :: rest) m m''

end

example : (opUnfold ⟨[7], [1], 0⟩ 0 3 2) = .ok ⟨[3, 3], [2, 1], 0⟩ := by rfl

/-! ## Groups of windows -/

theorem groupsOf_pos {size step : Nat} (hstep : 0 < step) : 0 < groupsOf size step := by
  unfold groupsOf
  split
  · exact Nat.one_pos
  · exact Nat.div_pos (by omega) hstep

theorem groupsOf_eq {size step : Nat} (hsize : 0 < size) (hstep : 0 < step) :
    groupsOf size step = (size + step - 1) / step := by
  unfold groupsOf
  split
  · rename_i hle
    exact (Nat.div_eq_of_lt_le (by omega) (by omega)).symm
  · rfl

/-- A group moves on by at least the size of a window. -/
theorem size_le_groupsOf_mul {size step : Nat} (hstep : 0 < step) :
    size ≤ groupsOf size step * step := by
  unfold groupsOf
  split
  · omega
  · have hdiv := Nat.div_add_mod (size + step - 1) step
    have hmod := Nat.mod_lt (size + step - 1) hstep
    rw [Nat.mul_comm] at hdiv
    omega

/-- Two windows of a group are disjoint. -/
theorem group_disjoint {size step r c c' o o' : Nat} (hstep : 0 < step) (ho : o < size)
    (ho' : o' < size) (h : (r + c * groupsOf size step) * step + o =
      (r + c' * groupsOf size step) * step + o') : c = c' ∧ o = o' := by
  have hsize := @size_le_groupsOf_mul size step hstep
  have hexpand : ∀ k, (r + k * groupsOf size step) * step =
      r * step + k * (groupsOf size step * step) := by
    intro k
    rw [Nat.add_mul, Nat.mul_assoc]
  rw [hexpand, hexpand, Nat.add_assoc, Nat.add_assoc] at h
  have hflat := Nat.add_left_cancel h
  exact ⟨(flat_inj (by omega) (by omega) hflat).1, (flat_inj (by omega) (by omega) hflat).2⟩

theorem lt_countOf {windows groups r c : Nat} (hgroups : 0 < groups) (hr : r < windows) :
    c < countOf windows groups r ↔ r + c * groups < windows := by
  unfold countOf
  rw [← Nat.succ_le_iff, Nat.le_div_iff_mul_le hgroups, Nat.succ_mul]
  omega

/-- The groups partition the windows. -/
theorem groups_perm {windows groups : Nat} (hgroups : 0 < groups) :
    ((List.range (min groups windows)).flatMap fun r =>
      (List.range (countOf windows groups r)).map fun c => r + c * groups).Perm
      (List.range windows) := by
  refine (List.perm_ext_iff_of_nodup ?_ List.nodup_range).mpr fun w => ?_
  · refine List.nodup_flatMap.mpr ⟨fun r _ => ?_, ?_⟩
    · refine List.Nodup.map (fun c c' h => ?_) List.nodup_range
      exact Nat.eq_of_mul_eq_mul_right hgroups (Nat.add_left_cancel h)
    · refine List.Pairwise.imp_of_mem (fun {r r'} hr hr' hne => ?_) List.nodup_range
      intro w hw hw'
      obtain ⟨c, -, rfl⟩ := List.mem_map.mp hw
      obtain ⟨c', -, h⟩ := List.mem_map.mp hw'
      have hr := List.mem_range.mp hr
      have hr' := List.mem_range.mp hr'
      rw [Nat.add_comm, Nat.add_comm r] at h
      exact hne (flat_inj (by omega) (by omega) h).2.symm
  · rw [List.mem_flatMap, List.mem_range]
    constructor
    · rintro ⟨r, hr, hw⟩
      obtain ⟨c, hc, rfl⟩ := List.mem_map.mp hw
      have hr := List.mem_range.mp hr
      exact (lt_countOf hgroups (by omega)).mp (List.mem_range.mp hc)
    · intro hw
      have hmod := Nat.mod_lt w hgroups
      have hdiv := Nat.mod_add_div w groups
      rw [Nat.mul_comm] at hdiv
      have hle := Nat.mod_le w groups
      refine ⟨w % groups, List.mem_range.mpr (by omega), List.mem_map.mpr ⟨w / groups, ?_, hdiv⟩⟩
      rw [List.mem_range, lt_countOf hgroups (by omega), hdiv]
      exact hw

/-! ## The views of a group -/

theorem along_mid {front : List Int} {x : List Nat} (hlen : x.length = front.length) (s : Int)
    (back : List Int) (i : Nat) (x' : List Nat) :
    along (front ++ s :: back) (x ++ i :: x') = along front x + (i * s + along back x') := by
  rw [along_append hlen, along]

theorem mem_indices_mid {front back x : List Nat} {n : Nat} :
    x ∈ indices (front ++ n :: back) ↔ ∃ xp ∈ indices front, ∃ i < n, ∃ xq ∈ indices back,
      x = xp ++ i :: xq := by
  rw [indices_append, List.mem_flatMap]
  refine exists_congr fun xp => and_congr_right fun _ => ?_
  rw [indices, List.mem_map]
  constructor
  · rintro ⟨y, hy, rfl⟩
    obtain ⟨i, hi, hy⟩ := List.mem_flatMap.mp hy
    obtain ⟨xq, hxq, rfl⟩ := List.mem_map.mp hy
    exact ⟨i, List.mem_range.mp hi, xq, hxq, rfl⟩
  · rintro ⟨i, hi, xq, hxq, rfl⟩
    exact ⟨i :: xq, List.mem_flatMap.mpr ⟨i, List.mem_range.mpr hi, List.mem_map_of_mem hxq⟩, rfl⟩

/-- A list of strides around one of them. -/
theorem exists_split {l : List Int} {d n : Nat} (hlen : l.length = d + (n + 1)) :
    ∃ front s back, l = front ++ s :: back ∧ front.length = d ∧ back.length = n := by
  refine ⟨l.take d, l.getD d 0, l.drop (d + 1), ?_, by rw [List.length_take]; omega,
    by rw [List.length_drop]; omega⟩
  rw [List.getD_eq_getElem _ _ (by omega), List.cons_getElem_drop_succ, List.take_append_drop]

section
variable {M : Type u} {grad : T M} {front back : List Nat} {n windows size step : Nat}

theorem mem_indices_group {count : Nat} {x : List Nat} :
    x ∈ indices (front ++ count :: (back ++ [size])) ↔ ∃ xp ∈ indices front, ∃ c < count,
      ∃ xq ∈ indices back, ∃ o < size, x = xp ++ c :: (xq ++ [o]) := by
  refine mem_indices_mid.trans (exists_congr fun xp => and_congr_right fun _ =>
    exists_congr fun c => and_congr_right fun _ => ?_)
  constructor
  · rintro ⟨y, hy, rfl⟩
    obtain ⟨xq, hxq, o, ho, _, hnil, rfl⟩ := mem_indices_mid.mp hy
    obtain rfl := List.mem_singleton.mp hnil
    exact ⟨xq, hxq, o, ho, rfl⟩
  · rintro ⟨xq, hxq, o, ho, rfl⟩
    exact ⟨xq ++ [o], mem_indices_mid.mpr ⟨xq, hxq, o, ho, [], List.mem_singleton.mpr rfl, rfl⟩,
      rfl⟩

theorem windows_of_shape (hshape : grad.shape = front ++ windows :: (back ++ [size])) :
    grad.shape.getD front.length 0 = windows := by
  rw [hshape, getD_append_cons]

theorem group_shape (hshape : grad.shape = front ++ windows :: (back ++ [size])) (r : Nat) :
    (group grad (front ++ n :: back) front.length size step r).shape =
      front ++ countOf windows (groupsOf size step) r :: (back ++ [size]) := by
  unfold group
  dsimp only
  rw [windows_of_shape hshape, set_append_cons, List.append_assoc, List.cons_append]

/-- Where an element of a group is in the output. -/
theorem group_out (r : Nat) {xp xq : List Nat} {c o : Nat} (hxp : xp ∈ indices front)
    (hxq : xq ∈ indices back) (hin : (r + c * groupsOf size step) * step + o < n) :
    (group grad (front ++ n :: back) front.length size step r).obase +
      along (group grad (front ++ n :: back) front.length size step r).ostrides
        (xp ++ c :: (xq ++ [o])) =
      flatIndex (front ++ n :: back)
        (xp ++ ((r + c * groupsOf size step) * step + o) :: xq) := by
  have hlenp := length_of_mem_indices hxp
  have hlenq := length_of_mem_indices hxq
  have hmem : xp ++ ((r + c * groupsOf size step) * step + o) :: xq ∈
      indices (front ++ n :: back) := mem_indices_mid.mpr ⟨xp, hxp, _, hin, xq, hxq, rfl⟩
  have hlen : (contiguousStrides (front ++ n :: back)).length =
      front.length + (back.length + 1) := by
    rw [contiguousStrides, List.length_map, List.length_range, List.length_append, List.length_cons]
  obtain ⟨sp, s, sq, heq, hsp, hsq⟩ := exists_split hlen
  rw [← along_contiguousStrides hmem]
  unfold group
  dsimp only
  rw [heq, ← hsp, getD_append_cons, set_append_cons, List.append_assoc, List.cons_append,
    along_mid (hlenp.trans hsp.symm), along_mid (hlenp.trans hsp.symm),
    along_append (hlenq.trans hsq.symm)]
  change (r : Int) * step * s + (along sp xp + (c * (s * step * groupsOf size step) +
    (along sq xq + (o * s + 0)))) = _
  push_cast
  ring

/-- Where an element of a group is in the gradient. -/
theorem group_grad (hshape : grad.shape = front ++ windows :: (back ++ [size])) (r : Nat)
    {xp xq : List Nat} {c o : Nat} (hxp : xp ∈ indices front) (hxq : xq ∈ indices back) :
    (group grad (front ++ n :: back) front.length size step r).gbase +
      along (group grad (front ++ n :: back) front.length size step r).gstrides
        (xp ++ c :: (xq ++ [o])) =
      grad.addr (xp ++ (r + c * groupsOf size step) :: (xq ++ [o])) := by
  have hlenp := length_of_mem_indices hxp
  have hlenq := length_of_mem_indices hxq
  have hlen : grad.strides.length = front.length + (back.length + 1 + 1) := by
    rw [grad.strides_length, hshape, List.length_append, List.length_cons, List.length_append]
    rfl
  obtain ⟨sp, s, rest, heq, hsp, hrest⟩ := exists_split hlen
  obtain ⟨sq, l, tail, rfl, hsq, htail⟩ := exists_split (d := back.length) (n := 0) hrest
  obtain rfl := List.eq_nil_of_length_eq_zero htail
  have hrank : (front ++ n :: back).length = (sp ++ s :: sq).length := by
    rw [List.length_append, List.length_append, List.length_cons, List.length_cons, hsp, hsq]
  have hassoc : sp ++ s :: (sq ++ [l]) = (sp ++ s :: sq) ++ [l] := by
    rw [List.append_assoc, List.cons_append]
  unfold group T.addr
  dsimp only
  rw [hrank, heq, ← hsp, getD_append_cons, hassoc, List.take_left', getD_append_cons,
    set_append_cons, List.append_assoc, List.append_assoc, List.cons_append, List.cons_append,
    along_mid (hlenp.trans hsp.symm), along_mid (hlenp.trans hsp.symm)]
  · push_cast
    ring
  · rfl

/-! ## What a group adds -/

variable [AddCommMonoid M]

/-- The gradient of the window `w` at the offset `o`, if the window has `i` there. -/
def term (grad : T M) (step : Nat) (xp : List Nat) (i : Nat) (xq : List Nat) (w o : Nat) : M :=
  if w * step + o = i then grad.elem (xp ++ w :: (xq ++ [o])) else 0

/-- The gradients of a group at an element. -/
def groupSum (grad : T M) (windows size step r : Nat) (xp : List Nat) (i : Nat) (xq : List Nat) :
    M :=
  ∑ c ∈ Finset.range (countOf windows (groupsOf size step) r), ∑ o ∈ Finset.range size,
    term grad step xp i xq (r + c * groupsOf size step) o

theorem groupSum_hit {r c o : Nat} {xp xq : List Nat} (hstep : 0 < step)
    (hc : c < countOf windows (groupsOf size step) r) (ho : o < size) :
    groupSum grad windows size step r xp ((r + c * groupsOf size step) * step + o) xq =
      grad.elem (xp ++ (r + c * groupsOf size step) :: (xq ++ [o])) := by
  have hzero : ∀ c' o', o' < size → ¬(c' = c ∧ o' = o) →
      term grad step xp ((r + c * groupsOf size step) * step + o) xq
        (r + c' * groupsOf size step) o' = 0 :=
    fun c' o' ho' hne => if_neg fun heq => hne (group_disjoint hstep ho' ho heq)
  unfold groupSum
  rw [Finset.sum_eq_single c, Finset.sum_eq_single o]
  · exact if_pos rfl
  · exact fun o' ho' hne => hzero c o' (Finset.mem_range.mp ho') fun h => hne h.2
  · exact fun hout => absurd (Finset.mem_range.mpr ho) hout
  · intro c' _ hne
    exact Finset.sum_eq_zero fun o' ho' => hzero c' o' (Finset.mem_range.mp ho') fun h => hne h.1
  · exact fun hout => absurd (Finset.mem_range.mpr hc) hout

theorem groupSum_miss {r i : Nat} {xp xq : List Nat}
    (hmiss : ∀ c < countOf windows (groupsOf size step) r, ∀ o < size,
      (r + c * groupsOf size step) * step + o ≠ i) :
    groupSum grad windows size step r xp i xq = 0 :=
  Finset.sum_eq_zero fun c hc => Finset.sum_eq_zero fun o ho =>
    if_neg (hmiss c (Finset.mem_range.mp hc) o (Finset.mem_range.mp ho))

/-- One group: it adds its gradients to every element, to an output that is zero if it is copied. -/
theorem stores_group (hshape : grad.shape = front ++ windows :: (back ++ [size]))
    (hstep : 0 < step) (hfit : ∀ w < windows, w * step + size ≤ n) {r : Nat} (hr : r < windows)
    {first : Bool} {m m' : Int → M} (hzero : first = true → ∀ a, m a = 0)
    (h : Stores ((group grad (front ++ n :: back) front.length size step r).stores grad first m)
      m m') {xp xq : List Nat} {i : Nat} (hxp : xp ∈ indices front) (hi : i < n)
    (hxq : xq ∈ indices back) : m' (flatIndex (front ++ n :: back) (xp ++ i :: xq)) =
      m (flatIndex (front ++ n :: back) (xp ++ i :: xq)) +
        groupSum grad windows size step r xp i xq := by
  have hgroups := @groupsOf_pos size step hstep
  have hmem : xp ++ i :: xq ∈ indices (front ++ n :: back) :=
    mem_indices_mid.mpr ⟨xp, hxp, i, hi, xq, hxq, rfl⟩
  -- the stores to an element come from the windows over it
  have hstore : ∀ a v, (a, v) ∈ (group grad (front ++ n :: back) front.length size step r).stores
      grad first m ↔ ∃ yp ∈ indices front, ∃ c < countOf windows (groupsOf size step) r,
        ∃ yq ∈ indices back, ∃ o < size,
          a = flatIndex (front ++ n :: back)
            (yp ++ ((r + c * groupsOf size step) * step + o) :: yq) ∧
          v = m a + grad.elem (yp ++ (r + c * groupsOf size step) :: (yq ++ [o])) := by
    intro a v
    have hval : ∀ (b : Int) (e : M), (if first = true then e else m b + e) = m b + e := by
      intro b e
      cases first with
      | false => rfl
      | true => rw [if_pos rfl, hzero rfl, zero_add]
    have hin : ∀ {c o}, c < countOf windows (groupsOf size step) r → o < size →
        (r + c * groupsOf size step) * step + o < n := by
      intro c o hc ho
      have hfit := hfit _ ((lt_countOf hgroups hr).mp hc)
      omega
    unfold Group.stores
    rw [List.mem_map]
    dsimp only
    simp only [hval]
    rw [group_shape hshape]
    constructor
    · rintro ⟨x, hx, heq⟩
      obtain ⟨yp, hyp, c, hc, yq, hyq, o, ho, rfl⟩ := mem_indices_group.mp hx
      rw [group_out r hyp hyq (hin hc ho), group_grad hshape r hyp hyq] at heq
      obtain ⟨rfl, rfl⟩ := Prod.mk.inj heq
      exact ⟨yp, hyp, c, hc, yq, hyq, o, ho, rfl, rfl⟩
    · rintro ⟨yp, hyp, c, hc, yq, hyq, o, ho, rfl, rfl⟩
      refine ⟨_, mem_indices_group.mpr ⟨yp, hyp, c, hc, yq, hyq, o, ho, rfl⟩, ?_⟩
      rw [group_out r hyp hyq (hin hc ho), group_grad hshape r hyp hyq]
      rfl
  have hsame : ∀ {yp yq : List Nat} {j : Nat}, yp ∈ indices front → j < n → yq ∈ indices back →
      (flatIndex (front ++ n :: back) (xp ++ i :: xq) : Int) =
        flatIndex (front ++ n :: back) (yp ++ j :: yq) → xp = yp ∧ i = j ∧ xq = yq := by
    intro yp yq j hyp hj hyq heq
    have hindex := flatIndex_inj hmem (mem_indices_mid.mpr ⟨yp, hyp, j, hj, yq, hyq, rfl⟩)
      (Int.ofNat.inj heq)
    obtain ⟨hp, hrest⟩ := List.append_inj hindex
      ((length_of_mem_indices hxp).trans (length_of_mem_indices hyp).symm)
    exact ⟨hp, List.cons.inj hrest⟩
  by_cases hhit : ∃ c < countOf windows (groupsOf size step) r, ∃ o < size,
      (r + c * groupsOf size step) * step + o = i
  · obtain ⟨c, hc, o, ho, rfl⟩ := hhit
    rw [groupSum_hit hstep hc ho]
    refine h.at ((hstore _ _).mpr ⟨xp, hxp, c, hc, xq, hxq, o, ho, rfl, rfl⟩) fun b hb => ?_
    obtain ⟨yp, hyp, c', hc', yq, hyq, o', ho', haddr, rfl⟩ := (hstore _ _).mp hb
    have hfit := hfit _ ((lt_countOf hgroups hr).mp hc')
    obtain ⟨rfl, heq, rfl⟩ := hsame hyp (by omega) hyq haddr
    obtain ⟨rfl, rfl⟩ := group_disjoint hstep ho ho' heq
    rfl
  · have hmiss : ∀ c < countOf windows (groupsOf size step) r, ∀ o < size,
        (r + c * groupsOf size step) * step + o ≠ i :=
      fun c hc o ho heq => hhit ⟨c, hc, o, ho, heq⟩
    rw [groupSum_miss hmiss, add_zero]
    refine h.off fun b hb => ?_
    obtain ⟨yp, hyp, c, hc, yq, hyq, o, ho, haddr, -⟩ := (hstore _ _).mp hb
    have hfit := hfit _ ((lt_countOf hgroups hr).mp hc)
    obtain ⟨-, heq, -⟩ := hsame hyp (by omega) hyq haddr
    exact hmiss c hc o ho heq.symm

/-- The groups one after the other. -/
theorem run_groups (hshape : grad.shape = front ++ windows :: (back ++ [size])) (hstep : 0 < step)
    (hfit : ∀ w < windows, w * step + size ≤ n) {l : List Nat} (hl : ∀ r ∈ l, r < windows)
    {first : Bool} {m m' : Int → M} (hzero : first = true → ∀ a, m a = 0)
    (h : Run grad first (l.map (group grad (front ++ n :: back) front.length size step)) m m')
    {xp xq : List Nat} {i : Nat} (hxp : xp ∈ indices front) (hi : i < n) (hxq : xq ∈ indices back) :
    m' (flatIndex (front ++ n :: back) (xp ++ i :: xq)) =
      m (flatIndex (front ++ n :: back) (xp ++ i :: xq)) +
        (l.map fun r => groupSum grad windows size step r xp i xq).sum := by
  induction l generalizing first m with
  | nil =>
      cases h
      exact (add_zero _).symm
  | cons r l ih =>
      obtain _ | ⟨hstores, hrest⟩ := h
      have hone := stores_group hshape hstep hfit (hl r List.mem_cons_self) hzero hstores hxp hi hxq
      have hothers := ih (fun r' hr' => hl r' (List.mem_cons_of_mem r hr'))
        (fun h : false = true => nomatch h) hrest
      rw [hothers, hone, List.map_cons, List.sum_cons, add_assoc]

theorem sum_range_list {N : Type u} [AddCommMonoid N] (k : Nat) (f : Nat → N) :
    ∑ i ∈ Finset.range k, f i = ((List.range k).map f).sum := rfl

/-- The groups together have every window once. -/
theorem sum_groups {groups : Nat} (hgroups : 0 < groups) (f : Nat → M) :
    ((List.range (min groups windows)).map fun r =>
      ∑ c ∈ Finset.range (countOf windows groups r), f (r + c * groups)).sum =
    ∑ w ∈ Finset.range windows, f w := by
  rw [sum_range_list, ← ((groups_perm hgroups).map f).sum_eq, List.map_flatMap, List.flatMap_def,
    List.sum_flatten, List.map_map]
  refine congrArg List.sum (List.map_congr_left fun r _ => ?_)
  rw [Function.comp_apply, List.map_map]
  exact sum_range_list _ _

end

/-! ## The backward -/

/-- The gradients of all windows over an element. -/
def backward {M : Type u} [AddCommMonoid M] (grad : T M) (d size step : Nat) (x : List Nat) : M :=
  ∑ w ∈ Finset.range (grad.shape.getD d 0), ∑ o ∈ Finset.range size,
    if w * step + o = x.getD d 0 then grad.elem (x.set d w ++ [o]) else 0

/-- A group reads and writes inside its operands. -/
def InBounds {M : Type u} (grad : T M) (sizes : List Nat) (g : Group) : Prop :=
  ∀ x ∈ indices g.shape,
    (∃ y ∈ indices sizes, g.obase + along g.ostrides x = flatIndex sizes y) ∧
      ∃ z ∈ indices grad.shape, g.gbase + along g.gstrides x = grad.addr z

theorem wrapDim_lt {dim : Int} {rank d : Nat} (h : wrapDim dim rank = .ok d) : d < max rank 1 := by
  unfold wrapDim at h
  dsimp only at h
  generalize (if dim < 0 then dim + max (rank : Int) 1 else dim) = e at h
  by_cases hscalar : rank = 0 ∧ dim ≠ 0 ∧ dim ≠ -1
  · rw [if_pos hscalar] at h
    exact nomatch h
  · rw [if_neg hscalar] at h
    by_cases hout : e < 0 ∨ max (rank : Int) 1 ≤ e
    · rw [if_pos hout] at h
      exact nomatch h
    · rw [if_neg hout] at h
      obtain rfl := Except.ok.inj h
      omega

/-- What `unfold` says of its arguments and of the shape of its result. -/
theorem opUnfold_ok {a v : View} {dim size step : Int} (h : opUnfold a dim size step = .ok v) :
    ∃ d, wrapDim dim a.shape.length = .ok d ∧ 0 ≤ size ∧ 0 < step ∧
      (a.shape.length = 0 → size ≤ 1 ∧ v.shape = [size.toNat]) ∧
      (a.shape.length ≠ 0 → size ≤ a.shape.getD d 0 ∧ v.shape =
        a.shape.set d (((a.shape.getD d 0 : Int) - size) / step + 1).toNat ++ [size.toNat]) := by
  unfold opUnfold at h
  cases hdim : wrapDim dim a.shape.length with
  | error e =>
      rw [hdim] at h
      exact nomatch h
  | ok d =>
      rw [hdim] at h
      dsimp only at h
      by_cases hmax : size > ((if a.shape.length = 0 then 1 else a.shape.getD d 0 : Nat) : Int)
      · rw [if_pos hmax] at h
        exact nomatch h
      · rw [if_neg hmax] at h
        by_cases hneg : size < 0
        · rw [if_pos hneg] at h
          exact nomatch h
        · rw [if_neg hneg] at h
          by_cases hstep : step ≤ 0
          · rw [if_pos hstep] at h
            exact nomatch h
          · rw [if_neg hstep] at h
            refine ⟨d, rfl, by omega, by omega, fun hrank => ?_, fun hrank => ?_⟩
            · rw [if_pos hrank] at h hmax
              obtain rfl := Except.ok.inj h
              exact ⟨by omega, rfl⟩
            · rw [if_neg hrank] at h hmax
              obtain rfl := Except.ok.inj h
              exact ⟨by omega, rfl⟩

/-- A shape around one of its dimensions. -/
theorem exists_front {sizes : List Nat} {d : Nat} (hd : d < sizes.length) :
    ∃ front n back, sizes = front ++ n :: back ∧ front.length = d :=
  ⟨sizes.take d, sizes.get ⟨d, hd⟩, sizes.drop (d + 1),
    by rw [List.get_eq_getElem, List.cons_getElem_drop_succ, List.take_append_drop],
    by rw [List.length_take]; omega⟩

section
variable {M : Type u} [AddCommMonoid M] {grad : T M} {front back : List Nat}
  {n windows size step : Nat}

omit [AddCommMonoid M] in
theorem inBounds_group (hshape : grad.shape = front ++ windows :: (back ++ [size]))
    (hstep : 0 < step) (hfit : ∀ w < windows, w * step + size ≤ n) {r : Nat} (hr : r < windows) :
    InBounds grad (front ++ n :: back)
      (group grad (front ++ n :: back) front.length size step r) := by
  intro x hx
  rw [group_shape hshape] at hx
  obtain ⟨xp, hxp, c, hc, xq, hxq, o, ho, rfl⟩ := mem_indices_group.mp hx
  have hwindow := (lt_countOf (groupsOf_pos hstep) hr).mp hc
  have hin := hfit _ hwindow
  refine ⟨⟨_, ?_, group_out r hxp hxq (by omega)⟩, ⟨_, ?_, group_grad hshape r hxp hxq⟩⟩
  · exact mem_indices_mid.mpr ⟨xp, hxp, _, by omega, xq, hxq, rfl⟩
  · rw [hshape]
    exact mem_indices_group.mpr ⟨xp, hxp, _, hwindow, xq, hxq, o, ho, rfl⟩

/-- A dimension: the groups sum the gradients of all windows over every element. -/
theorem backward_run (hshape : grad.shape = front ++ windows :: (back ++ [size]))
    (hstep : 0 < step) (hfit : ∀ w < windows, w * step + size ≤ n) {m m' : Int → M}
    (hzero : ∀ a, m a = 0) (h : Run grad true ((List.range (min (groupsOf size step) windows)).map
      (group grad (front ++ n :: back) front.length size step)) m m')
    {x : List Nat} (hx : x ∈ indices (front ++ n :: back)) :
    m' (flatIndex (front ++ n :: back) x) = backward grad front.length size step x := by
  obtain ⟨xp, hxp, i, hi, xq, hxq, rfl⟩ := mem_indices_mid.mp hx
  have hlenp := length_of_mem_indices hxp
  have hl : ∀ r ∈ List.range (min (groupsOf size step) windows), r < windows := by
    intro r hr
    have hr := List.mem_range.mp hr
    omega
  rw [run_groups hshape hstep hfit hl (fun _ => hzero) h hxp hi hxq, hzero, zero_add]
  unfold groupSum backward
  rw [windows_of_shape hshape, sum_groups (groupsOf_pos hstep) fun w =>
    ∑ o ∈ Finset.range size, term grad step xp i xq w o]
  refine Finset.sum_congr rfl fun w _ => Finset.sum_congr rfl fun o _ => ?_
  rw [← hlenp, getD_append_cons, set_append_cons, List.append_assoc, List.cons_append]
  rfl

end

/-- For every gradient of an accepted `unfold`, the backward sums at each element the gradients of
all windows over it. Its groups partition the windows, the windows of one are disjoint, and it
reads and writes inside its operands. -/
theorem unfold_backward {M : Type u} [AddCommMonoid M] {grad : T M} {a v : View} {dim : Int}
    {size step : Nat} (hunfold : opUnfold a dim size step = .ok v) (hsize : 0 < size)
    (hshape : grad.shape = v.shape) : ∃ d groups, wrapDim dim a.shape.length = .ok d ∧
      opUnfoldBackward grad a.shape dim size step = .ok groups ∧
      (∀ m m' : Int → M, (∀ i, m i = 0) → Run grad true groups m m' → ∀ x ∈ indices a.shape,
        m' (flatIndex a.shape x) = backward grad d size step x) ∧
      (∀ g ∈ groups, InBounds grad a.shape g) ∧
      groupsOf size step = (size + step - 1) / step ∧
      ((List.range (min (groupsOf size step) (grad.shape.getD d 0))).flatMap fun r =>
        (List.range (countOf (grad.shape.getD d 0) (groupsOf size step) r)).map fun c =>
          r + c * groupsOf size step).Perm (List.range (grad.shape.getD d 0)) ∧
      ∀ r c c' o o' : Nat, c ≠ c' → o < size → o' < size →
        (r + c * groupsOf size step) * step + o ≠ (r + c' * groupsOf size step) * step + o' := by
  obtain ⟨d, hdim, -, hstep, hscalar, htensor⟩ := opUnfold_ok hunfold
  have hstep : 0 < step := by omega
  have hparts := groupsOf_eq hsize hstep
  have hperm := @groups_perm (grad.shape.getD d 0) _ (@groupsOf_pos size step hstep)
  have hdisjoint : ∀ r c c' o o' : Nat, c ≠ c' → o < size → o' < size →
      (r + c * groupsOf size step) * step + o ≠ (r + c' * groupsOf size step) * step + o' :=
    fun r c c' o o' hne ho ho' heq => hne (group_disjoint hstep ho ho' heq).1
  by_cases hrank : a.shape.length = 0
  · obtain ⟨hone, hv⟩ := hscalar hrank
    obtain rfl : size = 1 := by omega
    have hnil : a.shape = [] := List.eq_nil_of_length_eq_zero hrank
    have hgshape : grad.shape = [1] := hshape.trans hv
    have hnumel : grad.numel = 1 := by rw [T.numel, hgshape, List.prod_singleton]
    have hd := wrapDim_lt hdim
    obtain rfl : d = 0 := by omega
    obtain ⟨s, hs⟩ := List.length_eq_one_iff.mp (grad.strides_length.trans (by rw [hgshape]; rfl))
    have haddr : grad.addr [0] = grad.offset + (0 + 0) := by
      rw [T.addr, hs]
      change grad.offset + (((0 : Nat) : Int) * s + 0) = _
      rw [Nat.cast_zero, Int.zero_mul]
    refine ⟨0, [⟨[], [], 0, [], grad.offset⟩], hdim, ?_, ?_, ?_, hparts, hperm, hdisjoint⟩
    · unfold opUnfoldBackward
      rw [if_pos hrank, if_pos ⟨rfl, hnumel⟩]
    · intro m m' _ hrun x hx
      rw [hnil] at hx ⊢
      obtain rfl := List.mem_singleton.mp hx
      obtain _ | ⟨hstores, hrest⟩ := hrun
      cases hrest
      have hat := hstores.at (a := 0) (b := grad.elem [0]) (List.mem_singleton.mpr ?_) ?_
      · rw [backward, hgshape]
        change m' 0 = ∑ w ∈ Finset.range 1, ∑ o ∈ Finset.range 1, _
        rw [Finset.sum_range_one, Finset.sum_range_one, Nat.zero_mul]
        exact hat
      · rw [T.elem, haddr]
        rfl
      · intro b hb
        have heq := List.mem_singleton.mp hb
        rw [T.elem, haddr]
        exact (Prod.mk.inj heq).2
    · intro g hg x hx
      obtain rfl := List.mem_singleton.mp hg
      obtain rfl := List.mem_singleton.mp hx
      rw [hnil, hgshape]
      exact ⟨⟨[], List.mem_singleton.mpr rfl, rfl⟩, [0], by decide, haddr.symm⟩
  · obtain ⟨hle, hv⟩ := htensor hrank
    have hd := wrapDim_lt hdim
    obtain ⟨front, n, back, hsizes, rfl⟩ := @exists_front a.shape d (by omega)
    rw [hsizes, getD_append_cons] at hle hv
    rw [set_append_cons, Int.toNat_natCast, List.append_assoc, List.cons_append] at hv
    obtain ⟨windows, hwindows⟩ : ∃ w, w = (((n : Int) - size) / step + 1).toNat := ⟨_, rfl⟩
    rw [← hwindows] at hv
    have hgshape := hshape.trans hv
    have hdivpos : 0 ≤ ((n : Int) - size) / step := Int.ediv_nonneg (by omega) (by omega)
    have hfit : ∀ w < windows, w * step + size ≤ n := by
      intro w hw
      have hw : (w : Int) ≤ ((n : Int) - size) / step := by omega
      have hmul := (Int.le_ediv_iff_mul_le (by omega : (0 : Int) < step)).mp hw
      have hcast : ((w * step : Nat) : Int) = (w : Int) * step := Nat.cast_mul w step
      omega
    have hcount := windows_of_shape hgshape
    have hwpos : windows ≠ 0 := by omega
    rw [hsizes]
    have hdimf : wrapDim dim (front ++ n :: back).length = .ok front.length := hsizes ▸ hdim
    by_cases hempty : grad.numel = 0
    · have hnone : ∀ g ∈ ([] : List Group), InBounds grad (front ++ n :: back) g :=
        fun g hg => absurd hg List.not_mem_nil
      refine ⟨front.length, [], hdimf, ?_, ?_, hnone, hparts, hperm, hdisjoint⟩
      · unfold opUnfoldBackward
        rw [if_neg (hsizes ▸ hrank), hdimf]
        exact if_pos (.inl hempty)
      · intro m m' _ _ x hx
        rw [T.numel, hgshape, List.prod_append, List.prod_cons, List.prod_append,
          List.prod_singleton] at hempty
        have hprod : (front ++ n :: back).prod = 0 := by
          rw [List.prod_append, List.prod_cons]
          simp only [Nat.mul_eq_zero, hwpos, hsize.ne', false_or, or_false] at hempty ⊢
          exact hempty.imp_right .inr
        have hlt := flatIndex_lt hx
        omega
    · refine ⟨front.length, (List.range (min (groupsOf size step)
        (grad.shape.getD front.length 0))).map
          (group grad (front ++ n :: back) front.length size step), hdimf, ?_, ?_, ?_, hparts,
        hperm, hdisjoint⟩
      · unfold opUnfoldBackward
        rw [if_neg (hsizes ▸ hrank), hdimf]
        exact if_neg (by rintro (h | h); exacts [hempty h, hwpos (hcount.symm.trans h)])
      · intro m m' hzero hrun x hx
        rw [hcount] at hrun
        exact backward_run hgshape hstep hfit hzero hrun hx
      · intro g hg
        obtain ⟨r, hr, rfl⟩ := List.mem_map.mp hg
        have hr := List.mem_range.mp hr
        rw [hcount] at hr
        exact inBounds_group hgshape hstep hfit (by omega)

theorem unfold_backward_three :
    let grad : T Int := ⟨[2, 2], [2, 1], 0, fun i => i, rfl⟩
    ∃ (d : Nat) (groups : List Group), opUnfoldBackward grad [3] 0 2 1 = .ok groups ∧
      ∀ m m' : Int → Int, (∀ i, m i = 0) → Run grad true groups m m' → ∀ x ∈ indices [3],
        m' (flatIndex [3] x) = backward grad d 2 1 x := by
  intro grad
  have hunfold : opUnfold ⟨[3], [1], 0⟩ 0 (2 : Nat) (1 : Nat) = .ok ⟨[2, 2], [1, 1], 0⟩ := by rfl
  obtain ⟨d, groups, -, hgroups, hrun, -⟩ :=
    @unfold_backward Int _ grad _ _ _ _ _ hunfold (by decide) rfl
  exact ⟨d, groups, hgroups, hrun⟩

end TorchMojoBackend.Ops.Unfold
