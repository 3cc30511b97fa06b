/-
  `Kernels.RandomFillPlan`: the pieces of a random fill partition its elements.

  Sorting permutes the dimensions, whatever the comparisons say, and coalescing keeps the
  offsets, so the plan has those of the output.  A plan that does not fit has a dimension
  of two elements at least, and the longest is one of them: its halves have fewer elements,
  and together the offsets of the plan.
-/
import Mathlib.Tactic.Linarith
import TorchMojoBackend.Kernels.RandomFill

set_option autoImplicit false

namespace TorchMojoBackend.Kernels.RandomFill

open TorchMojoBackend.Foundation TorchMojoBackend.Kernels.OpUtils

/-! ## Planning -/

theorem sinkDim_perm (x : Dim Int) (rest skipped : List (Dim Int)) :
    (sinkDim x skipped rest).Perm (x :: (skipped ++ rest)) := by
  induction rest generalizing skipped with
  | nil =>
      rw [List.append_nil]
      exact List.Perm.refl _
  | cons y rest ih =>
      unfold sinkDim
      cases shouldSwap y x with
      | gt =>
          have hrest := ih []
          rw [List.nil_append] at hrest
          refine ((hrest.append_left (y :: skipped)).trans List.perm_middle).trans ?_
          refine List.Perm.cons x ?_
          exact List.perm_middle.symm
      | lt => exact List.Perm.refl _
      | eq =>
          have hrest := ih (skipped ++ [y])
          rwa [List.append_assoc] at hrest

theorem reorder_perm (ds : List (Dim Int)) : (reorder ds).Perm ds := by
  have hfold : ∀ l sorted : List (Dim Int),
      (l.foldl (fun sorted x => sinkDim x [] sorted) sorted).Perm (l ++ sorted) := by
    intro l
    induction l with
    | nil => exact fun sorted => List.Perm.refl _
    | cons x l ih =>
        intro sorted
        have hsink := sinkDim_perm x sorted []
        rw [List.nil_append] at hsink
        exact (ih _).trans ((hsink.append_left l).trans List.perm_middle)
  refine (List.reverse_perm _).trans ((hfold _ _).trans ?_)
  rw [List.append_nil]
  exact List.reverse_perm ds

/-- The dimensions of a plan go up. -/
def Ascends (ds : List (Dim Int)) : Prop := ∀ d ∈ ds, 1 < d.extent → 0 ≤ d.stride

theorem coalesce_spec (prev : Dim Int) (ds : List (Dim Int)) (h : Ascends (prev :: ds)) :
    (offsets (coalesce prev ds)).Perm (offsets (prev :: ds)) ∧ Ascends (coalesce prev ds) := by
  induction ds generalizing prev with
  | nil => exact ⟨List.Perm.refl _, h⟩
  | cons d ds ih =>
      unfold coalesce
      have hd : Ascends (d :: ds) := fun e he => h e (List.mem_cons_of_mem _ he)
      split
      · rename_i hcan
        have hnext : Ascends (⟨prev.extent * d.extent,
            if prev.extent = 1 then d.stride else prev.stride⟩ :: ds) := by
          intro e he hlong
          obtain rfl | he := List.mem_cons.mp he
          · dsimp only at hlong ⊢
            split
            · rename_i hone
              rw [hone, Nat.one_mul] at hlong
              exact h d (List.mem_cons_of_mem _ List.mem_cons_self) hlong
            · rename_i hone
              have hpos : prev.extent ≠ 0 := fun hzero => by
                rw [hzero, Nat.zero_mul] at hlong
                omega
              exact h prev List.mem_cons_self (by omega)
          · exact hd e (List.mem_cons_of_mem _ he) hlong
        obtain ⟨hperm, hasc⟩ := ih _ hnext
        refine ⟨hperm.trans ?_, hasc⟩
        by_cases hone : prev.extent = 1
        · rw [if_pos hone, hone, Nat.one_mul, offsets_one hone]
        · rw [if_neg hone]
          refine List.Perm.trans ?_ (offsets_swap d prev ds)
          obtain hone' | hone' | htile := hcan
          · exact absurd hone' hone
          · rw [hone', Nat.mul_one, offsets_one hone']
          · have hmerge := offsets_merge d.extent prev ds
            rw [nsmul_eq_mul, htile] at hmerge
            rw [Nat.mul_comm, ← hmerge]
      · obtain ⟨hperm, hasc⟩ := ih d hd
        refine ⟨offsets_cons_perm prev hperm, fun e he => ?_⟩
        obtain rfl | he := List.mem_cons.mp he
        · exact h _ List.mem_cons_self
        · exact hasc e he

/-- With distinct offsets a dimension of two elements has a stride. -/
theorem stride_ne_zero {d : Dim Int} {ds : List (Dim Int)} (hnodup : (offsets (d :: ds)).Nodup)
    (hlong : 1 < d.extent) (hcount : count ds ≠ 0) : d.stride ≠ 0 := by
  intro hzero
  obtain ⟨o, rest, ho⟩ := List.exists_cons_of_ne_nil
    (List.ne_nil_of_length_pos (Nat.pos_of_ne_zero (length_offsets ds ▸ hcount)))
  obtain ⟨n, hn⟩ := Nat.exists_eq_add_of_lt hlong
  -- the elements at 0 and at 1 coincide
  have hfirst : o ∈ offsets (⟨1, d.stride⟩ :: ds) :=
    mem_offsets_cons.mpr ⟨0, Nat.one_pos, o, ho ▸ List.mem_cons_self, by rw [zero_nsmul, zero_add]⟩
  have hsecond : o ∈ (offsets (⟨n + 1, d.stride⟩ :: ds)).map (1 • d.stride + ·) :=
    List.mem_map.mpr ⟨o, mem_offsets_cons.mpr ⟨0, Nat.succ_pos n, o, ho ▸ List.mem_cons_self,
      by rw [zero_nsmul, zero_add]⟩, by rw [hzero, nsmul_zero, zero_add]⟩
  have hsplit := offsets_split 1 (n + 1) d.stride ds
  rw [← Nat.add_assoc, ← hn] at hsplit
  have hd : (⟨d.extent, d.stride⟩ : Dim Int) = d := rfl
  rw [hd] at hsplit
  rw [hsplit] at hnodup
  exact (List.nodup_append.mp hnodup).2.2 o hfirst o hsecond rfl

/-- A plan with its elements: it is not empty, goes up and no two offsets coincide. -/
structure Plan.Ok (p : Plan) : Prop where
  numel_eq : p.numel = count p.dims
  numel_ne : p.numel ≠ 0
  ascends : Ascends p.dims
  nodup : (offsets p.dims).Nodup

/-- Each dimension of a plan that is longer than one goes up strictly. -/
theorem Plan.Ok.stride_pos {p : Plan} (h : p.Ok) {i : Nat} (hi : i < p.dims.length)
    (hlong : 1 < p.dims[i].extent) : 0 < p.dims[i].stride := by
  have hperm := List.getElem_cons_eraseIdx_perm hi
  have hne : p.dims[i].stride ≠ 0 := by
    refine @stride_ne_zero _ (p.dims.eraseIdx i) ?_ hlong fun hzero => h.numel_ne ?_
    · exact (offsets_perm hperm).nodup_iff.mpr h.nodup
    · rw [h.numel_eq, ← count_perm hperm, count_cons, hzero, Nat.mul_zero]
  exact lt_of_le_of_ne (h.ascends _ (List.getElem_mem hi) hlong) hne.symm

/-- The plan of an output has its offsets. -/
theorem plan_ok {ds : List (Dim Int)} (hasc : Ascends ds) (hnodup : (offsets ds).Nodup)
    (hcount : count ds ≠ 0) : ∃ p, plan ds = some p ∧ p.base = 0 ∧ p.numel = count ds ∧ p.Ok ∧
      (offsets p.dims).Perm (offsets ds) := by
  unfold plan
  by_cases hnil : ds = []
  · subst hnil
    refine ⟨_, if_pos rfl, rfl, rfl, ⟨rfl, Nat.one_ne_zero, ?_, ?_⟩, List.Perm.refl _⟩
    · intro d hd hlong
      obtain rfl := List.mem_singleton.mp hd
      exact absurd hlong (Nat.lt_irrefl 1)
    · exact List.nodup_singleton _
  · have hnone : ¬ (ds.any fun d => decide (d.extent > 1) && decide (d.stride = 0)) = true := by
      rw [List.any_eq_true]
      rintro ⟨d, hd, hexpanded⟩
      rw [Bool.and_eq_true, decide_eq_true_eq, decide_eq_true_eq] at hexpanded
      have hperm := List.perm_cons_erase hd
      refine @stride_ne_zero _ (ds.erase d) ?_ hexpanded.1 (fun hzero => hcount ?_) hexpanded.2
      · exact (offsets_perm hperm).nodup_iff.mp hnodup
      · rw [count_perm hperm, count_cons, hzero, Nat.mul_zero]
    rw [if_neg hnil, if_neg hnone]
    have hperm := reorder_perm ds
    cases hreorder : reorder ds with
    | nil =>
        rw [hreorder] at hperm
        exact absurd hperm.symm.eq_nil hnil
    | cons d rest =>
        rw [hreorder] at hperm
        obtain ⟨hsame, hup⟩ := coalesce_spec d rest fun e he => hasc e (hperm.mem_iff.mp he)
        have hall := hsame.trans (offsets_perm hperm)
        refine ⟨_, rfl, rfl, rfl, ⟨?_, hcount, hup, hall.nodup_iff.mpr hnodup⟩, hall⟩
        dsimp only
        rw [← length_offsets, ← length_offsets, hall.length_eq]

/-! ## Splitting -/

variable {itemsize : Nat} {p : Plan}

/-- The longest dimension of some. -/
theorem foldl_longer (l : List Nat) (acc : Int × Option Nat) :
    let found := l.foldl (longer itemsize p) acc
    acc.1 ≤ found.1 ∧ (∀ i ∈ l, ∀ e, extentAt itemsize p i = some e → e ≤ found.1) ∧
      (found = acc ∨ ∃ i ∈ l, found.2 = some i ∧ extentAt itemsize p i = some found.1) := by
  induction l generalizing acc with
  | nil => exact ⟨le_refl _, fun i hi => absurd hi List.not_mem_nil, .inl rfl⟩
  | cons i l ih =>
      obtain ⟨hacc, hall, hwhich⟩ := ih (longer itemsize p acc i)
      have hstep : acc.1 ≤ (longer itemsize p acc i).1 ∧
          (∀ e, extentAt itemsize p i = some e → e ≤ (longer itemsize p acc i).1) ∧
          (longer itemsize p acc i = acc ∨ (longer itemsize p acc i).2 = some i ∧
            extentAt itemsize p i = some (longer itemsize p acc i).1) := by
        unfold longer
        cases hextent : extentAt itemsize p i with
        | none => exact ⟨le_refl _, fun e he => absurd he (Option.some_ne_none e).symm, .inl rfl⟩
        | some extent =>
            dsimp only
            split
            · exact ⟨le_of_lt ‹_›, fun e he => le_of_eq (Option.some.inj he).symm, .inr ⟨rfl, rfl⟩⟩
            · refine ⟨le_refl _, fun e he => ?_, .inl rfl⟩
              rw [← Option.some.inj he]
              exact le_of_not_gt ‹_›
      refine ⟨hstep.1.trans hacc, fun j hj e he => ?_, ?_⟩
      · obtain rfl | hj := List.mem_cons.mp hj
        · exact (hstep.2.1 e he).trans hacc
        · exact hall j hj e he
      · obtain hsame | ⟨j, hj, hfound⟩ := hwhich
        · obtain hkeep | ⟨hset, hextent⟩ := hstep.2.2
          · exact .inl (hsame.trans hkeep)
          · refine .inr ⟨i, List.mem_cons_self, ?_, ?_⟩
            · exact (congrArg Prod.snd hsame).trans hset
            · rw [hextent]
              exact congrArg some (congrArg Prod.fst hsame).symm
        · exact .inr ⟨j, List.mem_cons_of_mem _ hj, hfound⟩

theorem extentAt_eq {i : Nat} (hi : i < p.dims.length) (hpos : p.dims[i].extent ≠ 0) :
    extentAt itemsize p i =
      some (((p.dims[i].extent : Int) - 1) * |p.dims[i].stride * itemsize|) := by
  have hget : p.dims.getD i ⟨0, 0⟩ = p.dims[i] := by
    rw [List.getD_eq_getElem?_getD, List.getElem?_eq_getElem hi, Option.getD_some]
  unfold extentAt
  rw [hget]
  exact if_pos hpos

/-- Every dimension of a plan has elements. -/
theorem Plan.Ok.extent_ne (h : p.Ok) {i : Nat} (hi : i < p.dims.length) :
    p.dims[i].extent ≠ 0 := by
  intro hzero
  refine h.numel_ne ?_
  rw [h.numel_eq, ← count_perm (List.getElem_cons_eraseIdx_perm hi), count_cons, hzero,
    Nat.zero_mul]

/-- A plan that does not fit has a dimension to split. -/
theorem Plan.Ok.exists_long (h : p.Ok) (hfits : fits32bit itemsize p ≠ true) :
    ∃ i, ∃ hi : i < p.dims.length, 1 < p.dims[i].extent := by
  by_contra hnone
  push Not at hnone
  have hone : ∀ d ∈ p.dims, d.extent = 1 := by
    intro d hd
    obtain ⟨i, hi, rfl⟩ := List.getElem_of_mem hd
    have := hnone i hi
    have := h.extent_ne hi
    omega
  apply hfits
  unfold fits32bit
  rw [Bool.and_eq_true, decide_eq_true_eq, decide_eq_true_eq]
  constructor
  · rw [h.numel_eq]
    have hcount : count p.dims = 1 := by
      refine List.prod_eq_one fun x hx => ?_
      obtain ⟨d, hd, rfl⟩ := List.mem_map.mp hx
      exact hone d hd
    rw [hcount]
    decide
  · have hsum : (p.dims.map fun d => ((d.extent : Int) - 1) * d.stride * itemsize).sum = 0 := by
      refine List.sum_eq_zero fun x hx => ?_
      obtain ⟨d, hd, rfl⟩ := List.mem_map.mp hx
      rw [hone d hd, Nat.cast_one, sub_self, zero_mul, zero_mul]
    rw [hsum]
    decide

theorem Plan.Ok.dimToSplit (h : p.Ok) (hitem : 0 < itemsize)
    (hfits : fits32bit itemsize p ≠ true) : ∃ i, ∃ hi : i < p.dims.length,
      RandomFill.dimToSplit itemsize p = some i ∧ 1 < p.dims[i].extent := by
  obtain ⟨j, hj, hlong⟩ := h.exists_long hfits
  have hstride := h.stride_pos hj hlong
  obtain ⟨-, hall, hwhich⟩ := @foldl_longer itemsize p
    (List.range p.dims.length).reverse (-1, none)
  have hitem : (0 : Int) < itemsize := by exact_mod_cast hitem
  have hpos : 0 < ((p.dims[j].extent : Int) - 1) * |p.dims[j].stride * itemsize| :=
    mul_pos (by omega) (abs_pos.mpr (ne_of_gt (mul_pos hstride hitem)))
  have hbest := hall j (List.mem_reverse.mpr (List.mem_range.mpr hj)) _
    (extentAt_eq hj (h.extent_ne hj))
  obtain hsame | ⟨i, hi, hfound, hextent⟩ := hwhich
  · rw [hsame] at hbest
    exact absurd (lt_of_lt_of_le hpos hbest) (by decide)
  · have hi := List.mem_range.mp (List.mem_reverse.mp hi)
    refine ⟨i, hi, hfound, ?_⟩
    rw [extentAt_eq hi (h.extent_ne hi)] at hextent
    have hne := h.extent_ne hi
    by_contra hshort
    have hone : p.dims[i].extent = 1 := by omega
    have hzero := Option.some.inj hextent
    rw [hone, Nat.cast_one, sub_self, zero_mul] at hzero
    rw [← hzero] at hbest
    exact absurd hpos (not_lt_of_ge hbest)

/-- The offsets of the elements of a piece. -/
def Plan.elements (p : Plan) : List Int := (offsets p.dims).map (p.base + ·)

/-- A part of a plan along one dimension. -/
def Plan.part (p : Plan) (i n : Nat) (numel : Nat) (base : Int) (s : Int) : Plan :=
  ⟨p.dims.set i ⟨n, s⟩, numel, base⟩

theorem Plan.Ok.part (h : p.Ok) {i n : Nat} (hi : i < p.dims.length) (hn : n ≤ p.dims[i].extent)
    (hpos : 0 < n) (hnodup : (offsets (⟨n, p.dims[i].stride⟩ :: p.dims.eraseIdx i)).Nodup)
    (base : Int) :
    (p.part i n (n * count (p.dims.eraseIdx i)) base p.dims[i].stride).Ok := by
  have hperm := List.set_perm_cons_eraseIdx hi (⟨n, p.dims[i].stride⟩ : Dim Int)
  have hrest : count (p.dims.eraseIdx i) ≠ 0 := fun hzero => h.numel_ne (by
    rw [h.numel_eq, ← count_perm (List.getElem_cons_eraseIdx_perm hi), count_cons, hzero,
      Nat.mul_zero])
  refine ⟨?_, Nat.mul_ne_zero (Nat.ne_of_gt hpos) hrest, fun d hd hlong => ?_, ?_⟩
  · exact ((count_perm hperm).trans (count_cons _ _)).symm
  · obtain rfl | hd := List.mem_cons.mp (hperm.mem_iff.mp hd)
    · exact h.ascends p.dims[i] (List.getElem_mem hi) (Nat.lt_of_lt_of_le hlong hn)
    · exact h.ascends d (List.mem_of_mem_eraseIdx hd) hlong
  · exact (offsets_perm hperm).nodup_iff.mpr hnodup

/-- The halves of a plan: both are plans, smaller, and partition its elements. -/
theorem Plan.Ok.halves (h : p.Ok) {i : Nat} (hi : i < p.dims.length)
    (hlong : 1 < p.dims[i].extent) :
    let n := p.dims[i].extent / 2
    let numel := p.numel / p.dims[i].extent * n
    let first := p.part i n numel p.base p.dims[i].stride
    let second := p.part i (p.dims[i].extent - n) (p.numel - numel)
      (p.base + n * p.dims[i].stride) p.dims[i].stride
    (first.Ok ∧ first.numel < p.numel) ∧ (second.Ok ∧ second.numel < p.numel) ∧
      (first.elements ++ second.elements).Perm p.elements := by
  intro n numel first second
  have hget := List.getElem_cons_eraseIdx_perm hi
  have hcount : p.numel = p.dims[i].extent * count (p.dims.eraseIdx i) := by
    rw [h.numel_eq, ← count_perm hget, count_cons]
  have hrest : 0 < count (p.dims.eraseIdx i) :=
    Nat.pos_of_ne_zero fun hzero => h.numel_ne (by rw [hcount, hzero, Nat.mul_zero])
  have hn : 0 < n ∧ n < p.dims[i].extent := by
    change 0 < p.dims[i].extent / 2 ∧ p.dims[i].extent / 2 < p.dims[i].extent
    omega
  have hnumel : numel = n * count (p.dims.eraseIdx i) := by
    change p.numel / p.dims[i].extent * n = _
    rw [hcount, Nat.mul_div_cancel_left _ (by omega), Nat.mul_comm]
  have hnumel' : p.numel - numel =
      (p.dims[i].extent - n) * count (p.dims.eraseIdx i) := by
    rw [hnumel, hcount, Nat.sub_mul]
  have hsplit := offsets_split n (p.dims[i].extent - n) p.dims[i].stride (p.dims.eraseIdx i)
  rw [Nat.add_sub_cancel' hn.2.le] at hsplit
  have hall : (offsets (p.dims[i] :: p.dims.eraseIdx i)).Perm (offsets p.dims) := offsets_perm hget
  have hnodup := hall.nodup_iff.mpr h.nodup
  have hd : (⟨p.dims[i].extent, p.dims[i].stride⟩ : Dim Int) = p.dims[i] := rfl
  rw [hd] at hsplit
  rw [hsplit] at hnodup
  obtain ⟨hfirst, hsecond, -⟩ := List.nodup_append.mp hnodup
  have hfirstOk := h.part hi hn.2.le hn.1 hfirst p.base
  have hsecondOk := h.part hi (Nat.sub_le _ _) (by omega) (List.Nodup.of_map _ hsecond)
    (p.base + n * p.dims[i].stride)
  rw [← hnumel] at hfirstOk
  rw [← hnumel'] at hsecondOk
  have hlt : n * count (p.dims.eraseIdx i) < p.numel := by
    rw [hcount]
    exact Nat.mul_lt_mul_of_pos_right hn.2 hrest
  have hpos : 0 < n * count (p.dims.eraseIdx i) := Nat.mul_pos hn.1 hrest
  refine ⟨⟨hfirstOk, ?_⟩, ⟨hsecondOk, ?_⟩, ?_⟩
  · change numel < p.numel
    omega
  · change p.numel - numel < p.numel
    omega
  · have hpart : ∀ {m numel : Nat} {base : Int}, (p.part i m numel base p.dims[i].stride).elements.Perm
        ((offsets (⟨m, p.dims[i].stride⟩ :: p.dims.eraseIdx i)).map (base + ·)) :=
      fun {m numel base} => (offsets_perm (List.set_perm_cons_eraseIdx hi _)).map _
    refine (List.Perm.append hpart hpart).trans (List.Perm.trans ?_ (hall.map (p.base + ·)))
    rw [hsplit, List.map_append, List.map_map]
    refine List.Perm.of_eq (congrArg _ (List.map_congr_left fun o _ => ?_))
    rw [Function.comp_apply, nsmul_eq_mul, add_assoc]

/-- The pieces of a plan: with enough fuel there are some, each fits, and they partition the
elements. -/
theorem pieces_spec (hitem : 0 < itemsize) (p : Plan) (h : p.Ok) : ∃ ps : List Plan,
    (∀ fuel, p.numel ≤ fuel → pieces itemsize fuel p = some ps) ∧
    (ps.flatMap Plan.elements).Perm p.elements ∧
    ∀ q ∈ ps, q.Ok ∧ fits32bit itemsize q = true := by
  induction hnumel : p.numel using Nat.strong_induction_on generalizing p with
  | _ numel ih =>
      subst hnumel
      by_cases hfits : fits32bit itemsize p = true
      · refine ⟨[p], fun fuel _ => ?_, ?_, fun q hq => ?_⟩
        · unfold pieces
          exact if_pos (.inl hfits)
        · rw [List.flatMap_singleton]
        · obtain rfl := List.mem_singleton.mp hq
          exact ⟨h, hfits⟩
      · obtain ⟨i, hi, hdim, hlong⟩ := h.dimToSplit hitem hfits
        obtain ⟨⟨hfirst, hfirstLt⟩, ⟨hsecond, hsecondLt⟩, hperm⟩ := h.halves hi hlong
        obtain ⟨as, has, hasPerm, hasOk⟩ := ih _ hfirstLt _ hfirst rfl
        obtain ⟨bs, hbs, hbsPerm, hbsOk⟩ := ih _ hsecondLt _ hsecond rfl
        refine ⟨as ++ bs, fun fuel hfuel => ?_, ?_, fun q hq => ?_⟩
        · have hget : p.dims.getD i ⟨0, 0⟩ = p.dims[i] := by
            rw [List.getD_eq_getElem?_getD, List.getElem?_eq_getElem hi, Option.getD_some]
          have hnot : ¬ (fits32bit itemsize p = true ∨ p.numel = 0) := fun hor =>
            hor.elim hfits h.numel_ne
          have hpos := Nat.pos_of_ne_zero h.numel_ne
          obtain ⟨fuel, rfl⟩ := Nat.exists_eq_add_of_lt (Nat.lt_of_lt_of_le hpos hfuel)
          rw [Nat.zero_add] at hfuel ⊢
          have hfirstFuel := has fuel (Nat.le_of_lt_succ (Nat.lt_of_lt_of_le hfirstLt hfuel))
          have hsecondFuel := hbs fuel (Nat.le_of_lt_succ (Nat.lt_of_lt_of_le hsecondLt hfuel))
          unfold pieces
          rw [if_neg hnot, hdim]
          dsimp only
          rw [hget]
          unfold Plan.part at hfirstFuel hsecondFuel
          rw [hfirstFuel, hsecondFuel]
          rfl
        · rw [List.flatMap_append]
          exact (hasPerm.append hbsPerm).trans hperm
        · obtain hq | hq := List.mem_append.mp hq
          · exact hasOk q hq
          · exact hbsOk q hq

end TorchMojoBackend.Kernels.RandomFill
