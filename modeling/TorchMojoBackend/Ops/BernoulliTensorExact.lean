/-
  `Ops.BernoulliTensorExact`: every element is compared with its own probability.

  The rearrangement permutes all arrays alike, so the positions of the kernel run over the
  elements once in another order, with the sums of both families of strides.
-/
import TorchMojoBackend.Ops.BernoulliTensor

set_option autoImplicit false

namespace TorchMojoBackend.Ops.BernoulliTensor

open TorchMojoBackend.Foundation TorchMojoBackend.Ops.Views TorchMojoBackend.Kernels.OpUtils
open TorchMojoBackend.Kernels.PhiloxStreams (APPLY_BLOCK Ctr curandCtr)
open TorchMojoBackend.Ops.ResizeOut (contiguousStrides)

universe u v w

/-! ## The rearrangement -/

def Dims.permute (d : Dims) (σ : Equiv.Perm Nat) : Dims :=
  ⟨d.sizes ∘ σ, d.tStrides ∘ σ, d.pStrides ∘ σ, d.pCuda ∘ σ⟩

/-- The arrays are permuted alike, and only their first `r` places. -/
def Rearranged (r : Nat) (d d' : Dims) : Prop :=
  ∃ σ : Equiv.Perm Nat, (∀ k, r ≤ k → σ k = k) ∧ d' = d.permute σ

theorem Rearranged.refl (r : Nat) (d : Dims) : Rearranged r d d :=
  ⟨Equiv.refl Nat, fun _ _ => rfl, rfl⟩

theorem Rearranged.trans {r : Nat} {d d' d'' : Dims} (h : Rearranged r d d')
    (h' : Rearranged r d' d'') : Rearranged r d d'' := by
  obtain ⟨σ, hσ, rfl⟩ := h
  obtain ⟨τ, hτ, rfl⟩ := h'
  refine ⟨τ.trans σ, fun k hk => ?_, rfl⟩
  rw [Equiv.trans_apply, hτ k hk, hσ k hk]

theorem rearranged_foldl {r : Nat} {step : Dims → Nat → Dims} {l : List Nat}
    (hstep : ∀ d, ∀ i ∈ l, Rearranged r d (step d i)) (d : Dims) :
    Rearranged r d (l.foldl step d) := by
  induction l generalizing d with
  | nil => exact .refl r d
  | cons i l ih =>
      exact (hstep d i List.mem_cons_self).trans
        (ih (fun d j hj => hstep d j (List.mem_cons_of_mem i hj)) _)

theorem swapAt_eq {β : Type u} (a : Nat → β) (i j : Nat) : swapAt a i j = a ∘ Equiv.swap i j := by
  funext k
  rw [Function.comp_apply, Equiv.swap_apply_def, swapAt, Function.update_apply,
    Function.update_apply]
  by_cases hj : k = j
  · by_cases hi : k = i
    · rw [if_pos hj, if_pos hi, ← hi, ← hj]
    · rw [if_pos hj, if_neg hi, if_pos hj]
  · rw [if_neg hj, if_neg hj]
    split <;> rfl

theorem rearranged_swap {r i j : Nat} (hi : i < r) (hj : j < r) (d : Dims) :
    Rearranged r d (d.swap i j) := by
  refine ⟨Equiv.swap i j, fun k hk => Equiv.swap_apply_of_ne_of_ne (by omega) (by omega), ?_⟩
  unfold Dims.swap Dims.permute
  rw [swapAt_eq, swapAt_eq, swapAt_eq, swapAt_eq]

theorem rearranged_compare {r i j : Nat} (hi : i < r) (hj : j < r) (d : Dims) :
    Rearranged r d (d.compare i j) := by
  unfold Dims.compare
  dsimp only
  split
  · exact .refl r d
  · split
    · exact rearranged_swap hi hj d
    · exact .refl r d

/-- The loop ends with all arrays permuted alike. -/
theorem rearranged_rearrange (r : Nat) (d : Dims) : Rearranged r d (d.rearrange r) := by
  refine rearranged_foldl (fun d i hi => ?_) d
  have hi := List.mem_range.mp hi
  unfold Dims.sweep
  split
  · exact .refl r d
  · refine rearranged_foldl (fun d j hj => ?_) d
    have hj := (List.mem_range'_1.mp hj).2
    exact rearranged_compare (by omega) (by omega) d

/-- A dimension with the strides that the kernel uses. -/
def row (d : Dims) (i : Nat) : Nat × Int × Int := (d.sizes i, d.tStrides i, d.pStrides i)

theorem rows_perm {r : Nat} {d d' : Dims} (h : Rearranged r d d') :
    ((List.range r).map (row d)).Perm ((List.range r).map (row d')) := by
  obtain ⟨σ, hσ, rfl⟩ := h
  have hrow : (List.range r).map (row (d.permute σ)) = ((List.range r).map σ).map (row d) := by
    rw [List.map_map]
    rfl
  rw [hrow]
  refine (List.Perm.symm ?_).map _
  refine perm_of_injOn List.nodup_range (fun i hi => ?_) (fun _ _ _ _ h => σ.injective h) le_rfl
  rw [List.mem_range] at *
  by_contra hge
  have heq := σ.injective (hσ _ (not_lt.mp hge))
  omega

/-! ## Broadcasting -/

/-- The index of the probability of an element. -/
def broadcastIndex (shape x : List Nat) : List Nat :=
  List.zipWith (fun n i => if n = 1 then 0 else i) shape (x.drop (x.length - shape.length))

/-- A shape is broadcast to another one. -/
def BroadcastsTo (pshape shape : List Nat) : Prop :=
  pshape.length ≤ shape.length ∧
    List.Forall₂ (fun n m => n = m ∨ n = 1) pshape (shape.drop (shape.length - pshape.length))

theorem map_getD {β : Type u} (l : List β) (b : β) :
    ((List.range l.length).map fun i => l.getD i b) = l := by
  refine List.ext_getElem (by rw [List.length_map, List.length_range]) fun i hi hi' => ?_
  rw [List.getElem_map, List.getElem_range, List.getD_eq_getElem _ _ hi']

theorem along_zeros (n : Nat) (x : List Nat) : along (List.replicate n 0) x = 0 := by
  induction n generalizing x with
  | zero => rfl
  | succ n ih =>
      cases x with
      | nil => rfl
      | cons i x =>
          rw [List.replicate_succ, along, ih, Int.mul_zero]
          rfl

/-- The strides of equal sizes along an index, and those of the tensor along the broadcast one. -/
theorem along_broadcast {pshape shape : List Nat}
    (hbroad : List.Forall₂ (fun n m => n = m ∨ n = 1) pshape shape) {strides : List Int}
    (hlen : strides.length = pshape.length) {x : List Nat} (hx : x ∈ indices shape) :
    along ((List.range pshape.length).map fun i =>
        if pshape.getD i 1 = shape.getD i 1 then strides.getD i 0 else 0) x =
      along strides (List.zipWith (fun n i => if n = 1 then 0 else i) pshape x) := by
  have hall := mem_indices.mp hx
  clear hx
  induction hbroad generalizing strides x with
  | nil =>
      obtain rfl := List.eq_nil_of_length_eq_zero hlen
      cases hall
      rfl
  | @cons n m pshape shape hnm _ ih =>
      obtain ⟨s, strides, rfl⟩ := List.exists_cons_of_length_eq_add_one hlen
      obtain _ | ⟨hi, hall⟩ := hall
      rename_i i x
      rw [List.length_cons, List.range_succ_eq_map, List.map_cons, List.map_map, along,
        List.zipWith_cons_cons, along, ← ih (Nat.succ.inj hlen) hall]
      refine congrArg₂ _ ?_ rfl
      change (i : Int) * (if n = m then s else 0) = ((if n = 1 then 0 else i : Nat) : Int) * s
      obtain rfl | rfl := hnm
      · rw [if_pos rfl]
        by_cases hone : n = 1
        · obtain rfl : i = 0 := by omega
          rw [ite_self]
        · rw [if_neg hone]
      · rw [if_pos rfl, Nat.cast_zero, Int.zero_mul]
        by_cases hone : 1 = m
        · obtain rfl : i = 0 := by omega
          rw [Nat.cast_zero, Int.zero_mul]
        · rw [if_neg hone, Int.mul_zero]

/-! ## Positions -/

theorem offsetOf_eq (li : Nat) (sizes : List Nat) (strides : List Int) :
    offsetOf li sizes strides = along strides (peel sizes li) := by
  induction sizes generalizing li strides with
  | nil => cases strides <;> rfl
  | cons s sizes ih =>
      cases strides with
      | nil => rfl
      | cons st strides => rw [offsetOf, ih, peel, along]

theorem fastestFirst_pos {β : Type u} {r : Nat} (hr : r ≠ 0) (a : Nat → β) (one : β) :
    fastestFirst r a one = (List.range r).reverse.map a := by
  rw [fastestFirst, if_neg hr, List.nil_append]

/-- The positions of the elements in rearranged dimensions. -/
theorem exists_positions {r : Nat} {d d' : Dims} (h : Rearranged r d d') {shape : List Nat}
    (hshape : (List.range r).map d.sizes = shape) :
    ∃ place : List Nat → Nat, ((indices shape).map place).Perm (List.range shape.prod) ∧
      ∀ x ∈ indices shape,
        offsetOf (place x) (fastestFirst r d'.sizes 1) (fastestFirst r d'.tStrides 0) =
          along ((List.range r).map d.tStrides) x ∧
        offsetOf (place x) (fastestFirst r d'.sizes 1) (fastestFirst r d'.pStrides 0) =
          along ((List.range r).map d.pStrides) x := by
  by_cases hr : r = 0
  · obtain rfl := hr
    obtain rfl := hshape
    exact ⟨fun _ => 0, .refl _, fun x _ => ⟨rfl, rfl⟩⟩
  · have hmap : ∀ {β : Type} (f : Nat × Int × Int → β) (e : Dims),
        (((List.range r).map (row e)).reverse.map f) =
          (List.range r).reverse.map fun i => f (row e i) := by
      intro β f e
      rw [← List.map_reverse, List.map_map]
      rfl
    have hmap' : ∀ {β : Type} (f : Nat × Int × Int → β) (e : Dims),
        ((List.range r).map (row e)).map f = (List.range r).map fun i => f (row e i) := by
      intro β f e
      rw [List.map_map]
      rfl
    obtain ⟨place, hplace, halong⟩ :=
      exists_position Prod.fst ((rows_perm h).trans (List.reverse_perm _).symm)
    have hsizes : ((List.range r).map (row d)).map Prod.fst = shape := (hmap' _ _).trans hshape
    rw [hsizes] at hplace halong
    refine ⟨place, hplace, fun x hx => ?_⟩
    rw [fastestFirst_pos hr, fastestFirst_pos hr, fastestFirst_pos hr, offsetOf_eq, offsetOf_eq]
    have ht := halong (fun e => e.2.1) x hx
    have hp := halong (fun e => e.2.2) x hx
    rw [hmap, hmap, hmap'] at ht hp
    exact ⟨ht, hp⟩

/-! ## The kernel -/

/-- The comparison of a position. -/
def Launch.access (l : Launch) (li : Nat) : Access :=
  ⟨li / 4, li % 4, offsetOf li l.sizes l.dstStrides, offsetOf li l.sizes l.pStrides⟩

/-- A thread has one round, and the threads have all positions. -/
theorem accesses_eq {l : Launch} (hgrid : l.grid = ceildiv l.numel (512 * 4)) :
    l.accesses = (List.range l.numel).map l.access := by
  have hcover : l.numel ≤ l.grid * APPLY_BLOCK * 4 := by
    rw [hgrid, Nat.mul_assoc]
    exact ceildiv_mul_ge (by decide)
  have hround : ∀ t, ((strided l.numel (l.grid * APPLY_BLOCK * 4) l.numel (t * 4)).flatMap
      fun linear => (List.range 4).flatMap fun j =>
        if linear + j ≥ l.numel then ([] : List Access)
        else [⟨t, j, offsetOf (linear + j) l.sizes l.dstStrides,
          offsetOf (linear + j) l.sizes l.pStrides⟩]) =
      (List.range 4).flatMap fun j =>
        if t * 4 + j ≥ l.numel then [] else [l.access (t * 4 + j)] := by
    intro t
    rw [strided_short 1 (by omega) (Nat.le_add_left _ _)]
    have hbody : ∀ j ∈ List.range 4,
        (⟨t, j, offsetOf (t * 4 + j) l.sizes l.dstStrides,
          offsetOf (t * 4 + j) l.sizes l.pStrides⟩ : Access) = l.access (t * 4 + j) := by
      intro j hj
      have hj := List.mem_range.mp hj
      have hdiv : (t * 4 + j) / 4 = t := row_div hj
      have hmod : (t * 4 + j) % 4 = j := by omega
      rw [Launch.access, hdiv, hmod]
    by_cases hin : t * 4 < l.numel
    · have hkeep : decide (t * 4 + 0 * (l.grid * APPLY_BLOCK * 4) < l.numel) = true := by
        rw [Nat.zero_mul]
        exact decide_eq_true hin
      rw [List.range_one, List.filter_cons_of_pos (p := fun u => decide
        (t * 4 + u * (l.grid * APPLY_BLOCK * 4) < l.numel)) hkeep, List.filter_nil,
        List.map_singleton, List.flatMap_singleton, Nat.zero_mul, Nat.add_zero]
      refine List.flatMap_congr fun j hj => ?_
      rw [hbody j hj]
    · have hskip : ¬decide (t * 4 + 0 * (l.grid * APPLY_BLOCK * 4) < l.numel) = true := by
        rw [Nat.zero_mul, decide_eq_true_iff]
        exact hin
      rw [List.range_one, List.filter_cons_of_neg (p := fun u => decide
        (t * 4 + u * (l.grid * APPLY_BLOCK * 4) < l.numel)) hskip, List.filter_nil, List.map_nil,
        List.flatMap_nil]
      refine (List.flatMap_eq_nil_iff.mpr fun j _ => ?_).symm
      exact if_pos (by omega)
  have hrows := flatMap_range_guard (fun li => [l.access li]) hcover
  rw [range_mul, List.flatMap_assoc] at hrows
  unfold Launch.accesses
  simp only [hround]
  rw [← List.flatMap_singleton' ((List.range l.numel).map l.access), List.flatMap_map, ← hrows]
  refine List.flatMap_congr fun t _ => ?_
  rw [List.flatMap_map]

theorem curandCtr_inj {offset t t' : Nat} (ht : t < 2 ^ 64) (ht' : t' < 2 ^ 64)
    (h : curandCtr offset t = curandCtr offset t') : t = t' := by
  unfold curandCtr u32 at h
  obtain ⟨-, -, hz, hw⟩ := Ctr.mk.inj h
  omega

/-! ## The call -/

section
variable {α : Type u} {γ : Type v} {t : T α} {pIn : T γ}

theorem BroadcastsTo.dim (h : BroadcastsTo pIn.shape t.shape) {i : Nat} (hi : i < pIn.rank) :
    dim pIn i = dim t (t.rank - pIn.rank + i) ∨ dim pIn i = 1 := by
  obtain ⟨hlen, hall⟩ := List.forall₂_iff_get.mp h.2
  have hi' : i < (t.shape.drop (t.shape.length - pIn.shape.length)).length := hlen ▸ hi
  have hget := hall i hi hi'
  rw [List.get_eq_getElem, List.get_eq_getElem, List.getElem_drop] at hget
  unfold BernoulliTensor.dim
  rw [List.length_drop] at hi'
  rw [List.getD_eq_getElem _ _ hi, List.getD_eq_getElem _ _ (by unfold T.rank; omega)]
  exact hget

theorem find_mismatch (h : BroadcastsTo pIn.shape t.shape) :
    (List.range t.rank).find? (mismatch t pIn) = none := by
  refine List.find?_eq_none.mpr fun i hi => ?_
  have hi := List.mem_range.mp hi
  have hle : pIn.rank ≤ t.rank := h.1
  unfold mismatch pDim
  by_cases hin : t.rank - pIn.rank ≤ i
  · have hdim := h.dim (i := i - (t.rank - pIn.rank)) (by omega)
    rw [Nat.add_sub_cancel' hin] at hdim
    rw [if_pos hin]
    dsimp only
    rw [Bool.and_eq_true, decide_eq_true_iff, decide_eq_true_iff]
    rintro ⟨hne, hone⟩
    exact hdim.elim hne hone
  · rw [if_neg hin]
    exact Bool.false_ne_true

theorem length_dstStrides (t : T α) : (dstStrides t).length = t.rank := by
  unfold dstStrides
  split
  · rw [contiguousStrides, List.length_map, List.length_range]
    rfl
  · exact t.strides_length

theorem castTo_shape (same : Bool) (conv : γ → γ) (rest : γ) :
    (castTo pIn same conv rest).shape = pIn.shape := by
  unfold castTo
  split <;> rfl

/-- The elements of the cast tensor. -/
theorem castTo_elem (same : Bool) (conv : γ → γ) (rest : γ) {x : List Nat}
    (hx : x ∈ indices pIn.shape) : (castTo pIn same conv rest).elem x =
      if same then pIn.elem x else conv (pIn.elem x) := by
  unfold castTo
  split
  · rfl
  · rw [T.newLike_elem hx, Int.toNat_natCast, List.getD_eq_getElem?_getD, List.getElem?_map,
      indices_getElem hx]
    rfl

theorem broadcastIndex_mem (h : BroadcastsTo pIn.shape t.shape) {x : List Nat}
    (hx : x ∈ indices t.shape) : broadcastIndex pIn.shape x ∈ indices pIn.shape := by
  have hlen := length_of_mem_indices hx
  have hall := List.forall₂_drop (t.shape.length - pIn.shape.length) (mem_indices.mp hx)
  rw [mem_indices, broadcastIndex, hlen]
  have hbroad := h.2
  generalize t.shape.drop (t.shape.length - pIn.shape.length) = shape at *
  generalize x.drop (t.shape.length - pIn.shape.length) = y at *
  generalize pIn.shape = pshape at *
  clear hlen h hx
  induction hbroad generalizing y with
  | nil => exact .nil
  | cons hnm _ ih =>
      obtain _ | ⟨hi, hall⟩ := hall
      refine .cons ?_ (ih _ hall)
      dsimp only
      split <;> omega

/-- What the kernel reads with leads to the probability at the broadcast index. -/
theorem along_pStrides (h : BroadcastsTo pIn.shape t.shape) {p : T γ} (hp : p.shape = pIn.shape)
    (same : Bool) {x : List Nat} (hx : x ∈ indices t.shape) :
    along ((List.range t.rank).map (gather t pIn p same).pStrides) x =
      along p.strides (broadcastIndex pIn.shape x) := by
  have hle : pIn.rank ≤ t.rank := h.1
  have hlen : x.length = t.rank := length_of_mem_indices hx
  have hall := List.forall₂_drop (t.rank - pIn.rank) (mem_indices.mp hx)
  have hlead : (List.range (t.rank - pIn.rank)).map (gather t pIn p same).pStrides =
      List.replicate (t.rank - pIn.rank) 0 := by
    refine List.eq_replicate_iff.mpr ⟨by rw [List.length_map, List.length_range], ?_⟩
    intro s hs
    obtain ⟨i, hi, rfl⟩ := List.mem_map.mp hs
    have hi := List.mem_range.mp hi
    unfold gather pDim
    dsimp only
    rw [if_neg (by omega)]
  have htrail : ((List.range pIn.rank).map fun i =>
      (gather t pIn p same).pStrides (t.rank - pIn.rank + i)) =
      (List.range pIn.shape.length).map fun i =>
        if pIn.shape.getD i 1 = (t.shape.drop (t.rank - pIn.rank)).getD i 1 then
          p.strides.getD i 0
        else 0 := by
    refine List.map_congr_left fun i _ => ?_
    unfold gather pDim
    dsimp only
    rw [if_pos (Nat.le_add_right _ _), Nat.add_sub_cancel_left]
    unfold dim stride
    rw [hp, List.getD_eq_getElem?_getD (l := t.shape.drop _), List.getElem?_drop,
      ← List.getD_eq_getElem?_getD]
  have hrank : t.rank = t.rank - pIn.rank + pIn.rank := (Nat.sub_add_cancel hle).symm
  have hsplit : (List.range t.rank).map (gather t pIn p same).pStrides =
      List.replicate (t.rank - pIn.rank) 0 ++ (List.range pIn.shape.length).map fun i =>
        if pIn.shape.getD i 1 = (t.shape.drop (t.rank - pIn.rank)).getD i 1 then
          p.strides.getD i 0
        else 0 := by
    rw [← htrail, ← hlead]
    nth_rewrite 1 [hrank]
    rw [List.range_add, List.map_append, List.map_map]
    rfl
  have htake : (x.take (t.rank - pIn.rank)).length =
      (List.replicate (t.rank - pIn.rank) (0 : Int)).length := by
    rw [List.length_take, List.length_replicate, hlen]
    omega
  nth_rewrite 1 [hsplit, ← List.take_append_drop (t.rank - pIn.rank) x]
  rw [along_append htake, along_zeros, Int.zero_add, broadcastIndex, hlen]
  refine along_broadcast h.2 ?_ (mem_indices.mpr hall)
  rw [p.strides_length, hp]

/-- The probability of an element, as the kernel gets it. -/
def probability (pIn : T γ) (same : Bool) (conv : γ → γ) (x : List Nat) : γ :=
  if same then pIn.elem (broadcastIndex pIn.shape x)
  else conv (pIn.elem (broadcastIndex pIn.shape x))

/-- The stores of a run, where the comparisons run over the elements. -/
theorem Run.stores {ω : Type w} {l : Launch} {p : T γ} {draw : Nat → Nat → ω} {keep : ω → γ → α}
    (r : Run t p l draw keep) (hover : l.overlapping = maybeOverlapping t) {place : List Nat → Nat}
    {at_ : List Nat → Int} (haccesses : l.accesses.Perm ((indices t.shape).map fun x =>
      ⟨place x / 4, place x % 4, along (dstStrides t) x, at_ x⟩)) :
    Stores ((indices t.shape).map fun x =>
      (t.addr x, keep (draw (place x / 4) (place x % 4)) (p.storage (p.offset + at_ x))))
      t.storage r.out := by
  have hstores : ∀ base : Int, (l.stores base p draw keep).Perm ((indices t.shape).map fun x =>
      (base + along (dstStrides t) x,
        keep (draw (place x / 4) (place x % 4)) (p.storage (p.offset + at_ x)))) := by
    intro base
    have hmap := haccesses.map fun a => (base + a.dst,
      keep (draw a.thread a.lane) (p.storage (p.offset + a.p)))
    rw [List.map_map] at hmap
    exact hmap
  have hstored := r.stored
  by_cases h : maybeOverlapping t = true
  · -- the dense tensor has the elements at their positions
    have hdst : dstStrides t = contiguousStrides t.shape := if_pos h
    rw [hover, if_pos h] at hstored
    obtain ⟨fresh, hfilled⟩ := r.filled (hover.trans h)
    have hdense := hfilled.congr fun w => (hstores 0).mem_iff
    refine hstored.congr fun w => (List.Perm.of_eq (List.map_congr_left fun x hx => ?_)).mem_iff
    rw [T.newLike_elem hx, ← along_contiguousStrides hx, ← hdst]
    have hat := hdense.map_at (fun y hy z hz hyz => ?_) hx
    · rw [Int.zero_add] at hat
      exact congrArg _ hat
    · rw [hdst, Int.zero_add, Int.zero_add, along_contiguousStrides hy,
        along_contiguousStrides hz] at hyz
      exact flatIndex_inj hy hz (Int.ofNat.inj hyz)
  · have hdst : dstStrides t = t.strides := if_neg h
    rw [hover, if_neg h] at hstored
    have hkernel := hstored.congr fun w => (hstores t.offset).mem_iff
    rw [hdst] at hkernel
    exact hkernel

/-- For every output and every tensor of probabilities that is broadcast to it, the arrays are
permuted alike, and the comparisons run over the elements once: each with the probability at its
broadcast index and with a word of its own. -/
theorem bernoulli_tensor {bad : γ → Bool} {same : Bool} {conv : γ → γ} {rest : γ}
    (hnumel : t.numel ≠ 0) (hfits : t.numel < 2 ^ 63)
    (hbad : ∀ x ∈ indices pIn.shape, bad (pIn.elem x) = false) (hstride : hasStrideZero t = false)
    (hbroad : BroadcastsTo pIn.shape t.shape) : ∃ l place,
      bernoulliTensorInto t pIn bad same conv rest = .ok (some l) ∧
      Rearranged t.rank (gather t pIn (castTo pIn same conv rest) same)
        ((gather t pIn (castTo pIn same conv rest) same).rearrange t.rank) ∧
      ((indices t.shape).map place).Perm (List.range t.numel) ∧
      l.accesses.Perm ((indices t.shape).map fun x =>
        ⟨place x / 4, place x % 4, along (dstStrides t) x,
          along (castTo pIn same conv rest).strides (broadcastIndex pIn.shape x)⟩) ∧
      (∀ offset, (l.accesses.map fun a => (curandCtr offset a.thread, a.lane)).Nodup) ∧
      ∀ {ω : Type w} {draw : Nat → Nat → ω} {keep : ω → γ → α}
        (r : Run t (castTo pIn same conv rest) l draw keep),
        Stores ((indices t.shape).map fun x => (t.addr x,
          keep (draw (place x / 4) (place x % 4)) (probability pIn same conv x)))
          t.storage r.out := by
  have hcall : bernoulliTensorInto t pIn bad same conv rest = .ok (some
      { numel := t.numel
        sizes := fastestFirst t.rank
          ((gather t pIn (castTo pIn same conv rest) same).rearrange t.rank).sizes 1
        dstStrides := fastestFirst t.rank
          ((gather t pIn (castTo pIn same conv rest) same).rearrange t.rank).tStrides 0
        pStrides := fastestFirst t.rank
          ((gather t pIn (castTo pIn same conv rest) same).rearrange t.rank).pStrides 0
        grid := ceildiv t.numel (512 * 4)
        overlapping := maybeOverlapping t }) := by
    have hany : (indices pIn.shape).any (fun x => bad (pIn.elem x)) = false := by
      refine List.any_eq_false.mpr fun x hx => ?_
      rw [hbad x hx]
      exact Bool.false_ne_true
    have hrank : ¬pIn.rank > t.rank := not_lt.mpr hbroad.1
    unfold bernoulliTensorInto
    rw [if_neg hnumel, if_neg (by rw [hany]; exact Bool.false_ne_true),
      if_neg (by rw [hstride]; exact Bool.false_ne_true), if_neg hrank, find_mismatch hbroad]
  have hrearranged := rearranged_rearrange t.rank
    (gather t pIn (castTo pIn same conv rest) same)
  obtain ⟨place, hplace, hoffsets⟩ := exists_positions hrearranged (map_getD t.shape 1)
  refine ⟨_, place, hcall, hrearranged, hplace, ?_⟩
  generalize hl : (Launch.mk _ _ _ _ _ _ : Launch) = l
  have hover : l.overlapping = maybeOverlapping t := by rw [← hl]
  have hln : l.numel = t.numel := by rw [← hl]
  have hlgrid : l.grid = ceildiv l.numel (512 * 4) := by rw [← hl]
  have hdst : (List.range t.rank).map
      (gather t pIn (castTo pIn same conv rest) same).tStrides = dstStrides t := by
    rw [← length_dstStrides t]
    exact map_getD _ _
  have haccesses : l.accesses.Perm ((indices t.shape).map fun x =>
      ⟨place x / 4, place x % 4, along (dstStrides t) x,
        along (castTo pIn same conv rest).strides (broadcastIndex pIn.shape x)⟩) := by
    rw [accesses_eq hlgrid, hln]
    refine (hplace.symm.map _).trans (List.Perm.of_eq ?_)
    rw [List.map_map]
    refine List.map_congr_left fun x hx => ?_
    obtain ⟨ht, hp⟩ := hoffsets x hx
    rw [hdst] at ht
    rw [along_pStrides hbroad (castTo_shape same conv rest) same hx] at hp
    rw [Function.comp_apply, Launch.access, ← hl]
    dsimp only
    rw [ht, hp]
  refine ⟨haccesses, fun offset => ?_, ?_⟩
  · rw [accesses_eq hlgrid, hln, List.map_map]
    refine List.Nodup.map_on (fun i hi j hj heq => ?_) List.nodup_range
    have hi := List.mem_range.mp hi
    have hj := List.mem_range.mp hj
    obtain ⟨hctr, hlane⟩ := Prod.mk.inj heq
    have hctr : curandCtr offset (i / 4) = curandCtr offset (j / 4) := hctr
    have hthread := curandCtr_inj (show i / 4 < 2 ^ 64 by omega) (by omega) hctr
    have hlane : i % 4 = j % 4 := hlane
    omega
  · intro ω draw keep r
    refine (r.stores hover haccesses).congr fun w => ?_
    refine (List.Perm.of_eq (List.map_congr_left fun x hx => ?_)).mem_iff
    have helem := castTo_elem same conv rest (broadcastIndex_mem hbroad hx)
    exact congrArg (fun q => (t.addr x, keep (draw (place x / 4) (place x % 4)) q)) helem

end

theorem bernoulli_tensor_row :
    let t : T Bool := ⟨[2, 3], [3, 1], 0, fun _ => false, rfl⟩
    let pIn : T Nat := ⟨[1, 3], [7, 2], 1, fun a => a.toNat, rfl⟩
    ∃ (l : Launch) (place : List Nat → Nat),
      bernoulliTensorInto t pIn (fun _ => false) true id 0 = .ok (some l) ∧
      l.accesses.Perm ((indices [2, 3]).map fun x =>
        ⟨place x / 4, place x % 4, along (dstStrides t) x,
          along (castTo pIn true id 0).strides (broadcastIndex [1, 3] x)⟩) := by
  intro t pIn
  have hbroad : BroadcastsTo [1, 3] [2, 3] :=
    ⟨by decide, .cons (.inr rfl) (.cons (.inl rfl) .nil)⟩
  obtain ⟨l, place, hcall, -, -, haccesses, -⟩ :=
    @bernoulli_tensor.{0, 0, 0} Bool Nat t pIn (fun _ => false) true id 0 (by decide) (by decide)
      (fun _ _ => rfl) (by decide) hbroad
  exact ⟨l, place, hcall, haccesses⟩

end TorchMojoBackend.Ops.BernoulliTensor
