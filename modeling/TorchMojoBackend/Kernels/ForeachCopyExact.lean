/-
  `Kernels.ForeachCopyExact`: a copied list is left as by copying pair after pair.

  The overlap test leaves pairs that are independent, and a batched run over the elements
  of independent pairs leaves what the sequential copies leave, in whatever order the
  elements are read and written.
-/
import TorchMojoBackend.Kernels.ForeachCopyPairs

set_option autoImplicit false

namespace TorchMojoBackend.Kernels.ForeachCopy

open TorchMojoBackend.Foundation

/-! ## The overlap test -/

theorem map_span_fst (live : List T) : (live.map T.span).map Prod.fst = live.map T.ptr := by
  rw [List.map_map]
  rfl

theorem map_span_snd (live : List T) :
    (live.map T.span).map Prod.snd = live.map fun t : T => t.ptr + t.nbytes := by
  rw [List.map_map]
  rfl

theorem span_lt {t : T} (hlive : t.numel > 0) : t.span.1 < t.span.2 := by
  have hpos : t.nbytes ≠ 0 := fun h => (Nat.ne_of_gt hlive) (nbytes_eq_zero.mp h)
  unfold T.span
  dsimp only
  omega

/-- Lists that pass the test: no destination meets another one or a source. -/
theorem writesOverlap_away {dsts srcs : List T} (h : writesOverlap dsts srcs = false) :
    dsts.Pairwise T.Away ∧ ∀ d ∈ dsts, ∀ s ∈ srcs, d.Away s := by
  unfold writesOverlap at h
  dsimp only at h
  rw [Bool.or_eq_false_iff, List.any_eq_false, List.any_eq_false] at h
  obtain ⟨hgaps, hsrcs⟩ := h
  generalize hl : dsts.filter (fun t => decide (t.numel > 0)) = live at hgaps hsrcs
  have hlive : ∀ t ∈ live, t.numel > 0 := by
    intro t ht
    rw [← hl] at ht
    exact of_decide_eq_true (List.mem_filter.mp ht).2
  have hne : ∀ i ∈ live.map T.span, i.1 < i.2 := by
    intro i hi
    obtain ⟨t, ht, rfl⟩ := List.mem_map.mp hi
    exact span_lt (hlive t ht)
  have hlen : (live.map T.span).length = live.length := List.length_map _
  have hlenStarts : (sortInts (live.map T.ptr)).length = live.length := by
    rw [length_sortInts, List.length_map]
  rw [hlenStarts] at hgaps hsrcs
  constructor
  · -- empty destinations meet nothing
    have hpair : live.Pairwise T.Away := by
      have hspans := pairwise_apart hne fun k hk => by
        rw [map_span_fst, map_span_snd]
        rw [hlen] at hk
        have hgap := hgaps k (List.mem_range.mpr (by omega))
        rw [decide_eq_true_eq] at hgap
        omega
      exact (List.pairwise_map.mp hspans).imp fun h => .inr (.inr h)
    rw [← hl, List.pairwise_filter] at hpair
    refine hpair.imp fun {t u} htu => ?_
    by_cases ht : t.numel > 0
    · by_cases hu : u.numel > 0
      · exact htu (decide_eq_true ht) (decide_eq_true hu)
      · exact .inr (.inl (nbytes_eq_zero.mpr (by omega)))
    · exact .inl (nbytes_eq_zero.mpr (by omega))
  · intro d hd s hs
    by_cases hdz : d.numel > 0
    · by_cases hsz : s.numel = 0
      · exact .inr (.inl (nbytes_eq_zero.mpr hsz))
      · have hsrc := hsrcs s hs
        rw [if_neg hsz, Bool.and_eq_true, decide_eq_true_eq, decide_eq_true_eq] at hsrc
        have hmem : d.span ∈ live.map T.span := by
          rw [← hl]
          exact List.mem_map_of_mem (List.mem_filter.mpr ⟨hd, decide_eq_true hdz⟩)
        have hsorted := sortInts_sorted (live.map T.ptr)
        obtain ⟨-, hle, hbelow, habove⟩ := @firstFalse_spec
          (fun mid => decide ((sortInts (live.map T.ptr)).getD mid 0 < s.ptr + s.nbytes))
          live.length 0 live.length (Nat.zero_le _) (Nat.le_add_left _ _) fun i j _ hij hj hlt => by
            rw [decide_eq_true_eq] at hlt ⊢
            rcases Nat.lt_or_eq_of_le hij with hij | rfl
            · have hmono := List.pairwise_iff_getElem.mp hsorted i j (by omega) (by omega) hij
              rw [List.getD_eq_getElem?_getD, List.getElem?_eq_getElem (by omega),
                Option.getD_some] at hlt ⊢
              omega
            · exact hlt
        have hse := span_lt (Nat.pos_of_ne_zero hsz)
        generalize firstFalse (fun mid => decide
          ((sortInts (live.map T.ptr)).getD mid 0 < s.ptr + s.nbytes)) live.length 0
            live.length = lo at hsrc hle hbelow habove
        rw [← hlen] at hle
        refine .inr (.inr (@apart_of_last (live.map T.span) hne _ _ hse lo hle (fun k hk => ?_)
          (fun k hk hk' => ?_) (fun hpos => ?_) _ hmem))
        · rw [map_span_fst]
          exact of_decide_eq_true (hbelow k (Nat.zero_le _) hk)
        · rw [map_span_fst]
          rw [hlen] at hk'
          exact of_decide_eq_false (habove k hk hk')
        · rw [map_span_snd]
          change _ ≤ s.ptr
          by_contra hlast
          exact hsrc ⟨hpos, by omega⟩
    · exact .inl (nbytes_eq_zero.mpr (by omega))

/-! ## A batched run -/

section
variable {f : List UInt8 → List UInt8} {dsize ssize : Nat} {items : List (Int × Int)}

/-- The bytes of an address of an item. -/
def Within (x a : Int) (n : Nat) : Prop := a ≤ x ∧ x < a + n

/-- No item's destination meets another's or a source. -/
structure ItemsApart (dsize ssize : Nat) (items : List (Int × Int)) : Prop where
  dsts : ∀ a ∈ items, ∀ b ∈ items, a ≠ b → ∀ x, Within x a.1 dsize → ¬ Within x b.1 dsize
  srcs : ∀ a ∈ items, ∀ b ∈ items, ∀ x, Within x a.1 dsize → ¬ Within x b.2 ssize

/-- The byte that the copy of an item leaves. -/
def itemByte (f : List UInt8 → List UInt8) (ssize : Nat) (m : Mem) (item : Int × Int) (x : Int) :
    UInt8 :=
  (f (readAt m item.2 ssize)).getD (x - item.1).toNat 0

/-- An item has been copied. -/
def Written (f : List UInt8 → List UInt8) (dsize ssize : Nat) (m₀ m : Mem) (item : Int × Int) :
    Prop :=
  ∀ x, Within x item.1 dsize → m x = itemByte f ssize m₀ item x

/-- A batched copy under way: what was read is as before the launch, and each item is waiting,
held or written. -/
structure BatchInv (f : List UInt8 → List UInt8) (dsize ssize : Nat) (items : List (Int × Int))
    (m₀ : Mem) (st : BatchState) : Prop where
  kept : ∀ x, (∀ a ∈ items, ¬ Within x a.1 dsize) → st.mem x = m₀ x
  todo : ∀ a ∈ st.todo, a ∈ items
  held : ∀ v ∈ st.held, ∃ a ∈ items, v = (a.1, f (readAt m₀ a.2 ssize))
  item : ∀ a ∈ items, a ∈ st.todo ∨ (a.1, f (readAt m₀ a.2 ssize)) ∈ st.held ∨
    Written f dsize ssize m₀ st.mem a

theorem BatchInv.step {m₀ : Mem} (hapart : ItemsApart dsize ssize items)
    {st st' : BatchState} (h : BatchInv f dsize ssize items m₀ st)
    (hstep : BatchStep f dsize ssize st st') : BatchInv f dsize ssize items m₀ st' := by
  cases hstep with
  | read mem l₁ l₂ item held =>
      have hitem : item ∈ items := h.todo item (by simp)
      have hread : readAt mem item.2 ssize = readAt m₀ item.2 ssize :=
        readAt_congr fun x hx hx' => h.kept x fun a ha hin => hapart.srcs a ha item hitem x hin
          ⟨hx, hx'⟩
      refine ⟨h.kept, fun a ha => h.todo a ?_, fun v hv => ?_, fun a ha => ?_⟩
      · rcases List.mem_append.mp ha with ha | ha
        · exact List.mem_append_left _ ha
        · exact List.mem_append_right _ (List.mem_cons_of_mem _ ha)
      · rcases List.mem_cons.mp hv with rfl | hv
        · exact ⟨item, hitem, by rw [hread]⟩
        · exact h.held v hv
      · rcases h.item a ha with hwait | hheld | hwritten
        · rcases List.mem_append.mp hwait with hwait | hwait
          · exact .inl (List.mem_append_left _ hwait)
          · rcases List.mem_cons.mp hwait with rfl | hwait
            · exact .inr (.inl (by rw [hread]; exact List.mem_cons_self))
            · exact .inl (List.mem_append_right _ hwait)
        · exact .inr (.inl (List.mem_cons_of_mem _ hheld))
        · exact .inr (.inr hwritten)
  | write mem todo h₁ h₂ v =>
      obtain ⟨item, hitem, rfl⟩ := h.held v (by simp)
      have hself : Written f dsize ssize m₀
          (writeAt mem item.1 dsize (f (readAt m₀ item.2 ssize))) item := fun x hx => if_pos hx
      refine ⟨fun x hx => ?_, h.todo, fun v hv => h.held v ?_, fun a ha => ?_⟩
      · exact (if_neg (hx item hitem)).trans (h.kept x hx)
      · rcases List.mem_append.mp hv with hv | hv
        · exact List.mem_append_left _ hv
        · exact List.mem_append_right _ (List.mem_cons_of_mem _ hv)
      · by_cases heq : a = item
        · subst heq
          exact .inr (.inr hself)
        · rcases h.item a ha with hwait | hheld | hwritten
          · exact .inl hwait
          · -- the value written is that of another item, or has the same bytes
            rcases List.mem_append.mp hheld with hheld | hheld
            · exact .inr (.inl (List.mem_append_left _ hheld))
            · rcases List.mem_cons.mp hheld with hsame | hheld
              · have hstart := (Prod.mk.inj hsame).1
                refine .inr (.inr fun x hx => ?_)
                rw [hstart] at hx
                refine absurd hx (hapart.dsts a ha item hitem heq x ?_)
                rwa [hstart]
              · exact .inr (.inl (List.mem_append_right _ hheld))
          · refine .inr (.inr fun x hx => ?_)
            exact (if_neg (hapart.dsts a ha item hitem heq x hx)).trans (hwritten x hx)

/-- What a finished run leaves. -/
theorem copyBatched_written {m m' : Mem} (hapart : ItemsApart dsize ssize items)
    (h : CopyBatched f dsize ssize items m m') :
    (∀ a ∈ items, Written f dsize ssize m m' a) ∧
      ∀ x, (∀ a ∈ items, ¬ Within x a.1 dsize) → m' x = m x := by
  have hstart : BatchInv f dsize ssize items m ⟨m, items, []⟩ :=
    ⟨fun _ _ => rfl, fun a ha => ha, fun v hv => absurd hv List.not_mem_nil, fun a ha => .inl ha⟩
  have hend : BatchInv f dsize ssize items m ⟨m', [], []⟩ := by
    unfold CopyBatched at h
    generalize (⟨m', [], []⟩ : BatchState) = st at h
    induction h with
    | refl => exact hstart
    | tail _ hstep ih => exact ih.step hapart hstep
  refine ⟨fun a ha => ?_, hend.kept⟩
  rcases hend.item a ha with hwait | hheld | hwritten
  · exact absurd hwait List.not_mem_nil
  · exact absurd hheld List.not_mem_nil
  · exact hwritten

/-- Every launch gets to its end. -/
theorem copyBatched_exists (f : List UInt8 → List UInt8) (dsize ssize : Nat)
    (items : List (Int × Int)) (m : Mem) : ∃ m', CopyBatched f dsize ssize items m m' := by
  induction items generalizing m with
  | nil => exact ⟨m, .refl⟩
  | cons item items ih =>
      obtain ⟨m', hrest⟩ := ih (writeAt m item.1 dsize (f (readAt m item.2 ssize)))
      refine ⟨m', ?_⟩
      have hread : BatchStep f dsize ssize ⟨m, item :: items, []⟩
          ⟨m, items, [(item.1, f (readAt m item.2 ssize))]⟩ := .read m [] items item []
      have hwrite : BatchStep f dsize ssize ⟨m, items, [(item.1, f (readAt m item.2 ssize))]⟩
          ⟨writeAt m item.1 dsize (f (readAt m item.2 ssize)), items, []⟩ :=
        .write m items [] [] _
      exact .head hread (.head hwrite hrest)

end

section
variable {env : Env} {dsts srcs : List T} {first firstSrc : T}

/-- The tensors of a batch. -/
theorem qualifies_pair (h : env.copyBatchQualifies first firstSrc dsts srcs = true) {p : T × T}
    (hp : p ∈ dsts.zip srcs) :
    Plain p ∧ p.1.stype = first.stype ∧ p.2.stype = firstSrc.stype := by
  unfold Env.copyBatchQualifies at h
  simp only [Bool.and_eq_true, List.all_eq_true] at h
  obtain ⟨⟨-, hall⟩, -⟩ := h
  have hpair := hall p hp
  simp only [Bool.and_eq_true, tensorQualifies, T.sameShape, decide_eq_true_eq] at hpair
  obtain ⟨⟨⟨⟨⟨hd, hdd⟩, hdt⟩, hdc⟩, ⟨⟨hs, hsd⟩, hst⟩, hsc⟩, hshape⟩ := hpair
  exact ⟨⟨hd, hs, hdd.trans hsd.symm, hdc, hsc, hshape⟩, hdt, hst⟩

theorem qualifies_independent (h : env.copyBatchQualifies first firstSrc dsts srcs = true)
    (hlen : dsts.length = srcs.length) : Independent (dsts.zip srcs) := by
  have hover : writesOverlap dsts srcs = false := by
    unfold Env.copyBatchQualifies at h
    rw [Bool.and_eq_true, Bool.not_eq_true'] at h
    exact h.2
  obtain ⟨hdsts, hsrcs⟩ := writesOverlap_away hover
  refine ⟨?_, fun p hp q hq => hsrcs _ (List.of_mem_zip hp).1 _ (List.of_mem_zip hq).2⟩
  rw [← List.map_fst_zip (Nat.le_of_eq hlen)] at hdsts
  exact List.pairwise_map.mp hdsts

/-- The elements of independent pairs do not meet. -/
theorem itemsApart {pairs : List (T × T)} {dsize ssize : Nat} (hind : Independent pairs)
    (hplain : ∀ p ∈ pairs, Plain p) (hdsize : ∀ p ∈ pairs, p.1.itemsize = dsize)
    (hssize : ∀ p ∈ pairs, p.2.itemsize = ssize) :
    ItemsApart dsize ssize (batchItems dsize ssize pairs) := by
  have hitem : ∀ a ∈ batchItems dsize ssize pairs, ∃ p ∈ pairs, ∃ k, k < p.1.numel ∧
      a = (p.1.ptr + (k * p.1.itemsize : Nat), p.2.ptr + (k * p.2.itemsize : Nat)) := by
    intro a ha
    obtain ⟨p, hp, ha⟩ := List.mem_flatMap.mp ha
    obtain ⟨k, hk, rfl⟩ := List.mem_map.mp ha
    exact ⟨p, hp, k, List.mem_range.mp hk, by rw [hdsize p hp, hssize p hp]⟩
  constructor
  · intro a ha b hb hne x hx hx'
    obtain ⟨p, hp, k, hk, rfl⟩ := hitem a ha
    obtain ⟨q, hq, k', hk', rfl⟩ := hitem b hb
    have hin := element_le hk
    have hin' := element_le hk'
    rw [← hdsize p hp] at hx
    rw [← hdsize q hq] at hx'
    unfold Within at hx hx'
    dsimp only at hx hx'
    by_cases hpq : p = q
    · -- two elements of one pair
      subst hpq
      have hkk : k ≠ k' := fun h => hne (by rw [h])
      rcases Nat.lt_or_gt_of_ne hkk with hlt | hlt
      · have hmul := Nat.mul_le_mul_right p.1.itemsize (Nat.succ_le_of_lt hlt)
        rw [Nat.succ_mul] at hmul
        omega
      · have hmul := Nat.mul_le_mul_right p.1.itemsize (Nat.succ_le_of_lt hlt)
        rw [Nat.succ_mul] at hmul
        omega
    · have : Std.Symm fun p q : T × T => p.1.Away q.1 := ⟨fun _ _ h => h.symm⟩
      have haway := hind.dsts.forall hp hq hpq
      exact haway.not_mem (x := x) ⟨by omega, by omega⟩ ⟨by omega, by omega⟩
  · intro a ha b hb x hx hx'
    obtain ⟨p, hp, k, hk, rfl⟩ := hitem a ha
    obtain ⟨q, hq, k', hk', rfl⟩ := hitem b hb
    have hin := element_le hk
    rw [(hplain q hq).numel] at hk'
    have hin' := element_le hk'
    rw [← hdsize p hp] at hx
    rw [← hssize q hq] at hx'
    unfold Within at hx hx'
    dsimp only at hx hx'
    exact (hind.srcs p hp q hq).not_mem (x := x) ⟨by omega, by omega⟩ ⟨by omega, by omega⟩

/-- A batched run copies the pairs. -/
theorem copyBatched_copied (h : env.copyBatchQualifies first firstSrc dsts srcs = true)
    (hlen : dsts.length = srcs.length) {m m' : Mem}
    (hrun : CopyBatched (env.element first.stype firstSrc.stype) first.itemsize firstSrc.itemsize
      (batchItems first.itemsize firstSrc.itemsize (dsts.zip srcs)) m m') :
    Copied env (dsts.zip srcs) m m' := by
  have hind := qualifies_independent h hlen
  have hdsize : ∀ p ∈ dsts.zip srcs, p.1.itemsize = first.itemsize := fun p hp =>
    congrArg ScalarType.itemsize (qualifies_pair h hp).2.1
  have hssize : ∀ p ∈ dsts.zip srcs, p.2.itemsize = firstSrc.itemsize := fun p hp =>
    congrArg ScalarType.itemsize (qualifies_pair h hp).2.2
  have hapart := itemsApart hind (fun p hp => (qualifies_pair h hp).1) hdsize hssize
  obtain ⟨hwritten, hkept⟩ := copyBatched_written hapart hrun
  constructor
  · intro p hp x hx
    obtain ⟨hk, hj, heq⟩ := offset_lt hx
    obtain ⟨-, hdt, hst⟩ := qualifies_pair h hp
    have hmem : (p.1.ptr + ((x - p.1.ptr).toNat / p.1.itemsize * first.itemsize : Nat),
        p.2.ptr + ((x - p.1.ptr).toNat / p.1.itemsize * firstSrc.itemsize : Nat)) ∈
          batchItems first.itemsize firstSrc.itemsize (dsts.zip srcs) :=
      List.mem_flatMap.mpr ⟨p, hp, List.mem_map.mpr ⟨_, List.mem_range.mpr hk, rfl⟩⟩
    have hbyte := hwritten _ hmem x (by
      unfold Within
      dsimp only
      rw [← hdsize p hp]
      omega)
    rw [hbyte]
    unfold itemByte Env.byteOf
    dsimp only
    rw [hdt, hst, hssize p hp, ← hdsize p hp]
    congr 1
    omega
  · intro x hx
    refine hkept x fun a ha hin => ?_
    obtain ⟨p, hp, ha⟩ := List.mem_flatMap.mp ha
    obtain ⟨k, hk, rfl⟩ := List.mem_map.mp ha
    have hle := element_le (List.mem_range.mp hk)
    rw [hdsize p hp] at hle
    unfold Within at hin
    dsimp only at hin
    exact hx p hp ⟨by omega, by omega⟩

/-! ## The operation -/

/-- Lists that the operation takes on, and not with the float8 conversion of CUDA's own. -/
def Supported (dsts srcs : List T) : Prop :=
  match dsts, srcs with
  | first :: _, firstSrc :: _ => refused first firstSrc dsts srcs = false ∧
      unsaturated first firstSrc (dsts.zip srcs) = false
  | _, _ => True

theorem sequential_versions {pairs : List (T × T)} {st : State}
    (hdone : (env.sequential pairs st).2 = true) : (env.sequential pairs st).1.versions =
      (pairs.map Prod.fst).foldl bumpVersion st.versions := by
  induction pairs generalizing st with
  | nil => rfl
  | cons p pairs ih =>
      obtain ⟨d, s⟩ := p
      unfold Env.sequential at hdone ⊢
      cases hcopy : env.copy_ d s st.mem with
      | none =>
          rw [hcopy] at hdone
          exact absurd hdone (by simp)
      | some m =>
          rw [hcopy] at hdone
          exact ih hdone

/-- The operation leaves what the copies one after the other leave, in whichever way it goes, and
bumps each destination's version once for each time it is in the list. -/
theorem foreachCopy_sequential (henv : env.CopyExact) (hlen : dsts.length = srcs.length)
    (hsupported : Supported dsts srcs) (st : State) :
    (∃ out, env.OpForeachCopy dsts srcs st out) ∧
      ∀ out, env.OpForeachCopy dsts srcs st out →
        out.1 = (env.sequential (dsts.zip srcs) st).1 ∧
        (dsts ≠ [] → out.2 = (env.sequential (dsts.zip srcs) st).2) ∧
        (out.2 = true → ∀ id,
          out.1.versions id = st.versions id + (dsts.map T.impl).count id) := by
  have hfst : (dsts.zip srcs).map Prod.fst = dsts := List.map_fst_zip (Nat.le_of_eq hlen)
  have hversions : ∀ out, out = env.sequential (dsts.zip srcs) st → out.2 = true → ∀ id,
      out.1.versions id = st.versions id + (dsts.map T.impl).count id := by
    rintro out rfl hdone id
    rw [sequential_versions hdone, hfst, foldl_bumpVersion]
  have hexact : ∀ out, out = env.sequential (dsts.zip srcs) st →
      out.1 = (env.sequential (dsts.zip srcs) st).1 ∧
      (dsts ≠ [] → out.2 = (env.sequential (dsts.zip srcs) st).2) ∧
      (out.2 = true → ∀ id, out.1.versions id = st.versions id + (dsts.map T.impl).count id) :=
    fun out hout => ⟨by rw [hout], fun _ => by rw [hout], hversions out hout⟩
  cases dsts with
  | nil =>
      unfold Env.OpForeachCopy
      refine ⟨⟨_, rfl⟩, ?_⟩
      rintro out rfl
      exact ⟨rfl, fun h => absurd rfl h, fun h => absurd h (by simp)⟩
  | cons first dsts' =>
      cases srcs with
      | nil => exact absurd hlen (by simp)
      | cons firstSrc srcs' =>
          obtain ⟨hrefused, hunsat⟩ := hsupported
          simp only [Env.OpForeachCopy, hrefused, hunsat, Bool.false_eq_true, if_false]
          cases hadj : env.copyAdjacentViews first ((first :: dsts').zip (firstSrc :: srcs')) st.mem
          with
          | some m =>
              dsimp only
              have hseq := copyAdjacentViews_sequential henv hadj
              rw [hfst] at hseq
              refine ⟨⟨_, rfl⟩, fun out hout => hexact out ?_⟩
              rw [hout, hseq]
          | none =>
              by_cases hbatch : env.copyBatchQualifies first firstSrc (first :: dsts')
                  (firstSrc :: srcs') = true
              · simp only [hbatch, if_true]
                obtain ⟨m, hseq, hcopied⟩ := sequential_copied henv
                  (fun p hp => (qualifies_pair hbatch hp).1)
                  (qualifies_independent hbatch hlen) st
                rw [hfst] at hseq
                constructor
                · obtain ⟨m', hrun⟩ := copyBatched_exists
                    (env.element first.stype firstSrc.stype) first.itemsize firstSrc.itemsize
                    (batchItems first.itemsize firstSrc.itemsize
                      ((first :: dsts').zip (firstSrc :: srcs'))) st.mem
                  exact ⟨_, m', hrun, rfl⟩
                · rintro out ⟨m', hrun, hout⟩
                  refine hexact out ?_
                  rw [hout, hseq, (copyBatched_copied hbatch hlen hrun).unique hcopied]
              · simp only [if_neg hbatch]
                exact ⟨⟨_, rfl⟩, hexact⟩

end

/-! ## Runs -/

/-- A CUDA device whose copies are exact, with a saturating conversion and one that does not. -/
def exactEnv (convert unsaturated : ScalarType → ScalarType → List UInt8 → List UInt8) : Env :=
  let base (f : ScalarType → ScalarType → List UInt8 → List UInt8) : Env :=
    ⟨fun _ => .cuda, fun _ _ _ => none, f, fun _ _ _ => none⟩
  ⟨fun _ => .cuda, fun d s m => some ((base convert).exactCopy d s m), convert,
    fun d s m => some ((base unsaturated).exactCopy d s m)⟩

theorem exactEnv_exact (convert unsaturated : ScalarType → ScalarType → List UInt8 → List UInt8) :
    (exactEnv convert unsaturated).CopyExact :=
  ⟨fun _ _ _ _ _ => rfl, fun _ _ _ _ _ _ => rfl⟩

/-- A vector on the device 0. -/
def vector (ptr storagePtr : Int) (n : Nat) (stype : ScalarType) (impl : Nat) : T :=
  ⟨ptr, storagePtr, [n], [1], stype, 0, true, impl⟩

/-- Two halves of a buffer copied to the halves of another one. -/
theorem foreachCopy_sequential_halves :
    ∃ out, (exactEnv (fun _ _ b => b) fun _ _ b => b).OpForeachCopy
        [vector 64 64 2 .float32 0, vector 72 64 3 .float32 1]
        [vector 128 128 2 .float32 2, vector 136 128 3 .float32 3]
        ⟨fun x => UInt8.ofNat x.toNat, fun _ => 0⟩ out ∧
      out.1.versions 1 = 1 := by
  obtain ⟨⟨out, hout⟩, hall⟩ := @foreachCopy_sequential _
    [vector 64 64 2 .float32 0, vector 72 64 3 .float32 1]
    [vector 128 128 2 .float32 2, vector 136 128 3 .float32 3]
    (exactEnv_exact (fun _ _ b => b) fun _ _ b => b) rfl ⟨by decide, by decide⟩
    ⟨fun x => UInt8.ofNat x.toNat, fun _ => 0⟩
  obtain ⟨-, hdone, hversions⟩ := hall out hout
  exact ⟨out, hout, hversions (hdone (by simp)) 1⟩

/-- The float32 500.0, and what it becomes with and without saturation. -/
def fiveHundred : List UInt8 := [0, 0, 0xFA, 0x43]

def convert500 (e4m3fn : UInt8) (_ _ : ScalarType) (bytes : List UInt8) : List UInt8 :=
  if bytes = fiveHundred then [e4m3fn] else [0]

/-- A float32 500.0 copied to a float8 becomes NaN where `copy_` makes it 448. -/
theorem foreachCopy_unsaturated :
    ∃ out, (exactEnv (convert500 0x7E) (convert500 0x7F)).OpForeachCopy
        [vector 0 0 1 .float8E4m3fn 0] [vector 4 4 1 .float32 1]
        ⟨fun x => fiveHundred.getD (x - 4).toNat 0, fun _ => 0⟩ out ∧
      out.1.mem 0 = 0x7F ∧
      ((exactEnv (convert500 0x7E) (convert500 0x7F)).sequential
        [(vector 0 0 1 .float8E4m3fn 0, vector 4 4 1 .float32 1)]
        ⟨fun x => fiveHundred.getD (x - 4).toNat 0, fun _ => 0⟩).1.mem 0 = 0x7E := by
  exact ⟨(exactEnv (convert500 0x7E) (convert500 0x7F)).copyE4m3fnUnsaturated
    [(vector 0 0 1 .float8E4m3fn 0, vector 4 4 1 .float32 1)]
    ⟨fun x => fiveHundred.getD (x - 4).toNat 0, fun _ => 0⟩, rfl, by decide, by decide⟩

end TorchMojoBackend.Kernels.ForeachCopy
