/-
  `Ops.StatelessPhiloxExact`: a batch of keys gives what each key gives alone.

  Every kernel stores one value at each place of its output, and the value depends on the
  key of the place's block and on the place in the block only.  A folded key is laid out as
  the batch is, but written in the order of memory.
-/
import TorchMojoBackend.Ops.StatelessPhilox

set_option autoImplicit false

namespace TorchMojoBackend.Ops.StatelessPhilox

open TorchMojoBackend.Foundation TorchMojoBackend.Ops.Views
open TorchMojoBackend.Kernels.ForeachCopy (contigFrom isDense)
open TorchMojoBackend.Ops.DenseStrides (isDense_iff_dense toDim)
open TorchMojoBackend.Ops.ResizeOut (contiguousStrides)

universe u

/-! ## Kernels -/

theorem itemsOf_flatMap_perm {β : Type*} (n k : Nat) (f : Nat → List β) :
    ((itemsOf (n * k)).flatMap f).Perm
      ((List.range n).flatMap fun i => (List.range k).flatMap fun j => f (i * k + j)) :=
  gridItems_flatMap_perm n k (Nat.mul_pos (Nat.lt_of_lt_of_le Nat.one_pos (Nat.le_max_left 1 _))
    (by decide)) f

theorem itemsOf_perm (n : Nat) : (itemsOf n).Perm (List.range n) :=
  gridItems_perm n (Nat.mul_pos (Nat.lt_of_lt_of_le Nat.one_pos (Nat.le_max_left 1 _)) (by decide))

/-- A word of the key derived from words. -/
def derivedWord (r : U32x4) (w : Nat) : UInt64 :=
  if w = 0 then r.x.toUInt64 ||| (r.y.toUInt64 <<< 32) else r.z.toUInt64 ||| (r.w.toUInt64 <<< 32)

theorem deriveKey_eq (r : U32x4) (i : Nat) :
    deriveKey r (i * 2) = (List.range 2).map fun w => (i * 2 + w, derivedWord r w) := rfl

/-- Keys derived for all places of a range. -/
theorem flatMap_deriveKey (n : Nat) (r : Nat → U32x4) :
    ((List.range n).flatMap fun i => deriveKey (r i) (i * 2)) =
      (List.range (n * 2)).map fun p => (p, derivedWord (r (p / 2)) (p % 2)) := by
  rw [range_mul, List.map_flatMap]
  refine List.flatMap_congr fun i _ => ?_
  rw [deriveKey_eq, List.map_map]
  refine List.map_congr_left fun w hw => ?_
  have hlt : w < 2 := List.mem_range.mp hw
  rw [Function.comp_apply, row_div hlt, Nat.mul_add_mod_of_lt hlt]

/-- The words of the key `i` of a split. -/
def splitWords (keys : Nat → UInt64) (numKeys i : Nat) : U32x4 :=
  statelessPhilox (keys (i % numKeys * 2)) (keys (i % numKeys * 2 + 1) + .ofNat (i / numKeys))

theorem keySplitKernel_perm (keys : Nat → UInt64) (numKeys numSplits : Nat) :
    (keySplitKernel keys numKeys numSplits).Perm ((List.range (numSplits * numKeys * 2)).map
      fun p => (p, derivedWord (splitWords keys numKeys (p / 2)) (p % 2))) := by
  rw [keySplitKernel, Nat.mul_comm numKeys, ← flatMap_deriveKey, range_mul, List.flatMap_assoc]
  refine (itemsOf_flatMap_perm _ _ _).trans (List.Perm.of_eq ?_)
  refine List.flatMap_congr fun s _ => ?_
  rw [List.flatMap_map]
  refine List.flatMap_congr fun k hk => ?_
  have hlt : k < numKeys := List.mem_range.mp hk
  rw [splitWords, row_div hlt, Nat.mul_add_mod_of_lt hlt]

/-- The words of the folded key `i`. -/
def foldWords (keys : Nat → UInt64) (fold : UInt64) (i : Nat) : U32x4 :=
  statelessPhilox (keys (i * 2)) (keys (i * 2 + 1) + fold)

theorem keyFoldInKernel_perm (keys : Nat → UInt64) (numKeys : Nat) (fold : UInt64) :
    (keyFoldInKernel keys numKeys fold).Perm ((List.range (numKeys * 2)).map
      fun p => (p, derivedWord (foldWords keys fold (p / 2)) (p % 2))) := by
  rw [← flatMap_deriveKey]
  exact (itemsOf_perm numKeys).flatMap_right _

/-- What the element `i` of the block of a key gets. -/
def blockValue {α : Type u} (draw : Draw α) (seed offset : UInt64) (i : Nat) : α :=
  draw.value (statelessPhilox seed (offset + .ofNat (i / draw.epc))) (i % draw.epc)

theorem epc_pos {α : Type u} (draw : Draw α) : 0 < draw.epc := by
  unfold Draw.epc
  split <;> decide

/-- Each element is drawn once. -/
theorem distKernel_perm {α : Type u} (draw : Draw α) (keys : Nat → UInt64) (numKeys epk : Nat) :
    (distKernel draw keys numKeys epk).Perm ((List.range (numKeys * epk)).map fun p =>
      (p, blockValue draw (keys (p / epk * 2)) (keys (p / epk * 2 + 1)) (p % epk))) := by
  have hN := epc_pos draw
  unfold distKernel
  refine (itemsOf_flatMap_perm _ _ _).trans (List.Perm.of_eq ?_)
  rw [range_mul, List.map_flatMap]
  refine List.flatMap_congr fun k _ => ?_
  generalize hchunks : (epk + draw.epc - 1) / draw.epc = chunks
  have hcover : epk ≤ chunks * draw.epc := by
    have := Nat.lt_div_mul_add hN (a := epk + draw.epc - 1)
    rw [hchunks] at this
    omega
  let store (i : Nat) : Nat × α := (k * epk + i, blockValue draw (keys (k * 2)) (keys (k * 2 + 1)) i)
  have hguard : ∀ i, (if i ≥ epk then [] else [store i]) = if i < epk then [store i] else [] := by
    intro i
    by_cases hi : i < epk
    · rw [if_neg (by omega), if_pos hi]
    · rw [if_pos (by omega), if_neg hi]
  have hblock := flatMap_range_guard (fun i => [store i]) hcover
  rw [range_mul, List.flatMap_assoc, ← List.map_eq_flatMap] at hblock
  rw [List.map_map]
  refine Eq.trans ?_ (hblock.trans (List.map_congr_left fun i hi => ?_))
  · refine List.flatMap_congr fun c hc => ?_
    rw [List.flatMap_map]
    refine List.flatMap_congr fun j hj => ?_
    have hc : c < chunks := List.mem_range.mp hc
    have hj : j < draw.epc := List.mem_range.mp hj
    rw [row_div hc, Nat.mul_add_mod_of_lt hc, hguard, Nat.add_assoc]
    simp only [store, blockValue, row_div hj, Nat.mul_add_mod_of_lt hj]
  · have hi : i < epk := List.mem_range.mp hi
    simp only [store, Function.comp_apply, row_div hi, Nat.mul_add_mod_of_lt hi]

/-! ## Blocks -/

/-- The key of an element of the output: its dimensions of one element are repeated. -/
def keyAt (key : T UInt64) (z : List Nat) (w : Nat) : UInt64 :=
  key.elem (List.zipWith (fun size i => if size = 1 then 0 else i) key.shape z ++ [w])

theorem trailing_spec (l : List (Nat × Nat)) (epk keyDims : Nat) : ∃ a b, l = b ++ a ∧
    (∀ d ∈ b, d.2 = 1) ∧ (∀ d, a.head? = some d → d.2 ≠ 1) ∧
      trailing l epk keyDims = (epk * (b.map Prod.fst).prod, keyDims - b.length) := by
  induction l generalizing epk keyDims with
  | nil =>
      refine ⟨[], [], rfl, fun _ hd => absurd hd List.not_mem_nil, fun _ hd => (nomatch hd), ?_⟩
      rw [trailing, List.map_nil, List.prod_nil, Nat.mul_one]
      rfl
  | cons d l ih =>
      obtain ⟨size, keySize⟩ := d
      by_cases hone : keySize = 1
      · obtain ⟨a, b, rfl, hb, ha, heq⟩ := ih (epk * size) (keyDims - 1)
        refine ⟨a, (size, keySize) :: b, rfl, fun d hd => ?_, ha, ?_⟩
        · obtain rfl | hd := List.mem_cons.mp hd
          · exact hone
          · exact hb d hd
        · rw [trailing, if_neg (not_not_intro hone), heq, List.map_cons, List.prod_cons,
            Nat.mul_assoc, List.length_cons, Nat.sub_sub, Nat.add_comm 1]
      · refine ⟨(size, keySize) :: l, [], rfl, fun _ hd => absurd hd List.not_mem_nil, ?_, ?_⟩
        · rintro _ ⟨rfl⟩
          exact hone
        · rw [trailing, if_pos hone, List.map_nil, List.prod_nil, Nat.mul_one]
          rfl

/-- The leading dimensions `a` of an output, one block for each index of them, and the trailing
dimensions `b` of a block: the key has extent one along all of `b`, and not along the last
dimension of `a`. -/
structure Blocks (shape : List Nat) (key : T UInt64) (a b ka : List Nat) : Prop where
  shape_eq : shape = a ++ b
  key_shape : key.shape = ka ++ (List.replicate b.length 1 ++ [2])
  length_eq : ka.length = a.length
  last_ne : ∀ n, ka.getLast? = some n → n ≠ 1
  fits : ∀ i (hi : i < ka.length) (hi' : i < a.length), ka[i] = 1 ∨ ka[i] = a[i]

theorem map_getD_range (a b : List Nat) : (List.range a.length).map ((a ++ b).getD · 0) = a := by
  refine List.ext_getElem (by rw [List.length_map, List.length_range]) fun i hi hi' => ?_
  rw [List.getElem_map, List.getElem_range, List.getD_append _ _ _ _ hi',
    List.getD_eq_getElem _ _ hi']

theorem along_zeros (strides : List Int) (n : Nat) : along strides (List.replicate n 0) = 0 := by
  induction n generalizing strides with
  | zero => cases strides <;> rfl
  | succ n ih =>
      cases strides with
      | nil => rfl
      | cons s strides => rw [List.replicate_succ, along, ih, Nat.cast_zero, Int.zero_mul]; rfl

/-- Strides of zero along the repeated dimensions. -/
theorem along_broadcast {sizes : List Nat} {strides : List Int}
    (hlen : strides.length = sizes.length) {x : List Nat} (hx : x.length = sizes.length) :
    along (List.zipWith (fun size stride => if size ≠ 1 then stride else 0) sizes strides) x =
      along strides (List.zipWith (fun size i => if size = 1 then 0 else i) sizes x) := by
  induction sizes generalizing strides x with
  | nil =>
      obtain rfl := List.eq_nil_of_length_eq_zero hx
      cases strides <;> rfl
  | cons n sizes ih =>
      obtain ⟨i, x, rfl⟩ := List.exists_cons_of_length_eq_add_one hx
      obtain ⟨s, strides, rfl⟩ := List.exists_cons_of_length_eq_add_one hlen
      rw [List.zipWith_cons_cons, List.zipWith_cons_cons, along, along,
        ih (Nat.succ.inj hlen) (Nat.succ.inj hx)]
      by_cases hone : n = 1
      · rw [if_neg (not_not_intro hone), if_pos hone, Int.mul_zero, Nat.cast_zero, Int.zero_mul]
      · rw [if_pos hone, if_neg hone]

theorem zipWith_ones (t y : List Nat) :
    List.zipWith (fun size i => if size = 1 then 0 else i) (List.replicate y.length 1 ++ t) y =
      List.replicate y.length 0 := by
  induction y with
  | nil => exact List.zipWith_nil_right
  | cons i y ih =>
      rw [List.length_cons, List.replicate_succ, List.cons_append, List.zipWith_cons_cons, ih,
        if_pos rfl, ← List.replicate_succ]

theorem distributionCheck_ok {α : Type u} {what : String} {selfT : T α} {key : T UInt64}
    (h : distributionCheck what selfT key = .ok ()) :
    key.shape.getLast? = some 2 ∧ (1 < key.rank → key.rank = selfT.rank + 1 ∧
      ∀ d ∈ key.shape.zip selfT.shape, d.1 = 1 ∨ d.1 = d.2) := by
  unfold distributionCheck endsInPair at h
  split at h
  · exact nomatch h
  · rename_i hpair
    split at h
    · exact nomatch h
    · rename_i hrank
      split at h
      · exact nomatch h
      · rename_i hfit
        refine ⟨by simpa using hpair, fun hbatch => ⟨?_, fun d hd => ?_⟩⟩
        · by_contra hne
          exact hrank ⟨hbatch, hne⟩
        · by_contra hne
          rw [not_or] at hne
          refine hfit ⟨hbatch, List.any_eq_true.mpr ⟨d, hd, ?_⟩⟩
          rw [Bool.and_eq_true, decide_eq_true_iff, decide_eq_true_iff]
          exact hne

/-- The loop finds the blocks. -/
theorem exists_blocks {shape : List Nat} {key : T UInt64} (hlast : key.shape.getLast? = some 2)
    (hrank : key.rank = shape.length + 1)
    (hfit : ∀ d ∈ key.shape.zip shape, d.1 = 1 ∨ d.1 = d.2) :
    ∃ a b ka, Blocks shape key a b ka ∧
      trailing (shape.zip key.shape).reverse 1 shape.length = (b.prod, a.length) := by
  obtain ⟨ks, hks⟩ : ∃ ks, key.shape = ks ++ [2] := by
    obtain ⟨ks, hks⟩ := List.getLast?_eq_some_iff.mp hlast
    exact ⟨ks, hks⟩
  have hlen : ks.length = shape.length := by
    rw [T.rank, hks, List.length_append] at hrank
    exact Nat.succ.inj hrank
  have hzip : shape.zip key.shape = shape.zip ks := by
    rw [hks, ← List.append_nil shape, List.zip_append hlen.symm, List.append_nil]
    exact List.append_nil _
  obtain ⟨a, b, hab, hones, hhead, htrailing⟩ :=
    trailing_spec (shape.zip ks).reverse 1 shape.length
  have hsplit : shape.zip ks = a.reverse ++ b.reverse := by
    rw [← List.reverse_append, ← hab, List.reverse_reverse]
  have hfst : shape = a.reverse.map Prod.fst ++ b.reverse.map Prod.fst := by
    rw [← List.map_append, ← hsplit, ← List.unzip_fst, List.unzip_zip hlen.symm]
  have hsnd : ks = a.reverse.map Prod.snd ++ b.reverse.map Prod.snd := by
    rw [← List.map_append, ← hsplit, ← List.unzip_snd, List.unzip_zip hlen.symm]
  have hrepl : b.reverse.map Prod.snd = List.replicate (b.reverse.map Prod.fst).length 1 := by
    rw [List.length_map, List.eq_replicate_iff]
    refine ⟨List.length_map _, fun n hn => ?_⟩
    obtain ⟨d, hd, rfl⟩ := List.mem_map.mp hn
    exact hones d (List.mem_reverse.mp hd)
  refine ⟨a.reverse.map Prod.fst, b.reverse.map Prod.fst, a.reverse.map Prod.snd,
    ⟨hfst, ?_, ?_, fun n hn => ?_, fun i hi hi' => ?_⟩, ?_⟩
  · rw [hks, hsnd, hrepl, List.append_assoc]
  · rw [List.length_map, List.length_map]
  · rw [List.getLast?_map, List.getLast?_reverse, Option.map_eq_some_iff] at hn
    obtain ⟨d, hd, rfl⟩ := hn
    exact hhead d hd
  · rw [List.length_map] at hi
    rw [List.getElem_map, List.getElem_map]
    have hmem : a.reverse[i] ∈ shape.zip ks := by
      rw [hsplit]
      exact List.mem_append_left _ (List.getElem_mem hi)
    have hswap : (a.reverse[i].2, a.reverse[i].1) ∈ key.shape.zip shape := by
      rw [← List.zip_swap, List.mem_map]
      exact ⟨a.reverse[i], hzip ▸ hmem, rfl⟩
    exact hfit _ hswap
  · rw [hzip, htrailing, Nat.one_mul, List.map_reverse, List.prod_reverse, List.length_map,
      List.length_reverse]
    have hcount := congrArg List.length hfst
    rw [List.length_append, List.length_map, List.length_map, List.length_reverse,
      List.length_reverse] at hcount
    rw [hcount, Nat.add_sub_cancel]

section
variable {shape : List Nat} {key : T UInt64} {a b ka : List Nat}

theorem Blocks.lt_rank (h : Blocks shape key a b ka) : key.rank = a.length + b.length + 1 := by
  rw [T.rank, h.key_shape, List.length_append, List.length_append, List.length_replicate,
    h.length_eq, Nat.add_assoc]
  rfl

/-- The key of a block, in the view of the keys. -/
theorem Blocks.flat_elem (h : Blocks shape key a b ka) (hbatch : 1 < key.rank)
    (htrailing : trailing (shape.zip key.shape).reverse 1 shape.length = (b.prod, a.length))
    {x y : List Nat} (hx : x.length = a.length) (hy : y.length = b.length) (w : Nat) :
    (flatten shape key).flat.elem (x ++ [w]) = keyAt key (x ++ y) w := by
  obtain ⟨s1, s2, s3, hstrides, hs1, hs2⟩ : ∃ s1 s2 s3, key.strides = s1 ++ (s2 ++ [s3]) ∧
      s1.length = a.length ∧ s2.length = b.length := by
    have hlen := key.strides_length
    rw [← T.rank, h.lt_rank] at hlen
    refine ⟨key.strides.take a.length, (key.strides.drop a.length).take b.length,
      (key.strides.drop a.length).getLast ?_, ?_, ?_, ?_⟩
    · refine List.ne_nil_of_length_pos ?_
      rw [List.length_drop]
      omega
    · have hinit : (key.strides.drop a.length).take b.length =
          (key.strides.drop a.length).dropLast := by
        rw [List.dropLast_eq_take, List.length_drop, hlen]
        congr 1
        omega
      rw [hinit, List.dropLast_append_getLast, List.take_append_drop]
    · rw [List.length_take]
      omega
    · rw [List.length_take, List.length_drop]
      omega
  have hlead : ((List.range a.length).map fun i =>
      if key.shape.getD i 0 ≠ 1 then key.strides.getD i 0 else 0) =
      List.zipWith (fun size stride => if size ≠ 1 then stride else 0) ka s1 := by
    refine List.ext_getElem ?_ fun i hi hi' => ?_
    · rw [List.length_map, List.length_range, List.length_zipWith, h.length_eq, hs1, Nat.min_self]
    · rw [List.length_zipWith] at hi'
      rw [List.getElem_map, List.getElem_range, List.getElem_zipWith, h.key_shape, hstrides,
        List.getD_append _ _ _ _ (by omega), List.getD_append _ _ _ _ (by omega),
        List.getD_eq_getElem _ _ (by omega), List.getD_eq_getElem _ _ (by omega)]
  have hlast : key.strides.getLastD 0 = s3 := by
    rw [hstrides, ← List.append_assoc, List.getLastD_eq_getLast?, List.getLast?_concat]
    rfl
  have hindex : List.zipWith (fun size i => if size = 1 then 0 else i) key.shape (x ++ y) =
      List.zipWith (fun size i => if size = 1 then 0 else i) ka x ++ List.replicate b.length 0 := by
    rw [h.key_shape, List.zipWith_append (by rw [h.length_eq, hx]), ← hy, zipWith_ones]
  have hzip : (List.zipWith (fun size i => if size = 1 then 0 else i) ka x).length = s1.length := by
    rw [List.length_zipWith, h.length_eq, hx, hs1, Nat.min_self]
  have hview : (flatten shape key).flat.elem (x ++ [w]) = key.storage (key.offset +
      along ((List.range a.length).map (fun i =>
        if key.shape.getD i 0 ≠ 1 then key.strides.getD i 0 else 0) ++ [key.strides.getLastD 0])
        (x ++ [w])) := by
    rw [flatten, if_neg (by omega), htrailing]
    rfl
  have hbroadcast := along_broadcast (hs1.trans h.length_eq.symm) (hx.trans h.length_eq.symm)
  have hwidth : (List.zipWith (fun size stride => if size ≠ 1 then stride else 0) ka s1).length =
      x.length := by
    rw [List.length_zipWith, h.length_eq, hs1, hx, Nat.min_self]
  rw [hview, hlead, hlast, along_append hwidth.symm, hbroadcast, keyAt, T.elem, T.addr, hindex,
    hstrides, List.append_assoc, along_append hzip,
    along_append ((List.length_replicate ..).trans hs2.symm), along_zeros, Int.zero_add]

theorem Blocks.flat_shape (h : Blocks shape key a b ka) (hbatch : 1 < key.rank)
    (htrailing : trailing (shape.zip key.shape).reverse 1 shape.length = (b.prod, a.length)) :
    (flatten shape key).flat.shape = a ++ [2] ∧ (flatten shape key).epk = b.prod ∧
      (flatten shape key).numKeys = shape.prod / b.prod := by
  rw [flatten, if_neg (by omega), htrailing, h.shape_eq]
  exact ⟨congrArg (· ++ [2]) (map_getD_range a b), rfl, rfl⟩

end

/-! ## Fills -/

section
variable {α : Type u} {draw : Draw α} {what : String} {selfT : T α} {key : T UInt64}
  {rest : UInt64}

/-- What a fill stores, by the place of an element. -/
theorem distributionKernel_perm (selfT : T α) (key : T UInt64) (rest : UInt64)
    (hcount : selfT.numel ≠ 0 →
      (flatten selfT.shape key).numKeys * (flatten selfT.shape key).epk = selfT.numel) :
    (distributionKernel draw selfT key rest).Perm ((List.range selfT.numel).map fun p =>
      let keys := flatten selfT.shape key
      (p, blockValue draw (keys.flat.contiguous rest (p / keys.epk * 2))
        (keys.flat.contiguous rest (p / keys.epk * 2 + 1)) (p % keys.epk))) := by
  unfold distributionKernel
  by_cases hzero : selfT.numel = 0
  · rw [if_pos hzero, hzero]
    exact List.Perm.refl _
  · rw [if_neg hzero, ← hcount hzero]
    exact distKernel_perm _ _ _ _

/-- A fill with a single key draws the elements one after the other. -/
theorem Distribution.stores_single (r : Distribution draw what selfT key rest)
    (hkey : key.shape = [2]) :
    r.stores.Perm ((indices selfT.shape).map fun y => (selfT.addr y,
      blockValue draw (key.elem [0]) (key.elem [1]) (flatIndex selfT.shape y))) := by
  have hflat : flatten selfT.shape key = ⟨1, selfT.shape.prod, key⟩ :=
    if_pos (congrArg List.length hkey)
  have hword : ∀ w < 2, key.contiguous rest w = key.elem [w] := by
    intro w hw
    have hmem : [w] ∈ indices key.shape := by
      rw [hkey]
      exact mem_indices.mpr (.cons hw .nil)
    have hplace : flatIndex key.shape [w] = w := by
      rw [hkey, flatIndex, List.prod_nil, Nat.mul_one]
      rfl
    have := T.contiguous_elem rest hmem
    rwa [hplace] at this
  have hperm := r.fill.stores_perm (distributionKernel_perm selfT key rest fun _ => by
    rw [hflat]
    exact Nat.one_mul _)
  refine hperm.trans (List.Perm.of_eq (List.map_congr_left fun y hy => ?_))
  have hlt := flatIndex_lt hy
  simp only [hflat, Nat.div_eq_of_lt hlt, Nat.mod_eq_of_lt hlt, Nat.zero_mul, Nat.zero_add,
    hword 0 (by decide), hword 1 (by decide)]

/-- A fill with a batch of keys draws the elements of each block with its key. -/
theorem Distribution.stores_batched (r : Distribution draw what selfT key rest)
    (hbatch : 1 < key.rank) : ∃ a b ka, Blocks selfT.shape key a b ka ∧
      r.stores.Perm ((indices a).flatMap fun x => (indices b).map fun y => (selfT.addr (x ++ y),
        blockValue draw (keyAt key (x ++ y) 0) (keyAt key (x ++ y) 1) (flatIndex b y))) := by
  obtain ⟨hlast, hfits⟩ := distributionCheck_ok r.checked
  obtain ⟨hrank, hfit⟩ := hfits hbatch
  obtain ⟨a, b, ka, hblocks, htrailing⟩ := exists_blocks hlast hrank hfit
  obtain ⟨hshape, hepk, hnum⟩ := hblocks.flat_shape hbatch htrailing
  have hprod : selfT.numel = a.prod * b.prod := by
    rw [T.numel, hblocks.shape_eq, List.prod_append]
  have hperm := r.fill.stores_perm (distributionKernel_perm selfT key rest fun hne => by
    have hb : 0 < b.prod := Nat.pos_of_ne_zero fun hzero => hne (by rw [hprod, hzero, Nat.mul_zero])
    rw [hepk, hnum, ← T.numel, hprod, Nat.mul_div_cancel _ hb])
  refine ⟨a, b, ka, hblocks, hperm.trans (List.Perm.of_eq ?_)⟩
  have hindices : indices selfT.shape =
      (indices a).flatMap fun x => (indices b).map (x ++ ·) := by
    rw [hblocks.shape_eq, indices_append]
  rw [hindices, List.map_flatMap]
  refine List.flatMap_congr fun x hx => ?_
  rw [List.map_map]
  refine List.map_congr_left fun y hy => ?_
  have hflat : flatIndex selfT.shape (x ++ y) = flatIndex a x * b.prod + flatIndex b y := by
    rw [hblocks.shape_eq, flatIndex_append (length_of_mem_indices hx)]
  have hword : ∀ w < 2, (flatten selfT.shape key).flat.contiguous rest (flatIndex a x * 2 + w) =
      keyAt key (x ++ y) w := by
    intro w hw
    have hmem : x ++ [w] ∈ indices (flatten selfT.shape key).flat.shape := by
      rw [hshape]
      exact mem_indices_append hx (mem_indices.mpr (.cons hw .nil))
    have hplace : flatIndex (flatten selfT.shape key).flat.shape (x ++ [w]) =
        flatIndex a x * 2 + w := by
      rw [hshape, flatIndex_append (length_of_mem_indices hx), flatIndex, List.prod_singleton,
        List.prod_nil, Nat.mul_one]
      rfl
    rw [← hplace, T.contiguous_elem rest hmem]
    exact hblocks.flat_elem hbatch htrailing (length_of_mem_indices hx) (length_of_mem_indices hy) w
  have hlt := flatIndex_lt hy
  have hfirst := hword 0 (by decide)
  rw [Nat.add_zero] at hfirst
  simp only [Function.comp_apply, hflat, hepk, row_div hlt, Nat.mul_add_mod_of_lt hlt, hfirst,
    hword 1 (by decide)]

end

/-! ## Split and folded keys -/

/-- The place of a word of a key. -/
theorem flatIndex_word {batch x : List Nat} (hx : x ∈ indices batch) (w : Nat) :
    flatIndex (batch ++ [2]) (x ++ [w]) = flatIndex batch x * 2 + w := by
  rw [flatIndex_append (length_of_mem_indices hx), flatIndex, List.prod_singleton, List.prod_nil,
    Nat.mul_one]
  rfl

theorem numKeys_eq {key : T UInt64} {batch : List Nat} (hshape : key.shape = batch ++ [2]) :
    key.numel / 2 = batch.prod := by
  rw [T.numel, hshape, List.prod_append, List.prod_singleton, Nat.mul_div_cancel _ (by decide)]

theorem word_mem {batch x : List Nat} (hx : x ∈ indices batch) {w : Nat} (hw : w < 2) :
    x ++ [w] ∈ indices (batch ++ [2]) :=
  mem_indices_append hx (mem_indices.mpr (.cons hw .nil))

theorem contiguous_key {key : T UInt64} {batch x : List Nat} (hshape : key.shape = batch ++ [2])
    (hx : x ∈ indices batch) (rest : UInt64) :
    key.contiguous rest (flatIndex batch x * 2) = key.elem (x ++ [0]) ∧
      key.contiguous rest (flatIndex batch x * 2 + 1) = key.elem (x ++ [1]) := by
  have hword : ∀ w < 2, key.contiguous rest (flatIndex batch x * 2 + w) = key.elem (x ++ [w]) := by
    intro w hw
    have hmem : x ++ [w] ∈ indices key.shape := by
      rw [hshape]
      exact word_mem hx hw
    rw [← flatIndex_word hx, ← hshape, T.contiguous_elem rest hmem]
  exact ⟨hword 0 (by decide), hword 1 (by decide)⟩

/-- The words that a key is split or folded to. -/
def derivedWords (key : T UInt64) (x : List Nat) (data : UInt64) : U32x4 :=
  statelessPhilox (key.elem (x ++ [0])) (key.elem (x ++ [1]) + data)

/-- What a place of an output gets that a kernel stores one value to. -/
theorem stored_at {kernel : List (Nat × UInt64)} {storage : Int → UInt64} {n : Nat}
    {f : Nat → UInt64} (hstored : ∃ fresh, Stores (kernel.map fun w => ((w.1 : Int), w.2)) fresh storage)
    (hkernel : kernel.Perm ((List.range n).map fun p => (p, f p))) {p : Nat} (hp : p < n) :
    storage p = f p := by
  obtain ⟨fresh, hstores⟩ := hstored
  have hperm := hkernel.map fun w => ((w.1 : Int), w.2)
  rw [List.map_map] at hperm
  exact (hstores.congr fun w => hperm.mem_iff).map_at (fun i _ j _ hij => Int.ofNat.inj hij)
    (List.mem_range.mpr hp)

theorem KeySplit.elem {key : T UInt64} {numSplits : Int} {rest : UInt64}
    (r : KeySplit key numSplits rest) {batch x : List Nat} (hshape : key.shape = batch ++ [2])
    (hx : x ∈ indices batch) {s w : Nat} (hs : s < numSplits.toNat) (hw : w < 2) :
    r.result.elem (s :: (x ++ [w])) = derivedWord (derivedWords key x (.ofNat s)) w := by
  have hlt := flatIndex_lt hx
  have hmem : s :: (x ++ [w]) ∈ indices (numSplits.toNat :: key.shape) := by
    rw [hshape]
    exact mem_indices.mpr (.cons hs (mem_indices.mp (word_mem hx hw)))
  have hplace : flatIndex (numSplits.toNat :: key.shape) (s :: (x ++ [w])) =
      (s * batch.prod + flatIndex batch x) * 2 + w := by
    rw [flatIndex, hshape, flatIndex_word hx, List.prod_append, List.prod_singleton, Nat.add_mul,
      Nat.mul_assoc, Nat.add_assoc]
  have hbound : (s * batch.prod + flatIndex batch x) * 2 + w <
      numSplits.toNat * (key.numel / 2) * 2 := by
    rw [numKeys_eq hshape]
    exact row_major_lt (row_major_lt hs hlt) hw
  have hat := stored_at r.stored (keySplitKernel_perm _ _ _) hbound
  obtain ⟨hseed, hoffset⟩ := contiguous_key hshape hx rest
  rw [row_div hw, Nat.mul_add_mod_of_lt hw, splitWords, numKeys_eq hshape, row_div hlt,
    Nat.mul_add_mod_of_lt hlt, hseed, hoffset] at hat
  change r.storage (0 + along (contiguousStrides _) _) = _
  rw [Int.zero_add, along_contiguousStrides hmem, hplace, hat, derivedWords]

/-- A folded key, by its place in memory. -/
theorem KeyFoldIn.storage_at {key : T UInt64} {fold rest : UInt64} (r : KeyFoldIn key fold rest)
    {batch x : List Nat} (hshape : key.shape = batch ++ [2]) (hx : x ∈ indices batch) {w : Nat}
    (hw : w < 2) : r.storage (flatIndex key.shape (x ++ [w]) : Nat) =
      derivedWord (derivedWords key x fold) w := by
  have hbound : flatIndex batch x * 2 + w < key.numel / 2 * 2 := by
    rw [numKeys_eq hshape]
    exact row_major_lt (flatIndex_lt hx) hw
  have hat := stored_at r.stored (keyFoldInKernel_perm _ _ _) hbound
  obtain ⟨hseed, hoffset⟩ := contiguous_key hshape hx rest
  rw [row_div hw, Nat.mul_add_mod_of_lt hw, foldWords, hseed, hoffset] at hat
  rw [hshape, flatIndex_word hx, hat, derivedWords]

theorem KeyFoldIn.elem {key : T UInt64} {fold rest : UInt64} (r : KeyFoldIn key fold rest)
    (hcontig : r.result.contig = true) {batch x : List Nat} (hshape : key.shape = batch ++ [2])
    (hx : x ∈ indices batch) {w : Nat} (hw : w < 2) :
    r.result.elem (x ++ [w]) = derivedWord (derivedWords key x fold) w := by
  have hmem : x ++ [w] ∈ indices r.result.shape := by
    change _ ∈ indices key.shape
    rw [hshape]
    exact word_mem hx hw
  have hstrides : along r.result.strides (x ++ [w]) = flatIndex key.shape (x ++ [w]) :=
    T.along_of_contig hcontig hmem
  rw [← r.storage_at hshape hx hw, T.elem, T.addr, hstrides]
  exact congrArg r.storage (Int.zero_add _)

/-- A single key gives a contiguous one. -/
theorem foldInStrides_single {key : T UInt64} (hshape : key.shape = [2]) :
    foldInStrides key = [1] := by
  have hlen := key.strides_length
  rw [hshape] at hlen
  obtain ⟨s, hs⟩ := List.length_eq_one_iff.mp hlen
  unfold foldInStrides
  rw [T.rank, hshape, hs]
  split
  · rename_i hdense
    have hone : s = 1 := by simpa [isDense] using hdense
    rw [hone]
  · rfl

theorem KeyFoldIn.elem_single {key : T UInt64} {fold rest : UInt64} (r : KeyFoldIn key fold rest)
    (hshape : key.shape = [2]) {w : Nat} (hw : w < 2) :
    r.result.elem [w] = derivedWord (derivedWords key [] fold) w := by
  have hcontig : r.result.contig = true := by
    change (decide (key.shape.prod = 0) ||
      contigFrom 1 (key.shape.zip (foldInStrides key)).reverse) = true
    rw [hshape, foldInStrides_single hshape]
    rfl
  have hnil : ([] : List Nat) ∈ indices [] := List.mem_singleton.mpr rfl
  exact r.elem hcontig hshape hnil hw

/-- The result of contiguous keys is contiguous. -/
theorem KeyFoldIn.contig {key : T UInt64} {fold rest : UInt64} (r : KeyFoldIn key fold rest)
    (hcontig : key.contig = true) (hstrides : ∀ s ∈ key.strides, 0 ≤ s) :
    r.result.contig = true := by
  by_cases hzero : key.numel = 0
  · rw [T.contig, decide_eq_true (show r.result.numel = 0 from hzero), Bool.true_or]
  · have hdense : isDense (key.shape.zip key.strides) = true := by
      refine (isDense_iff_dense (fun d hd => ?_) fun d hd => ?_).mpr ?_
      · exact fun h => hzero (List.prod_eq_zero (h ▸ (List.of_mem_zip hd).1))
      · exact hstrides _ (List.of_mem_zip hd).2
      · have hoffsets : offsets ((key.shape.zip key.strides).map toDim) =
            (List.range key.shape.prod).map fun k : Nat => (k : Int) := by
          rw [← map_flatIndex, List.map_map]
          refine (offsets_zip key.strides_length).trans (List.map_congr_left fun x hx => ?_)
          exact T.along_of_contig hcontig hx
        have hcount : count ((key.shape.zip key.strides).map toDim) = key.shape.prod := by
          rw [← length_offsets, hoffsets, List.length_map, List.length_range]
        rw [Foundation.Dense, hoffsets, hcount]
    have hsame : r.result.strides = key.strides := if_pos hdense
    rw [T.contig, hsame]
    exact hcontig

/-! ## Batches -/

/-- Every element of a tensor was stored once, with its value; nothing else changed. -/
structure Fills {α : Type u} (t : T α) (stores : List (Int × α)) (out : Int → α)
    (value : List Nat → α) : Prop where
  once : stores.Perm ((indices t.shape).map fun z => (t.addr z, value z))
  elem : ∀ z ∈ indices t.shape, (∀ z' ∈ indices t.shape, t.addr z' = t.addr z → z' = z) →
    out (t.addr z) = value z
  frame : ∀ p, (∀ z ∈ indices t.shape, t.addr z ≠ p) → out p = t.storage p

theorem Distribution.fills {α : Type u} {draw : Draw α} {what : String} {selfT : T α}
    {key : T UInt64} {rest : UInt64} (r : Distribution draw what selfT key rest)
    {value : List Nat → α}
    (h : r.stores.Perm ((indices selfT.shape).map fun z => (selfT.addr z, value z))) :
    Fills selfT r.stores r.fill.out value := by
  have hstores := r.fill.stored.congr fun w => h.mem_iff
  refine ⟨h, fun z hz halone => ?_, fun p hp => hstores.map_off hp⟩
  refine hstores.at (List.mem_map_of_mem hz) fun v hv => ?_
  obtain ⟨z', hz', heq⟩ := List.mem_map.mp hv
  obtain ⟨haddr, rfl⟩ := Prod.mk.inj heq
  rw [halone z' hz' haddr]

/-- The values of a fill with a batch of keys. -/
theorem Distribution.batched {α : Type u} {draw : Draw α} {what : String} {selfT : T α}
    {key : T UInt64} {rest : UInt64} (r : Distribution draw what selfT key rest)
    (hbatch : 1 < key.rank) : ∃ (a b ka : List Nat) (value : List Nat → α),
      Blocks selfT.shape key a b ka ∧
      r.stores.Perm ((indices selfT.shape).map fun z => (selfT.addr z, value z)) ∧
      ∀ x ∈ indices a, ∀ y ∈ indices b, value (x ++ y) =
        blockValue draw (keyAt key (x ++ y) 0) (keyAt key (x ++ y) 1) (flatIndex b y) := by
  obtain ⟨a, b, ka, hblocks, hperm⟩ := r.stores_batched hbatch
  let value (z : List Nat) : α :=
    blockValue draw (keyAt key z 0) (keyAt key z 1) (flatIndex b (z.drop a.length))
  have hvalue : ∀ x ∈ indices a, ∀ y ∈ indices b, value (x ++ y) =
      blockValue draw (keyAt key (x ++ y) 0) (keyAt key (x ++ y) 1) (flatIndex b y) := by
    intro x hx y _
    simp only [value, ← length_of_mem_indices hx, List.drop_left]
  refine ⟨a, b, ka, value, hblocks, hperm.trans (List.Perm.of_eq ?_), hvalue⟩
  rw [hblocks.shape_eq, indices_append, List.map_flatMap]
  refine List.flatMap_congr fun x hx => ?_
  rw [List.map_map]
  exact List.map_congr_left fun y hy => congrArg _ (hvalue x hx y hy).symm

/-- A fill with a batch of keys stores to every element once, and in the block of a key what a fill
of a tensor of the block's shape with that key stores.  Split keys are those that each key gives
alone.  Folded keys are too, in the order of memory, and by index where the result is
contiguous, as it is for contiguous keys. -/
theorem stateless_philox_batches :
    (∀ {α : Type u} {draw : Draw α} {what : String} {selfT : T α} {key : T UInt64} {rest : UInt64}
        (r : Distribution draw what selfT key rest), ∃ value : List Nat → α,
      Fills selfT r.stores r.fill.out value ∧
      (1 < key.rank → ∃ a b ka, Blocks selfT.shape key a b ka ∧
        ∀ x ∈ indices a, ∀ {block : T α} {single : T UInt64} {rest' : UInt64}
          (u : Distribution draw what block single rest'), block.shape = b → single.shape = [2] →
          (∀ y ∈ indices b, ∀ w < 2, single.elem [w] = keyAt key (x ++ y) w) →
          Fills block u.stores u.fill.out fun y => value (x ++ y))) ∧
    (∀ {key : T UInt64} {numSplits : Int} {rest : UInt64} (r : KeySplit key numSplits rest)
        (batch : List Nat), key.shape = batch ++ [2] →
      ∀ x ∈ indices batch, ∀ {single : T UInt64} {rest' : UInt64}
        (u : KeySplit single numSplits rest'), single.shape = [2] →
        (∀ w < 2, single.elem [w] = key.elem (x ++ [w])) →
        ∀ s < numSplits.toNat, ∀ w < 2, r.result.elem (s :: (x ++ [w])) = u.result.elem [s, w]) ∧
    ∀ {key : T UInt64} {fold rest : UInt64} (r : KeyFoldIn key fold rest) (batch : List Nat),
      key.shape = batch ++ [2] →
      (key.contig = true → (∀ s ∈ key.strides, 0 ≤ s) → r.result.contig = true) ∧
      ∀ x ∈ indices batch, ∀ {single : T UInt64} {rest' : UInt64}
        (u : KeyFoldIn single fold rest'), single.shape = [2] →
        (∀ w < 2, single.elem [w] = key.elem (x ++ [w])) →
        ∀ w < 2, r.storage (flatIndex key.shape (x ++ [w]) : Nat) = u.result.elem [w] ∧
          (r.result.contig = true → r.result.elem (x ++ [w]) = u.result.elem [w]) := by
  have hnil : ([] : List Nat) ∈ indices [] := List.mem_singleton.mpr rfl
  have hwords : ∀ {key single : T UInt64} {x : List Nat} (data : UInt64),
      (∀ w < 2, single.elem [w] = key.elem (x ++ [w])) →
      derivedWords single [] data = derivedWords key x data := by
    intro key single x data h
    rw [derivedWords, derivedWords, List.nil_append, List.nil_append, h 0 (by decide),
      h 1 (by decide)]
  refine ⟨fun {α draw what selfT key rest} r => ?_, ?_, ?_⟩
  · by_cases hbatch : 1 < key.rank
    · obtain ⟨a, b, ka, value, hblocks, hperm, hvalue⟩ := r.batched hbatch
      refine ⟨value, r.fills hperm, fun _ => ⟨a, b, ka, hblocks, ?_⟩⟩
      intro x hx block single rest' u hblock hsingle hkey
      refine u.fills ((u.stores_single hsingle).trans (List.Perm.of_eq ?_))
      rw [hblock]
      refine List.map_congr_left fun y hy => ?_
      rw [hvalue x hx y hy, hkey y hy 0 (by decide), hkey y hy 1 (by decide)]
    · obtain ⟨hlast, -⟩ := distributionCheck_ok r.checked
      obtain ⟨batch, hshape⟩ := List.getLast?_eq_some_iff.mp hlast
      have hempty : batch = [] := by
        rw [T.rank, hshape, List.length_append] at hbatch
        exact List.eq_nil_of_length_eq_zero (by simpa using hbatch)
      rw [hempty] at hshape
      exact ⟨_, r.fills (r.stores_single hshape), fun h => absurd h hbatch⟩
  · intro key numSplits rest r batch hshape x hx single rest' u hsingle hkey s hs w hw
    rw [r.elem hshape hx hs hw, ← hwords _ hkey]
    exact (u.elem hsingle hnil hs hw).symm
  · intro key fold rest r batch hshape
    refine ⟨r.contig, fun x hx single rest' u hsingle hkey w hw => ?_⟩
    have hone : u.result.elem [w] = derivedWord (derivedWords key x fold) w := by
      rw [u.elem_single hsingle hw, hwords _ hkey]
    exact ⟨(r.storage_at hshape hx hw).trans hone.symm,
      fun hcontig => (r.elem hcontig hshape hx hw).trans hone.symm⟩

/-! ## Transposed keys -/

/-- Two keys, the seeds before the offsets. -/
def transposedKeys : T UInt64 where
  shape := [2, 2]
  strides := [1, 2]
  offset := 0
  storage := fun i => .ofNat i.toNat
  strides_length := rfl

/-- The first of them. -/
def firstKey : T UInt64 where
  shape := [2]
  strides := [2]
  offset := 0
  storage := fun i => .ofNat i.toNat
  strides_length := rfl

theorem exists_keyFoldIn {key : T UInt64} {fold rest : UInt64}
    (h : philoxKeyCheck key "_philox_key_fold_in" = .ok ()) : Nonempty (KeyFoldIn key fold rest) :=
  ⟨⟨h, _, fun _ => 0, Stores.inOrder _ _⟩⟩

/-- Keys split three ways, and the first of them alone. -/
theorem stateless_philox_batches_split :
    ∃ (r : KeySplit transposedKeys 3 0) (u : KeySplit firstKey 3 0), ∀ w < 2,
      r.result.elem [2, 0, w] = u.result.elem [2, w] := by
  have hr : Nonempty (KeySplit transposedKeys 3 0) := ⟨⟨rfl, _, fun _ => 0, Stores.inOrder _ _⟩⟩
  have hu : Nonempty (KeySplit firstKey 3 0) := ⟨⟨rfl, _, fun _ => 0, Stores.inOrder _ _⟩⟩
  obtain ⟨r⟩ := hr
  obtain ⟨u⟩ := hu
  have hkey : ∀ w < 2, firstKey.elem [w] = transposedKeys.elem ([0] ++ [w]) := by decide
  exact ⟨r, u, stateless_philox_batches.{0}.2.1 r [2] rfl [0] (by decide) u rfl hkey 2 (by decide)⟩

/-- The first folded key of transposed keys is not the first key folded: its offset is the seed of
the second one. -/
theorem fold_in_transposed : ¬∀ {key : T UInt64} {fold rest : UInt64} (r : KeyFoldIn key fold rest)
    (batch : List Nat), key.shape = batch ++ [2] →
    ∀ x ∈ indices batch, ∀ {single : T UInt64} {rest' : UInt64}
      (u : KeyFoldIn single fold rest'), single.shape = [2] →
      (∀ w < 2, single.elem [w] = key.elem (x ++ [w])) →
      ∀ w < 2, r.result.elem (x ++ [w]) = u.result.elem [w] := by
  intro hall
  obtain ⟨r⟩ : Nonempty (KeyFoldIn transposedKeys 0 0) := exists_keyFoldIn (by decide)
  obtain ⟨u⟩ : Nonempty (KeyFoldIn firstKey 0 0) := exists_keyFoldIn (by decide)
  have hkey : ∀ w < 2, firstKey.elem [w] = transposedKeys.elem [0, w] := by decide
  have hsame := hall r [2] rfl [0] (by decide) u rfl hkey 1 (by decide)
  have hone : [1] ∈ indices [2] := by decide
  have haddr : 0 + along (foldInStrides transposedKeys) [0, 1] =
      (flatIndex transposedKeys.shape ([1] ++ [0]) : Nat) := by decide
  have hplace : r.result.elem [0, 1] = r.storage (flatIndex transposedKeys.shape ([1] ++ [0]) : Nat) :=
    congrArg r.storage haddr
  have hsecond := hplace.trans (r.storage_at rfl hone Nat.two_pos)
  have hfirst := u.elem_single rfl Nat.one_lt_two
  rw [List.singleton_append, hsecond, hfirst] at hsame
  revert hsame
  decide +kernel

end TorchMojoBackend.Ops.StatelessPhilox
