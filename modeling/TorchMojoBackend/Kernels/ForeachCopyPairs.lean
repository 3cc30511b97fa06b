/-
  `Kernels.ForeachCopyPairs`: pairs of a copied list that do not depend on each other.

  When no destination shares a byte with another one or with a source, the pairs do not
  depend on their order: every byte of a destination is the one copied from the memory
  before the first pair, and no other byte changes.  The sequential copies and the move of
  adjacent views both leave that memory.
-/
import TorchMojoBackend.Kernels.ForeachCopy

set_option autoImplicit false

namespace TorchMojoBackend.Kernels.ForeachCopy

open TorchMojoBackend.Foundation

/-! ## Spans -/

/-- The bytes of a tensor. -/
def T.span (t : T) : Int × Int := (t.ptr, t.ptr + t.nbytes)

/-- Two tensors have no byte in common. -/
def T.Away (t u : T) : Prop := t.nbytes = 0 ∨ u.nbytes = 0 ∨ Apart t.span u.span

theorem itemsize_pos (t : T) : 0 < t.itemsize := by
  unfold T.itemsize
  cases t.stype <;> decide

theorem nbytes_eq_zero {t : T} : t.nbytes = 0 ↔ t.numel = 0 := by
  unfold T.nbytes
  rw [Nat.mul_eq_zero]
  exact or_iff_left (Nat.ne_of_gt (itemsize_pos t))

/-- A byte of one tensor is not a byte of another. -/
theorem T.Away.not_mem {t u : T} (h : t.Away u) {x : Int}
    (hx : t.ptr ≤ x ∧ x < t.ptr + t.nbytes) : ¬ (u.ptr ≤ x ∧ x < u.ptr + u.nbytes) := by
  rcases h with h | h | h
  · omega
  · omega
  · unfold Apart T.span at h
    dsimp only at h
    omega

theorem T.Away.symm {t u : T} (h : t.Away u) : u.Away t := by
  rcases h with h | h | h
  · exact .inr (.inl h)
  · exact .inl h
  · exact .inr (.inr h.symm)

/-- An element of a contiguous tensor, by a byte of it. -/
theorem offset_lt {t : T} {x : Int} (hx : t.ptr ≤ x ∧ x < t.ptr + t.nbytes) :
    (x - t.ptr).toNat / t.itemsize < t.numel ∧ (x - t.ptr).toNat % t.itemsize < t.itemsize ∧
      x = t.ptr + ((x - t.ptr).toNat / t.itemsize * t.itemsize : Nat) +
        ((x - t.ptr).toNat % t.itemsize : Nat) := by
  have hpos := itemsize_pos t
  refine ⟨Nat.div_lt_of_lt_mul ?_, Nat.mod_lt _ hpos, ?_⟩
  · unfold T.nbytes at hx
    rw [Nat.mul_comm]
    omega
  · have hsplit := Nat.div_add_mod' (x - t.ptr).toNat t.itemsize
    omega

theorem readAt_congr {m m' : Mem} {a : Int} {n : Nat}
    (h : ∀ x, a ≤ x → x < a + n → m x = m' x) : readAt m a n = readAt m' a n := by
  unfold readAt
  refine List.map_congr_left fun j hj => h _ (by omega) ?_
  have := List.mem_range.mp hj
  omega

/-- An element lies in its tensor. -/
theorem element_le {t : T} {k : Nat} (hk : k < t.numel) :
    k * t.itemsize + t.itemsize ≤ t.nbytes := by
  have hmul := Nat.mul_le_mul_right t.itemsize (Nat.succ_le_of_lt hk)
  rw [Nat.succ_mul] at hmul
  exact hmul

section
variable {env : Env}

/-- The copied bytes depend on the source alone. -/
theorem byteOf_congr {d s : T} {m m' : Mem} (hnumel : d.numel = s.numel)
    (h : ∀ x, s.ptr ≤ x ∧ x < s.ptr + s.nbytes → m x = m' x) {x : Int}
    (hx : d.ptr ≤ x ∧ x < d.ptr + d.nbytes) : env.byteOf d s m x = env.byteOf d s m' x := by
  obtain ⟨hk, -, -⟩ := offset_lt hx
  rw [hnumel] at hk
  have hin := element_le hk
  unfold Env.byteOf
  dsimp only
  rw [readAt_congr fun y hy hy' => h y ⟨by omega, by omega⟩]

/-- A copy between tensors of one type moves the bytes. -/
theorem byteOf_same {d s : T} (hsame : s.stype = d.stype) {m : Mem} {x : Int}
    (hx : d.ptr ≤ x ∧ x < d.ptr + d.nbytes) : env.byteOf d s m x = m (s.ptr + (x - d.ptr)) := by
  obtain ⟨-, hj, heq⟩ := offset_lt hx
  have hsize : s.itemsize = d.itemsize := congrArg ScalarType.itemsize hsame
  unfold Env.byteOf Env.element readAt
  dsimp only
  rw [if_pos hsame, hsize, List.getD_eq_getElem?_getD, List.getElem?_map,
    List.getElem?_range hj, Option.map_some, Option.getD_some]
  congr 1
  omega

/-! ## Independent pairs -/

/-- A pair that is copied exactly. -/
structure Plain (p : T × T) : Prop where
  dst_mojo : p.1.onMojo = true
  src_mojo : p.2.onMojo = true
  device : p.1.device = p.2.device
  dst_contig : p.1.contig = true
  src_contig : p.2.contig = true
  shape : p.1.shape = p.2.shape

theorem Plain.numel {p : T × T} (h : Plain p) : p.1.numel = p.2.numel :=
  congrArg List.prod h.shape

/-- No destination meets another one or a source. -/
structure Independent (pairs : List (T × T)) : Prop where
  dsts : pairs.Pairwise fun p q => p.1.Away q.1
  srcs : ∀ p ∈ pairs, ∀ q ∈ pairs, p.1.Away q.2

/-- `m'` is `m` with the pairs copied, all from `m`. -/
structure Copied (env : Env) (pairs : List (T × T)) (m m' : Mem) : Prop where
  written : ∀ p ∈ pairs, ∀ x, p.1.ptr ≤ x ∧ x < p.1.ptr + p.1.nbytes →
    m' x = env.byteOf p.1 p.2 m x
  kept : ∀ x, (∀ p ∈ pairs, ¬ (p.1.ptr ≤ x ∧ x < p.1.ptr + p.1.nbytes)) → m' x = m x

theorem Copied.unique {pairs : List (T × T)} {m m' m'' : Mem} (h : Copied env pairs m m')
    (h' : Copied env pairs m m'') : m' = m'' := by
  funext x
  by_cases hx : ∃ p ∈ pairs, p.1.ptr ≤ x ∧ x < p.1.ptr + p.1.nbytes
  · obtain ⟨p, hp, hin⟩ := hx
    rw [h.written p hp x hin, h'.written p hp x hin]
  · have hout : ∀ p ∈ pairs, ¬ (p.1.ptr ≤ x ∧ x < p.1.ptr + p.1.nbytes) :=
      fun p hp hin => hx ⟨p, hp, hin⟩
    rw [h.kept x hout, h'.kept x hout]

/-- What `copy_` is relied on for: it copies exactly between contiguous tensors of one device and
one shape that share no byte, and between a tensor and itself. -/
structure Env.CopyExact (env : Env) : Prop where
  away : ∀ d s m, Plain (d, s) → d.Away s → env.copy_ d s m = some (env.exactCopy d s m)
  self : ∀ d s m, Plain (d, s) → d.ptr = s.ptr → s.stype = d.stype →
    env.copy_ d s m = some (env.exactCopy d s m)

/-- The versions after a copy of each pair. -/
theorem foldl_bumpVersion (ts : List T) (versions : Nat → Nat) (id : Nat) :
    ts.foldl bumpVersion versions id = versions id + (ts.map T.impl).count id := by
  induction ts generalizing versions with
  | nil => rfl
  | cons t ts ih =>
      rw [List.foldl_cons, ih, List.map_cons, List.count_cons]
      unfold bumpVersion
      by_cases hid : t.impl = id
      · subst hid
        rw [Function.update_self, if_pos (beq_self_eq_true _)]
        omega
      · rw [Function.update_of_ne (Ne.symm hid), if_neg (by simpa using hid), Nat.add_zero]

/-- Independent pairs may be copied in any order. -/
theorem sequential_copied (henv : env.CopyExact) {pairs : List (T × T)}
    (hplain : ∀ p ∈ pairs, Plain p) (hind : Independent pairs) (st : State) :
    ∃ m, env.sequential pairs st =
        (⟨m, (pairs.map Prod.fst).foldl bumpVersion st.versions⟩, true) ∧
      Copied env pairs st.mem m := by
  induction pairs generalizing st with
  | nil => exact ⟨st.mem, rfl, fun p hp => absurd hp List.not_mem_nil, fun x _ => rfl⟩
  | cons p pairs ih =>
      obtain ⟨hfirst, hdsts⟩ := List.pairwise_cons.mp hind.dsts
      have hrest : Independent pairs := ⟨hdsts, fun q hq r hr =>
        hind.srcs q (List.mem_cons_of_mem _ hq) r (List.mem_cons_of_mem _ hr)⟩
      have hp := hplain p List.mem_cons_self
      have haway := hind.srcs p List.mem_cons_self p List.mem_cons_self
      obtain ⟨m, hrun, hcopied⟩ := ih (fun q hq => hplain q (List.mem_cons_of_mem _ hq)) hrest
        ⟨env.exactCopy p.1 p.2 st.mem, bumpVersion st.versions p.1⟩
      refine ⟨m, ?_, fun q hq x hx => ?_, fun x hx => ?_⟩
      · obtain ⟨d, s⟩ := p
        unfold Env.sequential
        rw [henv.away d s st.mem hp haway]
        exact hrun
      · rcases List.mem_cons.mp hq with rfl | hq
        · -- the later pairs leave the first one's bytes
          rw [hcopied.kept x fun r hr => (hfirst r hr).not_mem hx]
          exact if_pos hx
        · rw [hcopied.written q hq x hx]
          refine byteOf_congr (hplain q (List.mem_cons_of_mem _ hq)).numel (fun y hy => ?_) hx
          have hsrc := hind.srcs p List.mem_cons_self q (List.mem_cons_of_mem _ hq)
          exact if_neg (hsrc.symm.not_mem hy)
      · rw [hcopied.kept x fun q hq => hx q (List.mem_cons_of_mem _ hq)]
        exact if_neg (hx p List.mem_cons_self)

/-- Copies of tensors to themselves leave the memory. -/
theorem sequential_self (henv : env.CopyExact) {pairs : List (T × T)}
    (hself : ∀ p ∈ pairs, Plain p ∧ p.2.stype = p.1.stype ∧ (p.1.numel = 0 ∨ p.1.ptr = p.2.ptr))
    (st : State) : env.sequential pairs st =
      (⟨st.mem, (pairs.map Prod.fst).foldl bumpVersion st.versions⟩, true) := by
  induction pairs generalizing st with
  | nil => rfl
  | cons p pairs ih =>
      obtain ⟨hplain, hsame, hptr⟩ := hself p List.mem_cons_self
      have hid : env.exactCopy p.1 p.2 st.mem = st.mem := by
        funext x
        unfold Env.exactCopy
        split
        · rename_i hx
          rw [byteOf_same hsame hx]
          rcases hptr with hzero | hptr
          · have := nbytes_eq_zero.mpr hzero
            omega
          · rw [← hptr]
            congr 1
            omega
        · rfl
      have hcopy : env.copy_ p.1 p.2 st.mem = some (env.exactCopy p.1 p.2 st.mem) := by
        rcases hptr with hzero | hptr
        · exact henv.away _ _ _ hplain (.inl (nbytes_eq_zero.mpr hzero))
        · exact henv.self _ _ _ hplain hptr hsame
      obtain ⟨d, s⟩ := p
      unfold Env.sequential
      rw [hcopy]
      dsimp only
      rw [hid]
      exact ih (fun q hq => hself q (List.mem_cons_of_mem _ hq)) _

/-! ## Adjacent views -/

/-- The pairs with elements lie one after the other from the byte `n` of both spans on. -/
inductive Placed (D S : Int) : Nat → List (T × T) → Nat → Prop
  | nil (n : Nat) : Placed D S n [] n
  | skip {n k : Nat} {p : T × T} {ps : List (T × T)} (hzero : p.1.nbytes = 0)
      (hrest : Placed D S n ps k) : Placed D S n (p :: ps) k
  | next {n k : Nat} {p : T × T} {ps : List (T × T)} (hdst : p.1.ptr = D + n)
      (hsrc : p.2.ptr = S + n) (hrest : Placed D S (n + p.1.nbytes) ps k) :
      Placed D S n (p :: ps) k

theorem Placed.le {D S : Int} {n k : Nat} {ps : List (T × T)} (h : Placed D S n ps k) :
    n ≤ k := by
  induction h with
  | nil => exact Nat.le_refl _
  | skip _ _ ih => exact ih
  | next _ _ _ ih => exact Nat.le_trans (Nat.le_add_right _ _) ih

theorem Placed.mem {D S : Int} {n k : Nat} {ps : List (T × T)} (h : Placed D S n ps k)
    {p : T × T} (hp : p ∈ ps) : p.1.nbytes = 0 ∨ ∃ a, n ≤ a ∧ a + p.1.nbytes ≤ k ∧
      p.1.ptr = D + (a : Nat) ∧ p.2.ptr = S + (a : Nat) := by
  induction h with
  | nil => exact absurd hp List.not_mem_nil
  | skip hzero _ ih =>
      rcases List.mem_cons.mp hp with rfl | hp
      · exact .inl hzero
      · exact ih hp
  | next hdst hsrc hrest ih =>
      rcases List.mem_cons.mp hp with rfl | hp
      · exact .inr ⟨_, Nat.le_refl _, hrest.le, hdst, hsrc⟩
      · rcases ih hp with hzero | ⟨a, hge, hle, hd, hs⟩
        · exact .inl hzero
        · exact .inr ⟨a, by omega, hle, hd, hs⟩

/-- The pairs cover their spans. -/
theorem Placed.cover {D S : Int} {n k : Nat} {ps : List (T × T)} (h : Placed D S n ps k) {x : Int}
    (hlow : D + n ≤ x) (hhigh : x < D + k) :
    ∃ p ∈ ps, p.1.ptr ≤ x ∧ x < p.1.ptr + p.1.nbytes := by
  induction h with
  | nil => omega
  | skip _ _ ih =>
      obtain ⟨p, hp, hin⟩ := ih hlow hhigh
      exact ⟨p, List.mem_cons_of_mem _ hp, hin⟩
  | @next n k q ps hdst _ _ ih =>
      by_cases hx : x < D + n + q.1.nbytes
      · exact ⟨q, List.mem_cons_self, by omega, by omega⟩
      · obtain ⟨p, hp, hin⟩ := ih (by omega) hhigh
        exact ⟨p, List.mem_cons_of_mem _ hp, hin⟩

theorem Placed.pairwise {D S : Int} {n k : Nat} {ps : List (T × T)} (h : Placed D S n ps k) :
    ps.Pairwise fun p q => p.1.Away q.1 := by
  induction h with
  | nil => exact List.Pairwise.nil
  | skip hzero _ ih => exact List.pairwise_cons.mpr ⟨fun q _ => .inl hzero, ih⟩
  | next hdst _ hrest ih =>
      refine List.pairwise_cons.mpr ⟨fun q hq => ?_, ih⟩
      rcases hrest.mem hq with hzero | ⟨a, hge, -, hd, -⟩
      · exact .inr (.inl hzero)
      · refine .inr (.inr (.inl ?_))
        unfold T.span
        dsimp only
        omega

/-- What a round of the search for adjacent views accepts. -/
theorem adjacentStep_some {first d s : T} {acc acc' : Span}
    (h : adjacentStep first acc (d, s) = some acc') :
    (Plain (d, s) ∧ d.stype = first.stype ∧ s.stype = first.stype) ∧
      ((d.numel = 0 ∧ acc' = acc) ∨ (d.numel ≠ 0 ∧ acc'.nbytes = acc.nbytes + d.nbytes ∧
        d.ptr = acc'.dstBegin + acc.nbytes ∧ s.ptr = acc'.srcBegin + acc.nbytes ∧
        (acc.nbytes ≠ 0 → acc'.dstBegin = acc.dstBegin ∧ acc'.srcBegin = acc.srcBegin))) := by
  unfold adjacentStep at h
  dsimp only at h
  split at h
  · exact absurd h (by simp)
  · rename_i hplain
    simp only [Bool.or_eq_true, Bool.not_eq_true', decide_eq_true_eq, not_or, T.sameShape,
      Bool.not_eq_false, ne_eq, Decidable.not_not] at hplain
    obtain ⟨⟨⟨⟨⟨⟨⟨⟨hd, hs⟩, hdd⟩, hsd⟩, hdt⟩, hst⟩, hdc⟩, hsc⟩, hshape⟩ := hplain
    refine ⟨⟨⟨hd, hs, hdd.trans hsd.symm, hdc, hsc, hshape⟩, hdt, hst⟩, ?_⟩
    split at h
    · rename_i hzero
      exact .inl ⟨hzero, (Option.some.inj h).symm⟩
    · rename_i hnumel
      generalize hstart : (if acc.nbytes = 0 then
        (⟨d.ptr, s.ptr, d.storagePtr, s.storagePtr, 0⟩ : Span) else acc) = start at h
      have hbytes : start.nbytes = acc.nbytes := by
        rw [← hstart]
        split
        · exact Eq.symm ‹_›
        · rfl
      have hkeep : acc.nbytes ≠ 0 → start = acc := by
        intro hne
        rw [← hstart, if_neg hne]
      split at h
      · exact absurd h (by simp)
      · split at h
        · exact absurd h (by simp)
        · rename_i hplace
          simp only [ne_eq, not_or, Decidable.not_not] at hplace
          obtain ⟨hdst, hsrc, -, -⟩ := hplace
          obtain rfl := Option.some.inj h
          rw [hbytes] at hdst hsrc
          refine .inr ⟨hnumel, congrArg (· + d.nbytes) hbytes, hdst, hsrc, fun hne => ?_⟩
          rw [hkeep hne]
          exact ⟨rfl, rfl⟩

theorem adjacent_placed {first : T} {pairs : List (T × T)} {acc span : Span}
    (h : pairs.foldlM (adjacentStep first) acc = some span) :
    (∀ p ∈ pairs, Plain p ∧ p.2.stype = p.1.stype) ∧
      Placed span.dstBegin span.srcBegin acc.nbytes pairs span.nbytes ∧
      (acc.nbytes ≠ 0 → span.dstBegin = acc.dstBegin ∧ span.srcBegin = acc.srcBegin) := by
  induction pairs generalizing acc with
  | nil =>
      obtain rfl := Option.some.inj h
      exact ⟨fun p hp => absurd hp List.not_mem_nil, .nil _, fun _ => ⟨rfl, rfl⟩⟩
  | cons p pairs ih =>
      rw [List.foldlM_cons] at h
      obtain ⟨acc', hstep, hrest⟩ := Option.bind_eq_some_iff.mp h
      obtain ⟨d, s⟩ := p
      obtain ⟨⟨hplain, hdt, hst⟩, hcase⟩ := adjacentStep_some hstep
      obtain ⟨hall, hplaced, hkeep⟩ := ih hrest
      refine ⟨fun q hq => ?_, ?_⟩
      · rcases List.mem_cons.mp hq with rfl | hq
        · exact ⟨hplain, hst.trans hdt.symm⟩
        · exact hall q hq
      · rcases hcase with ⟨hzero, rfl⟩ | ⟨hnumel, hbytes, hdst, hsrc, hsame⟩
        · exact ⟨.skip (nbytes_eq_zero.mpr hzero) hplaced, hkeep⟩
        · have hpos : d.nbytes ≠ 0 := fun h => hnumel (nbytes_eq_zero.mp h)
          obtain ⟨hkd, hks⟩ := hkeep (by omega)
          rw [hbytes] at hplaced
          refine ⟨.next ?_ ?_ hplaced, fun hne => ?_⟩
          · rw [hkd]
            exact hdst
          · rw [hks]
            exact hsrc
          · rw [hkd, hks]
            exact hsame hne

/-- The move of adjacent views is the copy of the pairs. -/
theorem copyAdjacentViews_sequential (henv : env.CopyExact) {first : T} {pairs : List (T × T)}
    {st : State} {m : Mem} (h : env.copyAdjacentViews first pairs st.mem = some m) :
    env.sequential pairs st =
      (⟨m, (pairs.map Prod.fst).foldl bumpVersion st.versions⟩, true) := by
  unfold Env.copyAdjacentViews at h
  split at h
  · exact absurd h (by simp)
  · split at h
    · exact absurd h (by simp)
    · rename_i span hspan
      obtain ⟨hall, hplaced, -⟩ := adjacent_placed hspan
      split at h
      · split at h
        · exact absurd h (by simp)
        · -- disjoint spans
          rename_i hne hmeet
          obtain rfl := Option.some.inj h
          have hind : Independent pairs := by
            refine ⟨hplaced.pairwise, fun p hp q hq => ?_⟩
            have hq' : q.2.nbytes = q.1.nbytes := by
              obtain ⟨hplain, hsame⟩ := hall q hq
              unfold T.nbytes T.itemsize
              rw [hplain.numel, hsame]
            rcases hplaced.mem hp with hzero | ⟨a, -, hle, hd, -⟩
            · exact .inl hzero
            · rcases hplaced.mem hq with hzero | ⟨b, -, hle', -, hs⟩
              · exact .inr (.inl (by omega))
              · refine .inr (.inr ?_)
                unfold Apart T.span
                dsimp only
                omega
          obtain ⟨m, hrun, hcopied⟩ :=
            sequential_copied henv (fun p hp => (hall p hp).1) hind st
          have hmove : Copied env pairs st.mem
              (copyD2d span.dstBegin span.srcBegin span.nbytes st.mem) := by
            refine ⟨fun p hp x hx => ?_, fun x hx => if_neg fun hin => ?_⟩
            · rcases hplaced.mem hp with hzero | ⟨a, -, hle, hd, hs⟩
              · omega
              · rw [byteOf_same (hall p hp).2 hx]
                unfold copyD2d
                rw [if_pos (by omega)]
                congr 1
                omega
            · obtain ⟨p, hp, hpx⟩ := hplaced.cover (by simpa using hin.1) hin.2
              exact hx p hp hpx
          rw [hrun, hcopied.unique hmove]
      · -- one span, or no bytes
        rename_i hself
        obtain rfl := Option.some.inj h
        refine sequential_self henv (fun p hp => ⟨(hall p hp).1, (hall p hp).2, ?_⟩) st
        rcases hplaced.mem hp with hzero | ⟨a, -, hle, hd, hs⟩
        · exact .inl (nbytes_eq_zero.mp hzero)
        · by_cases hbytes : span.nbytes = 0
          · exact .inl (nbytes_eq_zero.mp (by omega))
          · have hsame : span.dstBegin = span.srcBegin := by
              by_contra hne
              exact hself ⟨hbytes, hne⟩
            exact .inr (by rw [hd, hs, hsame])

end

end TorchMojoBackend.Kernels.ForeachCopy
