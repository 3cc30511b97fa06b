/-
  `Ccl.ReduceScatterExact`: every order of the reduce-scatter leaves the sums.

  Source: as for `Ccl.ReduceScatter`.
-/
import TorchMojoBackend.Ccl.ReduceScatter
import TorchMojoBackend.Foundation.Atomics
import Mathlib.Algebra.BigOperators.Fin

set_option autoImplicit false

namespace TorchMojoBackend.Ccl.ReduceScatter

open TorchMojoBackend.Foundation
open TorchMojoBackend.Ccl.Symmetric (BLOCK peers mem_peers peers_nodup)

variable {w : Nat} {job : Job w}

/-! ## The order of the source -/

def Work.target : Work → Nat
  | .push s _ => s
  | .reduce _ => 0

/-- Pushes come before sums, and launches one after the other. -/
def Task.phase (t : Task w) : Nat :=
  2 * t.chunk + match t.work with
    | .push _ _ => 0
    | .reduce _ => 1

theorem Task.Before.phase_lt {y x : Task w} (h : y.Before x) : y.phase < x.phase := by
  unfold Task.phase
  obtain hlt | ⟨hchunk, ⟨s, k, hy⟩, ⟨k', hx⟩, -⟩ := h
  · cases y.work <;> cases x.work <;> dsimp only <;> omega
  · rw [hy, hx]
    dsimp only
    omega

theorem Task.Before.irrefl (x : Task w) : ¬ x.Before x := fun h => Nat.lt_irrefl _ h.phase_lt

namespace Job

theorem pushes_nodup (r : Fin w) (c tid : Nat) : ((job.kernel r c).pushes job.amd tid).Nodup := by
  have hpos := blocks_pos (job.kernel r c) job.amd
  unfold Args.pushes
  refine nodup_flatMap_of_key Work.target ?_ ?_ ?_
  · exact (pushPeers_perm r.isLt _).nodup_iff.mpr (peers_nodup _ _)
  · intro s _
    rw [copySpanFlex_eq hpos]
    exact (reduceItems_nodup hpos).map fun k k' h => (Work.push.inj h).2
  · intro s _ x hx
    obtain ⟨k, -, rfl⟩ := List.mem_map.mp hx
    rfl

theorem reduces_nodup (r : Fin w) (c tid : Nat) : ((job.kernel r c).reduces job.amd tid).Nodup :=
  (reduceItems_nodup (blocks_pos (job.kernel r c) job.amd)).map fun _ _ h => Work.reduce.inj h

theorem threads_nodup {n : Fin w → Nat} {f : Fin w → Nat → List Work} (c : Nat)
    (hf : ∀ r tid, (f r tid).Nodup) :
    ((List.finRange w).flatMap fun r => (List.range (n r)).flatMap fun tid =>
      (f r tid).map (Task.mk c r tid)).Nodup := by
  refine nodup_flatMap_of_key Task.rank (List.nodup_finRange w) ?_ ?_
  · intro r _
    refine nodup_flatMap_of_key Task.tid List.nodup_range ?_ ?_
    · exact fun tid _ => (hf r tid).map fun x x' h => (Task.mk.inj h).2.2.2
    · intro tid _ t ht
      obtain ⟨x, -, rfl⟩ := List.mem_map.mp ht
      rfl
  · intro r _ t ht
    obtain ⟨tid, -, ht⟩ := List.mem_flatMap.mp ht
    obtain ⟨x, -, rfl⟩ := List.mem_map.mp ht
    rfl

theorem tasks_nodup (job : Job w) : job.tasks.Nodup := by
  unfold tasks
  refine nodup_flatMap_of_key Task.chunk List.nodup_range ?_ ?_
  · intro c _
    refine List.nodup_append.mpr ⟨threads_nodup c fun r tid => job.pushes_nodup r c tid,
      threads_nodup c fun r tid => job.reduces_nodup r c tid, ?_⟩
    intro t ht t' ht' heq
    subst heq
    obtain ⟨-, htid, hx⟩ := mem_threads.mp ht
    obtain ⟨-, htid', hx'⟩ := mem_threads.mp ht'
    obtain ⟨s, k, hwork, -⟩ := (mem_pushes htid).mp hx
    obtain ⟨k', hwork', -⟩ := (mem_reduces htid').mp hx'
    rw [hwork] at hwork'
    cases hwork'
  · intro c _ t ht
    obtain ht | ht := List.mem_append.mp ht
    · exact (mem_threads.mp ht).1
    · exact (mem_threads.mp ht).1

/-- The order of the source is one the barriers allow. -/
theorem tasks_allowed (job : Job w) : Tasks.Allowed Task.Before job.tasks := by
  refine Tasks.Allowed.of_phase (fun x y h => h.phase_lt) job.tasks_nodup ?_
  have hphase : ∀ {c t}, t ∈ ((List.finRange w).flatMap fun r =>
      (List.range (job.threads r c)).flatMap fun tid =>
        ((job.kernel r c).pushes job.amd tid).map (Task.mk c r tid)) → t.phase = 2 * c := by
    intro c t ht
    obtain ⟨rfl, htid, hx⟩ := mem_threads.mp ht
    obtain ⟨s, k, hwork, -⟩ := (mem_pushes htid).mp hx
    unfold Task.phase
    rw [hwork]
    rfl
  have hphase' : ∀ {c t}, t ∈ ((List.finRange w).flatMap fun r =>
      (List.range (job.threads r c)).flatMap fun tid =>
        ((job.kernel r c).reduces job.amd tid).map (Task.mk c r tid)) → t.phase = 2 * c + 1 := by
    intro c t ht
    obtain ⟨rfl, htid, hx⟩ := mem_threads.mp ht
    obtain ⟨k, hwork, -⟩ := (mem_reduces htid).mp hx
    unfold Task.phase
    rw [hwork]
  unfold tasks
  refine List.pairwise_flatMap.mpr ⟨?_, ?_⟩
  · intro c _
    refine List.pairwise_append.mpr ⟨?_, ?_, ?_⟩
    · exact List.pairwise_of_forall_mem_list fun x hx y hy => by rw [hphase hx, hphase hy]
    · exact List.pairwise_of_forall_mem_list fun x hx y hy => by rw [hphase' hx, hphase' hy]
    · intro x hx y hy
      have h₁ := hphase hx
      have h₂ := hphase' hy
      omega
  · refine List.pairwise_lt_range.imp ?_
    intro c c' hlt x hx y hy
    have hle : x.phase ≤ 2 * c + 1 := by
      obtain hx | hx := List.mem_append.mp hx
      · have h₁ := hphase hx
        omega
      · exact (hphase' hx).le
    have hge : 2 * c' ≤ y.phase := by
      obtain hy | hy := List.mem_append.mp hy
      · exact (hphase hy).ge
      · have h₁ := hphase' hy
        omega
    omega

/-! ## Where the elements are -/

/-- The element of the call that is element `k` of launch `c`. -/
def index (job : Job w) (c k : Nat) : Nat := c * job.maxCount + k

theorem count_kernel (r : Fin w) (c : Nat) :
    (job.kernel r c).count = (chunk job.count job.maxCount c).len := rfl

theorem index_lt {r : Fin w} {c k : Nat} (hk : k < (job.kernel r c).count) :
    job.index c k < job.count := by
  rw [count_kernel] at hk
  unfold chunk at hk
  unfold index
  dsimp only at hk
  omega

theorem index_inj {r r' : Fin w} {c c' k k' : Nat} (hk : k < (job.kernel r c).count)
    (hk' : k' < (job.kernel r' c').count) (h : job.index c k = job.index c' k') :
    c = c' ∧ k = k' := by
  rw [count_kernel] at hk hk'
  have hle := chunk_len_le job.count job.maxCount
  exact flat_inj (Nat.lt_of_lt_of_le hk (hle c)) (Nat.lt_of_lt_of_le hk' (hle c')) h

/-- Every element is one of some launch. -/
theorem exists_index (job : Job w) (r : Fin w) {i : Nat} (hi : i < job.count) :
    ∃ c k, c < job.launches ∧ k < (job.kernel r c).count ∧ job.index c k = i := by
  have hmax : 0 < job.maxCount := maxCount_pos _ _ _
  obtain ⟨c, hc, hmem⟩ := ((tiles_chunk (n := job.count) hmax).cover i).mp hi
  obtain ⟨hlow, hhigh⟩ := hmem
  refine ⟨c, i - c * job.maxCount, hc, ?_, ?_⟩
  · rw [count_kernel]
    unfold Span.stop at hhigh
    unfold chunk at hlow hhigh ⊢
    dsimp only at hlow hhigh ⊢
    omega
  · unfold index
    unfold chunk at hlow
    dsimp only at hlow
    omega

theorem outLoc_kernel (r : Fin w) (c k : Nat) :
    (job.kernel r c).outLoc k = .user r (job.recv r + job.index c k * job.item) := by
  unfold index
  rw [Nat.add_mul, ← Nat.add_assoc]
  rfl

theorem inLoc_kernel (r : Fin w) (c s k : Nat) :
    (job.kernel r c).inLoc s k =
      .user r (job.send r + (s * job.count + job.index c k) * job.item) := by
  have hsum : s * job.count + job.index c k = c * job.maxCount + (s * job.count + k) := by
    unfold index
    omega
  rw [hsum, Nat.add_mul, ← Nat.add_assoc]
  rfl

/-- An output element is no input element of another rank's part, and only the input element it
replaces of its own. -/
theorem out_in {r : Fin w} {s i i' : Nat} (hs : s < w) (hi : i < job.count) (hi' : i' < job.count)
    (h : job.recv r + i' * job.item = job.send r + (s * job.count + i) * job.item) :
    s = r ∧ i = i' := by
  have hitem : 0 < job.item := item_pos job.item_dvd
  have hin : (s * job.count + i) * job.item + job.item ≤ w * job.count * job.item := by
    rw [← Nat.succ_mul]
    exact Nat.mul_le_mul_right _ (row_major_lt hs hi)
  have hout : i' * job.item + job.item ≤ job.count * job.item := by
    rw [← Nat.succ_mul]
    exact Nat.mul_le_mul_right _ hi'
  obtain hplace | hafter | hbefore := job.buffers r
  · have heq : (r * job.count + i') * job.item = (s * job.count + i) * job.item := by
      rw [hplace] at h
      rw [Nat.add_mul (r * job.count)]
      omega
    obtain ⟨hr, hii⟩ := flat_inj hi' hi (Nat.eq_of_mul_eq_mul_right hitem heq)
    exact ⟨hr.symm, hii.symm⟩
  · omega
  · omega

theorem rsSlot_inj {p q r : Nat} (hp : p ≠ r) (hq : q ≠ r) (h : rsSlot p r = rsSlot q r) :
    p = q := by
  unfold rsSlot at h
  split at h <;> split at h <;> omega

/-- In a launch, an element of a slot is that of one peer. -/
theorem slotLoc_inj {r p q p' q' : Fin w} {c k k' s s' : Nat} (hp : (p : Nat) ≠ s)
    (hq : (q : Nat) ≠ s') (hk : k < (job.kernel r c).count) (hk' : k' < (job.kernel r c).count)
    (h : (job.kernel p' c).slotLoc p s k = (job.kernel q' c).slotLoc q s' k') :
    s = s' ∧ p = q ∧ k = k' := by
  obtain ⟨rfl, hoff⟩ := Loc.region.inj h
  have hitem : 0 < job.item := item_pos job.item_dvd
  have hfits : ∀ {i}, i < (job.kernel r c).count → i * job.item < (job.kernel r c).slotStride := by
    intro i hi
    have hle : (job.kernel r c).count * job.item ≤ (job.kernel r c).slotStride :=
      le_alignUp (by decide)
    exact Nat.lt_of_lt_of_le (Nat.mul_lt_mul_of_pos_right hi hitem) hle
  have hflat : rsSlot p s * (job.kernel r c).slotStride + k * job.item =
      rsSlot q s * (job.kernel r c).slotStride + k' * job.item := by
    change signalBytes + (job.kernel r c).slotStride * _ + k * job.item =
      signalBytes + (job.kernel r c).slotStride * _ + k' * job.item at hoff
    rw [Nat.mul_comm _ (job.kernel r c).slotStride, Nat.mul_comm _ (job.kernel r c).slotStride]
    omega
  obtain ⟨hslot, hbytes⟩ := flat_inj (hfits hk) (hfits hk') hflat
  exact ⟨rfl, Fin.ext (rsSlot_inj hp hq hslot), Nat.eq_of_mul_eq_mul_right hitem hbytes⟩

/-! ## What the tasks find -/

variable {R : Type*} [AddCommMonoid R] {share : R → R} {m : Loc → R}

/-- What a task stores, of the memory before the call. -/
def out (job : Job w) (share : R → R) (m : Loc → R) (t : Task w) : R :=
  match t.work with
  | .push s k => m ((job.kernel t.rank t.chunk).inLoc s k)
  | .reduce k => ∑ q : Fin w, share (m ((job.kernel q t.chunk).inLoc t.rank k))

theorem eq_of_isTask {x y : Task w} (hx : job.IsTask x) (hy : job.IsTask y)
    (hchunk : x.chunk = y.chunk) (hrank : x.rank = y.rank) (hwork : x.work = y.work) : x = y := by
  obtain ⟨c, r, tid, u⟩ := x
  obtain ⟨c', r', tid', u'⟩ := y
  dsimp only at hchunk hrank hwork
  subst hchunk hrank hwork
  have htid : tid = tid' := by
    cases u with
    | push s k => exact hx.2.2.2.2.symm.trans hy.2.2.2.2
    | reduce k => exact hx.2.2.symm.trans hy.2.2
  rw [htid]

/-- A task that stores to an output element. -/
theorem dst_user {z : Task w} (hz : job.IsTask z) {r addr : Nat}
    (h : (job.program share).dst z = .user r addr) :
    ∃ k, z.work = .reduce k ∧ k < (job.kernel z.rank z.chunk).count ∧ (z.rank : Nat) = r ∧
      job.recv z.rank + job.index z.chunk k * job.item = addr := by
  unfold program at h
  dsimp only at h
  cases hwork : z.work with
  | push s k =>
      rw [hwork] at h
      cases h
  | reduce k =>
      rw [hwork] at h
      dsimp only at h
      rw [outLoc_kernel] at h
      obtain ⟨hr, haddr⟩ := Loc.user.inj h
      have htask := hz.2
      rw [hwork] at htask
      exact ⟨k, rfl, htask.1, hr, haddr⟩

/-- A user's element is what it was until the sum that replaces it. -/
theorem finds_input {order : List (Task w)} (horder : ∀ t ∈ order, job.IsTask t) {x : Task w}
    (hx : job.IsTask x) {s k : Nat} (hs : s < w) (hk : k < (job.kernel x.rank x.chunk).count)
    (hwork : x.work = .push s k ∧ s ≠ x.rank ∨ x.work = .reduce k ∧ s = x.rank) :
    (job.program share).Finds Task.Before order m (job.out share m) x
      ((job.kernel x.rank x.chunk).inLoc s k) (m ((job.kernel x.rank x.chunk).inLoc s k)) := by
  refine .inr ⟨?_, rfl⟩
  intro z hz hdst
  have hz := horder z hz
  rw [inLoc_kernel] at hdst
  obtain ⟨k', hsum, hk', hrank, haddr⟩ := dst_user hz hdst
  have hrank : z.rank = x.rank := Fin.ext hrank
  rw [hrank] at haddr
  obtain ⟨hown, hindex⟩ := out_in hs (index_lt hk) (index_lt hk') haddr
  obtain ⟨hchunk, hkk⟩ := index_inj hk hk' hindex
  obtain ⟨-, hne⟩ | ⟨hred, -⟩ := hwork
  · exact absurd hown hne
  · refine .inl (eq_of_isTask hz hx hchunk.symm hrank ?_)
    rw [hsum, hred, hkk]

/-- In the slot of a peer a sum finds what the peer has pushed in this launch. -/
theorem finds_slot {order : List (Task w)} (horder : ∀ t, t ∈ order ↔ job.IsTask t) {x : Task w}
    (hx : job.IsTask x) {k : Nat} (hwork : x.work = .reduce k) {p : Fin w} (hp : p ≠ x.rank) :
    (job.program share).Finds Task.Before order m (job.out share m) x
      ((job.kernel x.rank x.chunk).slotLoc p x.rank k)
      (m ((job.kernel p x.chunk).inLoc x.rank k)) := by
  have htask := hx.2
  rw [hwork] at htask
  obtain ⟨hk, hown⟩ := htask
  have hy : job.IsTask ⟨x.chunk, p, x.tid, .push x.rank k⟩ :=
    ⟨hx.1, x.rank.isLt, fun h => hp (Fin.ext h.symm), hk, hown⟩
  refine .inl ⟨_, (horder _).mpr hy, rfl, .inr ⟨rfl, ⟨_, _, rfl⟩, ⟨k, hwork⟩, rfl⟩, rfl, ?_⟩
  intro z hz hdst
  have hz := (horder z).mp hz
  cases hzwork : z.work with
  | reduce k' =>
      unfold program at hdst
      dsimp only at hdst
      rw [hzwork] at hdst
      cases hdst
  | push s k' =>
      have hztask := hz.2
      rw [hzwork] at hztask
      obtain ⟨-, hne, hk', -⟩ := hztask
      obtain hlt | heq | hgt := Nat.lt_trichotomy z.chunk x.chunk
      · exact .inr (.inl (.inl hlt))
      · left
        unfold program at hdst
        dsimp only at hdst
        rw [hzwork] at hdst
        dsimp only at hdst
        rw [heq] at hdst hk'
        obtain ⟨hs, hrank, hkk⟩ := slotLoc_inj (r := x.rank) hne.symm (fun h => hp (Fin.ext h)) hk'
          hk hdst
        refine eq_of_isTask hz hy heq hrank ?_
        rw [hzwork, hs, hkk]
      · exact .inr (.inr (.inr (.inl hgt)))

/-- A sum around the ranks is the sum over the ranks. -/
theorem rsOne_eq {a : Args} (r : Fin w) (hworld : a.world = w) (hrank : a.rank = r) {m' : Loc → R}
    {k : Nat} (g : Fin w → R) (hself : share (m' (a.inLoc r k)) = g r)
    (hpeer : ∀ p : Fin w, p ≠ r → share (m' (a.slotLoc p r k)) = g p) :
    a.rsOne share m' k = ∑ q, g q := by
  let G : Nat → R := fun q => if h : q < w then g ⟨q, h⟩ else 0
  have hG : ∀ q : Fin w, G q = g q := fun q => dif_pos q.isLt
  have hsum : ∑ q, g q = ((List.range w).map G).sum := by
    rw [sum_map_range, ← Fin.sum_univ_eq_sum_range]
    exact Finset.sum_congr rfl fun q _ => (hG q).symm
  have hperm : ((r : Nat) :: (List.range' 1 (w - 1)).map fun j => wrap w (r + j)).Perm
      (List.range w) := by
    refine ((around_perm r.isLt).cons _).trans ?_
    rw [← erase_eq_peers]
    exact (List.perm_cons_erase (List.mem_range.mpr r.isLt)).symm
  have hrest : (List.range' 1 (w - 1)).map
      (fun j => share (m' (a.slotLoc (wrap w (r + j)) r k))) =
      ((List.range' 1 (w - 1)).map fun j => wrap w (r + j)).map G := by
    rw [List.map_map]
    refine List.map_congr_left fun j hj => ?_
    have hj := List.mem_range'_1.mp hj
    have hlt : wrap w (r + j) < w := wrap_lt r.isLt (by omega)
    have hne : (⟨wrap w (r + j), hlt⟩ : Fin w) ≠ r := fun h =>
      wrap_ne (by omega) (by omega) (congrArg Fin.val h)
    exact (hpeer _ hne).trans (hG ⟨wrap w (r + j), hlt⟩).symm
  unfold Args.rsOne
  rw [foldl_add_map, hrank, hworld, hself, hrest, hsum, ← (hperm.map G).sum_eq, List.map_cons,
    List.sum_cons, hG]

/-- Every task stores its value. -/
theorem determined {order : List (Task w)} (horder : ∀ t, t ∈ order ↔ job.IsTask t) :
    (job.program share).Determined Task.Before order m (job.out share m) := by
  intro x hx m' hfinds
  have hx := (horder x).mp hx
  have htask := hx.2
  unfold program out
  dsimp only
  cases hwork : x.work with
  | push s k =>
      rw [hwork] at htask
      obtain ⟨hs, hne, hk, -⟩ := htask
      exact hfinds _ _ (finds_input (fun t ht => (horder t).mp ht) hx hs hk (.inl ⟨hwork, hne⟩))
  | reduce k =>
      rw [hwork] at htask
      obtain ⟨hk, -⟩ := htask
      refine rsOne_eq x.rank rfl rfl (fun q => share (m ((job.kernel q x.chunk).inLoc x.rank k)))
        ?_ ?_
      · exact congrArg share (hfinds _ _ (finds_input (fun t ht => (horder t).mp ht) hx x.rank.isLt
          hk (.inr ⟨hwork, rfl⟩)))
      · intro p hp
        exact congrArg share (hfinds _ _ (finds_slot horder hx hwork hp))

/-! ## What the host launches -/

/-- The slots of a launch fit the arena. -/
theorem slots_fit (job : Job w) (r : Fin w) (c : Nat) :
    (w - 1) * (job.kernel r c).slotStride ≤ 2 * job.capBytes := by
  have hw : w ≤ 8 := job.world_le
  have hcap : 4096 ≤ job.capBytes := Nat.le_of_dvd job.cap_pos job.page
  have hitem : 0 < job.item := item_pos job.item_dvd
  have hle : job.item ≤ 16 := Nat.le_of_dvd (by decide) job.item_dvd
  have hcount : (job.kernel r c).count ≤ job.maxCount := chunk_len_le _ _ _
  obtain ⟨W, hW⟩ := job.item_dvd
  generalize hm : max (w - 1) 1 = peers
  have hpeers : 0 < peers ∧ w - 1 ≤ peers ∧ peers ≤ 7 := by omega
  generalize hper : 2 * job.capBytes / peers / 16 * 16 = per
  have hper16 : 16 ≤ per := by
    have hdiv : 16 ≤ 2 * job.capBytes / peers := by
      rw [Nat.le_div_iff_mul_le hpeers.1]
      omega
    omega
  have hmax : job.maxCount = per / job.item := by
    unfold maxCount reduceScatterMaxCount
    have hne : ¬ (job.item = 0 ∨ job.capBytes = 0) := by omega
    rw [if_neg hne]
    dsimp only
    rw [hm, hper]
    exact Nat.max_eq_right (Nat.div_pos (by omega) hitem)
  have hslot : (job.kernel r c).slotStride ≤ per := by
    refine alignUp_le (hper ▸ Nat.dvd_mul_left 16 _) ?_
    rw [hmax] at hcount
    exact Nat.le_trans (Nat.mul_le_mul_right _ hcount) (Nat.div_mul_le_self _ _)
  calc (w - 1) * (job.kernel r c).slotStride ≤ peers * per := Nat.mul_le_mul hpeers.2.1 hslot
    _ ≤ peers * (2 * job.capBytes / peers) :=
        Nat.mul_le_mul_left _ (hper ▸ Nat.div_mul_le_self _ _)
    _ ≤ 2 * job.capBytes := Nat.mul_div_le _ _

/-- The call for a chunk is accepted. -/
theorem reduceScatter_ok (job : Job w) (r : Fin w) {c : Nat} (hc : c < job.launches) :
    reduceScatter (job.kernel r c) = .ok [job.kernel r c] := by
  have hmax : 0 < job.maxCount := maxCount_pos _ _ _
  have hw : w ≤ 8 := job.world_le
  have hr := r.isLt
  have hpos : 0 < (job.kernel r c).count := chunk_len_pos hmax hc
  have hworld : ¬ ((job.kernel r c).world < 1 ∨ (job.kernel r c).world > MAX_WORLD) := by
    change ¬ (w < 1 ∨ w > 8)
    omega
  have hcap : ¬ ((job.kernel r c).capBytes = 0 ∨ (job.kernel r c).capBytes % 4096 ≠ 0) := by
    have := job.cap_pos
    have := job.page
    change ¬ (job.capBytes = 0 ∨ job.capBytes % 4096 ≠ 0)
    omega
  have hstride : ¬ (job.kernel r c).inStride < (job.kernel r c).count := by
    refine Nat.not_lt.mpr ?_
    rw [count_kernel]
    unfold chunk
    dsimp only
    exact Nat.le_trans (Nat.min_le_right _ _) (Nat.sub_le _ _)
  have hchunk : ¬ (job.kernel r c).count > reduceScatterMaxCount (job.kernel r c).capBytes
      (job.kernel r c).world (job.kernel r c).item := Nat.not_lt.mpr (chunk_len_le _ _ _)
  have hrank : ¬ (job.kernel r c).rank ≥ (job.kernel r c).world := Nat.not_le.mpr hr
  have hgeneration : ¬ (job.kernel r c).generation < 1 := Nat.not_lt.mpr (Nat.le_add_left 1 _)
  unfold reduceScatter
  rw [if_neg hworld, if_neg hrank, if_neg hgeneration, if_neg hcap, if_neg hpos.ne',
    if_neg hstride, if_neg hchunk]

theorem chunks_spec (job : Job w) (r : Fin w) (left : Nat) :
    ∀ c, job.launches = c + left →
      job.chunks r (min (c * job.maxCount) job.count) (job.generation + c) =
        ((List.range' c left).map (job.kernel r), none) := by
  have hmax : 0 < job.maxCount := maxCount_pos _ _ _
  induction left with
  | zero =>
      intro c hc
      have hend : job.count ≤ c * job.maxCount := by
        have h := le_pieces_mul (n := job.count) hmax
        rwa [show pieces job.count job.maxCount = c from hc] at h
      rw [Nat.min_eq_right hend, chunks, dif_neg (Nat.lt_irrefl _)]
      rfl
  | succ left ih =>
      intro c hc
      have hlt : c * job.maxCount < job.count :=
        (lt_pieces_iff hmax).mp (show c < job.launches by omega)
      have hnext : c * job.maxCount + min job.maxCount (job.count - c * job.maxCount) =
          min ((c + 1) * job.maxCount) job.count := by
        rw [Nat.succ_mul]
        omega
      have hok := job.reduceScatter_ok r (c := c) (by omega)
      have hkernel : job.args r (c * job.maxCount)
          (min job.maxCount (job.count - c * job.maxCount)) (job.generation + c + 1) =
          job.kernel r c := rfl
      rw [Nat.min_eq_left hlt.le, chunks, dif_pos hlt]
      dsimp only
      rw [hkernel, hok, hnext]
      dsimp only
      rw [Nat.add_assoc job.generation, ih (c + 1) (by omega), List.range'_succ]
      rfl

theorem doReduceScatter_eq (job : Job w) (r : Fin w) :
    job.doReduceScatter r = ((List.range job.launches).map (job.kernel r), none) := by
  have h := job.chunks_spec r job.launches 0 (Nat.zero_add _).symm
  rw [Nat.zero_mul, Nat.zero_min, Nat.add_zero] at h
  rw [List.range_eq_range']
  exact h

/-! ## Alignment -/

theorem dvd_of_or {x y : Nat} (h : (x ||| y) % 16 = 0) : 16 ∣ x ∧ 16 ∣ y := by
  have hmod := Nat.or_mod_two_pow (a := x) (b := y) (n := 4)
  rw [show (2 : Nat) ^ 4 = 16 from rfl, h] at hmod
  obtain ⟨hx, hy⟩ := Nat.or_eq_zero_iff.mp hmod.symm
  exact ⟨Nat.dvd_of_mod_eq_zero hx, Nat.dvd_of_mod_eq_zero hy⟩

/-- The regions of the ranks. -/
def regionOf (job : Job w) (p : Nat) : Nat := if h : p < w then job.region ⟨p, h⟩ else 0

theorem regionOf_aligned (job : Job w) (p : Nat) : 16 ∣ job.regionOf p := by
  unfold regionOf
  split
  · exact job.region_aligned _
  · exact Nat.dvd_zero _

/-- A rank that uses vectors finds all of them aligned. -/
theorem vectorAccesses_aligned (job : Job w) (r : Fin w) (c tid : Nat) :
    ∀ addr ∈ (job.kernel r c).vectorAccesses job.regionOf job.amd tid, 16 ∣ addr := by
  have hgroup : ∀ v, 16 ∣ v * (job.kernel r c).width * job.item := by
    intro v
    rw [Nat.mul_assoc]
    exact Dvd.dvd.mul_left (dvd_of_eq (mul_width job.item_dvd).symm) v
  have hslot : ∀ writer owner v, 16 ∣ job.regionOf owner + signalBytes +
      (job.kernel r c).slotStride * rsSlot writer owner + v * (job.kernel r c).width * job.item := by
    intro writer owner v
    refine Nat.dvd_add (Nat.dvd_add (Nat.dvd_add (job.regionOf_aligned owner) (by decide)) ?_)
      (hgroup v)
    exact Dvd.dvd.mul_right (dvd_alignUp _ _) _
  intro addr haddr
  unfold Args.vectorAccesses at haddr
  dsimp only at haddr
  by_cases hvec : (job.kernel r c).vec = true
  · obtain ⟨hptrs, hstride⟩ := dvd_of_or (of_decide_eq_true hvec)
    obtain ⟨hin, hout⟩ := dvd_of_or (Nat.mod_eq_zero_of_dvd hptrs)
    have hload : ∀ s v, 16 ∣ (job.kernel r c).inPtr +
        (s * job.count + v * (job.kernel r c).width) * job.item := by
      intro s v
      rw [Nat.add_mul, Nat.mul_assoc s]
      exact Nat.dvd_add hin (Nat.dvd_add (Dvd.dvd.mul_left hstride s) (hgroup v))
    rw [if_pos hvec] at haddr
    obtain haddr | haddr := List.mem_append.mp haddr
    · obtain ⟨s, -, haddr⟩ := List.mem_flatMap.mp haddr
      obtain ⟨v, -, haddr⟩ := List.mem_flatMap.mp haddr
      obtain rfl | haddr := List.mem_cons.mp haddr
      · exact hload s v
      · rw [List.mem_singleton.mp haddr]
        exact hslot _ _ v
    · obtain ⟨v, -, haddr⟩ := List.mem_flatMap.mp haddr
      obtain haddr | haddr := List.mem_append.mp haddr
      · obtain rfl | haddr := List.mem_cons.mp haddr
        · exact hload _ v
        · rw [List.mem_singleton.mp haddr]
          exact Nat.dvd_add hout (hgroup v)
      · obtain ⟨j, -, rfl⟩ := List.mem_map.mp haddr
        exact hslot _ _ v
  · rw [if_neg hvec] at haddr
    exact absurd haddr List.not_mem_nil

/-! ## The result -/

/-- What a task stores is an output element or a byte of an arena. -/
theorem dst_cases (share : R → R) {t : Task w} (ht : job.IsTask t) :
    (∃ i, i < job.count ∧
      (job.program share).dst t = .user t.rank (job.recv t.rank + i * job.item)) ∨
    ∃ s off, s < w ∧ off ∈ Symmetric.arena job.capBytes ∧
      (job.program share).dst t = .region s off := by
  have hitem : 0 < job.item := item_pos job.item_dvd
  have htask := ht.2
  cases hwork : t.work with
  | reduce k =>
      rw [hwork] at htask
      refine .inl ⟨job.index t.chunk k, index_lt htask.1, ?_⟩
      unfold program
      dsimp only
      rw [hwork]
      exact outLoc_kernel _ _ _
  | push s k =>
      rw [hwork] at htask
      obtain ⟨hs, hne, hk, -⟩ := htask
      refine .inr ⟨s, _, hs, ⟨?_, ?_⟩, by unfold program; dsimp only; rw [hwork]; rfl⟩
      · exact Nat.le_trans (Nat.le_add_right _ _) (Nat.le_add_right _ _)
      · have hbytes : k * job.item < (job.kernel t.rank t.chunk).slotStride := by
          have hle : (job.kernel t.rank t.chunk).count * job.item ≤
              (job.kernel t.rank t.chunk).slotStride := le_alignUp (by decide)
          exact Nat.lt_of_lt_of_le (Nat.mul_lt_mul_of_pos_right hk hitem) hle
        have hslot : rsSlot t.rank s < w - 1 := by
          have := t.rank.isLt
          unfold rsSlot
          split <;> omega
        have hrow := row_major_lt hslot hbytes
        have hfit := job.slots_fit t.rank t.chunk
        rw [Nat.mul_comm (rsSlot _ _)] at hrow
        change signalBytes + (job.kernel t.rank t.chunk).slotStride * rsSlot t.rank s +
          k * job.item < signalBytes + 2 * job.capBytes
        omega

end Job

end TorchMojoBackend.Ccl.ReduceScatter
