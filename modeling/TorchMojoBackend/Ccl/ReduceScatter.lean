/-
  `Ccl.ReduceScatter`: the reduce-scatter of one node.

  Source: tmb/ccl/device/symmetric/reduce_scatter.mojo (`_rs_slot` to `_rs_kernel`,
  `reduce_scatter_max_count`, `reduce_scatter`), data_ops.mojo (`_copy_vec`,
  `_copy_scalar_tail`, `_copy_span_flex`), primitives.mojo (`_peer_step`) and
  tmb/ccl/enqueue.mojo (`_do_reduce_scatter`).

  Elements lie at the address of their first byte; addition is exact, and `share` is what
  becomes of an element on its way into the sum.  A vector is its elements: the accesses of
  vectors are listed apart.  A load is one task with the store it is for.  The barriers of
  the kernel are the order of its tasks.
-/
import TorchMojoBackend.Ccl.PlansFit
import TorchMojoBackend.Ccl.SymmetricAllReduce
import TorchMojoBackend.Foundation.Launch
import TorchMojoBackend.Foundation.Schedule

set_option autoImplicit false

namespace TorchMojoBackend.Ccl.ReduceScatter

open TorchMojoBackend.Foundation
open TorchMojoBackend.Ccl.Symmetric (BLOCK AR_BIG_BYTES AR_BIG_BLOCKS AR_MAX_BLOCKS peers mem_peers)

/-! ## The host -/

/-- `reduce_scatter_max_count`. -/
def reduceScatterMaxCount (capBytes world elemBytes : Nat) : Nat :=
  if elemBytes = 0 ∨ capBytes = 0 then 1
  else
    let per := 2 * capBytes / max (world - 1) 1 / 16 * 16
    max 1 (per / elemBytes)

theorem maxCount_pos (capBytes world elemBytes : Nat) :
    0 < reduceScatterMaxCount capBytes world elemBytes := by
  unfold reduceScatterMaxCount
  split
  · exact Nat.one_pos
  · exact Nat.lt_of_lt_of_le Nat.one_pos (Nat.le_max_left _ _)

/-- What `reduce_scatter` is called with. -/
structure Args where
  rank : Nat
  world : Nat
  inPtr : Nat
  outPtr : Nat
  count : Nat
  item : Nat
  capBytes : Nat
  generation : Nat
  inStride : Nat
  deriving DecidableEq, Repr

namespace Args

variable (a : Args)

/-- `W`. -/
def width : Nat := 16 / a.item

/-- `slot_stride`. -/
def slotStride : Nat := alignUp (a.count * a.item) 16

/-- `vec`: whether 16-byte vectors are allowed. -/
def vec : Bool := (a.inPtr ||| a.outPtr ||| (a.inStride * a.item)) % 16 = 0

def blocks (amd : Bool) : Nat :=
  let capBlocks :=
    if a.world * a.count * a.item ≥ AR_BIG_BYTES then AR_BIG_BLOCKS amd else AR_MAX_BLOCKS amd
  min capBlocks (max 1 ((a.count / a.width + 1 + BLOCK - 1) / BLOCK))

end Args

/-- `reduce_scatter`: the launch, or the error that is raised instead. -/
def reduceScatter (a : Args) : Except String (List Args) :=
  if a.world < 1 ∨ a.world > MAX_WORLD then .error "collectives: world must be in 1..8"
  else if a.rank ≥ a.world then .error "collectives: rank out of range"
  else if a.generation < 1 then .error "collectives: generation must start at 1"
  else if a.capBytes = 0 ∨ a.capBytes % 4096 ≠ 0 then
    .error "collectives: cap_bytes must be a positive 4 KiB multiple"
  else if a.count = 0 then .ok []
  else if a.inStride < a.count then .error "collectives: reduce_scatter in_stride < count"
  else if a.count > reduceScatterMaxCount a.capBytes a.world a.item then
    .error "collectives: reduce_scatter chunk exceeds the region"
  else .ok [a]

/-- A node of `w` ranks, the buffers of a call and the addresses of the regions. -/
structure Job (w : Nat) where
  capBytes : Nat
  item : Nat
  count : Nat
  amd : Bool
  generation : Nat
  send : Fin w → Nat
  recv : Fin w → Nat
  region : Fin w → Nat
  world_le : w ≤ MAX_WORLD
  cap_pos : 0 < capBytes
  page : 4096 ∣ capBytes
  item_dvd : item ∣ 16
  region_aligned : ∀ r, 16 ∣ region r
  /-- The output is the rank's part of its input, or apart from its input. -/
  buffers : ∀ r, recv r = send r + r * count * item ∨
    send r + w * count * item ≤ recv r ∨ recv r + count * item ≤ send r

namespace Job

variable {w : Nat} (job : Job w)

def maxCount : Nat := reduceScatterMaxCount job.capBytes w job.item

/-- The call for `chunk` elements from element `done` on. -/
def args (r : Fin w) (done chunk generation : Nat) : Args where
  rank := r
  world := w
  inPtr := job.send r + done * job.item
  outPtr := job.recv r + done * job.item
  count := chunk
  item := job.item
  capBytes := job.capBytes
  generation := generation
  inStride := job.count

/-- The loop of `_do_reduce_scatter`: the launches and the error raised. -/
def chunks (r : Fin w) (done generation : Nat) : List Args × Option String :=
  if _h : done < job.count then
    let chunk := min job.maxCount (job.count - done)
    match reduceScatter (job.args r done chunk (generation + 1)) with
    | .error e => ([], some e)
    | .ok launched =>
        let rest := chunks r (done + chunk) (generation + 1)
        (launched ++ rest.1, rest.2)
  else ([], none)
termination_by job.count - done
decreasing_by
  have : 0 < job.maxCount := maxCount_pos _ _ _
  omega

/-- `_do_reduce_scatter` on rank `r`. -/
def doReduceScatter (r : Fin w) : List Args × Option String := job.chunks r 0 job.generation

end Job

/-! ## The kernel -/

/-- The vectors thread `v` moves in `_copy_vec`, `U` at a time. -/
def copyVecItems (U nvec stride : Nat) : Nat → Nat → List Nat
  | 0, _ => []
  | fuel + 1, v =>
      if v + (U - 1) * stride < nvec then
        (List.range U).map (fun u => v + u * stride) ++
          copyVecItems U nvec stride fuel (v + U * stride)
      else if v < nvec then
        ((List.range U).filter fun u => v + u * stride < nvec).map fun u => v + u * stride
      else []

/-- `_UNROLL`. -/
def UNROLL : Nat := 4

/-- The elements of group `v`. -/
def group (W v : Nat) : List Nat := (List.range W).map fun e => v * W + e

/-- The elements behind the last group, for thread `tid`. -/
def scalarTail (W count stride tid : Nat) : List Nat :=
  (strided (count - count / W * W) stride (count - count / W * W) tid).map (count / W * W + ·)

/-- The elements thread `tid` moves in `_copy_span_flex`. -/
def copySpanFlex (W count stride tid : Nat) (vec : Bool) : List Nat :=
  (if vec then (copyVecItems UNROLL (count / W) stride (count / W) tid).flatMap (group W)
    else (strided (count / W) stride (count / W) tid).flatMap (group W)) ++
    scalarTail W count stride tid

/-- The elements thread `tid` sums. -/
def reduceItems (W count stride tid : Nat) : List Nat :=
  (strided (count / W) stride (count / W) tid).flatMap (group W) ++ scalarTail W count stride tid

/-- `_peer_step`. -/
def peerStep (i world block : Nat) : Nat := 1 + (i - 1 + block) % (world - 1)

/-- Rank `rank + d`, around the ranks. -/
def wrap (world s : Nat) : Nat := if s ≥ world then s - world else s

/-- The peers a block pushes to, in its order. -/
def pushPeers (world rank block : Nat) : List Nat :=
  (List.range' 1 (world - 1)).map fun i => wrap world (rank + peerStep i world block)

/-- The slot of peer `p` in the arena of `rank`. -/
def rsSlot (p rank : Nat) : Nat := if p < rank then p else p - 1

/-- An element of a user's buffer of a rank, or one of its region. -/
inductive Loc where
  | user (rank addr : Nat)
  | region (rank off : Nat)
  deriving DecidableEq, Repr

/-- To move element `k` of the part for rank `s`, or to sum element `k`. -/
inductive Work where
  | push (s k : Nat)
  | reduce (k : Nat)
  deriving DecidableEq, Repr

/-- What a thread of a rank does in one launch. -/
structure Task (w : Nat) where
  chunk : Nat
  rank : Fin w
  tid : Nat
  work : Work
  deriving DecidableEq, Repr

namespace Args

variable (a : Args)

/-- Element `k` of the input part for rank `s`. -/
def inLoc (s k : Nat) : Loc := .user a.rank (a.inPtr + (s * a.inStride + k) * a.item)

def outLoc (k : Nat) : Loc := .user a.rank (a.outPtr + k * a.item)

/-- Element `k` of the slot of `writer` in the arena of `owner`. -/
def slotLoc (writer owner k : Nat) : Loc :=
  .region owner (signalBytes + a.slotStride * rsSlot writer owner + k * a.item)

/-- The pushes of thread `tid`. -/
def pushes (amd : Bool) (tid : Nat) : List Work :=
  (pushPeers a.world a.rank (tid / BLOCK)).flatMap fun s =>
    (copySpanFlex a.width a.count (a.blocks amd * BLOCK) tid a.vec).map (.push s)

/-- Its sums. -/
def reduces (amd : Bool) (tid : Nat) : List Work :=
  (reduceItems a.width a.count (a.blocks amd * BLOCK) tid).map .reduce

/-- `_rs_one`: element `k` of the result. -/
def rsOne {R : Type*} [Add R] (share : R → R) (m : Loc → R) (k : Nat) : R :=
  (List.range' 1 (a.world - 1)).foldl
    (fun acc j => acc + share (m (a.slotLoc (wrap a.world (a.rank + j)) a.rank k)))
    (share (m (a.inLoc a.rank k)))

/-- The addresses of the 16-byte accesses of thread `tid`, with the regions of the ranks at
`region`. -/
def vectorAccesses (region : Nat → Nat) (amd : Bool) (tid : Nat) : List Nat :=
  let stride := a.blocks amd * BLOCK
  let slot := fun writer owner v =>
    region owner + signalBytes + a.slotStride * rsSlot writer owner + v * a.width * a.item
  if a.vec then
    (pushPeers a.world a.rank (tid / BLOCK)).flatMap (fun s =>
      (copyVecItems UNROLL (a.count / a.width) stride (a.count / a.width) tid).flatMap fun v =>
        [a.inPtr + (s * a.inStride + v * a.width) * a.item, slot a.rank s v]) ++
    (strided (a.count / a.width) stride (a.count / a.width) tid).flatMap fun v =>
      [a.inPtr + (a.rank * a.inStride + v * a.width) * a.item,
        a.outPtr + v * a.width * a.item] ++
        (List.range' 1 (a.world - 1)).map fun j => slot (wrap a.world (a.rank + j)) a.rank v
  else []

end Args

namespace Job

variable {w : Nat} (job : Job w)

/-- The number of launches. -/
def launches : Nat := pieces job.count job.maxCount

/-- Launch `c` of rank `r`. -/
def kernel (r : Fin w) (c : Nat) : Args :=
  job.args r (c * job.maxCount) (chunk job.count job.maxCount c).len (job.generation + c + 1)

/-- The threads of a launch. -/
def threads (r : Fin w) (c : Nat) : Nat := (job.kernel r c).blocks job.amd * BLOCK

/-- What the threads of all ranks do, launch after launch. -/
def tasks : List (Task w) :=
  (List.range job.launches).flatMap fun c =>
    (List.finRange w).flatMap (fun r => (List.range (job.threads r c)).flatMap fun tid =>
      ((job.kernel r c).pushes job.amd tid).map (Task.mk c r tid)) ++
    (List.finRange w).flatMap fun r => (List.range (job.threads r c)).flatMap fun tid =>
      ((job.kernel r c).reduces job.amd tid).map (Task.mk c r tid)

/-- Where a task stores, and what. -/
def program {R : Type*} [Add R] (share : R → R) : Tasks (Task w) Loc R where
  dst t :=
    let a := job.kernel t.rank t.chunk
    match t.work with
    | .push s k => a.slotLoc t.rank s k
    | .reduce k => a.outLoc k
  value t m :=
    let a := job.kernel t.rank t.chunk
    match t.work with
    | .push s k => m (a.inLoc s k)
    | .reduce k => a.rsOne share m k

end Job

/-- What the barriers ask for.  A launch starts when the one before has ended on every rank.
In a launch, a block sums when the block of its number has pushed on every rank. -/
def Task.Before {w : Nat} (y x : Task w) : Prop :=
  y.chunk < x.chunk ∨
    y.chunk = x.chunk ∧ (∃ s k, y.work = .push s k) ∧ (∃ k, x.work = .reduce k) ∧
      y.tid / BLOCK = x.tid / BLOCK

/-! ## The elements of a thread -/

/-- The elements a thread moves do not depend on the width of its accesses. -/
theorem copyVecItems_eq {U nvec stride : Nat} (hU : 0 < U) (hstride : 0 < stride) {fuel : Nat} :
    ∀ {v : Nat}, nvec ≤ v + fuel →
      copyVecItems U nvec stride fuel v = strided nvec stride fuel v := by
  obtain ⟨U, rfl⟩ : ∃ k, U = k + 1 := ⟨U - 1, (Nat.succ_pred_eq_of_pos hU).symm⟩
  induction fuel with
  | zero => exact fun _ => rfl
  | succ fuel ih =>
      intro v hfuel
      rw [copyVecItems, Nat.add_sub_cancel]
      by_cases hlim : v + U * stride < nvec
      · have hpos : 0 < (U + 1) * stride := Nat.mul_pos (Nat.succ_pos U) hstride
        have hmore : strided nvec stride (fuel + 1) v = strided nvec stride (U + 1 + fuel) v :=
          strided_fuel hstride hfuel (by omega)
        rw [if_pos hlim, ih (by omega), hmore, strided_unroll U hlim]
      · have hend : nvec ≤ v + (U + 1) * stride := by
          rw [Nat.succ_mul]
          omega
        rw [if_neg hlim, strided_short (U + 1) hend hfuel]
        by_cases hv : v < nvec
        · rw [if_pos hv]
        · rw [if_neg hv, List.filter_eq_nil_iff.mpr, List.map_nil]
          intro u _
          rw [decide_eq_true_iff]
          omega

theorem copySpanFlex_eq {W count stride tid : Nat} (hstride : 0 < stride) (vec : Bool) :
    copySpanFlex W count stride tid vec = reduceItems W count stride tid := by
  unfold copySpanFlex reduceItems
  rw [copyVecItems_eq (by decide) hstride (Nat.le_add_left _ _), ite_self]

/-- The thread that moves or sums element `k`. -/
def owner (W count stride k : Nat) : Nat :=
  if k < count / W * W then k / W % stride else (k - count / W * W) % stride

/-- Each element belongs to one thread. -/
theorem mem_reduceItems {W count stride tid k : Nat} (hW : 0 < W) (hstride : 0 < stride)
    (htid : tid < stride) :
    k ∈ reduceItems W count stride tid ↔ k < count ∧ owner W count stride k = tid := by
  have hle : count / W * W ≤ count := Nat.div_mul_le_self _ _
  have hmod : tid % stride = tid := Nat.mod_eq_of_lt htid
  unfold reduceItems scalarTail group owner
  rw [List.mem_append, List.mem_flatMap, List.mem_map]
  simp only [mem_strided hstride (Nat.le_add_left _ _), List.mem_map, List.mem_range, hmod]
  by_cases hk : k < count / W * W
  · have hgroup : k / W < count / W := Nat.div_lt_of_lt_mul (by rwa [Nat.mul_comm])
    rw [if_pos hk]
    constructor
    · rintro (⟨v, ⟨-, -, hv⟩, e, he, rfl⟩ | ⟨i, -, rfl⟩)
      · rw [row_div he]
        exact ⟨by omega, hv⟩
      · omega
    · rintro ⟨-, hown⟩
      refine .inl ⟨k / W, ⟨?_, hgroup, hown⟩, k % W, Nat.mod_lt _ hW, ?_⟩
      · rw [← hown]
        exact Nat.mod_le _ _
      · rw [Nat.mul_comm]
        exact Nat.div_add_mod k W
  · rw [if_neg hk]
    constructor
    · rintro (⟨v, ⟨-, hv, -⟩, e, he, rfl⟩ | ⟨i, ⟨-, hi, himod⟩, rfl⟩)
      · exact absurd (row_major_lt hv he) hk
      · rw [Nat.add_sub_cancel_left]
        exact ⟨by omega, himod⟩
    · rintro ⟨hcount, hown⟩
      refine .inr ⟨k - count / W * W, ⟨?_, by omega, hown⟩, by omega⟩
      rw [← hown]
      exact Nat.mod_le _ _

theorem reduceItems_nodup {W count stride tid : Nat} (hstride : 0 < stride) :
    (reduceItems W count stride tid).Nodup := by
  unfold reduceItems scalarTail
  refine List.nodup_append.mpr ⟨?_, ?_, ?_⟩
  · refine List.nodup_flatMap.mpr ⟨fun v _ => ?_, ?_⟩
    · exact List.nodup_range.map fun e e' h => Nat.add_left_cancel h
    · refine (strided_nodup hstride (Nat.le_add_left _ _)).imp_of_mem ?_
      intro v v' _ _ hne k hk hk'
      obtain ⟨e, he, rfl⟩ := List.mem_map.mp hk
      obtain ⟨e', he', heq⟩ := List.mem_map.mp hk'
      exact hne (flat_inj (List.mem_range.mp he) (List.mem_range.mp he') heq.symm).1
  · exact (strided_nodup hstride (Nat.le_add_left _ _)).map fun i i' h => Nat.add_left_cancel h
  · intro k hk k' hk' heq
    obtain ⟨v, hv, hgroup⟩ := List.mem_flatMap.mp hk
    obtain ⟨e, he, rfl⟩ := List.mem_map.mp hgroup
    obtain ⟨i, -, rfl⟩ := List.mem_map.mp hk'
    have hlt := row_major_lt ((mem_strided hstride (Nat.le_add_left _ _)).mp hv).2.1
      (List.mem_range.mp he)
    omega

/-! ## The peers of a rank -/

theorem wrap_lt {w rank d : Nat} (hrank : rank < w) (hd : d < w) : wrap w (rank + d) < w := by
  unfold wrap
  split <;> omega

theorem wrap_ne {w rank d : Nat} (hd : d < w) (hpos : 0 < d) : wrap w (rank + d) ≠ rank := by
  unfold wrap
  split <;> omega

theorem wrap_inj {w rank d d' : Nat} (hd : d < w) (hd' : d' < w)
    (h : wrap w (rank + d) = wrap w (rank + d')) : d = d' := by
  unfold wrap at h
  split at h <;> split at h <;> omega

theorem erase_eq_peers (w rank : Nat) : (List.range w).erase rank = peers w rank := by
  unfold peers
  rw [List.nodup_range.erase_eq_filter]
  refine List.filter_congr fun p _ => ?_
  by_cases hp : p = rank <;> simp [hp]

theorem peers_length {w rank : Nat} (hrank : rank < w) : (peers w rank).length = w - 1 := by
  rw [← erase_eq_peers, List.length_erase_of_mem (List.mem_range.mpr hrank), List.length_range]

/-- Going around the ranks from the next one on meets every peer once. -/
theorem around_perm {w rank : Nat} (hrank : rank < w) :
    ((List.range' 1 (w - 1)).map fun j => wrap w (rank + j)).Perm (peers w rank) := by
  have hmem : ∀ {j}, j ∈ List.range' 1 (w - 1) → 0 < j ∧ j < w := fun hj => by
    have := List.mem_range'_1.mp hj
    omega
  have hnodup : ((List.range' 1 (w - 1)).map fun j => wrap w (rank + j)).Nodup :=
    List.Nodup.map_on (fun _ hj _ hj' h => wrap_inj (hmem hj).2 (hmem hj').2 h) List.nodup_range'
  refine (hnodup.subperm ?_).perm_of_length_le ?_
  · intro s hs
    obtain ⟨j, hj, rfl⟩ := List.mem_map.mp hs
    exact mem_peers.mpr ⟨wrap_lt hrank (hmem hj).2, wrap_ne (hmem hj).2 (hmem hj).1⟩
  · rw [peers_length hrank, List.length_map, List.length_range']

/-- The rotation of a block only changes the order of the peers. -/
theorem peerStep_perm (w block : Nat) :
    ((List.range' 1 (w - 1)).map fun i => peerStep i w block).Perm (List.range' 1 (w - 1)) := by
  have hnodup : ((List.range' 1 (w - 1)).map fun i => peerStep i w block).Nodup := by
    refine List.Nodup.map_on (fun i hi i' hi' h => ?_) List.nodup_range'
    have hi := List.mem_range'_1.mp hi
    have hi' := List.mem_range'_1.mp hi'
    have hmod : (i - 1 + block) % (w - 1) = (i' - 1 + block) % (w - 1) := Nat.add_left_cancel h
    have heq : (i - 1) % (w - 1) = (i' - 1) % (w - 1) := Nat.ModEq.add_right_cancel' block hmod
    rw [Nat.mod_eq_of_lt (by omega), Nat.mod_eq_of_lt (by omega)] at heq
    omega
  refine (hnodup.subperm ?_).perm_of_length_le (by rw [List.length_map])
  intro d hd
  obtain ⟨i, hi, rfl⟩ := List.mem_map.mp hd
  have hi := List.mem_range'_1.mp hi
  have hlt := Nat.mod_lt (i - 1 + block) (by omega : 0 < w - 1)
  refine List.mem_range'_1.mpr ?_
  unfold peerStep
  omega

theorem pushPeers_perm {w rank : Nat} (hrank : rank < w) (block : Nat) :
    (pushPeers w rank block).Perm (peers w rank) := by
  have h := (peerStep_perm w block).map fun d => wrap w (rank + d)
  rw [List.map_map] at h
  exact h.trans (around_perm hrank)

/-! ## The tasks -/

theorem blocks_pos (a : Args) (amd : Bool) : 0 < a.blocks amd * BLOCK := by
  have hcap : 0 < (if a.world * a.count * a.item ≥ AR_BIG_BYTES then AR_BIG_BLOCKS amd
      else AR_MAX_BLOCKS amd) := by
    split <;> cases amd <;> decide
  refine Nat.mul_pos (Nat.lt_min.mpr ⟨hcap, ?_⟩) (by decide)
  exact Nat.lt_of_lt_of_le Nat.one_pos (Nat.le_max_left _ _)

namespace Job

variable {w : Nat} {job : Job w}

/-- The thread that has element `k` of launch `c`, on any rank. -/
def ownerOf (job : Job w) (r : Fin w) (c k : Nat) : Nat :=
  let a := job.kernel r c
  owner a.width a.count (a.blocks job.amd * BLOCK) k

/-- The tasks of a launch: every rank moves every element of its parts for its peers, and sums
every element of its own part. -/
def IsTask (job : Job w) (t : Task w) : Prop :=
  t.chunk < job.launches ∧
    match t.work with
    | .push s k => s < w ∧ s ≠ t.rank ∧ k < (job.kernel t.rank t.chunk).count ∧
        job.ownerOf t.rank t.chunk k = t.tid
    | .reduce k => k < (job.kernel t.rank t.chunk).count ∧ job.ownerOf t.rank t.chunk k = t.tid

theorem width_kernel (job : Job w) (r : Fin w) (c : Nat) : 0 < (job.kernel r c).width :=
  width_pos job.item_dvd

theorem mem_pushes {r : Fin w} {c tid : Nat} (htid : tid < job.threads r c) {x : Work} :
    x ∈ (job.kernel r c).pushes job.amd tid ↔ ∃ s k, x = .push s k ∧ s < w ∧ s ≠ r ∧
      k < (job.kernel r c).count ∧ job.ownerOf r c k = tid := by
  have hpos := blocks_pos (job.kernel r c) job.amd
  have hpeers := fun s => (pushPeers_perm r.isLt (tid / BLOCK)).mem_iff (a := s)
  unfold Args.pushes
  rw [copySpanFlex_eq hpos]
  simp only [List.mem_flatMap, List.mem_map, mem_reduceItems (job.width_kernel r c) hpos htid]
  constructor
  · rintro ⟨s, hs, k, ⟨hk, hown⟩, rfl⟩
    obtain ⟨hlt, hne⟩ := mem_peers.mp ((hpeers s).mp hs)
    exact ⟨s, k, rfl, hlt, hne, hk, hown⟩
  · rintro ⟨s, k, rfl, hlt, hne, hk, hown⟩
    exact ⟨s, (hpeers s).mpr (mem_peers.mpr ⟨hlt, hne⟩), k, ⟨hk, hown⟩, rfl⟩

theorem mem_reduces {r : Fin w} {c tid : Nat} (htid : tid < job.threads r c) {x : Work} :
    x ∈ (job.kernel r c).reduces job.amd tid ↔ ∃ k, x = .reduce k ∧
      k < (job.kernel r c).count ∧ job.ownerOf r c k = tid := by
  have hpos := blocks_pos (job.kernel r c) job.amd
  unfold Args.reduces
  simp only [List.mem_map, mem_reduceItems (job.width_kernel r c) hpos htid]
  constructor
  · rintro ⟨k, ⟨hk, hown⟩, rfl⟩
    exact ⟨k, rfl, hk, hown⟩
  · rintro ⟨k, rfl, hk, hown⟩
    exact ⟨k, ⟨hk, hown⟩, rfl⟩

theorem ownerOf_lt (job : Job w) (r : Fin w) (c k : Nat) : job.ownerOf r c k < job.threads r c := by
  have hpos := blocks_pos (job.kernel r c) job.amd
  unfold ownerOf owner
  dsimp only
  split
  · exact Nat.mod_lt _ hpos
  · exact Nat.mod_lt _ hpos

/-- The tasks of a thread. -/
theorem mem_threads {n : Fin w → Nat} {f : Fin w → Nat → List Work} {c : Nat} {t : Task w} :
    t ∈ ((List.finRange w).flatMap fun r => (List.range (n r)).flatMap fun tid =>
      (f r tid).map (Task.mk c r tid)) ↔
      t.chunk = c ∧ t.tid < n t.rank ∧ t.work ∈ f t.rank t.tid := by
  simp only [List.mem_flatMap, List.mem_range, List.mem_map, List.mem_finRange, true_and]
  constructor
  · rintro ⟨r, tid, htid, x, hx, rfl⟩
    exact ⟨rfl, htid, hx⟩
  · rintro ⟨rfl, htid, hx⟩
    exact ⟨t.rank, t.tid, htid, t.work, hx, rfl⟩

theorem mem_tasks {t : Task w} : t ∈ job.tasks ↔ job.IsTask t := by
  unfold tasks IsTask
  constructor
  · intro ht
    obtain ⟨c, hc, h⟩ := List.mem_flatMap.mp ht
    have hc := List.mem_range.mp hc
    obtain h | h := List.mem_append.mp h
    · obtain ⟨rfl, htid, hx⟩ := mem_threads.mp h
      obtain ⟨s, k, hwork, hrest⟩ := (mem_pushes htid).mp hx
      rw [hwork]
      exact ⟨hc, hrest⟩
    · obtain ⟨rfl, htid, hx⟩ := mem_threads.mp h
      obtain ⟨k, hwork, hrest⟩ := (mem_reduces htid).mp hx
      rw [hwork]
      exact ⟨hc, hrest⟩
  · rintro ⟨hc, h⟩
    refine List.mem_flatMap.mpr ⟨t.chunk, List.mem_range.mpr hc, List.mem_append.mpr ?_⟩
    cases hwork : t.work with
    | push s k =>
        rw [hwork] at h
        have htid : t.tid < job.threads t.rank t.chunk := h.2.2.2 ▸ job.ownerOf_lt _ _ _
        exact .inl (mem_threads.mpr ⟨rfl, htid, (mem_pushes htid).mpr ⟨s, k, hwork, h⟩⟩)
    | reduce k =>
        rw [hwork] at h
        have htid : t.tid < job.threads t.rank t.chunk := h.2 ▸ job.ownerOf_lt _ _ _
        exact .inr (mem_threads.mpr ⟨rfl, htid, (mem_reduces htid).mpr ⟨k, hwork, h⟩⟩)

end Job

end TorchMojoBackend.Ccl.ReduceScatter
