/-
  `Kernels.ScanRows`: lines, rows with a carry and Sklansky tiles.

  A launch is exact when each of its writes is the prefix of a position of the operand
  and every position has one.  A lane past the end of a row only reaches positions past
  it; a carry is the seed in front of what the tiles before hold.
-/
import TorchMojoBackend.Kernels.ScanAlgebra

set_option autoImplicit false

namespace TorchMojoBackend.Kernels.Scan

open TorchMojoBackend.Foundation

universe u v

variable {α : Type u} {β : Type v} {op : ScanOp α β} {data : Nat → α} {outer n inner : Nat}

/-! ## Exact launches -/

/-- The line through `(o, ·, i)`. -/
def lineOf (data : Nat → α) (n inner o i r : Nat) : α := data ((o * n + r) * inner + i)

/-- A position of the operand. -/
def Place (outer n inner : Nat) (x : Nat × Nat × Nat) : Prop :=
  x.1 < outer ∧ x.2.1 < n ∧ x.2.2 < inner

/-- Its address. -/
def addrOf (n inner : Nat) (x : Nat × Nat × Nat) : Nat := (x.1 * n + x.2.1) * inner + x.2.2

/-- The prefix that ends there. -/
def prefixAt (op : ScanOp α β) (data : Nat → α) (n inner : Nat) (x : Nat × Nat × Nat) : β × Int :=
  prefixMerge op (lineOf data n inner x.1 x.2.2) x.2.1

/-- The writes are the prefixes of the positions. -/
structure ExactWrites (op : ScanOp α β) (data : Nat → α) (outer n inner : Nat)
    (writes : List (Write α)) : Prop where
  sound : ∀ w ∈ writes, ∃ x, Place outer n inner x ∧ w.addr = addrOf n inner x ∧
    w.val = op.store (prefixAt op data n inner x).1 ∧
    (op.withIndex = true → w.idx = (prefixAt op data n inner x).2)
  complete : ∀ x, Place outer n inner x → ∃ w ∈ writes, w.addr = addrOf n inner x

theorem addrOf_inj {x y : Nat × Nat × Nat} (hx : Place outer n inner x)
    (hy : Place outer n inner y) (h : addrOf n inner x = addrOf n inner y) : x = y := by
  obtain ⟨o, r, i⟩ := x
  obtain ⟨o', r', i'⟩ := y
  obtain ⟨-, hr, hi⟩ := hx
  obtain ⟨-, hr', hi'⟩ := hy
  obtain ⟨hrow, rfl⟩ := flat_inj hi hi' h
  obtain ⟨rfl, rfl⟩ := flat_inj hr hr' hrow
  rfl

theorem addrOf_lt {x : Nat × Nat × Nat} (hx : Place outer n inner x) :
    addrOf n inner x < outer * n * inner := by
  obtain ⟨o, r, i⟩ := x
  obtain ⟨ho, hr, hi⟩ := hx
  dsimp only at ho hr hi
  have hrow : o * n + r + 1 ≤ outer * n := by
    have hmul := Nat.mul_le_mul_right n (Nat.succ_le_of_lt ho)
    rw [Nat.succ_mul] at hmul
    omega
  have hmul := Nat.mul_le_mul_right inner hrow
  rw [Nat.succ_mul] at hmul
  unfold addrOf
  dsimp only
  omega

/-- The first component of a write determines the rest. -/
theorem ExactWrites.writesOf {writes : List (Write α)} (h : ExactWrites op data outer n inner writes) :
    WritesOf (Place outer n inner) (addrOf n inner)
        (fun x => op.store (prefixAt op data n inner x).1) (writes.map fun w => (w.addr, w.val)) ∧
      (op.withIndex = true → WritesOf (Place outer n inner) (addrOf n inner)
        (fun x => (prefixAt op data n inner x).2) (writes.map fun w => (w.addr, w.idx))) := by
  have hat : ∀ x, Place outer n inner x → ∃ w ∈ writes, w.addr = addrOf n inner x ∧
      w.val = op.store (prefixAt op data n inner x).1 ∧
      (op.withIndex = true → w.idx = (prefixAt op data n inner x).2) := fun x hx => by
    obtain ⟨w, hw, haddr⟩ := h.complete x hx
    obtain ⟨y, hy, hyaddr, hval, hidx⟩ := h.sound w hw
    have hxy := addrOf_inj hx hy (haddr.symm.trans hyaddr)
    exact ⟨w, hw, haddr, hxy ▸ hval, hxy ▸ hidx⟩
  refine ⟨⟨fun p hp => ?_, fun x hx => ?_⟩, fun hindex => ⟨fun p hp => ?_, fun x hx => ?_⟩⟩
  · obtain ⟨w, hw, rfl⟩ := List.mem_map.mp hp
    obtain ⟨x, hx, haddr, hval, -⟩ := h.sound w hw
    exact ⟨x, hx, Prod.ext haddr hval⟩
  · obtain ⟨w, hw, haddr, hval, -⟩ := hat x hx
    exact List.mem_map.mpr ⟨w, hw, Prod.ext haddr hval⟩
  · obtain ⟨w, hw, rfl⟩ := List.mem_map.mp hp
    obtain ⟨x, hx, haddr, -, hidx⟩ := h.sound w hw
    exact ⟨x, hx, Prod.ext haddr (hidx hindex)⟩
  · obtain ⟨w, hw, haddr, -, hidx⟩ := hat x hx
    exact List.mem_map.mpr ⟨w, hw, Prod.ext haddr (hidx hindex)⟩

/-- What an exact launch leaves. -/
theorem StoresOut.exact {writes : List (Write α)} {m m' : Memory α β}
    (h : StoresOut op.withIndex writes m m') (hexact : ExactWrites op data outer n inner writes)
    {x : Nat × Nat × Nat} (hx : Place outer n inner x) :
    m'.out (addrOf n inner x) = op.store (prefixAt op data n inner x).1 ∧
      (op.withIndex = true → m'.idx (addrOf n inner x) = (prefixAt op data n inner x).2) := by
  obtain ⟨hout, hidx⟩ := hexact.writesOf
  refine ⟨h.out.writesOf hout (fun x y => addrOf_inj) hx, fun hindex => ?_⟩
  have hstores := h.idx
  rw [if_pos hindex] at hstores
  exact hstores.writesOf (hidx hindex) (fun x y => addrOf_inj) hx

theorem ExactWrites.addr_lt {writes : List (Write α)} (h : ExactWrites op data outer n inner writes)
    {w : Write α} (hw : w ∈ writes) : w.addr < outer * n * inner := by
  obtain ⟨x, hx, haddr, -⟩ := h.sound w hw
  exact haddr ▸ addrOf_lt hx

/-- An exact launch leaves what is past the operand. -/
theorem StoresOut.off {writes : List (Write α)} {m m' : Memory α β}
    (h : StoresOut op.withIndex writes m m') (hexact : ExactWrites op data outer n inner writes)
    {a : Nat} (ha : outer * n * inner ≤ a) : m'.out a = m.out a ∧ m'.idx a = m.idx a := by
  have hnone : ∀ w ∈ writes, w.addr ≠ a := fun w hw heq =>
    absurd (hexact.addr_lt hw) (by omega)
  refine ⟨h.out.map_off hnone, ?_⟩
  have hidx := h.idx
  split at hidx
  · exact hidx.map_off hnone
  · exact hidx.off fun _ => List.not_mem_nil

/-! ## A thread for each line -/

/-- The offset of an element of a thread's line. -/
theorem lines_addr (n inner t r : Nat) :
    t / inner * n * inner + (t - t / inner * inner) + r * inner =
      addrOf n inner (t / inner, r, t % inner) := by
  have hmod : t - t / inner * inner = t % inner := by
    have := Nat.div_add_mod' t inner
    omega
  unfold addrOf
  rw [hmod]
  ring

theorem lineState_eq (x : Nat → α) (r : Nat) (hop : Lawful op) :
    lineState op x r = seeded (merge op) (op.identity, -1) (element op x) r := by
  induction r with
  | zero => rfl
  | succ r ih =>
      unfold lineState
      rw [ih]
      exact seeded_append hop.assoc (op.identity, -1) (element op x) r 0

theorem linesWrites_exact (hop : Lawful op) {threads : Nat} (hthreads : 0 < threads)
    (hinner : 0 < inner) :
    ExactWrites op data outer n inner (linesWrites op data threads (outer * inner) n inner) := by
  have haddr := lines_addr n inner
  constructor
  · intro w hw
    obtain ⟨t, ht, hw⟩ := List.mem_flatMap.mp hw
    obtain ⟨r, hr, rfl⟩ := List.mem_map.mp hw
    rw [mem_gridItems hthreads] at ht
    have hplace : Place outer n inner (t / inner, r, t % inner) :=
      ⟨Nat.div_lt_of_lt_mul (Nat.mul_comm _ _ ▸ ht), List.mem_range.mp hr, Nat.mod_lt _ hinner⟩
    have hline : (fun r => data (t / inner * n * inner + (t - t / inner * inner) + r * inner)) =
        lineOf data n inner (t / inner) (t % inner) := funext fun r => congrArg data (haddr t r)
    obtain ⟨hval, hidx⟩ :=
      hop.seeded_shows (lineOf data n inner (t / inner) (t % inner)) r
    refine ⟨_, hplace, haddr t r, ?_, fun hindex => ?_⟩
    · dsimp only
      rw [hline, lineState_eq _ _ hop, hval]
      rfl
    · dsimp only
      rw [hline, lineState_eq _ _ hop, hidx hindex]
      rfl
  · rintro ⟨o, r, i⟩ ⟨ho, hr, hi⟩
    dsimp only at ho hr hi
    have hdiv : (o * inner + i) / inner = o := by
      rw [Nat.mul_comm, Nat.mul_add_div hinner, Nat.div_eq_of_lt hi, Nat.add_zero]
    have hmod : (o * inner + i) % inner = i := by
      rw [Nat.mul_comm, Nat.mul_add_mod, Nat.mod_eq_of_lt hi]
    have ht : o * inner + i < outer * inner := by
      have hmul := Nat.mul_le_mul_right inner (Nat.succ_le_of_lt ho)
      rw [Nat.succ_mul] at hmul
      omega
    refine ⟨_, List.mem_flatMap.mpr ⟨o * inner + i, (mem_gridItems hthreads).mpr ht,
      List.mem_map.mpr ⟨r, List.mem_range.mpr hr, rfl⟩⟩, ?_⟩
    have h := haddr (o * inner + i) r
    rw [hdiv, hmod] at h
    dsimp only
    rw [hdiv]
    exact h

/-! ## Rows with a carry -/

theorem rowsScanned_eq (hop : Lawful op) (x : Nat → α) {s tid : Nat} (htid : tid < SCAN_THREADS)
    (hreal : s * SCAN_THREADS + tid < n) : rowsScanned op x n s tid =
      fold1 (merge op) (element op x) (s * SCAN_THREADS) tid := by
  unfold rowsScanned
  rw [doubling_block hop.assoc _ (show SCAN_THREADS ≤ 2 ^ 8 by decide) htid,
    ← fold1_shift (element op x)]
  refine fold1_congr fun i _ hi => ?_
  unfold rowsTile
  dsimp only
  rw [if_pos (by omega)]
  rfl

theorem rowsCarry_eq (hop : Lawful op) (x : Nat → α) {s : Nat} (hs : s * SCAN_THREADS ≤ n) :
    rowsCarry op x n s = seeded (merge op) (op.identity, -1) (element op x) (s * SCAN_THREADS) := by
  induction s with
  | zero =>
      rw [Nat.zero_mul]
      rfl
  | succ s ih =>
      have hthreads : SCAN_THREADS - 1 < SCAN_THREADS := by decide
      have hnext : (s + 1) * SCAN_THREADS = s * SCAN_THREADS + (SCAN_THREADS - 1) + 1 := by
        rw [Nat.succ_mul]
        omega
      unfold rowsCarry
      rw [ih (by omega), rowsScanned_eq hop x hthreads (by omega), seeded_append hop.assoc, hnext]

theorem rowsWrites_exact (hop : Lawful op) {grid : Nat} (hgrid : 0 < grid) :
    ExactWrites op data outer n 1 (rowsWrites op data grid outer n) := by
  constructor
  · intro w hw
    obtain ⟨row, hrow, hw⟩ := List.mem_flatMap.mp hw
    obtain ⟨s, hs, hw⟩ := List.mem_flatMap.mp hw
    obtain ⟨tid, htid, rfl⟩ := List.mem_map.mp hw
    obtain ⟨htid, hreal⟩ := List.mem_filter.mp htid
    have hreal := of_decide_eq_true hreal
    rw [mem_gridItems hgrid] at hrow
    rw [List.mem_range] at htid
    have hline : (fun j => data (row * n + j)) = lineOf data n 1 row 0 := funext fun j => by
      unfold lineOf
      rw [Nat.mul_one, Nat.add_zero]
    obtain ⟨hval, hidx⟩ :=
      hop.seeded_shows (lineOf data n 1 row 0) (s * SCAN_THREADS + tid)
    refine ⟨(row, s * SCAN_THREADS + tid, 0), ⟨hrow, hreal, Nat.one_pos⟩, ?_, ?_, fun hindex => ?_⟩
    · unfold addrOf
      rw [Nat.mul_one, Nat.add_zero]
    · dsimp only
      rw [hline, rowsCarry_eq hop _ (by omega), rowsScanned_eq hop _ htid hreal,
        seeded_append hop.assoc, hval]
      rfl
    · dsimp only
      rw [hline, rowsCarry_eq hop _ (by omega), rowsScanned_eq hop _ htid hreal,
        seeded_append hop.assoc, hidx hindex]
      rfl
  · rintro ⟨row, j, i⟩ ⟨hrow, hj, hi⟩
    dsimp only at hrow hj hi
    have hthreads : 0 < SCAN_THREADS := by decide
    have hsplit := Nat.div_add_mod' j SCAN_THREADS
    refine ⟨_, List.mem_flatMap.mpr ⟨row, (mem_gridItems hgrid).mpr hrow,
      List.mem_flatMap.mpr ⟨j / SCAN_THREADS, List.mem_range.mpr ?_,
      List.mem_map.mpr ⟨j % SCAN_THREADS, List.mem_filter.mpr ⟨List.mem_range.mpr
        (Nat.mod_lt _ hthreads), decide_eq_true (by omega)⟩, rfl⟩⟩⟩, ?_⟩
    · exact (lt_pieces_iff hthreads).mpr (by omega)
    · unfold addrOf
      dsimp only
      omega

/-! ## Sklansky tiles -/

/-- The values of a line. -/
def value (op : ScanOp α β) (x : Nat → α) (k : Nat) : β := op.load (x k)

theorem seeded_value (hop : Lawful op) (hvalue : op.withIndex = false) (x : Nat → α) (r : Nat) :
    seeded (vmerge op) op.identity (value op x) (r + 1) = (prefixMerge op x r).1 := by
  rw [prefixMerge_value hvalue]
  exact hop.vleft _

theorem sklanskyA_eq (m t : Nat) : sklanskyA m t = t / 2 ^ m * 2 ^ (m + 1) + 2 ^ m := by
  have hlt : 2 ^ m < 2 ^ (m + 1) := Nat.pow_lt_pow_right (by decide) (Nat.lt_succ_self m)
  unfold sklanskyA
  rw [Nat.shiftLeft_eq, Nat.shiftRight_eq_div_pow, Nat.mul_comm (t / 2 ^ m),
    Nat.two_pow_add_eq_or_of_lt hlt]

theorem sklanskyStep_eq (nx m : Nat) (smem : Nat → β) :
    sklanskyStep op nx m smem = blockStep (vmerge op) nx m smem := by
  unfold sklanskyStep blockStep blockTarget blockSource
  simp only [sklanskyA_eq, Nat.and_two_pow_sub_one_eq_mod]

theorem sklanskySteps_eq (nx steps : Nat) (smem : Nat → β) :
    sklanskySteps op nx steps smem = blockSteps (vmerge op) nx steps smem := by
  induction steps with
  | zero => rfl
  | succ m ih =>
      unfold sklanskySteps blockSteps
      rw [ih, sklanskyStep_eq]

theorem sklanskyTile_eq (hop : Lawful op) (hvalue : op.withIndex = false) (x : Nat → α)
    {logX s p : Nat} (total : β) (hp : p < 2 * 2 ^ logX) (hreal : s * (2 * 2 ^ logX) + p < n) :
    sklanskyTile op x n logX s total p =
      vmerge op total (fold1 (vmerge op) (value op x) (s * (2 * 2 ^ logX)) p) := by
  have hwidth : 2 ^ (logX + 1) = 2 * 2 ^ logX := by
    rw [Nat.pow_succ, Nat.mul_comm]
  have hassoc := hop.vassoc hvalue
  unfold sklanskyTile
  dsimp only
  rw [sklanskySteps_eq, blockSteps_prefix hassoc _ _ hp, hwidth, Nat.div_eq_of_lt hp,
    Nat.mod_eq_of_lt hp, Nat.zero_mul, ← fold1_shift (value op x), fold1_front hassoc]
  refine fold1_congr fun i _ hi => ?_
  rw [Function.update_apply]
  have hi0 : ∀ i, i ≤ p → s * (2 * 2 ^ logX) + i < n := fun i hi => by omega
  by_cases h0 : i = 0
  · rw [if_pos h0, if_pos h0, if_pos (hi0 0 (Nat.zero_le p))]
    rfl
  · rw [if_neg h0, if_neg h0, if_pos (hi0 i (by omega))]
    rfl

theorem sklanskyTotal_eq (hop : Lawful op) (hvalue : op.withIndex = false) (x : Nat → α)
    {logX s : Nat} (hs : s * (2 * 2 ^ logX) ≤ n) : sklanskyTotal op x n logX s =
      seeded (vmerge op) op.identity (value op x) (s * (2 * 2 ^ logX)) := by
  have hpos : 0 < 2 ^ logX := Nat.pow_pos (by decide)
  induction s with
  | zero =>
      rw [Nat.zero_mul]
      rfl
  | succ s ih =>
      have hnext : (s + 1) * (2 * 2 ^ logX) = s * (2 * 2 ^ logX) + (2 * 2 ^ logX - 1) + 1 := by
        rw [Nat.succ_mul]
        omega
      unfold sklanskyTotal
      rw [ih (by omega), sklanskyTile_eq hop hvalue x _ (by omega) (by omega),
        seeded_append (hop.vassoc hvalue), hnext]

theorem sklanskyWrites_exact (hop : Lawful op) (hvalue : op.withIndex = false) {grid logX : Nat}
    (hgrid : 0 < grid) (hlog : logX ≤ 9) :
    ExactWrites op data outer n 1 (sklanskyWrites op data grid outer n logX) := by
  have hnx : 0 < 2 ^ logX := Nat.pow_pos (by decide)
  have hny : 0 < CUDA_SCAN_THREADS / 2 ^ logX :=
    Nat.div_pos (show 2 ^ logX ≤ 2 ^ 9 from Nat.pow_le_pow_right (by decide) hlog) hnx
  constructor
  · intro w hw
    obtain ⟨group, -, hw⟩ := List.mem_flatMap.mp hw
    obtain ⟨ty, hty, hw⟩ := List.mem_flatMap.mp hw
    obtain ⟨s, hs, hw⟩ := List.mem_flatMap.mp hw
    obtain ⟨p, hp, rfl⟩ := List.mem_map.mp hw
    obtain ⟨hp, hreal⟩ := List.mem_filter.mp hp
    have hreal := of_decide_eq_true hreal
    have hrow := of_decide_eq_true (List.mem_filter.mp hty).2
    rw [List.mem_range] at hp
    have hline : (fun j => data ((group * (CUDA_SCAN_THREADS / 2 ^ logX) + ty) * n + j)) =
        lineOf data n 1 (group * (CUDA_SCAN_THREADS / 2 ^ logX) + ty) 0 := funext fun j => by
      unfold lineOf
      rw [Nat.mul_one, Nat.add_zero]
    refine ⟨(group * (CUDA_SCAN_THREADS / 2 ^ logX) + ty, s * (2 * 2 ^ logX) + p, 0),
      ⟨hrow, hreal, Nat.one_pos⟩, ?_, ?_, fun hindex => ?_⟩
    · unfold addrOf
      rw [Nat.mul_one, Nat.add_zero]
    · dsimp only
      rw [hline, sklanskyTile_eq hop hvalue _ _ hp hreal,
        sklanskyTotal_eq hop hvalue _ (by omega), seeded_append (hop.vassoc hvalue),
        seeded_value hop hvalue]
      rfl
    · rw [hvalue] at hindex
      cases hindex
  · rintro ⟨row, j, i⟩ ⟨hrow, hj, hi⟩
    dsimp only at hrow hj hi
    have htile : 0 < 2 * 2 ^ logX := by omega
    have hsplit := Nat.div_add_mod' j (2 * 2 ^ logX)
    have hrows := Nat.div_add_mod' row (CUDA_SCAN_THREADS / 2 ^ logX)
    refine ⟨_, List.mem_flatMap.mpr ⟨row / (CUDA_SCAN_THREADS / 2 ^ logX),
      (mem_gridItems hgrid).mpr ?_, List.mem_flatMap.mpr ⟨row % (CUDA_SCAN_THREADS / 2 ^ logX),
      List.mem_filter.mpr ⟨List.mem_range.mpr (Nat.mod_lt _ hny), decide_eq_true (by omega)⟩,
      List.mem_flatMap.mpr ⟨j / (2 * 2 ^ logX), List.mem_range.mpr ?_,
      List.mem_map.mpr ⟨j % (2 * 2 ^ logX), List.mem_filter.mpr ⟨List.mem_range.mpr
        (Nat.mod_lt _ htile), decide_eq_true (by omega)⟩, rfl⟩⟩⟩⟩, ?_⟩
    · exact (lt_pieces_iff hny).mpr (by omega)
    · exact (lt_pieces_iff htile).mpr (by omega)
    · unfold addrOf
      dsimp only
      rw [hrows, hsplit]
      omega

end TorchMojoBackend.Kernels.Scan
