/-
  `Kernels.PhiloxStreamsExact`: no block of a generator serves two launches.

  A launch that stays in the interval that was reserved for it shares no block with
  another, since the intervals follow each other.  Every kernel stays in its interval but
  for two dropouts: one of eight elements a thread reads two blocks a round where an odd
  number was reserved, and one of two elements where a thread has more than one round.
-/
import TorchMojoBackend.Kernels.PhiloxStreams

set_option autoImplicit false

namespace TorchMojoBackend.Kernels.PhiloxStreams

open TorchMojoBackend.Foundation TorchMojoBackend.Kernels.OpUtils
  TorchMojoBackend.Kernels.RandomFill

/-! ## Counters -/

/-- The counter of the block `b` of a subsequence. -/
def blockCtr (b subsequence : Nat) : Ctr :=
  ⟨u32 b, u32 (b / 2 ^ 32), u32 subsequence, u32 (subsequence / 2 ^ 32)⟩

theorem ctrAdd_eq {offset k : Nat} (subsequence : Nat) (hk : offset / 4 + k < 2 ^ 64) :
    ctrAdd (curandCtr offset subsequence) k = blockCtr (offset / 4 + k) subsequence := by
  unfold curandCtr
  generalize offset / 4 = n at hk ⊢
  unfold ctrAdd blockCtr u32
  dsimp only
  by_cases hcarry : (n % 2 ^ 32 + k % 2 ^ 32) % 2 ^ 32 < k % 2 ^ 32
  · have hnhi : (k / 2 ^ 32 % 2 ^ 32 + 1) % 2 ^ 32 ≤
        (n / 2 ^ 32 % 2 ^ 32 + (k / 2 ^ 32 % 2 ^ 32 + 1) % 2 ^ 32) % 2 ^ 32 := by
      omega
    rw [if_pos hcarry, if_neg (not_not_intro hnhi), Ctr.mk.injEq]
    exact ⟨by omega, by omega, rfl, rfl⟩
  · have hnhi : k / 2 ^ 32 % 2 ^ 32 ≤ (n / 2 ^ 32 % 2 ^ 32 + k / 2 ^ 32 % 2 ^ 32) % 2 ^ 32 := by
      omega
    rw [if_neg hcarry, if_neg (not_not_intro hnhi), Ctr.mk.injEq]
    exact ⟨by omega, by omega, rfl, rfl⟩

theorem blockCtr_injective {b b' s s' : Nat} (hb : b < 2 ^ 64) (hb' : b' < 2 ^ 64)
    (h : blockCtr b s = blockCtr b' s') : b = b' := by
  unfold blockCtr u32 at h
  rw [Ctr.mk.injEq] at h
  omega

/-! ## Reservations -/

theorem philoxReserve_some {offset increment limit : Nat} (hoffset : offset < 2 ^ 64)
    (hwrap : increment + 3 < 2 ^ 64) (h : philoxReserve offset increment = some limit) :
    limit = offset + (increment + 3) / 4 * 4 ∧ limit < 2 ^ 64 := by
  unfold philoxReserve at h
  dsimp only at h
  rw [Nat.mod_eq_of_lt hwrap] at h
  split at h
  · obtain rfl := Option.some.inj h
    exact ⟨rfl, by omega⟩
  · exact absurd h (by simp)

/-- A reservation has the blocks that its kernel reads. -/
structure Reservation.Covers (r : Reservation) : Prop where
  wrap : r.increment + 3 < 2 ^ 64
  blocks : ∀ kernel, r.kernel = some kernel → ∀ b ∈ kernel.blocks, b.2 < (r.increment + 3) / 4

/-- The blocks of a launch are in its interval. -/
structure Launch.Within (l : Launch) : Prop where
  limit_lt : l.limit < 2 ^ 64
  blocks : ∀ b ∈ l.kernel.blocks, l.offset / 4 + b.2 < l.limit / 4

/-- A launch reads blocks of its interval. -/
theorem Launch.Within.reads {l : Launch} (h : l.Within) {r : Nat × Ctr} (hr : r ∈ l.reads) :
    ∃ b, l.offset / 4 ≤ b ∧ b < l.limit / 4 ∧ r.2 = blockCtr b r.1 := by
  obtain ⟨⟨idx, k⟩, hmem, rfl⟩ := List.mem_map.mp hr
  have hlimit := h.limit_lt
  have hblock := h.blocks _ hmem
  dsimp only at hblock
  exact ⟨l.offset / 4 + k, Nat.le_add_right _ _, hblock, ctrAdd_eq idx (by omega)⟩

/-- Launches with intervals that follow each other read different blocks. -/
theorem Launch.Within.disjoint {l l' : Launch} (h : l.Within) (h' : l'.Within)
    (hle : l.limit ≤ l'.offset) {r : Nat × Ctr} (hr : r ∈ l.reads) : r ∉ l'.reads := by
  intro hr'
  obtain ⟨b, -, hlt, heq⟩ := h.reads hr
  obtain ⟨b', hge, hlt', heq'⟩ := h'.reads hr'
  have hlimit := h.limit_lt
  have hlimit' := h'.limit_lt
  have hsame := blockCtr_injective (by omega) (by omega) (heq.symm.trans heq')
  omega

/-- The launches of a call, one after the other, between two offsets. -/
structure LaunchesFrom (offset : Nat) (ls : List Launch) (last : Nat) : Prop where
  le : offset ≤ last
  lt : last < 2 ^ 64
  between : ∀ l ∈ ls, offset ≤ l.offset ∧ l.limit ≤ last ∧ l.Within
  order : ls.Pairwise fun l l' => l.limit ≤ l'.offset

theorem LaunchesFrom.append {offset middle last : Nat} {ls ls' : List Launch}
    (h : LaunchesFrom offset ls middle) (h' : LaunchesFrom middle ls' last) :
    LaunchesFrom offset (ls ++ ls') last := by
  refine ⟨Nat.le_trans h.le h'.le, h'.lt, fun l hl => ?_, ?_⟩
  · rcases List.mem_append.mp hl with hl | hl
    · obtain ⟨hlow, hhigh, hwithin⟩ := h.between l hl
      exact ⟨hlow, Nat.le_trans hhigh h'.le, hwithin⟩
    · obtain ⟨hlow, hhigh, hwithin⟩ := h'.between l hl
      exact ⟨Nat.le_trans h.le hlow, hhigh, hwithin⟩
  · refine List.pairwise_append.mpr ⟨h.order, h'.order, fun l hl l' hl' => ?_⟩
    exact Nat.le_trans (h.between l hl).2.1 (h'.between l' hl').1

theorem runCall_from {offset : Nat} (hoffset : offset < 2 ^ 64) {rs : List Reservation}
    (hcovers : ∀ r ∈ rs, r.Covers) :
    LaunchesFrom offset (runCall offset rs).1 (runCall offset rs).2 := by
  have hnil : ∀ {offset : Nat}, offset < 2 ^ 64 → LaunchesFrom offset [] offset :=
    fun h => ⟨le_refl _, h, fun l hl => absurd hl List.not_mem_nil, List.Pairwise.nil⟩
  induction rs generalizing offset with
  | nil => exact hnil hoffset
  | cons r rest ih =>
      have hr := hcovers r List.mem_cons_self
      unfold runCall
      cases hreserve : philoxReserve offset r.increment with
      | none => exact hnil hoffset
      | some limit =>
          obtain ⟨hlimit, hlt⟩ := philoxReserve_some hoffset hr.wrap hreserve
          have hrest := ih hlt fun r hmem => hcovers r (List.mem_cons_of_mem _ hmem)
          dsimp only
          generalize runCall limit rest = run at hrest ⊢
          obtain ⟨launches, last⟩ := run
          have hnone : LaunchesFrom offset [] limit :=
            ⟨by omega, hlt, fun l hl => absurd hl List.not_mem_nil, List.Pairwise.nil⟩
          cases hkernel : r.kernel with
          | none => exact hnone.append hrest
          | some kernel =>
              have hfirst : LaunchesFrom offset [⟨offset, limit, kernel⟩] limit := by
                refine ⟨by omega, hlt, fun l hl => ?_, List.pairwise_singleton _ _⟩
                obtain rfl := List.mem_singleton.mp hl
                refine ⟨le_refl _, le_refl _, hlt, fun b hb => ?_⟩
                have hblock := hr.blocks kernel hkernel b hb
                dsimp only
                omega
              exact hfirst.append hrest

theorem runCalls_from {cap offset : Nat} (hoffset : offset < 2 ^ 64) {calls : List Call}
    (hcovers : ∀ call ∈ calls, ∀ r ∈ call.reservations cap, r.Covers) :
    ∃ last, LaunchesFrom offset (runCalls cap offset calls).flatten last := by
  induction calls generalizing offset with
  | nil =>
      exact ⟨offset, le_refl _, hoffset, fun l hl => absurd hl List.not_mem_nil,
        List.Pairwise.nil⟩
  | cons call calls ih =>
      have hcall := runCall_from hoffset (hcovers call List.mem_cons_self)
      obtain ⟨last, hrest⟩ := ih hcall.lt fun c hc => hcovers c (List.mem_cons_of_mem _ hc)
      exact ⟨last, hcall.append hrest⟩

/-! ## Loops -/

theorem drawLoop_mem {bound step rand fuel linear k : Nat} {round : Nat × Nat}
    (h : round ∈ drawLoop bound step rand fuel linear k) :
    ∃ j, linear + j * step < bound ∧ round = (linear + j * step, k + j * rand) := by
  induction fuel generalizing linear k with
  | zero => exact absurd h List.not_mem_nil
  | succ fuel ih =>
      unfold drawLoop at h
      split at h
      · rename_i hin
        rcases List.mem_cons.mp h with rfl | h
        · exact ⟨0, by omega, by rw [Nat.zero_mul, Nat.zero_mul]; rfl⟩
        · obtain ⟨j, hlt, rfl⟩ := ih h
          refine ⟨j + 1, ?_, ?_⟩
          · rw [Nat.succ_mul]
            omega
          · rw [Nat.succ_mul, Nat.succ_mul]
            congr 1 <;> omega
      · exact absurd h List.not_mem_nil

/-- Every round of a thread is one of the loop. -/
theorem mem_drawLoop {bound step rand fuel linear k j : Nat} (hstep : 0 < step)
    (hfuel : bound ≤ linear + fuel) (hj : linear + j * step < bound) :
    (linear + j * step, k + j * rand) ∈ drawLoop bound step rand fuel linear k := by
  induction fuel generalizing linear k j with
  | zero => omega
  | succ fuel ih =>
      unfold drawLoop
      rw [if_pos (by omega)]
      cases j with
      | zero =>
          rw [Nat.zero_mul, Nat.zero_mul]
          exact List.mem_cons_self
      | succ j =>
          rw [Nat.succ_mul] at hj
          have hnext := @ih (linear + step) (k + rand) j (by omega) (by omega)
          rw [Nat.succ_mul, Nat.succ_mul, Nat.add_comm (j * step), Nat.add_comm (j * rand),
            ← Nat.add_assoc, ← Nat.add_assoc]
          exact List.mem_cons_of_mem _ hnext

variable {numel grid : Nat}

theorem distRounds_lt {N idx : Nat} (hN : 0 < N) (hidx : idx < grid * BLOCK) {round : Nat × Nat}
    (h : round ∈ distRounds numel grid N idx) : round.2 < roundsOf numel grid N := by
  have hgrid : 0 < grid := Nat.pos_of_mul_pos_right (Nat.lt_of_le_of_lt (Nat.zero_le _) hidx)
  rw [distRounds_eq hgrid hN hidx] at h
  obtain ⟨j, hj, rfl⟩ := List.mem_map.mp h
  exact List.mem_range.mp hj

theorem counterOffset_eq (numel grid N : Nat) :
    counterOffset numel grid N = roundsOf numel grid N * 4 := by
  unfold counterOffset roundsOf
  rw [Nat.mul_comm grid]

theorem counterOffset_lt (hnumel : numel < 2 ^ 63) (N : Nat) :
    counterOffset numel grid N + 3 < 2 ^ 64 := by
  unfold counterOffset
  have hdiv : (numel - 1) / (BLOCK * grid * N) ≤ (numel - 1) / BLOCK := by
    rw [Nat.mul_assoc, ← Nat.div_div_eq_div_mul]
    exact Nat.div_le_self _ _
  have hblock : (numel - 1) / BLOCK = (numel - 1) / 256 := rfl
  omega

/-! ## Kernels -/

theorem dist_blocks {N : Nat} (hN : 0 < N) {b : Nat × Nat}
    (hb : b ∈ (Kernel.dist numel grid N).blocks) : b.2 < roundsOf numel grid N := by
  obtain ⟨idx, hidx, hb⟩ := List.mem_flatMap.mp hb
  obtain ⟨round, hround, rfl⟩ := List.mem_map.mp hb
  exact @distRounds_lt numel grid N idx hN (List.mem_range.mp hidx) round hround

/-- When a dropout of `threads` threads stays in its interval. -/
def DropoutFits (vec numel threads : Nat) : Prop :=
  (vec = 8 → ceildiv numel (4 * threads) % 2 = 0) ∧ (vec = 2 → numel ≤ 2 * threads)

theorem ceildiv_eq {n b : Nat} (hn : 0 < n) (hb : 0 < b) : ceildiv n b = (n - 1) / b + 1 := by
  unfold ceildiv
  rw [← Nat.add_div_right _ hb, Nat.sub_add_comm hn]

/-- The blocks of a vector dropout: of a round `j` and a part of its values. -/
theorem mem_dropoutVec {VEC idx k : Nat} (hVEC : 0 < VEC) :
    (idx, k) ∈ (Kernel.dropoutVec VEC numel grid).blocks ↔ idx < grid * BLOCK ∧ ∃ j jj,
      idx * VEC + j * (grid * BLOCK * VEC) < numel ∧ jj < (VEC + 3) / 4 ∧
        k = j * ((VEC + 3) / 4) + jj := by
  constructor
  · intro hb
    obtain ⟨idx', hidx, hb⟩ := List.mem_flatMap.mp hb
    obtain ⟨round, hround, hb⟩ := List.mem_flatMap.mp hb
    obtain ⟨jj, hjj, heq⟩ := List.mem_map.mp hb
    obtain ⟨j, hj, rfl⟩ := drawLoop_mem hround
    obtain ⟨rfl, rfl⟩ := Prod.mk.inj heq
    exact ⟨List.mem_range.mp hidx, j, jj, hj, List.mem_range.mp hjj, by dsimp only; omega⟩
  · rintro ⟨hidx, j, jj, hj, hjj, rfl⟩
    have hstep : 0 < grid * BLOCK * VEC :=
      Nat.mul_pos (Nat.lt_of_le_of_lt (Nat.zero_le _) hidx) hVEC
    have hround := @mem_drawLoop numel _ ((VEC + 3) / 4) numel (idx * VEC) 0 j hstep
      (Nat.le_add_left _ _) hj
    refine List.mem_flatMap.mpr ⟨idx, List.mem_range.mpr hidx, ?_⟩
    refine List.mem_flatMap.mpr ⟨_, hround, List.mem_map.mpr ⟨jj, List.mem_range.mpr hjj, ?_⟩⟩
    dsimp only
    rw [Nat.zero_add]

theorem dropout_blocks {vec : Nat} (hfits : DropoutFits vec numel (grid * BLOCK)) {b : Nat × Nat}
    (hb : b ∈ (dropoutKernel vec numel grid).blocks) : b.2 < roundsOf numel grid 4 := by
  obtain ⟨hfits8, hfits2⟩ := hfits
  obtain ⟨idx, k⟩ := b
  unfold dropoutKernel at hb
  unfold roundsOf
  generalize hT : grid * BLOCK = threads at hfits8 hfits2 ⊢
  split at hb
  · -- eight values a round: two blocks, of an even number
    rename_i hvec
    obtain ⟨hidx, j, jj, hj, hjj, rfl⟩ := (mem_dropoutVec (by decide)).mp hb
    rw [hT] at hj hidx
    have heven := hfits8 hvec
    rw [ceildiv_eq (by omega) (by omega), Nat.mul_comm 4] at heven
    have hround : j * 2 ≤ (numel - 1) / (threads * 4) := by
      have hvalues : j * 2 * (threads * 4) = j * (threads * 8) := by ring
      rw [Nat.le_div_iff_mul_le (by omega), hvalues]
      omega
    dsimp only
    omega
  · split at hb
    · obtain ⟨hidx, j, jj, hj, hjj, rfl⟩ := (mem_dropoutVec (by decide)).mp hb
      rw [hT] at hj hidx
      have hround : j ≤ (numel - 1) / (threads * 4) := by
        rw [Nat.le_div_iff_mul_le (by omega)]
        omega
      dsimp only
      omega
    · split at hb
      · -- two values a round: one round
        rename_i hvec
        obtain ⟨hidx, j, jj, hj, hjj, rfl⟩ := (mem_dropoutVec (by decide)).mp hb
        rw [hT] at hj hidx
        have hsmall := hfits2 hvec
        have hmul : j * (threads * 2) < 1 * (threads * 2) := by omega
        have hround : j < 1 := Nat.lt_of_mul_lt_mul_right hmul
        refine Nat.lt_of_lt_of_le ?_ (Nat.le_add_left 1 _)
        dsimp only
        omega
      · rw [← hT]
        exact @dist_blocks numel grid 4 (by decide) _ hb

/-- Outside of these cases the first thread reads the block after its interval. -/
theorem dropout_fits_iff {vec : Nat} (hnumel : numel ≠ 0) (hgrid : 0 < grid) :
    (∀ b ∈ (dropoutKernel vec numel grid).blocks, b.2 < roundsOf numel grid 4) ↔
      DropoutFits vec numel (grid * BLOCK) := by
  refine ⟨fun hblocks => ⟨?_, ?_⟩, fun hfits b hb => dropout_blocks hfits hb⟩
  · rintro rfl
    by_contra hodd
    have hthreads : 0 < grid * BLOCK := Nat.mul_pos hgrid (Nat.succ_pos 255)
    rw [ceildiv_eq (by omega) (by omega), Nat.mul_comm 4] at hodd
    have hle := Nat.div_mul_le_self (numel - 1) (grid * BLOCK * 4)
    unfold roundsOf at hblocks
    generalize hq : (numel - 1) / (grid * BLOCK * 4) = q at hodd hle hblocks
    have hhalf : q = q / 2 * 2 := by omega
    have hmem : (0, q / 2 * 2 + 1) ∈ (Kernel.dropoutVec 8 numel grid).blocks := by
      refine (mem_dropoutVec (by decide)).mpr ⟨hthreads, q / 2, 1, ?_, by decide, rfl⟩
      have hvalues : q / 2 * 2 * (grid * BLOCK * 4) = q / 2 * (grid * BLOCK * 8) := by ring
      rw [hhalf, hvalues] at hle
      omega
    have hlt := hblocks _ hmem
    dsimp only at hlt
    omega
  · rintro rfl
    by_contra hlong
    have hthreads : 0 < grid * BLOCK := Nat.mul_pos hgrid (Nat.succ_pos 255)
    have hle := Nat.div_mul_le_self (numel - 1) (grid * BLOCK * 2)
    have hround : 1 ≤ (numel - 1) / (grid * BLOCK * 2) := by
      rw [Nat.le_div_iff_mul_le (by omega)]
      omega
    have hquarter : (numel - 1) / (grid * BLOCK * 4) = (numel - 1) / (grid * BLOCK * 2) / 2 := by
      rw [Nat.div_div_eq_div_mul, Nat.mul_assoc _ 2 2]
    unfold roundsOf at hblocks
    rw [hquarter] at hblocks
    generalize (numel - 1) / (grid * BLOCK * 2) = q at hround hle hblocks
    have hmem : (0, q * 1 + 0) ∈ (Kernel.dropoutVec 2 numel grid).blocks :=
      (mem_dropoutVec (by decide)).mpr ⟨hthreads, q, 0, by omega, by decide, rfl⟩
    have hlt := hblocks _ hmem
    dsimp only at hlt
    omega

theorem bernoulliTensor_blocks {b : Nat × Nat}
    (hb : b ∈ (Kernel.bernoulliTensor numel grid).blocks) : b.2 = 0 := by
  obtain ⟨t, -, hb⟩ := List.mem_flatMap.mp hb
  obtain ⟨round, hround, rfl⟩ := List.mem_map.mp hb
  obtain ⟨j, -, rfl⟩ := drawLoop_mem hround
  exact Nat.zero_add _

theorem multinomialDraw_blocks {rows nSample : Nat} {b : Nat × Nat}
    (hb : b ∈ (Kernel.multinomialDraw rows nSample).blocks) :
    b.2 < (rows * nSample + 3) / 4 := by
  obtain ⟨block, -, hb⟩ := List.mem_flatMap.mp hb
  obtain ⟨row, hrow, hb⟩ := List.mem_flatMap.mp hb
  obtain ⟨tid, -, hb⟩ := List.mem_flatMap.mp hb
  obtain ⟨s, hs, rfl⟩ := List.mem_map.mp hb
  have hblocks : 0 < max 1 (min rows MN_MAX_BLOCKS) := lt_max_of_lt_left Nat.one_pos
  have hrow := ((mem_strided hblocks (Nat.le_add_left _ _)).mp hrow).2.1
  have hs := ((mem_strided (Nat.succ_pos 255) (Nat.le_add_left _ _)).mp hs).2.1
  have hmul := Nat.mul_le_mul_right nSample (Nat.succ_le_of_lt hrow)
  rw [Nat.succ_mul] at hmul
  dsimp only
  omega

/-! ## Calls -/

/-- The sizes of a call are 64-bit integers. -/
def Call.Valid : Call → Prop
  | .draw p ps _ _ => p.numel < 2 ^ 63 ∧ ∀ piece ∈ ps, piece.numel < 2 ^ 63
  | .dropout _ _ numel _ => numel < 2 ^ 63
  | .bernoulliTensor numel => numel < 2 ^ 63
  | .multinomial rows nSample => rows * nSample < 2 ^ 63

/-- A dropout stays in its interval. -/
def Call.Fits (cap : Nat) : Call → Prop
  | .dropout dtype ptr numel dense =>
    DropoutFits (dropoutVecSize dtype ptr numel dense) numel (gridOf cap numel * BLOCK)
  | _ => True

theorem Call.covers {cap : Nat} {call : Call} (hvalid : call.Valid) (hfits : call.Fits cap) :
    ∀ r ∈ call.reservations cap, r.Covers := by
  have hdist : ∀ {n : Nat} (N : Nat), n < 2 ^ 63 →
      (counterOffset n (gridOf cap n) N + 3) / 4 = roundsOf n (gridOf cap n) N := by
    intro n N hn
    rw [counterOffset_eq]
    omega
  intro r hr
  cases call with
  | draw p ps dist double =>
      obtain ⟨hnumel, hpieces⟩ := hvalid
      rcases List.mem_append.mp hr with hr | hr
      · split at hr
        · obtain rfl := List.mem_singleton.mp hr
          exact ⟨counterOffset_lt hnumel _, fun kernel h => absurd h (by simp)⟩
        · exact absurd hr List.not_mem_nil
      · obtain ⟨piece, hpiece, rfl⟩ := List.mem_map.mp hr
        refine ⟨counterOffset_lt (hpieces piece hpiece) _, fun kernel h b hb => ?_⟩
        obtain rfl := Option.some.inj h
        dsimp only
        rw [hdist _ (hpieces piece hpiece)]
        exact dist_blocks (distUnroll_pos dist double) hb
  | dropout dtype ptr numel dense =>
      obtain rfl := List.mem_singleton.mp hr
      refine ⟨counterOffset_lt hvalid _, fun kernel h b hb => ?_⟩
      obtain rfl := Option.some.inj h
      dsimp only
      rw [hdist 4 hvalid]
      exact dropout_blocks hfits hb
  | bernoulliTensor numel =>
      obtain rfl := List.mem_singleton.mp hr
      refine ⟨by dsimp only; decide, fun kernel h b hb => ?_⟩
      obtain rfl := Option.some.inj h
      rw [bernoulliTensor_blocks hb]
      dsimp only
      decide
  | multinomial rows nSample =>
      obtain rfl := List.mem_singleton.mp hr
      unfold Call.Valid at hvalid
      refine ⟨by dsimp only; omega, fun kernel h b hb => ?_⟩
      obtain rfl := Option.some.inj h
      have hlt := multinomialDraw_blocks hb
      dsimp only
      omega

/-- The launches of a sequence of calls read blocks of their intervals, and no two of them
read one block. -/
theorem streams_disjoint {cap offset : Nat} (hoffset : offset < 2 ^ 64) {calls : List Call}
    (hvalid : ∀ call ∈ calls, call.Valid) (hfits : ∀ call ∈ calls, call.Fits cap) :
    (∀ l ∈ (runCalls cap offset calls).flatten, ∀ r ∈ l.reads,
      ∃ b, l.offset / 4 ≤ b ∧ b < l.limit / 4 ∧ r.2 = blockCtr b r.1) ∧
    (runCalls cap offset calls).flatten.Pairwise fun l l' =>
      l.limit ≤ l'.offset ∧ ∀ r ∈ l.reads, r ∉ l'.reads := by
  obtain ⟨last, hfrom⟩ := runCalls_from hoffset fun call hmem =>
    Call.covers (hvalid call hmem) (hfits call hmem)
  refine ⟨fun l hl r hr => (hfrom.between l hl).2.2.reads hr, ?_⟩
  refine hfrom.order.imp_of_mem fun {l l'} hl hl' hle => ⟨hle, fun r hr => ?_⟩
  exact (hfrom.between l hl).2.2.disjoint (hfrom.between l' hl').2.2 hle hr

/-- A dropout of four values a round and one of a single value, after each other. -/
theorem streams_disjoint_pair :
    (runCalls 1056 0 [.dropout .float32 0 1024 true, .dropout .float32 0 3 false]).flatten.Pairwise
      fun l l' => l.limit ≤ l'.offset ∧ ∀ r ∈ l.reads, r ∉ l'.reads := by
  refine (streams_disjoint (by decide) (fun call hmem => ?_) fun call hmem => ?_).2
  · rcases List.mem_cons.mp hmem with rfl | hmem
    · exact (by decide : 1024 < 2 ^ 63)
    · obtain rfl := List.mem_singleton.mp hmem
      exact (by decide : 3 < 2 ^ 63)
  · rcases List.mem_cons.mp hmem with rfl | hmem
    · exact ⟨by decide, by decide⟩
    · obtain rfl := List.mem_singleton.mp hmem
      exact ⟨by decide, by decide⟩

/-- Two dropouts of eight float16 elements read one block. -/
theorem dropout_reuses_block :
    runCalls 1056 0 [.dropout .float16 0 8 true, .dropout .float16 0 8 true] =
      [[⟨0, 4, .dropoutVec 8 8 1⟩], [⟨4, 8, .dropoutVec 8 8 1⟩]] ∧
    ∃ r, r ∈ (⟨0, 4, .dropoutVec 8 8 1⟩ : Launch).reads ∧
      r ∈ (⟨4, 8, .dropoutVec 8 8 1⟩ : Launch).reads := by
  have hfirst : (0, 1) ∈ (Kernel.dropoutVec 8 8 1).blocks :=
    (mem_dropoutVec (by decide)).mpr ⟨by decide, 0, 1, by decide, by decide, rfl⟩
  have hsecond : (0, 0) ∈ (Kernel.dropoutVec 8 8 1).blocks :=
    (mem_dropoutVec (by decide)).mpr ⟨by decide, 0, 0, by decide, by decide, rfl⟩
  exact ⟨by decide, (0, ⟨1, 0, 0, 0⟩), List.mem_map.mpr ⟨_, hfirst, by decide⟩,
    List.mem_map.mpr ⟨_, hsecond, by decide⟩⟩

end TorchMojoBackend.Kernels.PhiloxStreams
