/-
  `Kernels.ScanPrefix`: every scan leaves the prefixes.

  Whichever kernel a scan takes, with the geometry that it gets, what it leaves at a
  position is the merge of the elements of the line up to there, and it loads and stores
  nothing past the operand.
-/
import TorchMojoBackend.Kernels.ScanCub

set_option autoImplicit false

namespace TorchMojoBackend.Kernels.Scan

open TorchMojoBackend.Foundation

universe u v w

section
variable {α : Type u} {β : Type v} {op : ScanOp α β} {data : Nat → α} {outer n inner : Nat}
  {size : Size} {outAddr inAddr : Nat} {smem : Nat → β}

/-! ## The choice of a kernel -/

/-- A kernel and its grid as `_scan` launches them. -/
inductive Fits (op : ScanOp α β) (outer n inner : Nat) : Kernel → Prop where
  | cub : op.withIndex = false → outer = 1 → inner = 1 → Fits op outer n inner .cub
  | sklansky {grid logX : Nat} : op.withIndex = false → inner = 1 → 0 < grid → logX ≤ 9 →
      Fits op outer n inner (.sklansky grid logX)
  | rows {grid : Nat} : inner = 1 → 0 < grid → Fits op outer n inner (.rows grid)
  | lines {threads : Nat} : 0 < threads → Fits op outer n inner (.lines threads)

/-- A scan over every element has one line. -/
theorem one_line (hn : 0 < n) (h : outer * n * inner = n) : outer = 1 ∧ inner = 1 := by
  have hmul : outer * inner * n = 1 * n := by
    rw [Nat.one_mul]
    calc outer * inner * n
      _ = outer * n * inner := by ring
      _ = n := h
  have hone := Nat.eq_of_mul_eq_mul_right hn hmul
  exact ⟨Nat.eq_one_of_mul_eq_one_right hone, Nat.eq_one_of_mul_eq_one_left hone⟩

theorem cudaLogThreadsX_range (lx ly : Nat) : 4 ≤ cudaLogThreadsX lx ly ∧ cudaLogThreadsX lx ly ≤ 9 := by
  unfold cudaLogThreadsX
  omega

theorem blocks_pos {items width : Nat} (hitems : 0 < items) (hwidth : 0 < width) :
    0 < min (pieces items width) SCAN_MAX_BLOCKS := by
  have hmax : 0 < SCAN_MAX_BLOCKS := by decide
  have hpieces : 0 < pieces items width := (lt_pieces_iff hwidth).mpr (by omega)
  omega

theorem choose_fits (isFloat last : Bool) (lx ly : Nat) (houter : 0 < outer) (hn : 0 < n)
    (hinner : 0 < inner) : Fits op outer n inner
      (choose op isFloat (route outer n inner last) outer n inner lx ly) := by
  unfold choose
  dsimp only
  split
  · rename_i hcub
    obtain ⟨hvalue, -, -, hroute⟩ := hcub
    have hone : outer * n * inner = n := by
      unfold route at hroute
      by_contra hne
      rw [if_neg hne] at hroute
      split at hroute <;> cases hroute
    obtain ⟨houter1, hinner1⟩ := one_line hn hone
    exact .cub (Bool.not_eq_true _ ▸ hvalue) houter1 hinner1
  · split
    · rename_i hrows
      obtain ⟨hvalue, -, hinner1⟩ := hrows
      obtain ⟨-, hlog⟩ := cudaLogThreadsX_range lx ly
      have hny : 0 < CUDA_SCAN_THREADS / 2 ^ cudaLogThreadsX lx ly :=
        Nat.div_pos (show 2 ^ cudaLogThreadsX lx ly ≤ 2 ^ 9 from
          Nat.pow_le_pow_right (by decide) hlog) (Nat.pow_pos (by decide))
      exact .sklansky (Bool.not_eq_true _ ▸ hvalue) hinner1 (blocks_pos houter hny) hlog
    · split
      · rename_i hblock
        have hmax : 0 < SCAN_MAX_BLOCKS := by decide
        exact .rows hblock.2.1 (by omega)
      · have hthreads : 0 < SCAN_THREADS := by decide
        exact .lines (Nat.mul_pos (blocks_pos (Nat.mul_pos houter hinner) hthreads) hthreads)

/-! ## What a run leaves -/

/-- Every run is one launch of exact stores on what the passes before leave. -/
theorem ScanRun.exact (hop : Lawful op) (hinner : 0 < inner) {kernel : Kernel}
    (hfits : Fits op outer n inner kernel) {m m' : Memory α β}
    (h : ScanRun op size outAddr inAddr data outer n inner smem kernel m m') :
    ∃ (ws : Nat → β) (m₂ : Memory α β),
      ExactWrites op data outer n inner
        (outWrites op size outAddr inAddr data outer n inner smem ws kernel) ∧
      StoresOut op.withIndex
        (outWrites op size outAddr inAddr data outer n inner smem ws kernel) m₂ m' ∧
      m₂.out = m.out ∧ m₂.idx = m.idx := by
  cases hfits with
  | cub hvalue houter hinner1 =>
      subst houter hinner1
      exact Scan1dCub.exact hop hvalue h
  | sklansky hvalue hinner1 hgrid hlog =>
      subst hinner1
      exact ⟨m.ws, m, sklanskyWrites_exact hop hvalue hgrid hlog, h, rfl, rfl⟩
  | rows hinner1 hgrid =>
      subst hinner1
      exact ⟨m.ws, m, rowsWrites_exact hop hgrid, h, rfl, rfl⟩
  | lines hthreads => exact ⟨m.ws, m, linesWrites_exact hop hthreads hinner, h, rfl, rfl⟩

/-- The addresses that a kernel stores do not depend on the workspace. -/
theorem outWrites_addr (kernel : Kernel) (ws ws' : Nat → β) :
    (outWrites op size outAddr inAddr data outer n inner smem ws kernel).map Write.addr =
      (outWrites op size outAddr inAddr data outer n inner smem ws' kernel).map Write.addr := by
  cases kernel with
  | cub =>
      change (tileScanWrites ..).map _ = (tileScanWrites ..).map _
      unfold tileScanWrites
      simp only [List.map_flatMap, List.map_map, Function.comp_def]
  | sklansky grid logX => rfl
  | rows grid => rfl
  | lines threads => rfl

theorem StoresOut.exists (withIndex : Bool) (writes : List (Write α)) (m : Memory α β) :
    ∃ m', StoresOut withIndex writes m m' :=
  ⟨⟨_, _, m.ws⟩, Stores.inOrder _ _, Stores.inOrder _ _⟩

theorem StoresWs.exists (writes : List (Nat × β)) (m : Memory α β) :
    ∃ m', StoresWs writes m m' :=
  ⟨⟨m.out, m.idx, _⟩, Stores.inOrder _ _, rfl, rfl⟩

/-- Every kernel runs. -/
theorem ScanRun.exists (op : ScanOp α β) (size : Size) (outAddr inAddr : Nat) (data : Nat → α)
    (outer n inner : Nat) (smem : Nat → β) (kernel : Kernel) (m : Memory α β) :
    ∃ m', ScanRun op size outAddr inAddr data outer n inner smem kernel m m' := by
  cases kernel with
  | cub =>
      change ∃ m', Scan1dCub op size outAddr inAddr data n smem m m'
      unfold Scan1dCub
      dsimp only
      split
      · obtain ⟨m₁, h₁⟩ := StoresWs.exists
          (tileAggWrites op size inAddr data n (pieces n CUB_TILE) smem) m
        obtain ⟨m₂, h₂⟩ := StoresWs.exists (tilePrefixWrites op m₁.ws (pieces n CUB_TILE)) m₁
        obtain ⟨m', h'⟩ := StoresOut.exists op.withIndex (tileScanWrites op size outAddr inAddr
          data n (pieces n CUB_TILE) m₂.ws smem) m₂
        exact ⟨m', m₁, m₂, h₁, h₂, h'⟩
      · exact StoresOut.exists ..
  | sklansky grid logX => exact StoresOut.exists ..
  | rows grid => exact StoresOut.exists ..
  | lines threads => exact StoresOut.exists ..

/-! ## What a run loads -/

theorem loads_lt (hinner : 0 < inner) {kernel : Kernel} (hfits : Fits op outer n inner kernel)
    {a : Nat} (ha : a ∈ loads size inAddr outer n inner kernel) : a < outer * n * inner := by
  cases hfits with
  | cub hvalue houter hinner1 =>
      subst houter hinner1
      rw [Nat.one_mul, Nat.mul_one]
      obtain ⟨t, ht, ha⟩ := List.mem_flatMap.mp ha
      obtain ⟨k, hk, rfl⟩ := List.mem_map.mp ha
      split at hk
      · rename_i hvector
        have hwidth : tileWidth n t = CUB_TILE :=
          of_decide_eq_true (Bool.and_eq_true_iff.mp hvector).1
        have hk := mem_positions_vector.mp hk
        exact (lt_tileWidth_iff hk).mp (hwidth ▸ hk)
      · obtain ⟨hk, hreal⟩ := List.mem_filter.mp hk
        exact (lt_tileWidth_iff (mem_positions_scalar.mp hk)).mp (of_decide_eq_true hreal)
  | sklansky hvalue hinner1 hgrid hlog =>
      subst hinner1
      rw [Nat.mul_one]
      obtain ⟨group, -, ha⟩ := List.mem_flatMap.mp ha
      obtain ⟨ty, hty, ha⟩ := List.mem_flatMap.mp ha
      obtain ⟨s, -, ha⟩ := List.mem_flatMap.mp ha
      obtain ⟨p, hp, rfl⟩ := List.mem_map.mp ha
      exact row_major_lt (of_decide_eq_true (List.mem_filter.mp hty).2)
        (of_decide_eq_true (List.mem_filter.mp hp).2)
  | rows hinner1 hgrid =>
      subst hinner1
      rw [Nat.mul_one]
      obtain ⟨row, hrow, ha⟩ := List.mem_flatMap.mp ha
      obtain ⟨s, -, ha⟩ := List.mem_flatMap.mp ha
      obtain ⟨tid, htid, rfl⟩ := List.mem_map.mp ha
      exact row_major_lt ((mem_gridItems hgrid).mp hrow)
        (of_decide_eq_true (List.mem_filter.mp htid).2)
  | lines hthreads =>
      obtain ⟨t, ht, ha⟩ := List.mem_flatMap.mp ha
      obtain ⟨r, hr, rfl⟩ := List.mem_map.mp ha
      have ht := (mem_gridItems hthreads).mp ht
      have hplace : Place outer n inner (t / inner, r, t % inner) :=
        ⟨Nat.div_lt_of_lt_mul (Nat.mul_comm _ _ ▸ ht), List.mem_range.mp hr, Nat.mod_lt _ hinner⟩
      rw [lines_addr]
      exact addrOf_lt hplace

end

/-! ## The scans -/

section
variable {α : Type u} {β : Type v}

/-- A run of a scan leaves the prefix at each position, and for a selecting scan the index of
the element that the prefix keeps; nothing past the operand is loaded or stored. -/
def ComputesPrefix (op : ScanOp α β) : Prop :=
  ∀ (isFloat last : Bool) (lx ly : Nat) (size : Size) (outAddr inAddr : Nat) (data : Nat → α)
    (outer n inner : Nat) (smem : Nat → β) (m : Memory α β), 0 < outer → 0 < n → 0 < inner →
  let kernel := choose op isFloat (route outer n inner last) outer n inner lx ly
  (∃ m', ScanRun op size outAddr inAddr data outer n inner smem kernel m m') ∧
  (∀ m', ScanRun op size outAddr inAddr data outer n inner smem kernel m m' →
    (∀ o r i, o < outer → r < n → i < inner →
      let line := fun k => data ((o * n + k) * inner + i)
      m'.out ((o * n + r) * inner + i) = op.store (prefixMerge op line r).1 ∧
      (op.withIndex = true → ∃ k, k ≤ r ∧ m'.idx ((o * n + r) * inner + i) = k ∧
        prefixMerge op line r = (op.load (line k), (k : Int)))) ∧
    ∀ a, outer * n * inner ≤ a → m'.out a = m.out a ∧ m'.idx a = m.idx a) ∧
  (∀ a ∈ loads size inAddr outer n inner kernel, a < outer * n * inner) ∧
  ∀ ws, ∀ w ∈ outWrites op size outAddr inAddr data outer n inner smem ws kernel,
    w.addr < outer * n * inner

theorem Lawful.computesPrefix {op : ScanOp α β} (hop : Lawful op) : ComputesPrefix op := by
  intro isFloat last lx ly size outAddr inAddr data outer n inner smem m houter hn hinner
  dsimp only
  have hfits := @choose_fits α β op outer n inner isFloat last lx ly houter hn hinner
  generalize choose op isFloat (route outer n inner last) outer n inner lx ly = kernel at hfits
  have hruns := ScanRun.exists op size outAddr inAddr data outer n inner smem kernel
  refine ⟨hruns m, fun m' hrun => ⟨fun o r i ho hr hi => ?_, fun a ha => ?_⟩,
    fun a ha => loads_lt hinner hfits ha, fun ws w hw => ?_⟩
  · obtain ⟨ws, m₂, hexact, hstores, -, -⟩ := hrun.exact hop hinner hfits
    obtain ⟨hout, hidx⟩ := hstores.exact hexact (x := (o, r, i)) ⟨ho, hr, hi⟩
    refine ⟨hout, fun hindex => ?_⟩
    obtain ⟨k, hk, heq⟩ := prefixMerge_selects hindex (lineOf data n inner o i) r
    exact ⟨k, hk, (hidx hindex).trans (congrArg Prod.snd heq), heq⟩
  · obtain ⟨ws, m₂, hexact, hstores, hout, hidx⟩ := hrun.exact hop hinner hfits
    exact hout ▸ hidx ▸ hstores.off hexact ha
  · obtain ⟨m', hrun⟩ := hruns m
    obtain ⟨ws', m₂, hexact, -⟩ := hrun.exact hop hinner hfits
    have hmem := List.mem_map_of_mem (f := Write.addr) hw
    rw [outWrites_addr kernel ws ws'] at hmem
    obtain ⟨w', hw', haddr⟩ := List.mem_map.mp hmem
    exact haddr ▸ hexact.addr_lt hw'

end

/-- Every lawful scan computes the prefixes; sums and products of exact elements and the
selecting scans are lawful. -/
theorem scan_prefix :
    (∀ (α : Type u) (β : Type v) (op : ScanOp α β), Lawful op → ComputesPrefix op) ∧
    (∀ (β : Type v) [AddMonoid β], Lawful (sumScan β)) ∧
    (∀ (β : Type v) [Monoid β], Lawful (prodScan β)) ∧
    (∀ (β : Type v) (V : Type w) [LinearOrder V] [Scalar β V] (lowest : β),
      Lowest lowest → Lawful (maxScan lowest)) ∧
    ∀ (β : Type v) (V : Type w) [LinearOrder V] [Scalar β V] (highest : β),
      Highest highest → Lawful (minScan highest) :=
  ⟨fun _ _ _ hop => hop.computesPrefix, fun β => sumScan_lawful β, fun β => prodScan_lawful β,
    fun _ _ _ _ _ h => maxScan_lawful h, fun _ _ _ _ _ h => minScan_lawful h⟩

/-- The largest element of a row with two NaN so far. -/
theorem scan_prefix_row :
    ∃ m' : Memory (Option Nat) (Option Nat),
      ScanRun (maxScan (some 0)) ⟨4, by decide⟩ 0 16
        (fun i => ([some 1, none, some 2, none] : List (Option Nat)).getD i none) 1 4 1
        (fun _ => some 0) (choose (maxScan (some (0 : Nat))) true (route 1 4 1 true) 1 4 1 2 0)
        ⟨fun _ => some 0, fun _ => 0, fun _ => some 0⟩ m' ∧
      m'.out 2 = none ∧ m'.idx 2 = 1 ∧ m'.out 3 = none ∧ m'.idx 3 = 3 := by
  have hlow : Lowest (some 0 : Option Nat) := ⟨0, rfl, fun _ x _ => Nat.zero_le x⟩
  obtain ⟨hcomputes, -, -, hmax, -⟩ := scan_prefix.{0, 0, 0}
  have hlawful := hmax (Option Nat) Nat (some 0) hlow
  obtain ⟨⟨m', hrun⟩, hleaves, -, -⟩ := hcomputes _ _ _ hlawful true true 2 0 ⟨4, by decide⟩ 0 16
    (fun i => ([some 1, none, some 2, none] : List (Option Nat)).getD i none) 1 4 1
    (fun _ => some 0) ⟨fun _ => some 0, fun _ => 0, fun _ => some 0⟩
    (show 0 < 1 by decide) (show 0 < 4 by decide) (show 0 < 1 by decide)
  obtain ⟨hat, -⟩ := hleaves m' hrun
  obtain ⟨hout2, hidx2⟩ := hat 0 2 0 (by decide) (by decide) (by decide)
  obtain ⟨hout3, hidx3⟩ := hat 0 3 0 (by decide) (by decide) (by decide)
  obtain ⟨k2, -, hk2, heq2⟩ := hidx2 rfl
  obtain ⟨k3, -, hk3, heq3⟩ := hidx3 rfl
  exact ⟨m', hrun, hout2, hk2.trans (congrArg Prod.snd heq2).symm, hout3,
    hk3.trans (congrArg Prod.snd heq3).symm⟩

end TorchMojoBackend.Kernels.Scan
