/-
  `Ccl.ProxyCpu`: the default CPU of a rank's progress thread.

  Source: tmb/ccl/proxy.mojo (`_cpu_in_mask`, `_mask_cpus_desc`, `_smt_sibling_free`,
  `_default_proxy_cpu`).

  The ranks of a node see one affinity mask and one sibling relation.  A rank keeps the
  CPU at its number if its sibling is not reserved, and else takes the one at its number
  from the list with such CPUs moved to the front.
-/
import Mathlib.Algebra.Order.Ring.Int
import Mathlib.Data.List.GetD
import TorchMojoBackend.Foundation.Reorder

set_option autoImplicit false

namespace TorchMojoBackend.Ccl.ProxyCpu

open TorchMojoBackend.Foundation

def CPU_SET_BYTES : Nat := 128

/-- `_cpu_in_mask`. -/
def cpuInMask (mask : Nat → Nat) (cpu : Int) : Bool :=
  if cpu < 0 ∨ cpu / 8 ≥ CPU_SET_BYTES then false
  else decide (mask (cpu / 8).toNat >>> (cpu % 8).toNat % 2 ≠ 0)

/-- `_mask_cpus_desc`. -/
def maskCpusDesc (mask : Nat → Nat) : List Int :=
  ((List.range (CPU_SET_BYTES * 8)).reverse.map fun cpu : Nat => (cpu : Int)).filter
    (cpuInMask mask)

/-- The files of sibling CPUs: the ranges of the parts that parse, or none if the file cannot be
read. -/
abbrev Siblings := Int → Option (List (Int × Int))

/-- A range names the CPU. -/
def inRange (r : Int × Int) (cpu : Int) : Bool := decide (r.1 ≤ cpu) && decide (cpu ≤ r.2)

/-- `_smt_sibling_free`: no other CPU of a range is reserved. -/
def smtSiblingFree (siblings : Siblings) (reserved : List Int) (cpu : Int) : Bool :=
  match siblings cpu with
  | none => true
  | some ranges => ranges.all fun r => reserved.all fun sib => sib == cpu || !inRange r sib

/-- `_default_proxy_cpu`; `affinity` is what `sched_getaffinity` fills in, none if it fails. -/
def defaultProxyCpu (affinity : Option (Nat → Nat)) (siblings : Siblings)
    (localRank localWorld : Int) : Int :=
  if localWorld < 1 ∨ localRank < 0 ∨ localRank ≥ localWorld then -1
  else
    match affinity with
    | none => -1
    | some mask =>
      let desc := maskCpusDesc mask
      if desc.length < 2 * localWorld then -1
      else
        let naive := desc.getD localRank.toNat 0
        let reserved := desc.take localWorld.toNat
        if smtSiblingFree siblings reserved naive then naive
        else
          let ordered := desc.filter (smtSiblingFree siblings reserved)
          let dirty := desc.filter fun cpu => !smtSiblingFree siblings reserved cpu
          (ordered ++ dirty).getD localRank.toNat 0

/-- CPUs are siblings of each other. -/
def Siblings.Symmetric (siblings : Siblings) : Prop :=
  ∀ a b ranges, siblings a = some ranges → (∃ r ∈ ranges, inRange r b = true) →
    ∃ ranges', siblings b = some ranges' ∧ ∃ r ∈ ranges', inRange r a = true

/-- Ranks that get CPUs get different ones. -/
def Injective (affinity : Option (Nat → Nat)) (siblings : Siblings) (localWorld : Int) : Prop :=
  ∀ r1 r2, 0 ≤ r1 → r1 < localWorld → 0 ≤ r2 → r2 < localWorld → r1 ≠ r2 →
    defaultProxyCpu affinity siblings r1 localWorld ≠ -1 →
    defaultProxyCpu affinity siblings r2 localWorld ≠ -1 →
    defaultProxyCpu affinity siblings r1 localWorld ≠
      defaultProxyCpu affinity siblings r2 localWorld

/-- Of the reserved CPUs, those whose siblings are free come first. -/
def FreeFirst (siblings : Siblings) (desc : List Int) (localWorld : Nat) : Prop :=
  ∀ i j, i < j → j < localWorld →
    smtSiblingFree siblings (desc.take localWorld) (desc.getD j 0) = true →
    smtSiblingFree siblings (desc.take localWorld) (desc.getD i 0) = true

/-- The CPUs of a mask are different and are not negative. -/
theorem nodup_maskCpusDesc (mask : Nat → Nat) : (maskCpusDesc mask).Nodup := by
  refine List.Nodup.filter _ ((List.nodup_reverse.mpr List.nodup_range).map ?_)
  exact fun a b h => Int.ofNat_inj.mp h

theorem maskCpusDesc_nonneg {mask : Nat → Nat} {cpu : Int} (h : cpu ∈ maskCpusDesc mask) :
    0 ≤ cpu := by
  obtain ⟨n, -, rfl⟩ := List.mem_map.mp (List.mem_filter.mp h).1
  exact Int.natCast_nonneg n

section
variable {siblings : Siblings} {mask : Nat → Nat} {localWorld : Nat}

/-- With room for it, a rank takes as a taker of the list does. -/
theorem defaultProxyCpu_eq (hroom : 2 * localWorld ≤ (maskCpusDesc mask).length) {r : Nat}
    (hr : r < localWorld) :
    taken (smtSiblingFree siblings ((maskCpusDesc mask).take localWorld)) (maskCpusDesc mask) r =
      some (defaultProxyCpu (some mask) siblings r localWorld) := by
  have hlen : r < (maskCpusDesc mask).length := by omega
  unfold defaultProxyCpu
  rw [if_neg (by omega)]
  dsimp only
  rw [if_neg (by omega), Int.toNat_natCast, Int.toNat_natCast, List.getD_eq_getElem _ _ hlen]
  split
  · rename_i hfree
    exact taken_pos hlen hfree
  · rename_i hdirty
    rw [taken_neg hlen hdirty]
    have hperm := front_perm (smtSiblingFree siblings ((maskCpusDesc mask).take localWorld))
      (maskCpusDesc mask)
    rw [List.getElem?_eq_getElem (by rw [hperm.length_eq]; exact hlen)]
    exact congrArg some (List.getD_eq_getElem _ _ _).symm

/-- What a rank takes is a CPU. -/
theorem defaultProxyCpu_ne (hroom : 2 * localWorld ≤ (maskCpusDesc mask).length) {r : Nat}
    (hr : r < localWorld) : defaultProxyCpu (some mask) siblings r localWorld ≠ -1 := by
  have hmem : defaultProxyCpu (some mask) siblings r localWorld ∈ maskCpusDesc mask := by
    have heq : taken (smtSiblingFree siblings ((maskCpusDesc mask).take localWorld))
        (maskCpusDesc mask) r = some (defaultProxyCpu (some mask) siblings r localWorld) :=
      defaultProxyCpu_eq hroom hr
    rw [taken, Option.bind_eq_some_iff] at heq
    obtain ⟨cpu, hcpu, heq⟩ := heq
    split at heq
    · exact Option.some_inj.mp heq ▸ List.mem_of_getElem? hcpu
    · exact (front_perm _ _).mem_iff.mp (List.mem_of_getElem? heq)
  have := maskCpusDesc_nonneg hmem
  omega

end

/-- The ranks get different CPUs just if the takers do. -/
theorem injective_iff_taken {siblings : Siblings} {mask : Nat → Nat} {localWorld : Nat}
    (hroom : 2 * localWorld ≤ (maskCpusDesc mask).length) :
    Injective (some mask) siblings localWorld ↔ ∀ i j, i < localWorld → j < localWorld → i ≠ j →
      taken (smtSiblingFree siblings ((maskCpusDesc mask).take localWorld)) (maskCpusDesc mask) i ≠
        taken (smtSiblingFree siblings ((maskCpusDesc mask).take localWorld)) (maskCpusDesc mask)
          j := by
  constructor
  · intro hinj i j hi hj hne heq
    rw [defaultProxyCpu_eq hroom hi, defaultProxyCpu_eq hroom hj] at heq
    exact hinj i j (by omega) (by omega) (by omega) (by omega) (by omega)
      (defaultProxyCpu_ne hroom hi) (defaultProxyCpu_ne hroom hj) (Option.some_inj.mp heq)
  · intro htaken r1 r2 h1 hlt1 h2 hlt2 hne _ _ heq
    obtain ⟨i, rfl⟩ := Int.eq_ofNat_of_zero_le h1
    obtain ⟨j, rfl⟩ := Int.eq_ofNat_of_zero_le h2
    have hi : i < localWorld := by omega
    have hj : j < localWorld := by omega
    refine htaken i j hi hj (by omega) ?_
    rw [defaultProxyCpu_eq hroom hi, defaultProxyCpu_eq hroom hj, heq]

/-- Two ranks of a node are not pinned to one CPU just if the mask is too small to pin, or the
reserved CPUs whose siblings are free come first in it. -/
theorem defaultProxyCpu_injective_iff (affinity : Option (Nat → Nat)) (siblings : Siblings)
    (localWorld : Int) : Injective affinity siblings localWorld ↔
      ∀ mask, affinity = some mask → 2 * localWorld ≤ (maskCpusDesc mask).length →
        FreeFirst siblings (maskCpusDesc mask) localWorld.toNat := by
  have hunpinned : (∀ r, 0 ≤ r → r < localWorld →
      defaultProxyCpu affinity siblings r localWorld = -1) →
      Injective affinity siblings localWorld := by
    intro hnone r1 r2 h1 hlt1 _ _ _ hne _
    exact absurd (hnone r1 h1 hlt1) hne
  cases affinity with
  | none =>
      refine iff_of_true (hunpinned fun r h0 hlt => ?_) fun mask h => nomatch h
      exact if_neg (by omega)
  | some mask =>
      by_cases hroom : 2 * localWorld ≤ (maskCpusDesc mask).length
      · by_cases hpos : 0 ≤ localWorld
        · obtain ⟨n, rfl⟩ := Int.eq_ofNat_of_zero_le hpos
          have hroom' : 2 * n ≤ (maskCpusDesc mask).length := by omega
          have hle : n ≤ (maskCpusDesc mask).length := by omega
          rw [injective_iff_taken hroom', taken_injective_iff (nodup_maskCpusDesc mask) hle]
          constructor
          · rintro hfirst _ ⟨rfl⟩ _ i j hij hj hfree
            rw [Int.toNat_natCast] at hj hfree ⊢
            rw [List.getD_eq_getElem _ _ (by omega)] at hfree ⊢
            exact hfirst i j hij hj hfree
          · intro hfirst i j hij hj hfree
            have h := hfirst mask rfl hroom i j hij hj
            rw [Int.toNat_natCast, List.getD_eq_getElem _ _ (by omega),
              List.getD_eq_getElem _ _ (by omega)] at h
            exact h hfree
        · refine iff_of_true (hunpinned fun r h0 hlt => absurd (Int.lt_of_le_of_lt h0 hlt) (by omega)) ?_
          rintro _ - - i j - hj
          exact absurd hj (by omega)
      · refine iff_of_true (hunpinned fun r h0 hlt => ?_) ?_
        · unfold defaultProxyCpu
          rw [if_neg (by omega)]
          exact if_pos (by omega)
        · rintro _ ⟨rfl⟩ h
          exact absurd h hroom

/-! ## Two ranks on one CPU -/

/-- Eight CPUs. -/
def eightCpus : Nat → Nat := fun byte => if byte = 0 then 255 else 0

/-- The siblings are 7 and 6, 5 and 1, 4 and 0, and 3 and 2. -/
def pairedSiblings : Siblings := fun cpu =>
  if cpu = 7 ∨ cpu = 6 then some [(6, 7)]
  else if cpu = 5 ∨ cpu = 1 then some [(1, 1), (5, 5)]
  else if cpu = 4 ∨ cpu = 0 then some [(0, 0), (4, 4)]
  else if cpu = 3 ∨ cpu = 2 then some [(2, 3)]
  else none

theorem maskCpusDesc_eightCpus : maskCpusDesc eightCpus = [7, 6, 5, 4, 3, 2, 1, 0] := by
  have hrange : List.range (CPU_SET_BYTES * 8) = List.range 8 ++ (List.range 1016).map (8 + ·) := by
    rw [show CPU_SET_BYTES * 8 = 8 + 1016 from rfl, List.range_add]
  have hrest : (((List.range 1016).map (8 + ·)).reverse.map fun cpu : Nat => (cpu : Int)).filter
      (cpuInMask eightCpus) = [] := by
    refine List.filter_eq_nil_iff.mpr fun cpu hcpu => ?_
    obtain ⟨n, hn, rfl⟩ := List.mem_map.mp hcpu
    obtain ⟨m, -, rfl⟩ := List.mem_map.mp (List.mem_reverse.mp hn)
    have hbyte : ¬ (((8 + m : Nat) : Int) / 8).toNat = 0 := by omega
    unfold cpuInMask eightCpus
    rw [if_neg hbyte]
    simp
  rw [maskCpusDesc, hrange, List.reverse_append, List.map_append, List.filter_append, hrest]
  decide

theorem pairedSiblings_symmetric : pairedSiblings.Symmetric := by
  rintro a b ranges ha ⟨r, hr, hin⟩
  simp only [inRange, Bool.and_eq_true, decide_eq_true_eq] at hin ⊢
  unfold pairedSiblings at ha
  split at ha
  · cases ha
    rw [List.mem_singleton.mp hr] at hin
    refine ⟨[(6, 7)], if_pos (by omega), (6, 7), List.mem_singleton.mpr rfl, by omega⟩
  split at ha
  · cases ha
    have hb : b = 5 ∨ b = 1 := by
      rcases List.mem_pair.mp hr with rfl | rfl <;> omega
    refine ⟨[(1, 1), (5, 5)], ?_, (a, a), ?_, by omega⟩
    · unfold pairedSiblings
      rw [if_neg (by omega), if_pos hb]
    · rename_i ha
      rcases ha with rfl | rfl <;> decide
  split at ha
  · cases ha
    have hb : b = 4 ∨ b = 0 := by
      rcases List.mem_pair.mp hr with rfl | rfl <;> omega
    refine ⟨[(0, 0), (4, 4)], ?_, (a, a), ?_, by omega⟩
    · unfold pairedSiblings
      rw [if_neg (by omega), if_neg (by omega), if_pos hb]
    · rename_i ha
      rcases ha with rfl | rfl <;> decide
  split at ha
  · cases ha
    rw [List.mem_singleton.mp hr] at hin
    refine ⟨[(2, 3)], ?_, (2, 3), List.mem_singleton.mpr rfl, by omega⟩
    unfold pairedSiblings
    rw [if_neg (by omega), if_neg (by omega), if_neg (by omega), if_pos (by omega)]
  · exact nomatch ha

/-- Of three ranks, the first one's CPU has a reserved sibling; it takes the CPU that the last
one keeps. -/
theorem proxies_share_cpu : pairedSiblings.Symmetric ∧
    defaultProxyCpu (some eightCpus) pairedSiblings 0 3 = 5 ∧
    defaultProxyCpu (some eightCpus) pairedSiblings 2 3 = 5 := by
  refine ⟨pairedSiblings_symmetric, ?_, ?_⟩
  · simp only [defaultProxyCpu, maskCpusDesc_eightCpus]
    decide
  · simp only [defaultProxyCpu, maskCpusDesc_eightCpus]
    decide

end TorchMojoBackend.Ccl.ProxyCpu
