/-
  `Foundation.ScanNetwork`: networks that merge prefixes.

  Everything in this file is independent of the modelled program.  An associative merge
  of the values at consecutive positions does not depend on the order of its steps.
  Networks of doubling offsets give each position the merge of the positions of its
  segment up to it, and so does a network that doubles aligned blocks.
-/
import Mathlib.Algebra.Order.Group.Nat
import Mathlib.Tactic.Ring
import TorchMojoBackend.Foundation.Launch

set_option autoImplicit false

namespace TorchMojoBackend.Foundation

universe u

variable {M : Type u} (mul : M → M → M)

/-! ## Merges -/

/-- The values at `lo`, ..., `lo + n`, merged from left to right. -/
def fold1 (f : Nat → M) (lo : Nat) : Nat → M
  | 0 => f lo
  | n + 1 => mul (fold1 f lo n) (f (lo + n + 1))

/-- A seed and the first values. -/
def seeded (e : M) (f : Nat → M) : Nat → M
  | 0 => e
  | n + 1 => mul e (fold1 mul f 0 n)

/-- An offset that is doubled up to a limit. -/
def doubling (step : Nat → (Nat → M) → Nat → M) (limit : Nat) : Nat → Nat → (Nat → M) → Nat → M
  | 0, _, v => v
  | fuel + 1, off, v =>
    if off < limit then doubling step limit fuel (off * 2) (step off v) else v

/-- Positions at or above the offset in their segment merge the one that far before. -/
def offsetStep (pos : Nat → Nat) (off : Nat) (v : Nat → M) (tid : Nat) : M :=
  if pos tid ≥ off then mul (v (tid - off)) (v tid) else v tid

variable {mul}

theorem fold1_congr {f g : Nat → M} {lo n : Nat} (h : ∀ i, lo ≤ i → i ≤ lo + n → f i = g i) :
    fold1 mul f lo n = fold1 mul g lo n := by
  induction n with
  | zero => exact h lo (Nat.le_refl _) (Nat.le_refl _)
  | succ n ih =>
      unfold fold1
      rw [ih fun i hlo hhi => h i hlo (Nat.le_succ_of_le hhi),
        h (lo + n + 1) (by omega) (Nat.le_refl _)]

theorem fold1_shift (f : Nat → M) (lo n : Nat) :
    fold1 mul (fun i => f (lo + i)) 0 n = fold1 mul f lo n := by
  induction n with
  | zero => rfl
  | succ n ih =>
      unfold fold1
      rw [ih, Nat.zero_add, Nat.add_assoc]

section
variable (hassoc : ∀ a b c, mul (mul a b) c = mul a (mul b c))
include hassoc

/-- Adjacent runs. -/
theorem fold1_append (f : Nat → M) (lo m n : Nat) :
    mul (fold1 mul f lo m) (fold1 mul f (lo + m + 1) n) = fold1 mul f lo (m + n + 1) := by
  induction n with
  | zero => rfl
  | succ n ih =>
      calc mul (fold1 mul f lo m) (fold1 mul f (lo + m + 1) (n + 1))
        _ = mul (mul (fold1 mul f lo m) (fold1 mul f (lo + m + 1) n)) (f (lo + m + 1 + n + 1)) :=
          (hassoc _ _ _).symm
        _ = mul (fold1 mul f lo (m + n + 1)) (f (lo + (m + n + 1) + 1)) := by
          rw [ih, show lo + m + 1 + n + 1 = lo + (m + n + 1) + 1 by omega]
        _ = fold1 mul f lo (m + (n + 1) + 1) := rfl

/-- A value merged in front. -/
theorem fold1_front (a : M) (f : Nat → M) (n : Nat) :
    mul a (fold1 mul f 0 n) = fold1 mul (fun i => if i = 0 then mul a (f 0) else f i) 0 n := by
  induction n with
  | zero => rfl
  | succ n ih =>
      unfold fold1
      rw [← hassoc, ih, if_neg (Nat.succ_ne_zero _)]

/-- A seed in front of a prefix. -/
theorem seeded_append (e : M) (f : Nat → M) (k n : Nat) :
    mul (seeded mul e f k) (fold1 mul f k n) = seeded mul e f (k + n + 1) := by
  cases k with
  | zero => rw [Nat.zero_add]; rfl
  | succ k =>
      have happend := fold1_append hassoc f 0 k n
      rw [Nat.zero_add] at happend
      calc mul (mul e (fold1 mul f 0 k)) (fold1 mul f (k + 1) n)
        _ = mul e (mul (fold1 mul f 0 k) (fold1 mul f (k + 1) n)) := hassoc _ _ _
        _ = mul e (fold1 mul f 0 (k + 1 + n)) := by rw [happend, Nat.add_right_comm]

/-- Runs of runs. -/
theorem fold1_runs (f : Nat → M) (width n : Nat) :
    fold1 mul (fun j => fold1 mul f (j * (width + 1)) width) 0 n =
      fold1 mul f 0 (n * (width + 1) + width) := by
  induction n with
  | zero => rw [Nat.zero_mul, Nat.zero_add]; exact congrArg (fold1 mul f · width) (Nat.zero_mul _)
  | succ n ih =>
      have hlen : (n + 1) * (width + 1) + width = n * (width + 1) + width + width + 1 := by
        rw [Nat.succ_mul]
        omega
      have hlo : (n + 1) * (width + 1) = 0 + (n * (width + 1) + width) + 1 := by
        rw [Nat.succ_mul]
        omega
      rw [hlen, ← fold1_append hassoc, ← ih, ← hlo]
      change mul _ (fold1 mul f ((0 + n + 1) * (width + 1)) width) = _
      rw [Nat.zero_add]

/-! ## Doubling offsets -/

/-- After the offsets below a power of two each position holds the merge of that many positions of
its segment. -/
theorem doubling_spec {pos : Nat → Nat} (hpos : ∀ tid, pos tid ≤ tid)
    (hsub : ∀ tid off, off ≤ pos tid → pos (tid - off) = pos tid - off) {limit fuel k : Nat}
    (f v : Nat → M) (hv : ∀ tid, v tid =
      fold1 mul f (tid - min (pos tid) (2 ^ k - 1)) (min (pos tid) (2 ^ k - 1)))
    (hfuel : limit ≤ 2 ^ (k + fuel)) {tid : Nat} (htid : pos tid < limit) :
    doubling (offsetStep mul pos) limit fuel (2 ^ k) v tid =
      fold1 mul f (tid - pos tid) (pos tid) := by
  induction fuel generalizing k v with
  | zero =>
      rw [Nat.add_zero] at hfuel
      unfold doubling
      rw [hv, Nat.min_eq_left (by omega)]
  | succ fuel ih =>
      have hk : 0 < 2 ^ k := Nat.pow_pos (by decide)
      unfold doubling
      split
      · have hnext : limit ≤ 2 ^ (k + 1 + fuel) := by
          rw [Nat.add_assoc, Nat.add_comm 1]
          exact hfuel
        rw [← Nat.pow_succ]
        refine ih (offsetStep mul pos (2 ^ k) v) (fun t => ?_) hnext
        have hle := hpos t
        have hdouble : 2 ^ (k + 1) = 2 ^ k + 2 ^ k := by rw [Nat.pow_succ, Nat.mul_two]
        unfold offsetStep
        split
        · rename_i hoff
          rw [hv (t - 2 ^ k), hv t, hsub t (2 ^ k) hoff, hdouble,
            Nat.min_eq_right (show 2 ^ k - 1 ≤ pos t by omega)]
          -- the run before ends where this one starts
          have hstart : t - (2 ^ k - 1) =
              t - 2 ^ k - min (pos t - 2 ^ k) (2 ^ k - 1) +
                min (pos t - 2 ^ k) (2 ^ k - 1) + 1 := by omega
          rw [hstart, fold1_append hassoc]
          congr 1 <;> omega
        · rename_i hoff
          rw [hv t]
          congr 1 <;> omega
      · rename_i hlimit
        rw [hv, Nat.min_eq_left (by omega)]

/-- The doubling offsets of a block or of its warps. -/
theorem doubling_at {pos : Nat → Nat} (hpos : ∀ tid, pos tid ≤ tid)
    (hsub : ∀ tid off, off ≤ pos tid → pos (tid - off) = pos tid - off) {limit fuel : Nat}
    (f : Nat → M) (hfuel : limit ≤ 2 ^ fuel) {tid : Nat} (htid : pos tid < limit) :
    doubling (offsetStep mul pos) limit fuel 1 f tid = fold1 mul f (tid - pos tid) (pos tid) := by
  refine doubling_spec hassoc hpos hsub (k := 0) f f (fun t => ?_) ?_ htid
  · rw [Nat.pow_zero, Nat.sub_self, Nat.min_zero]
    rfl
  · rw [Nat.zero_add]
    exact hfuel

/-- The offsets of a block. -/
theorem doubling_block {limit fuel : Nat} (f : Nat → M) (hfuel : limit ≤ 2 ^ fuel) {tid : Nat}
    (htid : tid < limit) : doubling (offsetStep mul id) limit fuel 1 f tid = fold1 mul f 0 tid := by
  have h := @doubling_at M mul hassoc id (fun _ => Nat.le_refl _) (fun _ _ _ => rfl) limit fuel
    f hfuel tid htid
  rw [id_eq, Nat.sub_self] at h
  exact h

/-- The offsets of the warps of a block. -/
theorem doubling_warp {width fuel : Nat} (hwidth : 0 < width) (f : Nat → M)
    (hfuel : width ≤ 2 ^ fuel) (tid : Nat) :
    doubling (offsetStep mul (· % width)) width fuel 1 f tid =
      fold1 mul f (tid / width * width) (tid % width) := by
  have hsub : ∀ t off, off ≤ t % width → (t - off) % width = t % width - off := by
    intro t off hoff
    have hsplit := Nat.div_add_mod' t width
    have hmod := Nat.mod_lt t hwidth
    have hlast : t - off = width * (t / width) + (t % width - off) := by
      rw [Nat.mul_comm]
      omega
    rw [hlast, Nat.mul_add_mod, Nat.mod_eq_of_lt (by omega)]
  have hstart : tid - tid % width = tid / width * width := by
    have := Nat.div_add_mod' tid width
    omega
  have h := @doubling_at M mul hassoc (· % width) (fun t => Nat.mod_le t width) hsub width fuel
    f hfuel tid (Nat.mod_lt _ hwidth)
  rw [hstart] at h
  exact h

end

/-! ## Doubling blocks -/

/-- The position that thread `t` of step `m` updates: the `m`-th bit of it is set. -/
def blockTarget (m t : Nat) : Nat := t / 2 ^ m * 2 ^ (m + 1) + 2 ^ m + t % 2 ^ m

/-- The last position of the block before. -/
def blockSource (m t : Nat) : Nat := t / 2 ^ m * 2 ^ (m + 1) + 2 ^ m - 1

variable (mul) in
/-- The updates of a step, read before they are made. -/
def blockStep (threads m : Nat) (v : Nat → M) : Nat → M :=
  storeAll ((List.range threads).map fun t =>
    (blockTarget m t, mul (v (blockSource m t)) (v (blockTarget m t)))) v

variable (mul) in
/-- The first `steps` steps. -/
def blockSteps (threads : Nat) : Nat → (Nat → M) → Nat → M
  | 0, v => v
  | m + 1, v => blockStep mul threads m (blockSteps threads m v)

theorem blockTarget_spec (m t : Nat) : blockTarget m t / 2 ^ m = 2 * (t / 2 ^ m) + 1 ∧
    blockTarget m t % 2 ^ m = t % 2 ^ m ∧
    blockSource m t + 1 + blockTarget m t % 2 ^ m = blockTarget m t := by
  have hpos : 0 < 2 ^ m := Nat.pow_pos (by decide)
  have hmod := Nat.mod_lt t hpos
  have heq : blockTarget m t = 2 ^ m * (2 * (t / 2 ^ m) + 1) + t % 2 ^ m := by
    unfold blockTarget
    rw [Nat.pow_succ]
    ring
  have hdiv : blockTarget m t % 2 ^ m = t % 2 ^ m := by
    rw [heq, Nat.mul_add_mod, Nat.mod_mod]
  refine ⟨?_, hdiv, ?_⟩
  · rw [heq, Nat.mul_add_div hpos, Nat.div_eq_of_lt hmod, Nat.add_zero]
  · rw [hdiv]
    unfold blockSource blockTarget
    omega

/-- No thread updates what another one updates or reads. -/
theorem blockTarget_inj {m t t' : Nat} (h : blockTarget m t = blockTarget m t') : t = t' := by
  obtain ⟨hdiv, hmod, -⟩ := blockTarget_spec m t
  obtain ⟨hdiv', hmod', -⟩ := blockTarget_spec m t'
  rw [← Nat.div_add_mod' t (2 ^ m), ← Nat.div_add_mod' t' (2 ^ m)]
  rw [h] at hdiv hmod
  rw [← hmod, ← hmod', show t / 2 ^ m = t' / 2 ^ m by omega]

/-- A position whose bit is set is one of the threads'. -/
theorem exists_blockTarget {m p : Nat} (hp : p / 2 ^ m % 2 = 1) :
    ∃ t, blockTarget m t = p ∧ 2 * t < p + 1 := by
  have hpos : 0 < 2 ^ m := Nat.pow_pos (by decide)
  have hmod := Nat.mod_lt p hpos
  have hp2 : p / 2 ^ m = 2 * (p / 2 ^ m / 2) + 1 := by omega
  have hsplit := Nat.div_add_mod p (2 ^ m)
  refine ⟨p / 2 ^ m / 2 * 2 ^ m + p % 2 ^ m, ?_, ?_⟩
  · have hdiv : (p / 2 ^ m / 2 * 2 ^ m + p % 2 ^ m) / 2 ^ m = p / 2 ^ m / 2 := by
      rw [Nat.mul_comm, Nat.mul_add_div hpos, Nat.div_eq_of_lt hmod, Nat.add_zero]
    have hrest : (p / 2 ^ m / 2 * 2 ^ m + p % 2 ^ m) % 2 ^ m = p % 2 ^ m := by
      rw [Nat.mul_comm, Nat.mul_add_mod, Nat.mod_mod]
    unfold blockTarget
    rw [hdiv, hrest, Nat.pow_succ]
    conv_rhs => rw [← hsplit, hp2]
    ring
  · conv_rhs => rw [← hsplit, hp2]
    have hring : 2 ^ m * (2 * (p / 2 ^ m / 2) + 1) = 2 * (p / 2 ^ m / 2 * 2 ^ m) + 2 ^ m := by ring
    rw [hring]
    omega

/-- What a step leaves: positions whose bit is set merge the block before. -/
theorem blockStep_at {threads m p : Nat} (v : Nat → M) (hp : p < 2 * threads) :
    blockStep mul threads m v p =
      if p / 2 ^ m % 2 = 1 then mul (v (p / 2 ^ m * 2 ^ m - 1)) (v p) else v p := by
  have hstores := Stores.inOrder ((List.range threads).map fun t =>
    (blockTarget m t, mul (v (blockSource m t)) (v (blockTarget m t)))) v
  have hpos : 0 < 2 ^ m := Nat.pow_pos (by decide)
  split
  · rename_i hbit
    obtain ⟨t, rfl, ht⟩ := exists_blockTarget hbit
    have hat := hstores.map_at (fun i _ j _ h => blockTarget_inj h)
      (List.mem_range.mpr (show t < threads by omega))
    refine hat.trans (congrArg (mul · _) (congrArg v ?_))
    obtain ⟨-, -, hsum⟩ := blockTarget_spec m t
    have hsplit := Nat.div_add_mod' (blockTarget m t) (2 ^ m)
    omega
  · rename_i hbit
    refine hstores.map_off fun t _ h => hbit ?_
    rw [← h, (blockTarget_spec m t).1]
    omega

/-- After `steps` steps a position holds the merge of its block up to it. -/
theorem blockSteps_prefix (hassoc : ∀ a b c, mul (mul a b) c = mul a (mul b c)) {threads : Nat}
    (f : Nat → M) (steps : Nat) {p : Nat} (hp : p < 2 * threads) :
    blockSteps mul threads steps f p = fold1 mul f (p / 2 ^ steps * 2 ^ steps) (p % 2 ^ steps) := by
  induction steps generalizing p with
  | zero =>
      rw [Nat.pow_zero, Nat.div_one, Nat.mul_one, Nat.mod_one]
      rfl
  | succ m ih =>
      have hpos : 0 < 2 ^ m := Nat.pow_pos (by decide)
      have hsplit := Nat.div_add_mod' p (2 ^ m)
      have hmod := Nat.mod_lt p hpos
      have hup : p / 2 ^ (m + 1) = p / 2 ^ m / 2 := by rw [Nat.div_div_eq_div_mul, Nat.pow_succ]
      have hdouble : 2 ^ (m + 1) = 2 ^ m * 2 := Nat.pow_succ ..
      have hsplit' := Nat.div_add_mod' p (2 ^ (m + 1))
      unfold blockSteps
      rw [blockStep_at _ hp]
      split
      · rename_i hbit
        have hq : p / 2 ^ m = 2 * (p / 2 ^ m / 2) + 1 := by omega
        have hbase : p / 2 ^ m * 2 ^ m = p / 2 ^ m / 2 * 2 ^ (m + 1) + 2 ^ m := by
          conv_lhs => rw [hq]
          rw [hdouble]
          ring
        have hlast : (p / 2 ^ m * 2 ^ m - 1) / 2 ^ m = 2 * (p / 2 ^ m / 2) ∧
            (p / 2 ^ m * 2 ^ m - 1) % 2 ^ m = 2 ^ m - 1 := by
          have hform : p / 2 ^ m * 2 ^ m - 1 = 2 ^ m * (2 * (p / 2 ^ m / 2)) + (2 ^ m - 1) := by
            rw [hbase, hdouble, show p / 2 ^ m / 2 * (2 ^ m * 2) = 2 ^ m * (2 * (p / 2 ^ m / 2)) by ring]
            omega
          have hlt : 2 ^ m - 1 < 2 ^ m := by omega
          rw [hform, Nat.mul_add_div hpos, Nat.div_eq_of_lt hlt, Nat.mul_add_mod,
            Nat.mod_eq_of_lt hlt, Nat.add_zero]
          exact ⟨rfl, rfl⟩
        rw [ih (by omega), ih hp, hlast.1, hlast.2, hup]
        have hlo : 2 * (p / 2 ^ m / 2) * 2 ^ m = p / 2 ^ m / 2 * 2 ^ (m + 1) := by
          rw [hdouble]
          ring
        rw [hlo, hbase, show p / 2 ^ m / 2 * 2 ^ (m + 1) + 2 ^ m =
          p / 2 ^ m / 2 * 2 ^ (m + 1) + (2 ^ m - 1) + 1 by omega, fold1_append hassoc]
        congr 1
        rw [hup] at hsplit'
        omega
      · rename_i hbit
        have hq : p / 2 ^ m = 2 * (p / 2 ^ m / 2) := by omega
        have hbase : p / 2 ^ m * 2 ^ m = p / 2 ^ m / 2 * 2 ^ (m + 1) := by
          conv_lhs => rw [hq]
          rw [hdouble]
          ring
        rw [ih hp, hup, hbase]
        congr 1
        rw [hup] at hsplit'
        omega

end TorchMojoBackend.Foundation
