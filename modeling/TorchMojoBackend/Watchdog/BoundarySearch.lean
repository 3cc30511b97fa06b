/-
  `Watchdog.BoundarySearch`: the search for the end of the completed entries.

  Source: tmb/backend/watchdog.mojo (`_boundary`).

  Entries complete while the search runs, so a query may answer differently from an
  earlier one of the same entry.  Moments are counted by queries: the query `n` is made
  at the moment `n`, and the search returns at the moment of the query it does not make.
-/
import Mathlib.Algebra.Order.Ring.Int
import Mathlib.Data.Int.ConditionallyCompleteOrder
import Mathlib.Order.ConditionallyCompleteLattice.Basic
import TorchMojoBackend.Watchdog.Queue

set_option autoImplicit false

namespace TorchMojoBackend.Watchdog.BoundarySearch

open TorchMojoBackend.Watchdog.Queue (notReady)

/-- Where the search stops, and a driver error other than not-ready. -/
structure Boundary where
  stop : Int
  rc : Int
  deriving DecidableEq, Repr

/-- What the search meets: the event word it loads for an entry before its query `n`, 0 if a
segment moved, and the driver's answer to that query. -/
structure Driver where
  event : Nat → Int → Int
  query : Nat → Int → Int

/-- The result of a search with the queries that it made, as entries and answers, the last one
first. -/
abbrev Result := Boundary × List (Int × Int)

/-- The loop of the binary search after the queries `asked`. -/
def searchLoop (d : Driver) : Nat → Int → Int → List (Int × Int) → Option Result
  | 0, _, _, _ => none
  | fuel + 1, lo, hi, asked =>
    if lo < hi then
      let mid := (lo + hi) / 2
      let ev := d.event asked.length mid
      if ev = 0 then some (⟨lo, 0⟩, asked)
      else
        let rc := d.query asked.length ev
        let asked := (mid, rc) :: asked
        if rc = 0 then searchLoop d fuel (mid + 1) hi asked
        else if rc = notReady then searchLoop d fuel lo mid asked
        else some (⟨lo, rc⟩, asked)
    else some (⟨lo, 0⟩, asked)

/-- `_boundary`; the loop halves `[tail, head)` each time. -/
def boundary (d : Driver) (tail head : Int) : Option Result :=
  let newest := d.event 0 (head - 1)
  if newest = 0 then some (⟨tail, 0⟩, [])
  else
    let rc := d.query 0 newest
    let asked := [(head - 1, rc)]
    if rc = 0 then some (⟨head, 0⟩, asked)
    else if rc ≠ notReady then some (⟨tail, rc⟩, asked)
    else searchLoop d ((head - tail).toNat + 1) tail (head - 1) asked

/-- The entries below `completed n` are complete at the moment `n`, and an answer of the driver
that is not an error says whether the entry is. -/
structure Schedule (d : Driver) (tail head : Int) (completed : Nat → Int) : Prop where
  mono : Monotone completed
  done : ∀ n k, tail ≤ k → k < head → d.event n k ≠ 0 → d.query n (d.event n k) = 0 →
    k < completed n
  pending : ∀ n k, tail ≤ k → k < head → d.event n k ≠ 0 →
    d.query n (d.event n k) = notReady → completed n ≤ k

/-- What a search that returns `stop` after the queries `asked` may rely on. -/
structure Sound (tail head : Int) (completed : Nat → Int) (stop : Int)
    (asked : List (Int × Int)) : Prop where
  ge : tail ≤ stop
  le : stop ≤ head
  complete : ∀ k, tail ≤ k → k < stop → k < completed asked.length
  before : ∀ q ∈ asked, q.2 = notReady → ∀ k, tail ≤ k → k < stop → k < q.1

variable {d : Driver} {tail head : Int} {completed : Nat → Int}

/-- An answer keeps what is known of the entries below `lo`. -/
theorem Sound.ask (hmono : Monotone completed) {lo : Int} {asked : List (Int × Int)}
    (h : Sound tail head completed lo asked) {q : Int × Int}
    (hq : q.2 = notReady → ∀ k, tail ≤ k → k < lo → k < q.1) :
    Sound tail head completed lo (q :: asked) where
  ge := h.ge
  le := h.le
  complete := fun k hk hlt =>
    lt_of_lt_of_le (h.complete k hk hlt) (hmono (Nat.le_succ _))
  before := by
    intro q' hq'
    obtain rfl | hq' := List.mem_cons.mp hq'
    · exact hq
    · exact h.before q' hq'

/-- The invariant of the loop: what is below `lo` was complete at some query, and what a query
saw incomplete is at or above `hi`. -/
theorem searchLoop_sound (hs : Schedule d tail head completed) :
    ∀ {fuel : Nat} {lo hi : Int} {asked : List (Int × Int)},
      Sound tail head completed lo asked → hi < head →
      (∀ q ∈ asked, q.2 = notReady → tail ≤ hi → hi ≤ q.1) → (hi - lo).toNat < fuel →
      ∃ b asked', searchLoop d fuel lo hi asked = some (b, asked') ∧
        Sound tail head completed b.stop asked' := by
  intro fuel
  induction fuel with
  | zero => exact fun _ _ _ hfuel => absurd hfuel (Nat.not_lt_zero _)
  | succ fuel ih =>
      intro lo hi asked h hhi hpending hfuel
      unfold searchLoop
      by_cases hlt : lo < hi
      · rw [if_pos hlt]
        have hmid : lo ≤ (lo + hi) / 2 ∧ (lo + hi) / 2 < hi := by omega
        have hge := h.ge
        generalize (lo + hi) / 2 = mid at hmid
        dsimp only
        by_cases hev : d.event asked.length mid = 0
        · rw [if_pos hev]
          exact ⟨_, _, rfl, h⟩
        · rw [if_neg hev]
          by_cases hdone : d.query asked.length (d.event asked.length mid) = 0
          · rw [if_pos hdone]
            have hcomplete := hs.done _ mid (by omega) (by omega) hev hdone
            refine ih ⟨by omega, by omega, fun k hk hkm => ?_, ?_⟩ hhi ?_ (by omega)
            · -- the entries up to `mid` complete before it does
              exact lt_of_le_of_lt (by omega : k ≤ mid)
                (lt_of_lt_of_le hcomplete (hs.mono (Nat.le_succ _)))
            · intro q hq hnot k hk hkm
              obtain rfl | hq := List.mem_cons.mp hq
              · exact absurd (hdone.symm.trans hnot) (by decide)
              · have := hpending q hq hnot (by omega)
                omega
            · intro q hq hnot htail
              obtain rfl | hq := List.mem_cons.mp hq
              · exact absurd (hdone.symm.trans hnot) (by decide)
              · exact hpending q hq hnot htail
          · rw [if_neg hdone]
            by_cases hnot : d.query asked.length (d.event asked.length mid) = notReady
            · rw [if_pos hnot]
              refine ih (h.ask hs.mono fun _ k _ hkl => ?_) (by omega) ?_ (by omega)
              · simp only
                omega
              · intro q hq hq' _
                obtain rfl | hq := List.mem_cons.mp hq
                · exact le_refl _
                · have := hpending q hq hq' (by omega)
                  omega
            · rw [if_neg hnot]
              exact ⟨_, _, rfl, h.ask hs.mono fun heq => absurd heq hnot⟩
      · rw [if_neg hlt]
        exact ⟨_, _, rfl, h⟩

/-- Whatever completes while it runs, the search returns, and returns an end of complete entries
below every entry that it saw incomplete; it is the head if nothing was pending at first. -/
theorem boundary_sound (d : Driver) (tail head : Int) (completed : Nat → Int)
    (hs : Schedule d tail head completed) (hle : tail ≤ head) :
    ∃ b asked, boundary d tail head = some (b, asked) ∧
      Sound tail head completed b.stop asked ∧
      (head ≤ completed 0 → d.event 0 (head - 1) ≠ 0 →
        (∀ q ∈ asked, q.2 = 0 ∨ q.2 = notReady) → b.stop = head) := by
  have hstart : Sound tail head completed tail [] :=
    ⟨le_refl _, hle, fun k hk hlt => absurd hlt (not_lt.mpr hk), fun q hq => nomatch hq⟩
  unfold boundary
  by_cases hev : d.event 0 (head - 1) = 0
  · rw [if_pos hev]
    exact ⟨_, _, rfl, hstart, fun _ hne => absurd hev hne⟩
  · rw [if_neg hev]
    dsimp only
    by_cases hdone : d.query 0 (d.event 0 (head - 1)) = 0
    · rw [if_pos hdone]
      refine ⟨_, _, rfl, ⟨hle, le_refl _, fun k hk hlt => ?_, ?_⟩, fun _ _ _ => rfl⟩
      · have hlt : k < head := hlt
        have hnewest := hs.done 0 (head - 1) (by omega) (by omega) hev hdone
        exact lt_of_le_of_lt (by omega : k ≤ head - 1)
          (lt_of_lt_of_le hnewest (hs.mono (Nat.zero_le _)))
      · intro q hq hnot
        obtain rfl := List.mem_singleton.mp hq
        exact absurd (hdone.symm.trans hnot) (by decide)
    · rw [if_neg hdone]
      by_cases hnot : d.query 0 (d.event 0 (head - 1)) = notReady
      · rw [if_neg (not_not.mpr hnot)]
        have hasked := hstart.ask hs.mono (q := (head - 1, d.query 0 (d.event 0 (head - 1))))
          fun _ k hk hlt => absurd hlt (not_lt.mpr hk)
        obtain ⟨b, asked, hrun, hsound⟩ := searchLoop_sound hs hasked (by omega : head - 1 < head)
          (fun q hq _ _ => (List.mem_singleton.mp hq) ▸ le_refl _)
          (by omega : (head - 1 - tail).toNat < (head - tail).toNat + 1)
        refine ⟨b, asked, hrun, hsound, fun hall _ _ => ?_⟩
        -- an entry that was complete at first is not seen incomplete
        by_cases hempty : tail = head
        · exact le_antisymm hsound.le (hempty ▸ hsound.ge)
        · have := hs.pending 0 (head - 1) (by omega) (by omega) hev hnot
          omega
      · rw [if_pos hnot]
        refine ⟨_, _, rfl, hstart.ask hs.mono fun heq => absurd heq hnot, fun _ _ hfails => ?_⟩
        obtain hzero | hnot' := hfails _ (List.mem_singleton.mpr rfl)
        · exact absurd hzero hdone
        · exact absurd hnot' hnot

/-- Four entries, the third of which completes between the first query and the second. -/
def lateDriver : Driver where
  event _ k := k + 1
  query n ev := if ev ≤ (if n = 0 then 2 else 3) then 0 else notReady

theorem lateDriver_schedule : Schedule lateDriver 0 4 fun n => if n = 0 then 2 else 3 where
  mono := by
    intro a b hab
    simp only
    split <;> split <;> omega
  done := by
    intro n k _ _ _ h
    by_contra hlt
    have hlt : ¬ k < if n = 0 then 2 else 3 := hlt
    have hle : ¬ k + 1 ≤ if n = 0 then 2 else 3 := by omega
    exact absurd ((if_neg hle).symm.trans h) (show notReady ≠ 0 by decide)
  pending := by
    intro n k _ _ _ h
    by_contra hlt
    have hlt : ¬ (if n = 0 then 2 else 3) ≤ k := hlt
    have hle : k + 1 ≤ if n = 0 then 2 else 3 := by omega
    exact absurd ((if_pos hle).symm.trans h) (show (0 : Int) ≠ notReady by decide)

theorem boundary_sound_late : ∃ b asked, boundary lateDriver 0 4 = some (b, asked) ∧
    Sound 0 4 (fun n => if n = 0 then 2 else 3) b.stop asked ∧
    ((4 : Int) ≤ (if (0 : Nat) = 0 then 2 else 3) → lateDriver.event 0 (4 - 1) ≠ 0 →
      (∀ q ∈ asked, q.2 = 0 ∨ q.2 = notReady) → b.stop = 4) :=
  boundary_sound lateDriver 0 4 _ lateDriver_schedule (by decide)

end TorchMojoBackend.Watchdog.BoundarySearch
