/-
  `Distributed.Desync`: what the desync report says of the other ranks.

  A rank whose watchdog fired compares its report with those of the other ranks.
  Only waits in entries of compared collectives compare, by the positions they span
  and the fingerprint of their calls; entries that overlap without being the same
  were grouped differently.  Ranks that made the same compared calls are so never
  told to be at the same position with different arguments, however they grouped
  them and whatever point-to-point calls came between.
-/
import TorchMojoBackend.Watchdog.Positions

set_option autoImplicit false

namespace TorchMojoBackend.Distributed

open TorchMojoBackend.Foundation TorchMojoBackend.Watchdog TorchMojoBackend.Watchdog.Groups

/-! ## The report -/

/-- Where a report waits: the `where` of its line. -/
inductive Wait where
  | device
  | host
  | error
  | async
  deriving DecidableEq

/-- A report as `_parse_report` reads it; `tid` is the communicator, -1 for a call
blocked on the host. -/
structure Report where
  tid : Int
  seq : Nat
  cpos : Nat
  op : Op
  nops : Nat
  fp : Nat
  wait : Wait
  deriving DecidableEq

/-- `_line` of an entry in flight, as the watchdog's queue keeps it. -/
def deviceReport (tid : Int) (seq : Nat) (e : Entry) : Report :=
  ⟨tid, seq, e.cpos, e.op, e.nops, e.fp.toNat % 2 ^ 62, .device⟩

namespace Report

/-- `_comparable` -/
def comparable (report : Report) : Bool :=
  report.wait = .device && report.op.compared && report.cpos ≠ 0

/-- The positions an entry spans, the first and the last. -/
def span (report : Report) : Int × Int := (report.cpos, report.cpos + report.nops - 1)

end Report

/-- `_pick`: the record of the same communicator as this rank's, else the first. -/
def pick (first : Report) (rest : List Report) (mine : Report) : Report :=
  ((first :: rest).find? fun report => report.tid = mine.tid).getD first

/-- What a diverged rank is told to be at. -/
inductive Divergence where
  | differentArguments
  | behind
  | ahead
  deriving DecidableEq

/-- A line of the report. -/
inductive Line where
  | header (mine : Report)
  | notCompared (rank : Nat) (report : Report)
  | groupedDifferently (rank : Nat) (report : Report)
  | diverged (rank : Nat) (report : Report) (position : Divergence)
  | same (ranks : List Nat)
  | missing (ranks : List Nat)
  | marked
  | inconclusive
  deriving DecidableEq

/-- The lists `_desync_lines` fills. -/
structure Tally where
  out : List Line
  same : List Nat
  missing : List Nat
  diverged : List Nat

/-- The loop body of `_desync_lines`. -/
def tallyRank (mine : Report) (reports : Nat → List Report) (t : Tally) (r : Nat) : Tally :=
  match reports r with
  | [] => { t with missing := t.missing ++ [r] }
  | first :: rest =>
    let report := pick first rest mine
    if ¬ (report.comparable ∧ mine.comparable) then
      { t with out := t.out ++ [.notCompared r report] }
    else if report.span = mine.span ∧ report.fp = mine.fp then { t with same := t.same ++ [r] }
    else if report.span ≠ mine.span ∧ report.span.1 ≤ mine.span.2 ∧
        mine.span.1 ≤ report.span.2 then
      { t with out := t.out ++ [.groupedDifferently r report] }
    else
      let position : Divergence :=
        if report.span = mine.span then .differentArguments
        else if report.cpos < mine.cpos then .behind else .ahead
      { t with diverged := t.diverged ++ [r], out := t.out ++ [.diverged r report position] }

/-- `_desync_lines` -/
def desyncLines (mine : Report) (reports : Nat → List Report) (world : Nat) : List Line :=
  let t := (List.range world).foldl (tallyRank mine reports) ⟨[.header mine], [], [], []⟩
  t.out ++ (if t.same = [] then [] else [.same t.same]) ++
    (if t.missing = [] then [] else [.missing t.missing]) ++
    (if t.diverged = [] then [] else [.marked]) ++
    (if t.missing = [] ∧ t.diverged = [] then [.inconclusive] else [])

/-! ## What the lines say -/

/-- The two reports compare and are of the same calls, as far as they tell. -/
def Agree (mine report : Report) : Prop :=
  report.comparable = true ∧ mine.comparable = true ∧ report.span = mine.span ∧
    report.fp = mine.fp

/-- They compare and are of the same positions but not of the same calls. -/
def Differ (mine report : Report) : Prop :=
  report.comparable = true ∧ mine.comparable = true ∧ report.span = mine.span ∧
    report.fp ≠ mine.fp

/-- The ranks of a tally are where it says. -/
structure Tally.Ok (mine : Report) (reports : Nat → List Report) (t : Tally) : Prop where
  diverged : ∀ r report, Line.diverged r report .differentArguments ∈ t.out →
    ∃ first rest, reports r = first :: rest ∧ Differ mine (pick first rest mine)
  same : ∀ r ∈ t.same,
    ∃ first rest, reports r = first :: rest ∧ Agree mine (pick first rest mine)
  lines : ∀ ranks, Line.same ranks ∉ t.out

theorem Tally.Ok.tallyRank {mine : Report} {reports : Nat → List Report} {t : Tally}
    (h : t.Ok mine reports) (r : Nat) : (tallyRank mine reports t r).Ok mine reports := by
  -- a line that is neither of these changes nothing
  have hline : ∀ (missing diverged : List Nat) (line : Line),
      (∀ ranks, line ≠ .same ranks) →
      (∀ r' report, line = .diverged r' report .differentArguments →
        ∃ first rest, reports r' = first :: rest ∧ Differ mine (pick first rest mine)) →
      Tally.Ok mine reports ⟨t.out ++ [line], t.same, missing, diverged⟩ := by
    intro missing diverged line hsame hdiverged
    refine ⟨fun r' report hmem => ?_, h.same, fun ranks hmem => ?_⟩
    · obtain hmem | hmem := List.mem_append.mp hmem
      · exact h.diverged r' report hmem
      · exact hdiverged r' report (List.mem_singleton.mp hmem).symm
    · obtain hmem | hmem := List.mem_append.mp hmem
      · exact h.lines ranks hmem
      · exact hsame ranks (List.mem_singleton.mp hmem).symm
  unfold Distributed.tallyRank
  cases hr : reports r with
  | nil => exact ⟨h.diverged, h.same, h.lines⟩
  | cons first rest =>
      dsimp only
      by_cases hcomparable : (pick first rest mine).comparable ∧ mine.comparable
      · rw [if_neg (not_not.mpr hcomparable)]
        obtain ⟨hreport, hmine⟩ := hcomparable
        by_cases hsame : (pick first rest mine).span = mine.span ∧
            (pick first rest mine).fp = mine.fp
        · rw [if_pos hsame]
          refine ⟨h.diverged, fun r' hr' => ?_, h.lines⟩
          obtain hr' | hr' := List.mem_append.mp hr'
          · exact h.same r' hr'
          · rw [List.mem_singleton.mp hr']
            exact ⟨first, rest, hr, hreport, hmine, hsame⟩
        · rw [if_neg hsame]
          split
          · exact hline _ _ _ nofun nofun
          · refine hline _ _ _ nofun fun r' report heq => ?_
            injection heq with hrank _ hposition
            have hspan : (pick first rest mine).span = mine.span := by
              by_contra hne
              rw [if_neg hne] at hposition
              split at hposition <;> cases hposition
            exact ⟨first, rest, hrank ▸ hr, hreport, hmine, hspan, fun hfp => hsame ⟨hspan, hfp⟩⟩
      · rw [if_pos hcomparable]
        exact hline _ _ _ nofun nofun

theorem tally_ok (mine : Report) (reports : Nat → List Report) (ranks : List Nat) :
    (ranks.foldl (tallyRank mine reports) ⟨[.header mine], [], [], []⟩).Ok mine reports := by
  have hfold : ∀ (ranks : List Nat) (t : Tally), t.Ok mine reports →
      (ranks.foldl (tallyRank mine reports) t).Ok mine reports := by
    intro ranks
    induction ranks with
    | nil => exact fun t h => h
    | cons r ranks ih => exact fun t h => ih _ (h.tallyRank r)
  refine hfold ranks _ ⟨fun r report hmem => ?_, fun r hr => absurd hr List.not_mem_nil,
    fun ranks hmem => ?_⟩
  · cases List.mem_singleton.mp hmem
  · cases List.mem_singleton.mp hmem

/-- A rank told to be at the same position with different arguments is one whose report
differs there. -/
theorem differ_of_mem_desyncLines {mine : Report} {reports : Nat → List Report} {world r : Nat}
    {report : Report}
    (h : Line.diverged r report .differentArguments ∈ desyncLines mine reports world) :
    ∃ first rest, reports r = first :: rest ∧ Differ mine (pick first rest mine) := by
  have hok := tally_ok mine reports (List.range world)
  unfold desyncLines at h
  dsimp only at h
  refine hok.diverged r report ?_
  simp only [List.mem_append] at h
  obtain (((h | h) | h) | h) | h := h
  · exact h
  all_goals
    split at h
    all_goals simp at h

/-- A rank told to be in the same collective is one whose report agrees. -/
theorem agree_of_mem_desyncLines {mine : Report} {reports : Nat → List Report} {world r : Nat}
    {ranks : List Nat} (h : Line.same ranks ∈ desyncLines mine reports world) (hr : r ∈ ranks) :
    ∃ first rest, reports r = first :: rest ∧ Agree mine (pick first rest mine) := by
  have hok := tally_ok mine reports (List.range world)
  unfold desyncLines at h
  dsimp only at h
  refine hok.same r ?_
  simp only [List.mem_append] at h
  obtain (((h | h) | h) | h) | h := h
  · exact absurd h (hok.lines ranks)
  · split at h
    · exact absurd h List.not_mem_nil
    · cases List.mem_singleton.mp h
      exact hr
  all_goals
    split at h
    all_goals simp at h

/-! ## Two ranks -/

/-- The compared calls on a communicator of one rank and on that of another are the same,
in the same order, as far as both have made them. -/
def SameCalls (s : State) (t : Nat) (s' : State) (t' : Nat) : Prop :=
  (comparedOn s.calls t).map Entry.args <+: (comparedOn s'.calls t').map Entry.args ∨
    (comparedOn s'.calls t').map Entry.args <+: (comparedOn s.calls t).map Entry.args

section
variable {s s' : State} (hs : native.Reachable s) (hs' : native.Reachable s') {t t' : Nat}

include hs hs' in
/-- The compared calls have the same positions and fingerprints on both ranks. -/
theorem SameCalls.prefixes (h : SameCalls s t s' t') :
    comparedOn s.calls t <+: comparedOn s'.calls t' ∨
      comparedOn s'.calls t' <+: comparedOn s.calls t := by
  have hn := numbered_of_reachable hs
  have hn' := numbered_of_reachable hs'
  exact h.imp (hn.begins hn') (hn'.begins hn)

include hs hs' in
/-- Entries that span the same positions are folded from the same calls. -/
theorem SameCalls.entries_eq (h : SameCalls s t s' t') (hone : OneThread s t)
    (hone' : OneThread s' t') {k k' : Commit} (hk : k ∈ s.commits) (ht : k.tracker = t)
    (hk' : k' ∈ s'.commits) (ht' : k'.tracker = t') (hop : k.entry.op.compared = true)
    (hop' : k'.entry.op.compared = true) (hcpos : k'.entry.cpos = k.entry.cpos)
    (hnops : k'.entry.nops = k.entry.nops) :
    entriesOf s.calls k.calls = entriesOf s'.calls k'.calls := by
  subst ht ht'
  obtain ⟨-, hlength, hspan⟩ := commit_span hs hk hone hop
  obtain ⟨-, hlength', hspan'⟩ := commit_span hs' hk' hone' hop'
  rw [hcpos, hnops] at hspan'
  rw [hnops] at hlength'
  -- a span within the common calls is the same on both
  have hcut : ∀ {l l' : List Entry}, l <+: l' → ∀ {a n : Nat}, ((l.drop a).take n).length = n →
      (l.drop a).take n = (l'.drop a).take n := by
    intro l l' hle a n hlen
    obtain ⟨rest, rfl⟩ := hle
    have hn : n = 0 ∨ a + n ≤ l.length := by
      rw [List.length_take, List.length_drop] at hlen
      omega
    obtain rfl | hn := hn
    · rfl
    · rw [List.drop_append_of_le_length (by omega), List.take_append_of_le_length]
      rw [List.length_drop]
      omega
  rw [hspan] at hlength ⊢
  rw [hspan'] at hlength' ⊢
  obtain hle | hle := h.prefixes hs hs'
  · exact hcut hle hlength
  · exact (hcut hle hlength').symm

/-- The calls of an entry whose report compares. -/
theorem comparable_calls {s : State} (hs : native.Reachable s) {k : Commit} (hk : k ∈ s.commits)
    {tid : Int} {seq : Nat} (h : (deviceReport tid seq k.entry).comparable = true) :
    k.entry.op.compared = true ∧ (entriesOf s.calls k.calls).length = k.entry.nops ∧
      ∀ e ∈ entriesOf s.calls k.calls, e.op.compared = true := by
  have hop : k.entry.op.compared = true := by
    unfold Report.comparable at h
    simp only [Bool.and_eq_true] at h
    exact h.1.2
  have hinv := Groups.inv_of_reachable hs
  have hentry := (hinv.commits k hk).entry
  have hnops := entriesOf_nops hinv.one k.calls
  refine ⟨hop, ?_, fun e he => ?_⟩
  · rw [hentry, Entry.foldAll_nops _ hnops]
  · rw [hentry] at hop
    exact Entry.op_of_foldAll hnops hop e he ▸ hop

end

/-- The reports of two ranks. -/
def twoReports (mine theirs : Report) (r : Nat) : List Report := if r = 0 then [mine] else [theirs]

/-- Two collectives, each by itself. -/
def separate : List Event :=
  [.track 1 10 5 6 .allreduce 4 7 (-1) 0 .zero false,
    .track 1 10 5 6 .allreduce 2 7 (-1) 0 .zero false]

/-- The same in one group. -/
def together : List Event :=
  [.groupStart 1 10 true, .track 1 10 5 6 .allreduce 4 7 (-1) 0 .zero false,
    .track 1 10 5 6 .allreduce 2 7 (-1) 0 .zero false,
    .groupEnd 1 10 5 [6] .zero .submitted fun _ => false]

/-- A collective on each of two communicators. -/
def twoCommunicators : List Event :=
  [.track 1 10 5 6 .allreduce 4 7 (-1) 0 .zero false,
    .track 1 10 5 8 .broadcast 4 7 0 (-1) .zero false]

/-- A rank that sends first, with its collectives in one group. -/
def sendFirst : List Event := .track 1 10 5 6 .send 1 7 1 (-1) .zero false :: together

/-- A rank that receives afterwards. -/
def receiveAfter : List Event := together ++ [.track 1 10 5 6 .recv 1 7 0 (-1) .zero false]

end TorchMojoBackend.Distributed
