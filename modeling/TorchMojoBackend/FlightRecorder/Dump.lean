/-
  `FlightRecorder.Dump`: which entries of a snapshot a dump reports completed.

  The ring stamps the entry of a commit the watchdog saw complete.  An entry the
  watchdog could not track takes its completion from a later entry of its
  communicator, and an entry folded into a group from the entry its group's commit
  stamped.  What an entry then says of its operation rests on three properties of
  the entries, which `FlightRecorder.Completion` proves of the ring.
-/
import TorchMojoBackend.FlightRecorder.Record

set_option autoImplicit false

namespace TorchMojoBackend.FlightRecorder

/-! ## The rule -/

/-- An entry of the ring as a snapshot holds it. -/
structure SnapEntry where
  rid : Nat
  entry : FrEntry
  deriving DecidableEq

/-- The commit of an entry stamps it itself: it is not one of a group, or the one its
group links to. -/
def FrEntry.own (e : FrEntry) (rid : Nat) : Bool := !e.folded || e.link == rid + 1

/-- The scan from the newest entry: what each entry's completion is, and which
communicators of which groups had a later collective complete. -/
def scan : List SnapEntry → List Bool × (Nat → Nat → Bool)
  | [] => ([], fun _ _ => false)
  | r :: entries =>
    let (done, later) := scan entries
    let e := r.entry
    if e.member ∨ e.comm = 0 then (e.done :: done, later)
    else if e.untracked then
      -- a folded entry here only once its group was submitted
      if e.own r.rid then (later e.pg e.comm :: done, later) else (e.done :: done, later)
    else if e.done then
      (true :: done, fun pg comm => (pg == e.pg && comm == e.comm) || later pg comm)
    else (false :: done, later)

/-- The completion of the entry a folded entry links to. -/
def linkedDone (entries : List SnapEntry) (done : List Bool) (link : Nat) : Bool :=
  if link = 0 then false
  else ((entries.findIdx? fun r => r.rid + 1 = link).bind fun i => done[i]?).getD false

/-- One step of the second pass, over the entry with index `i`. -/
def followLink (entries : List SnapEntry) (done : List Bool) (i : Nat) : List Bool :=
  match entries[i]? with
  | some r =>
    if r.entry.folded ∧ r.entry.link ≠ r.rid + 1 then
      done.set i (linkedDone entries done r.entry.link)
    else done
  | none => done

/-- The completions `dump` goes by, oldest entry first; `known` are the groups it
reports. -/
def dump (known : Nat → Bool) (snap : List SnapEntry) : List (SnapEntry × Bool) :=
  let entries := snap.filter fun r => known r.entry.pg
  entries.zip ((List.range entries.length).foldl (followLink entries) (scan entries).1)

/-! ## What the rule rests on -/

/-- The completion of `r'` passes for that of `r`. -/
structure Infers (r r' : SnapEntry) : Prop where
  later : r.rid < r'.rid
  member : r.entry.member = false
  untracked : r.entry.untracked = true
  own : r.entry.own r.rid = true
  member' : r'.entry.member = false
  tracked : r'.entry.untracked = false
  done : r'.entry.done = true
  pg : r'.entry.pg = r.entry.pg
  comm : r'.entry.comm = r.entry.comm

/-- What the scan says of an entry is its stamp or a later entry's. -/
theorem scan_spec {entries : List SnapEntry}
    (hsorted : entries.Pairwise fun r r' => r.rid < r'.rid) :
    (scan entries).1.length = entries.length ∧
    (∀ (i : Nat) r, entries[i]? = some r → (scan entries).1[i]? = some true →
      r.entry.done = true ∨ ∃ r' ∈ entries, Infers r r') ∧
    ∀ pg comm, (scan entries).2 pg comm = true → ∃ r ∈ entries, r.entry.member = false ∧
      r.entry.untracked = false ∧ r.entry.done = true ∧ r.entry.pg = pg ∧
      r.entry.comm = comm := by
  induction entries with
  | nil => simp [scan]
  | cons r entries ih =>
      obtain ⟨hfirst, hrest⟩ := List.pairwise_cons.mp hsorted
      obtain ⟨hlength, hdone, hlater⟩ := ih hrest
      -- the entries after `r` are as before, so that `r` alone is left
      have hcons : ∀ b : Bool, (b = true → r.entry.done = true ∨ ∃ r' ∈ r :: entries, Infers r r') →
          ∀ (i : Nat) r', (r :: entries)[i]? = some r' → (b :: (scan entries).1)[i]? = some true →
            r'.entry.done = true ∨ ∃ r'' ∈ r :: entries, Infers r' r'' := by
        intro b hb i r' hr' hi
        cases i with
        | zero =>
            obtain rfl : r = r' := by simpa using hr'
            exact hb (by simpa using hi)
        | succ i =>
            obtain h | ⟨r'', hmem, hinfers⟩ := hdone i r' (by simpa using hr') (by simpa using hi)
            · exact .inl h
            · exact .inr ⟨r'', List.mem_cons_of_mem _ hmem, hinfers⟩
      have hkept : ∀ pg comm, (scan entries).2 pg comm = true → ∃ r' ∈ r :: entries,
          r'.entry.member = false ∧ r'.entry.untracked = false ∧ r'.entry.done = true ∧
          r'.entry.pg = pg ∧ r'.entry.comm = comm := fun pg comm h => by
        obtain ⟨r', hmem, hr'⟩ := hlater pg comm h
        exact ⟨r', List.mem_cons_of_mem _ hmem, hr'⟩
      have hstamp : r.entry.done = true → r.entry.done = true ∨
          ∃ r' ∈ r :: entries, Infers r r' := .inl
      rw [scan]
      dsimp only
      split
      · exact ⟨congrArg (· + 1) hlength, hcons _ hstamp, hkept⟩
      · rename_i hplain
        rw [not_or, Bool.not_eq_true] at hplain
        split
        · rename_i huntracked
          split
          · rename_i hown
            refine ⟨congrArg (· + 1) hlength, hcons _ fun h => .inr ?_, hkept⟩
            obtain ⟨r', hmem, hmember, htracked, hdone', hpg, hcomm⟩ := hlater _ _ h
            exact ⟨r', List.mem_cons_of_mem _ hmem, hfirst r' hmem, hplain.1, huntracked, hown,
              hmember, htracked, hdone', hpg, hcomm⟩
          · exact ⟨congrArg (· + 1) hlength, hcons _ hstamp, hkept⟩
        · rename_i htracked
          split
          · rename_i hdone'
            refine ⟨congrArg (· + 1) hlength, hcons _ fun _ => .inl hdone', fun pg comm h => ?_⟩
            obtain h | h := Bool.or_eq_true_iff.mp h
            · obtain ⟨rfl, rfl⟩ : pg = r.entry.pg ∧ comm = r.entry.comm := by simpa using h
              exact ⟨r, List.mem_cons_self, hplain.1, by simpa using htracked, hdone', rfl, rfl⟩
            · exact hkept pg comm h
          · exact ⟨congrArg (· + 1) hlength, hcons _ nofun, hkept⟩

/-- Every entry reported completed has `P`. -/
def Reports (P : SnapEntry → Prop) (entries : List SnapEntry) (done : List Bool) : Prop :=
  done.length = entries.length ∧
    ∀ (i : Nat) r, entries[i]? = some r → done[i]? = some true → P r

theorem Reports.followLink {P : SnapEntry → Prop} {entries : List SnapEntry} {done : List Bool}
    (hlink : ∀ r ∈ entries, ∀ r' ∈ entries, r'.rid + 1 = r.entry.link → P r' → P r)
    (h : Reports P entries done) (i : Nat) :
    Reports P entries (followLink entries done i) := by
  unfold FlightRecorder.followLink
  split
  · rename_i r hr
    split
    · refine ⟨by rw [List.length_set]; exact h.1, fun j r' hr' hj => ?_⟩
      by_cases heq : i = j
      · subst heq
        obtain rfl : r = r' := Option.some.inj (hr.symm.trans hr')
        have hi : i < done.length := h.1 ▸ (List.getElem?_eq_some_iff.mp hr).1
        rw [List.getElem?_set_self hi, Option.some.injEq, linkedDone] at hj
        split at hj
        · cases hj
        · -- the entry it links to is in the snapshot and reported
          obtain ⟨k, hk⟩ : ∃ k, (entries.findIdx? fun x => x.rid + 1 = r.entry.link) = some k := by
            cases hfind : entries.findIdx? fun x => x.rid + 1 = r.entry.link with
            | none => rw [hfind] at hj; cases hj
            | some k => exact ⟨k, rfl⟩
          rw [hk] at hj
          obtain ⟨hlt, hrid, -⟩ := List.findIdx?_eq_some_iff_getElem.mp hk
          have htarget : entries[k]? = some entries[k] := List.getElem?_eq_getElem hlt
          have hdone : done[k]? = some true := by
            cases hd : done[k]? with
            | none => simp [hd] at hj
            | some b => simpa [hd] using hj
          exact hlink r (List.mem_of_getElem? hr) _ (List.getElem_mem hlt)
            (of_decide_eq_true hrid) (h.2 k _ htarget hdone)
      · rw [List.getElem?_set_ne heq] at hj
        exact h.2 j r' hr' hj
    · exact h
  · exact h

/-- A stamped entry, an untracked one a later entry tells of and a folded one whose
target has `P` all have it, so every entry reported completed does. -/
theorem dump_reports {P : SnapEntry → Prop} (known : Nat → Bool) {snap : List SnapEntry}
    (hsorted : snap.Pairwise fun r r' => r.rid < r'.rid)
    (hdone : ∀ r ∈ snap, r.entry.done = true → P r)
    (hinfers : ∀ r ∈ snap, ∀ r' ∈ snap, Infers r r' → P r)
    (hlink : ∀ r ∈ snap, ∀ r' ∈ snap, r'.rid + 1 = r.entry.link → P r' → P r) :
    ∀ p ∈ dump known snap, p.2 = true → P p.1 := by
  have hsub : ∀ {r}, r ∈ snap.filter (fun r => known r.entry.pg) → r ∈ snap :=
    fun hr => (List.mem_filter.mp hr).1
  unfold dump
  generalize hentries : snap.filter (fun r => known r.entry.pg) = entries at hsub
  obtain ⟨hlength, hscan, -⟩ := scan_spec (hentries ▸ hsorted.filter _)
  have hfirst : Reports P entries (scan entries).1 := by
    refine ⟨hlength, fun i r hr hi => ?_⟩
    obtain h | ⟨r', hr', h⟩ := hscan i r hr hi
    · exact hdone r (hsub (List.mem_of_getElem? hr)) h
    · exact hinfers r (hsub (List.mem_of_getElem? hr)) r' (hsub hr') h
  have hpass : ∀ (is : List Nat) (done : List Bool), Reports P entries done →
      Reports P entries (is.foldl (followLink entries) done) := by
    intro is
    induction is with
    | nil => exact fun _ h => h
    | cons i is ih =>
        intro done h
        exact ih _ (h.followLink (fun r hr r' hr' => hlink r (hsub hr) r' (hsub hr')) i)
  intro p hp htrue
  obtain ⟨i, hi⟩ := List.getElem?_of_mem hp
  obtain ⟨hr, hd⟩ := List.getElem?_zip_eq_some.mp hi
  exact (hpass _ _ hfirst).2 i p.1 hr (htrue ▸ hd)

end TorchMojoBackend.FlightRecorder
