/-
  `FlightRecorder.RingIntegrity`: stamps, links and snapshots under every interleaving.

  A snapshot that finds another id than the one it looks for finds a newer one: every
  id below the `H_NEXT` it read has been recorded, and the ids of a slot increase.
  So what it returns are entries as their writers left them, with ids that increase
  within the ring's last `size`, and it leaves an entry out only if a later one has
  the slot or the slot stayed busy.
-/
import TorchMojoBackend.FlightRecorder.RingInvariant

set_option autoImplicit false

namespace TorchMojoBackend.FlightRecorder.Ring

open TorchMojoBackend.Foundation

universe u

section
variable {size : Nat} {p p' : Pc} {m : Mem}

/-! ## Snapshots -/

/-- The thread has no slot and not the mutex. -/
def Pc.Away (size : Nat) (p : Pc) : Prop := (∀ i, ¬ p.Holds size i) ∧ ¬ p.Producer

/-- What was recorded: in each slot the ids of its remainder, in order, and every id below
`H_NEXT`. -/
structure Recorded (size : Nat) (m : Mem) : Prop where
  sorted : ∀ i, (Ring.ids (m.slots i).log).Pairwise (· < ·)
  slot : ∀ i, ∀ r ∈ Ring.ids (m.slots i).log, r % size = i
  present : ∀ r, r < m.next → r ∈ Ring.ids (m.slots (r % size)).log

/-- The id of a slot is the last one recorded there. -/
theorem last_of_mem_ids {log : List Job} (hsorted : (Ring.ids log).Pairwise (· < ·)) {rid : Nat}
    (hmem : rid ∈ Ring.ids log) :
    ∃ last ∈ Ring.ids log, contents log wordId = (last : Int) + 1 ∧ rid ≤ last := by
  rw [contents_wordId]
  cases hlast : (Ring.ids log).getLast? with
  | none =>
      rw [List.getLast?_eq_none_iff.mp hlast] at hmem
      exact absurd hmem List.not_mem_nil
  | some last =>
      refine ⟨last, List.mem_of_getLast? hlast, rfl, ?_⟩
      obtain ⟨front, hfront⟩ := List.getLast?_eq_some_iff.mp hlast
      rw [hfront] at hmem hsorted
      obtain hmem | hmem := List.mem_append.mp hmem
      · exact Nat.le_of_lt ((List.pairwise_append.mp hsorted).2.2 rid hmem last
          (List.mem_singleton.mpr rfl))
      · exact Nat.le_of_eq (List.mem_singleton.mp hmem)

/-- A slot with another id than one recorded there has a newer one. -/
theorem newer_of_ne {log : List Job} (hsorted : (Ring.ids log).Pairwise (· < ·)) {rid : Nat}
    (hmem : rid ∈ Ring.ids log) (hne : contents log wordId ≠ (rid : Int) + 1) :
    ∃ rid', rid < rid' ∧ rid' ∈ Ring.ids log := by
  obtain ⟨last, hlast, heq, hle⟩ := last_of_mem_ids hsorted hmem
  rw [heq] at hne
  exact ⟨last, by omega, hlast⟩

/-- The words `1` to `F_WORDS - 1` have a first one. -/
theorem lookup_wordId {got : List (Nat × Int)} (h : got.map Prod.fst = List.range' 1 wordLink) :
    ∃ x, got.lookup wordId = some x ∧ (wordId, x) ∈ got := by
  cases got with
  | nil => cases h
  | cons q got =>
      obtain ⟨k, x⟩ := q
      obtain ⟨rfl, -⟩ := List.cons.inj h
      exact ⟨x, rfl, List.mem_cons_self⟩

namespace Reader.Ok

variable {r : Reader}

theorem enter (h : r.Ok size m) : r.enter.Ok size m := by
  unfold Reader.enter
  split
  · rename_i hnext
    exact ⟨h, hnext.1⟩
  · rename_i hnext
    exact ⟨h, fun hcap => Nat.le_antisymm h.rid_le
      (Nat.not_lt.mp fun hlt => hnext ⟨hlt, hcap⟩)⟩

/-- The entry is left out. -/
theorem skip (h : r.Ok size m) (hlt : r.rid < r.limit) {newer busy : List Nat}
    (hnewer : ∀ n ∈ r.newer, n ∈ newer) (hbusy : ∀ n ∈ r.busy, n ∈ busy)
    (hrid : r.rid ∈ newer ∨ r.rid ∈ busy)
    (hlater : ∀ n ∈ newer, ∃ n', n < n' ∧ n' ∈ Ring.ids (m.slots (n % size)).log) :
    Reader.Ok size m { r with rid := r.rid + 1, newer := newer, busy := busy } := by
  refine ⟨h.limit_le, Nat.le_succ_of_le h.start_le, hlt, ?_, h.out, hlater⟩
  obtain ⟨kept, hids, hsub, hcover⟩ := h.kept
  refine ⟨kept, hids, hsub.trans ?_, fun n hn hnlt => ?_⟩
  · exact (List.range'_sublist_right).mpr (by dsimp only; omega)
  · obtain hnlt | heq := Nat.lt_succ_iff_lt_or_eq.mp hnlt
    · exact (hcover n hn hnlt).imp id (Or.imp (hnewer n) (hbusy n))
    · exact .inr (heq ▸ hrid)

/-- The entry is kept. -/
theorem take (h : r.Ok size m) (hlt : r.rid < r.limit) {got : List (Nat × Int)}
    (hid : got.lookup wordId = some ((r.rid : Int) + 1)) (hgot : Untorn size m got) :
    Reader.Ok size m { r with rid := r.rid + 1, out := r.out ++ [got] } := by
  have hstart := h.start_le
  refine ⟨h.limit_le, Nat.le_succ_of_le hstart, hlt, ?_, fun o ho => ?_, h.newer⟩
  · obtain ⟨kept, hids, hsub, hcover⟩ := h.kept
    refine ⟨kept ++ [r.rid], ?_, ?_, fun n hn hnlt => ?_⟩
    · simp [hids, hid]
    · have hrange : List.range' (r.limit - size) (r.rid + 1 - (r.limit - size)) =
          List.range' (r.limit - size) (r.rid - (r.limit - size)) ++ [r.rid] := by
        rw [Nat.succ_sub hstart, List.range'_1_concat, Nat.add_sub_cancel' hstart]
      dsimp only
      rw [hrange]
      exact hsub.append (List.Sublist.refl _)
    · obtain hnlt | heq := Nat.lt_succ_iff_lt_or_eq.mp hnlt
      · exact (hcover n hn hnlt).imp (List.mem_append_left _) id
      · exact .inl (List.mem_append_right _ (List.mem_singleton.mpr heq))
  · obtain ho | ho := List.mem_append.mp ho
    · exact h.out o ho
    · exact List.mem_singleton.mp ho ▸ hgot

theorem fail (h : r.Ok size m) (hlt : r.rid < r.limit) (attempt : Nat) :
    (r.fail attempt).Ok size m := by
  unfold Reader.fail
  split
  · exact ⟨h, hlt⟩
  · exact (h.skip hlt (fun _ hn => hn) (fun _ hn => List.mem_append_left _ hn)
      (.inr (List.mem_append_right _ (List.mem_singleton.mpr rfl))) h.newer).enter

/-- A copy of the words of one version. -/
theorem keep (h : r.Ok size m) (hlt : r.rid < r.limit) (hrec : Recorded size m)
    {got : List (Nat × Int)} (hwords : got.map Prod.fst = List.range' 1 wordLink)
    (hvals : ∀ q ∈ got, contents (m.slots (r.rid % size)).log q.1 = q.2) :
    (r.keep got).Ok size m := by
  unfold Reader.keep
  split
  · rename_i hid
    exact (h.take hlt hid ⟨r.rid, _, hid, List.prefix_rfl, hwords, hvals⟩).enter
  · rename_i hid
    obtain ⟨x, hx, hmem⟩ := lookup_wordId hwords
    have hne : contents (m.slots (r.rid % size)).log wordId ≠ (r.rid : Int) + 1 := by
      rw [hvals _ hmem]
      rintro rfl
      exact hid hx
    have hlater := newer_of_ne (hrec.sorted _)
      (hrec.present _ (Nat.lt_of_lt_of_le hlt h.limit_le)) hne
    refine (h.skip hlt (fun _ hn => List.mem_append_left _ hn) (fun _ hn => hn)
      (.inl (List.mem_append_right _ (List.mem_singleton.mpr rfl))) fun n hn => ?_).enter
    obtain hn | hn := List.mem_append.mp hn
    · exact h.newer n hn
    · exact List.mem_singleton.mp hn ▸ hlater

end Reader.Ok

theorem Reader.enter_away (r : Reader) : r.enter.Away size := by
  unfold Reader.enter
  split
  · exact ⟨fun _ => id, id⟩
  · exact ⟨fun _ => id, id⟩

theorem Reader.fail_away (r : Reader) (attempt : Nat) : (r.fail attempt).Away size := by
  unfold Reader.fail
  split
  · exact ⟨fun _ => id, id⟩
  · exact Reader.enter_away _

theorem Reader.keep_away (r : Reader) (got : List (Nat × Int)) : (r.keep got).Away size := by
  unfold Reader.keep
  split
  · exact Reader.enter_away _
  · exact Reader.enter_away _

/-- A step of a thread that has no slot and not the mutex, before and after. -/
theorem Effect.away (hvalid : ∀ i, (m.slots i).Valid Job.apply fun _ => 0)
    (hp : p.Away size) (hp' : p'.Away size) (hok : p'.Ok size m) : Effect size p m p' m := by
  refine .quiet hvalid ?_ (fun i => iff_of_false (hp'.1 i) (hp.1 i)) (iff_of_false hp'.2 hp.2) hok
  rintro rid rfl
  exact hp.2 trivial

/-- A snapshot's access. -/
theorem readStep_effect (hvalid : ∀ i, (m.slots i).Valid Job.apply fun _ => 0)
    (hrec : Recorded size m) (hok : p.Ok size m) (h : readStep size p m = some p') :
    Effect size p m p' m := by
  unfold readStep at h
  split at h
  · -- `H_NEXT`
    cases h
    refine .away hvalid ⟨fun _ => id, id⟩ (Reader.enter_away _) (Reader.Ok.enter ?_)
    refine ⟨Nat.le_refl _, Nat.le_refl _, Nat.sub_le _ _, ⟨[], rfl, List.nil_sublist _, ?_⟩,
      fun o ho => absurd ho List.not_mem_nil, fun n hn => absurd hn List.not_mem_nil⟩
    intro n hn hlt
    exact absurd hn (Nat.not_le.mpr hlt)
  · -- the version
    dsimp only at h
    split at h
    · rename_i heven
      cases h
      exact .away hvalid ⟨fun _ => id, id⟩ ⟨fun _ => id, id⟩
        ⟨hok.1, hok.2, .start heven, rfl, show 0 < wordLink by decide⟩
    · cases h
      exact .away hvalid ⟨fun _ => id, id⟩ (Reader.fail_away _ _) (hok.1.fail hok.2 _)
  · -- a word
    rename_i r attempt view
    obtain ⟨hr, hlt, hsees, hcopies, hlen⟩ := hok
    have hsees' := hsees.load (view.got.length + 1)
    have hwords : (view.got ++ [(view.got.length + 1,
        (m.slots (r.rid % size)).words (view.got.length + 1))]).map Prod.fst =
        List.range' 1 (view.got.length + 1) := by
      rw [List.map_append, hcopies, List.range'_1_concat, Nat.add_comm 1]
      rfl
    dsimp only at h
    split at h
    · rename_i hmore
      cases h
      refine .away hvalid ⟨fun _ => id, id⟩ ⟨fun _ => id, id⟩ ⟨hr, hlt, hsees', ?_, ?_⟩
      · unfold Copies
        rw [hwords, List.length_append]
        rfl
      · rw [List.length_append]
        exact hmore
    · rename_i hlast
      cases h
      refine .away hvalid ⟨fun _ => id, id⟩ ⟨fun _ => id, id⟩ ⟨hr, hlt, hsees', ?_⟩
      have hall : view.got.length + 1 = wordLink := Nat.le_antisymm hlen (Nat.not_lt.mp hlast)
      rw [hwords, hall]
  · -- the version again
    obtain ⟨hr, hlt, hsees, hwords⟩ := hok
    rw [Option.some.injEq] at h
    split at h
    · cases h
      exact .away hvalid ⟨fun _ => id, id⟩ (Reader.fail_away _ _) (hr.fail hlt _)
    · rename_i hsame
      cases h
      exact .away hvalid ⟨fun _ => id, id⟩ (Reader.keep_away _ _)
        (hr.keep hlt hrec hwords (hsees.accept (hvalid _) (Classical.not_not.mp hsame)))
  · cases h
    exact .away hvalid ⟨fun _ => id, id⟩ ⟨fun _ => id, id⟩ trivial
  · cases h

theorem atom_effect (hvalid : ∀ i, (m.slots i).Valid Job.apply fun _ => 0)
    (hrec : Recorded size m) (hok : p.Ok size m) {a : Action} {m' : Mem}
    (h : atom size p a m = some (p', m')) : Effect size p m p' m' := by
  unfold atom at h
  split at h
  · exact call_effect hvalid h
  · cases hwrite : writeStep size p m with
    | some q =>
        rw [hwrite, Option.some_or, Option.some.injEq] at h
        rw [h] at hwrite
        exact writeStep_effect hvalid hok hwrite
    | none =>
        rw [hwrite, Option.none_or] at h
        obtain ⟨q, hread, heq⟩ := Option.map_eq_some_iff.mp h
        cases heq
        exact readStep_effect hvalid hrec hok hread
  · cases h

end

/-! ## The invariant -/

section
variable {Thread : Type u} [DecidableEq Thread] {size : Nat} {s t : Config Thread Mem Pc}

/-- What holds of the ring under any interleaving. -/
structure Inv (size : Nat) (s : Config Thread Mem Pc) : Prop where
  valid : ∀ i, (s.mem.slots i).Valid Job.apply fun _ => 0
  ok : ∀ t, (s.pc t).Ok size s.mem
  owner : ∀ i, Program.Exclusive (Pc.Holds size i) (Busy i) s
  mutex : Program.Exclusive Pc.Producer Locked s
  recorded : Recorded size s.mem
  below : ∀ i, ∀ r ∈ ids (s.mem.slots i).log, r < s.mem.next ∨ ∃ t, s.pc t = .publish r

omit [DecidableEq Thread] in
theorem Inv.start : Inv size (⟨(ring size).boot, fun _ => .idle⟩ : Config Thread Mem Pc) where
  valid _ := ⟨(Nat.zero_div 2).symm, fun _ => rfl⟩
  ok _ := trivial
  owner _ := ⟨fun _ _ h => h.elim, fun _ h => h.elim, fun h => by cases h⟩
  mutex := ⟨fun _ _ h => h.elim, fun _ h => h.elim, fun h => by cases h⟩
  recorded := ⟨fun _ => .nil, fun _ _ hr => absurd hr List.not_mem_nil,
    fun r hr => absurd hr (Nat.not_lt_zero r)⟩
  below _ _ hr := absurd hr List.not_mem_nil

theorem Effect.next_le {p p' : Pc} {m m' : Mem} (h : Effect size p m p' m') :
    m.next ≤ m'.next := by
  obtain heq | ⟨-, heq⟩ := h.next
  · exact Nat.le_of_eq heq.symm
  · omega

/-- A step on what was recorded; `hbelow` is for a thread about to publish. -/
theorem Effect.recorded {p p' : Pc} {m m' : Mem} (h : Effect size p m p' m') (hok : p.Ok size m)
    (hrec : Recorded size m)
    (hbelow : p.Producer → (∀ rid, p ≠ .publish rid) → ∀ i, ∀ r ∈ Ring.ids (m.slots i).log,
      r < m.next) : Recorded size m' := by
  refine ⟨fun i => ?_, fun i r hr => ?_, fun r hr => ?_⟩
  · obtain heq | ⟨rid, -, hproducer, hnot, hrid, -, heq⟩ := h.ids i
    · exact heq ▸ hrec.sorted i
    · rw [heq, List.pairwise_append]
      refine ⟨hrec.sorted i, List.pairwise_singleton _ _, fun r hr q hq => ?_⟩
      rw [List.mem_singleton.mp hq, hrid]
      exact hbelow hproducer hnot i r hr
  · obtain heq | ⟨rid, -, -, -, -, hi, heq⟩ := h.ids i
    · exact hrec.slot i r (heq ▸ hr)
    · rw [heq] at hr
      obtain hr | hr := List.mem_append.mp hr
      · exact hrec.slot i r hr
      · rw [List.mem_singleton.mp hr, hi]
  · refine ids_mono (h.slots _).log_le ?_
    obtain heq | ⟨hp, heq⟩ := h.next
    · exact hrec.present r (heq ▸ hr)
    · subst hp
      rw [heq] at hr
      obtain hr | hr := Nat.lt_succ_iff_lt_or_eq.mp hr
      · exact hrec.present r hr
      · exact hr ▸ hok.2

theorem Inv.step (hI : Inv size s) {e : Thread × Action}
    (h : ((ring size).system Thread).next s e = some t) : Inv size t := by
  obtain ⟨p, hatom, hpc⟩ := Program.next_eq_some.mp h
  have heff := atom_effect hI.valid hI.recorded (hI.ok e.1) hatom
  have hself : t.pc e.1 = p := by rw [hpc, Function.update_self]
  have hothers : ∀ t', t' ≠ e.1 → t.pc t' = s.pc t' := by
    intro t' ht'
    rw [hpc, Function.update_of_ne ht']
  refine ⟨heff.valid, fun t' => ?_, fun i => ?_, ?_, ?_, fun i r hr => ?_⟩
  · by_cases ht' : t' = e.1
    · rw [ht', hself]
      exact heff.ok
    · rw [hothers t' ht']
      refine (hI.ok t').frame heff.slots (fun i hheld => ?_) heff.next_le fun hproducer => ?_
      · -- another thread touches a slot that is its own or free
        obtain heq | hmine | hfree := heff.touched i
        · exact heq
        · exact absurd ((hI.owner i).unique _ _ hheld hmine) ht'
        · exact absurd ((hI.owner i).set_of_role _ hheld) hfree
      · obtain heq | ⟨hp, -⟩ := heff.next
        · exact heq
        · exact absurd (hI.mutex.unique _ _ hproducer (hp ▸ trivial)) ht'
  · exact (hI.owner i).step h (hself ▸ heff.role i)
  · exact hI.mutex.step h (hself ▸ heff.mutex)
  · refine heff.recorded (hI.ok e.1) hI.recorded fun hproducer hnot i r hr => ?_
    obtain hlt | ⟨t', ht'⟩ := hI.below i r hr
    · exact hlt
    · have hsame : t' = e.1 := hI.mutex.unique _ _ (ht' ▸ trivial) hproducer
      exact absurd (hsame ▸ ht') (hnot r)
  · have hold : r ∈ ids (s.mem.slots i).log → r < t.mem.next ∨ ∃ t', t.pc t' = .publish r := by
      intro hr
      obtain hlt | ⟨t', ht'⟩ := hI.below i r hr
      · exact .inl (Nat.lt_of_lt_of_le hlt heff.next_le)
      · by_cases hsame : t' = e.1
        · exact .inl ((heff.published r (hsame ▸ ht')).symm ▸ Nat.lt_succ_self r)
        · exact .inr ⟨t', (hothers t' hsame).trans ht'⟩
    obtain heq | ⟨rid, hp, -, -, -, -, heq⟩ := heff.ids i
    · exact hold (heq ▸ hr)
    · rw [heq] at hr
      obtain hr | hr := List.mem_append.mp hr
      · exact hold hr
      · exact .inr ⟨e.1, by rw [hself, hp, List.mem_singleton.mp hr]⟩

theorem Inv.of_reachable (hs : ((ring size).system Thread).Reachable s) : Inv size s := by
  refine hs.invariant ?_ fun s e t _ hI h => hI.step h
  rintro s rfl
  exact Inv.start

/-- A job about a recorded entry that stores anything is about the last entry of its slot. -/
theorem named_is_last {m : Mem} {v : Nat} {j : Job} {stores : List (Nat × Int)}
    (hok : (Pc.store v j stores).Ok size m) (hj : j.recorded? = none)
    (hid : (m.slots (j.slot size)).words wordId = j.rid1)
    (hsorted : (ids (m.slots (j.slot size)).log).Pairwise (· < ·)) :
    ∀ r ∈ ids (m.slots (j.slot size)).log, r < j.rid1 := by
  intro r hr
  obtain ⟨last, -, hlast, hle⟩ := last_of_mem_ids hsorted hr
  have hsame := congrFun hok.1.words wordId
  rw [Job.apply_wordId, hj] at hsame
  rw [storeAll_of_not_mem fun q hq h => Job.word_ne_wordId hj ((hok.2.2 hj q hq).2.symm.trans h),
    hid] at hsame
  change _ = contents _ wordId at hsame
  omega

/-- The jobs done on a slot stay done. -/
theorem run_log_le {es : List (Thread × Action)} (hs : ((ring size).system Thread).Reachable s)
    (hrun : ((ring size).system Thread).run s es = some t) (i : Nat) :
    (s.mem.slots i).log <+: (t.mem.slots i).log := by
  refine System.run_relates (R := fun s t => (s.mem.slots i).log <+: (t.mem.slots i).log)
    (fun _ => List.prefix_rfl) (fun _ _ _ => List.IsPrefix.trans) ?_ hs hrun
  intro s e t hs h
  have hI := Inv.of_reachable hs
  obtain ⟨p, hatom, -⟩ := Program.next_eq_some.mp h
  exact ((atom_effect hI.valid hI.recorded (hI.ok e.1) hatom).slots i).log_le

/-- A snapshot taken since `H_NEXT` was `n`, or none. -/
def Pc.Since (n : Nat) : Pc → Prop
  | .limit _ | .idle => True
  | .entry r _ | .copy r _ _ | .recheck r _ _ | .returned r => n ≤ r.limit
  | _ => False

theorem Reader.since {n : Nat} {r : Reader} (h : n ≤ r.limit) :
    r.enter.Since n ∧ (∀ attempt, (r.fail attempt).Since n) ∧ ∀ got, (r.keep got).Since n := by
  have henter : ∀ r : Reader, n ≤ r.limit → r.enter.Since n := by
    intro r h
    unfold Reader.enter
    split
    · exact h
    · exact h
  refine ⟨henter r h, fun attempt => ?_, fun got => ?_⟩
  · unfold Reader.fail
    split
    · exact h
    · exact henter _ h
  · unfold Reader.keep
    split
    · exact henter _ h
    · exact henter _ h

theorem readStep_since {n : Nat} {p p' : Pc} {m : Mem} (hn : n ≤ m.next) (hp : p.Since n)
    (h : readStep size p m = some p') : p'.Since n := by
  unfold readStep at h
  split at h
  · cases h
    exact (Reader.since hn).1
  · rw [Option.some.injEq] at h
    split at h
    · cases h
      exact hp
    · cases h
      exact (Reader.since hp).2.1 _
  · rw [Option.some.injEq] at h
    split at h
    · cases h
      exact hp
    · cases h
      exact hp
  · rw [Option.some.injEq] at h
    split at h
    · cases h
      exact (Reader.since hp).2.1 _
    · cases h
      exact (Reader.since hp).2.2 _
  · cases h
    trivial
  · cases h

theorem atom_since {n : Nat} {p p' : Pc} {m m' : Mem} (hn : n ≤ m.next) (hp : p.Since n)
    (h : atom size p .step m = some (p', m')) : p'.Since n := by
  cases hwrite : writeStep size p m with
  | some q =>
      -- no writer has taken a snapshot
      unfold writeStep at hwrite
      split at hwrite
      all_goals first | exact hp.elim | cases hwrite
  | none =>
      unfold atom at h
      split at h
      · cases h
      · rw [hwrite, Option.none_or] at h
        obtain ⟨q, hread, heq⟩ := Option.map_eq_some_iff.mp h
        cases heq
        exact readStep_since hn hp hread
      · cases h

/-- The `H_NEXT` a snapshot has read was that of a time during its call. -/
theorem limit_during_call {es : List (Thread × Action)} {a : Thread} {cap : Nat} {r : Reader}
    (hs : ((ring size).system Thread).Reachable s) (hcall : s.pc a = .limit cap)
    (hrun : ((ring size).system Thread).run s es = some t) (hsteps : ∀ e ∈ es, e.1 = a → e.2 = .step)
    (hret : t.pc a = .returned r) : s.mem.next ≤ r.limit := by
  have hsince : (∀ e ∈ es, e.1 = a → e.2 = .step) →
      s.mem.next ≤ t.mem.next ∧ (t.pc a).Since s.mem.next := by
    refine System.run_induction (M := (ring size).system Thread)
      (P := fun es t => (∀ e ∈ es, e.1 = a → e.2 = .step) →
        s.mem.next ≤ t.mem.next ∧ (t.pc a).Since s.mem.next) ?_ ?_ hrun
    · intro _
      exact ⟨Nat.le_refl _, hcall ▸ trivial⟩
    · intro es u e t hes ih h hsteps
      obtain ⟨hnext, hsince⟩ := ih fun e he => hsteps e (List.mem_append_left _ he)
      obtain ⟨p, hatom, hpc⟩ := Program.next_eq_some.mp h
      have hI := Inv.of_reachable (hs.run hes)
      have heff := atom_effect hI.valid hI.recorded (hI.ok e.1) hatom
      refine ⟨Nat.le_trans hnext heff.next_le, ?_⟩
      by_cases ha : a = e.1
      · have hstep := hsteps e (List.mem_append_right _ (List.mem_singleton.mpr rfl)) ha.symm
        rw [hstep] at hatom
        rw [hpc, ha, Function.update_self]
        exact atom_since hnext (ha ▸ hsince) hatom
      · rw [hpc, Function.update_of_ne ha]
        exact hsince
  have hend := (hsince hsteps).2
  rw [hret] at hend
  exact hend

/-! ## Integrity -/

/-- What a snapshot with the ids `kept` promises: they are among the last `size` below the
`H_NEXT` it read, and one of these is missing only if the capacity was reached, its slot was
busy for 64 attempts or a later entry has the slot. -/
structure Reader.Promise (size : Nat) (m : Mem) (r : Reader) (kept : List Nat) : Prop where
  ids : r.out.map (fun o => o.lookup wordId) = kept.map fun n => some ((n : Int) + 1)
  increasing : kept.Pairwise (· < ·)
  recent : ∀ n ∈ kept, r.limit - size ≤ n ∧ n < r.limit
  missing : r.out.length < r.cap → ∀ n, r.limit - size ≤ n → n < r.limit →
    n ∈ kept ∨ n ∈ r.busy ∨
      ∃ n', n < n' ∧ n' % size = n % size ∧ n' ∈ Ring.ids (m.slots (n % size)).log

theorem Reader.Ok.promise {m : Mem} {r : Reader} (hrec : Recorded size m) (h : r.Ok size m)
    (hend : r.out.length < r.cap → r.rid = r.limit) : ∃ kept, r.Promise size m kept := by
  obtain ⟨kept, hids, hsub, hcover⟩ := h.kept
  refine ⟨kept, hids, List.Pairwise.sublist hsub List.pairwise_lt_range', fun n hn => ?_,
    fun hcap n hn hlt => ?_⟩
  · have hmem := List.mem_range'_1.mp (hsub.subset hn)
    have hrid := h.rid_le
    have hstart := h.start_le
    omega
  · refine (hcover n hn ((hend hcap).symm ▸ hlt)).imp id ?_
    rintro (hnewer | hbusy)
    · obtain ⟨n', hlater, hmem⟩ := h.newer n hnewer
      exact .inr ⟨n', hlater, hrec.slot _ n' hmem, hmem⟩
    · exact .inl hbusy

/-- Under every interleaving, a stamp, a link or a mark stores only the one word it is about
and only while its slot has the entry it names, the last one recorded there; an unlocked slot
has the words its jobs leave; the first stamp of an entry stays; and a snapshot returns
entries as their jobs left them, whose ids increase within the last `size` of one time during
its call. -/
theorem ring_integrity (hs : ((ring size).system Thread).Reachable s) :
    (∀ e t, ((ring size).system Thread).next s e = some t →
      ∀ i k, (t.mem.slots i).words k ≠ (s.mem.slots i).words k →
        ∃ v j x stores, s.pc e.1 = .store v j ((k, x) :: stores) ∧ j.slot size = i ∧
          (j.recorded? = none → k = j.word ∧ (s.mem.slots i).words wordId = j.rid1 ∧
            ∀ r ∈ ids (s.mem.slots i).log, r < j.rid1)) ∧
    (∀ i, (s.mem.slots i).version % 2 = 0 →
      (s.mem.slots i).words = contents (s.mem.slots i).log) ∧
    (∀ es t, ((ring size).system Thread).run s es = some t → ∀ i,
      (s.mem.slots i).version % 2 = 0 → (t.mem.slots i).version % 2 = 0 →
      (s.mem.slots i).words wordDone ≠ 0 →
      (t.mem.slots i).words wordId = (s.mem.slots i).words wordId →
      (t.mem.slots i).words wordDone = (s.mem.slots i).words wordDone) ∧
    (∀ a r, s.pc a = .returned r →
      (∀ o ∈ r.out, Untorn size s.mem o) ∧ ∃ kept, r.Promise size s.mem kept) ∧
    (∀ a cap, s.pc a = .limit cap → ∀ es t r, ((ring size).system Thread).run s es = some t →
      (∀ e ∈ es, e.1 = a → e.2 = .step) → t.pc a = .returned r →
      s.mem.next ≤ r.limit ∧ r.limit ≤ t.mem.next) := by
  have hI := Inv.of_reachable hs
  refine ⟨fun e t h i k hne => ?_, fun i => (hI.valid i).words,
    fun es t hrun i hs0 ht0 hdone hid => ?_, fun a r hret => ?_,
    fun a cap hcall es t r hrun hsteps hret => ?_⟩
  · obtain ⟨p, hatom, -⟩ := Program.next_eq_some.mp h
    have heff := atom_effect hI.valid hI.recorded (hI.ok e.1) hatom
    obtain ⟨v, j, x, stores, hp, rfl⟩ := heff.words i k hne
    have hok := hI.ok e.1
    rw [hp] at hok
    refine ⟨v, j, x, stores, hp, rfl, fun hj => ?_⟩
    obtain ⟨hid, hk⟩ := hok.2.2 hj (k, x) List.mem_cons_self
    exact ⟨hk, hid, named_is_last hok hj hid (hI.recorded.sorted _)⟩
  · have hJ := Inv.of_reachable (hs.run hrun)
    obtain ⟨after, hlog⟩ := run_log_le hs hrun i
    rw [(hI.valid i).words hs0] at hdone hid ⊢
    rw [(hJ.valid i).words ht0] at hid ⊢
    have hsorted := hJ.recorded.sorted i
    rw [← hlog] at hsorted hid ⊢
    exact first_stamp_stays hsorted hdone hid
  · have hok := hI.ok a
    rw [hret] at hok
    exact ⟨hok.1.out, hok.1.promise hI.recorded hok.2⟩
  · have hok := (Inv.of_reachable (hs.run hrun)).ok a
    rw [hret] at hok
    exact ⟨limit_during_call hs hcall hrun hsteps hret, hok.1.limit_le⟩

end

/-- An all-reduce on the first group. -/
def sampleEntry : FrEntry where
  pg := 1
  cseq := 1
  pseq := 1
  opid := 1
  op := .allreduce
  count := 4
  dtype := 7
  root := -1
  nops := 1
  p2p := false
  member := false
  isEnd := false
  untracked := false
  folded := false
  tag := 0
  comm := 6
  done := false
  link := 0

/-- A thread records an entry. -/
def recordBy (a : Nat) : List (Nat × Action) :=
  (a, .record sampleEntry 5 5) :: List.replicate 23 (a, .step)

/-- A snapshot of a full ring of three that is overtaken by two entries after its first. -/
def lappedRun : List (Nat × Action) :=
  recordBy 0 ++ recordBy 0 ++ recordBy 0 ++ [(1, .snapshot 3)] ++ List.replicate 20 (1, .step) ++
    recordBy 0 ++ recordBy 0 ++ List.replicate 38 (1, .step)

/-- The ids plus one of a snapshot. -/
def returnedIds : Pc → List (Option Int)
  | .returned r => r.out.map fun o => o.lookup wordId
  | _ => []

set_option maxRecDepth 10000 in
theorem lappedRun_ids :
    ∃ s, ((ring 3).system Nat).Reachable s ∧ ∃ r, s.pc 1 = .returned r ∧
      r.out.map (fun o => o.lookup wordId) = [some 1, some 3] := by
  have hrun : (((ring 3).system Nat).run ⟨(ring 3).boot, fun _ => .idle⟩ lappedRun).any
      (fun s : Config Nat Mem Pc => decide (returnedIds (s.pc 1) = [some 1, some 3])) = true := by
    decide
  obtain ⟨s, hs, hids⟩ := (Option.any_eq_true _ _).mp hrun
  refine ⟨s, ⟨_, _, rfl, hs⟩, ?_⟩
  have hids := of_decide_eq_true hids
  generalize s.pc 1 = p at hids ⊢
  cases p with
  | returned r => exact ⟨r, rfl, hids⟩
  | _ => cases hids

/-- A snapshot may return the first and the third entry without the second: at no time were
these the most recent ones. -/
theorem ring_integrity_fails :
    ¬ ∀ (size : Nat) (s : Config Nat Mem Pc), ((ring size).system Nat).Reachable s →
      ∀ a r, s.pc a = .returned r → ∃ first n,
        r.out.map (fun o => o.lookup wordId) =
          (List.range' first n).map fun rid : Nat => some ((rid : Int) + 1) := by
  intro h
  obtain ⟨s, hs, r, hret, hids⟩ := lappedRun_ids
  obtain ⟨first, n, heq⟩ := h 3 s hs 1 r hret
  rw [hids] at heq
  have hn : n = 2 := by simpa using (congrArg List.length heq).symm
  subst hn
  simp only [List.range', List.map_cons, List.map_nil, List.cons.injEq, Option.some.injEq] at heq
  omega

/-- The snapshot of that run keeps its promise: the second entry's slot has a later one. -/
theorem ring_integrity_lapped :
    ∃ s r, ((ring 3).system Nat).Reachable s ∧ s.pc 1 = .returned r ∧
      r.out.map (fun o => o.lookup wordId) = [some 1, some 3] ∧
      (∀ o ∈ r.out, Untorn 3 s.mem o) ∧ ∃ kept, r.Promise 3 s.mem kept := by
  obtain ⟨s, hs, r, hret, hids⟩ := lappedRun_ids
  have hpromise := (ring_integrity hs).2.2.2.1 1 r hret
  exact ⟨s, r, hs, hret, hids, hpromise⟩

end TorchMojoBackend.FlightRecorder.Ring
