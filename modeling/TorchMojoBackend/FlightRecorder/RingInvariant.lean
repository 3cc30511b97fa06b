/-
  `FlightRecorder.RingInvariant`: what holds of the ring in every reachable state.

  At most one thread writes to a slot and one records.  The ids recorded in a slot
  are those of its remainder, in order, and every id below `H_NEXT` has been.  So
  the id of a slot is the latest one recorded there, a job that is about an older
  entry finds another id and stores nothing, and a snapshot that finds another id
  than the one it looks for finds a newer one.
-/
import TorchMojoBackend.FlightRecorder.Ring

set_option autoImplicit false

namespace TorchMojoBackend.FlightRecorder.Ring

open TorchMojoBackend.Foundation

/-! ## Jobs -/

/-- The word a stamp, a link or a mark changes. -/
def Job.word : Job → Nat
  | .record _ _ _ _ => wordId
  | .link _ _ => wordLink
  | .untracked _ => wordFlags
  | .done _ _ => wordDone

/-- The ids recorded by jobs. -/
def ids (log : List Job) : List Nat := log.filterMap Job.recorded?

theorem ids_concat (log : List Job) (j : Job) :
    ids (log ++ [j]) = ids log ++ j.recorded?.toList := by
  unfold ids
  rw [List.filterMap_append]
  cases h : j.recorded? <;> simp [h]

/-- A job that records no entry stores at most its word, only in its entry, and a stamp only
in an entry that has none. -/
theorem Job.stores_of_not_recorded {j : Job} (hj : j.recorded? = none) (c : Words) :
    j.stores c = [] ∨ c wordId = j.rid1 ∧ (∃ x, j.stores c = [(j.word, x)]) ∧
      (j.word = wordDone → c wordDone = 0) := by
  cases j with
  | record rid e created thread => cases hj
  | link rid1 target =>
      by_cases hid : c wordId = rid1
      · exact .inr ⟨hid, ⟨target, if_pos hid⟩, fun h => absurd h (show wordLink ≠ wordDone by decide)⟩
      · exact .inl (if_neg hid)
  | untracked rid1 =>
      by_cases hid : c wordId = rid1
      · exact .inr ⟨hid, ⟨orUntracked (c wordFlags), if_pos hid⟩,
          fun h => absurd h (show wordFlags ≠ wordDone by decide)⟩
      · exact .inl (if_neg hid)
  | done rid1 now =>
      by_cases hid : c wordId = rid1 ∧ c wordDone = 0
      · exact .inr ⟨hid.1, ⟨max now 1, if_pos hid⟩, fun _ => hid.2⟩
      · exact .inl (if_neg hid)

theorem Job.word_ne_wordId {j : Job} (hj : j.recorded? = none) : j.word ≠ wordId := by
  cases j with
  | record => cases hj
  | link => exact show wordLink ≠ wordId by decide
  | untracked => exact show wordFlags ≠ wordId by decide
  | done => exact show wordDone ≠ wordId by decide

/-- The id of a slot after a job. -/
theorem Job.apply_wordId (j : Job) (c : Words) :
    j.apply c wordId = (j.recorded?.map fun rid : Nat => (rid : Int) + 1).getD (c wordId) := by
  cases hj : j.recorded? with
  | none =>
      unfold apply
      obtain heq | ⟨-, ⟨x, heq⟩, -⟩ := Job.stores_of_not_recorded hj c
      · rw [heq]
        rfl
      · rw [heq]
        exact Function.update_of_ne (Job.word_ne_wordId hj).symm x c
  | some rid =>
      cases j with
      | record rid' e created thread =>
          cases hj
          rfl
      | link | untracked | done => cases hj

/-- The first stamp stays. -/
theorem Job.apply_wordDone {j : Job} (hj : j.recorded? = none) {c : Words}
    (hdone : c wordDone ≠ 0) : j.apply c wordDone = c wordDone := by
  unfold apply
  obtain heq | ⟨-, ⟨x, heq⟩, hfirst⟩ := Job.stores_of_not_recorded hj c
  · rw [heq]
    rfl
  · rw [heq]
    exact Function.update_of_ne (fun h => hdone (hfirst h.symm)) x c

theorem contents_concat (log : List Job) (j : Job) :
    contents (log ++ [j]) = j.apply (contents log) := by
  simp [contents, replay]

/-- A slot has the id recorded last. -/
theorem contents_wordId (log : List Job) :
    contents log wordId = ((ids log).getLast?.map fun rid : Nat => (rid : Int) + 1).getD 0 := by
  induction log using List.reverseRecOn with
  | nil => rfl
  | append_singleton log j ih =>
      rw [contents_concat, Job.apply_wordId, ids_concat]
      cases hj : j.recorded? with
      | none => simpa using ih
      | some rid => simp

/-- In a slot whose ids increase, an entry that keeps its id keeps its first stamp. -/
theorem first_stamp_stays {before after : List Job}
    (hsorted : (ids (before ++ after)).Pairwise (· < ·)) (hdone : contents before wordDone ≠ 0)
    (hid : contents (before ++ after) wordId = contents before wordId) :
    contents (before ++ after) wordDone = contents before wordDone := by
  induction after using List.reverseRecOn with
  | nil => rw [List.append_nil]
  | append_singleton after j ih =>
      rw [← List.append_assoc] at hsorted hid ⊢
      rw [ids_concat] at hsorted
      obtain ⟨hinit, -, hlast⟩ := List.pairwise_append.mp hsorted
      rw [contents_concat] at hid ⊢
      rw [Job.apply_wordId] at hid
      cases hj : j.recorded? with
      | none =>
          rw [hj] at hid
          have hkept := ih hinit hid
          rw [Job.apply_wordDone hj (hkept ▸ hdone), hkept]
      | some rid =>
          -- a later entry has another id
          rw [hj, contents_wordId before] at hid
          cases hbefore : (ids before).getLast? with
          | none =>
              rw [hbefore] at hid
              simp only [Option.map_some, Option.getD_some, Option.map_none, Option.getD_none]
                at hid
              omega
          | some r =>
              rw [hbefore] at hid
              simp only [Option.map_some, Option.getD_some] at hid
              have hmem : r ∈ ids (before ++ after) := by
                unfold ids
                rw [List.filterMap_append]
                exact List.mem_append_left _ (List.mem_of_getLast? hbefore)
              have hlt := hlast r hmem rid (by rw [hj]; exact List.mem_singleton.mpr rfl)
              omega

/-! ## Locations -/

/-- The thread has the slot `i`. -/
def Pc.Holds (size i : Nat) : Pc → Prop
  | .check _ j | .load _ j | .store _ j _ => j.slot size = i
  | _ => False

/-- The thread has the backend mutex. -/
def Pc.Producer : Pc → Prop
  | .next _ _ _ | .publish _ | .leave => True
  | .lock j | .swap _ j | .check _ j | .load _ j | .store _ j _ => j.producer = true
  | _ => False

/-- The slot `i` is locked. -/
def Busy (i : Nat) (m : Mem) : Prop := (m.slots i).version % 2 = 1

/-- The backend mutex is locked. -/
def Locked (m : Mem) : Prop := m.locked = true

/-- An entry that is recorded takes the id `H_NEXT`. -/
def RecordsNext (m : Mem) (j : Job) : Prop := ∀ rid, j.recorded? = some rid → rid = m.next

/-- An entry as some jobs of its slot left it. -/
def Untorn (size : Nat) (m : Mem) (o : List (Nat × Int)) : Prop :=
  ∃ (rid : Nat) (log : List Job), o.lookup wordId = some ((rid : Int) + 1) ∧
    log <+: (m.slots (rid % size)).log ∧ o.map Prod.fst = List.range' 1 wordLink ∧
    ∀ p ∈ o, contents log p.1 = p.2

/-- What a snapshot has so far: the ids from `limit - size` on, but those a newer entry has
the slot of and those it gave up. -/
structure Reader.Ok (size : Nat) (m : Mem) (r : Reader) : Prop where
  limit_le : r.limit ≤ m.next
  start_le : r.limit - size ≤ r.rid
  rid_le : r.rid ≤ r.limit
  kept : ∃ kept : List Nat,
    r.out.map (fun o => o.lookup wordId) = kept.map (fun n => some ((n : Int) + 1)) ∧
    kept.Sublist (List.range' (r.limit - size) (r.rid - (r.limit - size))) ∧
    ∀ n, r.limit - size ≤ n → n < r.rid → n ∈ kept ∨ n ∈ r.newer ∨ n ∈ r.busy
  out : ∀ o ∈ r.out, Untorn size m o
  newer : ∀ n ∈ r.newer, ∃ n', n < n' ∧ n' ∈ ids (m.slots (n % size)).log

/-- The copy of the words in order. -/
def Copies (view : View Nat Int) : Prop := view.got.map Prod.fst = List.range' 1 view.got.length

/-- What a thread relies on where it is. -/
def Pc.Ok (size : Nat) (m : Mem) : Pc → Prop
  | .lock j => RecordsNext m j
  | .swap v j => v % 2 = 0 ∧ RecordsNext m j
  | .check v j => (m.slots (j.slot size)).Held Job.apply (fun _ => 0) v ∧ j.recorded? = none
  | .load v j => (m.slots (j.slot size)).Held Job.apply (fun _ => 0) v ∧ j.recorded? = none ∧
      (m.slots (j.slot size)).words wordId = j.rid1
  | .store v j stores =>
      (m.slots (j.slot size)).Working Job.apply (fun _ => 0) v j stores ∧ RecordsNext m j ∧
        (j.recorded? = none → ∀ p ∈ stores,
          (m.slots (j.slot size)).words wordId = j.rid1 ∧ p.1 = j.word)
  | .publish rid => rid = m.next ∧ rid ∈ ids (m.slots (rid % size)).log
  | .entry r _ => r.Ok size m ∧ r.rid < r.limit
  | .copy r _ view => r.Ok size m ∧ r.rid < r.limit ∧
      View.Sees (m.slots (r.rid % size)) view ∧ Copies view ∧ view.got.length < wordLink
  | .recheck r _ view => r.Ok size m ∧ r.rid < r.limit ∧
      View.Sees (m.slots (r.rid % size)) view ∧ view.got.map Prod.fst = List.range' 1 wordLink
  | .returned r => r.Ok size m ∧ (r.out.length < r.cap → r.rid = r.limit)
  | _ => True

theorem Job.producer_of_recorded {j : Job} {rid : Nat} (h : j.recorded? = some rid) :
    j.producer = true := by
  cases j with
  | record => rfl
  | link | untracked | done => cases h

theorem ids_mono {log log' : List Job} (h : log <+: log') {n : Nat} (hn : n ∈ ids log) :
    n ∈ ids log' := by
  obtain ⟨rest, rfl⟩ := h
  unfold ids
  rw [List.filterMap_append]
  exact List.mem_append_left _ hn

section
variable {size : Nat} {m m' : Mem}

theorem Untorn.mono {o : List (Nat × Int)} (h : Untorn size m o)
    (hlogs : ∀ i, (m.slots i).log <+: (m'.slots i).log) : Untorn size m' o := by
  obtain ⟨rid, log, hid, hlog, hwords, hvals⟩ := h
  exact ⟨rid, log, hid, hlog.trans (hlogs _), hwords, hvals⟩

theorem Reader.Ok.mono {r : Reader} (h : r.Ok size m)
    (hlogs : ∀ i, (m.slots i).log <+: (m'.slots i).log) (hnext : m.next ≤ m'.next) :
    r.Ok size m' := by
  refine ⟨Nat.le_trans h.limit_le hnext, h.start_le, h.rid_le, h.kept,
    fun o ho => (h.out o ho).mono hlogs, fun n hn => ?_⟩
  obtain ⟨n', hlt, hmem⟩ := h.newer n hn
  exact ⟨n', hlt, ids_mono (hlogs _) hmem⟩

/-- A step of another thread leaves what a thread relies on. -/
theorem Pc.Ok.frame {p : Pc} (h : p.Ok size m)
    (hslots : ∀ i, (m.slots i).Step (m'.slots i))
    (hheld : ∀ i, p.Holds size i → m'.slots i = m.slots i) (hnext : m.next ≤ m'.next)
    (hproducer : p.Producer → m'.next = m.next) : p.Ok size m' := by
  have hlogs : ∀ i, (m.slots i).log <+: (m'.slots i).log := fun i => (hslots i).log_le
  have hrecords : ∀ j : Job, (j.producer = true → p.Producer) → RecordsNext m j →
      RecordsNext m' j := by
    intro j hj hm rid hrid
    rw [hproducer (hj (Job.producer_of_recorded hrid))]
    exact hm rid hrid
  cases p with
  | idle | next _ _ _ | look _ _ | leave | limit _ => trivial
  | lock j => exact hrecords j id h
  | swap v j => exact ⟨h.1, hrecords j id h.2⟩
  | check v j =>
      simp only [Pc.Ok, hheld _ rfl]
      exact h
  | load v j =>
      simp only [Pc.Ok, hheld _ rfl]
      exact h
  | store v j stores =>
      simp only [Pc.Ok, hheld _ rfl]
      exact ⟨h.1, hrecords j id h.2.1, h.2.2⟩
  | publish rid =>
      exact ⟨h.1.trans (hproducer trivial).symm, ids_mono (hlogs _) h.2⟩
  | entry r attempt => exact ⟨h.1.mono hlogs hnext, h.2⟩
  | copy r attempt view =>
      exact ⟨h.1.mono hlogs hnext, h.2.1, h.2.2.1.step (hslots _), h.2.2.2⟩
  | recheck r attempt view =>
      exact ⟨h.1.mono hlogs hnext, h.2.1, h.2.2.1.step (hslots _), h.2.2.2⟩
  | returned r => exact ⟨h.1.mono hlogs hnext, h.2⟩

end

/-! ## What a step does -/

/-- The effect of a step of a thread on the slots, on `H_NEXT` and on the locks. -/
structure Effect (size : Nat) (p : Pc) (m : Mem) (p' : Pc) (m' : Mem) : Prop where
  slots : ∀ i, (m.slots i).Step (m'.slots i)
  touched : ∀ i, m'.slots i = m.slots i ∨ p.Holds size i ∨ ¬ Busy i m
  valid : ∀ i, (m'.slots i).Valid Job.apply fun _ => 0
  next : m'.next = m.next ∨ p = .publish m.next ∧ m'.next = m.next + 1
  published : ∀ rid, p = .publish rid → m'.next = rid + 1
  ids : ∀ i, ids (m'.slots i).log = ids (m.slots i).log ∨
    ∃ rid, p' = .publish rid ∧ p.Producer ∧ (∀ rid', p ≠ .publish rid') ∧ rid = m.next ∧
      i = rid % size ∧ Ring.ids (m'.slots i).log = Ring.ids (m.slots i).log ++ [rid]
  words : ∀ i k, (m'.slots i).words k ≠ (m.slots i).words k →
    ∃ v j x stores, p = .store v j ((k, x) :: stores) ∧ j.slot size = i
  role : ∀ i, Program.RoleStep (Pc.Holds size i) (Busy i) p m p' m'
  mutex : Program.RoleStep Pc.Producer Locked p m p' m'
  ok : p'.Ok size m'

section
variable {size : Nat} {p p' : Pc} {m : Mem}

/-- A step that writes no memory. -/
theorem Effect.quiet (hvalid : ∀ i, (m.slots i).Valid Job.apply fun _ => 0)
    (hpublish : ∀ rid, p ≠ .publish rid) (hholds : ∀ i, p'.Holds size i ↔ p.Holds size i)
    (hproducer : p'.Producer ↔ p.Producer) (hok : p'.Ok size m) : Effect size p m p' m where
  slots _ := .same
  touched _ := .inl rfl
  valid := hvalid
  next := .inl rfl
  published rid hp := absurd hp (hpublish rid)
  ids _ := .inl rfl
  words _ _ hne := absurd rfl hne
  role i := .keep (hholds i) Iff.rfl
  mutex := .keep hproducer Iff.rfl
  ok := hok

/-- A step on the mutex alone. -/
theorem Effect.lock {l : Bool} (hvalid : ∀ i, (m.slots i).Valid Job.apply fun _ => 0)
    (hpublish : ∀ rid, p ≠ .publish rid) (hholds : ∀ i, p'.Holds size i ↔ p.Holds size i)
    (hmutex : Program.RoleStep Pc.Producer Locked p m p' { m with locked := l })
    (hok : p'.Ok size { m with locked := l }) : Effect size p m p' { m with locked := l } where
  slots _ := .same
  touched _ := .inl rfl
  valid := hvalid
  next := .inl rfl
  published rid hp := absurd hp (hpublish rid)
  ids _ := .inl rfl
  words _ _ hne := absurd rfl hne
  role i := .keep (hholds i) Iff.rfl
  mutex := hmutex
  ok := hok

theorem setSlot_slots (m : Mem) (i : Nat) (c : Slot) (k : Nat) :
    (m.setSlot i c).slots k = if k = i then c else m.slots k := by
  unfold Mem.setSlot
  by_cases hk : k = i
  · rw [if_pos hk, hk]
    exact Function.update_self ..
  · rw [if_neg hk]
    exact Function.update_of_ne hk ..

@[simp] theorem setSlot_self (m : Mem) (i : Nat) (c : Slot) : (m.setSlot i c).slots i = c := by
  rw [setSlot_slots, if_pos rfl]

/-- A writer's step on one slot. -/
theorem Effect.setSlot {i : Nat} {c : Slot}
    (hvalid : ∀ i, (m.slots i).Valid Job.apply fun _ => 0)
    (hpublish : ∀ rid, p ≠ .publish rid) (hstep : (m.slots i).Step c)
    (htouched : p.Holds size i ∨ ¬ Busy i m) (hc : c.Valid Job.apply fun _ => 0)
    (hids : Ring.ids c.log = Ring.ids (m.slots i).log ∨
      ∃ rid, p' = .publish rid ∧ p.Producer ∧ rid = m.next ∧ i = rid % size ∧
        Ring.ids c.log = Ring.ids (m.slots i).log ++ [rid])
    (hwords : ∀ k, c.words k ≠ (m.slots i).words k →
      ∃ v j x stores, p = .store v j ((k, x) :: stores) ∧ j.slot size = i)
    (hself : Program.RoleStep (Pc.Holds size i) (Busy i) p m p' (m.setSlot i c))
    (hholds : ∀ k, k ≠ i → (p'.Holds size k ↔ p.Holds size k))
    (hproducer : p'.Producer ↔ p.Producer) (hok : p'.Ok size (m.setSlot i c)) :
    Effect size p m p' (m.setSlot i c) := by
  refine ⟨fun k => ?_, fun k => ?_, fun k => ?_, .inl rfl, fun rid hp => absurd hp (hpublish rid),
    fun k => ?_, fun k x hne => ?_, fun k => ?_, .keep hproducer Iff.rfl, hok⟩
  · rw [setSlot_slots]
    split
    · rename_i heq
      exact heq ▸ hstep
    · exact .same
  · rw [setSlot_slots]
    split
    · rename_i heq
      exact .inr (heq ▸ htouched)
    · exact .inl rfl
  · rw [setSlot_slots]
    split
    · exact hc
    · exact hvalid k
  · rw [setSlot_slots]
    split
    · rename_i heq
      rw [heq]
      refine hids.imp id ?_
      rintro ⟨rid, hp', hproducer, hrid, hi, heq⟩
      exact ⟨rid, hp', hproducer, hpublish, hrid, hi, heq⟩
    · exact .inl rfl
  · rw [setSlot_slots] at hne
    split at hne
    · rename_i heq
      rw [heq] at hne ⊢
      exact hwords x hne
    · exact absurd rfl hne
  · by_cases hk : k = i
    · exact hk ▸ hself
    · refine .keep (hholds k hk) ?_
      unfold Busy
      rw [setSlot_slots, if_neg hk]

/-- A thread makes a call. -/
theorem call_effect (hvalid : ∀ i, (m.slots i).Valid Job.apply fun _ => 0) {a : Action}
    {m' : Mem} (h : call a m = some (p', m')) : Effect size .idle m p' m' := by
  have hmutex : ∀ {q : Pc}, enterMutex q m = some (p', m') → q.Producer →
      (∀ i, ¬ q.Holds size i) → (∀ l, q.Ok size { m with locked := l }) →
      Effect size .idle m p' m' := by
    intro q hq hproducer hholds hok
    unfold enterMutex at hq
    split at hq
    · cases hq
    · rename_i hfree
      cases hq
      refine .lock hvalid (fun _ => nofun) (fun i => ?_) (.acquire hfree id rfl hproducer) (hok _)
      exact iff_of_false (hholds i) id
  unfold call at h
  split at h
  · exact hmutex h trivial (fun _ => id) fun _ => trivial
  · split at h
    · cases h
    · exact hmutex h rfl (fun _ => id) fun _ _ hrid => nomatch hrid
  · split at h
    · cases h
    · exact hmutex h rfl (fun _ => id) fun _ _ hrid => nomatch hrid
  · split at h
    · cases h
    · cases h
      exact .quiet hvalid (fun _ => nofun) (fun _ => Iff.rfl) Iff.rfl trivial
  · cases h
    exact .quiet hvalid (fun _ => nofun) (fun _ => Iff.rfl) Iff.rfl trivial
  · cases h

/-- A writer whose exchange of the version succeeds. -/
theorem acquire_effect (hvalid : ∀ i, (m.slots i).Valid Job.apply fun _ => 0) {v : Nat} {j : Job}
    (hok : (Pc.swap v j).Ok size m) (hversion : (m.slots (j.slot size)).version = v)
    (hholds : ∀ i, p'.Holds size i ↔ j.slot size = i)
    (hproducer : p'.Producer ↔ j.producer = true)
    (hok' : (m.slots (j.slot size)).acquire.Held Job.apply (fun _ => 0) v →
      p'.Ok size (m.setSlot (j.slot size) (m.slots (j.slot size)).acquire)) :
    Effect size (.swap v j) m p' (m.setSlot (j.slot size) (m.slots (j.slot size)).acquire) := by
  have heven : (m.slots (j.slot size)).version % 2 = 0 := hversion ▸ hok.1
  have hfree : ¬ Busy (j.slot size) m := by
    unfold Busy
    omega
  have hbusy : Busy (j.slot size) (m.setSlot (j.slot size) (m.slots (j.slot size)).acquire) := by
    unfold Busy
    rw [setSlot_self]
    change ((m.slots (j.slot size)).version + 1) % 2 = 1
    omega
  refine .setSlot hvalid (fun _ => nofun) (.acquire heven) (.inr hfree)
    ((hvalid _).acquire heven) (.inl rfl) (fun _ hne => absurd rfl hne)
    (.acquire hfree id hbusy ((hholds _).mpr rfl))
    (fun k hk => iff_of_false (fun h => hk ((hholds k).mp h).symm) id) hproducer (hok' ?_)
  exact hversion ▸ (hvalid _).held heven

/-- A writer that has the slot lays out the stores of its job. -/
theorem layout_ok {v : Nat} {j : Job} {stores : List (Nat × Int)}
    (hheld : (m.slots (j.slot size)).Held Job.apply (fun _ => 0) v) (hj : j.recorded? = none)
    (hstores : stores = j.stores (m.slots (j.slot size)).words) :
    (Pc.store v j stores).Ok size m := by
  subst hstores
  refine ⟨hheld.working rfl, fun rid hrid => ?_, fun _ q hq => ?_⟩
  · rw [hj] at hrid
    cases hrid
  · obtain heq | ⟨hid, ⟨x, heq⟩, -⟩ := Job.stores_of_not_recorded hj
      (m.slots (j.slot size)).words
    · rw [heq] at hq
      exact absurd hq List.not_mem_nil
    · rw [heq] at hq
      exact ⟨hid, by rw [List.mem_singleton.mp hq]⟩

/-- A writer stores a word. -/
theorem store_effect (hvalid : ∀ i, (m.slots i).Valid Job.apply fun _ => 0) {v : Nat} {j : Job}
    {k : Nat} {x : Int} {stores : List (Nat × Int)}
    (hok : (Pc.store v j ((k, x) :: stores)).Ok size m) :
    Effect size (.store v j ((k, x) :: stores)) m (.store v j stores)
      (m.setSlot (j.slot size) ((m.slots (j.slot size)).store k x)) := by
  obtain ⟨hwork, hnext, hword⟩ := hok
  have hodd : (m.slots (j.slot size)).version % 2 = 1 := by
    have heven := hwork.even
    have hversion := hwork.version
    omega
  refine .setSlot hvalid (fun _ => nofun) (.store hodd k x) (.inl rfl) ((hvalid _).store hodd k x)
    (.inl rfl) (fun k' hne => ?_) (.keep Iff.rfl ?_) (fun _ _ => Iff.rfl) Iff.rfl
    ⟨?_, hnext, fun hj q hq => ?_⟩
  · by_cases hk : k' = k
    · exact ⟨v, j, x, stores, hk ▸ rfl, rfl⟩
    · exact absurd (Function.update_of_ne hk ..) hne
  · unfold Busy
    rw [setSlot_self]
    rfl
  · rw [setSlot_self]
    exact hwork.store
  · obtain ⟨hid, hk⟩ := hword hj (k, x) List.mem_cons_self
    refine ⟨?_, (hword hj q (List.mem_cons_of_mem _ hq)).2⟩
    rw [setSlot_self, ← hid]
    exact Function.update_of_ne (fun h => Job.word_ne_wordId hj (hk.symm.trans h.symm)) ..

/-- A writer gives a slot back. -/
theorem release_effect (hvalid : ∀ i, (m.slots i).Valid Job.apply fun _ => 0) {v : Nat} {j : Job}
    (hok : (Pc.store v j []).Ok size m) (hholds : ∀ i, ¬ p'.Holds size i)
    (hproducer : p'.Producer ↔ j.producer = true)
    (hrecorded : ∀ rid, j.recorded? = some rid → p' = .publish rid)
    (hok' : p'.Ok size
      (m.setSlot (j.slot size) ((m.slots (j.slot size)).release v j))) :
    Effect size (.store v j []) m p'
      (m.setSlot (j.slot size) ((m.slots (j.slot size)).release v j)) := by
  obtain ⟨hwork, hnext, -⟩ := hok
  have hclear : ¬ Busy (j.slot size)
      (m.setSlot (j.slot size) ((m.slots (j.slot size)).release v j)) := by
    have heven := hwork.even
    unfold Busy
    rw [setSlot_self]
    change ¬ (v + 2) % 2 = 1
    omega
  refine .setSlot hvalid (fun _ => nofun) (.release hwork.even hwork.version j) (.inl rfl)
    ((hvalid _).release hwork) ?_ (fun _ hne => absurd rfl hne) (.release rfl hclear (hholds _))
    (fun k hk => iff_of_false (hholds k) (fun h => hk h.symm)) hproducer hok'
  change Ring.ids (_ ++ [j]) = _ ∨ ∃ rid, _ ∧ _ ∧ _ ∧ _ ∧ Ring.ids (_ ++ [j]) = _
  rw [ids_concat]
  cases hj : j.recorded? with
  | none => exact .inl (List.append_nil _)
  | some rid =>
      refine .inr ⟨rid, hrecorded rid hj, Job.producer_of_recorded hj, hnext rid hj, ?_, rfl⟩
      cases j with
      | record => cases hj; rfl
      | link | untracked | done => cases hj

/-- `H_NEXT` is written. -/
theorem publish_effect (hvalid : ∀ i, (m.slots i).Valid Job.apply fun _ => 0) {rid : Nat}
    (hok : (Pc.publish rid).Ok size m) :
    Effect size (.publish rid) m .leave { m with next := rid + 1 } where
  slots _ := .same
  touched _ := .inl rfl
  valid := hvalid
  next := .inr ⟨by rw [hok.1], by rw [hok.1]⟩
  published rid' h := by cases h; rfl
  ids _ := .inl rfl
  words _ _ hne := absurd rfl hne
  role _ := .keep Iff.rfl Iff.rfl
  mutex := .keep Iff.rfl Iff.rfl
  ok := trivial

/-- A writer's access. -/
theorem writeStep_effect (hvalid : ∀ i, (m.slots i).Valid Job.apply fun _ => 0)
    (hok : p.Ok size m) {m' : Mem} (h : writeStep size p m = some (p', m')) :
    Effect size p m p' m' := by
  unfold writeStep at h
  split at h
  · -- `_record` reads `H_NEXT`
    cases h
    exact .quiet hvalid (fun _ => nofun) (fun _ => Iff.rfl) (iff_of_true rfl trivial)
      fun rid hrid => by cases hrid; rfl
  · split at h
    · cases h
      exact .quiet hvalid (fun _ => nofun) (fun _ => Iff.rfl) Iff.rfl trivial
    · cases h
      exact .quiet hvalid (fun _ => nofun) (fun _ => Iff.rfl) (iff_of_false nofun id)
        fun _ => nofun
  · -- `_lock` reads the version
    dsimp only at h
    split at h
    · rename_i heven
      cases h
      exact .quiet hvalid (fun _ => nofun) (fun _ => Iff.rfl) Iff.rfl ⟨heven, hok⟩
    · cases h
      exact .quiet hvalid (fun _ => nofun) (fun _ => Iff.rfl) Iff.rfl hok
  · -- and exchanges it
    dsimp only at h
    split at h
    · rename_i v j hversion
      split at h
      · cases h
        refine acquire_effect hvalid hok hversion (fun _ => Iff.rfl) Iff.rfl fun hheld => ?_
        refine ⟨?_, hok.2, nofun⟩
        rw [setSlot_self]
        exact hheld.working rfl
      · cases h
        exact acquire_effect hvalid hok hversion (fun _ => Iff.rfl) Iff.rfl fun hheld =>
          ⟨by rw [setSlot_self]; exact hheld, rfl⟩
      · cases h
        exact acquire_effect hvalid hok hversion (fun _ => Iff.rfl) Iff.rfl fun hheld =>
          ⟨by rw [setSlot_self]; exact hheld, rfl⟩
      · cases h
        exact acquire_effect hvalid hok hversion (fun _ => Iff.rfl) Iff.rfl fun hheld =>
          ⟨by rw [setSlot_self]; exact hheld, rfl⟩
    · cases h
      exact .quiet hvalid (fun _ => nofun) (fun _ => Iff.rfl) Iff.rfl hok.2
  · -- the id under the lock
    obtain ⟨hheld, hj⟩ := hok
    split at h
    · rename_i v j hid
      split at h
      · cases h
        exact .quiet hvalid (fun _ => nofun) (fun _ => Iff.rfl) Iff.rfl
          (layout_ok hheld rfl (if_pos hid).symm)
      · cases h
        exact .quiet hvalid (fun _ => nofun) (fun _ => Iff.rfl) Iff.rfl ⟨hheld, rfl, hid⟩
      · cases h
        exact .quiet hvalid (fun _ => nofun) (fun _ => Iff.rfl) Iff.rfl ⟨hheld, rfl, hid⟩
      · cases hj
    · rename_i v j hid
      cases h
      refine .quiet hvalid (fun _ => nofun) (fun _ => Iff.rfl) Iff.rfl (layout_ok hheld hj ?_)
      obtain heq | ⟨hid', -, -⟩ := Job.stores_of_not_recorded hj (m.slots (j.slot size)).words
      · exact heq.symm
      · exact absurd hid' hid
  · -- the word to change
    obtain ⟨hheld, hj, hid⟩ := hok
    dsimp only at h
    split at h
    · cases h
      exact .quiet hvalid (fun _ => nofun) (fun _ => Iff.rfl) Iff.rfl
        (layout_ok hheld rfl (if_pos hid).symm)
    · cases h
      refine .quiet hvalid (fun _ => nofun) (fun _ => Iff.rfl) Iff.rfl (layout_ok hheld rfl ?_)
      exact if_congr (and_iff_right hid).symm rfl rfl
    · cases h
    · cases h
  · cases h
    exact store_effect hvalid hok
  · -- the slot is given back
    dsimp only at h
    have hwork := hok.1
    split at h
    · rename_i v j rid e created thread
      cases h
      refine release_effect hvalid hok (fun _ => id) (iff_of_true trivial rfl) ?_ ?_
      · rintro rid' hrid
        cases hrid
        rfl
      · refine ⟨hok.2.1 rid rfl, ?_⟩
        change rid ∈ ids ((m.setSlot (rid % size) _).slots (rid % size)).log
        rw [setSlot_self]
        change rid ∈ ids (_ ++ [_])
        rw [ids_concat]
        exact List.mem_append_right _ (List.mem_singleton.mpr rfl)
    · cases h
      exact release_effect hvalid hok (fun _ => id) (iff_of_true trivial rfl) (fun _ => nofun)
        trivial
    · cases h
      exact release_effect hvalid hok (fun _ => id) (iff_of_true trivial rfl) (fun _ => nofun)
        trivial
    · cases h
      exact release_effect hvalid hok (fun _ => id) (iff_of_false id nofun) (fun _ => nofun)
        trivial
  · cases h
    exact publish_effect hvalid hok
  · cases h
    exact .lock hvalid (fun _ => nofun) (fun _ => Iff.rfl) (.release trivial nofun id) trivial
  · cases h

end

end TorchMojoBackend.FlightRecorder.Ring
