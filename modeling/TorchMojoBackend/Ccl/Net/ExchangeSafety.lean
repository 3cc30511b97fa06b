/-
  `Ccl.Net.ExchangeSafety`: the invariant holds in every reachable state of the
  nodes, and what it says about landing groups, retired exchanges and tallies.
-/
import TorchMojoBackend.Ccl.Net.ExchangeInvariant
import Mathlib.Data.List.Count

set_option autoImplicit false

namespace TorchMojoBackend.Ccl.Net

open TorchMojoBackend.Foundation

variable {n : Nat} {c : NetConfig n}

/-! ## Steps of the host and of the stream -/

theorem At.fill {s : Nodes n} {i : Fin n} {a : Node n} (h : At c s i a) {d : Descriptor}
    (hfree : (a.work (a.filled + 1)).status ≠ 0) (hlt : a.filled + 1 < 2 ^ 31)
    (hall : AllToAll n d) : At c s i (a.fill d) := by
  have hposted := h.own.posted_le
  have hrequest := h.own.request_le
  have hnext := (h.own.cells.next_free_iff (by decide)).mp hfree
  apply h.same
  · exact ⟨⟨rfl, rfl, rfl, rfl, rfl⟩, rfl, rfl, rfl⟩
  refine { h.own with
    request_le := Nat.le_succ_of_le hrequest, filled_lt := hlt, cells := ?_, credit_le := ?_,
    credit_sent := ?_ }
  · have hcells : RingHolds WORK_SLOTS IbWork.Running
        (Filled n (Function.update a.credit (a.filled + 1) d.creditUpto) a.posted) a.works
        a.done a.filled := by
      apply h.own.cells.imp
      intro e w _ he hw
      refine ⟨hw.seq, hw.allToAll, ?_, hw.sent⟩
      rw [Function.update_of_ne (by omega)]
      exact hw.credit
    refine hcells.push hnext (c := fillWork _) rfl ⟨rfl, hall, ?_, ?_⟩
    · rw [Function.update_self]
      rfl
    · intro he
      omega
  · intro e he
    have he : e ≤ a.request := he
    show Function.update a.credit (a.filled + 1) d.creditUpto e ≤ a.consumed
    rw [Function.update_of_ne (by omega)]
    exact h.own.credit_le e he
  · intro e he
    have he : e ≤ a.posted := he
    show Function.update a.credit (a.filled + 1) d.creditUpto e ≤ a.creditSent
    rw [Function.update_of_ne (by omega)]
    exact h.own.credit_sent e he

theorem At.request {s : Nodes n} {i : Fin n} {a : Node n} (h : At c s i a) {seq : Nat}
    (hlt : a.request < seq) (hle : seq ≤ a.filled)
    (hcredit : ∀ e, e < seq + 1 → a.credit e ≤ a.consumed) :
    At c s i { a with request := seq } := by
  have hdone := h.own.done_le
  have hposted := h.own.posted_le
  apply h.same
  · exact ⟨⟨rfl, rfl, rfl, rfl, rfl⟩, rfl, rfl, rfl⟩
  refine { h.own with
    done_le := ?_, posted_le := ?_, request_le := hle, credit_le := ?_ }
  · exact Nat.le_of_lt (Nat.lt_of_le_of_lt hdone hlt)
  · exact Nat.le_of_lt (Nat.lt_of_le_of_lt hposted hlt)
  · intro e he
    exact hcredit e (Nat.lt_succ_of_le he)

theorem At.consume {s : Nodes n} {i : Fin n} {a : Node n} (h : At c s i a)
    (hlt : a.consumed < a.done) : At c s i { a with consumed := a.consumed + 1 } := by
  apply h.same
  · exact ⟨⟨rfl, rfl, rfl, rfl, rfl⟩, rfl, rfl, rfl⟩
  exact { h.own with
    creditSent_le := Nat.le_succ_of_le h.own.creditSent_le
    creditDevice_le := Nat.le_succ_of_le h.own.creditDevice_le
    consumed_le := hlt
    credit_le := fun e he => Nat.le_succ_of_le (h.own.credit_le e he) }

theorem At.publish {s : Nodes n} {i : Fin n} {a : Node n} (h : At c s i a) {seq : Nat}
    (hle : seq ≤ a.consumed) : At c s i { a with creditDevice := seq } := by
  apply h.same
  · exact ⟨⟨rfl, rfl, rfl, rfl, rfl⟩, rfl, rfl, rfl⟩
  exact { h.own with creditDevice_le := hle }

/-! ## Steps of the transport at one node -/

theorem flushCompletion_fits (i : Fin n) (posted : Nat) : flushCompletion.Fits i posted := by
  refine ⟨rfl, ?_, ?_, ?_⟩ <;> simp [flushCompletion]

theorem sendCompletion_fits {i j : Fin n} {seq posted : Nat} (hj : j ≠ i) (hseq : seq ≤ posted) :
    (sendCompletion j seq).Fits i posted := by
  refine ⟨rfl, ?_, fun _ => ⟨hseq, j, hj, rfl⟩, ?_⟩ <;> simp [sendCompletion]

theorem recvCompletion_fits {i j : Fin n} (hne : i ≠ j) (imm posted : Nat) :
    (recvCompletion i imm).Fits j posted := by
  refine ⟨rfl, fun _ => ⟨i, hne, rfl⟩, ?_, ?_⟩ <;> simp [recvCompletion]

theorem received_append_of_ne {x : NetCompletion n} {q : List (NetCompletion n)}
    (hkind : x.kind ≠ .recv) : received (q ++ [x]) = received q := by
  unfold received
  rw [List.filter_append, List.filter_cons, if_neg, List.filter_nil, List.append_nil]
  rw [decide_eq_true_eq]
  exact hkind

theorem At.flushed {s : Nodes n} {i : Fin n} {a : Node n} (h : At c s i a) :
    At c s i { a with flushes := a.flushes - 1, cq := a.cq ++ [flushCompletion] } := by
  apply h.same
  · refine ⟨⟨rfl, rfl, rfl, rfl, ?_⟩, rfl, rfl, rfl⟩
    exact received_append_of_ne (by simp [flushCompletion])
  refine { h.own with flush_read := ?_, cq := ?_, send_known := ?_, in_order := ?_ }
  · intro herr hflush
    have hread := h.own.flush_read herr hflush
    show 0 < a.flushDone + (a.flushes - 1) + (a.cq ++ [flushCompletion]).countP _
    rw [List.countP_append, List.countP_singleton, if_pos (by simp [flushCompletion])]
    omega
  · intro x hx
    obtain hx | hx := List.mem_append.mp hx
    · exact h.own.cq x hx
    · rw [List.mem_singleton.mp hx]
      exact flushCompletion_fits i a.posted
  · intro j e hj he1 he
    obtain hdone | hout | hacks | ⟨x, hx, hc⟩ := h.own.send_known j e hj he1 he
    · exact Or.inl hdone
    · exact Or.inr (Or.inl hout)
    · exact Or.inr (Or.inr (Or.inl hacks))
    · exact Or.inr (Or.inr (Or.inr ⟨x, List.mem_append_left _ hx, hc⟩))
  · intro hord j w hw
    apply h.own.in_order hord j w
    obtain hw | ⟨x, hx, hc⟩ := hw
    · exact Or.inl hw
    · obtain hx | hx := List.mem_append.mp hx
      · exact Or.inr ⟨x, hx, hc⟩
      · rw [List.mem_singleton.mp hx] at hc
        cases hc

theorem At.ack {s : Nodes n} {i : Fin n} {a : Node n} (h : At c s i a) {j : Fin n} {seq : Nat}
    (hmem : (j, seq) ∈ a.acks) (hnext : c.ordered = true → a.reportsNext j seq = true) :
    At c s i { a with
      acks := a.acks.erase (j, seq), cq := a.cq ++ [sendCompletion j seq] } := by
  obtain ⟨hj, hseq⟩ := h.own.acks _ hmem
  have hcompletes : ∀ k e, (sendCompletion j seq).completes k e = true ↔ k = j ∧ e = seq := by
    intro k e
    rw [NetCompletion.completes_iff]
    constructor
    · rintro ⟨_, hk, he⟩
      exact ⟨(Option.some.inj hk).symm, he.symm⟩
    · rintro ⟨rfl, rfl⟩
      exact ⟨rfl, rfl, rfl⟩
  apply h.same
  · refine ⟨⟨rfl, rfl, rfl, rfl, ?_⟩, rfl, rfl, rfl⟩
    exact received_append_of_ne (by simp [sendCompletion])
  refine { h.own with
    flush_read := ?_, acks := ?_, cq := ?_, send_known := ?_, in_order := ?_ }
  · intro herr hflush
    have hread := h.own.flush_read herr hflush
    show 0 < a.flushDone + a.flushes + (a.cq ++ [sendCompletion j seq]).countP _
    rw [List.countP_append]
    omega
  · intro x hx
    exact h.own.acks x (List.mem_of_mem_erase hx)
  · intro x hx
    obtain hx | hx := List.mem_append.mp hx
    · exact h.own.cq x hx
    · rw [List.mem_singleton.mp hx]
      exact sendCompletion_fits hj hseq
  · intro k e hk he1 he
    obtain hdone | hout | hacks | ⟨x, hx, hc⟩ := h.own.send_known k e hk he1 he
    · exact Or.inl hdone
    · exact Or.inr (Or.inl hout)
    · by_cases heq : (k, e) = (j, seq)
      · obtain ⟨rfl, rfl⟩ := Prod.mk.inj heq
        refine Or.inr (Or.inr (Or.inr ⟨sendCompletion k e, ?_, ?_⟩))
        · exact List.mem_append_right _ List.mem_cons_self
        · exact (hcompletes k e).mpr ⟨rfl, rfl⟩
      · exact Or.inr (Or.inr (Or.inl ((List.mem_erase_of_ne heq).mpr hacks)))
    · exact Or.inr (Or.inr (Or.inr ⟨x, List.mem_append_left _ hx, hc⟩))
  · intro hord k w hw
    have hold : (w ≤ a.sendDone k ∨ ∃ x, x ∈ a.cq ∧ x.completes k w = true) ∨
        k = j ∧ w = seq := by
      obtain hw | ⟨x, hx, hc⟩ := hw
      · exact Or.inl (Or.inl hw)
      · obtain hx | hx := List.mem_append.mp hx
        · exact Or.inl (Or.inr ⟨x, hx, hc⟩)
        · rw [List.mem_singleton.mp hx] at hc
          exact Or.inr ((hcompletes k w).mp hc)
    obtain hold | ⟨rfl, rfl⟩ := hold
    · obtain ⟨hout, hacks⟩ := h.own.in_order hord k w hold
      exact ⟨hout, fun e he => hacks e (List.mem_of_mem_erase he)⟩
    · -- The transport reports the oldest payload for the peer first.
      have hfirst := hnext hord
      unfold Node.reportsNext at hfirst
      rw [Bool.and_eq_true, List.all_eq_true, List.all_eq_true] at hfirst
      obtain ⟨hacks, hout⟩ := hfirst
      constructor
      · intro p e hp hcarries
        have := hout p hp
        cases p with
        | data peer laddr bytes raddr imm wrId =>
            simp only [Post.carries, Bool.and_eq_true, decide_eq_true_eq] at hcarries
            simp only [hcarries.1, ne_eq, not_true_eq_false, decide_false, Bool.false_or,
              decide_eq_true_eq] at this
            omega
        | credit peer raddr imm wrId => cases hcarries
        | flush addr wrId => cases hcarries
      · intro e he
        have := hacks (k, e) he
        simpa using this

/-! ## Landing -/

/-- The completion `x` at `j` announces the post `p` of `i`. -/
structure Announces (i j : Fin n) (p : Post n) (x : NetCompletion n) : Prop where
  carries : ∀ l e, p.carries l e = true ↔ l = j ∧ x.brings i e = true
  credits : ∀ l u, p.credits l u = true ↔ l = j ∧ x.credits i u = true
  peer : x.peer = some i
  kind : x.kind = .recv

theorem announces_data {i j : Fin n} (laddr bytes raddr : Int) {imm wrId : Nat}
    (himm : imm = wrId) (hlt : wrId < 2 ^ 31) :
    Announces i j (.data j laddr bytes raddr imm wrId) (recvCompletion i imm) := by
  subst himm
  refine ⟨?_, ?_, rfl, rfl⟩
  · intro l e
    rw [NetCompletion.brings_iff]
    simp only [Post.carries, recvCompletion, Bool.and_eq_true, decide_eq_true_eq, true_and,
      immIsCredit_of_lt hlt, immSeq_of_lt hlt]
    exact and_congr_left fun _ => eq_comm
  · intro l u
    rw [NetCompletion.credits_iff]
    simp [Post.credits, recvCompletion, immIsCredit_of_lt hlt]

theorem announces_credit {i j : Fin n} (raddr : Int) {imm : Nat} (wrId : Nat)
    (himm : immIsCredit imm = true) :
    Announces i j (.credit j raddr imm wrId) (recvCompletion i imm) := by
  refine ⟨?_, ?_, rfl, rfl⟩
  · intro l e
    rw [NetCompletion.brings_iff]
    simp [Post.carries, recvCompletion, himm]
  · intro l u
    rw [NetCompletion.credits_iff]
    simp only [Post.credits, recvCompletion, Bool.and_eq_true, decide_eq_true_eq, true_and,
      and_assoc]
    exact and_congr_left fun _ => eq_comm

/-- The nodes when a post of `i` has landed at `j`. -/
def landed (s : Nodes n) (i j : Fin n) (p : Post n) (x : NetCompletion n)
    (acks : List (Fin n × Nat)) : Nodes n :=
  report (Function.update s i { s i with out := (s i).out.erase p, acks := acks }) j x

section Landing

variable {s : Nodes n} {i j : Fin n} {p : Post n} {x : NetCompletion n}
  {acks : List (Fin n × Nat)}

theorem landed_sender (hne : i ≠ j) :
    landed s i j p x acks i = { s i with out := (s i).out.erase p, acks := acks } := by
  unfold landed report
  rw [Function.update_of_ne hne, Function.update_self]

theorem landed_receiver (hne : i ≠ j) :
    landed s i j p x acks j = { s j with cq := (s j).cq ++ [x] } := by
  unfold landed report
  rw [Function.update_self, Function.update_of_ne hne.symm]

theorem landed_of_ne {k : Fin n} (hi : k ≠ i) (hj : k ≠ j) : landed s i j p x acks k = s k := by
  unfold landed report
  rw [Function.update_of_ne hj, Function.update_of_ne hi]

/-- What a landing leaves as it was, at every node. -/
theorem landed_node (s : Nodes n) (p : Post n) (x : NetCompletion n)
    (acks : List (Fin n × Nat)) (hne : i ≠ j) (k : Fin n) :
    (landed s i j p x acks k).toIb = (s k).toIb ∧
      (landed s i j p x acks k).out = (if k = i then (s k).out.erase p else (s k).out) ∧
      (landed s i j p x acks k).cq = (if k = j then (s k).cq ++ [x] else (s k).cq) := by
  by_cases hi : k = i
  · subst hi
    rw [landed_sender hne, if_pos rfl, if_neg hne]
    exact ⟨rfl, rfl, rfl⟩
  by_cases hj : k = j
  · subst hj
    rw [landed_receiver hne, if_neg hi, if_pos rfl]
    exact ⟨rfl, rfl, rfl⟩
  · rw [landed_of_ne hi hj, if_neg hi, if_neg hj]
    exact ⟨rfl, rfl, rfl⟩

/-- A payload that lands is still in flight: it is not polled. -/
theorem landed_flight (hne : i ≠ j) (hp : p ∈ (s i).out) (hx : Announces i j p x) (k l : Fin n)
    (e : Nat) :
    flight k l (landed s i j p x acks k) (landed s i j p x acks l) e =
      flight k l (s k) (s l) e := by
  obtain ⟨_, hout, _⟩ := landed_node s p x acks hne k
  obtain ⟨_, _, hcq⟩ := landed_node s p x acks hne l
  unfold flight
  rw [hout, hcq]
  have hbrings : x.brings k e = true → k = i := by
    intro hb
    exact Option.some.inj ((NetCompletion.brings_iff.mp hb).2.1.symm.trans hx.peer)
  have hcarries := hx.carries l e
  have herase := List.countP_erase (Post.carries l e) (s i).out p
  have hcount : p.carries l e = true → 0 < (s i).out.countP (Post.carries l e) :=
    fun h => List.countP_pos_iff.mpr ⟨p, hp, h⟩
  by_cases hk : k = i
  · subst hk
    rw [if_pos rfl, herase]
    by_cases hl : l = j
    · rw [if_pos hl, List.countP_append, List.countP_singleton]
      by_cases hb : x.brings k e = true
      · have hc := hcarries.mpr ⟨hl, hb⟩
        have := hcount hc
        rw [if_pos ⟨hp, hc⟩, if_pos hb]
        omega
      · rw [if_neg (fun h => hb (hcarries.mp h.2).2), if_neg hb]
        omega
    · rw [if_neg hl, if_neg (fun h => hl (hcarries.mp h.2).1), Nat.sub_zero]
  · rw [if_neg hk]
    by_cases hl : l = j
    · rw [if_pos hl, List.countP_append, List.countP_singleton,
        if_neg (fun h => hk (hbrings h)), Nat.add_zero]
    · rw [if_neg hl]

theorem landed_credited (hne : i ≠ j) (hp : p ∈ (s i).out) (hx : Announces i j p x)
    (k l : Fin n) (u : Nat) :
    Credited k l (landed s i j p x acks k) (landed s i j p x acks l) u ↔
      Credited k l (s k) (s l) u := by
  obtain ⟨_, hout, _⟩ := landed_node s p x acks hne k
  obtain ⟨_, _, hcq⟩ := landed_node s p x acks hne l
  unfold Credited
  rw [hout, hcq]
  have hpeer : x.credits k u = true → k = i := by
    intro hb
    exact Option.some.inj ((NetCompletion.credits_iff.mp hb).2.1.symm.trans hx.peer)
  have hcredits := hx.credits l u
  constructor
  · rintro (⟨q, hq, hu⟩ | ⟨y, hy, hu⟩)
    · left
      by_cases hk : k = i
      · rw [if_pos hk] at hq
        exact ⟨q, List.mem_of_mem_erase hq, hu⟩
      · rw [if_neg hk] at hq
        exact ⟨q, hq, hu⟩
    · by_cases hl : l = j
      · rw [if_pos hl] at hy
        obtain hy | hy := List.mem_append.mp hy
        · exact Or.inr ⟨y, hy, hu⟩
        · rw [List.mem_singleton.mp hy] at hu
          obtain rfl := hpeer hu
          exact Or.inl ⟨p, hp, hcredits.mpr ⟨hl, hu⟩⟩
      · rw [if_neg hl] at hy
        exact Or.inr ⟨y, hy, hu⟩
  · rintro (⟨q, hq, hu⟩ | ⟨y, hy, hu⟩)
    · by_cases hk : k = i
      · subst hk
        rw [if_pos rfl]
        by_cases hqp : q = p
        · subst hqp
          obtain ⟨hl, hu⟩ := hcredits.mp hu
          rw [if_pos hl]
          exact Or.inr ⟨x, List.mem_append_right _ List.mem_cons_self, hu⟩
        · exact Or.inl ⟨q, (List.mem_erase_of_ne hqp).mpr hq, hu⟩
      · rw [if_neg hk]
        exact Or.inl ⟨q, hq, hu⟩
    · right
      by_cases hl : l = j
      · rw [if_pos hl]
        exact ⟨y, List.mem_append_left _ hy, hu⟩
      · rw [if_neg hl]
        exact ⟨y, hy, hu⟩

/-- The receiver's own facts when a post lands. -/
theorem Own.push_recv {a : Node n} (h : Own c j a) (hx : x.Fits j a.posted)
    (hkind : x.kind = .recv) : Own c j { a with cq := a.cq ++ [x] } := by
  have hcompletes : ∀ k e, x.completes k e ≠ true := by
    intro k e hc
    rw [NetCompletion.completes_iff, hkind] at hc
    cases hc.1
  refine { h with flush_read := ?_, cq := ?_, send_known := ?_, in_order := ?_ }
  · intro herr hflush
    have hread := h.flush_read herr hflush
    show 0 < a.flushDone + a.flushes + (a.cq ++ [x]).countP _
    rw [List.countP_append]
    omega
  · intro y hy
    obtain hy | hy := List.mem_append.mp hy
    · exact h.cq y hy
    · rw [List.mem_singleton.mp hy]
      exact hx
  · intro k e hk he1 he
    obtain hdone | hout | hacks | ⟨y, hy, hc⟩ := h.send_known k e hk he1 he
    · exact Or.inl hdone
    · exact Or.inr (Or.inl hout)
    · exact Or.inr (Or.inr (Or.inl hacks))
    · exact Or.inr (Or.inr (Or.inr ⟨y, List.mem_append_left _ hy, hc⟩))
  · intro hord k w hw
    apply h.in_order hord k w
    obtain hw | ⟨y, hy, hc⟩ := hw
    · exact Or.inl hw
    · obtain hy | hy := List.mem_append.mp hy
      · exact Or.inr ⟨y, hy, hc⟩
      · rw [List.mem_singleton.mp hy] at hc
        exact absurd hc (hcompletes k w)

/-- A landing keeps the invariant, given the sender's own facts. -/
theorem Inv.landed (h : Inv c s) (hne : i ≠ j) (hp : p ∈ (s i).out) (hx : Announces i j p x)
    (hfits : x.Fits j (s j).posted)
    (hown : Own c i { s i with out := (s i).out.erase p, acks := acks }) :
    Inv c (landed s i j p x acks) := by
  have hib := fun k => (landed_node s p x acks hne k).1
  have htaken : ∀ k, (Net.landed s i j p x acks k).taken = (s k).taken := by
    intro k
    unfold Node.taken
    rw [hib]
  constructor
  · intro k
    by_cases hi : k = i
    · subst hi
      rw [landed_sender hne]
      exact hown
    by_cases hj : k = j
    · subst hj
      rw [landed_receiver hne]
      exact (h.own k).push_recv hfits hx.kind
    · rw [landed_of_ne hi hj]
      exact h.own k
  · intro k l hkl
    have hp' := h.pair k l hkl
    refine hp'.congr (by rw [hib]) (by rw [hib]) (by rw [hib]) (by rw [hib])
      (landed_flight hne hp hx k l) (landed_credited hne hp hx k l) ?_
    rw [hib, htaken]
    exact hp'.taken
  · intro k
    rw [htaken, hib]
    intro herr e hlo hhi
    rw [h.tally k herr e hlo hhi]
    congr 1
    ext m
    rw [mem_arrivals, mem_arrivals]
    unfold Arrived
    rw [hib, landed_flight hne hp hx]

end Landing

/-- The sender's own facts when a post lands: a payload waits for its completion. -/
theorem Own.land {i : Fin n} {a : Node n} (h : Own c i a) {p : Post n} (hp : p ∈ a.out)
    {acks : List (Fin n × Nat)} (hkeep : ∀ x, x ∈ a.acks → x ∈ acks)
    (hmoved : ∀ j e, p.carries j e = true → (j, e) ∈ acks)
    (hacks : ∀ j e, (j, e) ∈ acks → (j, e) ∈ a.acks ∨ p.carries j e = true) :
    Own c i { a with out := a.out.erase p, acks := acks } := by
  refine { h with out := ?_, acks := ?_, send_known := ?_, in_order := ?_ }
  · intro q hq
    exact h.out q (List.mem_of_mem_erase hq)
  · rintro ⟨j, e⟩ hx
    obtain hx | hcarries := hacks j e hx
    · exact h.acks (j, e) hx
    · have hfits := h.out p hp
      cases p with
      | data peer laddr bytes raddr imm wrId =>
          simp only [Post.carries, Bool.and_eq_true, decide_eq_true_eq] at hcarries
          obtain ⟨hne, _, _, hle⟩ := hfits
          rw [← hcarries.1, ← hcarries.2]
          exact ⟨hne, hle⟩
      | credit peer raddr imm wrId => cases hcarries
      | flush addr wrId => cases hcarries
  · intro j e hj he1 he
    obtain hdone | ⟨q, hq, hc⟩ | hold | hcq := h.send_known j e hj he1 he
    · exact Or.inl hdone
    · by_cases hqp : q = p
      · subst hqp
        exact Or.inr (Or.inr (Or.inl (hmoved j e hc)))
      · exact Or.inr (Or.inl ⟨q, (List.mem_erase_of_ne hqp).mpr hq, hc⟩)
    · exact Or.inr (Or.inr (Or.inl (hkeep _ hold)))
    · exact Or.inr (Or.inr (Or.inr hcq))
  · intro hord j w hw
    obtain ⟨hout, hold⟩ := h.in_order hord j w hw
    constructor
    · intro q e hq hc
      exact hout q e (List.mem_of_mem_erase hq) hc
    · intro e he
      obtain he | hc := hacks j e he
      · exact hold e he
      · exact hout p e hp hc

/-! ## Runs -/

theorem inv_boot (c : NetConfig n) : Inv c fun _ => Node.boot n where
  own i := by
    refine ⟨Nat.le_refl 0, Nat.le_refl 0, Nat.le_refl 0, Nat.le_refl 0, Nat.le_refl 0,
      Nat.le_refl 0, Nat.two_pow_pos 31, ?_, ?_, ?_, ?_, ?_, ?_, ?_, ?_, ?_, ?_, ?_, ?_, ?_⟩
    · exact RingHolds.empty Nat.one_ne_zero
    · exact fun _ _ => Nat.le_refl 0
    · exact fun _ _ => Nat.le_refl 0
    · exact fun _ => Nat.le_refl 0
    · exact fun _ hne => absurd rfl hne
    · exact fun _ hne => absurd rfl hne
    · exact fun _ _ _ => Nat.le_refl 0
    · exact fun p hp => absurd hp List.not_mem_nil
    · exact fun x hx => absurd hx List.not_mem_nil
    · exact fun x hx => absurd hx List.not_mem_nil
    · exact fun _ => Nat.le_refl 0
    · intro j e _ he1 he
      have he : e ≤ 0 := he
      omega
    · intro _ j w _
      exact ⟨fun p e hp => absurd hp List.not_mem_nil, fun e he => absurd he List.not_mem_nil⟩
  pair i j _ := by
    refine ⟨?_, ?_, Nat.zero_le _, Nat.le_refl 0, ?_, Or.inl (Nat.le_refl 0), ?_⟩
    · exact fun _ => Nat.zero_le 1
    · intro e hpos
      exact absurd hpos (Nat.lt_irrefl 0)
    · rintro u (⟨p, hp, _⟩ | ⟨x, hx, _⟩)
      · exact absurd hp List.not_mem_nil
      · exact absurd hx List.not_mem_nil
    · intro _ e he1 he
      have he : e ≤ 0 := he
      omega
  tally j _ e hlo hhi := by
    have hlo : 0 < e := hlo
    have hnone : arrivals (fun _ => Node.boot n) j (Node.boot n) e = ∅ := by
      apply Finset.eq_empty_of_forall_notMem
      intro i hi
      obtain ⟨_, _, hposted, _⟩ := mem_arrivals.mp hi
      have hposted : e ≤ 0 := hposted
      omega
    rw [hnone]
    rfl

/-- Reporting a completion at the node a step has just changed. -/
theorem report_update (s : Nodes n) (i : Fin n) (a : Node n) (x : NetCompletion n) :
    report (Function.update s i a) i x = Function.update s i { a with cq := a.cq ++ [x] } := by
  unfold report
  rw [Function.update_self, Function.update_idem]

/-- Every step keeps the invariant. -/
theorem Inv.step {s t : Nodes n} {ev : NetEvent n} (h : Inv c s) (hnslots : 0 < c.nslots)
    (hstep : netStep c s ev = some t) : Inv c t := by
  cases ev with
  | fill i d =>
      obtain ⟨⟨hfree, hlt, hall⟩, hnext⟩ := Option.ite_none_right_eq_some.mp hstep
      cases hnext
      exact h.put ((h.at i).fill hfree hlt hall)
  | request i seq =>
      obtain ⟨⟨hlt, hle, hcredit⟩, hnext⟩ := Option.ite_none_right_eq_some.mp hstep
      cases hnext
      exact h.put ((h.at i).request hlt hle hcredit)
  | consume i =>
      obtain ⟨hlt, hnext⟩ := Option.ite_none_right_eq_some.mp hstep
      cases hnext
      exact h.put ((h.at i).consume hlt)
  | publish i seq =>
      obtain ⟨⟨_, hle⟩, hnext⟩ := Option.ite_none_right_eq_some.mp hstep
      cases hnext
      exact h.put ((h.at i).publish hle)
  | land i p =>
      obtain ⟨hp, hstep⟩ := Option.ite_none_right_eq_some.mp hstep
      have hown := h.own i
      have hfits := hown.out p hp
      cases p with
      | data j laddr bytes raddr imm wrId =>
          cases hstep
          obtain ⟨hne, himm, _, hle⟩ := hfits
          have hlt : wrId < 2 ^ 31 := by
            have := hown.posted_le
            have := hown.request_le
            have := hown.filled_lt
            omega
          refine h.landed hne.symm hp (announces_data laddr bytes raddr himm hlt)
            (recvCompletion_fits hne.symm imm _) (hown.land hp ?_ ?_ ?_)
          · exact fun x hx => List.mem_append_left _ hx
          · intro k e hc
            simp only [Post.carries, Bool.and_eq_true, decide_eq_true_eq] at hc
            rw [hc.1, hc.2]
            exact List.mem_append_right _ List.mem_cons_self
          · intro k e hk
            obtain hk | hk := List.mem_append.mp hk
            · exact Or.inl hk
            · obtain ⟨rfl, rfl⟩ := Prod.mk.inj (List.mem_singleton.mp hk)
              exact Or.inr (by simp [Post.carries])
      | credit j raddr imm wrId =>
          cases hstep
          obtain ⟨hne, himm⟩ := hfits
          refine h.landed hne.symm hp (announces_credit raddr wrId himm)
            (recvCompletion_fits hne.symm imm _) (hown.land hp ?_ ?_ ?_)
          · exact fun x hx => hx
          · exact fun k e hc => absurd hc Bool.false_ne_true
          · exact fun k e hk => Or.inl hk
      | flush addr wrId => cases hstep
  | ack i j seq =>
      obtain ⟨⟨hmem, horder⟩, hnext⟩ := Option.ite_none_right_eq_some.mp hstep
      cases hnext
      rw [report_update]
      exact h.put ((h.at i).ack hmem horder)
  | flushed i =>
      obtain ⟨_, hnext⟩ := Option.ite_none_right_eq_some.mp hstep
      cases hnext
      rw [report_update]
      exact h.put ((h.at i).flushed)
  | drive i polled late =>
      cases hstep
      exact h.put ((h.at i).ibDrive hnslots polled late)

/-- The invariant holds in every reachable state. -/
theorem inv_of_reachable (hnslots : 0 < c.nslots) {s : Nodes n} (hs : (net c).Reachable s) :
    Inv c s := by
  apply hs.invariant
  · rintro s rfl
    exact inv_boot c
  · intro s ev t _ hinv hnext
    exact hinv.step hnslots hnext

/-! ## Safety of the exchanges -/

/-- The transport is done with the payload of exchange `e` for `j`: it has landed and
its completion was reported. -/
def Node.SendDone (a : Node n) (j : Fin n) (e : Nat) : Prop :=
  e ≤ a.posted ∧ (∀ p, p ∈ a.out → p.carries j e = false) ∧ (j, e) ∉ a.acks

instance (a : Node n) (j : Fin n) (e : Nat) : Decidable (a.SendDone j e) :=
  inferInstanceAs (Decidable (_ ∧ _ ∧ _))

/-- What the engines guarantee. -/
structure Safe (c : NetConfig n) (s : Nodes n) : Prop where
  /-- The exchange a landing group was used for before is consumed when a payload is
  posted into it. -/
  landing : ∀ i j, i ≠ j → ∀ e, e ≤ (s i).posted → e ≤ (s j).consumed + c.nslots
  /-- No payload is delivered twice, and none that was not posted. -/
  delivery : ∀ i j, i ≠ j → ∀ e, flight i j (s i) (s j) e ≤ 1 ∧
    (0 < flight i j (s i) (s j) e → 1 ≤ e ∧ e ≤ (s i).posted)
  /-- All payloads of a retired exchange have arrived. -/
  arrived : ∀ j, (s j).error = 0 → ∀ e, 1 ≤ e → e ≤ (s j).done → ∀ i, i ≠ j →
    Arrived i j (s i) (s j) e
  /-- The own payloads of a retired exchange are done, when completions come in order. -/
  sent : c.ordered = true → ∀ i, (s i).error = 0 → ∀ e, 1 ≤ e → e ≤ (s i).done → ∀ j, j ≠ i →
    (s i).SendDone j e
  /-- A tally counts one exchange: what was polled and not taken is in a window of
  `nslots` exchanges, and each slot counts the arrivals of its exchange of the window. -/
  tally : ∀ j, (s j).error = 0 →
    (∀ i, i ≠ j → ∀ e, Arrived i j (s i) (s j) e → e ≤ (s j).taken + c.nslots) ∧
    ∀ e, (s j).taken < e → e ≤ (s j).taken + c.nslots →
      (s j).tally (e % c.nslots) = (arrivals s j (s j) e).card

theorem Inv.safe {s : Nodes n} (h : Inv c s) : Safe c s where
  landing i j hne e he := Nat.le_trans he ((h.at j).posted_le_consumed hne)
  delivery i j hne e := ⟨(h.pair i j hne).flight_le e, (h.pair i j hne).flight_posted e⟩
  arrived j herr e he1 he i hne :=
    (h.pair i j hne).taken herr e he1 (Nat.le_trans he ((h.own j).done_le_taken herr))
  sent hord i herr e _ he j hne := by
    have hown := h.own i
    have hdone := hown.sends_done herr j hne
    have htaken := hown.done_le_taken herr
    obtain ⟨hout, hacks⟩ := hown.in_order hord j e (Or.inl (by omega))
    refine ⟨?_, ?_, ?_⟩
    · exact Nat.le_trans he (hown.done_le_posted herr)
    · intro p hp
      by_contra hc
      exact absurd (hout p e hp (Bool.of_not_eq_false hc)) (Nat.lt_irrefl e)
    · intro hmem
      exact absurd (hacks e hmem) (Nat.lt_irrefl e)
  tally j herr :=
    ⟨fun i hne e he => Nat.le_trans he.2.1 ((h.at j).posted_window herr hne), h.tally j herr⟩

/-- Landing groups, retired exchanges and tallies are safe in every run of the nodes. -/
theorem exchange_safety (c : NetConfig n) (hnslots : 0 < c.nslots) {s : Nodes n}
    (hs : (net c).Reachable s) : Safe c s :=
  (inv_of_reachable hnslots hs).safe

/-! ### Runs of two nodes -/

/-- Two nodes with two landing groups. -/
def pairConfig (ordered : Bool) : NetConfig 2 where
  nslots := 2
  ordered := ordered
  doFlush _ := true
  creditOff _ := 0
  remoteBase _ _ := 0

/-- An exchange of 16 bytes. -/
def pairWork (upto : Nat) (flushAddr : Int) : Descriptor where
  state := 0
  sendAddr := 0
  sendBytes := 16
  sendNodeStride := 0
  inboxBase := 0
  slotBytes := 16
  doSend := true
  nrecv := 1
  flushAddr := flushAddr
  seq := 0
  creditUpto := upto
  opKind := 0
  opChunk := 0
  opNchunks := 1
  opNumel := 4

/-- The payload of exchange `seq` of one node for the other. -/
def pairPayload (peer : Fin 2) (seq : Nat) : Post 2 := .data peer 0 16 0 seq seq

/-- Both nodes run an exchange and consume it; the second carries the credit. -/
theorem exchange_safety_roundTrip :
    ∃ s, (net (pairConfig true)).Reachable s ∧ (s 0).done = 1 ∧ (s 1).creditRecv 0 = 1 ∧
      Safe (pairConfig true) s := by
  have hrun : ((net (pairConfig true)).run (fun _ => Node.boot 2)
      [.fill 0 (pairWork 0 64), .fill 1 (pairWork 0 0), .request 0 1, .request 1 1,
        .drive 0 0 false, .drive 1 0 false, .land 0 (pairPayload 1 1), .land 1 (pairPayload 0 1),
        .ack 0 1 1, .ack 1 0 1, .drive 0 4 false, .flushed 0, .drive 0 4 false,
        .drive 1 4 false, .consume 0, .fill 0 (pairWork 1 64), .request 0 2, .drive 0 0 false,
        .land 0 (.credit 1 0 (creditImm 1) 1), .drive 1 4 false]).any
      (fun s => decide ((s 0).done = 1 ∧ (s 1).creditRecv 0 = 1)) = true := by
    decide
  obtain ⟨s, hs, hdec⟩ := (Option.any_eq_true _ _).mp hrun
  obtain ⟨hdone, hcredit⟩ := of_decide_eq_true hdec
  have hreach : (net (pairConfig true)).Reachable s := ⟨_, _, rfl, hs⟩
  exact ⟨s, hreach, hdone, hcredit, exchange_safety (pairConfig true) (by decide) hreach⟩

/-- When the completion of a later payload may come first, an exchange is retired while
its own payload is on the wire: `send_done` is a running maximum. -/
theorem exchange_retired_before_landing :
    ¬ ∀ s, (net (pairConfig false)).Reachable s → ∀ i, (s i).error = 0 → ∀ e, 1 ≤ e →
      e ≤ (s i).done → ∀ j, j ≠ i → (s i).SendDone j e := by
  intro hall
  have hrun : ((net (pairConfig false)).run (fun _ => Node.boot 2)
      [.fill 0 (pairWork 0 0), .fill 0 (pairWork 0 0), .fill 1 (pairWork 0 0), .request 0 2,
        .request 1 1, .drive 0 0 false, .drive 0 0 false, .drive 1 0 false,
        .land 0 (pairPayload 1 2), .ack 0 1 2, .land 1 (pairPayload 0 1), .drive 0 4 false]).any
      (fun s => decide ((s 0).error = 0 ∧ (s 0).done = 1 ∧ ¬ (s 0).SendDone 1 1)) = true := by
    decide
  obtain ⟨s, hs, hdec⟩ := (Option.any_eq_true _ _).mp hrun
  obtain ⟨herr, hdone, hnot⟩ := of_decide_eq_true hdec
  refine hnot (hall s ⟨_, _, rfl, hs⟩ 0 herr 1 (Nat.le_refl 1) ?_ 1 (by decide))
  rw [hdone]

end TorchMojoBackend.Ccl.Net
