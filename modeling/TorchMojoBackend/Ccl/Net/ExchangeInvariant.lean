/-
  `Ccl.Net.ExchangeInvariant`: every step of the nodes and of the transport keeps
  the invariant of `Ccl.Net.Exchange`.

  The engine of one node works against nodes that stand still, so its phases are
  proved about `At`: the invariant with one node singled out.
-/
import TorchMojoBackend.Ccl.Net.Exchange

set_option autoImplicit false

namespace TorchMojoBackend.Ccl.Net

open TorchMojoBackend.Foundation

variable {n : Nat} {c : NetConfig n}

/-! ## Small facts -/

theorem mem_arrivals {s : Nodes n} {i j : Fin n} {b : Node n} {e : Nat} :
    i ∈ arrivals s j b e ↔ i ≠ j ∧ Arrived i j (s i) b e := by
  unfold arrivals
  rw [Finset.mem_filter]
  exact and_iff_right (Finset.mem_univ i)

/-- There are at most `n - 1` arrivals of one exchange. -/
theorem arrivals_card_le (s : Nodes n) (j : Fin n) (b : Node n) (e : Nat) :
    (arrivals s j b e).card ≤ n - 1 := by
  have hsub : arrivals s j b e ⊆ Finset.univ.erase j := by
    intro i hi
    exact Finset.mem_erase.mpr ⟨(mem_arrivals.mp hi).1, Finset.mem_univ i⟩
  have hle := Finset.card_le_card hsub
  rwa [Finset.card_erase_of_mem (Finset.mem_univ j), Finset.card_univ, Fintype.card_fin] at hle

/-- With `n - 1` arrivals every other node's payload has arrived. -/
theorem arrived_of_card {s : Nodes n} {j : Fin n} {b : Node n} {e : Nat}
    (hcard : n - 1 ≤ (arrivals s j b e).card) {i : Fin n} (hne : i ≠ j) :
    Arrived i j (s i) b e := by
  have hsub : arrivals s j b e ⊆ Finset.univ.erase j := by
    intro i hi
    exact Finset.mem_erase.mpr ⟨(mem_arrivals.mp hi).1, Finset.mem_univ i⟩
  have heq := Finset.eq_of_subset_of_card_le hsub (by
    rwa [Finset.card_erase_of_mem (Finset.mem_univ j), Finset.card_univ, Fintype.card_fin])
  have hmem : i ∈ arrivals s j b e := by
    rw [heq]
    exact Finset.mem_erase.mpr ⟨hne, Finset.mem_univ i⟩
  exact (mem_arrivals.mp hmem).2

theorem NetCompletion.recv_of_brings {i : Fin n} {e : Nat} {x : NetCompletion n}
    (h : x.brings i e = true) : x.kind = .recv :=
  (NetCompletion.brings_iff.mp h).1

theorem NetCompletion.recv_of_credits {i : Fin n} {u : Nat} {x : NetCompletion n}
    (h : x.credits i u = true) : x.kind = .recv :=
  (NetCompletion.credits_iff.mp h).1

/-- The arrivals that are not polled. -/
def received (q : List (NetCompletion n)) : List (NetCompletion n) :=
  q.filter fun x => x.kind = .recv

theorem countP_brings_received (i : Fin n) (e : Nat) (q : List (NetCompletion n)) :
    (received q).countP (NetCompletion.brings i e) = q.countP (NetCompletion.brings i e) := by
  unfold received
  rw [List.countP_filter]
  apply List.countP_congr
  intro x _
  constructor
  · intro h
    exact (Bool.and_eq_true _ _ ▸ h).1
  · intro h
    rw [h, Bool.true_and, decide_eq_true_eq]
    exact NetCompletion.recv_of_brings h

theorem exists_credits_received (i : Fin n) (u : Nat) (q : List (NetCompletion n)) :
    (∃ x, x ∈ received q ∧ x.credits i u = true) ↔ ∃ x, x ∈ q ∧ x.credits i u = true := by
  constructor
  · rintro ⟨x, hx, hu⟩
    exact ⟨x, List.mem_of_mem_filter hx, hu⟩
  · rintro ⟨x, hx, hu⟩
    refine ⟨x, List.mem_filter.mpr ⟨hx, ?_⟩, hu⟩
    exact decide_eq_true (NetCompletion.recv_of_credits hu)

/-! ## One node singled out -/

/-- The invariant when node `i` is in the state `a` and the others stand still. -/
structure At (c : NetConfig n) (s : Nodes n) (i : Fin n) (a : Node n) : Prop where
  own : Own c i a
  sender : ∀ j, j ≠ i → Pair c i j a (s j)
  receiver : ∀ j, j ≠ i → Pair c j i (s j) a
  tally : a.error = 0 → ∀ e, a.taken < e → e ≤ a.taken + c.nslots →
    a.tally (e % c.nslots) = (arrivals s i a e).card
  other : ∀ j, j ≠ i → (s j).error = 0 → ∀ e, (s j).taken < e → e ≤ (s j).taken + c.nslots →
    (s j).tally (e % c.nslots) = (arrivals (Function.update s i a) j (s j) e).card

theorem Inv.at {s : Nodes n} (h : Inv c s) (i : Fin n) : At c s i (s i) where
  own := h.own i
  sender j hj := h.pair i j hj.symm
  receiver j hj := h.pair j i hj
  tally := h.tally i
  other j _ := by
    rw [Function.update_eq_self]
    exact h.tally j

/-- A node's own state does not matter for its arrivals. -/
theorem arrivals_update_self (s : Nodes n) (i : Fin n) (a b : Node n) (e : Nat) :
    arrivals (Function.update s i a) i b e = arrivals s i b e := by
  ext k
  rw [mem_arrivals, mem_arrivals]
  apply and_congr_right
  intro hk
  rw [Function.update_of_ne hk]

theorem Inv.put {s : Nodes n} (h : Inv c s) {i : Fin n} {a : Node n} (ha : At c s i a) :
    Inv c (Function.update s i a) := by
  constructor
  · intro j
    by_cases hj : j = i
    · subst hj
      rw [Function.update_self]
      exact ha.own
    · rw [Function.update_of_ne hj]
      exact h.own j
  · intro j k hjk
    by_cases hj : j = i
    · subst hj
      rw [Function.update_self, Function.update_of_ne hjk.symm]
      exact ha.sender k hjk.symm
    · rw [Function.update_of_ne hj]
      by_cases hk : k = i
      · subst hk
        rw [Function.update_self]
        exact ha.receiver j hj
      · rw [Function.update_of_ne hk]
        exact h.pair j k hjk
  · intro j
    by_cases hj : j = i
    · subst hj
      rw [Function.update_self]
      intro herr e hlo hhi
      rw [arrivals_update_self]
      exact ha.tally herr e hlo hhi
    · rw [Function.update_of_ne hj]
      exact ha.other j hj

/-- A node posts at most `nslots` exchanges beyond what its peers have consumed. -/
theorem At.posted_le_consumed {s : Nodes n} {i : Fin n} {a : Node n} (h : At c s i a) {p : Fin n}
    (hp : p ≠ i) : (s p).posted ≤ a.consumed + c.nslots := by
  have hposted := (h.receiver p hp).posted_le
  have hcredit := (h.sender p hp).creditRecv_le
  have hconsumed := h.own.creditSent_le
  omega

theorem Own.done_le_taken {i : Fin n} {a : Node n} (h : Own c i a) (herr : a.error = 0) :
    a.done ≤ a.taken := by
  unfold Node.taken
  split
  · exact Nat.le_refl _
  · have := (h.flush herr ‹_›).1
    omega

/-- Payloads beyond the taken exchanges are within one turn of the landing groups. -/
theorem At.posted_window {s : Nodes n} {i : Fin n} {a : Node n} (h : At c s i a)
    (herr : a.error = 0) {p : Fin n} (hp : p ≠ i) : (s p).posted ≤ a.taken + c.nslots := by
  have hposted := h.posted_le_consumed hp
  have hconsumed := h.own.consumed_le
  have htaken := h.own.done_le_taken herr
  omega

/-! ## Steps the others do not see -/

/-- What other nodes see of a node. -/
structure SameLinks (a b : Node n) : Prop where
  posted : b.posted = a.posted
  creditSent : b.creditSent = a.creditSent
  creditRecv : b.creditRecv = a.creditRecv
  out : b.out = a.out
  cq : received b.cq = received a.cq

/-- The same, and what the tallies rest on. -/
structure SameWire (a b : Node n) : Prop extends SameLinks a b where
  tally : b.tally = a.tally
  error : b.error = a.error
  taken : b.taken = a.taken

namespace SameLinks

variable {a b : Node n}

theorem flight_sender (h : SameLinks a b) (i j : Fin n) (x : Node n) (e : Nat) :
    flight i j b x e = flight i j a x e := by
  unfold flight
  rw [h.out]

theorem flight_receiver (h : SameLinks a b) (i j : Fin n) (x : Node n) (e : Nat) :
    flight j i x b e = flight j i x a e := by
  unfold flight
  rw [← countP_brings_received, h.cq, countP_brings_received]

theorem credited_sender (h : SameLinks a b) (i j : Fin n) (x : Node n) (u : Nat) :
    Credited i j b x u ↔ Credited i j a x u := by
  unfold Credited
  rw [h.out]

theorem credited_receiver (h : SameLinks a b) (i j : Fin n) (x : Node n) (u : Nat) :
    Credited j i x b u ↔ Credited j i x a u := by
  unfold Credited
  rw [← exists_credits_received, h.cq, exists_credits_received]

theorem arrived_sender (h : SameLinks a b) (i j : Fin n) (x : Node n) (e : Nat) :
    Arrived i j b x e ↔ Arrived i j a x e := by
  unfold Arrived
  rw [h.posted, h.flight_sender]

theorem arrived_receiver (h : SameLinks a b) (i j : Fin n) (x : Node n) (e : Nat) :
    Arrived j i x b e ↔ Arrived j i x a e := by
  unfold Arrived
  rw [h.flight_receiver]

end SameLinks

/-- The tallies of the others only depend on what has arrived from `i`. -/
theorem At.other_congr {s : Nodes n} {i : Fin n} {a b : Node n} (h : At c s i a)
    (harr : ∀ j e, j ≠ i → (Arrived i j b (s j) e ↔ Arrived i j a (s j) e)) :
    ∀ j, j ≠ i → (s j).error = 0 → ∀ e, (s j).taken < e → e ≤ (s j).taken + c.nslots →
      (s j).tally (e % c.nslots) = (arrivals (Function.update s i b) j (s j) e).card := by
  intro j hj herr e hlo hhi
  rw [h.other j hj herr e hlo hhi]
  congr 1
  ext k
  rw [mem_arrivals, mem_arrivals]
  apply and_congr_right
  intro _
  by_cases hk : k = i
  · subst hk
    rw [Function.update_self, Function.update_self]
    exact (harr j e hj).symm
  · rw [Function.update_of_ne hk, Function.update_of_ne hk]

/-- A pair with the same messages in flight and the same counters. -/
theorem Pair.congr {i j : Fin n} {a b a' b' : Node n} (h : Pair c i j a b)
    (hposted : a'.posted = a.posted) (hsent : a'.creditSent = a.creditSent)
    (hrecv : a'.creditRecv = a.creditRecv) (hrecv' : b'.creditRecv = b.creditRecv)
    (hflight : ∀ e, flight i j a' b' e = flight i j a b e)
    (hcredited : ∀ u, Credited i j a' b' u ↔ Credited i j a b u)
    (htaken : b'.error = 0 → ∀ e, 1 ≤ e → e ≤ b'.taken → Arrived i j a b e) :
    Pair c i j a' b' := by
  refine ⟨?_, ?_, ?_, ?_, ?_, ?_, ?_⟩
  · intro e
    rw [hflight]
    exact h.flight_le e
  · intro e
    rw [hflight, hposted]
    exact h.flight_posted e
  · rw [hposted, hrecv]
    exact h.posted_le
  · rw [hsent, hrecv']
    exact h.creditRecv_le
  · intro u
    rw [hcredited, hsent]
    exact h.credited_le u
  · rw [hcredited, hsent, hrecv']
    exact h.credit_known
  · intro herr e he1 he
    unfold Arrived
    rw [hposted, hflight]
    exact htaken herr e he1 he

/-- A step of node `i` that the others do not see, with what it takes. -/
theorem At.links {s : Nodes n} {i : Fin n} {a b : Node n} (h : At c s i a) (hw : SameLinks a b)
    (hown : Own c i b)
    (htaken : b.error = 0 → ∀ j, j ≠ i → ∀ e, 1 ≤ e → e ≤ b.taken → Arrived j i (s j) a e)
    (htally : b.error = 0 → ∀ e, b.taken < e → e ≤ b.taken + c.nslots →
      b.tally (e % c.nslots) = (arrivals s i a e).card) :
    At c s i b := by
  refine ⟨hown, ?_, ?_, ?_, h.other_congr fun j e _ => hw.arrived_sender i j (s j) e⟩
  · intro j hj
    have hp := h.sender j hj
    exact hp.congr hw.posted hw.creditSent hw.creditRecv rfl (hw.flight_sender i j (s j))
      (hw.credited_sender i j (s j)) hp.taken
  · intro j hj
    have hp := h.receiver j hj
    exact hp.congr rfl rfl rfl hw.creditRecv (hw.flight_receiver i j (s j))
      (hw.credited_receiver i j (s j)) fun herr => htaken herr j hj
  · intro herr e hlo hhi
    rw [htally herr e hlo hhi]
    congr 1
    ext k
    rw [mem_arrivals, mem_arrivals]
    exact and_congr_right fun _ => (hw.arrived_receiver i k (s k) e).symm

theorem At.same {s : Nodes n} {i : Fin n} {a b : Node n} (h : At c s i a) (hw : SameWire a b)
    (hown : Own c i b) : At c s i b := by
  apply h.links hw.toSameLinks hown
  · rw [hw.error, hw.taken]
    intro herr j hj
    exact (h.receiver j hj).taken herr
  · rw [hw.error, hw.taken, hw.tally]
    exact h.tally

/-! ## Posting -/

/-- When no post fails, all are handed over in order. -/
theorem postAll_ok (a : Node n) (ps : List (Post n)) (hps : ∀ p, p ∈ ps → p.peer? ≠ none) :
    postAll (fun _ => 0) a ps = ({ a with out := a.out ++ ps }, true) := by
  induction ps generalizing a with
  | nil => simp [postAll]
  | cons p ps ih =>
      have hp := hps p List.mem_cons_self
      have htail := ih (a.post p) fun q hq => hps q (List.mem_cons_of_mem p hq)
      have hpost : a.post p = { a with out := a.out ++ [p] } := by
        cases p with
        | data peer laddr bytes raddr imm wrId => rfl
        | credit peer raddr imm wrId => rfl
        | flush addr wrId => exact absurd rfl hp
      unfold postAll
      rw [if_neg (not_not_intro rfl), htail, hpost, List.append_assoc]
      rfl

theorem mem_peers {c : IbConfig n} {p : Fin n} : p ∈ c.peers ↔ p ≠ c.myNode := by
  unfold IbConfig.peers
  rw [List.mem_filter, decide_eq_true_eq]
  exact and_iff_right (List.mem_finRange p)

theorem peers_nodup (c : IbConfig n) : c.peers.Nodup :=
  (List.nodup_finRange n).filter _

/-! ### Credits -/

theorem creditPosts_peer {c : IbConfig n} {upto : Nat} {p : Post n}
    (hp : p ∈ creditPosts c upto) : p.peer? ≠ none := by
  obtain ⟨j, _, rfl⟩ := List.mem_map.mp hp
  simp [Post.peer?]

theorem creditPosts_fits {c : IbConfig n} {upto posted : Nat} (hlt : upto < 2 ^ 31)
    {p : Post n} (hp : p ∈ creditPosts c upto) : p.Fits c.myNode posted := by
  obtain ⟨j, hj, rfl⟩ := List.mem_map.mp hp
  exact ⟨mem_peers.mp hj, immIsCredit_creditImm hlt⟩

theorem creditPosts_carries {c : IbConfig n} {upto : Nat} {p : Post n}
    (hp : p ∈ creditPosts c upto) (j : Fin n) (e : Nat) : p.carries j e = false := by
  obtain ⟨k, _, rfl⟩ := List.mem_map.mp hp
  rfl

theorem creditPosts_credits {c : IbConfig n} {upto u : Nat} (hlt : upto < 2 ^ 31) {p : Post n}
    (hp : p ∈ creditPosts c upto) {j : Fin n} (hu : p.credits j u = true) : u = upto := by
  obtain ⟨k, _, rfl⟩ := List.mem_map.mp hp
  simp only [Post.credits, Bool.and_eq_true, decide_eq_true_eq] at hu
  rw [← hu.2, immSeq_creditImm hlt]

/-- Every peer gets the credit. -/
theorem creditPosts_reach {c : IbConfig n} {upto : Nat} (hlt : upto < 2 ^ 31) {j : Fin n}
    (hj : j ≠ c.myNode) : ∃ p, p ∈ creditPosts c upto ∧ p.credits j upto = true := by
  refine ⟨_, List.mem_map.mpr ⟨j, mem_peers.mpr hj, rfl⟩, ?_⟩
  simp [Post.credits, immSeq_creditImm hlt, immIsCredit_creditImm hlt]

theorem countP_creditPosts {c : IbConfig n} (upto : Nat) (j : Fin n) (e : Nat) :
    (creditPosts c upto).countP (Post.carries j e) = 0 := by
  apply List.countP_eq_zero.mpr
  intro p hp
  rw [creditPosts_carries hp]
  exact Bool.false_ne_true

/-- The node after `_send_credits`. -/
theorem sendCredits_eq (c : IbConfig n) (a : Node n) (upto : Nat) :
    sendCredits c (fun _ => 0) a upto =
      if upto ≤ a.creditSent then (a, false)
      else ({ a with out := a.out ++ creditPosts c upto, creditSent := upto }, true) := by
  unfold sendCredits
  rw [postAll_ok a _ fun p hp => creditPosts_peer hp]

theorem At.sendCredits {s : Nodes n} {i : Fin n} {a : Node n} (h : At c s i a) {upto : Nat}
    (hupto : upto ≤ a.consumed) :
    At c s i (sendCredits (c.at i) (fun _ => 0) a upto).1 := by
  rw [sendCredits_eq]
  by_cases hle : upto ≤ a.creditSent
  · rw [if_pos hle]
    exact h
  rw [if_neg hle]
  have hlt : upto < 2 ^ 31 := by
    have := h.own.consumed_le
    have := h.own.done_le
    have := h.own.request_le
    have := h.own.filled_lt
    omega
  have hflight : ∀ j x e, flight i j { a with
      out := a.out ++ creditPosts (c.at i) upto, creditSent := upto } x e = flight i j a x e := by
    intro j x e
    unfold flight
    show (a.out ++ creditPosts (c.at i) upto).countP _ + _ = _
    rw [List.countP_append, countP_creditPosts, Nat.add_zero]
  have hnocarry : ∀ p j e, p ∈ a.out ++ creditPosts (c.at i) upto → p.carries j e = true →
      p ∈ a.out := by
    intro p j e hp hcarries
    obtain hp | hp := List.mem_append.mp hp
    · exact hp
    · rw [creditPosts_carries hp] at hcarries
      exact absurd hcarries Bool.false_ne_true
  refine ⟨?_, ?_, ?_, h.tally, ?_⟩
  · refine { h.own with
      creditSent_le := hupto, credit_sent := ?_, out := ?_, send_known := ?_, in_order := ?_ }
    · intro e he
      have : a.credit e ≤ a.creditSent := h.own.credit_sent e he
      show a.credit e ≤ upto
      omega
    · intro p hp
      obtain hp | hp := List.mem_append.mp hp
      · exact h.own.out p hp
      · exact creditPosts_fits (c := c.at i) hlt hp
    · intro j e hj he1 he
      obtain hdone | ⟨p, hp, hcarries⟩ | hrest := h.own.send_known j e hj he1 he
      · exact Or.inl hdone
      · exact Or.inr (Or.inl ⟨p, List.mem_append_left _ hp, hcarries⟩)
      · exact Or.inr (Or.inr hrest)
    · intro hord j w hw
      obtain ⟨hout, hacks⟩ := h.own.in_order hord j w hw
      exact ⟨fun p e hp hcarries => hout p e (hnocarry p j e hp hcarries) hcarries, hacks⟩
  · intro j hj
    have hp := h.sender j hj
    refine { hp with
      flight_le := ?_, flight_posted := ?_, creditRecv_le := ?_, credited_le := ?_,
      credit_known := ?_, taken := ?_ }
    · intro e
      rw [hflight]
      exact hp.flight_le e
    · intro e
      rw [hflight]
      exact hp.flight_posted e
    · have : (s j).creditRecv i ≤ a.creditSent := hp.creditRecv_le
      show (s j).creditRecv i ≤ upto
      omega
    · intro u hu
      show u ≤ upto
      obtain ⟨p, hpmem, hpu⟩ | hx := hu
      · obtain hpmem | hpmem := List.mem_append.mp hpmem
        · have := hp.credited_le u (Or.inl ⟨p, hpmem, hpu⟩)
          omega
        · exact Nat.le_of_eq (creditPosts_credits hlt hpmem hpu)
      · have := hp.credited_le u (Or.inr hx)
        omega
    · obtain ⟨p, hpmem, hpu⟩ := creditPosts_reach (c := c.at i) hlt hj
      exact Or.inr (Or.inl ⟨p, List.mem_append_right _ hpmem, hpu⟩)
    · intro herr e he1 he
      obtain ⟨h1, h2, h3⟩ := hp.taken herr e he1 he
      exact ⟨h1, h2, by rw [hflight]; exact h3⟩
  · intro j hj
    exact { h.receiver j hj with }
  · apply h.other_congr
    intro j e _
    unfold Arrived
    rw [hflight]

/-! ### Payloads -/

theorem dataPosts_peer {c : IbConfig n} {w : IbWork} {p : Post n} (hp : p ∈ dataPosts c w) :
    p.peer? ≠ none := by
  obtain ⟨j, _, rfl⟩ := List.mem_map.mp hp
  simp [Post.peer?]

theorem dataPosts_fits {c : IbConfig n} {w : IbWork} {posted : Nat} (hlt : w.seq < 2 ^ 31)
    (hpos : 1 ≤ w.seq) (hle : w.seq ≤ posted) {p : Post n} (hp : p ∈ dataPosts c w) :
    p.Fits c.myNode posted := by
  obtain ⟨j, hj, rfl⟩ := List.mem_map.mp hp
  exact ⟨mem_peers.mp hj, immSeq_of_lt hlt, hpos, hle⟩

theorem dataPosts_credits {c : IbConfig n} {w : IbWork} {p : Post n} (hp : p ∈ dataPosts c w)
    (j : Fin n) (u : Nat) : p.credits j u = false := by
  obtain ⟨k, _, rfl⟩ := List.mem_map.mp hp
  rfl

theorem dataPosts_carries {c : IbConfig n} {w : IbWork} {p : Post n} (hp : p ∈ dataPosts c w)
    {j : Fin n} {e : Nat} (hcarries : p.carries j e = true) : e = w.seq := by
  obtain ⟨k, _, rfl⟩ := List.mem_map.mp hp
  simp only [Post.carries, Bool.and_eq_true, decide_eq_true_eq] at hcarries
  exact hcarries.2.symm

/-- Every peer gets the payload once. -/
theorem countP_dataPosts {c : IbConfig n} (w : IbWork) {j : Fin n} (hj : j ≠ c.myNode) (e : Nat) :
    (dataPosts c w).countP (Post.carries j e) = if w.seq = e then 1 else 0 := by
  unfold dataPosts
  rw [List.countP_map]
  by_cases he : w.seq = e
  · rw [if_pos he, ← List.count_eq_one_of_mem (peers_nodup c) (mem_peers.mpr hj),
      List.count_eq_countP]
    apply List.countP_congr
    intro k _
    simp [Post.carries, he]
  · rw [if_neg he]
    apply List.countP_eq_zero.mpr
    intro k _
    simp [Post.carries, he]

/-- The cell of the next exchange to post. -/
theorem Own.next_cell {i : Fin n} {a : Node n} (h : Own c i a) (herr : a.error = 0)
    (hlt : a.posted < a.request) :
    (a.work (a.posted + 1)).status = 0 ∧
      Filled n a.credit a.posted (a.posted + 1) (a.work (a.posted + 1)) := by
  have hdone := h.done_le_posted herr
  have hreq := h.request_le
  exact ⟨h.cells.held _ (by omega) (by omega), h.cells.contents _ (by omega) (by omega)⟩

/-- The node when the payloads of the next exchange are posted. -/
def Node.advancePosted (ic : IbConfig n) (a : Node n) : Node n :=
  { a with
    posted := a.posted + 1
    out := a.out ++ dataPosts ic (a.work (a.posted + 1))
    works := Function.update a.works (workSlot (a.posted + 1))
      { a.work (a.posted + 1) with sent := true } }

theorem postData_next (ic : IbConfig n) (a : Node n)
    (hall : AllToAll n (a.work (a.posted + 1)).toDescriptor) :
    postData ic (fun _ => 0) a (a.posted + 1) =
      ({ a.advancePosted ic with posted := a.posted }, true) := by
  obtain ⟨hsend, hbytes, _⟩ := hall
  have hpost := postAll_ok a (dataPosts ic (a.work (a.posted + 1))) fun p hp => dataPosts_peer hp
  unfold postData
  simp only [hsend, Bool.true_eq_false, false_or, if_neg (Int.not_le.mpr hbytes), hpost]
  rfl

theorem Own.advancePosted {i : Fin n} {a : Node n} (h : Own c i a) (herr : a.error = 0)
    (hlt : a.posted < a.request) (hcredit : a.credit (a.posted + 1) ≤ a.creditSent) :
    Own c i (a.advancePosted (c.at i)) := by
  obtain ⟨hstatus, hfilled⟩ := h.next_cell herr hlt
  have hseq := hfilled.seq
  have hreq := h.request_le
  have hlt31 := h.filled_lt
  have hdone := h.done_le_posted herr
  have hout : ∀ p j e, p ∈ a.out ++ dataPosts (c.at i) (a.work (a.posted + 1)) →
      p.carries j e = true → p ∈ a.out ∨ e = a.posted + 1 := by
    intro p j e hp hcarries
    obtain hp | hp := List.mem_append.mp hp
    · exact Or.inl hp
    · exact Or.inr (hseq ▸ dataPosts_carries hp hcarries)
  refine { h with
    posted_le := hlt, cells := ?_, credit_sent := ?_, done_le_posted := ?_, flush := ?_,
    out := ?_, acks := ?_, cq := ?_, sendDone_le := ?_, send_known := ?_, in_order := ?_ }
  · -- The other cells hold earlier or later exchanges.
    have hcells : RingHolds WORK_SLOTS IbWork.Running (Filled n a.credit (a.posted + 1))
        (Function.update a.works (workSlot (a.posted + 1))
          { a.work (a.posted + 1) with sent := true }) a.done a.filled := by
      have hup := h.cells.update (e := a.posted + 1)
        (c := { a.work (a.posted + 1) with sent := true }) (by omega) (by omega) hstatus
        ⟨hfilled.seq, hfilled.allToAll, hfilled.credit, fun _ => rfl⟩
      refine { hup with contents := ?_ }
      intro e hlo hhi
      have hcell := hup.contents e hlo hhi
      refine ⟨hcell.seq, hcell.allToAll, hcell.credit, ?_⟩
      intro he
      obtain he | rfl := Nat.lt_or_eq_of_le he
      · exact hcell.sent (by omega)
      · show (Function.update a.works (workSlot (a.posted + 1)) _ (workSlot _)).sent = true
        rw [Function.update_self]
    exact hcells
  · intro e he
    obtain he | rfl := Nat.lt_or_eq_of_le he
    · exact h.credit_sent e (Nat.le_of_lt_succ he)
    · exact hcredit
  · intro _
    show a.done ≤ a.posted + 1
    omega
  · intro _ hflush
    obtain ⟨h1, h2⟩ := h.flush herr hflush
    exact ⟨h1, Nat.le_succ_of_le h2⟩
  · intro p hp
    obtain hp | hp := List.mem_append.mp hp
    · have hfits := h.out p hp
      cases p with
      | data peer laddr bytes raddr imm wrId =>
          obtain ⟨h1, h2, h3, h4⟩ := hfits
          exact ⟨h1, h2, h3, Nat.le_succ_of_le h4⟩
      | credit peer raddr imm wrId => exact hfits
      | flush addr wrId => exact hfits
    · exact dataPosts_fits (c := c.at i) (by omega) (by omega) (Nat.le_of_eq hseq) hp
  · intro x hx
    obtain ⟨h1, h2⟩ := h.acks x hx
    exact ⟨h1, Nat.le_succ_of_le h2⟩
  · intro x hx
    have hfits := h.cq x hx
    refine { hfits with send := ?_ }
    intro hkind
    obtain ⟨h1, h2⟩ := hfits.send hkind
    exact ⟨Nat.le_succ_of_le h1, h2⟩
  · intro j
    exact Nat.le_succ_of_le (h.sendDone_le j)
  · intro j e hj he1 he
    obtain he | rfl := Nat.lt_or_eq_of_le he
    · obtain hsent | ⟨p, hp, hcarries⟩ | hrest := h.send_known j e hj he1 (Nat.le_of_lt_succ he)
      · exact Or.inl hsent
      · exact Or.inr (Or.inl ⟨p, List.mem_append_left _ hp, hcarries⟩)
      · exact Or.inr (Or.inr hrest)
    · have hpos : 0 < (dataPosts (c.at i) (a.work (a.posted + 1))).countP
          (Post.carries j (a.posted + 1)) := by
        rw [countP_dataPosts _ hj, if_pos hseq]
        exact Nat.one_pos
      obtain ⟨p, hp, hcarries⟩ := List.countP_pos_iff.mp hpos
      exact Or.inr (Or.inl ⟨p, List.mem_append_right _ hp, hcarries⟩)
  · intro hord j w hw
    obtain ⟨hold, hacks⟩ := h.in_order hord j w hw
    refine ⟨?_, hacks⟩
    intro p e hp hcarries
    obtain hp | rfl := hout p j e hp hcarries
    · exact hold p e hp hcarries
    · obtain hw | ⟨x, hx, hcompletes⟩ := hw
      · exact Nat.lt_succ_of_le (Nat.le_trans hw (h.sendDone_le j))
      · obtain ⟨hkind, _, hwrId⟩ := NetCompletion.completes_iff.mp hcompletes
        have := ((h.cq x hx).send hkind).1
        omega

theorem At.advancePosted {s : Nodes n} {i : Fin n} {a : Node n} (h : At c s i a)
    (herr : a.error = 0) (hlt : a.posted < a.request)
    (hcredit : a.credit (a.posted + 1) ≤ a.creditSent)
    (hcan : canPost (c.at i) a (a.posted + 1) = true) :
    At c s i (a.advancePosted (c.at i)) := by
  obtain ⟨_, hfilled⟩ := h.own.next_cell herr hlt
  have hcan : ∀ j, j ≠ i → a.posted + 1 ≤ a.creditRecv j + c.nslots := by
    intro j hj
    have hall := List.all_eq_true.mp hcan j (mem_peers.mpr hj)
    have : a.posted + 1 - c.nslots ≤ a.creditRecv j := of_decide_eq_true hall
    omega
  have hflight : ∀ j x e, j ≠ i → flight i j (a.advancePosted (c.at i)) x e =
      flight i j a x e + if a.posted + 1 = e then 1 else 0 := by
    intro j x e hj
    unfold flight
    show (a.out ++ dataPosts (c.at i) (a.work (a.posted + 1))).countP _ + _ = _
    rw [List.countP_append, countP_dataPosts _ hj, hfilled.seq]
    omega
  have hfresh : ∀ j, j ≠ i → flight i j a (s j) (a.posted + 1) = 0 := by
    intro j hj
    by_contra hne
    have := ((h.sender j hj).flight_posted _ (Nat.pos_of_ne_zero hne)).2
    omega
  have harrived : ∀ j e, j ≠ i →
      (Arrived i j (a.advancePosted (c.at i)) (s j) e ↔ Arrived i j a (s j) e) := by
    intro j e hj
    unfold Arrived
    rw [hflight j (s j) e hj]
    show 1 ≤ e ∧ e ≤ a.posted + 1 ∧ _ ↔ _
    by_cases he : a.posted + 1 = e
    · rw [if_pos he]
      omega
    · rw [if_neg he, Nat.add_zero]
      omega
  refine ⟨h.own.advancePosted herr hlt hcredit, ?_, ?_, h.tally, h.other_congr harrived⟩
  · intro j hj
    have hp := h.sender j hj
    refine { hp with
      flight_le := ?_, flight_posted := ?_, posted_le := hcan j hj, credited_le := ?_,
      credit_known := ?_, taken := ?_ }
    · intro e
      rw [hflight j (s j) e hj]
      by_cases he : a.posted + 1 = e
      · subst he
        rw [hfresh j hj, if_pos rfl]
      · rw [if_neg he]
        exact hp.flight_le e
    · intro e
      rw [hflight j (s j) e hj]
      show _ → 1 ≤ e ∧ e ≤ a.posted + 1
      by_cases he : a.posted + 1 = e
      · intro _
        omega
      · rw [if_neg he]
        intro hpos
        have := hp.flight_posted e hpos
        omega
    · rintro u (⟨p, hpmem, hpu⟩ | hx)
      · obtain hpmem | hpmem := List.mem_append.mp hpmem
        · exact hp.credited_le u (Or.inl ⟨p, hpmem, hpu⟩)
        · rw [dataPosts_credits hpmem] at hpu
          exact absurd hpu Bool.false_ne_true
      · exact hp.credited_le u (Or.inr hx)
    · obtain hknown | ⟨p, hpmem, hpu⟩ | hx := hp.credit_known
      · exact Or.inl hknown
      · exact Or.inr (Or.inl ⟨p, List.mem_append_left _ hpmem, hpu⟩)
      · exact Or.inr (Or.inr hx)
    · intro herr' e he1 he
      rw [harrived j e hj]
      exact hp.taken herr' e he1 he
  · intro j hj
    exact { h.receiver j hj with }

/-! ## Completions -/

section Consume

variable {ic : IbConfig n} {a : Node n} {x : NetCompletion n}

theorem consumeWc_credit (hstatus : x.status = 0) (hkind : x.kind = .recv) {p : Fin n}
    (hpeer : x.peer = some p) (hcredit : immIsCredit x.imm = true) :
    consumeWc ic a x = ({ a with
      creditRecv := Function.update a.creditRecv p (max (a.creditRecv p) (immSeq x.imm)) },
      true) := by
  unfold consumeWc
  rw [if_neg (not_not_intro hstatus)]
  simp only [hkind, hcredit, if_true, hpeer]
  split
  · rename_i hlt
    rw [Nat.max_eq_right (Nat.le_of_lt hlt)]
  · rename_i hge
    rw [Nat.max_eq_left (Nat.le_of_not_lt hge), Function.update_eq_self]

theorem consumeWc_data (hstatus : x.status = 0) (hkind : x.kind = .recv)
    (hdata : immIsCredit x.imm = false) :
    consumeWc ic a x = ({ a with
      tally := Function.update a.tally (immSeq x.imm % ic.nslots)
        (a.tally (immSeq x.imm % ic.nslots) + 1)
      peerSeqSeen := max a.peerSeqSeen (immSeq x.imm) }, true) := by
  unfold consumeWc
  rw [if_neg (not_not_intro hstatus)]
  simp only [hkind, hdata, Bool.false_eq_true, if_false]

theorem consumeWc_send (hstatus : x.status = 0) (hkind : x.kind = .send) {p : Fin n}
    (hpeer : x.peer = some p) :
    consumeWc ic a x = ({ a with
      sendDone := Function.update a.sendDone p (max (a.sendDone p) x.wrId) }, true) := by
  unfold consumeWc
  rw [if_neg (not_not_intro hstatus)]
  simp only [hkind, hpeer]
  split
  · rename_i hlt
    rw [Nat.max_eq_right (Nat.le_of_lt hlt)]
  · rename_i hge
    rw [Nat.max_eq_left (Nat.le_of_not_lt hge), Function.update_eq_self]

theorem consumeWc_flush (hstatus : x.status = 0) (hkind : x.kind = .flush) :
    consumeWc ic a x = ({ a with flushDone := a.flushDone + 1 }, true) := by
  unfold consumeWc
  rw [if_neg (not_not_intro hstatus)]
  simp only [hkind]

end Consume

theorem received_cons_of_ne {x : NetCompletion n} {q : List (NetCompletion n)}
    (hkind : x.kind ≠ .recv) : received (x :: q) = received q := by
  unfold received
  rw [List.filter_cons, if_neg]
  rw [decide_eq_true_eq]
  exact hkind

theorem At.consume_send {s : Nodes n} {i : Fin n} {a : Node n} (h : At c s i a)
    {x : NetCompletion n} {q : List (NetCompletion n)} (hq : a.cq = x :: q)
    (hkind : x.kind = .send) {p : Fin n} (hpeer : x.peer = some p) :
    At c s i { a with
      cq := q, sendDone := Function.update a.sendDone p (max (a.sendDone p) x.wrId) } := by
  have hx := h.own.cq x (hq ▸ List.mem_cons_self)
  have hmem : ∀ y, y ∈ q → y ∈ a.cq := fun y hy => hq ▸ List.mem_cons_of_mem x hy
  have hge : ∀ j, a.sendDone j ≤ Function.update a.sendDone p (max (a.sendDone p) x.wrId) j := by
    intro j
    by_cases hj : j = p
    · subst hj
      rw [Function.update_self]
      exact Nat.le_max_left _ _
    · rw [Function.update_of_ne hj]
  have hcompletes : ∀ j e, x.completes j e = true → j = p ∧ e = x.wrId := by
    intro j e hc
    obtain ⟨_, hj, hwrId⟩ := NetCompletion.completes_iff.mp hc
    exact ⟨Option.some.inj (hj.symm.trans hpeer), hwrId.symm⟩
  have hself : x.completes p x.wrId = true :=
    NetCompletion.completes_iff.mpr ⟨hkind, hpeer, rfl⟩
  apply h.same
  · refine ⟨⟨rfl, rfl, rfl, rfl, ?_⟩, rfl, rfl, rfl⟩
    rw [hq, received_cons_of_ne (by rw [hkind]; decide)]
  refine { h.own with
    flush_read := ?_, sends_done := ?_, cq := ?_, sendDone_le := ?_, send_known := ?_,
    in_order := ?_ }
  · intro herr hflush
    have := h.own.flush_read herr hflush
    rwa [hq, List.countP_cons_of_neg (by rw [hkind]; decide)] at this
  · intro herr j hj
    exact Nat.le_trans (h.own.sends_done herr j hj) (hge j)
  · intro y hy
    exact h.own.cq y (hmem y hy)
  · intro j
    show Function.update a.sendDone p _ j ≤ a.posted
    by_cases hj : j = p
    · subst hj
      rw [Function.update_self]
      exact Nat.max_le.mpr ⟨h.own.sendDone_le j, (hx.send hkind).1⟩
    · rw [Function.update_of_ne hj]
      exact h.own.sendDone_le j
  · intro j e hj he1 he
    obtain hdone | hout | hacks | ⟨y, hy, hcy⟩ := h.own.send_known j e hj he1 he
    · exact Or.inl (Nat.le_trans hdone (hge j))
    · exact Or.inr (Or.inl hout)
    · exact Or.inr (Or.inr (Or.inl hacks))
    · rw [hq] at hy
      obtain rfl | hy := List.mem_cons.mp hy
      · obtain ⟨rfl, rfl⟩ := hcompletes j e hcy
        left
        show _ ≤ Function.update a.sendDone j _ j
        rw [Function.update_self]
        exact Nat.le_max_right _ _
      · exact Or.inr (Or.inr (Or.inr ⟨y, hy, hcy⟩))
  · intro hord j w hw
    -- What is reported now was reported before, by the counter or by `x`.
    have hbefore : w ≤ a.sendDone j ∨ (∃ y, y ∈ a.cq ∧ y.completes j w = true) ∨
        (w ≤ x.wrId ∧ j = p) := by
      obtain hw | ⟨y, hy, hcy⟩ := hw
      · by_cases hj : j = p
        · subst hj
          have hw : w ≤ Function.update a.sendDone j (max (a.sendDone j) x.wrId) j := hw
          rw [Function.update_self] at hw
          obtain hle | hle := Nat.le_total (a.sendDone j) x.wrId
          · rw [Nat.max_eq_right hle] at hw
            exact Or.inr (Or.inr ⟨hw, rfl⟩)
          · rw [Nat.max_eq_left hle] at hw
            exact Or.inl hw
        · have hw : w ≤ Function.update a.sendDone p _ j := hw
          rw [Function.update_of_ne hj] at hw
          exact Or.inl hw
      · exact Or.inr (Or.inl ⟨y, hmem y hy, hcy⟩)
    obtain hw | hw | ⟨hle, rfl⟩ := hbefore
    · exact h.own.in_order hord j w (Or.inl hw)
    · exact h.own.in_order hord j w (Or.inr hw)
    · obtain ⟨hout, hacks⟩ := h.own.in_order hord j x.wrId
        (Or.inr ⟨x, hq ▸ List.mem_cons_self, hself⟩)
      refine ⟨fun p' e hp' hcar => ?_, fun e he => ?_⟩
      · exact Nat.lt_of_le_of_lt hle (hout p' e hp' hcar)
      · exact Nat.lt_of_le_of_lt hle (hacks e he)

theorem At.consume_flush {s : Nodes n} {i : Fin n} {a : Node n} (h : At c s i a)
    {x : NetCompletion n} {q : List (NetCompletion n)} (hq : a.cq = x :: q)
    (hkind : x.kind = .flush) :
    At c s i { a with cq := q, flushDone := a.flushDone + 1 } := by
  have hmem : ∀ y, y ∈ q → y ∈ a.cq := fun y hy => hq ▸ List.mem_cons_of_mem x hy
  have hcompletes : ∀ j e, x.completes j e = false := by
    intro j e
    simp [NetCompletion.completes, hkind]
  apply h.same
  · refine ⟨⟨rfl, rfl, rfl, rfl, ?_⟩, rfl, rfl, rfl⟩
    rw [hq, received_cons_of_ne (by rw [hkind]; decide)]
  refine { h.own with flush_read := ?_, cq := ?_, send_known := ?_, in_order := ?_ }
  · intro _ _
    show 0 < a.flushDone + 1 + a.flushes + _
    omega
  · intro y hy
    exact h.own.cq y (hmem y hy)
  · intro j e hj he1 he
    obtain hdone | hout | hacks | ⟨y, hy, hcy⟩ := h.own.send_known j e hj he1 he
    · exact Or.inl hdone
    · exact Or.inr (Or.inl hout)
    · exact Or.inr (Or.inr (Or.inl hacks))
    · rw [hq] at hy
      obtain rfl | hy := List.mem_cons.mp hy
      · rw [hcompletes] at hcy
        exact absurd hcy Bool.false_ne_true
      · exact Or.inr (Or.inr (Or.inr ⟨y, hy, hcy⟩))
  · intro hord j w hw
    apply h.own.in_order hord j w
    obtain hw | ⟨y, hy, hcy⟩ := hw
    · exact Or.inl hw
    · exact Or.inr ⟨y, hmem y hy, hcy⟩

/-- Taking an arrival from the queue does not matter to the node's own facts. -/
theorem Own.pop_recv {i : Fin n} {a : Node n} (h : Own c i a) {x : NetCompletion n}
    {q : List (NetCompletion n)} (hq : a.cq = x :: q) (hkind : x.kind = .recv) :
    Own c i { a with cq := q } := by
  have hmem : ∀ y, y ∈ q → y ∈ a.cq := fun y hy => hq ▸ List.mem_cons_of_mem x hy
  have hcompletes : ∀ j e, x.completes j e = false := by
    intro j e
    simp [NetCompletion.completes, hkind]
  refine { h with flush_read := ?_, cq := ?_, send_known := ?_, in_order := ?_ }
  · intro herr hflush
    have := h.flush_read herr hflush
    rwa [hq, List.countP_cons_of_neg (by rw [hkind]; decide)] at this
  · intro y hy
    exact h.cq y (hmem y hy)
  · intro j e hj he1 he
    obtain hdone | hout | hacks | ⟨y, hy, hcy⟩ := h.send_known j e hj he1 he
    · exact Or.inl hdone
    · exact Or.inr (Or.inl hout)
    · exact Or.inr (Or.inr (Or.inl hacks))
    · rw [hq] at hy
      obtain rfl | hy := List.mem_cons.mp hy
      · rw [hcompletes] at hcy
        exact absurd hcy Bool.false_ne_true
      · exact Or.inr (Or.inr (Or.inr ⟨y, hy, hcy⟩))
  · intro hord j w hw
    apply h.in_order hord j w
    obtain hw | ⟨y, hy, hcy⟩ := hw
    · exact Or.inl hw
    · exact Or.inr ⟨y, hmem y hy, hcy⟩

theorem At.consume_credit {s : Nodes n} {i : Fin n} {a : Node n} (h : At c s i a)
    {x : NetCompletion n} {q : List (NetCompletion n)} (hq : a.cq = x :: q)
    (hkind : x.kind = .recv) (hcredit : immIsCredit x.imm = true) {p : Fin n} (hne : p ≠ i)
    (hpeer : x.peer = some p) :
    At c s i { a with
      cq := q
      creditRecv := Function.update a.creditRecv p (max (a.creditRecv p) (immSeq x.imm)) } := by
  have hmem : ∀ y, y ∈ q → y ∈ a.cq := fun y hy => hq ▸ List.mem_cons_of_mem x hy
  have hge : ∀ j, a.creditRecv j ≤
      Function.update a.creditRecv p (max (a.creditRecv p) (immSeq x.imm)) j := by
    intro j
    by_cases hj : j = p
    · subst hj
      rw [Function.update_self]
      exact Nat.le_max_left _ _
    · rw [Function.update_of_ne hj]
  have hcount : ∀ j e, q.countP (NetCompletion.brings j e) =
      a.cq.countP (NetCompletion.brings j e) := by
    intro j e
    rw [hq, List.countP_cons_of_neg]
    simp [NetCompletion.brings, hcredit]
  have hflight : ∀ j y e, flight j i y { a with
      cq := q
      creditRecv := Function.update a.creditRecv p (max (a.creditRecv p) (immSeq x.imm)) } e =
        flight j i y a e := by
    intro j y e
    unfold flight
    rw [← hcount]
  refine ⟨{ h.own.pop_recv hq hkind with }, ?_, ?_, ?_, h.other_congr fun j e _ => Iff.rfl⟩
  · intro j hj
    have hp := h.sender j hj
    refine { hp with posted_le := ?_ }
    exact Nat.le_trans hp.posted_le (Nat.add_le_add_right (hge j) _)
  · intro j hj
    have hp := h.receiver j hj
    refine { hp with
      flight_le := ?_, flight_posted := ?_, creditRecv_le := ?_, credited_le := ?_,
      credit_known := ?_, taken := ?_ }
    · intro e
      rw [hflight]
      exact hp.flight_le e
    · intro e
      rw [hflight]
      exact hp.flight_posted e
    · show Function.update a.creditRecv p _ j ≤ _
      by_cases hjp : j = p
      · subst hjp
        rw [Function.update_self]
        apply Nat.max_le.mpr
        refine ⟨hp.creditRecv_le, ?_⟩
        apply hp.credited_le
        refine Or.inr ⟨x, hq ▸ List.mem_cons_self, ?_⟩
        exact NetCompletion.credits_iff.mpr ⟨hkind, hpeer, hcredit, rfl⟩
      · rw [Function.update_of_ne hjp]
        exact hp.creditRecv_le
    · rintro u (hout | ⟨y, hy, hu⟩)
      · exact hp.credited_le u (Or.inl hout)
      · exact hp.credited_le u (Or.inr ⟨y, hmem y hy, hu⟩)
    · obtain hknown | hout | ⟨y, hy, hu⟩ := hp.credit_known
      · exact Or.inl (Nat.le_trans hknown (hge j))
      · exact Or.inr (Or.inl hout)
      · rw [hq] at hy
        obtain rfl | hy := List.mem_cons.mp hy
        · obtain ⟨_, hj', _, hu⟩ := NetCompletion.credits_iff.mp hu
          have hjp : j = p := Option.some.inj (hj'.symm.trans hpeer)
          subst hjp
          left
          show _ ≤ Function.update a.creditRecv j _ j
          rw [Function.update_self, hu]
          exact Nat.le_max_right _ _
        · exact Or.inr (Or.inr ⟨y, hy, hu⟩)
    · intro herr e he1 he
      obtain ⟨h1, h2, h3⟩ := hp.taken herr e he1 he
      exact ⟨h1, h2, by rw [hflight]; exact h3⟩
  · intro herr e hlo hhi
    have htally := h.tally herr e hlo hhi
    refine htally.trans ?_
    congr 1
    ext k
    rw [mem_arrivals, mem_arrivals]
    unfold Arrived
    rw [hflight]

/-- An arrival is counted in the slot of its exchange, which is in the window. -/
theorem At.consume_data {s : Nodes n} {i : Fin n} {a : Node n} (h : At c s i a)
    {x : NetCompletion n} {q : List (NetCompletion n)} (hq : a.cq = x :: q)
    (hkind : x.kind = .recv) (hdata : immIsCredit x.imm = false) {p : Fin n} (hne : p ≠ i)
    (hpeer : x.peer = some p) :
    At c s i { a with
      cq := q
      tally := Function.update a.tally (immSeq x.imm % c.nslots)
        (a.tally (immSeq x.imm % c.nslots) + 1)
      peerSeqSeen := max a.peerSeqSeen (immSeq x.imm) } := by
  have hmem : ∀ y, y ∈ q → y ∈ a.cq := fun y hy => hq ▸ List.mem_cons_of_mem x hy
  have hbrings : ∀ j e, x.brings j e = true ↔ j = p ∧ e = immSeq x.imm := by
    intro j e
    rw [NetCompletion.brings_iff]
    constructor
    · rintro ⟨_, hj, _, he⟩
      exact ⟨Option.some.inj (hj.symm.trans hpeer), he.symm⟩
    · rintro ⟨rfl, rfl⟩
      exact ⟨hkind, hpeer, hdata, rfl⟩
  generalize hb : ({ a with
      cq := q
      tally := Function.update a.tally (immSeq x.imm % c.nslots)
        (a.tally (immSeq x.imm % c.nslots) + 1)
      peerSeqSeen := max a.peerSeqSeen (immSeq x.imm) } : Node n) = b
  have hbcq : b.cq = q := by rw [← hb]
  have hflight : ∀ j y e, flight j i y a e =
      flight j i y b e + if j = p ∧ e = immSeq x.imm then 1 else 0 := by
    intro j y e
    unfold flight
    rw [hq, hbcq, List.countP_cons, Nat.add_assoc]
    simp only [hbrings]
  have hflight_le : ∀ j y e, flight j i y b e ≤ flight j i y a e := by
    intro j y e
    rw [hflight]
    exact Nat.le_add_right _ _
  have hpair := h.receiver p hne
  have harrives : flight p i (s p) a (immSeq x.imm) = 1 := by
    apply Nat.le_antisymm (hpair.flight_le _)
    rw [hflight, if_pos ⟨rfl, rfl⟩]
    exact Nat.le_add_left 1 _
  have hposted := hpair.flight_posted (immSeq x.imm) (harrives ▸ Nat.one_pos)
  have hnew : flight p i (s p) b (immSeq x.imm) = 0 := by
    have := hflight p (s p) (immSeq x.imm)
    rw [harrives, if_pos ⟨rfl, rfl⟩] at this
    omega
  have hown : Own c i b := by
    rw [← hb]
    exact { h.own.pop_recv hq hkind with }
  refine ⟨hown, ?_, ?_, ?_, ?_⟩
  · intro j hj
    rw [← hb]
    exact { h.sender j hj with }
  · intro j hj
    have hp := h.receiver j hj
    refine ⟨?_, ?_, hp.posted_le, ?_, ?_, ?_, ?_⟩
    · intro e
      exact Nat.le_trans (hflight_le j (s j) e) (hp.flight_le e)
    · intro e hpos
      exact hp.flight_posted e (Nat.lt_of_lt_of_le hpos (hflight_le j (s j) e))
    · rw [← hb]
      exact hp.creditRecv_le
    · rintro u (hout | ⟨y, hy, hu⟩)
      · exact hp.credited_le u (Or.inl hout)
      · exact hp.credited_le u (Or.inr ⟨y, hmem y (hbcq ▸ hy), hu⟩)
    · rw [← hb]
      obtain hknown | hout | ⟨y, hy, hu⟩ := hp.credit_known
      · exact Or.inl hknown
      · exact Or.inr (Or.inl hout)
      · rw [hq] at hy
        obtain rfl | hy := List.mem_cons.mp hy
        · rw [NetCompletion.credits_iff, hdata] at hu
          exact absurd hu.2.2.1 Bool.false_ne_true
        · exact Or.inr (Or.inr ⟨y, hy, hu⟩)
    · intro herr e he1 he
      have hold := hp.taken (by rw [← hb] at herr; exact herr) e he1 (by rw [← hb] at he; exact he)
      obtain ⟨h1, h2, h3⟩ := hold
      refine ⟨h1, h2, ?_⟩
      have := hflight_le j (s j) e
      omega
  · intro herr e hlo hhi
    have herr : a.error = 0 := by rw [← hb] at herr; exact herr
    have htaken : b.taken = a.taken := by rw [← hb]; rfl
    have htally : b.tally = Function.update a.tally (immSeq x.imm % c.nslots)
        (a.tally (immSeq x.imm % c.nslots) + 1) := by rw [← hb]
    rw [htaken] at hlo hhi
    -- The exchange of the arrival is in the window as well.
    have hlo' : a.taken < immSeq x.imm := by
      by_contra hge
      have := (hpair.taken herr (immSeq x.imm) hposted.1 (by omega)).2.2
      omega
    have hhi' : immSeq x.imm ≤ a.taken + c.nslots :=
      Nat.le_trans hposted.2 (h.posted_window herr hne)
    by_cases he : e = immSeq x.imm
    · subst he
      rw [htally, Function.update_self, h.tally herr _ hlo hhi]
      have hinsert : arrivals s i b (immSeq x.imm) =
          insert p (arrivals s i a (immSeq x.imm)) := by
        ext k
        rw [Finset.mem_insert, mem_arrivals, mem_arrivals]
        by_cases hk : k = p
        · subst hk
          exact ⟨fun _ => Or.inl rfl, fun _ => ⟨hne, hposted.1, hposted.2, hnew⟩⟩
        · unfold Arrived
          rw [hflight k (s k) (immSeq x.imm), if_neg (fun h => hk h.1), Nat.add_zero]
          exact ⟨Or.inr, fun h => h.resolve_left hk⟩
      have hnot : p ∉ arrivals s i a (immSeq x.imm) := by
        intro hmemp
        have := (mem_arrivals.mp hmemp).2.2.2
        omega
      rw [hinsert, Finset.card_insert_of_notMem hnot]
    · have hslot := mod_ne_of_window hlo hhi hlo' hhi' he
      rw [htally, Function.update_of_ne hslot, h.tally herr e hlo hhi]
      congr 1
      ext k
      rw [mem_arrivals, mem_arrivals]
      unfold Arrived
      rw [hflight k (s k) e, if_neg (fun h => he h.2), Nat.add_zero]
  · apply h.other_congr
    intro j e _
    rw [← hb]
    exact Iff.rfl

/-- `_consume_wc` does not look at the queue. -/
theorem consumeWc_cq (ic : IbConfig n) (a : Node n) {x : NetCompletion n} {i : Fin n}
    {posted : Nat} (hx : x.Fits i posted) (q : List (NetCompletion n)) :
    consumeWc ic { a with cq := q } x =
      ({ (consumeWc ic a x).1 with cq := q }, (consumeWc ic a x).2) := by
  cases hkind : x.kind with
  | recv =>
      obtain ⟨p, _, hpeer⟩ := hx.recv hkind
      cases himm : immIsCredit x.imm with
      | true =>
          rw [consumeWc_credit hx.status hkind hpeer himm,
            consumeWc_credit hx.status hkind hpeer himm]
      | false =>
          rw [consumeWc_data hx.status hkind himm, consumeWc_data hx.status hkind himm]
  | send =>
      obtain ⟨_, p, _, hpeer⟩ := hx.send hkind
      rw [consumeWc_send hx.status hkind hpeer, consumeWc_send hx.status hkind hpeer]
  | flush =>
      rw [consumeWc_flush hx.status hkind, consumeWc_flush hx.status hkind]
  | other => exact absurd hkind hx.other

/-- A completion of the invariant is consumed. -/
theorem At.consumeWc {s : Nodes n} {i : Fin n} {a : Node n} (h : At c s i a)
    {x : NetCompletion n} {q : List (NetCompletion n)} (hq : a.cq = x :: q) :
    At c s i (consumeWc (c.at i) { a with cq := q } x).1 ∧
      (consumeWc (c.at i) { a with cq := q } x).2 = true ∧
      (consumeWc (c.at i) { a with cq := q } x).1.error = a.error ∧
      (consumeWc (c.at i) { a with cq := q } x).1.cq = q := by
  have hx := h.own.cq x (hq ▸ List.mem_cons_self)
  cases hkind : x.kind with
  | recv =>
      obtain ⟨p, hne, hpeer⟩ := hx.recv hkind
      cases himm : immIsCredit x.imm with
      | true =>
          rw [consumeWc_credit hx.status hkind hpeer himm]
          exact ⟨h.consume_credit hq hkind himm hne hpeer, rfl, rfl, rfl⟩
      | false =>
          rw [consumeWc_data hx.status hkind himm]
          exact ⟨h.consume_data hq hkind himm hne hpeer, rfl, rfl, rfl⟩
  | send =>
      obtain ⟨_, p, _, hpeer⟩ := hx.send hkind
      rw [consumeWc_send hx.status hkind hpeer]
      exact ⟨h.consume_send hq hkind hpeer, rfl, rfl, rfl⟩
  | flush =>
      rw [consumeWc_flush hx.status hkind]
      exact ⟨h.consume_flush hq hkind, rfl, rfl, rfl⟩
  | other => exact absurd hkind hx.other

/-- A batch of completions is consumed, oldest first. -/
theorem At.consumeAll {s : Nodes n} {i : Fin n} {a : Node n} (h : At c s i a)
    {batch rest : List (NetCompletion n)} (hq : a.cq = batch ++ rest) :
    At c s i (consumeAll (c.at i) { a with cq := rest } batch).1 ∧
      (consumeAll (c.at i) { a with cq := rest } batch).2 = true ∧
      (consumeAll (c.at i) { a with cq := rest } batch).1.error = a.error := by
  induction batch generalizing a with
  | nil =>
      have ha : { a with cq := rest } = a := by
        rw [List.nil_append] at hq
        rw [← hq]
      unfold Net.consumeAll
      rw [ha]
      exact ⟨h, rfl, rfl⟩
  | cons x xs ih =>
      obtain ⟨hat, hok, herr, hcq⟩ := h.consumeWc (x := x) (q := xs ++ rest) hq
      obtain ⟨hrest, hall, herr'⟩ := ih hat hcq
      have hx := h.own.cq x (hq ▸ List.mem_cons_self)
      have hstep : Net.consumeAll (c.at i) { a with cq := rest } (x :: xs) =
          Net.consumeAll (c.at i) { (Net.consumeWc (c.at i)
            { a with cq := xs ++ rest } x).1 with cq := rest } xs := by
        rw [consumeWc_cq _ _ hx] at hok ⊢
        conv_lhs => unfold Net.consumeAll
        rw [consumeWc_cq _ _ hx]
        simp only at hok
        rw [hok]
      rw [hstep]
      exact ⟨hrest, hall, herr'.trans herr⟩

/-! ## Retiring -/

/-- The facts about the exchange `_advance` looks at. -/
theorem Own.head_cell {i : Fin n} {a : Node n} (h : Own c i a) (hlt : a.done < a.posted) :
    Filled n a.credit a.posted (a.done + 1) (a.work (a.done + 1)) := by
  have hposted := h.posted_le
  have hrequest := h.request_le
  exact h.cells.contents _ (Nat.lt_succ_self _) (by omega)

/-- The ring of cells when the next exchange is retired. -/
theorem Own.retire_cells {i : Fin n} {a : Node n} (h : Own c i a) (hlt : a.done < a.posted)
    {w : IbWork} (hw : w.status ≠ 0) :
    RingHolds WORK_SLOTS IbWork.Running (Filled n a.credit a.posted)
      (Function.update a.works (workSlot (a.done + 1)) w) (a.done + 1) a.filled := by
  have hposted := h.posted_le
  have hrequest := h.request_le
  exact h.cells.pop (by omega) hw

/-- The flush read of an exchange came back. -/
theorem At.flushRetire {s : Nodes n} {i : Fin n} {a : Node n} (h : At c s i a)
    (herr : a.error = 0) (hflush : a.flushSeq ≠ 0) :
    At c s i (retire { a with
      flushDone := a.flushDone - 1, done := a.flushSeq, flushSeq := 0 } a.flushSeq) := by
  obtain ⟨hseq, hle⟩ := h.own.flush herr hflush
  have hposted := h.own.posted_le
  have hconsumed := h.own.consumed_le
  apply h.same
  · refine ⟨⟨rfl, rfl, rfl, rfl, rfl⟩, rfl, rfl, ?_⟩
    show Node.taken _ = Node.taken a
    unfold Node.taken
    rw [if_neg hflush]
    rfl
  have htaken : a.taken = a.flushSeq := by
    unfold Node.taken
    rw [if_neg hflush]
  refine { h.own with
    consumed_le := ?_, done_le := ?_, cells := ?_, done_le_posted := fun _ => hle, flush := ?_,
    flush_read := ?_, sends_done := ?_ }
  · show a.consumed ≤ a.flushSeq
    omega
  · show a.flushSeq ≤ a.request
    omega
  · show RingHolds WORK_SLOTS IbWork.Running (Filled n a.credit a.posted)
      (Function.update a.works (workSlot a.flushSeq) _) a.flushSeq a.filled
    rw [hseq]
    exact h.own.retire_cells (by omega) Nat.one_ne_zero
  · intro _ hne
    exact absurd rfl hne
  · intro _ hne
    exact absurd rfl hne
  · intro _ j hj
    have := h.own.sends_done herr j hj
    rw [htaken] at this
    exact this

/-- All payloads of the next exchange have been counted: take its tally. -/
theorem At.take {s : Nodes n} {i : Fin n} {a b : Node n} (h : At c s i a)
    (herr : a.error = 0) (hflush : a.flushSeq = 0) (hlt : a.done < a.posted)
    (hcount : (a.work (a.done + 1)).nrecv ≤ a.tally ((a.done + 1) % c.nslots))
    (hnslots : 0 < c.nslots) (hw : SameLinks a b) (hown : Own c i b)
    (htaken : b.taken = a.done + 1)
    (htally : b.tally = Function.update a.tally ((a.done + 1) % c.nslots)
      (a.tally ((a.done + 1) % c.nslots) - (a.work (a.done + 1)).nrecv)) :
    At c s i b := by
  have htaken_a : a.taken = a.done := by
    unfold Node.taken
    rw [if_pos hflush]
  have hnrecv := (h.own.head_cell hlt).allToAll.2.2
  have hcell := h.tally herr (a.done + 1) (by omega) (by omega)
  have hcard : n - 1 ≤ (arrivals s i a (a.done + 1)).card := by
    rw [← hcell, ← hnrecv]
    exact hcount
  apply h.links hw hown
  · intro _ j hj e he1 he
    rw [htaken] at he
    obtain he | rfl := Nat.lt_or_eq_of_le he
    · exact (h.receiver j hj).taken herr e he1 (by omega)
    · exact arrived_of_card hcard hj
  · intro _ e hlo hhi
    rw [htaken] at hlo hhi
    rw [htally]
    by_cases he : e = a.done + 1 + c.nslots
    · -- The slot is empty again: nobody has posted an exchange that far ahead.
      subst he
      rw [Nat.add_mod_right, Function.update_self]
      have hle := arrivals_card_le s i a (a.done + 1)
      have hnone : arrivals s i a (a.done + 1 + c.nslots) = ∅ := by
        apply Finset.eq_empty_of_forall_notMem
        intro k hk
        obtain ⟨hki, _, hposted, _⟩ := mem_arrivals.mp hk
        have hwindow := h.posted_window herr hki
        omega
      rw [hnone, Finset.card_empty, hcell, hnrecv]
      omega
    · have hne : e % c.nslots ≠ (a.done + 1) % c.nslots :=
        mod_ne_of_window (show a.done < e by omega) (by omega) (Nat.lt_succ_self _) (by omega)
          (by omega)
      rw [Function.update_of_ne hne]
      exact h.tally herr e (by omega) (by omega)

/-- The sends of an exchange that `_sends_done` accepts. -/
theorem Own.sendsDone_le {i : Fin n} {a : Node n} (h : Own c i a) (hlt : a.done < a.posted)
    (hsends : sendsDone (c.at i) a (a.work (a.done + 1)) = true) {j : Fin n} (hj : j ≠ i) :
    a.done + 1 ≤ a.sendDone j := by
  have hfilled := h.head_cell hlt
  unfold sendsDone at hsends
  rw [hfilled.sent hlt, hfilled.seq, Bool.not_true, Bool.false_or] at hsends
  exact of_decide_eq_true (List.all_eq_true.mp hsends j (mem_peers.mpr hj))

/-- One turn of `_advance` keeps the invariant; the engine stays free of errors. -/
theorem At.advanceStep {s : Nodes n} {i : Fin n} {a b : Node n} (h : At c s i a)
    (hnslots : 0 < c.nslots) (herr : a.error = 0)
    (hstep : advanceStep (c.at i) (fun _ => 0) a = .moved b) : At c s i b ∧ b.error = 0 := by
  unfold Net.advanceStep at hstep
  split at hstep
  case isTrue hflush =>
    split at hstep
    case isTrue => cases hstep
    case isFalse =>
      cases hstep
      exact ⟨h.flushRetire herr hflush, herr⟩
  case isFalse hflush =>
    rw [ne_eq, not_not] at hflush
    split at hstep
    case isTrue => cases hstep
    case isFalse hlt =>
      rw [Nat.not_le] at hlt
      dsimp only at hstep
      split at hstep
      case isTrue => cases hstep
      case isFalse hcount =>
        rw [Nat.not_lt] at hcount
        split at hstep
        case isTrue => cases hstep
        case isFalse hsends =>
          rw [Bool.not_eq_true, Bool.not_eq_false'] at hsends
          have hposted := h.own.posted_le
          have hconsumed := h.own.consumed_le
          split at hstep
          case isTrue =>
            cases hstep
            refine ⟨?_, herr⟩
            refine h.take herr hflush hlt hcount hnslots ?_ ?_ ?_ rfl
            · exact ⟨rfl, rfl, rfl, rfl, rfl⟩
            · refine { h.own with flush := ?_, flush_read := ?_, sends_done := ?_ }
              · intro _ _
                exact ⟨rfl, hlt⟩
              · intro _ _
                show 0 < a.flushDone + (a.flushes + 1) + _
                omega
              · intro _ j hj
                exact h.own.sendsDone_le hlt hsends hj
            · unfold Node.taken
              exact if_neg (Nat.succ_ne_zero _)
          case isFalse =>
            cases hstep
            refine ⟨?_, herr⟩
            refine h.take herr hflush hlt hcount hnslots ?_ ?_ ?_ rfl
            · exact ⟨rfl, rfl, rfl, rfl, rfl⟩
            · refine { h.own with
                consumed_le := ?_, done_le := ?_, cells := h.own.retire_cells hlt Nat.one_ne_zero,
                done_le_posted := fun _ => hlt, flush := ?_, flush_read := ?_, sends_done := ?_ }
              · exact Nat.le_succ_of_le hconsumed
              · show a.done + 1 ≤ a.request
                omega
              · intro _ hne
                exact absurd hflush hne
              · intro _ hne
                exact absurd hflush hne
              · intro _ j hj
                have := h.own.sendsDone_le hlt hsends hj
                show Node.taken _ ≤ a.sendDone j
                unfold Node.taken
                rwa [if_pos]
                exact hflush
            · unfold Node.taken
              exact if_pos hflush

theorem advanceStep_ne_failed (ic : IbConfig n) (a b : Node n) :
    advanceStep ic (fun _ => 0) a ≠ .failed b := by
  intro hstep
  unfold advanceStep at hstep
  dsimp only at hstep
  split_ifs at hstep with h1 h2 h3 h4 h5 h6 h7
  exact absurd rfl h7

theorem At.advance {s : Nodes n} {i : Fin n} {a : Node n} (h : At c s i a)
    (hnslots : 0 < c.nslots) (herr : a.error = 0) :
    At c s i (advance (c.at i) (fun _ => 0) a).1 ∧
      (advance (c.at i) (fun _ => 0) a).1.error = 0 := by
  induction hm : a.turns using Nat.strongRecOn generalizing a with
  | ind m ih =>
      rw [advance_eq]
      cases hstep : Net.advanceStep (c.at i) (fun _ => 0) a with
      | stop => exact ⟨h, herr⟩
      | failed b => exact absurd hstep (advanceStep_ne_failed _ _ _)
      | moved b =>
          obtain ⟨hb, herrb⟩ := h.advanceStep hnslots herr hstep
          exact ih _ (hm ▸ advanceStep_decreases _ _ hstep) hb herrb rfl

/-! ## Failing -/

/-- Once there is an error, what was taken no longer matters. -/
theorem At.failed {s : Nodes n} {i : Fin n} {a b : Node n} (h : At c s i a)
    (hw : SameLinks a b) (hown : Own c i b) (herr : b.error ≠ 0) : At c s i b :=
  h.links hw hown (fun h0 => absurd h0 herr) (fun h0 => absurd h0 herr)

theorem At.fail {s : Nodes n} {i : Fin n} {a : Node n} (h : At c s i a) {err : Int}
    (herr : err ≠ 0) : At c s i { a with error := err } := by
  refine h.failed ⟨rfl, rfl, rfl, rfl, rfl⟩ ?_ herr
  exact { h.own with
    done_le_posted := fun h0 => absurd h0 herr
    flush := fun h0 => absurd h0 herr
    flush_read := fun h0 => absurd h0 herr
    sends_done := fun h0 => absurd h0 herr }

theorem At.releaseLoop {s : Nodes n} {i : Fin n} {a : Node n} (h : At c s i a)
    (herr : a.error ≠ 0) {k : Nat} (hk : k ≤ a.request - a.done) :
    At c s i (releaseLoop k a) ∧ (releaseLoop k a).error ≠ 0 := by
  induction k generalizing a with
  | zero => exact ⟨h, herr⟩
  | succ k ih =>
      have hrequest := h.own.request_le
      refine ih ?_ herr ?_
      · refine h.failed ⟨rfl, rfl, rfl, rfl, rfl⟩ ?_ herr
        refine { h.own with
          consumed_le := Nat.le_succ_of_le h.own.consumed_le, done_le := ?_, cells := ?_,
          done_le_posted := fun h0 => absurd h0 herr, flush := fun h0 => absurd h0 herr,
          sends_done := fun h0 => absurd h0 herr }
        · show a.done + 1 ≤ a.request
          omega
        · exact h.own.cells.pop (by omega) (Nat.succ_ne_zero 1)
      · show k ≤ a.request - (a.done + 1)
        omega

theorem At.releaseOnError {s : Nodes n} {i : Fin n} {a : Node n} (h : At c s i a)
    (herr : a.error ≠ 0) : At c s i (releaseOnError a) := by
  obtain ⟨hloop, herr⟩ := h.releaseLoop herr (Nat.le_refl _)
  refine hloop.failed ⟨rfl, rfl, rfl, rfl, rfl⟩ ?_ herr
  exact { hloop.own with
    flush := fun h0 => absurd h0 herr, flush_read := fun h0 => absurd h0 herr,
    sends_done := fun h0 => absurd h0 herr }

/-! ## Driving -/

theorem At.postNext {s : Nodes n} {i : Fin n} {a : Node n} (h : At c s i a) (herr : a.error = 0) :
    At c s i (postNext (c.at i) (fun _ => 0) a).1 ∧
      (postNext (c.at i) (fun _ => 0) a).2.2 = true ∧
      (postNext (c.at i) (fun _ => 0) a).1.error = 0 := by
  unfold Net.postNext
  by_cases hlt : a.posted < a.request
  case neg =>
    rw [if_neg hlt]
    exact ⟨h, rfl, herr⟩
  rw [if_pos hlt]
  obtain ⟨_, hfilled⟩ := h.own.next_cell herr hlt
  have hcredit := h.own.credit_le (a.posted + 1) hlt
  rw [← hfilled.credit] at hcredit
  have hb := h.sendCredits hcredit
  dsimp only
  -- What `_send_credits` leaves as it was, and what it is for.
  generalize hsend : Net.sendCredits (c.at i) (fun _ => 0) a (a.work (a.posted + 1)).creditUpto =
    r at hb ⊢
  have hkeeps : r.1.error = a.error ∧ r.1.posted = a.posted ∧ r.1.request = a.request ∧
      r.1.credit = a.credit ∧ r.1.works = a.works ∧ a.credit (a.posted + 1) ≤ r.1.creditSent := by
    rw [sendCredits_eq, hfilled.credit] at hsend
    split at hsend
    · rw [← hsend]
      exact ⟨rfl, rfl, rfl, rfl, rfl, ‹_›⟩
    · rw [← hsend]
      exact ⟨rfl, rfl, rfl, rfl, rfl, Nat.le_refl _⟩
  obtain ⟨herrb, hposted, hrequest, hcreditb, hworks, hsent⟩ := hkeeps
  rw [← hposted] at hlt hsent hfilled ⊢
  rw [herr] at herrb
  split
  case isFalse => exact ⟨hb, rfl, herrb⟩
  case isTrue hcan =>
    have hall : AllToAll n (r.1.work (r.1.posted + 1)).toDescriptor := by
      unfold Node.work
      rw [hworks]
      exact hfilled.allToAll
    rw [postData_next _ _ hall]
    refine ⟨?_, rfl, herrb⟩
    exact hb.advancePosted herrb (by omega) (by rw [hcreditb]; exact hsent) hcan

theorem At.ibDrive {s : Nodes n} {i : Fin n} {a : Node n} (h : At c s i a)
    (hnslots : 0 < c.nslots) (polled : Nat) (late : Bool) :
    At c s i (ibDrive (c.at i) (fun _ => 0) a polled late).1 := by
  unfold Net.ibDrive
  by_cases herr : a.error = 0
  case neg =>
    rw [if_pos herr]
    exact h.releaseOnError herr
  rw [if_neg (not_not_intro herr)]
  have hcredits := h.sendCredits h.own.creditDevice_le
  have herrc : (Net.sendCredits (c.at i) (fun _ => 0) a a.creditDevice).1.error = 0 := by
    rw [sendCredits_eq]
    split <;> exact herr
  generalize Net.sendCredits (c.at i) (fun _ => 0) a a.creditDevice = r at hcredits herrc ⊢
  obtain ⟨a1, credited⟩ := r
  obtain ⟨hposted, hok, herrp⟩ := hcredits.postNext herrc
  dsimp only
  generalize Net.postNext (c.at i) (fun _ => 0) a1 = r at hposted hok herrp ⊢
  obtain ⟨a2, posted, ok⟩ := r
  cases hok
  dsimp only
  obtain ⟨hconsumed, hall, herrq⟩ := hposted.consumeAll
    (List.take_append_drop (min polled COMP_BATCH) a2.cq).symm
  dsimp only at hconsumed hall herrq herrp
  generalize Net.consumeAll (c.at i) _ _ = r at hconsumed hall herrq ⊢
  obtain ⟨a3, all⟩ := r
  cases hall
  dsimp only at hconsumed herrq ⊢
  obtain ⟨hadv, herra⟩ := hconsumed.advance hnslots (herrq.trans herrp)
  generalize Net.advance (c.at i) (fun _ => 0) a3 = r at hadv herra ⊢
  obtain ⟨a4, advanced⟩ := r
  split
  case isFalse => exact hadv
  case isTrue =>
    have hstalled : (3 : Int) ≠ 0 := by decide
    exact (hadv.fail hstalled).releaseOnError hstalled

end TorchMojoBackend.Ccl.Net
