/-
  `Ccl.Topology`: nodes and local ranks from the gathered host hashes.

  Source: tmb/ccl/init.mojo (`Topology`, `derive_topology`).

  A rank index is in the range of the table; `rank` is one too.
-/
import TorchMojoBackend.Foundation.Grouping

set_option autoImplicit false

namespace TorchMojoBackend.Ccl

open TorchMojoBackend.Foundation

structure Topology where
  nnodes : Nat
  localWorld : Nat
  myNode : Nat
  myLocalRank : Nat
  nodeOf : List Nat
  localRankOf : List Nat
  rankAt : List Nat
  deriving DecidableEq, Repr

/-- The last loop of `derive_topology`: global rank by node and local rank. -/
def rankTable (nnodes localWorld n : Nat) (nodeOf localRankOf : List Nat) : List Nat :=
  (List.range n).foldl
    (fun t r => t.set (nodeOf.getD r 0 * localWorld + localRankOf.getD r 0) r)
    (List.replicate (nnodes * localWorld) 0)

/-- `derive_topology`. -/
def deriveTopology (hostHashes : List UInt64) (rank : Nat) : Except String Topology :=
  let nodes := numberItems hostHashes
  let nnodes := nodes.1.length
  let places := placeItems nnodes nodes.2
  let localWorld := places.1.getD 0 0
  match places.1.findIdx? (· != localWorld) with
  | some j => .error
      ("mojoccl: every node must contribute the same number of ranks (node 0 has "
        ++ toString localWorld ++ ", node " ++ toString j ++ " has "
        ++ toString (places.1.getD j 0) ++ "); launch with a uniform --nproc-per-node")
  | none => .ok
      { nnodes := nnodes
        localWorld := localWorld
        myNode := nodes.2.getD rank 0
        myLocalRank := places.2.getD rank 0
        nodeOf := nodes.2
        localRankOf := places.2
        rankAt := rankTable nnodes localWorld hostHashes.length nodes.2 places.2 }

/-- The same tables, from another rank. -/
def Topology.seenFrom (topo : Topology) (rank : Nat) : Topology :=
  { topo with
    myNode := topo.nodeOf.getD rank 0
    myLocalRank := topo.localRankOf.getD rank 0 }

/-- The tables put the ranks on a grid of nodes and local ranks. -/
structure Topology.Grid (topo : Topology) (hostHashes : List UInt64) : Prop where
  size : topo.nnodes * topo.localWorld = hostHashes.length
  node_length : topo.nodeOf.length = hostHashes.length
  localRank_length : topo.localRankOf.length = hostHashes.length
  node_iff : ∀ (r s : Nat) (hr : r < hostHashes.length) (hs : s < hostHashes.length),
    topo.nodeOf[r]? = topo.nodeOf[s]? ↔ hostHashes[r] = hostHashes[s]
  rankAt_place : ∀ r node localRank : Nat, topo.nodeOf[r]? = some node →
    topo.localRankOf[r]? = some localRank → node < topo.nnodes ∧ localRank < topo.localWorld ∧
      topo.rankAt[node * topo.localWorld + localRank]? = some r
  place_rankAt : ∀ node localRank : Nat, node < topo.nnodes → localRank < topo.localWorld →
    ∃ r, topo.rankAt[node * topo.localWorld + localRank]? = some r ∧
      topo.nodeOf[r]? = some node ∧ topo.localRankOf[r]? = some localRank
  increasing : ∀ r s lr ls : Nat, r < s → topo.nodeOf[r]? = topo.nodeOf[s]? →
    topo.localRankOf[r]? = some lr → topo.localRankOf[s]? = some ls → lr < ls

section
variable {hostHashes : List UInt64} {nodes : List UInt64 × List Nat} {places : List Nat × List Nat}
  {w : Nat} (hnodes : Numbered hostHashes nodes) (hplaces : Placed nodes.1.length nodes.2 places)
  (hcount : ∀ k, k < nodes.1.length → nodes.2.count k = w)
include hnodes hplaces hcount

/-- With nodes of one size the table holds each rank at its node and local rank. -/
theorem rankTable_place {r : Nat} (hr : r < nodes.2.length) :
    (rankTable nodes.1.length w hostHashes.length nodes.2 places.2)[
      nodes.2[r] * w + nodes.2.countBefore nodes.2[r] r]? = some r := by
  have hat : ∀ s (hs : s < nodes.2.length), nodes.2.getD s 0 * w + places.2.getD s 0 =
      nodes.2[s] * w + nodes.2.countBefore nodes.2[s] s := by
    intro s hs
    rw [List.getD_eq_getElem _ _ hs, List.getD_eq_getElem?_getD, hplaces.places s hs,
      Option.getD_some]
  have hlen := hnodes.length
  rw [← hat r hr]
  unfold rankTable
  refine foldl_set_of_mem (f := id) List.nodup_range (fun s hs t ht heq => ?_)
    (List.mem_range.mpr (by omega)) ?_
  · rw [List.mem_range, ← hlen] at hs ht
    rw [hat s hs, hat t ht] at heq
    obtain ⟨hgroup, hplace⟩ := grid_inj (place_lt (fun _ => hnodes.lt) hcount hs)
      (place_lt (fun _ => hnodes.lt) hcount ht) heq
    exact eq_of_countBefore hs ht hgroup hplace
  · have hplace := place_lt (fun _ => hnodes.lt) hcount hr
    have hnode := hnodes.lt (List.getElem_mem hr)
    rw [hat r hr, List.length_replicate]
    calc nodes.2[r] * w + nodes.2.countBefore nodes.2[r] r
        < nodes.2[r] * w + w := by omega
      _ = (nodes.2[r] + 1) * w := by rw [Nat.succ_mul]
      _ ≤ nodes.1.length * w := Nat.mul_le_mul_right _ hnode

/-- With nodes of one size the tables are a grid. -/
theorem grid_of_counts (myNode myLocalRank : Nat) : Topology.Grid
    { nnodes := nodes.1.length, localWorld := w, myNode := myNode, myLocalRank := myLocalRank,
      nodeOf := nodes.2, localRankOf := places.2,
      rankAt := rankTable nodes.1.length w hostHashes.length nodes.2 places.2 } hostHashes := by
  have hlen := hnodes.length
  constructor
  case size => exact (length_of_counts (fun _ => hnodes.lt) hcount).symm.trans hlen
  case node_length => exact hlen
  case localRank_length => exact hplaces.length.trans hlen
  case node_iff =>
    intro r s hr hs
    simp only [hnodes.getElem?, List.getElem?_eq_getElem hr, List.getElem?_eq_getElem hs,
      Option.map_some, Option.some_inj]
    exact hnodes.idxOf_inj (List.getElem_mem hr) (List.getElem_mem hs)
  case rankAt_place =>
    intro r node localRank hnode hlocal
    obtain ⟨hr, rfl⟩ := List.getElem?_eq_some_iff.mp hnode
    rw [hplaces.places r hr] at hlocal
    obtain rfl := Option.some_inj.mp hlocal
    exact ⟨hnodes.lt (List.getElem_mem hr), place_lt (fun _ => hnodes.lt) hcount hr,
      rankTable_place hnodes hplaces hcount hr⟩
  case place_rankAt =>
    intro node localRank hnode hlocal
    obtain ⟨r, hr, rfl, rfl⟩ := exists_place hcount hnode hlocal
    exact ⟨r, rankTable_place hnodes hplaces hcount hr, List.getElem?_eq_getElem hr,
      hplaces.places r hr⟩
  case increasing =>
    intro r s lr ls hrs hgroup hlr hls
    have hs : s < nodes.2.length := by
      rw [← hplaces.length]
      exact (List.getElem?_eq_some_iff.mp hls).1
    have hr : r < nodes.2.length := by omega
    rw [hplaces.places r hr] at hlr
    rw [hplaces.places s hs] at hls
    obtain rfl := Option.some_inj.mp hlr
    obtain rfl := Option.some_inj.mp hls
    refine countBefore_strictMono hrs hs ?_
    exact Option.some_inj.mp (by
      rw [← List.getElem?_eq_getElem hr, ← List.getElem?_eq_getElem hs, hgroup])

end

/-- The size of a node is how often its hash occurs. -/
theorem count_node {hostHashes : List UInt64} {nodes : List UInt64 × List Nat}
    (hnodes : Numbered hostHashes nodes) {k : Nat} (hk : k < nodes.1.length) :
    nodes.2.count k = hostHashes.count nodes.1[k] := by
  rw [← hnodes.count ((hnodes.mem_iff _).mp (List.getElem_mem hk)),
    hnodes.nodup.idxOf_getElem k hk]

/-- Ranks see the same tables. -/
theorem deriveTopology_seenFrom (hostHashes : List UInt64) (rank rank' : Nat) :
    deriveTopology hostHashes rank' = (deriveTopology hostHashes rank).map (·.seenFrom rank') := by
  unfold deriveTopology
  dsimp only
  split <;> rfl

/-- The topology fails just if two hosts have different numbers of ranks, and else puts the ranks
on a grid, which all ranks see alike. -/
theorem deriveTopology_grid (hostHashes : List UInt64) (rank : Nat)
    (hrank : rank < hostHashes.length) :
    (match deriveTopology hostHashes rank with
      | .error _ => ∃ a ∈ hostHashes, ∃ b ∈ hostHashes, a ≠ b ∧
          hostHashes.count a ≠ hostHashes.count b
      | .ok topo => (∀ a ∈ hostHashes, ∀ b ∈ hostHashes,
            hostHashes.count a = hostHashes.count b) ∧
          topo.Grid hostHashes ∧ topo.nodeOf[rank]? = some topo.myNode ∧
          topo.localRankOf[rank]? = some topo.myLocalRank) ∧
      ∀ rank', deriveTopology hostHashes rank' =
        (deriveTopology hostHashes rank).map (·.seenFrom rank') := by
  refine ⟨?_, deriveTopology_seenFrom hostHashes rank⟩
  have hnodes := numbered_numberItems hostHashes
  have hplaces := placed_placeItems fun k hk => hnodes.lt hk
  have hpos : 0 < (numberItems hostHashes).1.length := by
    have hmem := (hnodes.mem_iff _).mpr (List.getElem_mem hrank)
    exact List.length_pos_of_mem hmem
  have hworld : (placeItems (numberItems hostHashes).1.length (numberItems hostHashes).2).1.getD 0 0
      = (numberItems hostHashes).2.count 0 := by
    rw [hplaces.counts, List.getD_eq_getElem _ _ (by simpa using hpos), List.getElem_map,
      List.getElem_range]
  unfold deriveTopology
  dsimp only
  rw [hworld]
  split
  · -- the node that the check stops at against node 0
    rename_i msg heq
    split at heq
    · rename_i j hj
      obtain ⟨hlt, hne, -⟩ := List.findIdx?_eq_some_iff_getElem.mp hj
      simp only [hplaces.counts, List.length_map, List.length_range] at hlt
      simp only [hplaces.counts, List.getElem_map, List.getElem_range, bne_iff_ne, ne_eq] at hne
      rw [count_node hnodes hlt, count_node hnodes hpos] at hne
      refine ⟨_, (hnodes.mem_iff _).mp (List.getElem_mem hlt), _,
        (hnodes.mem_iff _).mp (List.getElem_mem hpos), fun hab => hne ?_, hne⟩
      rw [hab]
    · cases heq
  · rename_i topo heq
    split at heq
    · cases heq
    · rename_i hnone
      have hcount : ∀ k, k < (numberItems hostHashes).1.length →
          (numberItems hostHashes).2.count k = (numberItems hostHashes).2.count 0 := by
        intro k hk
        have hin : (numberItems hostHashes).2.count k ∈
            (placeItems (numberItems hostHashes).1.length (numberItems hostHashes).2).1 := by
          rw [hplaces.counts]
          exact List.mem_map_of_mem (List.mem_range.mpr hk)
        simpa using List.findIdx?_eq_none_iff.mp hnone _ hin
      have hr : rank < (numberItems hostHashes).2.length := by
        rw [hnodes.length]
        exact hrank
      obtain rfl := Except.ok.inj heq
      refine ⟨fun a ha b hb => ?_, grid_of_counts hnodes hplaces hcount _ _, ?_, ?_⟩
      · rw [← hnodes.count ha, ← hnodes.count hb, hcount _ (hnodes.idxOf_lt ha),
          hcount _ (hnodes.idxOf_lt hb)]
      · dsimp only
        rw [List.getD_eq_getElem _ _ hr, List.getElem?_eq_getElem hr]
      · dsimp only
        rw [List.getD_eq_getElem?_getD, hplaces.places rank hr, Option.getD_some]

/-- Two hosts with two ranks each, in turn. -/
theorem deriveTopology_grid_alternating :
    deriveTopology [7, 9, 7, 9] 3 = .ok
        { nnodes := 2, localWorld := 2, myNode := 1, myLocalRank := 1, nodeOf := [0, 1, 0, 1],
          localRankOf := [0, 0, 1, 1], rankAt := [0, 2, 1, 3] } ∧
      ∀ rank', deriveTopology [7, 9, 7, 9] rank' =
        (deriveTopology [7, 9, 7, 9] 3).map (·.seenFrom rank') :=
  ⟨by rfl, (deriveTopology_grid [7, 9, 7, 9] 3 (by decide)).2⟩

end TorchMojoBackend.Ccl
