import Mathlib.Data.List.Nodup
import Hashgrid.Links.Complete

/-!
# What the ledgers hold

When every node is entered in a ledger as it arrives, the ledgers hold exactly the nodes
without an other link, each of them once.
-/

namespace Hashgrid.Links

variable {H A : Type} [DecidableEq H] [DecidableEq A] {g : LinkGraph H A} {x : Arrival H A}

/-- Every node without an other link waits, and no node waits twice for a hash. -/
structure Exact (g : LinkGraph H A) : Prop where
  /-- A node without an other link waits. -/
  waits : ∀ v < g.nodes.length, g.anotherPt v = none → ∃ i h, v ∈ g.lost i h
  /-- A node is entered once. -/
  nodup : ∀ i h, (g.lost i h).Nodup

omit [DecidableEq H] [DecidableEq A] in
theorem exact_empty : Exact (LinkGraph.empty : LinkGraph H A) where
  waits _ hv := absurd hv (Nat.not_lt_zero _)
  nodup _ _ := List.nodup_nil

variable {i : ℕ}

/-- A node that waits and is not found goes on waiting. -/
theorem LinkGraph.mem_lost_add {v : ℕ} {h : H} (hv : v ∈ g.lost i h) (hwait : v ∉ g.waiting x) :
    v ∈ (g.add x).lost i h := by
  rw [LinkGraph.add_lost]
  by_cases hledger : x.ledger = some i
  · have hhash : h ≠ x.node.hash := by
      rintro rfl
      exact hwait (LinkGraph.mem_waiting.mpr ⟨i, hledger, hv⟩)
    rw [if_pos hledger, if_neg hhash]
    exact List.mem_append_left _ hv
  · rwa [if_neg hledger]

/-- A new node waits just when its other parent is missing. -/
theorem Waiting.new_waits_iff (h : Waiting g) (hsound : Sound g) (hledger : x.ledger = some i) :
    (∃ j k, g.nodes.length ∈ (g.add x).lost j k) ↔ g.target x = none := by
  constructor
  · rintro ⟨j, k, hmem⟩
    rcases h.lost_add_cases hsound hmem with ⟨-, -, htarget⟩ | ⟨hold, -⟩
    · exact htarget
    · exact absurd (hsound.lt_of_lost hold) (Nat.lt_irrefl _)
  · intro htarget
    refine ⟨i, x.node.otherRef, ?_⟩
    rw [LinkGraph.add_lost, if_pos hledger]
    exact List.mem_append_right _ (by simp [htarget])

/-- Adding a node with a ledger keeps the ledgers exact. -/
theorem Exact.add (h : Exact g) (hsound : Sound g) (hwaiting : Waiting g)
    (hledger : x.ledger = some i) : Exact (g.add x) where
  waits v hv hnone := by
    rw [LinkGraph.add_nodes, List.length_append, List.length_singleton] at hv
    rcases Nat.lt_or_ge v g.nodes.length with hlt | hge
    · rw [LinkGraph.anotherPt_add_old hlt] at hnone
      split_ifs at hnone with hwait
      obtain ⟨j, k, hmem⟩ := h.waits v hlt hnone
      exact ⟨j, k, LinkGraph.mem_lost_add hmem hwait⟩
    · obtain rfl : v = g.nodes.length := by omega
      rw [hsound.anotherPt_add_new] at hnone
      exact (hwaiting.new_waits_iff hsound hledger).mpr hnone
  nodup j k := by
    have hold := h.nodup j k
    have hfresh : g.nodes.length ∉ g.lost j k := fun hmem =>
      Nat.lt_irrefl _ (hsound.lt_of_lost hmem)
    rw [LinkGraph.add_lost]
    split_ifs
    · exact List.nodup_cons.mpr ⟨List.not_mem_nil, List.nodup_nil⟩
    · exact List.nodup_nil
    · exact List.nodup_append_comm.mpr (List.nodup_cons.mpr ⟨hfresh, hold⟩)
    · rwa [List.append_nil]
    · exact hold

end Hashgrid.Links
