import Hashgrid.Links.Columns

/-!
# Lost links

A node names the column of its other parent. No link is lost when every node is linked
to its other parent as soon as both are there. That is so just when every arriving node
finds the nodes that wait for it in its own ledger, and looks for its own parent in the
column that it names.
-/

namespace Hashgrid.Links

variable {H A : Type} [DecidableEq H] [DecidableEq A] {g : LinkGraph H A} {x : Arrival H A}

/-- Nodes that wait are not linked, and wait in one ledger only. -/
structure Waiting (g : LinkGraph H A) : Prop where
  /-- A node that waits has no other link. -/
  unlinked : ∀ i h u, u ∈ g.lost i h → g.anotherPt u = none
  /-- A node waits in one ledger. -/
  single : ∀ i j h k u, u ∈ g.lost i h → u ∈ g.lost j k → i = j

omit [DecidableEq H] [DecidableEq A] in
theorem waiting_empty : Waiting (LinkGraph.empty : LinkGraph H A) where
  unlinked _ _ _ h := nomatch h
  single _ _ _ _ _ h := nomatch h

variable {u : ℕ} {named named' : ℕ → A} {i : ℕ}

omit [DecidableEq H] [DecidableEq A] in
theorem Sound.lt_of_lost (h : Sound g) {k : H} (hu : u ∈ g.lost i k) : u < g.nodes.length := by
  obtain ⟨n, hn, -⟩ := h.lost i k u hu
  exact LinkGraph.lt_of_nodes hn

omit [DecidableEq H] [DecidableEq A] in
theorem LinkGraph.mem_waiting :
    u ∈ g.waiting x ↔ ∃ i, x.ledger = some i ∧ u ∈ g.lost i x.node.hash := by
  unfold LinkGraph.waiting
  cases x.ledger <;> simp

/-- A node that waits after an arrival is the new one, or it waited before and was not found. -/
theorem Waiting.lost_add_cases (h : Waiting g) (hsound : Sound g) {k : H}
    (hu : u ∈ (g.add x).lost i k) :
    (u = g.nodes.length ∧ x.ledger = some i ∧ g.target x = none) ∨
      (u ∈ g.lost i k ∧ u ∉ g.waiting x) := by
  rw [LinkGraph.add_lost] at hu
  have hkept (hu : u ∈ g.lost i k) (hk : x.ledger = some i → k ≠ x.node.hash) :
      u ∉ g.waiting x := by
    intro hwait
    obtain ⟨j, hj, huj⟩ := LinkGraph.mem_waiting.mp hwait
    obtain rfl := h.single i j k _ u hu huj
    obtain ⟨n, hn, rfl⟩ := hsound.lost i k u hu
    obtain ⟨m, hm, hhash⟩ := hsound.lost i _ u huj
    rw [hn] at hm
    cases hm
    exact hk hj hhash
  split_ifs at hu with hi hk hnew hnew
  · exact Or.inl ⟨by simpa using hu, hi, hnew.1⟩
  · simp at hu
  · rcases List.mem_append.mp hu with hu | hu
    · exact Or.inr ⟨hu, hkept hu fun _ => hk⟩
    · exact Or.inl ⟨by simpa using hu, hi, hnew.1⟩
  · rw [List.append_nil] at hu
    exact Or.inr ⟨hu, hkept hu fun _ => hk⟩
  · exact Or.inr ⟨hu, hkept hu fun hledger => absurd hledger hi⟩

omit [DecidableEq H] [DecidableEq A] in
theorem Sound.new_notMem_waiting (h : Sound g) : g.nodes.length ∉ g.waiting x := by
  intro hwait
  obtain ⟨i, -, hi⟩ := LinkGraph.mem_waiting.mp hwait
  exact Nat.lt_irrefl _ (h.lt_of_lost hi)

theorem Sound.anotherPt_add_new (h : Sound g) :
    (g.add x).anotherPt g.nodes.length = g.target x := by
  rw [LinkGraph.add_anotherPt, if_neg h.new_notMem_waiting, if_pos rfl]

theorem LinkGraph.anotherPt_add_old {v : ℕ} (hv : v < g.nodes.length) :
    (g.add x).anotherPt v = if v ∈ g.waiting x then some g.nodes.length else g.anotherPt v := by
  rw [LinkGraph.add_anotherPt, if_neg (Nat.ne_of_lt hv)]

/-- Adding a node keeps the ledgers in order. -/
theorem Waiting.add (h : Waiting g) (hsound : Sound g) : Waiting (g.add x) where
  unlinked i k u hu := by
    rcases h.lost_add_cases hsound hu with ⟨rfl, -, htarget⟩ | ⟨hu, hwait⟩
    · rw [hsound.anotherPt_add_new, htarget]
    · rw [LinkGraph.anotherPt_add_old (hsound.lt_of_lost hu), if_neg hwait]
      exact h.unlinked i k u hu
  single i j k k' u hu hu' := by
    rcases h.lost_add_cases hsound hu with ⟨rfl, hi, -⟩ | ⟨hu, -⟩ <;>
      rcases h.lost_add_cases hsound hu' with ⟨hlast, hj, -⟩ | ⟨hu', -⟩
    · exact Option.some.inj (hi.symm.trans hj)
    · exact absurd (hsound.lt_of_lost hu') (Nat.lt_irrefl _)
    · exact absurd (hlast ▸ hsound.lt_of_lost hu) (Nat.lt_irrefl _)
    · exact h.single i j k k' u hu hu'

/-- Whenever the column that a node names holds its other parent, the node is linked to it. -/
def Complete (named : ℕ → A) (g : LinkGraph H A) : Prop :=
  ∀ v n p, g.nodes[v]? = some n → g.chain (named v) n.otherRef = some p → g.anotherPt v = some p

omit [DecidableEq H] [DecidableEq A] in
theorem complete_congr (h : ∀ v < g.nodes.length, named' v = named v) :
    Complete named' g ↔ Complete named g := by
  refine forall₄_congr fun v n p hv => ?_
  rw [h v (LinkGraph.lt_of_nodes hv)]

/-- An arriving node, which names the column `a`, finds all nodes that name it in its ledger,
and its own parent if that is there. -/
structure FindsAll (named : ℕ → A) (a : A) (g : LinkGraph H A) (x : Arrival H A) : Prop where
  /-- The nodes that name it wait in its ledger. -/
  waits : ∀ (v : ℕ) (n : Node H A), g.nodes[v]? = some n → named v = x.node.creator →
    n.otherRef = x.node.hash → v ∈ g.waiting x
  /-- If it looks in no column, its parent is not there. -/
  looks : x.otherColumn = none → g.chainWith x.node a x.node.otherRef = none

/-- Adding a node loses no link just when none was lost before and the node finds all. -/
theorem complete_add_iff (hsound : Sound g) (hwaiting : Waiting g)
    (hnew : g.chain x.node.creator x.node.hash = none) {a : A}
    (hold : ∀ v < g.nodes.length, named' v = named v) (ha : named' g.nodes.length = a)
    (hcol : x.otherColumn = none ∨ x.otherColumn = some a) :
    Complete named' (g.add x) ↔ Complete named g ∧ FindsAll named a g x := by
  have hlt {b : A} {k : H} {p : ℕ} (hp : g.chain b k = some p) : p < g.nodes.length := by
    obtain ⟨n, hn, -⟩ := hsound.chain b k p hp
    exact LinkGraph.lt_of_nodes hn
  constructor
  · intro hall
    refine ⟨fun v n p hv hp => ?_, fun v n hv hcreator hhash => ?_, fun hnone => ?_⟩
    · have hv' := LinkGraph.lt_of_nodes hv
      have hp' : (g.add x).chain (named' v) n.otherRef = some p := by
        rw [hold v hv', LinkGraph.add_chain, LinkGraph.chainWith, if_neg, hp]
        rintro ⟨hcreator, hhash⟩
        rw [hcreator, hhash, hnew] at hp
        cases hp
      have hlink := hall v n p (LinkGraph.nodes_add_of_some hv) hp'
      rw [LinkGraph.anotherPt_add_old hv'] at hlink
      split_ifs at hlink
      · cases hlink
        exact absurd (hlt hp) (Nat.lt_irrefl _)
      · exact hlink
    · have hv' := LinkGraph.lt_of_nodes hv
      have hlink := hall v n g.nodes.length (LinkGraph.nodes_add_of_some hv) (by
        rw [hold v hv', LinkGraph.add_chain, LinkGraph.chainWith, if_pos ⟨hcreator, hhash⟩])
      rw [LinkGraph.anotherPt_add_old hv'] at hlink
      split_ifs at hlink with hwait
      · exact hwait
      · obtain ⟨-, m, -, hm, -⟩ := hsound.anotherPt v _ hlink
        exact absurd (LinkGraph.lt_of_nodes hm) (Nat.lt_irrefl _)
    · cases hp : g.chainWith x.node a x.node.otherRef with
      | none => rfl
      | some p =>
        have hlink := hall _ x.node p LinkGraph.nodes_add_new (by
          rw [ha, LinkGraph.add_chain, hp])
        rw [hsound.anotherPt_add_new, LinkGraph.target, hnone] at hlink
        cases hlink
  · rintro ⟨hall, hfinds⟩ v n p hv hp
    rw [LinkGraph.add_chain] at hp
    rcases LinkGraph.nodes_add_cases hv with hv | ⟨rfl, rfl⟩
    · have hv' := LinkGraph.lt_of_nodes hv
      rw [LinkGraph.anotherPt_add_old hv']
      rw [hold v hv', LinkGraph.chainWith] at hp
      split_ifs at hp with hnamed
      · rw [if_pos (hfinds.waits v n hv hnamed.1 hnamed.2), hp]
      · have hlink := hall v n p hv hp
        rw [if_neg, hlink]
        intro hwait
        obtain ⟨i, -, hi⟩ := LinkGraph.mem_waiting.mp hwait
        rw [hwaiting.unlinked i _ v hi] at hlink
        cases hlink
    · rw [hsound.anotherPt_add_new, LinkGraph.target]
      rw [ha] at hp
      rcases hcol with hnone | hsome
      · rw [hfinds.looks hnone] at hp
        cases hp
      · rw [hsome, Option.bind_some, hp]

end Hashgrid.Links
