import Hashgrid.Lib.Walk
import Hashgrid.Links.Model

/-!
# Columns of nodes

Every node stands in the column of its creator, and the self links chain the nodes of a
column in the opposite order of their arrival. The self references name the same chain
just when every node arrives on top of its self parent and before all nodes that refer
to it.
-/

namespace Hashgrid.Links

open Hashgrid.Walks

variable {H A : Type} [DecidableEq H] [DecidableEq A] {g : LinkGraph H A} {x : Arrival H A} {v : ℕ}
  {n : Node H A} {a : A}

omit [DecidableEq H] [DecidableEq A] in
theorem LinkGraph.lt_of_nodes (hv : g.nodes[v]? = some n) : v < g.nodes.length :=
  (List.getElem?_eq_some_iff.mp hv).1

/-- A node of the grown graph was there before or is the added one. -/
theorem LinkGraph.nodes_add_cases (hv : (g.add x).nodes[v]? = some n) :
    g.nodes[v]? = some n ∨ v = g.nodes.length ∧ n = x.node := by
  rw [LinkGraph.add_nodes] at hv
  rcases Nat.lt_trichotomy v g.nodes.length with hlt | rfl | hgt
  · exact Or.inl (by rwa [List.getElem?_append_left hlt] at hv)
  · exact Or.inr ⟨rfl, by simpa using hv.symm⟩
  · rw [List.getElem?_eq_none (by simp; omega)] at hv
    cases hv

/-- Every node stands in the column of its creator under its hash, and the self links lead from
the newest node of a column through all of its nodes, from newer to older ones. -/
structure Columnar (g : LinkGraph H A) : Prop where
  /-- Columns hold nodes of their creator under their hashes. -/
  chain : ∀ a h v, g.chain a h = some v → ∃ n, g.nodes[v]? = some n ∧ n.creator = a ∧ n.hash = h
  /-- Every node is in a column. -/
  held : ∀ v n, g.nodes[v]? = some n → g.chain n.creator n.hash = some v
  /-- The self links chain the nodes of a column. -/
  walk : ∀ a, ∃ l, Walk g.selfPt (g.top a) l ∧ l.Pairwise (· > ·) ∧
    ∀ v, v ∈ l ↔ ∃ h, g.chain a h = some v

omit [DecidableEq H] [DecidableEq A] in
theorem columnar_empty : Columnar (LinkGraph.empty : LinkGraph H A) where
  chain _ _ _ h := nomatch h
  held _ _ h := nomatch h
  walk _ := ⟨[], .nil, .nil, fun _ => ⟨fun h => (nomatch h), fun ⟨_, h⟩ => (nomatch h)⟩⟩

omit [DecidableEq H] [DecidableEq A] in
theorem Columnar.lt_of_chain (h : Columnar g) {k : H} (hv : g.chain a k = some v) :
    v < g.nodes.length := by
  obtain ⟨n, hn, -⟩ := h.chain a k v hv
  exact LinkGraph.lt_of_nodes hn

omit [DecidableEq H] [DecidableEq A] in
theorem Columnar.selfPt (h : Columnar g) {w : ℕ} (hv : g.nodes[v]? = some n)
    (hw : g.selfPt v = some w) : ∃ k, g.chain n.creator k = some w := by
  obtain ⟨l, hwalk, -, hmem⟩ := h.walk n.creator
  exact (hmem w).mp (hwalk.next_mem ((hmem v).mpr ⟨n.hash, h.held v n hv⟩) hw)

omit [DecidableEq H] [DecidableEq A] in
/-- The newest node of a column is in it. -/
theorem Columnar.top (h : Columnar g) (hv : g.top a = some v) : ∃ k, g.chain a k = some v := by
  obtain ⟨l, hwalk, -, hmem⟩ := h.walk a
  rw [hv] at hwalk
  cases hwalk with
  | cons _ => exact (hmem v).mp List.mem_cons_self

omit [DecidableEq H] [DecidableEq A] in
/-- A column without newest node is empty. -/
theorem Columnar.chain_of_top_none (h : Columnar g) (htop : g.top a = none) (k : H) :
    g.chain a k = none := by
  obtain ⟨l, hwalk, -, hmem⟩ := h.walk a
  rw [htop] at hwalk
  cases hwalk
  cases hk : g.chain a k with
  | none => rfl
  | some v => exact absurd ((hmem v).mpr ⟨k, hk⟩) List.not_mem_nil

/-- The nodes of a column after a node was added. -/
theorem LinkGraph.mem_chainWith (hnew : g.chain x.node.creator x.node.hash = none)
    (a : A) (v : ℕ) : (∃ k, (g.add x).chain a k = some v) ↔
      (a = x.node.creator ∧ v = g.nodes.length) ∨ ∃ k, g.chain a k = some v := by
  rw [LinkGraph.add_chain]
  unfold LinkGraph.chainWith
  constructor
  · rintro ⟨k, hk⟩
    split_ifs at hk with hak
    · exact Or.inl ⟨hak.1, (Option.some.inj hk).symm⟩
    · exact Or.inr ⟨k, hk⟩
  · rintro (⟨rfl, rfl⟩ | ⟨k, hk⟩)
    · exact ⟨x.node.hash, if_pos ⟨rfl, rfl⟩⟩
    · refine ⟨k, ?_⟩
      rw [if_neg, hk]
      rintro ⟨rfl, rfl⟩
      rw [hnew] at hk
      cases hk

/-- A new node goes on top of its column. -/
theorem Columnar.add (h : Columnar g) (hnew : g.chain x.node.creator x.node.hash = none) :
    Columnar (g.add x) where
  chain a k v hv := by
    rw [LinkGraph.add_chain, LinkGraph.chainWith] at hv
    split_ifs at hv with hak
    · cases hv
      exact ⟨x.node, LinkGraph.nodes_add_new, hak.1.symm, hak.2.symm⟩
    · obtain ⟨n, hn, hak⟩ := h.chain a k v hv
      exact ⟨n, LinkGraph.nodes_add_of_some hn, hak⟩
  held v n hv := by
    rw [LinkGraph.add_chain, LinkGraph.chainWith]
    rcases LinkGraph.nodes_add_cases hv with hv | ⟨rfl, rfl⟩
    · have hheld := h.held v n hv
      rw [if_neg, hheld]
      rintro ⟨hcreator, hhash⟩
      rw [hcreator, hhash, hnew] at hheld
      cases hheld
    · exact if_pos ⟨rfl, rfl⟩
  walk a := by
    obtain ⟨l, hwalk, hsorted, hmem⟩ := h.walk a
    have hlt (v : ℕ) (hv : v ∈ l) : v < g.nodes.length := by
      obtain ⟨k, hk⟩ := (hmem v).mp hv
      exact h.lt_of_chain hk
    have hold : Walk (g.add x).selfPt (g.top a) l := hwalk.congr fun v hv => by
      rw [LinkGraph.add_selfPt, if_neg (Nat.ne_of_lt (hlt v hv))]
    by_cases ha : a = x.node.creator
    · refine ⟨g.nodes.length :: l, ?_, List.pairwise_cons.mpr ⟨hlt, hsorted⟩, fun v => ?_⟩
      · rw [LinkGraph.add_top, if_pos ha]
        refine .cons ?_
        rw [LinkGraph.add_selfPt, if_pos rfl, ← ha]
        exact hold
      · rw [List.mem_cons, LinkGraph.mem_chainWith hnew, hmem]
        simp only [ha, true_and]
    · refine ⟨l, ?_, hsorted, fun v => ?_⟩
      · rw [LinkGraph.add_top, if_neg ha]
        exact hold
      · rw [LinkGraph.mem_chainWith hnew, hmem]
        simp only [ha, false_and, false_or]

/-- The self reference of every node names the node that its self link leads to. -/
def FollowsRefs (g : LinkGraph H A) : Prop :=
  ∀ v n, g.nodes[v]? = some n → g.chain n.creator n.selfRef = g.selfPt v

/-- No node of the column refers to the arriving node as self parent, and the newest node of
the column is the self parent of the arriving one. -/
structure OnTop (g : LinkGraph H A) (x : Arrival H A) : Prop where
  /-- The node is not late. -/
  unnamed : ∀ (v : ℕ) (n : Node H A), g.nodes[v]? = some n → n.creator = x.node.creator →
    n.selfRef ≠ x.node.hash
  /-- Its self parent is the newest node. -/
  matching : ∀ (t : ℕ) (n : Node H A), g.top x.node.creator = some t → g.nodes[t]? = some n →
    n.hash = x.node.selfRef
  /-- The first node of a column does not refer to itself. -/
  first : g.top x.node.creator = none → x.node.selfRef ≠ x.node.hash

/-- The added node refers to the node below it just when the self parent was on top. -/
theorem Columnar.chain_selfRef_iff (h : Columnar g)
    (hnew : g.chain x.node.creator x.node.hash = none) :
    (g.add x).chain x.node.creator x.node.selfRef = g.top x.node.creator ↔
      (∀ t n, g.top x.node.creator = some t → g.nodes[t]? = some n → n.hash = x.node.selfRef) ∧
        (g.top x.node.creator = none → x.node.selfRef ≠ x.node.hash) := by
  rw [LinkGraph.add_chain, LinkGraph.chainWith]
  cases htop : g.top x.node.creator with
  | none =>
    rw [h.chain_of_top_none htop]
    by_cases hself : x.node.selfRef = x.node.hash <;> simp [hself]
  | some t =>
    obtain ⟨k, hk⟩ := h.top htop
    obtain ⟨n, hn, hcreator, rfl⟩ := h.chain _ k t hk
    have hlt := LinkGraph.lt_of_nodes hn
    constructor
    · intro heq
      split_ifs at heq with hself
      · cases heq
        omega
      · obtain ⟨m, hm, -, hhash⟩ := h.chain _ _ t heq
        refine ⟨fun t' n' ht' hn' => ?_, fun hnone => nomatch hnone⟩
        cases ht'
        rw [hm] at hn'
        cases hn'
        exact hhash
    · rintro ⟨hmatch, -⟩
      have hhash := hmatch t n rfl hn
      rw [← hhash, if_neg, hk]
      rintro ⟨-, heq⟩
      rw [heq, hnew] at hk
      cases hk

/-- Adding a node keeps the self references right just when they were right and the node arrives
on top of its self parent. -/
theorem followsRefs_add_iff (h : Columnar g)
    (hnew : g.chain x.node.creator x.node.hash = none) :
    FollowsRefs (g.add x) ↔ FollowsRefs g ∧ OnTop g x := by
  -- Among the old nodes only those are affected that name the new one.
  have hold {v : ℕ} {n : Node H A} (hv : g.nodes[v]? = some n) :
      (g.add x).chain n.creator n.selfRef = (g.add x).selfPt v ↔
        g.chain n.creator n.selfRef = g.selfPt v ∧
          (n.creator = x.node.creator → n.selfRef ≠ x.node.hash) := by
    have hlt := LinkGraph.lt_of_nodes hv
    rw [LinkGraph.add_chain, LinkGraph.chainWith, LinkGraph.add_selfPt, if_neg (Nat.ne_of_lt hlt)]
    split_ifs with hnamed
    · refine ⟨fun heq => ?_, fun hkept => absurd hnamed.2 (hkept.2 hnamed.1)⟩
      obtain ⟨k, hk⟩ := h.selfPt hv heq.symm
      exact absurd (h.lt_of_chain hk) (Nat.lt_irrefl _)
    · exact ⟨fun heq => ⟨heq, fun hcreator hhash => hnamed ⟨hcreator, hhash⟩⟩, And.left⟩
  have hadded := h.chain_selfRef_iff hnew
  have hbelow : (g.add x).selfPt g.nodes.length = g.top x.node.creator := by
    rw [LinkGraph.add_selfPt, if_pos rfl]
  constructor
  · intro hall
    obtain ⟨hmatching, hfirst⟩ := hadded.mp
      ((hall _ x.node LinkGraph.nodes_add_new).trans hbelow)
    refine ⟨fun v n hv => ?_, fun v n hv => ?_, hmatching, hfirst⟩
    · exact ((hold hv).mp (hall v n (LinkGraph.nodes_add_of_some hv))).1
    · exact ((hold hv).mp (hall v n (LinkGraph.nodes_add_of_some hv))).2
  · rintro ⟨hall, hontop⟩ v n hv
    rcases LinkGraph.nodes_add_cases hv with hv | ⟨rfl, rfl⟩
    · exact (hold hv).mpr ⟨hall v n hv, hontop.unnamed v n hv⟩
    · exact (hadded.mpr ⟨hontop.matching, hontop.first⟩).trans hbelow.symm

end Hashgrid.Links
