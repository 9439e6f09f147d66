import Mathlib.Logic.Relation
import Mathlib.Data.List.Basic

/-!
# Linking nodes as they arrive

An abstract model of a graph that is built from nodes arriving in any order. A node
names two parents by hash. Its self link goes to the newest node of its creator. Its
other link is set at once when the parent is already in the column that the node names;
otherwise the node waits in a ledger and is linked when a node with the wanted hash is
entered in the same ledger.
-/

namespace Hashgrid.Links

variable {H A : Type}

/-- What a node says about itself. -/
structure Node (H A : Type) where
  /-- Its own hash. -/
  hash : H
  /-- Its creator. -/
  creator : A
  /-- The hash of its self parent. -/
  selfRef : H
  /-- The hash of its other parent. -/
  otherRef : H
  deriving DecidableEq

/-- A node together with what decides how it is linked. -/
structure Arrival (H A : Type) where
  /-- The node. -/
  node : Node H A
  /-- The column in which the other parent is looked for. -/
  otherColumn : Option A
  /-- The ledger of the node. -/
  ledger : Option ℕ
  deriving DecidableEq

/-- A graph under construction. Nodes are named by their position in the order of arrival. -/
@[ext]
structure LinkGraph (H A : Type) where
  /-- The nodes in the order of arrival. -/
  nodes : List (Node H A)
  /-- The self links. -/
  selfPt : ℕ → Option ℕ
  /-- The other links. -/
  anotherPt : ℕ → Option ℕ
  /-- The nodes of each column by hash. -/
  chain : A → H → Option ℕ
  /-- The newest node of each column. -/
  top : A → Option ℕ
  /-- The nodes that wait for a hash, in each ledger. -/
  lost : ℕ → H → List ℕ

namespace LinkGraph

/-- The graph without nodes. -/
def empty : LinkGraph H A where
  nodes := []
  selfPt _ := none
  anotherPt _ := none
  chain _ _ := none
  top _ := none
  lost _ _ := []

variable [DecidableEq H] [DecidableEq A]

/-- The columns after a node was entered in the column of its creator. -/
def chainWith (g : LinkGraph H A) (n : Node H A) (a : A) (h : H) : Option ℕ :=
  if a = n.creator ∧ h = n.hash then some g.nodes.length else g.chain a h

/-- Put a new node on top of the column of its creator. -/
def enter (g : LinkGraph H A) (n : Node H A) : LinkGraph H A where
  nodes := g.nodes ++ [n]
  selfPt v := if v = g.nodes.length then g.top n.creator else g.selfPt v
  anotherPt v := if v = g.nodes.length then none else g.anotherPt v
  chain := g.chainWith n
  top a := if a = n.creator then some g.nodes.length else g.top a
  lost := g.lost

omit [DecidableEq H] [DecidableEq A] in
/-- Set the other link of a node. -/
def linkTo (g : LinkGraph H A) (v : ℕ) (p : Option ℕ) : LinkGraph H A :=
  { g with anotherPt := fun u => if u = v then p else g.anotherPt u }

omit [DecidableEq A] in
/-- Link the nodes that wait for a hash in a ledger. -/
def release (g : LinkGraph H A) (i v : ℕ) (h : H) : LinkGraph H A :=
  { g with
    anotherPt := fun u => if u ∈ g.lost i h then some v else g.anotherPt u
    lost := fun j k => if j = i ∧ k = h then [] else g.lost j k }

omit [DecidableEq A] in
/-- Let a node wait for a hash in a ledger. -/
def await (g : LinkGraph H A) (i v : ℕ) (h : H) : LinkGraph H A :=
  { g with lost := fun j k => if j = i ∧ k = h then g.lost j k ++ [v] else g.lost j k }

omit [DecidableEq A] in
/-- Enter a node in a ledger. A late node begins to wait itself. -/
def settle (g : LinkGraph H A) (i v : ℕ) (n : Node H A) (late : Bool) : LinkGraph H A :=
  if late then (g.release i v n.hash).await i v n.otherRef else g.release i v n.hash

/-- The other parent that is found when the node arrives. -/
def target (g : LinkGraph H A) (x : Arrival H A) : Option ℕ :=
  x.otherColumn.bind fun a => g.chainWith x.node a x.node.otherRef

/-- Add a new node. -/
def add (g : LinkGraph H A) (x : Arrival H A) : LinkGraph H A :=
  let v := g.nodes.length
  let g' := (g.enter x.node).linkTo v (g.target x)
  match x.ledger with
  | none => g'
  | some i => g'.settle i v x.node (g.target x = none)

/-- The nodes that are linked to the arriving one. -/
def waiting (g : LinkGraph H A) (x : Arrival H A) : List ℕ :=
  x.ledger.elim [] fun i => g.lost i x.node.hash

/-- A node that is already in the column of its creator changes nothing. -/
def arrive (g : LinkGraph H A) (x : Arrival H A) : LinkGraph H A :=
  if (g.chain x.node.creator x.node.hash).isSome then g else g.add x

omit [DecidableEq H] [DecidableEq A] in
/-- The links from one node to another. -/
def Link (g : LinkGraph H A) (v w : ℕ) : Prop := g.selfPt v = some w ∨ g.anotherPt v = some w

omit [DecidableEq H] [DecidableEq A] in
/-- No node reaches itself along links. -/
def Acyclic (g : LinkGraph H A) : Prop := ∀ v, ¬ Relation.TransGen g.Link v v

end LinkGraph

/-- One hash refers to another in a list of nodes. -/
def Refers (ns : List (Node H A)) (h h' : H) : Prop :=
  ∃ n ∈ ns, n.hash = h ∧ (n.selfRef = h' ∨ n.otherRef = h')

/-- The references of the nodes form no cycle. -/
def AcyclicRefs (ns : List (Node H A)) : Prop := ∀ h, ¬ Relation.TransGen (Refers ns) h h

variable {ns : List (Node H A)}

/-- References that go down in rank form no cycle. -/
theorem acyclicRefs_of_rank (rank : H → ℕ)
    (h : ∀ n ∈ ns, rank n.selfRef < rank n.hash ∧ rank n.otherRef < rank n.hash) :
    AcyclicRefs ns := by
  have hstep {k k' : H} (hkk : Refers ns k k') : rank k' < rank k := by
    obtain ⟨n, hn, rfl, rfl | rfl⟩ := hkk
    · exact (h n hn).1
    · exact (h n hn).2
  intro k hcycle
  have hlt : rank k < rank k := by
    have hdown {k' : H} (hpath : Relation.TransGen (Refers ns) k k') : rank k' < rank k := by
      induction hpath with
      | single hkk => exact hstep hkk
      | tail _ hkk ih => exact Nat.lt_trans (hstep hkk) ih
    exact hdown hcycle
  exact Nat.lt_irrefl _ hlt

/-- Columns, ledgers and links only name nodes that are there, and an other link leads to
the hash that its node refers to. -/
structure Sound (g : LinkGraph H A) : Prop where
  /-- The newest node of a column is there. -/
  top : ∀ a v, g.top a = some v → v < g.nodes.length
  /-- Columns hold nodes under their hashes. -/
  chain : ∀ a h v, g.chain a h = some v → ∃ n, g.nodes[v]? = some n ∧ n.hash = h
  /-- Ledgers hold nodes under the hashes that they wait for. -/
  lost : ∀ i h u, u ∈ g.lost i h → ∃ n, g.nodes[u]? = some n ∧ n.otherRef = h
  /-- Other links lead to the other parent. -/
  anotherPt : ∀ v w, g.anotherPt v = some w →
    ∃ n m, g.nodes[v]? = some n ∧ g.nodes[w]? = some m ∧ m.hash = n.otherRef

/-- Self links lead to the self parent. -/
def SelfSound (g : LinkGraph H A) : Prop :=
  ∀ v w, g.selfPt v = some w →
    ∃ n m, g.nodes[v]? = some n ∧ g.nodes[w]? = some m ∧ m.hash = n.selfRef

/-- The empty graph is sound. -/
theorem sound_empty : Sound (LinkGraph.empty : LinkGraph H A) where
  top _ _ h := nomatch h
  chain _ _ _ h := nomatch h
  lost _ _ _ h := nomatch h
  anotherPt _ _ h := nomatch h

theorem selfSound_empty : SelfSound (LinkGraph.empty : LinkGraph H A) := fun _ _ h => nomatch h

/-- In a graph whose links lead to the parents, a cycle of links is a cycle of references. -/
theorem Sound.acyclic {g : LinkGraph H A} (h : Sound g) (hself : SelfSound g)
    (hns : ∀ n ∈ g.nodes, n ∈ ns) (hrefs : AcyclicRefs ns) : g.Acyclic := by
  have hlink {v w : ℕ} (hvw : g.Link v w) : ∃ n m, g.nodes[v]? = some n ∧ g.nodes[w]? = some m ∧
      Refers ns n.hash m.hash := by
    rcases hvw with hvw | hvw
    · obtain ⟨n, m, hn, hm, heq⟩ := hself v w hvw
      exact ⟨n, m, hn, hm, n, hns n (List.mem_of_getElem? hn), rfl, Or.inl heq.symm⟩
    · obtain ⟨n, m, hn, hm, heq⟩ := h.anotherPt v w hvw
      exact ⟨n, m, hn, hm, n, hns n (List.mem_of_getElem? hn), rfl, Or.inr heq.symm⟩
  have hpath {v w : ℕ} (hvw : Relation.TransGen g.Link v w) : ∃ n m, g.nodes[v]? = some n ∧
      g.nodes[w]? = some m ∧ Relation.TransGen (Refers ns) n.hash m.hash := by
    induction hvw with
    | single hvw =>
      obtain ⟨n, m, hn, hm, href⟩ := hlink hvw
      exact ⟨n, m, hn, hm, .single href⟩
    | tail _ hbc ih =>
      obtain ⟨n, m, hn, hm, hpath⟩ := ih
      obtain ⟨m', k, hm', hk, href⟩ := hlink hbc
      rw [hm] at hm'
      cases hm'
      exact ⟨n, k, hn, hk, hpath.tail href⟩
  intro v hcycle
  obtain ⟨n, m, hn, hm, hpath⟩ := hpath hcycle
  rw [hn] at hm
  cases hm
  exact hrefs _ hpath

section Add

variable [DecidableEq H] [DecidableEq A] {g : LinkGraph H A} {x : Arrival H A}

omit [DecidableEq A] in
theorem LinkGraph.settle_anotherPt (i v : ℕ) (n : Node H A) (late : Bool) (u : ℕ) :
    (g.settle i v n late).anotherPt u =
      if u ∈ g.lost i n.hash then some v else g.anotherPt u := by
  cases late <;> rfl

/-- Links to other parents and ledgers apart, adding a node is entering it in its column. -/
theorem LinkGraph.add_frame :
    (g.add x).nodes = (g.enter x.node).nodes ∧ (g.add x).selfPt = (g.enter x.node).selfPt ∧
      (g.add x).chain = (g.enter x.node).chain ∧ (g.add x).top = (g.enter x.node).top := by
  unfold LinkGraph.add
  cases x.ledger with
  | none => exact ⟨rfl, rfl, rfl, rfl⟩
  | some i =>
    dsimp only
    generalize decide (g.target x = none) = late
    cases late <;> exact ⟨rfl, rfl, rfl, rfl⟩

@[simp] theorem LinkGraph.add_nodes : (g.add x).nodes = g.nodes ++ [x.node] := add_frame.1

theorem LinkGraph.add_selfPt (v : ℕ) :
    (g.add x).selfPt v = if v = g.nodes.length then g.top x.node.creator else g.selfPt v :=
  congrFun add_frame.2.1 v

/-- The other links after a node was added. -/
theorem LinkGraph.add_anotherPt (v : ℕ) :
    (g.add x).anotherPt v = if v ∈ g.waiting x then some g.nodes.length
      else if v = g.nodes.length then g.target x else g.anotherPt v := by
  have hentered : ((g.enter x.node).linkTo g.nodes.length (g.target x)).anotherPt v =
      if v = g.nodes.length then g.target x else g.anotherPt v := by
    simp only [LinkGraph.linkTo, LinkGraph.enter]
    split_ifs <;> rfl
  rw [← hentered, LinkGraph.add, LinkGraph.waiting]
  cases x.ledger with
  | none => simp
  | some i =>
    dsimp only
    rw [LinkGraph.settle_anotherPt]
    rfl

theorem LinkGraph.add_chain : (g.add x).chain = g.chainWith x.node := add_frame.2.2.1

theorem LinkGraph.add_top (a : A) :
    (g.add x).top a = if a = x.node.creator then some g.nodes.length else g.top a :=
  congrFun add_frame.2.2.2 a

/-- The ledgers after a node was added. -/
theorem LinkGraph.add_lost (i : ℕ) (h : H) :
    (g.add x).lost i h = if x.ledger = some i then
      (if h = x.node.hash then [] else g.lost i h) ++
        if g.target x = none ∧ h = x.node.otherRef then [g.nodes.length] else []
    else g.lost i h := by
  unfold LinkGraph.add
  cases x.ledger with
  | none => simp [LinkGraph.enter, LinkGraph.linkTo]
  | some j =>
    have hij : (some j = some i) = (i = j) := by simp [eq_comm]
    by_cases hlate : g.target x = none <;> by_cases hi : i = j <;>
      by_cases hother : h = x.node.otherRef <;> by_cases hhash : h = x.node.hash <;>
      simp [LinkGraph.settle, LinkGraph.release, LinkGraph.await, LinkGraph.enter,
        LinkGraph.linkTo, hij, hlate, hi, hother, hhash]

variable {n : Node H A} {v : ℕ}

theorem LinkGraph.nodes_add_of_some (hv : g.nodes[v]? = some n) : (g.add x).nodes[v]? = some n := by
  have hlt := (List.getElem?_eq_some_iff.mp hv).1
  rw [← hv, LinkGraph.add_nodes]
  exact List.getElem?_append_left hlt

theorem LinkGraph.nodes_add_new : (g.add x).nodes[g.nodes.length]? = some x.node := by
  simp

/-- The columns are sound after a node was entered. -/
theorem Sound.chainWith (h : Sound g) {a : A} {k : H} (hv : g.chainWith x.node a k = some v) :
    ∃ n, (g.add x).nodes[v]? = some n ∧ n.hash = k := by
  unfold LinkGraph.chainWith at hv
  split_ifs at hv with hnew
  · cases hv
    exact ⟨x.node, LinkGraph.nodes_add_new, hnew.2.symm⟩
  · obtain ⟨n, hn, heq⟩ := h.chain a k v hv
    exact ⟨n, LinkGraph.nodes_add_of_some hn, heq⟩

/-- Adding a node keeps the graph sound. -/
theorem Sound.add (h : Sound g) : Sound (g.add x) where
  top a v hv := by
    rw [LinkGraph.add_top] at hv
    rw [LinkGraph.add_nodes, List.length_append, List.length_singleton]
    split_ifs at hv
    · cases hv
      omega
    · have := h.top a v hv
      omega
  chain a k v hv := by
    rw [LinkGraph.add_chain] at hv
    exact h.chainWith hv
  lost i k u hu := by
    have hold (hu : u ∈ g.lost i k) : ∃ n, (g.add x).nodes[u]? = some n ∧ n.otherRef = k := by
      obtain ⟨n, hn, heq⟩ := h.lost i k u hu
      exact ⟨n, LinkGraph.nodes_add_of_some hn, heq⟩
    rw [LinkGraph.add_lost] at hu
    split_ifs at hu with hi hk hnew hnew
    · rw [List.nil_append, List.mem_singleton] at hu
      subst hu
      exact ⟨x.node, LinkGraph.nodes_add_new, hnew.2.symm⟩
    · simp at hu
    · rcases List.mem_append.mp hu with hu | hu
      · exact hold hu
      · rw [List.mem_singleton.mp hu]
        exact ⟨x.node, LinkGraph.nodes_add_new, hnew.2.symm⟩
    · rw [List.append_nil] at hu
      exact hold hu
    · exact hold hu
  anotherPt v w hw := by
    rw [LinkGraph.add_anotherPt] at hw
    split_ifs at hw with hwait hv
    · cases hw
      cases hledger : x.ledger with
      | none => simp [LinkGraph.waiting, hledger] at hwait
      | some i =>
        rw [LinkGraph.waiting, hledger] at hwait
        obtain ⟨n, hn, heq⟩ := h.lost i _ v hwait
        exact ⟨n, x.node, LinkGraph.nodes_add_of_some hn, LinkGraph.nodes_add_new, heq.symm⟩
    · subst hv
      obtain ⟨a, -, ha⟩ := Option.bind_eq_some_iff.mp hw
      obtain ⟨m, hm, heq⟩ := h.chainWith ha
      exact ⟨x.node, m, LinkGraph.nodes_add_new, hm, heq⟩
    · obtain ⟨n, m, hn, hm, heq⟩ := h.anotherPt v w hw
      exact ⟨n, m, LinkGraph.nodes_add_of_some hn, LinkGraph.nodes_add_of_some hm, heq⟩

/-- The column of the creator ends with the self parent of the arriving node. -/
def TopMatches (g : LinkGraph H A) (x : Arrival H A) : Prop :=
  (g.chain x.node.creator x.node.hash).isSome ∨
    ∀ v n, g.top x.node.creator = some v → g.nodes[v]? = some n → n.hash = x.node.selfRef

/-- A node that arrives on top of its self parent keeps the self links right. -/
theorem SelfSound.arrive (hself : SelfSound g) (h : Sound g) (htop : TopMatches g x) :
    SelfSound (g.arrive x) := by
  unfold LinkGraph.arrive
  split_ifs with hknown
  · exact hself
  · intro v w hw
    rw [LinkGraph.add_selfPt] at hw
    split_ifs at hw with hv
    · subst hv
      have hlt := h.top _ w hw
      have hm : g.nodes[w]? = some (g.nodes.get ⟨w, hlt⟩) := List.getElem?_eq_getElem hlt
      exact ⟨x.node, _, LinkGraph.nodes_add_new, LinkGraph.nodes_add_of_some hm,
        htop.resolve_left hknown w _ hw hm⟩
    · obtain ⟨n, m, hn, hm, heq⟩ := hself v w hw
      exact ⟨n, m, LinkGraph.nodes_add_of_some hn, LinkGraph.nodes_add_of_some hm, heq⟩

/-- Arrivals keep the graph sound. -/
theorem Sound.arrive (h : Sound g) : Sound (g.arrive x) := by
  unfold LinkGraph.arrive
  split_ifs
  · exact h
  · exact h.add

/-- The nodes of the graph have arrived. -/
theorem LinkGraph.mem_nodes_arrive (hn : n ∈ (g.arrive x).nodes) : n ∈ g.nodes ∨ n = x.node := by
  unfold LinkGraph.arrive at hn
  split_ifs at hn
  · exact Or.inl hn
  · simpa using hn

end Add

end Hashgrid.Links
