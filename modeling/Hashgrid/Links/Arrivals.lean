import Hashgrid.Lib.ListOrder
import Hashgrid.Links.Model

/-!
# The links after a list of arrivals

What the graph is after arrivals with different hashes, said in terms of their list.
-/

namespace Hashgrid.Links

open Hashgrid.ListOrder

variable {H A : Type}

/-- The node names the column in which its other parent stands. -/
def Found (x p : Arrival H A) : Prop := x.otherColumn = some p.node.creator

/-- The node and its other parent are entered in the same ledger. -/
def Patched (x p : Arrival H A) : Prop := x.ledger.isSome ∧ x.ledger = p.ledger

/-- The node at position `i` is linked to its other parent at position `j`: it finds a parent
that is already there and is patched by a later one. -/
def Joined (x p : Arrival H A) (i j : ℕ) : Prop := if j ≤ i then Found x p else Patched x p

/-- The part of a list that belongs to one creator. -/
def columnOf [DecidableEq A] (l : List (Arrival H A)) (a : A) : List (Arrival H A) :=
  l.filter fun x => x.node.creator = a

/-- The graph after the arrivals of a list. A self link leads to the latest arrival of the
creator. An other link is found when the parent arrived first and patched when it arrived
last. -/
structure Describes [DecidableEq A] (l : List (Arrival H A)) (g : LinkGraph H A) : Prop where
  /-- The nodes are those of the arrivals. -/
  nodes : g.nodes = l.map Arrival.node
  /-- The columns hold the arrivals of their creators. -/
  chain : ∀ a h i, g.chain a h = some i ↔
    ∃ x, l[i]? = some x ∧ x.node.creator = a ∧ x.node.hash = h
  /-- The newest node of a column is the last arrival of the creator. -/
  top : ∀ a, (g.top a).map (l[·]?) = (columnOf l a).getLast?.map some
  /-- The self parent is the last arrival of the creator before the node. -/
  selfPt : ∀ i x, l[i]? = some x →
    (g.selfPt i).map (l[·]?) = (columnOf (l.take i) x.node.creator).getLast?.map some
  /-- The other parent has the right hash, and was found or patched. -/
  anotherPt : ∀ i j, g.anotherPt i = some j ↔ ∃ x p, l[i]? = some x ∧ l[j]? = some p ∧
    p.node.hash = x.node.otherRef ∧ Joined x p i j
  /-- The ledgers hold the arrivals that wait for a node that did not arrive. -/
  lost : ∀ k h, (∀ p ∈ l, p.node.hash ≠ h) → ∀ i, i ∈ g.lost k h ↔
    ∃ x, l[i]? = some x ∧ x.node.otherRef = h ∧ x.ledger = some k

section Add

variable [DecidableEq H] [DecidableEq A] {l : List (Arrival H A)} {g : LinkGraph H A}
  {x : Arrival H A}

omit [DecidableEq H] in
/-- Without arrivals the graph is empty. -/
theorem describes_empty : Describes ([] : List (Arrival H A)) LinkGraph.empty where
  nodes := rfl
  chain := by simp [LinkGraph.empty]
  top _ := rfl
  selfPt := by simp
  anotherPt := by simp [LinkGraph.empty]
  lost := by simp [LinkGraph.empty]

omit [DecidableEq H] in
theorem Describes.length (h : Describes l g) : g.nodes.length = l.length := by
  rw [h.nodes, List.length_map]

omit [DecidableEq H] in
/-- Self links stay inside the list. -/
theorem Describes.selfPt_lt (h : Describes l g) {i j : ℕ} (hi : i < l.length)
    (hj : g.selfPt i = some j) : j < l.length := by
  have hself := h.selfPt i _ (List.getElem?_eq_getElem hi)
  rw [hj, Option.map_some] at hself
  obtain ⟨x, -, hx⟩ := Option.map_eq_some_iff.mp hself.symm
  exact (List.getElem?_eq_some_iff.mp hx.symm).1

omit [DecidableEq H] in
theorem Describes.anotherPt_lt (h : Describes l g) {i j : ℕ} (hj : g.anotherPt i = some j) :
    j < l.length := by
  obtain ⟨-, p, -, hp, -⟩ := (h.anotherPt i j).mp hj
  exact (List.getElem?_eq_some_iff.mp hp).1

/-- A column after one more arrival. -/
theorem Describes.chainWith (h : Describes l g) (hnew : ∀ p ∈ l, p.node.hash ≠ x.node.hash)
    (a : A) (k : H) (i : ℕ) : g.chainWith x.node a k = some i ↔
      ∃ y, (l ++ [x])[i]? = some y ∧ y.node.creator = a ∧ y.node.hash = k := by
  unfold LinkGraph.chainWith
  rw [h.length]
  split_ifs with hx
  · obtain ⟨rfl, rfl⟩ := hx
    constructor
    · intro hi
      cases hi
      exact ⟨x, by simp, rfl, rfl⟩
    · rintro ⟨y, hy, -, hhash⟩
      rcases getElem?_concat_iff.mp hy with hy | ⟨rfl, -⟩
      · exact absurd hhash (hnew y (List.mem_of_getElem? hy))
      · rfl
  · rw [h.chain]
    constructor
    · rintro ⟨y, hy, hcreator, hhash⟩
      exact ⟨y, getElem?_concat_iff.mpr (Or.inl hy), hcreator, hhash⟩
    · rintro ⟨y, hy, rfl, rfl⟩
      rcases getElem?_concat_iff.mp hy with hy | ⟨-, rfl⟩
      · exact ⟨y, hy, rfl, rfl⟩
      · exact absurd ⟨rfl, rfl⟩ hx

/-- The other parent that is found on arrival. -/
theorem Describes.target (h : Describes l g) (hnew : ∀ p ∈ l, p.node.hash ≠ x.node.hash) (j : ℕ) :
    g.target x = some j ↔
      ∃ p, (l ++ [x])[j]? = some p ∧ p.node.hash = x.node.otherRef ∧ Found x p := by
  unfold LinkGraph.target Found
  rw [Option.bind_eq_some_iff]
  simp only [h.chainWith hnew]
  constructor
  · rintro ⟨a, ha, p, hp, rfl, hhash⟩
    exact ⟨p, hp, hhash, ha⟩
  · rintro ⟨p, hp, hhash, ha⟩
    exact ⟨_, ha, p, hp, rfl, hhash⟩

omit [DecidableEq H] in
/-- The nodes that wait for an arrival. -/
theorem Describes.waiting (h : Describes l g) (hnew : ∀ p ∈ l, p.node.hash ≠ x.node.hash) (i : ℕ) :
    i ∈ g.waiting x ↔ ∃ y, l[i]? = some y ∧ y.node.otherRef = x.node.hash ∧ Patched y x := by
  unfold LinkGraph.waiting Patched
  cases hx : x.ledger with
  | none =>
    simp only [Option.elim_none, List.not_mem_nil, false_iff, not_exists, not_and]
    intro y _ _ hsome hnone
    simp [hnone] at hsome
  | some k =>
    rw [Option.elim_some, h.lost k _ hnew]
    constructor
    · rintro ⟨y, hy, hother, hledger⟩
      exact ⟨y, hy, hother, by simp [hledger], hledger⟩
    · rintro ⟨y, hy, hother, -, hledger⟩
      exact ⟨y, hy, hother, hledger⟩

omit [DecidableEq H] [DecidableEq A] in
/-- References into the list stay when it grows. -/
theorem map_getElem?_concat {o : Option ℕ} {r : Option (Arrival H A)}
    (ho : o.map (l[·]?) = r.map some) : o.map ((l ++ [x])[·]?) = r.map some := by
  cases o with
  | none => exact ho
  | some i =>
    cases r with
    | none => simp at ho
    | some y =>
      have hy : l[i]? = some y := by simpa using ho
      simp only [Option.map_some, getElem?_concat_iff.mpr (Or.inl hy)]

/-- The other links after one more arrival. -/
theorem Describes.anotherPt_add (h : Describes l g) (hnew : ∀ p ∈ l, p.node.hash ≠ x.node.hash)
    (i j : ℕ) : (g.add x).anotherPt i = some j ↔ ∃ y p, (l ++ [x])[i]? = some y ∧
      (l ++ [x])[j]? = some p ∧ p.node.hash = y.node.otherRef ∧ Joined y p i j := by
  rw [LinkGraph.add_anotherPt, h.length]
  split_ifs with hwait hi
  · -- The node waited for the new one.
    obtain ⟨y, hy, hother, hpatched⟩ := (h.waiting hnew i).mp hwait
    have hlt := (List.getElem?_eq_some_iff.mp hy).1
    constructor
    · intro hj
      cases hj
      exact ⟨y, x, getElem?_concat_iff.mpr (Or.inl hy), by simp, hother.symm,
        (if_neg (by omega)).mpr hpatched⟩
    · rintro ⟨y', p, hy', hp, hhash, -⟩
      rw [getElem?_concat_iff.mpr (Or.inl hy)] at hy'
      cases hy'
      rcases getElem?_concat_iff.mp hp with hp | ⟨rfl, -⟩
      · exact absurd (hhash.trans hother) (hnew p (List.mem_of_getElem? hp))
      · rfl
  · -- The new node itself.
    subst hi
    have hle {p : Arrival H A} (hp : (l ++ [x])[j]? = some p) : j ≤ l.length := by
      have hj := (List.getElem?_eq_some_iff.mp hp).1
      rw [List.length_append, List.length_singleton] at hj
      omega
    rw [h.target hnew]
    constructor
    · rintro ⟨p, hp, hhash, hfound⟩
      exact ⟨x, p, by simp, hp, hhash, (if_pos (hle hp)).mpr hfound⟩
    · rintro ⟨y, p, hy, hp, hhash, hjoin⟩
      obtain rfl : x = y := by simpa using hy
      exact ⟨p, hp, hhash, (if_pos (hle hp)).mp hjoin⟩
  · -- An earlier node that did not wait for the new one.
    rw [h.anotherPt]
    constructor
    · rintro ⟨y, p, hy, hp, hjoin⟩
      exact ⟨y, p, getElem?_concat_iff.mpr (Or.inl hy), getElem?_concat_iff.mpr (Or.inl hp), hjoin⟩
    · rintro ⟨y, p, hy, hp, hhash, hjoin⟩
      have hy := (getElem?_concat_iff.mp hy).resolve_right fun hnot => hi hnot.1
      rcases getElem?_concat_iff.mp hp with hp | ⟨rfl, rfl⟩
      · exact ⟨y, p, hy, hp, hhash, hjoin⟩
      · have hlt := (List.getElem?_eq_some_iff.mp hy).1
        have hpatched := (if_neg (by omega)).mp hjoin
        exact absurd ((h.waiting hnew i).mpr ⟨y, hy, hhash.symm, hpatched⟩) hwait

/-- The ledgers after one more arrival. -/
theorem Describes.lost_add (h : Describes l g) (hnew : ∀ p ∈ l, p.node.hash ≠ x.node.hash)
    {k : ℕ} {m : H} (hm : ∀ p ∈ l ++ [x], p.node.hash ≠ m) (i : ℕ) : i ∈ (g.add x).lost k m ↔
      ∃ y, (l ++ [x])[i]? = some y ∧ y.node.otherRef = m ∧ y.ledger = some k := by
  have hold := h.lost k m (fun p hp => hm p (List.mem_append_left _ hp)) i
  have htarget (hother : m = x.node.otherRef) : g.target x = none := by
    rw [Option.eq_none_iff_forall_ne_some]
    intro j hj
    obtain ⟨p, hp, hhash, -⟩ := (h.target hnew j).mp hj
    exact hm p (List.mem_of_getElem? hp) (hhash.trans hother.symm)
  have hsplit : (∃ y, (l ++ [x])[i]? = some y ∧ y.node.otherRef = m ∧ y.ledger = some k) ↔
      i ∈ g.lost k m ∨ i = l.length ∧ x.node.otherRef = m ∧ x.ledger = some k := by
    rw [hold]
    simp only [getElem?_concat_iff, or_and_right, exists_or]
    simp
  have hne : m ≠ x.node.hash := fun heq => hm x (by simp) heq.symm
  rw [hsplit, LinkGraph.add_lost, if_neg hne, h.length]
  by_cases hledger : x.ledger = some k
  · by_cases hother : m = x.node.otherRef
    · simp [hledger, hother, htarget hother]
    · simp [hledger, hother, Ne.symm hother]
  · simp [hledger]

/-- One more arrival with a new hash. -/
theorem Describes.add (h : Describes l g) (hnew : ∀ p ∈ l, p.node.hash ≠ x.node.hash) :
    Describes (l ++ [x]) (g.add x) where
  nodes := by rw [LinkGraph.add_nodes, h.nodes, List.map_append, List.map_singleton]
  chain a k i := by rw [LinkGraph.add_chain, h.chainWith hnew]
  top a := by
    rw [LinkGraph.add_top, h.length, columnOf, List.filter_append, List.filter_singleton]
    by_cases ha : a = x.node.creator
    · simp [ha]
    · rw [if_neg ha, decide_eq_false (Ne.symm ha), cond_false, List.append_nil]
      exact map_getElem?_concat (h.top a)
  selfPt i y hy := by
    rw [LinkGraph.add_selfPt, h.length]
    rcases getElem?_concat_iff.mp hy with hy | ⟨rfl, rfl⟩
    · have hi := (List.getElem?_eq_some_iff.mp hy).1
      rw [if_neg (Nat.ne_of_lt hi), List.take_append_of_le_length (Nat.le_of_lt hi)]
      exact map_getElem?_concat (h.selfPt i y hy)
    · rw [if_pos rfl, List.take_left]
      exact map_getElem?_concat (h.top _)
  anotherPt := h.anotherPt_add hnew
  lost _ _ hm := h.lost_add hnew hm

end Add

end Hashgrid.Links
