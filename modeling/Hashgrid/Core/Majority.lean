import Hashgrid.Core.AddEvent
import Hashgrid.Lib.Quorum

/-!
# The strong-see threshold

`AddNode` sets the threshold to two thirds of the number of columns, rounded down, and
`JudgeSee` accepts a count that reaches it.
-/

namespace Hashgrid.Core

open Hashgrid.Bytes Hashgrid.Quorum

/-- Any two sets of columns that reach the threshold of `JudgeSee` have a column in common. -/
def JPGraph.StrongSeesMeet (jp : JPGraph) : Prop :=
  ∀ S ⊆ jp.columns, ∀ T ⊆ jp.columns, jp.strongSeen S.card = true → jp.strongSeen T.card = true →
    (S ∩ T).Nonempty

theorem card_columns (jp : JPGraph) : jp.columns.card = jp.graph.entries.length := by
  rw [JPGraph.columns, List.toFinset_card_of_nodup jp.graph.keys_nodup]
  exact List.length_map ..

variable {jp : JPGraph} {a : Address}

/-- A new address adds one column. -/
theorem card_columns_addNode (hnew : a ∉ jp.graph) :
    (jp.addNode a).1.columns.card = jp.graph.entries.length + 1 := by
  have hlookup : jp.graph.lookup a = none := AList.lookup_eq_none.mpr hnew
  rw [card_columns]
  simp only [JPGraph.addNode, hlookup, JPGraph.addNodeInsert, JPGraph.addNodeMajority,
    JPGraph.setCol, AList.entries_insert_of_notMem hnew, List.length_cons]

theorem superMajority_addNode (hnew : a ∉ jp.graph) :
    (jp.addNode a).1.superMajority = (jp.addNode a).1.columns.card * 2 / 3 := by
  have hlookup : jp.graph.lookup a = none := AList.lookup_eq_none.mpr hnew
  rw [card_columns_addNode hnew]
  simp only [JPGraph.addNode, hlookup, JPGraph.addNodeInsert, JPGraph.addNodeMajority]

/-- After any column was added, strong sees meet unless there are one, two or four columns. -/
theorem strongSeesMeet_iff {jp : JPGraph} {a : Address} (hnew : a ∉ jp.graph) :
    (jp.addNode a).1.StrongSeesMeet ↔
      (jp.addNode a).1.columns.card ≠ 1 ∧ (jp.addNode a).1.columns.card ≠ 2 ∧
        (jp.addNode a).1.columns.card ≠ 4 := by
  have hmeet : (jp.addNode a).1.StrongSeesMeet ↔
      Intersecting (jp.addNode a).1.columns (jp.addNode a).1.superMajority := by
    simp only [JPGraph.StrongSeesMeet, JPGraph.strongSeen, decide_eq_true_eq, Intersecting]
  have hpos := card_columns_addNode hnew
  rw [hmeet, intersecting_iff, superMajority_addNode hnew]
  omega

/-- The graph of a node that knows the addresses from 1 to `n + 1`. -/
def numberedGraph (n : ℕ) : JPGraph :=
  (List.range n).foldl (fun jp i => (jp.addNode (FixedBytes.ofNat 20 (i + 2))).1)
    (newJPGraph (FixedBytes.ofNat 20 1) (n + 1))

/-- The third address leads to a graph with three columns, where strong sees meet. -/
theorem strongSeesMeet_three :
    ((numberedGraph 1).addNode (FixedBytes.ofNat 20 3)).1.StrongSeesMeet :=
  (strongSeesMeet_iff (by decide +kernel)).mpr (by decide +kernel)

/-- With four columns the threshold is two, and two disjoint pairs of columns reach it. -/
theorem not_strongSeesMeet_four :
    (numberedGraph 3).columns.card = 4 ∧ (numberedGraph 3).superMajority = 2 ∧
      ¬ (numberedGraph 3).StrongSeesMeet := by
  refine ⟨by decide +kernel, by decide +kernel, fun h => ?_⟩
  have hmeet := h {FixedBytes.ofNat 20 1, FixedBytes.ofNat 20 2} (by decide +kernel)
    {FixedBytes.ofNat 20 3, FixedBytes.ofNat 20 4} (by decide +kernel) (by decide +kernel)
    (by decide +kernel)
  exact absurd hmeet (by decide +kernel)

end Hashgrid.Core
