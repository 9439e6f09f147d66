import Hashgrid.Core.Rounds

/-!
# Strong see stays in range

`JudgeSee` indexes its trace with column numbers. If all of them are below the configured
number of peers, it stays in range, and so does `MonitorLoop` while it goes through a
witness table that has at least as many entries.
-/

namespace Hashgrid.Core

open Hashgrid.Bytes Hashgrid.Machine

namespace JPGraph

/-- The vertices have numbers below the bound. -/
def NumbersBelow (jp : JPGraph) (n : ℕ) : Prop := ∀ v < jp.verts.next, (jp.vert v).seqNum < n

variable {jp jp' : JPGraph}

theorem SameButColors.seqNum (h : SameButColors jp jp') (v : ℕ) :
    (jp'.vert v).seqNum = (jp.vert v).seqNum := by
  have hvert := congrArg Vertex.seqNum (h.vert v)
  exact hvert

theorem NumbersBelow.colors {n : ℕ} (h : jp.NumbersBelow n) (hcolors : SameButColors jp jp') :
    jp'.NumbersBelow n := by
  intro v hv
  rw [hcolors.seqNum]
  exact h v (hcolors.next ▸ hv)

/-- A vertex with a colour is there. -/
theorem lt_of_color {v cluster : ℕ} {color : Color} (h : (jp.vert v).color[cluster]? = some color) :
    v < jp.verts.next := by
  by_contra hv
  have hdefault : jp.vert v = default := Heap.get_of_le (by omega)
  rw [hdefault] at h
  cases h

/-- Reading a round number stays in range. -/
theorem avoids_derefRound (jp : JPGraph) (e : Event ℕ) :
    Avoids (jp.derefRound e) .indexOutOfRange := by
  unfold derefRound
  split
  · exact .ok
  · exact .error (by decide)

/-- The first loop of `clearColorDFS` stays in range. -/
theorem avoids_findOfRound (jp : JPGraph) (c idx turns : ℕ) (s : Option ℕ) :
    Avoids (jp.findOfRound c idx turns s) .indexOutOfRange := by
  induction turns generalizing s with
  | zero =>
    cases s with
    | none => exact .ok
    | some s => exact .error (by decide)
  | succ turns ih =>
    cases s with
    | none => exact .ok
    | some s =>
      refine (jp.avoids_derefRound _).bind fun r _ => ?_
      split_ifs
      · exact .ok
      · exact ih _

/-- The second loop of `clearColorDFS` stays in range. -/
theorem avoids_whiten (c idx cluster turns : ℕ) (s : Option ℕ) (jp : JPGraph) :
    Avoids (whiten c idx cluster turns s jp) .indexOutOfRange := by
  induction turns generalizing s jp with
  | zero =>
    cases s with
    | none => exact .ok
    | some s => exact .error (by decide)
  | succ turns ih =>
    cases s with
    | none => exact .ok
    | some s =>
      refine (jp.avoids_derefRound _).bind fun r _ => ?_
      split_ifs
      · exact ih _ _
      · exact .ok

/-- `clearColorDFS` stays in range. -/
theorem avoids_clearColorDFS (jp : JPGraph) (idx cluster : ℕ) (order : List Address) :
    Avoids (jp.clearColorDFS idx cluster order) .indexOutOfRange := by
  refine Avoids.map (Avoids.foldlM (Q := fun _ => True) (fun st a _ _ => ⟨?_, fun _ _ => trivial⟩)
    trivial)
  unfold clearColumn
  cases st.1.graph.lookup a with
  | none => exact .ok
  | some c =>
    refine (avoids_findOfRound _ _ _ _ _).bind fun found _ => ?_
    exact (avoids_whiten _ _ _ _ _ _).bind fun jp' _ => .ok

/-- `dfsVisit` keeps the length of the trace. -/
theorem length_dfsVisit (cluster e fuel : ℕ) (jp : JPGraph) (marks : List ℕ) (s : ℕ) :
    Ensures (dfsVisit cluster e fuel jp marks s) fun st => st.2.length = marks.length := by
  induction fuel generalizing jp marks s with
  | zero => exact .error
  | succ fuel ih =>
    have hnext (st : JPGraph × List ℕ) (u : ℕ) (hst : st.2.length = marks.length) :
        Ensures (dfsNext cluster e fuel st u) fun st' => st'.2.length = marks.length := by
      unfold dfsNext
      split_ifs
      · exact fun st' hst' => (ih _ _ _ st' hst').trans hst
      · exact .ok hst
    rw [dfsVisit_succ]
    split_ifs
    · exact .error
    · exact .ok (List.length_set ..)
    · exact .bind (.foldlM hnext _ (List.length_set ..)) fun st hst => .ok hst

/-- `dfsVisit` stays in range of its trace. -/
theorem avoids_dfsVisit (cluster e fuel : ℕ) {marks : List ℕ} {s : ℕ}
    (h : jp.NumbersBelow marks.length) (hs : s < jp.verts.next) :
    Avoids (dfsVisit cluster e fuel jp marks s) .indexOutOfRange := by
  induction fuel generalizing jp marks s with
  | zero => exact .error (by decide)
  | succ fuel ih =>
    have hnext (st : JPGraph × List ℕ) (u : ℕ)
        (hst : SameButColors jp st.1 ∧ st.2.length = marks.length) :
        Avoids (dfsNext cluster e fuel st u) .indexOutOfRange ∧
          Ensures (dfsNext cluster e fuel st u)
            fun st' => SameButColors jp st'.1 ∧ st'.2.length = marks.length := by
      unfold dfsNext
      split_ifs with hwhite
      · refine ⟨ih (hst.2 ▸ h.colors hst.1) (lt_of_color hwhite), fun st' hst' => ⟨?_, ?_⟩⟩
        · exact hst.1.trans (sameButColors_dfsVisit _ _ _ _ _ _ st' hst')
        · exact (length_dfsVisit _ _ _ _ _ _ st' hst').trans hst.2
      · exact ⟨.ok, .ok hst⟩
    rw [dfsVisit_succ]
    split_ifs with hrange
    · exact absurd (h s hs) (by omega)
    · exact .ok
    · refine (Avoids.foldlM (fun st u _ => hnext st u) ?_).bind fun st _ => .ok
      exact ⟨sameButColors_paint jp cluster .grey s, List.length_set ..⟩

/-- `JudgeSee` stays in range if all column numbers are below the number of peers. -/
theorem avoids_judgeSee (h : jp.NumbersBelow jp.broadness) {s e : ℕ} (hs : s < jp.verts.next)
    (he : (jp.vert e).seqNum < jp.broadness) (cluster : ℕ) :
    Avoids (jp.judgeSee s e cluster) .indexOutOfRange := by
  have hlen : (List.replicate jp.broadness 0).length = jp.broadness := List.length_replicate
  unfold judgeSee
  refine (avoids_dfsVisit _ _ _ (hlen.symm ▸ h) hs).bind fun st hst => ?_
  have hcolors := sameButColors_dfsVisit _ _ _ _ _ _ st hst
  have hmarks := (length_dfsVisit _ _ _ _ _ _ st hst).trans hlen
  dsimp only
  split
  · next hnone =>
    rw [List.getElem?_eq_none_iff, hcolors.seqNum, hmarks] at hnone
    omega
  · exact .ok

/-- Counting strong sees stays in range if the table has an entry for every peer and all column
numbers are below the number of peers. -/
theorem avoids_countSees (h : jp.NumbersBelow jp.broadness) {rd : Round}
    (htable : rd.broadness ≤ rd.witnesses.length) (hbroad : rd.broadness = jp.broadness)
    {starter : ℕ} (hs : starter < jp.verts.next) (order : ℕ → List Address) :
    Avoids (jp.countSees rd starter order) .indexOutOfRange := by
  refine Avoids.foldlM (Q := fun st => SameButColors jp st.1) (fun st i hi hst => ⟨?_, ?_⟩)
    (.refl jp)
  · have hi : i < rd.broadness := List.mem_range.mp hi
    unfold judgeWitness
    split
    · next hnone =>
      rw [List.getElem?_eq_none_iff] at hnone
      omega
    · exact .ok
    · next m hm =>
      refine (avoids_clearColorDFS _ _ _ _).bind fun jp₁ hjp₁ => ?_
      have hcolors := hst.trans (sameButColors_clearColorDFS _ _ _ _ jp₁ hjp₁)
      have hbroad₁ : jp₁.broadness = jp.broadness := by rw [hcolors.rest]
      have hbelow : jp₁.NumbersBelow jp₁.broadness := hbroad₁.symm ▸ h.colors hcolors
      have hm : (jp₁.vert m).seqNum < jp₁.broadness := by
        by_cases hm : m < jp₁.verts.next
        · exact hbelow m hm
        · have hdefault : jp₁.vert m = default := Heap.get_of_le (by omega)
          rw [hdefault, hbroad₁, ← hbroad]
          exact Nat.lt_of_le_of_lt (Nat.zero_le i) hi
      exact (avoids_judgeSee hbelow (hcolors.next ▸ hs) hm _).bind fun r _ => .ok
  · exact sameButColors_judgeWitness rd starter order hst i

end JPGraph

end Hashgrid.Core
