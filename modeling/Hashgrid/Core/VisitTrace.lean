import Hashgrid.Core.SeeSound

/-!
# What one search leaves in its trace

`dfsVisit` on any graph of vertices, with or without cycles, and with a trace of any length.
If all vertices are white it ends, and it marks exactly the columns of the vertices to which
links lead without passing a vertex at which it turns back.
-/

namespace Hashgrid.Core

open Hashgrid.Bytes Hashgrid.Machine

namespace JPGraph

variable {jp : JPGraph} {cluster e : ℕ}

/-- With more fuel `dfsVisit` returns the same. -/
theorem dfsVisit_mono {fuel fuel' : ℕ} (hle : fuel ≤ fuel') {marks : List ℕ} {s : ℕ}
    {r : JPGraph × List ℕ} (h : dfsVisit cluster e fuel jp marks s = .ok r) :
    dfsVisit cluster e fuel' jp marks s = .ok r := by
  induction fuel generalizing fuel' jp marks s r with
  | zero => cases h
  | succ fuel ih =>
    obtain ⟨fuel', rfl⟩ : ∃ f, fuel' = f + 1 := ⟨fuel' - 1, by omega⟩
    have hnext (st : JPGraph × List ℕ) (u : ℕ) (st' : JPGraph × List ℕ)
        (hst : dfsNext cluster e fuel st u = .ok st') : dfsNext cluster e fuel' st u = .ok st' := by
      unfold dfsNext at hst ⊢
      split_ifs at hst ⊢
      · exact ih (by omega) hst
      · exact hst
    rw [dfsVisit_succ] at h ⊢
    split_ifs at h ⊢
    · exact h
    · cases hfold : (jp.parents s).foldlM (dfsNext cluster e fuel)
          (jp.paint cluster .grey s, marks.set (jp.vert s).seqNum 1) with
      | error stop =>
        rw [hfold] at h
        cases h
      | ok st =>
        rw [hfold] at h
        rw [foldlM_ok hnext hfold]
        exact h

/-- The graph with another number of peers. -/
def withBroadness (jp : JPGraph) (n : ℕ) : JPGraph := { jp with broadness := n }

/-- `dfsVisit` does not look at the number of peers. -/
theorem dfsVisit_withBroadness (n fuel : ℕ) (jp : JPGraph) (marks : List ℕ) (s : ℕ) :
    dfsVisit cluster e fuel (jp.withBroadness n) marks s =
      (dfsVisit cluster e fuel jp marks s).map fun r => (r.1.withBroadness n, r.2) := by
  induction fuel generalizing jp marks s with
  | zero => rfl
  | succ fuel ih =>
    have hnext (st : JPGraph × List ℕ) (u : ℕ) :
        dfsNext cluster e fuel (st.1.withBroadness n, st.2) u =
          (dfsNext cluster e fuel st u).map fun r => (r.1.withBroadness n, r.2) := by
      unfold dfsNext
      have hvert : (st.1.withBroadness n).vert u = st.1.vert u := rfl
      dsimp only
      rw [hvert]
      split_ifs
      · exact ih st.1 st.2 u
      · rfl
    have hvert : (jp.withBroadness n).vert s = jp.vert s := rfl
    have hparents : (jp.withBroadness n).parents s = jp.parents s := rfl
    have hpaint : (jp.withBroadness n).paint cluster .grey s =
        (jp.paint cluster .grey s).withBroadness n := rfl
    have hloop := foldlM_map hnext (jp.parents s)
      (jp.paint cluster .grey s, marks.set (jp.vert s).seqNum 1)
    dsimp only at hloop
    rw [dfsVisit_succ, dfsVisit_succ, hvert, hparents, hpaint, hloop]
    split_ifs
    · rfl
    · rfl
    · cases (jp.parents s).foldlM (dfsNext cluster e fuel)
        (jp.paint cluster .grey s, marks.set (jp.vert s).seqNum 1) <;> rfl

/-- Painting in one cluster leaves the colours of the others alone. -/
theorem Painted.color {jp' : JPGraph} (h : Painted cluster jp jp') {c : ℕ} (hc : c ≠ cluster)
    (v : ℕ) : (jp'.vert v).color[c]? = (jp.vert v).color[c]? := by
  induction h with
  | refl => rfl
  | @paint jp₁ _ color u ih =>
    rw [← ih]
    exact jp₁.vert_setVert_of_eq u (g := fun vert => vert.color[c]?)
      (fun x => List.getElem?_set_ne (Ne.symm hc)) v

/-- A graph as `dfsVisit` is called on it, with a trace of the given length: it holds all that it
links to, its vertices are white in the cluster, and their numbers are below the length. -/
structure Visitable (jp : JPGraph) (n cluster : ℕ) : Prop where
  /-- Links lead to vertices. -/
  links : ∀ v < jp.verts.next, ∀ w ∈ jp.parents v, w < jp.verts.next
  /-- All vertices are white. -/
  white : ∀ v < jp.verts.next, (jp.vert v).color[cluster]? = some .white
  /-- All numbers are in range. -/
  numbers : jp.NumbersBelow n

/-- A search with a trace of any length ends, changes colours in one cluster only, and marks the
columns of the vertices that it meets. -/
theorem exists_dfsVisit {n s : ℕ} (h : jp.Visitable n cluster) (hs : s < jp.verts.next) :
    ∃ (r : JPGraph × List ℕ) (met : Finset ℕ), (∀ v, v ∈ met ↔ jp.ReachesClear e s v) ∧
      dfsVisit cluster e (jp.verts.next + 1) jp (List.replicate n 0) s = .ok r ∧
      r.2 = traceOf n (jp.numbersOf met) := by
  obtain ⟨st, hst, hmet⟩ : ∃ st, Search.visit jp.parents (jp.turnsBack e) (jp.verts.next + 1)
      ⟨jp.whites cluster, ∅⟩ s = some st ∧
        ∀ v, v ∈ st.met ↔ jp.ReachesThrough (jp.whites cluster) e s v :=
    Search.exists_visit_met (card_insert_whites_lt hs)
  have hclear := reachesThrough_whites_iff (e := e) hs h.links h.white
  -- the search is compared with `dfsVisit` on a graph with as many peers as the trace has entries
  have hinit : (jp.withBroadness n).Shows cluster ⟨jp.whites cluster, ∅⟩
      (jp.withBroadness n, List.replicate n 0) :=
    ⟨.refl _, rfl, (traceOf_empty n).symm⟩
  have hs' : s < (jp.withBroadness n).verts.next := hs
  have hnum : (jp.withBroadness n).NumbersBelow (jp.withBroadness n).broadness := h.numbers
  obtain ⟨r, hr, hshows⟩ := hinit.dfsVisit hnum hs' hst
  dsimp only at hr
  rw [dfsVisit_withBroadness] at hr
  obtain ⟨r', hr', rfl⟩ := exists_of_map_eq_ok hr
  exact ⟨r', st.met, fun v => (hmet v).trans (hclear v), hr', hshows.marks⟩

/-- On every graph of white vertices, with or without cycles, `dfsVisit` ends. It leaves the colours
of other clusters alone and marks a column just when links lead to a vertex of it without passing
`e` or a witness. A number that is no vertex stands for a nil pointer `e`. -/
theorem dfsVisit_exact {n s : ℕ} (h : jp.Visitable n cluster) (hs : s < jp.verts.next) (e : ℕ) :
    ∃ jp' marks,
      (∀ fuel, jp.verts.next < fuel →
        dfsVisit cluster e fuel jp (List.replicate n 0) s = .ok (jp', marks)) ∧
      (∀ c ≠ cluster, ∀ v, (jp'.vert v).color[c]? = (jp.vert v).color[c]?) ∧
      marks.length = n ∧
      ∀ k, marks[k]? = some 1 ↔ ∃ v, jp.ReachesClear e s v ∧ (jp.vert v).seqNum = k := by
  obtain ⟨⟨jp', marks⟩, met, hmet, hvisit, hmarks⟩ := exists_dfsVisit (e := e) h hs
  dsimp only at hmarks
  subst hmarks
  refine ⟨jp', _, fun fuel hfuel => dfsVisit_mono hfuel hvisit, fun c hc v => ?_,
    length_traceOf n _, fun k => ?_⟩
  · exact (painted_dfsVisit _ _ _ _ _ _ _ hvisit).color hc v
  · have hmem : k ∈ jp.numbersOf met ↔ ∃ v, jp.ReachesClear e s v ∧ (jp.vert v).seqNum = k := by
      simp only [numbersOf, Finset.mem_image, hmet]
    rw [← hmem]
    by_cases hk : k < n
    · rw [getElem?_traceOf hk]
      split_ifs with hcol
      · exact iff_of_true rfl hcol
      · exact iff_of_false (by simp) hcol
    · refine iff_of_false ?_ fun hcol => ?_
      · rw [List.getElem?_eq_none (by rw [length_traceOf]; omega)]
        intro h
        cases h
      · obtain ⟨v, hv, rfl⟩ := hmem.mp hcol
        exact hk (h.numbers v (Reaches.lt h.links hs hv.reaches))

/-- Two vertices that link to each other, and one of them to itself. -/
def cyclicGraph : JPGraph :=
  { bareGraph (FixedBytes.zero 20) 2 with
    verts := ⟨[{ newVertex default Mark.normal with selfPt := some 1, seqNum := 0 },
      { newVertex default Mark.normal with selfPt := some 0, anotherPt := some 1, seqNum := 2 }]⟩ }

/-- A search in a cycle for a nil pointer ends. -/
theorem dfsVisit_exact_cyclic :
    cyclicGraph.Visitable 3 0 ∧ ∃ jp' marks,
      (∀ fuel, 2 < fuel → dfsVisit 0 2 fuel cyclicGraph (List.replicate 3 0) 0 = .ok (jp', marks)) ∧
      (∀ c ≠ 0, ∀ v, (jp'.vert v).color[c]? = (cyclicGraph.vert v).color[c]?) ∧
      marks.length = 3 ∧
      ∀ k, marks[k]? = some 1 ↔
        ∃ v, cyclicGraph.ReachesClear 2 0 v ∧ (cyclicGraph.vert v).seqNum = k := by
  have hvisitable : cyclicGraph.Visitable 3 0 :=
    ⟨by decide +kernel, by decide +kernel, fun v hv => by
      revert v
      decide +kernel⟩
  exact ⟨hvisitable, dfsVisit_exact hvisitable (by decide) 2⟩

end JPGraph

end Hashgrid.Core
