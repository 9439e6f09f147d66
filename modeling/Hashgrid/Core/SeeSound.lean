import Hashgrid.Core.Acyclic
import Hashgrid.Core.SeeRange
import Hashgrid.Lib.Search

/-!
# What see and strong see say about links

`dfsVisit` is a depth-first search whose colours stand for the vertices still to be entered
and whose trace stands for the columns of the vertices met. `JudgeSee` reads its verdicts
off the trace: the first from the mark of one column, the second from the number of marks.
Both verdicts are about columns, so either can hold without a link to the vertex asked for.
-/

namespace Hashgrid.Core

open Hashgrid.Bytes Hashgrid.Machine

namespace JPGraph

variable {fuel n v : ℕ}

theorem mem_parents {jp : JPGraph} {w : ℕ} : w ∈ jp.parents v ↔ jp.Link v w := by
  rw [parents, List.mem_append, Option.mem_toList, Option.mem_toList]
  rfl

/-- Links lead from one vertex to the other. -/
def Reaches (jp : JPGraph) : ℕ → ℕ → Prop := Relation.ReflTransGen jp.Link

/-- The vertices at which a search for `e` turns back. -/
def turnsBack (jp : JPGraph) (e v : ℕ) : Bool := v = e ∨ (jp.vert v).witness = Mark.witness

/-- Links lead from `s` to `v` without passing `e` or a witness. -/
def ReachesClear (jp : JPGraph) (e s v : ℕ) : Prop :=
  Search.Meets jp.parents (jp.turnsBack e) s v

theorem Reaches.lt {jp : JPGraph} {s : ℕ} (hlinks : ∀ u < n, ∀ w ∈ jp.parents u, w < n) (hs : s < n)
    (h : jp.Reaches s v) : v < n := by
  induction h with
  | refl => exact hs
  | @tail u w _ hlink ih => exact hlinks u ih w (mem_parents.mpr hlink)

theorem ReachesClear.reaches {jp : JPGraph} {e s : ℕ} (h : jp.ReachesClear e s v) :
    jp.Reaches s v := by
  induction h with
  | refl => exact .refl
  | tail _ hlink ih => exact ih.tail (mem_parents.mp hlink.2)

/-- Links lead from `s` to `v` through the given vertices without passing `e` or a witness. -/
def ReachesThrough (jp : JPGraph) (vs : Finset ℕ) (e s v : ℕ) : Prop :=
  Search.Meets (Search.within jp.parents vs) (jp.turnsBack e) s v

/-- The vertices that are white in a cluster. -/
def whites (jp : JPGraph) (cluster : ℕ) : Finset ℕ :=
  (Finset.range jp.verts.next).filter fun v => (jp.vert v).color[cluster]? = some .white

/-- The columns of some vertices. -/
def numbersOf (jp : JPGraph) (vs : Finset ℕ) : Finset ℕ := vs.image fun v => (jp.vert v).seqNum

/-- The graph is as `JudgeSee` expects it: two vertices of a graph that holds all it links to,
with white vertices only and with numbers below the number of peers. -/
structure Searchable (jp : JPGraph) (s e cluster : ℕ) : Prop where
  /-- The start is a vertex. -/
  start : s < jp.verts.next
  /-- The vertex to be seen is one. -/
  target : e < jp.verts.next
  /-- Links lead to vertices. -/
  links : ∀ v < jp.verts.next, ∀ w ∈ jp.parents v, w < jp.verts.next
  /-- All vertices are white. -/
  white : ∀ v < jp.verts.next, (jp.vert v).color[cluster]? = some .white
  /-- All numbers are in range. -/
  numbers : jp.NumbersBelow jp.broadness

/-- Whether `JudgeSee` can be asked can be computed. -/
instance decidableSearchable (jp : JPGraph) (s e cluster : ℕ) :
    Decidable (jp.Searchable s e cluster) :=
  decidable_of_iff (s < jp.verts.next ∧ e < jp.verts.next ∧
    (∀ v < jp.verts.next, ∀ w ∈ jp.parents v, w < jp.verts.next) ∧
    (∀ v < jp.verts.next, (jp.vert v).color[cluster]? = some .white) ∧
    ∀ v < jp.verts.next, (jp.vert v).seqNum < jp.broadness)
    ⟨fun ⟨hs, he, hlinks, hwhite, hnum⟩ => ⟨hs, he, hlinks, hwhite, hnum⟩,
      fun ⟨hs, he, hlinks, hwhite, hnum⟩ => ⟨hs, he, hlinks, hwhite, hnum⟩⟩

/-- The trace with the given columns marked. -/
def traceOf (n : ℕ) (cols : Finset ℕ) : List ℕ :=
  (List.range n).map fun i => if i ∈ cols then 1 else 0

theorem traceOf_empty (n : ℕ) : traceOf n ∅ = List.replicate n 0 := by
  simp [traceOf, List.map_const']

@[simp] theorem length_traceOf (n : ℕ) (cols : Finset ℕ) : (traceOf n cols).length = n := by
  simp [traceOf]

theorem getElem?_traceOf {i : ℕ} (hi : i < n) (cols : Finset ℕ) :
    (traceOf n cols)[i]? = some (if i ∈ cols then 1 else 0) := by
  simp [traceOf, List.getElem?_range hi]

/-- Marking a column. -/
theorem traceOf_set (n i : ℕ) (cols : Finset ℕ) :
    (traceOf n cols).set i 1 = traceOf n (insert i cols) := by
  refine List.ext_getElem (by simp) fun k hk _ => ?_
  by_cases hki : k = i
  · simp [traceOf, hki]
  · simp [traceOf, hki, Ne.symm hki]

theorem sum_traceOf {cols : Finset ℕ} (h : cols ⊆ Finset.range n) :
    (traceOf n cols).sum = cols.card := by
  rw [traceOf, ← List.sum_toFinset _ List.nodup_range, List.toFinset_range, ← Finset.card_filter,
    Finset.filter_mem_eq_inter, Finset.inter_eq_right.mpr h]

theorem mem_whites {jp : JPGraph} {cluster : ℕ} : v ∈ jp.whites cluster ↔
    v < jp.verts.next ∧ (jp.vert v).color[cluster]? = some .white := by
  rw [whites, Finset.mem_filter, Finset.mem_range]

/-- A vertex that is painted in another colour is white no more. -/
theorem whites_paint (jp : JPGraph) (cluster : ℕ) {color : Color} (hcolor : color ≠ .white)
    (s : ℕ) : (jp.paint cluster color s).whites cluster = (jp.whites cluster).erase s := by
  ext v
  rw [Finset.mem_erase, mem_whites, mem_whites, (sameButColors_paint ..).next]
  by_cases hvs : v = s
  · refine iff_of_false ?_ fun h => h.1 hvs
    rintro ⟨hv, hwhite⟩
    subst hvs
    rw [paint, vert, setVert, Heap.get_update_self hv, List.getElem?_set_self'] at hwhite
    obtain ⟨_, _, hwhite⟩ := Option.map_eq_some_iff.mp hwhite
    exact hcolor hwhite
  · rw [paint, vert, setVert, Heap.get_update_ne _ hvs]
    exact ⟨fun h => ⟨hvs, h⟩, fun h => h.2⟩

/-- The colours and the trace of `dfsVisit` show how far a search is. -/
structure Shows (jp : JPGraph) (cluster : ℕ) (st : Search.State ℕ) (r : JPGraph × List ℕ) :
    Prop where
  /-- Only colours changed since the search began. -/
  colors : SameButColors jp r.1
  /-- White vertices are still to be entered. -/
  fresh : r.1.whites cluster = st.fresh
  /-- The columns of the vertices met are marked. -/
  marks : r.2 = traceOf jp.broadness (jp.numbersOf st.met)

variable {jp : JPGraph} {cluster e s : ℕ} {st st' : Search.State ℕ} {r : JPGraph × List ℕ}

/-- A vertex is met. -/
theorem Shows.mark (h : jp.Shows cluster st r) (s : ℕ) :
    jp.Shows cluster { st with met := insert s st.met }
      (r.1, r.2.set (r.1.vert s).seqNum 1) where
  colors := h.colors
  fresh := h.fresh
  marks := by
    dsimp only
    rw [h.colors.seqNum, h.marks, traceOf_set, numbersOf, numbersOf, Finset.image_insert]

theorem Shows.paint (h : jp.Shows cluster st r) (color : Color) (hcolor : color ≠ .white) (s : ℕ) :
    jp.Shows cluster { st with fresh := st.fresh.erase s } (r.1.paint cluster color s, r.2) where
  colors := h.colors.trans (sameButColors_paint ..)
  fresh := by rw [whites_paint _ _ hcolor, h.fresh]
  marks := h.marks

variable {jp' : JPGraph}

theorem SameButColors.parents (h : SameButColors jp jp') (v : ℕ) :
    jp'.parents v = jp.parents v := by
  have hself := congrArg Vertex.selfPt (h.vert v)
  have hanother := congrArg Vertex.anotherPt (h.vert v)
  exact congrArg₂ (fun a b => Option.toList a ++ Option.toList b) hself hanother

theorem SameButColors.turnsBack (h : SameButColors jp jp') (e v : ℕ) :
    (v = e ∨ (jp'.vert v).witness = Mark.witness) ↔ jp.turnsBack e v = true := by
  have hwitness := congrArg Vertex.witness (h.vert v)
  dsimp only at hwitness
  rw [hwitness, JPGraph.turnsBack, decide_eq_true_eq]

/-- The loop of `dfsVisit` over links goes on as the search does, if `dfsVisit` does. -/
theorem Shows.foldlM
    (hvisit : ∀ {s : ℕ} {st st' : Search.State ℕ} {r : JPGraph × List ℕ}, s < jp.verts.next →
      jp.Shows cluster st r → Search.visit jp.parents (jp.turnsBack e) fuel st s = some st' →
      ∃ r', JPGraph.dfsVisit cluster e fuel r.1 r.2 s = .ok r' ∧ jp.Shows cluster st' r')
    {us : List ℕ} (h : jp.Shows cluster st r)
    (hall : Search.visitAll jp.parents (jp.turnsBack e) fuel st us = some st') :
    ∃ r', us.foldlM (dfsNext cluster e fuel) r = .ok r' ∧ jp.Shows cluster st' r' := by
  induction us generalizing st r with
  | nil => exact ⟨r, rfl, Option.some.inj hall ▸ h⟩
  | cons u us ih =>
    rw [Search.visitAll_cons, Option.bind_eq_some_iff] at hall
    obtain ⟨st₁, hfirst, hrest⟩ := hall
    have hfresh : u ∈ st.fresh ↔
        u < jp.verts.next ∧ (r.1.vert u).color[cluster]? = some .white := by
      rw [← h.fresh, mem_whites, h.colors.next]
    obtain ⟨r₁, hr₁, hshows⟩ : ∃ r₁, dfsNext cluster e fuel r u = .ok r₁ ∧
        jp.Shows cluster st₁ r₁ := by
      unfold dfsNext
      split_ifs at hfirst with hu
      · rw [if_pos (hfresh.mp hu).2]
        exact hvisit (hfresh.mp hu).1 h hfirst
      · have hcolor : (r.1.vert u).color[cluster]? ≠ some .white := by
          intro hwhite
          exact hu (hfresh.mpr ⟨h.colors.next ▸ lt_of_color hwhite, hwhite⟩)
        rw [if_neg hcolor]
        exact ⟨r, rfl, Option.some.inj hfirst ▸ h⟩
    obtain ⟨r', hr', hshows'⟩ := ih hshows hrest
    refine ⟨r', ?_, hshows'⟩
    rw [List.foldlM_cons, hr₁]
    exact hr'

/-- `dfsVisit` goes on as the search does. -/
theorem Shows.dfsVisit (hnum : jp.NumbersBelow jp.broadness) (hs : s < jp.verts.next)
    (h : jp.Shows cluster st r)
    (hvisit : Search.visit jp.parents (jp.turnsBack e) fuel st s = some st') :
    ∃ r', JPGraph.dfsVisit cluster e fuel r.1 r.2 s = .ok r' ∧ jp.Shows cluster st' r' := by
  induction fuel generalizing st st' r s with
  | zero => cases hvisit
  | succ fuel ih =>
    have hrange : ¬ r.2.length ≤ (r.1.vert s).seqNum := by
      rw [h.marks, length_traceOf, h.colors.seqNum]
      exact Nat.not_le.mpr (hnum s hs)
    rw [Search.visit_succ] at hvisit
    rw [dfsVisit_succ, if_neg hrange]
    by_cases hback : jp.turnsBack e s = true
    · rw [if_pos hback] at hvisit
      rw [if_pos ((h.colors.turnsBack e s).mpr hback)]
      exact ⟨_, rfl, Option.some.inj hvisit ▸ h.mark s⟩
    · rw [if_neg hback] at hvisit
      rw [if_neg fun h' => hback ((h.colors.turnsBack e s).mp h'), h.colors.parents]
      have hgrey := (h.mark s).paint .grey (by decide) s
      obtain ⟨r', hr', hshows⟩ := hgrey.foldlM (fun hs h hvisit => ih hs h hvisit) hvisit
      have hleft : s ∉ st'.fresh := fun hfresh => Finset.notMem_erase s _
        ((Search.visitAll_explores Search.visit_explores hvisit).fresh hfresh)
      rw [hr']
      refine ⟨_, rfl, ?_⟩
      have hblack := hshows.paint .black (by decide) s
      rwa [Finset.erase_eq_of_notMem hleft] at hblack

/-- How `JudgeSee` reads the trace. -/
theorem judgeSee_of_dfsVisit {t : ℕ}
    (hvisit : JPGraph.dfsVisit cluster e (jp.verts.next + 1) jp (List.replicate jp.broadness 0) s =
      .ok r) (hmark : r.2[(r.1.vert e).seqNum]? = some t) :
    jp.judgeSee s e cluster = .ok (r.1, t = 1, r.1.strongSeen r.2.sum) := by
  simp only [judgeSee, hvisit, bind, Except.bind, hmark]
  rfl

/-- A search can meet no more vertices than there are. -/
theorem card_insert_whites_lt (hs : s < jp.verts.next) :
    (insert s (jp.whites cluster)).card < jp.verts.next + 1 := by
  have hsub : insert s (jp.whites cluster) ⊆ Finset.range jp.verts.next :=
    Finset.insert_subset (Finset.mem_range.mpr hs) (Finset.filter_subset _ _)
  have hle := Finset.card_le_card hsub
  rw [Finset.card_range] at hle
  exact Nat.lt_succ_of_le hle

/-- `JudgeSee` returns, and it judges by the columns of the vertices that white vertices lead
to. -/
theorem exists_judgeSee_whites (hs : s < jp.verts.next) (he : e < jp.verts.next)
    (hlinks : ∀ v < jp.verts.next, ∀ w ∈ jp.parents v, w < jp.verts.next)
    (hnum : jp.NumbersBelow jp.broadness) : ∃ jp' met,
      (∀ v, v ∈ met ↔ jp.ReachesThrough (jp.whites cluster) e s v) ∧
      jp.judgeSee s e cluster = .ok (jp', decide ((jp.vert e).seqNum ∈ jp.numbersOf met),
        jp.strongSeen (jp.numbersOf met).card) := by
  have hlt (v : ℕ) (hv : jp.ReachesThrough (jp.whites cluster) e s v) : v < jp.verts.next := by
    have hclear : jp.ReachesClear e s v := Search.Meets.of_within hv
    exact Reaches.lt hlinks hs hclear.reaches
  obtain ⟨st', hvisit, hmet⟩ : ∃ st', Search.visit jp.parents (jp.turnsBack e)
      (jp.verts.next + 1) ⟨jp.whites cluster, ∅⟩ s = some st' ∧
        ∀ v, v ∈ st'.met ↔ jp.ReachesThrough (jp.whites cluster) e s v :=
    Search.exists_visit_met (card_insert_whites_lt hs)
  have hinit : jp.Shows cluster ⟨jp.whites cluster, ∅⟩ (jp, List.replicate jp.broadness 0) :=
    ⟨.refl jp, rfl, (traceOf_empty _).symm⟩
  obtain ⟨r', hr', hshows⟩ := hinit.dfsVisit hnum hs hvisit
  have hrange : jp.numbersOf st'.met ⊆ Finset.range jp.broadness := by
    intro i hi
    obtain ⟨v, hv, rfl⟩ := Finset.mem_image.mp hi
    exact Finset.mem_range.mpr (hnum v (hlt v ((hmet v).mp hv)))
  have hmark : r'.2[(r'.1.vert e).seqNum]? =
      some (if (jp.vert e).seqNum ∈ jp.numbersOf st'.met then 1 else 0) := by
    rw [hshows.colors.seqNum, hshows.marks]
    exact getElem?_traceOf (hnum e he) _
  have hmajority : r'.1.strongSeen r'.2.sum = jp.strongSeen (jp.numbersOf st'.met).card := by
    rw [hshows.marks, sum_traceOf hrange, hshows.colors.rest]
    rfl
  refine ⟨r'.1, st'.met, hmet, ?_⟩
  rw [judgeSee_of_dfsVisit hr' hmark, hmajority]
  by_cases hmem : (jp.vert e).seqNum ∈ jp.numbersOf st'.met
  · simp [hmem]
  · simp [hmem]

/-- If all vertices are white, they lead to all that can be reached. -/
theorem reachesThrough_whites_iff (hs : s < jp.verts.next)
    (hlinks : ∀ v < jp.verts.next, ∀ w ∈ jp.parents v, w < jp.verts.next)
    (hwhite : ∀ v < jp.verts.next, (jp.vert v).color[cluster]? = some .white) (v : ℕ) :
    jp.ReachesThrough (jp.whites cluster) e s v ↔ jp.ReachesClear e s v := by
  refine ⟨fun hv => hv.of_within, fun hv => hv.within fun u hu => .inr ?_⟩
  have hclear : jp.ReachesClear e s u := hu
  have hlt := Reaches.lt hlinks hs hclear.reaches
  exact mem_whites.mpr ⟨hlt, hwhite u hlt⟩

/-- `JudgeSee` returns, and it judges by the columns of the vertices that the search meets. -/
theorem exists_judgeSee (h : jp.Searchable s e cluster) : ∃ jp' met,
    (∀ v, v ∈ met ↔ jp.ReachesClear e s v) ∧
      jp.judgeSee s e cluster = .ok (jp', decide ((jp.vert e).seqNum ∈ jp.numbersOf met),
        jp.strongSeen (jp.numbersOf met).card) := by
  obtain ⟨jp', met, hmet, hjudge⟩ := exists_judgeSee_whites h.start h.target h.links h.numbers
  have hwhites := reachesThrough_whites_iff (e := e) h.start h.links h.white
  exact ⟨jp', met, fun v => (hmet v).trans (hwhites v), hjudge⟩

/-- Enough columns for a strong see have a vertex with the property. -/
def MajorityHas (jp : JPGraph) (p : ℕ → Prop) : Prop :=
  ∃ cols : Finset ℕ, jp.superMajority ≤ cols.card ∧ ∀ i ∈ cols, ∃ v, p v ∧ (jp.vert v).seqNum = i

/-- Whether `JudgeSee` counts enough columns. -/
theorem strongSeen_iff_majorityHas {met : Finset ℕ} {p : ℕ → Prop} (hmet : ∀ v, v ∈ met ↔ p v) :
    jp.strongSeen (jp.numbersOf met).card = true ↔ jp.MajorityHas p := by
  rw [strongSeen, decide_eq_true_eq]
  constructor
  · intro hle
    refine ⟨jp.numbersOf met, hle, fun i hi => ?_⟩
    obtain ⟨v, hv, hnumber⟩ := Finset.mem_image.mp hi
    exact ⟨v, (hmet v).mp hv, hnumber⟩
  · rintro ⟨cols, hle, hcols⟩
    refine hle.trans (Finset.card_le_card fun i hi => ?_)
    obtain ⟨v, hv, hnumber⟩ := hcols i hi
    exact Finset.mem_image.mpr ⟨v, (hmet v).mpr hv, hnumber⟩

/-- `JudgeSee` returns, and its verdict that `s` sees `e` is sound exactly when links lead from `s`
to `e` or when no vertex of the column of `e` is reached without passing `e` or a witness. -/
theorem see_sound_iff (h : jp.Searchable s e cluster) : ∃ jp' see strongsee,
    jp.judgeSee s e cluster = .ok (jp', see, strongsee) ∧
      ((see = true → jp.Reaches s e) ↔ jp.Reaches s e ∨
        ∀ v, jp.ReachesClear e s v → (jp.vert v).seqNum ≠ (jp.vert e).seqNum) := by
  obtain ⟨jp', met, hmet, hjudge⟩ := exists_judgeSee h
  refine ⟨jp', _, _, hjudge, ?_⟩
  have hsee : (jp.vert e).seqNum ∈ jp.numbersOf met ↔
      ¬ ∀ v, jp.ReachesClear e s v → (jp.vert v).seqNum ≠ (jp.vert e).seqNum := by
    simp only [numbersOf, Finset.mem_image, hmet, not_forall, not_not, exists_prop]
  rw [decide_eq_true_eq, hsee, not_imp_comm, imp_iff_or_not, not_not, or_comm]

/-- In the triangle `eventA2` sees `eventA1`, and links lead there. -/
theorem see_sound_triangle : ∃ jp' see strongsee,
    (triangleGraph [eventA1, eventB, eventA2]).judgeSee 2 0 0 = .ok (jp', see, strongsee) ∧
      (see = true → (triangleGraph [eventA1, eventB, eventA2]).Reaches 2 0) := by
  obtain ⟨hsearchable, hself⟩ : (triangleGraph [eventA1, eventB, eventA2]).Searchable 2 0 0 ∧
      ((triangleGraph [eventA1, eventB, eventA2]).vert 2).selfPt = some 0 := by decide +kernel
  obtain ⟨jp', see, strongsee, hjudge, hiff⟩ := see_sound_iff hsearchable
  exact ⟨jp', see, strongsee, hjudge, hiff.mpr (.inl (.single (.inl hself)))⟩

/-- `eventA1` sees `eventA2`, the later event of its own column. -/
theorem see_own_column :
    (triangleGraph [eventA1, eventB, eventA2]).Searchable 0 2 0 ∧
      ((triangleGraph [eventA1, eventB, eventA2]).judgeSee 0 2 0).toOption.map Prod.snd =
        some (true, false) ∧
      ¬ (triangleGraph [eventA1, eventB, eventA2]).Reaches 0 2 := by
  obtain ⟨hsearchable, hsee, hlinks⟩ :
      (triangleGraph [eventA1, eventB, eventA2]).Searchable 0 2 0 ∧
      ((triangleGraph [eventA1, eventB, eventA2]).judgeSee 0 2 0).toOption.map Prod.snd =
        some (true, false) ∧
      ∀ u < 1, ∀ w ∈ (triangleGraph [eventA1, eventB, eventA2]).parents u, w < 1 := by
    decide +kernel
  exact ⟨hsearchable, hsee, fun h => absurd (Reaches.lt hlinks (by decide) h) (by decide)⟩

/-- `JudgeSee` returns, and its verdict that `s` strongly sees `e` is sound exactly when enough
columns lie on paths from `s` to `e`, or when too few are reached without passing `e` or a
witness. -/
theorem strongSee_sound_iff (h : jp.Searchable s e cluster) : ∃ jp' see strongsee,
    jp.judgeSee s e cluster = .ok (jp', see, strongsee) ∧
      ((strongsee = true → jp.MajorityHas fun v => jp.Reaches s v ∧ jp.Reaches v e) ↔
        (jp.MajorityHas fun v => jp.Reaches s v ∧ jp.Reaches v e) ∨
          ¬ jp.MajorityHas (jp.ReachesClear e s)) := by
  obtain ⟨jp', met, hmet, hjudge⟩ := exists_judgeSee h
  refine ⟨jp', _, _, hjudge, ?_⟩
  rw [strongSeen_iff_majorityHas hmet, imp_iff_not_or, or_comm]

/-- In the triangle both columns lie on paths from `eventA2` to `eventA1`. -/
theorem strongSee_sound_triangle : ∃ jp' see strongsee,
    (triangleGraph [eventA1, eventB, eventA2]).judgeSee 2 0 0 = .ok (jp', see, strongsee) ∧
      (strongsee = true → (triangleGraph [eventA1, eventB, eventA2]).MajorityHas fun v =>
        (triangleGraph [eventA1, eventB, eventA2]).Reaches 2 v ∧
          (triangleGraph [eventA1, eventB, eventA2]).Reaches v 0) := by
  obtain ⟨hsearchable, hmajority, h20, h21, h10, hsecond, hfirst⟩ :
      (triangleGraph [eventA1, eventB, eventA2]).Searchable 2 0 0 ∧
      (triangleGraph [eventA1, eventB, eventA2]).superMajority ≤ ({1, 2} : Finset ℕ).card ∧
      ((triangleGraph [eventA1, eventB, eventA2]).vert 2).selfPt = some 0 ∧
      ((triangleGraph [eventA1, eventB, eventA2]).vert 2).anotherPt = some 1 ∧
      ((triangleGraph [eventA1, eventB, eventA2]).vert 1).anotherPt = some 0 ∧
      ((triangleGraph [eventA1, eventB, eventA2]).vert 2).seqNum = 1 ∧
      ((triangleGraph [eventA1, eventB, eventA2]).vert 1).seqNum = 2 := by decide +kernel
  obtain ⟨jp', see, strongsee, hjudge, hiff⟩ := strongSee_sound_iff hsearchable
  refine ⟨jp', see, strongsee, hjudge, hiff.mpr (.inl ⟨{1, 2}, hmajority, ?_⟩)⟩
  intro i hi
  rcases Finset.mem_insert.mp hi with rfl | hi
  · exact ⟨2, ⟨.refl, .single (.inl h20)⟩, hsecond⟩
  · obtain rfl := Finset.mem_singleton.mp hi
    exact ⟨1, ⟨.single (.inr h21), .single (.inr h10)⟩, hfirst⟩

end JPGraph

/-- The first event of creator `0x0c`. -/
def eventC : Event ℤ :=
  plainEvent 5 0x0C (FixedBytes.zero 32) (FixedBytes.zero 32) 0 0
    (FixedBytes.ofNat 32 0xf4b89abe53a47b57a371fbab1a168173b08f9d52d9a5ca4cc6b2ab9d4ba2335e)

/-- Keccak-256 on the hash inputs of the triangle and of `eventC`. -/
def asideKeccak : List UInt8 → Hash :=
  tabulated ([eventA1, eventB, eventA2, eventC].map fun e => (e.checkInput, e.selfHash))

/-- The graph of node `0x0c` after the triangle and then `eventC` arrived. -/
def asideGraph : JPGraph :=
  (run (JPGraph.arriveEvent asideKeccak) (newJPGraph (FixedBytes.ofNat 20 0x0C) 3)
    (arrivals [eventA1, eventB, eventA2, eventC])).toOption.getD
      (bareGraph (FixedBytes.ofNat 20 0x0C) 3)

/-- `eventA2` strongly sees `eventC`, which it does not even see. -/
theorem strongSee_unseen :
    asideGraph.Searchable 2 3 0 ∧
      (asideGraph.judgeSee 2 3 0).toOption.map Prod.snd = some (false, true) ∧
      ¬ asideGraph.MajorityHas fun v => asideGraph.Reaches 2 v ∧ asideGraph.Reaches v 3 := by
  obtain ⟨hsearchable, hjudge, hmajority, hlinks⟩ : asideGraph.Searchable 2 3 0 ∧
      (asideGraph.judgeSee 2 3 0).toOption.map Prod.snd = some (false, true) ∧
      asideGraph.superMajority = 2 ∧ ∀ u < 3, ∀ w ∈ asideGraph.parents u, w < 3 := by
    decide +kernel
  refine ⟨hsearchable, hjudge, ?_⟩
  rintro ⟨cols, hcard, hcols⟩
  obtain ⟨i, hi⟩ := Finset.card_pos.mp (show 0 < cols.card by omega)
  obtain ⟨v, ⟨hto, hfrom⟩, _⟩ := hcols i hi
  have hlt := JPGraph.Reaches.lt hlinks (by decide) (hto.trans hfrom)
  exact absurd hlt (by decide)

end Hashgrid.Core
