import Hashgrid.Core.Clearing

/-!
# What searches remember

Colours stay on the vertices from one call of `JudgeSee` to the next. `dfsVisit` colours
vertices of every round, and `clearColorDFS` only whitens the newest vertices of one round
in every column. What an earlier search left black hides the vertices behind it.
-/

namespace Hashgrid.Core

open Hashgrid.Bytes Hashgrid.Machine Hashgrid.Links Hashgrid.Walks

/-- A vertex in white. -/
def Vertex.white (cluster : ℕ) (vert : Vertex) : Vertex :=
  { vert with color := vert.color.set cluster .white }

namespace JPGraph

/-- The graph with white vertices only. -/
def allWhite (jp : JPGraph) (cluster : ℕ) : JPGraph :=
  { jp with verts := jp.verts.map (Vertex.white cluster) }

/-- `JudgeSee` returns on both graphs, with the same verdicts. -/
def SameVerdicts (jp jp' : JPGraph) (s e cluster : ℕ) : Prop :=
  ∃ verdicts, (jp.judgeSee s e cluster).map Prod.snd = .ok verdicts ∧
    (jp'.judgeSee s e cluster).map Prod.snd = .ok verdicts

/-- The given vertices are enough to judge: if the column of `e` is reached without passing `e`
or a witness, it is reached through them, and if enough columns for a strong see are reached,
then enough are reached through them. -/
structure KeepsColumns (jp : JPGraph) (vs : Finset ℕ) (s e : ℕ) : Prop where
  /-- The column of `e`. -/
  target : (∃ v, jp.ReachesClear e s v ∧ (jp.vert v).seqNum = (jp.vert e).seqNum) →
    ∃ v, jp.ReachesThrough vs e s v ∧ (jp.vert v).seqNum = (jp.vert e).seqNum
  /-- Enough columns. -/
  majority : jp.MajorityHas (jp.ReachesClear e s) → jp.MajorityHas (jp.ReachesThrough vs e s)

section Verdicts

variable {jp jp' : JPGraph} {s e cluster : ℕ} {vs ws : Finset ℕ}

/-- Enough columns have a vertex with a weaker property. -/
theorem MajorityHas.mono {p q : ℕ → Prop} (h : jp.MajorityHas p) (hpq : ∀ v, p v → q v) :
    jp.MajorityHas q := by
  obtain ⟨cols, hcard, hcols⟩ := h
  refine ⟨cols, hcard, fun i hi => ?_⟩
  obtain ⟨v, hv, hnumber⟩ := hcols i hi
  exact ⟨v, hpq v hv, hnumber⟩

/-- More vertices are enough as well. -/
theorem KeepsColumns.mono (h : jp.KeepsColumns vs s e) (hsub : vs ⊆ ws) :
    jp.KeepsColumns ws s e where
  target hclear := by
    obtain ⟨v, hv, hnumber⟩ := h.target hclear
    exact ⟨v, Search.Meets.mono hsub hv, hnumber⟩
  majority hclear := (h.majority hclear).mono fun _ hv => Search.Meets.mono hsub hv

/-- All vertices are enough. -/
theorem keepsColumns_of_all (hlinks : ∀ v < jp.verts.next, ∀ w ∈ jp.parents v, w < jp.verts.next)
    (hs : s < jp.verts.next) (hvs : ∀ v < jp.verts.next, v ∈ vs) : jp.KeepsColumns vs s e := by
  have hthrough (v : ℕ) (hv : jp.ReachesClear e s v) : jp.ReachesThrough vs e s v := by
    refine Search.Meets.within hv fun u hu => .inr (hvs u ?_)
    have hclear : jp.ReachesClear e s u := hu
    exact Reaches.lt hlinks hs hclear.reaches
  exact ⟨fun ⟨v, hv, hnumber⟩ => ⟨v, hthrough v hv, hnumber⟩, fun h => h.mono hthrough⟩

theorem vert_allWhite (jp : JPGraph) (cluster v : ℕ) :
    (jp.allWhite cluster).vert v = (jp.vert v).white cluster :=
  Heap.get_map (g := Vertex.white cluster) rfl jp.verts v

/-- Only colours change. -/
theorem sameButColors_allWhite (jp : JPGraph) (cluster : ℕ) :
    SameButColors jp (jp.allWhite cluster) where
  rest := rfl
  next := Heap.next_map ..
  vert v := by
    rw [vert_allWhite]
    rfl

theorem white_allWhite (hcolored : jp.Colored) (hcluster : cluster < maxColorCluster) {v : ℕ}
    (hv : v < jp.verts.next) : ((jp.allWhite cluster).vert v).color[cluster]? = some .white := by
  rw [vert_allWhite, Vertex.white, List.getElem?_set_self]
  rw [hcolored v hv]
  exact hcluster

/-- Colours do not change what is reached. -/
theorem SameButColors.reachesThrough (h : SameButColors jp jp') (vs : Finset ℕ) (e s v : ℕ) :
    jp'.ReachesThrough vs e s v ↔ jp.ReachesThrough vs e s v := by
  have hparents : jp'.parents = jp.parents := funext h.parents
  have hback : jp'.turnsBack e = jp.turnsBack e := by
    funext u
    rw [Bool.eq_iff_iff, ← h.turnsBack e u]
    exact decide_eq_true_iff
  rw [ReachesThrough, ReachesThrough, hparents, hback]

theorem SameButColors.numbersOf (h : SameButColors jp jp') (met : Finset ℕ) :
    jp'.numbersOf met = jp.numbersOf met :=
  Finset.image_congr fun v _ => h.seqNum v

theorem SameButColors.strongSeen (h : SameButColors jp jp') (total : ℕ) :
    jp'.strongSeen total = jp.strongSeen total := by
  rw [h.rest]
  rfl

/-- `JudgeSee` judges by the columns that white vertices of a recoloured graph lead to. -/
theorem SameButColors.exists_judgeSee (hcolors : SameButColors jp jp') (h : jp.Bounded)
    (hs : s < jp.verts.next) (he : e < jp.verts.next) (cluster : ℕ) : ∃ met,
      (∀ v, v ∈ met ↔ jp.ReachesThrough (jp'.whites cluster) e s v) ∧
      (jp'.judgeSee s e cluster).map Prod.snd =
        .ok (decide ((jp.vert e).seqNum ∈ jp.numbersOf met),
          jp.strongSeen (jp.numbersOf met).card) := by
  have h' := h.colors hcolors
  obtain ⟨jp'', met, hmet, hjudge⟩ :=
    exists_judgeSee_whites (hcolors.next ▸ hs) (hcolors.next ▸ he) h'.links h'.numbers
  refine ⟨met, fun v => (hmet v).trans (hcolors.reachesThrough _ e s v), ?_⟩
  rw [hjudge, hcolors.seqNum, hcolors.numbersOf, hcolors.strongSeen]
  rfl

/-- On the white graph, `JudgeSee` judges by all that can be reached. -/
theorem Bounded.exists_judgeSee_allWhite (h : jp.Bounded) (hcolored : jp.Colored)
    (hcluster : cluster < maxColorCluster) (hs : s < jp.verts.next) (he : e < jp.verts.next) :
    ∃ met, (∀ v, v ∈ met ↔ jp.ReachesClear e s v) ∧
      ((jp.allWhite cluster).judgeSee s e cluster).map Prod.snd =
        .ok (decide ((jp.vert e).seqNum ∈ jp.numbersOf met),
          jp.strongSeen (jp.numbersOf met).card) := by
  have hcolors := sameButColors_allWhite jp cluster
  obtain ⟨met, hmet, hjudge⟩ := hcolors.exists_judgeSee h hs he cluster
  refine ⟨met, fun v => (hmet v).trans ?_, hjudge⟩
  refine ⟨fun hv => hv.of_within, fun hv => hv.within fun u hu => .inr ?_⟩
  have hclear : jp.ReachesClear e s u := hu
  have hlt := Reaches.lt h.links hs hclear.reaches
  exact mem_whites.mpr ⟨hcolors.next ▸ hlt, white_allWhite hcolored hcluster hlt⟩

/-- The verdicts are those on the white graph just when the white vertices are enough to judge. -/
theorem sameVerdicts_iff (h : jp.Bounded) (hcolored : jp.Colored)
    (hcluster : cluster < maxColorCluster) (hs : s < jp.verts.next) (he : e < jp.verts.next)
    (hcolors : SameButColors jp jp') :
    SameVerdicts jp' (jp.allWhite cluster) s e cluster ↔
      jp.KeepsColumns (jp'.whites cluster) s e := by
  obtain ⟨met, hmet, hjudge⟩ := hcolors.exists_judgeSee h hs he cluster
  obtain ⟨all, hall, hjudgeAll⟩ := h.exists_judgeSee_allWhite hcolored hcluster hs he
  have htarget {vs : Finset ℕ} {p : ℕ → Prop} (hvs : ∀ v, v ∈ vs ↔ p v) :
      (jp.vert e).seqNum ∈ jp.numbersOf vs ↔
        ∃ v, p v ∧ (jp.vert v).seqNum = (jp.vert e).seqNum := by
    simp only [JPGraph.numbersOf, Finset.mem_image, hvs]
  have hclear (v : ℕ) (hv : jp.ReachesThrough (jp'.whites cluster) e s v) :
      jp.ReachesClear e s v := hv.of_within
  have hsame : SameVerdicts jp' (jp.allWhite cluster) s e cluster ↔
      ((jp.vert e).seqNum ∈ jp.numbersOf met ↔ (jp.vert e).seqNum ∈ jp.numbersOf all) ∧
        (jp.strongSeen (jp.numbersOf met).card = true ↔
          jp.strongSeen (jp.numbersOf all).card = true) := by
    rw [SameVerdicts, hjudge, hjudgeAll]
    simp only [Except.ok.injEq, exists_eq_left', Prod.mk.injEq, decide_eq_decide]
    rw [← Bool.eq_iff_iff]
    exact and_congr iff_comm eq_comm
  rw [hsame, htarget hmet, htarget hall, strongSeen_iff_majorityHas hmet,
    strongSeen_iff_majorityHas hall]
  constructor
  · rintro ⟨htarget, hmajority⟩
    exact ⟨htarget.mpr, hmajority.mpr⟩
  · intro hkeeps
    refine ⟨⟨fun htarget => ?_, hkeeps.target⟩, ?_⟩
    · obtain ⟨v, hv, hnumber⟩ := htarget
      exact ⟨v, hclear v hv, hnumber⟩
    · exact ⟨fun hmajority => hmajority.mono hclear, hkeeps.majority⟩

end Verdicts

end JPGraph

/-- What happens next: a call of the node, or a call that searches in one cluster of colours. -/
inductive SearchMove
  /-- A call of the node. -/
  | call (m : Move)
  /-- `clearColorDFS`. -/
  | clear (idx : ℕ) (order : List Address)
  /-- `JudgeSee`. -/
  | judge (s e : ℕ)

namespace Site

/-- One call runs. -/
def searchStep (keccak : List UInt8 → Hash) (cluster : ℕ) (site : Site) :
    SearchMove → Except Stop Site
  | .call m => site.step keccak m
  | .clear idx order =>
    (site.graph.clearColorDFS idx cluster order).map fun jp => { site with graph := jp }
  | .judge s e => (site.graph.judgeSee s e cluster).map fun r => { site with graph := r.1 }

variable {keccak : List UInt8 → Hash} {cluster : ℕ} {site : Site}

/-- Every call leaves the graph in order. -/
theorem inOrder_searchStep (h : site.graph.InOrder) (m : SearchMove) :
    Ensures (site.searchStep keccak cluster m) fun site' => site'.graph.InOrder := by
  cases m with
  | call m =>
    intro site' hsite'
    exact ⟨h.linked.step m site' hsite', numbered_step h.linked h.numbered m site' hsite',
      ready_step h.linked h.ready m site' hsite', colored_step h.linked h.colored m site' hsite'⟩
  | clear idx order =>
    exact .map (site.graph.painted_clearColorDFS _ _ _) fun _ hjp => h.painted hjp
  | judge s e => exact .map (site.graph.painted_judgeSee _ _ _) fun _ hr => h.painted hr

/-- The graph is in order after every run. -/
theorem inOrder_of_run {coinbase : Address} {broadness : ℕ} {moves : List SearchMove}
    (hrun : run (searchStep keccak cluster) (newSite coinbase broadness) moves = .ok site) :
    site.graph.InOrder := by
  have hinit : (newSite coinbase broadness).graph.InOrder :=
    ⟨linked_newSite coinbase broadness, numbered_newSite coinbase broadness,
      ready_newSite coinbase broadness, fun v hv => absurd hv (Nat.not_lt_zero v)⟩
  have hstep (site : Site) (m : SearchMove) (h : site.graph.InOrder) :
      Ensures (site.searchStep keccak cluster m) fun site' => site'.graph.InOrder :=
    inOrder_searchStep h m
  exact run_preserves hstep hinit moves site hrun

end Site

/-- After every run of calls and searches, `JudgeSee` gives the verdicts of the white graph
exactly when the vertices that `clearColorDFS` left white are enough to judge. It does so if the
walks by hash end and the vertices that were white before or are cleared are enough. -/
theorem judgeSee_afterClear (keccak : List UInt8 → Hash) {coinbase : Address} {broadness : ℕ}
    {cluster : ℕ} (hcluster : cluster < maxColorCluster) {moves : List SearchMove} {site : Site}
    (hrun : run (Site.searchStep keccak cluster) (newSite coinbase broadness) moves = .ok site)
    (hbroadness : site.graph.broadness = site.graph.size) {s e : ℕ}
    (hs : s < site.graph.verts.next) (he : e < site.graph.verts.next) (idx : ℕ)
    (order : List Address) :
    (∀ jp, site.graph.clearColorDFS idx cluster order = .ok jp →
      (JPGraph.SameVerdicts jp (site.graph.allWhite cluster) s e cluster ↔
        site.graph.KeepsColumns (jp.whites cluster) s e)) ∧
    (site.graph.RefsEnd →
      site.graph.KeepsColumns (site.graph.whites cluster ∪ site.graph.cleared idx) s e →
        ∃ jp, site.graph.clearColorDFS idx cluster order = .ok jp ∧
          JPGraph.SameVerdicts jp (site.graph.allWhite cluster) s e cluster) := by
  have horder := Site.inOrder_of_run hrun
  have hexact (jp : JPGraph) (hjp : site.graph.clearColorDFS idx cluster order = .ok jp) :
      JPGraph.SameVerdicts jp (site.graph.allWhite cluster) s e cluster ↔
        site.graph.KeepsColumns (jp.whites cluster) s e :=
    JPGraph.sameVerdicts_iff (horder.bounded hbroadness) horder.colored hcluster hs he
      (site.graph.sameButColors_clearColorDFS _ _ _ jp hjp)
  refine ⟨hexact, fun hrefs hkeeps => ?_⟩
  obtain ⟨jp, hjp, hwhites⟩ := JPGraph.exists_clearColorDFS horder hrefs hcluster idx order
  exact ⟨jp, hjp, (hexact jp hjp).mpr (hkeeps.mono hwhites)⟩

/-- Node `0x0a` of three after the given calls and searches for strong sees. -/
def searchedSite (keccak : List UInt8 → Hash) (moves : List SearchMove) : Site :=
  (run (Site.searchStep keccak colorClusterRound) (newSite (FixedBytes.ofNat 20 0x0A) 3)
    moves).toOption.getD (newSite (FixedBytes.ofNat 20 0x0A) 3)

/-- The triangle and `eventC` in round 0, and then a search from `eventA2` for `eventA1`. -/
def triangleSearch : List SearchMove :=
  (arriving [eventA1, eventB, eventA2, eventC]).map .call ++ [.clear 0 [], .judge 2 0]

/-- The graph after that search. -/
def triangleSearched : JPGraph := (searchedSite asideKeccak triangleSearch).graph

/-- Within round 0 everything is cleared, and the next search gives the verdicts of the white
graph. -/
theorem judgeSee_afterClear_triangle :
    ∃ jp, triangleSearched.clearColorDFS 0 colorClusterRound [] = .ok jp ∧
      JPGraph.SameVerdicts jp (triangleSearched.allWhite colorClusterRound) 2 0
        colorClusterRound := by
  obtain ⟨hreached, hbroadness, hs, hrefs, hlinks, hcleared⟩ :
      (run (Site.searchStep asideKeccak colorClusterRound) (newSite (FixedBytes.ofNat 20 0x0A) 3)
        triangleSearch).toOption.isSome = true ∧
      triangleSearched.broadness = triangleSearched.size ∧ 2 < triangleSearched.verts.next ∧
      triangleSearched.RefsEnd ∧
      (∀ v < triangleSearched.verts.next, ∀ w ∈ triangleSearched.parents v,
        w < triangleSearched.verts.next) ∧
      ∀ v < triangleSearched.verts.next,
        v ∈ triangleSearched.whites colorClusterRound ∪ triangleSearched.cleared 0 := by
    decide +kernel
  have hrun : run (Site.searchStep asideKeccak colorClusterRound)
      (newSite (FixedBytes.ofNat 20 0x0A) 3) triangleSearch =
        .ok (searchedSite asideKeccak triangleSearch) := eq_ok_getD hreached _
  have he : 0 < triangleSearched.verts.next := by omega
  unfold triangleSearched at *
  exact (judgeSee_afterClear asideKeccak (by decide) hrun hbroadness hs he 0 []).2 hrefs
    (JPGraph.keepsColumns_of_all hlinks hs hcleared)

/-- The third event of creator `0x0a`, on top of `eventA2` and in round 1. -/
def eventA3 : Event ℤ :=
  plainEvent 6 0x0A eventA2.selfHash (FixedBytes.zero 32) 0 1
    (FixedBytes.ofNat 32 0x336897a8f4a48388bd0be1da274f636a9255afddf280ae1c1912dc3738e0ab1e)

/-- Keccak-256 on the hash inputs of the triangle, of `eventC` and of `eventA3`. -/
def laterKeccak : List UInt8 → Hash :=
  tabulated ([eventA1, eventB, eventA2, eventC, eventA3].map fun e => (e.checkInput, e.selfHash))

/-- The triangle in round 0, then `eventC` as a witness that opens round 1, and `eventA3` there. -/
def laterMoves : List Move :=
  arriving [eventA1, eventB, eventA2, inRound eventC 1] ++
    [.arrive (inRound eventC 1) Mark.witness, .roundLoop] ++ arriving [eventA3]

/-- In round 1, `eventA3` is judged against `eventC`, the witness of that round. -/
def laterSearch : List SearchMove := laterMoves.map .call ++ [.clear 1 [], .judge 4 3]

/-- The graph after that search. -/
def laterSearched : JPGraph := (searchedSite laterKeccak laterSearch).graph

/-- `eventA2` is not of round 1 and stays black. On the white graph `eventA3` strongly sees
`eventC`, and in a second search it does not. -/
theorem not_judgeSee_afterClear_later :
    run (Site.searchStep laterKeccak colorClusterRound) (newSite (FixedBytes.ofNat 20 0x0A) 3)
        laterSearch = .ok (searchedSite laterKeccak laterSearch) ∧
      laterSearched.broadness = laterSearched.size ∧ laterSearched.entry 1 2 = some 3 ∧
      ¬ ∃ jp, laterSearched.clearColorDFS 1 colorClusterRound [] = .ok jp ∧
        JPGraph.SameVerdicts jp (laterSearched.allWhite colorClusterRound) 4 3
          colorClusterRound := by
  obtain ⟨hreached, hbroadness, hentry, hstale, hclean⟩ :
      (run (Site.searchStep laterKeccak colorClusterRound) (newSite (FixedBytes.ofNat 20 0x0A) 3)
        laterSearch).toOption.isSome = true ∧
      laterSearched.broadness = laterSearched.size ∧ laterSearched.entry 1 2 = some 3 ∧
      ((laterSearched.clearColorDFS 1 colorClusterRound []).bind fun jp =>
        (jp.judgeSee 4 3 colorClusterRound).map Prod.snd).toOption = some (false, false) ∧
      (((laterSearched.allWhite colorClusterRound).judgeSee 4 3 colorClusterRound).map
        Prod.snd).toOption = some (false, true) := by
    decide +kernel
  refine ⟨eq_ok_getD hreached _, hbroadness, hentry, ?_⟩
  rintro ⟨jp, hjp, verdicts, hcleared, hwhite⟩
  rw [hjp, Except.bind, hcleared] at hstale
  rw [hwhite] at hclean
  exact absurd (hstale.symm.trans hclean) (by decide)

end Hashgrid.Core
