import Hashgrid.Core.InOrder
import Mathlib.Data.List.TakeWhile

/-!
# What the clearing pass whitens

`clearColorDFS` follows the hashes of self parents through every column. It skips the
vertices above the newest one of the round and whitens from there on, as long as the
vertices are of the round.
-/

namespace Hashgrid.Core

open Hashgrid.Bytes Hashgrid.Machine Hashgrid.Links Hashgrid.Walks

namespace JPGraph

/-- The vertex is of the round. -/
def ofRound (jp : JPGraph) (idx v : ℕ) : Bool := jp.roundID v = some (idx : ℤ)

/-- The vertices that `clearColorDFS` whitens in a column. -/
def segment (jp : JPGraph) (idx c : ℕ) : List ℕ :=
  ((trail (jp.hashNext c) ((jp.col c).hashChain.entries.length + 1) (jp.col c).verTop).dropWhile
    fun v => !jp.ofRound idx v).takeWhile (jp.ofRound idx)

/-- The vertices that `clearColorDFS` whitens for sure: a starter that an earlier column left
may add some. -/
def cleared (jp : JPGraph) (idx : ℕ) : Finset ℕ :=
  (jp.graph.entries.flatMap fun entry => jp.segment idx entry.2).toFinset

/-- From every vertex, the walk along the hashes leaves every column. -/
def RefsEnd (jp : JPGraph) : Prop :=
  ∀ c < jp.cols.next, ∀ v < jp.verts.next,
    visit (jp.hashNext c) (some v) ((jp.col c).hashChain.entries.length + 1) = none

instance (jp : JPGraph) : Decidable jp.RefsEnd :=
  inferInstanceAs (Decidable (∀ c, c < _ → ∀ v, v < _ → _))

/-- Make some vertices white. -/
def whitened (jp : JPGraph) (cluster : ℕ) (vs : List ℕ) : JPGraph :=
  vs.foldl (fun jp v => jp.paint cluster .white v) jp

theorem painted_whitened (jp : JPGraph) (cluster : ℕ) (vs : List ℕ) :
    Painted cluster jp (jp.whitened cluster vs) := by
  induction vs generalizing jp with
  | nil => exact .refl
  | cons v vs ih => exact (Painted.refl.paint .white v).trans (ih _)

/-- A vertex that is painted white is white. -/
theorem whites_paint_white {jp : JPGraph} (hcolored : jp.Colored) {cluster v : ℕ}
    (hcluster : cluster < maxColorCluster) (hv : v < jp.verts.next) :
    (jp.paint cluster .white v).whites cluster = insert v (jp.whites cluster) := by
  ext u
  rw [Finset.mem_insert, mem_whites, mem_whites, (sameButColors_paint ..).next]
  by_cases huv : u = v
  · refine iff_of_true ⟨huv ▸ hv, ?_⟩ (.inl huv)
    rw [huv, paint, vert, setVert, Heap.get_update_self hv, List.getElem?_set_self]
    rw [show (jp.verts.get v).color.length = maxColorCluster from hcolored v hv]
    exact hcluster
  · rw [paint, vert, setVert, Heap.get_update_ne _ huv]
    exact ⟨.inr, fun h => h.resolve_left huv⟩

/-- Which vertices are white after some were made white. -/
theorem whites_whitened {jp : JPGraph} (hcolored : jp.Colored) {cluster : ℕ}
    (hcluster : cluster < maxColorCluster) {vs : List ℕ} (hvs : ∀ v ∈ vs, v < jp.verts.next) :
    (jp.whitened cluster vs).whites cluster = jp.whites cluster ∪ vs.toFinset := by
  induction vs generalizing jp with
  | nil => simp [whitened]
  | cons v vs ih =>
    obtain ⟨hv, hvs⟩ := List.forall_mem_cons.mp hvs
    have hpaint : Painted cluster jp (jp.paint cluster .white v) := Painted.refl.paint .white v
    have hnext := (sameButColors_paint jp cluster .white v).next
    rw [whitened, List.foldl_cons, ← whitened, ih (hcolored.congr hpaint.palettes) (hnext ▸ hvs),
      whites_paint_white hcolored hcluster hv, List.toFinset_cons, Finset.insert_union,
      Finset.union_insert]

theorem SameButColors.derefRound {jp jp' : JPGraph} (h : SameButColors jp jp') (v : ℕ) :
    jp'.derefRound (jp'.vert v).event = jp.derefRound (jp.vert v).event :=
  h.alike.derefRound v

theorem SameButColors.hashNext {jp jp' : JPGraph} (h : SameButColors jp jp') (c v : ℕ) :
    (jp'.col c).hashChain.lookup (jp'.vert v).event.selfPart = jp.hashNext c v := by
  rw [h.alike.col, h.alike.event]
  rfl

/-- Reading the round number of a vertex that has one. -/
theorem exists_derefRound {jp : JPGraph} {v : ℕ} (h : (jp.vert v).event.roundID ≠ none) :
    ∃ r, jp.derefRound (jp.vert v).event = .ok r ∧
      ∀ idx : ℕ, jp.ofRound idx v = decide (r = idx) := by
  obtain ⟨k, hk⟩ := Option.ne_none_iff_exists'.mp h
  refine ⟨jp.cells.get k, ?_, fun idx => ?_⟩
  · simp [JPGraph.derefRound, roundOf, hk]
  · simp [ofRound, roundID, roundOf, hk]

section Loops

variable {jp jp' : JPGraph} {c idx turns : ℕ} {start : Option ℕ} {l : List ℕ}

/-- The first loop of `clearColorDFS` finds the newest vertex of the round on the walk. -/
theorem findOfRound_eq (hcolors : SameButColors jp jp') (hwalk : Walk (jp.hashNext c) start l)
    (hpointer : ∀ v ∈ l, (jp.vert v).event.roundID ≠ none) (hturns : l.length ≤ turns) :
    jp'.findOfRound c idx turns start = .ok (l.find? (jp.ofRound idx)) := by
  induction hwalk generalizing turns with
  | nil => cases turns <;> rfl
  | @cons v rest _ ih =>
    obtain ⟨hv, hpointer⟩ := List.forall_mem_cons.mp hpointer
    obtain ⟨r, hr, hround⟩ := exists_derefRound hv
    obtain ⟨turns, rfl⟩ := Nat.exists_eq_succ_of_ne_zero (show turns ≠ 0 by
      rw [List.length_cons] at hturns
      omega)
    have hrest := ih hpointer (Nat.le_of_succ_le_succ hturns)
    simp only [findOfRound, hcolors.derefRound, hcolors.hashNext, hr, bind, Except.bind]
    by_cases hidx : r = idx
    · rw [if_pos hidx, List.find?_cons_of_pos (by rw [hround]; exact decide_eq_true hidx)]
      rfl
    · rw [if_neg hidx, List.find?_cons_of_neg (by rw [hround]; simpa using hidx)]
      exact hrest

/-- The second loop of `clearColorDFS` whitens the walk as long as it is in the round. -/
theorem whiten_eq {cluster : ℕ} (hcolors : SameButColors jp jp')
    (hwalk : Walk (jp.hashNext c) start l)
    (hpointer : ∀ v ∈ l, (jp.vert v).event.roundID ≠ none) (hturns : l.length ≤ turns) :
    whiten c idx cluster turns start jp' =
      .ok (jp'.whitened cluster (l.takeWhile (jp.ofRound idx))) := by
  induction hwalk generalizing turns jp' with
  | nil => cases turns <;> rfl
  | @cons v rest _ ih =>
    obtain ⟨hv, hpointer⟩ := List.forall_mem_cons.mp hpointer
    obtain ⟨r, hr, hround⟩ := exists_derefRound hv
    obtain ⟨turns, rfl⟩ := Nat.exists_eq_succ_of_ne_zero (show turns ≠ 0 by
      rw [List.length_cons] at hturns
      omega)
    have hrest := ih (hcolors.trans (sameButColors_paint jp' cluster .white v)) hpointer
      (Nat.le_of_succ_le_succ hturns)
    simp only [whiten, hcolors.derefRound, hcolors.hashNext, hr, bind, Except.bind]
    by_cases hidx : r = idx
    · rw [if_pos hidx, List.takeWhile_cons_of_pos (by rw [hround]; exact decide_eq_true hidx)]
      exact hrest
    · rw [if_neg hidx, List.takeWhile_cons_of_neg (by rw [hround]; simpa using hidx)]
      rfl

end Loops

/-- Walks by hash do not depend on colours. -/
theorem RefsEnd.colors {jp jp' : JPGraph} (h : jp.RefsEnd) (hcolors : SameButColors jp jp') :
    jp'.RefsEnd := by
  intro c hc v hv
  have hnext : jp'.hashNext c = jp.hashNext c := funext (hcolors.hashNext c)
  have hcols : jp'.cols = jp.cols := by rw [hcolors.rest]
  rw [hnext, hcolors.alike.col]
  exact h c (hcols ▸ hc) v (hcolors.next ▸ hv)

section Pass

variable {jp : JPGraph} {idx cluster c : ℕ} {a : Address} {start : Option ℕ}
  {st : JPGraph × Option ℕ} {done : List Address}

/-- The walk from a vertex along the hashes of a column. -/
theorem RefsEnd.walk (h : jp.RefsEnd) (hc : c < jp.cols.next)
    (hstart : ∀ v, start = some v → v < jp.verts.next) : Walk (jp.hashNext c) start
      (trail (jp.hashNext c) ((jp.col c).hashChain.entries.length + 1) start) := by
  cases start with
  | none => exact .nil
  | some v => exact walk_trail (h c hc v (hstart v rfl))

/-- The walk of the first loop in a column. -/
theorem InOrder.columnTrail (h : jp.InOrder) (hrefs : jp.RefsEnd) (hc : jp.graph.lookup a = some c)
    (hstart : ∀ v, start = some v → v < jp.verts.next) : ∃ l,
      l = trail (jp.hashNext c) ((jp.col c).hashChain.entries.length + 1) start ∧
      Walk (jp.hashNext c) start l ∧ l.length ≤ (jp.col c).hashChain.entries.length + 1 ∧
      ∀ v ∈ l, v < jp.verts.next := by
  have hwalk := hrefs.walk (h.linked.wf.col_lt a c hc) hstart
  exact ⟨_, rfl, hwalk, length_trail_le _ _ _, hwalk.forall_mem (h.hashNext_lt hc) hstart⟩

/-- The walk of the second loop starts at the newest vertex of the round or, if there is none, at
the starter that an earlier column left. -/
theorem InOrder.starterTrail (h : jp.InOrder) (hrefs : jp.RefsEnd)
    (hc : jp.graph.lookup a = some c) {left : Option ℕ}
    (hleft : ∀ v, left = some v → v < jp.verts.next) (idx : ℕ) :
    ∃ l, Walk (jp.hashNext c) ((trail (jp.hashNext c) ((jp.col c).hashChain.entries.length + 1)
        (jp.col c).verTop).find? (jp.ofRound idx) <|> left) l ∧
      l.length ≤ (jp.col c).hashChain.entries.length + 1 ∧ (∀ v ∈ l, v < jp.verts.next) ∧
      ∀ v ∈ jp.segment idx c, v ∈ l.takeWhile (jp.ofRound idx) := by
  obtain ⟨l, hl, hwalk, hlen, hmem⟩ := h.columnTrail hrefs hc (h.verTop_lt hc)
  unfold segment
  rw [← hl]
  cases hfound : l.find? (jp.ofRound idx) with
  | some v =>
    have hwalk' := hwalk.find? (jp.ofRound idx)
    rw [hfound] at hwalk'
    have hsub : l.dropWhile (fun v => !jp.ofRound idx v) ⊆ l := (List.dropWhile_suffix _).subset
    exact ⟨_, hwalk', (List.length_dropWhile_le _ _).trans hlen, fun v hv => hmem v (hsub hv),
      fun v hv => hv⟩
  | none =>
    obtain ⟨l', -, hwalk', hlen', hmem'⟩ := h.columnTrail hrefs hc hleft
    have hnil : l.dropWhile (fun v => !jp.ofRound idx v) = [] := by
      rw [List.dropWhile_eq_nil_iff]
      intro v hv
      simpa using List.find?_eq_none.mp hfound v hv
    rw [hnil]
    exact ⟨l', hwalk', hlen', hmem', fun v hv => nomatch hv⟩

/-- How far `clearColorDFS` is: the given addresses are done. -/
structure Clears (jp : JPGraph) (idx cluster : ℕ) (done : List Address)
    (st : JPGraph × Option ℕ) : Prop where
  /-- Vertices were painted. -/
  painted : Painted cluster jp st.1
  /-- The starter is a vertex. -/
  starter : ∀ v, st.2 = some v → v < jp.verts.next
  /-- White vertices stay white. -/
  whites : jp.whites cluster ⊆ st.1.whites cluster
  /-- The vertices of the round in the columns that are done are white. -/
  segments : ∀ a ∈ done, ∀ c, jp.graph.lookup a = some c →
    ∀ v ∈ jp.segment idx c, v ∈ st.1.whites cluster

/-- `clearColorDFS` goes on to the next column. -/
theorem Clears.column (h : jp.InOrder) (hrefs : jp.RefsEnd) (hcluster : cluster < maxColorCluster)
    (hst : Clears jp idx cluster done st) (a : Address) :
    ∃ st', clearColumn idx cluster st a = .ok st' ∧
      Clears jp idx cluster (a :: done) st' := by
  have hcolors := hst.painted.sameButColors
  unfold clearColumn
  rw [hcolors.alike.graph]
  cases hc : jp.graph.lookup a with
  | none =>
    refine ⟨st, rfl, hst.painted, hst.starter, hst.whites, fun b hb d hd => ?_⟩
    rcases List.mem_cons.mp hb with rfl | hb
    · exact absurd (hc.symm.trans hd) (by simp)
    · exact hst.segments b hb d hd
  | some c =>
    obtain ⟨l, hl, hwalk, hlen, hmem⟩ := h.columnTrail hrefs hc (h.verTop_lt hc)
    obtain ⟨l', hwalk', hlen', hmem', hsegment⟩ := h.starterTrail hrefs hc hst.starter idx
    rw [← hl] at hwalk'
    have hfind : st.1.findOfRound c idx _ _ = _ :=
      findOfRound_eq hcolors hwalk (fun v hv => h.ready.pointer v (hmem v hv)) hlen
    have hwhiten : whiten c idx cluster _ _ st.1 = _ :=
      whiten_eq hcolors hwalk' (fun v hv => h.ready.pointer v (hmem' v hv)) hlen'
    have hround : ∀ v ∈ l'.takeWhile (jp.ofRound idx), v < st.1.verts.next := by
      intro v hv
      rw [hcolors.next]
      exact hmem' v ((List.takeWhile_prefix _).subset hv)
    have hwhites := whites_whitened (h.colored.congr hst.painted.palettes) hcluster hround
    have hgrown := hwhites.symm ▸ Finset.subset_union_left
    dsimp only
    rw [hcolors.alike.col, hfind]
    simp only [bind, Except.bind, hwhiten]
    -- a starter that was left only adds white vertices, so the segment is white in either case
    refine ⟨_, rfl, hst.painted.trans (painted_whitened _ _ _), fun v hv => ?_, ?_, ?_⟩
    · rw [show (l.find? (jp.ofRound idx) <|> st.2) = some v from hv] at hwalk'
      cases hwalk' with
      | cons _ => exact hmem' v List.mem_cons_self
    · exact hst.whites.trans hgrown
    · intro b hb d hd v hv
      rcases List.mem_cons.mp hb with rfl | hb
      · cases hc.symm.trans hd
        rw [hwhites]
        exact Finset.mem_union_right _ (List.mem_toFinset.mpr (hsegment v hv))
      · exact hgrown (hst.segments b hb d hd v hv)

/-- `clearColorDFS` goes through the columns. -/
theorem Clears.columns (h : jp.InOrder) (hrefs : jp.RefsEnd) (hcluster : cluster < maxColorCluster)
    (as : List Address) (hst : Clears jp idx cluster done st) :
    ∃ st', as.foldlM (clearColumn idx cluster) st = .ok st' ∧
      Clears jp idx cluster (as.reverse ++ done) st' := by
  induction as generalizing done st with
  | nil => exact ⟨st, rfl, hst⟩
  | cons a as ih =>
    obtain ⟨st₁, hst₁, hclears⟩ := hst.column h hrefs hcluster a
    obtain ⟨st', hst', hclears'⟩ := ih hclears
    refine ⟨st', ?_, ?_⟩
    · rw [List.foldlM_cons, hst₁]
      exact hst'
    · rwa [List.reverse_cons, List.append_assoc]

/-- `clearColorDFS` returns, and afterwards the vertices are white that were so before or that it
clears. -/
theorem exists_clearColorDFS (h : jp.InOrder) (hrefs : jp.RefsEnd)
    (hcluster : cluster < maxColorCluster) (idx : ℕ) (order : List Address) :
    ∃ jp', jp.clearColorDFS idx cluster order = .ok jp' ∧
      jp.whites cluster ∪ jp.cleared idx ⊆ jp'.whites cluster := by
  have hinit : Clears jp idx cluster [] (jp, none) :=
    ⟨.refl, fun _ hv => (nomatch hv), Finset.Subset.refl _, List.forall_mem_nil _⟩
  unfold clearColorDFS
  generalize has : (if order.Perm jp.graph.keys then order else jp.graph.keys) = as
  have hkeys : ∀ a ∈ jp.graph.keys, a ∈ as := by
    intro a ha
    rw [← has]
    split_ifs with hperm
    · exact hperm.mem_iff.mpr ha
    · exact ha
  obtain ⟨st, hst, hclears⟩ := hinit.columns h hrefs hcluster as
  refine ⟨st.1, by rw [hst]; rfl, Finset.union_subset hclears.whites fun v hv => ?_⟩
  obtain ⟨entry, hentry, hv⟩ := List.mem_flatMap.mp (List.mem_toFinset.mp hv)
  have hmem : entry.1 ∈ as.reverse ++ [] := by
    rw [List.append_nil, List.mem_reverse]
    exact hkeys _ (List.mem_map_of_mem hentry)
  exact hclears.segments _ hmem _ (AList.mem_lookup_iff.mpr hentry) v hv

end Pass

end JPGraph

end Hashgrid.Core
