import Hashgrid.Core.Numbers
import Hashgrid.Core.SelfWalk

/-!
# Columns

The map of a column, its top, the chain of self parents and the witness mark of the first
vertex are four views of the same vertices. They agree after every run.
-/

namespace Hashgrid.Core

open Hashgrid.Bytes Hashgrid.Machine Hashgrid.Links Hashgrid.Walks

/-- The vertex that `MonitorLoop` has in hand. -/
def MonitorPc.vertex : MonitorPc → Option ℕ
  | .front => none
  | .receive _ => none
  | .put v => some v
  | .mark v => some v
  | .trigger v => some v

/-- The vertex was announced to `MonitorLoop`, and `MonitorLoop` has not finished with it. -/
def Site.Announced (s : Site) (v : ℕ) : Prop :=
  v ∈ s.graph.selfEventCreated ∨ s.monitor.pc.vertex = some v

variable {keccak : List UInt8 → Hash} {s : Site}

/-- `AddEvent` announces the new vertex only, and only if it is not the first of its column. -/
theorem JPGraph.AddEffect.announces {jp jp' : JPGraph} {e : Event ℕ} {ty : ℕ}
    (h : AddEffect keccak jp e ty jp') (hwf : jp.Wf) {v : ℕ} (hv : v ∈ jp'.selfEventCreated) :
    v ∈ jp.selfEventCreated ∨ v < jp'.verts.next ∧ (jp'.vert v).selfPt ≠ none := by
  have hcolumns : (jp.withColumns e).selfEventCreated = jp.selfEventCreated :=
    read_withColumns (fun _ _ _ _ => by rfl) jp e
  cases h with
  | rejected _ hgraph => exact Or.inl (hgraph ▸ hv)
  | known _ u _ hgraph =>
    rw [hgraph] at hv
    split_ifs at hv
    · exact Or.inl (hcolumns ▸ hv)
    · exact Or.inl (hcolumns ▸ hv)
  | stored _ _ x i _ _ _ hgraph =>
    rw [hgraph.selfEventCreated, signalCreated_eq] at hv
    have hrecorded : (jp.recordedIn e ty i).selfEventCreated = jp.selfEventCreated := by
      unfold recordedIn
      split_ifs <;> exact hcolumns
    dsimp only at hv
    rw [hrecorded] at hv
    rcases List.mem_append.mp hv with hold | hnew
    · exact Or.inl hold
    · right
      split_ifs at hnew with hsignal
      · obtain rfl := List.mem_singleton.mp hnew
        have hvert := vert_recordedIn hwf e ty i jp.verts.next
        rw [if_pos rfl] at hvert
        have hstored := vert_stored hwf e ty i jp.verts.next
        rw [if_pos rfl] at hstored
        refine ⟨?_, ?_⟩
        · rw [hgraph.next, signalCreated_eq, next_recordedIn hwf]
          exact Nat.lt_succ_self _
        · -- A first vertex is entered as a witness, so it would not be announced.
          rw [hgraph.selfPt, hstored]
          intro hfirst
          have henters : jp.EntersWitness e ty := Or.inr hfirst
          have hmark := hsignal.2
          simp only [hvert, henters, if_true] at hmark
          exact absurd hmark (by decide)
      · cases hnew

/-- `MonitorLoop` only works on vertices that were announced, and marks the one in hand. -/
theorem monitorStep_marks (m : Monitor) (jp : JPGraph) (order : ℕ → List Address) :
    Ensures (m.step jp order) fun r =>
      (∀ v, v ∈ r.2.selfEventCreated ∨ r.1.pc.vertex = some v →
        v ∈ jp.selfEventCreated ∨ m.pc.vertex = some v) ∧
      ∀ v, (r.2.vert v).witness = (jp.vert v).witness ∨ m.pc.vertex = some v := by
  intro r hr
  cases monitorStep_effect m jp order r hr with
  | front i _ _ hmonitor hgraph =>
    rw [hgraph, hmonitor]
    exact ⟨fun v hv => Or.inl (hv.resolve_right (by simp [MonitorPc.vertex])), fun _ => Or.inl rfl⟩
  | receive i u rest _ hq hmonitor hgraph =>
    have hcreated : r.2.selfEventCreated = rest := hgraph.alike.selfEventCreated
    refine ⟨fun v hv => Or.inl ?_, fun v => Or.inl (hgraph.alike.witness v)⟩
    rw [hq]
    rcases hv with hv | hv
    · exact List.mem_cons_of_mem u (hcreated ▸ hv)
    · rcases hmonitor with hfront | hput
      · rw [hfront] at hv
        cases hv
      · rw [hput] at hv
        exact Option.some.inj hv ▸ List.mem_cons_self
  | put u hpc hmonitor hgraph =>
    rw [hgraph, hmonitor, hpc]
    exact ⟨fun _ hv => hv, fun _ => Or.inl rfl⟩
  | mark u hpc hmonitor hgraph =>
    rw [hgraph, hmonitor, hpc]
    refine ⟨fun _ hv => hv, fun v => ?_⟩
    rcases jp.vert_markVertex u Mark.witnessLocal v with heq | ⟨rfl, -⟩
    · exact Or.inl (congrArg Vertex.witness heq)
    · exact Or.inr rfl
  | trigger u _ hmonitor hgraph =>
    rw [hgraph, hmonitor]
    exact ⟨fun v hv => Or.inl (hv.resolve_right (by simp [MonitorPc.vertex])), fun _ => Or.inl rfl⟩

namespace Site

/-- The first vertex of every column is marked `Witness`, and `MonitorLoop` never gets it. -/
structure FirstMarked (s : Site) : Prop where
  /-- The first vertices are witnesses. -/
  witness : ∀ v < s.graph.verts.next, (s.graph.vert v).selfPt = none →
    (s.graph.vert v).witness = Mark.witness
  /-- Vertices that are announced are there and are not the first ones. -/
  announced : ∀ v, s.Announced v → v < s.graph.verts.next ∧ (s.graph.vert v).selfPt ≠ none

theorem firstMarked_newSite (coinbase : Address) (broadness : ℕ) :
    (newSite coinbase broadness).FirstMarked :=
  ⟨fun _ h => (nomatch h), fun _ h => h.elim (fun h => nomatch h) fun h => nomatch h⟩

/-- The moves that pass no event to `AddEvent` announce nothing, and mark what was announced. -/
theorem step_other_marks {m : Move} (h : s.added m = none) : Ensures (s.step keccak m) fun s' =>
      (∀ v, s'.Announced v → s.Announced v) ∧
        ∀ v, (s'.graph.vert v).witness = (s.graph.vert v).witness ∨ s.Announced v := by
  intro s' hs'
  cases otherMove h hs' with
  | compose now rand r hr heq =>
    obtain ⟨c, i, k, jp₁, -, -, -, -, hrests, hgraph⟩ :=
      s.graph.composeEvent_spec keccak now rand r hr
    rw [heq]
    refine ⟨fun v hv => ?_, fun v => Or.inl ?_⟩
    · unfold Announced at hv ⊢
      rw [hgraph, hrests.alike.selfEventCreated] at hv
      exact hv
    · rw [hgraph]
      exact hrests.alike.witness v
  | roundLoop jp hjp heq =>
    obtain ⟨v, rest, cell, -, -, -, -, hverts, hcreated⟩ := s.graph.roundTurn_frame jp hjp
    rw [heq]
    refine ⟨fun u hu => ?_, fun u => Or.inl ?_⟩
    · unfold Announced at hu ⊢
      rw [hcreated] at hu
      exact hu
    · exact congrArg (fun verts => (Heap.get verts u).witness) hverts
  | monitor order r hr heq =>
    obtain ⟨hannounced, hmarks⟩ := monitorStep_marks s.monitor s.graph order r hr
    rw [heq]
    exact ⟨hannounced, fun v => (hmarks v).imp id Or.inr⟩

/-- Every move keeps the first vertices marked. -/
theorem firstMarked_step (hlinked : Linked s.graph) (h : s.FirstMarked) (m : Move) :
    Ensures (s.step keccak m) FirstMarked := by
  intro s' hs'
  cases hadded : s.added m with
  | none =>
    have hless := step_other hadded s' hs'
    obtain ⟨hannounced, hmarks⟩ := step_other_marks hadded s' hs'
    have hnext : s'.graph.verts.next = s.graph.verts.next := by
      rw [← JPGraph.length_nodes_links, hless.links, JPGraph.length_nodes_links]
    have hself (v : ℕ) : (s'.graph.vert v).selfPt = (s.graph.vert v).selfPt :=
      congrFun (congrArg LinkGraph.selfPt hless.links) v
    refine ⟨fun v hv hfirst => ?_, fun v hv => ?_⟩
    · rw [hself] at hfirst
      rcases hmarks v with heq | hv'
      · rw [heq]
        exact h.witness v (hnext ▸ hv) hfirst
      · exact absurd hfirst (h.announced v hv').2
    · rw [hnext, hself]
      exact h.announced v (hannounced v hv)
  | some x =>
    obtain ⟨jp₀, e₀, hrec, hlinked₀, heffect, heq⟩ := step_effect hlinked hadded s' hs'
    have hverts : jp₀.verts = s.graph.verts := hrec.read fun _ _ => by rfl
    have hvert (v : ℕ) : jp₀.vert v = s.graph.vert v := congrArg (Heap.get · v) hverts
    have hnext := heffect.next_le hlinked₀.wf
    rw [hverts] at hnext
    have hkept {v : ℕ} (hv : v < s.graph.verts.next) := heffect.kept hlinked₀.wf (hverts ▸ hv)
    refine ⟨fun v hv hfirst => ?_, fun v hv => ?_⟩
    · by_cases hold : v < s.graph.verts.next
      · rw [(hkept hold).selfPt, hvert] at hfirst
        rcases (hkept hold).witness with hmark | hmark
        · rw [hmark, hvert]
          exact h.witness v hold hfirst
        · exact hmark
      · have hnew := (heffect.created hlinked₀.wf hv (by rw [hverts]; omega)).2
        have henters : jp₀.EntersWitness e₀ x.2 := Or.inr (hnew.selfPt.symm.trans hfirst)
        rw [hnew.witness, if_pos henters]
    · have hcases : s.Announced v ∨ v < s'.graph.verts.next ∧ (s'.graph.vert v).selfPt ≠ none := by
        rcases hv with hv | hv
        · have hcreated : jp₀.selfEventCreated = s.graph.selfEventCreated :=
            hrec.read fun _ _ => by rfl
          exact (heffect.announces hlinked₀.wf hv).imp (fun hv => Or.inl (hcreated ▸ hv)) id
        · rw [heq] at hv
          exact Or.inl (Or.inr hv)
      rcases hcases with hold | hnew
      · obtain ⟨hlt, hself⟩ := h.announced v hold
        refine ⟨Nat.lt_of_lt_of_le hlt hnext, ?_⟩
        rw [(hkept hlt).selfPt, hvert]
        exact hself
      · exact hnew

end Site

/-- The views of a column agree. -/
structure JPGraph.ColumnRep (jp : JPGraph) (a : Address) (c : ℕ) : Prop where
  /-- The map has every vertex under its hash, and only vertices of the column. -/
  keys : ∀ h v, (jp.col c).hashChain.lookup h = some v → (jp.vert v).event.selfHash = h ∧
    (jp.vert v).event.selfSig.addr = a ∧ (jp.vert v).seqNum = (jp.col c).seqNum
  /-- The walk along the self parents from the top ends, visits every vertex of the map just once
  and no other, and ends at the oldest one, which is marked `Witness`. -/
  walk : ∃ l, Walk jp.selfNext (jp.col c).verTop l ∧ l.Nodup ∧
    (∀ v, v ∈ l ↔ ∃ h, (jp.col c).hashChain.lookup h = some v) ∧
    ∀ v, l.getLast? = some v → (∀ u ∈ l, v ≤ u) ∧ (jp.vert v).witness = Mark.witness

/-- The columns of a graph in order. -/
theorem Site.columnRep (hlinked : Linked s.graph) (hnum : s.graph.Numbered) (hfirst : s.FirstMarked)
    {a : Address} {c : ℕ} (hc : s.graph.graph.lookup a = some c) : s.graph.ColumnRep a c := by
  have hheld (h : Hash) (v : ℕ) : (s.graph.col c).hashChain.lookup h = some v ↔
      v < s.graph.verts.next ∧ (s.graph.vert v).event.selfSig.addr = a ∧
        (s.graph.vert v).event.selfHash = h := by
    have hchain : s.graph.links.chain a h = (s.graph.col c).hashChain.lookup h := by
      simp only [JPGraph.links, hc, Option.bind_some]
    constructor
    · intro hlook
      obtain ⟨n, hn, haddr, hhash⟩ := hlinked.columnar.chain a h v (hchain.trans hlook)
      obtain ⟨hlt, rfl⟩ := JPGraph.nodes_links_eq hn
      exact ⟨hlt, haddr, hhash⟩
    · rintro ⟨hlt, rfl, rfl⟩
      exact hchain.symm.trans (hlinked.columnar.held v _ (JPGraph.nodes_links_of_lt hlt))
  constructor
  · intro h v hlook
    obtain ⟨hlt, haddr, hhash⟩ := (hheld h v).mp hlook
    exact ⟨hhash, haddr, hnum.vert v hlt c (haddr ▸ hc)⟩
  · obtain ⟨l, hwalk, hsorted, hmem⟩ := JPGraph.exists_walk hlinked.columnar hc
    refine ⟨l, hwalk, hsorted.imp fun hgt => Nat.ne_of_gt hgt, fun v => ?_, fun v hlast => ?_⟩
    · rw [hmem]
      constructor
      · rintro ⟨hlt, haddr⟩
        exact ⟨_, (hheld _ v).mpr ⟨hlt, haddr, rfl⟩⟩
      · rintro ⟨h, hlook⟩
        exact ⟨((hheld h v).mp hlook).1, ((hheld h v).mp hlook).2.1⟩
    · have hv : v ∈ l := List.mem_of_getLast? hlast
      refine ⟨fun u hu => ?_, hfirst.witness v ((hmem v).mp hv).1 (hwalk.next_getLast hlast)⟩
      obtain ⟨rest, rfl⟩ : ∃ rest, l = rest ++ [v] := List.getLast?_eq_some_iff.mp hlast
      rcases List.mem_append.mp hu with hu | hu
      · exact Nat.le_of_lt (List.pairwise_append.mp hsorted |>.2.2 u hu v List.mem_cons_self)
      · exact Nat.le_of_eq (List.mem_singleton.mp hu).symm

/-- After every run, the views of every column agree. -/
theorem columnRep_of_run (keccak : List UInt8 → Hash) {coinbase : Address} {broadness : ℕ}
    {moves : List Move} {s : Site}
    (hrun : run (Site.step keccak) (newSite coinbase broadness) moves = .ok s) :
    ∀ a c, s.graph.graph.lookup a = some c → s.graph.ColumnRep a c := by
  have hstep (s : Site) (m : Move)
      (h : Site.Linked s.graph ∧ s.graph.Numbered ∧ s.FirstMarked) : Ensures (s.step keccak m)
        fun s' => Site.Linked s'.graph ∧ s'.graph.Numbered ∧ s'.FirstMarked :=
    fun s' hs' => ⟨h.1.step m s' hs', s.numbered_step h.1 h.2.1 m s' hs',
      s.firstMarked_step h.1 h.2.2 m s' hs'⟩
  have hinit := And.intro (Site.linked_newSite coinbase broadness)
    (And.intro (numbered_newSite coinbase broadness) (Site.firstMarked_newSite coinbase broadness))
  obtain ⟨hlinked, hnum, hfirst⟩ := run_preserves hstep hinit moves s hrun
  exact fun a c hc => s.columnRep hlinked hnum hfirst hc

/-- The columns of the triangle at node `0x0a`. -/
theorem columnRep_triangle :
    (∃ c, (triangleSite [eventA1, eventA2, eventB]).graph.graph.lookup
        (FixedBytes.ofNat 20 0x0A) = some c) ∧
      ∀ a c, (triangleSite [eventA1, eventA2, eventB]).graph.graph.lookup a = some c →
        (triangleSite [eventA1, eventA2, eventB]).graph.ColumnRep a c :=
  ⟨⟨0, by decide +kernel⟩, columnRep_of_run triangleKeccak (run_siteAfter (by decide +kernel))⟩

end Hashgrid.Core
