import Hashgrid.Core.StoreEffect

/-!
# Column numbers

Columns are numbered in the order in which they are added, and every vertex carries the
number of its column.
-/

namespace Hashgrid.Core

open Hashgrid.Bytes Hashgrid.Machine Hashgrid.Links

variable {keccak : List UInt8 → Hash}

namespace JPGraph

/-- The number of columns. -/
def size (jp : JPGraph) : ℕ := jp.graph.entries.length

/-- Columns have numbers below the number of columns, and vertices have the number of their
column. -/
structure Numbered (jp : JPGraph) : Prop where
  /-- The numbers of columns. -/
  col : ∀ a c, jp.graph.lookup a = some c → (jp.col c).seqNum < jp.size
  /-- The numbers of vertices. -/
  vert : ∀ v < jp.verts.next, ∀ c, jp.graph.lookup (jp.vert v).event.selfSig.addr = some c →
    (jp.vert v).seqNum = (jp.col c).seqNum

variable {jp jp' : JPGraph}

theorem size_addNode_new {a : Address} (hnew : jp.graph.lookup a = none) :
    (jp.addNode a).1.size = jp.size + 1 := by
  unfold size
  rw [graph_addNode_new hnew, AList.entries_insert_of_notMem (AList.lookup_eq_none.mp hnew),
    List.length_cons]

theorem lookup_of_vert (h : Columnar jp.links) {v : ℕ} (hv : v < jp.verts.next) :
    ∃ c, jp.graph.lookup (jp.vert v).event.selfSig.addr = some c := by
  have hnode : jp.links.nodes[v]? = some (nodeOf (jp.vert v).event) := by simp [links, hv]
  obtain ⟨c, hc, -⟩ := Option.bind_eq_some_iff.mp (h.held v _ hnode)
  exact ⟨c, hc⟩

/-- A new column has the next number. -/
theorem Numbered.addNode (h : jp.Numbered) (hwf : jp.Wf) (hcolumnar : Columnar jp.links)
    (a : Address) : (jp.addNode a).1.Numbered := by
  cases hnew : jp.graph.lookup a with
  | some c =>
    rw [addNode_known hnew]
    exact h
  | none =>
    have hverts := (grown_addNode hwf a).verts
    refine ⟨fun b c hc => ?_, fun v hv c hc => ?_⟩
    · rw [size_addNode_new hnew, col_addNode_new hnew]
      by_cases hb : b = a
      · split_ifs with hcnew
        · exact Nat.lt_succ_self _
        · rw [hb, graph_addNode_new hnew, AList.lookup_insert] at hc
          exact absurd (Option.some.inj hc).symm hcnew
      · rw [lookup_addNode_of_ne hnew hb] at hc
        rw [if_neg (Nat.ne_of_lt (hwf.col_lt b c hc))]
        exact Nat.lt_succ_of_lt (h.col b c hc)
    · have hvert : (jp.addNode a).1.vert v = jp.vert v := congrArg (Heap.get · v) hverts
      rw [hverts] at hv
      rw [hvert] at hc ⊢
      obtain ⟨d, hd⟩ := lookup_of_vert hcolumnar hv
      rw [lookup_addNode_of_some hd] at hc
      cases hc
      rw [seqNum_addNode hwf hd]
      exact h.vert v hv c hd

/-- The columns of an event get the next numbers. -/
theorem Numbered.withColumns (h : jp.Numbered) (hlinked : Site.Linked jp) (e : Event ℕ) :
    (jp.withColumns e).Numbered := by
  have hself := h.addNode hlinked.wf hlinked.columnar e.selfSig.addr
  have hgrown := grown_addNode hlinked.wf e.selfSig.addr
  unfold JPGraph.withColumns
  split_ifs
  · exact hself
  · exact hself.addNode hgrown.wf (hgrown.links ▸ hlinked.columnar) _

/-- The column numbers do not depend on marks, tables and channels. -/
theorem Numbered.congr (hgraph : jp'.graph = jp.graph)
    (hcol : ∀ c, (jp'.col c).seqNum = (jp.col c).seqNum) (hnext : jp'.verts.next = jp.verts.next)
    (hevent : ∀ v, (jp'.vert v).event = (jp.vert v).event)
    (hseq : ∀ v, (jp'.vert v).seqNum = (jp.vert v).seqNum) (h : jp.Numbered) : jp'.Numbered := by
  refine ⟨fun a c hc => ?_, fun v hv c hc => ?_⟩
  · rw [hcol, size, hgraph]
    exact h.col a c (hgraph ▸ hc)
  · rw [hseq, hcol]
    exact h.vert v (hnext ▸ hv) c (by rw [← hevent, ← hgraph]; exact hc)

theorem Alike.numbered (h : Alike jp jp') (hnum : jp.Numbered) : jp'.Numbered :=
  hnum.congr h.graph (fun c => by rw [h.col]) h.next h.event h.seqNum

theorem seqNum_withVertex (jp : JPGraph) (e : Event ℕ) (ty c d : ℕ) :
    ((jp.withVertex e ty c).col d).seqNum = (jp.col d).seqNum :=
  Heap.get_update_of_eq jp.cols c (g := Column.seqNum) (fun _ => by rfl) d

/-- The addresses and column numbers after a new event was recorded. -/
theorem columns_recordedIn (jp : JPGraph) (e : Event ℕ) (ty i : ℕ) :
    (jp.recordedIn e ty i).graph = (jp.withColumns e).graph ∧
      ∀ d, ((jp.recordedIn e ty i).col d).seqNum = ((jp.withColumns e).col d).seqNum := by
  unfold recordedIn
  split_ifs
  · exact ⟨rfl, fun d => seqNum_withVertex _ e ty _ d⟩
  · exact ⟨rfl, fun d => seqNum_withVertex _ e ty _ d⟩

/-- `AddEvent` numbers new columns and the new vertex. -/
theorem Numbered.addEffect {e : Event ℕ} {ty : ℕ} (h : jp.Numbered) (hlinked : Site.Linked jp)
    (heffect : AddEffect keccak jp e ty jp') : jp'.Numbered := by
  have hcolumns := h.withColumns hlinked e
  have hverts := (grown_withColumns hlinked.wf e).verts
  cases heffect with
  | rejected _ hgraph => exact hgraph ▸ h
  | known _ v _ hgraph =>
    rw [hgraph]
    split_ifs
    · have hframe := frame_existedWitness (jp.withColumns e) v ty
      exact hcolumns.congr hframe.graph (fun _ => rfl) hframe.next hframe.event
        ((jp.withColumns e).vert_setVert_of_eq v (g := Vertex.seqNum) fun _ => by rfl)
    · exact hcolumns
  | stored _ _ x i _ _ _ hgraph =>
    obtain ⟨hgraph', hcol⟩ := columns_recordedIn jp e ty i
    refine hgraph.numbered ?_
    rw [signalCreated_eq]
    have hrecorded : (jp.recordedIn e ty i).Numbered := by
      refine ⟨fun a c hc => ?_, fun v hv c hc => ?_⟩
      · rw [hcol, size, hgraph']
        exact hcolumns.col a c (hgraph' ▸ hc)
      · rw [hgraph'] at hc
        rw [hcol]
        have hvert := vert_recordedIn hlinked.wf e ty i v
        by_cases hnew : v = jp.verts.next
        · rw [if_pos hnew] at hvert
          rw [hvert] at hc ⊢
          have haddr : (copyEvent e).selfSig.addr = e.selfSig.addr := by rw [copyEvent_eq]
          have hself : (jp.withColumns e).graph.lookup (copyEvent e).selfSig.addr = some c := hc
          rw [haddr, lookup_withColumns] at hself
          cases hself
          rw [col_withColumns hlinked.wf]
          rfl
        · rw [if_neg hnew, ← show (jp.withColumns e).vert v = jp.vert v from
            congrArg (Heap.get · v) hverts] at hvert
          rw [next_recordedIn hlinked.wf] at hv
          rw [hvert] at hc ⊢
          exact hcolumns.vert v (by rw [hverts]; omega) c hc
    exact ⟨hrecorded.col, hrecorded.vert⟩

end JPGraph

/-- Every move keeps columns and vertices numbered. -/
theorem Site.numbered_step {s : Site} (hlinked : Linked s.graph) (h : s.graph.Numbered) (m : Move) :
    Ensures (s.step keccak m) fun s' => s'.graph.Numbered := by
  intro s' hs'
  cases hadded : s.added m with
  | none =>
    have hless := step_other hadded s' hs'
    have hnext : s'.graph.verts.next = s.graph.verts.next := by
      rw [← JPGraph.length_nodes_links, hless.links, JPGraph.length_nodes_links]
    refine h.congr hless.graph (fun c => ?_) hnext hless.event hless.seqNum
    exact congrArg (fun cols => (Heap.get cols c).seqNum) hless.cols
  | some x =>
    obtain ⟨jp₀, e₀, hrec, hlinked₀, heffect, -⟩ := step_effect hlinked hadded s' hs'
    have h₀ : jp₀.Numbered := by
      rw [hrec.rest]
      exact ⟨h.col, h.vert⟩
    exact h₀.addEffect hlinked₀ heffect

/-- A new graph is numbered. -/
theorem numbered_newSite (coinbase : Address) (broadness : ℕ) :
    (newSite coinbase broadness).graph.Numbered := by
  have hbare : (bareGraph coinbase broadness).Numbered :=
    ⟨fun _ _ h => (nomatch h), fun _ h => (nomatch h)⟩
  have hwf : (bareGraph coinbase broadness).Wf :=
    ⟨fun _ _ h => (nomatch h), fun _ _ _ h => (nomatch h)⟩
  have hnum := hbare.addNode hwf columnar_empty coinbase
  exact ⟨hnum.col, hnum.vert⟩

end Hashgrid.Core
