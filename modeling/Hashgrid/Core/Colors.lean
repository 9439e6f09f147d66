import Hashgrid.Core.AddEffect
import Hashgrid.Core.SiteLinks

/-!
# Colours of vertices

Every vertex is made with a colour in each cluster, and whatever happens to the graph later,
it keeps one in each.
-/

namespace Hashgrid.Core

open Hashgrid.Bytes Hashgrid.Machine

/-- `MaxColorCluster`. -/
def maxColorCluster : ℕ := 4

namespace JPGraph

/-- How many colours each vertex has. -/
def palettes (jp : JPGraph) : Heap ℕ := jp.verts.map fun vert => vert.color.length

/-- Every vertex has a colour in every cluster. -/
def Colored (jp : JPGraph) : Prop :=
  ∀ v < jp.verts.next, (jp.vert v).color.length = maxColorCluster

variable (jp : JPGraph)

theorem get_palettes (v : ℕ) : jp.palettes.get v = (jp.vert v).color.length :=
  Heap.get_map (g := fun vert : Vertex => vert.color.length) rfl jp.verts v

/-- The vertices keep their colours when no vertex gets more or fewer. -/
theorem Colored.congr {jp jp' : JPGraph} (h : jp.Colored) (hpalettes : jp'.palettes = jp.palettes) :
    jp'.Colored := by
  have hnext : jp'.verts.next = jp.verts.next := by
    have hnext := congrArg Heap.next hpalettes
    rwa [palettes, palettes, Heap.next_map, Heap.next_map] at hnext
  intro v hv
  rw [← get_palettes, hpalettes, get_palettes]
  exact h v (hnext ▸ hv)

theorem palettes_setVert (v : ℕ) {f : Vertex → Vertex}
    (hf : ∀ x, (f x).color.length = x.color.length) : (jp.setVert v f).palettes = jp.palettes :=
  Heap.map_update_of_eq hf jp.verts v

/-- Painting changes no number of colours. -/
theorem Painted.palettes {cluster : ℕ} {jp jp' : JPGraph} (h : Painted cluster jp jp') :
    jp'.palettes = jp.palettes := by
  induction h with
  | refl => rfl
  | paint _ color v ih => exact (palettes_setVert _ v fun x => by simp).trans ih

/-- The section under the lock of the other column. -/
theorem palettes_linkOther (v : ℕ) (oc : Option ℕ) :
    (jp.linkOther v oc).1.palettes = jp.palettes := by
  unfold linkOther
  split
  · exact palettes_setVert jp v fun _ => rfl
  · rfl

/-- The section under the lock of the lost parents. -/
theorem palettes_updateLost (i v : ℕ) (linkpost : Bool) :
    (jp.updateLost i v linkpost).palettes = jp.palettes := by
  have hpatch : (jp.patchLost i v).palettes = jp.palettes := by
    unfold patchLost
    split
    · rfl
    · exact Heap.map_updateAll_of_eq (fun _ => by rfl) jp.verts _
  unfold updateLost
  dsimp only
  split_ifs
  · exact hpatch
  · exact hpatch

/-- What `AddEvent` does in the round of a new vertex. -/
theorem palettes_joinRound (v : ℕ) (linkpost : Bool) (round : Option ℕ) :
    Ensures (jp.joinRound v linkpost round) fun jp' => jp'.palettes = jp.palettes := by
  cases round with
  | none => exact .ok rfl
  | some i =>
    have hcomer : Ensures (jp.addComer i (jp.comerOf v)) fun jp' => jp'.palettes = jp.palettes := by
      unfold addComer
      split_ifs
      · exact .error
      · exact .ok rfl
      · exact .ok rfl
    exact .bind hcomer fun jp' hjp' => .ok ((jp'.palettes_updateLost i v linkpost).trans hjp')

/-- From the new vertex on, `AddEvent` changes no number of colours. -/
theorem palettes_finishVertex (ty c v : ℕ) (firstWitness linkpost : Bool) :
    Ensures (jp.finishVertex ty c v firstWitness linkpost) fun jp' =>
      jp'.palettes = jp.palettes := by
  have hrequest : (if linkpost then jp.requestParentEvent v else jp).palettes = jp.palettes := by
    split_ifs <;> rfl
  have hsignal (jp : JPGraph) : (jp.signalCreated v).palettes = jp.palettes := by
    unfold signalCreated
    split_ifs <;> rfl
  unfold finishVertex
  refine .bind (recordRound_cases _ _ _ _ _) fun r hr => ?_
  have hrecord : r.1.palettes = jp.palettes := by
    rcases hr with hr | ⟨x, i, -, -, -, hr⟩
    · rw [hr, hrequest]
    · rw [hr, ← hrequest]
      exact palettes_setVert _ v fun _ => rfl
  refine .bind (palettes_joinRound r.1 v linkpost r.2) fun jp' hjp' => .ok ?_
  rw [hsignal, hjp', hrecord]

/-- A new vertex has a colour in every cluster. -/
theorem Colored.addVertex {jp : JPGraph} (h : jp.Colored) (e : Event ℕ) (ty c : ℕ)
    (firstWitness : Bool) (oc : Option ℕ) :
    Ensures (jp.addVertex e ty c firstWitness oc) Colored := by
  unfold JPGraph.addVertex insertVertex
  cases (jp.col c).hashChain.lookup e.selfHash with
  | some v =>
    refine .ok ?_
    split_ifs
    · exact h.congr (palettes_setVert jp v fun _ => rfl)
    · exact h
  | none =>
    dsimp only
    intro jp' hjp'
    refine Colored.congr ?_ ((palettes_finishVertex _ _ _ _ _ _ jp' hjp').trans
      (palettes_linkOther _ _ _))
    intro v hv
    unfold vert
    rw [Heap.next_alloc] at hv
    rw [Heap.get_alloc]
    split_ifs with hnew
    · rfl
    · exact h v (by omega)

/-- `AddEvent` keeps the vertices coloured. -/
theorem Colored.addEvent {jp : JPGraph} (h : jp.Colored) (hwf : jp.Wf)
    (keccak : List UInt8 → Hash) (e : Event ℕ) (ty : ℕ) :
    Ensures (jp.addEvent keccak e ty) fun r => r.1.Colored := by
  have hcolumns : (jp.withColumns e).Colored := by
    refine h.congr ?_
    rw [palettes, (grown_withColumns hwf e).verts]
    rfl
  rw [addEvent_eq]
  split_ifs
  · exact .ok h
  · exact .map (hcolumns.addVertex e ty _ _ _) fun _ hjp' => hjp'

/-- `ComposeEvent` changes no vertices. -/
theorem verts_composeEvent (keccak : List UInt8 → Hash) (jp : JPGraph) (now : ℤ) (rand : ℕ) :
    Ensures (jp.composeEvent keccak now rand) fun r => r.1.verts = jp.verts := by
  intro r hr
  obtain ⟨c, i, k, h⟩ := jp.composeEvent_composes keccak now rand r hr
  obtain ⟨jp₁, ts, hchoose, -, hgraph⟩ := h.graph
  have hverts : jp₁.verts = jp.verts := by
    rcases jp.chooseOther_cases i rand _ hchoose with hjp₁ | ⟨newComer, -, hjp₁⟩
    · exact congrArg verts hjp₁
    · have hverts := congrArg verts hjp₁
      exact hverts
  rw [hgraph]
  exact hverts

/-- `RoundLoop` changes no vertices. -/
theorem verts_roundTurn : Ensures jp.roundTurn fun jp' => jp'.verts = jp.verts := by
  intro jp' hjp'
  obtain ⟨v, rest, cell, -, -, hjp'⟩ := jp.roundTurn_spec jp' hjp'
  have hopen : (jp.turnGraph v cell).verts = jp.verts := by
    unfold turnGraph
    split_ifs <;> rfl
  rcases hjp' with ⟨-, rfl⟩ | ⟨i, complete, -, -, -, rfl⟩
  · exact hopen
  · exact hopen

/-- `MonitorLoop` changes no number of colours. -/
theorem palettes_monitorStep (m : Monitor) (jp : JPGraph) (order : ℕ → List Address) :
    Ensures (m.step jp order) fun r => r.2.palettes = jp.palettes := by
  unfold Monitor.step
  split
  · split
    · exact .error
    · exact .ok rfl
  · split
    · exact .error
    · unfold Monitor.judge
      split_ifs
      · exact .ok rfl
      · refine .bind (painted_countSees _ _ _ _) fun st hst => ?_
        dsimp only
        split_ifs
        · exact .ok hst.palettes
        · exact .ok hst.palettes
  · exact .ok rfl
  · exact .ok (palettes_setVert jp _ fun _ => rfl)
  · exact .ok rfl

end JPGraph

/-- Every move keeps the vertices coloured. -/
theorem Site.colored_step {keccak : List UInt8 → Hash} {s : Site} (hlinked : Linked s.graph)
    (h : s.graph.Colored) (m : Move) :
    Ensures (s.step keccak m) fun s' => s'.graph.Colored := by
  intro s' hs'
  cases hadded : s.added m with
  | none =>
    cases otherMove hadded hs' with
    | compose now rand r hr heq =>
      have hverts := s.graph.verts_composeEvent keccak now rand r hr
      rw [heq]
      exact h.congr (congrArg (Heap.map _) hverts)
    | roundLoop jp hjp heq =>
      rw [heq]
      exact h.congr (congrArg (Heap.map _) (s.graph.verts_roundTurn jp hjp))
    | monitor order r hr heq =>
      rw [heq]
      exact h.congr (JPGraph.palettes_monitorStep s.monitor s.graph order r hr)
  | some x =>
    obtain ⟨jp₀, e₀, err, hrec, hadd, -⟩ := step_added hadded s' hs'
    have h₀ : jp₀.Colored := by
      rw [hrec.rest]
      exact h
    exact h₀.addEvent (hrec.wf hlinked.wf) keccak e₀ x.2 _ hadd

end Hashgrid.Core
