import Hashgrid.Core.LinkView

/-!
# New vertices, links and lost parents

The sections of `AddEvent` on the creator's column, on the other column and on the lost
parents, in terms of the abstract graph.
-/

namespace Hashgrid.Core

open Hashgrid.Bytes Hashgrid.Machine Hashgrid.Links

namespace JPGraph

/-- The graph after the locked section put a new vertex on a column. -/
def withVertex (jp : JPGraph) (e : Event ℕ) (ty c : ℕ) : JPGraph :=
  { jp with
    verts := jp.verts.alloc
      { newVertex e ty with selfPt := (jp.col c).verTop, seqNum := (jp.col c).seqNum }
    cols := jp.cols.update c fun cl =>
      { cl with
        hashChain := cl.hashChain.insert e.selfHash jp.verts.next
        verTop := some jp.verts.next } }

variable {jp : JPGraph} {e : Event ℕ} {c i v : ℕ}

theorem insertVertex_new (h : (jp.col c).hashChain.lookup e.selfHash = none) (ty : ℕ) :
    jp.insertVertex e ty c = (jp.withVertex e ty c, false, jp.verts.next) := by
  simp only [insertVertex, h, withVertex, newVertex, copyEvent_eq]

theorem vert_withVertex (jp : JPGraph) (e : Event ℕ) (ty c v : ℕ) :
    (jp.withVertex e ty c).vert v = if v = jp.verts.next then
      { newVertex e ty with selfPt := (jp.col c).verTop, seqNum := (jp.col c).seqNum }
    else jp.vert v :=
  Heap.get_alloc ..

/-- The columns after a new vertex was put on one of them. -/
theorem col_withVertex (hc : c < jp.cols.next) (e : Event ℕ) (ty d : ℕ) :
    (jp.withVertex e ty c).col d = if d = c then
      { jp.col c with
        hashChain := (jp.col c).hashChain.insert e.selfHash jp.verts.next
        verTop := some jp.verts.next } else jp.col d :=
  Heap.get_update hc ..

/-- A new vertex is seen under the address of its column only. -/
theorem bind_col_withVertex {β : Type} (hwf : jp.Wf) (hc : jp.graph.lookup e.selfSig.addr = some c)
    (ty : ℕ) (g : Column → Option β) (a : Address) :
    (jp.graph.lookup a).bind (fun d => g ((jp.withVertex e ty c).col d)) =
      if a = e.selfSig.addr then
        g { jp.col c with
          hashChain := (jp.col c).hashChain.insert e.selfHash jp.verts.next
          verTop := some jp.verts.next }
      else (jp.graph.lookup a).bind fun d => g (jp.col d) := by
  have hcol := col_withVertex (hwf.col_lt _ c hc) e ty
  by_cases ha : a = e.selfSig.addr
  · subst ha
    rw [hc, Option.bind_some, hcol, if_pos rfl, if_pos rfl]
  · rw [if_neg ha]
    cases hd : jp.graph.lookup a with
    | none => rfl
    | some d =>
      have hne : d ≠ c := by
        rintro rfl
        exact ha (hwf.col_inj a _ d hd hc)
      rw [Option.bind_some, Option.bind_some, hcol, if_neg hne]

/-- A new vertex on a column is a new node in the abstract graph. -/
theorem links_withVertex (hwf : jp.Wf) (hc : jp.graph.lookup e.selfSig.addr = some c) (ty : ℕ) :
    (jp.withVertex e ty c).links = jp.links.enter (nodeOf e) := by
  have hseen {β : Type} := bind_col_withVertex (β := β) hwf hc ty
  have htop : jp.links.top e.selfSig.addr = (jp.col c).verTop := by
    simp only [links, hc, Option.bind_some]
  apply LinkGraph.ext
  · have hrange : (List.range (jp.withVertex e ty c).verts.next) =
        List.range jp.verts.next ++ [jp.verts.next] := by
      rw [withVertex, Heap.next_alloc, List.range_succ]
    have hnew : nodeOf ((jp.withVertex e ty c).vert jp.verts.next).event = nodeOf e := by
      simp [vert_withVertex, nodeOf, newVertex]
    simp only [links, LinkGraph.enter, hrange, List.map_append, List.map_singleton, hnew]
    congr 1
    apply List.map_congr_left
    intro v hv
    rw [vert_withVertex, if_neg (Nat.ne_of_lt (List.mem_range.mp hv))]
  · funext v
    simp only [LinkGraph.enter, length_nodes_links, nodeOf, htop]
    change ((jp.withVertex e ty c).vert v).selfPt = _
    rw [vert_withVertex]
    split <;> rfl
  · funext v
    simp only [LinkGraph.enter, length_nodes_links]
    change ((jp.withVertex e ty c).vert v).anotherPt = _
    rw [vert_withVertex]
    split <;> rfl
  · funext a h
    change (jp.graph.lookup a).bind (fun d => ((jp.withVertex e ty c).col d).hashChain.lookup h) = _
    rw [hseen fun cl => cl.hashChain.lookup h]
    by_cases ha : a = e.selfSig.addr
    · by_cases hh : h = e.selfHash
      · subst hh
        simp [LinkGraph.enter, LinkGraph.chainWith, nodeOf, ha]
      · simp [LinkGraph.enter, LinkGraph.chainWith, nodeOf, ha, hh, links, hc]
    · simp [LinkGraph.enter, LinkGraph.chainWith, nodeOf, ha, links]
  · funext a
    change (jp.graph.lookup a).bind (fun d => ((jp.withVertex e ty c).col d).verTop) = _
    rw [hseen fun cl => cl.verTop]
    by_cases ha : a = e.selfSig.addr <;> simp [LinkGraph.enter, nodeOf, ha, links]
  · rfl

/-- A change of the other links is one of the abstract graph. -/
theorem links_of_anotherPt {verts : Heap Vertex} (hnext : verts.next = jp.verts.next)
    (hevent : ∀ v, (verts.get v).event = (jp.vert v).event)
    (hself : ∀ v, (verts.get v).selfPt = (jp.vert v).selfPt) :
    ({ jp with verts := verts } : JPGraph).links =
      { jp.links with anotherPt := fun v => (verts.get v).anotherPt } := by
  apply LinkGraph.ext
  · simp only [links, vert, hnext]
    apply List.map_congr_left
    intro v _
    rw [hevent v]
    rfl
  · funext v
    exact hself v
  · rfl
  · rfl
  · rfl
  · rfl

/-- The section on the other column sets the other link if the parent is found. -/
theorem links_linkOther (jp : JPGraph) (hv : v < jp.verts.next)
    (hnone : (jp.vert v).anotherPt = none) (oc : Option Address) {target : Option ℕ}
    (htarget : (oc.bind fun a => jp.links.chain a (jp.vert v).event.otherPartH) = target) :
    (jp.linkOther v (oc.bind jp.graph.lookup)).1.links = jp.links.linkTo v target ∧
      (jp.linkOther v (oc.bind jp.graph.lookup)).2 = decide (target = none) := by
  have hfound : ((oc.bind jp.graph.lookup).bind fun c =>
      (jp.col c).hashChain.lookup (jp.vert v).event.otherPartH) = target := by
    rw [Option.bind_assoc]
    exact htarget
  unfold linkOther
  rw [hfound]
  cases target with
  | none =>
    refine ⟨?_, rfl⟩
    apply LinkGraph.ext <;> try rfl
    funext u
    simp only [LinkGraph.linkTo]
    split
    · next hu =>
      subst hu
      exact hnone
    · rfl
  | some p =>
    refine ⟨?_, rfl⟩
    dsimp only [setVert]
    rw [links_of_anotherPt (Heap.next_update ..)
      (Heap.get_update_of_eq _ _ (g := Vertex.event) fun _ => by rfl)
      (Heap.get_update_of_eq _ _ (g := Vertex.selfPt) fun _ => by rfl)]
    apply LinkGraph.ext <;> try rfl
    funext u
    simp only [LinkGraph.linkTo]
    rw [Heap.get_update hv]
    split <;> rfl

/-- Patching the vertices that wait releases them. -/
theorem links_patchLost (hi : i < jp.rounds.next)
    (hlost : ∀ u ∈ jp.links.lost i (jp.vert v).event.selfHash, u < jp.verts.next) :
    (jp.patchLost i v).links = jp.links.release i v (jp.vert v).event.selfHash := by
  unfold patchLost
  cases hus : (jp.round i).lostDict.lookup (jp.vert v).event.selfHash with
  | none =>
    have hnil : jp.links.lost i (jp.vert v).event.selfHash = [] := by simp [links, hus]
    apply LinkGraph.ext <;> try rfl
    · funext u
      simp [LinkGraph.release, hnil]
    · funext j h
      simp only [LinkGraph.release]
      split_ifs with hjh
      · rw [hjh.1, hjh.2, hnil]
      · rfl
  | some us =>
    have hmem : jp.links.lost i (jp.vert v).event.selfHash = us := by simp [links, hus]
    rw [hmem] at hlost
    apply LinkGraph.ext
    · simp only [links, vert, LinkGraph.release, Heap.next_updateAll]
      apply List.map_congr_left
      intro u _
      exact congrArg nodeOf (Heap.get_updateAll_of_eq _ us (g := Vertex.event) (fun _ => by rfl) u)
    · funext u
      exact Heap.get_updateAll_of_eq _ us (g := Vertex.selfPt) (fun _ => by rfl) u
    · funext u
      simp only [LinkGraph.release, hmem]
      change
        ((jp.verts.updateAll us fun vert => { vert with anotherPt := some v }).get u).anotherPt =
          if u ∈ us then some v else (jp.verts.get u).anotherPt
      by_cases hu : u < jp.verts.next
      · rw [Heap.get_updateAll hu us fun _ => by rfl]
        split <;> rfl
      · rw [if_neg fun hmem => hu (hlost u hmem), Heap.get_of_le (by simpa using hu),
          Heap.get_of_le (by simpa using hu)]
    · rfl
    · rfl
    · funext j h
      change (((jp.rounds.update i _).get j).lostDict.lookup h).getD [] = _
      rw [Heap.get_update hi]
      by_cases hj : j = i
      · subst hj
        by_cases hh : h = (jp.vert v).event.selfHash
        · subst hh
          simp [LinkGraph.release]
        · simp [LinkGraph.release, hh, links, round]
      · simp [LinkGraph.release, hj, links, round]

/-- Entering a vertex whose other parent is missing lets it wait. -/
theorem links_addLost (hi : i < jp.rounds.next) (v : ℕ) :
    (jp.addLost i v).links = jp.links.await i v (jp.vert v).event.otherPartH := by
  apply LinkGraph.ext <;> try rfl
  funext j h
  change (((jp.rounds.update i _).get j).lostDict.lookup h).getD [] = _
  rw [Heap.get_update hi]
  by_cases hj : j = i
  · subst hj
    by_cases hh : h = (jp.vert v).event.otherPartH
    · subst hh
      simp [LinkGraph.await, links, round]
    · simp [LinkGraph.await, hh, links, round]
  · simp [LinkGraph.await, hj, links, round]

/-- The section on the lost parents is the entry in a ledger. -/
theorem links_updateLost (hi : i < jp.rounds.next)
    (hlost : ∀ u ∈ jp.links.lost i (jp.vert v).event.selfHash, u < jp.verts.next)
    (linkpost : Bool) :
    (jp.updateLost i v linkpost).links =
      jp.links.settle i v (nodeOf (jp.vert v).event) linkpost := by
  have hpatch := links_patchLost hi hlost
  cases linkpost with
  | false => exact hpatch
  | true =>
    have hnext : i < (jp.patchLost i v).rounds.next := by
      unfold patchLost
      split
      · exact hi
      · exact (Heap.next_update ..).symm ▸ hi
    have hevent : ((jp.patchLost i v).vert v).event = (jp.vert v).event := by
      unfold patchLost
      split
      · rfl
      · exact Heap.get_updateAll_of_eq _ _ (g := Vertex.event) (fun _ => by rfl) v
    change ((jp.patchLost i v).addLost i v).links = _
    rw [links_addLost hnext, hpatch, hevent]
    rfl

end JPGraph

end Hashgrid.Core
