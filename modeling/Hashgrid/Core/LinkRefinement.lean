import Hashgrid.Core.Columns
import Hashgrid.Core.LinkSteps
import Hashgrid.Core.Skeleton

/-!
# `AddEvent` refines an arrival

A whole call of `AddEvent` in terms of the abstract graph.
-/

namespace Hashgrid.Core

open Hashgrid.Bytes Hashgrid.Machine Hashgrid.Links

namespace JPGraph

variable {jp jp' : JPGraph} {e : Event ℕ} {c : ℕ} {keccak : List UInt8 → Hash}

/-- The round that the search finds is in the queue. -/
theorem lt_of_searchRound {r : ℤ} {i : ℕ} (h : jp.searchRound r = some i) : i < jp.rounds.next := by
  have hmem : i ∈ jp.queue := by
    unfold searchRound at h
    cases hfind : jp.queue.find? fun i => decide (r = (jp.round i).index) with
    | some j =>
      rw [hfind] at h
      cases h
      exact List.mem_of_find?_eq_some hfind
    | none =>
      rw [hfind] at h
      exact List.mem_of_getLast? h
  simpa [queue] using hmem

/-- What an undisturbed call leaves alone: the columns stay apart, and the round numbers
of events and rounds do not change. -/
structure Kept (jp jp' : JPGraph) : Prop where
  /-- Columns stay apart. -/
  wf : jp.Wf → jp'.Wf
  /-- The round numbers of events stay. -/
  cells : jp'.cells = jp.cells
  /-- No round is added. -/
  rounds : jp'.rounds.next = jp.rounds.next
  /-- The numbers of the rounds stay. -/
  index : ∀ i, (jp'.round i).index = (jp.round i).index

theorem Kept.trans {jp'' : JPGraph} (h : Kept jp jp') (h' : Kept jp' jp'') : Kept jp jp'' :=
  ⟨h'.wf ∘ h.wf, h'.cells.trans h.cells, h'.rounds.trans h.rounds,
    fun i => (h'.index i).trans (h.index i)⟩

theorem Frame.kept (h : Frame jp jp') : Kept jp jp' :=
  ⟨h.wf, h.cells, h.rounds, h.index⟩

theorem Grown.kept (h : Grown jp jp') : Kept jp jp' :=
  ⟨fun _ => h.wf, h.cells, congrArg Heap.next h.rounds,
    fun i => congrArg (fun rs => (Heap.get rs i).index) h.rounds⟩

/-- Columns stay apart when neither addresses nor columns are added. -/
theorem Wf.congr (hgraph : jp'.graph = jp.graph) (hcols : jp'.cols.next = jp.cols.next)
    (hwf : jp.Wf) : jp'.Wf := by
  constructor
  · intro a c hc
    rw [hcols]
    exact hwf.col_lt a c (hgraph ▸ hc)
  · intro a b c hac hbc
    exact hwf.col_inj a b c (hgraph ▸ hac) (hgraph ▸ hbc)

theorem kept_withVertex (jp : JPGraph) (e : Event ℕ) (ty c : ℕ) : Kept jp (jp.withVertex e ty c) :=
  ⟨Wf.congr rfl (Heap.next_update ..), rfl, rfl, fun _ => rfl⟩

theorem Alike.kept (h : Alike jp jp') : Kept jp jp' :=
  ⟨Wf.congr h.graph (congrArg Heap.next h.cols), h.cells, h.rounds, h.index⟩

/-- The end of `AddEvent` enters the vertex in the ledger of its round. -/
theorem finishVertex_refines (jp : JPGraph) {v : ℕ} (ty c : ℕ) (firstWitness linkpost : Bool)
    (hlost : ∀ i, ∀ u ∈ jp.links.lost i (jp.vert v).event.selfHash, u < jp.verts.next) :
    Ensures (jp.finishVertex ty c v firstWitness linkpost) fun jp' =>
      Kept jp jp' ∧ jp'.links =
        ((jp.roundOf (jp.vert v).event).bind jp.searchRound).elim jp.links fun i =>
          jp.links.settle i v (nodeOf (jp.vert v).event) linkpost := by
  unfold finishVertex
  have hreq : Frame jp (if linkpost then jp.requestParentEvent v else jp) := by
    split
    · exact frame_requestParentEvent jp v
    · exact Frame.refl jp
  have hround {jp' : JPGraph} (h : Frame jp jp') :
      (jp'.roundOf (jp'.vert v).event).bind jp'.searchRound =
        (jp.roundOf (jp.vert v).event).bind jp.searchRound := by
    simp only [roundOf, h.event, h.cells, funext (searchRound_congr h.rounds h.index)]
  refine .bind (frame_recordRound _ firstWitness ty c v) ?_
  rintro ⟨jp₂, ro⟩ ⟨hframe₂, hro⟩
  rw [hround hreq] at hro
  have hframe := hreq.trans hframe₂
  rw [← hro]
  cases ro with
  | none =>
    have hsig := hframe.trans (frame_signalCreated jp₂ v)
    exact .ok ⟨hsig.kept, hsig.links⟩
  | some i =>
    have hi : i < jp.rounds.next := by
      obtain ⟨r, -, hr⟩ := Option.bind_eq_some_iff.mp hro.symm
      exact lt_of_searchRound hr
    refine .bind (Q := fun jp₄ => Kept jp jp₄ ∧
      jp₄.links = jp.links.settle i v (nodeOf (jp.vert v).event) linkpost) ?_ ?_
    · refine .bind (frame_addComer _ _ _) fun jp₃ hframe₃ => .ok ?_
      have hall := hframe.trans hframe₃
      refine ⟨hall.kept.trans (alike_updateLost ..).kept, ?_⟩
      rw [links_updateLost (by rw [hall.rounds]; exact hi)
        (by rw [hall.links, hall.event, hall.next]; exact hlost i), hall.links, hall.event]
    · rintro jp₄ ⟨hkept, hlinks⟩
      have hsig := frame_signalCreated jp₄ v
      exact .ok ⟨hkept.trans hsig.kept, hsig.links.trans hlinks⟩

/-- The arrival of an event in memory. -/
def arrivalAt (jp : JPGraph) (e : Event ℕ) : Arrival Hash Address :=
  ⟨nodeOf e, otherColumnName e, (jp.roundOf e).bind jp.searchRound⟩

/-- A new vertex on its column that was looked up in the other column. -/
theorem linkVertex_spec (hwf : jp.Wf) (hc : jp.graph.lookup e.selfSig.addr = some c) (ty : ℕ)
    {linked : JPGraph × Bool} (hlinked : (jp.withVertex e ty c).linkOther jp.verts.next
      ((otherColumnName e).bind jp.graph.lookup) = linked) :
    Kept jp linked.1 ∧ (linked.1.vert jp.verts.next).event = copyEvent e ∧
      linked.1.links =
        (jp.links.enter (nodeOf e)).linkTo jp.verts.next (jp.links.target (jp.arrivalAt e)) ∧
      linked.2 = decide (jp.links.target (jp.arrivalAt e) = none) := by
  have hevent : ((jp.withVertex e ty c).vert jp.verts.next).event = copyEvent e := by
    simp [vert_withVertex, newVertex]
  have htarget : ((otherColumnName e).bind fun a => (jp.withVertex e ty c).links.chain a
      ((jp.withVertex e ty c).vert jp.verts.next).event.otherPartH) =
        jp.links.target (jp.arrivalAt e) := by
    rw [links_withVertex hwf hc ty, hevent]
    simp [LinkGraph.target, LinkGraph.enter, arrivalAt, nodeOf]
  obtain ⟨hlinks, hlate⟩ := links_linkOther (jp.withVertex e ty c) (v := jp.verts.next)
    (by simp [withVertex]) (by simp [vert_withVertex, newVertex]) (otherColumnName e) htarget
  rw [links_withVertex hwf hc ty] at hlinks
  subst hlinked
  refine ⟨(kept_withVertex jp e ty c).trans (alike_linkOther ..).kept, ?_, hlinks, hlate⟩
  rw [(alike_linkOther ..).event, hevent]

/-- `AddEvent` with both columns at hand is an arrival in the abstract graph. -/
theorem addVertex_refines (hwf : jp.Wf) (hsound : Sound jp.links)
    (hc : jp.graph.lookup e.selfSig.addr = some c) (ty : ℕ) (firstWitness : Bool) :
    Ensures (jp.addVertex e ty c firstWitness ((otherColumnName e).bind jp.graph.lookup)) fun jp' =>
      Kept jp jp' ∧ jp'.links = jp.links.arrive (jp.arrivalAt e) := by
  have hchain : jp.links.chain e.selfSig.addr e.selfHash =
      (jp.col c).hashChain.lookup e.selfHash := by simp [links, hc]
  unfold addVertex LinkGraph.arrive
  cases hlook : (jp.col c).hashChain.lookup e.selfHash with
  | some v =>
    have hins : jp.insertVertex e ty c = (jp, true, v) := by simp only [insertVertex, hlook]
    have hknown :
        (jp.links.chain (jp.arrivalAt e).node.creator (jp.arrivalAt e).node.hash).isSome :=
      (hchain.trans hlook) ▸ rfl
    rw [hins, if_pos hknown]
    have hframe : Frame jp (if ty = Mark.witness then jp.existedWitness v ty else jp) := by
      split
      · exact frame_existedWitness jp v ty
      · exact Frame.refl jp
    exact .ok ⟨hframe.kept, hframe.links⟩
  | none =>
    have hnew : ¬ (jp.links.chain (jp.arrivalAt e).node.creator
        (jp.arrivalAt e).node.hash).isSome = true := by
      change ¬ (jp.links.chain e.selfSig.addr e.selfHash).isSome = true
      simp [hchain, hlook]
    rw [insertVertex_new hlook, if_neg hnew]
    dsimp only
    -- After the other link, everything up to the lost parents stays inside the frame.
    generalize hlinked : (jp.withVertex e ty c).linkOther jp.verts.next
      ((otherColumnName e).bind jp.graph.lookup) = linked
    obtain ⟨hkept₂, hevent₂, hlinks, hlate⟩ := linkVertex_spec hwf hc ty hlinked
    have hnext₂ : linked.1.verts.next = jp.verts.next + 1 := by
      rw [← length_nodes_links, hlinks]
      simp [LinkGraph.linkTo, LinkGraph.enter]
    have hledger : (linked.1.roundOf (linked.1.vert jp.verts.next).event).bind
        linked.1.searchRound = (jp.arrivalAt e).ledger := by
      simp only [roundOf, hevent₂, hkept₂.cells, copyEvent_eq, arrivalAt,
        funext (searchRound_congr hkept₂.rounds hkept₂.index)]
    refine fun jp' hjp' => ?_
    obtain ⟨hkept, hfinal⟩ := finishVertex_refines linked.1 (v := jp.verts.next) ty c
      firstWitness linked.2 (by
        intro i u hu
        rw [hlinks] at hu
        obtain ⟨n, hn, -⟩ := hsound.lost i _ u hu
        have := (List.getElem?_eq_some_iff.mp hn).1
        rw [length_nodes_links] at this
        omega) jp' hjp'
    refine ⟨hkept₂.trans hkept, ?_⟩
    rw [hfinal, hledger, hlinks, hevent₂, hlate, LinkGraph.add, length_nodes_links]
    cases (jp.arrivalAt e).ledger <;> simp [arrivalAt, nodeOf]

/-- An undisturbed call of `AddEvent` with an accepted event is an arrival. -/
theorem addEvent_refines (hwf : jp.Wf) (hsound : Sound jp.links) (e : Event ℕ) (ty : ℕ) :
    Ensures (jp.addEvent keccak e ty) fun r => Kept jp r.1 ∧ r.1.links =
      if validateEvent keccak e = true then jp.links.arrive (jp.arrivalAt e) else jp.links := by
  unfold addEvent
  by_cases hvalid : validateEvent keccak e = true
  · rw [if_neg (by simp [hvalid]), if_pos hvalid]
    obtain ⟨hself, hc⟩ := selfColumnOf_spec hwf e
    obtain ⟨hother, hoc⟩ := otherColumnOf_spec hself e
    have hgrown := hself.trans hother
    generalize jp.lookupColumns e = looked at *
    obtain ⟨sc, oc, ok2⟩ := looked
    dsimp only at *
    generalize jp.selfColumnOf e sc = found at *
    obtain ⟨jp₁, c, firstWitness⟩ := found
    dsimp only at *
    generalize jp₁.otherColumnOf e oc ok2 = found at *
    obtain ⟨jp₂, oc'⟩ := found
    dsimp only at *
    subst hoc
    refine .bind (addVertex_refines hother.wf (by rw [hgrown.links]; exact hsound)
      (hother.keeps _ _ hc) ty firstWitness) ?_
    rintro jp' ⟨hkept, hlinks⟩
    refine .ok ⟨hgrown.kept.trans hkept, ?_⟩
    have harrival : jp₂.arrivalAt e = jp.arrivalAt e := by
      simp only [arrivalAt, roundOf, hgrown.cells,
        funext (searchRound_congr hgrown.kept.rounds hgrown.kept.index)]
    rw [hlinks, hgrown.links, harrival]
  · rw [if_pos (by simpa using hvalid), if_neg hvalid]
    exact .ok ⟨(Frame.refl jp).kept, rfl⟩

/-- Reading an event from the wire changes no links. -/
theorem receive_spec (jp : JPGraph) (e : Event ℤ) :
    (jp.receive e).1.links = jp.links ∧ (jp.Wf → (jp.receive e).1.Wf) ∧
      (jp.receive e).1.rounds = jp.rounds ∧
      (jp.receive e).1.arrivalAt (jp.receive e).2 = jp.arrivalOf e ∧
      ∀ keccak, validateEvent keccak (jp.receive e).2 = validateEvent keccak e := by
  unfold receive
  cases hround : e.roundID with
  | none =>
    refine ⟨rfl, id, rfl, ?_, fun _ => rfl⟩
    simp only [arrivalAt, arrivalOf, roundOf, hround]
    rfl
  | some r =>
    refine ⟨rfl, Wf.congr rfl rfl, rfl, ?_, fun _ => rfl⟩
    simp only [arrivalAt, arrivalOf, roundOf, hround, Option.map_some, Heap.get_alloc_next]
    rfl

/-- An accepted event from the wire is an arrival. -/
theorem arriveEvent_refines (hwf : jp.Wf) (hsound : Sound jp.links) (e : Event ℤ) (ty : ℕ) :
    Ensures (jp.arriveEvent keccak (e, ty)) fun jp' =>
      jp'.Wf ∧ (∀ r, jp'.searchRound r = jp.searchRound r) ∧ jp'.links =
        if validateEvent keccak e = true then jp.links.arrive (jp.arrivalOf e) else jp.links := by
  obtain ⟨hlinks, hwf', hrounds, harrival, hvalid⟩ := receive_spec jp e
  unfold arriveEvent
  refine .map (addEvent_refines (hwf' hwf) (by rw [hlinks]; exact hsound) (jp.receive e).2 ty) ?_
  rintro ⟨jp', err⟩ ⟨hkept, heq⟩
  refine ⟨hkept.wf (hwf' hwf), ?_, ?_⟩
  · apply searchRound_congr
    · rw [hkept.rounds, hrounds]
    · intro i
      rw [hkept.index, round, hrounds]
      rfl
  · rw [hlinks, harrival, hvalid] at heq
    exact heq

end JPGraph

end Hashgrid.Core
