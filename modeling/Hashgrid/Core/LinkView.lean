import Hashgrid.Core.AddEvent
import Hashgrid.Lib.Machine
import Hashgrid.Links.Model

/-!
# The links of the graph

The columns, the links and the dictionaries of lost parents, seen as the abstract graph
of `Links.LinkGraph`. One undisturbed call of `AddEvent` with an accepted event is one
arrival there.
-/

namespace Hashgrid.Core

open Hashgrid.Bytes Hashgrid.Machine Hashgrid.Links

/-- The node of an event. -/
def nodeOf {ρ : Type} (e : Event ρ) : Node Hash Address :=
  ⟨e.selfHash, e.selfSig.addr, e.selfPart, e.otherPartH⟩

/-- The column in which the other parent is looked for. -/
def otherColumnName {ρ : Type} (e : Event ρ) : Option Address :=
  if e.otherPartA = FixedBytes.zero 20 then none else some e.otherPartA

namespace JPGraph

/-- The abstract graph. -/
def links (jp : JPGraph) : LinkGraph Hash Address where
  nodes := (List.range jp.verts.next).map fun v => nodeOf (jp.vert v).event
  selfPt v := (jp.vert v).selfPt
  anotherPt v := (jp.vert v).anotherPt
  chain a h := (jp.graph.lookup a).bind fun c => (jp.col c).hashChain.lookup h
  top a := (jp.graph.lookup a).bind fun c => (jp.col c).verTop
  lost i h := ((jp.round i).lostDict.lookup h).getD []

/-- The arrival of an event that came from the wire. -/
def arrivalOf (jp : JPGraph) (e : Event ℤ) : Arrival Hash Address :=
  ⟨nodeOf e, otherColumnName e, e.roundID.bind jp.searchRound⟩

variable (jp : JPGraph) {jp' : JPGraph}

@[simp] theorem length_nodes_links : jp.links.nodes.length = jp.verts.next := by
  simp [links]

/-- Every address has a column of its own. -/
structure Wf (jp : JPGraph) : Prop where
  /-- The columns of the graph are there. -/
  col_lt : ∀ a c, jp.graph.lookup a = some c → c < jp.cols.next
  /-- Two addresses have two columns. -/
  col_inj : ∀ a b c, jp.graph.lookup a = some c → jp.graph.lookup b = some c → a = b

/-- What `AddEvent` leaves alone outside of its sections on columns and lost parents. -/
structure Frame (jp jp' : JPGraph) : Prop where
  /-- No vertex is added. -/
  next : jp'.verts.next = jp.verts.next
  /-- The events stay. -/
  event : ∀ v, (jp'.vert v).event = (jp.vert v).event
  /-- The self links stay. -/
  selfPt : ∀ v, (jp'.vert v).selfPt = (jp.vert v).selfPt
  /-- The other links stay. -/
  anotherPt : ∀ v, (jp'.vert v).anotherPt = (jp.vert v).anotherPt
  /-- The columns stay. -/
  cols : jp'.cols = jp.cols
  /-- The addresses stay. -/
  graph : jp'.graph = jp.graph
  /-- The round numbers of events stay. -/
  cells : jp'.cells = jp.cells
  /-- No round is added. -/
  rounds : jp'.rounds.next = jp.rounds.next
  /-- The numbers of the rounds stay. -/
  index : ∀ i, (jp'.round i).index = (jp.round i).index
  /-- The dictionaries of lost parents stay. -/
  lostDict : ∀ i, (jp'.round i).lostDict = (jp.round i).lostDict

theorem Frame.refl : Frame jp jp :=
  ⟨rfl, fun _ => rfl, fun _ => rfl, fun _ => rfl, rfl, rfl, rfl, rfl, fun _ => rfl, fun _ => rfl⟩

/-- Two sections in sequence. -/
theorem Frame.trans {jp jp'' : JPGraph} (h : Frame jp jp') (h' : Frame jp' jp'') :
    Frame jp jp'' where
  next := h'.next.trans h.next
  event v := (h'.event v).trans (h.event v)
  selfPt v := (h'.selfPt v).trans (h.selfPt v)
  anotherPt v := (h'.anotherPt v).trans (h.anotherPt v)
  cols := h'.cols.trans h.cols
  graph := h'.graph.trans h.graph
  cells := h'.cells.trans h.cells
  rounds := h'.rounds.trans h.rounds
  index i := (h'.index i).trans (h.index i)
  lostDict i := (h'.lostDict i).trans (h.lostDict i)

theorem Frame.links {jp : JPGraph} (h : Frame jp jp') : jp'.links = jp.links := by
  have hcol (c : ℕ) : jp'.col c = jp.col c := congrArg (Heap.get · c) h.cols
  simp only [JPGraph.links, h.next, h.event, h.selfPt, h.anotherPt, h.graph, hcol, h.lostDict]

/-- The frame keeps the columns apart. -/
theorem Frame.wf {jp : JPGraph} (h : Frame jp jp') (hwf : jp.Wf) : jp'.Wf := by
  constructor
  · intro a c hc
    rw [h.cols]
    exact hwf.col_lt a c (h.graph ▸ hc)
  · intro a b c hac hbc
    exact hwf.col_inj a b c (h.graph ▸ hac) (h.graph ▸ hbc)

theorem searchRound_congr {jp : JPGraph} (hnext : jp'.rounds.next = jp.rounds.next)
    (hindex : ∀ i, (jp'.round i).index = (jp.round i).index) (r : ℤ) :
    jp'.searchRound r = jp.searchRound r := by
  simp only [searchRound, queue, hnext, hindex]

/-- A change of the witness mark. -/
theorem frame_setWitness (v w : ℕ) :
    Frame jp (jp.setVert v fun vert => { vert with witness := w }) where
  next := Heap.next_update ..
  event u := jp.vert_setVert_of_eq v (g := Vertex.event) (fun _ => by rfl) u
  selfPt u := jp.vert_setVert_of_eq v (g := Vertex.selfPt) (fun _ => by rfl) u
  anotherPt u := jp.vert_setVert_of_eq v (g := Vertex.anotherPt) (fun _ => by rfl) u
  cols := rfl
  graph := rfl
  cells := rfl
  rounds := rfl
  index _ := rfl
  lostDict _ := rfl

/-- A change of a round that keeps its number and its dictionary. -/
theorem frame_setRound (i : ℕ) {f : Round → Round} (hindex : ∀ rd, (f rd).index = rd.index)
    (hlost : ∀ rd, (f rd).lostDict = rd.lostDict) : Frame jp (jp.setRound i f) where
  next := rfl
  event _ := rfl
  selfPt _ := rfl
  anotherPt _ := rfl
  cols := rfl
  graph := rfl
  cells := rfl
  rounds := Heap.next_update ..
  index j := Heap.get_update_of_eq jp.rounds i hindex j
  lostDict j := Heap.get_update_of_eq jp.rounds i hlost j

theorem frame_existedWitness (v ty : ℕ) : Frame jp (jp.existedWitness v ty) := by
  have h := frame_setWitness jp v ty
  exact ⟨h.next, h.event, h.selfPt, h.anotherPt, h.cols, h.graph, h.cells, h.rounds, h.index,
    h.lostDict⟩

theorem frame_requestParentEvent (v : ℕ) : Frame jp (jp.requestParentEvent v) :=
  ⟨rfl, fun _ => rfl, fun _ => rfl, fun _ => rfl, rfl, rfl, rfl, rfl, fun _ => rfl, fun _ => rfl⟩

/-- The announcement of a new vertex. -/
theorem frame_signalCreated (v : ℕ) : Frame jp (jp.signalCreated v) := by
  unfold signalCreated
  split
  · exact ⟨rfl, fun _ => rfl, fun _ => rfl, fun _ => rfl, rfl, rfl, rfl, rfl, fun _ => rfl,
      fun _ => rfl⟩
  · exact Frame.refl jp

/-- The entry in the witness table. -/
theorem frame_recordWitness (c v i : ℕ) : Ensures (jp.recordWitness c v i) (Frame jp) := by
  unfold recordWitness
  dsimp only
  split
  · refine .ok ((frame_setWitness jp v _).trans (frame_setRound _ i ?_ ?_)) <;> exact fun _ => rfl
  · exact .error

/-- The section that finds the round: it leaves the frame and finds the round of the vertex. -/
theorem frame_recordRound (firstWitness : Bool) (ty c v : ℕ) :
    Ensures (jp.recordRound firstWitness ty c v) fun r =>
      Frame jp r.1 ∧ r.2 = (jp.roundOf (jp.vert v).event).bind jp.searchRound := by
  have hempty (h : jp.queue = []) (r : ℤ) : jp.searchRound r = none := by simp [searchRound, h]
  unfold recordRound
  split
  · next hqueue =>
    refine .ok ⟨Frame.refl jp, ?_⟩
    cases jp.roundOf (jp.vert v).event with
    | none => rfl
    | some r => exact (hempty hqueue r).symm
  · unfold derefRound
    cases hr : jp.roundOf (jp.vert v).event with
    | none => exact .error
    | some r =>
      simp only [bind, Except.bind, Option.bind_some]
      cases hi : jp.searchRound r with
      | none => exact .ok ⟨Frame.refl jp, rfl⟩
      | some i =>
        dsimp only
        split
        · exact .bind (frame_recordWitness jp c v i) fun jp' hjp' => .ok ⟨hjp', rfl⟩
        · exact .ok ⟨Frame.refl jp, rfl⟩

/-- The entry in `newComer`. -/
theorem frame_addComer (i : ℕ) (rqa : RequestArg) : Ensures (jp.addComer i rqa) (Frame jp) := by
  unfold addComer
  split_ifs
  · exact .error
  · refine .ok (frame_setRound _ i ?_ ?_) <;> exact fun _ => rfl
  · refine .ok (frame_setRound _ i ?_ ?_) <;> exact fun _ => rfl

end JPGraph

end Hashgrid.Core
