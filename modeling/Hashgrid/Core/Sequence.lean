import Hashgrid.Core.AddOutcome

/-!
# Calls that do not overlap

The graph of a node when one call runs at a time: `AddEvent` with events from the wire or
with composed events, `ComposeEvent`, and the turns of `RoundLoop` and `MonitorLoop`, in
any order. Only `AddEvent` changes columns and links.

The goroutines at the other ends of the channels are taken to drain them, so a send never
blocks here. `Node.NodeState` has the channels with their capacities.
-/

namespace Hashgrid.Core

open Hashgrid.Bytes Hashgrid.Machine Hashgrid.Links

namespace JPGraph

/-- `RoundLoop` receives a vertex and sends the number of a complete round. -/
def roundTurn (jp : JPGraph) : Except Stop JPGraph :=
  match jp.roundTrigger with
  | [] => .error .blocked
  | v :: rest => do
    let (jp, consensus) ← { jp with roundTrigger := rest }.roundLoop v
    return { jp with consensusTrigger := jp.consensusTrigger ++ consensus.toList }

/-- An event with the round number that its pointer leads to. -/
def valueOf (jp : JPGraph) (e : Event ℕ) : Event ℤ := { e with roundID := jp.roundOf e }

end JPGraph

/-- What happens next. -/
inductive Move
  /-- An event from the wire is passed to `AddEvent`. -/
  | arrive (e : Event ℤ) (ty : ℕ)
  /-- An event is composed. -/
  | compose (now : ℤ) (rand : ℕ)
  /-- A composed event is passed to `AddEvent`. -/
  | add (i ty : ℕ)
  /-- A turn of `RoundLoop`. -/
  | roundLoop
  /-- A step of `MonitorLoop`. -/
  | monitor (order : ℕ → List Address)

/-- A graph with the events that were composed and the state of `MonitorLoop`. -/
structure Site where
  /-- The graph. -/
  graph : JPGraph
  /-- The events that `ComposeEvent` has returned. -/
  composed : List (Event ℕ)
  /-- `MonitorLoop`. -/
  monitor : Monitor

/-- The graph of a new node. -/
def newSite (coinbase : Address) (broadness : ℕ) : Site :=
  ⟨newJPGraph coinbase broadness, [], ⟨.front, 0⟩⟩

namespace Site

/-- One call runs. -/
def step (keccak : List UInt8 → Hash) (s : Site) : Move → Except Stop Site
  | .arrive e ty => (s.graph.arriveEvent keccak (e, ty)).map fun jp => { s with graph := jp }
  | .compose now rand => (s.graph.composeEvent keccak now rand).map fun r =>
    { s with graph := r.1, composed := s.composed ++ [r.2] }
  | .add i ty =>
    match s.composed[i]? with
    | none => .error .blocked
    | some e => (s.graph.addEvent keccak e ty).map fun r => { s with graph := r.1 }
  | .roundLoop => s.graph.roundTurn.map fun jp => { s with graph := jp }
  | .monitor order => (s.monitor.step s.graph order).map fun r =>
    { s with monitor := r.1, graph := r.2 }

/-- The event that a move passes to `AddEvent`, and its type. -/
def added (s : Site) : Move → Option (Event ℤ × ℕ)
  | .arrive e ty => some (e, ty)
  | .add i ty => s.composed[i]?.map fun e => (s.graph.valueOf e, ty)
  | .compose .. => none
  | .roundLoop => none
  | .monitor _ => none

end Site

namespace JPGraph

/-- The lock of the newcomers of a round, and their hashes. -/
def comers (jp : JPGraph) (i : ℕ) : Bool × List Hash :=
  ((jp.round i).ncLocked, (jp.round i).newComer.map RequestArg.targetHash)

variable (jp : JPGraph) (keccak : List UInt8 → Hash) {f : Round → Round}

/-- A change of a round that keeps lock and newcomers. -/
theorem comers_setRound (i : ℕ) (hf : ∀ rd, (f rd).ncLocked = rd.ncLocked)
    (hf' : ∀ rd, (f rd).newComer = rd.newComer) (j : ℕ) :
    (jp.setRound i f).comers j = jp.comers j := by
  have hlocked : ((jp.setRound i f).round j).ncLocked = (jp.round j).ncLocked :=
    Heap.get_update_of_eq jp.rounds i hf j
  have hcomers : ((jp.setRound i f).round j).newComer = (jp.round j).newComer :=
    Heap.get_update_of_eq jp.rounds i hf' j
  simp only [comers, hlocked, hcomers]

/-- The skeleton, the links and the newcomers stay as they are. -/
structure Rests (jp jp' : JPGraph) : Prop where
  /-- The skeleton stays. -/
  alike : Alike jp jp'
  /-- The links stay. -/
  links : jp'.links = jp.links
  /-- The newcomers stay. -/
  comers : ∀ i, jp'.comers i = jp.comers i

theorem Rests.refl : Rests jp jp := ⟨.refl jp, rfl, fun _ => rfl⟩

/-- Choosing the other parent of a composed event. -/
theorem rests_chooseOther (i rand : ℕ) : Ensures (jp.chooseOther i rand) fun r => Rests jp r.1 := by
  intro r hr
  rcases jp.chooseOther_cases i rand r hr with hr | ⟨newComer, hhashes, hr⟩
  · rw [hr]
    exact .refl jp
  · rw [hr]
    refine ⟨alike_setRound jp i fun _ => by rfl, (frame_setRound jp i ?_ ?_).links, fun j => ?_⟩
    · exact fun _ => rfl
    · exact fun _ => rfl
    · rcases Heap.get_update_eq_or jp.rounds i j fun rd => { rd with newComer := newComer } with
        heq | ⟨rfl, heq⟩
      · simp only [JPGraph.comers, round, setRound, heq]
      · simp only [JPGraph.comers, round, setRound, heq]
        exact congrArg _ hhashes

/-- Changes of colours. -/
theorem SameButColors.rests {jp jp' : JPGraph} (h : SameButColors jp jp') : Rests jp jp' := by
  refine ⟨h.alike, ?_, fun i => by rw [h.rest]; rfl⟩
  have hanother (v : ℕ) : (jp'.vert v).anotherPt = (jp.vert v).anotherPt := by
    have hvert := congrArg Vertex.anotherPt (h.vert v)
    exact hvert
  have hround (i : ℕ) : jp'.round i = jp.round i := by
    rw [h.rest]
    rfl
  simp only [JPGraph.links, h.alike.next, h.alike.event, h.alike.selfPt, hanother, h.alike.graph,
    h.alike.col, hround]

/-- What `ComposeEvent` does: it makes an event of this node and writes the number of the front
round through the pointer of that event. -/
theorem composeEvent_spec (now : ℤ) (rand : ℕ) :
    Ensures (jp.composeEvent keccak now rand) fun r => ∃ c i k jp₁,
      jp.graph.lookup jp.coinbase = some c ∧ jp.queue.head? = some i ∧
        jp.composePointer c = some k ∧ r.2.roundID = some k ∧ Rests jp jp₁ ∧
        r.1 = { jp₁ with
          cells := (jp.cells.alloc jp.currentIdx).update k fun _ => (jp.round i).index } := by
  intro r hr
  obtain ⟨c, i, k, h⟩ := jp.composeEvent_composes keccak now rand r hr
  obtain ⟨jp₁, ts, hchoose, -, hgraph⟩ := h.graph
  have hrests := jp.rests_chooseOther i rand _ hchoose
  exact ⟨c, i, k, { jp₁ with transUnHandled := ts }, h.column, h.front, h.pointer, h.roundID,
    ⟨hrests.alike, hrests.links, hrests.comers⟩, hgraph⟩

/-- The graph in which `RoundLoop` looks for the round of a vertex. -/
def turnGraph (jp : JPGraph) (v cell : ℕ) : JPGraph :=
  if jp.opensRound v cell then jp.openRound cell else jp

/-- The end of a turn of `RoundLoop`: a vertex with the given column number is entered in the round
with the given number, if there is one, and a complete round is sent. -/
def enterTurn (jp : JPGraph) (r : ℤ) (k v : ℕ) : Except Stop JPGraph :=
  match jp.findRound r with
  | none => .ok jp
  | some i =>
    if k < (jp.round i).witnesses.length then
      (allCome (jp.round i).broadness ((jp.round i).witnesses.set k (some v))).map fun complete =>
        { jp.setWitness i k v with consensusTrigger :=
            jp.consensusTrigger ++ if complete then [(jp.round i).index] else [] }
    else .error .indexOutOfRange

/-- A turn of `RoundLoop` opens a round if the vertex says so, and enters the vertex. -/
theorem roundTurn_eq {jp : JPGraph} {v cell : ℕ} {rest : List ℕ}
    (hq : jp.roundTrigger = v :: rest) (hcell : (jp.vert v).event.roundID = some cell) :
    jp.roundTurn = enterTurn { jp.turnGraph v cell with roundTrigger := rest }
      ((jp.turnGraph v cell).cells.get cell) (jp.vert v).seqNum v := by
  have hturn : (if opensRound { jp with roundTrigger := rest } v cell then
      openRound { jp with roundTrigger := rest } cell else { jp with roundTrigger := rest }) =
        { jp.turnGraph v cell with roundTrigger := rest } := by
    have hopens : opensRound { jp with roundTrigger := rest } v cell = jp.opensRound v cell := rfl
    rw [turnGraph, hopens]
    split_ifs <;> rfl
  have hvert : vert { jp.turnGraph v cell with roundTrigger := rest } v = jp.vert v := by
    unfold turnGraph
    split_ifs <;> rfl
  have hcells : (jp.turnGraph v cell).cells =
      JPGraph.cells { jp.turnGraph v cell with roundTrigger := rest } := rfl
  have hcell' : (JPGraph.vert { jp with roundTrigger := rest } v).event.roundID = some cell := hcell
  unfold roundTurn roundLoop
  rw [hq]
  dsimp only
  rw [hcell']
  dsimp only
  rw [hturn, hcells, hvert]
  generalize { jp.turnGraph v cell with roundTrigger := rest } = g
  unfold enterTurn
  cases hi : g.findRound (g.cells.get cell) with
  | none => simp [bind, Except.bind, pure, Except.pure]
  | some i =>
    have hround : (g.setWitness i (jp.vert v).seqNum v).round i = { g.round i with
        witnesses := (g.round i).witnesses.set (jp.vert v).seqNum (some v) } := by
      refine Heap.get_update_self ?_ _
      simpa [queue] using List.mem_of_find?_eq_some hi
    dsimp only
    split_ifs
    · rw [hround]
      dsimp only
      cases allCome (g.round i).broadness
          ((g.round i).witnesses.set (jp.vert v).seqNum (some v)) with
      | error stop => rfl
      | ok complete => cases complete <;> rfl
    · rfl

/-- What a turn of `RoundLoop` does with the oldest vertex of its channel. -/
theorem roundTurn_spec : Ensures jp.roundTurn fun jp' => ∃ v rest cell,
    jp.roundTrigger = v :: rest ∧ (jp.vert v).event.roundID = some cell ∧
      (((jp.turnGraph v cell).findRound ((jp.turnGraph v cell).cells.get cell) = none ∧
          jp' = { jp.turnGraph v cell with roundTrigger := rest }) ∨
        ∃ i complete, (jp.turnGraph v cell).findRound ((jp.turnGraph v cell).cells.get cell) =
            some i ∧
          (jp.vert v).seqNum < ((jp.turnGraph v cell).round i).witnesses.length ∧
          allCome ((jp.turnGraph v cell).round i).broadness
            (((jp.turnGraph v cell).round i).witnesses.set (jp.vert v).seqNum (some v)) =
              .ok complete ∧
          jp' = { (jp.turnGraph v cell).setWitness i (jp.vert v).seqNum v with
            roundTrigger := rest
            consensusTrigger := (jp.turnGraph v cell).consensusTrigger ++
              if complete then [((jp.turnGraph v cell).round i).index] else [] }) := by
  intro jp' hjp'
  cases hq : jp.roundTrigger with
  | nil =>
    unfold roundTurn at hjp'
    rw [hq] at hjp'
    cases hjp'
  | cons v rest =>
    cases hcell : (jp.vert v).event.roundID with
    | none =>
      unfold roundTurn roundLoop at hjp'
      rw [hq] at hjp'
      have hcell' : (JPGraph.vert { jp with roundTrigger := rest } v).event.roundID = none := hcell
      dsimp only at hjp'
      rw [hcell'] at hjp'
      cases hjp'
    | some cell =>
      refine ⟨v, rest, cell, rfl, hcell, ?_⟩
      rw [roundTurn_eq hq hcell, enterTurn] at hjp'
      cases hi : (jp.turnGraph v cell).findRound ((jp.turnGraph v cell).cells.get cell) with
      | none =>
        have hi' : findRound { jp.turnGraph v cell with roundTrigger := rest }
            ((jp.turnGraph v cell).cells.get cell) = none := hi
        rw [hi'] at hjp'
        exact Or.inl ⟨rfl, (Except.ok.inj hjp').symm⟩
      | some i =>
        have hi' : findRound { jp.turnGraph v cell with roundTrigger := rest }
            ((jp.turnGraph v cell).cells.get cell) = some i := hi
        rw [hi'] at hjp'
        dsimp only at hjp'
        split_ifs at hjp' with hk
        obtain ⟨complete, hcomplete, rfl⟩ := exists_of_map_eq_ok hjp'
        exact Or.inr ⟨i, complete, rfl, hk, hcomplete, rfl⟩

/-- What a turn of `RoundLoop` leaves alone. -/
theorem roundTurn_frame : Ensures jp.roundTurn fun jp' => ∃ v rest cell,
    jp.roundTrigger = v :: rest ∧ (jp.vert v).event.roundID = some cell ∧
      jp'.cells = (jp.turnGraph v cell).cells ∧ jp'.roundTrigger = rest ∧
      jp'.verts = jp.verts ∧ jp'.selfEventCreated = jp.selfEventCreated := by
  intro jp' hjp'
  obtain ⟨v, rest, cell, hq, hcell, hturn⟩ := jp.roundTurn_spec jp' hjp'
  refine ⟨v, rest, cell, hq, hcell, ?_⟩
  have hopen : (jp.turnGraph v cell).verts = jp.verts ∧
      (jp.turnGraph v cell).selfEventCreated = jp.selfEventCreated := by
    unfold turnGraph
    split_ifs <;> exact ⟨rfl, rfl⟩
  rcases hturn with ⟨-, rfl⟩ | ⟨i, complete, -, -, -, rfl⟩
  · exact ⟨rfl, rfl, hopen⟩
  · exact ⟨rfl, rfl, hopen⟩

/-- A change of a round that keeps its dictionary changes no links. -/
theorem links_setRound (i : ℕ) (hlost : ∀ rd, (f rd).lostDict = rd.lostDict) :
    (jp.setRound i f).links = jp.links := by
  have hdict (j : ℕ) : ((jp.setRound i f).round j).lostDict = (jp.round j).lostDict :=
    Heap.get_update_of_eq jp.rounds i hlost j
  simp only [links, hdict]
  rfl

/-- A new round has no lost parents. -/
theorem links_openRound (cell : ℕ) : (jp.openRound cell).links = jp.links := by
  have hdict (j : ℕ) : ((jp.openRound cell).round j).lostDict = (jp.round j).lostDict := by
    change ((jp.rounds.alloc _).get j).lostDict = (jp.rounds.get j).lostDict
    rw [Heap.get_alloc]
    split
    · next hj =>
      rw [hj, Heap.get_of_le le_rfl]
      rfl
    · rfl
  simp only [links, hdict]
  rfl

/-- A new round has no newcomers. -/
theorem comers_openRound (cell i : ℕ) : (jp.openRound cell).comers i = jp.comers i := by
  have hround : (jp.openRound cell).round i = if i = jp.rounds.next then
      newRound jp.broadness (jp.currentIdx + 1) else jp.round i := Heap.get_alloc _ _ _
  unfold comers
  rw [hround]
  split_ifs with hi
  · have hdefault : jp.round i = default := Heap.get_of_le hi.ge
    rw [hdefault]
    rfl
  · rfl

/-- Columns, events, links and newcomers stay as they are. -/
structure Linkless (jp jp' : JPGraph) : Prop where
  /-- The addresses stay. -/
  graph : jp'.graph = jp.graph
  /-- The columns stay. -/
  cols : jp'.cols = jp.cols
  /-- The links stay. -/
  links : jp'.links = jp.links
  /-- The events of vertices stay. -/
  event : ∀ v, (jp'.vert v).event = (jp.vert v).event
  /-- The column numbers of vertices stay. -/
  seqNum : ∀ v, (jp'.vert v).seqNum = (jp.vert v).seqNum
  /-- No round is removed. -/
  rounds : jp.rounds.next ≤ jp'.rounds.next
  /-- The newcomers stay. -/
  comers : ∀ i, jp'.comers i = jp.comers i

theorem Rests.linkless {jp jp' : JPGraph} (h : Rests jp jp') : Linkless jp jp' :=
  ⟨h.alike.graph, h.alike.cols, h.links, h.alike.event, h.alike.seqNum, h.alike.rounds.ge,
    h.comers⟩

/-- `ComposeEvent` changes no links. -/
theorem linkless_composeEvent (now : ℤ) (rand : ℕ) :
    Ensures (jp.composeEvent keccak now rand) fun r => Linkless jp r.1 := by
  intro r hr
  obtain ⟨c, i, k, jp₁, -, -, -, -, hrests, hgraph⟩ := jp.composeEvent_spec keccak now rand r hr
  obtain ⟨hgraph₁, hcols, hlinks, hevent, hseqNum, hrounds, hcomers⟩ := hrests.linkless
  rw [hgraph]
  exact ⟨hgraph₁, hcols, hlinks, hevent, hseqNum, hrounds, hcomers⟩

/-- `RoundLoop` changes no links. -/
theorem linkless_roundTurn : Ensures jp.roundTurn (Linkless jp) := by
  intro jp' hjp'
  obtain ⟨v, rest, cell, -, -, hjp'⟩ := jp.roundTurn_spec jp' hjp'
  have hopen : Linkless jp (jp.turnGraph v cell) := by
    unfold turnGraph
    split_ifs
    · exact ⟨rfl, rfl, links_openRound jp cell, fun _ => rfl, fun _ => rfl,
        Nat.le_of_lt (by simp [openRound]), jp.comers_openRound cell⟩
    · exact ⟨rfl, rfl, rfl, fun _ => rfl, fun _ => rfl, le_rfl, fun _ => rfl⟩
  rcases hjp' with ⟨-, rfl⟩ | ⟨i, complete, -, -, -, rfl⟩
  · exact ⟨hopen.graph, hopen.cols, hopen.links, hopen.event, hopen.seqNum, hopen.rounds,
      hopen.comers⟩
  · refine ⟨hopen.graph, hopen.cols, (links_setRound _ i fun _ => by rfl).trans hopen.links,
      hopen.event, hopen.seqNum, ?_, fun j => (comers_setRound _ i ?_ ?_ j).trans (hopen.comers j)⟩
    · exact hopen.rounds.trans (Heap.next_update ..).ge
    · exact fun _ => rfl
    · exact fun _ => rfl

theorem linkless_markVertex (v ty : ℕ) : Linkless jp (jp.markVertex v ty) :=
  have hframe := frame_setWitness jp v ty
  ⟨hframe.graph, hframe.cols, hframe.links, hframe.event,
    jp.vert_setVert_of_eq v (g := Vertex.seqNum) fun _ => by rfl, hframe.rounds.ge, fun _ => rfl⟩

/-- `MonitorLoop` changes no links. -/
theorem linkless_monitorStep (m : Monitor) (jp : JPGraph) (order : ℕ → List Address) :
    Ensures (m.step jp order) fun r => Linkless jp r.2 := by
  have hrest {jp' : JPGraph} (hgraph : jp' = { jp with
      witnessL := jp'.witnessL, roundTrigger := jp'.roundTrigger }) : Linkless jp jp' := by
    rw [hgraph]
    exact ⟨rfl, rfl, rfl, fun _ => rfl, fun _ => rfl, le_rfl, fun _ => rfl⟩
  intro r hr
  cases monitorStep_effect m jp order r hr with
  | front i _ _ _ hgraph => exact hrest (by rw [hgraph])
  | receive i v rest _ _ _ hgraph =>
    obtain ⟨hgraph, hcols, hlinks, hevent, hseqNum, hrounds, hcomers⟩ := hgraph.rests.linkless
    exact ⟨hgraph, hcols, hlinks, hevent, hseqNum, hrounds, hcomers⟩
  | put v _ _ hgraph => exact hrest (by rw [hgraph])
  | mark v _ _ hgraph =>
    rw [hgraph]
    exact linkless_markVertex jp v _
  | trigger v _ _ hgraph => exact hrest (by rw [hgraph]; rfl)

end JPGraph

end Hashgrid.Core
