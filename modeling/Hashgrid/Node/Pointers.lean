import Hashgrid.Node.Effects

/-!
# Round pointers and witness tables of a node

An invariant of the graph of one node, for one event of another node that is watched.
Events of this node and events of others never share a round pointer, only vertices of
this node are marked `WitnessLocal`, and so the round number of a stored event of
another node never changes. The watched event is then entered in the witness table of one
round only.
-/

namespace Hashgrid.Node

open Hashgrid.Bytes Hashgrid.Core Hashgrid.Machine

/-- The watched event, by hash and creator, and the round in which it may be a witness. -/
structure Target where
  /-- The hash of the event. -/
  hash : Hash
  /-- The creator of the event. -/
  creator : Address
  /-- The round. -/
  round : ℕ

/-- An event is the watched one. -/
def Target.Is (t : Target) (e : Event ℕ) : Prop :=
  e.selfHash = t.hash ∧ e.selfSig.addr = t.creator

instance (t : Target) (e : Event ℕ) : Decidable (t.Is e) := inferInstanceAs (Decidable (_ ∧ _))

/-- The round pointer of an event is there, and it is one of this node's own pointers just when
the event is one of this node. -/
def PointerOk (own : ℕ → Prop) (jp : JPGraph) (e : Event ℕ) : Prop :=
  ∀ k, e.roundID = some k → k < jp.cells.next ∧ (own k ↔ e.selfSig.addr = jp.coinbase)

/-- A vertex of this node. -/
def OwnVertex (jp : JPGraph) (v : ℕ) : Prop :=
  v < jp.verts.next ∧ (jp.vert v).event.selfSig.addr = jp.coinbase

/-- A column that belongs to an address, if to any. -/
def ColumnOf (jp : JPGraph) (c : ℕ) (a : Address) : Prop :=
  c < jp.cols.next ∧ ∀ b, jp.graph.lookup b = some c → b = a

/-- The invariant of the graph. -/
structure GraphInv (t : Target) (own : ℕ → Prop) (jp : JPGraph) : Prop where
  /-- The watched event is one of another node. -/
  foreign : t.creator ≠ jp.coinbase
  /-- Every column of the graph belongs to one address. -/
  graph : ∀ a c, jp.graph.lookup a = some c → ColumnOf jp c a
  /-- The vertices of the columns are there. -/
  chain : ∀ c h v, (jp.col c).hashChain.lookup h = some v → v < jp.verts.next
  /-- The vertex on top of a column is one of its address. -/
  top : ∀ c v, (jp.col c).verTop = some v → v < jp.verts.next ∧
    ∀ a, jp.graph.lookup a = some c → (jp.vert v).event.selfSig.addr = a
  /-- The announced vertices are vertices of this node. -/
  created : ∀ v ∈ jp.selfEventCreated, OwnVertex jp v
  /-- The vertices for `RoundLoop` are there. -/
  trigger : ∀ v ∈ jp.roundTrigger, v < jp.verts.next
  /-- The pointers of vertices are right. -/
  pointer : ∀ v < jp.verts.next, PointerOk own jp (jp.vert v).event
  /-- The pointers of events in channels are right. -/
  channel : ∀ ch, ∀ e ∈ jp.channel ch, PointerOk own jp e
  /-- Only vertices of this node are marked as local witnesses. -/
  mark : ∀ v, (jp.vert v).witness = Mark.witnessLocal →
    (jp.vert v).event.selfSig.addr = jp.coinbase
  /-- The watched event is stored with its round. -/
  round : ∀ v < jp.verts.next, t.Is (jp.vert v).event →
    jp.roundOf (jp.vert v).event = some (t.round : ℤ)
  /-- The watched event is a witness of its round only. -/
  table : ∀ i k v : ℕ, (jp.round i).witnesses[k]? = some (some v) → v < jp.verts.next ∧
    (t.Is (jp.vert v).event → (jp.round i).index = t.round)

/-- What is there stays. -/
structure Grows (jp jp' : JPGraph) : Prop where
  /-- The node keeps its address. -/
  coinbase : jp'.coinbase = jp.coinbase
  /-- Round pointers stay. -/
  cells : jp.cells.next ≤ jp'.cells.next
  /-- Vertices stay. -/
  verts : jp.verts.next ≤ jp'.verts.next
  /-- Their events stay. -/
  event : ∀ v < jp.verts.next, (jp'.vert v).event = (jp.vert v).event
  /-- Columns stay. -/
  cols : jp.cols.next ≤ jp'.cols.next
  /-- No column gets another address. -/
  owner : ∀ a c, c < jp.cols.next → jp'.graph.lookup a = some c → jp.graph.lookup a = some c

variable {t : Target} {own : ℕ → Prop} {jp jp' : JPGraph}

theorem Grows.refl (jp : JPGraph) : Grows jp jp :=
  ⟨rfl, le_rfl, le_rfl, fun _ _ => rfl, le_rfl, fun _ _ _ h => h⟩

/-- Two steps. -/
theorem Grows.trans {jp'' : JPGraph} (h : Grows jp jp') (h' : Grows jp' jp'') : Grows jp jp'' where
  coinbase := h'.coinbase.trans h.coinbase
  cells := h.cells.trans h'.cells
  verts := h.verts.trans h'.verts
  event v hv := (h'.event v (lt_of_lt_of_le hv h.verts)).trans (h.event v hv)
  cols := h.cols.trans h'.cols
  owner a c hc hlook := h.owner a c hc (h'.owner a c (lt_of_lt_of_le hc h.cols) hlook)

variable {v : ℕ}

theorem Grows.ownVertex (h : Grows jp jp') (hv : OwnVertex jp v) : OwnVertex jp' v :=
  ⟨lt_of_lt_of_le hv.1 h.verts, by rw [h.event v hv.1, h.coinbase, hv.2]⟩

theorem Grows.columnOf (h : Grows jp jp') {c : ℕ} {a : Address} (hc : ColumnOf jp c a) :
    ColumnOf jp' c a :=
  ⟨lt_of_lt_of_le hc.1 h.cols, fun b hb => hc.2 b (h.owner b c hc.1 hb)⟩

/-- Pointers stay right when new pointers are added. -/
theorem Grows.pointerOk (h : Grows jp jp') {own' : ℕ → Prop}
    (hown : ∀ k < jp.cells.next, (own' k ↔ own k)) {e : Event ℕ} (he : PointerOk own jp e) :
    PointerOk own' jp' e := by
  intro k hk
  obtain ⟨hlt, hiff⟩ := he k hk
  exact ⟨lt_of_lt_of_le hlt h.cells, by rw [hown k hlt, hiff, h.coinbase]⟩

/-- Round numbers, vertices with their events and columns stay. -/
structure SameStore (jp jp' : JPGraph) : Prop where
  /-- The node keeps its address. -/
  coinbase : jp'.coinbase = jp.coinbase
  /-- The round numbers stay. -/
  cells : jp'.cells = jp.cells
  /-- No vertex is added. -/
  next : jp'.verts.next = jp.verts.next
  /-- The events of vertices stay. -/
  event : ∀ v, (jp'.vert v).event = (jp.vert v).event
  /-- The columns stay. -/
  cols : jp'.cols = jp.cols
  /-- The addresses stay. -/
  graph : jp'.graph = jp.graph

/-- What is there stays. -/
theorem SameStore.grows (h : SameStore jp jp') : Grows jp jp' where
  coinbase := h.coinbase
  cells := by rw [h.cells]
  verts := by rw [h.next]
  event v _ := h.event v
  cols := by rw [h.cols]
  owner a c _ hlook := by rwa [h.graph] at hlook

theorem sameStore_of_neutral (h : jp.Neutral jp') : SameStore jp jp' :=
  ⟨h.coinbase, h.cells, h.next, h.event, h.cols, h.graph⟩

/-- The invariant after a step that keeps round numbers, vertices and columns: the marks, the
queues and the tables have to be right. -/
theorem GraphInv.sameStore (h : GraphInv t own jp) (hs : SameStore jp jp')
    (hcreated : ∀ v ∈ jp'.selfEventCreated, OwnVertex jp v)
    (htrigger : ∀ v ∈ jp'.roundTrigger, v < jp.verts.next)
    (hchannel : ∀ ch, ∀ e ∈ jp'.channel ch, PointerOk own jp e)
    (hmark : ∀ v, (jp'.vert v).witness = Mark.witnessLocal →
      (jp.vert v).event.selfSig.addr = jp.coinbase)
    (htable : ∀ i k v : ℕ, (jp'.round i).witnesses[k]? = some (some v) → v < jp.verts.next ∧
      (t.Is (jp.vert v).event → (jp'.round i).index = t.round)) : GraphInv t own jp' := by
  have hcol (c : ℕ) : jp'.col c = jp.col c := congrArg (Heap.get · c) hs.cols
  have hpointer {e : Event ℕ} (he : PointerOk own jp e) : PointerOk own jp' e :=
    hs.grows.pointerOk (fun _ _ => Iff.rfl) he
  constructor
  · rw [hs.coinbase]
    exact h.foreign
  · intro a c hc
    rw [hs.graph] at hc
    exact hs.grows.columnOf (h.graph a c hc)
  · intro c k v hv
    rw [hcol] at hv
    rw [hs.next]
    exact h.chain c k v hv
  · intro c v hv
    rw [hcol] at hv
    rw [hs.next, hs.graph, hs.event]
    exact h.top c v hv
  · exact fun v hv => hs.grows.ownVertex (hcreated v hv)
  · intro v hv
    rw [hs.next]
    exact htrigger v hv
  · intro v hv
    rw [hs.next] at hv
    rw [hs.event]
    exact hpointer (h.pointer v hv)
  · exact fun ch e he => hpointer (hchannel ch e he)
  · intro v hv
    rw [hs.event, hs.coinbase]
    exact hmark v hv
  · intro v hv ht
    rw [hs.next] at hv
    rw [hs.event] at ht ⊢
    unfold JPGraph.roundOf
    rw [hs.cells]
    exact h.round v hv ht
  · intro i k v hv
    rw [hs.next, hs.event]
    exact htable i k v hv

/-- A neutral step keeps the invariant. -/
theorem GraphInv.neutral (h : GraphInv t own jp) (hn : jp.Neutral jp') : GraphInv t own jp' := by
  refine h.sameStore (sameStore_of_neutral hn) ?_ ?_ ?_ ?_ ?_
  · rw [hn.selfEventCreated]
    exact h.created
  · rw [hn.roundTrigger]
    exact h.trigger
  · intro ch
    rw [hn.channel]
    exact h.channel ch
  · intro v
    rw [hn.witness]
    exact h.mark v
  · intro i k v
    rw [hn.witnesses, hn.index]
    exact h.table i k v

/-- The pointers of events in channels that stay. -/
theorem GraphInv.sameChannels (h : GraphInv t own jp) (hnorm : jp'.eventNorm = jp.eventNorm)
    (hremote : jp'.witnessR = jp.witnessR) (hlocal : jp'.witnessL = jp.witnessL) (ch : Channel) :
    ∀ e ∈ jp'.channel ch, PointerOk own jp e := by
  have hch : jp'.channel ch = jp.channel ch := by cases ch <;> assumption
  rw [hch]
  exact h.channel ch

/-- Rounds, channels and queues are not part of the store. -/
theorem sameStore_rest (jp : JPGraph) {rounds : Heap Round} {current : ℕ}
    {norm remote loc : List (Event ℕ)} {created trigger : List ℕ} :
    SameStore jp
      { jp with
        rounds := rounds, currentIdx := current, eventNorm := norm, witnessR := remote
        witnessL := loc, selfEventCreated := created, roundTrigger := trigger } :=
  ⟨rfl, rfl, rfl, fun _ => rfl, rfl, rfl⟩

theorem sameStore_markVertex (jp : JPGraph) (v ty : ℕ) : SameStore jp (jp.markVertex v ty) :=
  ⟨rfl, rfl, Heap.next_update .., jp.vert_setVert_of_eq v (g := Vertex.event) fun _ => by rfl, rfl,
    rfl⟩

theorem sameStore_triggerRound (jp : JPGraph) (v : ℕ) : SameStore jp (jp.triggerRound v) :=
  sameStore_rest jp

theorem sameStore_signalCreated (jp : JPGraph) (v : ℕ) : SameStore jp (jp.signalCreated v) := by
  unfold JPGraph.signalCreated
  split <;> exact sameStore_rest jp

theorem sameStore_setWitness (jp : JPGraph) (i k v : ℕ) : SameStore jp (jp.setWitness i k v) :=
  sameStore_rest jp

/-- A vertex is marked, as a local witness only if it is one of this node. -/
theorem GraphInv.markVertex (h : GraphInv t own jp) {ty : ℕ}
    (hty : ty = Mark.witnessLocal → (jp.vert v).event.selfSig.addr = jp.coinbase) :
    GraphInv t own (jp.markVertex v ty) := by
  refine h.sameStore (sameStore_markVertex jp v ty) h.created h.trigger
    (h.sameChannels rfl rfl rfl) (fun u hu => ?_) h.table
  rcases jp.verts.get_update_eq_or v u fun vert => { vert with witness := ty } with
    heq | ⟨rfl, heq⟩
  · exact h.mark u ((congrArg Vertex.witness heq).symm.trans hu)
  · exact hty ((congrArg Vertex.witness heq).symm.trans hu)

/-- A vertex is sent to `RoundLoop`. -/
theorem GraphInv.triggerRound (h : GraphInv t own jp) (hv : v < jp.verts.next) :
    GraphInv t own (jp.triggerRound v) := by
  refine h.sameStore (sameStore_triggerRound jp v) h.created (fun u hu => ?_)
    (h.sameChannels rfl rfl rfl) h.mark h.table
  rcases List.mem_append.mp hu with hu | hu
  · exact h.trigger u hu
  · rw [List.mem_singleton.mp hu]
    exact hv

/-- A vertex is announced to `MonitorLoop` if it is one of this node. -/
theorem GraphInv.signalCreated (h : GraphInv t own jp) (hv : v < jp.verts.next) :
    GraphInv t own (jp.signalCreated v) := by
  unfold JPGraph.signalCreated
  split
  · next hown =>
    refine h.sameStore (sameStore_rest jp) (fun u hu => ?_) h.trigger
      (h.sameChannels rfl rfl rfl) h.mark h.table
    rcases List.mem_append.mp hu with hu | hu
    · exact h.created u hu
    · rw [List.mem_singleton.mp hu]
      exact ⟨hv, FixedBytes.compare_eq_zero.mp hown.1⟩
  · exact h

/-- A witness is entered in a table; the watched event only in its round. -/
theorem GraphInv.setWitness (h : GraphInv t own jp) {i k : ℕ} (hv : v < jp.verts.next)
    (hround : t.Is (jp.vert v).event → (jp.round i).index = t.round) :
    GraphInv t own (jp.setWitness i k v) := by
  refine h.sameStore (sameStore_setWitness jp i k v) h.created h.trigger
    (h.sameChannels rfl rfl rfl) h.mark fun j k' u hu => ?_
  rcases jp.rounds.get_update_eq_or i j
    (fun rd => { rd with witnesses := rd.witnesses.set k (some v) }) with heq | ⟨rfl, heq⟩
  · have hj : (jp.setWitness i k v).round j = jp.round j := heq
    rw [hj] at hu ⊢
    exact h.table j k' u hu
  · have hj : (jp.setWitness j k v).round j =
        { jp.round j with witnesses := (jp.round j).witnesses.set k (some v) } := heq
    rw [hj] at hu ⊢
    rw [List.getElem?_set] at hu
    split_ifs at hu
    · cases hu
      exact ⟨hv, hround⟩
    · exact h.table j k' u hu

end Hashgrid.Node
