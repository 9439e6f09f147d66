import Mathlib.Data.Finset.Card
import Mathlib.Data.List.AList
import Hashgrid.Core.Types
import Hashgrid.Lib.Heap

/-!
# The jigsaw puzzle graph

The state of `core/jigsaw.go` and `core/round.go`. Vertices, columns, rounds and round
numbers live in heaps, because other objects point to them. The round queue only grows
at its front, so the queue from back to front is the heap of rounds. A channel is the
list of the values in it, oldest first.
-/

namespace Hashgrid.Core

open Hashgrid.Bytes

/-- `Normal`. -/
abbrev Mark.normal : ℕ := 1

/-- `Witness`. -/
abbrev Mark.witness : ℕ := 2

/-- `WitnessLocal`. -/
abbrev Mark.witnessLocal : ℕ := 3

/-- `MaxNodeCount`. -/
def maxNodeCount : ℕ := 128

/-- `MaxChanItem`. -/
def maxChanItem : ℕ := 128

/-- The colours of the depth-first search. -/
inductive Color
  /-- Not visited. -/
  | white
  /-- Being visited. -/
  | grey
  /-- Visited. -/
  | black
  deriving DecidableEq, Inhabited

/-- `Vertex`. -/
structure Vertex where
  /-- The copy of the event. -/
  event : Event ℕ
  /-- The colour in each of the colour clusters. -/
  color : List Color
  /-- The witness mark. -/
  witness : ℕ
  /-- The other parent. -/
  anotherPt : Option ℕ
  /-- The self parent. -/
  selfPt : Option ℕ
  /-- The number of the column. -/
  seqNum : ℕ
  deriving DecidableEq, Inhabited

/-- `Column`. -/
structure Column where
  /-- The vertices of the column by hash. -/
  hashChain : AList fun _ : Hash => ℕ
  /-- The vertex on the top. -/
  verTop : Option ℕ
  /-- The number of the column. -/
  seqNum : ℕ
  deriving Inhabited

/-- `Round`, without the vote tables of `WitnessFame`. -/
structure Round where
  /-- The vertices that wait for their other parent, by its hash. -/
  lostDict : AList fun _ : Hash => List ℕ
  /-- The events of the round that a new event may refer to. -/
  newComer : List RequestArg
  /-- Whether the lock `nc` is held although nobody is inside its section. -/
  ncLocked : Bool
  /-- The preferred other parent. -/
  bestVertex : Option ℕ
  /-- The witness of each column. -/
  witnesses : List (Option ℕ)
  /-- Number of columns that take part. -/
  broadness : ℕ
  /-- The number of the round. -/
  index : ℕ
  deriving Inhabited

/-- `JPGraph` with its `RoundManager`. -/
structure JPGraph where
  /-- The round numbers that events point to. -/
  cells : Heap ℤ
  /-- All vertices. -/
  verts : Heap Vertex
  /-- All columns. -/
  cols : Heap Column
  /-- The round queue from back to front. -/
  rounds : Heap Round
  /-- The columns by address. -/
  graph : AList fun _ : Address => ℕ
  /-- The threshold of the strong-see relation. -/
  superMajority : ℕ
  /-- The number of the newest round. -/
  currentIdx : ℕ
  /-- The address of this node. -/
  coinbase : Address
  /-- The configured number of columns. -/
  broadness : ℕ
  /-- Transactions that wait for an event. -/
  transUnHandled : List (Option Transaction)
  /-- Events that were found to be local witnesses. -/
  witnessL : List (Event ℕ)
  /-- Witnesses of other nodes. -/
  witnessR : List (Event ℕ)
  /-- Normal events of other nodes. -/
  eventNorm : List (Event ℕ)
  /-- Requests for parents. -/
  requestChan : List RequestArg
  /-- New vertices of this node. -/
  selfEventCreated : List ℕ
  /-- Witnesses for `RoundLoop`. -/
  roundTrigger : List ℕ
  /-- Complete rounds for `ConsensusShow`. -/
  consensusTrigger : List ℕ

/-- `NewColumn`, with the number that `AddNode` sets. -/
def newColumn (seqNum : ℕ) : Column := ⟨∅, none, seqNum⟩

/-- `NewRound`. -/
def newRound (l idx : ℕ) : Round where
  lostDict := ∅
  newComer := []
  ncLocked := false
  bestVertex := none
  witnesses := List.replicate maxNodeCount none
  broadness := l
  index := idx

/-- `NewVertex`. -/
def newVertex (e : Event ℕ) (ty : ℕ) : Vertex where
  event := copyEvent e
  color := List.replicate 4 .white
  witness := ty
  anotherPt := none
  selfPt := none
  seqNum := 0

/-- The event channels of the graph. -/
inductive Channel
  /-- `eventNorm`. -/
  | eventNorm
  /-- `witnessR`. -/
  | witnessR
  /-- `witnessL`. -/
  | witnessL
  deriving DecidableEq

/-- `ChanEvent`. -/
def chanEvent (tp : UInt32) : Option Channel :=
  if tp = 1 then some .eventNorm
  else if tp = 2 then some .witnessR
  else if tp = 3 then some .witnessL
  else none

/-- Why a goroutine does not go on. -/
inductive Stop
  /-- It waits for a lock or a channel. -/
  | blocked
  /-- It dereferences a nil pointer. -/
  | nilDeref
  /-- It indexes a slice out of range. -/
  | indexOutOfRange
  /-- It slices out of range. -/
  | sliceBounds
  /-- It never leaves a loop. -/
  | loops
  deriving DecidableEq

namespace JPGraph

/-- The round number that an event points to. -/
def roundOf (jp : JPGraph) (e : Event ℕ) : Option ℤ := e.roundID.map jp.cells.get

/-- Reading the round number through a nil pointer is a panic. -/
def derefRound (jp : JPGraph) (e : Event ℕ) : Except Stop ℤ :=
  match jp.roundOf e with
  | some r => .ok r
  | none => .error .nilDeref

/-- The vertex behind a reference. -/
def vert (jp : JPGraph) (v : ℕ) : Vertex := jp.verts.get v

/-- The column behind a reference. -/
def col (jp : JPGraph) (c : ℕ) : Column := jp.cols.get c

/-- The round behind a reference. -/
def round (jp : JPGraph) (i : ℕ) : Round := jp.rounds.get i

/-- Change a vertex. -/
def setVert (jp : JPGraph) (v : ℕ) (f : Vertex → Vertex) : JPGraph :=
  { jp with verts := jp.verts.update v f }

/-- Change a column. -/
def setCol (jp : JPGraph) (c : ℕ) (f : Column → Column) : JPGraph :=
  { jp with cols := jp.cols.update c f }

/-- Change a round. -/
def setRound (jp : JPGraph) (i : ℕ) (f : Round → Round) : JPGraph :=
  { jp with rounds := jp.rounds.update i f }

theorem vert_setVert_of_eq {β : Type} (jp : JPGraph) (v : ℕ) {f : Vertex → Vertex}
    {g : Vertex → β} (hf : ∀ x, g (f x) = g x) (u : ℕ) :
    g ((jp.setVert v f).vert u) = g (jp.vert u) :=
  Heap.get_update_of_eq jp.verts v hf u

/-- The events in a channel. -/
def channel (jp : JPGraph) : Channel → List (Event ℕ)
  | .eventNorm => jp.eventNorm
  | .witnessR => jp.witnessR
  | .witnessL => jp.witnessL

/-- The references of the round queue, front first. -/
def queue (jp : JPGraph) : List ℕ := (List.range jp.rounds.next).reverse

/-- The addresses that have a column. -/
def columns (jp : JPGraph) : Finset Address := jp.graph.keys.toFinset

/-- The test of `JudgeSee` for a strong see over the given number of columns. -/
def strongSeen (jp : JPGraph) (total : ℕ) : Bool := jp.superMajority ≤ total

/-- An event that was read from the wire, with a round number of its own. -/
def receive (jp : JPGraph) (e : Event ℤ) : JPGraph × Event ℕ :=
  match e.roundID with
  | none => (jp, { e with roundID := none })
  | some r => ({ jp with cells := jp.cells.alloc r }, { e with roundID := some jp.cells.next })

end JPGraph

end Hashgrid.Core
