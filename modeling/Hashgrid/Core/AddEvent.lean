import Hashgrid.Core.EventHash
import Hashgrid.Core.Graph

/-!
# Adding an event to the graph

`AddEvent` and `AddNode` of `core/jigsaw.go`. Every stretch that runs under one lock, or
between two channel operations, is a definition of its own; `addEvent` strings them
together as an undisturbed call does.
-/

namespace Hashgrid.Core

open Hashgrid.Bytes

namespace JPGraph

/-- The locked stretch of `AddNode` that stores a new column. It returns the column and the
number of columns before it. -/
def addNodeInsert (jp : JPGraph) (a : Address) : JPGraph × ℕ × ℕ :=
  let mlen := jp.graph.entries.length
  let c := jp.cols.next
  ({ jp with cols := jp.cols.alloc (newColumn mlen), graph := jp.graph.insert a c }, c, mlen)

/-- The end of `AddNode`, after the lock is released. -/
def addNodeMajority (jp : JPGraph) (c mlen : ℕ) : JPGraph :=
  { jp.setCol c fun cl => { cl with verTop := none } with superMajority := (mlen + 1) * 2 / 3 }

/-- `AddNode`. -/
def addNode (jp : JPGraph) (a : Address) : JPGraph × ℕ :=
  match jp.graph.lookup a with
  | some c => (jp, c)
  | none =>
    match jp.addNodeInsert a with
    | (jp, c, mlen) => (jp.addNodeMajority c mlen, c)

/-- The columns of the creator and of the other parent, and whether the latter is there. A
zero `OtherPartA` asks for no column. -/
def lookupColumns (jp : JPGraph) (e : Event ℕ) : Option ℕ × Option ℕ × Bool :=
  let selfColumn := jp.graph.lookup e.selfSig.addr
  if e.otherPartA.compare (FixedBytes.zero 20) ≠ 0 then
    let otherColumn := jp.graph.lookup e.otherPartA
    (selfColumn, otherColumn, otherColumn.isSome)
  else (selfColumn, none, true)

/-- The stretch of `AddEvent` under the lock of the creator's column: find the vertex of the
event, or put a new one on top of the column. -/
def insertVertex (jp : JPGraph) (e : Event ℕ) (ty c : ℕ) : JPGraph × Bool × ℕ :=
  match (jp.col c).hashChain.lookup e.selfHash with
  | some v => (jp, true, v)
  | none =>
    let v := jp.verts.next
    let vert := { newVertex e ty with selfPt := (jp.col c).verTop, seqNum := (jp.col c).seqNum }
    ({ jp with
        verts := jp.verts.alloc vert
        cols := jp.cols.update c fun cl =>
          { cl with hashChain := cl.hashChain.insert vert.event.selfHash v, verTop := some v } },
      false, v)

/-- Mark a vertex. -/
def markVertex (jp : JPGraph) (v ty : ℕ) : JPGraph :=
  jp.setVert v fun vert => { vert with witness := ty }

/-- Send a vertex to `RoundLoop`. -/
def triggerRound (jp : JPGraph) (v : ℕ) : JPGraph :=
  { jp with roundTrigger := jp.roundTrigger ++ [v] }

/-- The vertex exists already: a witness copy marks it and triggers `RoundLoop`. -/
def existedWitness (jp : JPGraph) (v ty : ℕ) : JPGraph := (jp.markVertex v ty).triggerRound v

/-- The stretch under the lock of the other column. It returns whether the link has to be
set later. -/
def linkOther (jp : JPGraph) (v : ℕ) (otherColumn : Option ℕ) : JPGraph × Bool :=
  match otherColumn.bind fun c => (jp.col c).hashChain.lookup (jp.vert v).event.otherPartH with
  | some p => (jp.setVert v fun vert => { vert with anotherPt := some p }, false)
  | none => (jp, true)

/-- `RequestParentEvent`. -/
def requestParentEvent (jp : JPGraph) (v : ℕ) : JPGraph :=
  let vert := jp.vert v
  { jp with requestChan :=
      jp.requestChan ++ [⟨vert.event.otherPartH, vert.event.selfSig.addr, 0⟩] }

/-- The loop of `AddEvent` over the round queue: the first round with the given number, or
else the last one that was looked at. -/
def searchRound (jp : JPGraph) (r : ℤ) : Option ℕ :=
  (jp.queue.find? fun i => decide (r = (jp.round i).index)) <|> jp.queue.getLast?

/-- Enter a witness in the table of a round. -/
def setWitness (jp : JPGraph) (i k v : ℕ) : JPGraph :=
  jp.setRound i fun rd => { rd with witnesses := rd.witnesses.set k (some v) }

/-- The witness entry that `AddEvent` makes in the round. -/
def recordWitness (jp : JPGraph) (c v i : ℕ) : Except Stop JPGraph :=
  let k := (jp.col c).seqNum
  if k < (jp.round i).witnesses.length then
    .ok ((jp.markVertex v Mark.witness).setWitness i k v)
  else .error .indexOutOfRange

/-- The stretch of `AddEvent` that finds the round and enters a witness in it. -/
def recordRound (jp : JPGraph) (firstWitness : Bool) (ty c v : ℕ) :
    Except Stop (JPGraph × Option ℕ) :=
  match jp.queue with
  | [] => .ok (jp, none)
  | _ => do
    let r ← jp.derefRound (jp.vert v).event
    match jp.searchRound r with
    | none => return (jp, none)
    | some i =>
      if firstWitness ∨ ty = Mark.witness ∨ (jp.col c).hashChain.entries.length = 1 then
        let jp ← jp.recordWitness c v i
        return (jp, some i)
      else return (jp, some i)

/-- `addComer`. It returns with the lock held when the hash is already in the list. -/
def addComer (jp : JPGraph) (i : ℕ) (rqa : RequestArg) : Except Stop JPGraph :=
  if (jp.round i).ncLocked then .error .blocked
  else if (jp.round i).newComer.any fun n => n.targetHash.compare rqa.targetHash = 0 then
    .ok (jp.setRound i fun rd => { rd with ncLocked := true })
  else .ok (jp.setRound i fun rd => { rd with newComer := rd.newComer ++ [rqa] })

/-- The entry of a vertex in `newComer`. -/
def comerOf (jp : JPGraph) (v : ℕ) : RequestArg :=
  ⟨(jp.vert v).event.selfHash, (jp.vert v).event.selfSig.addr, 0⟩

/-- Give the vertices that waited for `v` their other parent. -/
def patchLost (jp : JPGraph) (i v : ℕ) : JPGraph :=
  match (jp.round i).lostDict.lookup (jp.vert v).event.selfHash with
  | none => jp
  | some us =>
    { jp with
      verts := jp.verts.updateAll us fun vert => { vert with anotherPt := some v }
      rounds := jp.rounds.update i fun rd =>
        { rd with lostDict := rd.lostDict.erase (jp.vert v).event.selfHash } }

/-- Enter a vertex whose other parent is missing. -/
def addLost (jp : JPGraph) (i v : ℕ) : JPGraph :=
  let oph := (jp.vert v).event.otherPartH
  jp.setRound i fun rd =>
    { rd with lostDict := rd.lostDict.insert oph ((rd.lostDict.lookup oph).getD [] ++ [v]) }

/-- The stretch of `AddEvent` under the lock `ld` of the round. -/
def updateLost (jp : JPGraph) (i v : ℕ) (linkpost : Bool) : JPGraph :=
  let jp := jp.patchLost i v
  if linkpost then jp.addLost i v else jp

/-- Announce a new normal vertex of this node to `MonitorLoop`. -/
def signalCreated (jp : JPGraph) (v : ℕ) : JPGraph :=
  if (jp.vert v).event.selfSig.addr.compare jp.coinbase = 0 ∧ (jp.vert v).witness = Mark.normal then
    { jp with selfEventCreated := jp.selfEventCreated ++ [v] }
  else jp

/-- The creator's column, and whether it is new. -/
def selfColumnOf (jp : JPGraph) (e : Event ℕ) : Option ℕ → JPGraph × ℕ × Bool
  | some c => (jp, c, false)
  | none =>
    match jp.addNode e.selfSig.addr with
    | (jp, c) => (jp, c, true)

/-- The column of the other parent, if it names one. -/
def otherColumnOf (jp : JPGraph) (e : Event ℕ) (otherColumn : Option ℕ) (ok2 : Bool) :
    JPGraph × Option ℕ :=
  if ok2 then (jp, otherColumn)
  else
    match jp.addNode e.otherPartA with
    | (jp, c) => (jp, some c)

/-- What `AddEvent` does in the round of a new vertex. -/
def joinRound (jp : JPGraph) (v : ℕ) (linkpost : Bool) : Option ℕ → Except Stop JPGraph
  | none => .ok jp
  | some i => do
    let jp ← jp.addComer i (jp.comerOf v)
    return jp.updateLost i v linkpost

/-- `AddEvent` from the point where a new vertex stands in its column and was looked up in the
other one. -/
def finishVertex (jp : JPGraph) (ty selfColumn v : ℕ) (firstWitness linkpost : Bool) :
    Except Stop JPGraph := do
  let jp := if linkpost then jp.requestParentEvent v else jp
  let (jp, round) ← jp.recordRound firstWitness ty selfColumn v
  let jp ← jp.joinRound v linkpost round
  return jp.signalCreated v

/-- `AddEvent` from the point where both columns are known. -/
def addVertex (jp : JPGraph) (e : Event ℕ) (ty selfColumn : ℕ) (firstWitness : Bool)
    (otherColumn : Option ℕ) : Except Stop JPGraph :=
  match jp.insertVertex e ty selfColumn with
  | (jp, true, v) => .ok (if ty = Mark.witness then jp.existedWitness v ty else jp)
  | (jp, false, v) =>
    match jp.linkOther v otherColumn with
    | (jp, linkpost) => jp.finishVertex ty selfColumn v firstWitness linkpost

/-- `AddEvent`: the graph afterwards and the error that is returned. -/
def addEvent (keccak : List UInt8 → Hash) (jp : JPGraph) (e : Event ℕ) (ty : ℕ) :
    Except Stop (JPGraph × Option String) :=
  if validateEvent keccak e = false then .ok (jp, some "Event Validate check failed")
  else do
    let (selfColumn, otherColumn, ok2) := jp.lookupColumns e
    let (jp, selfColumn, firstWitness) := jp.selfColumnOf e selfColumn
    let (jp, otherColumn) := jp.otherColumnOf e otherColumn ok2
    let jp ← jp.addVertex e ty selfColumn firstWitness otherColumn
    return (jp, none)

/-- An event from the wire is passed to `AddEvent`. -/
def arriveEvent (keccak : List UInt8 → Hash) (jp : JPGraph) (arrival : Event ℤ × ℕ) :
    Except Stop JPGraph :=
  match jp.receive arrival.1 with
  | (jp, e) => (jp.addEvent keccak e arrival.2).map Prod.fst

end JPGraph

/-- A graph without columns and rounds. -/
def bareGraph (coinbase : Address) (broadness : ℕ) : JPGraph where
  cells := .empty
  verts := .empty
  cols := .empty
  rounds := .empty
  graph := ∅
  superMajority := 0
  currentIdx := 0
  coinbase := coinbase
  broadness := broadness
  transUnHandled := []
  witnessL := []
  witnessR := []
  eventNorm := []
  requestChan := []
  selfEventCreated := []
  roundTrigger := []
  consensusTrigger := []

/-- `NewJPGraph`: the graph before its goroutines start. -/
def newJPGraph (coinbase : Address) (broadness : ℕ) : JPGraph :=
  let jp := ((bareGraph coinbase broadness).addNode coinbase).1
  { jp with rounds := jp.rounds.alloc (newRound broadness 0) }

/-- A graph without events whose queue holds rounds with the given numbers, oldest first. -/
def freshGraph (coinbase : Address) (broadness : ℕ) (indices : List ℕ) : JPGraph :=
  { newJPGraph coinbase broadness with rounds := ⟨indices.map (newRound broadness)⟩ }

end Hashgrid.Core
