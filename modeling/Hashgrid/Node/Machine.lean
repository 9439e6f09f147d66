import Hashgrid.Core.AddCall
import Hashgrid.Core.Rounds
import Hashgrid.Node.Peer

/-!
# A running node

All goroutines of a node: the event loop, the calls of `AddEvent`, the goroutines that
send messages, `RoundLoop`, `MonitorLoop`, `ConsensusShow` and the handlers of incoming
messages. One of them takes a step at a time. A step that would send to a full channel is
not possible.
-/

namespace Hashgrid.Node

open Hashgrid.Bytes Hashgrid.Core Hashgrid.Machine Hashgrid.Rlp Hashgrid.Wire

/-- A goroutine that is about to send a message. -/
inductive Sender
  /-- An event, to the neighbours or as the answer to a request. -/
  | event (e : Event ℕ) (ty : ℕ)
  /-- A request for an event. -/
  | request (rqa : RequestArg)
  /-- The answer to a ping. -/
  | pong
  deriving DecidableEq

/-- A node. -/
structure NodeState where
  /-- The graph. -/
  graph : JPGraph
  /-- The variables of the event loop. -/
  handler : Handler
  /-- The calls of `AddEvent` that have not returned. -/
  adds : List AddCall
  /-- The messages that have not been sent. -/
  senders : List Sender
  /-- The number that `RoundLoop` is about to send to `consensusTrigger`. -/
  consensus : Option ℕ
  /-- `MonitorLoop`. -/
  monitor : Monitor

/-- A new node. -/
def newNode (coinbase : Address) (broadness : ℕ) : NodeState where
  graph := newJPGraph coinbase broadness
  handler := newHandler (newJPGraph coinbase broadness)
  adds := []
  senders := []
  consensus := none
  monitor := ⟨.front, 0⟩

/-- What a node can do next. -/
inductive Action
  /-- A turn of the event loop. -/
  | handle (b : Branch)
  /-- A message comes in. -/
  | receive (msg : Msg) (pick : ℕ)
  /-- A call of `AddEvent` goes on. -/
  | add (i : ℕ)
  /-- A message is sent. -/
  | send (i : ℕ)
  /-- A broadcast sends its event to a peer, and there are more peers. -/
  | cast (i : ℕ)
  /-- `RoundLoop` goes on. -/
  | roundLoop
  /-- `MonitorLoop` goes on. -/
  | monitor (order : ℕ → List Address)
  /-- `ConsensusShow` reads a number. -/
  | consensusShow

/-- What can be observed of a step. -/
inductive Output
  /-- A message is sent, to one address or to whoever is connected. -/
  | sent (target : Option Address) (msg : Msg)
  /-- `MonitorLoop` puts an event into `witnessL`. -/
  | putLocal (e : Event ℕ)
  /-- The event loop takes an event from `witnessL`. -/
  | tookLocal (e : Event ℕ)
  /-- A call of `AddEvent` returns. -/
  | added (e : Event ℕ) (ty : ℕ)
  deriving DecidableEq

/-- No channel holds more than its capacity. -/
def fits (jp : JPGraph) : Bool :=
  jp.eventNorm.length ≤ maxChanItem && jp.witnessR.length ≤ maxChanItem &&
    jp.witnessL.length ≤ maxChanItem && jp.requestChan.length ≤ maxChanItem &&
    jp.selfEventCreated.length ≤ maxChanItem && jp.roundTrigger.length ≤ maxChanItem &&
    jp.consensusTrigger.length ≤ maxChanItem

/-- The sender that a goroutine of the event loop is. -/
def Go.sender : Go → Option Sender
  | .broadcastEvent e ty => some (.event e ty)
  | .requestEvent rqa => some (.request rqa)
  | .addEvent _ _ => none

/-- The sender that a reply is. -/
def Reply.sender : Reply → Sender
  | .pong => .pong
  | .event e ty => .event e ty

/-- The event as it is encoded now. -/
def wireEvent (jp : JPGraph) (e : Event ℕ) : Event ℤ := { e with roundID := jp.roundOf e }

/-- The message of a sender. What cannot be encoded is not sent, and a zero hash is not asked
for. -/
def Sender.output (jp : JPGraph) : Sender → List Output
  | .event e ty =>
    match encodeToBytes eventTy (wireEvent jp e).val with
    | .error _ => []
    | .ok b => [.sent none (arrivedMsg eventMsg (UInt32.ofNat ty) b)]
  | .request rqa =>
    if rqa.targetHash = FixedBytes.zero 32 then []
    else
      match encodeToBytes (.byteArray 32) rqa.targetHash with
      | .error _ => []
      | .ok b => [.sent (some rqa.targetAddr) (arrivedMsg reqsMsg 0 b)]
  | .pong =>
    match encodeToBytes (.byteArray 20) jp.coinbase with
    | .error _ => []
    | .ok b => [.sent none (arrivedMsg pongMsg 0 b)]

namespace NodeState

/-- A turn of the event loop. -/
def handleStep (keccak : List UInt8 → Hash) (s : NodeState) (b : Branch) :
    Except Stop (NodeState × List Output) := do
  let t ← eventHandle keccak s.handler s.graph b
  return ({ s with
      graph := t.graph
      handler := t.handler
      adds := s.adds ++ t.addCalls.map fun call => ⟨call.1, call.2, .start⟩
      senders := s.senders ++ t.started.filterMap Go.sender },
    if b = .witnessL then (s.graph.witnessL.take 1).map .tookLocal else [])

/-- A message comes in. -/
def receiveStep (s : NodeState) (msg : Msg) (pick : ℕ) : Except Stop (NodeState × List Output) := do
  let hd ← Node.handle s.graph msg pick
  return ({ s with
      graph := hd.graph
      senders := s.senders ++ hd.reply.toList.map Reply.sender }, [])

/-- A call of `AddEvent` goes on. -/
def addStep (keccak : List UInt8 → Hash) (s : NodeState) (i : ℕ) :
    Except Stop (NodeState × List Output) :=
  match s.adds[i]? with
  | none => .error .blocked
  | some call => do
    let (jp, next) ← call.step keccak s.graph
    match next with
    | some pc => return ({ s with graph := jp, adds := s.adds.set i { call with pc := pc } }, [])
    | none =>
      return ({ s with graph := jp, adds := s.adds.eraseIdx i }, [.added call.event call.type])

/-- A message is sent. -/
def sendStep (s : NodeState) (i : ℕ) : Except Stop (NodeState × List Output) :=
  match s.senders[i]? with
  | none => .error .blocked
  | some sender => .ok ({ s with senders := s.senders.eraseIdx i }, sender.output s.graph)

/-- A broadcast encodes its event for a peer. The goroutine comes back for the next one, and the
last one is left to `sendStep`. -/
def castStep (s : NodeState) (i : ℕ) : Except Stop (NodeState × List Output) :=
  match s.senders[i]? with
  | some (.event e ty) => .ok (s, (Sender.event e ty).output s.graph)
  | _ => .error .blocked

/-- `RoundLoop` goes on. -/
def roundLoopStep (s : NodeState) : Except Stop (NodeState × List Output) :=
  match s.consensus with
  | some idx =>
    .ok ({ s with
      graph := { s.graph with consensusTrigger := s.graph.consensusTrigger ++ [idx] }
      consensus := none }, [])
  | none =>
    match s.graph.roundTrigger with
    | [] => .error .blocked
    | v :: rest => do
      let (jp, consensus) ← { s.graph with roundTrigger := rest }.roundLoop v
      return ({ s with graph := jp, consensus := consensus }, [])

/-- `MonitorLoop` goes on. -/
def monitorStep (s : NodeState) (order : ℕ → List Address) :
    Except Stop (NodeState × List Output) := do
  let (m, jp) ← s.monitor.step s.graph order
  return ({ s with graph := jp, monitor := m },
    match s.monitor.pc with
    | .put v => [.putLocal (s.graph.vert v).event]
    | _ => [])

/-- `ConsensusShow` reads a number. -/
def consensusStep (s : NodeState) : Except Stop (NodeState × List Output) :=
  match s.graph.consensusTrigger with
  | [] => .error .blocked
  | _ :: rest => .ok ({ s with graph := { s.graph with consensusTrigger := rest } }, [])

/-- One goroutine takes a step. -/
def move (keccak : List UInt8 → Hash) (s : NodeState) :
    Action → Except Stop (NodeState × List Output)
  | .handle b => s.handleStep keccak b
  | .receive msg pick => s.receiveStep msg pick
  | .add i => s.addStep keccak i
  | .send i => s.sendStep i
  | .cast i => s.castStep i
  | .roundLoop => s.roundLoopStep
  | .monitor order => s.monitorStep order
  | .consensusShow => s.consensusStep

/-- One goroutine takes a step that overfills no channel. -/
def step (keccak : List UInt8 → Hash) (s : NodeState) (a : Action) :
    Except Stop (NodeState × List Output) := do
  let r ← s.move keccak a
  if fits r.1.graph then return r else .error .blocked

/-- A step is a move. -/
theorem step_of_move {keccak : List UInt8 → Hash} {s : NodeState} {a : Action}
    {Q : NodeState × List Output → Prop} (h : Ensures (s.move keccak a) Q) :
    Ensures (s.step keccak a) Q := by
  refine .bind h fun r hr => ?_
  split_ifs
  · exact .ok hr
  · exact .error

end NodeState

end Hashgrid.Node
