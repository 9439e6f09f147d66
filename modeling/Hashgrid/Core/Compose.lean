import Hashgrid.Core.EventHash
import Hashgrid.Core.Graph

/-!
# Composing and retrieving events

`ComposeEvent` and `RetrieveEvent` of `core/jigsaw.go` with `RandParent` of
`core/round.go`. The clock, the random number and the order in which Go walks over a map
are arguments.
-/

namespace Hashgrid.Core

open Hashgrid.Bytes

/-- The loop of `RandParent` from position `i` on. It keeps the last entry of another creator
and stops at the chosen position if that entry is one. -/
def randParentLoop (except : Address) (chosen : ℕ) :
    ℕ → RequestArg → List RequestArg → RequestArg × List RequestArg
  | _, ret, [] => (ret, [])
  | i, ret, arg :: rest =>
    if arg.targetAddr.compare except ≠ 0 then
      if i = chosen then
        let arg := { arg with refered := arg.refered + 1 }
        (arg, arg :: rest)
      else
        match randParentLoop except chosen (i + 1) arg rest with
        | (ret, rest) => (ret, arg :: rest)
    else
      match randParentLoop except chosen (i + 1) ret rest with
      | (ret, rest) => (ret, arg :: rest)

/-- `RandParent`, where `rand.Intn` is the given number modulo its argument: the entries
afterwards and the one that is returned. An entry is only returned when its address is zero. -/
def Round.randParent (rd : Round) (except : Address) (rand : ℕ) :
    List RequestArg × Option RequestArg :=
  if rd.newComer.length = 0 then (rd.newComer, none)
  else
    match randParentLoop except (rand % rd.newComer.length) 0
      ⟨FixedBytes.zero 32, FixedBytes.zero 20, 0⟩ rd.newComer with
    | (ret, newComer) =>
      if ret.targetAddr.compare (FixedBytes.zero 20) = 0 then (newComer, some ret)
      else (newComer, none)

namespace JPGraph

/-- The part of `ComposeEvent` that takes transactions. They are copied into a slice of
length 0, and one more than was copied is cut off. -/
def takeTrans (jp : JPGraph) : Except Stop (JPGraph × List (Option Transaction)) :=
  let mlen := min jp.transUnHandled.length maxTransInEvent
  if mlen = 0 then .ok (jp, [])
  else if mlen + 1 ≤ jp.transUnHandled.length then
    .ok ({ jp with transUnHandled := jp.transUnHandled.drop (mlen + 1) },
      copySlice [] (jp.transUnHandled.take mlen))
  else .error .sliceBounds

/-- The part of `ComposeEvent` that chooses the other parent in the front round. -/
def chooseOther (jp : JPGraph) (i rand : ℕ) : Except Stop (JPGraph × Hash × Address) :=
  match (jp.round i).bestVertex with
  | some v => .ok (jp, (jp.vert v).event.selfHash, (jp.vert v).event.selfSig.addr)
  | none =>
    if (jp.round i).ncLocked then .error .blocked
    else
      match (jp.round i).randParent jp.coinbase rand with
      | (newComer, arg) =>
        let jp := jp.setRound i fun rd => { rd with newComer := newComer }
        match arg with
        | some arg => .ok (jp, arg.targetHash, arg.targetAddr)
        | none => .ok (jp, FixedBytes.zero 32, FixedBytes.zero 20)

/-- The self parent and the round pointer of a composed event: those of the newest vertex of
this node, if there is one. -/
def composeOn (jp : JPGraph) (verTop : Option ℕ) (cell : ℕ) : Hash × Option ℕ :=
  match verTop with
  | some v => ((jp.vert v).event.selfHash, (jp.vert v).event.roundID)
  | none => (FixedBytes.zero 32, some cell)

/-- `ComposeEvent`. The round number is written through the pointer after the hash was taken. -/
def composeEvent (keccak : List UInt8 → Hash) (jp : JPGraph) (now : ℤ) (rand : ℕ) :
    Except Stop (JPGraph × Event ℕ) := do
  let cell := jp.cells.next
  let (jp, ts) ← { jp with cells := jp.cells.alloc jp.currentIdx }.takeTrans
  match jp.graph.lookup jp.coinbase, jp.queue.head? with
  | some c, some i =>
    let (selfPart, roundID) := jp.composeOn (jp.col c).verTop cell
    let (jp, otherPartH, otherPartA) ← jp.chooseOther i rand
    let et : Event ℕ := ⟨some now, ts, selfPart, FixedBytes.zero 32, ⟨jp.coinbase⟩, otherPartH,
      otherPartA, roundID⟩
    let et := { et with selfHash := et.hash keccak }
    match roundID with
    | some r => return ({ jp with cells := jp.cells.update r fun _ => (jp.round i).index }, et)
    | none => .error .nilDeref
  | _, _ => .error .nilDeref

/-- The vertices of this node's column that `RetrieveEvent` may answer with. -/
def retrievable (jp : JPGraph) (c : ℕ) (hash : Hash) : List ℕ :=
  ((jp.col c).hashChain.entries.map fun entry => entry.2).filter fun v =>
    (jp.vert v).event.otherPartH = hash ∧ (jp.vert v).anotherPt.isSome

/-- `RetrieveEvent`. The first match in an arbitrary order of the column answers. -/
def retrieveEvent (jp : JPGraph) (hash : Hash) (pick : ℕ) : Except String (Event ℕ × ℕ) :=
  match jp.graph.lookup jp.coinbase with
  | none => .error "RetrieveEvent: coinbase not in graph"
  | some c =>
    let vs := jp.retrievable c hash
    match vs[pick % vs.length]? with
    | none => .error "RetrieveEvent: not found"
    | some v =>
      match (jp.vert v).anotherPt with
      | none => .error "RetrieveEvent: not found"
      | some p => .ok ((jp.vert p).event, (jp.vert v).witness)

end JPGraph

end Hashgrid.Core
