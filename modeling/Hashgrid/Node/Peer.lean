import Hashgrid.Core.EventWire
import Hashgrid.Core.LinkRefinement
import Hashgrid.Node.EventHandle
import Hashgrid.Wire.Frame

/-!
# Messages from a peer

`Peer.handle` of `p2p/peer.go`. An event message is decoded and put into one of the three
event channels; the error of the decoder is dropped.
-/

namespace Hashgrid.Node

open Hashgrid.Bytes Hashgrid.Core Hashgrid.Machine Hashgrid.Rlp Hashgrid.Wire

/-- `discMsg`. -/
def discMsg : UInt8 := 0x01

/-- `pingMsg`. -/
def pingMsg : UInt8 := 0x02

/-- `pongMsg`. -/
def pongMsg : UInt8 := 0x03

/-- `reqsMsg`. -/
def reqsMsg : UInt8 := 0x04

/-- `respMsg`. -/
def respMsg : UInt8 := 0x05

/-- `eventMsg`. -/
def eventMsg : UInt8 := 0x10

/-- Send an event to a channel that has room for it. -/
def putEvent (jp : JPGraph) (ch : Channel) (e : Event ℕ) : Except Stop JPGraph :=
  if (jp.channel ch).length < maxChanItem then
    .ok <| match ch with
      | .eventNorm => { jp with eventNorm := jp.eventNorm ++ [e] }
      | .witnessR => { jp with witnessR := jp.witnessR ++ [e] }
      | .witnessL => { jp with witnessL := jp.witnessL ++ [e] }
  else .error .blocked

/-- The messages that `handle` sends back in a goroutine. -/
inductive Reply
  /-- A pong with the address of this node. -/
  | pong
  /-- The requested event with the witness mark of its child. -/
  | event (e : Event ℕ) (ty : ℕ)
  deriving DecidableEq

/-- What `handle` leaves behind. -/
structure Handled where
  /-- The graph. -/
  graph : JPGraph
  /-- The goroutine it started. -/
  reply : Option Reply
  /-- The error it returns. -/
  err : Option String

/-- `Msg.Decode` into a fresh hash. -/
def decodeHash (msg : Msg) : Hash :=
  (decode (.byteArray 32) (newStream msg.payload.data msg.size.toNat)).1

/-- `Msg.Decode` into a fresh event, as far as it is filled. -/
def decodeMsg (msg : Msg) : Event ℤ :=
  Event.ofVal (decode eventTy (newStream msg.payload.data msg.size.toNat)).1

/-- `Peer.handle`. The number picks the match of a request. -/
def handle (jp : JPGraph) (msg : Msg) (pick : ℕ) : Except Stop Handled :=
  if msg.code = pingMsg then .ok ⟨jp, some .pong, none⟩
  else if msg.code = pongMsg then .ok ⟨jp, none, none⟩
  else if msg.code = discMsg then .ok ⟨jp, none, none⟩
  else if msg.code = eventMsg then
    match chanEvent msg.type with
    | none => .ok ⟨jp, none, none⟩
    | some ch =>
      match jp.receive (decodeMsg msg) with
      | (jp, e) => (putEvent jp ch e).map fun jp => ⟨jp, none, none⟩
  else if msg.code = reqsMsg then
    match jp.retrieveEvent (decodeHash msg) pick with
    | .error err => .ok ⟨jp, none, some err⟩
    | .ok (e, ty) => .ok ⟨jp, some (.event e ty), none⟩
  else if msg.code = respMsg then .ok ⟨jp, none, none⟩
  else .ok ⟨jp, none, none⟩

/-- A message as `ReadMsg` returns it. -/
def arrivedMsg (code : UInt8) (type : UInt32) (payload : List UInt8) : Msg :=
  ⟨code, type, UInt32.ofNat payload.length, newReader payload⟩

/-- An event was put into a channel. -/
def Puts (jp jp' : JPGraph) (ch : Channel) (e : Event ℕ) : Prop :=
  jp'.channel ch = jp.channel ch ++ [e]

/-- The bytes are the encoding of an event with all its fields. -/
def IsEncoding (payload : List UInt8) : Prop :=
  ∃ e : Event ℤ, e.timeStamp ≠ none ∧ e.roundID ≠ none ∧ encodeToBytes eventTy e.val = .ok payload

/-- Whatever the graph is when the event is taken from its channel and when it is added, no nil
pointer is dereferenced. -/
def NeverNil (ch : Channel) (e : Event ℕ) : Prop :=
  (∀ keccak h jp rest, jp.channel ch = e :: rest →
    Avoids (eventHandle keccak h jp (branchOf ch)) .nilDeref) ∧
  ∀ keccak ty (jp : JPGraph), Avoids (jp.addEvent keccak e ty) .nilDeref

/-- An event message whose type has a channel puts an event there just when the payload is an
encoding, and the event never leads to a nil pointer. -/
def HandlesExactly (jp : JPGraph) (type : UInt32) (payload : List UInt8) (pick : ℕ) : Prop :=
  ∃ hd, handle jp (arrivedMsg eventMsg type payload) pick = .ok hd ∧
    ((∃ ch e, Puts jp hd.graph ch e) ↔ (chanEvent type).isSome ∧ IsEncoding payload) ∧
    ∀ ch e, Puts jp hd.graph ch e → NeverNil ch e

variable {payload : List UInt8} {jp : JPGraph} {ch : Channel} {e : Event ℕ}

theorem decodeMsg_arrivedMsg (code : UInt8) (type : UInt32) (hlen : payload.length < 2 ^ 32) :
    decodeMsg (arrivedMsg code type payload) = (decodeEvent payload).1 := by
  unfold decodeMsg arrivedMsg decodeEvent newReader
  rw [UInt32.toNat_ofNat_of_lt' hlen]

/-- Putting an event into a channel with room. -/
theorem putEvent_eq_ok (e : Event ℕ) (hroom : (jp.channel ch).length < maxChanItem) :
    ∃ jp', putEvent jp ch e = .ok jp' ∧ Puts jp jp' ch e := by
  unfold putEvent
  rw [if_pos hroom]
  exact ⟨_, rfl, by cases ch <;> rfl⟩

/-- Putting an event into one channel leaves the others alone. -/
theorem channel_putEvent {jp' : JPGraph} {ch' : Channel} (h : putEvent jp ch e = .ok jp')
    (hne : ch' ≠ ch) : jp'.channel ch' = jp.channel ch' := by
  unfold putEvent at h
  split_ifs at h
  cases h
  cases ch <;> cases ch' <;> first | rfl | exact absurd rfl hne

theorem channel_receive (jp : JPGraph) (e : Event ℤ) (ch : Channel) :
    (jp.receive e).1.channel ch = jp.channel ch := by
  unfold JPGraph.receive
  cases e.roundID <;> cases ch <;> rfl

/-- What is done with an event message. -/
theorem handle_eventMsg (jp : JPGraph) {msg : Msg} (hcode : msg.code = eventMsg) (pick : ℕ) :
    handle jp msg pick = match chanEvent msg.type with
      | none => .ok ⟨jp, none, none⟩
      | some ch => (putEvent (jp.receive (decodeMsg msg)).1 ch (jp.receive (decodeMsg msg)).2).map
          fun jp => ⟨jp, none, none⟩ := by
  unfold handle
  rw [if_neg (by rw [hcode]; decide), if_neg (by rw [hcode]; decide),
    if_neg (by rw [hcode]; decide), if_pos hcode]

/-- What an event message with a channel does. -/
theorem handle_event {type : UInt32} (pick : ℕ) (hlen : payload.length < 2 ^ 32)
    (hch : chanEvent type = some ch) (hroom : (jp.channel ch).length < maxChanItem) :
    ∃ hd, handle jp (arrivedMsg eventMsg type payload) pick = .ok hd ∧
      Puts jp hd.graph ch (jp.receive (decodeEvent payload).1).2 ∧
      ∀ ch' ≠ ch, hd.graph.channel ch' = jp.channel ch' := by
  rw [handle_eventMsg jp rfl, decodeMsg_arrivedMsg _ _ hlen]
  have hkeep := channel_receive jp (decodeEvent payload).1
  generalize jp.receive (decodeEvent payload).1 = received at hkeep
  obtain ⟨jp', hput, hputs⟩ :=
    putEvent_eq_ok received.2 (show (received.1.channel ch).length < maxChanItem by rwa [hkeep])
  refine ⟨⟨jp', none, none⟩, ?_, ?_, fun ch' hch' =>
    (channel_putEvent hput hch').trans (hkeep ch')⟩
  · rw [show (arrivedMsg eventMsg type payload).type = type from rfl, hch]
    dsimp only
    rw [hput]
    rfl
  · exact hputs.trans (by rw [hkeep])

/-- The part of `AddEvent` in the round of a new vertex dereferences its round pointer only. -/
theorem finishVertex_avoids_nilDeref {v : ℕ} (hround : (jp.vert v).event.roundID ≠ none) (ty c : ℕ)
    (firstWitness linkpost : Bool) :
    Avoids (jp.finishVertex ty c v firstWitness linkpost) .nilDeref := by
  have hrecord (jp' : JPGraph) (hevent : (jp'.vert v).event = (jp.vert v).event) :
      Avoids (jp'.recordRound firstWitness ty c v) .nilDeref := by
    obtain ⟨k, hk⟩ := Option.ne_none_iff_exists'.mp hround
    unfold JPGraph.recordRound JPGraph.derefRound JPGraph.roundOf
    rw [hevent, hk, Option.map_some]
    split
    · exact .ok
    · refine .bind .ok fun r _ => ?_
      split
      · exact .ok
      · split
        · refine .bind ?_ fun _ _ => .ok
          unfold JPGraph.recordWitness
          dsimp only
          split
          · exact .ok
          · exact .error (by decide)
        · exact .ok
  unfold JPGraph.finishVertex
  refine .bind (hrecord _ (by split <;> rfl)) fun r _ => .bind ?_ fun _ _ => .ok
  unfold JPGraph.joinRound
  split
  · exact .ok
  · refine .bind ?_ fun _ _ => .ok
    unfold JPGraph.addComer
    split_ifs
    · exact .error (by decide)
    · exact .ok
    · exact .ok

/-- `AddEvent` dereferences no nil pointer when the event has a round number. -/
theorem addEvent_avoids_nilDeref (hround : e.roundID ≠ none) (keccak : List UInt8 → Hash)
    (jp : JPGraph) (ty : ℕ) : Avoids (jp.addEvent keccak e ty) .nilDeref := by
  have hvertex (jp : JPGraph) (c : ℕ) (firstWitness : Bool) (oc : Option ℕ) :
      Avoids (jp.addVertex e ty c firstWitness oc) .nilDeref := by
    unfold JPGraph.addVertex
    cases hlook : (jp.col c).hashChain.lookup e.selfHash with
    | some v =>
      simp only [JPGraph.insertVertex, hlook]
      exact .ok
    | none =>
      have hevent := ((jp.withVertex e ty c).alike_linkOther jp.verts.next oc).event jp.verts.next
      rw [JPGraph.vert_withVertex, if_pos rfl] at hevent
      rw [JPGraph.insertVertex_new hlook]
      dsimp only
      generalize (jp.withVertex e ty c).linkOther jp.verts.next oc = linked at hevent
      refine finishVertex_avoids_nilDeref (fun hnil => hround ?_) _ _ _ _
      rw [hevent] at hnil
      simpa [newVertex] using hnil
  unfold JPGraph.addEvent
  split_ifs
  · exact .ok
  · exact .bind (hvertex _ _ _ _) fun _ _ => .ok

/-- An event with a round number leads to no nil pointer. -/
theorem neverNil_of_roundID (hround : e.roundID ≠ none) (ch : Channel) : NeverNil ch e := by
  refine ⟨fun keccak h jp rest hhead => .map ?_,
    fun keccak ty jp => addEvent_avoids_nilDeref hround keccak jp ty⟩
  cases ch with
  | eventNorm =>
    change jp.eventNorm = e :: rest at hhead
    simp only [branchOf, select, hhead]
    exact .ok
  | witnessL =>
    change jp.witnessL = e :: rest at hhead
    simp only [branchOf, select, hhead]
    exact .ok
  | witnessR =>
    change jp.witnessR = e :: rest at hhead
    obtain ⟨k, hk⟩ := Option.ne_none_iff_exists'.mp hround
    simp only [branchOf, select, hhead, JPGraph.derefRound, JPGraph.roundOf, hk,
      Option.map_some]
    exact .ok

/-- An event message is handled exactly just when its type has no channel or its payload is an
encoding. -/
theorem handlesExactly_iff {jp : JPGraph} {type : UInt32} {payload : List UInt8} (pick : ℕ)
    (hlen : payload.length < 2 ^ 32)
    (hroom : ∀ ch, chanEvent type = some ch → (jp.channel ch).length < maxChanItem) :
    HandlesExactly jp type payload pick ↔ ((chanEvent type).isSome → IsEncoding payload) := by
  cases hch : chanEvent type with
  | none =>
    refine iff_of_true ⟨⟨jp, none, none⟩, ?_, ?_, ?_⟩ (by simp)
    · rw [handle_eventMsg jp rfl, show (arrivedMsg eventMsg type payload).type = type from rfl, hch]
    · refine iff_of_false ?_ (by simp [hch])
      rintro ⟨ch, e, hputs⟩
      simp [Puts] at hputs
    · intro ch e hputs
      simp [Puts] at hputs
  | some ch =>
    obtain ⟨hd, hhandle, hputs, hothers⟩ := handle_event pick hlen hch (hroom ch hch)
    constructor
    · rintro ⟨hd', hhandle', hiff, -⟩ -
      rw [hhandle] at hhandle'
      cases hhandle'
      exact (hiff.mp ⟨ch, _, hputs⟩).2
    · intro h
      have henc : IsEncoding payload := h rfl
      refine ⟨hd, hhandle, iff_of_true ⟨ch, _, hputs⟩ ⟨by simp [hch], henc⟩, fun ch' e hputs' => ?_⟩
      by_cases hne : ch' = ch
      · subst hne
        obtain ⟨ev, hstamp, hround, hbytes⟩ := henc
        unfold Puts at hputs hputs'
        rw [hputs, List.append_cancel_left_eq, List.singleton_inj] at hputs'
        subst hputs'
        rw [decodeEvent_encode hstamp hround hbytes]
        refine neverNil_of_roundID ?_ ch'
        obtain ⟨k, hk⟩ := Option.ne_none_iff_exists'.mp hround
        simp [JPGraph.receive, Event.received, hk]
      · rw [Puts, hothers ch' hne] at hputs'
        simp at hputs'

theorem channel_idleGraph (ch : Channel) : idleGraph.channel ch = [] := by
  cases ch <;> rfl

/-- A complete normal event is handled exactly. -/
theorem handlesExactly_emptyEvent : HandlesExactly idleGraph 1 emptyEvent.wire 0 :=
  (handlesExactly_iff 0 (by decide +kernel) fun ch _ => by rw [channel_idleGraph]; decide).mpr
    fun _ => ⟨emptyEvent, by decide, by decide, encodeToBytes_wire (by decide +kernel)⟩

/-- An empty payload of type `Witness` puts an empty event into `witnessR`, and the event loop
dereferences its nil round pointer. -/
theorem empty_payload_nilDeref :
    ¬ HandlesExactly idleGraph 2 [] 0 ∧
      ∃ hd, handle idleGraph (arrivedMsg eventMsg 2 []) 0 = .ok hd ∧
        Puts idleGraph hd.graph .witnessR default ∧
        eventHandle firstKeccak (newHandler idleGraph) hd.graph .witnessR = .error .nilDeref := by
  have hempty : (idleGraph.receive (decodeEvent []).1).2 = default := by decide +kernel
  obtain ⟨hd, hhandle, hputs, -⟩ :=
    handle_event 0 (show ([] : List UInt8).length < 2 ^ 32 by decide)
      (show chanEvent 2 = some .witnessR by decide) (by rw [channel_idleGraph]; decide)
  rw [hempty] at hputs
  refine ⟨?_, hd, hhandle, hputs, ?_⟩
  · rintro ⟨hd', hhandle', hiff, -⟩
    rw [hhandle] at hhandle'
    cases hhandle'
    obtain ⟨-, e, hstamp, hround, hbytes⟩ := hiff.mp ⟨_, _, hputs⟩
    have herr : (decodeEvent []).2 = none := by rw [decodeEvent_encode hstamp hround hbytes]
    exact absurd herr (by decide +kernel)
  · have hqueue : hd.graph.witnessR = [default] := hputs.trans (by rw [channel_idleGraph]; rfl)
    simp only [eventHandle, select, hqueue]
    rfl

end Hashgrid.Node
