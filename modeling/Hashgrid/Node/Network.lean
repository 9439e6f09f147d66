import Hashgrid.Core.EventCodec
import Hashgrid.Core.EventSize
import Hashgrid.Node.Agreement
import Hashgrid.Node.RoundBounds
import Hashgrid.Node.TwoNodes

/-!
# A network of nodes

Any number of nodes. A message that was sent may arrive at every node to which it is
addressed, in any order, more than once or not at all. Besides, the peers of a node ping
it, and anybody may send it anything. The events that nodes compose are written down next
to the run. Messages arrive as they were sent: the frames that carry them between two
connections are not part of the network.

In runs without forged messages every event that a node has is one that was composed, and
no round number goes beyond the current round of the node that is furthest ahead.
-/

namespace Hashgrid.Core

/-- An event without its round number, which nodes change. -/
def Event.body {ρ : Type} (e : Event ρ) : Event ℤ := { e with roundID := none }

end Hashgrid.Core

namespace Hashgrid.Node

open Hashgrid.Bytes Hashgrid.Core Hashgrid.Machine Hashgrid.Rlp Hashgrid.Wire

/-- A message that was sent. -/
structure Packet where
  /-- The address, or nothing for whoever is connected. -/
  target : Option Address
  /-- The message. -/
  msg : Msg

/-- The nodes and all messages that they have sent. -/
structure Network where
  /-- The nodes. -/
  nodes : List NodeState
  /-- The messages. -/
  sent : List Packet

/-- What can happen in a network. -/
inductive NetAction
  /-- A node takes a step of its own. -/
  | node (i : ℕ) (a : Action)
  /-- A message arrives. -/
  | deliver (i k pick : ℕ)
  /-- A peer pings a node. -/
  | ping (i : ℕ) (payload : List UInt8)
  /-- A node receives a message that no node has sent. -/
  | forge (i : ℕ) (msg : Msg) (pick : ℕ)

/-- New nodes with the given addresses and numbers of witnesses. -/
def newNetwork (members : List (Address × ℕ)) : Network :=
  ⟨members.map fun c => newNode c.1 c.2, []⟩

/-- The messages among the outputs of a node. -/
def packets (outputs : List Output) : List Packet :=
  outputs.filterMap fun
    | .sent target msg => some ⟨target, msg⟩
    | _ => none

namespace Network

/-- A node takes a step. The event that it composes is written down with its position. -/
def act (keccak : List UInt8 → Hash) (w : Network) (i : ℕ) (a : Action) :
    Except Stop (Network × List (ℕ × Event ℤ)) :=
  match w.nodes[i]? with
  | none => .error .blocked
  | some s => do
    let (s', outputs) ← s.step keccak a
    return (⟨w.nodes.set i s', w.sent ++ packets outputs⟩,
      (s.composed keccak a).toList.map fun e => (i, e.body))

/-- The node has the address of the message. -/
def addressed (w : Network) (i : ℕ) (p : Packet) : Bool :=
  p.target.all fun a => (w.nodes[i]?).any fun s => s.graph.coinbase = a

/-- What happens next. -/
def step (keccak : List UInt8 → Hash) (w : Network) :
    NetAction → Except Stop (Network × List (ℕ × Event ℤ))
  | .node i a => if a.isReceive then .error .blocked else w.act keccak i a
  | .deliver i k pick =>
    match w.sent[k]? with
    | none => .error .blocked
    | some p =>
      if w.addressed i p then w.act keccak i (.receive p.msg pick) else .error .blocked
  | .ping i payload => w.act keccak i (.receive (arrivedMsg pingMsg 0 payload) 0)
  | .forge i msg pick => w.act keccak i (.receive msg pick)

/-- The current round of the node that is furthest ahead. -/
def top (w : Network) : ℕ := w.nodes.foldr (fun s t => max s.graph.currentIdx t) 0

end Network

/-- No message is forged, and the clocks fit into a machine word. -/
def NetAction.Honest : NetAction → Prop
  | .node _ a => ∀ now ∈ a.clock, 0 ≤ now ∧ now < 2 ^ 63
  | .forge _ _ _ => False
  | _ => True

instance (a : NetAction) : Decidable a.Honest := by
  cases a <;> unfold NetAction.Honest <;> infer_instance

namespace NodeState

/-- Messages are sent by the goroutines that send. -/
theorem exists_of_sent (keccak : List UInt8 → Hash) (s : NodeState) (a : Action) :
    Ensures (s.move keccak a) fun r => ∀ target msg, .sent target msg ∈ r.2 →
      ∃ sender ∈ s.senders, .sent target msg ∈ sender.output s.graph := by
  unfold move
  cases a with
  | handle b =>
    refine .bind (.self _) fun t _ => .ok fun target msg hmem => ?_
    dsimp only at hmem
    split_ifs at hmem
    · obtain ⟨e, -, he⟩ := List.mem_map.mp hmem
      cases he
    · cases hmem
  | receive msg pick => exact .bind (.self _) fun hd _ => .ok fun _ _ hmem => by cases hmem
  | add i =>
    dsimp only [addStep]
    split
    · exact .error
    · refine .bind (.self _) fun r _ => ?_
      obtain ⟨jp, pc⟩ := r
      cases pc with
      | some pc => exact .ok fun _ _ hmem => by cases hmem
      | none =>
        refine .ok fun target msg hmem => ?_
        cases List.mem_singleton.mp hmem
  | send i =>
    dsimp only [sendStep]
    split
    · exact .error
    · next sender hsender =>
      exact .ok fun _ _ hmem => ⟨sender, List.mem_of_getElem? hsender, hmem⟩
  | cast i =>
    dsimp only [castStep]
    split
    · next e ty hsender =>
      exact .ok fun _ _ hmem => ⟨.event e ty, List.mem_of_getElem? hsender, hmem⟩
    · exact .error
  | roundLoop =>
    dsimp only [roundLoopStep]
    split
    · exact .ok fun _ _ hmem => by cases hmem
    · split
      · exact .error
      · exact .bind (.self _) fun r _ => .ok fun _ _ hmem => by cases hmem
  | monitor order =>
    refine .bind (.self _) fun r _ => .ok fun target msg hmem => ?_
    dsimp only at hmem
    split at hmem
    · cases List.mem_singleton.mp hmem
    · cases hmem
  | consensusShow =>
    dsimp only [consensusStep]
    split
    · exact .error
    · exact .ok fun _ _ hmem => by cases hmem

end NodeState

/-- The event was composed, and it has a round number. -/
structure Genuine {ρ : Type} (composed : List (ℕ × Event ℤ)) (e : Event ρ) : Prop where
  /-- Its body was written down. -/
  body : ∃ j, (j, e.body) ∈ composed
  /-- It has a round number. -/
  round : e.roundID ≠ none

/-- What is known about an event that was written down. -/
structure Recorded (addresses : List Address) (entry : ℕ × Event ℤ) : Prop where
  /-- It was composed by the node whose address it has. -/
  creator : addresses[entry.1]? = some entry.2.selfSig.addr
  /-- It has no transactions. -/
  trans : entry.2.trans = []
  /-- It has a time stamp that fits into a machine word. -/
  stamp : ∃ t, entry.2.timeStamp = some t ∧ 0 ≤ t ∧ t < 2 ^ 63
  /-- It names no other parent, unless a node has the zero address. -/
  otherH : entry.2.otherPartH = FixedBytes.zero 32 ∨ FixedBytes.zero 20 ∈ addresses

/-- What holds in a network without forged messages. -/
structure Network.Genuine (keccak : List UInt8 → Hash) (addresses : List Address) (n : ℕ)
    (w : Network × List (ℕ × Event ℤ)) : Prop where
  /-- The nodes have their addresses. -/
  coinbases : w.1.nodes.map (fun s => s.graph.coinbase) = addresses
  /-- The composed events. -/
  recorded : ∀ entry ∈ w.2, Recorded addresses entry
  /-- The references of nodes. -/
  sound : ∀ s ∈ w.1.nodes, s.Sound keccak
  /-- The round pointers of nodes. -/
  pointed : ∀ s ∈ w.1.nodes, s.Pointed
  /-- The events of nodes. -/
  held : ∀ s ∈ w.1.nodes, s.Held (Node.Genuine w.2)
  /-- The round numbers of nodes. -/
  within : ∀ s ∈ w.1.nodes, s.graph.Within w.1.top
  /-- A round is opened in a step. -/
  steps : w.1.top ≤ n
  /-- The messages. -/
  sent : ∀ p ∈ w.1.sent, p.msg.code = eventMsg → Node.Genuine w.2 (decodeMsg p.msg) ∧
    ∀ x ∈ (decodeMsg p.msg).roundID, 0 ≤ x ∧ x ≤ w.1.top

variable {composed : List (ℕ × Event ℤ)} {ρ : Type} {addresses : List Address} {jp : JPGraph}
  {top : ℕ} {e : Event ρ}

theorem Genuine.mono (h : Genuine composed e) (more : List (ℕ × Event ℤ)) :
    Genuine (composed ++ more) e := by
  obtain ⟨j, hj⟩ := h.body
  exact ⟨⟨j, List.mem_append_left more hj⟩, h.round⟩

theorem Genuine.trans (hrecorded : ∀ entry ∈ composed, Recorded addresses entry)
    (h : Genuine composed e) : e.trans = [] := by
  obtain ⟨j, hj⟩ := h.body
  exact (hrecorded _ hj).trans

/-- An event that is read from the wire stays genuine. -/
theorem Genuine.receive {e : Event ℤ} (h : Genuine composed e) (jp : JPGraph) :
    Genuine composed (jp.receive e).2 := by
  obtain ⟨hbody, hround⟩ := h
  unfold JPGraph.receive
  split
  · next hnone => exact absurd hnone hround
  · exact ⟨hbody, Option.some_ne_none _⟩

/-- A genuine event is sent, and what arrives is the event with the round number that the sender
has. -/
theorem Genuine.output (hrecorded : ∀ entry ∈ composed, Recorded addresses entry)
    (hwithin : jp.Within top) (htop : top < 2 ^ 63) {e : Event ℕ} (h : Genuine composed e)
    (ty : ℕ) : ∃ b,
      (Sender.event e ty).output jp = [.sent none (arrivedMsg eventMsg (UInt32.ofNat ty) b)] ∧
        decodeMsg (arrivedMsg eventMsg (UInt32.ofNat ty) b) = wireEvent jp e := by
  obtain ⟨j, hj⟩ := h.body
  have hentry := hrecorded _ hj
  obtain ⟨t, ht, hpos, htlt⟩ := hentry.stamp
  have ht : (wireEvent jp e).timeStamp = some t := ht
  have htrans : (wireEvent jp e).trans = [] := hentry.trans
  obtain ⟨k, hk⟩ := Option.ne_none_iff_exists'.mp h.round
  have hround : (wireEvent jp e).roundID = some (jp.cells.get k) := by
    change e.roundID.map jp.cells.get = _
    rw [hk]
    rfl
  obtain ⟨hcell, hcellLe⟩ := hwithin.cell k
  obtain ⟨b, henc⟩ := (proper_val ht hpos hround hcell (by rw [htrans]; simp)).exists_encode eventTy
  have hlength : b.length < 2 ^ 32 := by
    refine encode_event_length htrans (fun t' ht' => ?_) (fun r hr => ?_) b henc
    · obtain rfl := Option.some.inj (ht.symm.trans ht')
      exact htlt
    · obtain rfl := Option.some.inj (hround.symm.trans hr)
      omega
  have hbytes := encodeToBytes_eq_ok.mpr ⟨henc, by omega⟩
  refine ⟨b, ?_, ?_⟩
  · dsimp only [Sender.output]
    rw [hbytes]
  · rw [decodeMsg_arrivedMsg _ _ hlength,
      decodeEvent_encode (by rw [ht]; exact Option.some_ne_none t)
        (by rw [hround]; exact Option.some_ne_none _) hbytes]
    change { wireEvent jp e with trans := (wireEvent jp e).trans.map fun _ => some ⟨⟩ } = _
    rw [htrans]
    exact congrArg (fun ts => { wireEvent jp e with trans := ts }) htrans.symm

/-- What arrives is genuine, with a round number that the sender has. -/
theorem decodeMsg_output (hrecorded : ∀ entry ∈ composed, Recorded addresses entry)
    (hwithin : jp.Within top) (htop : top < 2 ^ 63) {sender : Sender}
    (hsender : ∀ e ty, sender = .event e ty → Genuine composed e) {target : Option Address}
    {msg : Msg} (hmem : .sent target msg ∈ sender.output jp) (hcode : msg.code = eventMsg) :
    Genuine composed (decodeMsg msg) ∧ ∀ x ∈ (decodeMsg msg).roundID, 0 ≤ x ∧ x ≤ top := by
  cases sender with
  | request rqa =>
    unfold Sender.output at hmem
    dsimp only at hmem
    split_ifs at hmem
    · cases hmem
    · split at hmem
      · cases hmem
      · cases List.mem_singleton.mp hmem
        exact absurd hcode (show reqsMsg ≠ eventMsg by decide)
  | pong =>
    unfold Sender.output at hmem
    dsimp only at hmem
    split at hmem
    · cases hmem
    · cases List.mem_singleton.mp hmem
      exact absurd hcode (show pongMsg ≠ eventMsg by decide)
  | event e ty =>
    have hgenuine := hsender e ty rfl
    obtain ⟨b, houtput, hdecode⟩ := hgenuine.output hrecorded hwithin htop ty
    rw [houtput] at hmem
    cases List.mem_singleton.mp hmem
    obtain ⟨k, hk⟩ := Option.ne_none_iff_exists'.mp hgenuine.round
    have hround : (wireEvent jp e).roundID = some (jp.cells.get k) := by
      change e.roundID.map jp.cells.get = _
      rw [hk]
      rfl
    rw [hdecode]
    refine ⟨⟨hgenuine.body, by rw [hround]; exact Option.some_ne_none _⟩, fun x hx => ?_⟩
    obtain rfl := Option.some.inj (hround.symm.trans hx)
    exact hwithin.cell k

namespace Network

variable {keccak : List UInt8 → Hash}

/-- No node is further ahead. -/
theorem top_le_iff {w : Network} {m : ℕ} :
    w.top ≤ m ↔ ∀ s ∈ w.nodes, s.graph.currentIdx ≤ m := by
  unfold top
  induction w.nodes with
  | nil => simp
  | cons s nodes ih => simp [ih]

theorem le_top {w : Network} {s : NodeState} (hs : s ∈ w.nodes) : s.graph.currentIdx ≤ w.top :=
  top_le_iff.mp le_rfl s hs

/-- A node moves on. -/
theorem top_set {w : Network} {i : ℕ} {s s' : NodeState} (hs : w.nodes[i]? = some s)
    (hmono : s.graph.currentIdx ≤ s'.graph.currentIdx) (sent : List Packet) :
    (Network.mk (w.nodes.set i s') sent).top = max w.top s'.graph.currentIdx := by
  obtain ⟨l, r, hnodes, hset, -⟩ := Pools.exists_others hs
  apply le_antisymm
  · refine top_le_iff.mpr fun t ht => ?_
    rcases List.mem_or_eq_of_mem_set ht with ht | rfl
    · exact (le_top ht).trans (le_max_left _ _)
    · exact le_max_right _ _
  · have hmem : s' ∈ w.nodes.set i s' := by
      rw [hset]
      exact List.mem_append_right l List.mem_cons_self
    have hnew : s'.graph.currentIdx ≤ (Network.mk (w.nodes.set i s') sent).top := le_top hmem
    refine max_le (top_le_iff.mpr fun t ht => ?_) hnew
    rw [hnodes] at ht
    have hother (ht : t ∈ l ++ s' :: r) :
        t.graph.currentIdx ≤ (Network.mk (w.nodes.set i s') sent).top :=
      le_top (w := ⟨w.nodes.set i s', sent⟩) ((hset s').symm ▸ ht)
    rcases List.mem_append.mp ht with ht | ht
    · exact hother (List.mem_append_left _ ht)
    · rcases List.mem_cons.mp ht with rfl | ht
      · exact hmono.trans hnew
      · exact hother (List.mem_append_right _ (List.mem_cons_of_mem _ ht))

/-- What a step of node `i` does to the network. -/
structure Acted (keccak : List UInt8 → Hash) (w : Network × List (ℕ × Event ℤ)) (i : ℕ) (a : Action)
    (s s' : NodeState) (outputs : List Output) (w' : Network × List (ℕ × Event ℤ)) : Prop where
  /-- The node before. -/
  found : w.1.nodes[i]? = some s
  /-- Its step. -/
  move : s.move keccak a = .ok (s', outputs)
  /-- The other nodes stay. -/
  nodes : w'.1.nodes = w.1.nodes.set i s'
  /-- Messages are sent. -/
  sent : w'.1.sent = w.1.sent ++ packets outputs
  /-- What is composed is written down. -/
  composed : w'.2 = w.2 ++ (s.composed keccak a).toList.map fun e => (i, e.body)

/-- The node that takes a step, and its step. -/
def turn (w : Network) : NetAction → Option (ℕ × Action)
  | .node i a => if a.isReceive then none else some (i, a)
  | .deliver i k pick => (w.sent[k]?).map fun p => (i, .receive p.msg pick)
  | .ping i payload => some (i, .receive (arrivedMsg pingMsg 0 payload) 0)
  | .forge i msg pick => some (i, .receive msg pick)

/-- Every step of the network is a step of a node. -/
theorem step_turn (keccak : List UInt8 → Hash) (w : Network) (a : NetAction) :
    Ensures (w.step keccak a) fun r => ∃ i act, w.turn a = some (i, act) ∧
      w.act keccak i act = .ok r := by
  cases a with
  | node i act =>
    dsimp only [step, turn]
    split_ifs
    · exact .error
    · exact fun r hr => ⟨i, act, rfl, hr⟩
  | deliver i k pick =>
    dsimp only [step]
    split
    · exact .error
    · next p hp =>
      split_ifs
      · exact fun r hr => ⟨i, _, by rw [turn, hp]; rfl, hr⟩
      · exact .error
  | ping i payload => exact fun r hr => ⟨i, _, rfl, hr⟩
  | forge i msg pick => exact fun r hr => ⟨i, _, rfl, hr⟩

/-- What a step of the network does. -/
theorem step_acted (keccak : List UInt8 → Hash) (w : Network × List (ℕ × Event ℤ))
    (a : NetAction) : Ensures (logged (Network.step keccak) w a) fun w' => ∃ i act s s' outputs,
      w.1.turn a = some (i, act) ∧ Acted keccak w i act s s' outputs w' := by
  refine .map (w.1.step_turn keccak a) ?_
  rintro r ⟨i, act, hturn, hact⟩
  unfold Network.act at hact
  cases hfound : w.1.nodes[i]? with
  | none =>
    rw [hfound] at hact
    cases hact
  | some s =>
    rw [hfound] at hact
    have hspec : Ensures (s.step keccak act) fun m => s.move keccak act = .ok m :=
      NodeState.step_of_move (.self _)
    have hends : ∃ s' outputs, Acted keccak w i act s s' outputs (r.1, w.2 ++ r.2) :=
      hspec.bind (R := fun r : Network × List (ℕ × Event ℤ) => ∃ s' outputs,
        Acted keccak w i act s s' outputs (r.1, w.2 ++ r.2))
        (fun m hm => .ok ⟨m.1, m.2, hfound, hm, rfl, rfl, rfl⟩) r hact
    obtain ⟨s', outputs, hacted⟩ := hends
    exact ⟨i, act, s, s', outputs, hturn, hacted⟩

variable {n : ℕ}

section Acted

variable {w w' : Network × List (ℕ × Event ℤ)} {i : ℕ} {a : Action} {s s' : NodeState}
  {outputs : List Output}

theorem Acted.found_self (h : Acted keccak w i a s s' outputs w') :
    w'.1.nodes[i]? = some s' := by
  rw [h.nodes]
  exact List.getElem?_set_self (List.getElem?_eq_some_iff.mp h.found).1

theorem Acted.found_ne (h : Acted keccak w i a s s' outputs w') {j : ℕ} (hj : j ≠ i) :
    w'.1.nodes[j]? = w.1.nodes[j]? := by
  rw [h.nodes]
  exact List.getElem?_set_ne hj.symm

/-- What every node had and the node keeps. -/
theorem Acted.forall_nodes (h : Acted keccak w i a s s' outputs w') {P : NodeState → Prop}
    (hP : ∀ t ∈ w.1.nodes, P t) (hs' : P s → P s') : ∀ t ∈ w'.1.nodes, P t := by
  intro t ht
  rw [h.nodes] at ht
  rcases List.mem_or_eq_of_mem_set ht with ht | rfl
  · exact hP t ht
  · exact hs' (hP s (List.mem_of_getElem? h.found))

/-- A step of a node keeps the network genuine. -/
theorem Acted.genuine (hacted : Acted keccak w i a s s' outputs w')
    (h : Genuine keccak addresses n w) (hn : n < 2 ^ 63)
    (hclock : ∀ now ∈ a.clock, 0 ≤ now ∧ now < 2 ^ 63)
    (hreceived : ∀ msg pick, a = .receive msg pick → msg.code = eventMsg →
      Node.Genuine w.2 (decodeMsg msg) ∧
        ∀ x ∈ (decodeMsg msg).roundID, 0 ≤ x ∧ x ≤ w.1.top) :
    Genuine keccak addresses (n + 1) w' ∧ s.Raises s' a w.1.top ∧
      w'.1.top = max w.1.top s'.graph.currentIdx := by
  obtain ⟨hfound, hmove, hnodes, hsent, hcomposed⟩ := hacted
  have hmem := List.mem_of_getElem? hfound
  have hsound := h.sound s hmem
  have hpointed := h.pointed s hmem
  have hwithin := h.within s hmem
  have hraises : s.Raises s' a w.1.top := NodeState.within_move keccak hwithin
    (fun msg pick ha hcode => (hreceived msg pick ha hcode).2) _ hmove
  have htop : w'.1.top = max w.1.top s'.graph.currentIdx := by
    have htop := top_set hfound hraises.mono w'.1.sent
    rwa [← hnodes] at htop
  have htopLe : w.1.top ≤ w'.1.top := htop ▸ le_max_left _ _
  have hnew {e : Event ℕ} (he : e ∈ s.composed keccak a) : (i, e.body) ∈ w'.2 := by
    rw [hcomposed]
    exact List.mem_append_right _ (List.mem_map_of_mem (Option.mem_toList.mpr he))
  have hold {ρ : Type} {e : Event ρ} (he : Node.Genuine w.2 e) : Node.Genuine w'.2 e := by
    rw [hcomposed]
    exact he.mono _
  have hlog : ∀ entry ∈ w'.2, Recorded addresses entry := by
    intro entry hentry
    rw [hcomposed] at hentry
    rcases List.mem_append.mp hentry with hentry | hentry
    · exact h.recorded entry hentry
    · obtain ⟨e, he, rfl⟩ := List.mem_map.mp hentry
      obtain ⟨now, hnow, hfields⟩ := hsound.composed (Option.mem_toList.mp he)
      refine ⟨?_, hfields.trans, ⟨now, hfields.stamp, hclock now hnow⟩, hfields.otherH.imp_right ?_⟩
      · change addresses[i]? = some e.selfSig.addr
        rw [← h.coinbases, List.getElem?_map, hfound, hfields.creator]
        rfl
      · rintro ⟨v, hv, -, haddr⟩
        obtain ⟨j, hj⟩ := ((h.held s hmem).vert v hv).body
        exact haddr ▸ List.mem_of_getElem? (h.recorded _ hj).creator
  have hheld : s'.Held (Node.Genuine w'.2) := by
    refine ((h.held s hmem).mono fun e he => hold he).move hsound hpointed (fun e he => ?_)
      (fun e he => ?_) (fun e he => ?_) _ hmove
    · have hcopy : copyEvent e = e := by
        rw [copyEvent_eq, ← he.trans hlog]
      rw [hcopy]
      exact he
    · obtain ⟨now, -, hfields⟩ := hsound.composed he
      exact ⟨⟨i, hnew he⟩, hfields.round⟩
    · obtain ⟨msg, pick, ha, hcode, rfl⟩ := NodeState.exists_of_received he
      exact (hold (hreceived msg pick ha hcode).1).receive s.graph
  have hall {P : NodeState → Prop} (hP : ∀ t ∈ w.1.nodes, P t) (hs' : P s') :
      ∀ t ∈ w'.1.nodes, P t :=
    Acted.forall_nodes ⟨hfound, hmove, hnodes, hsent, hcomposed⟩ hP fun _ => hs'
  refine ⟨⟨?_, hlog, hall h.sound (hsound.move a _ hmove).1,
    hall h.pointed (hpointed.move a _ hmove),
    hall (fun t ht => (h.held t ht).mono fun e he => hold he) hheld, ?_, ?_,
    fun p hp hcode => ?_⟩, hraises, htop⟩
  · have hbefore : (w.1.nodes.map fun s => s.graph.coinbase)[i]? = some s.graph.coinbase := by
      rw [List.getElem?_map, hfound]
      rfl
    obtain ⟨hi, heq⟩ := List.getElem?_eq_some_iff.mp hbefore
    rw [hnodes, List.map_set, ← h.coinbases, (hsound.move a _ hmove).2.coinbase, ← heq,
      List.set_getElem_self]
  · exact hall (fun t ht => (h.within t ht).mono htopLe) (htop ▸ hraises.within)
  · have hbefore := (le_top hmem).trans h.steps
    have hsteps := h.steps
    rw [htop]
    rcases hraises.raised with hle | ⟨-, v, -, -, heq⟩
    · exact max_le (by omega) (by omega)
    · exact max_le (by omega) (by omega)
  · have hround {x : ℤ} (hx : 0 ≤ x ∧ x ≤ w.1.top) : 0 ≤ x ∧ x ≤ w'.1.top :=
      ⟨hx.1, hx.2.trans (by exact_mod_cast htopLe)⟩
    rw [hsent] at hp
    rcases List.mem_append.mp hp with hp | hp
    · obtain ⟨hgenuine, hrounds⟩ := h.sent p hp hcode
      exact ⟨hold hgenuine, fun x hx => hround (hrounds x hx)⟩
    · obtain ⟨output, houtput, hpacket⟩ := List.mem_filterMap.mp hp
      cases output with
      | sent target msg =>
        obtain rfl := Option.some.inj hpacket
        obtain ⟨sender, hsender, hmem'⟩ := s.exists_of_sent keccak a _ hmove target msg houtput
        obtain ⟨hgenuine, hrounds⟩ := decodeMsg_output h.recorded hwithin
          (lt_of_le_of_lt h.steps hn)
          (fun e ty heq => (h.held s hmem).senders e ty (heq ▸ hsender)) hmem' hcode
        exact ⟨hold hgenuine, fun x hx => hround (hrounds x hx)⟩
      | putLocal e => cases hpacket
      | tookLocal e => cases hpacket
      | added e ty => cases hpacket

end Acted

/-- A step without a forged message keeps the network genuine. Only a local witness takes a node
beyond all others. -/
theorem Genuine.step {w : Network × List (ℕ × Event ℤ)} (h : Genuine keccak addresses n w)
    (hn : n < 2 ^ 63) {a : NetAction} (ha : a.Honest) :
    Ensures (logged (Network.step keccak) w a) fun w' =>
      Genuine keccak addresses (n + 1) w' ∧
        (w.1.top < w'.1.top → ∃ i s v, a = .node i .roundLoop ∧ w.1.nodes[i]? = some s ∧
          s.graph.roundTrigger.head? = some v ∧ (s.graph.vert v).witness = Mark.witnessLocal ∧
            w'.1.top = w.1.top + 1) := by
  intro w' hw'
  obtain ⟨i, act, s, s', outputs, hturn, hacted⟩ := step_acted keccak w a w' hw'
  -- Whoever receives a message receives one that was sent, or a ping.
  have hinput : (∀ now ∈ act.clock, 0 ≤ now ∧ now < 2 ^ 63) ∧
      (∀ msg pick, act = .receive msg pick → msg.code = eventMsg →
        Node.Genuine w.2 (decodeMsg msg) ∧
          ∀ x ∈ (decodeMsg msg).roundID, 0 ≤ x ∧ x ≤ w.1.top) ∧
      (act = .roundLoop → a = .node i .roundLoop) := by
    cases a with
    | node j b =>
      dsimp only [turn] at hturn
      split_ifs at hturn with hreceive
      cases hturn
      refine ⟨ha, fun msg pick heq => ?_, fun heq => by rw [heq]⟩
      rw [heq] at hreceive
      exact absurd rfl hreceive
    | deliver j k pick =>
      obtain ⟨p, hp, heq⟩ := Option.map_eq_some_iff.mp hturn
      cases heq
      refine ⟨fun now hnow => (by cases hnow), fun msg pick' heq => ?_, fun heq => (by cases heq)⟩
      cases heq
      exact h.sent p (List.mem_of_getElem? hp)
    | ping j payload =>
      cases hturn
      refine ⟨fun now hnow => (by cases hnow), fun msg pick' heq hcode => ?_,
        fun heq => (by cases heq)⟩
      cases heq
      exact absurd hcode (show pingMsg ≠ eventMsg by decide)
    | forge j msg pick => exact ha.elim
  obtain ⟨hgenuine, hraises, htop⟩ := hacted.genuine h hn hinput.1 hinput.2.1
  refine ⟨hgenuine, fun hlt => ?_⟩
  rcases hraises.raised with hle | ⟨hact, v, hhead, hlocal, hnext⟩
  · exact absurd hlt (by rw [htop, max_eq_left hle]; exact lt_irrefl _)
  · have hcurrent := le_top (List.mem_of_getElem? hacted.found)
    exact ⟨i, s, v, hinput.2.2 hact, hacted.found, hhead, hlocal, by omega⟩

/-- A new network. -/
theorem genuine_newNetwork (keccak : List UInt8 → Hash) (members : List (Address × ℕ)) :
    Genuine keccak (members.map Prod.fst) 0 (newNetwork members, []) := by
  have hnode {s : NodeState} (hs : s ∈ (newNetwork members).nodes) :
      ∃ a b, s = newNode a b := by
    obtain ⟨c, -, rfl⟩ := List.mem_map.mp hs
    exact ⟨c.1, c.2, rfl⟩
  have htop : (newNetwork members).top ≤ 0 := by
    refine top_le_iff.mpr fun s hs => ?_
    obtain ⟨a, b, rfl⟩ := hnode hs
    exact le_rfl
  refine ⟨?_, fun entry hentry => (by cases hentry), fun s hs => ?_, fun s hs => ?_,
    fun s hs => ?_, fun s hs => ?_, htop, fun p hp => (by cases hp)⟩
  · exact List.map_map.trans rfl
  · obtain ⟨a, b, rfl⟩ := hnode hs
    exact NodeState.sound_newNode keccak a b
  · obtain ⟨a, b, rfl⟩ := hnode hs
    exact NodeState.Pointed.newNode a b
  · obtain ⟨a, b, rfl⟩ := hnode hs
    exact NodeState.held_newNode _ a b
  · obtain ⟨a, b, rfl⟩ := hnode hs
    exact NodeState.within_newNode a b _

/-- Every run without forged messages. -/
theorem Genuine.of_run {members : List (Address × ℕ)} {actions : List NetAction}
    {w : Network × List (ℕ × Event ℤ)}
    (hrun : run (logged (Network.step keccak)) (newNetwork members, []) actions = .ok w)
    (hhonest : ∀ a ∈ actions, a.Honest) (hlength : actions.length < 2 ^ 63) :
    Genuine keccak (members.map Prod.fst) actions.length w := by
  -- The number of steps bounds the round numbers, as long as it fits into a machine word.
  have hstep (n : ℕ) (w : Network × List (ℕ × Event ℤ)) (a : NetAction)
      (h : n < 2 ^ 63 → Genuine keccak (members.map Prod.fst) n w) (ha : a.Honest) :
      Ensures (logged (Network.step keccak) w a) fun w' =>
        n + 1 < 2 ^ 63 → Genuine keccak (members.map Prod.fst) (n + 1) w' := by
    exact fun w' hw' hn => ((h (by omega)).step (by omega) ha w' hw').1
  have hinit : 0 < 2 ^ 63 → Genuine keccak (members.map Prod.fst) 0 (newNetwork members, []) :=
    fun _ => genuine_newNetwork keccak members
  have hend := run_counted hstep hinit (meets_of_mem hhonest) w hrun
  rw [Nat.zero_add] at hend
  exact hend hlength

end Network

/-- Nodes `0x0a` and `0x0b`. -/
def twoMembers : List (Address × ℕ) :=
  [(FixedBytes.ofNat 20 0x0A, 2), (FixedBytes.ofNat 20 0x0B, 2)]

/-- What happens in a network of the two nodes. -/
def twoMemberRun (actions : List NetAction) : Except Stop (Network × List (ℕ × Event ℤ)) :=
  run (logged (Network.step pairKeccak)) (newNetwork twoMembers, []) actions

/-- The network of the two nodes after the given actions. -/
def twoMembersAfter (actions : List NetAction) : Network × List (ℕ × Event ℤ) :=
  (twoMemberRun actions).toOption.getD (newNetwork twoMembers, [])

/-- A node takes a step a number of times. -/
def nodeTimes (i n : ℕ) (a : Action) : List NetAction := List.replicate n (.node i a)

/-- Both nodes compose an event. That of node `0x0b` arrives twice at node `0x0a`, which adds it
and composes another event. -/
def gossipTwo : List NetAction :=
  nodeTimes 0 1 (.handle (.onlyTime 1 0)) ++ nodeTimes 0 8 (.add 0) ++
    nodeTimes 1 1 (.handle (.onlyTime 2 0)) ++ nodeTimes 1 1 (.send 0) ++
    [.deliver 0 0 0, .deliver 0 0 0, .ping 1 []] ++ nodeTimes 0 1 (.handle .eventNorm) ++
    nodeTimes 0 11 (.add 0) ++ nodeTimes 0 1 (.handle (.onlyTime 3 0)) ++ nodeTimes 0 8 (.add 0)

/-- The first event of node `0x0a` gets to node `0x0b`, which has added its own. -/
def gossipBoth : List NetAction :=
  gossipTwo ++ nodeTimes 0 1 (.send 0) ++ [.deliver 1 1 0] ++ nodeTimes 1 8 (.add 0) ++
    nodeTimes 1 1 (.handle .eventNorm) ++ nodeTimes 1 11 (.add 0)

/-- `MonitorLoop` of node `0x0a` chooses its second event as a local witness. -/
def gossipWitness : List NetAction :=
  gossipTwo ++ nodeTimes 0 5
    (.monitor fun _ => [FixedBytes.ofNat 20 0x0A, FixedBytes.ofNat 20 0x0B])

/-- In every run of a network without forged messages, whatever is lost, repeated or reordered,
every event that a node has stored was composed by the node whose address it has, and nothing of
it but the round number has changed. -/
theorem stored_composed (keccak : List UInt8 → Hash) {members : List (Address × ℕ)}
    {actions : List NetAction} {w : Network × List (ℕ × Event ℤ)}
    (hrun : run (logged (Network.step keccak)) (newNetwork members, []) actions = .ok w)
    (hhonest : ∀ a ∈ actions, a.Honest) (hlength : actions.length < 2 ^ 63) {s : NodeState}
    (hs : s ∈ w.1.nodes) {v : ℕ} (hv : v < s.graph.verts.next) :
    ∃ j, (j, (s.graph.vert v).event.body) ∈ w.2 ∧
      (members.map Prod.fst)[j]? = some (s.graph.vert v).event.selfSig.addr := by
  have hgenuine := Network.Genuine.of_run hrun hhonest hlength
  obtain ⟨j, hj⟩ := ((hgenuine.held s hs).vert v hv).body
  exact ⟨j, hj, (hgenuine.recorded _ hj).creator⟩

/-- Node `0x0b` has stored an event of node `0x0a`. -/
theorem stored_composed_both : ∃ s ∈ (twoMembersAfter gossipBoth).1.nodes,
    (s.graph.vert 1).event.selfSig.addr = FixedBytes.ofNat 20 0x0A ∧
      s.graph.coinbase = FixedBytes.ofNat 20 0x0B ∧
      ∃ j, (j, (s.graph.vert 1).event.body) ∈ (twoMembersAfter gossipBoth).2 ∧
        (twoMembers.map Prod.fst)[j]? = some (s.graph.vert 1).event.selfSig.addr := by
  obtain ⟨hreached, hhonest, hlength, s, hs, hv, haddr, hcoinbase⟩ :
      (twoMemberRun gossipBoth).toOption.isSome = true ∧ (∀ a ∈ gossipBoth, a.Honest) ∧
      gossipBoth.length < 2 ^ 63 ∧
      ∃ s ∈ (twoMembersAfter gossipBoth).1.nodes, 1 < s.graph.verts.next ∧
        (s.graph.vert 1).event.selfSig.addr = FixedBytes.ofNat 20 0x0A ∧
        s.graph.coinbase = FixedBytes.ofNat 20 0x0B := by decide +kernel
  have hrun : twoMemberRun gossipBoth = .ok (twoMembersAfter gossipBoth) := eq_ok_getD hreached _
  refine ⟨s, hs, haddr, hcoinbase, ?_⟩
  exact stored_composed pairKeccak hrun hhonest hlength hs hv

/-- In every run of a network without forged messages no round number of a node is beyond the
current round of the node that is furthest ahead, and only a `RoundLoop` that takes a vertex
marked `WitnessLocal` gets further. -/
theorem round_raised (keccak : List UInt8 → Hash) {members : List (Address × ℕ)}
    {actions : List NetAction} {w w' : Network × List (ℕ × Event ℤ)}
    (hrun : run (logged (Network.step keccak)) (newNetwork members, []) actions = .ok w)
    (hhonest : ∀ a ∈ actions, a.Honest) (hlength : actions.length < 2 ^ 63) :
    (∀ s ∈ w.1.nodes, s.graph.Within w.1.top) ∧ ∀ a : NetAction, a.Honest →
      logged (Network.step keccak) w a = .ok w' → w.1.top < w'.1.top →
        ∃ i s v, a = .node i .roundLoop ∧ w.1.nodes[i]? = some s ∧
          s.graph.roundTrigger.head? = some v ∧ (s.graph.vert v).witness = Mark.witnessLocal ∧
            w'.1.top = w.1.top + 1 := by
  have hgenuine := Network.Genuine.of_run hrun hhonest hlength
  refine ⟨hgenuine.within, fun a ha hstep hlt => ?_⟩
  exact (hgenuine.step hlength ha w' hstep).2 hlt

/-- A local witness of node `0x0a` opens round 1. -/
theorem round_raised_witness : ∃ w', logged (Network.step pairKeccak)
      (twoMembersAfter gossipWitness) (.node 0 .roundLoop) = .ok w' ∧
    ∃ i s v, NetAction.node 0 .roundLoop = .node i .roundLoop ∧
      (twoMembersAfter gossipWitness).1.nodes[i]? = some s ∧
      s.graph.roundTrigger.head? = some v ∧ (s.graph.vert v).witness = Mark.witnessLocal ∧
        w'.1.top = (twoMembersAfter gossipWitness).1.top + 1 := by
  obtain ⟨hreached, hhonest, hlength, hstep, hraised⟩ :
      (twoMemberRun gossipWitness).toOption.isSome = true ∧ (∀ a ∈ gossipWitness, a.Honest) ∧
      gossipWitness.length < 2 ^ 63 ∧
      (logged (Network.step pairKeccak) (twoMembersAfter gossipWitness)
        (.node 0 .roundLoop)).toOption.isSome = true ∧
      (twoMembersAfter gossipWitness).1.top < ((logged (Network.step pairKeccak)
        (twoMembersAfter gossipWitness) (.node 0 .roundLoop)).toOption.getD
          (newNetwork [], [])).1.top := by decide +kernel
  have hrun : twoMemberRun gossipWitness = .ok (twoMembersAfter gossipWitness) :=
    eq_ok_getD hreached _
  refine ⟨_, eq_ok_getD hstep (newNetwork [], []), ?_⟩
  exact (round_raised pairKeccak hrun hhonest hlength).2 _ (by decide)
    (eq_ok_getD hstep _) hraised

end Hashgrid.Node
