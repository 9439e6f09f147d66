import Hashgrid.Node.TwoNodes

/-!
# Requests that end a connection

`Peer.handle` returns the error of `RetrieveEvent`, and `readLoop` takes it as the end of
the connection. `RetrieveEvent` finds a parent only through an own event that is linked to
it. So two nodes stay connected just as long as every request that arrives can be answered
in this way.
-/

namespace Hashgrid.Node

open Hashgrid.Bytes Hashgrid.Core Hashgrid.Machine Hashgrid.Rlp Hashgrid.Wire

/-- Two nodes and the connection between them. -/
structure Talk where
  /-- The nodes. -/
  pair : Pair
  /-- Whether no handler has returned an error. -/
  connected : Bool

/-- What two connected nodes can do next. -/
inductive TalkAct
  /-- A node takes a step, or a message arrives. -/
  | node (a : PairAction)
  /-- The first node pings the second. -/
  | pingLeft
  /-- The second node pings the first. -/
  | pingRight

/-- A ping, with the address of the node it goes to. -/
def ping (id : Address) : List Msg :=
  match encodeToBytes (.byteArray 20) id with
  | .error _ => []
  | .ok b => [arrivedMsg pingMsg 0 b]

/-- The message that arrives, with the graph of the node where it arrives and the pick of an
answer. -/
def Pair.arriving (p : Pair) : PairAction → Option (JPGraph × Msg × ℕ)
  | .left _ | .right _ => none
  | .deliverLeft i pick => p.toLeft[i]?.map fun msg => (p.left.graph, msg, pick)
  | .deliverRight i pick => p.toRight[i]?.map fun msg => (p.right.graph, msg, pick)

namespace Talk

/-- One step. After an error of a handler nothing arrives any more. -/
def step (keccak : List UInt8 → Hash) (t : Talk) : TalkAct → Except Stop Talk
  | .node a =>
    match t.pair.arriving a with
    | none => (t.pair.step keccak a).map fun r => { t with pair := r.1 }
    | some (jp, msg, pick) =>
      if t.connected then do
        let hd ← handle jp msg pick
        let r ← t.pair.step keccak a
        return ⟨r.1, hd.err = none⟩
      else .error .blocked
  | .pingLeft =>
    .ok { t with pair := { t.pair with
      toRight := t.pair.toRight ++ ping t.pair.right.graph.coinbase } }
  | .pingRight =>
    .ok { t with pair := { t.pair with
      toLeft := t.pair.toLeft ++ ping t.pair.left.graph.coinbase } }

end Talk

/-- This node has an event of its own with the given other parent, and the event is linked to its
parent. -/
def Answers (jp : JPGraph) (hash : Hash) : Prop :=
  ∃ c ∈ jp.graph.lookup jp.coinbase, ∃ entry ∈ (jp.col c).hashChain.entries,
    (jp.vert entry.2).event.otherPartH = hash ∧ (jp.vert entry.2).anotherPt ≠ none

instance (jp : JPGraph) (hash : Hash) : Decidable (Answers jp hash) :=
  inferInstanceAs (Decidable (∃ c ∈ jp.graph.lookup jp.coinbase,
    ∃ entry ∈ (jp.col c).hashChain.entries, _))

/-- A message that arrives is no request, or it asks for the linked parent of an own event. -/
def Talk.Answerable (t : Talk) : TalkAct → Prop
  | .node a => ∀ r ∈ t.pair.arriving a, r.2.1.code = reqsMsg → Answers r.1 (decodeHash r.2.1)
  | _ => True

instance (t : Talk) (a : TalkAct) : Decidable (t.Answerable a) := by
  unfold Talk.Answerable
  split <;> infer_instance

variable (jp : JPGraph)

/-- `RetrieveEvent` returns no error just when an own event is linked to the parent. -/
theorem isSome_retrieveEvent_iff (hash : Hash) (pick : ℕ) :
    (jp.retrieveEvent hash pick).toOption.isSome = true ↔ Answers jp hash := by
  unfold JPGraph.retrieveEvent Answers
  cases hcol : jp.graph.lookup jp.coinbase with
  | none => exact iff_of_false nofun fun ⟨_, hc, _⟩ => nomatch hc
  | some c =>
    have hanswers : (∃ c' ∈ some c, ∃ entry ∈ (jp.col c').hashChain.entries,
        (jp.vert entry.2).event.otherPartH = hash ∧ (jp.vert entry.2).anotherPt ≠ none) ↔
        jp.retrievable c hash ≠ [] := by
      simp only [JPGraph.retrievable, ne_eq, List.filter_eq_nil_iff, List.mem_map,
        Option.mem_def, Option.some.injEq, exists_eq_left', decide_eq_true_eq, not_forall, not_not,
        Option.isSome_iff_ne_none]
      constructor
      · rintro ⟨entry, hmem, hentry⟩
        exact ⟨entry.2, ⟨entry, hmem, rfl⟩, hentry⟩
      · rintro ⟨_, ⟨entry, hmem, rfl⟩, hentry⟩
        exact ⟨entry, hmem, hentry⟩
    rw [hanswers]
    dsimp only
    cases hpick : (jp.retrievable c hash)[pick % (jp.retrievable c hash).length]? with
    | none =>
      -- a pick below the length finds nothing in an empty list only
      have hle := List.getElem?_eq_none_iff.mp hpick
      have hempty : jp.retrievable c hash = [] := by
        by_contra hne
        have hlt := Nat.mod_lt pick (List.length_pos_iff.mpr hne)
        omega
      exact iff_of_false nofun (not_not.mpr hempty)
    | some v =>
      have hv := List.mem_of_getElem? hpick
      have hlinked := (of_decide_eq_true (List.mem_filter.mp hv).2).2
      obtain ⟨w, hw⟩ := Option.isSome_iff_exists.mp hlinked
      dsimp only
      rw [hw]
      exact iff_of_true rfl (List.ne_nil_of_mem hv)

/-- The handler returns an error just when it gets a request that cannot be answered. -/
theorem err_handle_iff (msg : Msg) (pick : ℕ) :
    Ensures (handle jp msg pick) fun hd =>
      hd.err = none ↔ (msg.code = reqsMsg → Answers jp (decodeHash msg)) := by
  have hother {hd : Handled} (herr : hd.err = none) (hcode : msg.code ≠ reqsMsg) :
      hd.err = none ↔ (msg.code = reqsMsg → Answers jp (decodeHash msg)) :=
    iff_of_true herr fun h => absurd h hcode
  by_cases hevent : msg.code = eventMsg
  · have hcode : msg.code ≠ reqsMsg := by rw [hevent]; decide
    rw [handle_eventMsg jp hevent]
    split
    · exact .ok (hother rfl hcode)
    · exact .map (.self _) fun _ _ => hother rfl hcode
  · unfold handle
    split_ifs with hping hpong hdisc hreqs hresp
    · exact .ok (hother rfl (by rw [hping]; decide))
    · exact .ok (hother rfl (by rw [hpong]; decide))
    · exact .ok (hother rfl (by rw [hdisc]; decide))
    · have hanswers := isSome_retrieveEvent_iff jp (decodeHash msg) pick
      split
      · next err hretrieve =>
        rw [hretrieve] at hanswers
        exact .ok (iff_of_false nofun fun h => nomatch hanswers.mpr (h hreqs))
      · next e ty hretrieve =>
        rw [hretrieve] at hanswers
        exact .ok (iff_of_true rfl fun _ => hanswers.mp rfl)
    · exact .ok (hother rfl (by rw [hresp]; decide))
    · exact .ok (hother rfl hreqs)

/-- A step leaves the nodes connected just when the message that arrives can be answered. -/
theorem Talk.connected_step (keccak : List UInt8 → Hash) (t : Talk) (a : TalkAct) :
    Ensures (t.step keccak a) fun t' =>
      t'.connected = true ↔ t.connected = true ∧ t.Answerable a := by
  unfold Talk.step Talk.Answerable
  cases a with
  | node a =>
    dsimp only
    cases harriving : t.pair.arriving a with
    | none => exact .map (.self _) fun r _ => by simp
    | some r =>
      obtain ⟨jp, msg, pick⟩ := r
      dsimp only
      split_ifs with hconnected
      · refine .bind (err_handle_iff jp msg pick) fun hd hhd => ?_
        refine .bind (.self _) fun r _ => .ok ?_
        simpa [hconnected] using hhd
      · exact .error
  | pingLeft => exact .ok (by simp)
  | pingRight => exact .ok (by simp)

/-- Two nodes are connected after a run just when they were before and every request that has
arrived asked for the linked parent of an event of the node that it arrived at. -/
theorem connected_iff_answerable {keccak : List UInt8 → Hash} {t t' : Talk} {acts : List TalkAct}
    (hrun : run (Talk.step keccak) t acts = .ok t') :
    t'.connected = true ↔
      t.connected = true ∧ Meets (Talk.step keccak) Talk.Answerable t acts := by
  have hstep (t : Talk) (a : TalkAct) (_ : True) : Ensures (t.step keccak a) fun t' =>
      True ∧ (t'.connected = true ↔ t.connected = true ∧ t.Answerable a) :=
    fun t' ht' => ⟨trivial, t.connected_step keccak a t' ht'⟩
  exact run_iff_meets hstep trivial acts t' hrun

/-- The first event of a node with the zero address. -/
def zeroEvent : Event ℤ :=
  plainEvent 2 0 (FixedBytes.zero 32) (FixedBytes.zero 32) 0 0
    (FixedBytes.ofNat 32 0xe355bf6044fc063249d947092e37183c347e9c333ec610a2e740c0c55d9f1800)

/-- The first event of creator `0x0a`, on top of it. -/
def onZeroEvent : Event ℤ :=
  plainEvent 3 0x0A (FixedBytes.zero 32) zeroEvent.selfHash 0 0
    (FixedBytes.ofNat 32 0x118e8f61e3e75ad0c90c7949c4470b74079687c3ef9100d13ea606126bcccd2a)

/-- The first event of creator `0x0c`. -/
def absentEvent : Event ℤ :=
  plainEvent 2 0x0C (FixedBytes.zero 32) (FixedBytes.zero 32) 0 0
    (FixedBytes.ofNat 32 0xc81437307f63d0d174231e5d6d75898241ad73db5c99019eb6dbb600382c62b1)

/-- The first event of creator `0x0a`, on top of it. -/
def onAbsentEvent : Event ℤ :=
  plainEvent 3 0x0A (FixedBytes.zero 32) absentEvent.selfHash 0x0C 0
    (FixedBytes.ofNat 32 0x29f70fa361b310c4cce7b8e257932be02b1458e5db19f95c021ae5c5ca380ed1)

/-- Keccak-256 on the hash inputs of the events. -/
def zeroKeccak : List UInt8 → Hash :=
  tabulated ([zeroEvent, onZeroEvent, onAbsentEvent].map fun e => (e.checkInput, e.selfHash))

/-- Node `0x0a` and a node with the zero address, connected. -/
def newTalk : Talk :=
  ⟨newPair (FixedBytes.ofNat 20 0x0A) (FixedBytes.zero 20) 2 2, true⟩

/-- The two nodes after the given actions. -/
def talkAfter (actions : List TalkAct) : Talk :=
  (run (Talk.step zeroKeccak) newTalk actions).toOption.getD newTalk

/-- Node `0x0a` takes a number of steps to add the event of the other node, then composes an event
of its own on top of it. -/
def composeOnZero (n : ℕ) : List PairAction :=
  rightTimes 1 (.handle (.onlyTime 2 0)) ++ rightTimes 1 (.send 0) ++ [.deliverLeft 0 0] ++
    leftTimes 1 (.handle .eventNorm) ++ leftTimes n (.add 0) ++
    leftTimes 1 (.handle (.onlyTime 3 0))

/-- The other node gets the event of node `0x0a` and asks it for the parent. -/
def askParent : List PairAction :=
  leftTimes 1 (.send 0) ++ [.deliverRight 0 0] ++ rightTimes 1 (.handle .eventNorm) ++
    rightTimes 11 (.add 1) ++ rightTimes 1 (.handle .request) ++ rightTimes 1 (.send 0) ++
    [.deliverLeft 0 0]

/-- Node `0x0a` adds its own event while the parent is between `newComer` and the dictionary of
lost parents, so the two are linked. The nodes ping each other first. -/
def linkedParent : List TalkAct :=
  [.pingLeft, .node (.deliverRight 0 0), .node (.right (.send 0)), .node (.deliverLeft 0 0)] ++
    (composeOnZero 9 ++ leftTimes 8 (.add 1) ++ leftTimes 2 (.add 0) ++ askParent).map .node

/-- Node `0x0a` adds the parent before it composes its own event. -/
def unlinkedParent : List TalkAct :=
  (composeOnZero 11 ++ leftTimes 8 (.add 0) ++ askParent).map .node

/-- The parent is sent, and the nodes stay connected. -/
theorem connected_linkedParent :
    (talkAfter linkedParent).pair.left.senders.length = 1 ∧
      (talkAfter linkedParent).connected = true := by
  obtain ⟨hsent, hreached, hanswerable⟩ :
      (talkAfter linkedParent).pair.left.senders.length = 1 ∧
      (run (Talk.step zeroKeccak) newTalk linkedParent).toOption.isSome = true ∧
      Meets (Talk.step zeroKeccak) Talk.Answerable newTalk linkedParent := by decide +kernel
  have hrun : run (Talk.step zeroKeccak) newTalk linkedParent = .ok (talkAfter linkedParent) :=
    eq_ok_getD hreached newTalk
  exact ⟨hsent, (connected_iff_answerable hrun).mpr ⟨rfl, hanswerable⟩⟩

/-- A new node that has received an event. -/
def nodeWith (coinbase : Address) (e : Event ℤ) : NodeState :=
  let s := newNode coinbase 3
  { s with graph := { (s.graph.receive e).1 with eventNorm := [(s.graph.receive e).2] } }

/-- Nodes `0x0a` and `0x0b`, connected. Both have received an event of node `0x0a` on top of an
event of node `0x0c` that they do not have. -/
def historyTalk : Talk :=
  ⟨⟨nodeWith (FixedBytes.ofNat 20 0x0A) onAbsentEvent,
    nodeWith (FixedBytes.ofNat 20 0x0B) onAbsentEvent, [], []⟩, true⟩

/-- Both nodes add the event, and node `0x0b` asks for its parent. -/
def absentParent : List PairAction :=
  leftTimes 1 (.handle .eventNorm) ++ leftTimes 11 (.add 0) ++
    rightTimes 1 (.handle .eventNorm) ++ rightTimes 14 (.add 0) ++
    rightTimes 1 (.handle .request) ++ rightTimes 1 (.send 0) ++ [.deliverLeft 0 0]

/-- Node `0x0a` cannot answer, although it knows the parent, and the connection ends. The same
happens when it does not have the parent. -/
theorem not_connected_unlinkedParent :
    run (Talk.step zeroKeccak) newTalk unlinkedParent = .ok (talkAfter unlinkedParent) ∧
      (talkAfter unlinkedParent).connected = false ∧
      (run (Talk.step zeroKeccak) historyTalk (absentParent.map .node)).toOption.map
        Talk.connected = some false := by
  obtain ⟨hreached, hunlinked, habsent⟩ :
      (run (Talk.step zeroKeccak) newTalk unlinkedParent).toOption.isSome = true ∧
      (talkAfter unlinkedParent).connected = false ∧
      (run (Talk.step zeroKeccak) historyTalk (absentParent.map .node)).toOption.map
        Talk.connected = some false := by decide +kernel
  exact ⟨eq_ok_getD hreached _, hunlinked, habsent⟩

end Hashgrid.Node
