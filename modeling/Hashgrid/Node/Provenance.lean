import Hashgrid.Node.Announced
import Hashgrid.Node.AppendOnly

/-!
# Where the events of a node come from

A node passes events on from its channels to calls of `AddEvent`, to its vertices and to
the goroutines that send. It composes events and decodes messages, and it has no event
from anywhere else.
-/

namespace Hashgrid.Node

open Hashgrid.Bytes Hashgrid.Core Hashgrid.Machine Hashgrid.Wire

variable {jp : JPGraph} {b : Branch} {m : Monitor}

/-- The events of a turn of the event loop are that of the loop, those of the channels and the one
that is composed. -/
theorem eventHandle_events {P : Event ℕ → Prop} {keccak : List UInt8 → Hash} {h : Handler}
    (hown : ∀ e ∈ h.et, P e) (hchannels : ∀ ch, ∀ e ∈ jp.channel ch, P e)
    (hcomposed : ∀ e ∈ composedIn keccak h jp b, P e) :
    Ensures (eventHandle keccak h jp b) fun t => (∀ ch, ∀ e ∈ t.graph.channel ch, P e) ∧
      (∀ e ∈ t.handler.et, P e) ∧ ∀ e ty, .broadcastEvent e ty ∈ t.started → P e := by
  refine .map (.self _) fun t ht => ?_
  -- The end of a turn broadcasts nothing.
  have hfinish (e : Event ℕ) (ty : ℕ) (he : .broadcastEvent e ty ∈ t.finish.started) :
      .broadcastEvent e ty ∈ t.started := by
    have hmem : (e, ty) ∈ t.finish.broadcasts := List.mem_filterMap.mpr ⟨_, he, rfl⟩
    rw [t.broadcasts_finish] at hmem
    obtain ⟨g, hg, heq⟩ := List.mem_filterMap.mp hmem
    cases g with
    | broadcastEvent e' ty' =>
      cases heq
      exact hg
    | requestEvent rqa => cases heq
    | addEvent e' ty' => cases heq
  have hnew {e : Event ℕ} (he : P e) (hevent : t.handler.et = some e)
      (hstarted : ∀ g ∈ t.started, ∃ ty, g = .broadcastEvent e ty) :
      (∀ e' ∈ t.handler.et, P e') ∧
        ∀ e' ty, .broadcastEvent e' ty ∈ t.finish.started → P e' := by
    refine ⟨fun e' he' => Option.some.inj (hevent.symm.trans he') ▸ he, fun e' ty hb => ?_⟩
    obtain ⟨_, hg⟩ := hstarted _ (hfinish e' ty hb)
    cases hg
    exact he
  obtain ⟨hhandler, hgraph⟩ := t.finish_eq
  rw [hhandler, hgraph]
  cases (select_spec keccak h jp b t ht).1 with
  | take ch e rest hq hevent _ _ hchannel hstarted =>
    refine ⟨fun ch' e' he' => ?_, hnew (hchannels ch e (hq ▸ List.mem_cons_self)) hevent hstarted⟩
    rw [hchannel] at he'
    split_ifs at he'
    · exact hchannels ch e' (hq ▸ List.mem_cons_of_mem e he')
    · exact hchannels ch' e' he'
  | compose now rand e hr hcomp hevent hstarted =>
    refine ⟨fun ch e' he' => ?_, hnew (hcomposed e hcomp) hevent hstarted⟩
    exact hchannels ch e' (channel_composeEvent hr ch ▸ he')
  | idle hevent _ hchannel hstarted =>
    exact ⟨fun ch e he => hchannels ch e (hchannel ch ▸ he), fun e he => hown e (hevent ▸ he),
      fun e ty hb => absurd (hfinish e ty hb) (hstarted e ty)⟩

/-- `MonitorLoop` puts the event of the vertex that it has chosen into `witnessL`, and leaves the
channels alone apart from that. -/
theorem channel_monitorEffect {r : Monitor × JPGraph} (h : MonitorEffect m jp r) (ch : Channel) :
    r.2.channel ch = jp.channel ch ∨ ∃ v,
      m.pc = .put v ∧ ch = .witnessL ∧ r.2.channel ch = jp.channel ch ++ [(jp.vert v).event] := by
  cases h with
  | front i hpc hhead hmonitor hgraph => exact Or.inl (by rw [hgraph])
  | receive i v rest hpc hq hmonitor hgraph =>
    left
    rw [hgraph.alike.neutral.channel ch]
    cases ch <;> rfl
  | put v hpc hmonitor hgraph =>
    rw [hgraph]
    cases ch with
    | eventNorm => exact Or.inl rfl
    | witnessR => exact Or.inl rfl
    | witnessL => exact Or.inr ⟨v, hpc, rfl, rfl⟩
  | mark v hpc hmonitor hgraph =>
    rw [hgraph]
    cases ch <;> exact Or.inl rfl
  | trigger v hpc hmonitor hgraph =>
    rw [hgraph]
    cases ch <;> exact Or.inl rfl

/-- The answer to a request is the event of a vertex. -/
theorem handle_reply {keccak : List UInt8 → Hash} (href : jp.Referring keccak) (msg : Msg)
    (pick : ℕ) : Ensures (handle jp msg pick) fun hd =>
      ∀ e ty, hd.reply = some (.event e ty) → ∃ v < jp.verts.next, (jp.vert v).event = e := by
  unfold handle
  split_ifs
  · exact .ok fun e ty hreply => by cases hreply
  · exact .ok fun e ty hreply => by cases hreply
  · exact .ok fun e ty hreply => by cases hreply
  · split
    · exact .ok fun e ty hreply => by cases hreply
    · exact .map (.self _) fun jp' _ e ty hreply => by cases hreply
  · cases hretrieve : jp.retrieveEvent (decodeHash msg) pick with
    | error err => exact .ok fun e ty hreply => by cases hreply
    | ok r =>
      refine .ok fun e ty hreply => ?_
      cases hreply
      unfold JPGraph.retrieveEvent at hretrieve
      split at hretrieve
      · cases hretrieve
      · dsimp only at hretrieve
        split at hretrieve
        · cases hretrieve
        · next v hv =>
          cases hlink : (jp.vert v).anotherPt with
          | none =>
            rw [hlink] at hretrieve
            cases hretrieve
          | some p =>
            rw [hlink] at hretrieve
            cases hretrieve
            exact ⟨p, (href.other v p hlink).1, rfl⟩
  · exact .ok fun e ty hreply => by cases hreply
  · exact .ok fun e ty hreply => by cases hreply

namespace NodeState

/-- All events that the node has anywhere have the property. -/
structure Held (P : Event ℕ → Prop) (s : NodeState) : Prop where
  /-- The channels. -/
  channel : ∀ ch, ∀ e ∈ s.graph.channel ch, P e
  /-- The event of the event loop. -/
  event : ∀ e ∈ s.handler.et, P e
  /-- The calls of `AddEvent`. -/
  adds : ∀ call ∈ s.adds, P call.event
  /-- The goroutines that send. -/
  senders : ∀ e ty, .event e ty ∈ s.senders → P e
  /-- The vertices. -/
  vert : ∀ v < s.graph.verts.next, P (s.graph.vert v).event

/-- The event that a step composes. -/
def composed (keccak : List UInt8 → Hash) (s : NodeState) : Action → Option (Event ℕ)
  | .handle b => composedIn keccak s.handler s.graph b
  | _ => none

/-- The event that comes in with a step. -/
def received (s : NodeState) : Action → Option (Event ℕ)
  | .receive msg _ =>
    if msg.code = eventMsg then some (s.graph.receive (decodeMsg msg)).2 else none
  | _ => none

variable {a : Action}

/-- Only event messages bring events. -/
theorem exists_of_received {s : NodeState} {e : Event ℕ} (he : s.received a = some e) :
    ∃ msg pick, a = .receive msg pick ∧ msg.code = eventMsg ∧
      (s.graph.receive (decodeMsg msg)).2 = e := by
  cases a with
  | receive msg pick =>
    dsimp only [received] at he
    split_ifs at he with hcode
    exact ⟨msg, pick, rfl, hcode, Option.some.inj he⟩
  | handle b => cases he
  | add i => cases he
  | send i => cases he
  | cast i => cases he
  | roundLoop => cases he
  | monitor order => cases he
  | consensusShow => cases he

variable {P : Event ℕ → Prop} {keccak : List UInt8 → Hash} {s s' : NodeState}

theorem Held.mono {Q : Event ℕ → Prop} (h : s.Held P) (hPQ : ∀ e, P e → Q e) : s.Held Q :=
  ⟨fun ch e he => hPQ e (h.channel ch e he), fun e he => hPQ e (h.event e he),
    fun call hcall => hPQ _ (h.adds call hcall), fun e ty he => hPQ e (h.senders e ty he),
    fun v hv => hPQ _ (h.vert v hv)⟩

/-- A turn of the event loop. -/
theorem Held.handleStep (h : s.Held P) (hsound : s.Sound keccak) {t : Turn}
    (ht : eventHandle keccak s.handler s.graph b = .ok t)
    (hcomposed : ∀ e ∈ s.composed keccak (.handle b), P e) (hnext : s' = { s with
      graph := t.graph
      handler := t.handler
      adds := s.adds ++ t.addCalls.map fun call => ⟨call.1, call.2, .start⟩
      senders := s.senders ++ t.started.filterMap Go.sender }) : s'.Held P := by
  obtain ⟨hchannel, hevent, hbroadcast⟩ := eventHandle_events h.event h.channel hcomposed t ht
  have hupholds := upholds_eventHandle hsound.graph s.handler b t ht
  rw [hnext]
  refine ⟨hchannel, hevent, fun call hcall => ?_, fun e ty he => ?_, fun v hv => ?_⟩
  · rcases List.mem_append.mp hcall with hcall | hcall
    · exact h.adds call hcall
    · obtain ⟨c, hc, rfl⟩ := List.mem_map.mp hcall
      exact hevent c.1 (mem_addCalls keccak s.handler s.graph b t ht c hc).1
  · rcases List.mem_append.mp he with he | he
    · exact h.senders e ty he
    · obtain ⟨go, hgo, hsender⟩ := List.mem_filterMap.mp he
      cases go with
      | broadcastEvent e' ty' =>
        cases hsender
        exact hbroadcast e ty hgo
      | requestEvent rqa => cases hsender
      | addEvent e' ty' => cases hsender
  · have hv : v < s.graph.verts.next := hupholds.next ▸ hv
    rw [hupholds.extends_.event v hv]
    exact h.vert v hv

/-- A message comes in. -/
theorem Held.receiveStep (h : s.Held P) (hsound : s.Sound keccak) {msg : Msg} {pick : ℕ}
    {hd : Handled} (hhd : Node.handle s.graph msg pick = .ok hd)
    (hreceived : ∀ e ∈ s.received (.receive msg pick), P e)
    (hnext : s' = { s with
      graph := hd.graph
      senders := s.senders ++ hd.reply.toList.map Reply.sender }) : s'.Held P := by
  have hsame := sameThreads_handle s.graph msg pick hd hhd
  have hreply := handle_reply hsound.graph msg pick hd hhd
  rw [hnext]
  refine ⟨fun ch e he => ?_, h.event, h.adds, fun e ty he => ?_, fun v hv => ?_⟩
  · rcases handle_cases s.graph msg pick hd hhd with heq | ⟨hcode, ch', -, hput⟩
    · exact h.channel ch e (heq ▸ he)
    · obtain ⟨-, -, -, hchannel⟩ := putEvent_spec _ ch' _ _ hput
      have he : e ∈ hd.graph.channel ch := he
      rw [hchannel, channel_receive] at he
      split_ifs at he
      · rcases List.mem_append.mp he with he | he
        · exact h.channel ch e he
        · rw [List.mem_singleton.mp he]
          exact hreceived _ (if_pos hcode)
      · exact h.channel ch e he
  · rcases List.mem_append.mp he with he | he
    · exact h.senders e ty he
    · obtain ⟨reply, hmem, hsender⟩ := List.mem_map.mp he
      cases reply with
      | pong => cases hsender
      | event e' ty' =>
        cases hsender
        obtain ⟨v, hv, rfl⟩ := hreply e ty (Option.mem_toList.mp hmem)
        exact h.vert v hv
  · rw [hsame.event v]
    exact h.vert v (hsame.next ▸ hv)

/-- A call of `AddEvent` goes on. -/
theorem Held.addStep (h : s.Held P) (hsound : s.Sound keccak) (hcopy : ∀ e, P e → P (copyEvent e))
    {i : ℕ} {call : AddCall} {pc : Option AddPc} (hfound : s.adds[i]? = some call)
    (hstep : call.step keccak s.graph = .ok (jp, pc)) (hnext : s' = { s with
      graph := jp
      adds := pc.elim (s.adds.eraseIdx i) fun pc => s.adds.set i { call with pc := pc } }) :
    s'.Held P := by
  have hmem := List.mem_of_getElem? hfound
  have hadv := hsound.graph.callStep (hsound.calls call hmem) _ hstep
  have hkeeps := call.step_keeps keccak s.graph _ hstep
  rw [hnext]
  refine ⟨fun ch e he => h.channel ch e (hkeeps.channel ch ▸ he), h.event, fun c hc => ?_,
    h.senders, fun v hv => ?_⟩
  · cases pc with
    | none => exact h.adds c (List.mem_of_mem_eraseIdx hc)
    | some pc =>
      rcases List.mem_or_eq_of_mem_set hc with hc | rfl
      · exact h.adds c hc
      · exact h.adds call hmem
  · rcases hadv.new v hv with hv | hnew
    · have hevent := hadv.extends_.event v hv
      exact hevent ▸ h.vert v hv
    · exact hnew ▸ hcopy _ (h.adds call hmem)

/-- A step that keeps the channels or puts the event of a vertex there, and leaves calls and
senders alone. -/
theorem Held.sameEvents (h : s.Held P) (hs : s.graph.SameThreads s'.graph)
    (hchannel : ∀ ch, ∀ e ∈ s'.graph.channel ch,
      e ∈ s.graph.channel ch ∨ ∃ v < s.graph.verts.next, (s.graph.vert v).event = e)
    (hhandler : s'.handler = s.handler) (hadds : s'.adds = s.adds)
    (hsenders : ∀ sender ∈ s'.senders, sender ∈ s.senders) : s'.Held P where
  channel ch e he := by
    rcases hchannel ch e he with he | ⟨v, hv, rfl⟩
    · exact h.channel ch e he
    · exact h.vert v hv
  event e he := h.event e (hhandler ▸ he)
  adds call hcall := h.adds call (hadds ▸ hcall)
  senders e ty he := h.senders e ty (hsenders _ he)
  vert v hv := by
    rw [hs.event v]
    exact h.vert v (hs.next ▸ hv)

/-- `MonitorLoop` goes on. -/
theorem Held.monitorStep (h : s.Held P) (hpointed : s.Pointed) {order : ℕ → List Address}
    (hstep : s.monitor.step s.graph order = .ok (m, jp))
    (hnext : s' = { s with graph := jp, monitor := m }) : s'.Held P := by
  have heffect := monitorStep_effect s.monitor s.graph order _ hstep
  have hsame := sameThreads_monitorEffect heffect
  rw [hnext]
  refine h.sameEvents hsame (fun ch e he => ?_) rfl rfl fun _ hmem => hmem
  have he : e ∈ jp.channel ch := he
  rcases channel_monitorEffect heffect ch with heq | ⟨v, hpc, -, heq⟩
  · exact Or.inl (heq ▸ he)
  · rcases List.mem_append.mp (heq ▸ he : e ∈ _ ++ [_]) with he | he
    · exact Or.inl he
    · exact Or.inr ⟨v, (hpointed.monitor v (by rw [hpc]; rfl)).lt, (List.mem_singleton.mp he).symm⟩

/-- A step of a node gives it no events but the one that it composes and the one that comes in. -/
theorem Held.move (h : s.Held P) (hsound : s.Sound keccak) (hpointed : s.Pointed)
    (hcopy : ∀ e, P e → P (copyEvent e)) (hcomposed : ∀ e ∈ s.composed keccak a, P e)
    (hreceived : ∀ e ∈ s.received a, P e) : Ensures (s.move keccak a) fun r => r.1.Held P := by
  intro r hr
  cases s.move_spec keccak a r hr with
  | handle b t ht hnext => exact h.handleStep hsound ht hcomposed hnext
  | receive msg pick hd hhd hnext => exact h.receiveStep hsound hhd hreceived hnext
  | add i call jp pc hfound hstep hnext => exact h.addStep hsound hcopy hfound hstep hnext
  | send i hnext =>
    rw [hnext]
    exact h.sameEvents (.refl _) (fun _ _ he => Or.inl he) rfl rfl
      fun _ hmem => List.mem_of_mem_eraseIdx hmem
  | cast i hnext => exact hnext ▸ h
  | trigger idx hidx hnext =>
    rw [hnext]
    exact h.sameEvents (.of_eq rfl)
      (fun ch _ he => Or.inl (by cases ch <;> exact he)) rfl rfl fun _ hmem => hmem
  | roundLoop v rest jp consensus hidle hhead hturn hnext =>
    rw [hnext]
    have htake : s.graph.SameThreads { s.graph with roundTrigger := rest } := .of_eq rfl
    refine h.sameEvents (htake.trans (JPGraph.sameThreads_roundLoop _ v _ hturn))
      (fun ch e he => Or.inl ?_) rfl rfl fun _ hmem => hmem
    have he : e ∈ jp.channel ch := he
    rw [channel_roundLoop _ _ _ hturn ch] at he
    cases ch <;> exact he
  | monitor order m jp hstep hnext => exact h.monitorStep hpointed hstep hnext
  | consensusShow rest hnext =>
    rw [hnext]
    exact h.sameEvents (.of_eq rfl)
      (fun ch _ he => Or.inl (by cases ch <;> exact he)) rfl rfl fun _ hmem => hmem

/-- A new node has no events. -/
theorem held_newNode (P : Event ℕ → Prop) (coinbase : Address) (broadness : ℕ) :
    (newNode coinbase broadness).Held P where
  channel ch e he := by cases ch <;> cases he
  event e he := by cases he
  adds call hcall := by cases hcall
  senders e ty he := by cases he
  vert v hv := absurd hv (Nat.not_lt_zero v)

end NodeState

end Hashgrid.Node
