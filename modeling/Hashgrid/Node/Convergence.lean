import Hashgrid.Node.Delivery
import Hashgrid.Node.Network

/-!
# Nodes that have heard everything agree

An event that a node composes with its timer is broadcast and, unless the last event of the loop
was a local witness, added to its own graph. Along every run such an event waits to be sent or
was sent, and it waits at its creator or is in the creator's column there. So when some message
about every event has arrived at every node, and nothing waits any more, the columns of all nodes
have the same events, whatever the orders were in which they arrived. This takes that no node
stores a column for an address that has one.
-/

namespace Hashgrid.Node

open Hashgrid.Bytes Hashgrid.Core Hashgrid.Machine Hashgrid.Wire

/-- An event with this type is added where it arrives. -/
def Routable (type : UInt32) : Prop := ∃ ch ∈ chanEvent type, ch ≠ .witnessL

instance (type : UInt32) : Decidable (Routable type) :=
  inferInstanceAs (Decidable (∃ ch ∈ chanEvent type, _))

/-- The types under which the timer branch broadcasts. -/
theorem routable_etTy (h : Handler) : Routable (UInt32.ofNat h.etTy) := by
  unfold Handler.etTy
  split_ifs
  · exact ⟨.witnessR, rfl, by decide⟩
  · exact ⟨.eventNorm, rfl, by decide⟩

variable {k : Hash}

namespace NodeState

variable {keccak : List UInt8 → Hash} {s : NodeState}

/-- The event that the step composes, if it composes one, is added. -/
def AddsOwn (s : NodeState) : Action → Prop
  | .handle (.onlyTime _ _) => s.handler.ty ≠ Mark.witnessLocal
  | _ => True

instance (s : NodeState) : (a : Action) → Decidable (s.AddsOwn a)
  | .handle (.onlyTime _ _) => inferInstanceAs (Decidable (s.handler.ty ≠ Mark.witnessLocal))
  | .handle .eventNorm | .handle .witnessL | .handle .witnessR | .handle (.overFlow _ _)
  | .handle .request | .receive _ _ | .add _ | .send _ | .cast _ | .roundLoop | .monitor _
  | .consensusShow => isTrue trivial

/-- Nothing waits to be added or sent. -/
structure Quiet (s : NodeState) : Prop where
  /-- No event waits to be handled. -/
  eventNorm : s.graph.eventNorm = []
  /-- No witness waits to be handled. -/
  witnessR : s.graph.witnessR = []
  /-- All calls of `AddEvent` have returned. -/
  adds : s.adds = []
  /-- All messages were sent. -/
  senders : s.senders = []

instance (s : NodeState) : Decidable s.Quiet :=
  decidable_of_iff (s.graph.eventNorm = [] ∧ s.graph.witnessR = [] ∧ s.adds = [] ∧ s.senders = [])
    ⟨fun h => ⟨h.1, h.2.1, h.2.2.1, h.2.2.2⟩,
      fun h => ⟨h.eventNorm, h.witnessR, h.adds, h.senders⟩⟩

/-- When nothing waits, an event that is not lost is in its column. -/
theorem Keeps.held {a : Address} (h : s.Keeps keccak a k) (hquiet : s.Quiet) :
    ∃ v, s.graph.held a k = some v := by
  cases h with
  | waits ch hother e hmem _ =>
    cases ch with
    | eventNorm =>
      have hnone : s.graph.channel .eventNorm = [] := hquiet.eventNorm
      exact absurd hmem (by rw [hnone]; exact List.not_mem_nil)
    | witnessR =>
      have hnone : s.graph.channel .witnessR = [] := hquiet.witnessR
      exact absurd hmem (by rw [hnone]; exact List.not_mem_nil)
    | witnessL => exact absurd rfl hother
  | calls call hmem _ _ => exact absurd hmem (by rw [hquiet.adds]; exact List.not_mem_nil)
  | stored v hheld => exact ⟨v, hheld⟩

/-- A goroutine that sends goes on waiting, or its message is sent. -/
theorem sends_move (keccak : List UInt8 → Hash) (s : NodeState) (a : Action) :
    Ensures (s.move keccak a) fun r => ∀ sender ∈ s.senders,
      sender ∈ r.1.senders ∨ ∀ o ∈ sender.output s.graph, o ∈ r.2 := by
  by_cases hsend : ∃ i, a = .send i
  · obtain ⟨i, rfl⟩ := hsend
    dsimp only [move, sendStep]
    split
    · exact .error
    · next first hfirst =>
      obtain ⟨l, r, hsenders, -, herase⟩ := Pools.exists_others hfirst
      refine .ok fun sender hmem => ?_
      dsimp only
      rw [herase]
      rw [hsenders] at hmem
      rcases List.mem_append.mp hmem with hl | hcons
      · exact Or.inl (List.mem_append_left _ hl)
      · rcases List.mem_cons.mp hcons with rfl | hr
        · exact Or.inr fun o ho => ho
        · exact Or.inl (List.mem_append_right _ hr)
  · intro r hr sender hmem
    exact Or.inl ((s.senders_move keccak (fun i hi => hsend ⟨i, hi⟩) r hr).subset hmem)

end NodeState

/-- The slice of transactions that the event loop has taken stays the same. -/
theorem transUnHandled_eventHandle (keccak : List UInt8 → Hash) (h : Handler) (jp : JPGraph)
    (b : Branch) : Ensures (eventHandle keccak h jp b) fun t =>
      t.handler.transUnHandled = h.transUnHandled := by
  refine .map (select_spec keccak h jp b) fun t ht => ?_
  rw [t.finish_eq.1]
  exact ht.2.1

/-- A turn of the timer branch broadcasts the event that it composes, and adds it unless the last
event was a local witness. -/
theorem eventHandle_onlyTime {keccak : List UInt8 → Hash} {h : Handler} {jp : JPGraph} {now : ℤ}
    {rand : ℕ} (hty : h.ty ≠ Mark.witnessLocal) :
    Ensures (eventHandle keccak h jp (.onlyTime now rand)) fun t =>
      ∀ e ∈ composedIn keccak h jp (.onlyTime now rand),
        (e, h.ty) ∈ t.addCalls ∧ .broadcastEvent e h.etTy ∈ t.started := by
  refine .map (.bind (.self _) fun r hr => .ok ?_) fun t ht => ht
  intro e he
  have hcomposed : composedIn keccak h jp (.onlyTime now rand) = some r.2 := by
    change (jp.composeEvent keccak now rand).toOption.map Prod.snd = _
    rw [hr]
    rfl
  obtain rfl := Option.some.inj (hcomposed.symm.trans he)
  dsimp only [Turn.finish]
  rw [if_pos hty]
  exact ⟨List.mem_singleton_self _, List.mem_cons_self⟩

namespace NodeState

variable {keccak : List UInt8 → Hash} {s : NodeState}

/-- The slice of transactions stays the same in every step. -/
theorem transUnHandled_move (keccak : List UInt8 → Hash) (s : NodeState) (a : Action) :
    Ensures (s.move keccak a) fun r =>
      r.1.handler.transUnHandled = s.handler.transUnHandled := by
  intro r hr
  cases s.move_spec keccak a r hr with
  | handle b t ht hnext =>
    rw [hnext]
    exact transUnHandled_eventHandle keccak s.handler s.graph b t ht
  | receive msg pick hd hhd hnext => rw [hnext]
  | add i call jp pc _ hstep hnext => rw [hnext]
  | send i hnext => rw [hnext]
  | cast i hnext => rw [hnext]
  | trigger idx _ hnext => rw [hnext]
  | roundLoop v rest jp out _ _ hturn hnext => rw [hnext]
  | monitor order m jp hstep hnext => rw [hnext]
  | consensusShow rest hnext => rw [hnext]

/-- An event that is composed is added and broadcast. -/
theorem composed_move (hidle : s.handler.transUnHandled = 0) {a : Action} (hown : s.AddsOwn a) :
    Ensures (s.move keccak a) fun r => ∀ e ∈ s.composed keccak a,
      (∃ ty, ⟨e, ty, .start⟩ ∈ r.1.adds) ∧
        ∃ ty, Routable (UInt32.ofNat ty) ∧ .event e ty ∈ r.1.senders := by
  intro r hr e he
  cases a with
  | handle b =>
    cases b with
    | onlyTime now rand =>
      cases s.move_spec keccak _ r hr with
      | handle _ t ht hnext =>
        obtain ⟨hadd, hbroadcast⟩ := eventHandle_onlyTime hown t ht e he
        rw [hnext]
        refine ⟨⟨s.handler.ty, ?_⟩, s.handler.etTy, routable_etTy s.handler, ?_⟩
        · exact List.mem_append_right _ (List.mem_map.mpr ⟨_, hadd, rfl⟩)
        · exact List.mem_append_right _ (List.mem_filterMap.mpr ⟨_, hbroadcast, rfl⟩)
    | overFlow now rand =>
      have hnone : composedIn keccak s.handler s.graph (.overFlow now rand) = none := by
        dsimp only [composedIn, Branch.composes]
        rw [hidle]
        rfl
      cases hnone.symm.trans he
    | eventNorm => cases he
    | witnessL => cases he
    | witnessR => cases he
    | request => cases he
  | receive msg pick => cases he
  | add i => cases he
  | send i => cases he
  | cast i => cases he
  | roundLoop => cases he
  | monitor order => cases he
  | consensusShow => cases he

end NodeState

/-- An event takes the round numbers of the nodes that it passes. What is checked, the creator and
the hash do not depend on them. -/
theorem names_body {ρ : Type} {keccak : List UInt8 → Hash} {a : Address} {e : Event ρ} :
    e.body.Names keccak a k ↔ e.Names keccak a k :=
  ⟨fun h => ⟨h.valid, h.creator, h.hash⟩, fun h => ⟨h.valid, h.creator, h.hash⟩⟩

/-- A message that brings the event, to be added. -/
structure Packet.Carries (body : Event ℤ) (p : Packet) : Prop where
  /-- It is an event message. -/
  code : p.msg.code = eventMsg
  /-- The event will be added. -/
  type : Routable p.msg.type
  /-- It is the event. -/
  body : (decodeMsg p.msg).body = body

instance (body : Event ℤ) (p : Packet) : Decidable (p.Carries body) :=
  decidable_of_iff (p.msg.code = eventMsg ∧ Routable p.msg.type ∧ (decodeMsg p.msg).body = body)
    ⟨fun h => ⟨h.1, h.2.1, h.2.2⟩, fun h => ⟨h.code, h.type, h.body⟩⟩

/-- The message that arrives, and where. -/
def NetAction.delivery : NetAction → Option (ℕ × ℕ)
  | .deliver i k _ => some (i, k)
  | _ => none

namespace Network

variable {keccak : List UInt8 → Hash}

/-- The nodes only take steps of their own that have the property. -/
def Allows (P : NodeState → Action → Prop) (w : Network) : NetAction → Prop
  | .node i a => ∀ s ∈ w.nodes[i]?, P s a
  | _ => True

instance (P : NodeState → Action → Prop) [∀ s a, Decidable (P s a)] (w : Network) :
    (a : NetAction) → Decidable (w.Allows P a)
  | .node i a => inferInstanceAs (Decidable (∀ s ∈ w.nodes[i]?, P s a))
  | .deliver _ _ _ | .ping _ _ | .forge _ _ _ => isTrue trivial

/-- The node that takes a step, when the arrival of messages has the property. -/
theorem Allows.turn {P : NodeState → Action → Prop} {w : Network} {a : NetAction}
    (h : w.Allows P a) (hreceive : ∀ s msg pick, P s (.receive msg pick)) {i : ℕ} {act : Action}
    (hturn : w.turn a = some (i, act)) {s : NodeState} (hs : w.nodes[i]? = some s) : P s act := by
  cases a with
  | node j b =>
    dsimp only [Network.turn] at hturn
    split_ifs at hturn
    cases hturn
    exact h s hs
  | deliver j k pick =>
    obtain ⟨p, -, heq⟩ := Option.map_eq_some_iff.mp hturn
    cases heq
    exact hreceive s _ _
  | ping j payload =>
    cases hturn
    exact hreceive s _ _
  | forge j msg pick =>
    cases hturn
    exact hreceive s _ _

/-- The nodes add the events that they compose, and store no column for an address that has
one. -/
def Settles (w : Network) (a : NetAction) : Prop :=
  w.Allows NodeState.AddsOwn a ∧ w.Allows NodeState.Anew a

instance (w : Network) (a : NetAction) : Decidable (w.Settles a) :=
  inferInstanceAs (Decidable (_ ∧ _))

/-- A message with the event in message `k` was delivered to node `j`, or node `j` has composed
the event. -/
def Heard (w : Network × List (ℕ × Event ℤ)) (actions : List NetAction) (j k : ℕ) : Prop :=
  ∀ p ∈ w.1.sent[k]?, p.Carries (decodeMsg p.msg).body → (j, (decodeMsg p.msg).body) ∈ w.2 ∨
    ∃ d ∈ actions.filterMap NetAction.delivery, d.1 = j ∧
      ∃ q ∈ w.1.sent[d.2]?, q.Carries (decodeMsg p.msg).body

instance (w : Network × List (ℕ × Event ℤ)) (actions : List NetAction) (j k : ℕ) :
    Decidable (Heard w actions j k) := inferInstanceAs (Decidable (∀ p ∈ w.1.sent[k]?, _))

/-- The node waits for the event of the creator with the hash, or has it in its column. -/
def KeepsAt (keccak : List UInt8 → Hash) (w : Network) (j : ℕ) (a : Address) (k : Hash) : Prop :=
  ∃ s, w.nodes[j]? = some s ∧ s.Keeps keccak a k

/-- The event waits to be sent, or it was sent. -/
inductive Offers (w : Network) (j : ℕ) (body : Event ℤ) : Prop
  /-- Node `j` is about to send it. -/
  | waits (s : NodeState) (found : w.nodes[j]? = some s) (e : Event ℕ) (ty : ℕ)
      (routable : Routable (UInt32.ofNat ty)) (mem : .event e ty ∈ s.senders) (same : e.body = body)
  /-- There is a message with it. -/
  | sent (p : Packet) (mem : p ∈ w.sent) (carries : p.Carries body)

/-- A composed event is valid, it gets to the graph of its creator and to the other nodes. -/
structure Spreads (keccak : List UInt8 → Hash) (w : Network) (entry : ℕ × Event ℤ) : Prop where
  /-- It is valid. -/
  valid : validateEvent keccak entry.2 = true
  /-- Its creator does not lose it. -/
  keeps : w.KeepsAt keccak entry.1 entry.2.selfSig.addr entry.2.selfHash
  /-- It is not forgotten to be sent. -/
  offers : w.Offers entry.1 entry.2

variable {addresses : List Address} {j n : ℕ} {body : Event ℤ} {c : Address}
  {actions : List NetAction} {members : List (Address × ℕ)}

section Acted

variable {w w' : Network × List (ℕ × Event ℤ)} {i : ℕ} {a : Action} {s s' : NodeState}
  {outputs : List Output}

/-- A node that waits for an event or has it, does so after the step. -/
theorem Acted.keepsAt (h : Acted keccak w i a s s' outputs w') (hsound : s.Sound keccak)
    (hplaced : s.Placed) (hanew : s.Anew a) (hkeeps : w.1.KeepsAt keccak j c k) :
    w'.1.KeepsAt keccak j c k := by
  obtain ⟨t, ht, hk⟩ := hkeeps
  by_cases hj : j = i
  · subst hj
    obtain rfl := Option.some.inj (h.found.symm.trans ht)
    exact ⟨s', h.found_self, hk.move hsound hplaced hanew _ h.move⟩
  · exact ⟨t, (h.found_ne hj).trans ht, hk⟩

/-- An event that waits to be sent goes on waiting, or it is sent. -/
theorem Acted.offers (hgenuine : Genuine keccak addresses n w) (hn : n < 2 ^ 63)
    (h : Acted keccak w i a s s' outputs w') (hoffers : w.1.Offers j body) :
    w'.1.Offers j body := by
  cases hoffers with
  | sent p hmem hcarries =>
    refine .sent p ?_ hcarries
    rw [h.sent]
    exact List.mem_append_left _ hmem
  | waits t ht e ty hroutable hmem hsame =>
    by_cases hj : j = i
    · subst hj
      obtain rfl := Option.some.inj (h.found.symm.trans ht)
      have hs := List.mem_of_getElem? h.found
      rcases s.sends_move keccak a _ h.move _ hmem with hwaits | hsent
      · exact .waits s' h.found_self e ty hroutable hwaits hsame
      · obtain ⟨b, houtput, hdecode⟩ := ((hgenuine.held s hs).senders e ty hmem).output
          hgenuine.recorded (hgenuine.within s hs) (lt_of_le_of_lt hgenuine.steps hn) ty
        have hout := hsent _ (by rw [houtput]; exact List.mem_cons_self)
        refine .sent ⟨none, arrivedMsg eventMsg (UInt32.ofNat ty) b⟩ ?_ ⟨rfl, hroutable, ?_⟩
        · rw [h.sent]
          exact List.mem_append_right _ (List.mem_filterMap.mpr ⟨_, hout, rfl⟩)
        · change (decodeMsg (arrivedMsg eventMsg (UInt32.ofNat ty) b)).body = body
          rw [hdecode]
          exact hsame
    · exact .waits t ((h.found_ne hj).trans ht) e ty hroutable hmem hsame

/-- The event that is composed is spread. -/
theorem Acted.spreads_new (h : Acted keccak w i a s s' outputs w') (hsound : s.Sound keccak)
    (hidle : s.handler.transUnHandled = 0) (hown : s.AddsOwn a) {e : Event ℕ}
    (he : e ∈ s.composed keccak a) : w'.1.Spreads keccak (i, e.body) := by
  obtain ⟨now, -, hfields⟩ := hsound.composed he
  have hvalid := hfields.valid
  obtain ⟨⟨ty, hadd⟩, etTy, hroutable, hsend⟩ :=
    NodeState.composed_move hidle hown _ h.move e he
  refine ⟨hvalid, ⟨s', h.found_self, ?_⟩, .waits s' h.found_self e etTy hroutable hsend rfl⟩
  exact .calls ⟨e, ty, .start⟩ hadd rfl ⟨hvalid, rfl, rfl⟩

end Acted

/-- Events are spread in a network without forged messages, where all nodes add their own. -/
structure Spreading (keccak : List UInt8 → Hash) (addresses : List Address) (n : ℕ)
    (w : Network × List (ℕ × Event ℤ)) : Prop where
  /-- There are no forged messages. -/
  genuine : Genuine keccak addresses n w
  /-- No node has transactions. -/
  idle : ∀ s ∈ w.1.nodes, s.handler.transUnHandled = 0
  /-- The columns of nodes are in order. -/
  placed : ∀ s ∈ w.1.nodes, s.Placed
  /-- All composed events are spread. -/
  spreads : ∀ entry ∈ w.2, w.1.Spreads keccak entry

/-- A step in which a node adds the event that it composes. -/
theorem Spreading.step {w : Network × List (ℕ × Event ℤ)} (h : Spreading keccak addresses n w)
    (hn : n < 2 ^ 63) {a : NetAction} (ha : a.Honest) (hsettles : w.1.Settles a) :
    Ensures (logged (Network.step keccak) w a) (Spreading keccak addresses (n + 1)) := by
  intro w' hw'
  obtain ⟨i, act, s, s', outputs, hturn, hacted⟩ := step_acted keccak w a w' hw'
  have hs := List.mem_of_getElem? hacted.found
  have hsound := h.genuine.sound s hs
  have hadds : s.AddsOwn act := hsettles.1.turn (fun _ _ _ => trivial) hturn hacted.found
  have hanew : s.Anew act := hsettles.2.turn (fun _ _ _ => trivial) hturn hacted.found
  refine ⟨(h.genuine.step hn ha w' hw').1, ?_, ?_, fun entry hentry => ?_⟩
  · refine hacted.forall_nodes h.idle fun hidle => ?_
    exact (s.transUnHandled_move keccak act _ hacted.move).trans hidle
  · refine hacted.forall_nodes h.placed fun hplaced => ?_
    exact (NodeState.columns_move hsound hanew _ hacted.move).2 hplaced
  · rw [hacted.composed] at hentry
    rcases List.mem_append.mp hentry with hold | hnew
    · obtain ⟨hvalid, hkeeps, hoffers⟩ := h.spreads entry hold
      exact ⟨hvalid, hacted.keepsAt hsound (h.placed s hs) hanew hkeeps,
        hacted.offers h.genuine hn hoffers⟩
    · obtain ⟨e, he, rfl⟩ := List.mem_map.mp hnew
      exact hacted.spreads_new hsound (h.idle s hs) hadds (Option.mem_toList.mp he)

/-- Every run without forged messages in which nodes add their own events. -/
theorem Spreading.of_run {w : Network × List (ℕ × Event ℤ)}
    (hrun : run (logged (Network.step keccak)) (newNetwork members, []) actions = .ok w)
    (hhonest : ∀ a ∈ actions, a.Honest) (hlength : actions.length < 2 ^ 63)
    (hsettles : Meets (logged (Network.step keccak)) (fun w a => w.1.Settles a)
      (newNetwork members, []) actions) :
    Spreading keccak (members.map Prod.fst) actions.length w := by
  have hstep (n : ℕ) (w : Network × List (ℕ × Event ℤ)) (a : NetAction)
      (h : n < 2 ^ 63 → Spreading keccak (members.map Prod.fst) n w)
      (ha : w.1.Settles a ∧ a.Honest) : Ensures (logged (Network.step keccak) w a) fun w' =>
        n + 1 < 2 ^ 63 → Spreading keccak (members.map Prod.fst) (n + 1) w' := by
    intro w' hw' hn
    exact (h (by omega)).step (by omega) ha.2 ha.1 w' hw'
  have hinit (_ : 0 < 2 ^ 63) :
      Spreading keccak (members.map Prod.fst) 0 (newNetwork members, []) := by
    refine ⟨genuine_newNetwork keccak members, fun s hs => ?_, fun s hs => ?_,
      fun entry hentry => ?_⟩
    · obtain ⟨c, -, rfl⟩ := List.mem_map.mp hs
      rfl
    · obtain ⟨c, -, rfl⟩ := List.mem_map.mp hs
      exact NodeState.placed_newNode c.1 c.2
    · cases hentry
  have hend := run_counted hstep hinit (hsettles.and_mem hhonest) w hrun
  rw [Nat.zero_add] at hend
  exact hend hlength

/-- Along a run nodes keep what they have. -/
theorem keepsAt_run {w w' : Network × List (ℕ × Event ℤ)}
    (hnodes : ∀ s ∈ w.1.nodes, s.Sound keccak ∧ s.Placed) (hkeeps : w.1.KeepsAt keccak j c k)
    (hrun : run (logged (Network.step keccak)) w actions = .ok w')
    (hsettles : Meets (logged (Network.step keccak)) (fun w a => w.1.Settles a) w actions) :
    w'.1.KeepsAt keccak j c k := by
  have hstep (w : Network × List (ℕ × Event ℤ)) (a : NetAction)
      (h : (∀ s ∈ w.1.nodes, s.Sound keccak ∧ s.Placed) ∧ w.1.KeepsAt keccak j c k)
      (ha : w.1.Settles a) : Ensures (logged (Network.step keccak) w a) fun w' =>
        (∀ s ∈ w'.1.nodes, s.Sound keccak ∧ s.Placed) ∧ w'.1.KeepsAt keccak j c k := by
    intro w' hw'
    obtain ⟨i, act, s, s', outputs, hturn, hacted⟩ := step_acted keccak w a w' hw'
    have hanew : s.Anew act := ha.2.turn (fun _ _ _ => trivial) hturn hacted.found
    obtain ⟨hsound, hplaced⟩ := h.1 s (List.mem_of_getElem? hacted.found)
    exact ⟨hacted.forall_nodes h.1 fun hs => hs.2.move hs.1 hanew _ hacted.move,
      hacted.keepsAt hsound hplaced hanew h.2⟩
  exact (run_invariant hstep ⟨hnodes, hkeeps⟩ hsettles w' hrun).2

/-- Messages stay. -/
theorem sent_run {w w' : Network × List (ℕ × Event ℤ)}
    (hrun : run (logged (Network.step keccak)) w actions = .ok w') : w.1.sent <+: w'.1.sent := by
  have hstep (w₁ : Network × List (ℕ × Event ℤ)) (a : NetAction) (h : w.1.sent <+: w₁.1.sent) :
      Ensures (logged (Network.step keccak) w₁ a) fun w₂ => w.1.sent <+: w₂.1.sent := by
    intro w₂ hw₂
    obtain ⟨i, act, s, s', outputs, -, hacted⟩ := step_acted keccak w₁ a w₂ hw₂
    rw [hacted.sent]
    exact h.trans (List.prefix_append _ _)
  exact run_preserves hstep List.prefix_rfl actions w' hrun

/-- A node to which a message with a valid event was delivered keeps the event. -/
theorem keepsAt_of_delivered {w : Network × List (ℕ × Event ℤ)}
    (hrun : run (logged (Network.step keccak)) (newNetwork members, []) actions = .ok w)
    (hhonest : ∀ a ∈ actions, a.Honest) (hlength : actions.length < 2 ^ 63)
    (hsettles : Meets (logged (Network.step keccak)) (fun w a => w.1.Settles a)
      (newNetwork members, []) actions) {k : ℕ} {p : Packet}
    (hdelivered : (j, k) ∈ actions.filterMap NetAction.delivery) (hp : w.1.sent[k]? = some p)
    (hcarries : p.Carries body) (hvalid : validateEvent keccak body = true) :
    w.1.KeepsAt keccak j body.selfSig.addr body.selfHash := by
  obtain ⟨a, ha, hdelivery⟩ := List.mem_filterMap.mp hdelivered
  cases a with
  | node i act => cases hdelivery
  | ping i payload => cases hdelivery
  | forge i msg pick => cases hdelivery
  | deliver i k' pick =>
    cases hdelivery
    obtain ⟨before, after, rfl⟩ := List.append_of_mem ha
    obtain ⟨w₁, hbefore, hrest⟩ := exists_of_run_append hrun
    obtain ⟨w₂, hstep, hafter⟩ := exists_of_run_cons hrest
    have hspreading := Spreading.of_run hbefore (fun a ha => hhonest a (List.mem_append_left _ ha))
      (by rw [List.length_append] at hlength; omega) hsettles.append_left
    obtain ⟨-, hsettles₂⟩ := hsettles.of_append hbefore
    rw [hstep] at hsettles₂
    obtain ⟨i, act, s, s', outputs, hturn, hacted⟩ := step_acted keccak w₁ _ w₂ hstep
    obtain ⟨p₁, hp₁, heq⟩ := Option.map_eq_some_iff.mp hturn
    cases heq
    -- The message in place `k` is still the one that was delivered.
    have hsame : p₁ = p := by
      obtain ⟨more, hmore⟩ := sent_run hrest
      have hk := (List.getElem?_eq_some_iff.mp hp₁).1
      rw [← hmore, List.getElem?_append_left hk, hp₁] at hp
      exact Option.some.inj hp
    subst hsame
    obtain ⟨ch, hchan, hother⟩ := hcarries.type
    have hnames : (decodeMsg p₁.msg).Names keccak body.selfSig.addr body.selfHash := by
      rw [← names_body, hcarries.body]
      exact ⟨hvalid, rfl, rfl⟩
    have hkeeps := NodeState.keeps_receive hcarries.code hchan hother hnames s pick _ hacted.move
    refine keepsAt_run (hacted.forall_nodes (fun t ht => ?_) fun hs => ?_)
      ⟨s', hacted.found_self, hkeeps⟩ hafter hsettles₂
    · exact ⟨hspreading.genuine.sound t ht, hspreading.placed t ht⟩
    · exact hs.2.move hs.1 (a := .receive p₁.msg pick) trivial _ hacted.move

end Network

/-- Both nodes compose an event and send it. Each adds its own event first. -/
def gossipAll : List NetAction :=
  nodeTimes 0 1 (.handle (.onlyTime 1 0)) ++ nodeTimes 1 1 (.handle (.onlyTime 2 0)) ++
    nodeTimes 0 1 (.cast 0) ++ nodeTimes 0 1 (.send 0) ++ nodeTimes 1 1 (.send 0) ++
    [.deliver 1 0 0, .deliver 0 2 0] ++
    nodeTimes 1 1 (.handle .eventNorm) ++ nodeTimes 1 8 (.add 0) ++ nodeTimes 1 11 (.add 0) ++
    nodeTimes 0 8 (.add 0) ++ nodeTimes 0 1 (.handle .eventNorm) ++ nodeTimes 0 11 (.add 0)

end Hashgrid.Node
