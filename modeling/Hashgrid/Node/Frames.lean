import Hashgrid.Node.Effects

/-!
# What the goroutines of a node leave alone

The round queue changes in turns of `RoundLoop` only. Vertices keep their events, and
vertices that wait for `RoundLoop` are taken by nobody else.
-/

namespace Hashgrid.Core

open Hashgrid.Bytes Hashgrid.Machine

variable (jp : JPGraph) (keccak : List UInt8 → Hash)

namespace JPGraph

/-- The numbers of rounds, the events of vertices and the vertices that wait for `RoundLoop`
stay. -/
structure KeepsRounds (jp jp' : JPGraph) : Prop where
  /-- The current round stays. -/
  current : jp'.currentIdx = jp.currentIdx
  /-- No round is opened. -/
  rounds : jp'.rounds.next = jp.rounds.next
  /-- The numbers of rounds stay. -/
  index : ∀ i, (jp'.round i).index = (jp.round i).index
  /-- Vertices stay. -/
  verts : jp.verts.next ≤ jp'.verts.next
  /-- Their events stay. -/
  event : ∀ v < jp.verts.next, (jp'.vert v).event = (jp.vert v).event
  /-- Vertices that wait stay in their order. -/
  trigger : jp.roundTrigger <+: jp'.roundTrigger

theorem KeepsRounds.refl : KeepsRounds jp jp :=
  ⟨rfl, rfl, fun _ => rfl, le_rfl, fun _ _ => rfl, List.prefix_rfl⟩

/-- Two steps. -/
theorem KeepsRounds.trans {jp jp' jp'' : JPGraph} (h : KeepsRounds jp jp')
    (h' : KeepsRounds jp' jp'') : KeepsRounds jp jp'' where
  current := h'.current.trans h.current
  rounds := h'.rounds.trans h.rounds
  index i := (h'.index i).trans (h.index i)
  verts := h.verts.trans h'.verts
  event v hv := (h'.event v (lt_of_lt_of_le hv h.verts)).trans (h.event v hv)
  trigger := h.trigger.trans h'.trigger

/-- A step that leaves rounds and vertices alone. -/
theorem KeepsRounds.of_eq {jp jp' : JPGraph} (hcurrent : jp'.currentIdx = jp.currentIdx)
    (hrounds : jp'.rounds = jp.rounds) (hverts : jp'.verts = jp.verts)
    (htrigger : jp.roundTrigger <+: jp'.roundTrigger) : KeepsRounds jp jp' where
  current := hcurrent
  rounds := congrArg Heap.next hrounds
  index i := congrArg (fun rounds : Heap Round => (rounds.get i).index) hrounds
  verts := (congrArg Heap.next hverts).ge
  event v _ := congrArg (fun verts : Heap Vertex => (verts.get v).event) hverts
  trigger := htrigger

/-- A step that keeps the skeleton. -/
theorem Alike.keepsRounds {jp jp' : JPGraph} (h : Alike jp jp') : KeepsRounds jp jp' :=
  ⟨h.read (g := currentIdx) fun _ => by rfl, h.rounds, h.index, h.next.ge, fun v _ => h.event v,
    h.roundTrigger ▸ List.prefix_rfl⟩

/-- A change of a round that keeps its number. -/
theorem keepsRounds_setRound (i : ℕ) {f : Round → Round} (hindex : ∀ rd, (f rd).index = rd.index) :
    KeepsRounds jp (jp.setRound i f) where
  current := rfl
  rounds := Heap.next_update ..
  index j := Heap.get_update_of_eq jp.rounds i hindex j
  verts := le_rfl
  event _ _ := rfl
  trigger := List.prefix_rfl

/-- A change of vertices that keeps their events. -/
theorem keepsRounds_verts {verts : Heap Vertex} (hnext : verts.next = jp.verts.next)
    (hevent : ∀ v, (verts.get v).event = (jp.vert v).event) :
    KeepsRounds jp { jp with verts := verts } where
  current := rfl
  rounds := rfl
  index _ := rfl
  verts := hnext.ge
  event v _ := hevent v
  trigger := List.prefix_rfl

theorem keepsRounds_markVertex (v ty : ℕ) : KeepsRounds jp (jp.markVertex v ty) :=
  keepsRounds_verts jp (Heap.next_update ..)
    (Heap.get_update_of_eq jp.verts v (g := Vertex.event) fun _ => by rfl)

theorem keepsRounds_setWitness (i k v : ℕ) : KeepsRounds jp (jp.setWitness i k v) :=
  keepsRounds_setRound jp i fun _ => by rfl

theorem keepsRounds_triggerRound (v : ℕ) : KeepsRounds jp (jp.triggerRound v) :=
  .of_eq rfl rfl rfl (List.prefix_append _ _)

/-- The section under the lock of the creator's column. -/
theorem keepsRounds_withVertex (e : Event ℕ) (ty c : ℕ) :
    KeepsRounds jp (jp.withVertex e ty c) := by
  refine ⟨rfl, rfl, fun _ => rfl, by simp [withVertex], fun v hv => ?_, List.prefix_rfl⟩
  exact congrArg Vertex.event (Heap.get_alloc_of_lt hv _)

/-- The announcement of a new vertex. -/
theorem keepsRounds_signalCreated (v : ℕ) : KeepsRounds jp (jp.signalCreated v) := by
  unfold signalCreated
  split
  · exact .of_eq rfl rfl rfl List.prefix_rfl
  · exact .refl jp

end JPGraph

/-- No step of `AddEvent` touches the round queue. -/
theorem AddCall.step_keepsRounds (call : AddCall) (jp : JPGraph) :
    Ensures (call.step keccak jp) fun r => jp.KeepsRounds r.1 := by
  obtain ⟨e, ty, pc⟩ := call
  intro r hr
  cases AddCall.step_moves keccak ⟨e, ty, pc⟩ jp r hr with
  | rejects | looks | known => exact .refl jp
  | selfInsert | selfMajority | otherInsert | otherMajority =>
    exact .of_eq rfl rfl rfl List.prefix_rfl
  | inserts => exact jp.keepsRounds_withVertex e ty _
  | existed v => exact jp.keepsRounds_markVertex v ty
  | trigger v => exact jp.keepsRounds_triggerRound v
  | link sc fw oc v => exact (jp.alike_linkOther v oc).keepsRounds
  | request sc fw v => exact (jp.alike_requestParentEvent v).keepsRounds
  | @record _ v _ _ _ hround =>
    rcases jp.recordRound_cases _ _ _ _ _ hround with heq | ⟨x, i, -, -, -, heq⟩
    · rw [heq]
      exact .refl jp
    · rw [heq]
      exact (jp.keepsRounds_markVertex v _).trans (JPGraph.keepsRounds_setWitness _ _ _ _)
  | comer linkpost hjp' => exact (jp.alike_addComer _ _ _ hjp').keepsRounds
  | lost i v linkpost => exact (jp.alike_updateLost i v linkpost).keepsRounds
  | created v => exact jp.keepsRounds_signalCreated v

/-- Composing an event does not touch the round queue. -/
theorem JPGraph.keepsRounds_composeEvent (now : ℤ) (rand : ℕ) :
    Ensures (jp.composeEvent keccak now rand) fun r => jp.KeepsRounds r.1 := by
  intro r hr
  obtain ⟨c, i, k, h⟩ := jp.composeEvent_composes keccak now rand r hr
  obtain ⟨jp₁, ts, hchoose, -, hgraph⟩ := h.graph
  rw [hgraph]
  exact (jp.alike_chooseOther i rand _ hchoose).keepsRounds.trans
    (.of_eq rfl rfl rfl List.prefix_rfl)

/-- No step of `MonitorLoop` touches the round queue. -/
theorem MonitorEffect.keepsRounds {m : Monitor} {jp : JPGraph} {r : Monitor × JPGraph}
    (h : MonitorEffect m jp r) : jp.KeepsRounds r.2 := by
  cases h with
  | front i _ _ _ hgraph => exact hgraph ▸ .refl jp
  | receive i v rest _ _ _ hgraph =>
    have hrest : jp.KeepsRounds { jp with selfEventCreated := rest } :=
      .of_eq rfl rfl rfl List.prefix_rfl
    exact hrest.trans hgraph.alike.keepsRounds
  | put v _ _ hgraph => exact hgraph ▸ .of_eq rfl rfl rfl List.prefix_rfl
  | mark v _ _ hgraph => exact hgraph ▸ jp.keepsRounds_markVertex v _
  | trigger v _ _ hgraph => exact hgraph ▸ jp.keepsRounds_triggerRound v

end Hashgrid.Core

namespace Hashgrid.Node

open Hashgrid.Bytes Hashgrid.Core Hashgrid.Machine Hashgrid.Wire

variable (keccak : List UInt8 → Hash) (jp : JPGraph)

/-- A turn of the event loop does not touch the round queue. -/
theorem keepsRounds_eventHandle (h : Handler) (jp : JPGraph) (b : Branch) :
    Ensures (eventHandle keccak h jp b) fun t => jp.KeepsRounds t.graph := by
  refine .map (Q := fun t => jp.KeepsRounds t.graph) ?_ fun t ht => t.finish_eq.2 ▸ ht
  have hcompose (now : ℤ) (rand : ℕ) (f : JPGraph × Event ℕ → Turn) (hf : ∀ r, (f r).graph = r.1) :
      Ensures (jp.composeEvent keccak now rand >>= fun r => .ok (f r))
        fun t => jp.KeepsRounds t.graph := by
    refine .bind (jp.keepsRounds_composeEvent keccak now rand) fun r hr => .ok ?_
    rwa [hf]
  unfold select
  cases b with
  | eventNorm =>
    dsimp only
    split
    · exact .error
    · exact .ok (.of_eq rfl rfl rfl List.prefix_rfl)
  | witnessL =>
    dsimp only
    split
    · exact .error
    · exact .ok (.of_eq rfl rfl rfl List.prefix_rfl)
  | witnessR =>
    dsimp only
    split
    · exact .error
    · exact .bind (.self _) fun _ _ => .ok (.of_eq rfl rfl rfl List.prefix_rfl)
  | onlyTime now rand => exact hcompose now rand _ fun _ => rfl
  | overFlow now rand =>
    dsimp only
    split
    · exact hcompose now rand _ fun _ => rfl
    · exact .ok (.refl jp)
  | request =>
    dsimp only
    split
    · exact .error
    · exact .ok (.of_eq rfl rfl rfl List.prefix_rfl)

/-- An event for a channel does not touch the round queue. -/
theorem keepsRounds_putEvent (ch : Channel) (e : Event ℕ) :
    Ensures (putEvent jp ch e) jp.KeepsRounds := by
  unfold putEvent
  split_ifs
  · cases ch <;> exact .ok (.of_eq rfl rfl rfl List.prefix_rfl)
  · exact .error

/-- A message does not touch the round queue. -/
theorem keepsRounds_handle (msg : Msg) (pick : ℕ) :
    Ensures (handle jp msg pick) fun hd => jp.KeepsRounds hd.graph := by
  intro hd hhd
  rcases handle_cases jp msg pick hd hhd with heq | ⟨-, ch, -, hput⟩
  · exact heq ▸ .refl jp
  · have hreceive (e : Event ℤ) : jp.KeepsRounds (jp.receive e).1 := by
      unfold JPGraph.receive
      split
      · exact .refl jp
      · exact .of_eq rfl rfl rfl List.prefix_rfl
    exact (hreceive (decodeMsg msg)).trans (keepsRounds_putEvent _ ch _ _ hput)

/-- Only `RoundLoop` touches the round queue. -/
theorem NodeState.move_keepsRounds (s : NodeState) {a : Action} (ha : a ≠ .roundLoop) :
    Ensures (s.move keccak a) fun r => s.graph.KeepsRounds r.1.graph := by
  intro r hr
  cases s.move_spec keccak a r hr with
  | handle b t ht hnext =>
    rw [hnext]
    exact keepsRounds_eventHandle keccak s.handler s.graph b t ht
  | receive msg pick hd hhd hnext =>
    rw [hnext]
    exact keepsRounds_handle s.graph msg pick hd hhd
  | add i call jp pc _ hstep hnext =>
    rw [hnext]
    exact call.step_keepsRounds keccak s.graph _ hstep
  | send i hnext =>
    rw [hnext]
    exact .refl _
  | cast i hnext =>
    rw [hnext]
    exact .refl _
  | trigger _ _ _ => exact absurd rfl ha
  | roundLoop _ _ _ _ _ _ _ _ => exact absurd rfl ha
  | monitor order m jp hstep hnext =>
    rw [hnext]
    exact (monitorStep_effect s.monitor s.graph order _ hstep).keepsRounds
  | consensusShow rest hnext =>
    rw [hnext]
    exact .of_eq rfl rfl rfl List.prefix_rfl

end Hashgrid.Node
