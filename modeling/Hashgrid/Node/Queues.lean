import Hashgrid.Node.Frames
import Hashgrid.Node.LocalWitness

/-!
# Who takes from the queues of a node

Every queue of a node is emptied by one goroutine: `witnessL` by the event loop,
`roundTrigger` by `RoundLoop`, and a goroutine that sends ends when its message is sent.
All others only add at the end, so what waits keeps its place.
-/

namespace Hashgrid.Core

open Hashgrid.Bytes Hashgrid.Machine

variable {q : Monitor × JPGraph} {jp : JPGraph} {m : Monitor} {v : ℕ}

/-- `MonitorLoop` sends the event of a local witness. -/
theorem MonitorEffect.of_put (h : MonitorEffect m jp q) (hpc : m.pc = .put v) :
    q.1.pc = .mark v ∧ q.2.witnessL = jp.witnessL ++ [(jp.vert v).event] := by
  cases h with
  | put u hpc' hmonitor hgraph =>
    cases hpc.symm.trans hpc'
    exact ⟨hmonitor, by rw [hgraph]⟩
  | front i hpc' => exact nomatch hpc.symm.trans hpc'
  | receive i u rest hpc' => exact nomatch hpc.symm.trans hpc'
  | mark u hpc' => exact nomatch hpc.symm.trans hpc'
  | trigger u hpc' => exact nomatch hpc.symm.trans hpc'

/-- `MonitorLoop` marks a local witness. -/
theorem MonitorEffect.of_mark (h : MonitorEffect m jp q) (hpc : m.pc = .mark v) :
    q.1.pc = .trigger v := by
  cases h with
  | mark u hpc' hmonitor =>
    cases hpc.symm.trans hpc'
    exact hmonitor
  | front i hpc' => exact nomatch hpc.symm.trans hpc'
  | receive i u rest hpc' => exact nomatch hpc.symm.trans hpc'
  | put u hpc' => exact nomatch hpc.symm.trans hpc'
  | trigger u hpc' => exact nomatch hpc.symm.trans hpc'

/-- `MonitorLoop` sends the vertex of a local witness. -/
theorem MonitorEffect.of_trigger (h : MonitorEffect m jp q) (hpc : m.pc = .trigger v) :
    q.2.roundTrigger = jp.roundTrigger ++ [v] := by
  cases h with
  | trigger u hpc' hmonitor hgraph =>
    cases hpc.symm.trans hpc'
    rw [hgraph]
    rfl
  | front i hpc' => exact nomatch hpc.symm.trans hpc'
  | receive i u rest hpc' => exact nomatch hpc.symm.trans hpc'
  | put u hpc' => exact nomatch hpc.symm.trans hpc'
  | mark u hpc' => exact nomatch hpc.symm.trans hpc'

end Hashgrid.Core

namespace Hashgrid.Node

open Hashgrid.Bytes Hashgrid.Core Hashgrid.Machine Hashgrid.Wire

variable (jp : JPGraph)

/-- What the handling of an event message does: the event goes to the end of its channel. -/
theorem putEvent_spec (ch : Channel) (e : Event ℕ) :
    Ensures (putEvent jp ch e) fun jp' => jp'.cells = jp.cells ∧ jp'.verts = jp.verts ∧
      jp'.selfEventCreated = jp.selfEventCreated ∧
      ∀ ch', jp'.channel ch' = if ch' = ch then jp.channel ch' ++ [e] else jp.channel ch' := by
  unfold putEvent
  split_ifs
  · cases ch <;> exact .ok ⟨rfl, rfl, rfl, fun ch' => by cases ch' <;> rfl⟩
  · exact .error

/-- What a turn of `RoundLoop` leaves alone in the graph. -/
theorem roundLoop_frame (v : ℕ) : Ensures (jp.roundLoop v) fun r =>
    r.1.verts = jp.verts ∧ r.1.selfEventCreated = jp.selfEventCreated ∧
      r.1.roundTrigger = jp.roundTrigger := by
  intro r hr
  obtain ⟨cell, jp₁, -, hjp₁, hcases⟩ := jp.roundLoop_cases v r hr
  rcases hcases with heq | ⟨i, k, -, heq⟩ <;> rw [heq, hjp₁] <;> split_ifs <;>
    exact ⟨rfl, rfl, rfl⟩

namespace NodeState

/-- A turn of `RoundLoop`: it takes the vertex that waits longest. -/
theorem roundLoopStep_turn {s : NodeState} (hidle : s.consensus = none) :
    Ensures s.roundLoopStep fun r => ∃ v rest out, s.graph.roundTrigger = v :: rest ∧
      { s.graph with roundTrigger := rest }.roundLoop v = .ok (r.1.graph, out) ∧
      r.1.graph.roundTrigger = rest := by
  unfold roundLoopStep
  rw [hidle]
  dsimp only
  split
  · exact .error
  · next v rest hq =>
    refine .bind (.self _) fun r hr => .ok ⟨v, rest, r.2, hq, hr, ?_⟩
    exact (roundLoop_frame _ v r hr).2.2

variable (s : NodeState) (keccak : List UInt8 → Hash) {a : Action}

theorem monitorStep_spec (order : ℕ → List Address) :
    Ensures (s.monitorStep order) fun r =>
      MonitorEffect s.monitor s.graph (r.1.monitor, r.1.graph) :=
  .bind (monitorStep_effect s.monitor s.graph order) fun _ hr => .ok hr

/-- `RoundLoop` sends a number to `consensusTrigger`. -/
theorem roundLoopStep_send {s : NodeState} {idx : ℕ} (hidx : s.consensus = some idx) :
    Ensures s.roundLoopStep fun r => r.1.graph.roundTrigger = s.graph.roundTrigger := by
  unfold roundLoopStep
  rw [hidx]
  exact .ok rfl

/-- What `RoundLoop` leaves alone. -/
structure RoundLoopFrame (s s' : NodeState) : Prop where
  /-- The vertices. -/
  verts : s'.graph.verts = s.graph.verts
  /-- The announced vertices. -/
  created : s'.graph.selfEventCreated = s.graph.selfEventCreated
  /-- The channels. -/
  channel : ∀ ch, s'.graph.channel ch = s.graph.channel ch
  /-- The event loop. -/
  handler : s'.handler = s.handler
  /-- The calls of `AddEvent`. -/
  adds : s'.adds = s.adds
  /-- The goroutines that send. -/
  senders : s'.senders = s.senders
  /-- `MonitorLoop`. -/
  monitor : s'.monitor = s.monitor

/-- `RoundLoop` changes rounds and round numbers only. -/
theorem roundLoopStep_frame : Ensures s.roundLoopStep fun r => s.RoundLoopFrame r.1 := by
  unfold roundLoopStep
  split
  · exact .ok ⟨rfl, rfl, fun ch => by cases ch <;> rfl, rfl, rfl, rfl, rfl⟩
  · split
    · exact .error
    · next v rest _ =>
      refine .bind (.self _) fun r hr => .ok ?_
      obtain ⟨hverts, hcreated, -⟩ := roundLoop_frame _ v r hr
      refine ⟨hverts, hcreated, fun ch => ?_, rfl, rfl, rfl, rfl⟩
      exact (channel_roundLoop _ _ r hr ch).trans (by cases ch <;> rfl)

/-- A message is sent. -/
theorem sendStep_senders (i : ℕ) : Ensures (s.sendStep i) fun r =>
    r.1.senders = s.senders.eraseIdx i ∧ r.1.graph = s.graph := by
  unfold sendStep
  split
  · exact .error
  · exact .ok ⟨rfl, rfl⟩

/-- The event loop takes a local witness and starts the goroutine that sends it. -/
theorem handleStep_witnessL :
    Ensures (s.handleStep keccak .witnessL) fun r => ∃ e rest, s.graph.witnessL = e :: rest ∧
      r.1.graph.witnessL = rest ∧ r.1.senders = s.senders ++ [.event e Mark.witness] := by
  unfold handleStep eventHandle select
  dsimp only
  cases hq : s.graph.witnessL with
  | nil => exact .error
  | cons e rest => exact .ok ⟨e, rest, rfl, rfl, rfl⟩

/-- The other steps take nothing from `witnessL`. -/
theorem witnessL_move (ha : a ≠ .handle .witnessL) :
    Ensures (s.move keccak a) fun r => s.graph.witnessL <+: r.1.graph.witnessL := by
  have hsame {jp : JPGraph} (h : jp.witnessL = s.graph.witnessL) :
      s.graph.witnessL <+: jp.witnessL := h ▸ List.prefix_rfl
  intro r hr
  cases s.move_spec keccak a r hr with
  | handle b t ht hnext =>
    rw [hnext]
    cases eventHandle_cases keccak s.handler s.graph b t ht with
    | take ch e hb _ _ hgraph =>
      have hch : ch ≠ .witnessL := by
        rintro rfl
        exact ha (congrArg Action.handle hb)
      refine hsame ?_
      rw [hgraph]
      cases ch with
      | eventNorm => rfl
      | witnessR => rfl
      | witnessL => exact absurd rfl hch
    | compose now rand e _ hcomp _ => exact hsame (channel_composeEvent hcomp .witnessL)
    | idle _ _ hneutral => exact hsame (hneutral.channel .witnessL)
  | receive msg pick hd hhd hnext =>
    rw [hnext]
    rcases handle_cases s.graph msg pick hd hhd with heq | ⟨-, ch, -, hput⟩
    · exact hsame (congrArg JPGraph.witnessL heq)
    · have hchannel := (putEvent_spec _ ch _ _ hput).2.2.2 .witnessL
      rw [channel_receive] at hchannel
      split_ifs at hchannel
      · exact ⟨_, hchannel.symm⟩
      · exact hsame hchannel
  | add i call jp pc _ hstep hnext =>
    rw [hnext]
    exact hsame ((call.step_keeps keccak s.graph _ hstep).channel .witnessL)
  | send i hnext => exact hsame (congrArg (fun s' => s'.graph.witnessL) hnext)
  | cast i hnext => exact hsame (congrArg (fun s' => s'.graph.witnessL) hnext)
  | trigger idx _ hnext => exact hsame (congrArg (fun s' => s'.graph.witnessL) hnext)
  | roundLoop _ _ _ _ _ _ _ _ => exact hsame ((s.roundLoopStep_frame r hr).channel .witnessL)
  | monitor order m jp hstep hnext =>
    rw [hnext]
    cases monitorStep_effect s.monitor s.graph order _ hstep with
    | front i _ _ _ hgraph => exact hsame (congrArg JPGraph.witnessL hgraph)
    | receive i v rest _ _ _ hgraph => exact hsame (hgraph.alike.neutral.channel .witnessL)
    | put v _ _ hgraph =>
      have hput := congrArg JPGraph.witnessL hgraph
      exact ⟨_, hput.symm⟩
    | mark v _ _ hgraph => exact hsame (congrArg JPGraph.witnessL hgraph :)
    | trigger v _ _ hgraph => exact hsame (congrArg JPGraph.witnessL hgraph :)
  | consensusShow rest hnext => exact hsame (congrArg (fun s' => s'.graph.witnessL) hnext)

/-- A goroutine that sends waits until its message is sent. -/
theorem senders_move (ha : ∀ i, a ≠ .send i) :
    Ensures (s.move keccak a) fun r => s.senders <+: r.1.senders := by
  have hsame {senders : List Sender} (h : senders = s.senders) : s.senders <+: senders :=
    h ▸ List.prefix_rfl
  intro r hr
  cases s.move_spec keccak a r hr with
  | handle b t _ hnext =>
    rw [hnext]
    exact List.prefix_append _ _
  | receive msg pick hd _ hnext =>
    rw [hnext]
    exact List.prefix_append _ _
  | add i call jp pc _ _ hnext => exact hsame (congrArg NodeState.senders hnext :)
  | send i _ => exact absurd rfl (ha i)
  | cast i hnext => exact hsame (congrArg NodeState.senders hnext :)
  | trigger idx _ hnext => exact hsame (congrArg NodeState.senders hnext :)
  | roundLoop v rest jp out _ _ _ hnext => exact hsame (congrArg NodeState.senders hnext :)
  | monitor order m jp _ hnext => exact hsame (congrArg NodeState.senders hnext :)
  | consensusShow rest hnext => exact hsame (congrArg NodeState.senders hnext :)

/-- Vertices keep their events. -/
theorem event_move (a : Action) {v : ℕ} (hv : v < s.graph.verts.next) :
    Ensures (s.move keccak a) fun r => (r.1.graph.vert v).event = (s.graph.vert v).event := by
  by_cases ha : a = .roundLoop
  · subst ha
    intro r hr
    have hverts := (s.roundLoopStep_frame r hr).verts
    exact congrArg (fun verts : Heap Vertex => (verts.get v).event) hverts
  · exact fun r hr => (s.move_keepsRounds keccak ha r hr).event v hv

/-- Other goroutines leave `MonitorLoop` alone. -/
theorem move_monitor (ha : ∀ order, a ≠ .monitor order) :
    Ensures (s.move keccak a) fun r => r.1.monitor = s.monitor := by
  intro r hr
  cases s.move_spec keccak a r hr with
  | handle b t _ hnext => rw [hnext]
  | receive msg pick hd _ hnext => rw [hnext]
  | add i call jp pc _ _ hnext => rw [hnext]
  | send i hnext => rw [hnext]
  | cast i hnext => rw [hnext]
  | trigger idx _ hnext => rw [hnext]
  | roundLoop v rest jp out _ _ _ hnext => rw [hnext]
  | monitor order _ _ _ _ => exact absurd rfl (ha order)
  | consensusShow rest hnext => rw [hnext]

end NodeState

end Hashgrid.Node
