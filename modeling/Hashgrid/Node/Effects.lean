import Hashgrid.Core.LoopEffect
import Hashgrid.Node.Machine

/-!
# What the goroutines of a node can do

The turns of the event loop and the handling of messages, each summed up by its kind.
-/

namespace Hashgrid.Node

open Hashgrid.Bytes Hashgrid.Core Hashgrid.Machine Hashgrid.Wire

/-- The graph after the oldest event of a channel was taken. -/
def dropEvent (jp : JPGraph) : Channel → JPGraph
  | .eventNorm => { jp with eventNorm := jp.eventNorm.tail }
  | .witnessR => { jp with witnessR := jp.witnessR.tail }
  | .witnessL => { jp with witnessL := jp.witnessL.tail }

/-- What a turn of the event loop can do: take an event, compose one, or neither. -/
inductive TurnKind (keccak : List UInt8 → Hash) (h : Handler) (jp : JPGraph) (b : Branch)
    (t : Turn) : Prop
  /-- It takes the oldest event of a channel. -/
  | take (ch : Channel) (e : Event ℕ) (branch : b = branchOf ch)
      (head : (jp.channel ch).head? = some e) (event : t.handler.et = some e)
      (graph : t.graph = dropEvent jp ch)
  /-- It composes an event. -/
  | compose (now : ℤ) (rand : ℕ) (e : Event ℕ) (branch : ∀ ch, b ≠ branchOf ch)
      (composed : jp.composeEvent keccak now rand = .ok (t.graph, e))
      (event : t.handler.et = some e)
  /-- It leaves the variables and the graph alone, except for a request that it takes. -/
  | idle (branch : ∀ ch, b ≠ branchOf ch) (event : t.handler.et = h.et)
      (graph : jp.Neutral t.graph)

/-- The end of a turn changes nothing but the goroutines. -/
theorem Turn.finish_eq (t : Turn) : t.finish.handler = t.handler ∧ t.finish.graph = t.graph := by
  unfold Turn.finish
  split
  · exact ⟨rfl, rfl⟩
  · split <;> exact ⟨rfl, rfl⟩

variable (keccak : List UInt8 → Hash)

/-- Every turn of the event loop is of one of the three kinds. -/
theorem eventHandle_cases (h : Handler) (jp : JPGraph) (b : Branch) :
    Ensures (eventHandle keccak h jp b) (TurnKind keccak h jp b) := by
  refine .map (Q := TurnKind keccak h jp b) ?_ fun t ht => ?_
  · unfold select
    cases b with
    | eventNorm =>
      dsimp only
      split
      · exact .error
      · next e rest hq =>
        exact .ok (.take .eventNorm e rfl (congrArg List.head? hq) rfl (by simp [dropEvent, hq]))
    | witnessL =>
      dsimp only
      split
      · exact .error
      · next e rest hq =>
        exact .ok (.take .witnessL e rfl (congrArg List.head? hq) rfl (by simp [dropEvent, hq]))
    | witnessR =>
      dsimp only
      split
      · exact .error
      · next e rest hq =>
        refine .bind (.self _) fun r _ => .ok ?_
        exact .take .witnessR e rfl (congrArg List.head? hq) rfl (by simp [dropEvent, hq])
    | onlyTime now rand =>
      refine .bind (.self _) fun r hr => .ok ?_
      exact .compose now rand r.2 (fun ch => by cases ch <;> exact fun h => nomatch h) hr rfl
    | overFlow now rand =>
      have hbranch (ch : Channel) : Branch.overFlow now rand ≠ branchOf ch := by
        cases ch <;> exact fun h => nomatch h
      dsimp only
      split
      · refine .bind (.self _) fun r hr => .ok ?_
        exact .compose now rand r.2 hbranch hr rfl
      · exact .ok (.idle hbranch rfl (.refl jp))
    | request =>
      dsimp only
      split
      · exact .error
      · refine .ok (.idle (fun ch => by cases ch <;> exact fun h => nomatch h) rfl ?_)
        exact JPGraph.neutral_queues jp _ _ _
  · obtain ⟨hhandler, hgraph⟩ := t.finish_eq
    cases ht with
    | take ch e hb hhead he hg =>
      exact .take ch e hb hhead (hhandler ▸ he) (hgraph.trans hg)
    | compose now rand e hb hcomp he =>
      exact .compose now rand e hb (hgraph ▸ hcomp) (hhandler ▸ he)
    | idle hb he hg => exact .idle hb (hhandler ▸ he) (hgraph ▸ hg)

/-- What a call that a turn starts is about. -/
theorem mem_addCalls (h : Handler) (jp : JPGraph) (b : Branch) :
    Ensures (eventHandle keccak h jp b) fun t =>
      ∀ call ∈ t.addCalls, t.handler.et = some call.1 ∧ call.2 ≠ Mark.witnessLocal := by
  refine .map (Q := fun t => t.addCalls = []) ?_ fun t ht call hcall => ?_
  · unfold select
    cases b with
    | eventNorm => dsimp only; split <;> first | exact .error | exact .ok rfl
    | witnessL => dsimp only; split <;> first | exact .error | exact .ok rfl
    | witnessR =>
      dsimp only
      split
      · exact .error
      · exact .bind (.self _) fun _ _ => .ok rfl
    | onlyTime now rand => exact .bind (.self _) fun _ _ => .ok rfl
    | overFlow now rand =>
      dsimp only
      split
      · exact .bind (.self _) fun _ _ => .ok rfl
      · exact .ok rfl
    | request => dsimp only; split <;> first | exact .error | exact .ok rfl
  · rw [Turn.addCalls_finish, ht, List.nil_append] at hcall
    rw [t.finish_eq.1]
    split_ifs at hcall with hty
    · obtain ⟨e, he, rfl⟩ := List.mem_map.mp hcall
      exact ⟨Option.mem_toList.mp he, hty⟩
    · simp at hcall

/-- What the handling of a message can do: nothing, or put a decoded event into the channel of
its type. -/
theorem handle_cases (jp : JPGraph) (msg : Msg) (pick : ℕ) :
    Ensures (handle jp msg pick) fun hd => hd.graph = jp ∨
      msg.code = eventMsg ∧ ∃ ch, chanEvent msg.type = some ch ∧
        putEvent (jp.receive (decodeMsg msg)).1 ch (jp.receive (decodeMsg msg)).2 =
          .ok hd.graph := by
  by_cases hcode : msg.code = eventMsg
  · rw [handle_eventMsg jp hcode]
    split
    · exact .ok (Or.inl rfl)
    · next ch hch =>
      exact .map (.self _) fun jp' hjp' => Or.inr ⟨hcode, ch, hch, hjp'⟩
  · unfold handle
    split_ifs
    · exact .ok (Or.inl rfl)
    · exact .ok (Or.inl rfl)
    · exact .ok (Or.inl rfl)
    · split <;> exact .ok (Or.inl rfl)
    · exact .ok (Or.inl rfl)
    · exact .ok (Or.inl rfl)

namespace NodeState

/-- What a step of a node does, by the goroutine that takes it. -/
inductive Moves (keccak : List UInt8 → Hash) (s s' : NodeState) : Action → Prop
  /-- The event loop makes a turn. -/
  | handle (b : Branch) (t : Turn) (turn : eventHandle keccak s.handler s.graph b = .ok t)
      (next : s' = { s with
        graph := t.graph
        handler := t.handler
        adds := s.adds ++ t.addCalls.map fun call => ⟨call.1, call.2, .start⟩
        senders := s.senders ++ t.started.filterMap Go.sender }) : Moves keccak s s' (.handle b)
  /-- A message is handled. -/
  | receive (msg : Msg) (pick : ℕ) (hd : Handled)
      (handled : Node.handle s.graph msg pick = .ok hd)
      (next : s' = { s with
        graph := hd.graph
        senders := s.senders ++ hd.reply.toList.map Reply.sender }) :
      Moves keccak s s' (.receive msg pick)
  /-- A call of `AddEvent` goes on or returns. -/
  | add (i : ℕ) (call : AddCall) (jp : JPGraph) (pc : Option AddPc)
      (found : s.adds[i]? = some call) (step : call.step keccak s.graph = .ok (jp, pc))
      (next : s' = { s with
        graph := jp
        adds := pc.elim (s.adds.eraseIdx i) fun pc => s.adds.set i { call with pc := pc } }) :
      Moves keccak s s' (.add i)
  /-- A message is sent. -/
  | send (i : ℕ) (next : s' = { s with senders := s.senders.eraseIdx i }) :
      Moves keccak s s' (.send i)
  /-- A broadcast sends its event to one more peer. -/
  | cast (i : ℕ) (next : s' = s) : Moves keccak s s' (.cast i)
  /-- `RoundLoop` sends a number to `consensusTrigger`. -/
  | trigger (idx : ℕ) (pending : s.consensus = some idx)
      (next : s' = { s with
        graph := { s.graph with consensusTrigger := s.graph.consensusTrigger ++ [idx] }
        consensus := none }) : Moves keccak s s' .roundLoop
  /-- `RoundLoop` takes the vertex that waits longest. -/
  | roundLoop (v : ℕ) (rest : List ℕ) (jp : JPGraph) (consensus : Option ℕ)
      (idle : s.consensus = none) (head : s.graph.roundTrigger = v :: rest)
      (turn : { s.graph with roundTrigger := rest }.roundLoop v = .ok (jp, consensus))
      (next : s' = { s with graph := jp, consensus := consensus }) :
      Moves keccak s s' .roundLoop
  /-- `MonitorLoop` goes on. -/
  | monitor (order : ℕ → List Address) (m : Monitor) (jp : JPGraph)
      (step : s.monitor.step s.graph order = .ok (m, jp))
      (next : s' = { s with graph := jp, monitor := m }) : Moves keccak s s' (.monitor order)
  /-- `ConsensusShow` takes a number. -/
  | consensusShow (rest : List ℕ)
      (next : s' = { s with graph := { s.graph with consensusTrigger := rest } }) :
      Moves keccak s s' .consensusShow

/-- Every step of a node is one of these. -/
theorem move_spec (s : NodeState) (a : Action) :
    Ensures (s.move keccak a) fun r => s.Moves keccak r.1 a := by
  unfold move
  cases a with
  | handle b => exact .bind (.self _) fun t ht => .ok (.handle b t ht rfl)
  | receive msg pick => exact .bind (.self _) fun hd hhd => .ok (.receive msg pick hd hhd rfl)
  | add i =>
    dsimp only [addStep]
    split
    · exact .error
    · next call hcall =>
      refine .bind (.self _) fun r hr => ?_
      obtain ⟨jp, pc⟩ := r
      cases pc with
      | none => exact .ok (.add i call jp none hcall hr rfl)
      | some pc => exact .ok (.add i call jp (some pc) hcall hr rfl)
  | send i =>
    dsimp only [sendStep]
    split
    · exact .error
    · exact .ok (.send i rfl)
  | cast i =>
    dsimp only [castStep]
    split
    · exact .ok (.cast i rfl)
    · exact .error
  | roundLoop =>
    dsimp only [roundLoopStep]
    split
    · next idx hidx => exact .ok (.trigger idx hidx rfl)
    · next hidle =>
      split
      · exact .error
      · next v rest hq =>
        refine .bind (.self _) fun r hr => .ok ?_
        exact .roundLoop v rest r.1 r.2 hidle hq hr rfl
  | monitor order => exact .bind (.self _) fun r hr => .ok (.monitor order r.1 r.2 hr rfl)
  | consensusShow =>
    dsimp only [consensusStep]
    split
    · exact .error
    · exact .ok (.consensusShow _ rfl)

end NodeState

end Hashgrid.Node
