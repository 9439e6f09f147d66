import Hashgrid.Node.LocalWitness
import Hashgrid.Node.PointerRuns

/-!
# Two nodes and the round of a witness

Two connected nodes. Messages that one has sent arrive at the other in any order. A node
broadcasts an event before it knows its round, and again when the event turned out to
be a witness. The other node keeps the round number of the copy that it has stored.
-/

namespace Hashgrid.Node

open Hashgrid.Bytes Hashgrid.Core Hashgrid.Machine Hashgrid.Rlp Hashgrid.Wire

/-- Two connected nodes. -/
structure Pair where
  /-- The first node. -/
  left : NodeState
  /-- The second node. -/
  right : NodeState
  /-- The messages on their way to the first node. -/
  toLeft : List Msg
  /-- The messages on their way to the second node. -/
  toRight : List Msg

/-- What two nodes can do next. -/
inductive PairAction
  /-- The first node takes a step of its own. -/
  | left (a : Action)
  /-- The second node takes a step of its own. -/
  | right (a : Action)
  /-- A message arrives at the first node. -/
  | deliverLeft (i pick : ℕ)
  /-- A message arrives at the second node. -/
  | deliverRight (i pick : ℕ)

/-- A node of a pair. -/
inductive Side
  /-- The first node. -/
  | left
  /-- The second node. -/
  | right
  deriving DecidableEq

/-- Whether the action is the arrival of a message. -/
def Action.isReceive : Action → Bool
  | .receive _ _ => true
  | _ => false

/-- The messages among the outputs that go to a node. -/
def messagesTo (a : Address) (outputs : List Output) : List Msg :=
  outputs.filterMap fun
    | .sent none msg => some msg
    | .sent (some b) msg => if b = a then some msg else none
    | _ => none

/-- Two new nodes. -/
def newPair (a b : Address) (broadnessLeft broadnessRight : ℕ) : Pair :=
  ⟨newNode a broadnessLeft, newNode b broadnessRight, [], []⟩

/-- One of two nodes takes a step. -/
def Pair.step (keccak : List UInt8 → Hash) (p : Pair) :
    PairAction → Except Stop (Pair × List (Side × Output))
  | .left a =>
    if a.isReceive then .error .blocked
    else do
      let (s, o) ← p.left.step keccak a
      return ({ p with left := s, toRight := p.toRight ++ messagesTo p.right.graph.coinbase o },
        o.map fun x => (.left, x))
  | .right a =>
    if a.isReceive then .error .blocked
    else do
      let (s, o) ← p.right.step keccak a
      return ({ p with right := s, toLeft := p.toLeft ++ messagesTo p.left.graph.coinbase o },
        o.map fun x => (.right, x))
  | .deliverLeft i pick =>
    match p.toLeft[i]? with
    | none => .error .blocked
    | some msg => do
      let (s, o) ← p.left.step keccak (.receive msg pick)
      return ({ p with left := s, toLeft := p.toLeft.eraseIdx i }, o.map fun x => (.left, x))
  | .deliverRight i pick =>
    match p.toRight[i]? with
    | none => .error .blocked
    | some msg => do
      let (s, o) ← p.right.step keccak (.receive msg pick)
      return ({ p with right := s, toRight := p.toRight.eraseIdx i }, o.map fun x => (.right, x))

/-- The numbers of the rounds whose witness table holds the watched event. -/
def NodeState.witnessRounds (s : NodeState) (t : Target) : List ℕ :=
  (s.graph.queue.filter fun i =>
    (s.graph.round i).witnesses.any fun w => w.any fun v => t.Is (s.graph.vert v).event).map
    fun i => (s.graph.round i).index

/-- The node has the watched event in the witness table of its round, as a local witness. -/
def NodeState.RecordedLocal (s : NodeState) (t : Target) : Prop :=
  ∃ i ∈ s.graph.queue, (s.graph.round i).index = t.round ∧
    ∃ w ∈ (s.graph.round i).witnesses, ∃ v ∈ w,
      t.Is (s.graph.vert v).event ∧ (s.graph.vert v).witness = Mark.witnessLocal

instance (s : NodeState) (t : Target) : Decidable (s.RecordedLocal t) :=
  inferInstanceAs (Decidable (∃ i ∈ s.graph.queue, _))

/-- `AddEvent` has returned at the second node for a copy of the watched event of the given
type. -/
def processed (log : List (Side × Output)) (t : Target) (ty : ℕ) : Bool :=
  log.any fun
    | (.right, .added e ty') => t.Is e ∧ ty' = ty
    | _ => false

/-- If the watched event is a local witness of its round at the first node and the second node has
processed both broadcasts, then it is in no witness table of the second node but that of its
round. -/
def Target.Agrees (t : Target) (p : Pair × List (Side × Output)) : Prop :=
  p.1.left.RecordedLocal t → processed p.2 t Mark.normal → processed p.2 t Mark.witness →
    ∀ r ∈ p.1.right.witnessRounds t, r = t.round

instance (t : Target) (p : Pair × List (Side × Output)) : Decidable (t.Agrees p) :=
  inferInstanceAs (Decidable (_ → _))

/-- The action does not let the second node store the watched event with another round number, or
enter it as a witness in `AddEvent` while its round is missing. -/
def Target.FaithfulPair (t : Target) (p : Pair) : PairAction → Prop
  | .right a => t.FaithfulStep p.right a
  | _ => True

instance (t : Target) (p : Pair) (a : PairAction) : Decidable (t.FaithfulPair p a) := by
  cases a <;> unfold Target.FaithfulPair <;> infer_instance

variable {t : Target} {coinbase : Address}

/-- The invariant holds in a new graph. -/
theorem graphInv_newJPGraph (ht : t.creator ≠ coinbase) (broadness : ℕ) :
    GraphInv t (fun _ => False) (newJPGraph coinbase broadness) := by
  have hbare : GraphInv t (fun _ => False) (bareGraph coinbase broadness) := by
    refine ⟨ht, ?_, ?_, ?_, ?_, ?_, ?_, ?_, ?_, ?_, ?_⟩
    · exact fun a c hc => by simp [bareGraph] at hc
    · exact fun c k v hv => by cases hv
    · exact fun c v hv => by cases hv
    · exact fun v hv => by cases hv
    · exact fun v hv => by cases hv
    · exact fun v hv => absurd hv (Nat.not_lt_zero v)
    · exact fun ch e he => by cases ch <;> cases he
    · exact fun v hv => by cases hv
    · exact fun v hv => absurd hv (Nat.not_lt_zero v)
    · exact fun i k v hv => by cases hv
  exact ((hbare.addNodeInsert coinbase).1.addNodeMajority _ _).1.pushRound _ _ _

theorem nodeInv_newNode (ht : t.creator ≠ coinbase) (broadness : ℕ) :
    NodeInv t (fun _ => False) (newNode coinbase broadness) :=
  ⟨graphInv_newJPGraph ht broadness, (fun _ he => nomatch he), (fun _ hc => nomatch hc), trivial⟩

/-- The watched event is only in the witness table of its round. -/
theorem NodeInv.eq_of_mem_witnessRounds {own : ℕ → Prop} {s : NodeState} (h : NodeInv t own s)
    {r : ℕ} (hr : r ∈ s.witnessRounds t) : r = t.round := by
  obtain ⟨i, hi, rfl⟩ := List.mem_map.mp hr
  obtain ⟨w, hw, hv⟩ := List.any_eq_true.mp (List.mem_filter.mp hi).2
  obtain ⟨k, hk⟩ := List.mem_iff_getElem?.mp hw
  cases w with
  | none => simp at hv
  | some v => exact (h.graph.table i k v hk).2 (of_decide_eq_true hv)

/-- Every faithful step of two nodes keeps the invariant of the second one. -/
theorem nodeInv_pairStep (keccak : List UInt8 → Hash) {p : Pair × List (Side × Output)}
    {a : PairAction} (h : ∃ own, NodeInv t own p.1.right) (ha : t.FaithfulPair p.1 a) :
    Ensures (logged (Pair.step keccak) p a) fun q => ∃ own, NodeInv t own q.1.right := by
  obtain ⟨own, hinv⟩ := h
  refine .map (Q := fun r => ∃ own, NodeInv t own r.1.right) ?_ fun r hr => hr
  unfold Pair.step
  cases a with
  | left a =>
    dsimp only
    split_ifs
    · exact .error
    · exact .bind (.self _) fun r _ => .ok ⟨own, hinv⟩
  | right a =>
    dsimp only
    split_ifs
    · exact .error
    · exact .bind (hinv.step keccak ha) fun r hr => .ok hr
  | deliverLeft i pick =>
    dsimp only
    split
    · exact .error
    · exact .bind (.self _) fun r _ => .ok ⟨own, hinv⟩
  | deliverRight i pick =>
    dsimp only
    split
    · exact .error
    · exact .bind (hinv.step keccak trivial) fun r hr => .ok hr

/-- In every run of two nodes whose steps are all faithful to a round of an event of the first
node, the nodes agree on this round. -/
theorem agrees_of_faithful (keccak : List UInt8 → Hash) {a b : Address} (hab : a ≠ b) {m n : ℕ}
    {actions : List PairAction} {p : Pair × List (Side × Output)}
    (hrun : run (logged (Pair.step keccak)) (newPair a b m n, []) actions = .ok p)
    {h : Hash} {r : ℕ} (hfaithful : Meets (logged (Pair.step keccak))
      (fun q act => (Target.mk h a r).FaithfulPair q.1 act) (newPair a b m n, []) actions) :
    (Target.mk h a r).Agrees p := by
  intro _ _ _ r' hr'
  have hinit : ∃ own, NodeInv (Target.mk h a r) own (newPair a b m n).right :=
    ⟨_, nodeInv_newNode hab n⟩
  obtain ⟨own, hinv⟩ :=
    run_invariant (fun _ _ hq ha => nodeInv_pairStep keccak hq ha) hinit hfaithful p hrun
  exact hinv.eq_of_mem_witnessRounds hr'

/-- The first event of creator `0x0b`. -/
def peerEvent : Event ℤ :=
  plainEvent 2 0x0B (FixedBytes.zero 32) (FixedBytes.zero 32) 0 0
    (FixedBytes.ofNat 32 0xfa80476c0fb2d69d0af2208cdd26cf6eeb0753e8926644b652d0995d5050838a)

/-- Keccak-256 on the hash inputs of the three events. -/
def pairKeccak : List UInt8 → Hash :=
  tabulated ([firstEvent 0 0, secondEvent, peerEvent].map fun e => (e.checkInput, e.selfHash))

/-- What happens at the nodes `0x0a` and `0x0b`. -/
def pairRun (actions : List PairAction) : Except Stop (Pair × List (Side × Output)) :=
  run (logged (Pair.step pairKeccak))
    (newPair (FixedBytes.ofNat 20 0x0A) (FixedBytes.ofNat 20 0x0B) 2 2, []) actions

/-- The nodes `0x0a` and `0x0b` after the given actions. -/
def pairAfter (actions : List PairAction) : Pair × List (Side × Output) :=
  (pairRun actions).toOption.getD
    (newPair (FixedBytes.ofNat 20 0x0A) (FixedBytes.ofNat 20 0x0B) 2 2, [])

/-- The first node takes a step a number of times. -/
def leftTimes (n : ℕ) (a : Action) : List PairAction := List.replicate n (.left a)

/-- The second node takes a step a number of times. -/
def rightTimes (n : ℕ) (a : Action) : List PairAction := List.replicate n (.right a)

/-- Each node composes an event, the first one gets that of the second one, and then composes
`secondEvent` on top of its own. -/
def composeTwo : List PairAction :=
  leftTimes 1 (.handle (.onlyTime 1 0)) ++ leftTimes 8 (.add 0) ++
    rightTimes 1 (.handle (.onlyTime 2 0)) ++ rightTimes 1 (.send 0) ++ [.deliverLeft 0 0] ++
    leftTimes 1 (.handle .eventNorm) ++ leftTimes 11 (.add 0) ++
    leftTimes 1 (.handle (.onlyTime 3 0)) ++ leftTimes 8 (.add 0)

/-- `MonitorLoop` finds that `secondEvent` is a local witness, and `RoundLoop` opens round 1. -/
def openRoundOne : List PairAction :=
  leftTimes 5 (.monitor fun _ => [FixedBytes.ofNat 20 0x0A, FixedBytes.ofNat 20 0x0B]) ++
    leftTimes 1 (.handle .witnessL) ++ leftTimes 1 .roundLoop

/-- The first event, the normal copy and the witness copy of `secondEvent` arrive and are
added, and `RoundLoop` runs. -/
def arriveThree : List PairAction :=
  [.deliverRight 0 0] ++ rightTimes 1 (.handle .eventNorm) ++ rightTimes 11 (.add 1) ++
    [.deliverRight 0 0] ++ rightTimes 1 (.handle .eventNorm) ++ rightTimes 8 (.add 1) ++
    [.deliverRight 0 0] ++ rightTimes 1 (.handle .witnessR) ++ rightTimes 4 (.add 1) ++
    rightTimes 1 .roundLoop

/-- Round 1 as the round of `secondEvent`. -/
def secondTarget : Target := ⟨secondEvent.selfHash, FixedBytes.ofNat 20 0x0A, 1⟩

/-- The normal copy is sent after round 1 was opened, so it carries this round: both nodes record
`secondEvent` in round 1. -/
def lateBroadcast : List PairAction :=
  composeTwo ++ leftTimes 1 (.send 0) ++ openRoundOne ++ leftTimes 2 (.send 0) ++ arriveThree

/-- The normal copy is sent before round 1 is opened. -/
def earlyBroadcast : List PairAction :=
  composeTwo ++ leftTimes 2 (.send 0) ++ openRoundOne ++ leftTimes 1 (.send 0) ++ arriveThree

/-- Both nodes record `secondEvent` in round 1 if its normal copy is sent late. -/
theorem agrees_lateBroadcast :
    ((pairAfter lateBroadcast).1.left.RecordedLocal secondTarget ∧
      processed (pairAfter lateBroadcast).2 secondTarget Mark.normal ∧
      processed (pairAfter lateBroadcast).2 secondTarget Mark.witness ∧
      (pairAfter lateBroadcast).1.right.witnessRounds secondTarget = [1]) ∧
      secondTarget.Agrees (pairAfter lateBroadcast) := by
  obtain ⟨hrecorded, hreached, hfaithful⟩ :
      ((pairAfter lateBroadcast).1.left.RecordedLocal secondTarget ∧
        processed (pairAfter lateBroadcast).2 secondTarget Mark.normal ∧
        processed (pairAfter lateBroadcast).2 secondTarget Mark.witness ∧
        (pairAfter lateBroadcast).1.right.witnessRounds secondTarget = [1]) ∧
      (pairRun lateBroadcast).toOption.isSome = true ∧
      Meets (logged (Pair.step pairKeccak)) (fun q act => secondTarget.FaithfulPair q.1 act)
        (newPair (FixedBytes.ofNat 20 0x0A) (FixedBytes.ofNat 20 0x0B) 2 2, [])
        lateBroadcast := by decide +kernel
  have hrun : pairRun lateBroadcast = .ok (pairAfter lateBroadcast) := eq_ok_getD hreached _
  exact ⟨hrecorded, agrees_of_faithful pairKeccak (by decide) hrun hfaithful⟩

/-- If the normal copy is sent early, the second node stores it with round 0, ignores the round of
the witness copy and records `secondEvent` in round 0. -/
theorem not_agrees_earlyBroadcast :
    (pairAfter earlyBroadcast).1.left.RecordedLocal secondTarget ∧
      (pairAfter earlyBroadcast).1.right.witnessRounds secondTarget = [0] ∧
      ¬ secondTarget.Agrees (pairAfter earlyBroadcast) := by
  decide +kernel

end Hashgrid.Node
