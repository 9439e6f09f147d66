import Hashgrid.Core.AddEvent
import Hashgrid.Core.See

/-!
# The loops of the round manager

`RoundLoop` and `MonitorLoop` of `core/round.go`. A turn of `RoundLoop` is one step up to
the send to `consensusTrigger`. A turn of `MonitorLoop` is cut at its channel operations,
because other goroutines run while it waits there.
-/

namespace Hashgrid.Core

open Hashgrid.Bytes Hashgrid.Machine

/-- `RoundMax`. -/
def roundMax : ℕ := 10

/-- `ColorClusterRound`. -/
def colorClusterRound : ℕ := 0

/-- The loop of `RoundLoop` over the witnesses of a round: whether the first ones are all
there. -/
def allCome : ℕ → List (Option ℕ) → Except Stop Bool
  | 0, _ => .ok true
  | _ + 1, [] => .error .indexOutOfRange
  | _ + 1, none :: _ => .ok false
  | n + 1, some _ :: ws => allCome n ws

namespace JPGraph

/-- The vertex opens the next round. -/
def opensRound (jp : JPGraph) (v cell : ℕ) : Bool :=
  ((jp.vert v).witness = Mark.witnessLocal ∧ jp.cells.get cell = jp.currentIdx) ∨
    ((jp.vert v).witness = Mark.witness ∧ jp.cells.get cell = jp.currentIdx + 1)

/-- Open the next round and write its number through a round pointer. -/
def openRound (jp : JPGraph) (cell : ℕ) : JPGraph :=
  { jp with
    currentIdx := jp.currentIdx + 1
    cells := jp.cells.update cell fun _ => jp.currentIdx + 1
    rounds := jp.rounds.alloc (newRound jp.broadness (jp.currentIdx + 1)) }

/-- The search of `RoundLoop`: only a round with the right number is found. -/
def findRound (jp : JPGraph) (r : ℤ) : Option ℕ :=
  jp.queue.find? fun i => decide (r = (jp.round i).index)

/-- A turn of `RoundLoop` with a vertex from `roundTrigger`. It returns the number to send to
`consensusTrigger`. -/
def roundLoop (jp : JPGraph) (v : ℕ) : Except Stop (JPGraph × Option ℕ) :=
  match (jp.vert v).event.roundID with
  | none => .error .nilDeref
  | some cell =>
    let jp := if jp.opensRound v cell then jp.openRound cell else jp
    match jp.findRound (jp.cells.get cell) with
    | none => .ok (jp, none)
    | some i =>
      let k := (jp.vert v).seqNum
      if k < (jp.round i).witnesses.length then do
        let jp := jp.setWitness i k v
        let complete ← allCome (jp.round i).broadness (jp.round i).witnesses
        return (jp, if complete then some (jp.round i).index else none)
      else .error .indexOutOfRange

/-- One turn of the loop of `MonitorLoop` over the witnesses of a round. -/
def judgeWitness (rd : Round) (starter : ℕ) (order : ℕ → List Address) (st : JPGraph × ℕ) (i : ℕ) :
    Except Stop (JPGraph × ℕ) :=
  match rd.witnesses[i]? with
  | none => .error .indexOutOfRange
  | some none => .ok st
  | some (some m) => do
    let jp ← st.1.clearColorDFS rd.index colorClusterRound (order i)
    let (jp, _, k) ← jp.judgeSee starter m colorClusterRound
    return (jp, if k then st.2 + 1 else st.2)

/-- The loop of `MonitorLoop`: how many witnesses of the round the vertex strongly sees. -/
def countSees (jp : JPGraph) (rd : Round) (starter : ℕ) (order : ℕ → List Address) :
    Except Stop (JPGraph × ℕ) :=
  (List.range rd.broadness).foldlM (judgeWitness rd starter order) (jp, 0)

end JPGraph

/-- Where `MonitorLoop` stands. -/
inductive MonitorPc
  /-- Before it reads the front of the queue. -/
  | front
  /-- Before it receives a vertex, with the round that it has read. -/
  | receive (round : ℕ)
  /-- Before it sends the event of a local witness to `witnessL`. -/
  | put (v : ℕ)
  /-- Before it marks the local witness. -/
  | mark (v : ℕ)
  /-- Before it sends the local witness to `roundTrigger`. -/
  | trigger (v : ℕ)
  deriving DecidableEq

/-- `MonitorLoop`. -/
structure Monitor where
  /-- Where it stands. -/
  pc : MonitorPc
  /-- `roundNum`. -/
  roundNum : ℕ
  deriving DecidableEq

/-- `MonitorLoop` receives a new vertex of this node and looks whether it is a local witness. -/
def Monitor.judge (m : Monitor) (jp : JPGraph) (i v : ℕ) (order : ℕ → List Address) :
    Except Stop (Monitor × JPGraph) :=
  if jp.broadness ≠ jp.graph.entries.length then .ok (⟨.front, m.roundNum⟩, jp)
  else do
    let roundNum := m.roundNum + 1
    let (jp, strongsee) ← jp.countSees (jp.round i) v order
    if strongsee > jp.superMajority ∨ ((jp.vert v).seqNum = 0 ∧ roundNum = roundMax) then
      return (⟨.put v, roundNum⟩, jp)
    else return (⟨.front, roundNum⟩, jp)

/-- The next step of `MonitorLoop`. -/
def Monitor.step (m : Monitor) (jp : JPGraph) (order : ℕ → List Address) :
    Except Stop (Monitor × JPGraph) :=
  match m.pc with
  | .front =>
    match jp.queue.head? with
    | none => .error .nilDeref
    | some i => .ok (⟨.receive i, m.roundNum⟩, jp)
  | .receive i =>
    match jp.selfEventCreated with
    | [] => .error .blocked
    | v :: rest => m.judge { jp with selfEventCreated := rest } i v order
  | .put v =>
    .ok (⟨.mark v, m.roundNum⟩, { jp with witnessL := jp.witnessL ++ [(jp.vert v).event] })
  | .mark v =>
    .ok (⟨.trigger v, m.roundNum⟩, jp.markVertex v Mark.witnessLocal)
  | .trigger v => .ok (⟨.front, 0⟩, jp.triggerRound v)

/-- Looking at one witness paints vertices. -/
theorem painted_judgeWitness (rd : Round) (starter : ℕ) (order : ℕ → List Address)
    (st : JPGraph × ℕ) (i : ℕ) : Ensures (JPGraph.judgeWitness rd starter order st i) fun st' =>
      JPGraph.Painted colorClusterRound st.1 st'.1 := by
  unfold JPGraph.judgeWitness
  split
  · exact .error
  · exact .ok .refl
  · refine .bind (JPGraph.painted_clearColorDFS _ _ _ _) fun jp₁ h₁ => ?_
    refine .bind (JPGraph.painted_judgeSee _ _ _ _) fun r h₂ => ?_
    exact .ok (h₁.trans h₂)

theorem sameButColors_judgeWitness {jp : JPGraph} (rd : Round) (starter : ℕ)
    (order : ℕ → List Address) {st : JPGraph × ℕ} (hst : jp.SameButColors st.1) (i : ℕ) :
    Ensures (JPGraph.judgeWitness rd starter order st i) fun st' => jp.SameButColors st'.1 :=
  fun st' hst' => hst.trans (painted_judgeWitness rd starter order st i st' hst').sameButColors

variable (jp : JPGraph)

theorem painted_countSees (rd : Round) (starter : ℕ) (order : ℕ → List Address) :
    Ensures (jp.countSees rd starter order) fun st =>
      JPGraph.Painted colorClusterRound jp st.1 := by
  refine .foldlM (fun st i hst st' hst' => ?_) _ .refl
  exact hst.trans (painted_judgeWitness rd starter order st i st' hst')

theorem sameButColors_countSees (rd : Round) (starter : ℕ) (order : ℕ → List Address) :
    Ensures (jp.countSees rd starter order) fun st => jp.SameButColors st.1 :=
  fun st hst => (painted_countSees jp rd starter order st hst).sameButColors

/-- What a step of `MonitorLoop` does. -/
inductive MonitorEffect (m : Monitor) (jp : JPGraph) (r : Monitor × JPGraph) : Prop
  /-- It reads the front of the queue. -/
  | front (i : ℕ) (pc : m.pc = .front) (head : jp.queue.head? = some i)
      (monitor : r.1.pc = .receive i) (graph : r.2 = jp)
  /-- It receives a vertex, and passes it on or chooses it. -/
  | receive (i v : ℕ) (rest : List ℕ) (pc : m.pc = .receive i)
      (created : jp.selfEventCreated = v :: rest) (monitor : r.1.pc = .front ∨ r.1.pc = .put v)
      (graph : JPGraph.SameButColors { jp with selfEventCreated := rest } r.2)
  /-- It sends the event of a local witness. -/
  | put (v : ℕ) (pc : m.pc = .put v) (monitor : r.1.pc = .mark v)
      (graph : r.2 = { jp with witnessL := jp.witnessL ++ [(jp.vert v).event] })
  /-- It marks a local witness. -/
  | mark (v : ℕ) (pc : m.pc = .mark v) (monitor : r.1.pc = .trigger v)
      (graph : r.2 = jp.markVertex v Mark.witnessLocal)
  /-- It sends a local witness to `RoundLoop`. -/
  | trigger (v : ℕ) (pc : m.pc = .trigger v) (monitor : r.1.pc = .front)
      (graph : r.2 = jp.triggerRound v)

/-- Every step of `MonitorLoop` has one of these effects. -/
theorem monitorStep_effect (m : Monitor) (jp : JPGraph) (order : ℕ → List Address) :
    Ensures (m.step jp order) (MonitorEffect m jp) := by
  unfold Monitor.step
  cases hpc : m.pc with
  | front =>
    dsimp only
    split
    · exact .error
    · next i hi => exact .ok (.front i hpc hi rfl rfl)
  | receive i =>
    dsimp only
    split
    · exact .error
    · next v rest hq =>
      unfold Monitor.judge
      split_ifs
      · exact .ok (.receive i v rest hpc hq (Or.inl rfl) (.refl _))
      · refine .bind (sameButColors_countSees _ _ _ _) fun st hst => ?_
        dsimp only
        split_ifs
        · exact .ok (.receive i v rest hpc hq (Or.inr rfl) hst)
        · exact .ok (.receive i v rest hpc hq (Or.inl rfl) hst)
  | put v => exact .ok (.put v hpc rfl rfl)
  | mark v => exact .ok (.mark v hpc rfl rfl)
  | trigger v => exact .ok (.trigger v hpc rfl rfl)

end Hashgrid.Core
