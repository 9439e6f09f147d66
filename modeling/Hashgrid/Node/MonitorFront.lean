import Hashgrid.Node.Queues

/-!
# The round that `MonitorLoop` looks at

`MonitorLoop` reads the front of the round queue and then waits for a new vertex of this
node. `RoundLoop` may open a round in between. `MonitorLoop` then counts the witnesses of
the round that it has read and not those of the current one.
-/

namespace Hashgrid.Node

open Hashgrid.Bytes Hashgrid.Core Hashgrid.Machine Hashgrid.Wire

namespace NodeState

/-- The round whose witnesses `MonitorLoop` counts in its next step, if the vertex that it receives
strongly sees more than `superMajority` of them. -/
def chosenIn (s : NodeState) (order : ℕ → List Address) : Option ℕ :=
  match s.monitor.pc, s.graph.selfEventCreated with
  | .receive i, v :: rest =>
    if s.graph.broadness ≠ s.graph.graph.entries.length then none
    else
      match { s.graph with selfEventCreated := rest }.countSees (s.graph.round i) v order with
      | .error _ => none
      | .ok (jp, strongsee) => if strongsee > jp.superMajority then some i else none
  | _, _ => none

/-- A vertex that `MonitorLoop` chooses because of what it sees is chosen by the witnesses of the
current round. -/
def JudgesCurrent (s : NodeState) : Action → Prop
  | .monitor order => ∀ i ∈ s.chosenIn order, (s.graph.round i).index = s.graph.currentIdx
  | _ => True

instance (s : NodeState) (a : Action) : Decidable (s.JudgesCurrent a) :=
  match a with
  | .monitor order => inferInstanceAs (Decidable (∀ i ∈ s.chosenIn order, _))
  | .handle _ | .receive _ _ | .add _ | .send _ | .cast _ | .roundLoop | .consensusShow =>
    isTrue trivial

/-- The next turn of `RoundLoop` opens a round. -/
def OpensRound (s : NodeState) : Prop :=
  s.consensus = none ∧ ∃ v ∈ s.graph.roundTrigger.head?,
    ∃ cell ∈ (s.graph.vert v).event.roundID, s.graph.opensRound v cell

instance (s : NodeState) : Decidable s.OpensRound :=
  inferInstanceAs (Decidable (_ ∧ ∃ v ∈ s.graph.roundTrigger.head?,
    ∃ cell ∈ (s.graph.vert v).event.roundID, _))

/-- `MonitorLoop` has read the front of the queue and waits for a vertex. -/
def Waiting (s : NodeState) : Prop :=
  match s.monitor.pc with
  | .receive _ => True
  | _ => False

instance (s : NodeState) : Decidable s.Waiting := by
  unfold Waiting
  split <;> infer_instance

/-- `RoundLoop` opens no round while `MonitorLoop` waits. -/
def OpensInTime (s : NodeState) : Action → Prop
  | .roundLoop => s.Waiting → ¬ s.OpensRound
  | _ => True

instance (s : NodeState) (a : Action) : Decidable (s.OpensInTime a) :=
  match a with
  | .roundLoop => inferInstanceAs (Decidable (_ → _))
  | .handle _ | .receive _ _ | .add _ | .send _ | .cast _ | .monitor _ | .consensusShow =>
    isTrue trivial

variable {s : NodeState} {order : ℕ → List Address} {i : ℕ}

/-- How `MonitorLoop` comes to its choice. -/
theorem eq_some_of_chosenIn (h : s.chosenIn order = some i) :
    ∃ v rest jp strongsee, s.monitor.pc = .receive i ∧
      s.graph.selfEventCreated = v :: rest ∧
      s.graph.broadness = s.graph.graph.entries.length ∧
      { s.graph with selfEventCreated := rest }.countSees (s.graph.round i) v order =
        .ok (jp, strongsee) ∧ strongsee > jp.superMajority := by
  unfold chosenIn at h
  split at h
  · next j v rest hpc hcreated =>
    split_ifs at h with hbroad
    split at h
    · cases h
    · next jp strongsee hcount =>
      split_ifs at h with hsees
      cases h
      exact ⟨v, rest, jp, strongsee, hpc, hcreated, not_ne_iff.mp hbroad, hcount, hsees⟩
  · cases h

/-- The vertex that `MonitorLoop` chooses because of what it sees goes to `witnessL`. -/
theorem put_of_chosenIn (h : s.chosenIn order = some i) : Ensures (s.monitorStep order) fun r =>
      ∃ v, s.graph.selfEventCreated.head? = some v ∧ r.1.monitor.pc = .put v := by
  obtain ⟨v, rest, jp, strongsee, hpc, hcreated, hbroad, hcount, hsees⟩ := eq_some_of_chosenIn h
  have hjudge : s.monitor.step s.graph order =
      .ok (⟨.put v, s.monitor.roundNum + 1⟩, jp) := by
    have hround : ({ s.graph with selfEventCreated := rest } : JPGraph).round i =
      s.graph.round i := rfl
    simp only [Monitor.step, hpc, hcreated, Monitor.judge, if_neg (not_ne_iff.mpr hbroad), hround,
      hcount, bind, Except.bind, pure, Except.pure, if_pos (Or.inl hsees)]
  unfold monitorStep
  rw [hjudge]
  exact .ok ⟨v, congrArg List.head? hcreated, rfl⟩

/-- What is known of the queue: rounds are numbered from 0 on, and a round that `MonitorLoop` has
read is the newest one. -/
structure FrontRead (s : NodeState) : Prop where
  /-- The newest round. -/
  current : s.graph.currentIdx + 1 = s.graph.rounds.next
  /-- All rounds. -/
  index : ∀ i < s.graph.rounds.next, (s.graph.round i).index = i
  /-- The round that was read. -/
  read : ∀ i, s.monitor.pc = .receive i → i + 1 = s.graph.rounds.next

/-- A step that leaves the queue alone. -/
theorem FrontRead.keeps {s' : NodeState} (h : s.FrontRead) (hkeeps : s.graph.KeepsRounds s'.graph)
    (hread : ∀ i, s'.monitor.pc = .receive i → i + 1 = s.graph.rounds.next) : s'.FrontRead where
  current := by rw [hkeeps.current, hkeeps.rounds, h.current]
  index i hi := by
    rw [hkeeps.rounds] at hi
    rw [hkeeps.index, h.index i hi]
  read i hi := by rw [hkeeps.rounds, hread i hi]

/-- A step of `MonitorLoop`. -/
theorem FrontRead.monitorStep (h : s.FrontRead) (order : ℕ → List Address) :
    Ensures (s.monitorStep order) fun r => r.1.FrontRead := by
  refine .bind (monitorStep_effect s.monitor s.graph order) fun r hr => .ok ?_
  obtain ⟨m, jp⟩ := r
  refine h.keeps hr.keepsRounds fun i hi => ?_
  change m.pc = .receive i at hi
  cases hr with
  | front j hpc hhead hmonitor hgraph =>
    cases hi.symm.trans hmonitor
    have hlast : (List.range s.graph.rounds.next).getLast? = some i := by
      rwa [JPGraph.queue, List.head?_reverse] at hhead
    rw [List.getLast?_range] at hlast
    split_ifs at hlast with hzero
    have := Option.some.inj hlast
    omega
  | receive j v rest _ _ hmonitor =>
    rcases hmonitor with hm | hm <;> exact absurd (hi.symm.trans hm) (by simp)
  | put v _ hmonitor => exact absurd (hi.symm.trans hmonitor) (by simp)
  | mark v _ hmonitor => exact absurd (hi.symm.trans hmonitor) (by simp)
  | trigger v _ hmonitor => exact absurd (hi.symm.trans hmonitor) (by simp)

/-- A turn of `RoundLoop` leaves the queue alone or opens the next round. -/
theorem roundLoopStep_rounds (s : NodeState) : Ensures s.roundLoopStep fun r =>
    r.1.monitor = s.monitor ∧
      if s.OpensRound then
        r.1.graph.currentIdx = s.graph.currentIdx + 1 ∧
          r.1.graph.rounds.next = s.graph.rounds.next + 1 ∧
          ∀ i, (r.1.graph.round i).index =
            if i = s.graph.rounds.next then s.graph.currentIdx + 1 else (s.graph.round i).index
      else
        r.1.graph.currentIdx = s.graph.currentIdx ∧
          r.1.graph.rounds.next = s.graph.rounds.next ∧
          ∀ i, (r.1.graph.round i).index = (s.graph.round i).index := by
  unfold roundLoopStep
  split
  · next idx hidx =>
    refine .ok ⟨rfl, ?_⟩
    have hnot : ¬ s.OpensRound := fun hopens => by
      have := hopens.1
      simp [hidx] at this
    rw [if_neg hnot]
    exact ⟨rfl, rfl, fun _ => rfl⟩
  · next hidle =>
    split
    · exact .error
    · next v rest hq =>
      refine .bind (JPGraph.roundLoop_cases _ v) fun r hr => .ok ⟨rfl, ?_⟩
      obtain ⟨cell, jp₁, hcell, hjp₁, hr⟩ := hr
      have hopens : s.OpensRound ↔ s.graph.opensRound v cell = true := by
        unfold OpensRound
        rw [hq]
        have hpointer : (s.graph.vert v).event.roundID = some cell := hcell
        simp [hidle, hpointer]
      -- The entry in the witness table keeps the numbers.
      have hentry : jp₁.KeepsRounds r.1 := by
        rcases hr with hr | ⟨i, k, -, hr⟩
        · exact hr ▸ .refl jp₁
        · exact hr ▸ jp₁.keepsRounds_setWitness i k v
      by_cases hopen : s.graph.opensRound v cell = true
      · rw [if_pos (hopens.mpr hopen)]
        rw [if_pos (show ({ s.graph with roundTrigger := rest } : JPGraph).opensRound v cell = true
          from hopen)] at hjp₁
        refine ⟨?_, ?_, fun i => ?_⟩
        · rw [hentry.current, hjp₁]
          rfl
        · rw [hentry.rounds, hjp₁]
          exact Heap.next_alloc ..
        · rw [hentry.index, hjp₁]
          have halloc := Heap.get_alloc s.graph.rounds
            (newRound s.graph.broadness (s.graph.currentIdx + 1)) i
          refine (congrArg Round.index halloc).trans ?_
          split_ifs <;> rfl
      · rw [if_neg fun h => hopen (hopens.mp h)]
        rw [if_neg (show
          ¬ ({ s.graph with roundTrigger := rest } : JPGraph).opensRound v cell = true from hopen)]
          at hjp₁
        subst hjp₁
        exact ⟨hentry.current, hentry.rounds, hentry.index⟩

/-- A turn of `RoundLoop` that opens no round while `MonitorLoop` waits. -/
theorem FrontRead.roundLoopStep (h : s.FrontRead) (hintime : s.OpensInTime .roundLoop) :
    Ensures s.roundLoopStep fun r => r.1.FrontRead := by
  intro r hr
  obtain ⟨hmonitor, hrounds⟩ := s.roundLoopStep_rounds r hr
  by_cases hopens : s.OpensRound
  · rw [if_pos hopens] at hrounds
    obtain ⟨hcurrent, hnext, hindex⟩ := hrounds
    have hnowait : ¬ s.Waiting := fun hwaits => hintime hwaits hopens
    refine ⟨by rw [hcurrent, hnext, h.current], fun i hi => ?_, fun i hi => ?_⟩
    · rw [hindex]
      split_ifs with hnew
      · rw [hnew, h.current]
      · exact h.index i (by omega)
    · rw [hmonitor] at hi
      exact absurd (by unfold Waiting; rw [hi]; trivial) hnowait
  · rw [if_neg hopens] at hrounds
    obtain ⟨hcurrent, hnext, hindex⟩ := hrounds
    refine ⟨by rw [hcurrent, hnext, h.current], fun i hi => ?_, fun i hi => ?_⟩
    · rw [hindex, h.index i (hnext ▸ hi)]
    · rw [hmonitor] at hi
      rw [hnext, h.read i hi]

/-- Every step keeps what is known of the queue if `RoundLoop` opens rounds in time. -/
theorem FrontRead.move (h : s.FrontRead) (keccak : List UInt8 → Hash) {a : Action}
    (hintime : s.OpensInTime a) : Ensures (s.move keccak a) fun r => r.1.FrontRead := by
  by_cases hround : a = .roundLoop
  · subst hround
    exact h.roundLoopStep hintime
  · by_cases hmonitor : ∃ order, a = .monitor order
    · obtain ⟨order, rfl⟩ := hmonitor
      exact h.monitorStep order
    · intro r hr
      have hsame := s.move_monitor keccak (fun order ha => hmonitor ⟨order, ha⟩) r hr
      exact h.keeps (s.move_keepsRounds keccak hround r hr) fun i hi => h.read i (hsame ▸ hi)

/-- `MonitorLoop` counts the witnesses of the current round if it has read the newest one. -/
theorem FrontRead.judgesCurrent (h : s.FrontRead) (a : Action) : s.JudgesCurrent a := by
  cases a with
  | monitor order =>
    intro i hi
    obtain ⟨-, -, -, -, hpc, -⟩ := eq_some_of_chosenIn hi
    have hread := h.read i hpc
    have hcurrent := h.current
    rw [h.index i (by omega)]
    omega
  | _ => trivial

end NodeState

/-- In every run in which `RoundLoop` opens no round while `MonitorLoop` waits, `MonitorLoop` counts
the witnesses of the current round whenever it chooses a vertex because of what it sees. -/
theorem judgesCurrent_of_opensInTime (keccak : List UInt8 → Hash) {coinbase : Address}
    {broadness : ℕ} {actions : List Action}
    (hintime : Meets (logged (NodeState.step keccak)) (fun s a => s.1.OpensInTime a)
      (newNode coinbase broadness, []) actions) :
    Meets (logged (NodeState.step keccak)) (fun s a => s.1.JudgesCurrent a)
      (newNode coinbase broadness, []) actions := by
  have hinit : (newNode coinbase broadness).FrontRead := by
    refine ⟨rfl, fun i hi => ?_, fun i hi => nomatch hi⟩
    have hzero : i = 0 := Nat.lt_one_iff.mp hi
    subst hzero
    rfl
  have hstep (s : NodeState × List Output) (a : Action) (h : s.1.FrontRead)
      (ha : s.1.OpensInTime a) : s.1.JudgesCurrent a ∧
        Ensures (logged (NodeState.step keccak) s a) fun s' => s'.1.FrontRead :=
    ⟨h.judgesCurrent a, .map (NodeState.step_of_move (h.move keccak ha)) fun r hr => hr⟩
  exact hintime.of_invariant hstep hinit

/-- The third event of creator `0x0a`, on top of the second one. -/
def thirdEvent : Event ℤ :=
  plainEvent 5 0x0A secondEvent.selfHash (FixedBytes.zero 32) 0 0
    (FixedBytes.ofNat 32 0xa66661d40a439c2e36655977257c3dcd92adb2e5288796452582a55d2df9d5dd)

/-- Keccak-256 on the hash inputs of the three events. -/
def thirdKeccak : List UInt8 → Hash :=
  tabulated ([firstEvent 0 0, secondEvent, thirdEvent].map fun e => (e.checkInput, e.selfHash))

/-- A node `0x0a` that is alone finds a local witness. `RoundLoop` and `MonitorLoop` then go on in
the given order, and the node composes another event that `MonitorLoop` receives. -/
def soloNext (next : List Action) : List Action :=
  soloWitness.dropLast ++ next ++ .handle (.onlyTime 5 0) ::
    (List.replicate 8 (.add 0) ++ [.monitor fun _ => []])

/-- The node before the last of these actions. -/
def soloNode (next : List Action) : NodeState :=
  ((run (logged (NodeState.step thirdKeccak)) (newNode (FixedBytes.ofNat 20 0x0A) 1, [])
    (soloNext next).dropLast).toOption.getD (newNode (FixedBytes.ofNat 20 0x0A) 1, [])).1

/-- `RoundLoop` opens round 1 before `MonitorLoop` reads the queue, and the third event is judged
by the witnesses of round 1. -/
theorem judgesCurrent_soloNext :
    (soloNode [.roundLoop, .monitor fun _ => []]).chosenIn (fun _ => []) = some 1 ∧
      Meets (logged (NodeState.step thirdKeccak)) (fun s a => s.1.JudgesCurrent a)
        (newNode (FixedBytes.ofNat 20 0x0A) 1, [])
        (soloNext [.roundLoop, .monitor fun _ => []]) :=
  ⟨by decide +kernel, judgesCurrent_of_opensInTime thirdKeccak (by decide +kernel)⟩

/-- `MonitorLoop` reads the queue before `RoundLoop` opens round 1, and the third event is judged
by the witnesses of round 0. -/
theorem not_judgesCurrent_soloNext :
    let next : List Action := [.monitor fun _ => [], .roundLoop]
    (run (logged (NodeState.step thirdKeccak)) (newNode (FixedBytes.ofNat 20 0x0A) 1, [])
        (soloNext next)).toOption.isSome = true ∧
      (soloNode next).chosenIn (fun _ => []) = some 0 ∧
      ((soloNode next).graph.round 0).index = 0 ∧ (soloNode next).graph.currentIdx = 1 ∧
      ¬ Meets (logged (NodeState.step thirdKeccak)) (fun s a => s.1.JudgesCurrent a)
        (newNode (FixedBytes.ofNat 20 0x0A) 1, []) (soloNext next) := by
  intro next
  decide +kernel

end Hashgrid.Node
