import Hashgrid.Node.Effects

/-!
# Local witnesses

Where the events in `witnessL` come from. `MonitorLoop` puts them there, but so does
every event message of type `WitnessLocal`, because the type of a message is not checked.
-/

namespace Hashgrid.Node

open Hashgrid.Bytes Hashgrid.Core Hashgrid.Machine Hashgrid.Rlp Hashgrid.Wire

/-- The events that `MonitorLoop` has put into `witnessL`, in this order. -/
def localPuts (log : List Output) : List (Event ℕ) :=
  log.filterMap fun
    | .putLocal e => some e
    | _ => none

/-- The events that the event loop has taken from `witnessL`, in this order. -/
def localTakes (log : List Output) : List (Event ℕ) :=
  log.filterMap fun
    | .tookLocal e => some e
    | _ => none

/-- The action is not an event message of type `WitnessLocal`. -/
def Action.NoForgedLocal : Action → Prop
  | .receive msg _ => ¬ (msg.code = eventMsg ∧ msg.type = 3)
  | _ => True

instance (a : Action) : Decidable a.NoForgedLocal := by
  cases a <;> unfold Action.NoForgedLocal <;> infer_instance

/-- What was put into `witnessL` was taken or is still there. -/
def Balanced (s : NodeState × List Output) : Prop :=
  localPuts s.2 = localTakes s.2 ++ s.1.graph.witnessL

variable (jp : JPGraph) {log : List Output} {s : NodeState} {keccak : List UInt8 → Hash}

/-- A step that puts and takes nothing. -/
theorem Balanced.quiet {s' : NodeState} {o : List Output} (h : Balanced (s, log))
    (hputs : localPuts o = []) (htakes : localTakes o = [])
    (hchan : s'.graph.witnessL = s.graph.witnessL) : Balanced (s', log ++ o) := by
  unfold Balanced localPuts localTakes at *
  rw [List.filterMap_append, List.filterMap_append, hputs, htakes, hchan, List.append_nil,
    List.append_nil]
  exact h

/-- Composing an event leaves the channels alone. -/
theorem channel_composeEvent {jp jp' : JPGraph} {now : ℤ} {rand : ℕ} {e : Event ℕ}
    (h : jp.composeEvent keccak now rand = .ok (jp', e)) (ch : Channel) :
    jp'.channel ch = jp.channel ch := by
  obtain ⟨-, jp₁, k, x, hneutral, -, -, rfl⟩ := jp.composeEvent_cases keccak now rand _ h
  rw [← hneutral.channel ch]
  cases ch <;> rfl

/-- `RoundLoop` leaves the channels alone. -/
theorem channel_roundLoop (v : ℕ) :
    Ensures (jp.roundLoop v) fun r => ∀ ch, r.1.channel ch = jp.channel ch := by
  intro r hr ch
  obtain ⟨cell, jp₁, -, hjp₁, hr⟩ := jp.roundLoop_cases v r hr
  have hopen : jp₁.channel ch = jp.channel ch := by
    rw [hjp₁]
    split_ifs
    · cases ch <;> rfl
    · rfl
  rcases hr with hr | ⟨i, k, -, hr⟩
  · rw [hr, hopen]
  · rw [hr, ← hopen]
    cases ch <;> rfl

/-- Only messages of type `WitnessLocal` are put into `witnessL`. -/
theorem chanEvent_eq_witnessL {tp : UInt32} (h : chanEvent tp = some .witnessL) : tp = 3 := by
  unfold chanEvent at h
  split_ifs at h with h₁ h₂ h₃
  · cases h
  · cases h
  · exact h₃

/-- A turn of the event loop takes what it reports. -/
theorem Balanced.handleStep (h : Balanced (s, log)) (b : Branch) :
    Ensures (s.handleStep keccak b) fun r => Balanced (r.1, log ++ r.2) := by
  refine .bind (eventHandle_cases keccak s.handler s.graph b) fun t ht => .ok ?_
  have hother (hb : b ≠ .witnessL) (hchan : t.graph.witnessL = s.graph.witnessL) (s' : NodeState)
      (hs' : s'.graph = t.graph) : Balanced (s',
        log ++ if b = .witnessL then (s.graph.witnessL.take 1).map .tookLocal else []) := by
    rw [if_neg hb]
    exact h.quiet rfl rfl (by rw [hs', hchan])
  cases ht with
  | take ch e hb hhead he hgraph =>
    cases ch with
    | witnessL =>
      obtain ⟨rest, hrest⟩ := List.head?_eq_some_iff.mp hhead
      change s.graph.witnessL = e :: rest at hrest
      unfold Balanced at *
      simp only [localPuts, localTakes, List.filterMap_append] at *
      simp [hb, branchOf, hrest, hgraph, dropEvent] at h ⊢
      exact h
    | eventNorm => exact hother (by rw [hb]; decide) (by rw [hgraph]; rfl) _ rfl
    | witnessR => exact hother (by rw [hb]; decide) (by rw [hgraph]; rfl) _ rfl
  | compose now rand e hb hcomp he =>
    exact hother (hb .witnessL) (channel_composeEvent hcomp .witnessL) _ rfl
  | idle hb he hneutral => exact hother (hb .witnessL) (hneutral.channel .witnessL) _ rfl

/-- A sender reports nothing about local witnesses. -/
theorem Sender.output_quiet (sender : Sender) :
    localPuts (sender.output jp) = [] ∧ localTakes (sender.output jp) = [] := by
  unfold Sender.output
  cases sender with
  | event e ty => dsimp only; split <;> exact ⟨rfl, rfl⟩
  | request rqa =>
    dsimp only
    split_ifs
    · exact ⟨rfl, rfl⟩
    · split <;> exact ⟨rfl, rfl⟩
  | pong => dsimp only; split <;> exact ⟨rfl, rfl⟩

/-- `MonitorLoop` puts what it reports. -/
theorem Balanced.monitorStep (h : Balanced (s, log)) (order : ℕ → List Address) :
    Ensures (s.monitorStep order) fun r => Balanced (r.1, log ++ r.2) := by
  unfold NodeState.monitorStep Monitor.step
  cases s.monitor.pc with
  | front =>
    dsimp only
    split
    · exact .error
    · exact .ok (h.quiet rfl rfl rfl)
  | receive i =>
    dsimp only
    split
    · exact .error
    · next v rest hq =>
      refine .bind (Q := fun r => r.2.witnessL = s.graph.witnessL) ?_ fun r hr => ?_
      · unfold Monitor.judge
        split_ifs
        · exact .ok rfl
        · refine .bind (sameButColors_countSees _ _ _ _) fun st hst => ?_
          have hchan : st.1.witnessL = s.graph.witnessL := hst.alike.neutral.channel .witnessL
          dsimp only
          split_ifs <;> exact .ok hchan
      · exact .ok (h.quiet rfl rfl hr)
  | put v =>
    refine .ok ?_
    unfold Balanced at *
    simp only [localPuts, localTakes, List.filterMap_append] at *
    simp [h]
  | mark v => exact .ok (h.quiet rfl rfl rfl)
  | trigger v => exact .ok (h.quiet rfl rfl rfl)

/-- Every step without a forged message keeps the balance. -/
theorem Balanced.step {s : NodeState × List Output} (h : Balanced s) {a : Action}
    (ha : a.NoForgedLocal) : Ensures (logged (NodeState.step keccak) s a) Balanced := by
  obtain ⟨s, log⟩ := s
  refine .map (NodeState.step_of_move (Q := fun r => Balanced (r.1, log ++ r.2)) ?_) fun r hr => hr
  unfold NodeState.move
  cases a with
  | handle b => exact h.handleStep b
  | receive msg pick =>
    refine .bind (handle_cases s.graph msg pick) fun hd hhd => .ok (h.quiet rfl rfl ?_)
    rcases hhd with hhd | ⟨hcode, ch, hch, hput⟩
    · exact congrArg JPGraph.witnessL hhd
    · have hne : Channel.witnessL ≠ ch := by
        rintro rfl
        exact ha ⟨hcode, chanEvent_eq_witnessL hch⟩
      exact (channel_putEvent hput hne).trans (channel_receive ..)
  | add i =>
    dsimp only [NodeState.addStep]
    split
    · exact .error
    · next call _ =>
      refine .bind (call.step_keeps keccak s.graph) fun r hr => ?_
      split <;> exact .ok (h.quiet rfl rfl (hr.channel .witnessL))
  | send i =>
    dsimp only [NodeState.sendStep]
    split
    · exact .error
    · next sender _ =>
      exact .ok (h.quiet (sender.output_quiet s.graph).1 (sender.output_quiet s.graph).2 rfl)
  | cast i =>
    dsimp only [NodeState.castStep]
    split
    · next e ty _ =>
      have hquiet := (Sender.event e ty).output_quiet s.graph
      exact .ok (h.quiet hquiet.1 hquiet.2 rfl)
    · exact .error
  | roundLoop =>
    dsimp only [NodeState.roundLoopStep]
    split
    · exact .ok (h.quiet rfl rfl rfl)
    · split
      · exact .error
      · refine .bind (channel_roundLoop _ _) fun r hr => .ok (h.quiet rfl rfl ?_)
        exact hr .witnessL
  | monitor order => exact h.monitorStep order
  | consensusShow =>
    dsimp only [NodeState.consensusStep]
    split
    · exact .error
    · exact .ok (h.quiet rfl rfl rfl)

/-- In every run without a forged message, the local witnesses that the event loop takes are
those that `MonitorLoop` has put, in the same order. -/
theorem localTakes_prefix_localPuts (keccak : List UInt8 → Hash) {coinbase : Address}
    {broadness : ℕ} {actions : List Action} {s : NodeState × List Output}
    (hrun : run (logged (NodeState.step keccak)) (newNode coinbase broadness, []) actions = .ok s)
    (hclean : Meets (logged (NodeState.step keccak)) (fun _ a => a.NoForgedLocal)
      (newNode coinbase broadness, []) actions) :
    localTakes s.2 <+: localPuts s.2 := by
  have hinit : Balanced (newNode coinbase broadness, []) := rfl
  have hbalanced := run_invariant (fun s a h ha => Balanced.step h ha) hinit hclean s hrun
  exact ⟨s.1.graph.witnessL, hbalanced.symm⟩

/-- What happens at a node `0x0a` that is alone. -/
def soloRun (actions : List Action) : Except Stop (NodeState × List Output) :=
  run (logged (NodeState.step soloKeccak)) (newNode (FixedBytes.ofNat 20 0x0A) 1, []) actions

/-- The outputs of a node that is alone. -/
def soloLog (actions : List Action) : List Output :=
  ((soloRun actions).toOption.getD (newNode (FixedBytes.ofNat 20 0x0A) 1, [])).2

/-- The node composes its first event and gets it back as a normal event. It composes a second
one, which `MonitorLoop` finds to be a local witness, and the event loop takes it. -/
def soloWitness : List Action :=
  .handle (.onlyTime 1 0) :: List.replicate 8 (.add 0) ++
    [.receive (arrivedMsg eventMsg 1 (firstEvent 0 0).wire) 0, .handle .eventNorm, .add 0, .add 0,
      .handle (.onlyTime 3 0)] ++ List.replicate 8 (.add 0) ++
    List.replicate 5 (.monitor fun _ => []) ++ [.handle .witnessL]

/-- The local witness that is taken was put by `MonitorLoop`. -/
theorem localTakes_soloWitness :
    localTakes (soloLog soloWitness) ≠ [] ∧
      localTakes (soloLog soloWitness) <+: localPuts (soloLog soloWitness) := by
  obtain ⟨htaken, hreached, hclean⟩ : localTakes (soloLog soloWitness) ≠ [] ∧
      (soloRun soloWitness).toOption.isSome = true ∧
      Meets (logged (NodeState.step soloKeccak)) (fun _ a => a.NoForgedLocal)
        (newNode (FixedBytes.ofNat 20 0x0A) 1, []) soloWitness := by decide +kernel
  have hrun : soloRun soloWitness = .ok ((soloRun soloWitness).toOption.getD
      (newNode (FixedBytes.ofNat 20 0x0A) 1, [])) := eq_ok_getD hreached _
  exact ⟨htaken, localTakes_prefix_localPuts soloKeccak hrun hclean⟩

/-- An event message of type `WitnessLocal` is taken as a local witness and broadcast again,
although `MonitorLoop` has put nothing into the channel. -/
theorem localTakes_forged :
    let actions := [.receive (arrivedMsg eventMsg 3 (firstEvent 0 0).wire) 0, .handle .witnessL]
    (soloRun actions).toOption.map (fun s => (localTakes s.2, localPuts s.2, s.1.senders)) =
        some ([tickEvent], [], [.event tickEvent Mark.witness]) ∧
      ¬ localTakes (soloLog actions) <+: localPuts (soloLog actions) := by
  decide +kernel

end Hashgrid.Node
