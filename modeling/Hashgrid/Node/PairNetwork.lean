import Hashgrid.Node.Network

/-!
# Two nodes are a network

Every run of two connected nodes is a run of the network with these two nodes, step by step and
without forged messages. In the network messages stay when they have arrived, so the network can
do more.
-/

namespace Hashgrid.Node

open Hashgrid.Bytes Hashgrid.Core Hashgrid.Machine Hashgrid.Wire

/-- The step of two nodes as a step of the network with these nodes. -/
def PairAction.IsStep : PairAction → NetAction → Prop
  | .left a, x => x = .node 0 a
  | .right a, x => x = .node 1 a
  | .deliverLeft _ pick, x => ∃ k, x = .deliver 0 k pick
  | .deliverRight _ pick, x => ∃ k, x = .deliver 1 k pick

/-- A message in a network that may arrive at a node with the address. -/
def Network.Carries (w : Network) (a : Address) (msg : Msg) : Prop :=
  ∃ q ∈ w.sent, q.msg = msg ∧ ∀ b ∈ q.target, b = a

/-- The network consists of the two nodes, and has every message that is on its way to one of
them. -/
structure Pair.Within (keccak : List UInt8 → Hash) (p : Pair) (w : Network) : Prop where
  /-- The nodes. -/
  nodes : w.nodes = [p.left, p.right]
  /-- The messages to the first node. -/
  toLeft : ∀ msg ∈ p.toLeft, w.Carries p.left.graph.coinbase msg
  /-- The messages to the second node. -/
  toRight : ∀ msg ∈ p.toRight, w.Carries p.right.graph.coinbase msg
  /-- The first node is in order. -/
  soundLeft : p.left.Sound keccak
  /-- The second node is in order. -/
  soundRight : p.right.Sound keccak

variable {keccak : List UInt8 → Hash} {msg : Msg} {a : Address}

/-- What one node sends to another one of a pair is among the messages of the network. -/
theorem Network.carries_of_messagesTo {w : Network} {outputs : List Output}
    (h : msg ∈ messagesTo a outputs) {nodes : List NodeState} :
    Network.Carries ⟨nodes, w.sent ++ packets outputs⟩ a msg := by
  obtain ⟨o, ho, hmsg⟩ := List.mem_filterMap.mp h
  cases o with
  | sent target m =>
    have hmem : (⟨target, m⟩ : Packet) ∈ w.sent ++ packets outputs :=
      List.mem_append_right _ (List.mem_filterMap.mpr ⟨_, ho, rfl⟩)
    cases target with
    | none =>
      cases hmsg
      exact ⟨_, hmem, rfl, nofun⟩
    | some b =>
      dsimp only at hmsg
      split_ifs at hmsg with hb
      cases hmsg
      refine ⟨_, hmem, rfl, fun c hc => ?_⟩
      rw [← Option.some.inj hc, hb]
  | putLocal e => cases hmsg
  | tookLocal e => cases hmsg
  | added e ty => cases hmsg

theorem Network.Carries.append {w : Network} (h : w.Carries a msg) (nodes : List NodeState)
    (more : List Packet) : Network.Carries ⟨nodes, w.sent ++ more⟩ a msg := by
  obtain ⟨q, hq, hrest⟩ := h
  exact ⟨q, List.mem_append_left _ hq, hrest⟩

/-- A node of the network takes a step. -/
theorem Network.act_eq {w : Network} {i : ℕ} {s s' : NodeState} {outputs : List Output}
    {a : Action} (hs : w.nodes[i]? = some s) (hstep : s.step keccak a = .ok (s', outputs)) :
    ∃ log, w.act keccak i a = .ok (⟨w.nodes.set i s', w.sent ++ packets outputs⟩, log) := by
  refine ⟨(s.composed keccak a).toList.map fun e => (i, e.body), ?_⟩
  rw [Network.act, hs]
  dsimp only
  rw [hstep]
  rfl

/-- A message arrives at a node of the network. -/
theorem Network.deliver_eq {w : Network} {i pick : ℕ} {s s' : NodeState} {outputs : List Output}
    (hs : w.nodes[i]? = some s) (hmsg : w.Carries s.graph.coinbase msg)
    (hstep : s.step keccak (.receive msg pick) = .ok (s', outputs)) : ∃ k log,
      w.step keccak (.deliver i k pick) =
        .ok (⟨w.nodes.set i s', w.sent ++ packets outputs⟩, log) := by
  obtain ⟨q, hq, rfl, htarget⟩ := hmsg
  obtain ⟨k, hk⟩ := List.getElem?_of_mem hq
  obtain ⟨log, hact⟩ := Network.act_eq hs hstep
  have haddressed : w.addressed i q = true := by
    rw [Network.addressed, hs, Option.all_eq_true]
    intro b hb
    simpa using (htarget b hb).symm
  refine ⟨k, log, ?_⟩
  rw [Network.step, hk]
  dsimp only
  rw [if_pos haddressed, hact]

theorem NodeState.Sound.step {s : NodeState} (h : s.Sound keccak) (a : Action) :
    Ensures (s.step keccak a) fun r =>
      r.1.Sound keccak ∧ r.1.graph.coinbase = s.graph.coinbase :=
  NodeState.step_of_move fun r hr => ⟨(h.move a r hr).1, (h.move a r hr).2.toExtends.coinbase⟩

section Step

variable {p : Pair} {w : Network} {s : NodeState} {outputs : List Output}
  {toLeft toRight : List Msg}

/-- The first node has taken a step. -/
theorem Pair.Within.left (h : p.Within keccak w) (hsound : s.Sound keccak)
    (hbase : s.graph.coinbase = p.left.graph.coinbase) (hleft : ∀ msg ∈ toLeft, msg ∈ p.toLeft)
    (hright : ∀ msg ∈ toRight,
      msg ∈ p.toRight ∨ msg ∈ messagesTo p.right.graph.coinbase outputs) :
    Pair.Within keccak ⟨s, p.right, toLeft, toRight⟩
      ⟨w.nodes.set 0 s, w.sent ++ packets outputs⟩ := by
  refine ⟨by rw [h.nodes]; rfl, fun msg hmsg => ?_, fun msg hmsg => ?_, hsound, h.soundRight⟩
  · rw [hbase]
    exact (h.toLeft msg (hleft msg hmsg)).append _ _
  · rcases hright msg hmsg with hold | hnew
    · exact (h.toRight msg hold).append _ _
    · exact Network.carries_of_messagesTo hnew

/-- The second node has taken a step. -/
theorem Pair.Within.right (h : p.Within keccak w) (hsound : s.Sound keccak)
    (hbase : s.graph.coinbase = p.right.graph.coinbase) (hright : ∀ msg ∈ toRight, msg ∈ p.toRight)
    (hleft : ∀ msg ∈ toLeft, msg ∈ p.toLeft ∨ msg ∈ messagesTo p.left.graph.coinbase outputs) :
    Pair.Within keccak ⟨p.left, s, toLeft, toRight⟩
      ⟨w.nodes.set 1 s, w.sent ++ packets outputs⟩ := by
  refine ⟨by rw [h.nodes]; rfl, fun msg hmsg => ?_, fun msg hmsg => ?_, h.soundLeft, hsound⟩
  · rcases hleft msg hmsg with hold | hnew
    · exact (h.toLeft msg hold).append _ _
    · exact Network.carries_of_messagesTo hnew
  · rw [hbase]
    exact (h.toRight msg (hright msg hmsg)).append _ _

/-- Every step of two nodes is a step of the network with these nodes. -/
theorem Pair.Within.step (h : p.Within keccak w) (a : PairAction) :
    Ensures (p.step keccak a) fun r => ∃ x w' log, a.IsStep x ∧
      w.step keccak x = .ok (w', log) ∧ r.1.Within keccak w' := by
  have hleft : w.nodes[0]? = some p.left := by rw [h.nodes]; rfl
  have hright : w.nodes[1]? = some p.right := by rw [h.nodes]; rfl
  unfold Pair.step
  cases a with
  | left act =>
    dsimp only
    split_ifs with hreceive
    · exact .error
    · refine .bind (.self _) fun r hr => .ok ?_
      obtain ⟨hsound, hbase⟩ := h.soundLeft.step act r hr
      obtain ⟨log, hact⟩ := Network.act_eq hleft hr
      have hstep : w.step keccak (.node 0 act) = .ok (_, log) := (if_neg hreceive).trans hact
      exact ⟨_, _, log, rfl, hstep, h.left hsound hbase (fun _ hm => hm) fun _ hm =>
        List.mem_append.mp hm⟩
  | right act =>
    dsimp only
    split_ifs with hreceive
    · exact .error
    · refine .bind (.self _) fun r hr => .ok ?_
      obtain ⟨hsound, hbase⟩ := h.soundRight.step act r hr
      obtain ⟨log, hact⟩ := Network.act_eq hright hr
      have hstep : w.step keccak (.node 1 act) = .ok (_, log) := (if_neg hreceive).trans hact
      exact ⟨_, _, log, rfl, hstep, h.right hsound hbase (fun _ hm => hm) fun _ hm =>
        List.mem_append.mp hm⟩
  | deliverLeft i pick =>
    dsimp only
    split
    · exact .error
    · next msg hmsg =>
      refine .bind (.self _) fun r hr => .ok ?_
      obtain ⟨hsound, hbase⟩ := h.soundLeft.step _ r hr
      obtain ⟨k, log, hstep⟩ :=
        Network.deliver_eq hleft (h.toLeft msg (List.mem_of_getElem? hmsg)) hr
      exact ⟨_, _, log, ⟨k, rfl⟩, hstep, h.left hsound hbase
        (fun _ hm => List.mem_of_mem_eraseIdx hm) fun _ hm => Or.inl hm⟩
  | deliverRight i pick =>
    dsimp only
    split
    · exact .error
    · next msg hmsg =>
      refine .bind (.self _) fun r hr => .ok ?_
      obtain ⟨hsound, hbase⟩ := h.soundRight.step _ r hr
      obtain ⟨k, log, hstep⟩ :=
        Network.deliver_eq hright (h.toRight msg (List.mem_of_getElem? hmsg)) hr
      exact ⟨_, _, log, ⟨k, rfl⟩, hstep, h.right hsound hbase
        (fun _ hm => List.mem_of_mem_eraseIdx hm) fun _ hm => Or.inl hm⟩

end Step

/-- Every run of two nodes is a run of a network that the nodes are within. -/
theorem Pair.Within.run {p p' : Pair × List (Side × Output)} {w : Network × List (ℕ × Event ℤ)}
    {actions : List PairAction} (h : p.1.Within keccak w.1)
    (hrun : Machine.run (logged (Pair.step keccak)) p actions = .ok p') :
    ∃ steps w', List.Forall₂ PairAction.IsStep actions steps ∧
      Machine.run (logged (Network.step keccak)) w steps = .ok w' ∧ p'.1.Within keccak w'.1 := by
  induction actions generalizing p w with
  | nil =>
    cases hrun
    exact ⟨[], w, .nil, rfl, h⟩
  | cons a actions ih =>
    obtain ⟨p₁, hfirst, hrest⟩ := exists_of_run_cons hrun
    obtain ⟨r, hr, rfl⟩ := exists_of_map_eq_ok hfirst
    obtain ⟨x, w₁, log, his, hstep, hwithin⟩ := h.step a r hr
    obtain ⟨steps, w', hall, hsteps, hend⟩ :=
      ih (p := (r.1, p.2 ++ r.2)) (w := (w₁, w.2 ++ log)) hwithin hrest
    refine ⟨x :: steps, w', .cons his hall, ?_, hend⟩
    rw [Machine.run, logged, hstep]
    exact hsteps

end Hashgrid.Node
