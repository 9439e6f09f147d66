import Hashgrid.Core.Composed
import Hashgrid.Node.Provenance

/-!
# Two nodes agree on what is behind a hash

Events that have one hash at two nodes have the same hashed fields, and so have the events
that are reached from them along other links. The nodes may have been sent anything.
-/

namespace Hashgrid.Rlp

/-- The first field of a decoded struct is zero or what its own decoder returns. -/
theorem decode_struct_first (name : String) (type : Ty) (rest : Fields) (s : Stream) :
    (decode (.struct (.cons name type rest)) s).1.1 = type.zero ∨
      ∃ s', (decode (.struct (.cons name type rest)) s).1.1 = (decode type s').1 := by
  have hfields (t : Ty) (s : Stream) :
      (decodeFields (.cons name type rest) t s).1.1 = (decode type s).1 := by
    unfold decodeFields
    split
    · next hdec => rw [hdec]
    · next hdec => rw [hdec]
    · next hdec => rw [hdec]
  rw [decode]
  split
  · exact Or.inl rfl
  · next s' _ =>
    right
    refine ⟨s', ?_⟩
    rw [← hfields (.struct (.cons name type rest)) s']
    split
    · next hdec => rw [hdec]
    · next hdec => rw [hdec]

/-- A decoded big integer is not negative. -/
theorem decode_bigInt_nonneg (s : Stream) : 0 ≤ (decodeBigInt s).1.getD 0 := by
  unfold decodeBigInt
  split
  · exact le_rfl
  · split_ifs
    · exact le_rfl
    · exact Int.natCast_nonneg _

end Hashgrid.Rlp

namespace Hashgrid.Node

open Hashgrid.Bytes Hashgrid.Core Hashgrid.Machine Hashgrid.Rlp Hashgrid.Wire

/-- The time that the event loop reads in a step. -/
def Action.clock : Action → Option ℤ
  | .handle (.onlyTime now _) | .handle (.overFlow now _) => some now
  | _ => none

/-- A time stamp from the wire is not negative. -/
theorem stamp_decodeMsg (msg : Msg) : 0 ≤ (decodeMsg msg).stamp := by
  have hstamp (v : eventTy.Val) : (Event.ofVal v).timeStamp = v.1 := rfl
  unfold Event.stamp decodeMsg
  rw [hstamp]
  rcases decode_struct_first "TimeStamp" .bigInt _ (newStream msg.payload.data msg.size.toNat) with
    hzero | ⟨s', hdec⟩
  · exact (congrArg (fun t : Option ℤ => t.getD 0) hzero).ge
  · refine (congrArg (fun t : Option ℤ => t.getD 0) hdec).ge.trans' ?_
    exact decode_bigInt_nonneg s'

namespace NodeState

variable {keccak : List UInt8 → Hash} {s : NodeState}

/-- What is known about a composed event. -/
theorem Sound.composed (h : s.Sound keccak) {a : Action} {e : Event ℕ}
    (he : s.composed keccak a = some e) :
    ∃ now ∈ a.clock, s.graph.Composed keccak now e := by
  have hcompose {now : ℤ} {rand : ℕ}
      (he : (s.graph.composeEvent keccak now rand).toOption.map Prod.snd = some e) :
      s.graph.Composed keccak now e := by
    obtain ⟨r, hr, rfl⟩ := Option.map_eq_some_iff.mp he
    exact h.graph.composed now rand r (eq_ok_of_toOption hr)
  cases a with
  | handle b =>
    unfold NodeState.composed composedIn at he
    obtain ⟨clock, hclock, he⟩ := Option.bind_eq_some_iff.mp he
    cases b with
    | onlyTime now rand =>
      obtain rfl := Option.some.inj hclock
      exact ⟨now, rfl, hcompose he⟩
    | overFlow now rand =>
      unfold Branch.composes at hclock
      split_ifs at hclock
      obtain rfl := Option.some.inj hclock
      exact ⟨now, rfl, hcompose he⟩
    | eventNorm => cases hclock
    | witnessL => cases hclock
    | witnessR => cases hclock
    | request => cases hclock
  | receive msg pick => cases he
  | add i => cases he
  | send i => cases he
  | cast i => cases he
  | roundLoop => cases he
  | monitor order => cases he
  | consensusShow => cases he

theorem stamp_receive (jp : JPGraph) (e : Event ℤ) : (jp.receive e).2.stamp = e.stamp := by
  unfold JPGraph.receive
  split <;> rfl

/-- If the clock is never negative, no time stamp is. -/
theorem stamps_of_run {coinbase : Address} {broadness : ℕ} {actions : List Action}
    {s : NodeState × List Output}
    (hrun : run (logged (NodeState.step keccak)) (newNode coinbase broadness, []) actions = .ok s)
    (hclock : ∀ a ∈ actions, ∀ now ∈ a.clock, 0 ≤ now) :
    s.1.Held fun e => 0 ≤ e.stamp := by
  let inv (s : NodeState × List Output) : Prop :=
    s.1.Sound keccak ∧ s.1.Pointed ∧ s.1.Held fun e => 0 ≤ e.stamp
  have hstep (s : NodeState × List Output) (a : Action) (h : inv s)
      (ha : ∀ now ∈ a.clock, 0 ≤ now) : Ensures (logged (NodeState.step keccak) s a) inv := by
    obtain ⟨hsound, hpointed, hheld⟩ := h
    refine .map (step_of_move (Q := fun r => inv (r.1, [])) fun r hr => ?_) fun r hr => hr
    refine ⟨(hsound.move a r hr).1, hpointed.move a r hr,
      hheld.move hsound hpointed (fun e he => ?_) (fun e he => ?_) (fun e he => ?_) r hr⟩
    · rw [copyEvent_eq]
      exact he
    · obtain ⟨now, hnow, hcomposed⟩ := hsound.composed he
      unfold Event.stamp
      rw [hcomposed.stamp]
      exact ha now hnow
    · obtain ⟨msg, pick, -, -, rfl⟩ := exists_of_received he
      rw [stamp_receive]
      exact stamp_decodeMsg msg
  have hinit : inv (newNode coinbase broadness, []) :=
    ⟨sound_newNode keccak coinbase broadness, Pointed.newNode coinbase broadness,
      held_newNode _ coinbase broadness⟩
  exact (run_invariant hstep hinit (meets_of_mem hclock) s hrun).2.2

end NodeState

/-- Vertices of two graphs with one hash have the same hashed fields. -/
theorem sameHashed_of_selfHash {keccak : List UInt8 → Hash} {jp jp' : JPGraph}
    (h : jp.Referring keccak) (h' : jp'.Referring keccak) {v w : ℕ} (hv : v < jp.verts.next)
    (hw : w < jp'.verts.next) (hstamp : 0 ≤ (jp.vert v).event.stamp)
    (hcollision : keccak (jp.vert v).event.checkInput = keccak (jp'.vert w).event.checkInput →
      (jp.vert v).event.checkInput = (jp'.vert w).event.checkInput)
    (hhash : (jp.vert v).event.selfHash = (jp'.vert w).event.selfHash) :
    SameHashed (jp.vert v).event (jp'.vert w).event := by
  have hvalid := (validateEvent_iff keccak).mp (h.valid v hv)
  have hvalid' := (validateEvent_iff keccak).mp (h'.valid w hw)
  have hinput := hcollision (hvalid.trans (hhash.trans hvalid'.symm))
  exact (checkInput_eq_iff.mp hinput).resolve_left fun hneg => by omega

/-- Other links of vertices with one hash lead to vertices with one hash. -/
theorem selfHash_otherAncestor {keccak : List UInt8 → Hash} {jp jp' : JPGraph}
    (h : jp.Referring keccak) (h' : jp'.Referring keccak)
    (hstamp : ∀ v < jp.verts.next, 0 ≤ (jp.vert v).event.stamp)
    (hcollision : ∀ v < jp.verts.next, ∀ w < jp'.verts.next,
      keccak (jp.vert v).event.checkInput = keccak (jp'.vert w).event.checkInput →
        (jp.vert v).event.checkInput = (jp'.vert w).event.checkInput) (n : ℕ) {v w p q : ℕ}
    (hv : v < jp.verts.next) (hw : w < jp'.verts.next)
    (hhash : (jp.vert v).event.selfHash = (jp'.vert w).event.selfHash)
    (hp : jp.otherAncestor n v = some p) (hq : jp'.otherAncestor n w = some q) :
    p < jp.verts.next ∧ q < jp'.verts.next ∧
      (jp.vert p).event.selfHash = (jp'.vert q).event.selfHash := by
  induction n generalizing v w with
  | zero =>
    obtain rfl := Option.some.inj hp
    obtain rfl := Option.some.inj hq
    exact ⟨hv, hw, hhash⟩
  | succ n ih =>
    obtain ⟨v', hv', hp⟩ := Option.bind_eq_some_iff.mp hp
    obtain ⟨w', hw', hq⟩ := Option.bind_eq_some_iff.mp hq
    obtain ⟨hvlt, hvhash⟩ := h.other v v' hv'
    obtain ⟨hwlt, hwhash⟩ := h'.other w w' hw'
    have hsame := sameHashed_of_selfHash h h' hv hw (hstamp v hv) (hcollision v hv w hw) hhash
    exact ih hvlt hwlt (hvhash.trans (hsame.otherPartH.trans hwhash.symm)) hp hq

/-- `eventA1` and then `eventB` arrive. -/
def arriveStraight : List Action := addsArrived eventA1 11 ++ addsArrived eventB 7

/-- Node `0x0b` after both events arrived. -/
def straightNode : NodeState × List Output :=
  (triangleSteps (newNode (FixedBytes.ofNat 20 0x0B) 3, []) arriveStraight).toOption.getD
    (newNode (FixedBytes.ofNat 20 0x0B) 3, [])

/-- Two nodes that have stored an event under the same hash, whatever they were sent, agree on
the hashed fields of the event and of all its ancestors along other links, as far as both nodes
have linked them and no two stored events collide. -/
theorem ancestors_agree (keccak : List UInt8 → Hash) {a b : Address} {m n : ℕ}
    {actions actions' : List Action} {s s' : NodeState × List Output}
    (hrun : run (logged (NodeState.step keccak)) (newNode a m, []) actions = .ok s)
    (hrun' : run (logged (NodeState.step keccak)) (newNode b n, []) actions' = .ok s')
    (hclock : ∀ act ∈ actions, ∀ now ∈ act.clock, 0 ≤ now)
    (hcollision : ∀ v < s.1.graph.verts.next, ∀ w < s'.1.graph.verts.next,
      keccak (s.1.graph.vert v).event.checkInput = keccak (s'.1.graph.vert w).event.checkInput →
        (s.1.graph.vert v).event.checkInput = (s'.1.graph.vert w).event.checkInput)
    {v w : ℕ} (hv : v < s.1.graph.verts.next) (hw : w < s'.1.graph.verts.next)
    (hhash : (s.1.graph.vert v).event.selfHash = (s'.1.graph.vert w).event.selfHash)
    {k p q : ℕ} (hp : s.1.graph.otherAncestor k v = some p)
    (hq : s'.1.graph.otherAncestor k w = some q) :
    (s.1.graph.vert p).event.selfHash = (s'.1.graph.vert q).event.selfHash ∧
      SameHashed (s.1.graph.vert p).event (s'.1.graph.vert q).event := by
  have h := (NodeState.Sound.of_run keccak hrun).graph
  have h' := (NodeState.Sound.of_run keccak hrun').graph
  have hstamp := (NodeState.stamps_of_run hrun hclock).vert
  obtain ⟨hp, hq, hsame⟩ :=
    selfHash_otherAncestor h h' hstamp hcollision k hv hw hhash hp hq
  exact ⟨hsame, sameHashed_of_selfHash h h' hp hq (hstamp p hp) (hcollision p hp q hq) hsame⟩

/-- Two nodes to which `eventA1` and `eventB` came in different orders agree on the other parent of
`eventB`. -/
theorem ancestors_agree_swapped :
    (swappedNode.1.graph.otherAncestor 1 0, straightNode.1.graph.otherAncestor 1 1) =
        (some 1, some 0) ∧
      (swappedNode.1.graph.vert 1).event.selfHash = (straightNode.1.graph.vert 0).event.selfHash ∧
      SameHashed (swappedNode.1.graph.vert 1).event (straightNode.1.graph.vert 0).event := by
  obtain ⟨hreached, hcollision, hv, hw, hhash, hp, hq⟩ :
      (triangleSteps (newNode (FixedBytes.ofNat 20 0x0B) 3, []) arriveStraight).toOption.isSome =
        true ∧
      (∀ v < swappedNode.1.graph.verts.next, ∀ w < straightNode.1.graph.verts.next,
        triangleKeccak (swappedNode.1.graph.vert v).event.checkInput =
            triangleKeccak (straightNode.1.graph.vert w).event.checkInput →
          (swappedNode.1.graph.vert v).event.checkInput =
            (straightNode.1.graph.vert w).event.checkInput) ∧
      0 < swappedNode.1.graph.verts.next ∧ 1 < straightNode.1.graph.verts.next ∧
      (swappedNode.1.graph.vert 0).event.selfHash = (straightNode.1.graph.vert 1).event.selfHash ∧
      swappedNode.1.graph.otherAncestor 1 0 = some 1 ∧
      straightNode.1.graph.otherAncestor 1 1 = some 0 := by decide +kernel
  have hclock : ∀ act ∈ arriveSwapped, ∀ now ∈ act.clock, 0 ≤ now := by decide +kernel
  have hrun : triangleSteps (newNode (FixedBytes.ofNat 20 0x0B) 3, []) arriveStraight =
      .ok straightNode := eq_ok_getD hreached _
  exact ⟨by rw [hp, hq], ancestors_agree triangleKeccak triangleSteps_arriveSwapped hrun hclock
    hcollision hv hw hhash hp hq⟩

end Hashgrid.Node
