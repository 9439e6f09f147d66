import Hashgrid.Core.SeeMemory
import Hashgrid.Node.Network

/-!
# No links between columns

The nodes of a network compose events that name no other parent: no round prefers a vertex, and
the only newcomers that are accepted have the zero address. So no vertex gets a link to another
column, `JudgeSee` stays in the column where it starts, and as soon as two columns are needed
nothing is strongly seen. What is left for `MonitorLoop` is its rule about the column with number
zero.
-/

namespace Hashgrid.Core.JPGraph

open Hashgrid.Bytes Hashgrid.Machine

/-- Links stay in the columns. -/
def Unlinked (jp : JPGraph) : Prop :=
  ∀ v, ∀ w ∈ jp.parents v, (jp.vert w).seqNum = (jp.vert v).seqNum

variable {keccak : List UInt8 → Hash} {jp jp' : JPGraph}

/-- Colours do not matter. -/
theorem Unlinked.colors (h : jp.Unlinked) (hcolors : SameButColors jp jp') : jp'.Unlinked := by
  intro v w hw
  rw [hcolors.parents] at hw
  rw [hcolors.seqNum, hcolors.seqNum]
  exact h v w hw

/-- References are right and no vertex has another parent. -/
theorem Referring.unlinked (h : Referring keccak jp) (hother : ∀ v, (jp.vert v).anotherPt = none) :
    jp.Unlinked := by
  intro v w hw
  rw [parents, hother v, Option.toList_none, List.append_nil, Option.mem_toList] at hw
  exact (h.self v w hw).2

/-- `dfsVisit` marks the column where it starts and no other. -/
theorem Unlinked.dfsVisit (h : jp.Unlinked) (cluster e fuel : ℕ) (marks : List ℕ) (s : ℕ) :
    Ensures (dfsVisit cluster e fuel jp marks s) fun st =>
      st.2 = marks.set (jp.vert s).seqNum 1 := by
  induction fuel generalizing jp marks s with
  | zero => exact .error
  | succ fuel ih =>
    rw [dfsVisit_succ]
    split_ifs
    · exact .error
    · exact .ok rfl
    · -- Whatever a link leads to has the number that is marked already.
      let Stays (st : JPGraph × List ℕ) : Prop :=
        SameButColors jp st.1 ∧ st.2 = marks.set (jp.vert s).seqNum 1
      have hturn (st : JPGraph × List ℕ) (u : ℕ) (hu : u ∈ jp.parents s) (hst : Stays st) :
          Ensures (dfsNext cluster e fuel st u) Stays := by
        unfold dfsNext
        split_ifs
        · intro st' hst'
          have hcolors := sameButColors_dfsVisit cluster e fuel st.1 st.2 u st' hst'
          have hmarks := ih (h.colors hst.1) st.2 u st' hst'
          rw [hst.1.seqNum, h s u hu, hst.2, List.set_set] at hmarks
          exact ⟨hst.1.trans hcolors, hmarks⟩
        · exact .ok hst
      exact .bind (.foldlM_mem hturn ⟨sameButColors_paint .., rfl⟩) fun st hst => .ok hst.2

/-- A table with one mark. -/
theorem sum_set_replicate_le (n k : ℕ) : ((List.replicate n 0).set k 1).sum ≤ 1 := by
  induction n generalizing k with
  | zero => exact zero_le_one
  | succ n ih =>
    cases k with
    | zero => simp [List.replicate_succ]
    | succ k =>
      rw [List.replicate_succ, List.set_cons_succ, List.sum_cons, Nat.zero_add]
      exact ih k

/-- Nothing is strongly seen when two columns are needed. -/
theorem Unlinked.judgeSee (h : jp.Unlinked) (hmajority : 2 ≤ jp.superMajority) (s e cluster : ℕ) :
    Ensures (jp.judgeSee s e cluster) fun r => r.2.2 = false := by
  refine .bind (.self _) fun st hst => ?_
  have hmarks := h.dfsVisit cluster e _ _ s st hst
  have hcolors := sameButColors_dfsVisit cluster e _ _ _ s st hst
  dsimp only
  split
  · exact .error
  · refine .ok ?_
    have hsum := sum_set_replicate_le jp.broadness (jp.vert s).seqNum
    change st.1.strongSeen st.2.sum = false
    rw [hcolors.strongSeen, hmarks, strongSeen, decide_eq_false_iff_not]
    omega

/-- The loop of `MonitorLoop` over the witnesses counts none of them. -/
theorem Unlinked.countSees (h : jp.Unlinked) (hmajority : 2 ≤ jp.superMajority) (rd : Round)
    (starter : ℕ) (order : ℕ → List Address) :
    Ensures (jp.countSees rd starter order) fun st => SameButColors jp st.1 ∧ st.2 = 0 := by
  refine .foldlM (fun st i hst => ?_) _ ⟨.refl jp, rfl⟩
  intro st' hst'
  refine ⟨sameButColors_judgeWitness rd starter order hst.1 i st' hst', ?_⟩
  revert st'
  change Ensures _ fun st' : JPGraph × ℕ => st'.2 = 0
  unfold judgeWitness
  split
  · exact .error
  · exact .ok hst.2
  · refine .bind (sameButColors_clearColorDFS _ _ _ _) fun jp₁ hclear => ?_
    have hcolors := hst.1.trans hclear
    have hmajority₁ : 2 ≤ jp₁.superMajority := by
      rw [hcolors.rest]
      exact hmajority
    refine .bind ((h.colors hcolors).judgeSee hmajority₁ _ _ _) fun r hr => .ok ?_
    change (if r.2.2 = true then st.2 + 1 else st.2) = 0
    rw [hr, if_neg Bool.false_ne_true, hst.2]

/-- Without links `MonitorLoop` chooses by the rule about the column with number zero alone. -/
theorem Unlinked.monitorStep (h : jp.Unlinked) (hmajority : 2 ≤ jp.superMajority) (m : Monitor)
    (order : ℕ → List Address) : Ensures (m.step jp order) fun r =>
      ∀ v, r.1.pc = .put v → (jp.vert v).seqNum = 0 ∧ m.roundNum + 1 = roundMax := by
  unfold Monitor.step
  cases m.pc with
  | front =>
    dsimp only
    split
    · exact .error
    · exact .ok fun v hv => by cases hv
  | receive i =>
    dsimp only
    split
    · exact .error
    · next u rest hcreated =>
      unfold Monitor.judge
      split_ifs
      · exact .ok fun v hv => by cases hv
      · have hrest : Unlinked { jp with selfEventCreated := rest } := h
        refine .bind (hrest.countSees hmajority _ _ _) fun st hst => ?_
        dsimp only
        split_ifs with hchosen
        · refine .ok fun v hv => ?_
          obtain rfl := MonitorPc.put.inj hv
          rw [hst.2, hst.1.seqNum] at hchosen
          exact hchosen.resolve_left (Nat.not_lt_zero _)
        · exact .ok fun v hv => by cases hv
  | put u => exact .ok fun v hv => by cases hv
  | mark u => exact .ok fun v hv => by cases hv
  | trigger u => exact .ok fun v hv => by cases hv

end Hashgrid.Core.JPGraph

namespace Hashgrid.Node

open Hashgrid.Bytes Hashgrid.Core Hashgrid.Machine

variable {keccak : List UInt8 → Hash}

section Genuine

variable {addresses : List Address} {n : ℕ} {w : Network × List (ℕ × Event ℤ)} {s : NodeState}

/-- No event in a genuine network names another parent. -/
theorem Network.Genuine.otherPartH (h : Genuine keccak addresses n w)
    (hzero : FixedBytes.zero 20 ∉ addresses) (hs : s ∈ w.1.nodes) {v : ℕ}
    (hv : v < s.graph.verts.next) : (s.graph.vert v).event.otherPartH = FixedBytes.zero 32 := by
  obtain ⟨j, hj⟩ := ((h.held s hs).vert v hv).body
  exact (h.recorded _ hj).otherH.resolve_right hzero

/-- No vertex in a genuine network has another parent. -/
theorem Network.Genuine.anotherPt (h : Genuine keccak addresses n w)
    (hzero : FixedBytes.zero 20 ∉ addresses)
    (hkeccak : ∀ input, keccak input ≠ FixedBytes.zero 32) (hs : s ∈ w.1.nodes) (v : ℕ) :
    (s.graph.vert v).anotherPt = none := by
  cases hlink : (s.graph.vert v).anotherPt with
  | none => rfl
  | some p =>
    have hreferring := (h.sound s hs).graph
    obtain ⟨hp, hhash⟩ := hreferring.other v p hlink
    have hv : v < s.graph.verts.next := by
      by_contra hv
      rw [JPGraph.vert, Heap.get_of_le (not_lt.mp hv)] at hlink
      cases hlink
    have hvalid := (validateEvent_iff keccak).mp (hreferring.valid p hp)
    rw [hhash, h.otherPartH hzero hs hv] at hvalid
    exact absurd hvalid (hkeccak _)

end Genuine

/-- A digest that is never zero. -/
def foldKeccak (input : List UInt8) : Hash :=
  let digest : Hash :=
    FixedBytes.ofNat 32 (input.foldl (fun n b => (n * 257 + b.toNat + 1) % 2 ^ 256) 0)
  if digest = FixedBytes.zero 32 then FixedBytes.ofNat 32 1 else digest

/-- No digest is zero. -/
theorem foldKeccak_ne (input : List UInt8) : foldKeccak input ≠ FixedBytes.zero 32 := by
  unfold foldKeccak
  dsimp only
  split_ifs with hzero
  · decide
  · exact hzero

/-- Nodes `0x0a`, `0x0b` and `0x0c`. -/
def threeMembers : List (Address × ℕ) :=
  [(FixedBytes.ofNat 20 0x0A, 3), (FixedBytes.ofNat 20 0x0B, 3), (FixedBytes.ofNat 20 0x0C, 3)]

/-- What happens in a network of the three nodes. -/
def threeMemberRun (actions : List NetAction) : Except Stop (Network × List (ℕ × Event ℤ)) :=
  run (logged (Network.step foldKeccak)) (newNetwork threeMembers, []) actions

/-- The network of the three nodes after the given actions. -/
def threeMembersAfter (actions : List NetAction) : Network × List (ℕ × Event ℤ) :=
  (threeMemberRun actions).toOption.getD (newNetwork threeMembers, [])

/-- Node `0x0a` composes an event and adds it. -/
def ownEvent (now : ℤ) : List NetAction :=
  nodeTimes 0 1 (.handle (.onlyTime now 0)) ++ nodeTimes 0 8 (.add 0)

/-- Another node composes an event, which is the given message and is added by node `0x0a`. -/
def peersEvent (i k : ℕ) : List NetAction :=
  nodeTimes i 1 (.handle (.onlyTime 2 0)) ++ nodeTimes i 1 (.send 0) ++ [.deliver 0 k 0] ++
    nodeTimes 0 1 (.handle .eventNorm) ++ nodeTimes 0 11 (.add 0)

/-- An event of each node gets to node `0x0a`, which composes nine events more. `MonitorLoop`
looks at each of them. -/
def gossipThree : List NetAction :=
  ownEvent 1 ++ peersEvent 1 0 ++ peersEvent 2 1 ++
    (List.range 9).flatMap fun k => ownEvent (k + 3) ++ nodeTimes 0 2 (.monitor fun _ => [])

/-- Node `0x0a` composes a tenth event, and `MonitorLoop` is about to receive it. -/
def gossipTenth : List NetAction :=
  gossipThree ++ ownEvent 12 ++ nodeTimes 0 1 (.monitor fun _ => [])

/-- In every run of a network without forged messages in which no node has the zero address and
no digest is zero, no stored event names another parent, and no vertex ever gets a link to one. -/
theorem never_linked {keccak : List UInt8 → Hash}
    (hkeccak : ∀ input, keccak input ≠ FixedBytes.zero 32) {members : List (Address × ℕ)}
    (hzero : FixedBytes.zero 20 ∉ members.map Prod.fst) {actions : List NetAction}
    {w : Network × List (ℕ × Event ℤ)}
    (hrun : run (logged (Network.step keccak)) (newNetwork members, []) actions = .ok w)
    (hhonest : ∀ a ∈ actions, a.Honest) (hlength : actions.length < 2 ^ 63) {s : NodeState}
    (hs : s ∈ w.1.nodes) {v : ℕ} (hv : v < s.graph.verts.next) :
    (s.graph.vert v).event.otherPartH = FixedBytes.zero 32 ∧
      (s.graph.vert v).anotherPt = none := by
  have hgenuine := Network.Genuine.of_run hrun hhonest hlength
  exact ⟨hgenuine.otherPartH hzero hs hv, hgenuine.anotherPt hzero hkeccak hs v⟩

/-- The last of the twelve vertices of node `0x0a`. -/
theorem never_linked_three : ∃ s ∈ (threeMembersAfter gossipThree).1.nodes,
    s.graph.verts.next = 12 ∧ (s.graph.vert 11).event.otherPartH = FixedBytes.zero 32 ∧
      (s.graph.vert 11).anotherPt = none := by
  obtain ⟨hreached, hhonest, hlength, s, hs, hnext⟩ :
      (threeMemberRun gossipThree).toOption.isSome = true ∧ (∀ a ∈ gossipThree, a.Honest) ∧
      gossipThree.length < 2 ^ 63 ∧
      ∃ s ∈ (threeMembersAfter gossipThree).1.nodes, s.graph.verts.next = 12 := by
    decide +kernel
  have hrun : threeMemberRun gossipThree = .ok (threeMembersAfter gossipThree) :=
    eq_ok_getD hreached _
  refine ⟨s, hs, hnext, ?_⟩
  exact never_linked foldKeccak_ne (by decide) hrun hhonest hlength hs (by omega)

/-- In such a network, as soon as a strong see takes two columns, `MonitorLoop` chooses a local
witness only as the tenth event that it looks at in the column with number zero. -/
theorem chosen_tenth {keccak : List UInt8 → Hash}
    (hkeccak : ∀ input, keccak input ≠ FixedBytes.zero 32) {members : List (Address × ℕ)}
    (hzero : FixedBytes.zero 20 ∉ members.map Prod.fst) {actions : List NetAction}
    {w : Network × List (ℕ × Event ℤ)}
    (hrun : run (logged (Network.step keccak)) (newNetwork members, []) actions = .ok w)
    (hhonest : ∀ a ∈ actions, a.Honest) (hlength : actions.length < 2 ^ 63) {s : NodeState}
    (hs : s ∈ w.1.nodes) (hmajority : 2 ≤ s.graph.superMajority) {order : ℕ → List Address}
    {r : Monitor × JPGraph} (hstep : s.monitor.step s.graph order = .ok r) {v : ℕ}
    (hput : r.1.pc = .put v) :
    (s.graph.vert v).seqNum = 0 ∧ s.monitor.roundNum + 1 = roundMax := by
  have hgenuine := Network.Genuine.of_run hrun hhonest hlength
  have hunlinked : s.graph.Unlinked := (hgenuine.sound s hs).graph.unlinked
    (hgenuine.anotherPt hzero hkeccak hs)
  exact hunlinked.monitorStep hmajority s.monitor order r hstep v hput

/-- `MonitorLoop` of node `0x0a` chooses its tenth event. -/
theorem chosen_tenth_three : ∃ s ∈ (threeMembersAfter gossipTenth).1.nodes,
    ∃ r, s.monitor.step s.graph (fun _ => []) = .ok r ∧ r.1.pc = .put 12 ∧
      (s.graph.vert 12).seqNum = 0 ∧ s.monitor.roundNum + 1 = roundMax := by
  obtain ⟨hreached, hhonest, hlength, s, hs, hmajority, hstep, hput⟩ :
      (threeMemberRun gossipTenth).toOption.isSome = true ∧ (∀ a ∈ gossipTenth, a.Honest) ∧
      gossipTenth.length < 2 ^ 63 ∧
      ∃ s ∈ (threeMembersAfter gossipTenth).1.nodes, 2 ≤ s.graph.superMajority ∧
        (s.monitor.step s.graph fun _ => []).toOption.isSome = true ∧
        ((s.monitor.step s.graph fun _ => []).toOption.getD (s.monitor, s.graph)).1.pc =
          .put 12 := by decide +kernel
  have hrun : threeMemberRun gossipTenth = .ok (threeMembersAfter gossipTenth) :=
    eq_ok_getD hreached _
  refine ⟨s, hs, _, eq_ok_getD hstep _, hput, ?_⟩
  exact chosen_tenth foldKeccak_ne (by decide) hrun hhonest hlength hs hmajority
    (eq_ok_getD hstep _) hput

end Hashgrid.Node
