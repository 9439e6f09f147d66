import Hashgrid.Core.Retrieve
import Hashgrid.Core.StoreEffect

/-!
# Links that get lost

A vertex whose other parent is missing waits in the dictionary of its own round, but a
parent that arrives later looks in the dictionary of the parent's round. The link is lost
when the two are filed in different rounds. It is lost as well when the event names the
zero address, because no column is looked up then.
-/

namespace Hashgrid.Core

open Hashgrid.Bytes Hashgrid.Machine Hashgrid.Links

namespace JPGraph

/-- Every vertex is linked to its other parent when the column that it names holds the parent. -/
def NoLostLink (jp : JPGraph) : Prop :=
  ∀ v < jp.verts.next, ∀ c p, jp.graph.lookup (jp.vert v).event.otherPartA = some c →
    (jp.col c).hashChain.lookup (jp.vert v).event.otherPartH = some p →
      (jp.vert v).anotherPt = some p

/-- The column that a vertex names. -/
def named (jp : JPGraph) (v : ℕ) : Address := (jp.vert v).event.otherPartA

variable (jp : JPGraph)

/-- No link is lost just when none is in the abstract graph. -/
theorem noLostLink_iff : jp.NoLostLink ↔ Complete jp.named jp.links := by
  constructor
  · intro h v n p hn hp
    obtain ⟨hlt, rfl⟩ := nodes_links_eq hn
    obtain ⟨c, hc, hlook⟩ := Option.bind_eq_some_iff.mp hp
    exact h v hlt c p hc hlook
  · intro h v hlt c p hc hlook
    refine h v _ p (nodes_links_of_lt hlt) ?_
    simp only [links, named, nodeOf, hc, Option.bind_some, hlook]

/-- The vertices that wait for the event in the round in which it is going to be filed. -/
def waitingFor (jp : JPGraph) (e : Event ℤ) : List ℕ :=
  (e.roundID.bind jp.searchRound).elim [] fun i =>
    ((jp.round i).lostDict.lookup e.selfHash).getD []

/-- All vertices that name the event wait in the round in which it is going to be filed. If the
event names the zero address, its other parent is not in the column of that address. -/
structure FindsAll (jp : JPGraph) (e : Event ℤ) : Prop where
  /-- The vertices that name the event. -/
  waits : ∀ v < jp.verts.next, (jp.vert v).event.otherPartA = e.selfSig.addr →
    (jp.vert v).event.otherPartH = e.selfHash → v ∈ jp.waitingFor e
  /-- The other parent of the event. -/
  looks : e.otherPartA = FixedBytes.zero 20 → jp.held (FixedBytes.zero 20) e.otherPartH = none ∧
    ¬ (e.selfSig.addr = FixedBytes.zero 20 ∧ e.selfHash = e.otherPartH)

instance (jp : JPGraph) (e : Event ℤ) : Decidable (jp.FindsAll e) :=
  decidable_of_iff ((∀ v < jp.verts.next, (jp.vert v).event.otherPartA = e.selfSig.addr →
      (jp.vert v).event.otherPartH = e.selfHash → v ∈ jp.waitingFor e) ∧
    (e.otherPartA = FixedBytes.zero 20 → jp.held (FixedBytes.zero 20) e.otherPartH = none ∧
      ¬ (e.selfSig.addr = FixedBytes.zero 20 ∧ e.selfHash = e.otherPartH)))
    ⟨fun h => ⟨h.1, h.2⟩, fun h => ⟨h.waits, h.looks⟩⟩

/-- The condition on the graph is the one on the abstract graph. -/
theorem findsAll_iff (e : Event ℤ) : jp.FindsAll e ↔
    Links.FindsAll jp.named e.otherPartA jp.links (jp.arrivalOf e) := by
  have hcolumn : (jp.arrivalOf e).otherColumn = none ↔ e.otherPartA = FixedBytes.zero 20 := by
    simp only [arrivalOf, otherColumnName]
    split_ifs with hzero <;> simp [hzero]
  have hchain (hzero : e.otherPartA = FixedBytes.zero 20) :
      jp.links.chainWith (jp.arrivalOf e).node e.otherPartA (jp.arrivalOf e).node.otherRef = none ↔
        jp.held (FixedBytes.zero 20) e.otherPartH = none ∧
          ¬ (e.selfSig.addr = FixedBytes.zero 20 ∧ e.selfHash = e.otherPartH) := by
    have hheld : jp.links.chain (FixedBytes.zero 20) e.otherPartH =
        jp.held (FixedBytes.zero 20) e.otherPartH := rfl
    simp only [LinkGraph.chainWith, arrivalOf, nodeOf, hzero, hheld]
    split_ifs with hself
    · exact iff_of_false (by simp) fun h => h.2 ⟨hself.1.symm, hself.2.symm⟩
    · exact ⟨fun h => ⟨h, fun hself' => hself ⟨hself'.1.symm, hself'.2.symm⟩⟩, And.left⟩
  constructor
  · intro h
    refine ⟨fun v n hn hcreator hhash => ?_, fun hnone => ?_⟩
    · obtain ⟨hlt, rfl⟩ := nodes_links_eq hn
      exact h.waits v hlt hcreator hhash
    · have hzero := hcolumn.mp hnone
      exact (hchain hzero).mpr (h.looks hzero)
  · intro h
    refine ⟨fun v hlt hcreator hhash => ?_, fun hzero => ?_⟩
    · exact h.waits v _ (nodes_links_of_lt hlt) hcreator hhash
    · exact (hchain hzero).mp (h.looks (hcolumn.mpr hzero))

end JPGraph

/-- Every event that becomes a vertex finds all vertices that name it. -/
def Site.AddsFinding (keccak : List UInt8 → Hash) (s : Site) (m : Move) : Prop :=
  s.AddsOnly m fun e _ => s.graph.Creates keccak e → s.graph.FindsAll e

instance (keccak : List UInt8 → Hash) (s : Site) (m : Move) :
    Decidable (s.AddsFinding keccak m) :=
  inferInstanceAs (Decidable (s.AddsOnly m fun _ _ => _ → _))

/-- A move loses no link just when none was lost before and the event finds all. -/
theorem Site.noLostLink_step_iff {keccak : List UInt8 → Hash} {s : Site} (h : Linked s.graph)
    (m : Move) : Ensures (s.step keccak m) fun s' =>
      s'.graph.NoLostLink ↔ s.graph.NoLostLink ∧ s.AddsFinding keccak m := by
  intro s' hs'
  rw [JPGraph.noLostLink_iff, JPGraph.noLostLink_iff]
  cases hadded : s.added m with
  | none =>
    have hadds : s.AddsFinding keccak m := addsOnly_of_none hadded _
    have hless := step_other hadded s' hs'
    have hnamed : s'.graph.named = s.graph.named :=
      funext fun v => congrArg Event.otherPartA (hless.event v)
    rw [hless.links, hnamed]
    exact ⟨fun hcomplete => ⟨hcomplete, hadds⟩, And.left⟩
  | some x =>
    obtain ⟨e, ty⟩ := x
    have hadds : s.AddsFinding keccak m ↔ (s.graph.Creates keccak e → s.graph.FindsAll e) :=
      addsOnly_iff hadded _
    obtain ⟨-, -, hlinks⟩ := step_added_links h hadded s' hs'
    obtain ⟨jp₀, e₀, hrec, hlinked, heffect, -⟩ := step_effect h hadded s' hs'
    have hnext : jp₀.verts.next = s.graph.links.nodes.length := by
      rw [JPGraph.length_nodes_links, hrec.rest]
    have hold : ∀ v < s.graph.links.nodes.length, s'.graph.named v = s.graph.named v := by
      intro v hv
      have hevent := (heffect.kept hlinked.wf (hnext ▸ hv)).event
      have hvert : jp₀.vert v = s.graph.vert v :=
        hrec.read (g := fun jp => jp.vert v) fun _ _ => rfl
      rw [hvert] at hevent
      exact congrArg Event.otherPartA hevent
    rw [hadds, hlinks]
    split_ifs with hcreates
    · have hheld : jp₀.held e₀.selfSig.addr e₀.selfHash = none := by
        rw [hrec.event, hrec.rest]
        exact hcreates.2
      have hnew : s'.graph.named s.graph.links.nodes.length = e.otherPartA := by
        have hevent := heffect.event_new hlinked.wf ((hrec.validate keccak).trans hcreates.1) hheld
        rw [hnext, copyEvent_eq] at hevent
        rw [JPGraph.named, hevent, hrec.event]
      have hcol : (s.graph.arrivalOf e).otherColumn = none ∨
          (s.graph.arrivalOf e).otherColumn = some e.otherPartA := by
        simp only [JPGraph.arrivalOf, otherColumnName]
        split_ifs
        · exact Or.inl rfl
        · exact Or.inr rfl
      rw [complete_add_iff (x := s.graph.arrivalOf e) h.sound h.waiting hcreates.2 hold hnew hcol,
        JPGraph.findsAll_iff]
      simp only [hcreates, true_implies]
    · rw [complete_congr hold]
      simp only [hcreates, false_implies, and_true]

/-- After every run, no link is lost just when every event that became a vertex found all
vertices that name it waiting in its own round, and named no parent under the zero address. -/
theorem noLostLink_iff_addsFinding (keccak : List UInt8 → Hash) {coinbase : Address}
    {broadness : ℕ} {moves : List Move} {s : Site}
    (hrun : run (Site.step keccak) (newSite coinbase broadness) moves = .ok s) :
    s.graph.NoLostLink ↔
      Meets (Site.step keccak) (Site.AddsFinding keccak) (newSite coinbase broadness) moves := by
  have hinit := Site.linked_newSite coinbase broadness
  have hempty : (newSite coinbase broadness).graph.NoLostLink := fun v hv => nomatch hv
  have hstep (s : Site) (m : Move) (h : Site.Linked s.graph) : Ensures (s.step keccak m) fun s' =>
      Site.Linked s'.graph ∧ (s'.graph.NoLostLink ↔ s.graph.NoLostLink ∧ s.AddsFinding keccak m) :=
    fun s' hs' => ⟨h.step m s' hs', s.noLostLink_step_iff h m s' hs'⟩
  have hiff : s.graph.NoLostLink ↔ (newSite coinbase broadness).graph.NoLostLink ∧
      Meets (Site.step keccak) (Site.AddsFinding keccak) (newSite coinbase broadness) moves :=
    run_iff_meets (P := fun s : Site => s.graph.NoLostLink) hstep hinit moves s hrun
  rw [hiff]
  exact and_iff_right hempty

/-- `eventB` may come before its other parent `eventA1` when both are filed in round 0. -/
theorem noLostLink_triangle : (triangleSite [eventB, eventA1, eventA2]).graph.NoLostLink :=
  (noLostLink_iff_addsFinding triangleKeccak (run_siteAfter (by decide +kernel))).mpr
    (by decide +kernel)

/-- Keccak-256 on the hash inputs of the three events. -/
def roundsKeccak : List UInt8 → Hash :=
  tabulated ([laterEvent, eventB, eventA1].map fun e => (e.checkInput, e.selfHash))

/-- A witness opens round 1, the child `eventB` is filed there, and its other parent `eventA1`
comes with round number 0. -/
def twoRoundsMoves : List Move :=
  [.arrive (inRound laterEvent 1) Mark.normal, .arrive (inRound laterEvent 1) Mark.witness,
    .roundLoop, .arrive (inRound eventB 1) Mark.normal, .arrive eventA1 Mark.normal]

/-- Node `0x0c` afterwards. -/
def twoRoundsSite : Site := siteAfter roundsKeccak (FixedBytes.ofNat 20 0x0C) 3 twoRoundsMoves

/-- The child waits in round 1, and the parent looks in round 0: the link is lost. -/
theorem not_noLostLink_twoRounds :
    (∀ e ∈ [inRound laterEvent 1, inRound eventB 1, eventA1],
        validateEvent roundsKeccak e = true) ∧
      run (Site.step roundsKeccak) (newSite (FixedBytes.ofNat 20 0x0C) 3) twoRoundsMoves =
        .ok twoRoundsSite ∧
      (twoRoundsSite.graph.vert 1).event.selfHash = eventB.selfHash ∧
      twoRoundsSite.graph.held (FixedBytes.ofNat 20 0x0A) eventB.otherPartH = some 2 ∧
      (twoRoundsSite.graph.vert 1).anotherPt = none ∧ ¬ twoRoundsSite.graph.NoLostLink := by
  refine ⟨by decide +kernel, run_siteAfter (by decide +kernel), by decide +kernel,
    by decide +kernel, by decide +kernel, fun h => ?_⟩
  have hlink := h 1 (by decide +kernel) 1 2 (by decide +kernel) (by decide +kernel)
  exact absurd hlink (by decide +kernel)

end Hashgrid.Core
