import Hashgrid.Core.Retrieve

/-!
# Events that are delivered again

`AddEvent` looks up or creates the columns of an event before it asks whether the event is
stored. The hash does not cover the address of the other parent, so a copy may name another
address than the stored event.
-/

namespace Hashgrid.Core

open Hashgrid.Bytes Hashgrid.Machine Hashgrid.Links

namespace JPGraph

/-- The event names no address of another parent, or one that has a column. -/
def NamesColumn {ρ : Type} (jp : JPGraph) (e : Event ρ) : Prop :=
  e.otherPartA = FixedBytes.zero 20 ∨ (jp.graph.lookup e.otherPartA).isSome = true

instance {ρ : Type} (jp : JPGraph) (e : Event ρ) : Decidable (jp.NamesColumn e) :=
  inferInstanceAs (Decidable (_ ∨ _))

/-- `AddNode` changes nothing just when the address has a column. -/
theorem addNode_eq_self_iff (jp : JPGraph) (a : Address) :
    (jp.addNode a).1 = jp ↔ (jp.graph.lookup a).isSome = true := by
  constructor
  · intro h
    rw [← h, lookup_addNode]
    rfl
  · intro h
    obtain ⟨c, hc⟩ := Option.isSome_iff_exists.mp h
    rw [addNode_known hc]

/-- The columns of an event are all there, given that of its creator, just when it names a
column. -/
theorem withColumns_eq_self_iff {jp : JPGraph} {e : Event ℕ} {c : ℕ}
    (hself : jp.graph.lookup e.selfSig.addr = some c) :
    jp.withColumns e = jp ↔ jp.NamesColumn e := by
  unfold withColumns NamesColumn
  rw [addNode_known hself]
  split_ifs with hzero
  · exact iff_of_true rfl (Or.inl hzero)
  · rw [addNode_eq_self_iff]
    exact ⟨Or.inr, fun h => h.resolve_left hzero⟩

end JPGraph

/-- In every state, a valid event that is stored in the column of its creator is delivered again
without any effect just when the copy names no address of another parent or one that has a
column. -/
theorem addEvent_again_iff (keccak : List UInt8 → Hash) {coinbase : Address} {broadness : ℕ}
    {moves : List Move} {s : Site}
    (hrun : run (Site.step keccak) (newSite coinbase broadness) moves = .ok s) {e : Event ℕ}
    (hvalid : validateEvent keccak e = true)
    (hstored : (s.graph.held e.selfSig.addr e.selfHash).isSome = true) :
    (∃ err, s.graph.addEvent keccak e Mark.normal = .ok (s.graph, err)) ↔
      s.graph.NamesColumn e := by
  obtain ⟨v, hv⟩ := Option.isSome_iff_exists.mp hstored
  obtain ⟨c, hc, -⟩ := Option.bind_eq_some_iff.mp hv
  have hknown := JPGraph.addEvent_known (Site.linked_of_run hrun).wf hvalid hv Mark.normal
  rw [← JPGraph.withColumns_eq_self_iff hc, hknown, if_neg (by decide)]
  constructor
  · rintro ⟨err, h⟩
    exact (Prod.mk.inj (Except.ok.inj h)).1
  · intro h
    exact ⟨none, by rw [h]⟩

/-- A copy of `eventB` that names another address. The hash does not cover it. -/
def renamed (a : Address) : Event ℕ := { eventB with otherPartA := a, roundID := none }

/-- A copy of `eventB` that names the same address has no effect. -/
theorem addEvent_again_same :
    ∃ err, (triangleSite [eventA1, eventB]).graph.addEvent triangleKeccak
      (renamed eventB.otherPartA) Mark.normal = .ok ((triangleSite [eventA1, eventB]).graph, err) :=
  (addEvent_again_iff triangleKeccak
    (run_siteAfter (by decide +kernel : (run (Site.step triangleKeccak)
      (newSite (FixedBytes.ofNat 20 0x0A) 3) (arriving [eventA1, eventB])).toOption.isSome = true))
    (by decide +kernel) (by decide +kernel)).mpr (by decide +kernel)

/-- A copy of `eventB` that names an address without a column is valid, and `AddEvent` creates the
column although the event is stored. -/
theorem not_addEvent_again_renamed :
    validateEvent triangleKeccak (renamed (FixedBytes.ofNat 20 0xFF)) = true ∧
      ((triangleSite [eventA1, eventB]).graph.held
        (renamed (FixedBytes.ofNat 20 0xFF)).selfSig.addr
        (renamed (FixedBytes.ofNat 20 0xFF)).selfHash).isSome = true ∧
      ¬ ∃ err, (triangleSite [eventA1, eventB]).graph.addEvent triangleKeccak
        (renamed (FixedBytes.ofNat 20 0xFF)) Mark.normal =
          .ok ((triangleSite [eventA1, eventB]).graph, err) := by
  refine ⟨by decide +kernel, by decide +kernel, ?_⟩
  rintro ⟨err, h⟩
  have hsize : ((triangleSite [eventA1, eventB]).graph.addEvent triangleKeccak
      (renamed (FixedBytes.ofNat 20 0xFF)) Mark.normal).toOption.map (fun r => r.1.superMajority) =
        some 2 := by decide +kernel
  rw [h] at hsize
  have hsame : (triangleSite [eventA1, eventB]).graph.superMajority = 1 := by decide +kernel
  simp [Except.toOption, hsame] at hsize

end Hashgrid.Core
