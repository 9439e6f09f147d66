import Hashgrid.Core.Retrieve

/-!
# The type of an answer

`RetrieveEvent` finds the wanted event as the other parent of a vertex of this node. The event
that it returns is that of the parent, but the type is the mark of the vertex that refers to it.
-/

namespace Hashgrid.Core

open Hashgrid.Bytes Hashgrid.Machine Hashgrid.Links

namespace JPGraph

/-- What the requesting node relies on: the type is the mark that the event's own vertex has here,
and there is a channel for it there. -/
def AnswerRight (jp : JPGraph) (answer : Event ℕ × ℕ) : Prop :=
  ∃ p ∈ jp.held answer.1.selfSig.addr answer.1.selfHash,
    answer.2 = (jp.vert p).witness ∧ (answer.2 = Mark.normal ∨ answer.2 = Mark.witness)

instance (jp : JPGraph) (answer : Event ℕ × ℕ) : Decidable (jp.AnswerRight answer) :=
  inferInstanceAs (Decidable (∃ p ∈ jp.held _ _, _ ∧ (_ ∨ _)))

/-- The vertices of this node that refer to the hash have the marks of their other parents, which
are normal or witnesses. -/
def MarksAgree (jp : JPGraph) (hash : Hash) : Prop :=
  ∀ c ∈ jp.graph.lookup jp.coinbase, ∀ v ∈ jp.retrievable c hash, ∀ p ∈ (jp.vert v).anotherPt,
    (jp.vert v).witness = (jp.vert p).witness ∧
      ((jp.vert v).witness = Mark.normal ∨ (jp.vert v).witness = Mark.witness)

instance (jp : JPGraph) (hash : Hash) : Decidable (jp.MarksAgree hash) :=
  inferInstanceAs (Decidable (∀ c ∈ jp.graph.lookup jp.coinbase, ∀ v ∈ jp.retrievable c hash,
    ∀ p ∈ (jp.vert v).anotherPt, _ ∧ (_ ∨ _)))

/-- The answers of `RetrieveEvent` come from the vertices of this node that refer to the hash, each
of them for some order of the column. -/
theorem exists_retrieveEvent_iff (jp : JPGraph) (hash : Hash) (answer : Event ℕ × ℕ) :
    (∃ pick, jp.retrieveEvent hash pick = .ok answer) ↔
      ∃ c ∈ jp.graph.lookup jp.coinbase, ∃ v ∈ jp.retrievable c hash,
        ∃ p ∈ (jp.vert v).anotherPt, answer = ((jp.vert p).event, (jp.vert v).witness) := by
  constructor
  · rintro ⟨pick, h⟩
    unfold retrieveEvent at h
    split at h
    · cases h
    · next c hc =>
      dsimp only at h
      split at h
      · cases h
      · next v hv =>
        split at h
        · cases h
        · next p hp =>
          cases h
          exact ⟨c, hc, v, List.mem_of_getElem? hv, p, hp, rfl⟩
  · rintro ⟨c, hc, v, hv, p, hp, rfl⟩
    obtain ⟨pick, hlt, hpick⟩ := List.mem_iff_getElem.mp hv
    refine ⟨pick, ?_⟩
    have hat : (jp.retrievable c hash)[pick % (jp.retrievable c hash).length]? = some v := by
      rw [Nat.mod_eq_of_lt hlt, List.getElem?_eq_getElem hlt, hpick]
    unfold retrieveEvent
    rw [Option.mem_def.mp hc]
    dsimp only
    rw [hat]
    dsimp only
    rw [Option.mem_def.mp hp]

/-- An other link leads to the own vertex of its event. -/
theorem held_anotherPt {jp : JPGraph} (h : Site.Linked jp) {v p : ℕ}
    (hp : (jp.vert v).anotherPt = some p) :
    jp.held (jp.vert p).event.selfSig.addr (jp.vert p).event.selfHash = some p := by
  obtain ⟨n, m, -, hm, -⟩ := h.sound.anotherPt v p hp
  obtain ⟨-, rfl⟩ := nodes_links_eq hm
  exact h.columnar.held p _ hm

end JPGraph

/-- In every state, every answer to a request for the hash comes with the mark of the event's own
vertex and can be routed just when the vertices of this node that refer to the hash have the marks
of their other parents. -/
theorem retrieveEvent_mark_iff (keccak : List UInt8 → Hash) {coinbase : Address} {broadness : ℕ}
    {moves : List Move} {s : Site}
    (hrun : run (Site.step keccak) (newSite coinbase broadness) moves = .ok s) (hash : Hash) :
    (∀ pick answer, s.graph.retrieveEvent hash pick = .ok answer → s.graph.AnswerRight answer) ↔
      s.graph.MarksAgree hash := by
  have hlinked := Site.linked_of_run hrun
  constructor
  · intro h c hc v hv p hp
    obtain ⟨pick, hanswer⟩ := (s.graph.exists_retrieveEvent_iff hash _).mpr
      ⟨c, hc, v, hv, p, hp, rfl⟩
    obtain ⟨q, hq, hmark, hroute⟩ := h pick _ hanswer
    obtain rfl : p = q := Option.some.inj ((JPGraph.held_anotherPt hlinked hp).symm.trans hq)
    exact ⟨hmark, hroute⟩
  · intro h pick answer hanswer
    obtain ⟨c, hc, v, hv, p, hp, rfl⟩ := (s.graph.exists_retrieveEvent_iff hash _).mp
      ⟨pick, hanswer⟩
    obtain ⟨hmark, hroute⟩ := h c hc v hv p hp
    exact ⟨p, JPGraph.held_anotherPt hlinked hp, hmark, hroute⟩

/-- Node `0x0b` refers to `eventA1` with its first event; both are witnesses. -/
theorem retrieveEvent_mark_first :
    ((siteAfter triangleKeccak (FixedBytes.ofNat 20 0x0B) 3
        (arriving [eventA1, eventB])).graph.retrieveEvent eventA1.selfHash 0).toOption.isSome =
        true ∧
      ∀ pick answer, (siteAfter triangleKeccak (FixedBytes.ofNat 20 0x0B) 3
        (arriving [eventA1, eventB])).graph.retrieveEvent eventA1.selfHash pick = .ok answer →
          (siteAfter triangleKeccak (FixedBytes.ofNat 20 0x0B) 3
            (arriving [eventA1, eventB])).graph.AnswerRight answer := by
  refine ⟨by decide +kernel, ?_⟩
  exact (retrieveEvent_mark_iff triangleKeccak (run_siteAfter (by decide +kernel)) _).mpr
    (by decide +kernel)

/-- Node `0x0a` refers to `eventB` with its second event, which is normal. It answers a request for
the witness `eventB` with this type. -/
theorem not_retrieveEvent_mark_second :
    ¬ ∀ pick answer, (triangleSite [eventA1, eventB, eventA2]).graph.retrieveEvent eventB.selfHash
        pick = .ok answer → (triangleSite [eventA1, eventB, eventA2]).graph.AnswerRight answer := by
  intro h
  have hanswer := eq_ok_getD (by decide +kernel : ((triangleSite
    [eventA1, eventB, eventA2]).graph.retrieveEvent eventB.selfHash 0).toOption.isSome = true)
    (default, 0)
  exact absurd (h 0 _ hanswer) (by decide +kernel)

end Hashgrid.Core
