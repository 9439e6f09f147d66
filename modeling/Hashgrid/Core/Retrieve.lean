import Hashgrid.Core.SiteLinks

/-!
# Answers to requests

An other link is set on two ways, by a lookup in a column and by a patch through the
dictionary of a round. Both lead to a stored vertex with the hash that the event names,
so `RetrieveEvent` answers a request with the event that was asked for.
-/

namespace Hashgrid.Core

open Hashgrid.Bytes Hashgrid.Machine Hashgrid.Links

namespace JPGraph

variable {jp : JPGraph} {v : ℕ}

theorem nodes_links_of_lt (hv : v < jp.verts.next) :
    jp.links.nodes[v]? = some (nodeOf (jp.vert v).event) := by
  simp [links, hv]

theorem nodes_links_eq {n : Node Hash Address} (hn : jp.links.nodes[v]? = some n) :
    v < jp.verts.next ∧ nodeOf (jp.vert v).event = n := by
  have hv : v < jp.verts.next := length_nodes_links jp ▸ LinkGraph.lt_of_nodes hn
  rw [nodes_links_of_lt hv] at hn
  exact ⟨hv, Option.some.inj hn⟩

/-- The vertex stands in some column. -/
def Stored (jp : JPGraph) (v : ℕ) : Prop :=
  ∃ a c h, jp.graph.lookup a = some c ∧ (jp.col c).hashChain.lookup h = some v

/-- Other links lead to stored vertices with the wanted hash, and dictionaries list vertices
under the hash that they want. -/
structure OtherLinksRight (jp : JPGraph) : Prop where
  /-- Other links. -/
  anotherPt : ∀ v p, (jp.vert v).anotherPt = some p →
    jp.Stored p ∧ (jp.vert p).event.selfHash = (jp.vert v).event.otherPartH
  /-- Dictionaries. -/
  lostDict : ∀ i h vs, (jp.round i).lostDict.lookup h = some vs →
    ∀ v ∈ vs, (jp.vert v).event.otherPartH = h

theorem stored_of_columnar (h : Columnar jp.links) (hv : v < jp.verts.next) : jp.Stored v := by
  have hheld := h.held v _ (nodes_links_of_lt hv)
  obtain ⟨c, hc, hlook⟩ := Option.bind_eq_some_iff.mp hheld
  exact ⟨_, c, _, hc, hlook⟩

/-- Links are right when they are sound in the abstract graph. -/
theorem otherLinksRight_of_linked (h : Site.Linked jp) : jp.OtherLinksRight where
  anotherPt v p hp := by
    obtain ⟨n, m, hn, hm, heq⟩ := h.sound.anotherPt v p hp
    obtain ⟨-, rfl⟩ := nodes_links_eq hn
    obtain ⟨hlt, rfl⟩ := nodes_links_eq hm
    exact ⟨stored_of_columnar h.columnar hlt, heq⟩
  lostDict i k vs hvs v hv := by
    have hlost : v ∈ jp.links.lost i k := by simpa [links, hvs] using hv
    obtain ⟨n, hn, heq⟩ := h.sound.lost i k v hlost
    obtain ⟨-, rfl⟩ := nodes_links_eq hn
    exact heq

/-- `RetrieveEvent` answers with the other parent of a vertex that names the hash. -/
theorem retrieveEvent_eq_ok {hash : Hash} {pick : ℕ} {answer : Event ℕ × ℕ}
    (h : jp.retrieveEvent hash pick = .ok answer) : ∃ v p, (jp.vert v).anotherPt = some p ∧
      (jp.vert v).event.otherPartH = hash ∧ answer.1 = (jp.vert p).event := by
  unfold retrieveEvent at h
  split at h
  · cases h
  · next c _ =>
    dsimp only at h
    split at h
    · cases h
    · next v hv =>
      have hmem := List.mem_of_getElem? hv
      simp only [retrievable, List.mem_filter, decide_eq_true_eq] at hmem
      split at h
      · cases h
      · next p hp =>
        cases h
        exact ⟨v, p, hp, hmem.2.1, rfl⟩

end JPGraph

/-- In every state, other links and dictionaries are right, and `RetrieveEvent` answers a request
for a hash with the event that has this hash. -/
theorem retrieveEvent_right (keccak : List UInt8 → Hash) {coinbase : Address} {broadness : ℕ}
    {moves : List Move} {s : Site}
    (hrun : run (Site.step keccak) (newSite coinbase broadness) moves = .ok s) :
    s.graph.OtherLinksRight ∧ ∀ hash pick answer,
      s.graph.retrieveEvent hash pick = .ok answer → answer.1.selfHash = hash := by
  have hright := JPGraph.otherLinksRight_of_linked (Site.linked_of_run hrun)
  refine ⟨hright, fun hash pick answer hanswer => ?_⟩
  obtain ⟨v, p, hp, rfl, heq⟩ := JPGraph.retrieveEvent_eq_ok hanswer
  rw [heq]
  exact (hright.anotherPt v p hp).2

/-- What is reached at a new node by the given moves. -/
def siteAfter (keccak : List UInt8 → Hash) (coinbase : Address) (broadness : ℕ)
    (moves : List Move) : Site :=
  (run (Site.step keccak) (newSite coinbase broadness) moves).toOption.getD
    (newSite coinbase broadness)

/-- A run that does not stop reaches its end. -/
theorem run_siteAfter {keccak : List UInt8 → Hash} {coinbase : Address} {broadness : ℕ}
    {moves : List Move}
    (h : (run (Site.step keccak) (newSite coinbase broadness) moves).toOption.isSome = true) :
    run (Site.step keccak) (newSite coinbase broadness) moves =
      .ok (siteAfter keccak coinbase broadness moves) :=
  eq_ok_getD h _

/-- The event with another round number, which its hash does not cover. -/
def inRound (e : Event ℤ) (r : ℤ) : Event ℤ := { e with roundID := some r }

/-- Normal events that arrive in the given order. -/
def arriving (events : List (Event ℤ)) : List Move := events.map fun e => .arrive e Mark.normal

/-- Node `0x0a` after the given events arrived. -/
def triangleSite (events : List (Event ℤ)) : Site :=
  siteAfter triangleKeccak (FixedBytes.ofNat 20 0x0A) 3 (arriving events)

/-- Node `0x0a` answers a request for `eventB`, also when `eventB` came after its child. -/
theorem retrieveEvent_right_triangle :
    ((triangleSite [eventA1, eventA2, eventB]).graph.retrieveEvent
        eventB.selfHash 0).toOption.isSome = true ∧
      ∀ hash pick answer, (triangleSite [eventA1, eventA2, eventB]).graph.retrieveEvent hash pick =
        .ok answer → answer.1.selfHash = hash := by
  refine ⟨by decide +kernel, ?_⟩
  exact (retrieveEvent_right triangleKeccak (run_siteAfter (by decide +kernel))).2

end Hashgrid.Core
