import Hashgrid.Core.LinkRefinement

/-!
# Cycles of links

`AddEvent` takes the top of the creator's column as self parent, whatever `SelfPart`
says. As long as every new event arrives on top of its self parent, the links follow the
hash references and form no cycle; out of order they can form one.
-/

namespace Hashgrid.Core

open Hashgrid.Bytes Hashgrid.Machine Hashgrid.Links

variable {e : Event ℤ} {jp : JPGraph}

namespace JPGraph

/-- The links from one vertex to another. -/
def Link (jp : JPGraph) (v w : ℕ) : Prop :=
  (jp.vert v).selfPt = some w ∨ (jp.vert v).anotherPt = some w

/-- No vertex reaches itself along links. -/
def AcyclicLinks (jp : JPGraph) : Prop := ∀ v, ¬ Relation.TransGen jp.Link v v

/-- The event is stored already, or the column of its creator is empty or ends with its self
parent. -/
def onSelfParent (jp : JPGraph) (e : Event ℤ) : Bool :=
  (jp.graph.lookup e.selfSig.addr).all fun c =>
    ((jp.col c).hashChain.lookup e.selfHash).isSome ||
      (jp.col c).verTop.all fun v => (jp.vert v).event.selfHash = e.selfPart

/-- The test on the graph is the condition on the abstract graph. -/
theorem topMatches_of_onSelfParent (h : jp.onSelfParent e = true) :
    TopMatches jp.links (jp.arrivalOf e) := by
  unfold onSelfParent at h
  cases hc : jp.graph.lookup e.selfSig.addr with
  | none => exact Or.inr fun v n hv => by simp [links, arrivalOf, nodeOf, hc] at hv
  | some c =>
    rw [hc, Option.all_some, Bool.or_eq_true] at h
    rcases h with h | h
    · exact Or.inl (by simpa [links, arrivalOf, nodeOf, hc] using h)
    · refine Or.inr fun v n hv hn => ?_
      have htop : (jp.col c).verTop = some v := by simpa [links, arrivalOf, nodeOf, hc] using hv
      rw [htop, Option.all_some, decide_eq_true_eq] at h
      obtain ⟨u, hu, rfl⟩ : ∃ u, (List.range jp.verts.next)[v]? = some u ∧
          nodeOf (jp.vert u).event = n := by simpa [links] using hn
      rw [List.getElem?_range (by
        have := (List.getElem?_eq_some_iff.mp hu).1
        simpa using this)] at hu
      cases hu
      exact h

end JPGraph

/-- A fresh graph has one empty column. -/
theorem links_freshGraph (coinbase : Address) (broadness : ℕ) (indices : List ℕ) :
    (freshGraph coinbase broadness indices).Wf ∧
      (freshGraph coinbase broadness indices).links = LinkGraph.empty := by
  have hbare : (bareGraph coinbase broadness).Wf :=
    ⟨fun _ _ h => (nomatch h), fun _ _ _ h => (nomatch h)⟩
  have hgrown := JPGraph.grown_addNode hbare coinbase
  have hlinks : ((bareGraph coinbase broadness).addNode coinbase).1.links = LinkGraph.empty :=
    hgrown.links
  refine ⟨JPGraph.Wf.congr ?_ ?_ hgrown.wf, ?_⟩
  · rfl
  · rfl
  have hfields := LinkGraph.ext_iff.mp hlinks
  apply LinkGraph.ext
  · exact hfields.1
  · exact hfields.2.1
  · exact hfields.2.2.1
  · exact hfields.2.2.2.1
  · exact hfields.2.2.2.2.1
  · funext i h
    change (((Heap.mk (indices.map (newRound broadness))).get i).lostDict.lookup h).getD [] = []
    have hdict : ((Heap.mk (indices.map (newRound broadness))).get i).lostDict = ∅ := by
      simp only [Heap.get, List.getD_eq_getElem?_getD, List.getElem?_map]
      cases indices[i]? <;> rfl
    rw [hdict]
    rfl

/-- What holds of the links as long as every event arrives on top of its self parent. -/
structure LinkInvariant (events : List (Event ℤ)) (jp : JPGraph) : Prop where
  /-- Columns stay apart. -/
  wf : jp.Wf
  /-- Other links lead to the other parent. -/
  sound : Sound jp.links
  /-- Self links lead to the self parent. -/
  selfSound : SelfSound jp.links
  /-- All vertices come from the events. -/
  nodes : ∀ n ∈ jp.links.nodes, n ∈ events.map nodeOf

/-- An event that arrives on top of its self parent keeps the links right. -/
theorem LinkInvariant.arriveEvent {keccak : List UInt8 → Hash} {events : List (Event ℤ)}
    (h : LinkInvariant events jp) (ty : ℕ) (hmem : e ∈ events) (htop : jp.onSelfParent e = true) :
    Ensures (jp.arriveEvent keccak (e, ty)) (LinkInvariant events) := by
  intro jp' hjp'
  obtain ⟨hwf, -, hlinks⟩ := JPGraph.arriveEvent_refines h.wf h.sound e ty jp' hjp'
  split_ifs at hlinks
  · refine ⟨hwf, hlinks ▸ h.sound.arrive,
      hlinks ▸ h.selfSound.arrive h.sound (JPGraph.topMatches_of_onSelfParent htop), ?_⟩
    intro n hn
    rw [hlinks] at hn
    rcases LinkGraph.mem_nodes_arrive hn with hn | rfl
    · exact h.nodes n hn
    · exact List.mem_map_of_mem hmem
  · exact ⟨hwf, hlinks ▸ h.sound, hlinks ▸ h.selfSound, hlinks ▸ h.nodes⟩

/-- In every run of `AddEvent` calls whose events arrive on top of their self parents, the
links form no cycle, provided that the hash references do not. -/
theorem acyclicLinks_of_onSelfParent (keccak : List UInt8 → Hash) {coinbase : Address}
    {broadness : ℕ} {l : List (Event ℤ × ℕ)} {jp : JPGraph}
    (hrefs : AcyclicRefs (l.map fun a => nodeOf a.1))
    (hrun : run (JPGraph.arriveEvent keccak) (newJPGraph coinbase broadness) l = .ok jp)
    (htop : Meets (JPGraph.arriveEvent keccak) (fun jp a => jp.onSelfParent a.1 = true)
      (newJPGraph coinbase broadness) l) : jp.AcyclicLinks := by
  obtain ⟨hwf, hempty⟩ := links_freshGraph coinbase broadness [0]
  have hinit : LinkInvariant (l.map Prod.fst) (newJPGraph coinbase broadness) := by
    have hlinks : (newJPGraph coinbase broadness).links = LinkGraph.empty := hempty
    refine ⟨hwf, hlinks ▸ sound_empty, hlinks ▸ selfSound_empty, ?_⟩
    rw [hlinks]
    exact fun n hn => nomatch hn
  have hinv := run_invariant
    (fun jp a h hok => h.arriveEvent (e := a.1) a.2 hok.2 hok.1) hinit
    (htop.and_mem fun a ha => List.mem_map_of_mem ha) jp hrun
  refine hinv.sound.acyclic hinv.selfSound hinv.nodes ?_
  rw [List.map_map]
  exact hrefs

/-- The first event of creator `0x0a`. -/
def eventA1 : Event ℤ := firstEvent 0 0

/-- The first event of creator `0x0b`, on top of `eventA1`. -/
def eventB : Event ℤ :=
  plainEvent 2 0x0B (FixedBytes.zero 32) eventA1.selfHash 0x0A 0
    (FixedBytes.ofNat 32 0x0c1dcbe010cc81adcef11b4d8b13233d03c214e9f270d5522513edebbb16bd35)

/-- The second event of creator `0x0a`, on top of `eventA1` and `eventB`. -/
def eventA2 : Event ℤ :=
  plainEvent 3 0x0A eventA1.selfHash eventB.selfHash 0x0B 0
    (FixedBytes.ofNat 32 0x1922c8607fccda6c5250ecb24badd260e31867ca593fc1b71f24df369d3020c9)

/-- Keccak-256 on the hash inputs of the three events. -/
def triangleKeccak : List UInt8 → Hash :=
  tabulated ([eventA1, eventB, eventA2].map fun e => (e.checkInput, e.selfHash))

/-- Normal events that arrive in the given order. -/
def arrivals (events : List (Event ℤ)) : List (Event ℤ × ℕ) :=
  events.map fun e => (e, Mark.normal)

/-- What happens at node `0x0c` when the given events arrive. -/
def triangleRun (events : List (Event ℤ)) : Except Stop JPGraph :=
  run (JPGraph.arriveEvent triangleKeccak) (newJPGraph (FixedBytes.ofNat 20 0x0C) 3)
    (arrivals events)

/-- The graph after the given events arrived. -/
def triangleGraph (events : List (Event ℤ)) : JPGraph :=
  (triangleRun events).toOption.getD (bareGraph (FixedBytes.ofNat 20 0x0C) 3)

/-- The references of the three events go back in time. -/
theorem acyclicRefs_triangle :
    AcyclicRefs ([eventA1, eventB, eventA2].map nodeOf) := by
  apply acyclicRefs_of_rank fun h =>
    if h = eventA1.selfHash then 1 else if h = eventB.selfHash then 2
    else if h = eventA2.selfHash then 3 else 0
  decide +kernel

/-- In the order of their references the three events form no cycle. -/
theorem acyclicLinks_triangle : (triangleGraph [eventA1, eventB, eventA2]).AcyclicLinks :=
  acyclicLinks_of_onSelfParent triangleKeccak (l := arrivals [eventA1, eventB, eventA2])
    acyclicRefs_triangle (eq_ok_getD (by decide +kernel) _) (by decide +kernel)

/-- When `eventA2` arrives before `eventA1`, the three links form a cycle. -/
theorem not_acyclicLinks_triangle :
    (∀ e ∈ [eventA2, eventA1, eventB], validateEvent triangleKeccak e = true) ∧
      AcyclicRefs ([eventA1, eventB, eventA2].map nodeOf) ∧
      triangleRun [eventA2, eventA1, eventB] =
        .ok (triangleGraph [eventA2, eventA1, eventB]) ∧
      ¬ (triangleGraph [eventA2, eventA1, eventB]).AcyclicLinks := by
  refine ⟨by decide +kernel, acyclicRefs_triangle, eq_ok_getD (by decide +kernel) _, fun h => ?_⟩
  -- In the order of arrival: `eventA2` is vertex 0, `eventA1` is 1 and `eventB` is 2.
  have h02 : (triangleGraph [eventA2, eventA1, eventB]).Link 0 2 := Or.inr (by decide +kernel)
  have h21 : (triangleGraph [eventA2, eventA1, eventB]).Link 2 1 := Or.inr (by decide +kernel)
  have h10 : (triangleGraph [eventA2, eventA1, eventB]).Link 1 0 := Or.inl (by decide +kernel)
  exact h 0 ((Relation.TransGen.single h02).tail h21 |>.tail h10)

end Hashgrid.Core
