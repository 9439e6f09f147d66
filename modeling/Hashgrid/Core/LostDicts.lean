import Hashgrid.Core.AddEffect
import Hashgrid.Core.NoLostLink
import Hashgrid.Links.Ledgers

/-!
# Requests for parents and the dictionaries of lost parents

`AddEvent` asks for the other parent of a new vertex and enters the vertex in the
dictionary of its round unless it found the parent. It does the same for an event that
names no other parent. The dictionaries hold every vertex without an other link, each of
them once, so they hold the right ones when all events name a parent.
-/

namespace Hashgrid.Core

open Hashgrid.Bytes Hashgrid.Machine Hashgrid.Links

/-- The event names an other parent. -/
def Event.NamesOther {ρ : Type} (e : Event ρ) : Prop :=
  e.otherPartA ≠ FixedBytes.zero 20 ∧ e.otherPartH ≠ FixedBytes.zero 32

instance {ρ : Type} (e : Event ρ) : Decidable e.NamesOther := inferInstanceAs (Decidable (_ ∧ _))

/-- The event names itself as its other parent. -/
def Event.NamesItself {ρ : Type} (e : Event ρ) : Prop :=
  e.otherPartA = e.selfSig.addr ∧ e.otherPartH = e.selfHash

instance {ρ : Type} (e : Event ρ) : Decidable e.NamesItself :=
  inferInstanceAs (Decidable (_ ∧ _))

/-- The request for the other parent of an event. -/
def Event.parentRequest {ρ : Type} (e : Event ρ) : RequestArg := ⟨e.otherPartH, e.selfSig.addr, 0⟩

namespace JPGraph

/-- The vertices in the dictionaries of lost parents of all rounds. -/
def lostVerts (jp : JPGraph) : List ℕ :=
  jp.queue.flatMap fun i => (jp.round i).lostDict.entries.flatMap Sigma.snd

/-- The dictionaries hold exactly the vertices that name an other parent and are not linked to
one, each of them once. -/
structure LostExact (jp : JPGraph) : Prop where
  /-- No vertex is there twice. -/
  nodup : jp.lostVerts.Nodup
  /-- The vertices that are there. -/
  mem : ∀ v, v ∈ jp.lostVerts ↔
    v < jp.verts.next ∧ (jp.vert v).event.NamesOther ∧ (jp.vert v).anotherPt = none

variable {jp : JPGraph} {keccak : List UInt8 → Hash}

theorem lost_of_entry {i : ℕ} {entry : Sigma fun _ : Hash => List ℕ}
    (h : entry ∈ (jp.round i).lostDict.entries) : jp.links.lost i entry.1 = entry.2 := by
  have hlookup : (jp.round i).lostDict.lookup entry.1 = some entry.2 := AList.mem_lookup_iff.mpr h
  simp only [links, hlookup, Option.getD_some]

/-- A vertex is in a dictionary just when it waits in a ledger of the abstract graph. -/
theorem mem_lostVerts {v : ℕ} : v ∈ jp.lostVerts ↔ ∃ i h, v ∈ jp.links.lost i h := by
  constructor
  · intro hv
    obtain ⟨i, -, hv⟩ := List.mem_flatMap.mp hv
    obtain ⟨entry, hentry, hv⟩ := List.mem_flatMap.mp hv
    exact ⟨i, entry.1, (lost_of_entry hentry).symm ▸ hv⟩
  · rintro ⟨i, h, hv⟩
    have hlost : v ∈ ((jp.round i).lostDict.lookup h).getD [] := hv
    cases hlookup : (jp.round i).lostDict.lookup h with
    | none =>
      rw [hlookup] at hlost
      cases hlost
    | some us =>
      rw [hlookup] at hlost
      have hi : i < jp.rounds.next := by
        by_contra hge
        have hdefault : jp.round i = default := Heap.get_of_le (by omega)
        rw [hdefault] at hlookup
        cases hlookup
      refine List.mem_flatMap.mpr ⟨i, by simpa [queue] using hi, ?_⟩
      exact List.mem_flatMap.mpr ⟨⟨h, us⟩, AList.mem_lookup_iff.mp hlookup, hlost⟩

/-- No vertex is in the dictionaries twice. -/
theorem nodup_lostVerts (hsound : Sound jp.links) (hwaiting : Waiting jp.links)
    (hexact : Exact jp.links) : jp.lostVerts.Nodup := by
  refine List.nodup_flatMap.mpr ⟨fun i _ => List.nodup_flatMap.mpr ⟨fun entry hentry => ?_, ?_⟩, ?_⟩
  · rw [← lost_of_entry hentry]
    exact hexact.nodup i entry.1
  · -- a vertex waits for one hash only
    have hkeys := List.nodupKeys_iff_pairwise.mp (jp.round i).lostDict.nodupKeys
    refine hkeys.imp_of_mem fun hentry hentry' hne v hv hv' => hne ?_
    rw [← lost_of_entry hentry] at hv
    rw [← lost_of_entry hentry'] at hv'
    obtain ⟨n, hn, href⟩ := hsound.lost i _ v hv
    obtain ⟨n', hn', href'⟩ := hsound.lost i _ v hv'
    rw [← href, ← href', Option.some.inj (hn.symm.trans hn')]
  · -- a vertex waits in one round only
    have hqueue : jp.queue.Nodup := List.nodup_reverse.mpr List.nodup_range
    refine hqueue.imp fun hne v hv hv' => hne ?_
    obtain ⟨entry, hentry, hv⟩ := List.mem_flatMap.mp hv
    obtain ⟨entry', hentry', hv'⟩ := List.mem_flatMap.mp hv'
    rw [← lost_of_entry hentry] at hv
    rw [← lost_of_entry hentry'] at hv'
    exact hwaiting.single _ _ _ _ v hv hv'

/-- The dictionaries are exact just when every vertex without an other link names a parent. -/
theorem lostExact_iff (hsound : Sound jp.links) (hwaiting : Waiting jp.links)
    (hexact : Exact jp.links) : jp.LostExact ↔
      ∀ v < jp.verts.next, (jp.vert v).anotherPt = none → (jp.vert v).event.NamesOther := by
  have hwaits (v : ℕ) (hv : v < jp.verts.next) (hnone : (jp.vert v).anotherPt = none) :
      v ∈ jp.lostVerts :=
    mem_lostVerts.mpr (hexact.waits v (by rwa [length_nodes_links]) hnone)
  constructor
  · intro h v hv hnone
    exact ((h.mem v).mp (hwaits v hv hnone)).2.1
  · intro h
    refine ⟨nodup_lostVerts hsound hwaiting hexact, fun v => ⟨fun hmem => ?_, fun hv => ?_⟩⟩
    · obtain ⟨i, k, hlost⟩ := mem_lostVerts.mp hmem
      have hlt : v < jp.verts.next := length_nodes_links jp ▸ hsound.lt_of_lost hlost
      have hnone : (jp.vert v).anotherPt = none := hwaiting.unlinked i k v hlost
      exact ⟨hlt, h v hlt hnone, hnone⟩
    · exact hwaits v hv.1 hv.2.2

/-! ## Requests -/

/-- The section under the lock of the lost parents sends no request. -/
theorem requestChan_updateLost (jp : JPGraph) (i v : ℕ) (linkpost : Bool) :
    (jp.updateLost i v linkpost).requestChan = jp.requestChan := by
  have hpatch : (jp.patchLost i v).requestChan = jp.requestChan := by
    unfold patchLost
    split <;> rfl
  unfold updateLost
  dsimp only
  split_ifs <;> exact hpatch

/-- The round of a new vertex sends no request. -/
theorem requestChan_joinRound (jp : JPGraph) (v : ℕ) (linkpost : Bool) (round : Option ℕ) :
    Ensures (jp.joinRound v linkpost round) fun jp' => jp'.requestChan = jp.requestChan := by
  cases round with
  | none => exact .ok rfl
  | some i =>
    have hcomer : Ensures (jp.addComer i (jp.comerOf v)) fun jp' =>
        jp'.requestChan = jp.requestChan := by
      unfold addComer
      split_ifs
      · exact .error
      · exact .ok rfl
      · exact .ok rfl
    refine .bind hcomer fun jp₁ h₁ => .ok ?_
    rw [requestChan_updateLost, h₁]

/-- The record of a new vertex sends no request. -/
theorem requestChan_recordRound (jp : JPGraph) (firstWitness : Bool) (ty c v : ℕ) :
    Ensures (jp.recordRound firstWitness ty c v) fun r => r.1.requestChan = jp.requestChan := by
  intro r hr
  rcases jp.recordRound_cases firstWitness ty c v r hr with heq | ⟨_, _, -, -, -, heq⟩
  · rw [heq]
  · rw [heq]
    rfl

/-- The end of `AddEvent` sends a request just when the link has to be set later. -/
theorem requestChan_finishVertex (jp : JPGraph) (ty c v : ℕ) (firstWitness linkpost : Bool) :
    Ensures (jp.finishVertex ty c v firstWitness linkpost) fun jp' => jp'.requestChan =
      jp.requestChan ++ if linkpost then [(jp.vert v).event.parentRequest] else [] := by
  have hrequest : (if linkpost then jp.requestParentEvent v else jp).requestChan =
      jp.requestChan ++ if linkpost then [(jp.vert v).event.parentRequest] else [] := by
    cases linkpost with
    | false => exact (List.append_nil _).symm
    | true => rfl
  refine .bind (requestChan_recordRound _ firstWitness ty c v) fun r hr => ?_
  refine .bind (requestChan_joinRound r.1 v linkpost r.2) fun jp₁ h₁ => .ok ?_
  rw [signalCreated_eq, ← hrequest, ← hr, ← h₁]

/-- New columns send no request. -/
theorem requestChan_withColumns (jp : JPGraph) (e : Event ℕ) :
    (jp.withColumns e).requestChan = jp.requestChan := by
  have hnode (jp : JPGraph) (a : Address) : (jp.addNode a).1.requestChan = jp.requestChan := by
    unfold addNode
    split <;> rfl
  unfold withColumns
  split_ifs
  · exact hnode jp _
  · rw [hnode, hnode]

/-- `AddEvent` sends a request for the other parent of a new event just when it does not find it. -/
theorem requestChan_addEvent (h : Site.Linked jp) {e : Event ℕ}
    (hvalid : validateEvent keccak e = true) (hnew : jp.held e.selfSig.addr e.selfHash = none)
    (ty : ℕ) :
    Ensures (jp.addEvent keccak e ty) fun r => r.1.requestChan = jp.requestChan ++
      if jp.links.target (jp.arrivalAt e) = none then [e.parentRequest] else [] := by
  have hgrown := grown_withColumns h.wf e
  have hnext : (jp.withColumns e).verts.next = jp.verts.next := congrArg Heap.next hgrown.verts
  have harrival : (jp.withColumns e).arrivalAt e = jp.arrivalAt e := by
    simp only [arrivalAt, roundOf, hgrown.cells,
      funext (searchRound_congr hgrown.kept.rounds hgrown.kept.index)]
  rw [addEvent_eq, if_neg (by simp [hvalid]), addVertex_withNew h.wf hnew]
  generalize hlinked : (jp.withNew e ty).linkOther jp.verts.next
    ((otherColumnName e).bind (jp.withColumns e).graph.lookup) = linked
  have hchan : linked.1.requestChan = jp.requestChan := by
    rw [← hlinked, ← requestChan_withColumns jp e]
    unfold linkOther
    split <;> rfl
  rw [withNew, ← hnext] at hlinked
  obtain ⟨-, hevent, -, hlate⟩ := linkVertex_spec hgrown.wf (lookup_withColumns jp e) ty hlinked
  rw [hgrown.links, harrival] at hlate
  rw [hnext] at hevent
  refine .map (requestChan_finishVertex _ _ _ _ _ _) fun jp' hjp' => ?_
  rw [hjp', hchan, hlate, hevent]
  simp only [decide_eq_true_eq, copyEvent_eq]
  rfl

/-- `AddEvent` sent a request for the other parent of an event. -/
def Requested {ρ : Type} (jp jp' : JPGraph) (e : Event ρ) : Prop :=
  jp'.requestChan = jp.requestChan ++ [e.parentRequest]

/-- `AddEvent` entered its new vertex in a dictionary of lost parents. -/
def Recorded (jp jp' : JPGraph) : Prop := jp.verts.next ∈ jp'.lostVerts

instance {ρ : Type} (jp jp' : JPGraph) (e : Event ρ) : Decidable (jp.Requested jp' e) :=
  inferInstanceAs (Decidable (_ = _))

instance (jp jp' : JPGraph) : Decidable (jp.Recorded jp') := inferInstanceAs (Decidable (_ ∈ _))

/-- The event names an other parent that is not in the graph. -/
def NamesMissing {ρ : Type} (jp : JPGraph) (e : Event ρ) : Prop :=
  e.NamesOther ∧ jp.held e.otherPartA e.otherPartH = none

/-- The event names the address of another parent, and with it a hash other than zero or that of
a vertex; if it names itself, its hash is zero. -/
def AsksRight {ρ : Type} (jp : JPGraph) (e : Event ρ) : Prop :=
  e.otherPartA ≠ FixedBytes.zero 20 ∧
    (e.otherPartH ≠ FixedBytes.zero 32 ∨ (jp.held e.otherPartA e.otherPartH).isSome = true ∨
      e.NamesItself) ∧
    ¬ (e.NamesItself ∧ e.otherPartH ≠ FixedBytes.zero 32)

instance {ρ : Type} (jp : JPGraph) (e : Event ρ) : Decidable (jp.AsksRight e) :=
  inferInstanceAs (Decidable (_ ∧ (_ ∨ _ ∨ _) ∧ ¬ (_ ∧ _)))

/-- The other parent is not found when the event names no address, or when the column that it
names does not hold the parent. -/
theorem target_eq_none_iff (jp : JPGraph) (e : Event ℤ) :
    jp.links.target (jp.arrivalOf e) = none ↔ e.otherPartA = FixedBytes.zero 20 ∨
      ¬ e.NamesItself ∧ jp.held e.otherPartA e.otherPartH = none := by
  have hheld : jp.links.chain e.otherPartA e.otherPartH = jp.held e.otherPartA e.otherPartH := rfl
  simp only [LinkGraph.target, arrivalOf, otherColumnName, nodeOf]
  by_cases hzero : e.otherPartA = FixedBytes.zero 20
  · simp [hzero]
  · rw [if_neg hzero, Option.bind_some, LinkGraph.chainWith, hheld]
    simp only [Event.NamesItself]
    split_ifs with hself
    · refine iff_of_false (by simp) ?_
      rintro (hzero' | ⟨hother, -⟩)
      · exact hzero hzero'
      · exact hother hself
    · simp [hzero, hself]

/-- A new event that is not found asks for a missing parent just when it asks right. -/
theorem asksRight_iff {e : Event ℤ} (h : jp.Creates keccak e) :
    (jp.links.target (jp.arrivalOf e) = none ↔ jp.NamesMissing e) ↔ jp.AsksRight e := by
  have hself : e.NamesItself → jp.held e.otherPartA e.otherPartH = none := by
    rintro ⟨ha, hh⟩
    rw [ha, hh]
    exact h.2
  rw [target_eq_none_iff, NamesMissing, Event.NamesOther, AsksRight, Option.isSome_iff_ne_none]
  tauto

end JPGraph

namespace Site

variable {keccak : List UInt8 → Hash} {s s' : Site} {m : Move} {e : Event ℤ} {ty : ℕ}

/-- A new vertex is filed in a round. -/
theorem ledger_of_step (h : Linked s.graph) (hadded : s.added m = some (e, ty))
    (hcreates : s.graph.Creates keccak e) (hs' : s.step keccak m = .ok s') :
    ∃ i, (s.graph.arrivalOf e).ledger = some i := by
  obtain ⟨jp₀, e₀, hrec, -, heffect, -⟩ := step_effect h hadded s' hs'
  have hheld : jp₀.held e₀.selfSig.addr e₀.selfHash = none := hrec.held.trans hcreates.2
  have hvalid := (hrec.validate keccak).trans hcreates.1
  cases heffect with
  | rejected hinvalid _ => simp [hvalid] at hinvalid
  | known _ v hknown _ => simp [hheld] at hknown
  | stored _ _ x i hround hsearch _ _ =>
    have harrival : jp₀.arrivalAt e₀ = s.graph.arrivalOf e := hrec.arrivalAt
    refine ⟨i, ?_⟩
    rw [← harrival]
    simp only [JPGraph.arrivalAt, hround, Option.bind_some, hsearch]

/-- `AddEvent` sends a request for a new vertex and enters it in a dictionary just when it does
not find the other parent. -/
theorem requested_recorded_iff (h : Linked s.graph) (hadded : s.added m = some (e, ty))
    (hcreates : s.graph.Creates keccak e) (hs' : s.step keccak m = .ok s') :
    (s.graph.Requested s'.graph e ∧ s.graph.Recorded s'.graph) ↔
      s.graph.links.target (s.graph.arrivalOf e) = none := by
  obtain ⟨i, hledger⟩ := ledger_of_step h hadded hcreates hs'
  obtain ⟨-, -, hlinks⟩ := step_added_links h hadded s' hs'
  rw [if_pos hcreates] at hlinks
  have hrecorded : s.graph.Recorded s'.graph ↔
      s.graph.links.target (s.graph.arrivalOf e) = none := by
    rw [JPGraph.Recorded, JPGraph.mem_lostVerts, hlinks, ← JPGraph.length_nodes_links]
    exact h.waiting.new_waits_iff h.sound hledger
  obtain ⟨jp₀, e₀, err, hrec, hadd, -⟩ := step_added hadded s' hs'
  have hchan := JPGraph.requestChan_addEvent (hrec.linked h)
    ((hrec.validate keccak).trans hcreates.1) (hrec.held.trans hcreates.2) ty _ hadd
  rw [hrec.links, hrec.arrivalAt] at hchan
  have hrequest : e₀.parentRequest = e.parentRequest := by
    rw [hrec.event]
    rfl
  have hold : jp₀.requestChan = s.graph.requestChan := by rw [hrec.rest]
  rw [hrecorded, and_iff_right_iff_imp]
  intro htarget
  rw [if_pos htarget, hrequest, hold] at hchan
  exact hchan

/-- Every event that becomes a vertex asks right. -/
def AddsAsking (keccak : List UInt8 → Hash) (s : Site) (m : Move) : Prop :=
  s.AddsOnly m fun e _ => s.graph.Creates keccak e → s.graph.AsksRight e

instance (keccak : List UInt8 → Hash) (s : Site) (m : Move) :
    Decidable (s.AddsAsking keccak m) :=
  inferInstanceAs (Decidable (s.AddsOnly m fun _ _ => _ → _))

/-- What holds of the dictionaries in a run whose events all ask right. -/
structure Ledgered (jp : JPGraph) : Prop where
  /-- Columns and links are in order. -/
  linked : Linked jp
  /-- The ledgers are exact. -/
  exact : Exact jp.links
  /-- Vertices without an other link name a parent. -/
  named : ∀ v < jp.verts.next, (jp.vert v).anotherPt = none → (jp.vert v).event.NamesOther

/-- A move keeps the ledgers exact. -/
theorem exact_step (h : Linked s.graph) (hexact : Exact s.graph.links) (m : Move) :
    Ensures (s.step keccak m) fun s' => Exact s'.graph.links := by
  intro s' hs'
  cases hadded : s.added m with
  | none => exact (step_other hadded s' hs').links ▸ hexact
  | some x =>
    obtain ⟨e, ty⟩ := x
    obtain ⟨-, -, hlinks⟩ := step_added_links h hadded s' hs'
    rw [hlinks]
    split_ifs with hcreates
    · obtain ⟨i, hledger⟩ := ledger_of_step h hadded hcreates hs'
      exact hexact.add h.sound h.waiting hledger
    · exact hexact

/-- A move whose event asks right leaves no vertex without a named parent. -/
theorem Ledgered.step (h : Ledgered s.graph) (hasks : s.AddsAsking keccak m) :
    Ensures (s.step keccak m) fun s' => Ledgered s'.graph := by
  intro s' hs'
  refine ⟨h.linked.step m s' hs', exact_step h.linked h.exact m s' hs', fun v hv hnone => ?_⟩
  cases hadded : s.added m with
  | none =>
    have hless := step_other hadded s' hs'
    have hnext : s'.graph.verts.next = s.graph.verts.next := by
      rw [← JPGraph.length_nodes_links, ← JPGraph.length_nodes_links, hless.links]
    have hanother : s'.graph.links.anotherPt v = s.graph.links.anotherPt v := by rw [hless.links]
    rw [hless.event]
    exact h.named v (hnext ▸ hv) (hanother.symm.trans hnone)
  | some x =>
    obtain ⟨e, ty⟩ := x
    obtain ⟨-, -, hlinks⟩ := step_added_links h.linked hadded s' hs'
    obtain ⟨jp₀, e₀, hrec, hlinked, heffect, -⟩ := step_effect h.linked hadded s' hs'
    have hverts : jp₀.verts = s.graph.verts := by rw [hrec.rest]
    have hanother : s'.graph.links.anotherPt v = none := hnone
    by_cases hlt : v < s.graph.verts.next
    · have hevent := (heffect.kept hlinked.wf (hverts.symm ▸ hlt)).event
      have hvert : jp₀.vert v = s.graph.vert v := congrArg (Heap.get · v) hverts
      rw [hevent, hvert]
      refine h.named v hlt ?_
      rw [hlinks] at hanother
      split_ifs at hanother
      · rw [LinkGraph.anotherPt_add_old (by rwa [JPGraph.length_nodes_links])] at hanother
        split_ifs at hanother
        exact hanother
      · exact hanother
    · obtain ⟨hcreates, rfl⟩ : s.graph.Creates keccak e ∧ v = s.graph.verts.next := by
        rw [← JPGraph.length_nodes_links, hlinks] at hv
        split_ifs at hv with hcreates
        · rw [LinkGraph.add_nodes, List.length_append, List.length_singleton,
            JPGraph.length_nodes_links] at hv
          exact ⟨hcreates, by omega⟩
        · exact absurd (JPGraph.length_nodes_links s.graph ▸ hv) hlt
      rw [if_pos hcreates] at hlinks
      rw [hlinks, ← JPGraph.length_nodes_links, h.linked.sound.anotherPt_add_new] at hanother
      have hasks' := (addsOnly_iff hadded _).mp hasks hcreates
      have hevent := heffect.event_new hlinked.wf ((hrec.validate keccak).trans hcreates.1)
        (hrec.held.trans hcreates.2)
      have hnamed : e.NamesOther := (((JPGraph.asksRight_iff hcreates).mpr hasks').mp hanother).1
      rw [hverts] at hevent
      rw [hevent, copyEvent_eq, hrec.event]
      exact hnamed

end Site

/-- In every state that is reached, `AddEvent` sends a request for a new valid event and enters its
vertex in a dictionary just when the event names a parent that is missing, if and only if the
event asks right; and in every run whose events all ask right the dictionaries hold exactly the
vertices that name a parent and are not linked, each of them once. -/
theorem requests_lostDicts_exact (keccak : List UInt8 → Hash) {coinbase : Address}
    {broadness : ℕ} {moves : List Move} {s : Site}
    (hrun : run (Site.step keccak) (newSite coinbase broadness) moves = .ok s) :
    (∀ m e ty s', s.added m = some (e, ty) → s.graph.Creates keccak e →
      s.step keccak m = .ok s' →
        (((s.graph.Requested s'.graph e ∧ s.graph.Recorded s'.graph) ↔ s.graph.NamesMissing e) ↔
          s.graph.AsksRight e)) ∧
      (Meets (Site.step keccak) (Site.AddsAsking keccak) (newSite coinbase broadness) moves →
        s.graph.LostExact) := by
  refine ⟨fun m e ty s' hadded hcreates hs' => ?_, fun hmeets => ?_⟩
  · rw [Site.requested_recorded_iff (Site.linked_of_run hrun) hadded hcreates hs',
      JPGraph.asksRight_iff hcreates]
  · have hempty : Exact (newSite coinbase broadness).graph.links := by
      have hlinks : (newSite coinbase broadness).graph.links = LinkGraph.empty :=
        (links_freshGraph coinbase broadness [0]).2
      rw [hlinks]
      exact exact_empty
    have hinit : Site.Ledgered (newSite coinbase broadness).graph :=
      ⟨Site.linked_newSite coinbase broadness, hempty, fun v hv => nomatch hv⟩
    have hstep (s : Site) (m : Move) (h : Site.Ledgered s.graph)
        (hasks : s.AddsAsking keccak m) : Ensures (s.step keccak m) fun s' =>
          Site.Ledgered s'.graph := h.step hasks
    have hfinal : Site.Ledgered s.graph := run_invariant hstep hinit hmeets s hrun
    exact (JPGraph.lostExact_iff hfinal.linked.sound hfinal.linked.waiting hfinal.exact).mpr
      hfinal.named

theorem step_triangleSite {e : Event ℤ}
    (h : (run (Site.step triangleKeccak) (newSite (FixedBytes.ofNat 20 0x0A) 3)
      (arriving [e])).toOption.isSome = true) :
    (triangleSite []).step triangleKeccak (.arrive e Mark.normal) = .ok (triangleSite [e]) :=
  (run_singleton _ _).symm.trans (run_siteAfter h)

/-- `eventB` arrives first: its other parent is requested, and its vertex is the only one in the
dictionaries. -/
theorem requests_lostDicts_orphan :
    ((triangleSite []).graph.Requested (triangleSite [eventB]).graph eventB ∧
      (triangleSite []).graph.Recorded (triangleSite [eventB]).graph) ∧
      (triangleSite [eventB]).graph.LostExact := by
  have hstart : run (Site.step triangleKeccak) (newSite (FixedBytes.ofNat 20 0x0A) 3) [] =
      .ok (triangleSite []) := rfl
  refine ⟨?_, ?_⟩
  · refine (((requests_lostDicts_exact triangleKeccak hstart).1 _ _ _ _ rfl (by decide +kernel)
      (step_triangleSite (by decide +kernel))).mpr (by decide +kernel)).mpr ?_
    exact ⟨by decide +kernel, by decide +kernel⟩
  · exact (requests_lostDicts_exact triangleKeccak (run_siteAfter (by decide +kernel))).2
      (by decide +kernel)

/-- The first event of a column names no parent. It is entered in the dictionaries all the same,
and a request for the zero hash is sent. -/
theorem not_requests_lostDicts_first :
    (triangleSite []).graph.Creates triangleKeccak eventA1 ∧
      (triangleSite []).step triangleKeccak (.arrive eventA1 Mark.normal) =
        .ok (triangleSite [eventA1]) ∧
      ¬ (((triangleSite []).graph.Requested (triangleSite [eventA1]).graph eventA1 ∧
          (triangleSite []).graph.Recorded (triangleSite [eventA1]).graph) ↔
        (triangleSite []).graph.NamesMissing eventA1) ∧
      ¬ (triangleSite [eventA1]).graph.LostExact := by
  refine ⟨by decide +kernel, step_triangleSite (by decide +kernel), fun h => ?_, fun h => ?_⟩
  · exact absurd (h.mp ⟨by decide +kernel, by decide +kernel⟩).1 (by decide +kernel)
  · exact absurd ((h.mem 0).mp (by decide +kernel)).2.1 (by decide +kernel)

end Hashgrid.Core
