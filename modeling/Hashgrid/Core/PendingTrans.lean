import Hashgrid.Core.LoopEffect
import Hashgrid.Core.Numbers
import Hashgrid.Core.Retrieve

/-!
# Transactions that wait

`ComposeEvent` means to move the oldest transactions that wait into the event that it makes.
It copies them into a slice of length 0 and cuts off one more than it counted, so the call
is only right when no transaction waits.
-/

namespace Hashgrid.Core

open Hashgrid.Bytes Hashgrid.Machine Hashgrid.Links

variable (jp : JPGraph) {keccak : List UInt8 → Hash} {e : Event ℕ}

namespace JPGraph

/-- The graph with the given transactions waiting. -/
def withPending (jp : JPGraph) (ts : List (Option Transaction)) : JPGraph :=
  { jp with transUnHandled := ts }

/-- The vertex that `AddEvent` makes of the event carries the transactions of the event. -/
def StoresTrans (keccak : List UInt8 → Hash) (e : Event ℕ) : Prop :=
  ∀ jp : JPGraph, Site.Linked jp → ∀ ty r, jp.addEvent keccak e ty = .ok r →
    ∀ v, jp.verts.next ≤ v → v < r.1.verts.next → (r.1.vert v).event.trans = e.trans

/-- What `ComposeEvent` is for: no transaction is lost or duplicated. -/
structure TransKept (keccak : List UInt8 → Hash) (jp : JPGraph) (r : JPGraph × Event ℕ) :
    Prop where
  /-- The event takes the oldest transactions, as many as fit. -/
  taken : r.2.trans = jp.transUnHandled.take maxTransInEvent
  /-- The others wait on. -/
  left : r.1.transUnHandled = jp.transUnHandled.drop maxTransInEvent
  /-- The stored vertex carries them. -/
  stored : StoresTrans keccak r.2

/-- `RandParent` would wait for a lock of the front round that is never released. -/
def FrontBlocked (jp : JPGraph) : Prop :=
  ∃ i ∈ jp.queue.head?, (jp.round i).bestVertex = none ∧ (jp.round i).ncLocked = true

instance (jp : JPGraph) : Decidable jp.FrontBlocked :=
  inferInstanceAs (Decidable (∃ i ∈ jp.queue.head?, _))

/-- What `ComposeEvent` dereferences: the column of this node and the round number of its newest
vertex. -/
structure Ready (jp : JPGraph) : Prop where
  /-- The node has a column. -/
  column : ∃ c, jp.graph.lookup jp.coinbase = some c
  /-- Every vertex has a round number. -/
  pointer : ∀ v < jp.verts.next, (jp.vert v).event.roundID ≠ none

variable {jp' : JPGraph} {ty : ℕ}

/-- Readiness does not depend on other links, marks, tables and channels. -/
theorem Ready.congr {jp : JPGraph} (h : jp.Ready) (hcoinbase : jp'.coinbase = jp.coinbase)
    (hgraph : ∀ b c, jp.graph.lookup b = some c → jp'.graph.lookup b = some c)
    (hvert : ∀ v < jp'.verts.next, (∃ k, (jp'.vert v).event.roundID = some k) ∨
      v < jp.verts.next ∧ (jp'.vert v).event = (jp.vert v).event) : jp'.Ready where
  column := by
    obtain ⟨c, hc⟩ := h.column
    exact ⟨c, hcoinbase ▸ hgraph _ c hc⟩
  pointer v hv := by
    rcases hvert v hv with ⟨k, hk⟩ | ⟨hold, hevent⟩
    · simp [hk]
    · rw [hevent]
      exact h.pointer v hold

theorem coinbase_addNode (a : Address) : (jp.addNode a).1.coinbase = jp.coinbase := by
  unfold addNode
  split <;> rfl

theorem coinbase_withColumns (e : Event ℕ) : (jp.withColumns e).coinbase = jp.coinbase := by
  unfold withColumns
  split_ifs
  · exact coinbase_addNode jp _
  · exact (coinbase_addNode _ _).trans (coinbase_addNode jp _)

/-- `AddEvent` leaves the address of the node alone. -/
theorem AddEffect.coinbase {jp : JPGraph} (h : AddEffect keccak jp e ty jp') :
    jp'.coinbase = jp.coinbase := by
  have hcolumns := coinbase_withColumns jp e
  cases h with
  | rejected _ hgraph => rw [hgraph]
  | known _ v _ hgraph =>
    rw [hgraph]
    split_ifs
    · exact hcolumns
    · exact hcolumns
  | stored _ _ x i _ _ _ hgraph =>
    have hrecorded : (jp.recordedIn e ty i).coinbase = (jp.withColumns e).coinbase := by
      unfold recordedIn
      split_ifs <;> rfl
    calc jp'.coinbase = ((jp.recordedIn e ty i).signalCreated jp.verts.next).coinbase :=
          hgraph.read fun _ => by rfl
      _ = (jp.recordedIn e ty i).coinbase := by rw [signalCreated_eq]
      _ = jp.coinbase := hrecorded.trans hcolumns

/-- `AddEvent` removes no column. -/
theorem AddEffect.lookup {jp : JPGraph} (h : AddEffect keccak jp e ty jp') (hwf : jp.Wf)
    {b : Address} {c : ℕ} (hb : jp.graph.lookup b = some c) : jp'.graph.lookup b = some c := by
  have hcolumns := (grown_withColumns hwf e).keeps b c hb
  cases h with
  | rejected _ hgraph => rwa [hgraph]
  | known _ v _ hgraph =>
    rw [hgraph]
    split_ifs
    · exact hcolumns
    · exact hcolumns
  | stored _ _ x i _ _ _ hgraph =>
    rw [hgraph.graph, signalCreated_eq]
    exact (columns_recordedIn jp e ty i).1 ▸ hcolumns

/-- `AddEvent` only stores events with a round number. -/
theorem AddEffect.ready {jp : JPGraph} (h : AddEffect keccak jp e ty jp') (hwf : jp.Wf)
    (hready : jp.Ready) : jp'.Ready := by
  refine hready.congr h.coinbase (fun b c => h.lookup hwf) fun v hv => ?_
  by_cases hold : v < jp.verts.next
  · exact Or.inr ⟨hold, (h.kept hwf hold).event⟩
  · obtain ⟨-, hnew⟩ := h.created hwf hv (by omega)
    refine Or.inl ?_
    rw [hnew.event, copyEvent_eq]
    cases h with
    | rejected _ hgraph => exact absurd (hgraph ▸ hv) hold
    | known _ u _ hgraph => exact absurd (next_existed hwf e ty u ▸ hgraph ▸ hv) hold
    | stored _ _ x i hx _ _ _ =>
      obtain ⟨k, hk, -⟩ := Option.map_eq_some_iff.mp hx
      exact ⟨k, hk⟩

/-- `RoundLoop` leaves the address of the node alone. -/
theorem coinbase_roundTurn : Ensures jp.roundTurn fun jp' => jp'.coinbase = jp.coinbase := by
  intro jp' hjp'
  obtain ⟨v, rest, cell, -, -, hjp'⟩ := jp.roundTurn_spec jp' hjp'
  have hopen : (jp.turnGraph v cell).coinbase = jp.coinbase := by
    unfold turnGraph
    split_ifs <;> rfl
  rcases hjp' with ⟨-, rfl⟩ | ⟨i, complete, -, -, -, rfl⟩
  · exact hopen
  · exact hopen

/-- `MonitorLoop` leaves the address of the node alone. -/
theorem coinbase_monitorStep (m : Monitor) (jp : JPGraph) (order : ℕ → List Address) :
    Ensures (m.step jp order) fun r => r.2.coinbase = jp.coinbase := by
  intro r hr
  cases monitorStep_effect m jp order r hr with
  | front i _ _ _ hgraph => rw [hgraph]
  | receive i v rest _ _ _ hgraph => exact hgraph.alike.neutral.coinbase
  | put v _ _ hgraph => rw [hgraph]
  | mark v _ _ hgraph =>
    rw [hgraph]
    rfl
  | trigger v _ _ hgraph =>
    rw [hgraph]
    rfl

end JPGraph

namespace Site

variable {s : Site}

/-- Every move keeps what `ComposeEvent` dereferences. -/
theorem ready_step (hlinked : Linked s.graph) (h : s.graph.Ready) (m : Move) :
    Ensures (s.step keccak m) fun s' => s'.graph.Ready := by
  intro s' hs'
  cases hadded : s.added m with
  | none =>
    have hless := step_other hadded s' hs'
    have hnext : s'.graph.verts.next = s.graph.verts.next := by
      rw [← JPGraph.length_nodes_links, hless.links, JPGraph.length_nodes_links]
    have hcoinbase : s'.graph.coinbase = s.graph.coinbase := by
      cases otherMove hadded hs' with
      | compose now rand r hr heq =>
        obtain ⟨-, jp₁, k, x, hneutral, -, -, hgraph⟩ :=
          s.graph.composeEvent_cases keccak now rand r hr
        rw [heq, hgraph]
        exact hneutral.coinbase
      | roundLoop jp hjp heq =>
        rw [heq]
        exact s.graph.coinbase_roundTurn jp hjp
      | monitor order r hr heq =>
        rw [heq]
        exact JPGraph.coinbase_monitorStep s.monitor s.graph order r hr
    refine h.congr hcoinbase (fun b c hb => hless.graph ▸ hb) fun v hv => ?_
    exact Or.inr ⟨hnext ▸ hv, hless.event v⟩
  | some x =>
    obtain ⟨jp₀, e₀, hrec, hlinked₀, heffect, -⟩ := step_effect hlinked hadded s' hs'
    have h₀ : jp₀.Ready := by
      rw [hrec.rest]
      exact ⟨h.column, h.pointer⟩
    exact heffect.ready hlinked₀.wf h₀

theorem ready_newSite (coinbase : Address) (broadness : ℕ) :
    (newSite coinbase broadness).graph.Ready :=
  ⟨⟨0, AList.lookup_insert _⟩, fun v hv => absurd hv (Nat.not_lt_zero v)⟩

/-- In every state, `ComposeEvent` dereferences nothing that is missing. -/
theorem ready_of_run {coinbase : Address} {broadness : ℕ} {moves : List Move}
    (hrun : run (Site.step keccak) (newSite coinbase broadness) moves = .ok s) : s.graph.Ready := by
  have hstep (s : Site) (m : Move) (h : Linked s.graph ∧ s.graph.Ready) :
      Ensures (s.step keccak m) fun s' => Linked s'.graph ∧ s'.graph.Ready :=
    fun s' hs' => ⟨h.1.step m s' hs', ready_step h.1 h.2 m s' hs'⟩
  have hinit := And.intro (linked_newSite coinbase broadness) (ready_newSite coinbase broadness)
  exact (run_preserves hstep hinit moves s hrun).2

end Site

namespace JPGraph

theorem takeTrans_none {jp : JPGraph} (h : jp.transUnHandled = []) :
    jp.takeTrans = .ok (jp, []) := by
  simp [takeTrans, h]

/-- The transactions after `ComposeEvent`. -/
theorem composeEvent_trans (keccak : List UInt8 → Hash) (jp : JPGraph) (now : ℤ) (rand : ℕ) :
    Ensures (jp.composeEvent keccak now rand) fun r =>
      r.2.trans = [] ∧ (jp.transUnHandled = [] → r.1.transUnHandled = []) := by
  intro r hr
  obtain ⟨c, i, k, h⟩ := jp.composeEvent_composes keccak now rand r hr
  obtain ⟨jp₁, ts, -, hts, hgraph⟩ := h.graph
  refine ⟨h.trans, fun hnone => ?_⟩
  rw [hgraph]
  exact hts hnone

/-- The other parent is chosen unless the lock of the round is held. -/
theorem exists_chooseOther (i rand : ℕ) : (∃ r, jp.chooseOther i rand = .ok r) ↔
    ¬ ((jp.round i).bestVertex = none ∧ (jp.round i).ncLocked = true) := by
  unfold chooseOther
  cases (jp.round i).bestVertex with
  | some v => simp
  | none =>
    dsimp only
    split_ifs with hlocked
    · simp [hlocked]
    · generalize (jp.round i).randParent jp.coinbase rand = chosen
      obtain ⟨newComer, arg⟩ := chosen
      cases arg <;> simp [hlocked]

/-- When no transaction waits, `ComposeEvent` returns unless the lock of the front round is
held. -/
theorem exists_composeEvent (keccak : List UInt8 → Hash) {jp : JPGraph} (hlinked : Site.Linked jp)
    (hready : jp.Ready) (hts : jp.transUnHandled = []) (now : ℤ) (rand : ℕ) :
    (∃ r, jp.composeEvent keccak now rand = .ok r) ↔ ¬ jp.FrontBlocked := by
  obtain ⟨c, hc⟩ := hready.column
  obtain ⟨i, hi⟩ : ∃ i, jp.queue.head? = some i := by
    refine Option.ne_none_iff_exists'.mp fun hnone => ?_
    have hqueue := hlinked.queue
    simp only [queue, List.head?_eq_none_iff, List.reverse_eq_nil_iff, List.range_eq_nil] at hnone
    omega
  obtain ⟨k, hk⟩ : ∃ k, jp.composePointer c = some k := by
    unfold composePointer
    cases htop : (jp.col c).verTop with
    | none => exact ⟨_, rfl⟩
    | some v =>
      have hnewest : jp.links.top jp.coinbase = some v := by
        simp only [links, hc, Option.bind_some, htop]
      obtain ⟨h, hheld⟩ := hlinked.columnar.top hnewest
      have hlt : v < jp.verts.next := by
        rw [← length_nodes_links]
        exact hlinked.columnar.lt_of_chain hheld
      exact Option.ne_none_iff_exists'.mp (hready.pointer v hlt)
  have hblocked : jp.FrontBlocked ↔
      (jp.round i).bestVertex = none ∧ (jp.round i).ncLocked = true := by
    simp [FrontBlocked, hi]
  have hchoose := exists_chooseOther { jp with cells := jp.cells.alloc jp.currentIdx } i rand
  have hpointer : (JPGraph.composeOn { jp with cells := jp.cells.alloc jp.currentIdx }
      (jp.col c).verTop jp.cells.next).2 = some k := (composeOn_snd ..).trans hk
  rw [hblocked]
  refine Iff.trans ?_ hchoose
  unfold composeEvent
  rw [takeTrans_none (by exact hts)]
  simp only [bind, Except.bind]
  split
  · next d j hd hj =>
    obtain rfl : c = d := Option.some.inj (hc.symm.trans hd)
    obtain rfl : i = j := Option.some.inj (hi.symm.trans hj)
    cases chooseOther { jp with cells := jp.cells.alloc jp.currentIdx } i rand with
    | error stop => simp
    | ok r =>
      have hboth : (JPGraph.composeOn { jp with cells := jp.cells.alloc jp.currentIdx }
        (JPGraph.col { jp with cells := jp.cells.alloc jp.currentIdx } c).verTop
          jp.cells.next).2 = some k := hpointer
      dsimp only
      rw [hboth]
      exact iff_of_true ⟨_, rfl⟩ ⟨_, rfl⟩
  · next hnot => exact absurd hi (hnot c i hc)

/-- An event without transactions is stored whole. -/
theorem storesTrans_of_none (keccak : List UInt8 → Hash) (h : e.trans = []) :
    StoresTrans keccak e := by
  intro jp hlinked ty r hr v hnew hv
  have heffect := addEvent_effect keccak hlinked e ty r hr
  obtain ⟨-, hvertex⟩ := heffect.created hlinked.wf hv hnew
  rw [hvertex.event, copyEvent_eq, h]

end JPGraph

/-- In every state and for all transactions that wait, `ComposeEvent` returns and neither loses nor
duplicates one just when none waits and the lock of the front round is free or not needed. -/
theorem composeEvent_transKept_iff (keccak : List UInt8 → Hash) {coinbase : Address}
    {broadness : ℕ} {moves : List Move} {s : Site}
    (hrun : run (Site.step keccak) (newSite coinbase broadness) moves = .ok s)
    (ts : List (Option Transaction)) (now : ℤ) (rand : ℕ) :
    (∃ r, (s.graph.withPending ts).composeEvent keccak now rand = .ok r ∧
        (s.graph.withPending ts).TransKept keccak r) ↔
      ts = [] ∧ ¬ s.graph.FrontBlocked := by
  have hlinked := Site.linked_of_run hrun
  have hready := Site.ready_of_run hrun
  have hreturns (hts : ts = []) :
      (∃ r, (s.graph.withPending ts).composeEvent keccak now rand = .ok r) ↔
        ¬ s.graph.FrontBlocked := by
    refine JPGraph.exists_composeEvent keccak ?_ ?_ hts now rand
    · exact ⟨⟨hlinked.wf.1, hlinked.wf.2⟩, hlinked.sound, hlinked.columnar, hlinked.waiting,
        hlinked.queue⟩
    · exact ⟨hready.column, hready.pointer⟩
  constructor
  · rintro ⟨r, hr, hkept⟩
    obtain ⟨hnone, -⟩ := (s.graph.withPending ts).composeEvent_trans keccak now rand r hr
    -- Nothing is copied into the event, so nothing may have been there to take.
    have htake : ts.take maxTransInEvent = [] := hkept.taken.symm.trans hnone
    have hts : ts = [] := by simpa [maxTransInEvent] using htake
    exact ⟨hts, (hreturns hts).mp ⟨r, hr⟩⟩
  · rintro ⟨hts, hfree⟩
    obtain ⟨r, hr⟩ := (hreturns hts).mpr hfree
    obtain ⟨hnone, hrest⟩ := (s.graph.withPending ts).composeEvent_trans keccak now rand r hr
    subst hts
    exact ⟨r, hr, ⟨hnone, hrest rfl, JPGraph.storesTrans_of_none keccak hnone⟩⟩

/-- Node `0x0a` has two events and no transactions, and composes another event. -/
theorem composeEvent_transKept_triangle :
    (triangleSite [eventA1, eventB]).graph.verts.next = 2 ∧
      ∃ r, ((triangleSite [eventA1, eventB]).graph.withPending []).composeEvent triangleKeccak 3 0 =
          .ok r ∧
        ((triangleSite [eventA1, eventB]).graph.withPending []).TransKept triangleKeccak r := by
  have hrun : run (Site.step triangleKeccak) (newSite (FixedBytes.ofNat 20 0x0A) 3)
      (arriving [eventA1, eventB]) = .ok (triangleSite [eventA1, eventB]) :=
    run_siteAfter (by decide +kernel)
  exact ⟨by decide +kernel,
    (composeEvent_transKept_iff triangleKeccak hrun [] 3 0).mpr ⟨rfl, by decide +kernel⟩⟩

/-- A new node panics when one transaction waits. -/
theorem not_composeEvent_transKept_one :
    ¬ ∃ r, ((newSite (FixedBytes.ofNat 20 0x0A) 3).graph.withPending [some ⟨⟩]).composeEvent
        triangleKeccak 0 0 = .ok r ∧
      ((newSite (FixedBytes.ofNat 20 0x0A) 3).graph.withPending [some ⟨⟩]).TransKept
        triangleKeccak r := by
  rintro ⟨r, hr, -⟩
  have hpanic : failure (((newSite (FixedBytes.ofNat 20 0x0A) 3).graph.withPending
      [some ⟨⟩]).composeEvent triangleKeccak 0 0) = some .sliceBounds := by
    decide +kernel
  rw [hr] at hpanic
  cases hpanic

end Hashgrid.Core
