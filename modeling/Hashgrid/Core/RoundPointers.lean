import Hashgrid.Core.Retrieve
import Hashgrid.Core.TableEffect

/-!
# Shared round numbers

Events refer to their round number by a pointer, which a copy of an event and the next
event of this node take over. A write through the pointer changes the number for all who
have it. `RoundLoop` means to change the vertex that it works on, `ComposeEvent` the event
that it makes. This file says when they change nothing else.
-/

namespace Hashgrid.Core

open Hashgrid.Bytes Hashgrid.Machine Hashgrid.Links

variable {jp : JPGraph} {keccak : List UInt8 → Hash} {jp' : JPGraph}

namespace JPGraph

/-- The pointer of an event leads to a round number that is there. -/
def PointsIn (jp : JPGraph) (e : Event ℕ) : Prop := ∀ k, e.roundID = some k → k < jp.cells.next

/-- The round number of a vertex. -/
def roundID (jp : JPGraph) (v : ℕ) : Option ℤ := jp.roundOf (jp.vert v).event

theorem lt_of_pointer {v k : ℕ} (h : (jp.vert v).event.roundID = some k) : v < jp.verts.next := by
  by_contra hv
  have hdefault : jp.vert v = default := Heap.get_of_le (by omega)
  rw [hdefault] at h
  cases h

/-- An event reads the same number after a write through another pointer. -/
theorem roundOf_congr {e : Event ℕ}
    (h : ∀ k, e.roundID = some k → jp'.cells.get k = jp.cells.get k) :
    jp'.roundOf e = jp.roundOf e := by
  unfold roundOf
  cases hk : e.roundID with
  | none => rfl
  | some k => exact congrArg some (h k hk)

/-- The newest vertex of this node, if there is one, has the number of the front round. -/
def TopInFront (jp : JPGraph) : Prop :=
  ∀ t < jp.verts.next, jp.newest jp.coinbase = some t →
    ∀ i < jp.rounds.next, jp.queue.head? = some i → jp.roundID t = some ((jp.round i).index : ℤ)

instance (jp : JPGraph) : Decidable jp.TopInFront :=
  inferInstanceAs (Decidable (∀ t, t < _ → _ → ∀ i, i < _ → _ → _))

/-- No other vertex has the pointer of the vertex. -/
def PointsAlone (jp : JPGraph) (v : ℕ) : Prop :=
  ∀ u < jp.verts.next, u ≠ v → (jp.vert u).event.roundID ≠ (jp.vert v).event.roundID

instance (jp : JPGraph) (v : ℕ) : Decidable (jp.PointsAlone v) :=
  inferInstanceAs (Decidable (∀ u, u < _ → _ → _))

/-- When `RoundLoop` is about to raise the number of a local witness, no other vertex has the
pointer of that vertex. -/
def TriggerAlone (jp : JPGraph) : Prop :=
  ∀ v < jp.verts.next, jp.roundTrigger.head? = some v →
    (jp.vert v).witness = Mark.witnessLocal → jp.roundID v = some (jp.currentIdx : ℤ) →
      jp.PointsAlone v

instance (jp : JPGraph) : Decidable jp.TriggerAlone :=
  inferInstanceAs (Decidable (∀ v, v < _ → _ → _ → _ → _))

end JPGraph

namespace Site

/-- The pointers of vertices and of composed events lead to round numbers that are there. -/
structure Pointed (s : Site) : Prop where
  /-- Vertices. -/
  vert : ∀ v, s.graph.PointsIn (s.graph.vert v).event
  /-- Composed events. -/
  composed : ∀ e ∈ s.composed, s.graph.PointsIn e

/-- The move changes the round number of no vertex but the one that `RoundLoop` works on. -/
def KeepsRoundIDs (keccak : List UInt8 → Hash) (s : Site) (m : Move) : Prop :=
  ∀ s', s.step keccak m = .ok s' → ∀ v < s.graph.verts.next,
    s'.graph.roundID v = s.graph.roundID v ∨
      m = .roundLoop ∧ s.graph.roundTrigger.head? = some v

/-- What keeps a move from changing the round numbers of other vertices. -/
def SharesNothing (s : Site) : Move → Prop
  | .compose .. => s.graph.TopInFront
  | .roundLoop => s.graph.TriggerAlone
  | .arrive .. => True
  | .add .. => True
  | .monitor _ => True

instance (s : Site) (m : Move) : Decidable (s.SharesNothing m) :=
  match m with
  | .compose .. => inferInstanceAs (Decidable s.graph.TopInFront)
  | .roundLoop => inferInstanceAs (Decidable s.graph.TriggerAlone)
  | .arrive .. => isTrue trivial
  | .add .. => isTrue trivial
  | .monitor _ => isTrue trivial

end Site

namespace JPGraph

theorem newest_coinbase {c : ℕ} (hc : jp.graph.lookup jp.coinbase = some c) :
    jp.newest jp.coinbase = (jp.col c).verTop := by
  simp only [newest, hc, Option.bind_some]

/-- What `ComposeEvent` writes: the number of the front round, through the pointer of the newest
vertex of this node or through a new one. -/
theorem roundID_composeEvent {now : ℤ} {rand : ℕ} {r : JPGraph × Event ℕ}
    (hpoints : ∀ v, jp.PointsIn (jp.vert v).event) (hr : jp.composeEvent keccak now rand = .ok r) :
    (∀ v < jp.verts.next, r.1.roundID v = jp.roundID v) ↔ jp.TopInFront := by
  obtain ⟨c, i, k, jp₁, hc, hi, hk, -, hrests, hgraph⟩ := jp.composeEvent_spec keccak now rand r hr
  have hevent (v : ℕ) : (r.1.vert v).event = (jp.vert v).event := by
    rw [hgraph]
    exact hrests.alike.event v
  have hcells : r.1.cells =
      (jp.cells.alloc jp.currentIdx).update k fun _ => (jp.round i).index := by
    rw [hgraph]
  have hget {p : ℕ} (hp : p < jp.cells.next) : r.1.cells.get p = jp.cells.get p ∨
      p = k ∧ r.1.cells.get p = (jp.round i).index := by
    rw [hcells]
    refine (Heap.get_update_eq_or _ k p _).imp (fun heq => ?_) id
    exact heq.trans (Heap.get_alloc_of_lt hp _)
  have hilt : i < jp.rounds.next := by
    simpa [queue] using List.mem_of_mem_head? hi
  cases htop : (jp.col c).verTop with
  | none =>
    -- The pointer is new, so no vertex has it.
    have hnew : k = jp.cells.next := by
      rw [composePointer, htop] at hk
      exact (Option.some.inj hk).symm
    refine iff_of_true (fun v _ => ?_) fun t _ ht => ?_
    · unfold roundID
      rw [hevent]
      refine roundOf_congr fun p hp => ?_
      have hplt := hpoints v p hp
      exact (hget hplt).resolve_right fun hpk => absurd hpk.1 (by omega)
    · rw [newest_coinbase hc, htop] at ht
      cases ht
  | some t =>
    have hpk : (jp.vert t).event.roundID = some k := by
      rw [composePointer, htop] at hk
      exact hk
    have htlt := lt_of_pointer hpk
    have hklt := hpoints t k hpk
    have hwritten : r.1.cells.get k = (jp.round i).index := by
      rw [hcells, Heap.get_update_self (by rw [Heap.next_alloc]; omega)]
    have hvalue : jp.roundID t = some ((jp.round i).index : ℤ) ↔
        jp.cells.get k = (jp.round i).index := by
      simp only [roundID, roundOf, hpk, Option.map_some, Option.some.injEq]
    constructor
    · intro hkeeps t' _ ht' i' _ hi'
      rw [newest_coinbase hc, htop] at ht'
      cases ht'
      cases hi.symm.trans hi'
      rw [← hkeeps t htlt, roundID, roundOf, hevent, hpk, Option.map_some, hwritten]
    · intro hfront v _
      have hsame := hvalue.mp (hfront t htlt ((newest_coinbase hc).trans htop) i hilt hi)
      unfold roundID
      rw [hevent]
      refine roundOf_congr fun p hp => ?_
      rcases hget (hpoints v p hp) with heq | ⟨rfl, heq⟩
      · exact heq
      · exact heq.trans hsame.symm

/-- What a turn of `RoundLoop` writes: the number of the round that it opens, through the pointer
of its vertex. -/
theorem roundID_roundTurn (hpoints : ∀ v, jp.PointsIn (jp.vert v).event)
    (hjp' : jp.roundTurn = .ok jp') :
    (∀ u < jp.verts.next, jp'.roundID u = jp.roundID u ∨ jp.roundTrigger.head? = some u) ↔
      jp.TriggerAlone := by
  obtain ⟨v, rest, cell, hq, hcell, hcells', -, hverts, -⟩ := jp.roundTurn_frame jp' hjp'
  have hevent (u : ℕ) : (jp'.vert u).event = (jp.vert u).event :=
    congrArg (fun verts => (Heap.get verts u).event) hverts
  have hhead : jp.roundTrigger.head? = some v := by rw [hq, List.head?_cons]
  have hvlt := lt_of_pointer hcell
  have hclt := hpoints v cell hcell
  have hvalue (x : ℤ) : jp.roundID v = some x ↔ jp.cells.get cell = x := by
    simp only [roundID, roundOf, hcell, Option.map_some, Option.some.injEq]
  -- Numbers stay unless the round is opened through the pointer of a local witness.
  by_cases hlocal : (jp.vert v).witness = Mark.witnessLocal ∧ jp.cells.get cell = jp.currentIdx
  · have hopens : jp.opensRound v cell = true := decide_eq_true (Or.inl hlocal)
    have hcells : jp'.cells = jp.cells.update cell fun _ => (jp.currentIdx : ℤ) + 1 := by
      rw [hcells', turnGraph, if_pos hopens]
      rfl
    have halone : jp.TriggerAlone ↔ jp.PointsAlone v := by
      constructor
      · exact fun h => h v hvlt hhead hlocal.1 ((hvalue _).mpr hlocal.2)
      · intro h v' _ hv' _ _
        cases hhead.symm.trans hv'
        exact h
    rw [halone]
    constructor
    · intro hkeeps u hu huv hsame
      rcases hkeeps u hu with heq | hu'
      · rw [roundID, roundID, roundOf, roundOf, hevent, hsame, hcell, Option.map_some,
          Option.map_some, hcells, Heap.get_update_self hclt, hlocal.2] at heq
        have hnum := Option.some.inj heq
        omega
      · exact huv (Option.some.inj (hu'.symm.trans hhead))
    · intro h u hu
      by_cases huv : u = v
      · exact Or.inr (huv ▸ hhead)
      · left
        unfold roundID
        rw [hevent]
        refine roundOf_congr fun p hp => ?_
        have hpc : p ≠ cell := by
          rintro rfl
          exact h u hu huv (hp.trans hcell.symm)
        rw [hcells, Heap.get_update_ne _ hpc]
  · have hcells (p : ℕ) : jp'.cells.get p = jp.cells.get p := by
      rw [hcells', turnGraph]
      split_ifs with hopens
      · have hcases := of_decide_eq_true hopens
        have hnumber := (hcases.resolve_left hlocal).2
        rcases Heap.get_update_eq_or jp.cells cell p fun _ => (jp.currentIdx : ℤ) + 1 with
          heq | ⟨rfl, heq⟩
        · exact heq
        · exact heq.trans hnumber.symm
      · rfl
    refine iff_of_true (fun u _ => Or.inl ?_) fun v' _ hv' hmark hcurrent => ?_
    · unfold roundID
      rw [hevent]
      exact roundOf_congr fun p _ => hcells p
    · cases hhead.symm.trans hv'
      exact absurd ⟨hmark, (hvalue _).mp hcurrent⟩ hlocal

end JPGraph

namespace Site

variable {s : Site} {e : Event ℤ} {ty : ℕ} {m : Move} {s' : Site}

/-- The pointers stay inside while round numbers are added. -/
theorem Pointed.next (h : s.Pointed) (hcells : s.graph.cells.next ≤ s'.graph.cells.next)
    (hvert : ∀ v, (s'.graph.vert v).event = (s.graph.vert v).event ∨
      s'.graph.PointsIn (s'.graph.vert v).event)
    (hcomposed : ∀ e ∈ s'.composed, e ∈ s.composed ∨ s'.graph.PointsIn e) : s'.Pointed := by
  refine ⟨fun v => ?_, fun e he => ?_⟩
  · rcases hvert v with heq | hin
    · rw [heq]
      exact fun k hk => Nat.lt_of_lt_of_le (h.vert v k hk) hcells
    · exact hin
  · rcases hcomposed e he with hold | hin
    · exact fun k hk => Nat.lt_of_lt_of_le (h.composed e hold k hk) hcells
    · exact hin

/-- A vertex that was created has the pointer of the event that was passed. -/
theorem pointed_of_effect {jp₀ : JPGraph} {e₀ : Event ℕ} (h : s.Pointed)
    (hrec : Received s.graph e jp₀ e₀) (hlinked : Linked jp₀) (hin : jp₀.PointsIn e₀)
    (heffect : JPGraph.AddEffect keccak jp₀ e₀ ty s'.graph) (hcomposed : s'.composed = s.composed) :
    s'.Pointed := by
  have hcells : s'.graph.cells = jp₀.cells := heffect.read fun _ _ _ _ _ _ _ _ _ _ => by rfl
  have hverts : jp₀.verts = s.graph.verts := hrec.read fun _ _ => by rfl
  refine h.next (hcells ▸ hrec.grown) (fun v => ?_) fun e he => Or.inl (hcomposed ▸ he)
  by_cases hold : v < jp₀.verts.next
  · left
    rw [(heffect.kept hlinked.wf hold).event]
    exact congrArg (fun verts => (Heap.get verts v).event) hverts
  · right
    by_cases hv : v < s'.graph.verts.next
    · have hnew := (heffect.created hlinked.wf hv (by omega)).2
      intro k hk
      rw [hnew.event, copyEvent_eq] at hk
      rw [hcells]
      exact hin k hk
    · intro k hk
      exact absurd (JPGraph.lt_of_pointer hk) hv

/-- Passing an event to `AddEvent` keeps pointers inside. -/
theorem pointed_added (hlinked : Linked s.graph) (h : s.Pointed)
    (hadded : s.added m = some (e, ty)) : Ensures (s.step keccak m) Pointed := by
  intro s' hs'
  cases m with
  | compose now rand => cases hadded
  | roundLoop => cases hadded
  | monitor order => cases hadded
  | arrive e' ty' =>
    obtain ⟨jp, hjp, rfl⟩ := exists_of_map_eq_ok hs'
    obtain ⟨r, hr, rfl⟩ := exists_of_map_eq_ok hjp
    have hrec := received_receive s.graph e'
    have hin : (s.graph.receive e').1.PointsIn (s.graph.receive e').2 := by
      intro k hk
      unfold JPGraph.receive at hk ⊢
      cases hround : e'.roundID with
      | none => simp [hround] at hk
      | some x =>
        simp only [hround, Option.some.injEq] at hk ⊢
        rw [← hk, Heap.next_alloc]
        exact Nat.lt_succ_self _
    have hlinked₀ := hrec.linked hlinked
    exact pointed_of_effect h hrec hlinked₀ hin
      (JPGraph.addEvent_effect keccak hlinked₀ _ _ r hr) rfl
  | add i ty' =>
    cases hi : s.composed[i]? with
    | none => simp [added, hi] at hadded
    | some e₀ =>
      simp only [step, hi] at hs'
      obtain ⟨r, hr, rfl⟩ := exists_of_map_eq_ok hs'
      exact pointed_of_effect h (received_valueOf s.graph e₀) hlinked
        (h.composed e₀ (List.mem_of_getElem? hi))
        (JPGraph.addEvent_effect keccak hlinked _ _ r hr) rfl

/-- Passing an event to `AddEvent` changes no round number. -/
theorem roundID_added (hlinked : Linked s.graph) (h : s.Pointed)
    (hadded : s.added m = some (e, ty)) :
    Ensures (s.step keccak m) fun s' => ∀ v < s.graph.verts.next,
      s'.graph.roundID v = s.graph.roundID v := by
  intro s' hs' v hv
  obtain ⟨jp₀, e₀, hrec, hlinked₀, heffect, -⟩ := step_effect hlinked hadded s' hs'
  have hcells : s'.graph.cells = jp₀.cells := heffect.read fun _ _ _ _ _ _ _ _ _ _ => by rfl
  have hverts : jp₀.verts = s.graph.verts := hrec.read fun _ _ => by rfl
  have hevent : (s'.graph.vert v).event = (s.graph.vert v).event := by
    rw [(heffect.kept hlinked₀.wf (hverts ▸ hv)).event]
    exact congrArg (fun verts => (Heap.get verts v).event) hverts
  unfold JPGraph.roundID
  rw [hevent]
  refine JPGraph.roundOf_congr fun k hk => ?_
  rw [hcells]
  exact hrec.cells k (h.vert v k hk)

/-- `MonitorLoop` writes no round number. -/
theorem cells_monitorStep (m : Monitor) (jp : JPGraph) (order : ℕ → List Address) :
    Ensures (m.step jp order) fun r => r.2.cells = jp.cells := by
  intro r hr
  cases monitorStep_effect m jp order r hr with
  | front i _ _ _ hgraph => rw [hgraph]
  | receive i v rest _ _ _ hgraph => exact hgraph.alike.cells
  | put v _ _ hgraph => rw [hgraph]
  | mark v _ _ hgraph =>
    rw [hgraph]
    rfl
  | trigger v _ _ hgraph =>
    rw [hgraph]
    rfl

/-- Every other move keeps pointers inside. -/
theorem pointed_other (h : s.Pointed) (hadded : s.added m = none) :
    Ensures (s.step keccak m) Pointed := by
  intro s' hs'
  have hless := step_other hadded s' hs'
  have hvert (v : ℕ) : (s'.graph.vert v).event = (s.graph.vert v).event ∨
      s'.graph.PointsIn (s'.graph.vert v).event := Or.inl (hless.event v)
  cases otherMove hadded hs' with
  | monitor order r hr heq =>
    have hcells := cells_monitorStep s.monitor s.graph order r hr
    refine h.next ?_ hvert fun e he => Or.inl ?_
    · rw [heq, hcells]
    · rw [heq] at he
      exact he
  | roundLoop jp' hjp' heq =>
    obtain ⟨v, rest, cell, -, -, hcells, -⟩ := s.graph.roundTurn_frame jp' hjp'
    refine h.next ?_ hvert fun e he => Or.inl ?_
    · rw [heq, hcells]
      unfold JPGraph.turnGraph
      split_ifs
      · exact (Heap.next_update ..).ge
      · exact le_rfl
    · rw [heq] at he
      exact he
  | compose now rand r hr heq =>
    obtain ⟨c, i, k, jp₁, -, -, hk, hr₂, -, hgraph⟩ :=
      s.graph.composeEvent_spec keccak now rand r hr
    have hnext : s'.graph.cells.next = s.graph.cells.next + 1 := by
      rw [heq, hgraph]
      exact (Heap.next_update ..).trans (Heap.next_alloc ..)
    have hklt : k ≤ s.graph.cells.next := by
      unfold JPGraph.composePointer at hk
      split at hk
      · exact Nat.le_of_lt (h.vert _ k hk)
      · exact (Option.some.inj hk).ge
    refine h.next (by omega) hvert fun e he => ?_
    rw [heq] at he
    rcases List.mem_append.mp he with hold | hnew
    · exact Or.inl hold
    · right
      intro p hp
      rw [List.mem_singleton.mp hnew, hr₂] at hp
      cases hp
      omega

/-- Every move keeps pointers inside, and keeps the round numbers of other vertices just when they
are not shared. -/
theorem pointed_step (hlinked : Linked s.graph) (h : s.Pointed) (m : Move) :
    Ensures (s.step keccak m) fun s' =>
      s'.Pointed ∧ (s.KeepsRoundIDs keccak m ↔ s.SharesNothing m) := by
  intro s' hs'
  have hkeeps : s.KeepsRoundIDs keccak m ↔ ∀ v < s.graph.verts.next,
      s'.graph.roundID v = s.graph.roundID v ∨
        m = .roundLoop ∧ s.graph.roundTrigger.head? = some v := by
    constructor
    · exact fun hall => hall s' hs'
    · intro hall s'' hs''
      obtain rfl : s'' = s' := Except.ok.inj (hs''.symm.trans hs')
      exact hall
  rw [hkeeps]
  cases hadded : s.added m with
  | some x =>
    refine ⟨pointed_added hlinked h hadded s' hs', iff_of_true (fun v hv => Or.inl ?_) ?_⟩
    · exact roundID_added hlinked h hadded s' hs' v hv
    · cases m with
      | arrive e ty => trivial
      | add i ty => trivial
      | compose now rand => cases hadded
      | roundLoop => cases hadded
      | monitor order => cases hadded
  | none =>
    refine ⟨pointed_other h hadded s' hs', ?_⟩
    cases otherMove hadded hs' with
    | monitor order r hr heq =>
      have hless := step_other hadded s' hs'
      have hcells : s'.graph.cells = s.graph.cells := by
        rw [heq]
        exact cells_monitorStep s.monitor s.graph order r hr
      refine iff_of_true (fun v _ => Or.inl ?_) trivial
      simp only [JPGraph.roundID, JPGraph.roundOf, hless.event, hcells]
    | roundLoop jp' hjp' heq =>
      simp only [true_and]
      rw [heq]
      exact JPGraph.roundID_roundTurn h.vert hjp'
    | compose now rand r hr heq =>
      simp only [reduceCtorEq, false_and, or_false]
      rw [heq]
      exact JPGraph.roundID_composeEvent h.vert hr

end Site

theorem Site.pointed_newSite (coinbase : Address) (broadness : ℕ) :
    (newSite coinbase broadness).Pointed := by
  refine ⟨fun v k hk => ?_, fun e he => nomatch he⟩
  exact absurd (JPGraph.lt_of_pointer hk) (Nat.not_lt_zero v)

/-- In every run of `AddEvent`, `ComposeEvent`, `RoundLoop` and `MonitorLoop`, the round numbers of
vertices change only when `RoundLoop` works on that vertex, just when no event is composed while
the newest vertex of this node has another number than the front round, and no local witness that
opens a round shares its pointer. -/
theorem keepsRoundIDs_iff_sharesNothing (keccak : List UInt8 → Hash) {coinbase : Address}
    {broadness : ℕ} {moves : List Move} {s : Site}
    (hrun : run (Site.step keccak) (newSite coinbase broadness) moves = .ok s) :
    Meets (Site.step keccak) (Site.KeepsRoundIDs keccak) (newSite coinbase broadness) moves ↔
      Meets (Site.step keccak) Site.SharesNothing (newSite coinbase broadness) moves := by
  have hstep (s : Site) (m : Move) (h : Site.Linked s.graph ∧ s.Pointed) (_ : True) :
      Ensures (s.step keccak m) fun s' => (Site.Linked s'.graph ∧ s'.Pointed) ∧
        (s.KeepsRoundIDs keccak m ↔ s.SharesNothing m) := by
    intro s' hs'
    obtain ⟨hpointed, hiff⟩ := s.pointed_step h.1 h.2 m s' hs'
    exact ⟨⟨h.1.step m s' hs', hpointed⟩, hiff⟩
  exact meets_iff hstep ⟨Site.linked_newSite coinbase broadness,
    Site.pointed_newSite coinbase broadness⟩ (meets_true _ _) hrun

/-- Node `0x0a` composes and adds `eventA1`, gets `eventB` of round 1 as a normal event and as a
witness, and opens round 1. -/
def aheadMoves : List Move :=
  [.compose 1 0, .add 0 Mark.normal, .arrive (inRound eventB 1) Mark.normal,
    .arrive (inRound eventB 1) Mark.witness, .roundLoop]

/-- Node `0x0a` after these moves. -/
def aheadSite : Site := siteAfter triangleKeccak (FixedBytes.ofNat 20 0x0A) 3 aheadMoves

/-- Up to here, nothing is shared. -/
theorem keepsRoundIDs_aheadMoves :
    Meets (Site.step triangleKeccak) (Site.KeepsRoundIDs triangleKeccak)
      (newSite (FixedBytes.ofNat 20 0x0A) 3) aheadMoves := by
  have hrun : run (Site.step triangleKeccak) (newSite (FixedBytes.ofNat 20 0x0A) 3) aheadMoves =
      .ok aheadSite := run_siteAfter (by decide +kernel)
  exact (keepsRoundIDs_iff_sharesNothing triangleKeccak hrun).mpr (by decide +kernel)

/-- Node `0x0a` after it has composed another event. -/
def composedSite : Site :=
  siteAfter triangleKeccak (FixedBytes.ofNat 20 0x0A) 3 (aheadMoves ++ [.compose 2 0])

/-- Composing the next event raises the round number of `eventA1`, which is vertex 0. -/
theorem not_keepsRoundIDs_compose :
    run (Site.step triangleKeccak) (newSite (FixedBytes.ofNat 20 0x0A) 3)
        (aheadMoves ++ [.compose 2 0]) = .ok composedSite ∧
      (aheadSite.graph.vert 0).event.selfHash = eventA1.selfHash ∧
      aheadSite.graph.roundID 0 = some 0 ∧ composedSite.graph.roundID 0 = some 1 ∧
      ¬ Meets (Site.step triangleKeccak) (Site.KeepsRoundIDs triangleKeccak)
        (newSite (FixedBytes.ofNat 20 0x0A) 3) (aheadMoves ++ [.compose 2 0]) := by
  have hahead : run (Site.step triangleKeccak) (newSite (FixedBytes.ofNat 20 0x0A) 3) aheadMoves =
      .ok aheadSite := run_siteAfter (by decide +kernel)
  have hrun : run (Site.step triangleKeccak) (newSite (FixedBytes.ofNat 20 0x0A) 3)
      (aheadMoves ++ [.compose 2 0]) = .ok composedSite := run_siteAfter (by decide +kernel)
  have hbefore : aheadSite.graph.roundID 0 = some 0 := by decide +kernel
  have hafter : composedSite.graph.roundID 0 = some 1 := by decide +kernel
  refine ⟨hrun, by decide +kernel, hbefore, hafter, fun hmeets => ?_⟩
  have hstep : aheadSite.step triangleKeccak (.compose 2 0) = .ok composedSite :=
    (run_singleton _ _).symm.trans ((run_append hahead _).symm.trans hrun)
  rcases (hmeets.of_append hahead).1 _ hstep 0 (by decide +kernel) with hsame | ⟨hloop, -⟩
  · rw [hbefore, hafter] at hsame
    exact absurd hsame (by decide)
  · cases hloop

end Hashgrid.Core
