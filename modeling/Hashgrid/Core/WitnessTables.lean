import Hashgrid.Core.Numbers
import Hashgrid.Core.Retrieve
import Hashgrid.Core.TableEffect

/-!
# Witness tables

`AddEvent` and `RoundLoop` both write the witness tables, with two searches for the round.
The entries are always marked vertices of the right column. They stand in the round that
their `RoundID` names just when every event that `AddEvent` enters as a witness comes
after its round was opened.
-/

namespace Hashgrid.Core

open Hashgrid.Bytes Hashgrid.Machine Hashgrid.Links

/-- The move is a step of `MonitorLoop`. -/
def Move.isMonitor : Move → Bool
  | .monitor _ => true
  | _ => false

variable {keccak : List UInt8 → Hash} {ty : ℕ}

namespace JPGraph

/-- The entries of the tables are witnesses with the number of the entry, and `RoundLoop` gets
witnesses only. -/
structure Witnessed (jp : JPGraph) : Prop where
  /-- The entries. -/
  entry : ∀ i k v, jp.entry i k = some v →
    v < jp.verts.next ∧ (jp.vert v).seqNum = k ∧ (jp.vert v).witness = Mark.witness
  /-- The channel of `RoundLoop`. -/
  trigger : ∀ v ∈ jp.roundTrigger, v < jp.verts.next ∧ (jp.vert v).witness = Mark.witness

variable {jp jp' : JPGraph}

/-- What a step has to keep: vertices stay, with their numbers and the mark of a witness, and what
is new in the tables and in the channel is a witness. -/
theorem Witnessed.next (h : jp.Witnessed) (hnext : jp.verts.next ≤ jp'.verts.next)
    (hseq : ∀ v < jp.verts.next, (jp'.vert v).seqNum = (jp.vert v).seqNum)
    (hmark : ∀ v < jp.verts.next, (jp'.vert v).witness = (jp.vert v).witness ∨
      (jp'.vert v).witness = Mark.witness)
    (hentry : ∀ i k v, jp'.entry i k = some v → jp.entry i k = some v ∨
      v < jp'.verts.next ∧ (jp'.vert v).seqNum = k ∧ (jp'.vert v).witness = Mark.witness)
    (htrigger : ∀ v ∈ jp'.roundTrigger, v ∈ jp.roundTrigger ∨
      v < jp'.verts.next ∧ (jp'.vert v).witness = Mark.witness) : jp'.Witnessed := by
  have hkept {v : ℕ} (hv : v < jp.verts.next) (hw : (jp.vert v).witness = Mark.witness) :
      (jp'.vert v).witness = Mark.witness := (hmark v hv).elim (fun heq => heq.trans hw) id
  refine ⟨fun i k v hv => ?_, fun v hv => ?_⟩
  · rcases hentry i k v hv with hold | hnew
    · obtain ⟨hlt, hk, hw⟩ := h.entry i k v hold
      exact ⟨Nat.lt_of_lt_of_le hlt hnext, (hseq v hlt).trans hk, hkept hlt hw⟩
    · exact hnew
  · rcases htrigger v hv with hold | hnew
    · obtain ⟨hlt, hw⟩ := h.trigger v hold
      exact ⟨Nat.lt_of_lt_of_le hlt hnext, hkept hlt hw⟩
    · exact hnew

/-- `AddEvent` enters witnesses. -/
theorem Witnessed.addEffect {e : Event ℕ} (h : jp.Witnessed) (hlinked : Site.Linked jp)
    (heffect : AddEffect keccak jp e ty jp') : jp'.Witnessed := by
  have hkept {v : ℕ} (hv : v < jp.verts.next) := heffect.kept hlinked.wf hv
  have hnext := heffect.next_le hlinked.wf
  refine h.next hnext (fun v hv => (hkept hv).seqNum) (fun v hv => (hkept hv).witness)
    (fun i k v hv => ?_) fun v hv => ?_
  · rcases heffect.entry hlinked.wf hv with hold | ⟨rfl, rfl, hvalid, hmissing, henters, -⟩
    · exact Or.inl hold
    · have hlt := heffect.next_new hlinked.wf hvalid hmissing
      obtain ⟨-, hvert⟩ := heffect.created hlinked.wf hlt le_rfl
      refine Or.inr ⟨hlt, hvert.seqNum, ?_⟩
      rw [hvert.witness, if_pos henters]
  · rcases heffect.trigger hlinked hv with hold | ⟨hlt, hmark⟩
    · exact Or.inl hold
    · exact Or.inr ⟨Nat.lt_of_lt_of_le hlt hnext, hmark⟩

/-- A turn of `RoundLoop` enters what it gets. -/
theorem Witnessed.roundTurn (h : jp.Witnessed) : Ensures jp.roundTurn Witnessed := by
  intro jp' hjp'
  obtain ⟨v, rest, cell, hq, -, hentry⟩ := jp.entry_roundTurn jp' hjp'
  obtain ⟨v', rest', cell', hq', -, -, htrigger, hverts, -⟩ := jp.roundTurn_frame jp' hjp'
  obtain ⟨rfl, rfl⟩ := List.cons.inj (hq.symm.trans hq')
  have hrest : ∀ u ∈ rest, u ∈ jp.roundTrigger := fun u hu => hq ▸ List.mem_cons_of_mem v hu
  obtain ⟨hlt, hmark⟩ := h.trigger v (hq ▸ List.mem_cons_self)
  have hvert (u : ℕ) : jp'.vert u = jp.vert u := congrArg (Heap.get · u) hverts
  refine h.next (by rw [hverts]) (fun u _ => by rw [hvert])
    (fun u _ => by rw [hvert]; exact Or.inl rfl) (fun i k u hu => ?_)
    fun u hu => Or.inl (hrest u (htrigger ▸ hu))
  rcases hentry i k u hu with hold | ⟨rfl, rfl⟩
  · exact Or.inl hold
  · refine Or.inr ⟨by rw [hverts]; exact hlt, by rw [hvert], ?_⟩
    rw [hvert]
    exact hmark

/-- The entries of the tables are marked as witnesses and stand in the column with the number of
the entry. -/
def EntriesMarked (jp : JPGraph) : Prop :=
  ∀ i k v, jp.entry i k = some v → (jp.vert v).witness = Mark.witness ∧
    ∃ a c h, jp.graph.lookup a = some c ∧ (jp.col c).hashChain.lookup h = some v ∧
      (jp.col c).seqNum = k

/-- Entries are vertices of columns. -/
theorem Witnessed.entriesMarked (h : jp.Witnessed) (hlinked : Site.Linked jp) (hnum : jp.Numbered) :
    jp.EntriesMarked := by
  intro i k v hv
  obtain ⟨hlt, hk, hmark⟩ := h.entry i k v hv
  obtain ⟨c, hc, hlook⟩ :=
    Option.bind_eq_some_iff.mp (hlinked.columnar.held v _ (nodes_links_of_lt hlt))
  exact ⟨hmark, _, c, _, hc, hlook, (hnum.vert v hlt c hc).symm.trans hk⟩

end JPGraph

namespace Site

/-- What the tables need to be right. -/
structure Tabled (s : Site) : Prop where
  /-- Columns and links are in order. -/
  linked : Linked s.graph
  /-- Columns are numbered. -/
  numbered : s.graph.Numbered
  /-- The tables hold witnesses. -/
  witnessed : s.graph.Witnessed

/-- The entries that a move makes stand in the round that the vertex names by then. -/
def EntersRight (keccak : List UInt8 → Hash) (s : Site) (m : Move) : Prop :=
  ∀ s', s.step keccak m = .ok s' → ∀ i k v, s'.graph.entry i k = some v →
    s.graph.entry i k ≠ some v →
      s'.graph.roundOf (s'.graph.vert v).event = some ((s'.graph.round i).index : ℤ)

/-- A new event that is entered as a witness finds its round in the queue. -/
def FindsRound (keccak : List UInt8 → Hash) (s : Site) (m : Move) : Prop :=
  s.AddsOnly m fun e ty => s.graph.Creates keccak e → s.graph.EntersWitness e ty →
    ∃ i < s.graph.rounds.next, e.roundID = some ((s.graph.round i).index : ℤ)

instance (keccak : List UInt8 → Hash) (s : Site) (m : Move) : Decidable (s.FindsRound keccak m) :=
  inferInstanceAs (Decidable (s.AddsOnly m fun _ _ => _ → _ → ∃ i, i < _ ∧ _))

variable {m : Move} {s : Site}

/-- `RoundLoop` and `ComposeEvent` make no wrong entries. -/
theorem entersRight_other (hm : m.isMonitor = false) (hadded : s.added m = none) :
    s.EntersRight keccak m := by
  intro s' hs' i k v hv hnew
  cases otherMove hadded hs' with
  | monitor order r hr heq => cases hm
  | compose now rand r hr heq =>
    obtain ⟨c, j, cell, jp₁, -, -, -, -, hrests, hgraph⟩ :=
      s.graph.composeEvent_spec keccak now rand r hr
    have hentry : r.1.entry i k = s.graph.entry i k := by
      rw [hgraph]
      exact hrests.alike.entry i k
    rw [heq] at hv
    exact absurd (hentry.symm.trans hv) hnew
  | roundLoop jp' hjp' heq =>
    obtain ⟨u, rest, cell, -, hcell, hturn⟩ := s.graph.roundTurn_spec jp' hjp'
    subst heq
    rcases hturn with ⟨-, rfl⟩ | ⟨j, complete, hfind, hlt, -, rfl⟩
    · exact absurd ((s.graph.entry_turnGraph u cell i k).symm.trans hv) hnew
    · have hset : ((s.graph.turnGraph u cell).setWitness j (s.graph.vert u).seqNum u).entry i k =
          some v := hv
      rcases JPGraph.entry_setWitness hset with hold | ⟨rfl, -, rfl⟩
      · exact absurd ((s.graph.entry_turnGraph u cell i k).symm.trans hold) hnew
      · have hevent : ((s.graph.turnGraph v cell).vert v).event = (s.graph.vert v).event := by
          unfold JPGraph.turnGraph
          split_ifs <;> rfl
        have hindex := (s.graph.turnGraph v cell).index_setWitness i (s.graph.vert v).seqNum v i
        have hvalue : (s.graph.turnGraph v cell).roundOf ((s.graph.turnGraph v cell).vert v).event =
            some (((s.graph.turnGraph v cell).round i).index : ℤ) := by
          rw [hevent, JPGraph.roundOf, hcell, (JPGraph.findRound_eq_some hfind).2]
          rfl
        refine hvalue.trans ?_
        exact congrArg (fun n : ℕ => some (n : ℤ)) hindex.symm

/-- The entry that `AddEvent` makes for a new event is right just when the queue has its round. -/
theorem entersRight_added {s' : Site} (h : s.Tabled) {e : Event ℤ}
    (hadded : s.added m = some (e, ty)) (hs' : s.step keccak m = .ok s') :
    s.EntersRight keccak m ↔ s.FindsRound keccak m := by
  obtain ⟨jp₀, e₀, hrec, hlinked, heffect, -⟩ := step_effect h.linked hadded s' hs'
  have hfinds : s.FindsRound keccak m ↔ (s.graph.Creates keccak e → s.graph.EntersWitness e ty →
      ∃ i < s.graph.rounds.next, e.roundID = some ((s.graph.round i).index : ℤ)) :=
    addsOnly_iff hadded _
  rw [hfinds]
  have hentry (i k : ℕ) : jp₀.entry i k = s.graph.entry i k := by
    rw [hrec.rest]
    rfl
  have hround (x : ℤ) : jp₀.HasRound x ↔ s.graph.HasRound x := by
    rw [hrec.rest]
    rfl
  have henters := hrec.entersWitness ty
  have hheld := hrec.held
  have hindex (i : ℕ) : (s'.graph.round i).index = (jp₀.round i).index :=
    heffect.round (g := Round.index) (fun _ => by rfl) (fun _ _ _ => by rfl) hlinked.wf i
  have hcells : s'.graph.cells = jp₀.cells := heffect.read fun _ _ _ _ _ _ _ _ _ _ => by rfl
  -- The round number of the new vertex.
  have hvalue (hvalid : validateEvent keccak e₀ = true)
      (hmissing : jp₀.held e₀.selfSig.addr e₀.selfHash = none) :
      s'.graph.roundOf (s'.graph.vert jp₀.verts.next).event = e.roundID := by
    rw [heffect.event_new hlinked.wf hvalid hmissing, ← hrec.value]
    simp only [JPGraph.roundOf, copyEvent_eq, hcells]
  constructor
  · rintro hright ⟨hvalid, hmissing⟩ hent
    have hvalid₀ := (hrec.validate keccak).trans hvalid
    obtain ⟨x, i, hx, hi, hnew⟩ := heffect.entry_new hlinked.wf hvalid₀ (hheld.trans hmissing)
      (henters.mpr hent)
    have hold : s.graph.entry i (jp₀.numberOf e₀.selfSig.addr) ≠ some jp₀.verts.next := by
      intro hold
      have hlt := (h.witnessed.entry i _ _ hold).1
      have hverts : jp₀.verts = s.graph.verts := hrec.read fun _ _ => by rfl
      rw [hverts] at hlt
      exact absurd hlt (lt_irrefl _)
    have hright := hright s' hs' i _ _ hnew hold
    rw [hvalue hvalid₀ (hheld.trans hmissing), hindex] at hright
    have hx' : e.roundID = some x := hrec.value.symm.trans hx
    have hindex' : ((jp₀.round i).index : ℤ) = x := Option.some.inj (hright.symm.trans hx')
    obtain ⟨j, hj, hxj⟩ := (hround x).mp ((JPGraph.index_searchRound hi).2.mp hindex')
    exact ⟨j, hj, hx'.trans (congrArg some hxj)⟩
  · intro hround' s'' hs'' i k v hv hnew
    obtain rfl : s'' = s' := Except.ok.inj (hs''.symm.trans hs')
    rcases heffect.entry hlinked.wf hv with hold |
      ⟨rfl, -, hvalid, hmissing, hent, x, hx, hi⟩
    · exact absurd ((hentry i k).symm.trans hold) hnew
    · have hx' : e.roundID = some x := hrec.value.symm.trans hx
      have hcreates : s.graph.Creates keccak e :=
        ⟨(hrec.validate keccak).symm.trans hvalid, hheld.symm.trans hmissing⟩
      obtain ⟨j, hj, hxj⟩ := hround' hcreates (henters.mp hent)
      have hhas : s.graph.HasRound x := ⟨j, hj, Option.some.inj (hx'.symm.trans hxj)⟩
      rw [hvalue hvalid hmissing, hindex, hx',
        (JPGraph.index_searchRound hi).2.mpr ((hround x).mpr hhas)]

/-- Every move but those of `MonitorLoop` keeps the tables in order, and makes right entries just
when a new witness finds its round. -/
theorem tabled_step (h : s.Tabled) (hm : m.isMonitor = false) : Ensures (s.step keccak m) fun s' =>
      s'.Tabled ∧ (s.EntersRight keccak m ↔ s.FindsRound keccak m) := by
  intro s' hs'
  have hlinked := h.linked.step m s' hs'
  have hnum := s.numbered_step h.linked h.numbered m s' hs'
  cases hadded : s.added m with
  | some x =>
    obtain ⟨jp₀, e₀, hrec, hlinked₀, heffect, -⟩ := step_effect h.linked hadded s' hs'
    have h₀ : jp₀.Witnessed := by
      rw [hrec.rest]
      exact ⟨h.witnessed.entry, h.witnessed.trigger⟩
    exact ⟨⟨hlinked, hnum, h₀.addEffect hlinked₀ heffect⟩, s.entersRight_added h hadded hs'⟩
  | none =>
    refine ⟨⟨hlinked, hnum, ?_⟩, iff_of_true (entersRight_other hm hadded) ?_⟩
    · cases otherMove hadded hs' with
      | monitor order r hr heq => cases hm
      | roundLoop jp' hjp' heq =>
        rw [heq]
        exact h.witnessed.roundTurn jp' hjp'
      | compose now rand r hr heq =>
        obtain ⟨c, j, cell, jp₁, -, -, -, -, hrests, hgraph⟩ :=
          s.graph.composeEvent_spec keccak now rand r hr
        have halike := hrests.alike
        have h₁ : jp₁.Witnessed := h.witnessed.next halike.next.ge (fun v _ => halike.seqNum v)
          (fun v _ => Or.inl (halike.witness v))
          (fun i k v hv => Or.inl ((halike.entry i k).symm.trans hv))
          (fun v hv => Or.inl (halike.roundTrigger ▸ hv))
        rw [heq, hgraph]
        exact ⟨h₁.entry, h₁.trigger⟩
    · exact addsOnly_of_none hadded _

/-- A new graph has empty tables. -/
theorem tabled_newSite (coinbase : Address) (broadness : ℕ) :
    (newSite coinbase broadness).Tabled := by
  refine ⟨linked_newSite coinbase broadness, numbered_newSite coinbase broadness,
    fun i k v hv => ?_, fun v hv => nomatch hv⟩
  have hempty : (newSite coinbase broadness).graph.entry i k = none := by
    cases i with
    | zero =>
      change ((List.replicate maxNodeCount (none : Option ℕ))[k]?).join = none
      rw [List.getElem?_replicate]
      split_ifs <;> rfl
    | succ i => rfl
  rw [hempty] at hv
  cases hv

end Site

/-- After every run of `AddEvent`, `ComposeEvent` and `RoundLoop`, the entries of the witness
tables are marked vertices of the right column. All of them were stored in the round that their
`RoundID` named at that time just when every new event that was entered as a witness found its
round in the queue. -/
theorem entersRight_iff_findsRound (keccak : List UInt8 → Hash) {coinbase : Address}
    {broadness : ℕ} {moves : List Move} {s : Site} (hmoves : ∀ m ∈ moves, m.isMonitor = false)
    (hrun : run (Site.step keccak) (newSite coinbase broadness) moves = .ok s) :
    s.graph.EntriesMarked ∧
      (Meets (Site.step keccak) (Site.EntersRight keccak) (newSite coinbase broadness) moves ↔
        Meets (Site.step keccak) (Site.FindsRound keccak) (newSite coinbase broadness) moves) := by
  have hstep (s : Site) (m : Move) (h : s.Tabled) (hm : m.isMonitor = false) :
      Ensures (s.step keccak m) fun s' =>
        s'.Tabled ∧ (s.EntersRight keccak m ↔ s.FindsRound keccak m) := s.tabled_step h hm
  have hinit := Site.tabled_newSite coinbase broadness
  have hmeets : Meets (Site.step keccak) (fun _ m => Move.isMonitor m = false)
      (newSite coinbase broadness) moves := meets_of_mem hmoves
  have htabled : s.Tabled :=
    run_invariant (fun s m h hm s' hs' => (hstep s m h hm s' hs').1) hinit hmeets s hrun
  exact ⟨htabled.witnessed.entriesMarked htabled.linked htabled.numbered,
    meets_iff hstep hinit hmeets hrun⟩

/-- Node `0x0a` gets `eventB` as a normal event and as a witness. -/
def twoCopies : List Move := [.arrive eventB Mark.normal, .arrive eventB Mark.witness, .roundLoop]

/-- With `RoundID` zero, `eventB` finds its round. -/
theorem entersRight_twoCopies :
    (siteAfter triangleKeccak (FixedBytes.ofNat 20 0x0A) 3 twoCopies).graph.entry 0 1 = some 0 ∧
      (siteAfter triangleKeccak (FixedBytes.ofNat 20 0x0A) 3 twoCopies).graph.EntriesMarked ∧
      Meets (Site.step triangleKeccak) (Site.EntersRight triangleKeccak)
        (newSite (FixedBytes.ofNat 20 0x0A) 3) twoCopies := by
  have hrun : run (Site.step triangleKeccak) (newSite (FixedBytes.ofNat 20 0x0A) 3) twoCopies =
      .ok (siteAfter triangleKeccak (FixedBytes.ofNat 20 0x0A) 3 twoCopies) :=
    run_siteAfter (by decide +kernel)
  have hright := entersRight_iff_findsRound triangleKeccak (by decide) hrun
  exact ⟨by decide +kernel, hright.1, hright.2.mpr (by decide +kernel)⟩

/-- A copy of `eventB` of round 7, the first event of its creator, comes to node `0x0a`, which has
round 0 only. It is entered in the table of round 0. -/
theorem not_entersRight_aheadEvent :
    validateEvent triangleKeccak (inRound eventB 7) = true ∧
      run (Site.step triangleKeccak) (newSite (FixedBytes.ofNat 20 0x0A) 3)
        (arriving [inRound eventB 7]) = .ok (triangleSite [inRound eventB 7]) ∧
      (triangleSite [inRound eventB 7]).graph.entry 0 1 = some 0 ∧
      ((triangleSite [inRound eventB 7]).graph.round 0).index = 0 ∧
      (triangleSite [inRound eventB 7]).graph.roundOf
        ((triangleSite [inRound eventB 7]).graph.vert 0).event = some 7 ∧
      ¬ Meets (Site.step triangleKeccak) (Site.EntersRight triangleKeccak)
        (newSite (FixedBytes.ofNat 20 0x0A) 3) (arriving [inRound eventB 7]) := by
  have hrun : run (Site.step triangleKeccak) (newSite (FixedBytes.ofNat 20 0x0A) 3)
      (arriving [inRound eventB 7]) = .ok (triangleSite [inRound eventB 7]) :=
    run_siteAfter (by decide +kernel)
  refine ⟨by decide +kernel, hrun, by decide +kernel, by decide +kernel, by decide +kernel,
    fun hmeets => ?_⟩
  have hright := hmeets.1 _ ((run_singleton _ _).symm.trans hrun) 0 1 0 (by decide +kernel)
    (by decide +kernel)
  exact absurd hright (by decide +kernel)

end Hashgrid.Core
