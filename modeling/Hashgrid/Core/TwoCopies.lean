import Hashgrid.Core.Deliver
import Hashgrid.Core.WitnessTables

/-!
# Two copies of an event

An event is broadcast as a normal event and again as a witness, and both copies reach
`AddEvent` in any order. A witness copy that comes first is entered by `AddEvent` itself; one
that comes second is passed to `RoundLoop`. This file says when both orders end alike.
-/

namespace Hashgrid.Core

open Hashgrid.Bytes Hashgrid.Machine Hashgrid.Links

variable {e : Event ℤ}

namespace JPGraph

/-- Two copies are delivered one after the other. -/
def deliverBoth (keccak : List UInt8 → Hash) (jp : JPGraph) (copy copy' : Event ℤ × ℕ) :
    Except Stop JPGraph := do
  let jp ← jp.deliver keccak copy
  jp.deliver keccak copy'

/-- The mark of the vertex of an event, and the board: witness tables, number of the newest round,
and complete rounds that were sent. -/
def outcome (e : Event ℤ) (jp : JPGraph) : Option ℕ × Board :=
  ((jp.held e.selfSig.addr e.selfHash).map fun v => (jp.vert v).witness, jp.board)

/-- Both orders of the normal copy and the witness copy end alike. -/
def CopiesCommute (keccak : List UInt8 → Hash) (jp : JPGraph) (e : Event ℤ) : Prop :=
  (jp.deliverBoth keccak (e, Mark.normal) (e, Mark.witness)).map (outcome e) =
    (jp.deliverBoth keccak (e, Mark.witness) (e, Mark.normal)).map (outcome e)

/-- `AddEvent` does not get through with a new event of round `r`: its column has no entry in the
tables, or the lock of the newcomers is held. -/
def Refuses (jp : JPGraph) (e : Event ℤ) (r : ℤ) : Prop :=
  maxNodeCount ≤ jp.numberOf e.selfSig.addr ∨
    ∃ i < jp.rounds.next, jp.searchRound r = some i ∧ (jp.round i).ncLocked = true

instance (jp : JPGraph) (e : Event ℤ) (r : ℤ) : Decidable (jp.Refuses e r) :=
  inferInstanceAs (Decidable (_ ∨ ∃ i, i < _ ∧ _))

/-- Another one of the first witnesses of the round is missing. -/
def LacksOther (jp : JPGraph) (i n : ℕ) : Prop :=
  ∃ k < (jp.round i).broadness, k ≠ n ∧ (jp.round i).witnesses[k]? = some none

instance (jp : JPGraph) (i n : ℕ) : Decidable (jp.LacksOther i n) :=
  inferInstanceAs (Decidable (∃ k, k < _ ∧ _ ∧ _))

/-- The event opens no round. Its round lacks another witness, or there is no such round and the
event is the first of its column. -/
def TriggerIdle (jp : JPGraph) (e : Event ℤ) (r : ℤ) : Prop :=
  r ≠ jp.currentIdx + 1 ∧
    match jp.findRound r with
    | some i => jp.LacksOther i (jp.numberOf e.selfSig.addr)
    | none => jp.newest e.selfSig.addr = none

instance (jp : JPGraph) (e : Event ℤ) (r : ℤ) : Decidable (jp.TriggerIdle e r) :=
  have : Decidable (match jp.findRound r with
      | some i => jp.LacksOther i (jp.numberOf e.selfSig.addr)
      | none => jp.newest e.selfSig.addr = none) :=
    match jp.findRound r with
    | some i => inferInstanceAs (Decidable (jp.LacksOther i _))
    | none => inferInstanceAs (Decidable (_ = none))
  inferInstanceAs (Decidable (_ ∧ _))

/-- The order of the copies does not matter: the event is stored already, or no copy gets through,
or the turn of `RoundLoop` with a late witness copy changes nothing. -/
def OrderIdle (jp : JPGraph) (e : Event ℤ) : Prop :=
  jp.held e.selfSig.addr e.selfHash ≠ none ∨ ∀ r, e.roundID = some r →
    jp.Refuses e r ∨ jp.TriggerIdle e r

/-- Whether the order matters can be checked, as an event has at most one round. -/
theorem orderIdle_iff {jp : JPGraph} :
    (jp.held e.selfSig.addr e.selfHash ≠ none ∨
      (e.roundID.all fun r => decide (jp.Refuses e r ∨ jp.TriggerIdle e r)) = true) ↔
        jp.OrderIdle e := by
  rw [OrderIdle]
  cases e.roundID <;> simp

instance (jp : JPGraph) (e : Event ℤ) : Decidable (jp.OrderIdle e) :=
  decidable_of_iff _ orderIdle_iff

end JPGraph

namespace Site

/-- The entries of the tables are vertices. -/
def EntriesIn (s : Site) : Prop := ∀ i k v, s.graph.entry i k = some v → v < s.graph.verts.next

variable {keccak : List UInt8 → Hash} {s : Site} {v : ℕ} {r : ℤ}

/-- Every move enters vertices only. -/
theorem entriesIn_step (hlinked : Linked s.graph) (h : s.EntriesIn) (m : Move) :
    Ensures (s.step keccak m) EntriesIn := by
  intro s' hs' i k v hv
  cases hadded : s.added m with
  | some x =>
    obtain ⟨jp₀, e₀, hrec, hlinked₀, heffect, -⟩ := step_effect hlinked hadded s' hs'
    have hverts : jp₀.verts = s.graph.verts := hrec.read fun _ _ => by rfl
    have hentry : jp₀.entry i k = s.graph.entry i k :=
      hrec.read (g := fun jp => jp.entry i k) fun _ _ => by rfl
    rcases heffect.entry hlinked₀.wf hv with hold | ⟨rfl, -, hvalid, hmissing, -⟩
    · have hlt := h i k v (hentry ▸ hold)
      rw [← hverts] at hlt
      exact Nat.lt_of_lt_of_le hlt (heffect.next_le hlinked₀.wf)
    · exact heffect.next_new hlinked₀.wf hvalid hmissing
  | none =>
    have hnext : s'.graph.verts.next = s.graph.verts.next := by
      rw [← JPGraph.length_nodes_links, (step_other hadded s' hs').links,
        JPGraph.length_nodes_links]
    rw [hnext]
    cases otherMove hadded hs' with
    | compose now rand r hr heq =>
      obtain ⟨c, j, cell, jp₁, -, -, -, -, hrests, hgraph⟩ :=
        s.graph.composeEvent_spec keccak now rand r hr
      have hentry : s'.graph.entry i k = s.graph.entry i k := by
        rw [heq, hgraph]
        exact hrests.alike.entry i k
      exact h i k v (hentry ▸ hv)
    | roundLoop jp' hjp' heq =>
      obtain ⟨u, rest, cell, -, hcell, hentry⟩ := s.graph.entry_roundTurn jp' hjp'
      rw [heq] at hv
      rcases hentry i k v hv with hold | ⟨-, rfl⟩
      · exact h i k v hold
      · exact JPGraph.lt_of_pointer hcell
    | monitor order r hr heq =>
      have hentry : s'.graph.entry i k = s.graph.entry i k := by
        rw [heq]
        cases monitorStep_effect s.monitor s.graph order r hr with
        | front j _ _ _ hgraph => exact JPGraph.entry_congr (by rw [hgraph]) i k
        | receive j u rest _ _ _ hgraph => exact hgraph.alike.entry i k
        | put u _ _ hgraph => exact JPGraph.entry_congr (by rw [hgraph]) i k
        | mark u _ _ hgraph => exact JPGraph.entry_congr (by rw [hgraph]; rfl) i k
        | trigger u _ _ hgraph => exact JPGraph.entry_congr (by rw [hgraph]; rfl) i k
      exact h i k v (hentry ▸ hv)

theorem entriesIn_newSite (coinbase : Address) (broadness : ℕ) :
    (newSite coinbase broadness).EntriesIn :=
  fun i k v hv => ((tabled_newSite coinbase broadness).witnessed.entry i k v hv).1

/-- The entries are vertices after every run. -/
theorem entriesIn_of_run {coinbase : Address} {broadness : ℕ} {moves : List Move}
    (hrun : run (Site.step keccak) (newSite coinbase broadness) moves = .ok s) : s.EntriesIn := by
  have hstep (s : Site) (m : Move) (h : Linked s.graph ∧ s.EntriesIn) :
      Ensures (s.step keccak m) fun s' => Linked s'.graph ∧ s'.EntriesIn :=
    fun s' hs' => ⟨h.1.step m s' hs', s.entriesIn_step h.1 h.2 m s' hs'⟩
  exact (run_preserves hstep ⟨linked_newSite coinbase broadness,
    entriesIn_newSite coinbase broadness⟩ moves s hrun).2

/-- A normal copy that comes second changes nothing. -/
theorem Settled.outcome_normal_second (h : s.Settled) (hvalid : validateEvent keccak e = true)
    {copy : Event ℤ × ℕ} (hheld : Ensures (s.graph.deliver keccak copy) fun jp =>
      jp.held e.selfSig.addr e.selfHash = some v) :
    (s.graph.deliverBoth keccak copy (e, Mark.normal)).map (JPGraph.outcome e) =
      (s.graph.deliver keccak copy).map (JPGraph.outcome e) := by
  unfold JPGraph.deliverBoth
  cases hfirst : s.graph.deliver keccak copy with
  | error stop => rfl
  | ok jp =>
    have hheld := hheld jp hfirst
    obtain ⟨jp', hjp', hleaves⟩ := (h.deliver copy jp hfirst).deliver_normal hvalid hheld
    have hheld' : jp'.held e.selfSig.addr e.selfHash = some v := by
      change jp'.links.chain e.selfSig.addr e.selfHash = some v
      rw [hleaves.links]
      exact hheld
    have hvert : jp'.vert v = jp.vert v := congrArg (Heap.get · v) hleaves.verts
    have houtcome : JPGraph.outcome e jp' = JPGraph.outcome e jp := by
      simp only [JPGraph.outcome, hheld, hheld', Option.map_some, hvert, hleaves.board]
    change ((jp.deliver keccak (e, Mark.normal)).map (JPGraph.outcome e)) = _
    rw [hjp']
    exact congrArg Except.ok houtcome

/-- A witness copy of a stored event ends with a turn on the board. -/
theorem Settled.outcome_witness (h : s.Settled) (hvalid : validateEvent keccak e = true)
    (hheld : s.graph.held e.selfSig.addr e.selfHash = some v) :
    (s.graph.deliver keccak (e, Mark.witness)).map (JPGraph.outcome e) =
      (s.graph.board.turn Mark.witness (s.graph.roundID v) (s.graph.vert v).seqNum v).map
        fun b => (some Mark.witness, b) := by
  obtain ⟨hboard, hmark⟩ := h.deliver_witness hvalid hheld
  rw [← hboard]
  cases hdeliver : s.graph.deliver keccak (e, Mark.witness) with
  | error stop => rfl
  | ok jp =>
    obtain ⟨hheld', hmark'⟩ := hmark jp hdeliver
    simp only [Except.map, JPGraph.outcome, hheld', Option.map_some, hmark']

/-- Both orders end alike if the event is stored already. -/
theorem Settled.copiesCommute_of_held (h : s.Settled) (hvalid : validateEvent keccak e = true)
    (hheld : s.graph.held e.selfSig.addr e.selfHash = some v) : s.graph.CopiesCommute keccak e := by
  have hsecond : (s.graph.deliverBoth keccak (e, Mark.witness) (e, Mark.normal)).map
      (JPGraph.outcome e) = (s.graph.deliver keccak (e, Mark.witness)).map (JPGraph.outcome e) :=
    h.outcome_normal_second hvalid fun jp hjp => ((h.deliver_witness hvalid hheld).2 jp hjp).1
  obtain ⟨jp, hjp, hleaves⟩ := h.deliver_normal hvalid hheld
  have hheld' : jp.held e.selfSig.addr e.selfHash = some v := by
    change jp.links.chain e.selfSig.addr e.selfHash = some v
    rw [hleaves.links]
    exact hheld
  have hvert : jp.vert v = s.graph.vert v := congrArg (Heap.get · v) hleaves.verts
  have hfirst : s.graph.deliverBoth keccak (e, Mark.normal) (e, Mark.witness) =
      jp.deliver keccak (e, Mark.witness) := by
    simp only [JPGraph.deliverBoth, hjp]
    rfl
  have hturn := (h.deliver (e, Mark.normal) jp hjp).outcome_witness hvalid hheld'
  unfold JPGraph.CopiesCommute
  rw [hsecond, h.outcome_witness hvalid hheld, hfirst, hturn]
  simp only [hleaves.board, hleaves.roundID, hvert]

/-- A column whose number does not fit into the tables has no vertices. -/
theorem newest_eq_none_of_full (h : s.Ranged) {a : Address}
    (hfull : maxNodeCount ≤ s.graph.numberOf a) : s.graph.newest a = none := by
  cases htop : s.graph.newest a with
  | none => rfl
  | some t =>
    obtain ⟨hlt, hnumber⟩ := JPGraph.numberOf_of_newest h.numbered h.linked htop
    have hbelow := h.below t hlt
    omega

/-- Both copies of a new event fail alike, if they are refused. -/
theorem Settled.failure_deliver_eq (h : s.Settled) (hvalid : validateEvent keccak e = true)
    (hmissing : s.graph.held e.selfSig.addr e.selfHash = none) (hr : e.roundID = some r) {i : ℕ}
    (hi : s.graph.searchRound r = some i) (ty : ℕ) :
    failure (s.graph.deliver keccak (e, ty)) =
      if maxNodeCount ≤ s.graph.numberOf e.selfSig.addr then some .indexOutOfRange
      else s.graph.joinFailure (some i) := by
  rw [h.failure_deliver hvalid hmissing hr hi]
  by_cases hfull : maxNodeCount ≤ s.graph.numberOf e.selfSig.addr
  · rw [if_pos hfull, if_pos ⟨Or.inr (newest_eq_none_of_full h.ranged hfull), hfull⟩]
  · rw [if_neg hfull, if_neg fun hboth => hfull hboth.2]

/-- A new event gets through unless it is refused. -/
theorem Settled.failure_deliver_eq_none_iff (h : s.Settled) (hvalid : validateEvent keccak e = true)
    (hmissing : s.graph.held e.selfSig.addr e.selfHash = none) (hr : e.roundID = some r) (ty : ℕ) :
    failure (s.graph.deliver keccak (e, ty)) = none ↔ ¬ s.graph.Refuses e r := by
  obtain ⟨i, hi⟩ := JPGraph.exists_searchRound h.ranged.linked.queue r
  rw [h.failure_deliver_eq hvalid hmissing hr hi]
  have hrefuses : s.graph.Refuses e r ↔
      maxNodeCount ≤ s.graph.numberOf e.selfSig.addr ∨ (s.graph.round i).ncLocked = true := by
    refine or_congr_right ⟨?_, fun hlocked => ⟨i, (JPGraph.index_searchRound hi).1, hi, hlocked⟩⟩
    rintro ⟨j, -, hj, hlocked⟩
    cases hi.symm.trans hj
    exact hlocked
  rw [hrefuses]
  unfold JPGraph.joinFailure
  dsimp only
  split_ifs with hfull hlocked
  · exact iff_of_false (fun h => nomatch h) fun hnot => hnot (Or.inl hfull)
  · exact iff_of_false (fun h => nomatch h) fun hnot => hnot (Or.inr hlocked)
  · exact iff_of_true rfl fun hor => hor.elim hfull hlocked

/-- Both orders end alike if the event is refused. -/
theorem Settled.copiesCommute_of_refuses (h : s.Settled) (hvalid : validateEvent keccak e = true)
    (hmissing : s.graph.held e.selfSig.addr e.selfHash = none) (hr : e.roundID = some r)
    (hrefuses : s.graph.Refuses e r) : s.graph.CopiesCommute keccak e := by
  obtain ⟨i, hi⟩ := JPGraph.exists_searchRound h.ranged.linked.queue r
  have hnone := (h.failure_deliver_eq_none_iff hvalid hmissing hr Mark.normal).not.mpr
    (not_not.mpr hrefuses)
  obtain ⟨stop, hstop⟩ := Option.ne_none_iff_exists'.mp hnone
  have hfail (ty : ℕ) : s.graph.deliver keccak (e, ty) = .error stop := by
    rw [eq_error_iff, h.failure_deliver_eq hvalid hmissing hr hi, ← hstop,
      h.failure_deliver_eq hvalid hmissing hr hi]
  simp only [JPGraph.CopiesCommute, JPGraph.deliverBoth, hfail]
  rfl

/-- Both orders of a new event that gets through end alike just when the turn of `RoundLoop` with
the late witness copy changes nothing. -/
theorem Settled.copiesCommute_iff_triggerIdle (h : s.Settled) (hentries : s.EntriesIn)
    (hvalid : validateEvent keccak e = true)
    (hmissing : s.graph.held e.selfSig.addr e.selfHash = none) (hr : e.roundID = some r)
    (hrefuses : ¬ s.graph.Refuses e r) :
    s.graph.CopiesCommute keccak e ↔ s.graph.TriggerIdle e r := by
  obtain ⟨i, hi⟩ := JPGraph.exists_searchRound h.ranged.linked.queue r
  have hget (ty : ℕ) : ∃ jp, s.graph.deliver keccak (e, ty) = .ok jp :=
    exists_ok_of_failure ((h.failure_deliver_eq_none_iff hvalid hmissing hr ty).mpr hrefuses)
  obtain ⟨jpN, hN⟩ := hget Mark.normal
  obtain ⟨jpW, hW⟩ := hget Mark.witness
  have hfiledN := h.filed hvalid hmissing hr hi Mark.normal jpN hN
  have hfiledW := h.filed hvalid hmissing hr hi Mark.witness jpW hW
  -- The witness copy first: the entry is all that happens.
  have hentersW : s.graph.EntersWitness e Mark.witness := Or.inl rfl
  have hWN : (s.graph.deliverBoth keccak (e, Mark.witness) (e, Mark.normal)).map
      (JPGraph.outcome e) = .ok (some Mark.witness,
        s.graph.board.enter i (s.graph.numberOf e.selfSig.addr) s.graph.verts.next) := by
    have hheld : Ensures (s.graph.deliver keccak (e, Mark.witness)) fun jp =>
        jp.held e.selfSig.addr e.selfHash = some s.graph.verts.next :=
      fun jp hjp => (h.filed hvalid hmissing hr hi Mark.witness jp hjp).held
    rw [h.outcome_normal_second hvalid hheld, hW]
    simp only [Except.map, JPGraph.outcome, hfiledW.held, Option.map_some, hfiledW.witness,
      hfiledW.board, if_pos hentersW]
  -- The witness copy second: `RoundLoop` takes a turn.
  have hentersN : s.graph.EntersWitness e Mark.normal ↔
      s.graph.newest e.selfSig.addr = none := or_iff_right (by decide)
  have hNW : (s.graph.deliverBoth keccak (e, Mark.normal) (e, Mark.witness)).map
      (JPGraph.outcome e) = ((if s.graph.newest e.selfSig.addr = none then
          s.graph.board.enter i (s.graph.numberOf e.selfSig.addr) s.graph.verts.next
        else s.graph.board).turn Mark.witness (some r) (s.graph.numberOf e.selfSig.addr)
          s.graph.verts.next).map fun b => (some Mark.witness, b) := by
    have hfirst : s.graph.deliverBoth keccak (e, Mark.normal) (e, Mark.witness) =
        jpN.deliver keccak (e, Mark.witness) := by
      simp only [JPGraph.deliverBoth, hN]
      rfl
    have hturn := (h.deliver (e, Mark.normal) jpN hN).outcome_witness hvalid hfiledN.held
    rw [hfirst, hturn]
    simp only [hfiledN.board, hfiledN.roundID, hfiledN.seqNum, hentersN, hr]
  unfold JPGraph.CopiesCommute
  rw [hNW, hWN, map_eq_ok_iff (fun b b' hb => (Prod.mk.inj hb).2)]
  have hlt := (JPGraph.index_searchRound hi).1
  have hnext : i < s.graph.board.rows.next := hlt.trans_eq (Heap.next_map ..).symm
  have hrow := s.graph.row_board
  have hlength : s.graph.numberOf e.selfSig.addr < (s.graph.board.row i).witnesses.length := by
    rw [hrow]
    have hfits : ¬ maxNodeCount ≤ s.graph.numberOf e.selfSig.addr :=
      fun hfull => hrefuses (Or.inl hfull)
    exact Nat.lt_of_lt_of_eq (Nat.lt_of_not_le hfits) (h.ranged.tables i hlt).1.symm
  have hnew : (s.graph.board.row i).witnesses[s.graph.numberOf e.selfSig.addr]? ≠
      some (some s.graph.verts.next) := by
    rw [hrow]
    intro hentry
    have hentry : s.graph.entry i (s.graph.numberOf e.selfSig.addr) =
        some s.graph.verts.next := congrArg Option.join hentry
    exact absurd (hentries i _ _ hentry) (lt_irrefl _)
  have hfind (j : ℕ) (hj : s.graph.board.find r = some j) : j = i := by
    rw [JPGraph.find_board] at hj
    have hsearch := JPGraph.searchRound_of_hasRound (JPGraph.hasRound_of_find hj)
    exact Option.some.inj (hj.symm.trans (hsearch.symm.trans hi))
  rw [Board.turn_eq_enter_iff hnext hfind hlength hnew, JPGraph.find_board]
  simp only [hrow]
  rfl

end Site

/-- In every reachable state, after `RoundLoop` has drained its channel, the normal copy and the
witness copy of a valid event end alike in both orders just when the event is stored already, no
copy gets through, or the turn of `RoundLoop` with a late witness copy changes nothing. -/
theorem copiesCommute_iff_orderIdle (keccak : List UInt8 → Hash) {coinbase : Address}
    {broadness : ℕ} {moves : List Move} {s : Site}
    (hrun : run (Site.step keccak) (newSite coinbase broadness) moves = .ok s) {jp : JPGraph}
    (hdrain : s.graph.drain = .ok jp) {e : Event ℤ} (hvalid : validateEvent keccak e = true) :
    jp.CopiesCommute keccak e ↔ jp.OrderIdle e := by
  obtain ⟨⟨turns, hturns⟩, hempty⟩ := Site.run_drain keccak hdrain
  have hreach : run (Site.step keccak) (newSite coinbase broadness) (moves ++ turns) =
      .ok { s with graph := jp } := (run_append hrun turns).trans hturns
  have h : Site.Settled { s with graph := jp } := ⟨Site.ranged_of_run hreach, hempty⟩
  cases hheld : jp.held e.selfSig.addr e.selfHash with
  | some v =>
    refine iff_of_true (h.copiesCommute_of_held hvalid hheld) (Or.inl ?_)
    rw [hheld]
    exact Option.some_ne_none v
  | none =>
    have hidle : jp.OrderIdle e ↔ ∀ r, e.roundID = some r →
        jp.Refuses e r ∨ jp.TriggerIdle e r := or_iff_right (not_not.mpr hheld)
    rw [hidle]
    cases hr : e.roundID with
    | none =>
      refine iff_of_true ?_ fun r hr' => nomatch hr'
      have hfail (ty : ℕ) : jp.deliver keccak (e, ty) = .error .nilDeref :=
        h.deliver_nil hvalid hheld hr ty
      simp only [JPGraph.CopiesCommute, JPGraph.deliverBoth, hfail]
      rfl
    | some r =>
      have hall : (∀ r', some r = some r' → jp.Refuses e r' ∨ jp.TriggerIdle e r') ↔
          jp.Refuses e r ∨ jp.TriggerIdle e r :=
        ⟨fun hall => hall r rfl, fun hor _ hr' => Option.some.inj hr' ▸ hor⟩
      rw [hall]
      by_cases hrefuses : jp.Refuses e r
      · refine iff_of_true ?_ (Or.inl hrefuses)
        exact h.copiesCommute_of_refuses hvalid hheld hr hrefuses
      · rw [or_iff_right hrefuses]
        exact h.copiesCommute_iff_triggerIdle (Site.entriesIn_of_run hreach) hvalid hheld hr
          hrefuses

/-- Node `0x0a` with three peers has `eventA1` and gets `eventB` of the same round. The third
witness is still missing, so both orders end alike. -/
theorem copiesCommute_eventB :
    ((triangleSite [eventA1]).graph.deliverBoth triangleKeccak (eventB, Mark.normal)
        (eventB, Mark.witness)).toOption.isSome = true ∧
      (triangleSite [eventA1]).graph.CopiesCommute triangleKeccak eventB := by
  have hrun : run (Site.step triangleKeccak) (newSite (FixedBytes.ofNat 20 0x0A) 3)
      (arriving [eventA1]) = .ok (triangleSite [eventA1]) := run_siteAfter (by decide +kernel)
  have hempty : (triangleSite [eventA1]).graph.roundTrigger = [] := by decide +kernel
  exact ⟨by decide +kernel, (copiesCommute_iff_orderIdle triangleKeccak hrun
    (JPGraph.drain_nil hempty) (by decide +kernel)).mpr (by decide +kernel)⟩

/-- Copies of `eventB` of round 1 come to node `0x0a`, which has round 0 only. The witness copy
opens round 1 if it comes second, and does not if it comes first. -/
theorem not_copiesCommute_aheadEvent :
    validateEvent triangleKeccak (inRound eventB 1) = true ∧
      ((newSite (FixedBytes.ofNat 20 0x0A) 3).graph.deliverBoth triangleKeccak
        (inRound eventB 1, Mark.normal) (inRound eventB 1, Mark.witness)).toOption.map
          JPGraph.currentIdx = some 1 ∧
      ((newSite (FixedBytes.ofNat 20 0x0A) 3).graph.deliverBoth triangleKeccak
        (inRound eventB 1, Mark.witness) (inRound eventB 1, Mark.normal)).toOption.map
          JPGraph.currentIdx = some 0 ∧
      ¬ (newSite (FixedBytes.ofNat 20 0x0A) 3).graph.CopiesCommute triangleKeccak
        (inRound eventB 1) := by
  refine ⟨by decide +kernel, by decide +kernel, by decide +kernel, fun hcommute => ?_⟩
  have hcurrent := congrArg (fun x => x.toOption.map fun o => o.2.currentIdx) hcommute
  exact absurd hcurrent (by decide +kernel)

end Hashgrid.Core
