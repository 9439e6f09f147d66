import Hashgrid.Core.TableRange

/-!
# Indices stay in range

The conditions under which no run indexes a witness table or a trace out of range, and a
run of valid events that does.
-/

namespace Hashgrid.Core

open Hashgrid.Bytes Hashgrid.Machine Hashgrid.Links

variable {keccak : List UInt8 → Hash} {s : Site} {e : Event ℤ}

namespace Site

/-- What keeps indices in range. -/
structure Ranged (s : Site) : Prop where
  /-- Columns and links are in order. -/
  linked : Linked s.graph
  /-- Columns are numbered. -/
  numbered : s.graph.Numbered
  /-- `MonitorLoop` gets vertices that are there. -/
  firstMarked : s.FirstMarked
  /-- Pointers lead to round numbers that are there. -/
  pointed : s.Pointed
  /-- The numbers of vertices fit into the tables. -/
  below : s.graph.NumbersBelow maxNodeCount
  /-- The tables have their sizes. -/
  tables : s.graph.TablesSized
  /-- `MonitorLoop` works on a round of the queue. -/
  front : ∀ i, s.monitor.pc = .receive i → i < s.graph.rounds.next

/-- The loops stay in range with more than `MaxNodeCount` peers. -/
def LoopsInRange (s : Site) : Move → Prop
  | .roundLoop => s.graph.TriggerIncomplete
  | .monitor _ => s.graph.broadness ≠ s.graph.size
  | .arrive .. => True
  | .add .. => True
  | .compose .. => True

instance (s : Site) (m : Move) : Decidable (s.LoopsInRange m) :=
  match m with
  | .roundLoop => inferInstanceAs (Decidable s.graph.TriggerIncomplete)
  | .monitor _ => inferInstanceAs (Decidable (s.graph.broadness ≠ s.graph.size))
  | .arrive .. => isTrue trivial
  | .add .. => isTrue trivial
  | .compose .. => isTrue trivial

/-- A new witness has a column number below `MaxNodeCount`. If there are more than `MaxNodeCount`
peers, `RoundLoop` works on a round that misses another witness, and `MonitorLoop` only works
while the number of columns is not that of the peers. -/
def StaysInRange (keccak : List UInt8 → Hash) (s : Site) (m : Move) : Prop :=
  (s.AddsOnly m fun e ty => s.graph.Creates keccak e → s.graph.EntersWitness e ty →
      s.graph.numberOf e.selfSig.addr < maxNodeCount) ∧
    (s.graph.broadness ≤ maxNodeCount ∨ s.LoopsInRange m)

instance (keccak : List UInt8 → Hash) (s : Site) (m : Move) :
    Decidable (s.StaysInRange keccak m) :=
  inferInstanceAs (Decidable ((s.AddsOnly m fun _ _ => _ → _ → _) ∧ (_ ∨ s.LoopsInRange m)))

variable {m : Move}

/-- The numbers of new witnesses, for the graph that the event is passed to. -/
theorem StaysInRange.number (h : s.StaysInRange keccak m) {ty : ℕ}
    (hadded : s.added m = some (e, ty)) {jp₀ : JPGraph} {e₀ : Event ℕ}
    (hrec : Received s.graph e jp₀ e₀) :
    validateEvent keccak e₀ = true → jp₀.held e₀.selfSig.addr e₀.selfHash = none →
      jp₀.EntersWitness e₀ ty → jp₀.numberOf e₀.selfSig.addr < maxNodeCount := by
  intro hvalid hmissing henters
  rw [hrec.validate] at hvalid
  rw [hrec.held] at hmissing
  rw [hrec.numberOf]
  exact h.1 e ty hadded ⟨hvalid, hmissing⟩ ((hrec.entersWitness ty).mp henters)

/-- Tables and the round of `MonitorLoop` stay in order. -/
theorem ranged_tables (h : s.Ranged) (m : Move) :
    Ensures (s.step keccak m) fun s' => s'.graph.TablesSized ∧
      ∀ i, s'.monitor.pc = .receive i → i < s'.graph.rounds.next := by
  intro s' hs'
  cases hadded : s.added m with
  | some x =>
    obtain ⟨jp₀, e₀, hrec, hlinked₀, heffect, heq⟩ := step_effect h.linked hadded s' hs'
    have h₀ : jp₀.TablesSized := by
      rw [hrec.rest]
      exact h.tables
    refine ⟨h₀.addEffect hlinked₀.wf heffect, fun i hi => ?_⟩
    have hrounds : jp₀.rounds = s.graph.rounds := hrec.read fun _ _ => by rfl
    rw [heffect.rounds hlinked₀.wf, hrounds]
    rw [heq] at hi
    exact h.front i hi
  | none =>
    have hless := step_other hadded s' hs'
    cases otherMove hadded hs' with
    | compose now rand r hr heq =>
      obtain ⟨c, i, k, jp₁, -, -, -, -, hrests, hgraph⟩ :=
        s.graph.composeEvent_spec keccak now rand r hr
      have h₁ := h.tables.alike hrests.alike
      refine ⟨?_, fun i hi => ?_⟩
      · rw [heq, hgraph]
        exact h₁
      · rw [heq] at hi
        exact Nat.lt_of_lt_of_le (h.front i hi) hless.rounds
    | roundLoop jp' hjp' heq =>
      refine ⟨heq ▸ h.tables.roundTurn jp' hjp', fun i hi => ?_⟩
      rw [heq] at hi
      exact Nat.lt_of_lt_of_le (h.front i hi) hless.rounds
    | monitor order r hr heq =>
      refine ⟨heq ▸ h.tables.monitorStep s.monitor order r hr, fun i hi => ?_⟩
      rw [heq] at hi
      refine Nat.lt_of_lt_of_le ?_ hless.rounds
      cases monitorStep_effect s.monitor s.graph order r hr with
      | front j _ hhead hpc _ =>
        cases hpc.symm.trans hi
        simpa [JPGraph.queue] using List.mem_of_mem_head? hhead
      | receive j v rest _ _ hpc _ =>
        rcases hpc with hpc | hpc <;> cases hpc.symm.trans hi
      | put v _ hpc _ => cases hpc.symm.trans hi
      | mark v _ hpc _ => cases hpc.symm.trans hi
      | trigger v _ hpc _ => cases hpc.symm.trans hi

/-- A move that stays in range does not leave it. -/
theorem avoids_step (h : s.Ranged) (hrange : s.StaysInRange keccak m) :
    Avoids (s.step keccak m) .indexOutOfRange := by
  have hadd {e : Event ℤ} {ty : ℕ} (hadded : s.added m = some (e, ty)) {jp₀ : JPGraph}
      {e₀ : Event ℕ} (hrec : Received s.graph e jp₀ e₀) :
      Avoids (jp₀.addEvent keccak e₀ ty) .indexOutOfRange := by
    have htables : jp₀.TablesSized := by
      rw [hrec.rest]
      exact h.tables
    exact JPGraph.avoids_addEvent (hrec.linked h.linked) htables (hrange.number hadded hrec)
  cases m with
  | arrive e ty => exact (hadd rfl (received_receive s.graph e)).map.map
  | compose now rand => exact (s.graph.avoids_composeEvent keccak now rand).map
  | roundLoop => exact (JPGraph.avoids_roundTurn h.tables h.below h.pointed.vert hrange.2).map
  | monitor order =>
    refine (JPGraph.avoids_monitorStep h.tables (h.numbered.below h.linked) h.front
      (fun v hv => ?_) hrange.2 order).map
    exact (h.firstMarked.announced v (Or.inl hv)).1
  | add i ty =>
    cases hi : s.composed[i]? with
    | none =>
      simp only [step, hi]
      exact .error (by decide)
    | some e₀ =>
      simp only [step, hi]
      have hadded : s.added (.add i ty) = some (s.graph.valueOf e₀, ty) := by simp [added, hi]
      exact (hadd hadded (received_valueOf s.graph e₀)).map

/-- Every move keeps what keeps indices in range. -/
theorem ranged_step (h : s.Ranged) (m : Move) : Ensures (s.step keccak m) Ranged := by
  intro s' hs'
  obtain ⟨htables, hfront⟩ := s.ranged_tables h m s' hs'
  refine ⟨h.linked.step m s' hs', s.numbered_step h.linked h.numbered m s' hs',
    s.firstMarked_step h.linked h.firstMarked m s' hs',
    (s.pointed_step h.linked h.pointed m s' hs').1, ?_, htables, hfront⟩
  cases hadded : s.added m with
  | none =>
    have hless := step_other hadded s' hs'
    have hnext : s'.graph.verts.next = s.graph.verts.next := by
      rw [← JPGraph.length_nodes_links, hless.links, JPGraph.length_nodes_links]
    intro v hv
    rw [hless.seqNum]
    exact h.below v (hnext ▸ hv)
  | some x =>
    obtain ⟨jp₀, e₀, hrec, hlinked₀, heffect, -⟩ := step_effect h.linked hadded s' hs'
    have hbelow : jp₀.NumbersBelow maxNodeCount := by
      rw [hrec.rest]
      exact h.below
    have hnum : jp₀.Numbered := by
      rw [hrec.rest]
      exact ⟨h.numbered.col, h.numbered.vert⟩
    have htables₀ : jp₀.TablesSized := by
      rw [hrec.rest]
      exact h.tables
    exact hbelow.addEffect hlinked₀ hnum htables₀ heffect

/-- A new graph has no vertices and one table. -/
theorem ranged_newSite (coinbase : Address) (broadness : ℕ) :
    (newSite coinbase broadness).Ranged := by
  refine ⟨linked_newSite coinbase broadness, numbered_newSite coinbase broadness,
    firstMarked_newSite coinbase broadness, pointed_newSite coinbase broadness,
    fun v hv => absurd hv (Nat.not_lt_zero v), fun i hi => ?_, fun i hi => nomatch hi⟩
  obtain rfl : i = 0 := Nat.lt_one_iff.mp hi
  exact ⟨List.length_replicate, rfl⟩

theorem ranged_of_run {coinbase : Address} {broadness : ℕ} {moves : List Move}
    (hrun : run (Site.step keccak) (newSite coinbase broadness) moves = .ok s) : s.Ranged :=
  run_preserves (fun s m h => s.ranged_step h m) (ranged_newSite coinbase broadness) moves s hrun

end Site

/-- For any number of peers, a run whose moves all stay in range never indexes a witness table or a
trace out of range. In the state that it reaches, neither does `JudgeSee` on any two vertices, if
there are not more columns than peers. -/
theorem avoids_indexOutOfRange (keccak : List UInt8 → Hash) {coinbase : Address} {broadness : ℕ}
    {moves : List Move} (hmeets : Meets (Site.step keccak) (Site.StaysInRange keccak)
      (newSite coinbase broadness) moves) :
    Avoids (run (Site.step keccak) (newSite coinbase broadness) moves) .indexOutOfRange ∧
      ∀ s, run (Site.step keccak) (newSite coinbase broadness) moves = .ok s →
        s.graph.size ≤ s.graph.broadness → ∀ u < s.graph.verts.next, ∀ v < s.graph.verts.next,
          ∀ cluster, Avoids (s.graph.judgeSee u v cluster) .indexOutOfRange := by
  refine ⟨run_avoids (fun s m h hrange => ⟨s.avoids_step h hrange, s.ranged_step h m⟩)
    (Site.ranged_newSite coinbase broadness) hmeets, fun s hrun hsize u hu v hv cluster => ?_⟩
  have hranged := Site.ranged_of_run hrun
  have hbelow : s.graph.NumbersBelow s.graph.broadness := fun w hw =>
    Nat.lt_of_lt_of_le (hranged.numbered.below hranged.linked w hw) hsize
  exact JPGraph.avoids_judgeSee hbelow hu (hbelow v hv) cluster

/-- With few columns, all moves stay in range. -/
theorem avoids_indexOutOfRange_aheadMoves :
    Avoids (run (Site.step triangleKeccak) (newSite (FixedBytes.ofNat 20 0x0A) 3) aheadMoves)
      .indexOutOfRange :=
  (avoids_indexOutOfRange triangleKeccak (by decide +kernel)).1

/-- The event with another address of its other parent, which its hash does not cover. -/
def naming (e : Event ℤ) (a : Address) : Event ℤ := { e with otherPartA := a }

namespace Site

variable {v : ℕ}

/-- A stored event that arrives again with a new address adds a column and nothing else. -/
theorem step_naming (h : Linked s.graph) (hvalid : validateEvent keccak e = true)
    (hheld : s.graph.held e.selfSig.addr e.selfHash = some v) {a : Address}
    (hzero : a ≠ FixedBytes.zero 20) (hnew : s.graph.graph.lookup a = none) :
    ∃ s', s.step keccak (.arrive (naming e a) Mark.normal) = .ok s' ∧
      s'.graph.size = s.graph.size + 1 ∧ s'.graph.rounds = s.graph.rounds ∧
      ∀ b, b ≠ a → s'.graph.graph.lookup b = s.graph.graph.lookup b := by
  have hrec := received_receive s.graph (naming e a)
  generalize hjp₀ : (s.graph.receive (naming e a)).1 = jp₀ at hrec
  generalize he₀ : (s.graph.receive (naming e a)).2 = e₀ at hrec
  have hwf₀ := hrec.wf h.wf
  have hgraph₀ : jp₀.graph = s.graph.graph := hrec.read fun _ _ => by rfl
  have hrounds₀ : jp₀.rounds = s.graph.rounds := hrec.read fun _ _ => by rfl
  have hnew₀ : jp₀.graph.lookup a = none := hgraph₀ ▸ hnew
  have hcolumns : jp₀.withColumns e₀ = (jp₀.addNode a).1 := by
    obtain ⟨c, hc, -⟩ := Option.bind_eq_some_iff.mp hheld
    have hself : jp₀.graph.lookup e₀.selfSig.addr = some c := by
      rw [hgraph₀, hrec.event]
      exact hc
    have hother : e₀.otherPartA = a := by
      rw [hrec.event]
      rfl
    unfold JPGraph.withColumns
    rw [JPGraph.addNode_known hself, hother, if_neg hzero]
  have hchain : jp₀.links.chain e₀.selfSig.addr e₀.selfHash = some v := by
    rw [hrec.links, hrec.event]
    exact hheld
  have hadd : jp₀.addEvent keccak e₀ Mark.normal = .ok ((jp₀.addNode a).1, none) := by
    rw [JPGraph.addEvent_known hwf₀ ((hrec.validate keccak).trans hvalid) hchain,
      if_neg (by decide), hcolumns]
  refine ⟨{ s with graph := (jp₀.addNode a).1 }, ?_, ?_, ?_, fun b hb => ?_⟩
  · simp only [step, JPGraph.arriveEvent, hjp₀, he₀, hadd]
    rfl
  · rw [JPGraph.size_addNode_new hnew₀, JPGraph.size, hgraph₀]
    rfl
  · exact (JPGraph.grown_addNode hwf₀ a).rounds.trans hrounds₀
  · rw [JPGraph.lookup_addNode_of_ne hnew₀ hb, hgraph₀]

/-- A stored event that arrives again and again adds a column for every new address. -/
theorem run_naming (h : Linked s.graph) (hvalid : validateEvent keccak e = true)
    (hheld : s.graph.held e.selfSig.addr e.selfHash = some v) {as : List Address}
    (hnodup : as.Nodup) (hzero : FixedBytes.zero 20 ∉ as)
    (hnew : ∀ a ∈ as, s.graph.graph.lookup a = none) :
    ∃ s', run (step keccak) s (arriving (as.map (naming e))) = .ok s' ∧ Linked s'.graph ∧
      s'.graph.size = s.graph.size + as.length ∧ s'.graph.rounds = s.graph.rounds ∧
      ∀ b ∉ as, s'.graph.graph.lookup b = s.graph.graph.lookup b := by
  induction as generalizing s with
  | nil => exact ⟨s, rfl, h, rfl, rfl, fun _ _ => rfl⟩
  | cons a as ih =>
    obtain ⟨hnotMem, hnodup⟩ := List.nodup_cons.mp hnodup
    rw [List.mem_cons, not_or] at hzero
    obtain ⟨s₁, hstep, hsize, hrounds, hlookup⟩ :=
      step_naming h hvalid hheld (Ne.symm hzero.1) (hnew a List.mem_cons_self)
    have hlinks := (step_added_links h rfl s₁ hstep).2.2
    have hknown : ¬ s.graph.Creates keccak (naming e a) := fun hcreates =>
      absurd (hheld.symm.trans hcreates.2) (by simp)
    rw [if_neg hknown] at hlinks
    have hheld₁ : s₁.graph.held e.selfSig.addr e.selfHash = some v := by
      change s₁.graph.links.chain e.selfSig.addr e.selfHash = some v
      rw [hlinks]
      exact hheld
    have hnew₁ (b : Address) (hb : b ∈ as) : s₁.graph.graph.lookup b = none := by
      rw [hlookup b fun hba => hnotMem (hba ▸ hb)]
      exact hnew b (List.mem_cons_of_mem a hb)
    obtain ⟨s', hrun, hlinked', hsize', hrounds', hlookup'⟩ :=
      ih (h.step _ s₁ hstep) hheld₁ hnodup hzero.2 hnew₁
    refine ⟨s', ?_, hlinked', ?_, hrounds'.trans hrounds, fun b hb => ?_⟩
    · simp only [arriving, List.map_cons, run, hstep]
      exact hrun
    · rw [hsize', hsize, List.length_cons]
      omega
    · rw [List.mem_cons, not_or] at hb
      rw [hlookup' b hb.2, hlookup b hb.1]

/-- The first event of a creator is entered out of range, if there are columns for all entries of
the tables. -/
theorem step_error_of_full (h : Linked s.graph) (hvalid : validateEvent keccak e = true) {x : ℤ}
    (hx : e.roundID = some x) (hnew : s.graph.graph.lookup e.selfSig.addr = none)
    (hfull : ∀ i < s.graph.rounds.next, (s.graph.round i).witnesses.length ≤ s.graph.size)
    (ty : ℕ) : s.step keccak (.arrive e ty) = .error .indexOutOfRange := by
  have hrec := received_receive s.graph e
  generalize hjp₀ : (s.graph.receive e).1 = jp₀ at hrec
  generalize he₀ : (s.graph.receive e).2 = e₀ at hrec
  have hlinked₀ := hrec.linked h
  have hnew₀ : jp₀.graph.lookup e₀.selfSig.addr = none := by
    rw [hrec.rest, hrec.event]
    exact hnew
  have hmissing : jp₀.held e₀.selfSig.addr e₀.selfHash = none := by
    simp only [JPGraph.held, hnew₀, Option.bind_none]
  have henters : jp₀.EntersWitness e₀ ty := Or.inr (by
    simp only [JPGraph.newest, hnew₀, Option.bind_none])
  have hnumber : jp₀.numberOf e₀.selfSig.addr = s.graph.size := by
    have hcolumn : (jp₀.addNode e₀.selfSig.addr).2 = jp₀.cols.next := by
      simp only [JPGraph.addNode, hnew₀, JPGraph.addNodeInsert]
    rw [JPGraph.numberOf, hcolumn, JPGraph.col_addNode_new hnew₀, if_pos rfl]
    rw [hrec.rest]
    rfl
  obtain ⟨i, hi⟩ := JPGraph.exists_searchRound hlinked₀.queue x
  have hrounds : jp₀.rounds = s.graph.rounds := hrec.read fun _ _ => by rfl
  have hlength : (jp₀.round i).witnesses.length ≤ jp₀.numberOf e₀.selfSig.addr := by
    rw [hnumber, JPGraph.round, hrounds]
    exact hfull i (hrounds ▸ (JPGraph.index_searchRound hi).1)
  have hrecord := JPGraph.recordNew_eq hlinked₀ hmissing (hrec.value.trans hx) hi ty
  rw [if_pos ⟨henters, hlength⟩] at hrecord
  have hadd := (JPGraph.addEvent_error_iff keccak hlinked₀.wf e₀ ty).mpr
    ⟨(hrec.validate keccak).trans hvalid, hmissing, hrecord⟩
  simp only [step, JPGraph.arriveEvent, hjp₀, he₀, hadd]
  rfl

end Site

/-- Addresses that nobody else uses. -/
def strangers : List Address :=
  (List.range 127).map fun j => FixedBytes.ofNat 20 ((j + 1) * 256 ^ 19)

/-- `eventA1`, again with each of the addresses, and the first event of another creator. -/
def namingEvents : List (Event ℤ) := [eventA1] ++ strangers.map (naming eventA1) ++ [eventB]

/-- Each copy of `eventA1` adds a column. The creator of `eventB` then has column 128, for which the
witness table of round 0 has no entry. -/
theorem indexOutOfRange_namingEvents :
    (∀ e ∈ namingEvents, validateEvent triangleKeccak e = true) ∧
      run (Site.step triangleKeccak) (newSite (FixedBytes.ofNat 20 0x0A) 3)
        (arriving namingEvents) = .error .indexOutOfRange := by
  have hvalidA : validateEvent triangleKeccak eventA1 = true := by decide +kernel
  have hvalidB : validateEvent triangleKeccak eventB = true := by decide +kernel
  refine ⟨fun e he => ?_, ?_⟩
  · simp only [namingEvents, List.mem_append, List.mem_singleton, List.mem_map] at he
    rcases he with (rfl | ⟨a, -, rfl⟩) | rfl
    · exact hvalidA
    · exact hvalidA
    · exact hvalidB
  · have hfirst : run (Site.step triangleKeccak) (newSite (FixedBytes.ofNat 20 0x0A) 3)
        (arriving [eventA1]) = .ok (triangleSite [eventA1]) := run_siteAfter (by decide +kernel)
    have hheld : (triangleSite [eventA1]).graph.held eventA1.selfSig.addr eventA1.selfHash =
        some 0 := by decide +kernel
    have hnodup : strangers.Nodup := by
      have hbytes : strangers.map (fun a => a.bytes.headI.toNat) = List.range' 1 127 := by
        decide +kernel
      exact List.Nodup.of_map _ (hbytes ▸ List.nodup_range')
    have hnew : ∀ a ∈ strangers, (triangleSite [eventA1]).graph.graph.lookup a = none := by
      decide +kernel
    obtain ⟨s, hrun, hlinked, hsize, hrounds, hlookup⟩ :=
      Site.run_naming (Site.linked_of_run hfirst) hvalidA hheld hnodup (by decide +kernel) hnew
    have hB : s.graph.graph.lookup eventB.selfSig.addr = none := by
      rw [hlookup eventB.selfSig.addr (by decide +kernel)]
      decide +kernel
    have hfull : ∀ i < s.graph.rounds.next, (s.graph.round i).witnesses.length ≤ s.graph.size := by
      have hone : ∀ i < (triangleSite [eventA1]).graph.rounds.next,
          ((triangleSite [eventA1]).graph.round i).witnesses.length ≤
            (triangleSite [eventA1]).graph.size + strangers.length := by decide +kernel
      rw [hsize, hrounds]
      intro i hi
      rw [JPGraph.round, hrounds]
      exact hone i hi
    have harriving : arriving namingEvents = arriving [eventA1] ++
        (arriving (strangers.map (naming eventA1)) ++ arriving [eventB]) := by
      simp only [namingEvents, arriving, List.map_append, List.append_assoc]
    rw [harriving, run_append hfirst, run_append hrun]
    exact (run_singleton _ _).trans (Site.step_error_of_full hlinked hvalidB rfl hB hfull _)

end Hashgrid.Core
