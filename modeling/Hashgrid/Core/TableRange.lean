import Hashgrid.Core.ColumnRep
import Hashgrid.Core.RoundPointers
import Hashgrid.Core.SeeRange

/-!
# Indices of single calls

A witness table has `MaxNodeCount` entries and a trace of `JudgeSee` one for every
configured peer. Both are indexed with column numbers, which grow with every address. This
file says under which conditions a call stays in the range.
-/

namespace Hashgrid.Core

open Hashgrid.Bytes Hashgrid.Machine Hashgrid.Links

namespace JPGraph

/-- The table of the round has no witness at some other number. -/
def MissesOther (jp : JPGraph) (i n : ℕ) : Prop :=
  ∃ k < maxNodeCount, k ≠ n ∧ jp.entry i k = none

instance (jp : JPGraph) (i n : ℕ) : Decidable (jp.MissesOther i n) :=
  inferInstanceAs (Decidable (∃ k, k < _ ∧ _ ∧ _))

/-- The round of the vertex that `RoundLoop` works on misses another witness. -/
def TriggerIncomplete (jp : JPGraph) : Prop :=
  ∀ v < jp.verts.next, jp.roundTrigger.head? = some v → ∀ i < jp.rounds.next,
    jp.roundID v = some ((jp.round i).index : ℤ) → jp.MissesOther i (jp.vert v).seqNum

instance (jp : JPGraph) : Decidable jp.TriggerIncomplete :=
  inferInstanceAs (Decidable (∀ v, v < _ → _ → ∀ i, i < _ → _ → _))

/-- The witness tables of all rounds have their sizes. -/
def TablesSized (jp : JPGraph) : Prop :=
  ∀ i < jp.rounds.next, (jp.round i).witnesses.length = maxNodeCount ∧
    (jp.round i).broadness = jp.broadness

/-- A loop over a table leaves it only if there are more peers than entries and all entries are
there. -/
theorem avoids_allCome {n : ℕ} {ws : List (Option ℕ)} (h : n ≤ ws.length ∨ none ∈ ws) :
    Avoids (allCome n ws) .indexOutOfRange := by
  induction ws generalizing n with
  | nil =>
    cases n with
    | zero => exact .ok
    | succ n => simp at h
  | cons w ws ih =>
    cases n with
    | zero => exact .ok
    | succ n =>
      cases w with
      | none => exact .ok
      | some v =>
        refine ih ?_
        simpa using h

/-- `ComposeEvent` indexes nothing. -/
theorem avoids_composeEvent (keccak : List UInt8 → Hash) (jp : JPGraph) (now : ℤ) (rand : ℕ) :
    Avoids (jp.composeEvent keccak now rand) .indexOutOfRange := by
  have htake (jp : JPGraph) : Avoids jp.takeTrans .indexOutOfRange := by
    unfold takeTrans
    dsimp only
    split_ifs
    · exact .ok
    · exact .ok
    · exact .error (by decide)
  have hchoose (jp : JPGraph) (i : ℕ) : Avoids (jp.chooseOther i rand) .indexOutOfRange := by
    unfold chooseOther
    cases (jp.round i).bestVertex with
    | some v => exact .ok
    | none =>
      dsimp only
      split_ifs
      · exact .error (by decide)
      · generalize (jp.round i).randParent jp.coinbase rand = chosen
        obtain ⟨newComer, arg⟩ := chosen
        cases arg <;> exact .ok
  unfold composeEvent
  refine (htake _).bind fun r _ => ?_
  dsimp only
  split
  · refine (hchoose _ _).bind fun r _ => ?_
    split
    · exact .ok
    · exact .error (by decide)
  · exact .error (by decide)

variable {jp jp' : JPGraph} {keccak : List UInt8 → Hash} {e : Event ℕ} {ty : ℕ}

/-- `AddEvent` stays in range if the number of a new witness is below the size of the tables. -/
theorem avoids_addEvent (hlinked : Site.Linked jp) (htables : jp.TablesSized)
    (hnumber : validateEvent keccak e = true → jp.held e.selfSig.addr e.selfHash = none →
      jp.EntersWitness e ty → jp.numberOf e.selfSig.addr < maxNodeCount) :
    Avoids (jp.addEvent keccak e ty) .indexOutOfRange := by
  intro herror
  obtain ⟨hvalid, hmissing, hrecord⟩ := (addEvent_error_iff keccak hlinked.wf e ty).mp herror
  cases hx : jp.roundOf e with
  | none =>
    rw [recordNew_nil hlinked hx] at hrecord
    cases hrecord
  | some x =>
    obtain ⟨i, hi⟩ := exists_searchRound hlinked.queue x
    rw [recordNew_eq hlinked hmissing hx hi] at hrecord
    split_ifs at hrecord with hfits
    have hlt := hnumber hvalid hmissing hfits.1
    have hlen := (htables i (index_searchRound hi).1).1
    omega

/-- A round that is opened is found first. -/
theorem findRound_openRound {cell : ℕ} (hcell : cell < jp.cells.next) :
    (jp.openRound cell).findRound ((jp.openRound cell).cells.get cell) = some jp.rounds.next := by
  have hvalue : (jp.openRound cell).cells.get cell = (jp.currentIdx : ℤ) + 1 :=
    Heap.get_update_self hcell _
  have hqueue : (jp.openRound cell).queue = jp.rounds.next :: jp.queue := by
    simp [queue, openRound, List.range_succ]
  unfold findRound
  rw [hvalue, hqueue, List.find?_cons_of_pos]
  rw [round_openRound, if_pos rfl]
  simp [newRound]

/-- Tables are sized after a round was opened. -/
theorem TablesSized.openRound (h : jp.TablesSized) (cell : ℕ) :
    (jp.openRound cell).TablesSized := by
  intro i hi
  rw [round_openRound]
  split_ifs with hnew
  · exact ⟨List.length_replicate, rfl⟩
  · have hnext : (jp.openRound cell).rounds.next = jp.rounds.next + 1 := Heap.next_alloc ..
    exact h i (by omega)

/-- A table that misses another witness still does so after one was entered. -/
theorem MissesOther.mem_set {i n : ℕ} (h : jp.MissesOther i n)
    (hlen : (jp.round i).witnesses.length = maxNodeCount) (v : ℕ) :
    none ∈ (jp.round i).witnesses.set n (some v) := by
  obtain ⟨k, hk, hkn, hentry⟩ := h
  have hk : k < (jp.round i).witnesses.length := by omega
  unfold entry at hentry
  rw [List.getElem?_eq_getElem hk, Option.join_some] at hentry
  rw [List.mem_iff_getElem?]
  exact ⟨k, by rw [List.getElem?_set_ne (Ne.symm hkn), List.getElem?_eq_getElem hk, hentry]⟩

/-- A new round misses all witnesses. -/
theorem missesOther_openRound (jp : JPGraph) (cell n : ℕ) :
    (jp.openRound cell).MissesOther jp.rounds.next n := by
  have hempty (k : ℕ) : (jp.openRound cell).entry jp.rounds.next k = none := by
    have hdefault : jp.round jp.rounds.next = default := Heap.get_of_le le_rfl
    rw [entry_openRound, entry, hdefault]
    rfl
  by_cases hn : n = 0
  · exact ⟨1, by decide, by omega, hempty 1⟩
  · exact ⟨0, by decide, by omega, hempty 0⟩

/-- What `RoundLoop` finds in the queue is sized, and misses another witness if the round of the
vertex does. -/
theorem turnGraph_sized (htables : jp.TablesSized) {v cell i : ℕ}
    (hcell : (jp.vert v).event.roundID = some cell) (hlt : cell < jp.cells.next)
    (hfind : (jp.turnGraph v cell).findRound ((jp.turnGraph v cell).cells.get cell) = some i) :
    ((jp.turnGraph v cell).round i).witnesses.length = maxNodeCount ∧
      ((jp.turnGraph v cell).round i).broadness = jp.broadness ∧
      ((∀ i < jp.rounds.next, jp.roundID v = some ((jp.round i).index : ℤ) →
        jp.MissesOther i (jp.vert v).seqNum) →
          (jp.turnGraph v cell).MissesOther i (jp.vert v).seqNum) := by
  obtain ⟨hi, hindex⟩ := findRound_eq_some hfind
  unfold turnGraph at hfind hi hindex ⊢
  split_ifs at hfind hi hindex ⊢
  · obtain ⟨hlen, hbroad⟩ := htables.openRound cell i hi
    rw [findRound_openRound hlt] at hfind
    cases hfind
    exact ⟨hlen, hbroad, fun _ => jp.missesOther_openRound cell _⟩
  · obtain ⟨hlen, hbroad⟩ := htables i hi
    refine ⟨hlen, hbroad, fun hmisses => hmisses i hi ?_⟩
    rw [roundID, roundOf, hcell, Option.map_some, hindex]

/-- `RoundLoop` stays in range if there are enough entries for all peers, or the round of its vertex
misses another witness. -/
theorem avoids_roundLoop (htables : jp.TablesSized) (hnumbers : jp.NumbersBelow maxNodeCount)
    {v : ℕ} (hpoints : jp.PointsIn (jp.vert v).event)
    (h : jp.broadness ≤ maxNodeCount ∨ ∀ i < jp.rounds.next,
      jp.roundID v = some ((jp.round i).index : ℤ) → jp.MissesOther i (jp.vert v).seqNum) :
    Avoids (jp.roundLoop v) .indexOutOfRange := by
  unfold roundLoop
  split
  · exact .error (by decide)
  · next cell hcell =>
    have hturn : (if jp.opensRound v cell then jp.openRound cell else jp) =
        jp.turnGraph v cell := rfl
    have hvert : (jp.turnGraph v cell).vert v = jp.vert v := by
      unfold turnGraph
      split_ifs <;> rfl
    dsimp only
    rw [hturn, hvert]
    split
    · exact .ok
    · next i hi =>
      obtain ⟨hlen, hbroad, hmisses⟩ := turnGraph_sized htables hcell (hpoints cell hcell) hi
      have hround : ((jp.turnGraph v cell).setWitness i (jp.vert v).seqNum v).round i =
          { (jp.turnGraph v cell).round i with witnesses :=
            ((jp.turnGraph v cell).round i).witnesses.set (jp.vert v).seqNum (some v) } :=
        Heap.get_update_self (findRound_eq_some hi).1 _
      rw [hlen, if_pos (hnumbers v (lt_of_pointer hcell)), hround]
      refine Avoids.bind (avoids_allCome ?_) fun complete _ => .ok
      rw [List.length_set, hlen, hbroad]
      exact h.imp id fun hmiss => (hmisses hmiss).mem_set hlen v

/-- A turn of `RoundLoop` stays in range. -/
theorem avoids_roundTurn (htables : jp.TablesSized) (hnumbers : jp.NumbersBelow maxNodeCount)
    (hpoints : ∀ v, jp.PointsIn (jp.vert v).event)
    (h : jp.broadness ≤ maxNodeCount ∨ jp.TriggerIncomplete) :
    Avoids jp.roundTurn .indexOutOfRange := by
  unfold roundTurn
  split
  · exact .error (by decide)
  · next v rest hq =>
    have hhead : jp.roundTrigger.head? = some v := by rw [hq, List.head?_cons]
    have htables₁ : TablesSized { jp with roundTrigger := rest } := htables
    have hloop : Avoids (JPGraph.roundLoop { jp with roundTrigger := rest } v)
        .indexOutOfRange := by
      refine avoids_roundLoop htables₁ hnumbers (hpoints v) (h.imp id fun hmiss i hi hround => ?_)
      have hlt : v < jp.verts.next := by
        obtain ⟨cell, hcell, -⟩ := Option.map_eq_some_iff.mp hround
        exact lt_of_pointer hcell
      exact hmiss v hlt hhead i hi hround
    exact hloop.bind fun r _ => .ok

/-- `MonitorLoop` stays in range if the table has an entry for every peer, or the number of peers
is not that of the columns. -/
theorem avoids_monitorStep (htables : jp.TablesSized) (hnumbers : jp.NumbersBelow jp.size)
    {m : Monitor} (hround : ∀ i, m.pc = .receive i → i < jp.rounds.next)
    (hcreated : ∀ v ∈ jp.selfEventCreated, v < jp.verts.next)
    (h : jp.broadness ≤ maxNodeCount ∨ jp.broadness ≠ jp.size) (order : ℕ → List Address) :
    Avoids (m.step jp order) .indexOutOfRange := by
  unfold Monitor.step
  cases hpc : m.pc with
  | front =>
    dsimp only
    split
    · exact .error (by decide)
    · exact .ok
  | receive i =>
    dsimp only
    split
    · exact .error (by decide)
    · next v rest hq =>
      unfold Monitor.judge
      split_ifs with hsize
      · exact .ok
      · have hsize : jp.broadness = jp.size := not_not.mp hsize
        obtain ⟨hlen, hbroad⟩ := htables i (hround i hpc)
        have hv : v < jp.verts.next := hcreated v (hq ▸ List.mem_cons_self)
        have hle : jp.broadness ≤ maxNodeCount := h.resolve_right (not_not.mpr hsize)
        have hnumbers₁ : NumbersBelow { jp with selfEventCreated := rest } jp.broadness :=
          hsize ▸ hnumbers
        have hcount : Avoids (JPGraph.countSees { jp with selfEventCreated := rest } (jp.round i) v
            order) .indexOutOfRange :=
          avoids_countSees hnumbers₁ (by omega) hbroad hv order
        refine hcount.bind fun st _ => ?_
        dsimp only
        split_ifs
        · exact .ok
        · exact .ok
  | put v => exact .ok
  | mark v => exact .ok
  | trigger v => exact .ok

/-- The numbers of vertices are below the number of columns. -/
theorem Numbered.below (h : jp.Numbered) (hlinked : Site.Linked jp) : jp.NumbersBelow jp.size := by
  intro v hv
  obtain ⟨c, hc⟩ := lookup_of_vert hlinked.columnar hv
  rw [h.vert v hv c hc]
  exact h.col _ c hc

/-- The newest vertex of a column has its number. -/
theorem numberOf_of_newest (h : jp.Numbered) (hlinked : Site.Linked jp) {a : Address} {t : ℕ}
    (ht : jp.newest a = some t) : t < jp.verts.next ∧ jp.numberOf a = (jp.vert t).seqNum := by
  obtain ⟨c, hc, -⟩ := Option.bind_eq_some_iff.mp ht
  obtain ⟨k, hk⟩ := hlinked.columnar.top ht
  obtain ⟨n, hn, haddr, -⟩ := hlinked.columnar.chain a k t hk
  obtain ⟨hlt, rfl⟩ := nodes_links_eq hn
  have haddr : (jp.vert t).event.selfSig.addr = a := haddr
  refine ⟨hlt, ?_⟩
  rw [h.vert t hlt c (haddr ▸ hc), numberOf, addNode_known hc]

/-- A new vertex has a number in range: a witness had to fit into a table, and another vertex has
the number of an older one. -/
theorem NumbersBelow.addEffect (h : jp.NumbersBelow maxNodeCount) (hlinked : Site.Linked jp)
    (hnum : jp.Numbered) (htables : jp.TablesSized) (heffect : AddEffect keccak jp e ty jp') :
    jp'.NumbersBelow maxNodeCount := by
  intro v hv
  by_cases hold : v < jp.verts.next
  · rw [(heffect.kept hlinked.wf hold).seqNum]
    exact h v hold
  · obtain ⟨-, hnew⟩ := heffect.created hlinked.wf hv (by omega)
    rw [hnew.seqNum]
    by_cases henters : jp.EntersWitness e ty
    · obtain ⟨i, hi, hfits⟩ := heffect.fits hlinked.wf (by omega) henters
      rw [(htables i hi).1] at hfits
      exact hfits
    · obtain ⟨t, ht⟩ := Option.ne_none_iff_exists'.mp fun hnone => henters (Or.inr hnone)
      obtain ⟨hlt, hseq⟩ := numberOf_of_newest hnum hlinked ht
      rw [hseq]
      exact h t hlt

/-- `AddEvent` keeps the sizes of the tables. -/
theorem TablesSized.addEffect (h : jp.TablesSized) (hwf : jp.Wf)
    (heffect : AddEffect keccak jp e ty jp') : jp'.TablesSized := by
  have hbroad : jp'.broadness = jp.broadness := heffect.read fun _ _ _ _ _ _ _ _ _ _ => by rfl
  intro i hi
  rw [heffect.rounds hwf] at hi
  obtain ⟨hlen, hround⟩ := h i hi
  refine ⟨?_, ?_⟩
  · refine Eq.trans ?_ hlen
    exact heffect.round (g := fun rd => rd.witnesses.length) (fun _ => by rfl)
      (fun _ _ _ => List.length_set ..) hwf i
  · rw [hbroad, ← hround]
    exact heffect.round (g := Round.broadness) (fun _ => by rfl) (fun _ _ _ => by rfl) hwf i

/-- `RoundLoop` keeps the sizes of the tables. -/
theorem TablesSized.roundTurn (h : jp.TablesSized) : Ensures jp.roundTurn TablesSized := by
  intro jp' hjp'
  obtain ⟨v, rest, cell, -, -, hturn⟩ := jp.roundTurn_spec jp' hjp'
  have hopen : (jp.turnGraph v cell).TablesSized := by
    unfold turnGraph
    split_ifs
    · exact h.openRound cell
    · exact h
  rcases hturn with ⟨-, rfl⟩ | ⟨i, complete, -, -, -, rfl⟩
  · exact hopen
  · intro j hj
    obtain ⟨hlen, hbroad⟩ := hopen j (Nat.lt_of_lt_of_eq hj (Heap.next_update ..))
    refine ⟨Eq.trans ?_ hlen, Eq.trans ?_ hbroad⟩
    · exact Heap.get_update_of_eq _ i (g := fun rd : Round => rd.witnesses.length)
        (fun _ => List.length_set ..) j
    · exact Heap.get_update_of_eq _ i (g := Round.broadness) (fun _ => by rfl) j

theorem TablesSized.alike (h : jp.TablesSized) (halike : Alike jp jp') : jp'.TablesSized := by
  intro i hi
  rw [halike.witnesses, halike.roundBroadness, halike.broadness]
  exact h i (halike.rounds ▸ hi)

/-- `MonitorLoop` keeps the sizes of the tables. -/
theorem TablesSized.monitorStep (h : jp.TablesSized) (m : Monitor) (order : ℕ → List Address) :
    Ensures (m.step jp order) fun r => r.2.TablesSized := by
  intro r hr
  cases monitorStep_effect m jp order r hr with
  | front i _ _ _ hgraph => exact hgraph ▸ h
  | receive i v rest _ _ _ hgraph =>
    have hrest : TablesSized { jp with selfEventCreated := rest } := h
    exact hrest.alike hgraph.alike
  | put v _ _ hgraph =>
    rw [hgraph]
    exact h
  | mark v _ _ hgraph =>
    rw [hgraph]
    exact h
  | trigger v _ _ hgraph =>
    rw [hgraph]
    exact h

end JPGraph

end Hashgrid.Core
