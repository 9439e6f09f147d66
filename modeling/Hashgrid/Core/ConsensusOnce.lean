import Hashgrid.Core.Board

/-!
# How often a round is sent

`RoundLoop` looks at the witness table of a round whenever it has made an entry there, and
sends the number of a complete round to `consensusTrigger`. It does not remember what it
has sent, so a round that gets another vertex after it was complete is sent again.
-/

namespace Hashgrid.Core

open Hashgrid.Bytes Hashgrid.Machine Hashgrid.Links

/-- A loop over a table finds all witnesses just when the first ones are there. -/
theorem allCome_eq_true_iff {n : ℕ} {ws : List (Option ℕ)} :
    allCome n ws = .ok true ↔ ∀ k < n, ws[k]?.join.isSome := by
  induction ws generalizing n with
  | nil =>
    cases n with
    | zero => simp [allCome]
    | succ n =>
      refine iff_of_false (fun h => ?_) fun h => ?_
      · cases h
      · simpa using h 0 (Nat.succ_pos n)
  | cons w ws ih =>
    cases n with
    | zero => simp [allCome]
    | succ n =>
      cases w with
      | none =>
        refine iff_of_false (fun h => ?_) fun h => ?_
        · cases h
        · simpa using h 0 (Nat.succ_pos n)
      | some v =>
        have hrest : allCome (n + 1) (some v :: ws) = allCome n ws := rfl
        rw [hrest, ih]
        constructor
        · intro h k hk
          cases k with
          | zero => rfl
          | succ k => exact h k (by omega)
        · exact fun h k hk => h (k + 1) (by omega)

variable {done : List ℕ} {keccak : List UInt8 → Hash} {jp : JPGraph}

namespace Board

/-- The first witnesses of a round are all there. -/
def Complete (b : Board) (i : ℕ) : Prop :=
  ∀ k < (b.row i).broadness, (b.row i).witnesses[k]?.join.isSome

instance (b : Board) (i : ℕ) : Decidable (b.Complete i) :=
  inferInstanceAs (Decidable (∀ k < _, _))

/-- The rounds are numbered in the order in which they were opened. -/
structure Numbered (b : Board) : Prop where
  /-- The newest round. -/
  current : b.currentIdx + 1 = b.rows.next
  /-- Every round. -/
  index : ∀ i < b.rows.next, (b.row i).index = i

/-- The rounds that a list names are complete, and they are what was sent. -/
structure Sent (b : Board) (done : List ℕ) : Prop extends Numbered b where
  /-- What was sent. -/
  consensus : b.consensus = done
  /-- The rounds are there. -/
  lt : ∀ i ∈ done, i < b.rows.next
  /-- The rounds are complete. -/
  complete : ∀ i ∈ done, b.Complete i

variable {b : Board}

/-- An entry keeps the numbers. -/
theorem Numbered.enter (h : b.Numbered) (i k v : ℕ) : (b.enter i k v).Numbered := by
  have hnext : (b.enter i k v).rows.next = b.rows.next := Heap.next_update ..
  refine ⟨h.current.trans hnext.symm, fun j hj => ?_⟩
  rw [index_enter]
  exact h.index j (hnext ▸ hj)

theorem row_openRow (b : Board) (i : ℕ) : b.openRow.row i = if i = b.rows.next then
    ⟨b.currentIdx + 1, List.replicate maxNodeCount none, b.broadness⟩ else b.row i :=
  Heap.get_alloc ..

/-- A new round has the next number. -/
theorem Numbered.openRow (h : b.Numbered) : b.openRow.Numbered := by
  have hnext : b.openRow.rows.next = b.rows.next + 1 := Heap.next_alloc ..
  refine ⟨?_, fun i hi => ?_⟩
  · rw [hnext, ← h.current]
    rfl
  · rw [row_openRow]
    split_ifs with heq
    · exact h.current.trans heq.symm
    · exact h.index i (by omega)

/-- An entry removes no other one. -/
theorem Complete.enter {j : ℕ} (h : b.Complete j) (i k v : ℕ) : (b.enter i k v).Complete j := by
  have hbroad : ((b.enter i k v).row j).broadness = (b.row j).broadness :=
    Heap.get_update_of_eq b.rows i (g := Row.broadness) (fun _ => by rfl) j
  intro l hl
  rw [hbroad] at hl
  have hold := h l hl
  rcases Heap.get_update_eq_or b.rows i j fun r =>
    { r with witnesses := r.witnesses.set k (some v) } with heq | ⟨-, heq⟩
  · have hrow : (b.enter i k v).row j = b.row j := heq
    rwa [hrow]
  · have hrow : ((b.enter i k v).row j).witnesses = (b.row j).witnesses.set k (some v) :=
      congrArg Row.witnesses heq
    rw [hrow, List.getElem?_set]
    split_ifs with hk hlt
    · rfl
    · rw [List.getElem?_eq_none (by omega)] at hold
      exact absurd hold (by simp)
    · exact hold

/-- An entry after which nothing is sent. -/
theorem Sent.enter (h : b.Sent done) (i k v : ℕ) : (b.enter i k v).Sent done where
  toNumbered := h.toNumbered.enter i k v
  consensus := h.consensus
  lt j hj := (h.lt j hj).trans_eq (Heap.next_update ..).symm
  complete j hj := (h.complete j hj).enter i k v

/-- A new round. -/
theorem Sent.openRow (h : b.Sent done) : b.openRow.Sent done where
  toNumbered := h.toNumbered.openRow
  consensus := h.consensus
  lt j hj := (h.lt j hj).trans (by simp [Board.openRow])
  complete j hj := by
    have hrow : b.openRow.row j = b.row j := by
      rw [row_openRow, if_neg (Nat.ne_of_lt (h.lt j hj))]
    unfold Complete
    rw [hrow]
    exact h.complete j hj

/-- An entry after which the round is sent if it is complete. -/
theorem Sent.send (h : b.Sent done) {i : ℕ} (hi : i < b.rows.next) {complete : Bool}
    (hcomplete : complete = true ↔ b.Complete i) :
    (b.send complete (b.row i).index).Sent (done ++ if complete then [i] else []) where
  toNumbered := ⟨h.current, h.index⟩
  consensus := by
    simp only [Board.send, h.consensus, h.index i hi]
  lt j hj := by
    rcases List.mem_append.mp hj with hold | hnew
    · exact h.lt j hold
    · split_ifs at hnew
      · exact List.mem_singleton.mp hnew ▸ hi
      · cases hnew
  complete j hj := by
    rcases List.mem_append.mp hj with hold | hnew
    · exact h.complete j hold
    · split_ifs at hnew with hsent
      · exact List.mem_singleton.mp hnew ▸ hcomplete.mp hsent
      · cases hnew

end Board

namespace JPGraph

/-- The round in which the next turn of `RoundLoop` enters its vertex. -/
def turnRound (jp : JPGraph) : Option ℕ :=
  match jp.roundTrigger with
  | [] => none
  | v :: _ => (jp.vert v).event.roundID.bind fun cell =>
    (jp.turnGraph v cell).findRound ((jp.turnGraph v cell).cells.get cell)

/-- A turn of `RoundLoop` on the board: a round may be opened, and an entry may be made in the
round that is found, which is then sent if it is complete. -/
theorem roundTurn_board (jp : JPGraph) : Ensures jp.roundTurn fun jp' => ∃ b,
    (b = jp.board ∨ b = jp.board.openRow) ∧
      (jp.turnRound = none ∧ jp'.board = b ∨
        ∃ i k v complete, jp.turnRound = some i ∧ i < b.rows.next ∧
          (complete = true ↔ (b.enter i k v).Complete i) ∧
          jp'.board = (b.enter i k v).send complete (b.row i).index) := by
  intro jp' hjp'
  obtain ⟨v, rest, cell, hq, hcell, hturn⟩ := jp.roundTurn_spec jp' hjp'
  have hround : jp.turnRound =
      (jp.turnGraph v cell).findRound ((jp.turnGraph v cell).cells.get cell) := by
    unfold turnRound
    rw [hq]
    dsimp only
    rw [hcell, Option.bind_some]
  refine ⟨(jp.turnGraph v cell).board, ?_, ?_⟩
  · unfold turnGraph
    split_ifs
    · exact Or.inr (board_openRound jp cell)
    · exact Or.inl rfl
  · generalize jp.turnGraph v cell = g at hturn hround
    rw [hround]
    rcases hturn with ⟨hnone, rfl⟩ | ⟨i, complete, hi, -, hcomplete, rfl⟩
    · exact Or.inl ⟨hnone, rfl⟩
    · have hlt : i < g.board.rows.next :=
        (findRound_eq_some hi).1.trans_eq (Heap.next_map ..).symm
      refine Or.inr ⟨i, (jp.vert v).seqNum, v, complete, hi, hlt, ?_, ?_⟩
      · have hrow := Board.row_enter hlt (jp.vert v).seqNum v
        unfold Board.Complete
        rw [hrow, row_board, ← allCome_eq_true_iff]
        have hall : allCome (g.round i).row.broadness
            ((g.round i).row.witnesses.set (jp.vert v).seqNum (some v)) = .ok complete := hcomplete
        rw [hall, Except.ok.injEq]
      · rw [← board_setWitness, row_board]
        rfl

/-- What `AddEvent` does to the board: nothing, or an entry. -/
theorem AddEffect.board {jp' : JPGraph} {e : Event ℕ} {ty : ℕ} (h : AddEffect keccak jp e ty jp') :
    jp'.board = jp.board ∨ ∃ i k v, jp'.board = jp.board.enter i k v := by
  have hcolumns : (jp.withColumns e).board = jp.board :=
    read_withColumns (g := JPGraph.board) (fun _ _ _ _ => by rfl) jp e
  cases h with
  | rejected _ hgraph => exact Or.inl (by rw [hgraph])
  | known _ u _ hgraph =>
    refine Or.inl ?_
    rw [hgraph]
    split_ifs
    · exact hcolumns
    · exact hcolumns
  | stored hvalid hmissing x i hx hi hfits hgraph =>
    obtain ⟨r, i, -, -, hboard⟩ := (AddEffect.stored hvalid hmissing x i hx hi hfits
      hgraph).board_new hvalid hmissing
    rw [hboard]
    split_ifs
    · exact Or.inr ⟨i, _, _, rfl⟩
    · exact Or.inl rfl

/-- The first witnesses of a round are all in its table. -/
def Complete (jp : JPGraph) (i : ℕ) : Prop :=
  ∀ k < (jp.round i).broadness, (jp.entry i k).isSome

instance (jp : JPGraph) (i : ℕ) : Decidable (jp.Complete i) :=
  inferInstanceAs (Decidable (∀ k < _, _))

theorem complete_board (jp : JPGraph) (i : ℕ) : jp.board.Complete i ↔ jp.Complete i := by
  unfold Board.Complete
  rw [row_board]
  rfl

/-- No round was sent twice, and only complete rounds were sent. -/
def SendsOnce (jp : JPGraph) : Prop :=
  jp.consensusTrigger.Nodup ∧
    ∀ r ∈ jp.consensusTrigger, ∃ i < jp.rounds.next, (jp.round i).index = r ∧ jp.Complete i

instance (jp : JPGraph) : Decidable jp.SendsOnce :=
  inferInstanceAs (Decidable (_ ∧ ∀ r ∈ _, ∃ i, i < _ ∧ _))

/-- Whatever was sent is complete, so only repetitions count. -/
theorem sendsOnce_iff_nodup (h : jp.board.Sent done) : jp.SendsOnce ↔ done.Nodup := by
  have hsent : jp.consensusTrigger = done := h.consensus
  unfold SendsOnce
  rw [hsent, and_iff_left]
  intro i hi
  have hlt : i < jp.rounds.next := (h.lt i hi).trans_eq (Heap.next_map ..)
  have hindex := h.index i (h.lt i hi)
  rw [row_board] at hindex
  exact ⟨i, hlt, hindex, (complete_board jp i).mp (h.complete i hi)⟩

end JPGraph

/-- What happens around `RoundLoop`: a move of the node, or a vertex is delivered to it. -/
inductive Feed
  /-- A move of the node. -/
  | move (m : Move)
  /-- A vertex is sent to `roundTrigger`. -/
  | deliver (v : ℕ)

namespace Site

/-- The round that a turn of `RoundLoop` leaves complete. -/
def leftComplete (s s' : Site) : Move → List ℕ
  | .roundLoop => s.graph.turnRound.toList.filter fun i => s'.graph.Complete i
  | _ => []

/-- A move or a delivery, with the round that it leaves complete. -/
def feed (keccak : List UInt8 → Hash) (s : Site) : Feed → Except Stop (Site × List ℕ)
  | .move m => (s.step keccak m).map fun s' => (s', s.leftComplete s' m)
  | .deliver v => .ok ({ s with graph := s.graph.triggerRound v }, [])

/-- `RoundLoop` does not get a vertex of a round that it has left complete before. -/
def TurnsAnew (s : Site × List ℕ) : Feed → Prop
  | .move .roundLoop => ∀ i ∈ s.1.graph.turnRound, i ∉ s.2
  | _ => True

instance (s : Site × List ℕ) (a : Feed) : Decidable (TurnsAnew s a) :=
  match a with
  | .move .roundLoop => inferInstanceAs (Decidable (∀ i ∈ s.1.graph.turnRound, _))
  | .move (.arrive _ _) => isTrue trivial
  | .move (.compose _ _) => isTrue trivial
  | .move (.add _ _) => isTrue trivial
  | .move (.monitor _) => isTrue trivial
  | .deliver _ => isTrue trivial

variable {s : Site}

/-- Moves other than turns of `RoundLoop` do nothing to the board, or make an entry. -/
theorem board_step (h : Linked s.graph) {m : Move} (hm : m ≠ .roundLoop) :
    Ensures (s.step keccak m) fun s' =>
      s'.graph.board = s.graph.board ∨ ∃ i k v, s'.graph.board = s.graph.board.enter i k v := by
  intro s' hs'
  cases hadded : s.added m with
  | some event =>
    obtain ⟨jp₀, e₀, hrec, -, heffect, -⟩ := step_effect h hadded s' hs'
    have hboard : jp₀.board = s.graph.board := by
      rw [hrec.rest]
      rfl
    rw [← hboard]
    exact heffect.board
  | none =>
    refine Or.inl ?_
    cases otherMove hadded hs' with
    | compose now rand r hr heq =>
      obtain ⟨c, i, k, jp₁, -, -, -, -, hrests, hgraph⟩ :=
        s.graph.composeEvent_spec keccak now rand r hr
      rw [heq, hgraph]
      exact hrests.alike.board
    | roundLoop jp hjp heq => exact absurd rfl hm
    | monitor order r hr heq =>
      rw [heq]
      cases monitorStep_effect s.monitor s.graph order r hr with
      | front i _ _ _ hgraph => rw [hgraph]
      | receive i v rest _ _ _ hgraph => exact hgraph.alike.board
      | put v _ _ hgraph =>
        rw [hgraph]
        rfl
      | mark v _ _ hgraph =>
        rw [hgraph]
        rfl
      | trigger v _ _ hgraph =>
        rw [hgraph]
        rfl

theorem sendsOnce_silent {a : Feed} (h : s.graph.board.Sent done) (h' : jp.board.Sent done)
    (ha : TurnsAnew (s, done) a) : jp.SendsOnce ↔ s.graph.SendsOnce ∧ TurnsAnew (s, done) a := by
  rw [JPGraph.sendsOnce_iff_nodup h, JPGraph.sendsOnce_iff_nodup h', and_iff_left ha]

/-- A turn of `RoundLoop` sends a round for the first time just when no earlier turn has left it
complete. -/
theorem sent_roundLoop (h : s.graph.board.Sent done) : Ensures (s.step keccak .roundLoop) fun s' =>
      s'.graph.board.Sent (done ++ s.leftComplete s' .roundLoop) ∧
        (s'.graph.SendsOnce ↔ s.graph.SendsOnce ∧ TurnsAnew (s, done) (.move .roundLoop)) := by
  intro s' hs'
  obtain ⟨jp, hjp, rfl⟩ := exists_of_map_eq_ok hs'
  obtain ⟨b, hb, hturn⟩ := s.graph.roundTurn_board jp hjp
  have hsent : b.Sent done := by
    rcases hb with rfl | rfl
    · exact h
    · exact h.openRow
  unfold leftComplete
  dsimp only
  rcases hturn with ⟨hnone, hboard⟩ | ⟨i, k, v, complete, hi, hlt, hcomplete, hboard⟩
  · have hsame : jp.board.Sent done := hboard ▸ hsent
    rw [hnone]
    have hanew : TurnsAnew (s, done) (.move .roundLoop) := by simp [TurnsAnew, hnone]
    exact ⟨by simpa using hsame, sendsOnce_silent h hsame hanew⟩
  · have henter := hsent.enter i k v
    have hlt' : i < (b.enter i k v).rows.next := hlt.trans_eq (Heap.next_update ..).symm
    have hafter : jp.Complete i ↔ complete = true := by
      rw [← JPGraph.complete_board, hboard, hcomplete]
      rfl
    have hleft : s.graph.turnRound.toList.filter (fun i => jp.Complete i) =
        if complete then [i] else [] := by
      rw [hi, Option.toList_some, List.filter_cons, List.filter_nil]
      simp only [hafter, decide_eq_true_eq]
    have hsent' : jp.board.Sent (done ++ if complete then [i] else []) := by
      have hsend := henter.send hlt' hcomplete
      rw [Board.index_enter] at hsend
      exact hboard ▸ hsend
    rw [hleft]
    refine ⟨hsent', ?_⟩
    rw [JPGraph.sendsOnce_iff_nodup h, JPGraph.sendsOnce_iff_nodup hsent']
    have hanew : TurnsAnew (s, done) (.move .roundLoop) ↔ i ∉ done := by
      simp [TurnsAnew, hi]
    rw [hanew]
    cases complete with
    | true =>
      rw [if_pos rfl, List.nodup_append_comm, List.singleton_append, List.nodup_cons, and_comm]
    | false =>
      -- a round that was left complete before would be complete now
      have hnew : i ∉ done := fun hmem => by
        simpa using hcomplete.mpr (henter.complete i hmem)
      simp [hnew]

/-- Every move and every delivery keeps the account of what was sent. -/
theorem sent_feed {s : Site × List ℕ} (h : Linked s.1.graph ∧ s.1.graph.board.Sent s.2) (a : Feed) :
    Ensures (logged (feed keccak) s a) fun s' =>
      (Linked s'.1.graph ∧ s'.1.graph.board.Sent s'.2) ∧
        (s'.1.graph.SendsOnce ↔ s.1.graph.SendsOnce ∧ TurnsAnew s a) := by
  obtain ⟨s, done⟩ := s
  obtain ⟨hlinked, hsent⟩ := h
  intro q hq
  obtain ⟨⟨s', left⟩, hs', rfl⟩ := exists_of_map_eq_ok hq
  cases a with
  | deliver v =>
    cases hs'
    have hsame : (s.graph.triggerRound v).board.Sent done := hsent
    have hlinked' : Linked (s.graph.triggerRound v) :=
      ⟨⟨hlinked.wf.col_lt, hlinked.wf.col_inj⟩, hlinked.sound, hlinked.columnar,
        hlinked.waiting, hlinked.queue⟩
    refine ⟨⟨hlinked', ?_⟩, sendsOnce_silent hsent hsame trivial⟩
    rw [List.append_nil]
    exact hsame
  | move m =>
    obtain ⟨s₁, hs₁, heq⟩ := exists_of_map_eq_ok hs'
    cases heq
    have hlinked' := hlinked.step m s' hs₁
    by_cases hm : m = .roundLoop
    · subst hm
      obtain ⟨hsent', hiff⟩ := sent_roundLoop hsent s' hs₁
      exact ⟨⟨hlinked', hsent'⟩, hiff⟩
    · have hsame : s'.graph.board.Sent done := by
        rcases board_step hlinked hm s' hs₁ with hboard | ⟨i, k, v, hboard⟩
        · exact hboard ▸ hsent
        · exact hboard ▸ hsent.enter i k v
      have hsilent : s.leftComplete s' m = [] ∧ TurnsAnew (s, done) (.move m) := by
        cases m with
        | roundLoop => exact absurd rfl hm
        | _ => exact ⟨rfl, trivial⟩
      refine ⟨⟨hlinked', ?_⟩, sendsOnce_silent hsent hsame hsilent.2⟩
      rw [hsilent.1, List.append_nil]
      exact hsame

/-- Nothing was sent in a new graph. -/
theorem sent_newSite (coinbase : Address) (broadness : ℕ) :
    (newSite coinbase broadness).graph.board.Sent [] where
  current := rfl
  index i hi := by
    have hzero : i = 0 := Nat.lt_one_iff.mp hi
    rw [hzero]
    rfl
  consensus := rfl
  lt _ hi := nomatch hi
  complete _ hi := nomatch hi

end Site

/-- Whatever the node does and whatever vertices are delivered to `RoundLoop`, no round is sent
twice and only complete rounds are sent, just when `RoundLoop` gets no vertex of a round that it
has left complete before. -/
theorem sendsOnce_iff_turnsAnew (keccak : List UInt8 → Hash) {coinbase : Address} {broadness : ℕ}
    {feeds : List Feed} {s : Site × List ℕ}
    (hrun : run (logged (Site.feed keccak)) (newSite coinbase broadness, []) feeds = .ok s) :
    s.1.graph.SendsOnce ↔
      Meets (logged (Site.feed keccak)) Site.TurnsAnew (newSite coinbase broadness, []) feeds := by
  have hsent := Site.sent_newSite coinbase broadness
  have hstep (s : Site × List ℕ) (a : Feed)
      (h : Site.Linked s.1.graph ∧ s.1.graph.board.Sent s.2) :
      Ensures (logged (Site.feed keccak) s a) fun s' =>
        (Site.Linked s'.1.graph ∧ s'.1.graph.board.Sent s'.2) ∧
          (s'.1.graph.SendsOnce ↔ s.1.graph.SendsOnce ∧ Site.TurnsAnew s a) :=
    Site.sent_feed h a
  have hiff : s.1.graph.SendsOnce ↔ (newSite coinbase broadness).graph.SendsOnce ∧
      Meets (logged (Site.feed keccak)) Site.TurnsAnew (newSite coinbase broadness, []) feeds :=
    run_iff_meets (P := fun s => s.1.graph.SendsOnce) hstep
      ⟨Site.linked_newSite coinbase broadness, hsent⟩ feeds s hrun
  rw [hiff, and_iff_right]
  exact (JPGraph.sendsOnce_iff_nodup hsent).mpr List.nodup_nil

/-- Nodes `0x0a` and `0x0b` have one event each in round 0 of node `0x0a`, and a witness copy of
the second one is delivered the given number of times. -/
def witnessCopies (n : ℕ) : List Feed :=
  [.move (.compose 1 0), .move (.add 0 Mark.normal), .move (.arrive eventB Mark.normal)] ++
    (List.replicate n [.move (.arrive eventB Mark.witness), .move .roundLoop]).flatten

/-- Node `0x0a` after these deliveries. -/
def copiesSite (n : ℕ) : Site × List ℕ :=
  (run (logged (Site.feed triangleKeccak)) (newSite (FixedBytes.ofNat 20 0x0A) 2, [])
    (witnessCopies n)).toOption.getD (newSite (FixedBytes.ofNat 20 0x0A) 2, [])

/-- Node `0x0a`, which is alone, gets its first event back as a witness. Its second event is a
local witness, for which `RoundLoop` opens round 1. -/
def bothSent : List Feed :=
  [.move (.compose 1 0), .move (.add 0 Mark.normal), .move (.arrive eventA1 Mark.witness),
    .move .roundLoop, .move (.compose 3 0), .move (.add 1 Mark.normal)] ++
    List.replicate 5 (.move (.monitor fun _ => [])) ++ [.move .roundLoop]

/-- Node `0x0a` after these moves. -/
def bothSentSite : Site × List ℕ :=
  (run (logged (Site.feed soloKeccak)) (newSite (FixedBytes.ofNat 20 0x0A) 1, [])
    bothSent).toOption.getD (newSite (FixedBytes.ofNat 20 0x0A) 1, [])

/-- Both rounds are sent, each of them once. -/
theorem sendsOnce_bothSent :
    bothSentSite.1.graph.consensusTrigger = [0, 1] ∧ bothSentSite.1.graph.SendsOnce := by
  have hrun : run (logged (Site.feed soloKeccak)) (newSite (FixedBytes.ofNat 20 0x0A) 1, [])
      bothSent = .ok bothSentSite := eq_ok_getD (by decide +kernel) _
  exact ⟨by decide +kernel, (sendsOnce_iff_turnsAnew soloKeccak hrun).mpr (by decide +kernel)⟩

/-- The second witness copy sends round 0 again. -/
theorem not_sendsOnce_witnessCopies_two :
    run (logged (Site.feed triangleKeccak)) (newSite (FixedBytes.ofNat 20 0x0A) 2, [])
        (witnessCopies 2) = .ok (copiesSite 2) ∧
      (copiesSite 2).1.graph.consensusTrigger = [0, 0] ∧ ¬ (copiesSite 2).1.graph.SendsOnce :=
  ⟨eq_ok_getD (by decide +kernel) _, by decide +kernel, by decide +kernel⟩

end Hashgrid.Core
