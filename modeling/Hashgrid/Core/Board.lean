import Hashgrid.Core.RoundPointers

/-!
# The board of rounds

An abstract view of the rounds: their witness tables, the number of the newest round and
the complete rounds that were sent. A turn of `RoundLoop` is a function of this board and
of four values of its vertex. A call of `AddEvent` makes at most one entry on it.
-/

namespace Hashgrid.Core

open Hashgrid.Bytes Hashgrid.Machine Hashgrid.Links

/-- A round with its witness table. -/
structure Row where
  /-- The number of the round. -/
  index : ℕ
  /-- The witness of each column. -/
  witnesses : List (Option ℕ)
  /-- Number of columns that take part. -/
  broadness : ℕ
  deriving DecidableEq, Inhabited

/-- The rounds as `RoundLoop` sees them. -/
@[ext]
structure Board where
  /-- The rounds, oldest first. -/
  rows : Heap Row
  /-- The number of the newest round. -/
  currentIdx : ℕ
  /-- The complete rounds that were sent. -/
  consensus : List ℕ
  /-- The configured number of columns. -/
  broadness : ℕ
  deriving DecidableEq

/-- A loop over a table finds a missing witness just when there is one among the first. -/
theorem allCome_eq_false_iff {n : ℕ} {ws : List (Option ℕ)} :
    allCome n ws = .ok false ↔ ∃ k < n, ws[k]? = some none := by
  induction ws generalizing n with
  | nil => cases n <;> simp [allCome]
  | cons w ws ih =>
    cases n with
    | zero => simp [allCome]
    | succ n =>
      cases w with
      | none => exact iff_of_true rfl ⟨0, Nat.succ_pos n, rfl⟩
      | some v =>
        have hrest : allCome (n + 1) (some v :: ws) = allCome n ws := rfl
        rw [hrest, ih]
        constructor
        · rintro ⟨k, hk, hnone⟩
          exact ⟨k + 1, by omega, by simpa using hnone⟩
        · rintro ⟨k, hk, hnone⟩
          cases k with
          | zero => simp at hnone
          | succ k => exact ⟨k, by omega, by simpa using hnone⟩

variable {v : ℕ}

namespace Board

/-- The round behind a reference. -/
def row (b : Board) (i : ℕ) : Row := b.rows.get i

/-- The newest round with the given number. -/
def find (b : Board) (r : ℤ) : Option ℕ :=
  (List.range b.rows.next).reverse.find? fun i => decide (r = (b.row i).index)

/-- Enter a witness. -/
def enter (b : Board) (i k v : ℕ) : Board :=
  { b with rows := b.rows.update i fun r => { r with witnesses := r.witnesses.set k (some v) } }

/-- Open the next round. -/
def openRow (b : Board) : Board :=
  { b with
    rows := b.rows.alloc ⟨b.currentIdx + 1, List.replicate maxNodeCount none, b.broadness⟩
    currentIdx := b.currentIdx + 1 }

/-- Send a round if it is complete. -/
def send (b : Board) (complete : Bool) (index : ℕ) : Board :=
  { b with consensus := b.consensus ++ if complete then [index] else [] }

/-- Enter a witness in the round with the given number, if there is one, and send the round if it
is complete. -/
def record (b : Board) (r : ℤ) (k v : ℕ) : Except Stop Board :=
  match b.find r with
  | none => .ok b
  | some i =>
    if k < (b.row i).witnesses.length then
      (allCome (b.row i).broadness ((b.row i).witnesses.set k (some v))).map fun complete =>
        (b.enter i k v).send complete (b.row i).index
    else .error .indexOutOfRange

/-- A vertex with the given mark and round number opens the next round. -/
def opens (b : Board) (mark : ℕ) (r : ℤ) : Bool :=
  (mark = Mark.witnessLocal ∧ r = b.currentIdx) ∨ (mark = Mark.witness ∧ r = b.currentIdx + 1)

/-- A turn of `RoundLoop` with a vertex of the given mark, round number and column number. -/
def turn (b : Board) (mark : ℕ) (r : Option ℤ) (k v : ℕ) : Except Stop Board :=
  match r with
  | none => .error .nilDeref
  | some r => if b.opens mark r then b.openRow.record (b.currentIdx + 1) k v else b.record r k v

theorem index_enter (b : Board) (i k v j : ℕ) : ((b.enter i k v).row j).index = (b.row j).index :=
  Heap.get_update_of_eq b.rows i (g := Row.index) (fun _ => by rfl) j

theorem find_enter (b : Board) (i k v : ℕ) (r : ℤ) : (b.enter i k v).find r = b.find r := by
  have hnext : (b.enter i k v).rows.next = b.rows.next := Heap.next_update ..
  simp only [find, hnext, index_enter]

variable {b : Board} {i : ℕ} {r : ℤ}

theorem row_enter (hi : i < b.rows.next) (k v : ℕ) : (b.enter i k v).row i =
    { b.row i with witnesses := (b.row i).witnesses.set k (some v) } :=
  Heap.get_update_self hi _

/-- An entry that is made twice. -/
theorem enter_enter (b : Board) (i k v : ℕ) : (b.enter i k v).enter i k v = b.enter i k v := by
  have htwice : (fun r : Row => { r with witnesses := r.witnesses.set k (some v) }) ∘
      (fun r : Row => { r with witnesses := r.witnesses.set k (some v) }) =
        fun r : Row => { r with witnesses := r.witnesses.set k (some v) } := by
    funext r
    simp
  simp only [enter, Heap.update, List.modify_modify_eq, htwice]

variable {k : ℕ}

/-- A board shows an entry that it did not show before. -/
theorem enter_ne (hi : i < b.rows.next) (hk : k < (b.row i).witnesses.length)
    (hnew : (b.row i).witnesses[k]? ≠ some (some v)) : b ≠ b.enter i k v := by
  intro heq
  refine hnew ?_
  rw [heq, row_enter hi]
  simp [hk]

/-- Recording a witness opens no round. -/
theorem currentIdx_record (b : Board) (r : ℤ) (k v : ℕ) :
    Ensures (b.record r k v) fun b' => b'.currentIdx = b.currentIdx := by
  unfold record
  split
  · exact .ok rfl
  · split_ifs
    · exact .map (.self _) fun _ _ => rfl
    · exact .error

theorem send_eq_iff (b : Board) (complete : Bool) (index : ℕ) :
    b.send complete index = b ↔ complete = false := by
  cases complete with
  | false => simp [send]
  | true => simp [send, Board.ext_iff]

/-- Entering a witness and sending the round if it is complete only enters it just when another one
of the first witnesses is missing. -/
theorem record_eq_enter_iff (hfind : b.find r = some i) (hk : k < (b.row i).witnesses.length) :
    b.record r k v = .ok (b.enter i k v) ↔
      ∃ j < (b.row i).broadness, j ≠ k ∧ (b.row i).witnesses[j]? = some none := by
  have hmissing (j : ℕ) : ((b.row i).witnesses.set k (some v))[j]? = some none ↔
      j ≠ k ∧ (b.row i).witnesses[j]? = some none := by
    rw [List.getElem?_set]
    by_cases hjk : k = j
    · simp [hjk]
    · simp [hjk, Ne.symm hjk]
  have hall : allCome (b.row i).broadness ((b.row i).witnesses.set k (some v)) = .ok false ↔
      ∃ j < (b.row i).broadness, j ≠ k ∧ (b.row i).witnesses[j]? = some none := by
    simp only [allCome_eq_false_iff, hmissing]
  rw [← hall]
  unfold record
  rw [hfind]
  dsimp only
  rw [if_pos hk]
  cases allCome (b.row i).broadness ((b.row i).witnesses.set k (some v)) with
  | error stop => exact iff_of_false (fun h => nomatch h) fun h => nomatch h
  | ok complete => simp only [Except.map, Except.ok.injEq, send_eq_iff]

/-- A vertex is entered in round `i`, or was entered there before, and `RoundLoop` gets it as a
witness. The entry is all that happens just when the vertex does not open a round, and another
witness of its round is missing or there is no such round but the vertex was entered before. -/
theorem turn_eq_enter_iff (hi : i < b.rows.next) (hfind : ∀ j, b.find r = some j → j = i)
    (hk : k < (b.row i).witnesses.length) (hnew : (b.row i).witnesses[k]? ≠ some (some v))
    (before : Prop) [Decidable before] :
    (if before then b.enter i k v else b).turn Mark.witness (some r) k v =
        .ok (b.enter i k v) ↔
      r ≠ b.currentIdx + 1 ∧
        match b.find r with
        | some i => ∃ j < (b.row i).broadness, j ≠ k ∧ (b.row i).witnesses[j]? = some none
        | none => before := by
  generalize hb₁ : (if before then b.enter i k v else b) = b₁
  have hcurrent : b₁.currentIdx = b.currentIdx := by
    rw [← hb₁]
    split_ifs <;> rfl
  have hfind₁ : b₁.find r = b.find r := by
    rw [← hb₁]
    split_ifs
    · exact b.find_enter i k v r
    · rfl
  have henter : b₁.enter i k v = b.enter i k v := by
    rw [← hb₁]
    split_ifs
    · exact b.enter_enter i k v
    · rfl
  have hopens : b₁.opens Mark.witness r = decide (r = b.currentIdx + 1) := by
    simp [opens, hcurrent]
  unfold turn
  dsimp only
  rw [hopens]
  by_cases hr : r = b.currentIdx + 1
  · rw [if_pos (decide_eq_true hr)]
    refine iff_of_false (fun heq => ?_) fun h => h.1 hr
    have hidx : (b.enter i k v).currentIdx = b₁.currentIdx + 1 :=
      currentIdx_record b₁.openRow _ k v _ heq
    have hidx : b.currentIdx = b₁.currentIdx + 1 := hidx
    omega
  · rw [if_neg (by simpa using hr)]
    simp only [ne_eq, hr, not_false_eq_true, true_and]
    cases hj : b.find r with
    | none =>
      have hrecord : b₁.record r k v = .ok b₁ := by
        unfold record
        rw [hfind₁, hj]
      rw [hrecord, Except.ok.injEq, ← hb₁]
      by_cases hbefore : before
      · rw [if_pos hbefore]
        exact iff_of_true rfl hbefore
      · rw [if_neg hbefore]
        exact iff_of_false (enter_ne hi hk hnew) hbefore
    | some j =>
      obtain rfl := hfind j hj
      have hrow : (b₁.row j).witnesses.length = (b.row j).witnesses.length ∧
          (b₁.row j).broadness = (b.row j).broadness ∧ ∀ l, l ≠ k →
            (b₁.row j).witnesses[l]? = (b.row j).witnesses[l]? := by
        rw [← hb₁]
        split_ifs
        · rw [row_enter hi]
          exact ⟨List.length_set .., rfl, fun l hl => List.getElem?_set_ne (Ne.symm hl)⟩
        · exact ⟨rfl, rfl, fun _ _ => rfl⟩
      rw [← henter, record_eq_enter_iff (hfind₁.trans hj) (hrow.1 ▸ hk), hrow.2.1]
      refine exists_congr fun l => and_congr_right fun _ => and_congr_right fun hl => ?_
      rw [hrow.2.2 l hl]

end Board

/-- The row of a round. -/
def Round.row (rd : Round) : Row := ⟨rd.index, rd.witnesses, rd.broadness⟩

namespace JPGraph

/-- The board of a graph. -/
def board (jp : JPGraph) : Board :=
  ⟨jp.rounds.map Round.row, jp.currentIdx, jp.consensusTrigger, jp.broadness⟩

variable (jp : JPGraph)

theorem row_board (i : ℕ) : jp.board.row i = (jp.round i).row :=
  Heap.get_map (g := Round.row) rfl jp.rounds i

theorem find_board (r : ℤ) : jp.board.find r = jp.findRound r := by
  have hnext : jp.board.rows.next = jp.rounds.next := Heap.next_map ..
  simp only [Board.find, hnext, row_board]
  rfl

/-- An entry in a table on the board. -/
theorem board_setWitness (i k v : ℕ) : (jp.setWitness i k v).board = jp.board.enter i k v := by
  have hrows : (jp.setWitness i k v).rounds.map Round.row = (jp.board.enter i k v).rows :=
    Heap.map_update _ (fun _ => by rfl) jp.rounds i
  unfold board
  rw [hrows]
  rfl

/-- A new round on the board. -/
theorem board_openRound (cell : ℕ) : (jp.openRound cell).board = jp.board.openRow := by
  have hrows : (jp.openRound cell).rounds.map Round.row = jp.board.openRow.rows :=
    Heap.map_alloc Round.row jp.rounds _
  unfold board
  rw [hrows]
  rfl

/-- The end of a turn of `RoundLoop` on the board. -/
theorem board_enterTurn (r : ℤ) (k v : ℕ) :
    (jp.enterTurn r k v).map board = jp.board.record r k v := by
  unfold enterTurn Board.record
  rw [find_board]
  cases jp.findRound r with
  | none => rfl
  | some i =>
    simp only [row_board]
    have hrow : (jp.round i).row.witnesses = (jp.round i).witnesses := rfl
    rw [hrow]
    split_ifs
    · have hbroad : (jp.round i).row.broadness = (jp.round i).broadness := rfl
      rw [hbroad]
      cases allCome (jp.round i).broadness ((jp.round i).witnesses.set k (some v)) with
      | error stop => rfl
      | ok complete =>
        simp only [Except.map, ← board_setWitness]
        rfl
    · rfl

/-- A turn of `RoundLoop` is a turn on the board. -/
theorem board_roundTurn {jp : JPGraph} {rest : List ℕ} (hq : jp.roundTrigger = v :: rest)
    (hpoints : jp.PointsIn (jp.vert v).event) : jp.roundTurn.map board =
      jp.board.turn (jp.vert v).witness (jp.roundID v) (jp.vert v).seqNum v := by
  cases hcell : (jp.vert v).event.roundID with
  | none =>
    have hnil : (JPGraph.vert { jp with roundTrigger := rest } v).event.roundID = none := hcell
    unfold roundTurn roundLoop roundID roundOf
    rw [hq, hcell]
    dsimp only
    rw [hnil]
    rfl
  | some cell =>
    have hnumber : jp.roundID v = some (jp.cells.get cell) := by
      rw [roundID, roundOf, hcell, Option.map_some]
    have hopens : jp.board.opens (jp.vert v).witness (jp.cells.get cell) =
        jp.opensRound v cell := rfl
    have hturn : JPGraph.board { jp.turnGraph v cell with roundTrigger := rest } =
        (jp.turnGraph v cell).board := rfl
    rw [roundTurn_eq hq hcell, board_enterTurn, hturn, hnumber]
    simp only [Board.turn, hopens, turnGraph]
    split_ifs
    · have hvalue : (jp.openRound cell).cells.get cell = (jp.currentIdx : ℤ) + 1 :=
        Heap.get_update_self (hpoints cell hcell) _
      rw [hvalue, board_openRound]
      rfl
    · rfl

/-- Like graphs have the same board. -/
theorem Alike.board {jp jp' : JPGraph} (h : Alike jp jp') : jp'.board = jp.board := by
  refine h.read (g := JPGraph.board) fun jp => ?_
  have hrows : (jp.rounds.map Round.bare).map Round.row = jp.rounds.map Round.row := by
    simp only [Heap.map, List.map_map]
    rfl
  unfold JPGraph.board
  rw [← hrows]
  rfl

/-- A new witness on the board. -/
theorem board_recordedIn (e : Event ℕ) (ty i : ℕ) :
    (jp.recordedIn e ty i).board = if jp.EntersWitness e ty then
      jp.board.enter i (jp.numberOf e.selfSig.addr) jp.verts.next else jp.board := by
  have hcolumns : (jp.withNew e ty).board = jp.board :=
    read_withColumns (g := board) (fun _ _ _ _ => by rfl) jp e
  unfold recordedIn
  split_ifs
  · rw [board_setWitness, ← hcolumns]
    rfl
  · exact hcolumns

/-- A new event is entered on the board in the round that the search finds, if it is entered as a
witness. -/
theorem AddEffect.board_new {keccak : List UInt8 → Hash} {jp jp' : JPGraph} {e : Event ℕ} {ty : ℕ}
    (h : AddEffect keccak jp e ty jp') (hvalid : validateEvent keccak e = true)
    (hmissing : jp.held e.selfSig.addr e.selfHash = none) :
    ∃ r i, jp.roundOf e = some r ∧ jp.searchRound r = some i ∧
      jp'.board = if jp.EntersWitness e ty then
        jp.board.enter i (jp.numberOf e.selfSig.addr) jp.verts.next else jp.board := by
  cases h with
  | rejected hinvalid _ => simp [hvalid] at hinvalid
  | known _ u hheld _ => simp [hmissing] at hheld
  | stored _ _ x i hx hi _ hgraph =>
    refine ⟨x, i, hx, hi, ?_⟩
    rw [hgraph.board, signalCreated_eq, ← board_recordedIn]
    rfl

end JPGraph

end Hashgrid.Core
