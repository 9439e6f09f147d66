import Hashgrid.Core.ConsensusOnce

/-!
# The numbers in the round queue

`RoundLoop` is the only one that opens rounds, and it looks at the mark and the round number of
the vertex it gets before it does. Whatever marks and numbers it gets, the rounds in the queue are
numbered downwards from the newest one to 0.
-/

namespace Hashgrid.Core

open Hashgrid.Bytes Hashgrid.Machine Hashgrid.Links

namespace Board

/-- On a numbered board, the search finds the rounds up to the newest one. -/
theorem Numbered.find_isSome_iff {b : Board} (h : b.Numbered) (r : ℤ) :
    (b.find r).isSome ↔ 0 ≤ r ∧ r ≤ b.currentIdx := by
  have hcurrent := h.current
  rw [find, List.find?_isSome]
  simp only [List.mem_reverse, List.mem_range, decide_eq_true_eq]
  constructor
  · rintro ⟨i, hi, rfl⟩
    rw [h.index i hi]
    omega
  · rintro ⟨hlow, hhigh⟩
    refine ⟨r.toNat, by omega, ?_⟩
    rw [h.index _ (by omega)]
    omega

end Board

variable {keccak : List UInt8 → Hash} {jp : JPGraph}

namespace JPGraph

/-- The numbers of the rounds in the queue, front first. -/
def queueIndices (jp : JPGraph) : List ℕ := jp.queue.map fun i => (jp.round i).index

/-- The queue of a numbered board. -/
theorem queueIndices_eq (h : jp.board.Numbered) :
    jp.queueIndices = (List.range (jp.currentIdx + 1)).reverse := by
  have hnext : jp.board.rows.next = jp.rounds.next := Heap.next_map ..
  have hcurrent : jp.currentIdx + 1 = jp.rounds.next := h.current.trans hnext
  rw [queueIndices, queue, hcurrent, List.map_reverse]
  congr 1
  conv_rhs => rw [← List.map_id (List.range jp.rounds.next)]
  refine List.map_congr_left fun i hi => ?_
  have hindex := h.index i (hnext ▸ List.mem_range.mp hi)
  rwa [row_board] at hindex

/-- The front of a numbered queue is the newest round. -/
theorem index_front (h : jp.board.Numbered) {i : ℕ} (hi : jp.queue.head? = some i) :
    (jp.round i).index = jp.currentIdx := by
  have hhead : jp.queueIndices.head? = some (jp.round i).index := by
    rw [queueIndices, List.head?_map, hi]
    rfl
  rw [queueIndices_eq h, List.range_succ, List.reverse_append] at hhead
  exact (Option.some.inj hhead).symm

/-- Opening a round leaves the board numbered. -/
theorem numbered_turnGraph (h : jp.board.Numbered) (v cell : ℕ) :
    (jp.turnGraph v cell).board.Numbered := by
  unfold turnGraph
  split_ifs
  · rw [board_openRound]
    exact h.openRow
  · exact h

/-- `ComposeEvent` makes events of the newest round. -/
theorem roundOf_composeEvent (h : jp.board.Numbered) (hpoints : ∀ v, jp.PointsIn (jp.vert v).event)
    (now : ℤ) (rand : ℕ) :
    Ensures (jp.composeEvent keccak now rand) fun r =>
      r.1.roundOf r.2 = some (jp.currentIdx : ℤ) := by
  intro r hr
  obtain ⟨c, i, k, jp₁, -, hi, hk, hpointer, -, hgraph⟩ :=
    jp.composeEvent_spec keccak now rand r hr
  have hlt : k < (jp.cells.alloc (jp.currentIdx : ℤ)).next := by
    rw [Heap.next_alloc]
    unfold composePointer at hk
    cases htop : (jp.col c).verTop with
    | none =>
      rw [htop] at hk
      cases hk
      exact Nat.lt_succ_self _
    | some v =>
      rw [htop] at hk
      exact (hpoints v k hk).trans (Nat.lt_succ_self _)
  rw [hgraph, roundOf, hpointer, Option.map_some]
  dsimp only
  rw [Heap.get_update_self hlt, index_front h hi]

/-- The round numbers when that of a vertex is set, if it has one. -/
def cellsWith (jp : JPGraph) (v : ℕ) (r : ℤ) : Heap ℤ :=
  match (jp.vert v).event.roundID with
  | some cell => jp.cells.update cell fun _ => r
  | none => jp.cells

/-- A vertex is sent to `RoundLoop` with the given mark and round number, whatever it had before. -/
def deliverAs (jp : JPGraph) (v ty : ℕ) (r : ℤ) : JPGraph :=
  { jp.markVertex v ty with
    cells := jp.cellsWith v r
    roundTrigger := jp.roundTrigger ++ [v] }

/-- Setting a round number makes no new one. -/
@[simp] theorem next_cellsWith (jp : JPGraph) (v : ℕ) (r : ℤ) :
    (jp.cellsWith v r).next = jp.cells.next := by
  unfold cellsWith
  split
  · exact Heap.next_update ..
  · rfl

end JPGraph

/-- What happens around `RoundLoop`: a move of the node, or a vertex is delivered to it. -/
inductive Delivery
  /-- A move of the node. -/
  | move (m : Move)
  /-- A vertex is sent to `roundTrigger` with the given mark and round number. -/
  | vertex (v ty : ℕ) (r : ℤ)

/-- How many turns `RoundLoop` makes. -/
def Delivery.turns : Delivery → ℕ
  | .move .roundLoop => 1
  | _ => 0

namespace Site

/-- A move or a delivery. -/
def deliver (keccak : List UInt8 → Hash) (s : Site) : Delivery → Except Stop Site
  | .move m => s.step keccak m
  | .vertex v ty r => .ok { s with graph := s.graph.deliverAs v ty r }

/-- Columns, links and pointers are in order, and the rounds are numbered. -/
structure Queued (s : Site) : Prop where
  /-- Columns and links. -/
  linked : Linked s.graph
  /-- Pointers to round numbers. -/
  pointed : s.Pointed
  /-- Rounds. -/
  numbered : s.graph.board.Numbered

theorem queued_newSite (coinbase : Address) (broadness : ℕ) :
    (newSite coinbase broadness).Queued :=
  ⟨linked_newSite coinbase broadness, pointed_newSite coinbase broadness,
    (sent_newSite coinbase broadness).toNumbered⟩

variable {s : Site}

/-- A delivery leaves everything in order and opens no round. -/
theorem Queued.deliverAs (h : s.Queued) (v ty : ℕ) (r : ℤ) :
    Queued { s with graph := s.graph.deliverAs v ty r } where
  linked :=
    have hless := s.graph.linkless_markVertex v ty
    ⟨h.linked.wf.congr hless.graph (congrArg Heap.next hless.cols), hless.links ▸ h.linked.sound,
      hless.links ▸ h.linked.columnar, hless.links ▸ h.linked.waiting, h.linked.queue⟩
  pointed :=
    have hnext := s.graph.next_cellsWith v r
    have hevent := (s.graph.linkless_markVertex v ty).event
    ⟨fun u k hk => (h.pointed.vert u k (hevent u ▸ hk)).trans_eq hnext.symm,
      fun e he k hk => (h.pointed.composed e he k hk).trans_eq hnext.symm⟩
  numbered := h.numbered

/-- A turn of `RoundLoop` leaves the rounds numbered, and it opens at most one. -/
theorem numbered_roundTurn (h : jp.board.Numbered) :
    Ensures jp.roundTurn fun jp' => jp'.board.Numbered ∧
      (jp'.currentIdx = jp.currentIdx ∨ jp'.currentIdx = jp.currentIdx + 1) := by
  intro jp' hjp'
  obtain ⟨b, hb, hturn⟩ := jp.roundTurn_board jp' hjp'
  have hopen : b.Numbered ∧
      (b.currentIdx = jp.currentIdx ∨ b.currentIdx = jp.currentIdx + 1) := by
    rcases hb with rfl | rfl
    · exact ⟨h, .inl rfl⟩
    · exact ⟨h.openRow, .inr rfl⟩
  have hidx : jp'.board.currentIdx = jp'.currentIdx := rfl
  rw [← hidx]
  rcases hturn with ⟨-, hboard⟩ | ⟨i, k, v, complete, -, -, -, hboard⟩
  · rw [hboard]
    exact hopen
  · have henter := hopen.1.enter i k v
    rw [hboard]
    exact ⟨⟨henter.current, henter.index⟩, hopen.2⟩

/-- Every move and every delivery leaves everything in order, and only a turn of `RoundLoop` opens
a round. -/
theorem Queued.deliver (h : s.Queued) (d : Delivery) :
    Ensures (s.deliver keccak d) fun s' => s'.Queued ∧
      s.graph.currentIdx ≤ s'.graph.currentIdx ∧
        s'.graph.currentIdx ≤ s.graph.currentIdx + d.turns := by
  intro s' hs'
  cases d with
  | vertex v ty r =>
    cases hs'
    exact ⟨h.deliverAs v ty r, le_rfl, Nat.le_add_right _ _⟩
  | move m =>
    have hlinked := h.linked.step m s' hs'
    have hpointed := (s.pointed_step h.linked h.pointed m s' hs').1
    by_cases hm : m = .roundLoop
    · subst hm
      obtain ⟨jp, hjp, rfl⟩ := exists_of_map_eq_ok hs'
      obtain ⟨hnumbered, hidx⟩ := numbered_roundTurn h.numbered jp hjp
      refine ⟨⟨hlinked, hpointed, hnumbered⟩, ?_⟩
      have hturns : Delivery.turns (.move .roundLoop) = 1 := rfl
      rw [hturns]
      dsimp only
      omega
    · have hsame : s'.graph.board.Numbered ∧ s'.graph.board.currentIdx = s.graph.currentIdx := by
        rcases board_step h.linked hm s' hs' with hboard | ⟨i, k, v, hboard⟩
        · rw [hboard]
          exact ⟨h.numbered, rfl⟩
        · rw [hboard]
          exact ⟨h.numbered.enter i k v, rfl⟩
      have hidx : s'.graph.currentIdx = s.graph.currentIdx := hsame.2
      exact ⟨⟨hlinked, hpointed, hsame.1⟩, hidx.ge, hidx.le.trans (Nat.le_add_right _ _)⟩

/-- Along a run everything stays in order, and no more rounds are opened than `RoundLoop` makes
turns. -/
theorem Queued.run {s' : Site} (h : s.Queued) {ds : List Delivery}
    (hrun : Machine.run (Site.deliver keccak) s ds = .ok s') : s'.Queued ∧
      s.graph.currentIdx ≤ s'.graph.currentIdx ∧
        s'.graph.currentIdx ≤ s.graph.currentIdx + (ds.map Delivery.turns).sum := by
  induction ds generalizing s with
  | nil =>
    cases hrun
    exact ⟨h, le_rfl, le_rfl⟩
  | cons d ds ih =>
    unfold Machine.run at hrun
    cases hstep : s.deliver keccak d with
    | error stop =>
      rw [hstep] at hrun
      cases hrun
    | ok s₁ =>
      rw [hstep] at hrun
      obtain ⟨h₁, hlow, hhigh⟩ := h.deliver d s₁ hstep
      obtain ⟨h', hlow', hhigh'⟩ := ih h₁ hrun
      rw [List.map_cons, List.sum_cons]
      exact ⟨h', hlow.trans hlow', by omega⟩

/-- What the other functions expect of the round queue. -/
structure QueueRight (keccak : List UInt8 → Hash) (s : Site) : Prop where
  /-- The rounds are numbered downwards from the newest one, which is at the front, to 0. -/
  indices : s.graph.queueIndices = (List.range (s.graph.currentIdx + 1)).reverse
  /-- In a turn with a vertex, the search finds a round just when the vertex has the number of
  one. -/
  search : ∀ v cell, (s.graph.vert v).event.roundID = some cell →
    (((s.graph.turnGraph v cell).findRound ((s.graph.turnGraph v cell).cells.get cell)).isSome ↔
      0 ≤ (s.graph.turnGraph v cell).cells.get cell ∧
        (s.graph.turnGraph v cell).cells.get cell ≤ (s.graph.turnGraph v cell).currentIdx)
  /-- Composed events have the number of the newest round. -/
  composed : ∀ now rand r, s.graph.composeEvent keccak now rand = .ok r →
    r.1.roundOf r.2 = some (s.graph.currentIdx : ℤ)

/-- A queue in order is as the other functions expect it. -/
theorem Queued.queueRight (h : s.Queued) (keccak : List UInt8 → Hash) : s.QueueRight keccak where
  indices := JPGraph.queueIndices_eq h.numbered
  search v cell _ := by
    rw [← JPGraph.find_board]
    exact (JPGraph.numbered_turnGraph h.numbered v cell).find_isSome_iff _
  composed now rand := JPGraph.roundOf_composeEvent h.numbered h.pointed.vert now rand

end Site

/-- Whatever the node does and whatever vertices with whatever marks and round numbers are delivered
to `RoundLoop`, the queue holds the rounds from the newest one down to 0, each once, so that the
search of `RoundLoop` finds the numbers from 0 up to the newest one and composed events have the
number of the newest one. From then on the number of the newest round does not decrease, and it
grows by at most one in each turn of `RoundLoop`. -/
theorem roundQueue_right (keccak : List UInt8 → Hash) {coinbase : Address} {broadness : ℕ}
    {ds : List Delivery} {s : Site}
    (hrun : run (Site.deliver keccak) (newSite coinbase broadness) ds = .ok s) :
    s.QueueRight keccak ∧ ∀ ds' s', run (Site.deliver keccak) s ds' = .ok s' →
      s.graph.currentIdx ≤ s'.graph.currentIdx ∧
        s'.graph.currentIdx ≤ s.graph.currentIdx + (ds'.map Delivery.turns).sum := by
  obtain ⟨hqueued, -⟩ := (Site.queued_newSite coinbase broadness).run hrun
  exact ⟨hqueued.queueRight keccak, fun ds' s' hrun' => (hqueued.run hrun').2⟩

/-- Node `0x0a` composes and adds an event, which is delivered three times: as a local witness that
opens round 1, with a negative number and with a number far ahead. -/
def strayDeliveries : List Delivery :=
  [.move (.compose 1 0), .move (.add 0 Mark.normal), .vertex 0 Mark.witnessLocal 0,
    .move .roundLoop, .vertex 0 Mark.witness (-5), .move .roundLoop,
    .vertex 0 Mark.witness 100, .move .roundLoop]

/-- Node `0x0a` after these deliveries. -/
def straySite : Site :=
  (run (Site.deliver triangleKeccak) (newSite (FixedBytes.ofNat 20 0x0A) 3)
    strayDeliveries).toOption.getD (newSite (FixedBytes.ofNat 20 0x0A) 3)

/-- After these deliveries the queue holds the rounds 1 and 0. -/
theorem roundQueue_right_stray :
    straySite.graph.queueIndices = [1, 0] ∧ straySite.QueueRight triangleKeccak := by
  obtain ⟨hok, hindices⟩ : (run (Site.deliver triangleKeccak)
      (newSite (FixedBytes.ofNat 20 0x0A) 3) strayDeliveries).toOption.isSome = true ∧
        straySite.graph.queueIndices = [1, 0] := by decide +kernel
  exact ⟨hindices, (roundQueue_right triangleKeccak (eq_ok_getD hok _)).1⟩

end Hashgrid.Core
