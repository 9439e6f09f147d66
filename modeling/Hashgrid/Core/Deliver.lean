import Hashgrid.Core.Board
import Hashgrid.Core.IndexRange

/-!
# Delivering an event

A copy of an event is passed to `AddEvent`, and `RoundLoop` drains its channel. A copy of a
new event is filed by `AddEvent` and sends nothing to `RoundLoop`. A normal copy of a stored
event does nothing, and a witness copy of it makes `RoundLoop` take a turn.
-/

namespace Hashgrid.Core

open Hashgrid.Bytes Hashgrid.Machine Hashgrid.Links

variable {jp : JPGraph} {v : ℕ} {keccak : List UInt8 → Hash} {s : Site} {e : Event ℤ}

namespace JPGraph

/-- `RoundLoop` takes the given number of turns. -/
def takeTurns (jp : JPGraph) : ℕ → Except Stop JPGraph
  | 0 => .ok jp
  | n + 1 => do
    let jp ← jp.roundTurn
    jp.takeTurns n

/-- `RoundLoop` drains its channel. -/
def drain (jp : JPGraph) : Except Stop JPGraph := jp.takeTurns jp.roundTrigger.length

/-- A copy of an event is passed to `AddEvent`, and `RoundLoop` drains its channel. -/
def deliver (keccak : List UInt8 → Hash) (jp : JPGraph) (copy : Event ℤ × ℕ) :
    Except Stop JPGraph := do
  let jp ← jp.arriveEvent keccak copy
  jp.drain

theorem drain_nil (h : jp.roundTrigger = []) : jp.drain = .ok jp := by
  unfold drain
  rw [h]
  rfl

/-- A channel with one vertex is drained in one turn. -/
theorem drain_singleton (h : jp.roundTrigger = [v]) : jp.drain = jp.roundTurn := by
  unfold drain
  rw [h]
  simp only [List.length_singleton, takeTurns]
  cases jp.roundTurn <;> rfl

end JPGraph

namespace Site

/-- Turns of `RoundLoop` are moves, and leave a shorter channel. -/
theorem run_takeTurns (keccak : List UInt8 → Hash) {n : ℕ} (h : s.graph.takeTurns n = .ok jp) :
    run (step keccak) s (List.replicate n .roundLoop) = .ok { s with graph := jp } ∧
      jp.roundTrigger = s.graph.roundTrigger.drop n := by
  induction n generalizing s with
  | zero =>
    cases h
    exact ⟨rfl, rfl⟩
  | succ n ih =>
    cases hturn : s.graph.roundTurn with
    | error stop =>
      simp only [JPGraph.takeTurns, hturn] at h
      cases h
    | ok jp₁ =>
      simp only [JPGraph.takeTurns, hturn] at h
      obtain ⟨v, rest, cell, hq, -, -, hrest, -⟩ := s.graph.roundTurn_frame jp₁ hturn
      obtain ⟨hrun, htrigger⟩ := ih (s := { s with graph := jp₁ }) h
      have hstep : s.step keccak .roundLoop = .ok { s with graph := jp₁ } := by
        simp only [step, hturn]
        rfl
      refine ⟨?_, ?_⟩
      · simp only [List.replicate_succ, run, hstep]
        exact hrun
      · rw [htrigger, hq]
        exact congrArg (List.drop n) hrest

/-- Draining the channel of `RoundLoop` is a run, and leaves the channel empty. -/
theorem run_drain (keccak : List UInt8 → Hash) (h : s.graph.drain = .ok jp) :
    (∃ moves, run (step keccak) s moves = .ok { s with graph := jp }) ∧ jp.roundTrigger = [] := by
  obtain ⟨hrun, htrigger⟩ := run_takeTurns keccak h
  refine ⟨⟨_, hrun⟩, ?_⟩
  rw [htrigger, List.drop_length]

/-- A state in order, in which the channel of `RoundLoop` was drained. -/
structure Settled (s : Site) : Prop where
  /-- Columns, tables and pointers are in order. -/
  ranged : s.Ranged
  /-- The channel is empty. -/
  drained : s.graph.roundTrigger = []

/-- A delivery is a run, and leaves the channel empty. -/
theorem Settled.deliver (h : s.Settled) (copy : Event ℤ × ℕ) :
    Ensures (s.graph.deliver keccak copy) fun jp => Settled { s with graph := jp } := by
  intro jp hjp
  unfold JPGraph.deliver at hjp
  cases harrive : s.graph.arriveEvent keccak copy with
  | error stop =>
    rw [harrive] at hjp
    cases hjp
  | ok jp₁ =>
    rw [harrive] at hjp
    have hstep : s.step keccak (.arrive copy.1 copy.2) = .ok { s with graph := jp₁ } := by
      simp only [step, harrive]
      rfl
    have hranged₁ := s.ranged_step h.ranged _ _ hstep
    have hdrain : ({ s with graph := jp₁ } : Site).graph.drain = .ok jp := hjp
    obtain ⟨⟨moves, hrun⟩, hempty⟩ := run_drain keccak hdrain
    exact ⟨run_preserves (fun s m h => s.ranged_step h m) hranged₁ moves _ hrun, hempty⟩

end Site

namespace JPGraph

/-- The board, the links, the channel of `RoundLoop` and a vertex stay as they are. -/
structure Leaves (v : ℕ) (jp jp' : JPGraph) : Prop where
  /-- The board stays. -/
  board : jp'.board = jp.board
  /-- The links stay. -/
  links : jp'.links = jp.links
  /-- The channel stays. -/
  trigger : jp'.roundTrigger = jp.roundTrigger
  /-- The vertices stay. -/
  verts : jp'.verts = jp.verts
  /-- The round number of the vertex stays. -/
  roundID : jp'.roundID v = jp.roundID v
  /-- The pointer of the vertex leads to a round number. -/
  points : jp'.PointsIn (jp'.vert v).event

/-- The columns of an event leave vertices and board as they are. -/
theorem leaves_withColumns {jp₀ : JPGraph} {e₀ : Event ℕ} (hwf : jp.Wf)
    (hrec : Received jp e jp₀ e₀) (hpoints : jp.PointsIn (jp.vert v).event) :
    Leaves v jp (jp₀.withColumns e₀) := by
  have hgrown := grown_withColumns (hrec.wf hwf) e₀
  have hverts₀ : jp₀.verts = jp.verts := hrec.read fun _ _ => by rfl
  have hverts : (jp₀.withColumns e₀).verts = jp.verts := hgrown.verts.trans hverts₀
  have hvert : (jp₀.withColumns e₀).vert v = jp.vert v := congrArg (Heap.get · v) hverts
  refine ⟨?_, ?_, ?_, hverts, ?_, ?_⟩
  · refine (read_withColumns (g := board) (fun _ _ _ _ => by rfl) jp₀ e₀).trans ?_
    exact hrec.read fun _ _ => by rfl
  · exact hgrown.links.trans hrec.links
  · refine (read_withColumns (g := roundTrigger) (fun _ _ _ _ => by rfl) jp₀ e₀).trans ?_
    exact hrec.read fun _ _ => by rfl
  · unfold roundID
    rw [hvert]
    refine roundOf_congr fun k hk => ?_
    rw [hgrown.cells]
    exact hrec.cells k (hpoints k hk)
  · intro k hk
    rw [hvert] at hk
    rw [hgrown.cells]
    exact Nat.lt_of_lt_of_le (hpoints k hk) hrec.grown

end JPGraph

namespace Site

/-- A normal copy of a stored event leaves everything as it is. -/
theorem Settled.deliver_normal (h : s.Settled) (hvalid : validateEvent keccak e = true)
    (hheld : s.graph.held e.selfSig.addr e.selfHash = some v) :
    ∃ jp, s.graph.deliver keccak (e, Mark.normal) = .ok jp ∧ s.graph.Leaves v jp := by
  have hrec := received_receive s.graph e
  have hknown := JPGraph.addEvent_known (hrec.wf h.ranged.linked.wf)
    ((hrec.validate keccak).trans hvalid) (hrec.held.trans hheld) Mark.normal
  have hleaves := JPGraph.leaves_withColumns h.ranged.linked.wf hrec (h.ranged.pointed.vert v)
  refine ⟨_, ?_, hleaves⟩
  have harrive : s.graph.arriveEvent keccak (e, Mark.normal) =
      .ok ((s.graph.receive e).1.withColumns (s.graph.receive e).2) := by
    rw [JPGraph.arriveEvent_eq, hknown]
    rfl
  simp only [JPGraph.deliver, harrive]
  exact JPGraph.drain_nil (hleaves.trigger.trans h.drained)

/-- A witness copy of a stored event marks it, and `RoundLoop` takes a turn with it. -/
theorem Settled.deliver_witness (h : s.Settled) (hvalid : validateEvent keccak e = true)
    (hheld : s.graph.held e.selfSig.addr e.selfHash = some v) :
    (s.graph.deliver keccak (e, Mark.witness)).map JPGraph.board =
        s.graph.board.turn Mark.witness (s.graph.roundID v) (s.graph.vert v).seqNum v ∧
      Ensures (s.graph.deliver keccak (e, Mark.witness)) fun jp =>
        jp.held e.selfSig.addr e.selfHash = some v ∧ (jp.vert v).witness = Mark.witness := by
  have hrec := received_receive s.graph e
  have hknown := JPGraph.addEvent_known (hrec.wf h.ranged.linked.wf)
    ((hrec.validate keccak).trans hvalid) (hrec.held.trans hheld) Mark.witness
  have hleaves := JPGraph.leaves_withColumns h.ranged.linked.wf hrec (h.ranged.pointed.vert v)
  generalize (s.graph.receive e).1.withColumns (s.graph.receive e).2 = g at hknown hleaves
  have hlt : v < g.verts.next := by
    rw [hleaves.verts, ← JPGraph.length_nodes_links]
    exact h.ranged.linked.columnar.lt_of_chain hheld
  have htrigger : (g.existedWitness v Mark.witness).roundTrigger = [v] := by
    change g.roundTrigger ++ [v] = [v]
    rw [hleaves.trigger, h.drained, List.nil_append]
  have hdeliver : s.graph.deliver keccak (e, Mark.witness) =
      (g.existedWitness v Mark.witness).roundTurn := by
    have harrive : s.graph.arriveEvent keccak (e, Mark.witness) =
        .ok (g.existedWitness v Mark.witness) := by
      rw [JPGraph.arriveEvent_eq, hknown]
      rfl
    simp only [JPGraph.deliver, harrive]
    exact JPGraph.drain_singleton htrigger
  have hold : g.vert v = s.graph.vert v := congrArg (Heap.get · v) hleaves.verts
  have hvert : (g.existedWitness v Mark.witness).vert v =
      { s.graph.vert v with witness := Mark.witness } := by
    rw [← hold]
    exact Heap.get_update_self hlt _
  rw [hdeliver]
  refine ⟨?_, fun jp hjp => ?_⟩
  · have hpoints : (g.existedWitness v Mark.witness).PointsIn
        ((g.existedWitness v Mark.witness).vert v).event := by
      rw [hvert, ← hold]
      exact hleaves.points
    have hnumber : (g.existedWitness v Mark.witness).roundID v = s.graph.roundID v := by
      rw [← hleaves.roundID, JPGraph.roundID, hvert, ← hold]
      rfl
    have hboard : (g.existedWitness v Mark.witness).board = s.graph.board := hleaves.board
    rw [JPGraph.board_roundTurn htrigger hpoints, hboard, hnumber, hvert]
  · obtain ⟨-, -, -, -, -, -, -, hverts, -⟩ := JPGraph.roundTurn_frame _ jp hjp
    have hlinks := (JPGraph.linkless_roundTurn _ jp hjp).links
    refine ⟨?_, ?_⟩
    · change jp.links.chain e.selfSig.addr e.selfHash = some v
      rw [hlinks, (JPGraph.frame_existedWitness g v Mark.witness).links, hleaves.links]
      exact hheld
    · have hmark : jp.vert v = (g.existedWitness v Mark.witness).vert v :=
        congrArg (Heap.get · v) hverts
      rw [hmark, hvert]

/-- What a copy of a new event leaves behind when it was filed in round `i`. -/
structure Filed (jp : JPGraph) (e : Event ℤ) (ty i : ℕ) (jp' : JPGraph) : Prop where
  /-- The event has a vertex. -/
  held : jp'.held e.selfSig.addr e.selfHash = some jp.verts.next
  /-- The vertex has the round number of the event. -/
  roundID : jp'.roundID jp.verts.next = e.roundID
  /-- The vertex has the number of its column. -/
  seqNum : (jp'.vert jp.verts.next).seqNum = jp.numberOf e.selfSig.addr
  /-- The vertex is marked. -/
  witness : (jp'.vert jp.verts.next).witness =
    if jp.EntersWitness e ty then Mark.witness else ty
  /-- The vertex is entered as a witness. -/
  board : jp'.board = if jp.EntersWitness e ty then
    jp.board.enter i (jp.numberOf e.selfSig.addr) jp.verts.next else jp.board

/-- A copy of a new event sends nothing to `RoundLoop`. -/
theorem Settled.deliver_eq_arrive (h : s.Settled) (hvalid : validateEvent keccak e = true)
    (hmissing : s.graph.held e.selfSig.addr e.selfHash = none) (ty : ℕ) :
    s.graph.deliver keccak (e, ty) = s.graph.arriveEvent keccak (e, ty) := by
  unfold JPGraph.deliver
  cases harrive : s.graph.arriveEvent keccak (e, ty) with
  | error stop => rfl
  | ok jp =>
    rw [JPGraph.arriveEvent_eq] at harrive
    obtain ⟨r, hadd, rfl⟩ := exists_of_map_eq_ok harrive
    have hrec := received_receive s.graph e
    have heffect := JPGraph.addEvent_effect keccak (hrec.linked h.ranged.linked) _ ty r hadd
    have htrigger := heffect.trigger_new ((hrec.validate keccak).trans hvalid)
      (hrec.held.trans hmissing)
    have hempty : (s.graph.receive e).1.roundTrigger = [] :=
      (hrec.read (g := JPGraph.roundTrigger) fun _ _ => by rfl).trans h.drained
    exact JPGraph.drain_nil (htrigger.trans hempty)

variable {r : ℤ} {i : ℕ}

/-- A copy of a new event is filed, if it gets through. -/
theorem Settled.filed (h : s.Settled) (hvalid : validateEvent keccak e = true)
    (hmissing : s.graph.held e.selfSig.addr e.selfHash = none) (hr : e.roundID = some r)
    (hi : s.graph.searchRound r = some i) (ty : ℕ) :
    Ensures (s.graph.deliver keccak (e, ty)) (Filed s.graph e ty i) := by
  rw [h.deliver_eq_arrive hvalid hmissing]
  intro jp hjp
  have hstep : s.step keccak (.arrive e ty) = .ok { s with graph := jp } := by
    simp only [step, hjp]
    rfl
  have hlinks := (step_added_links h.ranged.linked rfl _ hstep).2.2
  rw [if_pos ⟨hvalid, hmissing⟩] at hlinks
  rw [JPGraph.arriveEvent_eq] at hjp
  obtain ⟨x, hadd, rfl⟩ := exists_of_map_eq_ok hjp
  have hrec := received_receive s.graph e
  have hlinked₀ := hrec.linked h.ranged.linked
  have heffect := JPGraph.addEvent_effect keccak hlinked₀ _ ty x hadd
  have hvalid₀ := (hrec.validate keccak).trans hvalid
  have hmissing₀ := hrec.held.trans hmissing
  have hverts : (s.graph.receive e).1.verts = s.graph.verts := hrec.read fun _ _ => by rfl
  have hlt := heffect.next_new hlinked₀.wf hvalid₀ hmissing₀
  obtain ⟨-, hnew⟩ := heffect.created hlinked₀.wf hlt le_rfl
  rw [hverts] at hnew
  refine ⟨?_, ?_, ?_, ?_, ?_⟩
  · change ({ s with graph := x.1 } : Site).graph.links.chain e.selfSig.addr e.selfHash = _
    rw [hlinks, LinkGraph.add_chain, LinkGraph.chainWith, JPGraph.length_nodes_links]
    exact if_pos ⟨rfl, rfl⟩
  · have hcells : x.1.cells = (s.graph.receive e).1.cells :=
      heffect.read fun _ _ _ _ _ _ _ _ _ _ => by rfl
    rw [← hrec.value, JPGraph.roundID, hnew.event]
    simp only [JPGraph.roundOf, copyEvent_eq, hcells]
  · rw [hnew.seqNum, hrec.numberOf]
  · rw [hnew.witness]
    simp only [hrec.entersWitness]
  · obtain ⟨r', i', hr', hi', hboard⟩ := heffect.board_new hvalid₀ hmissing₀
    obtain rfl : r' = r := Option.some.inj (hr'.symm.trans (hrec.value.trans hr))
    have hsearch : (s.graph.receive e).1.searchRound r' = s.graph.searchRound r' :=
      hrec.read (g := fun jp => jp.searchRound r') fun _ _ => by rfl
    obtain rfl : i' = i := Option.some.inj (hi'.symm.trans (hsearch.trans hi))
    have hboard₀ : (s.graph.receive e).1.board = s.graph.board := hrec.read fun _ _ => by rfl
    rw [hboard, hboard₀, hverts, hrec.numberOf]
    simp only [hrec.entersWitness]

/-- How a copy of a new event fails. -/
theorem Settled.failure_deliver (h : s.Settled) (hvalid : validateEvent keccak e = true)
    (hmissing : s.graph.held e.selfSig.addr e.selfHash = none) (hr : e.roundID = some r)
    (hi : s.graph.searchRound r = some i) (ty : ℕ) :
    failure (s.graph.deliver keccak (e, ty)) =
      if s.graph.EntersWitness e ty ∧ maxNodeCount ≤ s.graph.numberOf e.selfSig.addr then
        some .indexOutOfRange
      else s.graph.joinFailure (some i) := by
  have hrec := received_receive s.graph e
  have hlinked₀ := hrec.linked h.ranged.linked
  have hsearch : (s.graph.receive e).1.searchRound r = some i :=
    (hrec.read (g := fun jp => jp.searchRound r) fun _ _ => by rfl).trans hi
  have hrounds : (s.graph.receive e).1.rounds = s.graph.rounds := hrec.read fun _ _ => by rfl
  have hround : (s.graph.receive e).1.round i = s.graph.round i := congrArg (Heap.get · i) hrounds
  have hlength : (s.graph.round i).witnesses.length = maxNodeCount :=
    (h.ranged.tables i (JPGraph.index_searchRound hi).1).1
  rw [h.deliver_eq_arrive hvalid hmissing, JPGraph.arriveEvent_eq, failure_map,
    JPGraph.failure_addEvent hlinked₀.wf ((hrec.validate keccak).trans hvalid)
      (hrec.held.trans hmissing),
    JPGraph.recordNew_eq hlinked₀ (hrec.held.trans hmissing) (hrec.value.trans hr) hsearch,
    hrec.numberOf, hround, hlength]
  simp only [hrec.entersWitness]
  split_ifs
  · rfl
  · simp only [JPGraph.joinFailure, hround]

/-- A copy of a new event without a round number is a panic. -/
theorem Settled.deliver_nil (h : s.Settled) (hvalid : validateEvent keccak e = true)
    (hmissing : s.graph.held e.selfSig.addr e.selfHash = none) (hr : e.roundID = none) (ty : ℕ) :
    s.graph.deliver keccak (e, ty) = .error .nilDeref := by
  have hrec := received_receive s.graph e
  have hlinked₀ := hrec.linked h.ranged.linked
  rw [h.deliver_eq_arrive hvalid hmissing, eq_error_iff, JPGraph.arriveEvent_eq, failure_map,
    JPGraph.failure_addEvent hlinked₀.wf ((hrec.validate keccak).trans hvalid)
      (hrec.held.trans hmissing),
    JPGraph.recordNew_nil hlinked₀ (hrec.value.trans hr)]

end Site

end Hashgrid.Core
