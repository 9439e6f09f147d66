import Hashgrid.Node.Announced

/-!
# The broadcast of a local witness

`MonitorLoop` hands the event of a local witness to the event loop, which broadcasts it,
and its vertex to `RoundLoop`, which enters it in the witness table of a round. Both read
the round number through one pointer, and `RoundLoop` and `ComposeEvent` write through it.
The two ways of a local witness are followed here next to everything else at the node.
-/

namespace Hashgrid.Core

open Hashgrid.Bytes Hashgrid.Machine

namespace JPGraph

/-- The number of the round in whose witness table a turn of `RoundLoop` enters a vertex. -/
def enteredIn (jp : JPGraph) (v : ℕ) : Option ℕ :=
  match (jp.vert v).event.roundID with
  | none => none
  | some cell =>
    let jp := if jp.opensRound v cell then jp.openRound cell else jp
    (jp.findRound (jp.cells.get cell)).map fun i => (jp.round i).index

variable (jp : JPGraph)

/-- The vertices that wait do not matter. -/
theorem enteredIn_rest (rest : List ℕ) (v : ℕ) :
    { jp with roundTrigger := rest }.enteredIn v = jp.enteredIn v := by
  have hvert : ({ jp with roundTrigger := rest } : JPGraph).vert v = jp.vert v := rfl
  unfold enteredIn
  rw [hvert]
  cases (jp.vert v).event.roundID with
  | none => rfl
  | some cell =>
    have hopens : ({ jp with roundTrigger := rest } : JPGraph).opensRound v cell =
      jp.opensRound v cell := rfl
    simp only [hopens]
    cases jp.opensRound v cell <;> rfl

/-- Where a turn of `RoundLoop` enters a vertex. -/
theorem roundLoop_enteredIn (v : ℕ) : Ensures (jp.roundLoop v) fun r =>
    ∀ n, jp.enteredIn v = some n → ∃ i cell, (jp.vert v).event.roundID = some cell ∧
      r.1.cells.get cell = n ∧ (r.1.round i).index = n ∧
      (r.1.round i).witnesses[(jp.vert v).seqNum]? = some (some v) := by
  unfold roundLoop enteredIn
  cases hcell : (jp.vert v).event.roundID with
  | none => exact .error
  | some cell =>
    dsimp only
    generalize hjp₁ : (if jp.opensRound v cell then jp.openRound cell else jp) = jp₁
    have hvert : jp₁.vert v = jp.vert v := by
      rw [← hjp₁]
      split_ifs <;> rfl
    split
    · next hnone => exact .ok fun n hn => by simp [hnone] at hn
    · next i hi =>
      rw [hvert]
      split_ifs with hlt
      · refine .bind (.self _) fun complete _ => .ok fun n hn => ?_
        rw [hi] at hn
        cases hn
        have hfound := List.find?_some hi
        have hindex : jp₁.cells.get cell = (jp₁.round i).index := of_decide_eq_true hfound
        have hin : i < jp₁.rounds.next := by
          have hmem := List.mem_of_find?_eq_some hi
          simpa [queue] using hmem
        have hround : (jp₁.setWitness i (jp.vert v).seqNum v).round i =
            { jp₁.round i with
              witnesses := (jp₁.round i).witnesses.set (jp.vert v).seqNum (some v) } :=
          (Heap.get_update hin _ i).trans (if_pos rfl)
        refine ⟨i, cell, rfl, hindex, ?_, ?_⟩
        · rw [hround]
        · rw [hround]
          simp [hlt]
      · exact .error

end JPGraph

end Hashgrid.Core

namespace Hashgrid.Node

open Hashgrid.Bytes Hashgrid.Core Hashgrid.Machine Hashgrid.Wire

/-- Where the event of a local witness stands on its way to the other nodes. -/
inductive CastStage
  /-- `MonitorLoop` holds it. -/
  | held
  /-- It is in `witnessL`, behind a number of other events. -/
  | channel (n : ℕ)
  /-- A goroutine is about to send it, after it was sent to some peers in these forms. -/
  | sender (j : ℕ) (copies : List (Event ℤ))
  /-- It was encoded and sent to all peers in these forms. -/
  | sent (copies : List (Event ℤ))
  deriving DecidableEq

/-- Where the vertex of a local witness stands on its way to `RoundLoop`. -/
inductive TurnStage
  /-- `MonitorLoop` holds it. -/
  | held
  /-- It is in `roundTrigger`, behind a number of other vertices. -/
  | waiting (n : ℕ)
  /-- `RoundLoop` has made its turn with it, and entered it in the round with this number. -/
  | done (round : Option ℕ)
  deriving DecidableEq

/-- A node with the two ways of a local witness. -/
structure Trail where
  /-- The node. -/
  node : NodeState
  /-- The vertex. -/
  vertex : ℕ
  /-- The way of the event. -/
  cast : CastStage
  /-- The way of the vertex. -/
  turn : TurnStage

/-- The way of the event in a step from the given state. -/
def CastStage.next (s : NodeState) (a : Action) : CastStage → CastStage
  | .held =>
    match a with
    | .monitor _ => .channel s.graph.witnessL.length
    | _ => .held
  | .channel n =>
    match a, n with
    | .handle .witnessL, 0 => .sender s.senders.length []
    | .handle .witnessL, n + 1 => .channel n
    | _, _ => .channel n
  | .sender j copies =>
    match a, s.senders[j]? with
    | .send i, some (.event e _) =>
      if i = j then .sent (copies ++ [wireEvent s.graph e])
      else if i < j then .sender (j - 1) copies else .sender j copies
    | .cast i, some (.event e _) =>
      .sender j (if i = j then copies ++ [wireEvent s.graph e] else copies)
    | _, _ => .sender j copies
  | .sent copies => .sent copies

/-- The way of the vertex in a step from the given state. -/
def TurnStage.next (s : NodeState) (v : ℕ) (a : Action) : TurnStage → TurnStage
  | .held =>
    match a, s.monitor.pc with
    | .monitor _, .trigger _ => .waiting s.graph.roundTrigger.length
    | _, _ => .held
  | .waiting n =>
    match a, s.consensus, n with
    | .roundLoop, none, 0 => .done (s.graph.enteredIn v)
    | .roundLoop, none, n + 1 => .waiting n
    | _, _, _ => .waiting n
  | .done round => .done round

/-- One step of the node, with the two ways. -/
def Trail.step (keccak : List UInt8 → Hash) (t : Trail) (a : Action) : Except Stop Trail :=
  (t.node.step keccak a).map fun r =>
    ⟨r.1, t.vertex, t.cast.next t.node a, t.turn.next t.node t.vertex a⟩

/-- The local witness that `MonitorLoop` has just found. -/
def NodeState.trail (s : NodeState) (v : ℕ) : Trail := ⟨s, v, .held, .held⟩

/-- The forms in which the event was sent. -/
def CastStage.copies : CastStage → List (Event ℤ)
  | .held | .channel _ => []
  | .sender _ copies | .sent copies => copies

/-- The number of the round in which the vertex was entered. -/
def TurnStage.round : TurnStage → Option ℕ
  | .done round => round
  | _ => none

/-- What was sent and what was entered have the same round number. -/
def Trail.Agrees (t : Trail) : Prop :=
  ∀ e ∈ t.cast.copies, ∀ n ∈ t.turn.round, e.roundID = some (n : ℤ)

instance Trail.decidableAgrees (t : Trail) : Decidable t.Agrees :=
  inferInstanceAs (Decidable (∀ e ∈ t.cast.copies, ∀ n ∈ t.turn.round, _))

/-- Some of it has been done, the sending to a peer or the turn of `RoundLoop`, but not all. -/
def Trail.HalfDone (t : Trail) : Prop :=
  match t.cast, t.turn with
  | .sent _, .done _ => False
  | _, .done _ => True
  | cast, _ => cast.copies ≠ []

instance (t : Trail) : Decidable t.HalfDone := by
  unfold Trail.HalfDone
  split <;> infer_instance

/-- From the first of the sendings and the turn of `RoundLoop` to the last of them, this last one
included, nothing writes another number through the round pointer of the local witness. -/
def Trail.Steady (t : Trail) (a : Action) : Prop :=
  t.HalfDone → ∀ k ∈ (t.node.graph.vert t.vertex).event.roundID, ¬ t.node.Rewrites k a

instance (t : Trail) (a : Action) : Decidable (t.Steady a) :=
  inferInstanceAs (Decidable (_ → ∀ k ∈ (t.node.graph.vert t.vertex).event.roundID, _))

variable (s : NodeState) {e : Event ℤ} {x : Option ℕ} {v : ℕ}

/-- An event that `MonitorLoop` holds. -/
theorem CastStage.next_held {a : Action} (ha : ∀ order, ¬ a = .monitor order) :
    CastStage.next s a .held = .held := by
  cases a with
  | monitor order => exact absurd rfl (ha order)
  | _ => rfl

/-- An event in `witnessL`. -/
theorem CastStage.next_channel (n : ℕ) {a : Action} (ha : a ≠ .handle .witnessL) :
    CastStage.next s a (.channel n) = .channel n := by
  cases a with
  | handle b =>
    cases b with
    | witnessL => exact absurd rfl ha
    | _ => rfl
  | _ => rfl

/-- An event that is about to be sent. -/
theorem CastStage.next_sender (j : ℕ) (copies : List (Event ℤ)) {a : Action}
    (hsend : ∀ i, ¬ a = .send i) (hcast : ∀ i, ¬ a = .cast i) :
    CastStage.next s a (.sender j copies) = .sender j copies := by
  cases a with
  | send i => exact absurd rfl (hsend i)
  | cast i => exact absurd rfl (hcast i)
  | _ => rfl

/-- A vertex that `MonitorLoop` holds. -/
theorem TurnStage.next_held (v : ℕ) {a : Action} (ha : ∀ order, ¬ a = .monitor order) :
    TurnStage.next s v a .held = .held := by
  cases a with
  | monitor order => exact absurd rfl (ha order)
  | _ => rfl

/-- A vertex that waits. -/
theorem TurnStage.next_waiting (v n : ℕ) {a : Action} (ha : a ≠ .roundLoop) :
    TurnStage.next s v a (.waiting n) = .waiting n := by
  cases a with
  | roundLoop => exact absurd rfl ha
  | _ => rfl

/-- How an event comes to be sent. -/
theorem CastStage.mem_copies_next {s : NodeState} {a : Action} {c : CastStage}
    (h : e ∈ (c.next s a).copies) : e ∈ c.copies ∨ ∃ j copies e' ty, c = .sender j copies ∧
      (a = .send j ∨ a = .cast j) ∧ s.senders[j]? = some (.event e' ty) ∧
      e = wireEvent s.graph e' := by
  cases c with
  | held => cases a <;> cases h
  | channel n =>
    by_cases ha : a = .handle .witnessL
    · subst ha
      cases n <;> cases h
    · rw [CastStage.next_channel s n ha] at h
      cases h
  | sender j copies =>
    simp only [CastStage.next] at h
    split at h
    · next i e' ty he =>
      split_ifs at h with hij
      · refine (List.mem_append.mp h).imp id fun hnew => ?_
        exact ⟨j, copies, e', ty, rfl, Or.inl (congrArg _ hij), he, List.mem_singleton.mp hnew⟩
      · exact Or.inl h
      · exact Or.inl h
    · next i e' ty he =>
      split_ifs at h with hij
      · refine (List.mem_append.mp h).imp id fun hnew => ?_
        exact ⟨j, copies, e', ty, rfl, Or.inr (congrArg _ hij), he, List.mem_singleton.mp hnew⟩
      · exact Or.inl h
    · exact Or.inl h
  | sent copies => exact Or.inl h

/-- How a turn of `RoundLoop` comes to be done. -/
theorem TurnStage.next_eq_done {s : NodeState} {a : Action} {c : TurnStage}
    (h : c.next s v a = .done x) : c = .done x ∨
      c = .waiting 0 ∧ a = .roundLoop ∧ s.consensus = none ∧ x = s.graph.enteredIn v := by
  cases c with
  | held =>
    simp only [TurnStage.next] at h
    split at h <;> cases h
  | waiting n =>
    by_cases ha : a = .roundLoop
    · subst ha
      cases hidle : s.consensus with
      | none =>
        cases n with
        | zero =>
          simp only [TurnStage.next, hidle, TurnStage.done.injEq] at h
          exact Or.inr ⟨rfl, rfl, rfl, h.symm⟩
        | succ n =>
          simp only [TurnStage.next, hidle] at h
          cases h
      | some idx =>
        simp only [TurnStage.next, hidle] at h
        cases h
    · rw [TurnStage.next_waiting s v n ha] at h
      cases h
  | done y => exact Or.inl h

namespace Trail

/-- The event was sent to a peer before the turn of `RoundLoop`. -/
theorem halfDone_of_mem {t : Trail} (hsent : e ∈ t.cast.copies) (hopen : ∀ x, t.turn ≠ .done x) :
    t.HalfDone := by
  unfold HalfDone
  split
  · next hturn => exact absurd hturn (hopen _)
  · trivial
  · exact List.ne_nil_of_mem hsent

/-- The turn of `RoundLoop` was done before the event was sent. -/
theorem halfDone_of_done {t : Trail} (hdone : t.turn = .done x)
    (hopen : ∀ copies, t.cast ≠ .sent copies) : t.HalfDone := by
  unfold HalfDone
  rw [hdone]
  cases hcast : t.cast with
  | sent copies => exact absurd hcast (hopen copies)
  | _ => trivial

/-- The event is where its way says. -/
def CastOk (k : ℕ) (t : Trail) : Prop :=
  match t.cast with
  | .held => t.node.monitor.pc = .put t.vertex
  | .channel n => ∃ e, t.node.graph.witnessL[n]? = some e ∧ e.roundID = some k
  | .sender j _ => ∃ e ty, t.node.senders[j]? = some (.event e ty) ∧ e.roundID = some k
  | .sent _ => True

/-- The vertex is where its way says. -/
def TurnOk (t : Trail) : Prop :=
  match t.turn with
  | .held => t.node.monitor.pc = .put t.vertex ∨ t.node.monitor.pc = .mark t.vertex ∨
      t.node.monitor.pc = .trigger t.vertex
  | .waiting n => t.node.graph.roundTrigger[n]? = some t.vertex
  | .done _ => True

/-- The numbers that were read agree. What only one of the two has read is still the number behind
the pointer. -/
structure NumberOk (k : ℕ) (t : Trail) : Prop where
  /-- Both have read it. -/
  both : ∀ e ∈ t.cast.copies, ∀ n, t.turn = .done (some n) → e.roundID = some (n : ℤ)
  /-- Only the sender has read it. -/
  sent : ∀ e ∈ t.cast.copies, (∀ x, t.turn ≠ .done x) →
    e.roundID = some (t.node.graph.cells.get k)
  /-- `RoundLoop` has read it, and the sender is going to. -/
  done : ∀ n, t.turn = .done (some n) → (∀ copies, t.cast ≠ .sent copies) →
    t.node.graph.cells.get k = n

/-- A local witness with the given round pointer is on its way. -/
structure Follows (k : ℕ) (t : Trail) : Prop where
  /-- The pointer of the vertex. -/
  pointer : (t.node.graph.vert t.vertex).event.roundID = some k
  /-- It is there. -/
  lt : k < t.node.graph.cells.next
  /-- The event. -/
  cast : t.CastOk k
  /-- The vertex. -/
  turn : t.TurnOk
  /-- The numbers. -/
  number : t.NumberOk k

theorem getElem?_of_prefix {α : Type} {l l' : List α} (h : l <+: l') {n : ℕ} {x : α}
    (hx : l[n]? = some x) : l'[n]? = some x := by
  obtain ⟨rest, rfl⟩ := h
  rw [List.getElem?_append_left (List.getElem?_eq_some_iff.mp hx).1, hx]

section Step

variable {keccak : List UInt8 → Hash} {k : ℕ} {t : Trail} {a : Action}
  {r : NodeState × List Output}

/-- The event goes its way. -/
theorem CastOk.step (h : t.CastOk k)
    (hpointer : (t.node.graph.vert t.vertex).event.roundID = some k)
    (hr : t.node.move keccak a = .ok r) (turn : TurnStage) :
    CastOk k ⟨r.1, t.vertex, t.cast.next t.node a, turn⟩ := by
  obtain ⟨s, v, cast, turn₀⟩ := t
  cases cast with
  | held =>
    change s.monitor.pc = .put v at h
    by_cases ha : ∃ order, a = .monitor order
    · obtain ⟨order, rfl⟩ := ha
      obtain ⟨-, hput⟩ := (s.monitorStep_spec order r hr).of_put h
      refine ⟨(s.graph.vert v).event, ?_, hpointer⟩
      rw [hput]
      simp
    · rw [not_exists] at ha
      rw [CastStage.next_held s ha]
      change r.1.monitor.pc = .put v
      rw [s.move_monitor keccak ha r hr, h]
  | channel n =>
    obtain ⟨e, he, hround⟩ := h
    change s.graph.witnessL[n]? = some e at he
    by_cases ha : a = .handle .witnessL
    · subst ha
      obtain ⟨e', rest, hq, hrest, hsenders⟩ := s.handleStep_witnessL keccak r hr
      rw [hq] at he
      cases n with
      | zero =>
        cases he
        exact ⟨e, Mark.witness, by rw [hsenders]; simp, hround⟩
      | succ n => exact ⟨e, by rw [hrest]; exact he, hround⟩
    · rw [CastStage.next_channel s n ha]
      exact ⟨e, getElem?_of_prefix (s.witnessL_move keccak ha r hr) he, hround⟩
  | sender j copies =>
    obtain ⟨e, ty, he, hround⟩ := h
    change s.senders[j]? = some (.event e ty) at he
    by_cases ha : ∃ i, a = .send i
    · obtain ⟨i, rfl⟩ := ha
      have hsenders := (s.sendStep_senders i r hr).1
      simp only [CastStage.next, he]
      split_ifs with hij hlt
      · trivial
      · refine ⟨e, ty, ?_, hround⟩
        rw [hsenders, List.getElem?_eraseIdx_of_ge (by omega), Nat.sub_add_cancel (by omega), he]
      · refine ⟨e, ty, ?_, hround⟩
        rw [hsenders, List.getElem?_eraseIdx_of_lt (by omega), he]
    · rw [not_exists] at ha
      have hfound := getElem?_of_prefix (s.senders_move keccak ha r hr) he
      by_cases hcast : ∃ i, a = .cast i
      · obtain ⟨i, rfl⟩ := hcast
        simp only [CastStage.next, he]
        exact ⟨e, ty, hfound, hround⟩
      · rw [CastStage.next_sender s j copies ha (not_exists.mp hcast)]
        exact ⟨e, ty, hfound, hround⟩
  | sent copies => trivial

/-- The vertex goes its way. -/
theorem TurnOk.step (h : t.TurnOk) (hr : t.node.move keccak a = .ok r) (cast : CastStage) :
    TurnOk ⟨r.1, t.vertex, cast, t.turn.next t.node t.vertex a⟩ := by
  obtain ⟨s, v, cast₀, turn⟩ := t
  cases turn with
  | held =>
    change s.monitor.pc = .put v ∨ s.monitor.pc = .mark v ∨ s.monitor.pc = .trigger v at h
    by_cases ha : ∃ order, a = .monitor order
    · obtain ⟨order, rfl⟩ := ha
      have heffect := s.monitorStep_spec order r hr
      rcases h with hpc | hpc | hpc
      · have hnext : TurnStage.next s v (.monitor order) .held = .held := by
          simp only [TurnStage.next, hpc]
        rw [hnext]
        exact Or.inr (Or.inl (heffect.of_put hpc).1)
      · have hnext : TurnStage.next s v (.monitor order) .held = .held := by
          simp only [TurnStage.next, hpc]
        rw [hnext]
        exact Or.inr (Or.inr (heffect.of_mark hpc))
      · have hnext : TurnStage.next s v (.monitor order) .held =
            .waiting s.graph.roundTrigger.length := by simp only [TurnStage.next, hpc]
        rw [hnext]
        change r.1.graph.roundTrigger[s.graph.roundTrigger.length]? = some v
        rw [heffect.of_trigger hpc]
        simp
    · rw [not_exists] at ha
      have hsame := s.move_monitor keccak ha r hr
      rw [TurnStage.next_held s v ha]
      change r.1.monitor.pc = .put v ∨ r.1.monitor.pc = .mark v ∨ r.1.monitor.pc = .trigger v
      rwa [hsame]
  | waiting n =>
    change s.graph.roundTrigger[n]? = some v at h
    by_cases ha : a = .roundLoop
    · subst ha
      cases hidle : s.consensus with
      | none =>
        obtain ⟨u, rest, out, hq, -, hrest⟩ := NodeState.roundLoopStep_turn hidle r hr
        cases n with
        | zero => simp only [TurnStage.next, hidle]; trivial
        | succ n =>
          simp only [TurnStage.next, hidle]
          change r.1.graph.roundTrigger[n]? = some v
          rw [hrest]
          rwa [hq] at h
      | some idx =>
        simp only [TurnStage.next, hidle]
        change r.1.graph.roundTrigger[n]? = some v
        rw [NodeState.roundLoopStep_send hidle r hr]
        exact h
    · rw [TurnStage.next_waiting s v n ha]
      exact getElem?_of_prefix (s.move_keepsRounds keccak ha r hr).trigger h
  | done round => trivial

/-- The numbers agree as long as nobody writes another one in between. -/
theorem Follows.numberOk_step (h : t.Follows k) (hsteady : t.Steady a)
    (hr : t.node.move keccak a = .ok r) :
    NumberOk k ⟨r.1, t.vertex, t.cast.next t.node a, t.turn.next t.node t.vertex a⟩ := by
  have hnumber := h.number
  have hkept (hhalf : t.HalfDone) :
      r.1.graph.cells.get k = t.node.graph.cells.get k :=
    (t.node.get_cells_move keccak a h.lt r hr).2 (hsteady hhalf k h.pointer)
  -- The turn with the vertex leaves the number of its round behind the pointer.
  have hturn (n : ℕ) (hwaits : t.turn = .waiting 0) (ha : a = .roundLoop)
      (hidle : t.node.consensus = none)
      (hrec : t.node.graph.enteredIn t.vertex = some n) : r.1.graph.cells.get k = n := by
    subst ha
    obtain ⟨u, rest, out, hq, hloop, -⟩ := NodeState.roundLoopStep_turn hidle r hr
    have hhead : t.node.graph.roundTrigger[0]? = some t.vertex := by
      simpa only [TurnOk, hwaits] using h.turn
    rw [hq] at hhead
    have hhead : u = t.vertex := Option.some.inj hhead
    obtain ⟨i, cell, hcell, hget, -⟩ := JPGraph.roundLoop_enteredIn _ u _ hloop n
      (by rwa [JPGraph.enteredIn_rest, hhead])
    rw [hhead] at hcell
    cases hcell.symm.trans h.pointer
    exact hget
  -- Sending reads the number behind the pointer.
  have hsend (j : ℕ) (copies : List (Event ℤ)) (e : Event ℕ) (ty : ℕ)
      (hcast : t.cast = .sender j copies) (he : t.node.senders[j]? = some (.event e ty)) :
      (wireEvent t.node.graph e).roundID = some (t.node.graph.cells.get k) := by
    obtain ⟨e', ty', he', hround⟩ : ∃ e ty, t.node.senders[j]? = some (.event e ty) ∧
        e.roundID = some k := by simpa only [CastOk, hcast] using h.cast
    cases he.symm.trans he'
    exact congrArg (Option.map t.node.graph.cells.get) hround
  refine ⟨fun e hsent n hdone => ?_, fun e hsent hopen => ?_, fun n hdone hopen => ?_⟩
  · rcases CastStage.mem_copies_next hsent with hold | ⟨j, copies, e', ty, hcast, ha, he, rfl⟩
    · rcases TurnStage.next_eq_done hdone with hturned | ⟨hwaits, ha, hidle, hrec⟩
      · exact hnumber.both e hold n hturned
      · have hwaiting (x : Option ℕ) : t.turn ≠ .done x := by simp [hwaits]
        rw [hnumber.sent e hold hwaiting, ← hturn n hwaits ha hidle hrec.symm,
          hkept (halfDone_of_mem hold hwaiting)]
    · rcases TurnStage.next_eq_done hdone with hturned | ⟨-, ha', -⟩
      · rw [hsend j copies e' ty hcast he, hnumber.done n hturned (by simp [hcast])]
      · rcases ha with ha | ha <;> cases ha.symm.trans ha'
  · rcases CastStage.mem_copies_next hsent with hold | ⟨j, copies, e', ty, hcast, ha, he, rfl⟩
    · have hwaiting (x : Option ℕ) (hx : t.turn = .done x) : False := hopen x (by rw [hx]; rfl)
      change e.roundID = some (r.1.graph.cells.get k)
      rw [hkept (halfDone_of_mem hold hwaiting)]
      exact hnumber.sent e hold hwaiting
    · change (wireEvent t.node.graph e').roundID = some (r.1.graph.cells.get k)
      have hgraph : r.1.graph = t.node.graph := by
        rcases ha with rfl | rfl
        · exact (t.node.sendStep_senders j r hr).2
        · cases t.node.move_spec keccak _ r hr with
          | cast _ hnext => rw [hnext]
      rw [hgraph]
      exact hsend j copies e' ty hcast he
  · rcases TurnStage.next_eq_done hdone with hold | ⟨hwaits, ha, hidle, hrec⟩
    · have hunsent (copies : List (Event ℤ)) (hsent : t.cast = .sent copies) : False :=
        hopen copies (by rw [hsent]; rfl)
      change r.1.graph.cells.get k = n
      rw [hkept (halfDone_of_done hold hunsent)]
      exact hnumber.done n hold hunsent
    · exact hturn n hwaits ha hidle hrec.symm

/-- A step that is steady. -/
theorem Follows.step (h : t.Follows k) (hsteady : t.Steady a) :
    Ensures (t.step keccak a) (Follows k) := by
  refine .map (NodeState.step_of_move (Q := fun r => t.node.move keccak a = .ok r) (.self _))
    fun r hr => ?_
  have hv : t.vertex < t.node.graph.verts.next := by
    by_contra hle
    have hdefault : t.node.graph.vert t.vertex = default := Heap.get_of_le (by omega)
    have hpointer := h.pointer
    rw [hdefault] at hpointer
    cases hpointer
  refine ⟨?_, (t.node.get_cells_move keccak a h.lt r hr).1, h.cast.step h.pointer hr _,
    h.turn.step hr _, h.numberOk_step hsteady hr⟩
  exact (congrArg Event.roundID (t.node.event_move keccak a hv r hr)).trans h.pointer

end Step

/-- A local witness that `MonitorLoop` has just found in a reachable state. -/
theorem exists_follows {s : NodeState} (h : s.Pointed) (hfound : s.monitor.pc = .put v) :
    ∃ k, (s.trail v).Follows k := by
  have hpointed : s.graph.Pointed v := h.monitor v (by rw [hfound]; rfl)
  obtain ⟨k, hk⟩ := Option.ne_none_iff_exists'.mp hpointed
  have hnone (e : Event ℤ) (he : e ∈ (s.trail v).cast.copies) : False := by cases he
  exact ⟨k, hk, h.vert v k hk, hfound, Or.inl hfound, fun e he => (hnone e he).elim,
    fun e he => (hnone e he).elim, nofun⟩

/-- What was sent and what was entered agree on every trail. -/
theorem Follows.agrees {k : ℕ} {t : Trail} (h : t.Follows k) : t.Agrees := by
  intro e he n hn
  have hturn : t.turn = .done (some n) := by
    cases hturn : t.turn <;> rw [hturn] at hn <;> cases hn
    rfl
  exact h.number.both e he n hturn

end Trail

/-- In every run from the discovery of a local witness on in which, between its broadcast and the
turn of `RoundLoop`, nothing writes another number through its round pointer, the broadcast
carries the number of the round in whose witness table `RoundLoop` enters it, to every peer. -/
theorem agrees_of_steady (keccak : List UInt8 → Hash) {coinbase : Address} {broadness : ℕ}
    {before after : List Action} {s : NodeState × List Output} {v : ℕ} {t : Trail}
    (hbefore : run (logged (NodeState.step keccak)) (newNode coinbase broadness, []) before = .ok s)
    (hfound : s.1.monitor.pc = .put v)
    (hafter : run (Trail.step keccak) (s.1.trail v) after = .ok t)
    (hsteady : Meets (Trail.step keccak) Trail.Steady (s.1.trail v) after) : t.Agrees := by
  obtain ⟨k, hfollows⟩ := Trail.exists_follows (.of_run keccak hbefore) hfound
  have hrun := run_invariant (fun t a h ha => Trail.Follows.step h ha) hfollows hsteady t hafter
  exact hrun.agrees

/-- A node `0x0a` that is alone up to the discovery of its first local witness. -/
def soloFound : List Action := soloWitness.take (soloWitness.length - 4)

/-- The node at the discovery. -/
def foundNode : NodeState × List Output :=
  (soloRun soloFound).toOption.getD (newNode (FixedBytes.ofNat 20 0x0A) 1, [])

/-- `MonitorLoop` hands the local witness over, the event loop takes it, and the sender and
`RoundLoop` go on in the given order. -/
def handedOver (next : List Action) : List Action :=
  List.replicate 3 (.monitor fun _ => []) ++ .handle .witnessL :: next

/-- The local witness after these actions. -/
def handedTrail (next : List Action) : Trail :=
  (run (Trail.step soloKeccak) (foundNode.1.trail 1) (handedOver next)).toOption.getD
    (foundNode.1.trail 1)

/-- `RoundLoop` opens round 1 for the local witness before it is sent, and the message carries
round 1. -/
theorem agrees_handedOver :
    (handedTrail [.roundLoop, .send 2]).turn = .done (some 1) ∧
      (handedTrail [.roundLoop, .send 2]).Agrees := by
  obtain ⟨hbefore, hfound, hafter, hsteady, hturn⟩ :
      (soloRun soloFound).toOption.isSome = true ∧ foundNode.1.monitor.pc = .put 1 ∧
      (run (Trail.step soloKeccak) (foundNode.1.trail 1)
        (handedOver [.roundLoop, .send 2])).toOption.isSome = true ∧
      Meets (Trail.step soloKeccak) Trail.Steady (foundNode.1.trail 1)
        (handedOver [.roundLoop, .send 2]) ∧
      (handedTrail [.roundLoop, .send 2]).turn = .done (some 1) := by
    decide +kernel
  have hrun : soloRun soloFound = .ok foundNode := eq_ok_getD hbefore _
  have hhanded : run (Trail.step soloKeccak) (foundNode.1.trail 1)
      (handedOver [.roundLoop, .send 2]) = .ok (handedTrail [.roundLoop, .send 2]) :=
    eq_ok_getD hafter _
  exact ⟨hturn, agrees_of_steady soloKeccak hrun hfound hhanded hsteady⟩

/-- The local witness is sent before `RoundLoop` opens round 1 for it, and the message carries
round 0. -/
theorem not_agrees_handedOver :
    let next : List Action := [.send 2, .roundLoop]
    soloRun soloFound = .ok foundNode ∧ foundNode.1.monitor.pc = .put 1 ∧
      run (Trail.step soloKeccak) (foundNode.1.trail 1) (handedOver next) =
        .ok (handedTrail next) ∧
      Output.sent none (arrivedMsg eventMsg 2 secondEvent.wire) ∈
        soloLog (soloFound ++ handedOver next) ∧
      secondEvent.roundID = some 0 ∧ (handedTrail next).turn = .done (some 1) ∧
      ¬ (handedTrail next).Agrees := by
  intro next
  obtain ⟨hbefore, hfound, hafter, hsent, hturn, hagrees⟩ :
      (soloRun soloFound).toOption.isSome = true ∧ foundNode.1.monitor.pc = .put 1 ∧
      (run (Trail.step soloKeccak) (foundNode.1.trail 1) (handedOver next)).toOption.isSome =
        true ∧
      Output.sent none (arrivedMsg eventMsg 2 secondEvent.wire) ∈
        soloLog (soloFound ++ handedOver next) ∧
      (handedTrail next).turn = .done (some 1) ∧ ¬ (handedTrail next).Agrees := by
    decide +kernel
  exact ⟨eq_ok_getD hbefore _, hfound, eq_ok_getD hafter _, hsent, rfl, hturn, hagrees⟩

end Hashgrid.Node
