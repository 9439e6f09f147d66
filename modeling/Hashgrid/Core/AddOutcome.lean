import Hashgrid.Core.LinkRefinement
import Hashgrid.Core.Skeleton

/-!
# What a call of `AddEvent` can do

An undisturbed call of `AddEvent` rejects the event, finds it in its column, or puts a
new vertex on the column and records it in a round. Seen through the skeleton, nothing
else happens.
-/

namespace Hashgrid.Core

open Hashgrid.Bytes Hashgrid.Machine Hashgrid.Links

namespace JPGraph

variable (keccak : List UInt8 → Hash) {jp : JPGraph} {c v : ℕ}

section Columns

theorem addNode_known {a : Address} (h : jp.graph.lookup a = some c) : jp.addNode a = (jp, c) := by
  simp only [addNode, h]

/-- The graph after `AddEvent` has made sure that the columns of an event are there. -/
def withColumns (jp : JPGraph) (e : Event ℕ) : JPGraph :=
  if e.otherPartA = FixedBytes.zero 20 then (jp.addNode e.selfSig.addr).1
  else ((jp.addNode e.selfSig.addr).1.addNode e.otherPartA).1

/-- The column of the creator. -/
def columnOf (jp : JPGraph) (e : Event ℕ) : ℕ := (jp.addNode e.selfSig.addr).2

/-- `AddNode` keeps the columns of known addresses. -/
theorem lookup_addNode_of_some {b : Address} (h : jp.graph.lookup b = some c) (a : Address) :
    (jp.addNode a).1.graph.lookup b = some c := by
  cases hnew : jp.graph.lookup a with
  | some d => rw [addNode_known hnew, h]
  | none =>
    rw [lookup_addNode_of_ne hnew, h]
    rintro rfl
    rw [hnew] at h
    cases h

/-- The column of the creator is there. -/
theorem lookup_withColumns (jp : JPGraph) (e : Event ℕ) :
    (jp.withColumns e).graph.lookup e.selfSig.addr = some (jp.columnOf e) := by
  have hself := lookup_addNode jp e.selfSig.addr
  unfold withColumns
  split_ifs
  · exact hself
  · exact lookup_addNode_of_some hself _

/-- The columns that are added are empty. -/
theorem grown_withColumns (hwf : jp.Wf) (e : Event ℕ) : Grown jp (jp.withColumns e) := by
  have hself := grown_addNode hwf e.selfSig.addr
  unfold withColumns
  split_ifs
  · exact hself
  · exact hself.trans (grown_addNode hself.wf _)

variable {β : Type} {g : JPGraph → β}

/-- `AddNode` writes columns and the majority only. -/
theorem read_addNode (hg : ∀ jp graph cols superMajority,
    g { jp with graph := graph, cols := cols, superMajority := superMajority } = g jp)
    (jp : JPGraph) (a : Address) : g (jp.addNode a).1 = g jp := by
  cases hnew : jp.graph.lookup a with
  | some c => rw [addNode_known hnew]
  | none =>
    unfold addNode
    rw [hnew]
    exact hg jp _ _ _

/-- The columns of an event are added without other writes. -/
theorem read_withColumns (hg : ∀ jp graph cols superMajority,
    g { jp with graph := graph, cols := cols, superMajority := superMajority } = g jp)
    (jp : JPGraph) (e : Event ℕ) : g (jp.withColumns e) = g jp := by
  unfold withColumns
  split_ifs
  · exact read_addNode hg jp _
  · exact (read_addNode hg _ _).trans (read_addNode hg jp _)

/-- The lookup of the creator's column. -/
theorem selfColumnOf_eq (jp : JPGraph) (e : Event ℕ) :
    jp.selfColumnOf e (jp.graph.lookup e.selfSig.addr) =
      ((jp.addNode e.selfSig.addr).1, jp.columnOf e,
        (jp.graph.lookup e.selfSig.addr).isNone) := by
  cases h : jp.graph.lookup e.selfSig.addr with
  | some c => simp only [selfColumnOf, columnOf, addNode_known h, Option.isNone_some]
  | none => rfl

theorem arriveEvent_eq (jp : JPGraph) (e : Event ℤ) (ty : ℕ) :
    jp.arriveEvent keccak (e, ty) =
      ((jp.receive e).1.addEvent keccak (jp.receive e).2 ty).map Prod.fst :=
  rfl

/-- The columns of `AddEvent` are looked up once and then added if they are missing. -/
theorem addEvent_eq (jp : JPGraph) (e : Event ℕ) (ty : ℕ) :
    jp.addEvent keccak e ty =
      if validateEvent keccak e = false then .ok (jp, some "Event Validate check failed")
      else ((jp.withColumns e).addVertex e ty (jp.columnOf e)
        (jp.graph.lookup e.selfSig.addr).isNone
        ((otherColumnName e).bind (jp.withColumns e).graph.lookup)).map fun jp => (jp, none) := by
  have hreturn (x : Except Stop JPGraph) :
      (x >>= fun jp => pure (jp, (none : Option String))) = x.map fun jp => (jp, none) := by
    cases x <;> rfl
  unfold addEvent
  split_ifs with hvalid
  · rfl
  · unfold lookupColumns otherColumnName withColumns
    dsimp only
    by_cases hzero : e.otherPartA = FixedBytes.zero 20
    · rw [if_neg (not_not.mpr (FixedBytes.compare_eq_zero.mpr hzero)), if_pos hzero, if_pos hzero,
        ← hreturn]
      simp only [selfColumnOf_eq]
      rfl
    · rw [if_pos (fun h => hzero (FixedBytes.compare_eq_zero.mp h)), if_neg hzero, if_neg hzero,
        ← hreturn]
      simp only [selfColumnOf_eq, otherColumnOf, Option.bind_some]
      cases hc : jp.graph.lookup e.otherPartA with
      | some c =>
        have hkept := lookup_addNode_of_some hc e.selfSig.addr
        rw [addNode_known hkept, hkept]
        rfl
      | none =>
        rw [lookup_addNode]
        rfl

end Columns

section Record

variable {jp' : JPGraph}

theorem Alike.queue (h : Alike jp jp') : jp'.queue = jp.queue := by
  simp only [JPGraph.queue, h.rounds]

theorem Alike.searchRound (h : Alike jp jp') (r : ℤ) : jp'.searchRound r = jp.searchRound r :=
  searchRound_congr h.rounds h.index r

theorem Alike.derefRound (h : Alike jp jp') (v : ℕ) :
    jp'.derefRound (jp'.vert v).event = jp.derefRound (jp.vert v).event := by
  simp only [JPGraph.derefRound, JPGraph.roundOf, h.event, h.cells]

/-- Marking a vertex happens in the skeleton. -/
theorem Alike.markVertex (h : Alike jp jp') (v ty : ℕ) :
    Alike (jp.markVertex v ty) (jp'.markVertex v ty) := by
  have hmark (jp : JPGraph) : (jp.markVertex v ty).skeleton = jp.skeleton.markVertex v ty := by
    simp only [skeleton, JPGraph.markVertex, setVert]
    rw [Heap.map_update (fun vert => { vert with witness := ty }) fun _ => by rfl]
  rw [Alike, hmark, hmark, h]

/-- Entering a witness happens in the skeleton. -/
theorem Alike.setWitness (h : Alike jp jp') (i k v : ℕ) :
    Alike (jp.setWitness i k v) (jp'.setWitness i k v) := by
  have hset (jp : JPGraph) : (jp.setWitness i k v).skeleton = jp.skeleton.setWitness i k v := by
    simp only [skeleton, JPGraph.setWitness, setRound]
    rw [Heap.map_update (fun rd => { rd with witnesses := rd.witnesses.set k (some v) })
      fun _ => by rfl]
  rw [Alike, hset, hset, h]

/-- The announcement of a new vertex happens in the skeleton. -/
theorem Alike.signalCreated (h : Alike jp jp') (v : ℕ) :
    Alike (jp.signalCreated v) (jp'.signalCreated v) := by
  have hsignal (jp : JPGraph) : (jp.signalCreated v).skeleton = jp.skeleton.signalCreated v := by
    have hevent : (jp.skeleton.vert v).event = (jp.vert v).event := by
      rw [vert_skeleton]
      rfl
    have hwitness : (jp.skeleton.vert v).witness = (jp.vert v).witness := by
      rw [vert_skeleton]
      rfl
    have hcoinbase : jp.skeleton.coinbase = jp.coinbase := rfl
    simp only [JPGraph.signalCreated, hevent, hwitness, hcoinbase]
    split_ifs <;> rfl
  rw [Alike, hsignal, hsignal, h]

/-- The search in the round queue sees and changes the skeleton only. -/
theorem Alike.recordRound (h : Alike jp jp') (firstWitness : Bool) (ty c v : ℕ) :
    (jp'.recordRound firstWitness ty c v).map (Prod.map skeleton id) =
      (jp.recordRound firstWitness ty c v).map (Prod.map skeleton id) := by
  unfold JPGraph.recordRound recordWitness
  simp only [h.queue, h.derefRound, h.searchRound, h.col, h.witnesses]
  cases jp.queue with
  | nil => exact congrArg (fun s => Except.ok (s, none)) h
  | cons i is =>
    dsimp only
    cases jp.derefRound (jp.vert v).event with
    | error stop => rfl
    | ok r =>
      simp only [bind, Except.bind]
      cases jp.searchRound r with
      | none => exact congrArg (fun s => Except.ok (s, none)) h
      | some i =>
        dsimp only
        split_ifs
        · have hset := (h.markVertex v Mark.witness).setWitness i (jp.col c).seqNum v
          exact congrArg (fun s => Except.ok (s, some i)) hset
        · rfl
        · exact congrArg (fun s => Except.ok (s, some i)) h

/-- The search in a queue of rounds finds one. -/
theorem exists_searchRound (hqueue : 0 < jp.rounds.next) (r : ℤ) :
    ∃ i, jp.searchRound r = some i := by
  have hlast : jp.queue.getLast?.isSome := by
    rw [List.getLast?_isSome, queue, Ne, List.reverse_eq_nil_iff, List.range_eq_nil]
    omega
  unfold searchRound
  cases jp.queue.find? fun i => decide (r = (jp.round i).index) with
  | some i => exact ⟨i, rfl⟩
  | none => exact Option.isSome_iff_exists.mp hlast

/-- The search in a queue of rounds enters a witness in the round that it finds. -/
theorem recordRound_eq {i : ℕ} {r : ℤ} (hr : jp.roundOf (jp.vert v).event = some r)
    (hi : jp.searchRound r = some i) (firstWitness : Bool) (ty c : ℕ) :
    jp.recordRound firstWitness ty c v =
      if firstWitness ∨ ty = Mark.witness ∨ (jp.col c).hashChain.entries.length = 1 then
        if (jp.col c).seqNum < (jp.round i).witnesses.length then
          .ok ((jp.markVertex v Mark.witness).setWitness i (jp.col c).seqNum v, some i)
        else .error .indexOutOfRange
      else .ok (jp, some i) := by
  have hqueue : jp.queue ≠ [] := by
    intro hnil
    simp [searchRound, hnil] at hi
  unfold recordRound derefRound recordWitness
  split
  · next hnil => exact absurd hnil hqueue
  · simp only [hr, hi, bind, Except.bind]
    split_ifs <;> rfl

/-- Without a round number the search is a panic. -/
theorem recordRound_nil (hqueue : 0 < jp.rounds.next) (hr : jp.roundOf (jp.vert v).event = none)
    (firstWitness : Bool) (ty c : ℕ) : jp.recordRound firstWitness ty c v = .error .nilDeref := by
  unfold recordRound derefRound
  split
  · next hnil =>
    rw [queue, List.reverse_eq_nil_iff, List.range_eq_nil] at hnil
    omega
  · simp only [hr, bind, Except.bind]

end Record

section Outcome

variable {jp₁ : JPGraph} {e : Event ℕ}

/-- From the new vertex on, a call records the vertex in a round and announces it. -/
theorem finishVertex_alike (h : Alike jp jp₁) (ty c v : ℕ) (firstWitness linkpost : Bool) :
    Ensures (jp₁.finishVertex ty c v firstWitness linkpost) fun jp' =>
      ∃ r, jp.recordRound firstWitness ty c v = .ok r ∧ Alike (r.1.signalCreated v) jp' := by
  unfold finishVertex
  have hrequest : Alike jp (if linkpost then jp₁.requestParentEvent v else jp₁) := by
    split_ifs
    · exact h.trans (alike_requestParentEvent jp₁ v)
    · exact h
  refine .bind (.self _) fun r₁ hr₁ => ?_
  obtain ⟨r, hr, hskeleton⟩ := ok_of_map_eq (hrequest.recordRound firstWitness ty c v) hr₁
  refine .bind (alike_joinRound r₁.1 v linkpost r₁.2) fun jp₂ hjp₂ => .ok ⟨r, hr, ?_⟩
  have halike : Alike r.1 r₁.1 := (congrArg Prod.fst hskeleton).symm
  exact (halike.trans hjp₂).signalCreated v

/-- How the entry in the newcomers of a round fails: the lock may be held. -/
def joinFailure (jp : JPGraph) : Option ℕ → Option Stop
  | none => none
  | some i => if (jp.round i).ncLocked then some .blocked else none

/-- The entries in the round of a new vertex fail if the lock is held. -/
theorem failure_joinRound (jp : JPGraph) (v : ℕ) (linkpost : Bool) (round : Option ℕ) :
    failure (jp.joinRound v linkpost round) = jp.joinFailure round := by
  cases round with
  | none => rfl
  | some i =>
    unfold joinRound addComer joinFailure
    dsimp only
    split_ifs <;> rfl

/-- The search in the round queue leaves the locks alone. -/
theorem locked_recordRound (jp : JPGraph) (firstWitness : Bool) (ty c v : ℕ) :
    Ensures (jp.recordRound firstWitness ty c v) fun r =>
      ∀ i, (r.1.round i).ncLocked = (jp.round i).ncLocked := by
  have hset (i k j : ℕ) : (((jp.markVertex v Mark.witness).setWitness i k v).round j).ncLocked =
      (jp.round j).ncLocked :=
    Heap.get_update_of_eq jp.rounds i (g := Round.ncLocked) (fun _ => by rfl) j
  unfold recordRound
  split
  · exact .ok fun _ => rfl
  · refine .bind (.self _) fun r _ => ?_
    split
    · exact .ok fun _ => rfl
    · next i _ =>
      have hrecord : Ensures (jp.recordWitness c v i) fun jp' =>
          ∀ j, (jp'.round j).ncLocked = (jp.round j).ncLocked := by
        unfold recordWitness
        dsimp only
        split_ifs
        · exact .ok (hset i _)
        · exact .error
      split_ifs
      · exact .bind hrecord fun jp' h => .ok h
      · exact .ok fun _ => rfl

/-- A new vertex fails as its record does, or at the lock of its round. -/
theorem failure_finishVertex (h : Alike jp jp₁)
    (hlocked : ∀ i, (jp₁.round i).ncLocked = (jp.round i).ncLocked) (ty c v : ℕ)
    (firstWitness linkpost : Bool) : failure (jp₁.finishVertex ty c v firstWitness linkpost) =
      match jp.recordRound firstWitness ty c v with
      | .error stop => some stop
      | .ok r => jp.joinFailure r.2 := by
  have hrequest : Alike jp (if linkpost then jp₁.requestParentEvent v else jp₁) ∧
      ∀ i, ((if linkpost then jp₁.requestParentEvent v else jp₁).round i).ncLocked =
        (jp.round i).ncLocked := by
    split_ifs
    · exact ⟨h.trans (alike_requestParentEvent jp₁ v), hlocked⟩
    · exact ⟨h, hlocked⟩
  unfold finishVertex
  dsimp only
  generalize (if linkpost then jp₁.requestParentEvent v else jp₁) = jp₂ at hrequest ⊢
  obtain ⟨halike, hlocked₂⟩ := hrequest
  have hrecord := halike.recordRound firstWitness ty c v
  cases hr₂ : jp₂.recordRound firstWitness ty c v with
  | error stop =>
    rw [(error_iff_of_map_eq hrecord stop).mp hr₂]
    rfl
  | ok r₂ =>
    obtain ⟨r, hr, hskeleton⟩ := ok_of_map_eq hrecord hr₂
    have hround : (Prod.map skeleton id r).2 = (Prod.map skeleton id r₂).2 :=
      congrArg Prod.snd hskeleton
    have hround : r.2 = r₂.2 := hround
    have hjoin : jp.joinFailure r.2 = r₂.1.joinFailure r₂.2 := by
      have hlocked₃ (i : ℕ) : (r₂.1.round i).ncLocked = (jp.round i).ncLocked :=
        (locked_recordRound jp₂ firstWitness ty c v r₂ hr₂ i).trans (hlocked₂ i)
      rw [hround]
      cases r₂.2 with
      | none => rfl
      | some i => simp only [joinFailure, hlocked₃]
    rw [hr]
    dsimp only
    rw [hjoin, ← failure_joinRound r₂.1 v linkpost]
    exact failure_map (r₂.1.joinRound v linkpost r₂.2) fun jp => jp.signalCreated v

theorem addVertex_known (h : (jp.col c).hashChain.lookup e.selfHash = some v) (ty : ℕ)
    (firstWitness : Bool) (oc : Option ℕ) : jp.addVertex e ty c firstWitness oc =
      .ok (if ty = Mark.witness then jp.existedWitness v ty else jp) := by
  have hins : jp.insertVertex e ty c = (jp, true, v) := by simp only [insertVertex, h]
  simp only [addVertex, hins]

theorem addVertex_new (h : (jp.col c).hashChain.lookup e.selfHash = none) (ty : ℕ)
    (firstWitness : Bool) (oc : Option ℕ) : jp.addVertex e ty c firstWitness oc =
      ((jp.withVertex e ty c).linkOther jp.verts.next oc).1.finishVertex ty c jp.verts.next
        firstWitness ((jp.withVertex e ty c).linkOther jp.verts.next oc).2 := by
  simp only [addVertex, insertVertex_new h]

/-- The graph after the columns of a new event are there and a vertex was put on the column of
its creator. -/
def withNew (jp : JPGraph) (e : Event ℕ) (ty : ℕ) : JPGraph :=
  (jp.withColumns e).withVertex e ty (jp.columnOf e)

/-- The record of a new event in a round. -/
def recordNew (jp : JPGraph) (e : Event ℕ) (ty : ℕ) : Except Stop (JPGraph × Option ℕ) :=
  (jp.withNew e ty).recordRound (jp.graph.lookup e.selfSig.addr).isNone ty (jp.columnOf e)
    jp.verts.next

/-- What an undisturbed call of `AddEvent` can do. -/
inductive AddKind (keccak : List UInt8 → Hash) (jp : JPGraph) (e : Event ℕ) (ty : ℕ)
    (jp' : JPGraph) : Prop
  /-- The event is rejected. -/
  | rejected (invalid : validateEvent keccak e = false) (graph : jp' = jp)
  /-- The event is in its column already. -/
  | known (valid : validateEvent keccak e = true) (v : ℕ)
      (held : jp.links.chain e.selfSig.addr e.selfHash = some v)
      (graph : jp' = if ty = Mark.witness then (jp.withColumns e).existedWitness v ty
        else jp.withColumns e)
  /-- A new vertex is put on the column, recorded in a round and announced. -/
  | stored (valid : validateEvent keccak e = true)
      (missing : jp.links.chain e.selfSig.addr e.selfHash = none) (r : JPGraph × Option ℕ)
      (recorded : jp.recordNew e ty = .ok r)
      (graph : Alike (r.1.signalCreated jp.verts.next) jp')

theorem chain_withColumns (hwf : jp.Wf) (e : Event ℕ) (h : Hash) :
    ((jp.withColumns e).col (jp.columnOf e)).hashChain.lookup h =
      jp.links.chain e.selfSig.addr h := by
  rw [← (grown_withColumns hwf e).links]
  simp only [links, lookup_withColumns, Option.bind_some]

/-- `AddEvent` finds an event that it has stored before. -/
theorem addEvent_known {keccak : List UInt8 → Hash} (hwf : jp.Wf)
    (hvalid : validateEvent keccak e = true)
    (hheld : jp.links.chain e.selfSig.addr e.selfHash = some v) (ty : ℕ) :
    jp.addEvent keccak e ty = .ok (if ty = Mark.witness then (jp.withColumns e).existedWitness v ty
      else jp.withColumns e, none) := by
  rw [addEvent_eq, if_neg (by simp [hvalid]),
    addVertex_known ((chain_withColumns hwf e _).trans hheld)]
  rfl

/-- A new event gets a vertex on its column. -/
theorem addVertex_withNew (hwf : jp.Wf) (h : jp.links.chain e.selfSig.addr e.selfHash = none)
    (ty : ℕ) (firstWitness : Bool) (oc : Option ℕ) :
    (jp.withColumns e).addVertex e ty (jp.columnOf e) firstWitness oc =
      ((jp.withNew e ty).linkOther jp.verts.next oc).1.finishVertex ty (jp.columnOf e)
        jp.verts.next firstWitness ((jp.withNew e ty).linkOther jp.verts.next oc).2 := by
  have hnext : (jp.withColumns e).verts.next = jp.verts.next :=
    congrArg Heap.next (grown_withColumns hwf e).verts
  rw [addVertex_new ((chain_withColumns hwf e _).trans h), hnext]
  rfl

/-- Every undisturbed call of `AddEvent` is of one of the three kinds. -/
theorem addEvent_cases (hwf : jp.Wf) (e : Event ℕ) (ty : ℕ) :
    Ensures (jp.addEvent keccak e ty) fun r => AddKind keccak jp e ty r.1 := by
  cases hvalid : validateEvent keccak e with
  | false =>
    rw [addEvent_eq, if_pos hvalid]
    exact .ok (.rejected hvalid rfl)
  | true =>
    cases hlook : jp.links.chain e.selfSig.addr e.selfHash with
    | some v =>
      rw [addEvent_known hwf hvalid hlook]
      exact .ok (.known hvalid v hlook rfl)
    | none =>
      rw [addEvent_eq, if_neg (by simp [hvalid]), addVertex_withNew hwf hlook]
      refine .map (finishVertex_alike (alike_linkOther (jp.withNew e ty) _ _) _ _ _ _ _) ?_
      rintro jp' ⟨r, hr, halike⟩
      exact .stored hvalid hlook r hr halike

/-- `AddEvent` fails with a new event as its record does, or at the lock of its round. -/
theorem failure_addEvent {keccak : List UInt8 → Hash} (hwf : jp.Wf)
    (hvalid : validateEvent keccak e = true)
    (hmissing : jp.links.chain e.selfSig.addr e.selfHash = none) (ty : ℕ) :
    failure (jp.addEvent keccak e ty) =
      match jp.recordNew e ty with
      | .error stop => some stop
      | .ok r => jp.joinFailure r.2 := by
  have hlocked (i : ℕ) : (((jp.withNew e ty).linkOther jp.verts.next
      ((otherColumnName e).bind (jp.withColumns e).graph.lookup)).1.round i).ncLocked =
        ((jp.withNew e ty).round i).ncLocked := by
    unfold linkOther
    split <;> rfl
  have hjoin (round : Option ℕ) : (jp.withNew e ty).joinFailure round = jp.joinFailure round := by
    have hrounds : (jp.withNew e ty).rounds = jp.rounds := (grown_withColumns hwf e).rounds
    cases round with
    | none => rfl
    | some i =>
      have hround : (jp.withNew e ty).round i = jp.round i := congrArg (Heap.get · i) hrounds
      simp only [joinFailure, hround]
  rw [addEvent_eq, if_neg (by simp [hvalid]), failure_map, addVertex_withNew hwf hmissing,
    failure_finishVertex (alike_linkOther (jp.withNew e ty) _ _) hlocked]
  simp only [hjoin]
  rfl

/-- `AddEvent` runs out of a witness table just when the record of a new event does. -/
theorem addEvent_error_iff (hwf : jp.Wf) (e : Event ℕ) (ty : ℕ) :
    jp.addEvent keccak e ty = .error .indexOutOfRange ↔
      validateEvent keccak e = true ∧ jp.links.chain e.selfSig.addr e.selfHash = none ∧
        jp.recordNew e ty = .error .indexOutOfRange := by
  have hjoin (round : Option ℕ) : jp.joinFailure round ≠ some .indexOutOfRange := by
    cases round with
    | none => exact fun h => nomatch h
    | some i =>
      unfold joinFailure
      dsimp only
      split_ifs <;> decide
  cases hvalid : validateEvent keccak e with
  | false => simp [addEvent_eq, hvalid]
  | true =>
    cases hlook : jp.links.chain e.selfSig.addr e.selfHash with
    | some v =>
      rw [addEvent_known hwf hvalid hlook]
      exact iff_of_false (fun h => nomatch h) fun h => nomatch h.2.1
    | none =>
      rw [eq_error_iff, failure_addEvent hwf hvalid hlook]
      cases jp.recordNew e ty with
      | error stop => simp
      | ok r => simp [hjoin]

end Outcome

end JPGraph

end Hashgrid.Core
