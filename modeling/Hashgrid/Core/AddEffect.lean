import Hashgrid.Core.AddCall
import Hashgrid.Core.Columns
import Hashgrid.Core.LinkSteps
import Hashgrid.Core.Skeleton

/-!
# What a step of `AddEvent` does

Every step of a call runs one of a few sections. None of them touches round numbers of events or
the event channels, and some touch nothing but links, requests, newcomers and lost parents.
-/

namespace Hashgrid.Core

open Hashgrid.Bytes Hashgrid.Machine

namespace JPGraph

/-- The round numbers of events and the event channels stay. -/
structure Keeps (jp jp' : JPGraph) : Prop where
  /-- The round numbers stay. -/
  cells : jp'.cells = jp.cells
  /-- The node keeps its address. -/
  coinbase : jp'.coinbase = jp.coinbase
  /-- The event channels stay. -/
  channel : ∀ ch, jp'.channel ch = jp.channel ch

variable (jp : JPGraph) {jp' : JPGraph}

theorem Keeps.refl : Keeps jp jp := ⟨rfl, rfl, fun _ => rfl⟩

theorem Keeps.of_eq {jp : JPGraph} (hcells : jp'.cells = jp.cells)
    (hcoinbase : jp'.coinbase = jp.coinbase) (hnorm : jp'.eventNorm = jp.eventNorm)
    (hremote : jp'.witnessR = jp.witnessR) (hlocal : jp'.witnessL = jp.witnessL) : Keeps jp jp' :=
  ⟨hcells, hcoinbase, fun ch => by cases ch <;> assumption⟩

/-- Columns, vertices, marks, tables and channels stay as they are. -/
structure Neutral (jp jp' : JPGraph) : Prop extends Keeps jp jp' where
  /-- No vertex is added. -/
  next : jp'.verts.next = jp.verts.next
  /-- The events of vertices stay. -/
  event : ∀ v, (jp'.vert v).event = (jp.vert v).event
  /-- The marks of vertices stay. -/
  witness : ∀ v, (jp'.vert v).witness = (jp.vert v).witness
  /-- The columns stay. -/
  cols : jp'.cols = jp.cols
  /-- The addresses stay. -/
  graph : jp'.graph = jp.graph
  /-- The numbers of rounds stay. -/
  index : ∀ i, (jp'.round i).index = (jp.round i).index
  /-- The witness tables stay. -/
  witnesses : ∀ i, (jp'.round i).witnesses = (jp.round i).witnesses
  /-- The new vertices of this node stay. -/
  selfEventCreated : jp'.selfEventCreated = jp.selfEventCreated
  /-- The witnesses for `RoundLoop` stay. -/
  roundTrigger : jp'.roundTrigger = jp.roundTrigger

theorem Neutral.refl : Neutral jp jp :=
  ⟨.refl jp, rfl, fun _ => rfl, fun _ => rfl, rfl, rfl, fun _ => rfl, fun _ => rfl, rfl, rfl⟩

/-- A step that keeps the skeleton. -/
theorem Alike.neutral {jp : JPGraph} (h : Alike jp jp') : Neutral jp jp' where
  cells := h.cells
  coinbase := h.coinbase
  channel ch := h.read (g := fun jp => jp.channel ch) fun _ => by cases ch <;> rfl
  next := h.next
  event := h.event
  witness := h.witness
  cols := h.cols
  graph := h.graph
  index := h.index
  witnesses := h.witnesses
  selfEventCreated := h.selfEventCreated
  roundTrigger := h.roundTrigger

/-- The queues that hold no vertices and no events. -/
theorem neutral_queues (ts : List (Option Transaction)) (requests : List RequestArg)
    (rounds : List ℕ) :
    Neutral jp
      { jp with transUnHandled := ts, requestChan := requests, consensusTrigger := rounds } where
  toKeeps := .of_eq rfl rfl rfl rfl rfl
  next := rfl
  event _ := rfl
  witness _ := rfl
  cols := rfl
  graph := rfl
  index _ := rfl
  witnesses _ := rfl
  selfEventCreated := rfl
  roundTrigger := rfl

/-- The announcement of a new vertex. -/
theorem keeps_signalCreated (v : ℕ) : Keeps jp (jp.signalCreated v) := by
  unfold signalCreated
  split
  · exact .of_eq rfl rfl rfl rfl rfl
  · exact .refl jp

/-- Reading a round number. -/
theorem derefRound_spec (e : Event ℕ) :
    Ensures (jp.derefRound e) fun x => jp.roundOf e = some x := by
  unfold derefRound
  cases jp.roundOf e with
  | none => exact .error
  | some x => exact .ok rfl

/-- Entering a witness. -/
theorem recordWitness_spec (c v i : ℕ) :
    Ensures (jp.recordWitness c v i) fun jp' =>
      jp' = (jp.markVertex v Mark.witness).setWitness i (jp.col c).seqNum v := by
  unfold recordWitness
  dsimp only
  split
  · exact .ok rfl
  · exact .error

/-- What the search in the round queue can do: enter the vertex as a witness in the round that
it finds, or nothing. -/
theorem recordRound_cases (firstWitness : Bool) (ty c v : ℕ) :
    Ensures (jp.recordRound firstWitness ty c v) fun r => r.1 = jp ∨
      ∃ x i, jp.roundOf (jp.vert v).event = some x ∧ jp.searchRound x = some i ∧
        (firstWitness ∨ ty = Mark.witness ∨ (jp.col c).hashChain.entries.length = 1) ∧
        r.1 = (jp.markVertex v Mark.witness).setWitness i (jp.col c).seqNum v := by
  unfold recordRound
  split
  · exact .ok (Or.inl rfl)
  · refine .bind (jp.derefRound_spec _) fun x hx => ?_
    cases hsearch : jp.searchRound x with
    | none => exact .ok (Or.inl rfl)
    | some i =>
      dsimp only
      split
      · next hwitness =>
        refine .bind (jp.recordWitness_spec c v i) fun jp' hjp' => .ok (Or.inr ?_)
        exact ⟨x, i, hx, hsearch, hwitness, hjp'⟩
      · exact .ok (Or.inl rfl)

end JPGraph

/-- The vertex that a call works on. -/
def AddPc.vertex : AddPc → Option ℕ
  | .existed v | .trigger v | .link _ _ _ v | .request _ _ v | .record _ _ v _ | .comer _ v _
  | .lost _ v _ | .created v => some v
  | _ => none

/-- The column of the creator, from the point where a call of `AddEvent` knows it until it puts a
vertex there. -/
def AddPc.column : AddPc → Option ℕ
  | .selfMajority _ _ c _ | .otherCheck c _ | .otherInsert c _ | .otherMajority c _ _ _
  | .insert c _ _ => some c
  | _ => none

@[simp]
theorem AddPc.vertex_afterSelf (c : ℕ) (fw : Bool) (oc : Option ℕ) (ok2 : Bool) :
    (AddPc.afterSelf c fw oc ok2).vertex = none := by
  cases ok2 <;> rfl

@[simp]
theorem AddPc.column_afterSelf (c : ℕ) (fw : Bool) (oc : Option ℕ) (ok2 : Bool) :
    (AddPc.afterSelf c fw oc ok2).column = some c := by
  cases ok2 <;> rfl

/-- What the next step of a call does: the graph afterwards, and where the call stands unless it
has returned. -/
inductive AddCall.Moves (keccak : List UInt8 → Hash) (e : Event ℕ) (ty : ℕ) (jp : JPGraph) :
    AddPc → JPGraph × Option AddPc → Prop
  /-- The event is not valid. -/
  | rejects (hvalid : validateEvent keccak e = false) : Moves keccak e ty jp .start (jp, none)
  /-- Columns are looked up. -/
  | looks {pc next : AddPc} (hvalid : pc = .start → validateEvent keccak e = true)
      (hpc : pc.vertex = none) (hnext : next.vertex = none)
      (hcolumn : ∀ c ∈ next.column, c ∈ pc.column ∨ jp.graph.lookup e.selfSig.addr = some c) :
      Moves keccak e ty jp pc (jp, some next)
  | selfInsert (oc : Option ℕ) (ok2 : Bool) :
      Moves keccak e ty jp (.selfInsert oc ok2) ((jp.addNodeInsert e.selfSig.addr).1,
        some (.selfMajority oc ok2 jp.cols.next jp.graph.entries.length))
  | selfMajority (oc : Option ℕ) (ok2 : Bool) (c mlen : ℕ) :
      Moves keccak e ty jp (.selfMajority oc ok2 c mlen)
        (jp.addNodeMajority c mlen, some (.afterSelf c true oc ok2))
  | otherInsert (sc : ℕ) (fw : Bool) :
      Moves keccak e ty jp (.otherInsert sc fw) ((jp.addNodeInsert e.otherPartA).1,
        some (.otherMajority sc fw jp.cols.next jp.graph.entries.length))
  | otherMajority (sc : ℕ) (fw : Bool) (c mlen : ℕ) :
      Moves keccak e ty jp (.otherMajority sc fw c mlen)
        (jp.addNodeMajority c mlen, some (.insert sc fw (some c)))
  /-- The event is in the column already. -/
  | known {sc v : ℕ} (fw : Bool) (oc : Option ℕ)
      (hlook : (jp.col sc).hashChain.lookup e.selfHash = some v) :
      Moves keccak e ty jp (.insert sc fw oc)
        (jp, if ty = Mark.witness then some (.existed v) else none)
  /-- A new vertex is put on the column. -/
  | inserts {sc : ℕ} (fw : Bool) (oc : Option ℕ)
      (hlook : (jp.col sc).hashChain.lookup e.selfHash = none) :
      Moves keccak e ty jp (.insert sc fw oc)
        (jp.withVertex e ty sc, some (.link sc fw oc jp.verts.next))
  | existed (v : ℕ) : Moves keccak e ty jp (.existed v) (jp.markVertex v ty, some (.trigger v))
  | trigger (v : ℕ) : Moves keccak e ty jp (.trigger v) (jp.triggerRound v, none)
  | link (sc : ℕ) (fw : Bool) (oc : Option ℕ) (v : ℕ) :
      Moves keccak e ty jp (.link sc fw oc v) ((jp.linkOther v oc).1,
        some (if (jp.linkOther v oc).2 then .request sc fw v else .record sc fw v false))
  | request (sc : ℕ) (fw : Bool) (v : ℕ) :
      Moves keccak e ty jp (.request sc fw v)
        (jp.requestParentEvent v, some (.record sc fw v true))
  | record {sc v : ℕ} {fw : Bool} {round : JPGraph × Option ℕ} (linkpost : Bool)
      (hround : jp.recordRound fw ty sc v = .ok round) :
      Moves keccak e ty jp (.record sc fw v linkpost)
        (round.1, some (round.2.elim (.created v) fun i => .comer i v linkpost))
  | comer {i v : ℕ} {jp' : JPGraph} (linkpost : Bool)
      (hjp' : jp.addComer i (jp.comerOf v) = .ok jp') :
      Moves keccak e ty jp (.comer i v linkpost) (jp', some (.lost i v linkpost))
  | lost (i v : ℕ) (linkpost : Bool) :
      Moves keccak e ty jp (.lost i v linkpost) (jp.updateLost i v linkpost, some (.created v))
  | created (v : ℕ) : Moves keccak e ty jp (.created v) (jp.signalCreated v, none)

/-- Every step of a call runs one of these sections. -/
theorem AddCall.step_moves (keccak : List UInt8 → Hash) (call : AddCall) (jp : JPGraph) :
    Ensures (call.step keccak jp) (Moves keccak call.event call.type jp call.pc) := by
  obtain ⟨e, ty, pc⟩ := call
  have hnone {P : ℕ → Prop} : ∀ c ∈ (none : Option ℕ), P c := fun _ hc => by cases hc
  unfold AddCall.step
  cases pc with
  | start =>
    dsimp only
    split_ifs with hvalid
    · exact .ok (.rejects hvalid)
    · have hvalid : validateEvent keccak e = true := by simpa using hvalid
      split
      · next c oc ok2 hlook =>
        refine .ok (.looks (fun _ => hvalid) rfl (by simp) fun d hd => Or.inr ?_)
        rw [AddPc.column_afterSelf] at hd
        rw [← jp.fst_lookupColumns, hlook, hd]
      · exact .ok (.looks (fun _ => hvalid) rfl rfl hnone)
  | selfCheck oc ok2 =>
    dsimp only
    split
    · next c hlook =>
      refine .ok (.looks nofun rfl (by simp) fun d hd => Or.inr ?_)
      rw [AddPc.column_afterSelf] at hd
      rw [hlook, hd]
    · exact .ok (.looks nofun rfl rfl hnone)
  | selfInsert oc ok2 => exact .ok (.selfInsert oc ok2)
  | selfMajority oc ok2 c mlen => exact .ok (.selfMajority oc ok2 c mlen)
  | otherCheck sc fw =>
    dsimp only
    split <;> exact .ok (.looks nofun rfl rfl fun _ hc => Or.inl hc)
  | otherInsert sc fw => exact .ok (.otherInsert sc fw)
  | otherMajority sc fw c mlen => exact .ok (.otherMajority sc fw c mlen)
  | insert sc fw oc =>
    dsimp only
    cases hlook : (jp.col sc).hashChain.lookup e.selfHash with
    | some v =>
      simp only [JPGraph.insertVertex, hlook]
      exact .ok (.known fw oc hlook)
    | none =>
      rw [JPGraph.insertVertex_new hlook]
      exact .ok (.inserts fw oc hlook)
  | existed v => exact .ok (.existed v)
  | trigger v => exact .ok (.trigger v)
  | link sc fw oc v =>
    have hlink : Moves keccak e ty jp (.link sc fw oc v) _ := .link sc fw oc v
    dsimp only
    generalize jp.linkOther v oc = linked at hlink
    obtain ⟨jp', linkpost⟩ := linked
    cases linkpost <;> exact .ok hlink
  | request sc fw v => exact .ok (.request sc fw v)
  | record sc fw v linkpost =>
    refine .bind (.self _) fun r hr => ?_
    have hrecord : Moves keccak e ty jp (.record sc fw v linkpost) _ := .record linkpost hr
    obtain ⟨jp', round⟩ := r
    cases round <;> exact .ok hrecord
  | comer i v linkpost => exact .bind (.self _) fun jp' hjp' => .ok (.comer linkpost hjp')
  | lost i v linkpost => exact .ok (.lost i v linkpost)
  | created v => exact .ok (.created v)

/-- No step of `AddEvent` touches round numbers of events or event channels. -/
theorem AddCall.step_keeps (keccak : List UInt8 → Hash) (call : AddCall) (jp : JPGraph) :
    Ensures (call.step keccak jp) fun r => jp.Keeps r.1 := by
  obtain ⟨e, ty, pc⟩ := call
  intro r hr
  cases AddCall.step_moves keccak ⟨e, ty, pc⟩ jp r hr with
  | rejects | looks | known => exact .refl jp
  | selfInsert | selfMajority | otherInsert | otherMajority | inserts | existed | trigger =>
    exact .of_eq rfl rfl rfl rfl rfl
  | link sc fw oc v => exact (jp.alike_linkOther v oc).neutral.toKeeps
  | request sc fw v => exact (jp.alike_requestParentEvent v).neutral.toKeeps
  | record linkpost hrecord =>
    rcases jp.recordRound_cases _ _ _ _ _ hrecord with heq | ⟨x, i, -, -, -, heq⟩
    · rw [heq]
      exact .refl jp
    · rw [heq]
      exact .of_eq rfl rfl rfl rfl rfl
  | comer linkpost hjp' => exact (jp.alike_addComer _ _ _ hjp').neutral.toKeeps
  | lost i v linkpost => exact (jp.alike_updateLost i v linkpost).neutral.toKeeps
  | created v => exact jp.keeps_signalCreated v

end Hashgrid.Core
