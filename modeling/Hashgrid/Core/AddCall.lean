import Hashgrid.Core.AddEvent
import Hashgrid.Lib.Machine

/-!
# Calls of `AddEvent` step by step

Every event is added in a goroutine of its own, so calls of `AddEvent` interleave with
each other and with the loops of the round manager. A call is cut where it takes or
releases a lock and where it sends to a channel. A call that nobody disturbs does what
`addEvent` says.
-/

namespace Hashgrid.Core

open Hashgrid.Bytes Hashgrid.Machine

/-- Where a call of `AddEvent` stands, with the local variables that it still needs. -/
inductive AddPc
  /-- Before the validation and the lookup of the columns. -/
  | start
  /-- In `AddNode` for the creator, before the lookup. -/
  | selfCheck (otherColumn : Option ℕ) (ok2 : Bool)
  /-- In `AddNode` for the creator, before the new column is stored. -/
  | selfInsert (otherColumn : Option ℕ) (ok2 : Bool)
  /-- In `AddNode` for the creator, after the new column is stored. -/
  | selfMajority (otherColumn : Option ℕ) (ok2 : Bool) (c mlen : ℕ)
  /-- In `AddNode` for the other parent, before the lookup. -/
  | otherCheck (selfColumn : ℕ) (firstWitness : Bool)
  /-- In `AddNode` for the other parent, before the new column is stored. -/
  | otherInsert (selfColumn : ℕ) (firstWitness : Bool)
  /-- In `AddNode` for the other parent, after the new column is stored. -/
  | otherMajority (selfColumn : ℕ) (firstWitness : Bool) (c mlen : ℕ)
  /-- Before the lock of the creator's column. -/
  | insert (selfColumn : ℕ) (firstWitness : Bool) (otherColumn : Option ℕ)
  /-- Before an existing vertex is marked. -/
  | existed (v : ℕ)
  /-- Before an existing vertex is sent to `roundTrigger`. -/
  | trigger (v : ℕ)
  /-- Before the lock of the other column. -/
  | link (selfColumn : ℕ) (firstWitness : Bool) (otherColumn : Option ℕ) (v : ℕ)
  /-- Before the request for the other parent. -/
  | request (selfColumn : ℕ) (firstWitness : Bool) (v : ℕ)
  /-- Before the search in the round queue. -/
  | record (selfColumn : ℕ) (firstWitness : Bool) (v : ℕ) (linkpost : Bool)
  /-- Before `addComer`. -/
  | comer (round v : ℕ) (linkpost : Bool)
  /-- Before the lock of the dictionary of lost parents. -/
  | lost (round v : ℕ) (linkpost : Bool)
  /-- Before the new vertex is announced. -/
  | created (v : ℕ)
  deriving DecidableEq

/-- A call of `AddEvent`. -/
structure AddCall where
  /-- The event. -/
  event : Event ℕ
  /-- Its type. -/
  type : ℕ
  /-- Where the call stands. -/
  pc : AddPc
  deriving DecidableEq

/-- The creator's column is known. -/
def AddPc.afterSelf (c : ℕ) (firstWitness : Bool) (otherColumn : Option ℕ) (ok2 : Bool) : AddPc :=
  if ok2 then .insert c firstWitness otherColumn else .otherCheck c firstWitness

/-- The next step of a call: the graph, and where the call stands unless it has returned. -/
def AddCall.step (keccak : List UInt8 → Hash) (call : AddCall) (jp : JPGraph) :
    Except Stop (JPGraph × Option AddPc) :=
  match call.pc with
  | .start =>
    if validateEvent keccak call.event = false then .ok (jp, none)
    else
      match jp.lookupColumns call.event with
      | (some c, otherColumn, ok2) => .ok (jp, some (.afterSelf c false otherColumn ok2))
      | (none, otherColumn, ok2) => .ok (jp, some (.selfCheck otherColumn ok2))
  | .selfCheck otherColumn ok2 =>
    match jp.graph.lookup call.event.selfSig.addr with
    | some c => .ok (jp, some (.afterSelf c true otherColumn ok2))
    | none => .ok (jp, some (.selfInsert otherColumn ok2))
  | .selfInsert otherColumn ok2 =>
    match jp.addNodeInsert call.event.selfSig.addr with
    | (jp, c, mlen) => .ok (jp, some (.selfMajority otherColumn ok2 c mlen))
  | .selfMajority otherColumn ok2 c mlen =>
    .ok (jp.addNodeMajority c mlen, some (.afterSelf c true otherColumn ok2))
  | .otherCheck selfColumn firstWitness =>
    match jp.graph.lookup call.event.otherPartA with
    | some c => .ok (jp, some (.insert selfColumn firstWitness (some c)))
    | none => .ok (jp, some (.otherInsert selfColumn firstWitness))
  | .otherInsert selfColumn firstWitness =>
    match jp.addNodeInsert call.event.otherPartA with
    | (jp, c, mlen) => .ok (jp, some (.otherMajority selfColumn firstWitness c mlen))
  | .otherMajority selfColumn firstWitness c mlen =>
    .ok (jp.addNodeMajority c mlen, some (.insert selfColumn firstWitness (some c)))
  | .insert selfColumn firstWitness otherColumn =>
    match jp.insertVertex call.event call.type selfColumn with
    | (jp, true, v) => .ok (jp, if call.type = Mark.witness then some (.existed v) else none)
    | (jp, false, v) => .ok (jp, some (.link selfColumn firstWitness otherColumn v))
  | .existed v => .ok (jp.markVertex v call.type, some (.trigger v))
  | .trigger v => .ok (jp.triggerRound v, none)
  | .link selfColumn firstWitness otherColumn v =>
    match jp.linkOther v otherColumn with
    | (jp, true) => .ok (jp, some (.request selfColumn firstWitness v))
    | (jp, false) => .ok (jp, some (.record selfColumn firstWitness v false))
  | .request selfColumn firstWitness v =>
    .ok (jp.requestParentEvent v, some (.record selfColumn firstWitness v true))
  | .record selfColumn firstWitness v linkpost => do
    let (jp, round) ← jp.recordRound firstWitness call.type selfColumn v
    match round with
    | none => return (jp, some (.created v))
    | some i => return (jp, some (.comer i v linkpost))
  | .comer i v linkpost => do
    let jp ← jp.addComer i (jp.comerOf v)
    return (jp, some (.lost i v linkpost))
  | .lost i v linkpost => .ok (jp.updateLost i v linkpost, some (.created v))
  | .created v => .ok (jp.signalCreated v, none)

/-- A call that goes on undisturbed, for a number of steps. -/
def AddCall.finish (keccak : List UInt8 → Hash) (e : Event ℕ) (ty : ℕ) :
    ℕ → AddPc → JPGraph → Except Stop JPGraph
  | 0, _, _ => .error .loops
  | n + 1, pc, jp => do
    let (jp, next) ← AddCall.step keccak ⟨e, ty, pc⟩ jp
    match next with
    | none => return jp
    | some pc => AddCall.finish keccak e ty n pc jp

section Undisturbed

variable {keccak : List UInt8 → Hash} {e : Event ℕ} {ty : ℕ} (n : ℕ) {jp : JPGraph} {pc : AddPc}

theorem finish_of_step (pc' : AddPc) (jp' : JPGraph)
    (h : AddCall.step keccak ⟨e, ty, pc⟩ jp = .ok (jp', some pc')) :
    AddCall.finish keccak e ty (n + 1) pc jp = AddCall.finish keccak e ty n pc' jp' := by
  simp only [AddCall.finish, h, bind, Except.bind]

theorem finish_of_return (jp' : JPGraph)
    (h : AddCall.step keccak ⟨e, ty, pc⟩ jp = .ok (jp', none)) :
    AddCall.finish keccak e ty (n + 1) pc jp = .ok jp' := by
  simp only [AddCall.finish, h, bind, Except.bind, pure, Except.pure]

/-- From the search in the round queue to the end. -/
theorem finish_record (sc v : ℕ) (fw lp : Bool) :
    AddCall.finish keccak e ty (n + 4) (.record sc fw v lp) jp =
      (do
        let (jp, round) ← jp.recordRound fw ty sc v
        let jp ← jp.joinRound v lp round
        return jp.signalCreated v) := by
  unfold AddCall.finish AddCall.step
  simp only [bind, Except.bind, pure, Except.pure]
  cases jp.recordRound fw ty sc v with
  | error stop => rfl
  | ok r =>
    obtain ⟨jp', round⟩ := r
    cases round with
    | none => rfl
    | some i =>
      simp only [AddCall.finish, AddCall.step, JPGraph.joinRound, bind, Except.bind, pure,
        Except.pure]
      cases jp'.addComer i (jp'.comerOf v) <;> rfl

/-- From the lock of the other column to the end. -/
theorem finish_link (sc v : ℕ) (fw : Bool) (oc : Option ℕ) :
    AddCall.finish keccak e ty (n + 6) (.link sc fw oc v) jp =
      (jp.linkOther v oc).1.finishVertex ty sc v fw (jp.linkOther v oc).2 := by
  cases hlink : jp.linkOther v oc with
  | mk jp' linkpost =>
    cases linkpost with
    | true =>
      rw [finish_of_step _ (.request sc fw v) jp'
        (by simp only [AddCall.step, hlink]), finish_of_step _ _ _ (by rfl), finish_record]
      rfl
    | false =>
      rw [finish_of_step _ (.record sc fw v false) jp'
        (by simp only [AddCall.step, hlink]), finish_record]
      rfl

/-- From the lock of the creator's column to the end. -/
theorem finish_insert (sc : ℕ) (fw : Bool) (oc : Option ℕ) :
    AddCall.finish keccak e ty (n + 7) (.insert sc fw oc) jp = jp.addVertex e ty sc fw oc := by
  unfold JPGraph.addVertex
  rcases hins : jp.insertVertex e ty sc with ⟨jp', existed, v⟩
  cases existed with
  | true =>
    by_cases hty : ty = Mark.witness
    · rw [finish_of_step _ (.existed v) jp'
        (by simp only [AddCall.step, hins, if_pos hty]), finish_of_step _ _ _ (by rfl),
        finish_of_return _ _ (by rfl)]
      simp only [if_pos hty, JPGraph.existedWitness]
    · rw [finish_of_return _ jp' (by simp only [AddCall.step, hins, if_neg hty])]
      simp only [if_neg hty]
  | false =>
    rw [finish_of_step _ (.link sc fw oc v) jp'
      (by simp only [AddCall.step, hins]), finish_link]

/-- From the point where the creator's column is known to the end. -/
theorem finish_afterSelf (sc : ℕ) (fw : Bool) (oc : Option ℕ) (ok2 : Bool) :
    AddCall.finish keccak e ty (n + 10) (.afterSelf sc fw oc ok2) jp =
      (jp.otherColumnOf e oc ok2).1.addVertex e ty sc fw (jp.otherColumnOf e oc ok2).2 := by
  unfold JPGraph.otherColumnOf AddPc.afterSelf
  cases ok2 with
  | true => exact finish_insert (n + 3) sc fw oc
  | false =>
    dsimp only
    unfold JPGraph.addNode
    cases hlook : jp.graph.lookup e.otherPartA with
    | some c =>
      rw [if_neg Bool.false_ne_true, finish_of_step _ (.insert sc fw (some c)) jp
        (by simp only [AddCall.step, hlook]), finish_insert]
      rfl
    | none =>
      rw [if_neg Bool.false_ne_true, finish_of_step _ (.otherInsert sc fw) jp
        (by simp only [AddCall.step, hlook]), finish_of_step _ _ _ (by rfl),
        finish_of_step _ _ _ (by rfl), finish_insert]
      rfl

/-- A call that nobody disturbs is `addEvent`. -/
theorem finish_start : AddCall.finish keccak e ty 14 .start jp =
    (jp.addEvent keccak e ty).map Prod.fst := by
  unfold JPGraph.addEvent
  by_cases hvalid : validateEvent keccak e = false
  · rw [if_pos hvalid, finish_of_return _ jp (by simp only [AddCall.step, if_pos hvalid])]
    rfl
  · rw [if_neg hvalid]
    have hreturn (x : Except Stop JPGraph) :
        (x >>= fun jp => pure (jp, (none : Option String))).map Prod.fst = x := by
      cases x <;> rfl
    rcases hlook : jp.lookupColumns e with ⟨sc, oc, ok2⟩
    cases sc with
    | some c =>
      rw [finish_of_step _ (.afterSelf c false oc ok2) jp
        (by simp only [AddCall.step, if_neg hvalid, hlook]), finish_afterSelf]
      exact (hreturn _).symm
    | none =>
      rw [finish_of_step _ (.selfCheck oc ok2) jp
        (by simp only [AddCall.step, if_neg hvalid, hlook])]
      dsimp only [JPGraph.selfColumnOf, JPGraph.addNode]
      cases hself : jp.graph.lookup e.selfSig.addr with
      | some c =>
        rw [finish_of_step _ (.afterSelf c true oc ok2) jp
          (by simp only [AddCall.step, hself]), finish_afterSelf]
        exact (hreturn _).symm
      | none =>
        rw [finish_of_step _ (.selfInsert oc ok2) jp (by simp only [AddCall.step, hself]),
          finish_of_step _ _ _ (by rfl), finish_of_step _ _ _ (by rfl), finish_afterSelf]
        exact (hreturn _).symm

end Undisturbed

end Hashgrid.Core
