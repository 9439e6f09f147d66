import Hashgrid.Core.AddEvent
import Hashgrid.Core.Compose
import Hashgrid.Lib.Machine

/-!
# The event loop of a node

`Node.EventHandle`. The event, its type and the flag of a coming round are variables that
survive from one turn of the loop to the next. Between two turns other goroutines may
change the graph in any way, so a turn is given the graph that it finds.
-/

namespace Hashgrid.Node

open Hashgrid.Core Hashgrid.Machine

/-- The variables of `EventHandle`. -/
structure Handler where
  /-- The last event. -/
  et : Option (Event ℕ)
  /-- Its type. -/
  ty : ℕ
  /-- Whether a witness of the next round came in. -/
  roundComming : Bool
  /-- Length of the slice of transactions that was taken before the loop. -/
  transUnHandled : ℕ
  deriving DecidableEq

/-- The variables before the loop. -/
def newHandler (jp : JPGraph) : Handler := ⟨none, 0, false, jp.transUnHandled.length⟩

/-- The branches of the `select`. A branch that composes an event is given the time and a
random number. -/
inductive Branch
  /-- An event from `eventNorm`. -/
  | eventNorm
  /-- An event from `witnessL`. -/
  | witnessL
  /-- An event from `witnessR`. -/
  | witnessR
  /-- The timer `onlyTime`. -/
  | onlyTime (now : ℤ) (rand : ℕ)
  /-- The timer `overFlow`. -/
  | overFlow (now : ℤ) (rand : ℕ)
  /-- A request from `RequestChan`. -/
  | request
  deriving DecidableEq

/-- The branch of the event loop that reads a channel. -/
def branchOf : Channel → Branch
  | .eventNorm => .eventNorm
  | .witnessR => .witnessR
  | .witnessL => .witnessL

/-- The goroutines that a turn of the loop starts. -/
inductive Go
  /-- `go BroadcastEvent`. -/
  | broadcastEvent (e : Event ℕ) (ty : ℕ)
  /-- `go RequestEvent`. -/
  | requestEvent (rqa : RequestArg)
  /-- `go AddEvent`. -/
  | addEvent (e : Event ℕ) (ty : ℕ)
  deriving DecidableEq

/-- What a turn leaves behind. -/
structure Turn where
  /-- The variables. -/
  handler : Handler
  /-- The graph. -/
  graph : JPGraph
  /-- The goroutines it started. -/
  started : List Go

/-- The type under which the timer branch broadcasts. -/
def Handler.etTy (h : Handler) : ℕ := if h.roundComming then Mark.witness else Mark.normal

/-- The `select`: one branch of it, as long as it is ready. -/
def select (keccak : List UInt8 → Hash) (h : Handler) (jp : JPGraph) : Branch → Except Stop Turn
  | .eventNorm =>
    match jp.eventNorm with
    | [] => .error .blocked
    | e :: rest =>
      .ok ⟨{ h with et := some e, ty := Mark.normal }, { jp with eventNorm := rest }, []⟩
  | .witnessL =>
    match jp.witnessL with
    | [] => .error .blocked
    | e :: rest =>
      .ok ⟨{ h with et := some e, ty := Mark.witnessLocal }, { jp with witnessL := rest },
        [.broadcastEvent e Mark.witness]⟩
  | .witnessR =>
    match jp.witnessR with
    | [] => .error .blocked
    | e :: rest => do
      let r ← jp.derefRound e
      return ⟨{ h with
          et := some e
          ty := Mark.witness
          roundComming := h.roundComming || r = jp.currentIdx + 1 },
        { jp with witnessR := rest }, []⟩
  | .onlyTime now rand => do
    let (jp, et) ← jp.composeEvent keccak now rand
    return ⟨{ h with et := some et, roundComming := false }, jp, [.broadcastEvent et h.etTy]⟩
  | .overFlow now rand =>
    if h.transUnHandled > maxTransInEvent then do
      let (jp, et) ← jp.composeEvent keccak now rand
      return ⟨{ h with et := some et, roundComming := false }, jp, []⟩
    else .ok ⟨h, jp, []⟩
  | .request =>
    match jp.requestChan with
    | [] => .error .blocked
    | rqa :: rest => .ok ⟨h, { jp with requestChan := rest }, [.requestEvent rqa]⟩

/-- The end of a turn: the event of the variables is added unless its type is `WitnessLocal`. -/
def Turn.finish (t : Turn) : Turn :=
  match t.handler.et with
  | none => t
  | some e =>
    if t.handler.ty ≠ Mark.witnessLocal then
      { t with started := t.started ++ [.addEvent e t.handler.ty] }
    else t

/-- One turn of the loop of `EventHandle`. -/
def eventHandle (keccak : List UInt8 → Hash) (h : Handler) (jp : JPGraph) (b : Branch) :
    Except Stop Turn :=
  (select keccak h jp b).map Turn.finish

/-- The calls of `AddEvent` that a turn starts. -/
def Turn.addCalls (t : Turn) : List (Event ℕ × ℕ) :=
  t.started.filterMap fun
    | .addEvent e ty => some (e, ty)
    | _ => none

/-- The calls of `BroadcastEvent` that a turn starts. -/
def Turn.broadcasts (t : Turn) : List (Event ℕ × ℕ) :=
  t.started.filterMap fun
    | .broadcastEvent e ty => some (e, ty)
    | _ => none

/-- What a turn has to add. An event from the channels is added once under the type of its
channel, a composed event under the type of its broadcast, and nothing is added for a local
witness, a request or an idle overflow tick. -/
def Turn.AddsRight (h : Handler) (jp : JPGraph) (t : Turn) : Branch → Prop
  | .eventNorm => t.addCalls = (jp.eventNorm.take 1).map fun e => (e, Mark.normal)
  | .witnessR => t.addCalls = (jp.witnessR.take 1).map fun e => (e, Mark.witness)
  | .onlyTime _ _ => ∃ call, t.broadcasts = [call] ∧ t.addCalls = [call]
  | .overFlow _ _ => h.transUnHandled > maxTransInEvent ∨ t.addCalls = []
  | .witnessL => t.addCalls = []
  | .request => t.addCalls = []

/-- The variables fit the branch: the timer finds the type under which it is going to
broadcast, and a branch without an event finds nothing to add. -/
def Handler.Fits (h : Handler) : Branch → Prop
  | .onlyTime _ _ => h.ty = h.etTy
  | .overFlow _ _ => h.transUnHandled > maxTransInEvent ∨ h.ty = Mark.witnessLocal ∨ h.et = none
  | .request => h.ty = Mark.witnessLocal ∨ h.et = none
  | _ => True

instance (h : Handler) (b : Branch) : Decidable (h.Fits b) := by
  cases b <;> unfold Handler.Fits <;> infer_instance

/-- The end of a turn starts at most one call. -/
theorem Turn.addCalls_finish (t : Turn) : t.finish.addCalls = t.addCalls ++
    (if t.handler.ty ≠ Mark.witnessLocal then t.handler.et.toList else []).map
      fun e => (e, t.handler.ty) := by
  unfold Turn.finish
  cases t.handler.et with
  | none => simp
  | some e =>
    dsimp only
    split_ifs <;> simp [Turn.addCalls]

/-- The end of a turn broadcasts nothing. -/
theorem Turn.broadcasts_finish (t : Turn) : t.finish.broadcasts = t.broadcasts := by
  unfold Turn.finish
  cases t.handler.et with
  | none => rfl
  | some e =>
    dsimp only
    split_ifs <;> simp [Turn.broadcasts]

/-- A turn without an event of its own adds what the variables hold. -/
theorem addCalls_finish_eq_nil {t : Turn} (h : t.addCalls = []) :
    t.finish.addCalls = [] ↔ t.handler.ty = Mark.witnessLocal ∨ t.handler.et = none := by
  rw [Turn.addCalls_finish, h]
  by_cases hty : t.handler.ty = Mark.witnessLocal
  · simp [hty]
  · cases t.handler.et <;> simp [hty]

/-- A turn adds what it has to add just when the variables fit the branch. -/
theorem addsRight_iff (keccak : List UInt8 → Hash) (h : Handler) (jp : JPGraph) (b : Branch) :
    Ensures (eventHandle keccak h jp b) fun t => t.AddsRight h jp b ↔ h.Fits b := by
  refine .map (Q := fun t => t.finish.AddsRight h jp b ↔ h.Fits b) ?_ fun t ht => ht
  cases b with
  | eventNorm =>
    unfold select
    cases hq : jp.eventNorm with
    | nil => exact .error
    | cons e rest =>
      exact .ok (by simp [Turn.AddsRight, Handler.Fits, Turn.finish, Turn.addCalls, hq])
  | witnessL =>
    unfold select
    cases hq : jp.witnessL with
    | nil => exact .error
    | cons e rest => exact .ok (by simp [Turn.AddsRight, Handler.Fits, Turn.finish, Turn.addCalls])
  | witnessR =>
    unfold select
    cases hq : jp.witnessR with
    | nil => exact .error
    | cons e rest =>
      refine .bind (.self _) fun r _ => .ok ?_
      simp [Turn.AddsRight, Handler.Fits, Turn.finish, Turn.addCalls, hq]
  | onlyTime now rand =>
    refine .bind (.self _) fun ⟨jp', et⟩ _ => .ok ?_
    have hetTy : h.etTy ≠ Mark.witnessLocal := by
      unfold Handler.etTy
      split_ifs <;> decide
    simp only [Turn.AddsRight, Handler.Fits, Turn.addCalls_finish, Turn.broadcasts_finish]
    by_cases hty : h.ty = Mark.witnessLocal
    · simp [hty, Turn.addCalls, Ne.symm hetTy]
    · simp [hty, Turn.addCalls, Turn.broadcasts, eq_comm]
  | overFlow now rand =>
    unfold select Turn.AddsRight Handler.Fits
    split_ifs with hbusy
    · exact .bind (.self _) fun _ _ => .ok (iff_of_true (Or.inl hbusy) (Or.inl hbusy))
    · exact .ok (or_congr_right (addCalls_finish_eq_nil rfl))
  | request =>
    unfold select
    cases hq : jp.requestChan with
    | nil => exact .error
    | cons rqa rest => exact .ok (addCalls_finish_eq_nil rfl)

/-- One turn as a step of the variables, on the graph that it finds. -/
def turn (keccak : List UInt8 → Hash) (h : Handler) (a : JPGraph × Branch) : Except Stop Handler :=
  (eventHandle keccak h a.1 a.2).map Turn.handler

/-- The turn, when it comes to its end, adds what it has to add. -/
def TurnRight (keccak : List UInt8 → Hash) (h : Handler) (a : JPGraph × Branch) : Prop :=
  Ensures (eventHandle keccak h a.1 a.2) fun t => t.AddsRight h a.1 a.2

/-- In every sequence of turns, all of them add what they have to add just when the variables
always fit the branch. -/
theorem turnsRight_iff (keccak : List UInt8 → Hash) {jp : JPGraph} {turns : List (JPGraph × Branch)}
    {h' : Handler} (hrun : run (turn keccak) (newHandler jp) turns = .ok h') :
    Meets (turn keccak) (TurnRight keccak) (newHandler jp) turns ↔
      Meets (turn keccak) (fun h a => h.Fits a.2) (newHandler jp) turns := by
  refine meets_congr (fun h a h' hstep => ?_) hrun
  obtain ⟨t, ht, -⟩ := exists_of_map_eq_ok hstep
  have hiff : t.AddsRight h a.1 a.2 ↔ h.Fits a.2 := addsRight_iff keccak h a.1 a.2 t ht
  rw [← hiff]
  constructor
  · intro hright
    exact hright t ht
  · intro hright t' ht'
    cases ht.symm.trans ht'
    exact hright

/-- The graph of a new node `0x0a`. -/
def idleGraph : JPGraph := newJPGraph (Bytes.FixedBytes.ofNat 20 0x0A) 3

/-- A normal event that waits in the channel and a tick of the timer after it. -/
def normalThenTick : List (JPGraph × Branch) :=
  [({ idleGraph with eventNorm := [default] }, .eventNorm), (idleGraph, .onlyTime 1 0)]

/-- After a normal event the timer finds the right type. -/
theorem turnsRight_normalThenTick :
    Meets (turn firstKeccak) (TurnRight firstKeccak) (newHandler idleGraph) normalThenTick :=
  (turnsRight_iff firstKeccak (eq_ok_getD (by decide +kernel) (newHandler idleGraph))).mpr
    (by decide +kernel)

/-- The event that the first tick composes. Its round number is the first cell. -/
def tickEvent : Event ℕ := { firstEvent 0 0 with roundID := some 0 }

/-- The first tick of the timer broadcasts a normal event and adds it under type 0. -/
theorem not_turnRight_first_tick :
    (eventHandle firstKeccak (newHandler idleGraph) idleGraph (.onlyTime 1 0)).toOption.map
        (fun t => (t.broadcasts, t.addCalls)) =
      some ([(tickEvent, Mark.normal)], [(tickEvent, 0)]) ∧
    ¬ Meets (turn firstKeccak) (TurnRight firstKeccak) (newHandler idleGraph)
      [(idleGraph, .onlyTime 1 0)] := by
  have hcalls : (eventHandle firstKeccak (newHandler idleGraph) idleGraph
      (.onlyTime 1 0)).toOption.map (fun t => (t.broadcasts, t.addCalls)) =
        some ([(tickEvent, Mark.normal)], [(tickEvent, 0)]) := by decide +kernel
  refine ⟨hcalls, fun h => ?_⟩
  obtain ⟨t, ht, hpair⟩ := Option.map_eq_some_iff.mp hcalls
  obtain ⟨hbroadcasts, hadds⟩ := Prod.mk.inj hpair
  obtain ⟨call, hcall, hcall'⟩ := h.1 t (eq_ok_of_toOption ht)
  rw [hbroadcasts] at hcall
  rw [hadds, ← hcall] at hcall'
  exact absurd hcall' (by decide)

end Hashgrid.Node
