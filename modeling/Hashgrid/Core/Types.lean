import Hashgrid.Rlp.Types

/-!
# Events

The records of `core/types.go`. An event refers to its round number by pointer, and
`RoundLoop` and `ComposeEvent` write through that pointer. `Event` is therefore generic
in what stands for a `*big.Int` round number: a number on the wire, and a reference to
a heap cell in a running node. The time stamp is never written after it was set, so its
pointer is an optional number.
-/

namespace Hashgrid.Core

open Hashgrid.Bytes Hashgrid.Rlp

/-- `Hash`. -/
abbrev Hash := FixedBytes 32

/-- `Address`. -/
abbrev Address := FixedBytes 20

instance (n : ℕ) : Inhabited (FixedBytes n) := ⟨FixedBytes.zero n⟩

/-- `MaxTransInEvent`. -/
def maxTransInEvent : ℕ := 64

/-- `Transaction`, which has no fields. -/
structure Transaction
  deriving DecidableEq

/-- `Sig`. -/
structure Sig where
  /-- The address of the creator. -/
  addr : Address
  deriving DecidableEq, Inhabited

/-- `Event`, with `ρ` for the targets of the `RoundID` pointer. -/
structure Event (ρ : Type) where
  /-- Time of creation. -/
  timeStamp : Option ℤ
  /-- Pointers to the transactions. -/
  trans : List (Option Transaction)
  /-- Hash of the self parent. -/
  selfPart : Hash
  /-- Hash of this event. -/
  selfHash : Hash
  /-- Signature of the creator. -/
  selfSig : Sig
  /-- Hash of the other parent. -/
  otherPartH : Hash
  /-- Address of the creator of the other parent. -/
  otherPartA : Address
  /-- The round of the event. -/
  roundID : Option ρ
  deriving DecidableEq, Inhabited

/-- `RequestArg`. -/
structure RequestArg where
  /-- The hash that is asked for. -/
  targetHash : Hash
  /-- The address that is asked. -/
  targetAddr : Address
  /-- How often `RandParent` has chosen this entry. -/
  refered : ℕ
  deriving DecidableEq

/-- The built-in `copy`: the leading elements of `dst` are replaced by those of `src`, as
far as both reach. -/
def copySlice {α : Type} (dst src : List α) : List α :=
  src.take dst.length ++ dst.drop src.length

/-- `CopyEvent`. The new slice has room for `MaxTransInEvent` transactions but length 0. -/
def copyEvent {ρ : Type} (e : Event ρ) : Event ρ := { e with trans := copySlice [] e.trans }

@[simp] theorem copyEvent_eq {ρ : Type} (e : Event ρ) : copyEvent e = { e with trans := [] } := by
  simp [copyEvent, copySlice]

/-- The Go type `[]*Transaction`. -/
def transTy : Ty := .slice (.ptr (.struct .nil))

/-- The Go type `Sig`. -/
def sigTy : Ty := .struct (.cons "Addr" (.byteArray 20) .nil)

/-- The Go type `Event`. -/
def eventTy : Ty :=
  .struct <|
    .cons "TimeStamp" .bigInt <|
    .cons "Trans" transTy <|
    .cons "SelfPart" (.byteArray 32) <|
    .cons "SelfHash" (.byteArray 32) <|
    .cons "SelfSig" sigTy <|
    .cons "OtherPartH" (.byteArray 32) <|
    .cons "OtherPartA" (.byteArray 20) <|
    .cons "RoundID" .bigInt .nil

/-- The transactions as `rlp` sees them. -/
def transVal (ts : List (Option Transaction)) : transTy.Val :=
  show List (Option Unit) from ts.map fun t => t.map fun _ => ()

/-- The signature as `rlp` sees it. -/
def Sig.val (s : Sig) : sigTy.Val := (s.addr, ())

/-- The event as `rlp` sees it. -/
def Event.val (e : Event ℤ) : eventTy.Val :=
  (e.timeStamp, transVal e.trans, e.selfPart, e.selfHash, e.selfSig.val, e.otherPartH,
    e.otherPartA, e.roundID, ())

/-- The transactions in a value of their Go type. -/
def transOfVal (v : transTy.Val) : List (Option Transaction) :=
  (show List (Option Unit) from v).map fun t => t.map fun _ => ⟨⟩

/-- The event in a value of its Go type. -/
def Event.ofVal (v : eventTy.Val) : Event ℤ :=
  match v with
  | (timeStamp, trans, selfPart, selfHash, (addr, ()), otherPartH, otherPartA, roundID, ()) =>
    ⟨timeStamp, transOfVal trans, selfPart, selfHash, ⟨addr⟩, otherPartH, otherPartA, roundID⟩

/-- Transactions survive the passage through their Go type. -/
theorem transOfVal_transVal (ts : List (Option Transaction)) : transOfVal (transVal ts) = ts := by
  induction ts with
  | nil => rfl
  | cons t ts ih =>
    refine (List.cons_eq_cons).mpr ⟨?_, ih⟩
    cases t <;> rfl

@[simp] theorem Event.ofVal_val (e : Event ℤ) : Event.ofVal e.val = e :=
  congrArg (fun ts => { e with trans := ts }) (transOfVal_transVal e.trans)

end Hashgrid.Core
