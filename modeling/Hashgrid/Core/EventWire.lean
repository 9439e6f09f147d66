import Hashgrid.Core.EventHash
import Hashgrid.Lib.Machine
import Hashgrid.Rlp.RoundTrip

/-!
# Events on the wire

An event travels as the RLP encoding of its struct. `CopyEvent` drops the transactions,
so the receiver recomputes the hash without them.
-/

namespace Hashgrid.Core

open Hashgrid.Bytes Hashgrid.Rlp

/-- `Msg.Decode` into a fresh event: the event as far as it was filled, and the error. -/
def decodeEvent (payload : List UInt8) : Event ℤ × Option Err :=
  match decode eventTy (newStream payload payload.length) with
  | (v, err, _) => (Event.ofVal v, err)

/-- The event that arrives when `e` is sent: nil transactions arrive as empty ones. -/
def Event.received (e : Event ℤ) : Event ℤ :=
  { e with trans := e.trans.map fun _ => some ⟨⟩ }

/-- Every transaction, nil or not, is encoded as an empty list. -/
theorem encode_transVal (ts : List (Option Transaction)) :
    encode transTy (transVal ts) = .ok (encodeList (List.replicate ts.length 0xC0)) := by
  have helems : encodeElems (encode (.ptr (.struct .nil))) (transVal ts) =
      .ok (List.replicate ts.length 0xC0) := by
    induction ts with
    | nil => rfl
    | cons t ts ih =>
      change (encode (.ptr (.struct .nil)) (t.map fun _ => ()) >>= fun b =>
        encodeElems (encode (.ptr (.struct .nil))) (transVal ts) >>= fun bs => pure (b ++ bs)) = _
      rw [ih]
      cases t <;> rfl
  change (encodeElems (encode (.ptr (.struct .nil))) (transVal ts)).map encodeList = _
  rw [helems]
  rfl

/-- The wire does not tell nil transactions from empty ones. -/
theorem encode_received (e : Event ℤ) : encode eventTy e.received.val = encode eventTy e.val := by
  have htrans : encode transTy (transVal e.received.trans) = encode transTy (transVal e.trans) := by
    rw [encode_transVal, encode_transVal]
    simp [Event.received]
  simp only [eventTy, encode, Event.val, encodeFields, htrans]
  rfl

/-- An array of at least two bytes is regular. -/
theorem regular_fixed {n : ℕ} (hn : 1 < n) (v : FixedBytes n) : Regular (.byteArray n) v := by
  intro h
  have := v.length_eq
  rw [h] at this
  simp at this
  omega

variable {e : Event ℤ} {ρ : Type}

/-- The received event survives another round of encoding and decoding. -/
theorem regular_received (hstamp : e.timeStamp ≠ none) (hround : e.roundID ≠ none) :
    Regular eventTy e.received.val := by
  have htrans : Regular transTy (transVal e.received.trans) := by
    unfold Event.received
    induction e.trans with
    | nil => exact fun x hx => nomatch hx
    | cons t ts ih =>
      intro x hx
      rcases List.mem_cons.mp hx with rfl | hx
      · trivial
      · exact ih x hx
  exact ⟨hstamp, htrans, regular_fixed (by decide) _, regular_fixed (by decide) _,
    ⟨regular_fixed (by decide) _, trivial⟩, regular_fixed (by decide) _,
    regular_fixed (by decide) _, hround, trivial⟩

/-- The receiver of an encoded event decodes it. -/
theorem decodeEvent_encode (hstamp : e.timeStamp ≠ none) (hround : e.roundID ≠ none)
    {b : List UInt8} (henc : encodeToBytes eventTy e.val = .ok b) :
    decodeEvent b = (e.received, none) := by
  obtain ⟨henc, hlt⟩ := encodeToBytes_eq_ok.mp henc
  rw [← encode_received] at henc
  have hready : Ready (newStream b b.length) (b ++ []) [] := by simpa using ready_newStream b
  obtain ⟨s', hdec, -⟩ :=
    (regular_received hstamp hround).decodes eventTy henc (by omega) hready trivial
  simp only [decodeEvent, hdec, Event.ofVal_val]

/-- The hash of an event with a nonnegative time stamp covers the transactions. -/
theorem encodeTo_hashFields {e : Event ρ} (h : 0 ≤ e.stamp) :
    encodeTo e.hashFields = encodeList (encodeString (natBytes e.stamp.toNat) ++
      (encodeList (List.replicate e.trans.length 0xC0) ++ e.checkTail.tail)) := by
  have hts := encode_timeStamp h
  rw [encodeTo_eq]
  simp only [Event.hashFields, encodeElems, hts, encode_transVal]
  simp only [bind, Except.bind, pure, Except.pure, encode, sigTy, Sig.val, encodeFields,
    Except.map, Event.checkTail, List.append_nil]
  rfl

/-- The hash covers what `validateEvent` recomputes exactly when there are no transactions. -/
theorem encodeTo_hashFields_eq_checkInput {e : Event ρ} (h : 0 ≤ e.stamp) :
    encodeTo e.hashFields = e.checkInput ↔ e.trans = [] := by
  have htail : e.checkTail = encodeList [] ++ e.checkTail.tail := rfl
  rw [encodeTo_hashFields h, checkInput_eq h, encodeList_injective.eq_iff]
  conv_lhs => rhs; rw [htail]
  rw [List.append_cancel_left_eq, List.append_cancel_right_eq, encodeList_injective.eq_iff]
  simp

/-- A correctly hashed event that is encoded and decoded again is accepted exactly when it
carries no transactions. -/
theorem validateEvent_decoded_iff (keccak : List UInt8 → Hash) {e : Event ℤ} {t : ℤ}
    (hstamp : e.timeStamp = some t) (ht : 0 ≤ t) (hround : e.roundID ≠ none)
    (hhash : e.selfHash = e.hash keccak)
    (hcollision : keccak (encodeTo e.hashFields) = keccak e.checkInput →
      encodeTo e.hashFields = e.checkInput)
    {b : List UInt8} (henc : encodeToBytes eventTy e.val = .ok b) :
    (decodeEvent b).2 = none ∧
      (validateEvent keccak (decodeEvent b).1 = true ↔ e.trans = []) := by
  have hpos : 0 ≤ e.stamp := by simpa [Event.stamp, hstamp] using ht
  have hinput : e.received.checkInput = e.checkInput := by
    simp [Event.checkInput, Event.received]
  have hreceived : e.received.selfHash = keccak (encodeTo e.hashFields) := hhash
  rw [decodeEvent_encode (by simp [hstamp]) hround henc, validateEvent_iff, hinput,
    hreceived, ← encodeTo_hashFields_eq_checkInput hpos]
  exact ⟨rfl, fun h => hcollision h.symm, fun h => congrArg keccak h.symm⟩

/-- A first event of creator `0x0a` under the Keccak-256 digest of all its hashed fields. -/
def paidEvent (trans : List (Option Transaction)) (digest : ℕ) : Event ℤ :=
  { firstEvent 0 0 with trans := trans, selfHash := FixedBytes.ofNat 32 digest }

/-- The event without transactions. -/
def emptyEvent : Event ℤ :=
  paidEvent [] 0x01f91fec2b633ca355f6633fe5318a8f4c99d2ce3dc0c8f29e14424c68273004

/-- The event with one transaction. -/
def fullEvent : Event ℤ :=
  paidEvent [some ⟨⟩] 0x535a7f4bcefb484a496f29121f87b5046b0fc832e25971cdedbd0b14c4651d9d

/-- Keccak-256 on the hash inputs of the two events. -/
def paidKeccak : List UInt8 → Hash :=
  tabulated [(encodeTo emptyEvent.hashFields, emptyEvent.selfHash),
    (encodeTo fullEvent.hashFields, fullEvent.selfHash)]

/-- The bytes of an event on the wire. -/
def Event.wire (e : Event ℤ) : List UInt8 := (encodeToBytes eventTy e.val).toOption.getD []

theorem encodeToBytes_wire (h : (encodeToBytes eventTy e.val).toOption.isSome = true) :
    encodeToBytes eventTy e.val = .ok e.wire := Machine.eq_ok_getD h []

/-- The event without transactions is accepted by its receiver. -/
theorem validateEvent_decoded_emptyEvent :
    (decodeEvent emptyEvent.wire).2 = none ∧
      (validateEvent paidKeccak (decodeEvent emptyEvent.wire).1 = true ↔ emptyEvent.trans = []) :=
  validateEvent_decoded_iff paidKeccak (t := 1) rfl (by decide) (by decide) (by decide +kernel)
    (by decide +kernel) (encodeToBytes_wire (by decide +kernel))

/-- The event with one transaction is correctly hashed and decoded without error, and its
receiver rejects it. -/
theorem fullEvent_rejected :
    fullEvent.selfHash = fullEvent.hash paidKeccak ∧
      (encodeToBytes eventTy fullEvent.val).toOption = some fullEvent.wire ∧
      (decodeEvent fullEvent.wire).2 = none ∧
      validateEvent paidKeccak (decodeEvent fullEvent.wire).1 = false := by
  decide +kernel

end Hashgrid.Core
