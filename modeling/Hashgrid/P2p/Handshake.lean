import Hashgrid.Node.Peer
import Hashgrid.Rlp.TypedDecode

/-!
# The handshake of a connection

`protoHandshake` and `HandleConn` of `p2p/server.go`. The first message on a connection is
taken as the handshake of the remote end. Its code is not looked at and the error of the
decoder is dropped, so an address that was not sent may come out.
-/

namespace Hashgrid.P2p

open Hashgrid.Bytes Hashgrid.Core Hashgrid.Machine Hashgrid.Rlp Hashgrid.Wire

/-- `handshakeMsg`. -/
def handshakeMsg : UInt8 := 0x00

/-- `Msg.Decode` into a fresh address: the address as far as it is filled, and the error. -/
def decodeAddress (msg : Msg) : Address × Option Err :=
  match decode (.byteArray 20) (newStream msg.payload.data msg.size.toNat) with
  | (a, err, _) => (a, err)

/-- Why a handshake fails. -/
inductive HandshakeErr
  /-- No message can be read. -/
  | read (err : ConnErr)
  /-- `remote peer has the same ID`. -/
  | sameID
  deriving DecidableEq

/-- The end of `protoHandshake`, after it has read a message. -/
def receiveID (id : Address) (msg : Msg) : Except HandshakeErr Address :=
  let recvID := (decodeAddress msg).1
  if recvID.compare id = 0 then .error .sameID else .ok recvID

/-- `protoHandshake` of a server with the given ID, on a connection whose remote end sends the given
bytes. -/
def protoHandshake (id : Address) (wire : List UInt8) : Except HandshakeErr Address :=
  match readMsg (some wire) with
  | .error err => .error (.read err)
  | .ok (msg, _) => receiveID id msg

/-- How `HandleConn` ends. -/
inductive Outcome
  /-- It closes the connection and returns, with an error or without. -/
  | rejected (err : Option HandshakeErr)
  /-- It hands the connection to `addpeer` under an ID. -/
  | offered (id : Address)
  deriving DecidableEq

/-- `HandleConn`. `FindPeer` is given by the addresses of the peers. -/
def handleConn (id : Address) (peers : Finset Address) (wire : List UInt8) : Outcome :=
  match protoHandshake id wire with
  | .error err => .rejected (some err)
  | .ok recvID =>
    if recvID.compare id = 0 then .rejected none
    else if recvID ∈ peers then .rejected none
    else .offered recvID

/-- A connection is handed over only after a handshake message with an address other than the
server's own, and under this address. -/
def HandsOverRight (id : Address) (peers : Finset Address) (wire : List UInt8) : Prop :=
  match handleConn id peers wire with
  | .rejected _ => True
  | .offered a => ∃ r ∈ (readMsg (some wire)).toOption, r.1.code = handshakeMsg ∧
      (decodeAddress r.1).2 = none ∧ (decodeAddress r.1).1 = a ∧ a ≠ id

instance (id : Address) (peers : Finset Address) (wire : List UInt8) :
    Decidable (HandsOverRight id peers wire) := by
  unfold HandsOverRight
  split <;> infer_instance

/-- The address in a payload that starts with the encoding of one: a tag and twenty bytes. -/
def namedIn : List UInt8 → Option Address
  | 0x94 :: b => if 20 ≤ b.length then some (fillArray 20 b) else none
  | _ => none

/-- What the remote end sends is no complete message, or a handshake message whose payload starts
with an address, or something else: then the payload names the server itself or a peer, or it
names nobody and the zero address is that of the server or of a peer. -/
def Introduces (id : Address) (peers : Finset Address) (wire : List UInt8) : Prop :=
  ∀ r ∈ (readMsg (some wire)).toOption,
    r.1.code = handshakeMsg ∧ (namedIn r.1.payload.data).isSome ∨
      (namedIn r.1.payload.data).getD (FixedBytes.zero 20) = id ∨
      (namedIn r.1.payload.data).getD (FixedBytes.zero 20) ∈ peers

instance (id : Address) (peers : Finset Address) (wire : List UInt8) :
    Decidable (Introduces id peers wire) :=
  inferInstanceAs (Decidable (∀ r ∈ (readMsg (some wire)).toOption, _))

/-- The encoding of an address. -/
theorem encodeString_address (a : Address) : encodeString a.bytes = 0x94 :: a.bytes := by
  have hbig : ∀ x, a.bytes = [x] → ¬ x ≤ 0x7F := by
    intro x hx
    have hlen := a.length_eq
    rw [hx] at hlen
    cases hlen
  rw [encodeString_of_header hbig, a.length_eq]
  rfl

/-- A payload that starts with an address. -/
theorem namedIn_eq_some {b : List UInt8} {a : Address} :
    namedIn b = some a ↔ ∃ rest, b = encodeString a.bytes ++ rest := by
  rw [encodeString_address]
  constructor
  · intro h
    unfold namedIn at h
    split at h
    · next b =>
      split_ifs at h with hlen
      cases h
      refine ⟨b.drop 20, ?_⟩
      have hbytes : (fillArray 20 b).bytes = b.take 20 := List.take_append_of_le_length hlen
      rw [hbytes, List.cons_append, List.take_append_drop]
    · cases h
  · rintro ⟨rest, rfl⟩
    have hlen : 20 ≤ (a.bytes ++ rest).length := by
      rw [List.length_append, a.length_eq]
      omega
    have hfill : fillArray 20 (a.bytes ++ rest) = a := by
      apply FixedBytes.ext_bytes
      change ((a.bytes ++ rest) ++ List.replicate 20 0).take 20 = a.bytes
      rw [List.append_assoc]
      exact List.take_left' a.length_eq
    rw [List.cons_append, namedIn, if_pos hlen, hfill]

/-- What `Decode` makes of a payload: the address that it starts with, or an error and the zero
address. -/
theorem decodeAddress_eq {msg : Msg} (hsize : msg.payload.data.length = msg.size.toNat) :
    (decodeAddress msg).1 = (namedIn msg.payload.data).getD (FixedBytes.zero 20) ∧
      ((decodeAddress msg).2 = none ↔ (namedIn msg.payload.data).isSome = true) := by
  have hready := ready_newStream msg.payload.data
  have hlt : msg.payload.data.length < 2 ^ 64 := by
    rw [hsize]
    exact msg.size.toNat_lt.trans (by decide)
  unfold decodeAddress
  rw [← hsize]
  cases hnamed : namedIn msg.payload.data with
  | some a =>
    obtain ⟨rest, hdata⟩ := namedIn_eq_some.mp hnamed
    have hne : a.bytes ≠ [0] := by
      intro hzero
      have hlen := a.length_eq
      rw [hzero] at hlen
      cases hlen
    rw [hdata] at hready hlt ⊢
    rw [List.length_append] at hlt
    obtain ⟨s', hdecode, -⟩ :=
      decodes_byteArray hne rfl (by omega) hready (show Room [] _ from trivial)
    rw [hdecode]
    exact ⟨rfl, by simp⟩
  | none =>
    rcases hdecode : decode (.byteArray 20)
      (newStream msg.payload.data msg.payload.data.length) with ⟨v, err, s'⟩
    cases err with
    | some e => exact ⟨decodeByteArray_error (by decide) hready hdecode, by simp⟩
    | none =>
      obtain ⟨c, rest, hdata, -, hdecoded, -⟩ := decode_byteArray_ok hready trivial hdecode
      obtain ⟨b, henc, hclean, -⟩ := hdecoded.enc
      cases henc
      have hfound : namedIn msg.payload.data = some v :=
        namedIn_eq_some.mpr ⟨rest, (hclean rfl).symm ▸ hdata⟩
      cases hnamed.symm.trans hfound

/-- What `ReadMsg` returns has the size that it says. -/
theorem size_readMsg (wire : List UInt8) : Ensures (readMsg (some wire)) fun r =>
    r.1.payload.data.length = r.1.size.toNat := by
  refine .bind (.self _) fun head _ => ?_
  refine .bind (Q := fun r => r.1.length = (readInt32 (head.1.drop 5)).toNat) ?_ fun r hr => .ok hr
  unfold readFull
  split_ifs with hlen
  · exact .ok (List.length_take_of_le hlen)
  · exact .error
  · exact .error

/-- What `HandleConn` does with the first message. -/
theorem handleConn_of_readMsg {id : Address} {peers : Finset Address} {wire : List UInt8}
    {r : Msg × List UInt8} (hr : readMsg (some wire) = .ok r) : handleConn id peers wire =
      if (decodeAddress r.1).1 = id then .rejected (some .sameID)
      else if (decodeAddress r.1).1 ∈ peers then .rejected none
      else .offered (decodeAddress r.1).1 := by
  unfold handleConn protoHandshake receiveID
  rw [hr]
  simp only [FixedBytes.compare_eq_zero]
  by_cases hown : (decodeAddress r.1).1 = id
  · simp only [if_pos hown]
  · simp only [if_neg hown]

/-- A connection is handed over rightly just when the remote end introduces itself. -/
theorem handsOverRight_iff_introduces (id : Address) (peers : Finset Address) (wire : List UInt8) :
    HandsOverRight id peers wire ↔ Introduces id peers wire := by
  unfold HandsOverRight Introduces
  cases hr : readMsg (some wire) with
  | error err =>
    have hreject : handleConn id peers wire = .rejected (some (.read err)) := by
      simp only [handleConn, protoHandshake, hr]
    simp [hreject, Except.toOption]
  | ok r =>
    obtain ⟨haddress, herr⟩ := decodeAddress_eq (size_readMsg wire r hr)
    rw [handleConn_of_readMsg hr]
    simp only [Except.toOption, Option.mem_some_iff, forall_eq', exists_eq_left', ← haddress,
      ← herr]
    by_cases hown : (decodeAddress r.1).1 = id
    · simp [hown]
    · by_cases hpeer : (decodeAddress r.1).1 ∈ peers
      · simp [hown, hpeer]
      · simp [hown, hpeer]

/-- A ping of node `0x0b`, as the first message on a connection. -/
def pingFrame : List UInt8 :=
  frame (Node.arrivedMsg Node.pingMsg 0
    ((encodeToBytes (.byteArray 20) (FixedBytes.ofNat 20 0x0B)).toOption.getD []))

/-- A handshake message without a payload. -/
def emptyFrame : List UInt8 := frame (Node.arrivedMsg handshakeMsg 0 [])

/-- Node `0x0a` hands a connection over under the address that a ping carries, and under the zero
address after a handshake message from which nothing can be decoded. -/
theorem not_handsOverRight_ping :
    handleConn (FixedBytes.ofNat 20 0x0A) ∅ pingFrame = .offered (FixedBytes.ofNat 20 0x0B) ∧
      ¬ HandsOverRight (FixedBytes.ofNat 20 0x0A) ∅ pingFrame ∧
      handleConn (FixedBytes.ofNat 20 0x0A) ∅ emptyFrame = .offered (FixedBytes.zero 20) ∧
      ¬ HandsOverRight (FixedBytes.ofNat 20 0x0A) ∅ emptyFrame := by
  decide +kernel

end Hashgrid.P2p
