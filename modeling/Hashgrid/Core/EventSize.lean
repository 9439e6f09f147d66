import Hashgrid.Core.EventWire

/-!
# The size of an event on the wire

An event without transactions whose numbers fit into a machine word takes a few hundred
bytes, so its length fits into the size field of a message.
-/

namespace Hashgrid.Rlp

open Hashgrid.Bytes Hashgrid.Machine

/-- A header has at most nine bytes. -/
theorem puthead_length_le (small large : UInt8) (size : ℕ) :
    (puthead small large size).length ≤ 9 := by
  have hint := (putint_length_spec size).1.2
  unfold puthead
  split_ifs
  · simp
  · rw [List.length_cons]
    omega

theorem encodeList_length_le (c : List UInt8) : (encodeList c).length ≤ c.length + 9 := by
  have hhead := puthead_length_le 0xC0 0xF7 c.length
  unfold encodeList
  rw [List.length_append]
  omega

/-- The encoding of a string adds at most a header. -/
theorem encodeString_length_le (c : List UInt8) : (encodeString c).length ≤ c.length + 9 := by
  unfold encodeString
  split
  · next x =>
    split_ifs
    · simp
    · have hhead := puthead_length_le 0x80 0xB7 1
      rw [List.length_append]
      simp only [List.length_cons, List.length_nil]
      omega
  · have hhead := puthead_length_le 0x80 0xB7 c.length
    rw [List.length_append]
    omega

variable {n : ℕ}

theorem natBytes_length_le (h : n < 2 ^ 63) : (natBytes n).length ≤ 8 := by
  unfold natBytes
  rw [List.length_reverse, List.length_map, Nat.digits_length_le_iff (by decide)]
  omega

/-- The encoding of a pointer to such a number. -/
theorem encode_bigInt_length {i : Option ℤ} (h : ∀ x ∈ i, x < 2 ^ 63) :
    Ensures (encode .bigInt i) fun b => b.length ≤ 17 := by
  cases i with
  | none => exact .ok (by decide)
  | some x =>
    have hlt : x.toNat < 2 ^ 63 := by
      have := h x rfl
      omega
    change Ensures (encodeBigInt x) _
    unfold encodeBigInt
    split_ifs
    · exact .error
    · exact .ok (by decide)
    · refine .ok ((encodeString_length_le _).trans ?_)
      have := natBytes_length_le hlt
      omega

theorem encode_byteArray_length (v : FixedBytes n) :
    Ensures (encode (.byteArray n) v) fun b => b.length ≤ n + 9 := by
  have hle := encodeString_length_le v.bytes
  rw [v.length_eq] at hle
  exact .ok hle

/-- The encodings of the fields of a struct. -/
theorem encodeFields_length (name : String) {type : Ty} {rest : Fields} {x : type.Val}
    {xs : rest.Val} {m : ℕ} (hx : Ensures (encode type x) fun b => b.length ≤ m)
    (hxs : Ensures (encodeFields rest xs) fun b => b.length ≤ n) :
    Ensures (encodeFields (.cons name type rest) (x, xs)) fun b => b.length ≤ m + n := by
  refine .bind hx fun b hb => .bind hxs fun bs hbs => .ok ?_
  rw [List.length_append]
  omega

theorem encode_struct_length {fields : Fields} {v : fields.Val}
    (h : Ensures (encodeFields fields v) fun b => b.length ≤ n) :
    Ensures (encode (.struct fields) v) fun b => b.length ≤ n + 9 := by
  refine .map h fun b hb => (encodeList_length_le b).trans ?_
  omega

end Hashgrid.Rlp

namespace Hashgrid.Core

open Hashgrid.Bytes Hashgrid.Machine Hashgrid.Rlp

/-- An event without transactions whose numbers fit into a machine word. -/
theorem encode_event_length {e : Event ℤ} (htrans : e.trans = [])
    (hstamp : ∀ t ∈ e.timeStamp, t < 2 ^ 63) (hround : ∀ r ∈ e.roundID, r < 2 ^ 63) :
    Ensures (encode eventTy e.val) fun b => b.length < 2 ^ 32 := by
  have hnil : Ensures (encodeFields .nil ()) fun b => b.length ≤ 0 := .ok le_rfl
  have htransLength : Ensures (encode transTy (transVal e.trans)) fun b => b.length ≤ 9 := by
    rw [htrans]
    exact .ok (by decide)
  have hsig : Ensures (encode sigTy e.selfSig.val) fun b => b.length ≤ 29 + 0 + 9 :=
    encode_struct_length (encodeFields_length _ (encode_byteArray_length e.selfSig.addr) hnil)
  have hfields := encodeFields_length "TimeStamp" (encode_bigInt_length hstamp) <|
    encodeFields_length "Trans" htransLength <|
    encodeFields_length "SelfPart" (encode_byteArray_length e.selfPart) <|
    encodeFields_length "SelfHash" (encode_byteArray_length e.selfHash) <|
    encodeFields_length "SelfSig" hsig <|
    encodeFields_length "OtherPartH" (encode_byteArray_length e.otherPartH) <|
    encodeFields_length "OtherPartA" (encode_byteArray_length e.otherPartA) <|
    encodeFields_length "RoundID" (encode_bigInt_length hround) hnil
  intro b hb
  have hlength : b.length ≤ _ := encode_struct_length hfields b hb
  exact lt_of_le_of_lt hlength (by decide)

end Hashgrid.Core
