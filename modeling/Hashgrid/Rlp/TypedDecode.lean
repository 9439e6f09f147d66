import Hashgrid.Rlp.RoundTrip
import Hashgrid.Rlp.StuckByte
import Hashgrid.Rlp.TypedEnds

/-!
# What a successful typed decoding says about the input

The bytes that a decoder consumes are the encoding of the value that it returns, unless
a byte was read twice. A decoder may start with a byte that was left behind by the one
before it, and it may leave one behind itself.
-/

namespace Hashgrid.Rlp

open Hashgrid.Bytes

variable {s s' : Stream} {inp : List UInt8} {st : List ListPos}

/-- A stream whose last byte was zero and is still cached. -/
structure Stale (s : Stream) (inp : List UInt8) (st : List ListPos) : Prop
    extends Holds s .byte 0 inp st where
  /-- The cached byte. -/
  zero : s.byteval = 0

/-- The state in which a decoder leaves the stream: the last byte is left behind or not. -/
def Rests : Bool → Stream → List UInt8 → List ListPos → Prop
  | true => Stale
  | false => Ready

theorem Ready.rests (h : Ready s inp st) : Rests false s inp st := h

variable {stale : Bool} {elem t : Ty} {b c rest v : List UInt8} {n : ℕ}

theorem Rests.at (h : Rests stale s inp st) : At s inp st := by
  cases stale with
  | true => exact (show Stale s inp st from h).toAt
  | false => exact (show Ready s inp st from h).toAt

/-- A decoder returned the value and consumed the bytes that it was decoded from. -/
def Consumed (t : Ty) (v : t.Val) (s' : Stream) (inp : List UInt8) (st : List ListPos) : Prop :=
  ∃ c rest, inp = c ++ rest ∧ Room st c.length ∧ Decoded t v c ∧
    Rests (stuck t v) s' rest (advance st c.length)

/-- A decoder that returns a value has consumed the bytes that it was decoded from. -/
structure Consumes (t : Ty) : Prop where
  /-- Nothing was left behind by the decoder before. -/
  ok : ∀ {s s' : Stream} {inp : List UInt8} {st : List ListPos} {v : t.Val}, Ready s inp st →
    Room st 0 → decode t s = (v, none, s') → Consumed t v s' inp st

theorem decoded_encodeString {v : t.Val} (henc : encode t v = .ok (encodeString c))
    (hshaped : shaped t (.str c) = true) (hclean : clean t v = true) :
    Decoded t v (encodeString c) :=
  ⟨⟨.str c, rfl, hshaped.trans hclean.symm⟩, ⟨_, henc, fun _ => rfl, by simp [hclean]⟩⟩

variable {i : ℕ}

/-- An unsigned integer is encoded like the string of its digits. -/
theorem encodeUint_eq_encodeString (hi : i < 2 ^ 64) :
    encodeUint i = encodeString (natBytes i) := by
  unfold encodeUint
  split_ifs with hzero hsmall
  · rw [hzero]
    rfl
  · have hbytes : natBytes i = [byte i] := by
      rw [← putint_eq_natBytes (by omega) hi, putint, if_pos (show i < 1 <<< 8 by omega)]
    have hle : byte i ≤ 0x7F := by
      rw [UInt8.le_iff_toNat_le, byte, UInt8.toNat_ofNat']
      exact (Nat.mod_le _ _).trans (show i ≤ 127 by omega)
    rw [hbytes]
    exact (if_pos hle).symm
  · have hput := putint_eq_natBytes (by omega : 0 < i) hi
    have hlen := (putint_length_spec i).1
    have hbig : ∀ x, putint i = [x] → ¬ x ≤ 0x7F := by
      intro x hx hle
      have hval := bytesNat_putint (by omega : 0 < i) hi
      rw [hx, bytesNat_cons] at hval
      have hx7 : x.toNat ≤ 127 := UInt8.le_iff_toNat_le.mp hle
      simp [bytesNat] at hval
      omega
    rw [← hput, encodeString_of_header hbig, header_string_small (by omega)]
    rfl

theorem wrapped_ok {α : Type} {x v : α} {err : Option Err} {s₁ : Stream}
    (h : (x, err.map (wrapStreamError · t), s₁) = (v, none, s')) :
    x = v ∧ err = none ∧ s₁ = s' := by
  simpa using h

/-- Unsigned integers. -/
theorem decode_uint_ok {bits : ℕ} (hw : 8 ≤ bits ∧ bits ≤ 64) {v : BitVec bits}
    (h : Ready s inp st) (htop : Room st 0) (hok : decode (.uint bits) s = (v, none, s')) :
    Consumed (.uint bits) v s' inp st := by
  simp only [decode] at hok
  split at hok
  · cases hok
  · next num s₁ huint =>
    cases hok
    obtain ⟨rest, hinp, hlt, hroom, hready⟩ := uint_ok hw h htop huint
    have hword : num < 2 ^ 64 := lt_of_lt_of_le hlt (Nat.pow_le_pow_right (by decide) hw.2)
    have henc : encode (.uint bits) (BitVec.ofNat bits num) = .ok (encodeUint num) := by
      change Except.ok (encodeUint (BitVec.ofNat bits num).toNat) = _
      rw [BitVec.toNat_ofNat, Nat.mod_eq_of_lt hlt]
    refine ⟨_, rest, hinp, hroom, ?_, hready⟩
    rw [encodeUint_eq_encodeString hword] at henc ⊢
    exact decoded_encodeString henc rfl rfl

/-- Booleans. -/
theorem decode_bool_ok {v : Bool} (h : Ready s inp st) (htop : Room st 0)
    (hok : decode .bool s = (v, none, s')) : Consumed .bool v s' inp st := by
  simp only [decode] at hok
  obtain ⟨hval, herr, hs⟩ := wrapped_ok hok
  have huint : s.uint 8 = (v.toNat, none, s') := by
    have hbool : s.bool = (v, none, s') := by rw [← hval, ← herr, ← hs]
    unfold Stream.bool at hbool
    split at hbool
    · cases hbool
    · next heq =>
      cases hbool
      exact heq
    · next heq =>
      cases hbool
      exact heq
    · cases hbool
  obtain ⟨rest, hinp, hlt, hroom, hready⟩ := uint_ok (by decide) h htop huint
  refine ⟨_, rest, hinp, hroom, ?_, hready⟩
  have hword : v.toNat < 2 ^ 64 := hlt.trans (by decide)
  have henc : encode .bool v = .ok (encodeUint v.toNat) := congrArg Except.ok (encodeBool_eq v)
  rw [encodeUint_eq_encodeString hword] at henc ⊢
  exact decoded_encodeString henc rfl rfl

/-- Strings and byte slices. -/
theorem bytes_consumed {v : t.Val} (h : Ready s inp st) (htop : Room st 0)
    (hbytes : s.bytes = (c, none, s')) (hstuck : stuck t v = false)
    (henc : encode t v = .ok (encodeString c)) (hshaped : shaped t (.str c) = true)
    (hclean : clean t v = true) : Consumed t v s' inp st := by
  obtain ⟨rest, hinp, hroom, hready⟩ := bytes_ok h htop hbytes
  exact ⟨_, rest, hinp, hroom, decoded_encodeString henc hshaped hclean,
    by rw [hstuck]; exact hready⟩

/-- Strings. -/
theorem decode_string_ok (h : Ready s inp st) (htop : Room st 0)
    (hok : decode .string s = (v, none, s')) : Consumed .string v s' inp st := by
  simp only [decode] at hok
  obtain ⟨hval, herr, hs⟩ := wrapped_ok hok
  exact bytes_consumed h htop (c := v) (by rw [← hval, ← herr, ← hs]) rfl rfl rfl rfl

/-- Byte slices. -/
theorem decode_bytes_ok (h : Ready s inp st) (htop : Room st 0)
    (hok : decode .bytes s = (v, none, s')) : Consumed .bytes v s' inp st := by
  simp only [decode] at hok
  obtain ⟨hval, herr, hs⟩ := wrapped_ok hok
  exact bytes_consumed h htop (c := v) (by rw [← hval, ← herr, ← hs]) rfl rfl rfl rfl

/-- The digits of a big integer that `decodeBigInt` returns. -/
theorem decodeBigInt_ok {v : Option ℤ} (hok : decodeBigInt s = (v, none, s')) :
    ∃ c, s.bytes = (c, none, s') ∧ v = some (bytesNat c : ℤ) ∧
      encodeBigInt (bytesNat c) = .ok (encodeString c) := by
  unfold decodeBigInt at hok
  split at hok
  · cases hok
  · next c s₁ hbytes =>
    split_ifs at hok with hzero
    · cases hok
    · cases hok
      refine ⟨c, hbytes, rfl, ?_⟩
      have hdigits := natBytes_bytesNat hzero
      unfold encodeBigInt
      rw [if_neg (by omega)]
      split_ifs with hnil
      · have hc : c = [] := by
          rw [← hdigits, show bytesNat c = 0 by omega, natBytes_zero]
        rw [hc]
        rfl
      · rw [Int.toNat_natCast, hdigits]

theorem decode_bigInt_ok {v : Option ℤ} (h : Ready s inp st) (htop : Room st 0)
    (hok : decode .bigInt s = (v, none, s')) : Consumed .bigInt v s' inp st := by
  obtain ⟨c, hbytes, rfl, henc⟩ := decodeBigInt_ok (show decodeBigInt s = (v, none, s') from hok)
  exact bytes_consumed h htop hbytes rfl henc rfl rfl

/-- Big integers. -/
theorem decode_bigIntNoPtr_ok {v : ℤ} (h : Ready s inp st) (htop : Room st 0)
    (hok : decode .bigIntNoPtr s = (v, none, s')) : Consumed .bigIntNoPtr v s' inp st := by
  simp only [decode] at hok
  obtain ⟨hval, herr⟩ := Prod.mk.inj hok
  obtain ⟨herr, hs⟩ := Prod.mk.inj herr
  obtain ⟨c, hbytes, hv, henc⟩ := decodeBigInt_ok
    (show decodeBigInt s = ((decodeBigInt s).1, none, s') by rw [← herr, ← hs])
  obtain rfl : (bytesNat c : ℤ) = v := by rw [← hval, hv, Option.getD_some]
  exact bytes_consumed h htop hbytes rfl henc rfl rfl

/-- A byte array that holds the bytes of its encoding. -/
theorem decoded_fillArray (hb : b.length = n) :
    FixedBytes.bytes (fillArray n b) = b ∧
      Decoded (.byteArray n) (fillArray n b) (encodeString b) := by
  have hbytes : FixedBytes.bytes (fillArray n b) = b := by simp [fillArray, ← hb]
  refine ⟨hbytes, decoded_encodeString ?_ rfl rfl⟩
  change Except.ok (encodeString (FixedBytes.bytes (fillArray n b))) = _
  rw [hbytes]

/-- A byte below `0x80` fills an array of one byte. -/
theorem consumed_oneByte {x : UInt8} (hx : x < 0x80) (hinp : inp = x :: rest) (hroom : Room st 1)
    (hs : Rests (x == 0) s' rest (advance st 1)) :
    Consumed (.byteArray 1) (fillArray 1 [x]) s' inp st := by
  have henc : encodeString [x] = [x] := if_pos ((small_byte_iff x).mpr hx)
  obtain ⟨hbytes, hdecoded⟩ := decoded_fillArray (show [x].length = 1 from rfl)
  rw [henc] at hdecoded
  refine ⟨[x], rest, hinp, hroom, hdecoded, ?_⟩
  change Rests (FixedBytes.bytes (fillArray 1 [x]) == [0]) s' rest (advance st 1)
  rw [hbytes]
  simpa using hs

/-- The content of a string fills an array. -/
theorem consumed_string (hbig : ∀ x, b = [x] → ¬ x ≤ 0x7F)
    (hinp : inp = header .string b.length ++ (b ++ rest)) (hroom : Room st (encodeString b).length)
    (hs : Ready s' rest (advance st (encodeString b).length)) :
    Consumed (.byteArray b.length) (fillArray b.length b) s' inp st := by
  obtain ⟨hbytes, hdecoded⟩ := decoded_fillArray (show b.length = b.length from rfl)
  have hstuck : stuck (.byteArray b.length) (fillArray b.length b) = false := by
    change (FixedBytes.bytes (fillArray b.length b) == [0]) = false
    rw [hbytes]
    exact beq_false_of_ne fun h0 => hbig 0 h0 (by decide)
  refine ⟨encodeString b, rest, ?_, hroom, hdecoded, ?_⟩
  · rw [hinp, encodeString_of_header hbig, List.append_assoc]
  · rw [hstuck]
    exact hs

/-- Byte arrays. -/
theorem decode_byteArray_ok {v : FixedBytes n} (h : Ready s inp st) (htop : Room st 0)
    (hok : decode (.byteArray n) s = (v, none, s')) : Consumed (.byteArray n) v s' inp st := by
  change decodeByteArray n s = (v, none, s') at hok
  unfold decodeByteArray at hok
  split at hok
  · cases hok
  · next s₁ hkind =>
    split_ifs at hok with hzero hmany
    · cases hok
    · cases hok
    · obtain rfl : n = 1 := by omega
      obtain ⟨hfound, hcached, hsize, hnoerr, -, -⟩ := kindOf_ok h htop hkind
      have hagain := kindOf_again hkind
      cases hfound with
      | header hk => exact absurd rfl hk
      | @byte x rest hx hinp hroom hat hval =>
        by_cases hx0 : x = 0
        · -- the error of `Uint` is dropped, and the byte stays behind
          have huint : s₁.uint 64 = (0, some .canonInt, s₁) := by
            simp [Stream.uint, hagain, hval, hx0]
          rw [huint] at hok
          cases hok
          subst hx0
          exact consumed_oneByte hx hinp hroom ⟨⟨hat, hcached, hsize, hnoerr⟩, hval⟩
        · have huint : s₁.uint 64 = (x.toNat, none, { s₁ with kind := none }) := by
            simp [Stream.uint, hagain, hval, hx0]
          have hbyte : byte x.toNat = x := UInt8.ofNat_toNat
          rw [huint] at hok
          dsimp only at hok
          rw [hbyte] at hok
          cases hok
          refine consumed_oneByte hx hinp hroom ?_
          rw [beq_false_of_ne hx0]
          exact ⟨hat.remember .., rfl⟩
  · next size s₁ hkind =>
    split_ifs at hok with hlong hshort
    · cases hok
    · cases hok
    · obtain rfl : n = size := by omega
      have hfound := (kindOf_ok h htop hkind).found
      cases hfound with
      | header hk hsize hinp hroom hat =>
        split at hok
        · cases hok
        · next b s₂ hread =>
          split_ifs at hok with hcanon
          · cases hok
          · cases hok
            obtain ⟨rest, rfl, rfl, hroom', hready⟩ :=
              readFull_ok hat (Room.advance (n := 0) hroom) hread
            have hbig : ∀ x, b = [x] → ¬ x ≤ 0x7F := by
              rintro x rfl hle
              exact hcanon ⟨rfl, (small_byte_iff x).mp hle⟩
            have hlen : (encodeString b).length = (header .string b.length).length + b.length := by
              rw [encodeString_of_header hbig, List.length_append]
            refine consumed_string hbig hinp ?_ ?_
            · rw [hlen]
              exact hroom'.of_advance
            · rw [hlen, ← advance_advance]
              exact hready
  · cases hok

/-- At top level, an array of more than one byte stays zero when it cannot be decoded: `Kind` has
made sure that all bytes are there before the first one is written. -/
theorem decodeByteArray_error (hn : 1 < n) (h : Ready s inp []) {v : FixedBytes n} {e : Err}
    (herr : decodeByteArray n s = (v, some e, s')) : v = FixedBytes.zero n := by
  unfold decodeByteArray at herr
  split at herr
  · cases herr
    rfl
  · rw [if_neg (by omega), if_pos hn] at herr
    cases herr
    rfl
  · next size s₁ hkind =>
    split_ifs at herr with hlong hshort
    · cases herr
      rfl
    · cases herr
      rfl
    · obtain rfl : n = size := by omega
      have hlooked := kindOf_ok h trivial hkind
      obtain ⟨hat, -, hnil⟩ := hlooked.found.at
      rw [hnil.mpr rfl, ← List.take_append_drop n s₁.input] at hat
      have hlen : (s₁.input.take n).length = n := List.length_take_of_le (hlooked.top rfl)
      obtain ⟨s₂, hread, -⟩ := readFull_at hat trivial
      rw [hlen] at hread
      rw [hread] at herr
      dsimp only at herr
      rw [if_neg fun hone => by omega] at herr
      cases herr
  · cases herr
    rfl

theorem Stale.kindOf (h : Stale s inp st) : s.kindOf = (.byte, 0, none, s) := by
  simp [Stream.kindOf, h.kind, h.size_eq, h.kinderr]

theorem Stale.bytes (h : Stale s inp st) :
    s.bytes = ([0], none, { s with kind := none }) := by
  simp [Stream.bytes, h.kindOf, h.zero]

theorem Stale.uint (h : Stale s inp st) (w : ℕ) : s.uint w = (0, some .canonInt, s) := by
  simp [Stream.uint, h.kindOf, h.zero]

theorem Stale.list (h : Stale s inp st) : s.list = (0, some .expectedList, s) := by
  simp [Stream.list, h.kindOf]

theorem Stale.ready (h : Stale s inp st) : Ready { s with kind := none } inp st :=
  ⟨h.remember .., rfl⟩

theorem Stale.decodeByteArray_one (h : Stale s inp st) :
    decodeByteArray 1 s = (fillArray 1 [0], none, s) := by
  simp only [decodeByteArray, h.kindOf, h.uint]
  rfl

/-- What is decoded from a byte that was left behind. -/
theorem decode_stale : ∀ (t : Ty) {v : t.Val}, Stale s inp st → decode t s = (v, none, s') →
    (∃ b, encode t v = .ok b ∧ 1 ≤ b.length) ∧ Rests (stuck t v) s' inp st
  | .uint _, v, h, hok => by
    simp only [decode, h.uint] at hok
    cases hok
  | .bool, v, h, hok => by
    simp only [decode, Stream.bool, h.uint] at hok
    cases hok
  | .string, v, h, hok => by
    simp only [decode, h.bytes] at hok
    cases hok
    exact ⟨⟨_, rfl, by decide⟩, h.ready⟩
  | .bytes, v, h, hok => by
    simp only [decode, h.bytes] at hok
    cases hok
    exact ⟨⟨_, rfl, by decide⟩, h.ready⟩
  | .byteArray n, v, h, hok => by
    by_cases hn : n = 1
    · subst hn
      simp only [decode, h.decodeByteArray_one] at hok
      cases hok
      exact ⟨⟨_, rfl, by decide⟩, h⟩
    · simp only [decode, decodeByteArray, h.kindOf] at hok
      split_ifs at hok
      · cases hok
      · cases hok
      · omega
  | .bigInt, v, h, hok => by
    simp only [decode, decodeBigInt, h.bytes] at hok
    cases hok
  | .bigIntNoPtr, v, h, hok => by
    simp only [decode, decodeBigInt, h.bytes] at hok
    cases hok
  | .slice _, v, h, hok => by
    simp only [decode, decodeListSlice, h.list] at hok
    cases hok
  | .array _ _, v, h, hok => by
    simp only [decode, decodeListArray, h.list] at hok
    cases hok
  | .struct _, v, h, hok => by
    simp only [decode, h.list] at hok
    cases hok
  | .ptr elem, v, h, hok => by
    simp only [decode] at hok
    split at hok
    · cases hok
    · next x s₁ hx =>
      cases hok
      exact decode_stale elem h hx

/-- A decoder that leaves a byte behind accepts that byte without end. -/
theorem decode_spins : ∀ (t : Ty) {v : t.Val}, stuck t v = true → Stale s inp st →
    Spins (decode t) s
  | .byteArray n, v, hstuck, h => by
    have hbytes : FixedBytes.bytes v = [0] := eq_of_beq hstuck
    have hlen : (FixedBytes.bytes v).length = n := FixedBytes.length_eq v
    obtain rfl : 1 = n := by simpa [hbytes] using hlen
    exact ⟨_, h.decodeByteArray_one⟩
  | .ptr elem, none, hstuck, h => nomatch hstuck
  | .ptr elem, some x, hstuck, h => by
    obtain ⟨y, hy⟩ := decode_spins elem (v := x) hstuck h
    exact ⟨some y, by simp only [decode, hy]⟩
  | .uint _, v, hstuck, h => nomatch hstuck
  | .bool, v, hstuck, h => nomatch hstuck
  | .string, v, hstuck, h => nomatch hstuck
  | .bytes, v, hstuck, h => nomatch hstuck
  | .bigInt, v, hstuck, h => nomatch hstuck
  | .bigIntNoPtr, v, hstuck, h => nomatch hstuck
  | .slice _, v, hstuck, h => nomatch hstuck
  | .array _ _, v, hstuck, h => nomatch hstuck
  | .struct _, v, hstuck, h => nomatch hstuck

/-- The decoder of a slice element leaves no byte behind, or it spins. -/
theorem accepts_decode (hdec : Consumes elem) :
    Accepts (decode elem) (fun x c => Decoded elem x c ∧ stuck elem x = false) := by
  constructor
  · intro s s' inp st x h htop hok
    obtain ⟨c, rest, hinp, hroom, hdecoded, hrests⟩ := hdec.ok h htop hok
    cases hstuck : stuck elem x with
    | true =>
      rw [hstuck] at hrests
      exact .inl (decode_spins elem hstuck hrests)
    | false =>
      rw [hstuck] at hrests
      exact .inr ⟨c, rest, hinp, hroom, ⟨hdecoded, rfl⟩, hrests⟩
  · intro s s' inp st x h _ hok
    exact decode_eol_ok elem h hok

/-- A decoder that follows another one. -/
theorem decode_next (hdec : Consumes t) {v : t.Val} (h : Rests stale s inp st) (htop : Room st 0)
    (hok : decode t s = (v, none, s')) :
    ∃ c rest, inp = c ++ rest ∧ Room st c.length ∧
      Rests (stuck t v) s' rest (advance st c.length) ∧
      ∀ {ps : List Part} {c' : List UInt8}, DecodedSeq ps (stuck t v) c' →
        DecodedSeq (partOf t v :: ps) stale (c ++ c') := by
  cases stale with
  | true =>
    obtain ⟨⟨b, henc, hpos⟩, hrests⟩ := decode_stale t h hok
    exact ⟨[], inp, rfl, htop, by simpa using hrests, decodedSeq_reread henc hpos⟩
  | false =>
    obtain ⟨c, rest, hinp, hroom, hdecoded, hrests⟩ := hdec.ok h htop hok
    exact ⟨c, rest, hinp, hroom, hrests, hdecoded.cons⟩

/-- The element loop of an array. -/
theorem decodeArrayElems_ok (hdec : Consumes elem) {l : {l : List elem.Val // l.length = n}}
    (h : Rests stale s inp st) (htop : Room st 0)
    (hok : decodeArrayElems (decode elem) elem.zero n i s = (l, false, none, s')) :
    ∃ c rest, inp = c ++ rest ∧ DecodedSeq (l.val.map (partOf elem)) stale c ∧
      At s' rest (advance st c.length) := by
  induction n generalizing i stale s inp st with
  | zero =>
    cases hok
    exact ⟨[], inp, rfl, decodedSeq_nil stale, by simpa using h.at⟩
  | succ n ih =>
    rw [decodeArrayElems] at hok
    split at hok
    · cases hok
    · cases hok
    · next x s₁ hx =>
      obtain ⟨c, rest, rfl, hroom, hrests, hcons⟩ := decode_next hdec h htop hx
      split at hok
      next xs short err s₂ hloop =>
      cases hok
      obtain ⟨c', rest', rfl, hseq, hat⟩ := ih hrests (Room.advance (n := 0) hroom) hloop
      refine ⟨c ++ c', rest', (List.append_assoc ..).symm, hcons hseq, ?_⟩
      rw [List.length_append, ← advance_advance]
      exact hat

mutual

/-- A typed decoder that returns a value has consumed the bytes that the value was decoded
from. -/
theorem decode_ok : ∀ (t : Ty), t.Supported → ∀ {s s' : Stream} {inp : List UInt8}
    {st : List ListPos} {v : t.Val}, Ready s inp st → Room st 0 → decode t s = (v, none, s') →
    Consumed t v s' inp st
  | .uint bits, hw, s, s', inp, st, v, h, htop, hok =>
    decode_uint_ok (by rcases hw with h | h | h | h <;> omega) h htop hok
  | .bool, _, s, s', inp, st, v, h, htop, hok => decode_bool_ok h htop hok
  | .string, _, s, s', inp, st, v, h, htop, hok => decode_string_ok h htop hok
  | .bytes, _, s, s', inp, st, v, h, htop, hok => decode_bytes_ok h htop hok
  | .byteArray n, _, s, s', inp, st, v, h, htop, hok => decode_byteArray_ok h htop hok
  | .bigInt, _, s, s', inp, st, v, h, htop, hok => decode_bigInt_ok h htop hok
  | .bigIntNoPtr, _, s, s', inp, st, v, h, htop, hok => decode_bigIntNoPtr_ok h htop hok
  | .slice elem, hw, s, s', inp, st, v, h, htop, hok => by
    obtain ⟨cs, rest, hcs, hinp, hroom, hready⟩ :=
      decodeListSlice_ok (accepts_decode ⟨decode_ok elem hw⟩) h htop hok
    exact ⟨_, rest, hinp, hroom, decoded_slice hcs, hready⟩
  | .array n elem, hw, s, s', inp, st, v, h, htop, hok => by
    simp only [decode, decodeListArray] at hok
    split at hok
    · cases hok
    · next size s₁ hlist =>
      obtain ⟨rest, rfl, hsize, hroom, -, hready⟩ := list_ok h htop hlist
      split at hok
      · cases hok
      · cases hok
      · next l s₂ hloop =>
        obtain ⟨rfl, herr, hs⟩ := wrapped_ok hok
        obtain ⟨c, rest', hinp, hseq, hat⟩ := decodeArrayElems_ok ⟨decode_ok elem hw⟩
          hready.rests ⟨by simp, hsize⟩ hloop
        obtain ⟨hinp, hroom, hready⟩ := listEnd_content hinp hroom hat
          (show s₂.listEnd = (none, s') by rw [← herr, ← hs])
        exact ⟨_, rest', hinp, hroom, hseq.array l.property, hready⟩
  | .struct fields, hw, s, s', inp, st, v, h, htop, hok => by
    simp only [decode] at hok
    split at hok
    · cases hok
    · next size s₁ hlist =>
      obtain ⟨rest, rfl, hsize, hroom, -, hready⟩ := list_ok h htop hlist
      split at hok
      · cases hok
      · next xs s₂ hloop =>
        obtain ⟨rfl, herr, hs⟩ := wrapped_ok hok
        obtain ⟨c, rest', hinp, hseq, hat⟩ := decodeFields_ok fields hw
          hready.rests ⟨by simp, hsize⟩ hloop
        obtain ⟨hinp, hroom, hready⟩ := listEnd_content hinp hroom hat
          (show s₂.listEnd = (none, s') by rw [← herr, ← hs])
        exact ⟨_, rest', hinp, hroom, hseq.struct, hready⟩
  | .ptr elem, hw, s, s', inp, st, v, h, htop, hok => by
    simp only [decode] at hok
    split at hok
    · cases hok
    · next x s₁ hx =>
      cases hok
      obtain ⟨c, rest, hinp, hroom, hdecoded, hrests⟩ := decode_ok elem hw h htop hx
      exact ⟨c, rest, hinp, hroom, ⟨hdecoded.item, hdecoded.enc⟩, hrests⟩

/-- The field loop of a struct. -/
theorem decodeFields_ok : ∀ (fs : Fields), fs.Supported → ∀ {t : Ty} {s s' : Stream}
    {inp : List UInt8} {st : List ListPos} {stale : Bool} {v : fs.Val}, Rests stale s inp st →
    Room st 0 → decodeFields fs t s = (v, none, s') →
    ∃ c rest, inp = c ++ rest ∧ DecodedSeq (fieldParts fs v) stale c ∧
      At s' rest (advance st c.length)
  | .nil, _, t, s, s', inp, st, stale, v, h, htop, hok => by
    cases hok
    exact ⟨[], inp, rfl, decodedSeq_nil stale, by simpa using h.at⟩
  | .cons _ type rest, hw, t, s, s', inp, st, stale, v, h, htop, hok => by
    simp only [decodeFields] at hok
    split at hok
    · cases hok
    · cases hok
    · next x s₁ hx =>
      obtain ⟨c, rest, rfl, hroom, hrests, hcons⟩ := decode_next ⟨decode_ok type hw.1⟩ h htop hx
      rcases hloop : decodeFields _ t s₁ with ⟨xs, err, s₂⟩
      rw [hloop] at hok
      cases hok
      obtain ⟨c', rest', rfl, hseq, hat⟩ := decodeFields_ok _ hw.2 hrests
        (Room.advance (n := 0) hroom) hloop
      refine ⟨c ++ c', rest', (List.append_assoc ..).symm, hcons hseq, ?_⟩
      rw [List.length_append, ← advance_advance]
      exact hat

end

end Hashgrid.Rlp
