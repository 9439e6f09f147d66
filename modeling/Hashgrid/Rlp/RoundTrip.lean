import Hashgrid.Lib.Machine
import Hashgrid.Rlp.SliceLoop

/-!
# Decoding undoes encoding

A decoder that starts at the encoding of a value of its type returns that value and
leaves the stream behind it. Nil pointers are excluded, because they are encoded as
the zero value of their element type, and so is the one-byte array `[0]`, whose
decoder does not move the stream.
-/

namespace Hashgrid.Rlp

open Hashgrid.Bytes Hashgrid.Machine

/-- At the end of a list every decoder reports `EOL` and leaves its variable and the
stream as they are. -/
theorem decode_eol : ∀ (t : Ty) {s : Stream} {inp : List UInt8} {st : List ListPos} {n : ℕ},
    Ready s inp (⟨n, n⟩ :: st) →
      decode t s = (t.zero, some .eol, { s with kinderr := none })
  | .uint _, _, _, _, _, h => by simp only [decode, Stream.uint, kindOf_eol h]; rfl
  | .bool, _, _, _, _, h => by simp only [decode, Stream.bool, Stream.uint, kindOf_eol h]; rfl
  | .string, _, _, _, _, h => by simp only [decode, Stream.bytes, kindOf_eol h]; rfl
  | .bytes, _, _, _, _, h => by simp only [decode, Stream.bytes, kindOf_eol h]; rfl
  | .byteArray _, _, _, _, _, h => by simp only [decode, decodeByteArray, kindOf_eol h]; rfl
  | .bigInt, _, _, _, _, h => by simp only [decode, decodeBigInt, Stream.bytes, kindOf_eol h]; rfl
  | .bigIntNoPtr, _, _, _, _, h => by
    simp only [decode, decodeBigInt, Stream.bytes, kindOf_eol h]; rfl
  | .slice _, _, _, _, _, h => by
    simp only [decode, decodeListSlice, Stream.list, kindOf_eol h]; rfl
  | .array _ _, _, _, _, _, h => by
    simp only [decode, decodeListArray, Stream.list, kindOf_eol h]; rfl
  | .struct _, _, _, _, _, h => by simp only [decode, Stream.list, kindOf_eol h]; rfl
  | .ptr elem, _, _, _, _, h => by simp only [decode, decode_eol elem h]; rfl

/-- The decoder of the type returns the value when it starts at its encoding. -/
def Decodes (t : Ty) (v : t.Val) : Prop :=
  ∀ {b : List UInt8}, encode t v = .ok b → b.length < 2 ^ 64 →
    ∀ {s : Stream} {rest : List UInt8} {st : List ListPos},
      Ready s (b ++ rest) st → Room st b.length →
        ∃ s', decode t s = (v, none, s') ∧ Ready s' rest (advance st b.length)

/-- The decoder of the type returns the value when it starts at its encoding, and may leave the
last byte cached. -/
def DecodesAt (t : Ty) (v : t.Val) : Prop :=
  ∀ {b : List UInt8}, encode t v = .ok b → b.length < 2 ^ 64 →
    ∀ {s : Stream} {rest : List UInt8} {st : List ListPos},
      Ready s (b ++ rest) st → Room st b.length →
        ∃ s', decode t s = (v, none, s') ∧ At s' rest (advance st b.length)

/-- The field loop returns the values when it starts at their encodings. The last field may
leave a byte cached. -/
def DecodesFields (fs : Fields) (v : fs.Val) : Prop :=
  ∀ {b : List UInt8}, encodeFields fs v = .ok b → b.length < 2 ^ 64 → ∀ (t : Ty)
    {s : Stream} {rest : List UInt8} {st : List ListPos},
      Ready s (b ++ rest) st → Room st b.length →
        ∃ s', decodeFields fs t s = (v, none, s') ∧ At s' rest (advance st b.length)

variable {elem t type : Ty} {b rest : List UInt8} {i : ℤ} {α : Type} {n : ℕ} {s : Stream}
  {st : List ListPos} {name : String} {v : t.Val} {enc : α → Except EncErr (List UInt8)}
  {l : List elem.Val} {x : type.Val}

theorem Decodes.decodesAt (h : Decodes t v) : DecodesAt t v := by
  intro b henc hlt s rest st hready hroom
  obtain ⟨s', hdec, hready'⟩ := h henc hlt hready hroom
  exact ⟨s', hdec, hready'.toAt⟩

/-- The encoding of a big integer has at least one byte. -/
theorem encodeBigInt_length_pos (h : encodeBigInt i = .ok b) : 1 ≤ b.length := by
  unfold encodeBigInt at h
  split_ifs at h
  · rw [← Except.ok.inj h]
    decide
  · rw [← Except.ok.inj h]
    exact encodeString_length_pos _

/-- The encoding of a nil pointer has one byte. -/
theorem encodeNil_length : ∀ {t : Ty} {b : List UInt8}, encodeNil t = .ok b → b.length = 1
  | .uint _, _, h => by cases h; rfl
  | .bool, _, h => by cases h; rfl
  | .string, _, h => by cases h; rfl
  | .bytes, _, h => by cases h; rfl
  | .byteArray _, _, h => by cases h; rfl
  | .bigInt, _, h => by cases h; rfl
  | .bigIntNoPtr, _, h => by cases h; rfl
  | .slice _, _, h => by cases h; rfl
  | .array _ _, _, h => by cases h; rfl
  | .struct _, _, h => by cases h; rfl
  | .ptr elem, _, h => encodeNil_length (t := elem) h

/-- No value has an empty encoding. -/
theorem encode_length_pos : ∀ (t : Ty) {v : t.Val} {b : List UInt8},
    encode t v = .ok b → 1 ≤ b.length
  | .uint _, _, _, h => by
    rw [← Except.ok.inj h]
    unfold encodeUint
    split_ifs <;> simp
  | .bool, _, _, h => by rw [← Except.ok.inj h]; simp [encodeBool]
  | .string, _, _, h => by rw [← Except.ok.inj h]; exact encodeString_length_pos _
  | .bytes, _, _, h => by rw [← Except.ok.inj h]; exact encodeString_length_pos _
  | .byteArray _, _, _, h => by rw [← Except.ok.inj h]; exact encodeString_length_pos _
  | .bigInt, none, _, h => by rw [← Except.ok.inj h]; decide
  | .bigInt, some _, _, h => encodeBigInt_length_pos h
  | .bigIntNoPtr, _, _, h => encodeBigInt_length_pos h
  | .slice _, _, _, h => by
    obtain ⟨c, -, rfl⟩ := exists_of_map_eq_ok h
    exact encodeList_length_pos c
  | .array _ _, _, _, h => by
    obtain ⟨c, -, rfl⟩ := exists_of_map_eq_ok h
    exact encodeList_length_pos c
  | .struct _, _, _, h => by
    obtain ⟨c, -, rfl⟩ := exists_of_map_eq_ok h
    exact encodeList_length_pos c
  | .ptr elem, none, _, h => by
    have := encodeNil_length (t := elem) h
    omega
  | .ptr elem, some _, _, h => encode_length_pos elem h

/-- The element encodings in front of a concatenation. -/
theorem encodeElems_cons {x : α} {xs : List α} (h : encodeElems enc (x :: xs) = .ok b) :
    ∃ b₁ b₂, enc x = .ok b₁ ∧ encodeElems enc xs = .ok b₂ ∧ b = b₁ ++ b₂ := by
  simp only [encodeElems, bind, Except.bind] at h
  cases h₁ : enc x with
  | error e => simp [h₁] at h
  | ok b₁ =>
    cases h₂ : encodeElems enc xs with
    | error e => simp [h₁, h₂] at h
    | ok b₂ =>
      simp only [h₁, h₂, pure, Except.pure, Except.ok.injEq] at h
      exact ⟨b₁, b₂, rfl, rfl, h.symm⟩

/-- The concatenated encodings, taken apart. -/
theorem exists_of_encodeElems {l : List α} (h : encodeElems enc l = .ok b) (hn : b.length < n) :
    ∃ bs, List.Forall₂ (fun x c => x ∈ l ∧ enc x = .ok c ∧ c.length < n) l bs ∧
      b = bs.flatten := by
  induction l generalizing b with
  | nil => exact ⟨[], .nil, (Except.ok.inj h).symm⟩
  | cons x l ih =>
    obtain ⟨b₁, b₂, h₁, h₂, rfl⟩ := encodeElems_cons h
    rw [List.length_append] at hn
    obtain ⟨bs, hbs, rfl⟩ := ih h₂ (by omega)
    refine ⟨b₁ :: bs, .cons ⟨List.mem_cons_self, h₁, by omega⟩ ?_, rfl⟩
    exact hbs.imp fun y c hy => ⟨List.mem_cons_of_mem x hy.1, hy.2⟩

theorem stopsAtEnd_decode (t : Ty) : StopsAtEnd (decode t) := fun h => ⟨t.zero, decode_eol t h⟩

/-- Slices. -/
theorem decodes_slice (hl : ∀ x ∈ l, Decodes elem x) : Decodes (.slice elem) l := by
  intro b henc hlt s rest st h hroom
  obtain ⟨c, helems, rfl⟩ := exists_of_map_eq_ok henc
  have hlen : c.length ≤ (encodeList c).length := by simp [encodeList]
  obtain ⟨bs, hbs, rfl⟩ := exists_of_encodeElems helems (by omega : c.length < 2 ^ 64)
  have hreads : List.Forall₂ (ReadsAs (decode elem)) l bs :=
    hbs.imp fun x c hx => ⟨encode_length_pos elem hx.2.1, hl x hx.1 hx.2.1 hx.2.2⟩
  exact (decodeListSlice_reads (stopsAtEnd_decode elem) hreads (by omega) _).reads h hroom

/-- One turn of the element loop of an array. -/
theorem decodeArrayElems_cons {dec : Stream → α × Option Err × Stream} {zero x : α} {i : ℕ}
    {xs : {l : List α // l.length = n}} {short : Bool} {err : Option Err} {s₁ s' : Stream}
    (hx : dec s = (x, none, s₁))
    (hxs : decodeArrayElems dec zero n (i + 1) s₁ = (xs, short, err, s')) :
    decodeArrayElems dec zero (n + 1) i s =
      (⟨x :: xs.val, by simp [xs.property]⟩, short, err, s') := by
  simp only [decodeArrayElems, hx, hxs]

/-- The element loop of an array over the encodings of the elements. Only the last element may
leave a byte cached. -/
theorem decodeArrayElems_encode (hl : ∀ x ∈ l, DecodesAt elem x)
    (hinit : ∀ x ∈ l.dropLast, Decodes elem x) (henc : encodeElems (encode elem) l = .ok b)
    (hlt : b.length < 2 ^ 64) (h : Ready s (b ++ rest) st) (hroom : Room st b.length) (i : ℕ) :
    ∃ s', decodeArrayElems (decode elem) elem.zero l.length i s = (⟨l, rfl⟩, false, none, s') ∧
      At s' rest (advance st b.length) := by
  induction l generalizing b s st i with
  | nil =>
    have hb : b = [] := (Except.ok.inj henc).symm
    subst hb
    exact ⟨s, rfl, by simpa using h.toAt⟩
  | cons x l ih =>
    obtain ⟨b₁, b₂, h₁, h₂, rfl⟩ := encodeElems_cons henc
    rw [List.length_append] at hlt hroom ⊢
    rw [List.append_assoc] at h
    have hroom₁ : Room st b₁.length := hroom.mono (by omega)
    cases l with
    | nil =>
      have hb : b₂ = [] := (Except.ok.inj h₂).symm
      subst hb
      obtain ⟨s', hdec, hat⟩ := hl x List.mem_cons_self h₁ (by omega) h hroom₁
      exact ⟨s', decodeArrayElems_cons hdec rfl, hat⟩
    | cons y l =>
      obtain ⟨s₁, hdec, hready⟩ := hinit x List.mem_cons_self h₁ (by omega) h hroom₁
      obtain ⟨s', hloop, hat⟩ := ih (fun z hz => hl z (List.mem_cons_of_mem x hz))
        (fun z hz => hinit z (List.mem_cons_of_mem x hz)) h₂ (by omega) hready hroom.advance (i + 1)
      exact ⟨s', decodeArrayElems_cons hdec hloop, by simpa using hat⟩

/-- Arrays. -/
theorem decodes_array (hn : l.length = n) (hl : ∀ x ∈ l, DecodesAt elem x)
    (hinit : ∀ x ∈ l.dropLast, Decodes elem x) : Decodes (.array n elem) ⟨l, hn⟩ := by
  subst hn
  intro b henc hlt s rest st h hroom
  obtain ⟨c, helems, rfl⟩ := exists_of_map_eq_ok henc
  have hlen : (encodeList c).length = (header .list c.length).length + c.length :=
    List.length_append
  obtain ⟨s₁, hlist, hready⟩ := list_encodeList (by omega) h hroom
  obtain ⟨s₂, hloop, hat⟩ := decodeArrayElems_encode hl hinit helems (by omega) hready
    (show 0 + c.length ≤ c.length ∧ c.length < 2 ^ 64 from ⟨by omega, by omega⟩) 0
  rw [hlen] at hroom ⊢
  obtain ⟨s', hs', hready'⟩ := listEnd_at (by simpa [advance] using hat) hroom.advance
  refine ⟨s', ?_, by simpa using hready'⟩
  simp only [decode, decodeListArray, hlist, hloop, hs']
  rfl

/-- Structs. -/
theorem decodes_struct {fs : Fields} {v : fs.Val} (hv : DecodesFields fs v) :
    Decodes (.struct fs) v := by
  intro b henc hlt s rest st h hroom
  obtain ⟨c, hfields, rfl⟩ := exists_of_map_eq_ok henc
  have hlen : (encodeList c).length = (header .list c.length).length + c.length :=
    List.length_append
  obtain ⟨s₁, hlist, hready⟩ := list_encodeList (by omega) h hroom
  obtain ⟨s₂, hloop, hat⟩ := hv hfields (by omega) (.struct fs) hready
    (show 0 + c.length ≤ c.length ∧ c.length < 2 ^ 64 from ⟨by omega, by omega⟩)
  rw [hlen] at hroom ⊢
  obtain ⟨s', hs', hready'⟩ := listEnd_at (by simpa [advance] using hat) hroom.advance
  refine ⟨s', ?_, by simpa using hready'⟩
  simp only [decode, hlist, hloop, hs']
  rfl

/-- The encodings of a field and of those after it. -/
theorem encodeFields_cons {rest : Fields} {xs : rest.Val}
    (h : encodeFields (.cons name type rest) (x, xs) = .ok b) :
    ∃ b₁ b₂, encode type x = .ok b₁ ∧ encodeFields rest xs = .ok b₂ ∧ b = b₁ ++ b₂ := by
  simp only [encodeFields, bind, Except.bind] at h
  cases h₁ : encode type x with
  | error e => simp [h₁] at h
  | ok b₁ =>
    cases h₂ : encodeFields rest xs with
    | error e => simp [h₁, h₂] at h
    | ok b₂ =>
      simp only [h₁, h₂, pure, Except.pure, Except.ok.injEq] at h
      exact ⟨b₁, b₂, rfl, rfl, h.symm⟩

theorem decodesFields_nil : DecodesFields .nil () := by
  intro b henc _ _ s _ _ h _
  cases henc
  exact ⟨s, rfl, by simpa using h.toAt⟩

/-- A field in front of others. -/
theorem decodesFields_cons {rest : Fields} {xs : rest.Val} (hx : Decodes type x)
    (hxs : DecodesFields rest xs) : DecodesFields (.cons name type rest) (x, xs) := by
  intro b henc hlt t s tail st h hroom
  obtain ⟨b₁, b₂, h₁, h₂, rfl⟩ := encodeFields_cons henc
  rw [List.length_append] at hlt hroom ⊢
  rw [List.append_assoc] at h
  obtain ⟨s₁, hdec, hready⟩ := hx h₁ (by omega) h (hroom.mono (by omega))
  obtain ⟨s', hloop, hat⟩ := hxs h₂ (by omega) t hready hroom.advance
  exact ⟨s', by simp [decodeFields, hdec, hloop], by simpa using hat⟩

/-- The last field. -/
theorem decodesFields_last (hx : DecodesAt type x) :
    DecodesFields (.cons name type .nil) (x, ()) := by
  intro b henc hlt t s tail st h hroom
  obtain ⟨b₁, b₂, h₁, h₂, rfl⟩ := encodeFields_cons henc
  cases h₂
  rw [List.append_nil] at h hlt hroom ⊢
  obtain ⟨s', hdec, hat⟩ := hx h₁ hlt h hroom
  exact ⟨s', by simp [decodeFields, hdec], hat⟩

/-- Unsigned integers. -/
theorem decodes_uint {bits : ℕ} (hdvd : 8 ∣ bits) (hbits : 8 ≤ bits ∧ bits ≤ 64)
    (v : BitVec bits) : Decodes (.uint bits) v := by
  intro b henc _ s rest st h hroom
  cases henc
  obtain ⟨s', huint, hready⟩ := uint_encodeUint hdvd hbits v.isLt h hroom
  refine ⟨s', ?_, hready⟩
  simp only [decode, huint, BitVec.ofNat_toNat, BitVec.setWidth_eq]

theorem encodeBool_eq (b : Bool) : encodeBool b = encodeUint b.toNat := by
  cases b <;> rfl

/-- Booleans. -/
theorem decodes_bool (v : Bool) : Decodes .bool v := by
  intro b henc _ s rest st h hroom
  cases henc
  rw [encodeBool_eq] at h hroom ⊢
  obtain ⟨s', huint, hready⟩ := uint_encodeUint (w := 8) (by decide) (by decide)
    (by cases v <;> decide) h hroom
  refine ⟨s', ?_, hready⟩
  cases v with
  | false => simp only [decode, Stream.bool, huint, Bool.toNat_false]; rfl
  | true => simp only [decode, Stream.bool, huint, Bool.toNat_true]; rfl

/-- Strings. -/
theorem decodes_string (v : List UInt8) : Decodes .string v := by
  intro b henc hlt s rest st h hroom
  cases henc
  have hle := length_le_encodeString v
  obtain ⟨s', hbytes, hready⟩ := bytes_encodeString (by omega) h hroom
  exact ⟨s', by simp only [decode, hbytes]; rfl, hready⟩

/-- Byte slices. -/
theorem decodes_bytes (v : List UInt8) : Decodes .bytes v := by
  intro b henc hlt s rest st h hroom
  cases henc
  have hle := length_le_encodeString v
  obtain ⟨s', hbytes, hready⟩ := bytes_encodeString (by omega) h hroom
  exact ⟨s', by simp only [decode, hbytes]; rfl, hready⟩

theorem fillArray_bytes (v : FixedBytes n) : fillArray n v.bytes = v := by
  apply FixedBytes.ext_bytes
  simp [fillArray, ← v.length_eq]

/-- Byte arrays. -/
theorem decodes_byteArray {v : FixedBytes n} (hv : v.bytes ≠ [0]) : Decodes (.byteArray n) v := by
  intro b henc hlt s rest st h hroom
  cases henc
  have hle := length_le_encodeString v.bytes
  by_cases hsingle : ∃ x, v.bytes = [x] ∧ x ≤ 0x7F
  · obtain ⟨x, hx, hx7⟩ := hsingle
    have hn : n = 1 := by rw [← v.length_eq, hx]; rfl
    subst hn
    have henc : encodeString v.bytes = [x] := by simp [encodeString, hx, hx7]
    rw [henc] at h hroom ⊢
    have hne : x ≠ 0 := fun h0 => hv (by rw [hx, h0])
    obtain ⟨s', hkind, hholds, hbv⟩ := kindOf_byte ((small_byte_iff x).mp hx7) h hroom
    refine ⟨{ s' with kind := none }, ?_, ⟨⟨hholds.limited, hholds.input, hholds.remaining,
      hholds.stack⟩, rfl⟩⟩
    have hagain : s'.kindOf = (.byte, 0, none, s') := by
      simp [Stream.kindOf, hholds.kind, hholds.size_eq, hholds.kinderr]
    have hfill : fillArray 1 [byte x.toNat] = v := by
      rw [show byte x.toNat = x from UInt8.ofNat_toNat, ← hx, fillArray_bytes]
    simp [decode, decodeByteArray, hkind, Stream.uint, hagain, hbv, hne, hfill]
    rfl
  · have hbig : ∀ x, v.bytes = [x] → ¬ x ≤ 0x7F := fun x hc hle => hsingle ⟨x, hc, hle⟩
    have henc := encodeString_of_header hbig
    rw [henc, List.append_assoc] at h
    rw [henc, List.length_append] at hroom ⊢
    obtain ⟨s₁, hkind, hholds⟩ := kindOf_header (by decide) (by omega) h hroom
    obtain ⟨s', hread, hready⟩ := readFull_at hholds.toAt hroom.advance
    refine ⟨s', ?_, by simpa using hready⟩
    have hcanon := not_small_of_header hbig
    rw [v.length_eq] at hkind hread hcanon
    simp only [decode, decodeByteArray, hkind, lt_irrefl, if_false, hread, if_neg hcanon,
      fillArray_bytes]
    rfl

/-- `decodeBigInt` returns an encoded big integer. -/
theorem decodeBigInt_encode (henc : encodeBigInt i = .ok b) (hlt : b.length < 2 ^ 64)
    (h : Ready s (b ++ rest) st) (hroom : Room st b.length) :
    ∃ s', decodeBigInt s = (some i, none, s') ∧ Ready s' rest (advance st b.length) := by
  obtain ⟨hnonneg, rfl⟩ : 0 ≤ i ∧ encodeString (natBytes i.toNat) = b := by
    unfold encodeBigInt at henc
    split_ifs at henc with hneg hzero
    · subst hzero
      exact ⟨le_refl _, Except.ok.inj henc⟩
    · exact ⟨by omega, Except.ok.inj henc⟩
  have hle := length_le_encodeString (natBytes i.toNat)
  obtain ⟨s', hbytes, hready⟩ := bytes_encodeString (by omega) h hroom
  refine ⟨s', ?_, hready⟩
  simp only [decodeBigInt, hbytes, if_neg (natBytes_head?_ne_zero _), bytesNat_natBytes,
    Int.toNat_of_nonneg hnonneg]

theorem decodes_bigInt (i : ℤ) : Decodes .bigInt (some i) := by
  intro b henc hlt s rest st h hroom
  exact decodeBigInt_encode henc hlt h hroom

theorem decodes_bigIntNoPtr (i : ℤ) : Decodes .bigIntNoPtr i := by
  intro b henc hlt s rest st h hroom
  obtain ⟨s', hdec, hready⟩ := decodeBigInt_encode henc hlt h hroom
  exact ⟨s', by simp only [decode, hdec, Option.getD_some], hready⟩

theorem decodes_ptr {x : elem.Val} (hx : Decodes elem x) : Decodes (.ptr elem) (some x) := by
  intro b henc hlt s rest st h hroom
  obtain ⟨s', hdec, hready⟩ := hx henc hlt h hroom
  exact ⟨s', by simp only [decode, hdec], hready⟩

mutual

/-- The values that survive encoding and decoding. -/
def Regular : (t : Ty) → t.Val → Prop
  | .uint bits, _ => 8 ∣ bits ∧ 8 ≤ bits ∧ bits ≤ 64
  | .bool, _ => True
  | .string, _ => True
  | .bytes, _ => True
  | .byteArray _, v => FixedBytes.bytes v ≠ [0]
  | .bigInt, v => v ≠ none
  | .bigIntNoPtr, _ => True
  | .slice elem, v => ∀ x ∈ (show List elem.Val from v), Regular elem x
  | .array _ elem, v => ∀ x ∈ v.val, Regular elem x
  | .struct fields, v => RegularFields fields v
  | .ptr elem, v => Option.elim v False (Regular elem)

/-- All fields survive encoding and decoding. -/
def RegularFields : (fs : Fields) → fs.Val → Prop
  | .nil, _ => True
  | .cons _ type rest, v => Regular type v.1 ∧ RegularFields rest v.2

end

mutual

/-- Decoding undoes encoding. -/
theorem Regular.decodes : ∀ (t : Ty) {v : t.Val}, Regular t v → Decodes t v
  | .uint _, v, h => decodes_uint h.1 h.2 v
  | .bool, v, _ => decodes_bool v
  | .string, v, _ => decodes_string v
  | .bytes, v, _ => decodes_bytes v
  | .byteArray _, _, h => decodes_byteArray h
  | .bigInt, none, h => absurd rfl h
  | .bigInt, some i, _ => decodes_bigInt i
  | .bigIntNoPtr, v, _ => decodes_bigIntNoPtr v
  | .slice elem, _, h => decodes_slice fun x hx => Regular.decodes elem (h x hx)
  | .array _ elem, ⟨_, hn⟩, h =>
    decodes_array hn (fun x hx => Decodes.decodesAt (Regular.decodes elem (h x hx)))
      fun x hx => Regular.decodes elem (h x (List.mem_of_mem_dropLast hx))
  | .struct fields, _, h => decodes_struct (RegularFields.decodes fields h)
  | .ptr _, none, h => h.elim
  | .ptr elem, some _, h => decodes_ptr (Regular.decodes elem h)

/-- Decoding a field sequence undoes encoding it. -/
theorem RegularFields.decodes : ∀ (fs : Fields) {v : fs.Val}, RegularFields fs v →
    DecodesFields fs v
  | .nil, (), _ => decodesFields_nil
  | .cons _ type rest, (_, _), h =>
    decodesFields_cons (Regular.decodes type h.1) (RegularFields.decodes rest h.2)

end

/-- `DecodeBytes` undoes `EncodeToBytes`. -/
theorem decodeBytes_encodeToBytes (hv : Regular t v) (henc : encodeToBytes t v = .ok b) :
    decodeBytes t b = (v, none) := by
  obtain ⟨henc, hlt⟩ := encodeToBytes_eq_ok.mp henc
  have hready : Ready (newStream b b.length) (b ++ []) [] := by simpa using ready_newStream b
  obtain ⟨s', hdec, hready'⟩ := hv.decodes t henc (by omega) hready trivial
  have hinput : s'.input = [] := hready'.input
  simp [decodeBytes, hdec, hinput]

end Hashgrid.Rlp
