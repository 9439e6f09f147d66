import Hashgrid.Rlp.TypedDecode

/-!
# The values and inputs that survive typed coding

Decoding undoes encoding for the values in which no byte is read twice, and encoding undoes
decoding for the inputs that have one item for each entry of a struct or array. For all
other values and inputs it does not.
-/

namespace Hashgrid.Rlp

open Hashgrid.Bytes Hashgrid.Machine

mutual

/-- No pointer in the value is nil and no big integer is negative. -/
def Proper : (t : Ty) → t.Val → Prop
  | .bigInt, v => Option.elim (show Option ℤ from v) False (0 ≤ ·)
  | .bigIntNoPtr, v => 0 ≤ (show ℤ from v)
  | .slice elem, v => ∀ x ∈ (show List elem.Val from v), Proper elem x
  | .array _ elem, v => ∀ x ∈ v.val, Proper elem x
  | .struct fields, v => ProperFields fields v
  | .ptr elem, v => Option.elim v False (Proper elem)
  | _, _ => True

/-- No pointer in the fields is nil and no big integer is negative. -/
def ProperFields : (fs : Fields) → fs.Val → Prop
  | .nil, _ => True
  | .cons _ type rest, v => Proper type v.1 ∧ ProperFields rest v.2

end

theorem exists_encodeBigInt {i : ℤ} (h : 0 ≤ i) : ∃ b, encodeBigInt i = .ok b := by
  unfold encodeBigInt
  rw [if_neg (by omega)]
  split_ifs <;> exact ⟨_, rfl⟩

variable {α : Type} {n : ℕ} {elem t : Ty} {b : List UInt8}

/-- Elements that are encoded one by one are encoded together. -/
theorem exists_encodeElems {enc : α → Except EncErr (List UInt8)} {l : List α}
    (h : ∀ x ∈ l, ∃ b, enc x = .ok b) : ∃ b, encodeElems enc l = .ok b := by
  induction l with
  | nil => exact ⟨[], rfl⟩
  | cons x l ih =>
    obtain ⟨b₁, h₁⟩ := h x List.mem_cons_self
    obtain ⟨b₂, h₂⟩ := ih fun y hy => h y (List.mem_cons_of_mem x hy)
    exact ⟨b₁ ++ b₂, encodeElems_cons_ok h₁ h₂⟩

theorem exists_encodeList {enc : Except EncErr (List UInt8)} (h : ∃ b, enc = .ok b) :
    ∃ b, enc.map encodeList = .ok b := by
  obtain ⟨b, hb⟩ := h
  exact ⟨encodeList b, by rw [hb]; rfl⟩

mutual

/-- A proper value is encoded. -/
theorem Proper.exists_encode : ∀ (t : Ty) {v : t.Val}, Proper t v → ∃ b, encode t v = .ok b
  | .uint _, _, _ => ⟨_, rfl⟩
  | .bool, _, _ => ⟨_, rfl⟩
  | .string, _, _ => ⟨_, rfl⟩
  | .bytes, _, _ => ⟨_, rfl⟩
  | .byteArray _, _, _ => ⟨_, rfl⟩
  | .bigInt, none, h => h.elim
  | .bigInt, some _, h => exists_encodeBigInt h
  | .bigIntNoPtr, _, h => exists_encodeBigInt h
  | .slice elem, _, h =>
    exists_encodeList (exists_encodeElems fun x hx => Proper.exists_encode elem (h x hx))
  | .array _ elem, _, h =>
    exists_encodeList (exists_encodeElems fun x hx => Proper.exists_encode elem (h x hx))
  | .struct fields, _, h => exists_encodeList (ProperFields.exists_encode fields h)
  | .ptr _, none, h => h.elim
  | .ptr elem, some _, h => Proper.exists_encode elem h

/-- Proper fields are encoded. -/
theorem ProperFields.exists_encode : ∀ (fs : Fields) {v : fs.Val}, ProperFields fs v →
    ∃ b, encodeFields fs v = .ok b
  | .nil, _, _ => ⟨_, rfl⟩
  | .cons _ type rest, _, h => by
    obtain ⟨b₁, h₁⟩ := Proper.exists_encode type h.1
    obtain ⟨b₂, h₂⟩ := ProperFields.exists_encode rest h.2
    exact ⟨b₁ ++ b₂, by rw [encodeFields, h₁, h₂]; rfl⟩

end

/-- Elements in order: each is free of bytes that are read twice, and only the last one may
leave a byte behind. -/
theorem orderly_map {clean stuck : α → Bool} {l : List α}
    (h : orderly false (l.map fun x => (clean x, stuck x)) = true) :
    (∀ x ∈ l, clean x = true) ∧ ∀ x ∈ l.dropLast, stuck x = false := by
  induction l with
  | nil => exact ⟨fun x hx => (nomatch hx), fun x hx => (nomatch hx)⟩
  | cons x l ih =>
    obtain ⟨hx, hl⟩ : clean x = true ∧ orderly (stuck x) (l.map fun y => (clean y, stuck y)) =
        true := by simpa [orderly] using h
    cases l with
    | nil => exact ⟨by simpa using hx, fun y hy => (nomatch hy)⟩
    | cons y l =>
      cases hstuck : stuck x with
      | true =>
        rw [hstuck] at hl
        exact nomatch hl
      | false =>
        rw [hstuck] at hl
        obtain ⟨hclean, hinit⟩ := ih hl
        refine ⟨fun z hz => ?_, fun z hz => ?_⟩
        · rcases List.mem_cons.mp hz with rfl | hz
          · exact hx
          · exact hclean z hz
        · rcases List.mem_cons.mp hz with rfl | hz
          · exact hstuck
          · exact hinit z hz

/-- A one-byte array that holds zero is returned, and its byte is left behind. -/
theorem decodesAt_zero {v : FixedBytes n} (hv : v.bytes = [0]) : DecodesAt (.byteArray n) v := by
  intro b henc _ s rest st h hroom
  obtain rfl : 1 = n := by simpa [hv] using v.length_eq
  have hb : encodeString v.bytes = b := Except.ok.inj henc
  obtain rfl : [0] = b := by rw [← hb, hv]; rfl
  obtain ⟨s', hkind, hholds, hbv⟩ := kindOf_byte (by decide) h hroom
  have hstale : Stale s' rest (advance st 1) := ⟨hholds, hbv⟩
  have hfill : fillArray 1 [byte 0] = v := FixedBytes.ext_bytes (by rw [hv]; rfl)
  refine ⟨s', ?_, hholds.toAt⟩
  simp only [decode, decodeByteArray, hkind, hstale.uint, hfill]
  rfl

/-- A value that is returned from its encoding. Nothing is left behind unless the value is a
one-byte array that holds zero. -/
structure Survives (t : Ty) (v : t.Val) : Prop where
  /-- The value is returned. -/
  decodesAt : DecodesAt t v
  /-- Nothing is left behind. -/
  decodes : stuck t v = false → Decodes t v

variable {v : t.Val} {l : List elem.Val}

theorem Decodes.survives (h : Decodes t v) : Survives t v :=
  ⟨Decodes.decodesAt h, fun _ => h⟩

/-- Byte arrays. -/
theorem survives_byteArray (v : FixedBytes n) : Survives (.byteArray n) v := by
  by_cases hv : v.bytes = [0]
  · refine ⟨decodesAt_zero hv, fun hstuck => ?_⟩
    exact absurd hv (ne_of_beq_false hstuck)
  · exact Decodes.survives (decodes_byteArray hv)

/-- Slices. -/
theorem survives_slice (hclean : clean (.slice elem) l = true)
    (hl : ∀ x ∈ l, clean elem x = true → Survives elem x) : Survives (.slice elem) l := by
  refine Decodes.survives (decodes_slice fun x hx => ?_)
  have hxc : (clean elem x && !stuck elem x) = true := List.all_eq_true.mp hclean x hx
  rw [Bool.and_eq_true, Bool.not_eq_true'] at hxc
  intro b henc
  exact (hl x hx hxc.1).decodes hxc.2 henc

/-- Arrays. -/
theorem survives_array (hn : l.length = n) (hclean : clean (.array n elem) ⟨l, hn⟩ = true)
    (hl : ∀ x ∈ l, clean elem x = true → Survives elem x) : Survives (.array n elem) ⟨l, hn⟩ := by
  obtain ⟨hall, hinit⟩ := orderly_map (show orderly false
    (l.map fun x => (clean elem x, stuck elem x)) = true from hclean)
  refine Decodes.survives (decodes_array hn (fun x hx => (hl x hx (hall x hx)).decodesAt)
    fun x hx => ?_)
  have hmem := List.mem_of_mem_dropLast hx
  intro b henc
  exact (hl x hmem (hall x hmem)).decodes (hinit x hx) henc

/-- Pointers. -/
theorem survives_ptr {x : elem.Val} (h : Survives elem x) : Survives (.ptr elem) (some x) := by
  refine ⟨?_, fun hstuck => decodes_ptr (h.decodes hstuck)⟩
  intro b henc hlt s rest st hs hroom
  obtain ⟨s', hdec, hat⟩ := h.decodesAt henc hlt hs hroom
  exact ⟨s', by simp only [decode, hdec], hat⟩

/-- Field sequences: only the last field may leave a byte behind. -/
theorem survives_fields {name : String} {type : Ty} {rest : Fields} {x : type.Val} {xs : rest.Val}
    (hclean : orderly false (cleanFields (.cons name type rest) (x, xs)) = true)
    (hx : clean type x = true → Survives type x)
    (hxs : orderly false (cleanFields rest xs) = true → DecodesFields rest xs) :
    DecodesFields (.cons name type rest) (x, xs) := by
  obtain ⟨hxc, hrest⟩ : clean type x = true ∧
      orderly (stuck type x) (cleanFields rest xs) = true := by
    simpa [cleanFields, orderly] using hclean
  cases hstuck : stuck type x with
  | true =>
    rw [hstuck] at hrest
    cases rest with
    | nil => exact decodesFields_last (hx hxc).decodesAt
    | cons name' type' rest => cases hrest
  | false =>
    rw [hstuck] at hrest
    exact decodesFields_cons ((hx hxc).decodes hstuck) (hxs hrest)

mutual

/-- A clean value is returned from its encoding. -/
theorem Proper.survives : ∀ (t : Ty) {v : t.Val}, t.Supported → Proper t v → clean t v = true →
    Survives t v
  | .uint bits, v, hw, _, _ => by
    refine Decodes.survives (decodes_uint ?_ ?_ v)
    · rcases hw with h | h | h | h <;> omega
    · rcases hw with h | h | h | h <;> omega
  | .bool, v, _, _, _ => Decodes.survives (decodes_bool v)
  | .string, v, _, _, _ => Decodes.survives (decodes_string v)
  | .bytes, v, _, _, _ => Decodes.survives (decodes_bytes v)
  | .byteArray _, v, _, _, _ => survives_byteArray v
  | .bigInt, none, _, h, _ => h.elim
  | .bigInt, some i, _, _, _ => Decodes.survives (decodes_bigInt i)
  | .bigIntNoPtr, v, _, _, _ => Decodes.survives (decodes_bigIntNoPtr v)
  | .slice elem, _, hw, h, hclean =>
    survives_slice hclean fun x hx => Proper.survives elem hw (h x hx)
  | .array _ elem, ⟨_, hn⟩, hw, h, hclean =>
    survives_array hn hclean fun x hx => Proper.survives elem hw (h x hx)
  | .struct fields, _, hw, h, hclean =>
    Decodes.survives (decodes_struct (ProperFields.decodes fields hw h hclean))
  | .ptr _, none, _, h, _ => h.elim
  | .ptr elem, some _, hw, h, hclean => survives_ptr (Proper.survives elem hw h hclean)

/-- Clean fields are returned from their encodings. -/
theorem ProperFields.decodes : ∀ (fs : Fields) {v : fs.Val}, fs.Supported → ProperFields fs v →
    orderly false (cleanFields fs v) = true → DecodesFields fs v
  | .nil, (), _, _, _ => decodesFields_nil
  | .cons _ type rest, (_, _), hw, h, hclean =>
    survives_fields hclean (Proper.survives type hw.1 h.1) (ProperFields.decodes rest hw.2 h.2)

end

/-- The whole input of a successful `DecodeBytes` is what the value was decoded from. -/
theorem decoded_of_decodeBytes (hw : t.Supported) (h : decodeBytes t b = (v, none)) :
    Decoded t v b := by
  unfold decodeBytes at h
  split at h
  · cases h
  · next x s hdec =>
    obtain ⟨rfl, hinput⟩ := Prod.mk.inj h
    obtain ⟨c, rest, rfl, -, hdecoded, hrests⟩ := decode_ok t hw (ready_newStream b) trivial hdec
    have hempty : rest = [] := by
      by_contra hne
      have hpos : s.input.length > 0 := by
        rw [hrests.at.input]
        exact List.length_pos_iff.mpr hne
      rw [if_pos hpos] at hinput
      cases hinput
    rw [hempty, List.append_nil]
    exact hdecoded

/-- A clean value is decoded from its encoding. -/
theorem decodeBytes_of_clean (hw : t.Supported) (hv : Proper t v) (hclean : clean t v = true)
    (henc : encodeToBytes t v = .ok b) : decodeBytes t b = (v, none) := by
  obtain ⟨henc, hlt⟩ := encodeToBytes_eq_ok.mp henc
  have hready : Ready (newStream b b.length) (b ++ []) [] := by simpa using ready_newStream b
  obtain ⟨s', hdec, hat⟩ := (hv.survives t hw hclean).decodesAt henc (by omega) hready trivial
  have hinput : s'.input = [] := hat.input
  simp [decodeBytes, hdec, hinput]

/-- A value that is decoded from its encoding is clean. -/
theorem Decoded.clean_of_encode (h : Decoded t v b) (henc : encode t v = .ok b) :
    clean t v = true := by
  obtain ⟨b', henc', -, hlonger⟩ := h.enc
  obtain rfl : b = b' := Except.ok.inj (henc.symm.trans henc')
  by_contra hclean
  exact lt_irrefl _ (hlonger (Bool.eq_false_of_not_eq_true hclean))

/-- A proper value whose encoding fits in a slice is decoded from it exactly when no byte of it
is read twice. -/
theorem decodeBytes_encode_iff_clean {t : Ty} (hw : t.Supported) {v : t.Val} (hv : Proper t v) :
    ∃ b, encode t v = .ok b ∧ (b.length < 2 ^ 63 →
      encodeToBytes t v = .ok b ∧ (decodeBytes t b = (v, none) ↔ clean t v = true)) := by
  obtain ⟨b, henc⟩ := hv.exists_encode t
  refine ⟨b, henc, fun hlt => ?_⟩
  have hbytes := encodeToBytes_eq_ok.mpr ⟨henc, hlt⟩
  exact ⟨hbytes, fun hdec => (decoded_of_decodeBytes hw hdec).clean_of_encode henc,
    fun hclean => decodeBytes_of_clean hw hv hclean hbytes⟩

/-- The Go type `struct{ A, B [1]byte }`. -/
def bytePairTy : Ty :=
  .struct (.cons "A" (.byteArray 1) (.cons "B" (.byteArray 1) .nil))

/-- A value of two one-byte arrays. -/
def bytePair (a b : UInt8) : bytePairTy.Val := (⟨[a], rfl⟩, ⟨[b], rfl⟩, ())

/-- The value `{[7], [0]}` is clean. -/
theorem decodeBytes_encode_lastZero :
    ∃ b, encode bytePairTy (bytePair 7 0) = .ok b ∧ (b.length < 2 ^ 63 →
      encodeToBytes bytePairTy (bytePair 7 0) = .ok b ∧
        (decodeBytes bytePairTy b = (bytePair 7 0, none) ↔
          clean bytePairTy (bytePair 7 0) = true)) :=
  decodeBytes_encode_iff_clean (t := bytePairTy) ⟨trivial, trivial, trivial⟩
    ⟨trivial, trivial, trivial⟩

/-- The value `{[0], [7]}` is encoded, and its encoding is rejected. -/
theorem firstZero_rejected :
    encodeToBytes bytePairTy (bytePair 0 7) = .ok [0xC2, 0, 7] ∧
      (decodeBytes bytePairTy [0xC2, 0, 7]).2 ≠ none := by
  refine ⟨rfl, ?_⟩
  intro h
  nomatch h

/-- The item trees of two equal encodings are equal. -/
theorem Item.encode_injective_of_lt {x y : Item} (hx : x.encode.length < 2 ^ 64)
    (h : x.encode = y.encode) : x = y := by
  have hdec := decodeInterfaceBytes_encode hx
  rw [h, decodeInterfaceBytes_encode (h ▸ hx)] at hdec
  simpa using hdec.symm

/-- An accepted input is the encoding of the decoded value exactly when it has one item for each
entry of a struct or array. -/
theorem encodeToBytes_decoded_iff_shaped {t : Ty} (hw : t.Supported) {b : SliceBytes} {v : t.Val}
    (hdec : decodeBytes t b.val = (v, none)) :
    encodeToBytes t v = .ok b.val ↔ ∃ x : Item, x.encode = b.val ∧ shaped t x = true := by
  have hdecoded := decoded_of_decodeBytes hw hdec
  obtain ⟨x, hx, hshaped⟩ := hdecoded.item
  obtain ⟨b', henc, hclean, -⟩ := hdecoded.enc
  have hlt : b.val.length < 2 ^ 64 := b.property.trans (by decide)
  rw [encodeToBytes_eq_ok]
  constructor
  · rintro ⟨hok, -⟩
    exact ⟨x, hx, hshaped.trans (hdecoded.clean_of_encode hok)⟩
  · rintro ⟨y, hy, hyshaped⟩
    obtain rfl : x = y := Item.encode_injective_of_lt (hx ▸ hlt) (hx.trans hy.symm)
    exact ⟨henc.trans (congrArg Except.ok (hclean (hshaped ▸ hyshaped))), b.property⟩

/-- Two items for the two fields. -/
theorem encodeToBytes_decoded_twoItems :
    encodeToBytes bytePairTy (bytePair 7 0) = .ok [0xC2, 7, 0] ↔
      ∃ x : Item, x.encode = [0xC2, 7, 0] ∧ shaped bytePairTy x = true :=
  encodeToBytes_decoded_iff_shaped (t := bytePairTy) (b := ⟨[0xC2, 7, 0], by decide⟩)
    ⟨trivial, trivial, trivial⟩ rfl

/-- A list of one zero byte is accepted for the two fields, and the value has another encoding. -/
theorem oneItem_accepted :
    decodeBytes bytePairTy [0xC1, 0] = (bytePair 0 0, none) ∧
      encodeToBytes bytePairTy (bytePair 0 0) ≠ .ok [0xC1, 0] := by
  refine ⟨rfl, ?_⟩
  intro h
  nomatch h

end Hashgrid.Rlp
