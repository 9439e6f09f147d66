import Hashgrid.Rlp.AnyValue
import Hashgrid.Rlp.Split

/-!
# Counting values in a slice

`CountValues` of `rlp/raw.go` goes from header to header without looking at what is inside. It
counts the values of a slice that is a sequence of values, and reports an error for any other
slice. The content of a list is such a sequence, whatever the writers put into the list.
-/

namespace Hashgrid.Rlp

open Hashgrid.Bytes

/-- The loop of `CountValues`. Every value takes at least one byte, so a turn for every byte is
enough. -/
def countLoop : ℕ → ℕ → List UInt8 → ℕ × Option Err
  | 0, i, b => if b.length > 0 then (0, some .diverges) else (i, none)
  | turns + 1, i, b =>
    if b.length > 0 then
      match sliceKind b with
      | .error err => (0, some err)
      | .ok (_, tagsize, size) => countLoop turns (i + 1) (b.drop (tagsize + size))
    else (i, none)

/-- `CountValues`. -/
def countValues (b : List UInt8) : ℕ × Option Err := countLoop b.length 0 b

/-- `Split` takes all of a slice. -/
def SplitsWhole (v : List UInt8) : Prop := ∃ k c, split v = (k, c, [], none)

/-- A slice is a sequence of values, as many as the number says. -/
def SequenceOf (b : List UInt8) (n : ℕ) : Prop :=
  ∃ vs : List (List UInt8), vs.length = n ∧ vs.flatten = b ∧ ∀ v ∈ vs, v ≠ [] ∧ SplitsWhole v

variable {b c : List UInt8} {k : Kind} {turns : ℕ}

/-- A value has at least one byte. -/
theorem Fronts.ne_nil {v : List UInt8} (h : Fronts k c v) : v ≠ [] := by
  cases h with
  | byte _ => exact List.cons_ne_nil _ _
  | header =>
    refine List.append_ne_nil_of_left_ne_nil (List.ne_nil_of_length_pos ?_) _
    exact header_length_pos k c.length

theorem splitsWhole_iff {v : List UInt8} (hv : v.length < 2 ^ 64) :
    SplitsWhole v ↔ ∃ k c, Fronts k c v := by
  simp only [SplitsWhole, split_eq_iff hv, List.append_nil, exists_eq_right']

/-- A turn of the loop goes where `Split` cuts the slice. -/
theorem countLoop_of_split {r : List UInt8} (hb : b ≠ []) (hsplit : split b = (k, c, r, none))
    (turns i : ℕ) : countLoop (turns + 1) i b = countLoop turns (i + 1) r := by
  rw [countLoop, if_pos (List.length_pos_iff.mpr hb)]
  cases hkind : sliceKind b with
  | error err =>
    rw [split, hkind] at hsplit
    cases hsplit
  | ok sizes =>
    rw [split, hkind] at hsplit
    cases hsplit
    rfl

/-- The loop stops with the error of `Split`. -/
theorem countLoop_of_split_error {err : Err} (hb : b ≠ []) (hsplit : (split b).2.2.2 = some err)
    (turns i : ℕ) : countLoop (turns + 1) i b = (0, some err) := by
  rw [countLoop, if_pos (List.length_pos_iff.mpr hb)]
  cases hkind : sliceKind b with
  | error err =>
    rw [split, hkind] at hsplit
    cases hsplit
    rfl
  | ok sizes =>
    rw [split, hkind] at hsplit
    cases hsplit

/-- The loop counts the values of a sequence. -/
theorem countLoop_flatten {vs : List (List UInt8)} (hvs : ∀ v ∈ vs, ∃ k c, Fronts k c v)
    (hlen : vs.flatten.length < 2 ^ 64) (hturns : vs.flatten.length ≤ turns) (i : ℕ) :
    countLoop turns i vs.flatten = (i + vs.length, none) := by
  induction vs generalizing turns i with
  | nil => cases turns <;> rfl
  | cons v vs ih =>
    obtain ⟨k, c, hfront⟩ := hvs v List.mem_cons_self
    have hpos := List.length_pos_iff.mpr hfront.ne_nil
    rw [List.flatten_cons, List.length_append] at hlen hturns
    obtain ⟨turns, rfl⟩ : ∃ t, turns = t + 1 := ⟨turns - 1, by omega⟩
    have hsplit : split (v ++ vs.flatten) = (k, c, vs.flatten, none) :=
      (split_eq_iff (by rw [List.length_append]; exact hlen)).mpr ⟨v, hfront, rfl⟩
    have hne : v ++ vs.flatten ≠ [] := List.append_ne_nil_of_left_ne_nil hfront.ne_nil _
    rw [List.flatten_cons, countLoop_of_split hne hsplit,
      ih (fun u hu => hvs u (List.mem_cons_of_mem v hu)) (by omega) (by omega), List.length_cons,
      Nat.add_assoc, Nat.add_comm 1]

/-- What the loop counts is a sequence of values. -/
theorem exists_values_of_countLoop (hb : b.length < 2 ^ 64) {i n : ℕ}
    (h : countLoop turns i b = (n, none)) :
    ∃ vs : List (List UInt8), i + vs.length = n ∧ vs.flatten = b ∧
      ∀ v ∈ vs, ∃ k c, Fronts k c v := by
  induction turns generalizing i b with
  | zero =>
    rw [countLoop] at h
    split_ifs at h with hlen
    · cases h
    · cases h
      exact ⟨[], rfl, (List.length_eq_zero_iff.mp (by omega)).symm, fun v hv => nomatch hv⟩
  | succ turns ih =>
    by_cases hnil : b = []
    · subst hnil
      have hdone : (i, none) = (n, none) := h
      cases hdone
      exact ⟨[], rfl, rfl, fun v hv => nomatch hv⟩
    · rcases hsplit : split b with ⟨k, c, r, err⟩
      cases err with
      | some err =>
        rw [countLoop_of_split_error hnil (by rw [hsplit])] at h
        cases h
      | none =>
        rw [countLoop_of_split hnil hsplit] at h
        obtain ⟨v, hfront, rfl⟩ := (split_eq_iff hb).mp hsplit
        rw [List.length_append] at hb
        obtain ⟨vs, hcount, hflat, hvs⟩ := ih (by omega) h
        refine ⟨v :: vs, ?_, by rw [List.flatten_cons, hflat], ?_⟩
        · rw [← hcount, List.length_cons]
          omega
        · exact List.forall_mem_cons.mpr ⟨⟨k, c, hfront⟩, hvs⟩

theorem readSize_ne_diverges (b : List UInt8) (slen : ℕ) : readSize b slen ≠ .error .diverges := by
  intro h
  simp only [readSize] at h
  split_ifs at h <;> cases h

/-- The sizes in a tag are read without a loop. -/
theorem tagSizes_ne_diverges (x : UInt8) (rest : List UInt8) :
    tagSizes x rest ≠ .error .diverges := by
  intro h
  unfold tagSizes at h
  -- Left are a single byte with a header, and long strings and lists, which have a size to read.
  split_ifs at h
  · cases h
  · exact Machine.Avoids.map (readSize_ne_diverges _ _) h
  · exact Machine.Avoids.map (readSize_ne_diverges _ _) h

/-- `readKind` returns. -/
theorem sliceKind_ne_diverges (b : List UInt8) : sliceKind b ≠ .error .diverges := by
  intro h
  unfold sliceKind at h
  split at h
  · cases h
  · split at h
    · next htags => exact tagSizes_ne_diverges _ _ (htags.trans h)
    · split_ifs at h
      cases h

/-- `Split` returns. -/
theorem split_ne_diverges (b : List UInt8) : (split b).2.2.2 ≠ some .diverges := by
  intro h
  cases hkind : sliceKind b with
  | error err =>
    rw [split, hkind] at h
    exact sliceKind_ne_diverges b (hkind.trans (congrArg _ (Option.some.inj h)))
  | ok sizes =>
    rw [split, hkind] at h
    cases h

/-- The loop of `CountValues` ends. -/
theorem countLoop_ne_diverges (hb : b.length < 2 ^ 64) (hturns : b.length ≤ turns) (i : ℕ) :
    (countLoop turns i b).2 ≠ some .diverges := by
  induction turns generalizing i b with
  | zero =>
    rw [countLoop, if_neg (by omega)]
    exact fun h => nomatch h
  | succ turns ih =>
    by_cases hnil : b = []
    · subst hnil
      exact fun h => nomatch h
    · rcases hsplit : split b with ⟨k, c, r, err⟩
      cases err with
      | some err =>
        have herr := split_ne_diverges b
        rw [hsplit] at herr
        rw [countLoop_of_split_error hnil (by rw [hsplit])]
        exact herr
      | none =>
        rw [countLoop_of_split hnil hsplit]
        obtain ⟨v, hfront, rfl⟩ := (split_eq_iff hb).mp hsplit
        have hpos := List.length_pos_iff.mpr hfront.ne_nil
        rw [List.length_append] at hb hturns
        exact ih (by omega) (by omega) (i + 1)

/-- `CountValues` returns a number just when the slice is a sequence of so many values. -/
theorem countValues_eq_iff (hb : b.length < 2 ^ 64) (n : ℕ) :
    countValues b = (n, none) ↔ SequenceOf b n := by
  constructor
  · intro h
    obtain ⟨vs, hcount, rfl, hvs⟩ := exists_values_of_countLoop hb h
    refine ⟨vs, by omega, rfl, fun v hv => ?_⟩
    obtain ⟨k, c, hfront⟩ := hvs v hv
    have hle : v.length ≤ vs.flatten.length := (List.sublist_flatten_of_mem hv).length_le
    exact ⟨hfront.ne_nil, (splitsWhole_iff (by omega)).mpr ⟨k, c, hfront⟩⟩
  · rintro ⟨vs, rfl, rfl, hvs⟩
    have hfronts (v : List UInt8) (hv : v ∈ vs) : ∃ k c, Fronts k c v := by
      have hle : v.length ≤ vs.flatten.length := (List.sublist_flatten_of_mem hv).length_le
      exact (splitsWhole_iff (by omega)).mp (hvs v hv).2
    rw [countValues, countLoop_flatten hfronts hb le_rfl, Nat.zero_add]

/-- The encoding of an unsigned integer is a value. -/
theorem fronts_encodeUint (i : ℕ) : ∃ k c, Fronts k c (encodeUint i) := by
  unfold encodeUint
  split_ifs with hzero hsmall
  · exact ⟨.string, [], .header (by decide) (by decide) fun _ x hx => nomatch hx⟩
  · have hbyte : byte i < 0x80 := by
      rw [UInt8.lt_iff_toNat_lt, byte, UInt8.toNat_ofNat']
      change i % 256 < 128
      omega
    exact ⟨.byte, _, .byte hbyte⟩
  · obtain ⟨⟨-, hlen⟩, -, hsize⟩ := putint_length_spec i
    have hheader : header .string (putint i).length = [0x80 + byte (putint i).length] := by
      rw [header, puthead, if_pos (by omega)]
      rfl
    have hfront : Fronts .string (putint i) (header .string (putint i).length ++ putint i) := by
      refine .header (by decide) (by omega) fun _ x hx hle => ?_
      -- a single digit is the number itself, which is not below 128
      rw [hx] at hsize
      have hlt : i < 256 := hsize.resolve_left (by simp)
      have hput : putint i = [byte i] := if_pos hlt
      obtain rfl : byte i = x := List.singleton_injective (hput.symm.trans hx)
      rw [UInt8.le_iff_toNat_le, byte, UInt8.toNat_ofNat', Nat.mod_eq_of_lt hlt] at hle
      exact hsmall (Nat.lt_succ_of_le hle)
    rw [hheader] at hfront
    exact ⟨.string, _, hfront⟩

/-- The encoding of a string is a value. -/
theorem fronts_encodeString (hlen : (encodeString c).length < 2 ^ 64) :
    ∃ k c', Fronts k c' (encodeString c) := by
  have hle := length_le_encodeString c
  obtain ⟨k, -, hfront⟩ := (fronts_string_iff (c := c) (by omega)).mpr rfl
  exact ⟨k, c, hfront⟩

/-- The encoding of a list is a value. -/
theorem fronts_encodeList (hlen : (encodeList c).length < 2 ^ 64) :
    Fronts .list c (encodeList c) := by
  rw [encodeList, List.length_append] at hlen
  refine .header (by decide) (by omega) fun h => ?_
  cases h

/-- The encoding of a big integer is a value. -/
theorem fronts_encodeBigInt {i : ℤ} (h : encodeBigInt i = .ok b) (hlen : b.length < 2 ^ 64) :
    ∃ k c, Fronts k c b := by
  unfold encodeBigInt at h
  split_ifs at h with hneg hzero
  · cases h
    exact fronts_encodeUint 0
  · cases h
    exact fronts_encodeString hlen

/-- The encoding of a nil pointer is a value. -/
theorem fronts_encodeNil : ∀ {t : Ty} {b : List UInt8}, encodeNil t = .ok b → ∃ k c, Fronts k c b
  | .uint _, _, h => by cases h; exact fronts_encodeUint 0
  | .bool, _, h => by cases h; exact fronts_encodeUint 0
  | .string, _, h => by cases h; exact fronts_encodeUint 0
  | .bytes, _, h => by cases h; exact fronts_encodeUint 0
  | .byteArray _, _, h => by cases h; exact fronts_encodeUint 0
  | .bigInt, _, h => by cases h; exact fronts_encodeUint 0
  | .bigIntNoPtr, _, h => by cases h; exact fronts_encodeUint 0
  | .slice _, _, h => by cases h; exact ⟨.list, [], fronts_encodeList (by decide)⟩
  | .array _ _, _, h => by cases h; exact ⟨.list, [], fronts_encodeList (by decide)⟩
  | .struct _, _, h => by cases h; exact ⟨.list, [], fronts_encodeList (by decide)⟩
  | .ptr elem, _, h => fronts_encodeNil (t := elem) h

theorem fronts_of_map_encodeList {e : Except EncErr (List UInt8)} (h : e.map encodeList = .ok b)
    (hlen : b.length < 2 ^ 64) : ∃ k c, Fronts k c b := by
  obtain ⟨c, -, rfl⟩ := Machine.exists_of_map_eq_ok h
  exact ⟨.list, c, fronts_encodeList hlen⟩

/-- The encoding of a value of any type is one value. -/
theorem fronts_encode : ∀ (t : Ty) {v : t.Val} {b : List UInt8}, encode t v = .ok b →
    b.length < 2 ^ 64 → ∃ k c, Fronts k c b
  | .uint _, _, _, h, _ => Except.ok.inj h ▸ fronts_encodeUint _
  | .bool, v, _, h, _ => by
    have hbool : encodeBool v = encodeUint v.toNat := by cases v <;> rfl
    rw [← Except.ok.inj h, hbool]
    exact fronts_encodeUint _
  | .string, _, _, h, hlen => by cases h; exact fronts_encodeString hlen
  | .bytes, _, _, h, hlen => by cases h; exact fronts_encodeString hlen
  | .byteArray _, _, _, h, hlen => by cases h; exact fronts_encodeString hlen
  | .bigInt, none, _, h, _ => by cases h; exact fronts_encodeUint 0
  | .bigInt, some _, _, h, hlen => fronts_encodeBigInt h hlen
  | .bigIntNoPtr, _, _, h, hlen => fronts_encodeBigInt h hlen
  | .slice _, _, _, h, hlen => fronts_of_map_encodeList h hlen
  | .array _ _, _, _, h, hlen => fronts_of_map_encodeList h hlen
  | .struct _, _, _, h, hlen => fronts_of_map_encodeList h hlen
  | .ptr _, none, _, h, _ => fronts_encodeNil h
  | .ptr elem, some _, _, h, hlen => fronts_encode elem h hlen

/-- The fields of a struct as the writers see them. -/
def Fields.items : (fs : Fields) → fs.Val → List Value
  | .nil, _ => []
  | .cons _ type rest, v => .typed type v.1 :: rest.items v.2

/-- The elements of a value of a type that is written as a list. -/
def Ty.items : (t : Ty) → t.Val → Option (List Value)
  | .slice elem, v => some (List.map (Value.typed elem) v)
  | .array _ elem, v => some (v.val.map (Value.typed elem))
  | .struct fields, v => some (fields.items v)
  | .ptr elem, v => Option.elim v none elem.items
  | _, _ => none

namespace Value

/-- The elements of a value that is written as a list. -/
def items : Value → Option (List Value)
  | .typed t v => t.items v
  | .list vs => some vs
  | _ => none

/-- A value that is one item in a list. A `RawValue` is one if it holds an encoded value; what an
encoder or a slice with tag `tail` writes is any number of items. -/
def IsItem : Value → Prop
  | .rawValue b => SplitsWhole b
  | .tail _ => False
  | _ => True

/-- The elements of a typed list are written as values. -/
theorem encodeAll_typed (elem : Ty) (xs : List elem.Val) :
    encodeAll (xs.map (typed elem)) = encodeElems (Rlp.encode elem) xs := by
  induction xs with
  | nil => rfl
  | cons x xs ih =>
    rw [List.map_cons, encodeAll, encode, ih]
    rfl

/-- The fields of a struct are written as values. -/
theorem encodeAll_fields : ∀ (fs : Fields) (v : fs.Val),
    encodeAll (fs.items v) = encodeFields fs v
  | .nil, _ => rfl
  | .cons _ type rest, v => by
    rw [Fields.items, encodeAll, encode, encodeAll_fields rest v.2]
    rfl

/-- A value of a type that is written as a list is its header and its elements. -/
theorem encode_typed_of_items : ∀ (t : Ty) {v : t.Val} {vs : List Value}, t.items v = some vs →
    Rlp.encode t v = (encodeAll vs).map encodeList
  | .slice elem, v, _, h => by
    cases h
    exact congrArg (Except.map encodeList) (encodeAll_typed elem v).symm
  | .array _ elem, v, _, h => by
    cases h
    exact congrArg (Except.map encodeList) (encodeAll_typed elem v.val).symm
  | .struct fields, v, _, h => by
    cases h
    exact congrArg (Except.map encodeList) (encodeAll_fields fields v).symm
  | .ptr elem, some _, _, h => encode_typed_of_items elem h

variable {vs : List Value} {v : Value}

/-- A value that is written as a list is its header and its elements. -/
theorem encode_of_items (h : v.items = some vs) : v.encode = (encodeAll vs).map encodeList := by
  cases v with
  | typed t v => exact encode_typed_of_items t h
  | list vs => cases h; rfl
  | rawValue b => cases h
  | nilInterface => cases h
  | tail vs => cases h

/-- An item is written as one value. -/
theorem IsItem.fronts (h : v.IsItem) (hb : v.encode = .ok b) (hlen : b.length < 2 ^ 64) :
    ∃ k c, Fronts k c b := by
  cases v with
  | typed t v => exact fronts_encode t hb hlen
  | rawValue b => cases hb; exact (splitsWhole_iff hlen).mp h
  | nilInterface => cases hb; exact ⟨.list, [], fronts_encodeList (by decide)⟩
  | list vs => exact fronts_of_map_encodeList hb hlen
  | tail vs => cases h

/-- Items are written as a sequence of so many values. -/
theorem exists_values_of_encodeAll (hvs : ∀ v ∈ vs, v.IsItem) (hb : encodeAll vs = .ok b)
    (hlen : b.length < 2 ^ 64) :
    ∃ bs : List (List UInt8), bs.length = vs.length ∧ bs.flatten = b ∧
      ∀ x ∈ bs, ∃ k c, Fronts k c x := by
  induction vs generalizing b with
  | nil =>
    cases hb
    exact ⟨[], rfl, rfl, fun x hx => nomatch hx⟩
  | cons v vs ih =>
    cases hv : v.encode with
    | error e =>
      rw [encodeAll, hv] at hb
      cases hb
    | ok x =>
      cases hrest : encodeAll vs with
      | error e =>
        rw [encodeAll, hv, hrest] at hb
        cases hb
      | ok xs =>
        rw [encodeAll, hv, hrest] at hb
        obtain rfl : x ++ xs = b := Except.ok.inj hb
        rw [List.length_append] at hlen
        obtain ⟨bs, hcount, rfl, hbs⟩ :=
          ih (fun u hu => hvs u (List.mem_cons_of_mem v hu)) hrest (by omega)
        have hfront := (hvs v List.mem_cons_self).fronts hv (by omega)
        exact ⟨x :: bs, by rw [List.length_cons, hcount, List.length_cons], rfl,
          List.forall_mem_cons.mpr ⟨hfront, hbs⟩⟩

/-- `CountValues` counts the items in the content of an encoded list. -/
theorem countValues_of_items (hitems : v.items = some vs) (hvs : ∀ x ∈ vs, x.IsItem)
    (hb : v.encodeToBytes = .ok b) :
    ∃ content, split b = (.list, content, [], none) ∧ countValues content = (vs.length, none) := by
  obtain ⟨henc, hlen⟩ := encodeToBytes_eq_ok.mp hb
  rw [encode_of_items hitems] at henc
  obtain ⟨content, hcontent, rfl⟩ := Machine.exists_of_map_eq_ok henc
  have hlt : (encodeList content).length < 2 ^ 64 := hlen.trans (by decide)
  have hle : content.length ≤ (encodeList content).length := by
    rw [encodeList, List.length_append]
    omega
  obtain ⟨bs, hcount, rfl, hbs⟩ := exists_values_of_encodeAll hvs hcontent (by omega)
  refine ⟨bs.flatten, (split_eq_iff hlt).mpr ⟨_, fronts_encodeList hlt, ?_⟩, ?_⟩
  · rw [List.append_nil]
  · rw [countValues, countLoop_flatten hbs (by omega) le_rfl, hcount, Nat.zero_add]

end Value

/-- `CountValues` returns, and it returns a number without an error just when the slice is a
sequence of so many values, each of which `Split` takes as a whole. For the content of an encoded
list it returns the number of items in the list. -/
theorem countValues_exact (b : SliceBytes) :
    (countValues b.val).2 ≠ some .diverges ∧
      (∀ n, countValues b.val = (n, none) ↔ SequenceOf b.val n) ∧
      ∀ (v : Value) (vs : List Value), v.items = some vs → (∀ x ∈ vs, x.IsItem) →
        v.encodeToBytes = .ok b.val → ∃ content,
          split b.val = (.list, content, [], none) ∧ countValues content = (vs.length, none) := by
  have hb : b.val.length < 2 ^ 64 := b.property.trans (by decide)
  refine ⟨countLoop_ne_diverges hb le_rfl 0, countValues_eq_iff hb, fun v vs hitems hvs hv => ?_⟩
  exact Value.countValues_of_items hitems hvs hv

/-- A list of a byte, an empty list and the number 500. -/
theorem countValues_exact_nested :
    (Value.list [.typed .bytes [(1 : UInt8)], .list [], .typed (.uint 64) (500 : BitVec 64)]
        ).encodeToBytes = .ok [0xC5, 0x01, 0xC0, 0x82, 0x01, 0xF4] ∧
      ∃ content, split [0xC5, 0x01, 0xC0, 0x82, 0x01, 0xF4] = (.list, content, [], none) ∧
        countValues content = (3, none) := by
  have henc : (Value.list [.typed .bytes [(1 : UInt8)], .list [],
      .typed (.uint 64) (500 : BitVec 64)]).encodeToBytes =
        .ok [0xC5, 0x01, 0xC0, 0x82, 0x01, 0xF4] := by rfl
  refine ⟨henc, ?_⟩
  exact (countValues_exact ⟨[0xC5, 0x01, 0xC0, 0x82, 0x01, 0xF4], by decide⟩).2.2 _ _ rfl
    (by simp [Value.IsItem]) henc

end Hashgrid.Rlp
