import Hashgrid.Rlp.Items

/-!
# The byte that is read twice

`decodeByteArray` drops the error of `Uint` for the byte zero. `Uint` returns that error
without consuming the byte, so the kind of the byte stays cached, and the next decoder
gets the same byte once more. This file says which values lead a decoder into that state,
and which values and inputs keep clear of it.
-/

namespace Hashgrid.Rlp

open Hashgrid.Bytes

/-- The value is a one-byte array that holds zero, or a pointer to one. Its decoder leaves the
byte behind. -/
def stuck : (t : Ty) → t.Val → Bool
  | .byteArray _, v => FixedBytes.bytes v == [0]
  | .ptr elem, v => Option.elim v false (stuck elem)
  | _, _ => false

/-- The entries of a struct or array, each with whether it is free of bytes that are read twice
and whether it leaves one behind: only the last entry may leave one behind. -/
def orderly : Bool → List (Bool × Bool) → Bool
  | _, [] => true
  | stale, (clean, stuck) :: rest => !stale && clean && orderly stuck rest

mutual

/-- No byte of the value is read twice: a byte that is left behind is the last one of a struct
or array, or of the whole input. -/
def clean : (t : Ty) → t.Val → Bool
  | .slice elem, v => List.all (show List elem.Val from v) fun x => clean elem x && !stuck elem x
  | .array _ elem, v => orderly false (v.val.map fun x => (clean elem x, stuck elem x))
  | .struct fields, v => orderly false (cleanFields fields v)
  | .ptr elem, v => Option.elim v true (clean elem)
  | _, _ => true

/-- The entries of a struct. -/
def cleanFields : (fs : Fields) → fs.Val → List (Bool × Bool)
  | .nil, _ => []
  | .cons _ type rest, v => (clean type v.1, stuck type v.1) :: cleanFields rest v.2

end

mutual

/-- The item has one item for every field of a struct and every element of an array. -/
def shaped : Ty → Item → Bool
  | .slice elem, .list xs => xs.all (shaped elem)
  | .array n elem, .list xs => xs.length == n && xs.all (shaped elem)
  | .struct fields, .list xs => shapedFields fields xs
  | .slice _, .str _ => false
  | .array _ _, .str _ => false
  | .struct _, .str _ => false
  | .ptr elem, x => shaped elem x
  | _, _ => true

/-- There is one item for every field. -/
def shapedFields : Fields → List Item → Bool
  | .nil, [] => true
  | .cons _ type rest, x :: xs => shaped type x && shapedFields rest xs
  | _, _ => false

end

mutual

/-- The widths of the unsigned integers in a type are those that Go has. -/
def Ty.Supported : Ty → Prop
  | .uint bits => bits = 8 ∨ bits = 16 ∨ bits = 32 ∨ bits = 64
  | .slice elem => elem.Supported
  | .array _ elem => elem.Supported
  | .struct fields => fields.Supported
  | .ptr elem => elem.Supported
  | _ => True

/-- The widths of the unsigned integers in the fields are those that Go has. -/
def Fields.Supported : Fields → Prop
  | .nil => True
  | .cons _ type rest => type.Supported ∧ rest.Supported

end

/-- A value that was decoded from the bytes `c`. They are the encoding of an item, and they are
the encoding of the value exactly when no byte was read twice, which shows in the shape of the
item. -/
structure Decoded (t : Ty) (v : t.Val) (c : List UInt8) : Prop where
  /-- The bytes are an item, which has the shape of the type if no byte was read twice. -/
  item : ∃ x : Item, x.encode = c ∧ shaped t x = clean t v
  /-- The encoding of the value is longer if some byte was read twice. -/
  enc : ∃ b, encode t v = .ok b ∧ (clean t v = true → b = c) ∧
    (clean t v = false → c.length < b.length)

/-- An entry of a struct or array: its encoding, the shape of its item, whether it is free of
bytes that are read twice and whether it leaves one behind. -/
structure Part where
  /-- The encoding. -/
  enc : Except EncErr (List UInt8)
  /-- The shape of the item. -/
  shaped : Item → Bool
  /-- No byte is read twice. -/
  clean : Bool
  /-- A byte is left behind. -/
  stuck : Bool

/-- A value as an entry. -/
def partOf (t : Ty) (v : t.Val) : Part := ⟨encode t v, shaped t, clean t v, stuck t v⟩

/-- The entries of a struct. -/
def fieldParts : (fs : Fields) → fs.Val → List Part
  | .nil, _ => []
  | .cons _ type rest, v => partOf type v.1 :: fieldParts rest v.2

/-- Whether no byte is read twice while the entries are read one after the other. -/
def inOrder (stale : Bool) (ps : List Part) : Bool :=
  orderly stale (ps.map fun p => (p.clean, p.stuck))

/-- Entries that were decoded from the bytes `c`, possibly after a byte that was left behind. -/
def DecodedSeq (ps : List Part) (stale : Bool) (c : List UInt8) : Prop :=
  ∃ xs b, Item.encodeAll xs = c ∧ encodeElems Part.enc ps = .ok b ∧ xs.length ≤ ps.length ∧
    (stale = false → (∀ p ∈ ps, p.stuck = false) → xs.length = ps.length) ∧
    (inOrder stale ps = true → b = c) ∧ (inOrder stale ps = false → c.length < b.length) ∧
    (List.Forall₂ (fun p x => p.shaped x = true) ps xs ↔ inOrder stale ps = true)

variable {b₁ c : List UInt8} {ps : List Part} {elem t : Ty} {cs : List (List UInt8)}
  {b : List UInt8} {v : t.Val} {l : List elem.Val}

/-- The bytes of decoded entries are not longer than their encoding. -/
theorem length_le_of_inOrder {ok : Bool} (h : ok = true → b = c)
    (h' : ok = false → c.length < b.length) : c.length ≤ b.length := by
  cases ok with
  | true => rw [h rfl]
  | false => exact (h' rfl).le

theorem decodedSeq_nil (stale : Bool) : DecodedSeq [] stale [] :=
  ⟨[], [], rfl, rfl, le_refl _, fun _ _ => rfl, fun _ => rfl, fun h => (nomatch h),
    ⟨fun _ => rfl, fun _ => .nil⟩⟩

/-- Concatenated encodings of an entry and those after it. -/
theorem encodeElems_cons_ok {α : Type} {enc : α → Except EncErr (List UInt8)} {x : α} {xs : List α}
    {b₂ : List UInt8} (h₁ : enc x = .ok b₁) (h₂ : encodeElems enc xs = .ok b₂) :
    encodeElems enc (x :: xs) = .ok (b₁ ++ b₂) := by
  rw [encodeElems, h₁, h₂]
  rfl

/-- An entry that was read from new bytes, and those after it. -/
theorem Decoded.cons {c₁ c₂ : List UInt8} (h : Decoded t v c₁)
    (hps : DecodedSeq ps (stuck t v) c₂) : DecodedSeq (partOf t v :: ps) false (c₁ ++ c₂) := by
  obtain ⟨x, hx, hshape⟩ := h.item
  obtain ⟨b₁, henc, hclean, hlonger⟩ := h.enc
  obtain ⟨xs, b₂, hxs, hencs, hlen, hall, horder, hlongers, hshapes⟩ := hps
  have hcons : inOrder false (partOf t v :: ps) = (clean t v && inOrder (stuck t v) ps) := rfl
  have hle₁ := length_le_of_inOrder hclean hlonger
  have hle₂ := length_le_of_inOrder horder hlongers
  refine ⟨x :: xs, b₁ ++ b₂, by rw [Item.encodeAll, hx, hxs], encodeElems_cons_ok henc hencs,
    by simpa using hlen, fun _ hstuck => ?_, ?_, ?_, ?_⟩
  · have hfirst : stuck t v = false := hstuck _ List.mem_cons_self
    simpa using hall hfirst fun p hp => hstuck p (List.mem_cons_of_mem _ hp)
  · rw [hcons, Bool.and_eq_true]
    rintro ⟨hc, ho⟩
    rw [hclean hc, horder ho]
  · rw [hcons, Bool.and_eq_false_iff, List.length_append, List.length_append]
    rintro (hc | ho)
    · have := hlonger hc
      omega
    · have := hlongers ho
      omega
  · rw [hcons, Bool.and_eq_true, List.forall₂_cons, hshapes, ← hshape]
    rfl

/-- An entry that was read from a byte that was left behind, and those after it. -/
theorem decodedSeq_reread (henc : encode t v = .ok b₁) (hpos : 1 ≤ b₁.length)
    (hps : DecodedSeq ps (stuck t v) c) : DecodedSeq (partOf t v :: ps) true c := by
  obtain ⟨xs, b₂, hxs, hencs, hlen, hall, horder, hlongers, hshapes⟩ := hps
  have hle₂ := length_le_of_inOrder horder hlongers
  refine ⟨xs, b₁ ++ b₂, hxs, encodeElems_cons_ok henc hencs, by simp; omega,
    fun h => (nomatch h), fun h => (nomatch h), fun _ => by rw [List.length_append]; omega,
    fun h => ?_, fun h => (nomatch h)⟩
  have := h.length_eq
  simp only [List.length_cons] at this
  omega

/-- A longer content makes a longer list. -/
theorem encodeList_length_lt (h : c.length < b.length) :
    (encodeList c).length < (encodeList b).length := by
  have hmono := headsize_mono h.le
  rw [encodeList, encodeList, List.length_append, List.length_append, ← headsize_eq_length,
    ← headsize_eq_length]
  omega

/-- A list of entries that were decoded one after the other. -/
theorem DecodedSeq.decoded (h : DecodedSeq ps false c)
    (henc : encode t v = (encodeElems Part.enc ps).map encodeList)
    (hclean : clean t v = inOrder false ps)
    (hshaped : ∀ xs : List Item, ((∀ p ∈ ps, p.stuck = false) → xs.length = ps.length) →
      (shaped t (.list xs) = true ↔ List.Forall₂ (fun p x => p.shaped x = true) ps xs)) :
    Decoded t v (encodeList c) := by
  obtain ⟨xs, b, rfl, hencs, hlen, hall, horder, hlonger, hshapes⟩ := h
  refine ⟨⟨.list xs, rfl, ?_⟩, ⟨encodeList b, ?_, fun h => ?_, fun h => ?_⟩⟩
  · rw [Bool.eq_iff_iff, hshaped xs (hall rfl), hshapes, hclean]
  · rw [henc, hencs]
    rfl
  · rw [horder (hclean ▸ h)]
  · exact encodeList_length_lt (hlonger (hclean ▸ h))

/-- The encodings of the fields are those of the entries. -/
theorem encodeFields_eq : ∀ (fs : Fields) (v : fs.Val),
    encodeFields fs v = encodeElems Part.enc (fieldParts fs v)
  | .nil, _ => rfl
  | .cons _ type rest, v => by
    rw [encodeFields, encodeFields_eq rest v.2]
    rfl

/-- The fields are in order when the entries are. -/
theorem cleanFields_eq : ∀ (fs : Fields) (v : fs.Val),
    cleanFields fs v = (fieldParts fs v).map fun p => (p.clean, p.stuck)
  | .nil, _ => rfl
  | .cons _ type rest, v => by
    rw [cleanFields, cleanFields_eq rest v.2]
    rfl

/-- The items have the shape of the fields when each has the shape of its entry. -/
theorem shapedFields_iff : ∀ (fs : Fields) (v : fs.Val) (xs : List Item),
    shapedFields fs xs = true ↔
      List.Forall₂ (fun p x => p.shaped x = true) (fieldParts fs v) xs
  | .nil, _, [] => by simp [shapedFields, fieldParts]
  | .nil, _, _ :: _ => by simp [shapedFields, fieldParts]
  | .cons _ _ _, _, [] => by simp [shapedFields, fieldParts]
  | .cons _ type rest, v, x :: xs => by
    rw [shapedFields, Bool.and_eq_true, shapedFields_iff rest v.2 xs, fieldParts,
      List.forall₂_cons]
    rfl

/-- Structs. -/
theorem DecodedSeq.struct {fs : Fields} {v : fs.Val} (h : DecodedSeq (fieldParts fs v) false c) :
    Decoded (.struct fs) v (encodeList c) := by
  refine h.decoded ?_ ?_ fun xs _ => ?_
  · exact congrArg (Except.map encodeList) (encodeFields_eq fs v)
  · exact congrArg (orderly false) (cleanFields_eq fs v)
  · rw [shaped, shapedFields_iff fs v]

/-- The encodings of elements are those of the entries. -/
theorem encodeElems_map (l : List elem.Val) :
    encodeElems Part.enc (l.map (partOf elem)) = encodeElems (encode elem) l := by
  induction l with
  | nil => rfl
  | cons x l ih =>
    rw [List.map_cons, encodeElems, encodeElems, ih]
    rfl

/-- As many items as elements have the shape of the elements when all of them do. -/
theorem forall₂_shaped_iff {xs : List Item} (hlen : xs.length = l.length) :
    List.Forall₂ (fun p x => p.shaped x = true) (l.map (partOf elem)) xs ↔
      xs.all (shaped elem) = true := by
  induction l generalizing xs with
  | nil =>
    have hnil : xs = [] := List.length_eq_zero_iff.mp hlen
    simp [hnil]
  | cons y l ih =>
    cases xs with
    | nil => simp at hlen
    | cons x xs =>
      rw [List.map_cons, List.forall₂_cons, List.all_cons, Bool.and_eq_true,
        ih (by simpa using hlen)]
      rfl

/-- Arrays. -/
theorem DecodedSeq.array {n : ℕ} (hn : l.length = n)
    (h : DecodedSeq (l.map (partOf elem)) false c) :
    Decoded (.array n elem) ⟨l, hn⟩ (encodeList c) := by
  refine h.decoded ?_ ?_ fun xs _ => ?_
  · exact congrArg (Except.map encodeList) (encodeElems_map l).symm
  · rw [inOrder, List.map_map]
    rfl
  · rw [shaped, Bool.and_eq_true, beq_iff_eq]
    constructor
    · rintro ⟨hlen, hall⟩
      exact (forall₂_shaped_iff (hlen.trans hn.symm)).mpr hall
    · intro hshaped
      have hlen : xs.length = l.length := by simpa using hshaped.length_eq.symm
      exact ⟨hlen.trans hn, (forall₂_shaped_iff hlen).mp hshaped⟩

/-- Elements of a slice, none of which leaves a byte behind. -/
theorem decodedSeq_slice
    (h : List.Forall₂ (fun x c => Decoded elem x c ∧ stuck elem x = false) l cs) :
    DecodedSeq (l.map (partOf elem)) false cs.flatten ∧ ∀ x ∈ l, stuck elem x = false := by
  induction h with
  | nil => exact ⟨decodedSeq_nil false, fun x hx => (nomatch hx)⟩
  | cons hx _ ih =>
    refine ⟨hx.1.cons (hx.2.symm ▸ ih.1), fun y hy => ?_⟩
    rcases List.mem_cons.mp hy with rfl | hy
    · exact hx.2
    · exact ih.2 y hy

/-- Elements that leave no byte behind are in order when each of them is. -/
theorem inOrder_of_not_stuck (h : ∀ x ∈ l, stuck elem x = false) :
    inOrder false (l.map (partOf elem)) = clean (.slice elem) l := by
  induction l with
  | nil => rfl
  | cons x l ih =>
    have hx := h x List.mem_cons_self
    have hl := ih fun y hy => h y (List.mem_cons_of_mem x hy)
    change (clean elem x && inOrder (stuck elem x) (l.map (partOf elem))) =
      (clean elem x && !stuck elem x && clean (.slice elem) l)
    rw [hx, hl, Bool.not_false, Bool.and_true]

/-- Slices. -/
theorem decoded_slice (h : List.Forall₂ (fun x c => Decoded elem x c ∧ stuck elem x = false) l cs) :
    Decoded (.slice elem) l (encodeList cs.flatten) := by
  obtain ⟨hseq, hstuck⟩ := decodedSeq_slice h
  refine hseq.decoded ?_ ?_ fun xs hlen => ?_
  · exact congrArg (Except.map encodeList) (encodeElems_map l).symm
  · exact (inOrder_of_not_stuck hstuck).symm
  · have hlength : xs.length = l.length := by
      simpa using hlen (by simpa [partOf] using hstuck)
    rw [shaped, forall₂_shaped_iff hlength]

end Hashgrid.Rlp
