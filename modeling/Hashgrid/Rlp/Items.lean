import Hashgrid.Rlp.AnyValue
import Hashgrid.Rlp.SliceLoop

/-!
# Item trees

Decoding into an `interface{}` gives a tree of byte strings and lists. The trees correspond
to the byte strings that `DecodeBytes` accepts: every tree has one encoding, and it is the
only input that is decoded to it.
-/

namespace Hashgrid.Rlp

open Hashgrid.Bytes

/-- What an `interface{}` holds after decoding: a `[]byte` or a `[]interface{}`. -/
inductive Item
  /-- A byte string. -/
  | str (b : List UInt8)
  /-- A list of items. -/
  | list (xs : List Item)

variable {x : Item} {s s' s₁ : Stream} {depth size : ℕ} {k : Kind} {b inp : List UInt8}
  {v : Option Item} {st : List ListPos}

namespace Item

mutual

/-- The item as the writers see it. -/
def value : Item → Value
  | .str b => .typed .bytes b
  | .list xs => .list (values xs)

/-- Several items as the writers see them. -/
def values : List Item → List Value
  | [] => []
  | x :: xs => value x :: values xs

end

mutual

/-- The encoding of an item. -/
def encode : Item → List UInt8
  | .str b => encodeString b
  | .list xs => encodeList (encodeAll xs)

/-- The concatenated encodings of several items. -/
def encodeAll : List Item → List UInt8
  | [] => []
  | x :: xs => encode x ++ encodeAll xs

end

mutual

/-- The writers produce the encoding of an item. -/
theorem encode_value : ∀ x : Item, x.value.encode = .ok x.encode
  | .str _ => rfl
  | .list xs => by
    rw [value, Value.encode, encodeAll_values xs]
    rfl

/-- The writers produce the encodings of several items. -/
theorem encodeAll_values : ∀ xs : List Item, Value.encodeAll (values xs) = .ok (encodeAll xs)
  | [] => rfl
  | x :: xs => by
    rw [values, Value.encodeAll, encode_value x, encodeAll_values xs]
    rfl

end

theorem flatten_encode (xs : List Item) : (xs.map encode).flatten = encodeAll xs := by
  induction xs with
  | nil => rfl
  | cons x xs ih => rw [List.map_cons, List.flatten_cons, ih, encodeAll]

/-- An item in a list is shorter than the list. -/
theorem length_lt_of_mem {xs : List Item} (hx : x ∈ xs) :
    x.encode.length < (Item.list xs).encode.length := by
  have hle : x.encode.length ≤ (encodeAll xs).length := by
    induction xs with
    | nil => cases hx
    | cons y ys ih =>
      rw [encodeAll, List.length_append]
      rcases List.mem_cons.mp hx with rfl | hx
      · omega
      · have := ih hx
        omega
  have hpos := header_length_pos .list (encodeAll xs).length
  have henc : (Item.list xs).encode.length =
      (header .list (encodeAll xs).length).length + (encodeAll xs).length := List.length_append
  omega

end Item

/-- `decodeInterface` into a nil interface, which stays nil on an error. Every open list takes at
least one byte of the input, so `depth`, a bound on the nesting, is not reached when it exceeds the
number of bytes. The error of `List` in `decodeListSlice` is the only one that mentions a type,
and it does not occur behind a header of a list. -/
def decodeInterface : ℕ → Stream → Option Item × Option Err × Stream
  | 0, s => (none, some .diverges, s)
  | depth + 1, s =>
    match s.kindOf with
    | (_, _, some e, s) => (none, some e, s)
    | (.list, _, none, s) =>
      match decodeListSlice (decodeInterface depth) (.slice .bytes) s with
      | (_, some e, s) => (none, some e, s)
      | (xs, none, s) => (some (.list (xs.filterMap id)), none, s)
    | (_, _, none, s) =>
      match s.bytes with
      | (_, some e, s) => (none, some e, s)
      | (b, none, s) => (some (.str b), none, s)

/-- `DecodeBytes` into a nil interface. -/
def decodeInterfaceBytes (b : List UInt8) : Option Item × Option Err :=
  match decodeInterface (b.length + 1) (newStream b b.length) with
  | (v, some e, _) => (v, some e)
  | (v, none, s) => (v, if s.input.length > 0 then some .moreThanOneValue else none)

/-- `Kind` remembers what it returned. -/
theorem kindOf_again (h : s.kindOf = (k, size, none, s₁)) : s₁.kindOf = (k, size, none, s₁) := by
  have hfetch {s₂ : Stream} (h : s₂.fetchKind = (k, size, none, s₁)) :
      s₁.kindOf = (k, size, none, s₁) := by
    unfold Stream.fetchKind at h
    split at h
    · cases h
    · simp only [Prod.mk.injEq] at h
      obtain ⟨rfl, rfl, herr, rfl⟩ := h
      simp [Stream.kindOf, herr]
  unfold Stream.kindOf at h
  split at h
  · next hkind =>
    simp only [Prod.mk.injEq] at h
    obtain ⟨rfl, rfl, herr, rfl⟩ := h
    simp [Stream.kindOf, hkind, herr]
  · dsimp only at h
    split at h
    · exact hfetch h
    · split_ifs at h
      · cases h
      · exact hfetch h

theorem bytes_kindOf (h : s.kindOf = (k, size, none, s₁)) : s₁.bytes = s.bytes := by
  rw [Stream.bytes, kindOf_again h, Stream.bytes, h]

theorem list_kindOf (h : s.kindOf = (k, size, none, s₁)) : s₁.list = s.list := by
  rw [Stream.list, kindOf_again h, Stream.list, h]

/-- `List` succeeds behind the header of a list only. -/
theorem kindOf_of_list {n : ℕ} (h : s.list = (n, none, s')) :
    ∃ s₁, s.kindOf = (.list, n, none, s₁) := by
  unfold Stream.list at h
  split at h
  · cases h
  · next heq =>
    cases h
    exact ⟨_, heq⟩
  · cases h

/-- A list in front of the stream goes to `decodeListSlice`. -/
theorem decodeInterface_list (h : s.kindOf = (.list, size, none, s₁)) (depth : ℕ) :
    decodeInterface (depth + 1) s =
      match decodeListSlice (decodeInterface depth) (.slice .bytes) s with
      | (_, some e, s) => (none, some e, s)
      | (xs, none, s) => (some (.list (xs.filterMap id)), none, s) := by
  have hslice : decodeListSlice (decodeInterface depth) (.slice .bytes) s₁ =
      decodeListSlice (decodeInterface depth) (.slice .bytes) s := by
    rw [decodeListSlice, list_kindOf h, decodeListSlice]
  simp only [decodeInterface, h, hslice]

/-- A byte or string in front of the stream goes to `Bytes`. -/
theorem decodeInterface_string (hk : k ≠ .list) (h : s.kindOf = (k, size, none, s₁)) (depth : ℕ) :
    decodeInterface (depth + 1) s =
      match s.bytes with
      | (_, some e, s) => (none, some e, s)
      | (b, none, s) => (some (.str b), none, s) := by
  rw [← bytes_kindOf h]
  cases k with
  | list => exact absurd rfl hk
  | byte => simp only [decodeInterface, h]
  | string => simp only [decodeInterface, h]

theorem stopsAtEnd_decodeInterface (depth : ℕ) : StopsAtEnd (decodeInterface (depth + 1)) := by
  intro s inp st n h
  exact ⟨none, by simp only [decodeInterface, kindOf_eol h]⟩

/-- Byte strings are read. -/
theorem readsAs_str (hlt : (encodeString b).length < 2 ^ 64) (depth : ℕ) :
    ReadsAs (decodeInterface (depth + 1)) (some (.str b)) (encodeString b) := by
  have hle := length_le_encodeString b
  refine ⟨encodeString_length_pos b, fun {s rest st} h hroom => ?_⟩
  obtain ⟨s', hbytes, hready⟩ := bytes_encodeString (by omega) h hroom
  refine ⟨s', ?_, hready⟩
  rcases hkind : s.kindOf with ⟨k, size, err, s₁⟩
  cases err with
  | some e => simp [Stream.bytes, hkind] at hbytes
  | none =>
    by_cases hk : k = .list
    · subst hk
      simp [Stream.bytes, hkind] at hbytes
    · rw [decodeInterface_string hk hkind, hbytes]

/-- Every item is read at its encoding. -/
theorem readsAs_item (hdepth : x.encode.length < depth) (hlt : x.encode.length < 2 ^ 64) :
    ReadsAs (decodeInterface depth) (some x) x.encode := by
  induction depth generalizing x with
  | zero => omega
  | succ depth ih =>
    cases x with
    | str b => exact readsAs_str hlt depth
    | list xs =>
      have hmem : List.Forall₂ (ReadsAs (decodeInterface depth)) (xs.map some)
          (xs.map Item.encode) := by
        rw [List.forall₂_map_left_iff, List.forall₂_map_right_iff, List.forall₂_same]
        intro x hx
        have hshort := Item.length_lt_of_mem hx
        exact ih (by omega) (by omega)
      have hflat := Item.flatten_encode xs
      have hlen : (Item.encodeAll xs).length < (Item.list xs).encode.length := by
        have hpos := header_length_pos .list (Item.encodeAll xs).length
        have henc : (Item.list xs).encode.length =
            (header .list (Item.encodeAll xs).length).length + (Item.encodeAll xs).length :=
          List.length_append
        omega
      obtain ⟨d, rfl⟩ : ∃ d, depth = d + 1 := ⟨depth - 1, by omega⟩
      have hslice := decodeListSlice_reads (stopsAtEnd_decodeInterface d) hmem
        (by rw [hflat]; omega) (.slice .bytes)
      rw [hflat] at hslice
      refine ⟨hslice.pos, fun {s rest st} h hroom => ?_⟩
      obtain ⟨s', hread, hready⟩ := hslice.reads h hroom
      obtain ⟨s₁, hlist, -⟩ := list_encodeList (by omega) h hroom
      obtain ⟨s₂, hkind⟩ := kindOf_of_list hlist
      refine ⟨s', ?_, hready⟩
      rw [decodeInterface_list hkind, hread]
      simp

/-- What an interface holds is related to its encoding. -/
def Encodes (v : Option Item) (c : List UInt8) : Prop := ∃ x, v = some x ∧ c = x.encode

/-- The elements of a list are related to their encodings. -/
theorem exists_items {vs : List (Option Item)} {cs : List (List UInt8)}
    (h : List.Forall₂ Encodes vs cs) :
    ∃ xs, vs = xs.map some ∧ cs.flatten = Item.encodeAll xs := by
  induction h with
  | nil => exact ⟨[], rfl, rfl⟩
  | cons hv _ ih =>
    obtain ⟨x, rfl, rfl⟩ := hv
    obtain ⟨xs, rfl, hcs⟩ := ih
    exact ⟨x :: xs, rfl, by rw [List.flatten_cons, hcs, Item.encodeAll]⟩

/-- `decodeInterface` returns an item only if the input starts with its encoding. -/
theorem decodeInterface_ok (hdec : Accepts (decodeInterface depth) Encodes) (h : Ready s inp st)
    (htop : Room st 0) (hok : decodeInterface (depth + 1) s = (v, none, s')) :
    ∃ c rest, inp = c ++ rest ∧ Room st c.length ∧ Encodes v c ∧
      Ready s' rest (advance st c.length) := by
  rcases hkind : s.kindOf with ⟨k, size, err, s₁⟩
  cases err with
  | some e => simp [decodeInterface, hkind] at hok
  | none =>
    by_cases hk : k = .list
    · subst hk
      rw [decodeInterface_list hkind] at hok
      split at hok
      · cases hok
      · next vs s₂ hslice =>
        cases hok
        obtain ⟨cs, rest, hcs, hinp, hroom, hready⟩ := decodeListSlice_ok hdec h htop hslice
        obtain ⟨xs, rfl, hflat⟩ := exists_items hcs
        exact ⟨_, rest, hinp, hroom, ⟨.list xs, by simp, by rw [hflat]; rfl⟩, hready⟩
    · rw [decodeInterface_string hk hkind] at hok
      split at hok
      · cases hok
      · next b s₂ hbytes =>
        cases hok
        obtain ⟨rest, hinp, hroom, hready⟩ := bytes_ok h htop hbytes
        exact ⟨_, rest, hinp, hroom, ⟨.str b, rfl, rfl⟩, hready⟩

/-- `decodeInterface` reports `EOL` only without having read anything. -/
theorem decodeInterface_eol_ok (h : Ready s inp st)
    (hok : decodeInterface (depth + 1) s = (v, some .eol, s')) : Ready s' inp st := by
  rcases hkind : s.kindOf with ⟨k, size, err, s₁⟩
  cases err with
  | some e =>
    simp only [decodeInterface, hkind, Prod.mk.injEq, Option.some.injEq] at hok
    obtain ⟨-, rfl, rfl⟩ := hok
    exact kindOf_eol_ok h hkind
  | none =>
    by_cases hk : k = .list
    · subst hk
      rw [decodeInterface_list hkind] at hok
      split at hok
      · next heq =>
        cases hok
        exact decodeListSlice_eol_ok h heq
      · cases hok
    · rw [decodeInterface_string hk hkind] at hok
      split at hok
      · next heq =>
        cases hok
        exact bytes_eol_ok h heq
      · cases hok

/-- `decodeInterface` accepts encodings of items only. -/
theorem accepts_decodeInterface (depth : ℕ) : Accepts (decodeInterface depth) Encodes := by
  induction depth with
  | zero => exact ⟨fun _ _ h => (nomatch h), fun _ _ h => (nomatch h)⟩
  | succ depth ih =>
    exact ⟨fun h htop hok => .inr (decodeInterface_ok ih h htop hok),
      fun h _ hok => decodeInterface_eol_ok h hok⟩

/-- What `decodeInterface` returns from a fresh stream stands in front of the input. -/
theorem decodeInterface_newStream_ok
    (h : decodeInterface depth (newStream b b.length) = (v, none, s)) :
    ∃ x, v = some x ∧ b = x.encode ++ s.input := by
  cases depth with
  | zero => cases h
  | succ depth =>
    obtain ⟨c, rest, hinp, -, ⟨x, hv, rfl⟩, hready⟩ :=
      decodeInterface_ok (accepts_decodeInterface depth) (ready_newStream b) trivial h
    exact ⟨x, hv, by rw [hinp, hready.input]⟩

/-- A deeper bound on the nesting accepts nothing more. -/
theorem decodeInterface_depth (hb : b.length < 2 ^ 64)
    (h : decodeInterface depth (newStream b b.length) = (some x, none, s)) :
    ∃ s', decodeInterface (b.length + 1) (newStream b b.length) = (some x, none, s') ∧
      s'.input = s.input := by
  obtain ⟨y, hy, hinp⟩ := decodeInterface_newStream_ok h
  cases hy
  have hle : x.encode.length ≤ b.length := by
    rw [hinp, List.length_append]
    omega
  have hready : Ready (newStream b b.length) (x.encode ++ s.input) [] := hinp ▸ ready_newStream b
  have hreads : ReadsAs (decodeInterface (b.length + 1)) (some x) x.encode :=
    readsAs_item (by omega) (by omega)
  obtain ⟨s', hs', hready'⟩ := hreads.reads hready trivial
  exact ⟨s', hs', hready'.input⟩

/-- `DecodeBytes` accepts the encoding of an item. -/
theorem decodeInterfaceBytes_encode (hlt : x.encode.length < 2 ^ 64) :
    decodeInterfaceBytes x.encode = (some x, none) := by
  have hready : Ready (newStream x.encode x.encode.length) (x.encode ++ []) [] := by
    simpa using ready_newStream x.encode
  obtain ⟨s', hs', hready'⟩ :=
    (readsAs_item (Nat.lt_succ_self x.encode.length) hlt).reads hready trivial
  have hinput : s'.input = [] := hready'.input
  simp [decodeInterfaceBytes, hs', hinput]

/-- `DecodeBytes` accepts nothing but the encoding of an item. -/
theorem decodeInterfaceBytes_ok (h : (decodeInterfaceBytes b).2 = none) :
    ∃ x, decodeInterfaceBytes b = (some x, none) ∧ b = x.encode := by
  rcases hdec : decodeInterface (b.length + 1) (newStream b b.length) with ⟨v, err, s⟩
  cases err with
  | some e => simp [decodeInterfaceBytes, hdec] at h
  | none =>
    obtain ⟨x, rfl, hinp⟩ := decodeInterface_newStream_ok hdec
    have hempty : s.input = [] := by
      by_contra hne
      have hpos := List.length_pos_iff.mpr hne
      simp [decodeInterfaceBytes, hdec, hpos] at h
    exact ⟨x, by simp [decodeInterfaceBytes, hdec, hempty], by rw [hinp, hempty, List.append_nil]⟩

/-- Item trees and the inputs that `DecodeBytes` accepts into an interface correspond to each
other: a tree whose encoding fits in a slice is decoded from it, an input that is accepted is
the encoding of the tree that it is decoded to, and no other input is decoded to this tree. -/
theorem decodeInterfaceBytes_bijective :
    (∀ x : Item, x.encode.length < 2 ^ 63 →
        x.value.encodeToBytes = .ok x.encode ∧ decodeInterfaceBytes x.encode = (some x, none)) ∧
      (∀ b : SliceBytes, (decodeInterfaceBytes b.val).2 = none →
        ∃ x : Item, decodeInterfaceBytes b.val = (some x, none) ∧
          x.value.encodeToBytes = .ok b.val) ∧
      ∀ (b b' : SliceBytes) (x : Item), decodeInterfaceBytes b.val = (some x, none) →
        decodeInterfaceBytes b'.val = (some x, none) → b.val = b'.val := by
  refine ⟨fun x hlt => ?_, fun b hok => ?_, fun b b' x h h' => ?_⟩
  · exact ⟨Value.encodeToBytes_eq_ok.mpr ⟨x.encode_value, hlt⟩,
      decodeInterfaceBytes_encode (hlt.trans (by decide))⟩
  · obtain ⟨x, hx, hb⟩ := decodeInterfaceBytes_ok hok
    exact ⟨x, hx, Value.encodeToBytes_eq_ok.mpr ⟨hb ▸ x.encode_value, b.property⟩⟩
  · obtain ⟨y, hy, hb⟩ := decodeInterfaceBytes_ok (b := b.val) (by rw [h])
    obtain ⟨y', hy', hb'⟩ := decodeInterfaceBytes_ok (b := b'.val) (by rw [h'])
    rw [h] at hy
    rw [h'] at hy'
    cases hy
    cases hy'
    rw [hb, hb']

end Hashgrid.Rlp
