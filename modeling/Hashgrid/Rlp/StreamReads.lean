import Hashgrid.Rlp.Stream

/-!
# Reading well-formed input from a stream

These lemmas follow the stream over an input that starts with a complete header or
value and fits in the innermost open list. Each of them says what is read and where
the stream stands afterwards.
-/

namespace Hashgrid.Rlp

open Hashgrid.Bytes

/-- The innermost open list has room for `n` more bytes. -/
def Room : List ListPos → ℕ → Prop
  | [], _ => True
  | tos :: _, n => tos.pos + n ≤ tos.size ∧ tos.size < 2 ^ 64

/-- The open lists after `n` bytes were read. -/
def advance : List ListPos → ℕ → List ListPos
  | [], _ => []
  | tos :: rest, n => ⟨tos.pos + n, tos.size⟩ :: rest

@[simp] theorem advance_advance (st : List ListPos) (m n : ℕ) :
    advance (advance st m) n = advance st (m + n) := by
  cases st <;> simp [advance, Nat.add_assoc]

@[simp] theorem advance_zero (st : List ListPos) : advance st 0 = st := by
  cases st <;> simp [advance]

variable {st : List ListPos} {m n size : ℕ} {s : Stream} {inp rest : List UInt8} {b : UInt8}
  {k : Kind}

theorem Room.mono (h : Room st n) (hmn : m ≤ n) : Room st m := by
  cases st with
  | nil => trivial
  | cons tos rest => exact ⟨by have := h.1; omega, h.2⟩

theorem Room.advance (h : Room st (m + n)) : Room (advance st m) n := by
  cases st with
  | nil => trivial
  | cons tos rest => exact ⟨by have := h.1; simp only; omega, h.2⟩

theorem Room.of_advance (h : Room (Rlp.advance st m) n) : Room st (m + n) := by
  cases st with
  | nil => trivial
  | cons tos rest => exact ⟨by have := h.1; simp only at this; omega, h.2⟩

theorem sub64_of_le {a b : ℕ} (h : b ≤ a) (ha : a < 2 ^ 64) : sub64 a b = a - b := by
  have hsum : a + 2 ^ 64 - b = a - b + 2 ^ 64 := by omega
  rw [sub64, hsum, Nat.add_mod_right, Nat.mod_eq_of_lt (by omega)]

/-- The stream still has `inp` to read, under the open lists `st`, and its input limit is
the length of the input. -/
structure At (s : Stream) (inp : List UInt8) (st : List ListPos) : Prop where
  /-- An input limit is set. -/
  limited : s.limited = true
  /-- The unread input. -/
  input : s.input = inp
  /-- The limit is the length of the unread input. -/
  remaining : s.remaining = inp.length
  /-- The open lists. -/
  stack : s.stack = st

theorem At.remember (h : At s inp st) (kind : Option Kind) (size : ℕ) (byteval : UInt8)
    (kinderr : Option Err) :
    At { s with kind := kind, size := size, byteval := byteval, kinderr := kinderr } inp st :=
  ⟨h.limited, h.input, h.remaining, h.stack⟩

/-- A stream that stands in front of a value whose header it has not looked at. -/
structure Ready (s : Stream) (inp : List UInt8) (st : List ListPos) : Prop extends At s inp st where
  /-- No kind is cached. -/
  kind : s.kind = none

theorem ready_newStream (b : List UInt8) : Ready (newStream b b.length) b [] := by
  refine ⟨⟨rfl, rfl, ?_, rfl⟩, rfl⟩
  simp [newStream]

/-- `willRead` of bytes that are there. -/
theorem willRead_at (h : At s inp st) (hn : n ≤ inp.length) (hroom : Room st n) :
    s.willRead n = (none,
      { s with kind := none, stack := advance st n, remaining := inp.length - n }) := by
  have hrem : ¬ n > inp.length := by omega
  cases st with
  | nil =>
    simp [Stream.willRead, Stream.takeRemaining, h.stack, h.limited, h.remaining, hrem, advance]
  | cons tos rest =>
    obtain ⟨hle, hlt⟩ := hroom
    have hsub : ¬ n > sub64 tos.size tos.pos := by
      rw [sub64_of_le (by omega) hlt]
      omega
    have hadd : add64 tos.pos n = tos.pos + n := Nat.mod_eq_of_lt (by omega)
    simp [Stream.willRead, Stream.takeRemaining, h.stack, h.limited, h.remaining, hrem, hsub, hadd,
      advance]

/-- `readFull` of bytes that are there. -/
theorem readFull_at {b : List UInt8} (h : At s (b ++ rest) st) (hroom : Room st b.length) :
    ∃ s', s.readFull b.length = (b, none, s') ∧ Ready s' rest (advance st b.length) := by
  have hwill := willRead_at h (by simp) hroom
  simp only [Stream.readFull, hwill, h.input, List.take_left, List.drop_left, lt_irrefl, if_false]
  exact ⟨_, rfl, ⟨h.limited, rfl, by simp, rfl⟩, rfl⟩

/-- `readByte` of a byte that is there. -/
theorem readByte_at (h : At s (b :: rest) st) (hroom : Room st 1) :
    ∃ s', s.readByte = (b, none, s') ∧ Ready s' rest (advance st 1) := by
  have hwill := willRead_at h (by simp) hroom
  simp only [Stream.readByte, hwill, h.input]
  exact ⟨_, rfl, ⟨h.limited, rfl, by simp, rfl⟩, rfl⟩

/-- `readUint` of a number that `putint` wrote. -/
theorem readUint_at (hpos : 0 < n) (hlt : n < 2 ^ 64) (h : At s (putint n ++ rest) st)
    (hroom : Room st (putint n).length) :
    ∃ s', s.readUint (putint n).length = (n, none, s') ∧
      Ready s' rest (advance st (putint n).length) := by
  have hbytes := putint_eq_natBytes hpos hlt
  have hspec := (putint_length_spec n).1
  by_cases hone : (putint n).length = 1
  · obtain ⟨x, hx⟩ := List.length_eq_one_iff.mp hone
    have hn : x.toNat = n := by
      have := bytesNat_putint hpos hlt
      rw [hx] at this
      simpa [bytesNat] using this
    rw [hx] at h hroom
    obtain ⟨s', hread, hready⟩ := readByte_at h hroom
    exact ⟨s', by rw [hx]; simp [Stream.readUint, hread, hn], by rw [hx]; exact hready⟩
  · obtain ⟨s', hread, hready⟩ := readFull_at h hroom
    have hhead : ¬ (putint n).head? = some 0 := by
      rw [hbytes]
      exact natBytes_head?_ne_zero n
    refine ⟨s', ?_, hready⟩
    unfold Stream.readUint
    split
    · omega
    · omega
    · simp [hread, hhead, bytesNat_putint hpos hlt]

/-- The tags of a header by the kind of its value: for sizes below 56 and for larger ones. -/
def headTags : Kind → UInt8 × UInt8
  | .list => (0xC0, 0xF7)
  | _ => (0x80, 0xB7)

/-- The header of a string or of a list. -/
def header (k : Kind) (size : ℕ) : List UInt8 := puthead (headTags k).1 (headTags k).2 size

theorem header_length_pos (k : Kind) (size : ℕ) : 1 ≤ (header k size).length := by
  unfold header puthead
  split <;> simp

/-- `readKind` at a byte below `0x80`. -/
theorem readKind_byte (hb : b < 0x80) (h : At s (b :: rest) st) (hroom : Room st 1) :
    ∃ s', s.readKind = (.byte, 0, none, s') ∧ At s' rest (advance st 1) ∧ s'.byteval = b := by
  obtain ⟨s', hread, hready⟩ := readByte_at h hroom
  refine ⟨{ s' with byteval := b }, ?_, ⟨hready.limited, hready.input, hready.remaining,
    hready.stack⟩, rfl⟩
  simp [Stream.readKind, hread, hb]

/-- How `readKind` classifies the tags of short strings and lists. -/
theorem smallTag_cases : ∀ size < 56,
    (¬ 0x80 + byte size < 0x80 ∧ 0x80 + byte size < 0xB8 ∧
      (0x80 + byte size - 0x80).toNat = size) ∧
    (¬ 0xC0 + byte size < 0x80 ∧ ¬ 0xC0 + byte size < 0xB8 ∧ ¬ 0xC0 + byte size < 0xC0 ∧
      0xC0 + byte size < 0xF8 ∧ (0xC0 + byte size - 0xC0).toNat = size) := by
  decide

/-- How `readKind` classifies the tags of long strings and lists. -/
theorem largeTag_cases : ∀ n < 9, 1 ≤ n →
    (¬ 0xB7 + byte n < 0x80 ∧ ¬ 0xB7 + byte n < 0xB8 ∧ 0xB7 + byte n < 0xC0 ∧
      (0xB7 + byte n - 0xB7).toNat = n) ∧
    (¬ 0xF7 + byte n < 0x80 ∧ ¬ 0xF7 + byte n < 0xB8 ∧ ¬ 0xF7 + byte n < 0xC0 ∧
      ¬ 0xF7 + byte n < 0xF8 ∧ (0xF7 + byte n - 0xF7).toNat = n) := by
  decide

/-- `readKind` at the header of a string or list. -/
theorem readKind_header (hk : k ≠ .byte) (hlt : size < 2 ^ 64) (h : At s (header k size ++ rest) st)
    (hroom : Room st (header k size).length) :
    ∃ s', s.readKind = (k, size, none, s') ∧ At s' rest (advance st (header k size).length) := by
  by_cases hsmall : size < 56
  · have hhead : header k size = [(headTags k).1 + byte size] := by simp [header, puthead, hsmall]
    rw [hhead] at h hroom ⊢
    obtain ⟨s', hread, hready⟩ := readByte_at h hroom
    refine ⟨{ s' with byteval := 0 }, ?_, ⟨hready.limited, hready.input, hready.remaining,
      hready.stack⟩⟩
    obtain ⟨⟨a1, a2, a3⟩, ⟨b1, b2, b3, b4, b5⟩⟩ := smallTag_cases size hsmall
    cases k with
    | byte => exact absurd rfl hk
    | string => simp only [Stream.readKind, hread, headTags, if_neg a1, if_pos a2, a3]
    | list =>
      simp only [Stream.readKind, hread, headTags, if_neg b1, if_neg b2, if_neg b3, if_pos b4, b5]
  · have hhead : header k size =
        ((headTags k).2 + byte (putint size).length) :: putint size := by
      simp [header, puthead, hsmall]
    rw [hhead] at h hroom ⊢
    rw [List.length_cons, Nat.add_comm] at hroom ⊢
    obtain ⟨s₁, hread, hready⟩ := readByte_at h (hroom.mono (by omega))
    have hat : At { s₁ with byteval := 0 } (putint size ++ rest) (advance st 1) :=
      hready.remember ..
    obtain ⟨s', huint, hready'⟩ := readUint_at (by omega) hlt hat hroom.advance
    have hspec := (putint_length_spec size).1
    obtain ⟨⟨a1, a2, a3, a4⟩, ⟨b1, b2, b3, b4, b5⟩⟩ :=
      largeTag_cases (putint size).length (by omega) hspec.1
    refine ⟨s', ?_, by simpa using hready'.toAt⟩
    cases k with
    | byte => exact absurd rfl hk
    | string =>
      simp only [Stream.readKind, hread, headTags, if_neg a1, if_neg a2, if_pos a3, a4, huint,
        Stream.checkSize, if_neg hsmall]
    | list =>
      simp only [Stream.readKind, hread, headTags, if_neg b1, if_neg b2, if_neg b3, if_neg b4, b5,
        huint, Stream.checkSize, if_neg hsmall]

/-- A stream that has looked at a value of kind `k` and size `size` and stands at its
content. -/
structure Holds (s : Stream) (k : Kind) (size : ℕ) (inp : List UInt8) (st : List ListPos) : Prop
    extends At s inp st where
  /-- The cached kind. -/
  kind : s.kind = some k
  /-- The cached size. -/
  size_eq : s.size = size
  /-- No error is cached. -/
  kinderr : s.kinderr = none

/-- Inside a list that has room for a byte, `Kind` fetches the next header. -/
theorem kindOf_ready (h : Ready s inp st) (hroom : Room st 1) :
    s.kindOf = Stream.fetchKind { s with kinderr := none } := by
  cases st with
  | nil => simp [Stream.kindOf, h.kind, h.stack]
  | cons tos rest =>
    have hne : ¬ tos.pos = tos.size := by have := hroom.1; omega
    simp [Stream.kindOf, h.kind, h.stack, hne]

/-- A value that fits passes the size checks of `Kind`. -/
theorem sizeErr_at (h : At s inp st) (hsize : size ≤ inp.length) (hroom : Room st size) :
    s.sizeErr size = none := by
  cases st with
  | nil =>
    have hle : ¬ size > inp.length := by omega
    simp [Stream.sizeErr, h.stack, h.remaining, hle]
  | cons tos rest =>
    obtain ⟨hle, hlt⟩ := hroom
    have hsub : ¬ size > sub64 tos.size tos.pos := by
      rw [sub64_of_le (by omega) hlt]
      omega
    simp [Stream.sizeErr, h.stack, hsub]

/-- `Kind` at a byte below `0x80`. -/
theorem kindOf_byte (hb : b < 0x80) (h : Ready s (b :: rest) st) (hroom : Room st 1) :
    ∃ s', s.kindOf = (.byte, 0, none, s') ∧ Holds s' .byte 0 rest (advance st 1) ∧
      s'.byteval = b := by
  have hat : At { s with kinderr := none } (b :: rest) st :=
    h.remember ..
  obtain ⟨s₁, hread, hat₁, hval⟩ := readKind_byte hb hat hroom
  have herr := sizeErr_at hat₁ (Nat.zero_le _) (Room.advance hroom)
  rw [kindOf_ready h hroom, Stream.fetchKind, hread]
  simp only [herr]
  exact ⟨_, rfl, ⟨hat₁.remember .., rfl, rfl, rfl⟩, hval⟩

/-- `Kind` at a string or list that is there as a whole. -/
theorem kindOf_header {c : List UInt8} (hk : k ≠ .byte) (hlt : c.length < 2 ^ 64)
    (h : Ready s (header k c.length ++ (c ++ rest)) st)
    (hroom : Room st ((header k c.length).length + c.length)) :
    ∃ s', s.kindOf = (k, c.length, none, s') ∧
      Holds s' k c.length (c ++ rest) (advance st (header k c.length).length) := by
  have hpos := header_length_pos k c.length
  have hat : At { s with kinderr := none } (header k c.length ++ (c ++ rest)) st :=
    h.remember ..
  obtain ⟨s₁, hread, hat₁⟩ := readKind_header hk hlt hat (hroom.mono (by omega))
  have herr := sizeErr_at hat₁ (by simp) hroom.advance
  rw [kindOf_ready h (hroom.mono (by omega)), Stream.fetchKind, hread]
  simp only [herr]
  exact ⟨_, rfl, ⟨hat₁.remember .., rfl, rfl, rfl⟩⟩

theorem kindOf_eol (h : Ready s inp (⟨n, n⟩ :: st)) :
    s.kindOf = (.byte, 0, some .eol, { s with kinderr := none }) := by
  simp [Stream.kindOf, h.kind, h.stack]

end Hashgrid.Rlp
