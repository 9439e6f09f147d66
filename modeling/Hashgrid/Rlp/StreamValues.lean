import Hashgrid.Rlp.EncodeSemantics
import Hashgrid.Rlp.StreamReads

/-!
# Reading encoded strings, integers and lists

What `Bytes`, `uint`, `List` and `ListEnd` return on the encodings that
`EncodeToBytes` produces.
-/

namespace Hashgrid.Rlp

open Hashgrid.Bytes

variable {c rest : List UInt8} {n : ℕ} {st : List ListPos} {s : Stream}

/-- A string of other than one small byte is encoded with a header. -/
theorem encodeString_of_header (hc : ∀ x, c = [x] → ¬ x ≤ 0x7F) :
    encodeString c = header .string c.length ++ c := by
  match c, hc with
  | [], _ => rfl
  | [x], hc => simp [encodeString, hc x rfl, header, headTags]
  | _ :: _ :: _, _ => rfl

theorem small_byte_iff (x : UInt8) : x ≤ 0x7F ↔ x < 0x80 := by
  rw [UInt8.le_iff_toNat_le, UInt8.lt_iff_toNat_lt]
  exact Nat.lt_succ_iff.symm

/-- A string that is encoded with a header passes the check for a superfluous one. -/
theorem not_small_of_header (hc : ∀ x, c = [x] → ¬ x ≤ 0x7F) :
    ¬ (c.length = 1 ∧ c.headD 0 < 128) := by
  rintro ⟨hone, hhead⟩
  obtain ⟨x, rfl⟩ := List.length_eq_one_iff.mp hone
  exact hc x rfl ((small_byte_iff x).mpr hhead)

/-- An encoded string has at least one byte. -/
theorem encodeString_length_pos (c : List UInt8) : 1 ≤ (encodeString c).length := by
  by_cases hsingle : ∃ x, c = [x] ∧ x ≤ 0x7F
  · obtain ⟨x, rfl, hx⟩ := hsingle
    simp [encodeString, hx]
  · have henc := encodeString_of_header (c := c) fun x hc hle => hsingle ⟨x, hc, hle⟩
    have := header_length_pos .string c.length
    rw [henc, List.length_append]
    omega

/-- An encoded list has at least one byte. -/
theorem encodeList_length_pos (c : List UInt8) : 1 ≤ (encodeList c).length := by
  have := header_length_pos .list c.length
  have henc : encodeList c = header .list c.length ++ c := rfl
  rw [henc, List.length_append]
  omega

/-- A string is not longer than its encoding. -/
theorem length_le_encodeString (c : List UInt8) : c.length ≤ (encodeString c).length := by
  by_cases hsingle : ∃ x, c = [x] ∧ x ≤ 0x7F
  · obtain ⟨x, rfl, hx⟩ := hsingle
    simp [encodeString, hx]
  · rw [encodeString_of_header fun x hc hle => hsingle ⟨x, hc, hle⟩, List.length_append]
    omega

theorem header_string_small (hn : n < 56) : header .string n = [0x80 + byte n] := by
  simp [header, puthead, headTags, hn]

/-- The size of a header grows with the size of the contents. -/
theorem headsize_mono {m : ℕ} (hmn : m ≤ n) : headsize m ≤ headsize n := by
  have hlen := putint_length_mono hmn
  unfold headsize
  split_ifs
  · exact le_refl _
  · omega
  · omega
  · rw [intsize_eq_length, intsize_eq_length]
    omega

/-- Header and contents determine the contents. -/
theorem header_append_injective {k : Kind} {c' : List UInt8}
    (h : header k c.length ++ c = header k c'.length ++ c') : c = c' := by
  have hsize (n : ℕ) : (header k n).length = headsize n := (headsize_eq_length _ _ _).symm
  have hlen := congrArg List.length h
  rw [List.length_append, List.length_append, hsize, hsize] at hlen
  have heq : c.length = c'.length := by
    rcases Nat.lt_trichotomy c.length c'.length with hlt | heq | hlt
    · have := headsize_mono hlt.le
      omega
    · exact heq
    · have := headsize_mono hlt.le
      omega
  rw [heq] at h
  exact List.append_cancel_left h

theorem encodeList_injective : Function.Injective encodeList :=
  fun _ _ h => header_append_injective (k := .list) h

/-- A header in front of contents is not a byte up to `0x7F`. -/
theorem header_append_ne_small {x : UInt8} (hx : x ≤ 0x7F) :
    header .string c.length ++ c ≠ [x] := by
  intro h
  have hpos := header_length_pos .string c.length
  have hlen := congrArg List.length h
  rw [List.length_append, List.length_singleton] at hlen
  have hc : c = [] := List.length_eq_zero_iff.mp (by omega)
  subst hc
  have h80 : x = 0x80 := (List.singleton_injective h).symm
  rw [h80] at hx
  exact absurd hx (by decide)

/-- Different byte strings have different encodings. -/
theorem encodeString_injective : Function.Injective encodeString := by
  intro c c' h
  by_cases hc : ∃ x, c = [x] ∧ x ≤ 0x7F
  · obtain ⟨x, rfl, hx⟩ := hc
    have henc : encodeString [x] = [x] := by simp [encodeString, hx]
    by_cases hc' : ∃ x, c' = [x] ∧ x ≤ 0x7F
    · obtain ⟨y, rfl, hy⟩ := hc'
      simpa [encodeString, hx, hy] using h
    · rw [henc, encodeString_of_header fun x hc hle => hc' ⟨x, hc, hle⟩] at h
      exact absurd h.symm (header_append_ne_small hx)
  · rw [encodeString_of_header fun x hx hle => hc ⟨x, hx, hle⟩] at h
    by_cases hc' : ∃ x, c' = [x] ∧ x ≤ 0x7F
    · obtain ⟨y, rfl, hy⟩ := hc'
      have henc : encodeString [y] = [y] := by simp [encodeString, hy]
      rw [henc] at h
      exact absurd h (header_append_ne_small hy)
    · rw [encodeString_of_header fun x hx hle => hc' ⟨x, hx, hle⟩] at h
      exact header_append_injective h

/-- `Bytes` returns the contents of an encoded string. -/
theorem bytes_encodeString (hlt : c.length < 2 ^ 64) (h : Ready s (encodeString c ++ rest) st)
    (hroom : Room st (encodeString c).length) :
    ∃ s', s.bytes = (c, none, s') ∧ Ready s' rest (advance st (encodeString c).length) := by
  by_cases hsingle : ∃ x, c = [x] ∧ x ≤ 0x7F
  · obtain ⟨x, rfl, hx⟩ := hsingle
    have henc : encodeString [x] = [x] := by simp [encodeString, hx]
    rw [henc] at h hroom ⊢
    obtain ⟨s', hkind, hholds, hval⟩ := kindOf_byte ((small_byte_iff x).mp hx) h hroom
    refine ⟨{ s' with kind := none }, ?_, ⟨⟨hholds.limited, hholds.input, hholds.remaining,
      hholds.stack⟩, rfl⟩⟩
    simp [Stream.bytes, hkind, hval]
  · have hbig : ∀ x, c = [x] → ¬ x ≤ 0x7F := fun x hc hle => hsingle ⟨x, hc, hle⟩
    have henc := encodeString_of_header hbig
    rw [henc, List.append_assoc] at h
    rw [henc, List.length_append] at hroom ⊢
    obtain ⟨s₁, hkind, hholds⟩ := kindOf_header (by decide) hlt h hroom
    obtain ⟨s', hread, hready⟩ := readFull_at hholds.toAt hroom.advance
    refine ⟨s', ?_, by simpa using hready⟩
    simp only [Stream.bytes, hkind, hread, if_neg (not_small_of_header hbig)]

/-- `uint` returns an encoded unsigned integer of the width asked for. -/
theorem uint_encodeUint {i w : ℕ} (hdvd : 8 ∣ w) (hbits : 8 ≤ w ∧ w ≤ 64) (hi : i < 2 ^ w)
    (h : Ready s (encodeUint i ++ rest) st) (hroom : Room st (encodeUint i).length) :
    ∃ s', s.uint w = (i, none, s') ∧ Ready s' rest (advance st (encodeUint i).length) := by
  have hlt : i < 2 ^ 64 := lt_of_lt_of_le hi (Nat.pow_le_pow_right (by decide) hbits.2)
  unfold encodeUint at h hroom ⊢
  split_ifs at h hroom ⊢ with hzero hsmall
  · subst hzero
    obtain ⟨s', hkind, hholds⟩ := kindOf_header (k := .string) (c := []) (by decide)
      (by decide) h hroom
    refine ⟨{ s' with kind := none }, ?_, ⟨⟨hholds.limited, hholds.input, hholds.remaining,
      hholds.stack⟩, rfl⟩⟩
    simp [Stream.uint, hkind, Stream.readUint]
  · have hval : (byte i).toNat = i := by simp only [byte, UInt8.toNat_ofNat']; omega
    have hbyte : byte i < 0x80 := by rw [UInt8.lt_iff_toNat_lt, hval]; exact hsmall
    have hne : byte i ≠ 0 := by
      intro h0
      rw [h0] at hval
      exact hzero hval.symm
    obtain ⟨s', hkind, hholds, hbv⟩ := kindOf_byte hbyte h hroom
    refine ⟨{ s' with kind := none }, ?_, ⟨⟨hholds.limited, hholds.input, hholds.remaining,
      hholds.stack⟩, rfl⟩⟩
    simp [Stream.uint, hkind, hbv, hne, hval]
  · obtain ⟨⟨hone, height⟩, hlow, -⟩ := putint_length_spec i
    have hhead := header_string_small (n := (putint i).length) (by omega)
    have hwidth : (putint i).length ≤ w / 8 := by
      rcases hlow with hlen | hlow
      · omega
      · have := (Nat.pow_lt_pow_iff_right (by decide)).mp (lt_of_le_of_lt hlow hi)
        omega
    obtain ⟨s₁, hkind, hholds⟩ := kindOf_header (k := .string) (c := putint i) (by decide)
      (by omega) (by rw [hhead]; exact h) (by rw [hhead]; simpa [Nat.add_comm] using hroom)
    rw [List.length_cons, Nat.add_comm] at hroom ⊢
    rw [hhead] at hholds
    obtain ⟨s', huint, hready⟩ := readUint_at (by omega) hlt hholds.toAt hroom.advance
    refine ⟨s', ?_, by simpa using hready⟩
    have hfit : ¬ (putint i).length > w / 8 := by omega
    simp [Stream.uint, hkind, hfit, huint, hsmall]

/-- `List` opens an encoded list. -/
theorem list_encodeList (hlt : c.length < 2 ^ 64) (h : Ready s (encodeList c ++ rest) st)
    (hroom : Room st (encodeList c).length) :
    ∃ s', s.list = (c.length, none, s') ∧
      Ready s' (c ++ rest) (⟨0, c.length⟩ :: advance st (header .list c.length).length) := by
  have henc : encodeList c = header .list c.length ++ c := rfl
  rw [henc, List.append_assoc] at h
  rw [henc, List.length_append] at hroom
  obtain ⟨s₁, hkind, hholds⟩ := kindOf_header (by decide) hlt h hroom
  simp only [Stream.list, hkind]
  exact ⟨_, rfl, ⟨⟨hholds.limited, hholds.input, hholds.remaining, by simp [hholds.stack]⟩, rfl⟩⟩

/-- `ListEnd` at the end of a list returns to the enclosing one. -/
theorem listEnd_at {inp : List UInt8} (h : At s inp (⟨n, n⟩ :: st)) (hroom : Room st n) :
    ∃ s', s.listEnd = (none, s') ∧ Ready s' inp (advance st n) := by
  cases st with
  | nil =>
    refine ⟨{ s with stack := [], kind := none, size := 0 }, ?_,
      ⟨⟨h.limited, h.input, h.remaining, rfl⟩, rfl⟩⟩
    simp [Stream.listEnd, h.stack]
  | cons tos outers =>
    have hadd : add64 tos.pos n = tos.pos + n :=
      Nat.mod_eq_of_lt (by have := hroom.1; have := hroom.2; omega)
    refine ⟨{ s with stack := ⟨tos.pos + n, tos.size⟩ :: outers, kind := none, size := 0 }, ?_,
      ⟨⟨h.limited, h.input, h.remaining, rfl⟩, rfl⟩⟩
    simp [Stream.listEnd, h.stack, hadd]

end Hashgrid.Rlp
