import Hashgrid.Lib.Machine
import Hashgrid.Rlp.StreamAccepts

/-!
# Reading headers from a slice

`rlp/raw.go` has a second reader of headers, which works on a byte slice instead of a
stream. It accepts the same inputs as the stream and cuts them at the same places.
-/

namespace Hashgrid.Rlp

open Hashgrid.Bytes

/-- The `switch` of `readSize`, which has a case for every number of bytes: each byte is
shifted to its place. -/
def shifted : List UInt8 → ℕ
  | [] => 0
  | x :: b => x.toNat <<< (8 * b.length) ||| shifted b

/-- `readSize`. -/
def readSize (b : List UInt8) (slen : ℕ) : Except Err ℕ :=
  if slen > b.length then .error .unexpectedEOF
  else
    let s := shifted (b.take slen)
    if s < 56 ∨ b.headD 0 = 0 then .error .canonSize else .ok s

/-- The cases of `readKind` in `raw.go`: the kind and the sizes of tag and content. -/
def tagSizes (b : UInt8) (rest : List UInt8) : Except Err (Kind × ℕ × ℕ) :=
  if b < 0x80 then .ok (.byte, 0, 1)
  else if b < 0xB8 then
    if (b - 0x80).toNat = 1 ∧ 0 < rest.length ∧ rest.headD 0 < 128 then .error .canonSize
    else .ok (.string, 1, (b - 0x80).toNat)
  else if b < 0xC0 then
    (readSize rest (b - 0xB7).toNat).map fun contentsize =>
      (.string, (b - 0xB7).toNat + 1, contentsize)
  else if b < 0xF8 then .ok (.list, 1, (b - 0xC0).toNat)
  else
    (readSize rest (b - 0xF7).toNat).map fun contentsize =>
      (.list, (b - 0xF7).toNat + 1, contentsize)

/-- `readKind` of `raw.go`. -/
def sliceKind (buf : List UInt8) : Except Err (Kind × ℕ × ℕ) :=
  match buf with
  | [] => .error .unexpectedEOF
  | b :: rest =>
    match tagSizes b rest with
    | .error err => .error err
    | .ok (k, tagsize, contentsize) =>
      -- Reject values larger than the input slice.
      if contentsize > sub64 buf.length tagsize then .error .valueTooLarge
      else .ok (k, tagsize, contentsize)

/-- `Split`: the kind and content of the first value, the bytes after it, and the error. -/
def split (b : List UInt8) : Kind × List UInt8 × List UInt8 × Option Err :=
  match sliceKind b with
  | .error err => (.byte, [], b, some err)
  | .ok (k, ts, cs) => (k, (b.drop ts).take cs, b.drop (ts + cs), none)

/-- Shifting the bytes to their places gives the number that they denote. -/
theorem shifted_eq_bytesNat (b : List UInt8) : shifted b = bytesNat b := by
  induction b with
  | nil => rfl
  | cons x b ih =>
    have hlt : bytesNat b < 2 ^ (8 * b.length) := pow_digits b.length ▸ bytesNat_lt b
    rw [shifted, ih, ← Nat.shiftLeft_add_eq_or_of_lt hlt, bytesNat_cons, Nat.shiftLeft_eq,
      pow_digits]

/-- A value in front of a slice: a byte below `0x80`, or a header and its content. Strings of one
such byte have no header. -/
inductive Fronts : Kind → List UInt8 → List UInt8 → Prop
  /-- A byte that is its own encoding. -/
  | byte {x : UInt8} (hx : x < 0x80) : Fronts .byte [x] [x]
  /-- A string or list with a header. -/
  | header {k : Kind} {c : List UInt8} (hk : k ≠ .byte) (hlt : c.length < 2 ^ 64)
      (hc : k = .string → ∀ x, c = [x] → ¬ x ≤ 0x7F) : Fronts k c (header k c.length ++ c)

variable {k : Kind} {b c rest : List UInt8} {n : ℕ} {x : UInt8} {r v : List UInt8}

theorem Fronts.length_lt (h : Fronts k c v) : c.length < 2 ^ 64 := by
  cases h with
  | byte => exact (by decide : 1 < 2 ^ 64)
  | header _ hlt _ => exact hlt

/-- `readSize` accepts the digits of a size without a leading zero. -/
theorem readSize_ok {slen : ℕ} (hok : readSize b slen = .ok n) :
    ∃ digits rest, b = digits ++ rest ∧ digits.length = slen ∧ bytesNat digits = n ∧ 56 ≤ n ∧
      digits.head? ≠ some 0 := by
  simp only [readSize] at hok
  split_ifs at hok with hshort hcanon
  cases hok
  have hlen : (b.take slen).length = slen := List.length_take_of_le (by omega)
  rw [not_or, shifted_eq_bytesNat] at hcanon
  refine ⟨b.take slen, b.drop slen, (List.take_append_drop slen b).symm, hlen,
    (shifted_eq_bytesNat _).symm, by rw [shifted_eq_bytesNat]; omega, fun hzero => hcanon.2 ?_⟩
  cases b with
  | nil => rfl
  | cons x b =>
    cases slen with
    | zero => cases hzero
    | succ slen => simpa using hzero

/-- `readSize` reads the digits that `putint` wrote. -/
theorem readSize_putint (hlow : 56 ≤ n) (hhigh : n < 2 ^ 64) (rest : List UInt8) :
    readSize (putint n ++ rest) (putint n).length = .ok n := by
  have hdigits := putint_eq_natBytes (by omega : 0 < n) hhigh
  have hpos := (putint_length_spec n).1.1
  have hhead : (putint n ++ rest).headD 0 ≠ 0 := by
    have hne := natBytes_head?_ne_zero n
    rw [← hdigits] at hne
    cases hput : putint n with
    | nil => simp [hput] at hpos
    | cons x b =>
      rw [hput] at hne
      simpa using hne
  have hval : shifted ((putint n ++ rest).take (putint n).length) = n := by
    rw [List.take_left, shifted_eq_bytesNat, bytesNat_putint (by omega) hhigh]
  have hfits : ¬ (putint n).length > (putint n ++ rest).length := by simp
  simp only [readSize, if_neg hfits, hval]
  rw [if_neg (not_or.mpr ⟨by omega, hhead⟩)]

/-- What `tagSizes` accepts is a tag with the rest of its header; a string of one byte below
`0x80` has none. -/
theorem tagSizes_ok {ts cs : ℕ} (hok : tagSizes x rest = .ok (k, ts, cs)) :
    (k = .byte ∧ ts = 0 ∧ cs = 1 ∧ x < 0x80) ∨
      (k ≠ .byte ∧ cs < 2 ^ 64 ∧ ts = (header k cs).length ∧
        ∃ rest', x :: rest = header k cs ++ rest' ∧
          ¬ (k = .string ∧ cs = 1 ∧ 0 < rest'.length ∧ rest'.headD 0 < 128)) := by
  have hmax := x.toNat_lt
  have hlarge (k : Kind) (hlow : (headTags k).2.toNat < x.toNat)
      (hhigh : x.toNat ≤ (headTags k).2.toNat + 8) {n : ℕ}
      (hsize : readSize rest (x - (headTags k).2).toNat = .ok n) :
      n < 2 ^ 64 ∧ n ≠ 1 ∧ (x - (headTags k).2).toNat + 1 = (header k n).length ∧
        ∃ rest', x :: rest = header k n ++ rest' := by
    obtain ⟨digits, rest', rfl, hlen, rfl, hlow', hhead⟩ := readSize_ok hsize
    obtain ⟨hheader, hlt⟩ := header_of_largeTag hlow hhigh hlen hlow' (.inr hhead)
    exact ⟨hlt, by omega, by rw [hheader, List.length_cons, hlen], rest', by rw [hheader]; rfl⟩
  unfold tagSizes at hok
  simp only [UInt8.lt_iff_toNat_lt, UInt8.reduceToNat] at hok
  split_ifs at hok with h80 hB8 hcanon hC0 hF8
  · cases hok
    exact .inl ⟨rfl, rfl, rfl, UInt8.lt_iff_toNat_lt.mpr h80⟩
  · cases hok
    obtain ⟨hheader, hlt⟩ := header_of_smallTag (k := .string) (show 0x80 ≤ x.toNat by omega)
      (show x.toNat < 0x80 + 56 by omega)
    exact .inr ⟨by decide, hlt.trans (by decide), congrArg List.length hheader.symm, rest,
      congrArg (· ++ rest) hheader.symm, fun h => hcanon h.2⟩
  · obtain ⟨n, hsize, hval⟩ := Machine.exists_of_map_eq_ok hok
    cases hval
    obtain ⟨hlt, hone, hlen, rest', hinp⟩ := hlarge .string (show 0xB7 < x.toNat by omega)
      (show x.toNat ≤ 0xB7 + 8 by omega) hsize
    exact .inr ⟨by decide, hlt, hlen, rest', hinp, fun h => hone h.2.1⟩
  · cases hok
    obtain ⟨hheader, hlt⟩ := header_of_smallTag (k := .list) (show 0xC0 ≤ x.toNat by omega)
      (show x.toNat < 0xC0 + 56 by omega)
    exact .inr ⟨by decide, hlt.trans (by decide), congrArg List.length hheader.symm, rest,
      congrArg (· ++ rest) hheader.symm, fun h => nomatch h.1⟩
  · obtain ⟨n, hsize, hval⟩ := Machine.exists_of_map_eq_ok hok
    cases hval
    obtain ⟨hlt, -, hlen, rest', hinp⟩ := hlarge .list (show 0xF7 < x.toNat by omega)
      (show x.toNat ≤ 0xF7 + 8 by omega) hsize
    exact .inr ⟨by decide, hlt, hlen, rest', hinp, fun h => nomatch h.1⟩

/-- `tagSizes` at the header of a string or list. -/
theorem tagSizes_header {tail : List UInt8} (hk : k ≠ .byte) (hn : n < 2 ^ 64)
    (hcanon : ¬ (k = .string ∧ n = 1 ∧ 0 < tail.length ∧ tail.headD 0 < 128)) :
    ∃ x rest, header k n ++ tail = x :: rest ∧
      tagSizes x rest = .ok (k, (header k n).length, n) := by
  by_cases hsmall : n < 56
  · have hheader : header k n = [(headTags k).1 + byte n] := by
      rw [header, puthead, if_pos hsmall]
    rw [hheader]
    refine ⟨_, _, rfl, ?_⟩
    obtain ⟨⟨a1, a2, a3⟩, ⟨b1, b2, b3, b4, b5⟩⟩ := smallTag_cases n hsmall
    cases k with
    | byte => exact absurd rfl hk
    | string =>
      have hcanon' : ¬ (n = 1 ∧ 0 < tail.length ∧ tail.headD 0 < 128) := fun h => hcanon ⟨rfl, h⟩
      simp only [tagSizes, headTags, if_neg a1, if_pos a2, a3, List.append_eq,
        List.nil_append, if_neg hcanon', List.length_singleton]
    | list =>
      simp only [tagSizes, headTags, if_neg b1, if_neg b2, if_neg b3, if_pos b4, b5,
        List.length_singleton]
  · have hheader : header k n = ((headTags k).2 + byte (putint n).length) :: putint n := by
      rw [header, puthead, if_neg hsmall]
    rw [hheader]
    refine ⟨_, _, rfl, ?_⟩
    have hlen := (putint_length_spec n).1
    have hsize := readSize_putint (by omega) hn tail
    obtain ⟨⟨a1, a2, a3, a4⟩, ⟨b1, b2, b3, b4, b5⟩⟩ :=
      largeTag_cases (putint n).length (by omega) hlen.1
    cases k with
    | byte => exact absurd rfl hk
    | string =>
      simp only [tagSizes, headTags, if_neg a1, if_neg a2, if_pos a3, a4, List.append_eq, hsize]
      rfl
    | list =>
      simp only [tagSizes, headTags, if_neg b1, if_neg b2, if_neg b3, if_neg b4, b5,
        List.append_eq, hsize]
      rfl

/-- `Split` at a tag whose value is there as a whole. -/
theorem split_of_tagSizes {ts cs : ℕ} (hb : (x :: rest).length < 2 ^ 64)
    (htag : tagSizes x rest = .ok (k, ts, cs)) (hfits : ts + cs ≤ (x :: rest).length) :
    split (x :: rest) = (k, ((x :: rest).drop ts).take cs, (x :: rest).drop (ts + cs), none) := by
  have hsub : ¬ cs > sub64 (x :: rest).length ts := by
    rw [sub64_of_le (by omega) hb]
    omega
  simp only [split, sliceKind, htag, if_neg hsub]

/-- `Split` returns the value in front of a slice and what comes after it. -/
theorem split_eq_iff (hb : b.length < 2 ^ 64) :
    split b = (k, c, r, none) ↔ ∃ v, Fronts k c v ∧ b = v ++ r := by
  constructor
  · intro hsplit
    unfold split at hsplit
    split at hsplit
    · cases hsplit
    next k' ts cs hkind =>
    cases hsplit
    unfold sliceKind at hkind
    split at hkind
    · cases hkind
    next x rest =>
    split at hkind
    · cases hkind
    next htag =>
    split_ifs at hkind with hlarge
    cases hkind
    rcases tagSizes_ok htag with ⟨rfl, rfl, rfl, hx⟩ | ⟨hk, hcs, rfl, rest', hinp, hcanon⟩
    · exact ⟨[x], .byte hx, rfl⟩
    · rw [hinp] at hlarge hb ⊢
      rw [sub64_of_le (by simp) hb, List.length_append] at hlarge
      have hlen : (rest'.take cs).length = cs := List.length_take_of_le (by omega)
      have hdrop : (header k cs ++ rest').drop ((header k cs).length + cs) = rest'.drop cs := by
        rw [List.drop_append]
        simp
      rw [List.drop_left, hdrop]
      have hfront :
          Fronts k (rest'.take cs) (header k (rest'.take cs).length ++ rest'.take cs) := by
        refine .header hk (hlen.symm ▸ hcs) fun hstring x hx hle => hcanon ⟨hstring, ?_⟩
        have hone : cs = 1 := by rw [← hlen, hx]; rfl
        subst hone
        cases rest' with
        | nil => cases hx
        | cons y rest' =>
          obtain rfl : y = x := List.singleton_injective hx
          exact ⟨rfl, by simp, (small_byte_iff y).mp hle⟩
      rw [hlen] at hfront
      exact ⟨_, hfront, by rw [List.append_assoc, List.take_append_drop]⟩
  · rintro ⟨v, hfront, rfl⟩
    cases hfront with
    | byte hx =>
      have htag : tagSizes _ r = .ok (.byte, 0, 1) := if_pos hx
      exact split_of_tagSizes hb htag (by simp)
    | header hk hlt hc =>
      rw [List.append_assoc] at hb ⊢
      have hcanon : ¬ (k = .string ∧ c.length = 1 ∧ 0 < (c ++ r).length ∧
          (c ++ r).headD 0 < 128) := by
        rintro ⟨rfl, hone, -, hhead⟩
        obtain ⟨x, rfl⟩ := List.length_eq_one_iff.mp hone
        exact hc rfl x rfl ((small_byte_iff x).mpr hhead)
      obtain ⟨x, rest, hinp, htag⟩ := tagSizes_header hk hlt hcanon
      have hdrop : (header k c.length ++ (c ++ r)).drop ((header k c.length).length + c.length) =
          r := by
        rw [← List.append_assoc, ← List.length_append, List.drop_left]
      have hsplit := split_of_tagSizes (hinp ▸ hb) htag (by rw [← hinp]; simp)
      rwa [← hinp, List.drop_left, List.take_left, hdrop] at hsplit

theorem ready_fresh (b : List UInt8) : Ready (newStream b 0) b [] := by
  exact ⟨⟨rfl, rfl, rfl, rfl⟩, rfl⟩

/-- A byte or string in front of a slice is the encoding of its content. -/
theorem fronts_string_iff (hc : c.length < 2 ^ 64) :
    (∃ k, k ≠ .list ∧ Fronts k c v) ↔ v = encodeString c := by
  constructor
  · rintro ⟨k, hk, hfront⟩
    cases hfront with
    | byte hx => exact (if_pos ((small_byte_iff _).mpr hx)).symm
    | header hk' _ hc =>
      cases k with
      | byte => exact absurd rfl hk'
      | string => exact (encodeString_of_header (hc rfl)).symm
      | list => exact absurd rfl hk
  · rintro rfl
    by_cases hsingle : ∃ x, c = [x] ∧ x ≤ 0x7F
    · obtain ⟨x, rfl, hx⟩ := hsingle
      refine ⟨.byte, by decide, ?_⟩
      rw [show encodeString [x] = [x] from if_pos hx]
      exact .byte ((small_byte_iff x).mp hx)
    · have hbig : ∀ x, c = [x] → ¬ x ≤ 0x7F := fun x hx hle => hsingle ⟨x, hx, hle⟩
      rw [encodeString_of_header hbig]
      exact ⟨.string, by decide, .header (by decide) hc fun _ => hbig⟩

/-- `Bytes` on a fresh stream returns the string in front of the slice. -/
theorem bytes_fresh_iff (hb : b.length < 2 ^ 64) :
    (∃ s, (newStream b 0).bytes = (c, none, s) ∧ s.input = r) ↔ b = encodeString c ++ r := by
  constructor
  · rintro ⟨s, hbytes, rfl⟩
    obtain ⟨rest, hinp, -, hready⟩ := bytes_ok (ready_fresh b) trivial hbytes
    rw [hready.input]
    exact hinp
  · rintro rfl
    rw [List.length_append] at hb
    have hle := length_le_encodeString c
    obtain ⟨s, hbytes, hready⟩ := bytes_encodeString (c := c) (by omega) (ready_fresh _) trivial
    exact ⟨s, hbytes, hready.input⟩

/-- `Split` returns a byte or string when `Bytes` does. -/
theorem split_string_iff (hb : b.length < 2 ^ 64) (c r : List UInt8) :
    (∃ k, k ≠ .list ∧ split b = (k, c, r, none)) ↔
      ∃ s, (newStream b 0).bytes = (c, none, s) ∧ s.input = r := by
  simp only [bytes_fresh_iff hb, split_eq_iff hb]
  constructor
  · rintro ⟨k, hk, v, hfront, rfl⟩
    rw [(fronts_string_iff hfront.length_lt).mp ⟨k, hk, hfront⟩]
  · rintro rfl
    have hle := length_le_encodeString c
    rw [List.length_append] at hb
    obtain ⟨k, hk, hfront⟩ := (fronts_string_iff (c := c) (by omega)).mpr rfl
    exact ⟨k, hk, _, hfront, rfl⟩

/-- `Split` returns a list when `List` opens it and its content is there. -/
theorem split_list_iff (hb : b.length < 2 ^ 64) (c r : List UInt8) :
    split b = (.list, c, r, none) ↔
      (∃ s, (newStream b 0).list = (c.length, none, s)) ∧
        b = header .list c.length ++ (c ++ r) := by
  rw [split_eq_iff hb]
  constructor
  · rintro ⟨v, hfront, rfl⟩
    cases hfront with
    | header _ hlt _ =>
      obtain ⟨s, hs, -⟩ := list_encodeList hlt (ready_fresh (encodeList c ++ r)) trivial
      exact ⟨⟨s, hs⟩, List.append_assoc ..⟩
  · rintro ⟨-, rfl⟩
    rw [List.length_append, List.length_append] at hb
    exact ⟨_, .header (by decide) (by omega) (fun h => nomatch h), (List.append_assoc ..).symm⟩

/-- A list that `List` opens on a fresh stream is there as a whole. -/
theorem split_of_list (hb : b.length < 2 ^ 64) {s : Stream}
    (hok : (newStream b 0).list = (n, none, s)) : ∃ c r, split b = (.list, c, r, none) := by
  obtain ⟨rest, hinp, -, -, hlen, -⟩ := list_ok (ready_fresh b) trivial hok
  have htake : (rest.take n).length = n := List.length_take_of_le (hlen rfl)
  refine ⟨rest.take n, rest.drop n, (split_list_iff hb _ _).mpr ⟨⟨s, htake.symm ▸ hok⟩, ?_⟩⟩
  rw [htake, List.take_append_drop]
  exact hinp

/-- The two readers of headers agree. -/
theorem split_iff_stream (b : SliceBytes) :
    (∀ c r, (∃ k, k ≠ .list ∧ split b.val = (k, c, r, none)) ↔
        ∃ s, (newStream b.val 0).bytes = (c, none, s) ∧ s.input = r) ∧
      (∀ c r, split b.val = (.list, c, r, none) ↔
        (∃ s, (newStream b.val 0).list = (c.length, none, s)) ∧
          b.val = header .list c.length ++ (c ++ r)) ∧
      ((split b.val).2.2.2 ≠ none ↔
        (newStream b.val 0).bytes.2.1 ≠ none ∧ (newStream b.val 0).list.2.1 ≠ none) := by
  have hb : b.val.length < 2 ^ 64 := b.property.trans (by decide)
  refine ⟨split_string_iff hb, split_list_iff hb, fun hfail => ⟨fun hok => ?_, fun hok => ?_⟩, ?_⟩
  · obtain ⟨k, -, hsplit⟩ := (split_string_iff hb (newStream b.val 0).bytes.1 _).mpr
      ⟨(newStream b.val 0).bytes.2.2, by rw [← hok], rfl⟩
    exact hfail (by rw [hsplit])
  · obtain ⟨c, r, hsplit⟩ := split_of_list (n := (newStream b.val 0).list.1)
      (s := (newStream b.val 0).list.2.2) hb (by rw [← hok])
    exact hfail (by rw [hsplit])
  · rintro ⟨hbytes, hlist⟩ hok
    have hsplit : split b.val =
        ((split b.val).1, (split b.val).2.1, (split b.val).2.2.1, none) := by rw [← hok]
    by_cases hk : (split b.val).1 = .list
    · rw [hk] at hsplit
      obtain ⟨⟨s, hs⟩, -⟩ := (split_list_iff hb _ _).mp hsplit
      exact hlist (by rw [hs])
    · obtain ⟨s, hs, -⟩ := (split_string_iff hb _ _).mp ⟨_, hk, hsplit⟩
      exact hbytes (by rw [hs])

end Hashgrid.Rlp
