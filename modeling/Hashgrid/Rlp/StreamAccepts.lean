import Hashgrid.Rlp.StreamValues

/-!
# What a successful read says about the input

The converse of the lemmas on well-formed input: when an operation of the stream reports
no error, the bytes that it took from the input are the one encoding of what it returned.
-/

namespace Hashgrid.Rlp

open Hashgrid.Bytes

variable {s s' : Stream} {inp : List UInt8} {st : List ListPos} {n size : ℕ} {b rest : List UInt8}
  {x : UInt8} {k : Kind}

/-- `willRead` lets only bytes pass that are there. -/
theorem willRead_ok (h : At s inp st) (htop : Room st 0) (hok : (s.willRead n).1 = none) :
    n ≤ inp.length ∧ Room st n := by
  cases st with
  | nil =>
    refine ⟨?_, trivial⟩
    by_contra hgt
    have hrem : n > inp.length := by omega
    simp [Stream.willRead, Stream.takeRemaining, h.stack, h.limited, h.remaining, hrem] at hok
  | cons tos rest =>
    obtain ⟨hpos, hlt⟩ := htop
    have hsub : sub64 tos.size tos.pos = tos.size - tos.pos := sub64_of_le (by omega) hlt
    by_cases hlist : n > tos.size - tos.pos
    · simp [Stream.willRead, h.stack, hsub, hlist] at hok
    · refine ⟨?_, by omega, hlt⟩
      by_contra hgt
      have hrem : n > inp.length := by omega
      simp [Stream.willRead, Stream.takeRemaining, h.stack, h.limited, h.remaining, hsub, hlist,
        hrem] at hok

/-- `readFull` returns the next bytes of the input. -/
theorem readFull_ok (h : At s inp st) (htop : Room st 0) (hok : s.readFull n = (b, none, s')) :
    ∃ rest, inp = b ++ rest ∧ b.length = n ∧ Room st n ∧ Ready s' rest (advance st n) := by
  have hwill : (s.willRead n).1 = none := by
    unfold Stream.readFull at hok
    split at hok
    · cases hok
    · next heq => rw [heq]
  obtain ⟨hlen, hroom⟩ := willRead_ok h htop hwill
  have htake : (inp.take n).length = n := List.length_take_of_le hlen
  have hat : At s (inp.take n ++ inp.drop n) st := by rwa [List.take_append_drop]
  obtain ⟨s₁, hread, hready⟩ := readFull_at hat (htake.symm ▸ hroom)
  rw [htake] at hready
  rw [htake, hok] at hread
  cases hread
  exact ⟨inp.drop n, (List.take_append_drop n inp).symm, htake, hroom, hready⟩

/-- `readByte` returns the next byte of the input. -/
theorem readByte_ok (h : At s inp st) (htop : Room st 0) (hok : s.readByte = (x, none, s')) :
    ∃ rest, inp = x :: rest ∧ Room st 1 ∧ Ready s' rest (advance st 1) := by
  have hwill : (s.willRead 1).1 = none := by
    unfold Stream.readByte at hok
    split at hok
    · cases hok
    · next heq => rw [heq]
  obtain ⟨hlen, hroom⟩ := willRead_ok h htop hwill
  cases inp with
  | nil => simp at hlen
  | cons y rest =>
    obtain ⟨s₁, hread, hready⟩ := readByte_at h hroom
    rw [hok] at hread
    cases hread
    exact ⟨rest, rfl, hroom, hready⟩

variable {v : ℕ}

/-- `readUint` returns the number that the next bytes denote. More than one byte have no
leading zero. -/
theorem readUint_ok (hn : 0 < n) (h : At s inp st) (htop : Room st 0)
    (hok : s.readUint n = (v, none, s')) :
    ∃ b rest, inp = b ++ rest ∧ b.length = n ∧ bytesNat b = v ∧
      (n = 1 ∨ b.head? ≠ some 0) ∧ Room st n ∧ Ready s' rest (advance st n) := by
  unfold Stream.readUint at hok
  split at hok
  · omega
  · split at hok
    next x err s₁ hread =>
    cases hok
    obtain ⟨rest, hinp, hroom, hready⟩ := readByte_ok h htop hread
    exact ⟨[x], rest, hinp, rfl, by simp [bytesNat], .inl rfl, hroom, hready⟩
  · split at hok
    · cases hok
    · next b s₁ hread =>
      split_ifs at hok with hzero
      · cases hok
      · cases hok
        obtain ⟨rest, hinp, hlen, hroom, hready⟩ := readFull_ok h htop hread
        exact ⟨b, rest, hinp, hlen, rfl, .inr hzero, hroom, hready⟩

/-- A tag is its lower bound and what is added to it. -/
theorem tag_split {low : UInt8} (h : low.toNat ≤ x.toNat) :
    (x - low).toNat = x.toNat - low.toNat ∧ low + byte (x - low).toNat = x := by
  refine ⟨UInt8.toNat_sub_of_le _ _ (UInt8.le_iff_toNat_le.mpr h), ?_⟩
  rw [show byte (x - low).toNat = x - low from UInt8.ofNat_toNat, UInt8.add_comm,
    UInt8.sub_add_cancel]

theorem pow_digits (n : ℕ) : 256 ^ n = 2 ^ (8 * n) := by
  rw [pow_mul]
  norm_num only

theorem bytesNat_lt_word (hlen : b.length ≤ 8) : bytesNat b < 2 ^ 64 := by
  refine lt_of_lt_of_le (bytesNat_lt b) ?_
  calc 256 ^ b.length ≤ 256 ^ 8 := Nat.pow_le_pow_right (by decide) hlen
    _ = 2 ^ 64 := by norm_num

/-- Digits without a leading zero are what `putint` writes for their number. -/
theorem putint_bytesNat (hlen : b.length ≤ 8) (hpos : 0 < bytesNat b)
    (hhead : b.length = 1 ∨ b.head? ≠ some 0) : putint (bytesNat b) = b := by
  rw [putint_eq_natBytes hpos (bytesNat_lt_word hlen)]
  refine natBytes_bytesNat (hhead.elim (fun hone hzero => ?_) id)
  obtain ⟨x, rfl⟩ := List.length_eq_one_iff.mp hone
  have hx : x = 0 := by simpa using hzero
  rw [hx] at hpos
  exact absurd hpos (by decide)

/-- A tag in the range of short values is their header. -/
theorem header_of_smallTag (hlow : (headTags k).1.toNat ≤ x.toNat)
    (hhigh : x.toNat < (headTags k).1.toNat + 56) :
    header k (x - (headTags k).1).toNat = [x] ∧ (x - (headTags k).1).toNat < 56 := by
  obtain ⟨hdiff, htag⟩ := tag_split hlow
  have hsmall : (x - (headTags k).1).toNat < 56 := by omega
  exact ⟨by rw [header, puthead, if_pos hsmall, htag], hsmall⟩

/-- A tag in the range of long values and the digits of the size are their header. -/
theorem header_of_largeTag (hlow : (headTags k).2.toNat < x.toNat)
    (hhigh : x.toNat ≤ (headTags k).2.toNat + 8) (hlen : b.length = (x - (headTags k).2).toNat)
    (hsize : 56 ≤ bytesNat b) (hhead : b.length = 1 ∨ b.head? ≠ some 0) :
    header k (bytesNat b) = x :: b ∧ bytesNat b < 2 ^ 64 := by
  obtain ⟨hdiff, htag⟩ := tag_split hlow.le
  have hlen8 : b.length ≤ 8 := by omega
  have hnot : ¬ bytesNat b < 56 := by omega
  refine ⟨?_, bytesNat_lt_word hlen8⟩
  rw [header, puthead, if_neg hnot, putint_bytesNat hlen8 (by omega) hhead, hlen, htag]

/-- What stands in front of the input when a header was read without error: a byte that is
its own encoding, or the one header of a string or list of the size. -/
inductive Found (s' : Stream) (inp : List UInt8) (st : List ListPos) : Kind → ℕ → Prop
  /-- A byte below `0x80`. -/
  | byte {x : UInt8} {rest : List UInt8} (hx : x < 0x80) (hinp : inp = x :: rest)
      (hroom : Room st 1) (hat : At s' rest (advance st 1)) (hval : s'.byteval = x) :
      Found s' inp st .byte 0
  /-- The header of a string or of a list. -/
  | header {k : Kind} {size : ℕ} {rest : List UInt8} (hk : k ≠ .byte) (hsize : size < 2 ^ 64)
      (hinp : inp = header k size ++ rest) (hroom : Room st (header k size).length)
      (hat : At s' rest (advance st (header k size).length)) : Found s' inp st k size

/-- `readUint` after the tag of a long header finds the rest of the header. -/
theorem found_of_readUint {s₁ : Stream} (hk : k ≠ .byte) (hlow : (headTags k).2.toNat < x.toNat)
    (hhigh : x.toNat ≤ (headTags k).2.toNat + 8) (hroom : Room st 1)
    (hat : At s₁ rest (advance st 1))
    (hok : Stream.checkSize (s₁.readUint (x - (headTags k).2).toNat) = (size, none, s')) :
    Found s' (x :: rest) st k size := by
  have hdiff := (tag_split hlow.le).1
  have hread : s₁.readUint (x - (headTags k).2).toNat = (size, none, s') ∧ ¬ size < 56 := by
    generalize s₁.readUint (x - (headTags k).2).toNat = r at hok
    obtain ⟨v, err, s₂⟩ := r
    cases err with
    | some e => cases hok
    | none =>
      by_cases hsmall : v < 56
      · simp [Stream.checkSize, hsmall] at hok
      · simp only [Stream.checkSize, if_neg hsmall, Prod.mk.injEq, true_and] at hok
        obtain ⟨rfl, rfl⟩ := hok
        exact ⟨rfl, hsmall⟩
  have htop : Room (advance st 1) 0 := hroom.advance
  obtain ⟨b, rest', rfl, hlen, rfl, hhead, hroom', hready⟩ :=
    readUint_ok (by omega) hat htop hread.1
  obtain ⟨hheader, hlt⟩ :=
    header_of_largeTag hlow hhigh hlen (by omega) (hlen.symm ▸ hhead)
  have hsum : (header k (bytesNat b)).length = 1 + (x - (headTags k).2).toNat := by
    rw [hheader, List.length_cons, hlen, Nat.add_comm]
  refine .header hk hlt (by rw [hheader]; rfl) ?_ ?_
  · rw [hsum]
    exact hroom'.of_advance
  · rw [hsum, ← advance_advance]
    exact hready.toAt

/-- A short header is its tag. -/
theorem found_of_smallTag (hk : k ≠ .byte) (hlow : (headTags k).1.toNat ≤ x.toNat)
    (hhigh : x.toNat < (headTags k).1.toNat + 56) (hroom : Room st 1)
    (hat : At s' rest (advance st 1)) : Found s' (x :: rest) st k (x - (headTags k).1).toNat := by
  obtain ⟨hheader, hsmall⟩ := header_of_smallTag hlow hhigh
  refine .header hk (by omega) (by rw [hheader]; rfl) ?_ ?_
  · rw [hheader]
    exact hroom
  · rw [hheader]
    exact hat

/-- `readKind` without error finds a header. -/
theorem readKind_ok (h : At s inp st) (htop : Room st 0) (hok : s.readKind = (k, size, none, s')) :
    Found s' inp st k size := by
  unfold Stream.readKind at hok
  split at hok
  · cases hok
  · next x s₁ hread =>
    obtain ⟨rest, rfl, hroom, hready⟩ := readByte_ok h htop hread
    have hat (y : UInt8) : At { s₁ with byteval := y } rest (advance st 1) :=
      hready.remember ..
    have hmax := x.toNat_lt
    simp only [UInt8.lt_iff_toNat_lt, UInt8.reduceToNat] at hok
    split_ifs at hok with h80 hB8 hC0 hF8
    · cases hok
      exact .byte (UInt8.lt_iff_toNat_lt.mpr h80) rfl hroom (hat x) rfl
    · cases hok
      exact found_of_smallTag (k := .string) (by decide) (show 0x80 ≤ x.toNat by omega)
        (show x.toNat < 0x80 + 56 by omega) hroom (hat 0)
    · obtain ⟨rfl, hlong⟩ := Prod.mk.inj hok
      exact found_of_readUint (by decide) (show 0xB7 < x.toNat by omega)
        (show x.toNat ≤ 0xB7 + 8 by omega) hroom (hat 0) hlong
    · cases hok
      exact found_of_smallTag (k := .list) (by decide) (show 0xC0 ≤ x.toNat by omega)
        (show x.toNat < 0xC0 + 56 by omega) hroom (hat 0)
    · obtain ⟨rfl, hlong⟩ := Prod.mk.inj hok
      exact found_of_readUint (by decide) (show 0xF7 < x.toNat by omega)
        (show x.toNat ≤ 0xF7 + 8 by omega) hroom (hat 0) hlong

/-- A value that passes the size checks of `Kind` fits. -/
theorem sizeErr_ok (h : At s inp st) (htop : Room st 0) (hok : s.sizeErr size = none) :
    Room st size ∧ (st = [] → size ≤ inp.length) := by
  cases st with
  | nil =>
    refine ⟨trivial, fun _ => ?_⟩
    by_contra hgt
    have hrem : size > inp.length := by omega
    simp [Stream.sizeErr, h.stack, h.limited, h.remaining, hrem] at hok
  | cons tos rest =>
    obtain ⟨hpos, hlt⟩ := htop
    have hsub : sub64 tos.size tos.pos = tos.size - tos.pos := sub64_of_le (by omega) hlt
    refine ⟨⟨?_, hlt⟩, fun hnil => by cases hnil⟩
    by_contra hgt
    have hbig : size > tos.size - tos.pos := by omega
    simp [Stream.sizeErr, h.stack, hsub, hbig] at hok

/-- What `Kind` leaves behind when it reports no error: the header in front of the input was
read and remembered, and the value fits. -/
structure Looked (s' : Stream) (inp : List UInt8) (st : List ListPos) (k : Kind) (size : ℕ) :
    Prop where
  /-- The header that was read. -/
  found : Found s' inp st k size
  /-- The remembered kind. -/
  kind : s'.kind = some k
  /-- The remembered size. -/
  size_eq : s'.size = size
  /-- No error is remembered. -/
  kinderr : s'.kinderr = none
  /-- The value fits in the innermost list. -/
  room : Room s'.stack size
  /-- At top level the value fits in the input. -/
  top : st = [] → size ≤ s'.input.length

/-- The header is found whatever is remembered of it. -/
theorem Found.remember (h : Found s' inp st k size) (kind : Option Kind) (n : ℕ) (e : Option Err) :
    Found { s' with kind := kind, size := n, kinderr := e } inp st k size := by
  cases h with
  | byte hx hinp hroom hat hval =>
    exact .byte hx hinp hroom (hat.remember ..) hval
  | header hk hsize hinp hroom hat =>
    exact .header hk hsize hinp hroom (hat.remember ..)

/-- Behind a header that was found the stream stands at the rest of the input, with room in
the innermost list. -/
theorem Found.at (h : Found s' inp st k size) :
    At s' s'.input s'.stack ∧ Room s'.stack 0 ∧ (s'.stack = [] ↔ st = []) := by
  have hnil (n : ℕ) : advance st n = [] ↔ st = [] := by cases st <;> simp [advance]
  cases h with
  | byte hx hinp hroom hat hval =>
    rw [hat.stack, hnil, hat.input]
    exact ⟨hat, hroom.advance, Iff.rfl⟩
  | header hk hsize hinp hroom hat =>
    rw [hat.stack, hnil, hat.input]
    exact ⟨hat, Room.advance (n := 0) hroom, Iff.rfl⟩

/-- `Kind` without error on a header that it has not looked at. -/
theorem kindOf_ok (h : Ready s inp st) (htop : Room st 0) (hok : s.kindOf = (k, size, none, s')) :
    Looked s' inp st k size := by
  have hfetch : Stream.fetchKind { s with kinderr := none } = (k, size, none, s') := by
    unfold Stream.kindOf at hok
    rw [h.kind] at hok
    dsimp only at hok
    split at hok
    · exact hok
    · split_ifs at hok
      · cases hok
      · exact hok
  have hat : At { s with kinderr := none } inp st := h.remember ..
  unfold Stream.fetchKind at hfetch
  split at hfetch
  · cases hfetch
  · next k₁ size₁ s₁ hread =>
    simp only [Prod.mk.injEq] at hfetch
    obtain ⟨rfl, rfl, herr, rfl⟩ := hfetch
    have hfound := readKind_ok hat htop hread
    obtain ⟨hat₁, htop₁, hstack⟩ := hfound.at
    obtain ⟨hroom, hlimit⟩ := sizeErr_ok hat₁ htop₁ herr
    exact ⟨hfound.remember _ _ _, rfl, rfl, herr, hroom, fun hnil => hlimit (hstack.mpr hnil)⟩

/-- `Bytes` returns a string only if the input starts with its encoding. -/
theorem bytes_ok {c : List UInt8} (h : Ready s inp st) (htop : Room st 0)
    (hok : s.bytes = (c, none, s')) :
    ∃ rest, inp = encodeString c ++ rest ∧ Room st (encodeString c).length ∧
      Ready s' rest (advance st (encodeString c).length) := by
  unfold Stream.bytes at hok
  split at hok
  · cases hok
  · next s₁ hkind =>
    cases hok
    obtain ⟨hx, rfl, hroom, hat, hval⟩ | ⟨hk, -, -, -, -⟩ := (kindOf_ok h htop hkind).found
    · rw [hval]
      have henc : encodeString [_] = [_] := if_pos ((small_byte_iff _).mpr hx)
      rw [henc]
      exact ⟨_, rfl, hroom, hat.remember .., rfl⟩
    · exact absurd rfl hk
  · next size s₁ hkind =>
    obtain ⟨hfound, -, -, -, hfits, -⟩ := kindOf_ok h htop hkind
    cases hfound with
    | header hk hsize hinp hroom hat =>
      split at hok
      · cases hok
      · next b s₂ hread =>
        split_ifs at hok with hsmall
        · cases hok
        · cases hok
          obtain ⟨rest, rfl, rfl, hroom', hready⟩ :=
            readFull_ok hat (Room.advance (n := 0) hroom) hread
          have henc : encodeString c = header .string c.length ++ c :=
            encodeString_of_header fun x hx hle => hsmall
              ⟨by rw [hx]; rfl, by rw [hx]; exact (small_byte_iff x).mp hle⟩
          rw [henc, List.length_append]
          exact ⟨rest, by rw [hinp, List.append_assoc], hroom'.of_advance, by simpa using hready⟩
  · cases hok

/-- `List` opens a list only if the input starts with its header. -/
theorem list_ok (h : Ready s inp st) (htop : Room st 0) (hok : s.list = (n, none, s')) :
    ∃ rest, inp = header .list n ++ rest ∧ n < 2 ^ 64 ∧
      Room st ((header .list n).length + n) ∧ (st = [] → n ≤ rest.length) ∧
      Ready s' rest (⟨0, n⟩ :: advance st (header .list n).length) := by
  unfold Stream.list at hok
  split at hok
  · cases hok
  · next size s₁ hkind =>
    cases hok
    obtain ⟨hfound, -, -, -, hfits, hlimit⟩ := kindOf_ok h htop hkind
    cases hfound with
    | header hk hsize hinp hroom hat =>
      rw [hat.stack] at hfits
      rw [hat.input] at hlimit
      exact ⟨_, hinp, hsize, hfits.of_advance, hlimit,
        ⟨hat.limited, hat.input, hat.remaining, by simp [hat.stack]⟩, rfl⟩
  · cases hok

theorem listEnd_ok {tos : ListPos} (h : At s inp (tos :: st)) (hok : s.listEnd = (none, s')) :
    tos.pos = tos.size := by
  by_contra hne
  simp [Stream.listEnd, h.stack, hne] at hok

/-- The integer case of `uint` with a header. -/
theorem readUint_value {w : ℕ} (hw : w ≤ 64) (hover : size ≤ w / 8)
    (hroom : Room st (header .string size).length)
    (hat : At s rest (advance st (header .string size).length))
    (hok : s.readUint size = (v, none, s')) (hcanon : ¬ (size > 0 ∧ v < 128)) :
    ∃ rest', header .string size ++ rest = encodeUint v ++ rest' ∧ v < 2 ^ w ∧
      Room st (encodeUint v).length ∧ Ready s' rest' (advance st (encodeUint v).length) := by
  rcases Nat.eq_zero_or_pos size with rfl | hpos
  · cases hok
    exact ⟨rest, rfl, Nat.two_pow_pos w, hroom,
      hat.remember .., rfl⟩
  · obtain ⟨b, rest', rfl, hlen, rfl, hhead, hroom', hready⟩ :=
      readUint_ok hpos hat (Room.advance (n := 0) hroom) hok
    have hlen8 : b.length ≤ 8 := by omega
    have hbig : ¬ bytesNat b < 128 := fun hlt => hcanon ⟨hpos, hlt⟩
    have hput := putint_bytesNat hlen8 (by omega) (hlen.symm ▸ hhead)
    have henc : encodeUint (bytesNat b) = header .string size ++ b := by
      rw [encodeUint, if_neg (by omega), if_neg hbig, hput, hlen,
        header_string_small (by omega), List.singleton_append]
    rw [henc, List.length_append, hlen]
    refine ⟨rest', by rw [List.append_assoc], ?_, hroom'.of_advance, by simpa using hready⟩
    calc bytesNat b < 256 ^ b.length := bytesNat_lt b
      _ = 2 ^ (8 * b.length) := pow_digits b.length
      _ ≤ 2 ^ w := Nat.pow_le_pow_right (by decide) (by omega)

/-- `uint` returns an integer only if the input starts with its encoding. -/
theorem uint_ok {w : ℕ} (hw : 8 ≤ w ∧ w ≤ 64) (h : Ready s inp st) (htop : Room st 0)
    (hok : s.uint w = (v, none, s')) :
    ∃ rest, inp = encodeUint v ++ rest ∧ v < 2 ^ w ∧ Room st (encodeUint v).length ∧
      Ready s' rest (advance st (encodeUint v).length) := by
  unfold Stream.uint at hok
  split at hok
  · cases hok
  · next s₁ hkind =>
    split_ifs at hok with hzero
    · cases hok
    · cases hok
      obtain ⟨hx, rfl, hroom, hat, rfl⟩ | ⟨hk, -, -, -, -⟩ := (kindOf_ok h htop hkind).found
      · have hlt : s₁.byteval.toNat < 128 := UInt8.lt_iff_toNat_lt.mp hx
        have hne : s₁.byteval.toNat ≠ 0 := fun h0 => hzero (UInt8.toNat_inj.mp h0)
        have henc : encodeUint s₁.byteval.toNat = [s₁.byteval] := by
          rw [encodeUint, if_neg hne, if_pos hlt]
          exact congrArg (fun y => [y]) UInt8.ofNat_toNat
        rw [henc]
        refine ⟨_, rfl, ?_, hroom, hat.remember .., rfl⟩
        calc s₁.byteval.toNat < 2 ^ 8 := by omega
          _ ≤ 2 ^ w := Nat.pow_le_pow_right (by decide) hw.1
      · exact absurd rfl hk
  · next size s₁ hkind =>
    split_ifs at hok with hover
    · cases hok
    · obtain ⟨hfound, -, -, -, hfits, -⟩ := kindOf_ok h htop hkind
      cases hfound with
      | header hk hsize hinp hroom hat =>
        split at hok
        · cases hok
        · cases hok
        · next v₁ s₂ hread =>
          split_ifs at hok with hcanon
          · cases hok
          · cases hok
            rw [hinp]
            exact readUint_value hw.2 (by omega) hroom hat hread hcanon
  · cases hok

end Hashgrid.Rlp
