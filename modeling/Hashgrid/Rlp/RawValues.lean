import Hashgrid.Rlp.AnyValue
import Hashgrid.Rlp.StreamAccepts
import Hashgrid.Rlp.StreamBounds

/-!
# Raw values

`Raw` returns a value together with its header. The header was taken from the source before,
so `Raw` writes it again from the kind and the size. `Kind` accepts no other header for them,
so the bytes are those of the source.
-/

namespace Hashgrid.Rlp

open Hashgrid.Bytes

/-- What `Kind` takes from the source for a value. A single byte is its own header. -/
def headOf (k : Kind) (size : ℕ) (byteval : UInt8) : List UInt8 :=
  match k with
  | .byte => [byteval]
  | .string => header .string size
  | .list => header .list size

/-- The bytes of one value: a byte that is its own encoding, or a header and as many bytes as it
announces. -/
inductive OneValue : List UInt8 → Prop
  /-- A byte that is its own encoding. -/
  | byte {x : UInt8} (hx : x < 0x80) : OneValue [x]
  /-- A string or a list. -/
  | header {k : Kind} {c : List UInt8} (hk : k ≠ .byte) (hlt : c.length < 2 ^ 64) :
      OneValue (header k c.length ++ c)

variable {k : Kind} {source source' : List Chunk} {b : List UInt8} {n : ℕ}

/-- The header of a string or list. -/
theorem headOf_eq (hk : k ≠ .byte) (size : ℕ) (x : UInt8) : headOf k size x = header k size := by
  cases k with
  | byte => exact absurd rfl hk
  | string => rfl
  | list => rfl

/-- A reader of a single byte hands over the first one. -/
theorem takeByte_ok {b : UInt8} (h : takeByte source = (b, none, source')) :
    SourceStream.content source = b :: SourceStream.content source' := by
  induction source with
  | nil => cases h
  | cons c source ih =>
    obtain ⟨data, err⟩ := c
    cases data with
    | nil =>
      cases err with
      | none => exact ih h
      | some e => cases h
    | cons x data =>
      cases h
      rfl

/-- A reader of a single byte gives nothing back. -/
theorem takeByte_suffix (source : List Chunk) :
    SourceStream.content (takeByte source).2.2 <:+ SourceStream.content source := by
  induction source with
  | nil => exact List.suffix_refl _
  | cons c source ih =>
    obtain ⟨data, err⟩ := c
    cases data with
    | nil =>
      cases err with
      | none => exact ih
      | some e => exact List.suffix_refl _
    | cons x data => exact List.suffix_cons x _

/-- A buffer that was filled without error is full. -/
theorem fill_full (h : fill n source = (b, none, source')) : b.length = n := by
  induction source generalizing n b with
  | nil =>
    cases n with
    | zero =>
      cases h
      rfl
    | succ n => cases h
  | cons c source ih =>
    cases n with
    | zero =>
      cases h
      rfl
    | succ n =>
      obtain ⟨data, err⟩ := c
      unfold fill at h
      split_ifs at h with hlt
      · cases h
        exact List.length_take_of_le hlt.le
      · cases err with
        | some e => cases h
        | none =>
          dsimp only at h
          generalize hr : fill (n + 1 - data.length) source = r at h
          obtain ⟨rest, err, source₁⟩ := r
          cases h
          rw [List.length_append, ih hr]
          omega

namespace SourceStream

/-- The header that `Kind` has taken and remembers. -/
def held (s : SourceStream) : List UInt8 :=
  match s.ctx.kind, s.ctx.kinderr with
  | some k, none => headOf k s.ctx.size s.ctx.byteval
  | _, _ => []

/-- What is ahead of the stream: the remembered header and the rest of the source. -/
def ahead (s : SourceStream) : List UInt8 := s.held ++ content s.source

theorem held_of_none {s : SourceStream} (h : s.ctx.kind = none) : s.held = [] := by
  simp only [held, h]

variable {e : Err} {s'' s₁ : SourceStream} {x : UInt8} {size : ℕ} {input : List UInt8}

theorem held_of_error {s : SourceStream} (h : s.ctx.kinderr = some e) : s.held = [] := by
  unfold held
  rw [h]
  cases s.ctx.kind <;> rfl

theorem ahead_of_held {s : SourceStream} (h : s.held = []) : s.ahead = content s.source := by
  rw [ahead, h, List.nil_append]

/-- A stream that took these bytes from its source and counted them. -/
structure Took (b : List UInt8) (s s' : SourceStream) : Prop where
  /-- The bytes. -/
  bytes : content s.source = b ++ content s'.source
  /-- The input limit. -/
  remaining : s'.ctx.remaining + b.length = s.ctx.remaining
  /-- The innermost list. -/
  stack : s'.ctx.stack = advance s.ctx.stack b.length

theorem Took.refl (s : SourceStream) : Took [] s s := ⟨rfl, rfl, (advance_zero _).symm⟩

/-- Two pieces were taken. -/
theorem Took.trans {b' : List UInt8} {s s' : SourceStream} (h : Took b s s') (h' : Took b' s' s'') :
    Took (b ++ b') s s'' := by
  refine ⟨?_, ?_, ?_⟩
  · rw [h.bytes, h'.bytes, List.append_assoc]
  · rw [← h.remaining, ← h'.remaining, List.length_append]
    omega
  · rw [h'.stack, h.stack, advance_advance, List.length_append]

variable {limit total : ℕ} {s s' : SourceStream}

/-- A read that was announced with `willRead`. -/
theorem Within.took (h : s.Within limit total) {c : Stream}
    (hwill : s.ctx.willRead b.length = (none, c))
    (hbytes : content s.source = b ++ content source) : Took b s ⟨c, source⟩ := by
  obtain ⟨err, c', hwill', -, -, -, hrem⟩ := willRead_fits h.limited h.fits b.length
  rw [hwill] at hwill'
  obtain ⟨rfl, rfl⟩ := Prod.mk.inj hwill'
  obtain ⟨-, hremaining, hstack⟩ := hrem.resolve_right fun h => h.1 rfl
  exact ⟨hbytes, hremaining, hstack⟩

/-- `readFull`. -/
theorem Within.took_readFull (h : s.Within limit total) (hok : s.readFull n = (b, none, s')) :
    Took b s s' ∧ b.length = n := by
  unfold SourceStream.readFull at hok
  rcases hwill : s.ctx.willRead n with ⟨err, c⟩
  rw [hwill] at hok
  cases err with
  | some e => cases hok
  | none =>
    dsimp only at hok
    have hcontent := (fill_content n s.source).1
    generalize hfill : fill n s.source = r at hok hcontent
    obtain ⟨b', err, source⟩ := r
    cases err with
    | some e => cases hok
    | none =>
      cases hok
      have hlen := fill_full hfill
      exact ⟨h.took (hlen.symm ▸ hwill) hcontent, hlen⟩

/-- `readByte`. -/
theorem Within.took_readByte (h : s.Within limit total) (hok : s.readByte = (x, none, s')) :
    Took [x] s s' := by
  unfold SourceStream.readByte at hok
  rcases hwill : s.ctx.willRead 1 with ⟨err, c⟩
  rw [hwill] at hok
  cases err with
  | some e => cases hok
  | none =>
    dsimp only at hok
    generalize htake : takeByte s.source = r at hok
    obtain ⟨b, err, source⟩ := r
    cases err with
    | some e => cases hok
    | none =>
      cases hok
      exact h.took hwill (takeByte_ok htake)

/-- `readUint`. -/
theorem Within.took_readUint (h : s.Within limit total) {v : ℕ} (hn : 0 < n)
    (hok : s.readUint n = (v, none, s')) :
    ∃ b, Took b s s' ∧ b.length = n ∧ bytesNat b = v ∧ (n = 1 ∨ b.head? ≠ some 0) := by
  match n with
  | 1 =>
    generalize hread : s.readByte = r at hok
    obtain ⟨x, err, s₁⟩ := r
    simp only [SourceStream.readUint, hread] at hok
    cases hok
    exact ⟨[x], h.took_readByte hread, rfl, by simp [bytesNat], .inl rfl⟩
  | n + 2 =>
    generalize hread : s.readFull (n + 2) = r at hok
    obtain ⟨b, err, s₁⟩ := r
    simp only [SourceStream.readUint, hread] at hok
    cases err with
    | some e => cases hok
    | none =>
      dsimp only at hok
      split_ifs at hok with hzero
      · cases hok
      · cases hok
        obtain ⟨htook, hlen⟩ := h.took_readFull hread
        exact ⟨b, htook, hlen, rfl, .inr hzero⟩

/-- The size that follows the tag of a long value. -/
theorem Within.took_checkSize (h : s.Within limit total) (hn : 0 < n)
    (hok : SourceStream.checkSize (s.readUint n) = (size, none, s')) :
    ∃ b, Took b s s' ∧ b.length = n ∧ bytesNat b = size ∧ 56 ≤ size ∧
      (b.length = 1 ∨ b.head? ≠ some 0) := by
  generalize hread : s.readUint n = r at hok
  obtain ⟨v, err, s₁⟩ := r
  cases err with
  | some e => cases hok
  | none =>
    unfold SourceStream.checkSize at hok
    dsimp only at hok
    split_ifs at hok with hsmall
    · cases hok
    · cases hok
      obtain ⟨b, htook, hlen, hval, hhead⟩ := h.took_readUint hn hread
      exact ⟨b, htook, hlen, hval, by omega, hlen.symm ▸ hhead⟩

/-- A header that `Kind` reads: the bytes that it takes are the only ones for kind and size. -/
structure Read (k : Kind) (size : ℕ) (s s' : SourceStream) : Prop where
  /-- The bytes. -/
  took : Took (headOf k size s'.ctx.byteval) s s'
  /-- A single byte is its own encoding. -/
  byteval : k = .byte → s'.ctx.byteval < 0x80
  /-- The size is a `uint64`. -/
  size_lt : size < 2 ^ 64

/-- A short string or list. -/
theorem Took.small (h : Took [x] s s') (hk : k ≠ .byte) (hlow : (headTags k).1.toNat ≤ x.toNat)
    (hhigh : x.toNat < (headTags k).1.toNat + 56) :
    Read k (x - (headTags k).1).toNat s (s'.setByteval 0) := by
  obtain ⟨hheader, hsmall⟩ := header_of_smallTag hlow hhigh
  refine ⟨?_, fun hbyte => absurd hbyte hk, by omega⟩
  rw [headOf_eq hk, hheader]
  exact ⟨h.bytes, h.remaining, h.stack⟩

/-- A long string or list. -/
theorem Took.large (h : Took [x] s s₁) (hwithin : s₁.Within limit total) (hk : k ≠ .byte)
    (hlow : (headTags k).2.toNat < x.toNat) (hhigh : x.toNat ≤ (headTags k).2.toNat + 8)
    (hok : checkSize ((s₁.setByteval 0).readUint (x - (headTags k).2).toNat) = (size, none, s')) :
    Read k size s s' := by
  have hpos : 0 < (x - (headTags k).2).toNat := by
    rw [(tag_split hlow.le).1]
    omega
  obtain ⟨b, htook, hlen, rfl, hsize, hhead⟩ :=
    (hwithin.setByteval 0).took_checkSize hpos hok
  obtain ⟨hheader, hlt⟩ := header_of_largeTag hlow hhigh hlen hsize hhead
  refine ⟨?_, fun hbyte => absurd hbyte hk, hlt⟩
  rw [headOf_eq hk, hheader]
  have htag : Took [x] s (s₁.setByteval 0) := ⟨h.bytes, h.remaining, h.stack⟩
  exact htag.trans htook

/-- `readKind`. -/
theorem Within.read_readKind (h : s.Within limit total) (hok : s.readKind = (k, size, none, s')) :
    Read k size s s' := by
  have hwithin := h.readByte.1
  unfold SourceStream.readKind at hok
  generalize hread : s.readByte = r at hok hwithin
  obtain ⟨x, err, s₁⟩ := r
  cases err with
  | some e => cases hok
  | none =>
    have htook := h.took_readByte hread
    have hmax := x.toNat_lt
    simp only [UInt8.lt_iff_toNat_lt, UInt8.reduceToNat] at hok
    split_ifs at hok with h80 hB8 hC0 hF8
    · cases hok
      refine ⟨⟨htook.bytes, htook.remaining, htook.stack⟩, fun _ => ?_, by decide⟩
      exact UInt8.lt_iff_toNat_lt.mpr h80
    · cases hok
      exact htook.small (k := .string) (by decide) (show 0x80 ≤ x.toNat by omega)
        (show x.toNat < 0x80 + 56 by omega)
    · obtain ⟨rfl, hsize⟩ := Prod.mk.inj hok
      exact htook.large (k := .string) hwithin (by decide) (show 0xB7 < x.toNat by omega)
        (show x.toNat ≤ 0xB7 + 8 by omega) hsize
    · cases hok
      exact htook.small (k := .list) (by decide) (show 0xC0 ≤ x.toNat by omega)
        (show x.toNat < 0xC0 + 56 by omega)
    · obtain ⟨rfl, hsize⟩ := Prod.mk.inj hok
      exact htook.large (k := .list) hwithin (by decide) (show 0xF7 < x.toNat by omega)
        (show x.toNat ≤ 0xF7 + 8 by omega) hsize

/-- What `Kind` reports without error: the remembered header follows what was remembered before
and what was taken since. -/
structure Ahead (k : Kind) (size : ℕ) (s s' : SourceStream) : Prop where
  /-- The bytes that were taken. -/
  took : ∃ b, Took b s s' ∧ s'.held = s.held ++ b
  /-- The remembered kind. -/
  kind : s'.ctx.kind = some k
  /-- The remembered header. -/
  held : s'.held = headOf k size s'.ctx.byteval
  /-- A single byte is its own encoding. -/
  byteval : k = .byte → s'.ctx.byteval < 0x80
  /-- The size is a `uint64`. -/
  size_lt : size < 2 ^ 64

/-- A single byte that is remembered is its own encoding. -/
def SmallByte (s : SourceStream) : Prop :=
  s.ctx.kind = some .byte → s.ctx.kinderr = none → s.ctx.byteval < 0x80

/-- The part of `Kind` that reads a header. -/
theorem Within.ahead_fetchKind (h : s.Within limit total) (hheld : s.held = [])
    (hok : s.fetchKind = (k, size, none, s')) : Ahead k size s s' := by
  unfold SourceStream.fetchKind at hok
  generalize hkind : s.readKind = r at hok
  obtain ⟨k', size', err, s₁⟩ := r
  cases err with
  | some e => cases hok
  | none =>
    simp only [Prod.mk.injEq] at hok
    obtain ⟨rfl, rfl, hsize, rfl⟩ := hok
    obtain ⟨htook, hbyte, hlt⟩ := h.read_readKind hkind
    have hheld' : held (remember k' size' (s₁.ctx.sizeErr size') s₁) =
        headOf k' size' s₁.ctx.byteval := by
      rw [hsize]
      rfl
    refine ⟨⟨_, ⟨htook.bytes, htook.remaining, htook.stack⟩, ?_⟩, rfl, hheld', hbyte, hlt⟩
    rw [hheld, List.nil_append]
    exact hheld'

/-- `Kind`. -/
theorem Bounded.ahead_kindOf (h : s.Bounded limit total) (hsmall : s.SmallByte)
    (hok : s.kindOf = (k, size, none, s')) : Ahead k size s s' := by
  have hwithin : Within limit total { s with ctx := { s.ctx with kinderr := none } } :=
    ⟨h.limited, h.limit_lt, h.remaining_le, h.taken, h.fits⟩
  unfold SourceStream.kindOf at hok
  cases hkind : s.ctx.kind with
  | some k' =>
    rw [hkind] at hok
    simp only [Prod.mk.injEq] at hok
    obtain ⟨rfl, rfl, herr, rfl⟩ := hok
    have hheld : s.held = headOf k' s.ctx.size s.ctx.byteval := by
      simp only [SourceStream.held, hkind, herr]
    have hroom := (h.fits.room (h.cached k' hkind herr)).1
    refine ⟨⟨[], .refl s, (List.append_nil _).symm⟩, hkind, hheld, ?_, ?_⟩
    · rintro rfl
      exact hsmall hkind herr
    · exact lt_of_le_of_lt (hroom.trans h.remaining_le) h.limit_lt
  | none =>
    rw [hkind] at hok
    have hnone : held { s with ctx := { s.ctx with kinderr := none } } = [] := held_of_none hkind
    have hfetch : fetchKind { s with ctx := { s.ctx with kinderr := none } } =
        (k, size, none, s') := by
      dsimp only at hok
      split at hok
      · exact hok
      · split_ifs at hok
        · cases hok
        · exact hok
    obtain ⟨⟨b, htook, hheld⟩, hk, hhead, hbyte, hlt⟩ := hwithin.ahead_fetchKind hnone hfetch
    refine ⟨⟨b, ⟨htook.bytes, htook.remaining, htook.stack⟩, ?_⟩, hk, hhead, hbyte, hlt⟩
    rw [hheld, hnone, held_of_none hkind]

/-- `Raw` on a stream: it returns the bytes of one value, from the remembered header on, and the
stream has counted what it took and stands behind them. -/
structure Cuts (s : SourceStream) (b : List UInt8) (s' : SourceStream) : Prop where
  /-- The bytes of one value. -/
  value : OneValue b
  /-- The bytes follow the header that was remembered. -/
  took : ∃ t, Took t s s' ∧ b = s.held ++ t
  /-- `Kind` is going to read on. -/
  rearmed : s'.ctx.kind = none

/-- A header and the content that it announces are one value. -/
theorem Ahead.cuts (h : Ahead k size s s₁) (hwithin : s₁.Within limit total) (hk : k ≠ .byte)
    {c : List UInt8} (hfull : s₁.readFull size = (c, none, s')) :
    Cuts s (header k size ++ c) s' := by
  obtain ⟨t, htook, hheld⟩ := h.took
  obtain ⟨hcontent, rfl⟩ := hwithin.took_readFull hfull
  have hkind := (hwithin.readFull c.length).2
  rw [hfull] at hkind
  refine ⟨.header hk h.size_lt, ⟨t ++ c, htook.trans hcontent, ?_⟩, hkind⟩
  rw [← List.append_assoc, ← hheld, h.held, headOf_eq hk]

/-- `Raw` of a string or a list reads the content and puts the header in front of it. -/
theorem raw_of_kindOf (hk : k ≠ .byte) (hkind : s.kindOf = (k, size, none, s')) : s.raw =
      match s'.readFull size with
      | (_, some e, s) => ([], some e, s)
      | (b, none, s) => (header k size ++ b, none, s) := by
  unfold raw
  rw [hkind]
  cases k with
  | byte => exact absurd rfl hk
  | string => rfl
  | list => rfl

/-- `Raw` cuts off one value. -/
theorem Bounded.cuts_raw (h : s.Bounded limit total) (hsmall : s.SmallByte)
    (hok : s.raw = (b, none, s')) : Cuts s b s' := by
  have hlooks := h.toWithin.kindOf h.cached
  rcases hkind : s.kindOf with ⟨k, size, err, s₁⟩
  cases err with
  | some e =>
    unfold SourceStream.raw at hok
    rw [hkind] at hok
    cases hok
  | none =>
    have hahead := h.ahead_kindOf hsmall hkind
    by_cases hk : k = .byte
    · subst hk
      unfold SourceStream.raw at hok
      rw [hkind] at hok
      cases hok
      obtain ⟨t, htook, hheld⟩ := hahead.took
      refine ⟨.byte (hahead.byteval rfl), ⟨t, ⟨htook.bytes, htook.remaining, htook.stack⟩, ?_⟩,
        rfl⟩
      rw [← hheld, hahead.held]
      rfl
    · rw [raw_of_kindOf hk hkind] at hok
      rw [hkind] at hlooks
      generalize hfull : s₁.readFull size = r at hok
      obtain ⟨c, err, s₂⟩ := r
      cases err with
      | some e => cases hok
      | none =>
        cases hok
        exact hahead.cuts hlooks.within hk hfull

/-- A stream that may have taken bytes from its source and remembers no kind. -/
structure Reads (s s' : SourceStream) : Prop where
  /-- No kind is remembered. -/
  kind : s'.ctx.kind = none
  /-- Nothing is given back to the source. -/
  suffix : content s'.source <:+ content s.source

theorem Reads.trans (h : Reads s s') (h' : Reads s' s'') : Reads s s'' :=
  ⟨h'.kind, h'.suffix.trans h.suffix⟩

/-- `willRead` forgets the kind. -/
theorem kind_willRead (c : Stream) (n : ℕ) : (c.willRead n).2.kind = none := by
  unfold Stream.willRead Stream.takeRemaining
  dsimp only
  split
  · split_ifs <;> rfl
  · split_ifs <;> rfl

/-- `readFull`. -/
theorem reads_readFull (s : SourceStream) (n : ℕ) : Reads s (s.readFull n).2.2 := by
  have hkind := kind_willRead s.ctx n
  unfold readFull
  generalize s.ctx.willRead n = r at hkind ⊢
  obtain ⟨err, c⟩ := r
  cases err with
  | some e => exact ⟨hkind, List.suffix_refl _⟩
  | none => exact ⟨hkind, _, (fill_content n s.source).1.symm⟩

/-- `readByte`. -/
theorem reads_readByte (s : SourceStream) : Reads s s.readByte.2.2 := by
  have hkind := kind_willRead s.ctx 1
  unfold readByte
  generalize s.ctx.willRead 1 = r at hkind ⊢
  obtain ⟨err, c⟩ := r
  cases err with
  | some e => exact ⟨hkind, List.suffix_refl _⟩
  | none => exact ⟨hkind, takeByte_suffix s.source⟩

/-- `readUint`. -/
theorem reads_readUint (s : SourceStream) (n : ℕ) : Reads s (s.readUint n).2.2 := by
  match n with
  | 0 => exact ⟨rfl, List.suffix_refl _⟩
  | 1 => exact s.reads_readByte
  | n + 2 =>
    have hfull := s.reads_readFull (n + 2)
    simp only [readUint]
    generalize s.readFull (n + 2) = r at hfull ⊢
    obtain ⟨b, err, s'⟩ := r
    cases err with
    | some e => exact hfull
    | none =>
      dsimp only
      split_ifs <;> exact hfull

/-- `readKind`. -/
theorem reads_readKind (s : SourceStream) : Reads s s.readKind.2.2.2 := by
  have hbyte := s.reads_readByte
  unfold readKind
  generalize s.readByte = r at hbyte ⊢
  obtain ⟨x, err, s₁⟩ := r
  have hsize (n : ℕ) : Reads s (checkSize ((s₁.setByteval 0).readUint n)).2.2 := by
    have huint := (s₁.setByteval 0).reads_readUint n
    generalize (s₁.setByteval 0).readUint n = r at huint ⊢
    obtain ⟨v, err, s₂⟩ := r
    cases err <;> exact hbyte.trans ⟨huint.kind, huint.suffix⟩
  cases err with
  | some e => exact hbyte
  | none =>
    dsimp only
    split_ifs
    · exact ⟨hbyte.kind, hbyte.suffix⟩
    · exact ⟨hbyte.kind, hbyte.suffix⟩
    · exact hsize _
    · exact ⟨hbyte.kind, hbyte.suffix⟩
    · exact hsize _

/-- A stream over the input: what is ahead of it is the end of the input. -/
structure Follows (input : List UInt8) (s : SourceStream) : Prop where
  /-- What is ahead. -/
  suffix : s.ahead <:+ input
  /-- A single byte that is remembered is its own encoding. -/
  small : s.SmallByte

/-- Reading on. -/
theorem Follows.reads (h : Follows input s) (hreads : Reads s s') : Follows input s' := by
  refine ⟨?_, fun hk => ?_⟩
  · rw [ahead_of_held (held_of_none hreads.kind)]
    exact (hreads.suffix.trans (List.suffix_append _ _)).trans h.suffix
  · rw [hreads.kind] at hk
    cases hk

/-- A header that could not be read is not remembered. -/
theorem fetchKind_error (hok : s.fetchKind = (k, size, some e, s')) :
    content s'.source <:+ content s.source ∧ s'.ctx.kinderr = some e := by
  have hreads := s.reads_readKind
  unfold fetchKind at hok
  generalize s.readKind = r at hok hreads
  obtain ⟨k', size', err, s₁⟩ := r
  cases err with
  | some e' =>
    cases hok
    exact ⟨hreads.suffix, rfl⟩
  | none =>
    simp only [Prod.mk.injEq] at hok
    obtain ⟨rfl, rfl, hsize, rfl⟩ := hok
    exact ⟨hreads.suffix, hsize⟩

/-- After an error of `Kind` the stream is as before, or it remembers no header. -/
theorem kindOf_error (hok : s.kindOf = (k, size, some e, s')) :
    s' = s ∨ content s'.source <:+ content s.source ∧
      (s'.ctx.kind = none ∨ s'.ctx.kinderr = some e) := by
  unfold kindOf at hok
  cases hkind : s.ctx.kind with
  | some k' =>
    rw [hkind] at hok
    simp only [Prod.mk.injEq] at hok
    exact .inl hok.2.2.2.symm
  | none =>
    rw [hkind] at hok
    dsimp only at hok
    refine .inr ?_
    split at hok
    · obtain ⟨hsuffix, herr⟩ := fetchKind_error hok
      exact ⟨hsuffix, .inr herr⟩
    · split_ifs at hok
      · cases hok
        exact ⟨List.suffix_refl _, .inl hkind⟩
      · obtain ⟨hsuffix, herr⟩ := fetchKind_error hok
        exact ⟨hsuffix, .inr herr⟩

/-- `Kind`. -/
theorem Follows.kindOf (h : Follows input s) (hb : s.Bounded limit total) :
    Follows input s.kindOf.2.2.2 := by
  rcases hkind : s.kindOf with ⟨k, size, err, s₁⟩
  cases err with
  | none =>
    obtain ⟨⟨b, htook, hheld⟩, hk, -, hbyte, -⟩ := hb.ahead_kindOf h.small hkind
    refine ⟨?_, fun hk' _ => hbyte (Option.some.inj (hk.symm.trans hk'))⟩
    have hsame : s₁.ahead = s.ahead := by
      rw [ahead, ahead, hheld, htook.bytes, List.append_assoc]
    exact hsame ▸ h.suffix
  | some e =>
    rcases kindOf_error hkind with rfl | ⟨hsuffix, hnone | herr⟩
    · exact h
    · exact h.reads ⟨hnone, hsuffix⟩
    · refine ⟨?_, fun _ hok => ?_⟩
      · rw [ahead_of_held (held_of_error herr)]
        exact (hsuffix.trans (List.suffix_append _ _)).trans h.suffix
      · exact absurd (hok.symm.trans herr) (by simp)

/-- The stream is as before, or it read on and remembers nothing. -/
def After (s s' : SourceStream) : Prop := s' = s ∨ Reads s s'

theorem Follows.after (h : Follows input s) (hafter : After s s') : Follows input s' := by
  rcases hafter with rfl | hreads
  · exact h
  · exact h.reads hreads

/-- `Bytes` reads on after `Kind`. -/
theorem after_bytes (s : SourceStream) : After s.kindOf.2.2.2 s.bytes.2.2 := by
  unfold bytes
  generalize s.kindOf = r
  obtain ⟨k, size, err, s₁⟩ := r
  have hfull := s₁.reads_readFull size
  cases err with
  | some e => exact .inl rfl
  | none =>
    cases k with
    | byte => exact .inr ⟨rfl, List.suffix_refl _⟩
    | list => exact .inl rfl
    | string =>
      dsimp only
      generalize s₁.readFull size = r at hfull ⊢
      obtain ⟨b, err, s₂⟩ := r
      cases err with
      | some e => exact .inr hfull
      | none =>
        dsimp only
        split_ifs <;> exact .inr hfull

/-- `Raw` reads on after `Kind`. -/
theorem after_raw (s : SourceStream) : After s.kindOf.2.2.2 s.raw.2.2 := by
  rcases hkind : s.kindOf with ⟨k, size, err, s₁⟩
  cases err with
  | some e =>
    unfold raw
    rw [hkind]
    exact .inl rfl
  | none =>
    by_cases hk : k = .byte
    · subst hk
      unfold raw
      rw [hkind]
      exact .inr ⟨rfl, List.suffix_refl _⟩
    · have hfull := s₁.reads_readFull size
      rw [raw_of_kindOf hk hkind]
      generalize s₁.readFull size = r at hfull ⊢
      obtain ⟨b, err, s₂⟩ := r
      cases err <;> exact .inr hfull

/-- `uint` reads on after `Kind`. -/
theorem after_uint (s : SourceStream) (maxbits : ℕ) :
    After s.kindOf.2.2.2 (s.uint maxbits).2.2 := by
  unfold uint
  generalize s.kindOf = r
  obtain ⟨k, size, err, s₁⟩ := r
  have huint := s₁.reads_readUint size
  cases err with
  | some e => exact .inl rfl
  | none =>
    cases k with
    | byte =>
      dsimp only
      split_ifs
      · exact .inl rfl
      · exact .inr ⟨rfl, List.suffix_refl _⟩
    | list => exact .inl rfl
    | string =>
      dsimp only
      split_ifs
      · exact .inl rfl
      · generalize s₁.readUint size = r at huint ⊢
        obtain ⟨v, err, s₂⟩ := r
        cases err with
        | some e => cases e <;> exact .inr huint
        | none =>
          dsimp only
          split_ifs <;> exact .inr huint

/-- `Bool` reads on after `Kind`. -/
theorem after_bool (s : SourceStream) : After s.kindOf.2.2.2 s.bool.2.2 := by
  have huint := s.after_uint 8
  unfold bool
  generalize s.uint 8 = r at huint ⊢
  obtain ⟨v, err, s'⟩ := r
  cases err with
  | some e => exact huint
  | none =>
    match v with
    | 0 => exact huint
    | 1 => exact huint
    | v + 2 => exact huint

/-- `List` takes nothing after `Kind`. -/
theorem after_list (s : SourceStream) : After s.kindOf.2.2.2 s.list.2.2 := by
  unfold list
  generalize s.kindOf = r
  obtain ⟨k, size, err, s₁⟩ := r
  cases err with
  | some e => exact .inl rfl
  | none =>
    cases k with
    | byte => exact .inl rfl
    | string => exact .inl rfl
    | list => exact .inr ⟨rfl, List.suffix_refl _⟩

/-- `ListEnd` takes nothing. -/
theorem after_listEnd (s : SourceStream) : After s s.listEnd.2 := by
  unfold listEnd Stream.listEnd
  cases s.ctx.stack with
  | nil => exact .inl rfl
  | cons tos rest =>
    dsimp only
    split_ifs
    · exact .inl rfl
    · exact .inr ⟨rfl, List.suffix_refl _⟩

/-- A call that returns. -/
theorem Follows.returned (h : Follows input s) (hb : s.Bounded limit total) (c : Call) :
    Follows input (s.returned c) := by
  have hkind := h.kindOf hb
  cases c with
  | kind => exact hkind
  | bytes => exact hkind.after s.after_bytes
  | raw => exact hkind.after s.after_raw
  | uint => exact hkind.after (s.after_uint 64)
  | bool => exact hkind.after s.after_bool
  | list => exact hkind.after s.after_list
  | listEnd => exact h.after s.after_listEnd

/-- A call. -/
theorem Follows.call (h : Follows input s) (hb : s.Bounded limit total) (c : Call) :
    Follows input (s.call c) := by
  have hkind := h.kindOf hb
  unfold SourceStream.call
  generalize s.kindOf = r at hkind ⊢
  obtain ⟨k, size, err, s'⟩ := r
  cases err with
  | some e => exact h.returned hb c
  | none =>
    dsimp only
    split_ifs
    · exact hkind
    · exact h.returned hb c

/-- Every sequence of calls stays on the input. -/
theorem Follows.foldl_call (h : Follows input s) (hb : s.Bounded limit total) (cs : List Call) :
    Follows input (cs.foldl (fun s c => s.call c) s) := by
  induction cs generalizing s with
  | nil => exact h
  | cons c cs ih => exact ih (h.call hb c) (hb.call c)

/-- A new stream with an input limit and its input. A list stream pretends to have read the header
of a list in front of the source. -/
inductive Opens (source : List Chunk) (limit : ℕ) : SourceStream → List UInt8 → Prop
  /-- `NewStream`. -/
  | stream : Opens source limit (new source limit) (content source)
  /-- `NewListStream`. -/
  | listStream : Opens source limit (newList source limit) (header .list limit ++ content source)

theorem Opens.follows (h : Opens source limit s input) : Follows input s := by
  cases h with
  | stream => exact ⟨List.suffix_refl _, fun hk => nomatch hk⟩
  | listStream => exact ⟨List.suffix_refl _, fun hk => nomatch hk⟩

/-- A new stream is within its bounds. -/
theorem Opens.bounded (h : Opens source limit s input) (hlimit : limit < 2 ^ 64) :
    Bounded limit (content source).length s := by
  cases h with
  | stream => exact bounded_new source hlimit
  | listStream => exact bounded_newList source hlimit

/-- `DecodeBytes` into a `RawValue`. -/
def decodeRawValue (b : List UInt8) : List UInt8 × Option Err :=
  match (new [⟨b, none⟩] b.length).raw with
  | (_, some e, _) => ([], some e)
  | (v, none, s) => (v, if (content s.source).length > 0 then some .moreThanOneValue else none)

theorem Cuts.ahead (h : Cuts s b s') : s.ahead = b ++ s'.ahead := by
  obtain ⟨t, htook, hb⟩ := h.took
  rw [ahead_of_held (held_of_none h.rearmed), hb, SourceStream.ahead, htook.bytes,
    List.append_assoc]

/-- A `RawValue` that was decoded is the input. -/
theorem decodeRawValue_ok {v : List UInt8} (hb : b.length < 2 ^ 64)
    (hok : decodeRawValue b = (v, none)) : v = b := by
  unfold decodeRawValue at hok
  generalize hraw : (new [⟨b, none⟩] b.length).raw = r at hok
  obtain ⟨v', err, s⟩ := r
  cases err with
  | some e => cases hok
  | none =>
    obtain ⟨rfl, hrest⟩ := Prod.mk.inj hok
    have hnone : content s.source = [] := by
      by_contra hne
      rw [if_pos (List.length_pos_iff.mpr hne)] at hrest
      cases hrest
    have hcuts := (bounded_new [⟨b, none⟩] hb).cuts_raw (fun hk => nomatch hk) hraw
    have hahead := hcuts.ahead
    rw [ahead_of_held (held_of_none hcuts.rearmed), hnone, List.append_nil] at hahead
    have hinput : SourceStream.ahead (new [⟨b, none⟩] b.length) = b := List.append_nil b
    exact hahead.symm.trans hinput

/-- After any calls on a stream with an input limit, `Raw` returns the bytes of one value from the
start of its header on, which are the next bytes of the input, and leaves the stream behind them.
A `RawValue` that was decoded from a slice is encoded as that slice. -/
theorem raw_exact {source : List Chunk} (hlimit : limit < 2 ^ 64) {s₀ : SourceStream}
    {input : List UInt8} (hopen : Opens source limit s₀ input) (cs : List Call)
    (hs : s = cs.foldl (fun s c => s.call c) s₀) :
    (∀ b s', s.raw = (b, none, s') → Cuts s b s' ∧ s.ahead = b ++ s'.ahead ∧
        ∃ before, input = before ++ (b ++ content s'.source)) ∧
      ∀ (slice : SliceBytes) (v : List UInt8), decodeRawValue slice.val = (v, none) →
        (Value.rawValue v).encodeToBytes = .ok slice.val := by
  subst hs
  refine ⟨fun b s' hok => ?_, fun slice v hok => ?_⟩
  · have hfollows := hopen.follows.foldl_call (hopen.bounded hlimit) cs
    have hcuts := ((hopen.bounded hlimit).foldl_call cs).cuts_raw hfollows.small hok
    obtain ⟨before, hbefore⟩ := hfollows.suffix
    refine ⟨hcuts, hcuts.ahead, before, ?_⟩
    rw [← ahead_of_held (held_of_none hcuts.rearmed), ← hcuts.ahead, hbefore]
  · obtain rfl := decodeRawValue_ok (slice.property.trans (by decide)) hok
    exact Value.encodeToBytes_eq_ok.mpr ⟨rfl, slice.property⟩

/-- `Raw` after `Kind` on a string of three bytes. -/
theorem raw_exact_shortString :
    (∀ b s', ((new shortString 4).call .kind).raw = (b, none, s') →
        Cuts ((new shortString 4).call .kind) b s' ∧
          ((new shortString 4).call .kind).ahead = b ++ s'.ahead ∧
          ∃ before, content shortString = before ++ (b ++ content s'.source)) ∧
      ((new shortString 4).call .kind).raw.1 = [0x83, 1, 2, 3] ∧
      (Value.rawValue [0x83, 1, 2, 3]).encodeToBytes = .ok [0x83, 1, 2, 3] := by
  have hopen : Opens shortString 4 (new shortString 4) (content shortString) := .stream
  have hexact := raw_exact (by decide) hopen [.kind] rfl
  exact ⟨hexact.1, by decide +kernel, hexact.2 ⟨[0x83, 1, 2, 3], by decide⟩ _ rfl⟩

end SourceStream

end Hashgrid.Rlp
