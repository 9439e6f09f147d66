import Hashgrid.Rlp.Stream

/-!
# Streams over any source

A `Stream` reads from any `ByteReader`. What a source does while it is read is a list of
chunks: each holds the bytes that one or more `Read` and `ReadByte` calls hand over, and the
error that comes with the last of them. A source may fail and go on later, hand over bytes
together with an error, or hand over nothing without an error.
-/

namespace Hashgrid.Rlp

open Hashgrid.Bytes

/-- What a source hands over in one piece. -/
structure Chunk where
  /-- The bytes. -/
  data : List UInt8
  /-- The error that the last `Read` call returns with them. -/
  err : Option Err

/-- The `Read` calls of `readFull` for `n` bytes: the bytes stored, the error, and what the source
does afterwards. The loop goes on until the buffer is full or a call returns an error. -/
def fill : ℕ → List Chunk → List UInt8 × Option Err × List Chunk
  | 0, source => ([], none, source)
  | _ + 1, [] => ([], some .eof, [])
  | n + 1, ⟨data, err⟩ :: source =>
    if n + 1 < data.length then (data.take (n + 1), none, ⟨data.drop (n + 1), err⟩ :: source)
    else
      match err with
      | some e => (data, some e, source)
      | none =>
        match fill (n + 1 - data.length) source with
        | (b, err, source) => (data ++ b, err, source)

/-- `ReadByte` of the source. -/
def takeByte : List Chunk → UInt8 × Option Err × List Chunk
  | [] => (0, some .eof, [])
  | ⟨[], none⟩ :: source => takeByte source
  | ⟨[], some e⟩ :: source => (0, some e, source)
  | ⟨b :: data, err⟩ :: source => (b, none, ⟨data, err⟩ :: source)

/-- An end of the source in the middle of a value is unexpected. -/
def unexpected : Err → Err
  | .eof => .unexpectedEOF
  | e => e

/-- `Stream` over a source. -/
structure SourceStream where
  /-- The decoding context, whose own input is not used. -/
  ctx : Stream
  /-- What the source does from now on. -/
  source : List Chunk

namespace SourceStream

/-- `readFull`. -/
def readFull (n : ℕ) (s : SourceStream) : List UInt8 × Option Err × SourceStream :=
  match s.ctx.willRead n with
  | (some e, ctx) => ([], some e, { s with ctx := ctx })
  | (none, ctx) =>
    match fill n s.source with
    | (b, err, source) => (b, err.map unexpected, ⟨ctx, source⟩)

/-- `readByte`. -/
def readByte (s : SourceStream) : UInt8 × Option Err × SourceStream :=
  match s.ctx.willRead 1 with
  | (some e, ctx) => (0, some e, { s with ctx := ctx })
  | (none, ctx) =>
    match takeByte s.source with
    | (b, err, source) => (b, err.map unexpected, ⟨ctx, source⟩)

/-- The stream after the kind of the value ahead is forgotten. -/
def rearm (s : SourceStream) : SourceStream := { s with ctx := { s.ctx with kind := none } }

/-- `readUint` for an integer of `size` bytes. -/
def readUint (size : ℕ) (s : SourceStream) : ℕ × Option Err × SourceStream :=
  match size with
  | 0 => (0, none, s.rearm)
  | 1 =>
    match s.readByte with
    | (b, err, s) => (b.toNat, err, s)
  | size =>
    match s.readFull size with
    | (_, some e, s) => (0, some e, s)
    | (b, none, s) =>
      if b.head? = some 0 then (0, some .canonSize, s) else (bytesNat b, none, s)

/-- The check of `readKind` that a separate size is not below 56. -/
def checkSize : ℕ × Option Err × SourceStream → ℕ × Option Err × SourceStream
  | (size, none, s) => (size, if size < 56 then some .canonSize else none, s)
  | (size, some e, s) => (size, some e, s)

/-- The stream with the value of a single byte. -/
def setByteval (b : UInt8) (s : SourceStream) : SourceStream :=
  { s with ctx := { s.ctx with byteval := b } }

/-- `readKind`. -/
def readKind (s : SourceStream) : Kind × ℕ × Option Err × SourceStream :=
  match s.readByte with
  | (_, some e, s) => (.byte, 0, some (s.ctx.topLevelErr e), s)
  | (b, none, s) =>
    if b < 0x80 then (.byte, 0, none, s.setByteval b)
    else if b < 0xB8 then (.string, (b - 0x80).toNat, none, s.setByteval 0)
    else if b < 0xC0 then (.string, checkSize ((s.setByteval 0).readUint (b - 0xB7).toNat))
    else if b < 0xF8 then (.list, (b - 0xC0).toNat, none, s.setByteval 0)
    else (.list, checkSize ((s.setByteval 0).readUint (b - 0xF7).toNat))

/-- The stream with the kind of the value ahead. -/
def remember (k : Kind) (size : ℕ) (err : Option Err) (s : SourceStream) : SourceStream :=
  { s with ctx := { s.ctx with kind := some k, size := size, kinderr := err } }

/-- The part of `Kind` that reads a header and remembers it. -/
def fetchKind (s : SourceStream) : Kind × ℕ × Option Err × SourceStream :=
  match s.readKind with
  | (k, size, some e, s) => (k, size, some e, s.remember k size (some e))
  | (k, size, none, s) =>
    (k, size, s.ctx.sizeErr size, s.remember k size (s.ctx.sizeErr size))

/-- `Kind`. -/
def kindOf (s : SourceStream) : Kind × ℕ × Option Err × SourceStream :=
  match s.ctx.kind with
  | some k => (k, s.ctx.size, s.ctx.kinderr, s)
  | none =>
    let s := { s with ctx := { s.ctx with kinderr := none } }
    match s.ctx.stack with
    | [] => s.fetchKind
    | tos :: _ => if tos.pos = tos.size then (.byte, 0, some .eol, s) else s.fetchKind

/-- `Bytes`. -/
def bytes (s : SourceStream) : List UInt8 × Option Err × SourceStream :=
  match s.kindOf with
  | (_, _, some e, s) => ([], some e, s)
  | (.byte, _, none, s) => ([s.ctx.byteval], none, s.rearm)
  | (.string, size, none, s) =>
    match s.readFull size with
    | (_, some e, s) => ([], some e, s)
    | (b, none, s) =>
      if size = 1 ∧ b.headD 0 < 128 then ([], some .canonSize, s) else (b, none, s)
  | (.list, _, none, s) => ([], some .expectedString, s)

/-- `Raw`. -/
def raw (s : SourceStream) : List UInt8 × Option Err × SourceStream :=
  match s.kindOf with
  | (_, _, some e, s) => ([], some e, s)
  | (.byte, _, none, s) => ([s.ctx.byteval], none, s.rearm)
  | (k, size, none, s) =>
    match s.readFull size with
    | (_, some e, s) => ([], some e, s)
    | (b, none, s) =>
      (if k = .string then puthead 0x80 0xB7 size ++ b else puthead 0xC0 0xF7 size ++ b, none, s)

/-- `uint`. -/
def uint (maxbits : ℕ) (s : SourceStream) : ℕ × Option Err × SourceStream :=
  match s.kindOf with
  | (_, _, some e, s) => (0, some e, s)
  | (.byte, _, none, s) =>
    if s.ctx.byteval = 0 then (0, some .canonInt, s)
    else (s.ctx.byteval.toNat, none, s.rearm)
  | (.string, size, none, s) =>
    if size > maxbits / 8 then (0, some .uintOverflow, s)
    else
      match s.readUint size with
      | (_, some .canonSize, s) => (0, some .canonInt, s)
      | (_, some e, s) => (0, some e, s)
      | (v, none, s) =>
        if size > 0 ∧ v < 128 then (0, some .canonSize, s) else (v, none, s)
  | (.list, _, none, s) => (0, some .expectedString, s)

/-- `Bool`. -/
def bool (s : SourceStream) : Bool × Option Err × SourceStream :=
  match s.uint 8 with
  | (_, some e, s) => (false, some e, s)
  | (0, none, s) => (false, none, s)
  | (1, none, s) => (true, none, s)
  | (num, none, s) => (false, some (.invalidBool num), s)

/-- `List`. -/
def list (s : SourceStream) : ℕ × Option Err × SourceStream :=
  match s.kindOf with
  | (_, _, some e, s) => (0, some e, s)
  | (.list, size, none, s) =>
    (size, none,
      { s with ctx := { s.ctx with stack := ⟨0, size⟩ :: s.ctx.stack, kind := none, size := 0 } })
  | (_, _, none, s) => (0, some .expectedList, s)

/-- `ListEnd`. -/
def listEnd (s : SourceStream) : Option Err × SourceStream :=
  match s.ctx.listEnd with
  | (err, ctx) => (err, { s with ctx := ctx })

/-- The source returns no error before its end. -/
def Smooth (source : List Chunk) : Prop := ∀ c ∈ source, c.err = none

/-- The bytes of a source. -/
def content (source : List Chunk) : List UInt8 := (source.map Chunk.data).flatten

/-- The stream over the bytes of the source. -/
def view (s : SourceStream) : Stream := { s.ctx with input := content s.source }

variable {source : List Chunk} {s : SourceStream}

/-- Bytes from a smooth source. -/
theorem fill_smooth {n : ℕ} (h : Smooth source) :
    ∃ source', fill n source = ((content source).take n,
        if (content source).length < n then some .eof else none, source') ∧
      Smooth source' ∧ content source' = (content source).drop n := by
  induction source generalizing n with
  | nil =>
    cases n with
    | zero => exact ⟨[], rfl, h, rfl⟩
    | succ n => exact ⟨[], by simp [fill, content], h, by simp [content]⟩
  | cons c source ih =>
    cases n with
    | zero => exact ⟨c :: source, by simp [fill], h, by simp⟩
    | succ n =>
      obtain ⟨data, err⟩ := c
      obtain rfl : err = none := h _ List.mem_cons_self
      have hrest : Smooth source := fun c hc => h c (List.mem_cons_of_mem _ hc)
      have hcontent : content (⟨data, none⟩ :: source) = data ++ content source := rfl
      by_cases hlt : n + 1 < data.length
      · refine ⟨⟨data.drop (n + 1), none⟩ :: source, ?_, ?_, ?_⟩
        · have hmore : ¬ data.length + (content source).length < n + 1 := by omega
          simp only [fill, if_pos hlt, hcontent, List.take_append_of_le_length hlt.le,
            List.length_append, if_neg hmore]
        · intro c hc
          rcases List.mem_cons.mp hc with rfl | hc
          · rfl
          · exact hrest c hc
        · rw [hcontent, List.drop_append_of_le_length hlt.le]
          rfl
      · obtain ⟨source', hfill, hsmooth, hdrop⟩ := ih (n := n + 1 - data.length) hrest
        have hshort : data.length + (content source).length < n + 1 ↔
            (content source).length < n + 1 - data.length := by omega
        have htake : data.take (n + 1) = data := List.take_of_length_le (by omega)
        have hnil : data.drop (n + 1) = [] := List.drop_eq_nil_of_le (by omega)
        refine ⟨source', ?_, hsmooth, ?_⟩
        · simp only [fill, if_neg hlt, hfill, hcontent, List.take_append, htake,
            List.length_append, hshort]
        · rw [hdrop, hcontent, List.drop_append, hnil, List.nil_append]

/-- A byte from a smooth source. -/
theorem takeByte_smooth (h : Smooth source) :
    ∃ source', Smooth source' ∧ content source' = (content source).drop 1 ∧
      takeByte source =
        ((content source).headD 0, if content source = [] then some .eof else none, source') := by
  induction source with
  | nil => exact ⟨[], h, rfl, rfl⟩
  | cons c source ih =>
    obtain ⟨data, err⟩ := c
    obtain rfl : err = none := h _ List.mem_cons_self
    have hrest : Smooth source := fun c hc => h c (List.mem_cons_of_mem _ hc)
    cases data with
    | nil => exact ih hrest
    | cons b data =>
      refine ⟨⟨data, none⟩ :: source, ?_, rfl, rfl⟩
      intro c hc
      rcases List.mem_cons.mp hc with rfl | hc
      · rfl
      · exact hrest c hc

/-- `willRead` does not look at the input. -/
theorem willRead_input (c : Stream) (n : ℕ) (inp : List UInt8) :
    Stream.willRead n { c with input := inp } =
      ((c.willRead n).1, { (c.willRead n).2 with input := inp }) := by
  unfold Stream.willRead Stream.takeRemaining
  dsimp only
  split
  · split_ifs <;> rfl
  · split_ifs <;> rfl

/-- The operation over the source is the one over its bytes. -/
def Mirrors {α : Type} (r : α × Option Err × SourceStream) (r' : α × Option Err × Stream) : Prop :=
  r' = (r.1, r.2.1, r.2.2.view) ∧ Smooth r.2.2.source

/-- `readFull`. -/
theorem mirrors_readFull (h : Smooth s.source) (n : ℕ) :
    Mirrors (s.readFull n) (s.view.readFull n) := by
  obtain ⟨source', hfill, hsmooth, hdrop⟩ := fill_smooth (n := n) h
  have hwill := willRead_input s.ctx n (content s.source)
  unfold readFull Stream.readFull view
  rw [hwill]
  rcases s.ctx.willRead n with ⟨err, c⟩
  cases err with
  | some e => exact ⟨rfl, h⟩
  | none =>
    dsimp only
    rw [hfill]
    refine ⟨?_, hsmooth⟩
    by_cases hshort : (content s.source).length < n
    · simp [hshort, unexpected, view, hdrop]
    · simp [hshort, view, hdrop]

/-- `readByte`. -/
theorem mirrors_readByte (h : Smooth s.source) : Mirrors s.readByte s.view.readByte := by
  obtain ⟨source', hsmooth, hdrop, htake⟩ := takeByte_smooth h
  have hwill := willRead_input s.ctx 1 (content s.source)
  unfold readByte Stream.readByte view
  rw [hwill]
  rcases s.ctx.willRead 1 with ⟨err, c⟩
  cases err with
  | some e => exact ⟨rfl, h⟩
  | none =>
    dsimp only
    rw [htake]
    refine ⟨?_, hsmooth⟩
    cases hcontent : content s.source with
    | nil => simp [unexpected, view, hdrop, hcontent]
    | cons b rest => simp [view, hdrop, hcontent]

/-- `readUint`. -/
theorem mirrors_readUint (h : Smooth s.source) (size : ℕ) :
    Mirrors (s.readUint size) (s.view.readUint size) := by
  match size with
  | 0 => exact ⟨rfl, h⟩
  | 1 =>
    obtain ⟨hbyte, hsmooth⟩ := mirrors_readByte h
    refine ⟨?_, hsmooth⟩
    simp only [Stream.readUint, hbyte]
    rfl
  | size + 2 =>
    obtain ⟨hfull, hsmooth⟩ := mirrors_readFull h (size + 2)
    simp only [readUint, Stream.readUint, hfull]
    rcases hr : s.readFull (size + 2) with ⟨b, err, s'⟩
    rw [hr] at hsmooth
    cases err with
    | some e => exact ⟨rfl, hsmooth⟩
    | none =>
      dsimp only
      split_ifs <;> exact ⟨rfl, hsmooth⟩

/-- The operation over the source finds the same kind as the one over its bytes. -/
def MirrorsKind (r : Kind × ℕ × Option Err × SourceStream) (r' : Kind × ℕ × Option Err × Stream) :
    Prop :=
  r' = (r.1, r.2.1, r.2.2.1, r.2.2.2.view) ∧ Smooth r.2.2.2.source

/-- A separate size. -/
theorem mirrorsKind_checkSize (h : Smooth s.source) (k : Kind) (size : ℕ) :
    MirrorsKind (k, checkSize (s.readUint size)) (k, Stream.checkSize (s.view.readUint size)) := by
  obtain ⟨huint, hsmooth⟩ := mirrors_readUint h size
  rw [huint]
  generalize s.readUint size = r at hsmooth ⊢
  obtain ⟨v, err, s'⟩ := r
  cases err <;> exact ⟨rfl, hsmooth⟩

/-- `readKind`. -/
theorem mirrors_readKind (h : Smooth s.source) : MirrorsKind s.readKind s.view.readKind := by
  obtain ⟨hbyte, hsmooth⟩ := mirrors_readByte h
  unfold readKind Stream.readKind
  rw [hbyte]
  generalize s.readByte = r at hsmooth ⊢
  obtain ⟨b, err, s'⟩ := r
  cases err with
  | some e => exact ⟨rfl, hsmooth⟩
  | none =>
    dsimp only at hsmooth ⊢
    split_ifs
    · exact ⟨rfl, hsmooth⟩
    · exact ⟨rfl, hsmooth⟩
    · exact mirrorsKind_checkSize (s := s'.setByteval 0) hsmooth .string _
    · exact ⟨rfl, hsmooth⟩
    · exact mirrorsKind_checkSize (s := s'.setByteval 0) hsmooth .list _

/-- The part of `Kind` that reads a header. -/
theorem mirrors_fetchKind (h : Smooth s.source) : MirrorsKind s.fetchKind s.view.fetchKind := by
  obtain ⟨hkind, hsmooth⟩ := mirrors_readKind h
  unfold fetchKind Stream.fetchKind
  rw [hkind]
  generalize s.readKind = r at hsmooth ⊢
  obtain ⟨k, size, err, s'⟩ := r
  cases err <;> exact ⟨rfl, hsmooth⟩

/-- `Kind`. -/
theorem mirrors_kindOf (h : Smooth s.source) : MirrorsKind s.kindOf s.view.kindOf := by
  have hfetch := mirrors_fetchKind (s := { s with ctx := { s.ctx with kinderr := none } }) h
  obtain ⟨⟨input, remaining, limited, kind, size, byteval, kinderr, stack⟩, source⟩ := s
  cases kind with
  | some k => exact ⟨rfl, h⟩
  | none =>
    cases stack with
    | nil => exact hfetch
    | cons tos rest =>
      simp only [kindOf, Stream.kindOf, view]
      split_ifs
      · exact ⟨rfl, h⟩
      · exact hfetch

/-- `Bytes`. -/
theorem mirrors_bytes (h : Smooth s.source) : Mirrors s.bytes s.view.bytes := by
  obtain ⟨hkind, hsmooth⟩ := mirrors_kindOf h
  unfold bytes Stream.bytes
  rw [hkind]
  generalize s.kindOf = r at hsmooth ⊢
  obtain ⟨k, size, err, s'⟩ := r
  cases err with
  | some e => exact ⟨rfl, hsmooth⟩
  | none =>
    cases k with
    | byte => exact ⟨rfl, hsmooth⟩
    | list => exact ⟨rfl, hsmooth⟩
    | string =>
      obtain ⟨hfull, hsmooth'⟩ := mirrors_readFull hsmooth size
      dsimp only at hfull hsmooth' ⊢
      rw [hfull]
      generalize s'.readFull size = r at hsmooth' ⊢
      obtain ⟨b, err, s₂⟩ := r
      cases err with
      | some e => exact ⟨rfl, hsmooth'⟩
      | none =>
        dsimp only
        split_ifs <;> exact ⟨rfl, hsmooth'⟩

/-- `uint`. -/
theorem mirrors_uint (h : Smooth s.source) (maxbits : ℕ) :
    Mirrors (s.uint maxbits) (s.view.uint maxbits) := by
  obtain ⟨hkind, hsmooth⟩ := mirrors_kindOf h
  unfold uint Stream.uint
  rw [hkind]
  generalize s.kindOf = r at hsmooth ⊢
  obtain ⟨k, size, err, s'⟩ := r
  cases err with
  | some e => exact ⟨rfl, hsmooth⟩
  | none =>
    cases k with
    | byte =>
      dsimp only
      rw [show s'.view.byteval = s'.ctx.byteval from rfl]
      split_ifs <;> exact ⟨rfl, hsmooth⟩
    | list => exact ⟨rfl, hsmooth⟩
    | string =>
      obtain ⟨huint, hsmooth'⟩ := mirrors_readUint hsmooth size
      dsimp only at huint hsmooth' ⊢
      split_ifs
      · exact ⟨rfl, hsmooth⟩
      · rw [huint]
        generalize s'.readUint size = r at hsmooth' ⊢
        obtain ⟨v, err, s₂⟩ := r
        cases err with
        | some e => cases e <;> exact ⟨rfl, hsmooth'⟩
        | none =>
          dsimp only
          split_ifs <;> exact ⟨rfl, hsmooth'⟩

/-- `Bool`. -/
theorem mirrors_bool (h : Smooth s.source) : Mirrors s.bool s.view.bool := by
  obtain ⟨huint, hsmooth⟩ := mirrors_uint h 8
  unfold bool Stream.bool
  rw [huint]
  generalize s.uint 8 = r at hsmooth ⊢
  obtain ⟨v, err, s'⟩ := r
  cases err with
  | some e => exact ⟨rfl, hsmooth⟩
  | none =>
    match v with
    | 0 => exact ⟨rfl, hsmooth⟩
    | 1 => exact ⟨rfl, hsmooth⟩
    | v + 2 => exact ⟨rfl, hsmooth⟩

/-- `List`. -/
theorem mirrors_list (h : Smooth s.source) : Mirrors s.list s.view.list := by
  obtain ⟨hkind, hsmooth⟩ := mirrors_kindOf h
  unfold list Stream.list
  rw [hkind]
  generalize s.kindOf = r at hsmooth ⊢
  obtain ⟨k, size, err, s'⟩ := r
  cases err with
  | some e => exact ⟨rfl, hsmooth⟩
  | none => cases k <;> exact ⟨rfl, hsmooth⟩

/-- `ListEnd`. -/
theorem listEnd_view (s : SourceStream) :
    s.view.listEnd = (s.listEnd.1, s.listEnd.2.view) := by
  unfold listEnd Stream.listEnd
  rw [show s.view.stack = s.ctx.stack from rfl]
  cases s.ctx.stack with
  | nil => rfl
  | cons tos rest =>
    dsimp only
    split_ifs <;> rfl

end SourceStream

end Hashgrid.Rlp
