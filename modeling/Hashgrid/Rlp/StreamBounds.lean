import Hashgrid.Rlp.SourceStream
import Hashgrid.Rlp.StreamReads

/-!
# The bounds of a limited stream

The counters of a stream are unsigned, and a value is checked against the innermost open list
only, or against the limit only at top level. That it also fits in the outer lists and in the
limit follows from an invariant of the whole stack: what is left of the lists, one inside the
other, fits in what is left of the limit.
-/

namespace Hashgrid.Rlp

namespace SourceStream

/-- The calls of a user of a stream. -/
inductive Call
  /-- `Kind`. -/
  | kind
  /-- `Bytes`. -/
  | bytes
  /-- `Raw`. -/
  | raw
  /-- `Uint`. -/
  | uint
  /-- `Bool`. -/
  | bool
  /-- `List`. -/
  | list
  /-- `ListEnd`. -/
  | listEnd

/-- The buffer that a call allocates for a value of the given kind and size. The sum of `Raw` is a
`uint64`. -/
def Call.buffer : Call → Kind → ℕ → Option ℕ
  | .bytes, .byte, _ => some 1
  | .bytes, .string, size => some size
  | .raw, .byte, _ => some 1
  | .raw, _, size => some ((headsize size + size) % 2 ^ 64)
  | _, _, _ => none

/-- A buffer cannot be made if its size is no `int`, or if it is too short for the header because
the sum has wrapped. -/
def Call.panics : Call → Kind → ℕ → Bool
  | .bytes, .string, size => 2 ^ 63 ≤ size
  | .raw, .byte, _ => false
  | .raw, _, size => 2 ^ 63 ≤ headsize size + size
  | _, _, _ => false

/-- The buffer that a call allocates. -/
def allocates (c : Call) (s : SourceStream) : Option ℕ :=
  match s.kindOf with
  | (k, size, none, _) => c.buffer k size
  | (_, _, some _, _) => none

/-- The stream after a call that returns. -/
def returned (c : Call) (s : SourceStream) : SourceStream :=
  match c with
  | .kind => s.kindOf.2.2.2
  | .bytes => s.bytes.2.2
  | .raw => s.raw.2.2
  | .uint => (s.uint 64).2.2
  | .bool => s.bool.2.2
  | .list => s.list.2.2
  | .listEnd => s.listEnd.2

/-- The stream after a call. A call that panics leaves it as it was after `Kind`. -/
def call (c : Call) (s : SourceStream) : SourceStream :=
  match s.kindOf with
  | (k, size, none, s') => if c.panics k size then s' else s.returned c
  | (_, _, some _, _) => s.returned c

/-- `NewStream` with an input limit. -/
def new (source : List Chunk) (limit : ℕ) : SourceStream :=
  ⟨⟨[], limit, true, none, 0, 0, none, []⟩, source⟩

/-- `NewListStream`. -/
def newList (source : List Chunk) (len : ℕ) : SourceStream :=
  ⟨⟨[], len, true, some .list, len, 0, none, []⟩, source⟩

end SourceStream

/-- What is left of the open lists, innermost first, fits in `r` bytes. The list outside of one
that takes `inner` bytes has moved past the header of that list only. -/
def Fits : ℕ → ℕ → List ListPos → Prop
  | _, _, [] => True
  | r, inner, l :: rest =>
    l.pos + inner ≤ l.size ∧ l.size < 2 ^ 64 ∧ l.size - (l.pos + inner) ≤ r ∧
      Fits (r - (l.size - (l.pos + inner))) l.size rest

/-- The room for the next value: in the innermost list, or in the limit at top level. -/
def Stream.room (c : Stream) : ℕ :=
  match c.stack with
  | [] => c.remaining
  | tos :: _ => tos.size - tos.pos

variable {stack : List ListPos} {n size : ℕ} {c : Stream}

/-- What fits in an inner list fits in all lists outside of it. -/
theorem Fits.outer {r inner : ℕ} (h : Fits r inner stack) (hn : n ≤ inner) :
    ∀ l ∈ stack, l.pos ≤ l.size ∧ n ≤ l.size - l.pos := by
  induction stack generalizing r inner with
  | nil => exact fun l hl => nomatch hl
  | cons l rest ih =>
    obtain ⟨hpos, -, -, hrest⟩ := h
    intro l' hl'
    rcases List.mem_cons.mp hl' with rfl | hl'
    · exact ⟨by omega, by omega⟩
    · exact ih hrest (by omega) l' hl'

/-- The room for the next value is within the limit and within every open list. -/
theorem Fits.room (h : Fits c.remaining 0 c.stack) (hn : n ≤ c.room) :
    n ≤ c.remaining ∧ ∀ l ∈ c.stack, l.pos ≤ l.size ∧ n ≤ l.size - l.pos := by
  unfold Stream.room at hn
  cases hstack : c.stack with
  | nil =>
    rw [hstack] at hn
    exact ⟨hn, fun l hl => nomatch hl⟩
  | cons tos rest =>
    rw [hstack] at h hn
    obtain ⟨hpos, -, hleft, hrest⟩ := h
    have hn' : n ≤ tos.size - tos.pos := hn
    refine ⟨by omega, fun l hl => ?_⟩
    rcases List.mem_cons.mp hl with rfl | hl
    · exact ⟨by omega, hn'⟩
    · exact hrest.outer (by omega) l hl

/-- A list that is opened fits in the lists outside of it. -/
theorem Fits.push {r : ℕ} (h : Fits r 0 stack) (hr : size ≤ r) (hlt : size < 2 ^ 64)
    (hroom : ∀ tos ∈ stack.head?, size ≤ tos.size - tos.pos) : Fits r 0 (⟨0, size⟩ :: stack) := by
  refine ⟨Nat.zero_le _, hlt, hr, ?_⟩
  cases stack with
  | nil => trivial
  | cons tos rest =>
    obtain ⟨hpos, htos, hleft, hrest⟩ := h
    have hsize := hroom tos rfl
    have hsame : r - (size - (0 + 0)) - (tos.size - (tos.pos + size)) =
        r - (tos.size - (tos.pos + 0)) := by omega
    refine ⟨?_, htos, ?_, ?_⟩
    · change tos.pos + size ≤ tos.size
      omega
    · change tos.size - (tos.pos + size) ≤ r - (size - (0 + 0))
      omega
    · change Fits (r - (size - (0 + 0)) - (tos.size - (tos.pos + size))) tos.size rest
      rw [hsame]
      exact hrest

/-- `willRead` moves the innermost list and the limit together. -/
theorem willRead_fits (hlimited : c.limited = true) (hfits : Fits c.remaining 0 c.stack) (n : ℕ) :
    ∃ err c', c.willRead n = (err, c') ∧ c'.limited = true ∧ c'.kind = none ∧
      Fits c'.remaining 0 c'.stack ∧
      (err = none ∧ c'.remaining + n = c.remaining ∧ c'.stack = advance c.stack n ∨
        err ≠ none ∧ c'.remaining = c.remaining) := by
  cases hstack : c.stack with
  | nil =>
    by_cases hn : n > c.remaining
    · refine ⟨some .valueTooLarge, { c with kind := none }, ?_, hlimited, rfl, ?_, .inr ⟨?_, rfl⟩⟩
      · simp [Stream.willRead, Stream.takeRemaining, hstack, hlimited, hn]
      · exact hfits
      · simp
    · refine ⟨none, { c with kind := none, remaining := c.remaining - n }, ?_, hlimited, rfl, ?_,
        .inl ⟨rfl, ?_, hstack⟩⟩
      · simp [Stream.willRead, Stream.takeRemaining, hstack, hlimited, hn]
      · simp [hstack, Fits]
      · change c.remaining - n + n = c.remaining
        omega
  | cons tos rest =>
    rw [hstack] at hfits
    obtain ⟨hpos, hlt, hleft, hrest⟩ := hfits
    have hsub : sub64 tos.size tos.pos = tos.size - tos.pos := sub64_of_le (by omega) hlt
    by_cases hn : n > tos.size - tos.pos
    · refine ⟨some .elemTooLarge, { c with kind := none }, ?_, hlimited, rfl, ?_, .inr ⟨?_, rfl⟩⟩
      · simp [Stream.willRead, hstack, hsub, hn]
      · change Fits c.remaining 0 c.stack
        rw [hstack]
        exact ⟨hpos, hlt, hleft, hrest⟩
      · simp
    · have hadd : add64 tos.pos n = tos.pos + n := Nat.mod_eq_of_lt (by omega)
      have hrem : ¬ n > c.remaining := by omega
      refine ⟨none, { c with
          kind := none, remaining := c.remaining - n, stack := ⟨tos.pos + n, tos.size⟩ :: rest },
        ?_, hlimited, rfl, ?_, .inl ⟨rfl, ?_, rfl⟩⟩
      · simp [Stream.willRead, Stream.takeRemaining, hstack, hsub, hn, hadd, hlimited, hrem]
      · have hsame : c.remaining - n - (tos.size - (tos.pos + n + 0)) =
            c.remaining - (tos.size - (tos.pos + 0)) := by omega
        refine ⟨?_, hlt, ?_, ?_⟩
        · change tos.pos + n + 0 ≤ tos.size
          omega
        · change tos.size - (tos.pos + n + 0) ≤ c.remaining - n
          omega
        · change Fits (c.remaining - n - (tos.size - (tos.pos + n + 0))) tos.size rest
          rw [hsame]
          exact hrest
      · change c.remaining - n + n = c.remaining
        omega

namespace SourceStream

/-- The stream has taken at most the difference between the limit and what remains of it from a
source of `total` bytes, and its open lists fit in what remains. -/
structure Within (limit total : ℕ) (s : SourceStream) : Prop where
  /-- An input limit is set. -/
  limited : s.ctx.limited = true
  /-- The limit is a `uint64`. -/
  limit_lt : limit < 2 ^ 64
  /-- What remains is a part of it. -/
  remaining_le : s.ctx.remaining ≤ limit
  /-- The bytes that were taken. -/
  taken : total + s.ctx.remaining ≤ (content s.source).length + limit
  /-- The open lists. -/
  fits : Fits s.ctx.remaining 0 s.ctx.stack

/-- The kind that is cached without error leaves room for the value. -/
def Cached (s : SourceStream) : Prop :=
  ∀ k, s.ctx.kind = some k → s.ctx.kinderr = none → s.ctx.size ≤ s.ctx.room

/-- The bytes that were stored come from the source, and are not more than there is room for. -/
theorem fill_content (n : ℕ) (source : List Chunk) :
    content source = (fill n source).1 ++ content (fill n source).2.2 ∧
      (fill n source).1.length ≤ n := by
  induction source generalizing n with
  | nil => cases n <;> simp [fill, content]
  | cons c source ih =>
    cases n with
    | zero => simp [fill]
    | succ n =>
      obtain ⟨data, err⟩ := c
      have hcontent (d : List UInt8) (e : Option Err) :
          content (⟨d, e⟩ :: source) = d ++ content source := rfl
      obtain ⟨hrest, hlen⟩ := ih (n + 1 - data.length)
      unfold fill
      split_ifs with hlt
      · refine ⟨?_, List.length_take_le _ _⟩
        rw [hcontent, hcontent, ← List.append_assoc, List.take_append_drop]
      · cases err with
        | some e => exact ⟨hcontent data _, by dsimp only; omega⟩
        | none =>
          refine ⟨?_, ?_⟩
          · rw [hcontent, hrest, List.append_assoc]
          · dsimp only
            rw [List.length_append]
            omega

/-- `ReadByte` takes at most one byte. -/
theorem takeByte_content (source : List Chunk) :
    (content source).length ≤ (content (takeByte source).2.2).length + 1 := by
  induction source with
  | nil => simp [takeByte, content]
  | cons c source ih =>
    obtain ⟨data, err⟩ := c
    cases data with
    | nil =>
      cases err with
      | none => exact ih
      | some e => exact Nat.le_succ _
    | cons b data => exact le_refl _

variable {limit total : ℕ} {s : SourceStream}

/-- A read that is announced with `willRead`. -/
theorem Within.read (h : s.Within limit total) {source : List Chunk} {err : Option Err}
    (hwill : s.ctx.willRead n = (err, c))
    (hsource : err = none ∧ (content s.source).length ≤ (content source).length + n ∨
      err ≠ none ∧ source = s.source) : Within limit total ⟨c, source⟩ ∧ c.kind = none := by
  obtain ⟨err', c', hwill', hlimited, hkind, hfits, hrem⟩ := willRead_fits h.limited h.fits n
  rw [hwill] at hwill'
  obtain ⟨rfl, rfl⟩ := Prod.mk.inj hwill'
  have hle := h.remaining_le
  have htaken := h.taken
  refine ⟨⟨hlimited, h.limit_lt, ?_, ?_, hfits⟩, hkind⟩
  · change c.remaining ≤ limit
    omega
  · change total + c.remaining ≤ (content source).length + limit
    rcases hsource with ⟨hok, hle⟩ | ⟨herr, rfl⟩
    · have := hrem.resolve_right fun h => h.1 hok
      omega
    · have := hrem.resolve_left fun h => herr h.1
      omega

/-- `readFull`. -/
theorem Within.readFull (h : s.Within limit total) (n : ℕ) :
    Within limit total (s.readFull n).2.2 ∧ (s.readFull n).2.2.ctx.kind = none := by
  rcases hwill : s.ctx.willRead n with ⟨err, c⟩
  unfold SourceStream.readFull
  rw [hwill]
  cases err with
  | some e => exact h.read hwill (.inr ⟨by simp, rfl⟩)
  | none =>
    obtain ⟨hcontent, hlen⟩ := fill_content n s.source
    have hsum := congrArg List.length hcontent
    rw [List.length_append] at hsum
    have hle : (content s.source).length ≤ (content (fill n s.source).2.2).length + n := by omega
    exact h.read hwill (.inl ⟨rfl, hle⟩)

/-- `readByte`. -/
theorem Within.readByte (h : s.Within limit total) :
    Within limit total s.readByte.2.2 ∧ s.readByte.2.2.ctx.kind = none := by
  rcases hwill : s.ctx.willRead 1 with ⟨err, c⟩
  unfold SourceStream.readByte
  rw [hwill]
  cases err with
  | some e => exact h.read hwill (.inr ⟨by simp, rfl⟩)
  | none => exact h.read hwill (.inl ⟨rfl, takeByte_content s.source⟩)

theorem Within.rearm (h : s.Within limit total) :
    Within limit total s.rearm ∧ s.rearm.ctx.kind = none :=
  ⟨⟨h.limited, h.limit_lt, h.remaining_le, h.taken, h.fits⟩, rfl⟩

/-- `readUint`. -/
theorem Within.readUint (h : s.Within limit total) (size : ℕ) :
    Within limit total (s.readUint size).2.2 ∧ (s.readUint size).2.2.ctx.kind = none := by
  match size with
  | 0 => exact h.rearm
  | 1 => exact h.readByte
  | size + 2 =>
    have hfull := h.readFull (size + 2)
    simp only [SourceStream.readUint]
    generalize s.readFull (size + 2) = r at hfull ⊢
    obtain ⟨b, err, s'⟩ := r
    cases err with
    | some e => exact hfull
    | none =>
      dsimp only
      split_ifs <;> exact hfull

theorem Within.setByteval (h : s.Within limit total) (b : UInt8) :
    Within limit total (s.setByteval b) :=
  ⟨h.limited, h.limit_lt, h.remaining_le, h.taken, h.fits⟩

/-- A separate size. -/
theorem Within.checkSize (h : s.Within limit total) (size : ℕ) :
    Within limit total (checkSize (s.readUint size)).2.2 := by
  have huint := (h.readUint size).1
  generalize s.readUint size = r at huint ⊢
  obtain ⟨v, err, s'⟩ := r
  cases err <;> exact huint

/-- `readKind`. -/
theorem Within.readKind (h : s.Within limit total) : Within limit total s.readKind.2.2.2 := by
  have hbyte := h.readByte.1
  unfold SourceStream.readKind
  generalize s.readByte = r at hbyte ⊢
  obtain ⟨b, err, s'⟩ := r
  cases err with
  | some e => exact hbyte
  | none =>
    dsimp only at hbyte ⊢
    split_ifs
    · exact hbyte.setByteval b
    · exact hbyte.setByteval 0
    · exact (hbyte.setByteval 0).checkSize _
    · exact hbyte.setByteval 0
    · exact (hbyte.setByteval 0).checkSize _

/-- A size that passes the checks of `Kind` leaves room for the value. -/
theorem Within.sizeErr (h : s.Within limit total) (hok : s.ctx.sizeErr size = none) :
    size ≤ s.ctx.room := by
  have hfits := h.fits
  unfold Stream.sizeErr at hok
  unfold Stream.room
  cases hstack : s.ctx.stack with
  | nil =>
    rw [hstack] at hok
    by_contra hgt
    simp [h.limited, Nat.lt_of_not_le hgt] at hok
  | cons tos rest =>
    rw [hstack] at hok hfits
    obtain ⟨hpos, hlt, -, -⟩ := hfits
    have hsub : sub64 tos.size tos.pos = tos.size - tos.pos := sub64_of_le (by omega) hlt
    dsimp only at hok ⊢
    by_contra hgt
    rw [hsub, if_pos (by omega)] at hok
    cases hok

/-- A stream within its bounds that has looked at a value. -/
structure Looks (limit total : ℕ) (r : Kind × ℕ × Option Err × SourceStream) : Prop where
  /-- The stream is within its bounds. -/
  within : Within limit total r.2.2.2
  /-- What it has cached leaves room for the value. -/
  cached : Cached r.2.2.2
  /-- A size that is reported without error leaves room for the value. -/
  room : r.2.2.1 = none → r.2.1 ≤ r.2.2.2.ctx.room

/-- Reading a header. -/
theorem Within.fetchKind (h : s.Within limit total) : Looks limit total s.fetchKind := by
  have hkind := h.readKind
  unfold SourceStream.fetchKind
  generalize s.readKind = r at hkind ⊢
  obtain ⟨k, size, err, s'⟩ := r
  cases err with
  | some e =>
    refine ⟨⟨hkind.limited, hkind.limit_lt, hkind.remaining_le, hkind.taken, hkind.fits⟩,
      ?_, ?_⟩
    · exact fun k' _ herr => nomatch herr
    · exact fun herr => nomatch herr
  | none =>
    refine ⟨⟨hkind.limited, hkind.limit_lt, hkind.remaining_le, hkind.taken, hkind.fits⟩,
      ?_, ?_⟩
    · exact fun k' _ herr => hkind.sizeErr herr
    · exact fun herr => hkind.sizeErr herr

/-- `Kind`. -/
theorem Within.kindOf (h : s.Within limit total) (hc : s.Cached) : Looks limit total s.kindOf := by
  have hfetch : Looks limit total
      (SourceStream.fetchKind { s with ctx := { s.ctx with kinderr := none } }) :=
    Within.fetchKind ⟨h.limited, h.limit_lt, h.remaining_le, h.taken, h.fits⟩
  unfold SourceStream.kindOf
  cases hk : s.ctx.kind with
  | some k => exact ⟨h, hc, hc k hk⟩
  | none =>
    dsimp only
    split
    · exact hfetch
    · split_ifs
      · refine ⟨⟨h.limited, h.limit_lt, h.remaining_le, h.taken, h.fits⟩, ?_,
          fun herr => nomatch herr⟩
        intro k' hk' _
        rw [show s.ctx.kind = some k' from hk'] at hk
        cases hk
      · exact hfetch

/-- The bounds of a stream between two calls. -/
structure Bounded (limit total : ℕ) (s : SourceStream) : Prop extends Within limit total s where
  /-- What it has cached leaves room for the value. -/
  cached : Cached s

theorem Within.bounded (h : s.Within limit total ∧ s.ctx.kind = none) : Bounded limit total s :=
  ⟨h.1, fun k hk => by rw [h.2] at hk; cases hk⟩

theorem Looks.bounded {r : Kind × ℕ × Option Err × SourceStream} (h : Looks limit total r) :
    Bounded limit total r.2.2.2 := ⟨h.within, h.cached⟩

/-- `Bytes`. -/
theorem Bounded.bytes (h : s.Bounded limit total) : Bounded limit total s.bytes.2.2 := by
  have hlooks := h.toWithin.kindOf h.cached
  unfold SourceStream.bytes
  generalize s.kindOf = r at hlooks ⊢
  obtain ⟨k, size, err, s'⟩ := r
  cases err with
  | some e => exact hlooks.bounded
  | none =>
    cases k with
    | byte => exact Within.bounded hlooks.within.rearm
    | list => exact hlooks.bounded
    | string =>
      have hfull := Within.bounded (hlooks.within.readFull size)
      dsimp only at hfull ⊢
      generalize s'.readFull size = r at hfull ⊢
      obtain ⟨b, err, s₂⟩ := r
      cases err with
      | some e => exact hfull
      | none =>
        dsimp only
        split_ifs <;> exact hfull

/-- `Raw`. -/
theorem Bounded.raw (h : s.Bounded limit total) : Bounded limit total s.raw.2.2 := by
  have hlooks := h.toWithin.kindOf h.cached
  unfold SourceStream.raw
  generalize s.kindOf = r at hlooks ⊢
  obtain ⟨k, size, err, s'⟩ := r
  have hfull := Within.bounded (hlooks.within.readFull size)
  cases err with
  | some e => exact hlooks.bounded
  | none =>
    cases k with
    | byte => exact Within.bounded hlooks.within.rearm
    | list =>
      dsimp only at hfull ⊢
      generalize s'.readFull size = r at hfull ⊢
      obtain ⟨b, err, s₂⟩ := r
      cases err <;> exact hfull
    | string =>
      dsimp only at hfull ⊢
      generalize s'.readFull size = r at hfull ⊢
      obtain ⟨b, err, s₂⟩ := r
      cases err <;> exact hfull

/-- `uint`. -/
theorem Bounded.uint (h : s.Bounded limit total) (maxbits : ℕ) :
    Bounded limit total (s.uint maxbits).2.2 := by
  have hlooks := h.toWithin.kindOf h.cached
  unfold SourceStream.uint
  generalize s.kindOf = r at hlooks ⊢
  obtain ⟨k, size, err, s'⟩ := r
  cases err with
  | some e => exact hlooks.bounded
  | none =>
    cases k with
    | byte =>
      dsimp only
      split_ifs
      · exact hlooks.bounded
      · exact Within.bounded hlooks.within.rearm
    | list => exact hlooks.bounded
    | string =>
      have huint := Within.bounded (hlooks.within.readUint size)
      dsimp only at huint ⊢
      split_ifs
      · exact hlooks.bounded
      · generalize s'.readUint size = r at huint ⊢
        obtain ⟨v, err, s₂⟩ := r
        cases err with
        | some e => cases e <;> exact huint
        | none =>
          dsimp only
          split_ifs <;> exact huint

/-- `Bool`. -/
theorem Bounded.bool (h : s.Bounded limit total) : Bounded limit total s.bool.2.2 := by
  have huint := h.uint 8
  unfold SourceStream.bool
  generalize s.uint 8 = r at huint ⊢
  obtain ⟨v, err, s'⟩ := r
  cases err with
  | some e => exact huint
  | none =>
    match v with
    | 0 => exact huint
    | 1 => exact huint
    | v + 2 => exact huint

/-- `List`. -/
theorem Bounded.list (h : s.Bounded limit total) : Bounded limit total s.list.2.2 := by
  have hlooks := h.toWithin.kindOf h.cached
  unfold SourceStream.list
  generalize s.kindOf = r at hlooks ⊢
  obtain ⟨k, size, err, s'⟩ := r
  cases err with
  | some e => exact hlooks.bounded
  | none =>
    cases k with
    | byte => exact hlooks.bounded
    | string => exact hlooks.bounded
    | list =>
      have hwithin : Within limit total s' := hlooks.within
      obtain ⟨hrem, hlists⟩ := hwithin.fits.room (hlooks.room rfl)
      have hle := hwithin.remaining_le
      have hlt := hwithin.limit_lt
      refine Within.bounded ⟨⟨hwithin.limited, hlt, hle, hwithin.taken, ?_⟩, rfl⟩
      refine hwithin.fits.push hrem (lt_of_le_of_lt (hrem.trans hle) hlt) fun tos htos => ?_
      exact (hlists tos (List.mem_of_mem_head? htos)).2

/-- `ListEnd`. -/
theorem Bounded.listEnd (h : s.Bounded limit total) : Bounded limit total s.listEnd.2 := by
  have hfits := h.fits
  unfold SourceStream.listEnd Stream.listEnd
  cases hstack : s.ctx.stack with
  | nil => exact h
  | cons tos rest =>
    dsimp only
    split_ifs with hend
    · exact h
    · rw [hstack] at hfits
      obtain ⟨hpos, hlt, hleft, hrest⟩ := hfits
      have hzero : tos.size - (tos.pos + 0) = 0 := by omega
      rw [hzero, Nat.sub_zero] at hrest
      refine Within.bounded ⟨⟨h.limited, h.limit_lt, h.remaining_le, h.taken, ?_⟩, rfl⟩
      cases rest with
      | nil => trivial
      | cons outer outers =>
        obtain ⟨hpos', hlt', hleft', hrest'⟩ := hrest
        have hadd : add64 outer.pos tos.size = outer.pos + tos.size := Nat.mod_eq_of_lt (by omega)
        change Fits s.ctx.remaining 0 (⟨add64 outer.pos tos.size, outer.size⟩ :: outers)
        rw [hadd]
        exact ⟨hpos', hlt', hleft', hrest'⟩

/-- Every call that returns keeps the bounds. -/
theorem Bounded.returned (h : s.Bounded limit total) (c : Call) :
    Bounded limit total (s.returned c) := by
  cases c with
  | kind => exact (h.toWithin.kindOf h.cached).bounded
  | bytes => exact h.bytes
  | raw => exact h.raw
  | uint => exact h.uint 64
  | bool => exact h.bool
  | list => exact h.list
  | listEnd => exact h.listEnd

/-- Every call keeps the bounds. -/
theorem Bounded.call (h : s.Bounded limit total) (c : Call) : Bounded limit total (s.call c) := by
  have hlooks := h.toWithin.kindOf h.cached
  unfold SourceStream.call
  generalize s.kindOf = r at hlooks ⊢
  obtain ⟨k, size, err, s'⟩ := r
  cases err with
  | some e => exact h.returned c
  | none =>
    dsimp only
    split_ifs
    · exact hlooks.bounded
    · exact h.returned c

/-- Every sequence of calls keeps the bounds. -/
theorem Bounded.foldl_call (h : s.Bounded limit total) (cs : List Call) :
    Bounded limit total (cs.foldl (fun s c => s.call c) s) := by
  induction cs generalizing s with
  | nil => exact h
  | cons c cs ih => exact ih (h.call c)

theorem bounded_new (source : List Chunk) (hlimit : limit < 2 ^ 64) :
    Bounded limit (content source).length (new source limit) :=
  Within.bounded ⟨⟨rfl, hlimit, le_refl _, le_refl _, trivial⟩, rfl⟩

theorem bounded_newList (source : List Chunk) {len : ℕ} (hlen : len < 2 ^ 64) :
    Bounded len (content source).length (newList source len) :=
  ⟨⟨rfl, hlen, le_refl _, le_refl _, trivial⟩, fun _ _ _ => le_refl len⟩

/-- A header has one to nine bytes. -/
theorem headsize_bounds (size : ℕ) : 1 ≤ headsize size ∧ headsize size ≤ 9 := by
  have hlen := (putint_length_spec size).1.2
  rw [headsize_eq_length size 0 0, puthead]
  split_ifs
  · simp
  · rw [List.length_cons]
    omega

/-- A call allocates no more than what remains of the limit after `Kind`, and the header of a value
of the size that `Kind` reports. -/
theorem Looks.buffer {k : Kind} {s' : SourceStream} (h : Looks limit total (k, size, none, s'))
    {c : Call} (hn : c.buffer k size = some n) :
    n ≤ s'.ctx.remaining + headsize size ∧ (c = .bytes → n ≤ max 1 s'.ctx.remaining) := by
  have hsize : size ≤ s'.ctx.remaining := (h.within.fits.room (h.room rfl)).1
  have hhead := (headsize_bounds size).1
  have hsum : (headsize size + size) % 2 ^ 64 ≤ headsize size + size := Nat.mod_le _ _
  cases c with
  | bytes =>
    cases k with
    | byte =>
      obtain rfl : 1 = n := Option.some.inj hn
      exact ⟨by omega, fun _ => le_max_left _ _⟩
    | string =>
      obtain rfl : size = n := Option.some.inj hn
      exact ⟨by omega, fun _ => hsize.trans (le_max_right _ _)⟩
    | list => cases hn
  | raw =>
    refine ⟨?_, fun hc => nomatch hc⟩
    cases k with
    | byte =>
      obtain rfl : 1 = n := Option.some.inj hn
      omega
    | string =>
      obtain rfl : (headsize size + size) % 2 ^ 64 = n := Option.some.inj hn
      omega
    | list =>
      obtain rfl : (headsize size + size) % 2 ^ 64 = n := Option.some.inj hn
      omega
  | kind => cases hn
  | uint => cases hn
  | bool => cases hn
  | list => cases hn
  | listEnd => cases hn

/-- What a stream with an input limit keeps to after any sequence of calls. It has taken at most
`limit` bytes from the source; neither the limit nor an open list is exceeded; a size that `Kind`
reports without error fits in what remains and in every open list; and `Bytes` allocates no more
than what remains or a single byte, `Raw` no more than what remains and the header of the value,
which has at most nine bytes. -/
theorem limited_stream_bounds (source : List Chunk) {limit : ℕ} (hlimit : limit < 2 ^ 64)
    {s₀ : SourceStream} (hnew : s₀ = new source limit ∨ s₀ = newList source limit) (cs : List Call)
    {s : SourceStream} (hs : s = cs.foldl (fun s c => s.call c) s₀) :
    (content source).length ≤ (content s.source).length + limit ∧
      s.ctx.remaining ≤ limit ∧ (∀ l ∈ s.ctx.stack, l.pos ≤ l.size) ∧
      (∀ k size s', s.kindOf = (k, size, none, s') →
        size ≤ s'.ctx.remaining ∧ ∀ l ∈ s'.ctx.stack, size ≤ l.size - l.pos) ∧
      ∀ c n, s.allocates c = some n →
        n ≤ s.kindOf.2.2.2.ctx.remaining + headsize s.kindOf.2.1 ∧ headsize s.kindOf.2.1 ≤ 9 ∧
        (c = .bytes → n ≤ max 1 s.kindOf.2.2.2.ctx.remaining) := by
  have hbounded : s.Bounded limit (content source).length := by
    rw [hs]
    rcases hnew with rfl | rfl
    · exact (bounded_new source hlimit).foldl_call cs
    · exact (bounded_newList source hlimit).foldl_call cs
  have htaken := hbounded.taken
  have hlooks := hbounded.toWithin.kindOf hbounded.cached
  refine ⟨by omega, hbounded.remaining_le, ?_, ?_, ?_⟩
  · exact fun l hl => ((hbounded.fits.room (Nat.zero_le _)).2 l hl).1
  · intro k size s' hkind
    rw [hkind] at hlooks
    obtain ⟨hrem, hlists⟩ := hlooks.within.fits.room (hlooks.room rfl)
    exact ⟨hrem, fun l hl => (hlists l hl).2⟩
  · intro c n hn
    unfold allocates at hn
    rcases hkind : s.kindOf with ⟨k, size, err, s'⟩
    rw [hkind] at hlooks hn
    cases err with
    | some e => cases hn
    | none =>
      obtain ⟨hraw, hbytes⟩ := hlooks.buffer hn
      exact ⟨hraw, (headsize_bounds size).2, hbytes⟩

/-- A source that hands over a string of three bytes and then ends. -/
def shortString : List Chunk := [⟨[0x83, 1, 2, 3], none⟩]

/-- A stream over the string, limited to its four bytes, after `Kind` and `Raw`. -/
def shortStream : SourceStream := ((new shortString 4).call .kind).call .raw

/-- The bounds after `Kind` and `Raw`. -/
theorem limited_stream_bounds_shortStream :
    (content shortString).length ≤ (content shortStream.source).length + 4 ∧
      shortStream.ctx.remaining ≤ 4 ∧ (∀ l ∈ shortStream.ctx.stack, l.pos ≤ l.size) ∧
      (∀ k size s', shortStream.kindOf = (k, size, none, s') →
        size ≤ s'.ctx.remaining ∧ ∀ l ∈ s'.ctx.stack, size ≤ l.size - l.pos) ∧
      ∀ c n, shortStream.allocates c = some n →
        n ≤ shortStream.kindOf.2.2.2.ctx.remaining + headsize shortStream.kindOf.2.1 ∧
          headsize shortStream.kindOf.2.1 ≤ 9 ∧
          (c = .bytes → n ≤ max 1 shortStream.kindOf.2.2.2.ctx.remaining) :=
  limited_stream_bounds shortString (by decide) (.inl rfl) [.kind, .raw] (s := shortStream) rfl

/-- After `Kind` on the string three bytes remain, and `Raw` allocates four. -/
theorem raw_allocates_header :
    ((new shortString 4).call .kind).ctx.remaining = 3 ∧
      ((new shortString 4).call .kind).allocates .raw = some 4 := by
  decide +kernel

end SourceStream

end Hashgrid.Rlp
