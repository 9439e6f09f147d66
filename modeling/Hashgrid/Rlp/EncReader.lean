import Hashgrid.Rlp.AnyValue

/-!
# The three outputs of the encoder

`EncodeToBytes` merges headers and string data into one slice, `Encode` writes them piece
by piece, and `EncodeToReader` returns a reader that hands them out on demand and can stop
inside any piece. All three deliver the recursive encoding. A reader denotes the bytes that
it has left; `next` and `Read` take a front of them.
-/

namespace Hashgrid.Rlp

/-- `encReader`. -/
structure EncReader where
  /-- The buffer that is read, or `none` at the end. -/
  buf : Option Encbuf
  /-- Index of the list header that is read. -/
  lhpos : ℕ
  /-- Position in the string data. -/
  strpos : ℕ
  /-- The piece that is read. -/
  piece : Option (List UInt8)

namespace EncReader

/-- `next`. -/
def next (r : EncReader) : Option (List UInt8) × EncReader :=
  match r.buf, r.piece with
  | none, _ => (none, r)
  | some _, some p => (some p, r)
  | some buf, none =>
    match buf.lheads[r.lhpos]? with
    | some head =>
      if head.offset > r.strpos then
        (some ((buf.str.drop r.strpos).take (head.offset - r.strpos)),
          { r with strpos := head.offset })
      else (some (puthead 0xC0 0xF7 head.size), { r with lhpos := r.lhpos + 1 })
    | none =>
      if r.strpos < buf.str.length then
        (some (buf.str.drop r.strpos), { r with strpos := buf.str.length })
      else (none, r)

/-- The loop of `Read` with room for `n` more bytes: the bytes that are copied, whether `EOF` is
returned, and the reader. Every turn takes a piece, so `fuel` counts the pieces. -/
def readLoop : ℕ → ℕ → EncReader → Option (List UInt8 × Bool × EncReader)
  | 0, _, _ => none
  | fuel + 1, n, r =>
    match r.next with
    | (none, r) => some ([], true, { r with buf := none, piece := none })
    | (some p, r) =>
      if n < p.length then some (p.take n, false, { r with piece := some (p.drop n) })
      else
        (readLoop fuel (n - p.length) { r with piece := none }).map fun (b, eof, r) =>
          (p ++ b, eof, r)

/-- The pieces that a reader has left, in output order. -/
def ahead (r : EncReader) : List (List UInt8) :=
  match r.buf with
  | none => []
  | some buf =>
    r.piece.toList ++
      (Encbuf.pieces buf.str (buf.lheads.drop r.lhpos) r.strpos).filter (· ≠ [])

/-- `Read` into a buffer of `n` bytes. -/
def read (n : ℕ) (r : EncReader) : Option (List UInt8 × Bool × EncReader) :=
  r.readLoop (r.ahead.length + 1) n

/-- A sequence of `Read` calls with buffers of the given sizes. -/
def reads : List ℕ → EncReader → Option (List (List UInt8 × Bool) × EncReader)
  | [], r => some ([], r)
  | n :: ns, r => do
    let (b, eof, r) ← r.read n
    let (outs, r) ← reads ns r
    return ((b, eof) :: outs, r)

/-- The headers belong to positions in the string data, and the piece that is read is not
empty. -/
structure Sound (r : EncReader) : Prop where
  /-- The headers of the buffer. -/
  bounded : ∀ buf ∈ r.buf, buf.Bounded
  /-- The position in the string data. -/
  strpos_le : ∀ buf ∈ r.buf, r.strpos ≤ buf.str.length
  /-- The piece that is read. -/
  piece_ne : r.piece ≠ some []

/-- The bytes that a reader has left. -/
def left (r : EncReader) : List UInt8 := r.ahead.flatten

theorem puthead_ne_nil (smalltag largetag : UInt8) (size : ℕ) :
    puthead smalltag largetag size ≠ [] := by
  unfold puthead
  split_ifs <;> simp

variable {heads : List ListHead} {str : List UInt8} {head : ListHead} {strpos : ℕ} {r : EncReader}

/-- The pieces in front of a header that is reached: the header comes next. -/
theorem filter_pieces_of_le (h : head.offset ≤ strpos) :
    (Encbuf.pieces str (head :: heads) strpos).filter (· ≠ []) =
      puthead 0xC0 0xF7 head.size :: (Encbuf.pieces str heads strpos).filter (· ≠ []) := by
  have hzero : head.offset - strpos = 0 := by omega
  simp [Encbuf.pieces, hzero, puthead_ne_nil]

/-- The pieces in front of a header that is not reached: the string data before it comes next. -/
theorem filter_pieces_of_lt (h : strpos < head.offset) (hle : head.offset ≤ str.length) :
    (Encbuf.pieces str (head :: heads) strpos).filter (· ≠ []) =
      (str.drop strpos).take (head.offset - strpos) ::
        (Encbuf.pieces str (head :: heads) head.offset).filter (· ≠ []) := by
  have hlen : ((str.drop strpos).take (head.offset - strpos)).length = head.offset - strpos := by
    rw [List.length_take, List.length_drop]
    omega
  have hne : (str.drop strpos).take (head.offset - strpos) ≠ [] := by
    intro hnil
    rw [hnil, List.length_nil] at hlen
    omega
  have hpos : strpos + (head.offset - strpos) = head.offset := by omega
  rw [filter_pieces_of_le (le_refl head.offset), Encbuf.pieces, hlen, hpos,
    List.filter_cons_of_pos (by simpa using hne),
    List.filter_cons_of_pos (by simp [puthead_ne_nil])]

/-- `next` returns the first piece that is left, and the others are left behind it. -/
theorem next_cons (h : r.Sound) {p : List UInt8} {ps : List (List UInt8)} (hr : r.ahead = p :: ps) :
    ∃ r', r.next = (some p, r') ∧ ∀ q, q ≠ some [] →
      Sound { r' with piece := q } ∧ ahead { r' with piece := q } = q.toList ++ ps := by
  obtain ⟨buf, lhpos, strpos, piece⟩ := r
  cases buf with
  | none => cases hr
  | some buf =>
    have hbounded : buf.Bounded := h.bounded buf rfl
    have hstrpos : strpos ≤ buf.str.length := h.strpos_le buf rfl
    have hsound {n m : ℕ} (hm : m ≤ buf.str.length) {q : Option (List UInt8)} (hq : q ≠ some []) :
        Sound ⟨some buf, n, m, q⟩ :=
      ⟨fun b hb => Option.some.inj hb ▸ hbounded, fun b hb => Option.some.inj hb ▸ hm, hq⟩
    cases piece with
    | some p' =>
      obtain ⟨rfl, rfl⟩ := List.cons_eq_cons.mp hr
      exact ⟨_, rfl, fun q hq => ⟨hsound hstrpos hq, rfl⟩⟩
    | none =>
      have hpieces : (Encbuf.pieces buf.str (buf.lheads.drop lhpos) strpos).filter (· ≠ []) =
        p :: ps := hr
      cases hhead : buf.lheads[lhpos]? with
      | some head =>
        obtain ⟨hlt, hget⟩ := List.getElem?_eq_some_iff.mp hhead
        have hdrop : buf.lheads.drop lhpos = head :: buf.lheads.drop (lhpos + 1) := by
          rw [List.drop_eq_getElem_cons hlt, hget]
        have hoffset : head.offset ≤ buf.str.length :=
          hbounded head (List.mem_of_getElem? hhead)
        by_cases hbefore : head.offset > strpos
        · rw [hdrop, filter_pieces_of_lt hbefore hoffset, ← hdrop] at hpieces
          obtain ⟨rfl, rfl⟩ := List.cons_eq_cons.mp hpieces
          exact ⟨⟨some buf, lhpos, head.offset, none⟩, by simp [next, hhead, hbefore],
            fun q hq => ⟨hsound hoffset hq, rfl⟩⟩
        · rw [hdrop, filter_pieces_of_le (by omega)] at hpieces
          obtain ⟨rfl, rfl⟩ := List.cons_eq_cons.mp hpieces
          exact ⟨⟨some buf, lhpos + 1, strpos, none⟩, by simp [next, hhead, hbefore],
            fun q hq => ⟨hsound hstrpos hq, rfl⟩⟩
      | none =>
        have hdrop : buf.lheads.drop lhpos = [] :=
          List.drop_eq_nil_of_le (List.getElem?_eq_none_iff.mp hhead)
        by_cases hend : strpos < buf.str.length
        · have hne : buf.str.drop strpos ≠ [] := by
            rw [ne_eq, List.drop_eq_nil_iff]
            omega
          rw [hdrop, Encbuf.pieces, List.filter_cons_of_pos (by simpa using hne)] at hpieces
          obtain ⟨rfl, rfl⟩ := List.cons_eq_cons.mp hpieces
          refine ⟨⟨some buf, lhpos, buf.str.length, none⟩, by simp [next, hhead, hend],
            fun q hq => ⟨hsound (le_refl _) hq, ?_⟩⟩
          simp [ahead, hdrop, Encbuf.pieces]
        · have hnil : buf.str.drop strpos = [] := List.drop_eq_nil_of_le (by omega)
          simp [hdrop, Encbuf.pieces, hnil] at hpieces

/-- `next` returns nil when no piece is left. -/
theorem next_nil (hr : r.ahead = []) : r.next = (none, r) := by
  obtain ⟨buf, lhpos, strpos, piece⟩ := r
  cases buf with
  | none => rfl
  | some buf =>
    obtain ⟨hpiece, hpieces⟩ := List.append_eq_nil_iff.mp hr
    obtain rfl : piece = none := by simpa using hpiece
    cases hhead : buf.lheads[lhpos]? with
    | some head =>
      obtain ⟨hlt, hget⟩ := List.getElem?_eq_some_iff.mp hhead
      have hmem : puthead 0xC0 0xF7 head.size ∈
          Encbuf.pieces buf.str (buf.lheads.drop lhpos) strpos := by
        rw [List.drop_eq_getElem_cons hlt, hget]
        simp [Encbuf.pieces]
      have := List.filter_eq_nil_iff.mp hpieces _ hmem
      simp [puthead_ne_nil] at this
    | none =>
      have hdrop : buf.lheads.drop lhpos = [] :=
        List.drop_eq_nil_of_le (List.getElem?_eq_none_iff.mp hhead)
      have hend : ¬ strpos < buf.str.length := by
        intro hlt
        have hnil : buf.str.drop strpos = [] := by simpa [hdrop, Encbuf.pieces] using hpieces
        rw [List.drop_eq_nil_iff] at hnil
        omega
      simp [next, hhead, hend]

/-- The loop of `Read` copies a front of the bytes that are left, and reports `EOF` when it has
copied all of them. -/
theorem readLoop_eq {fuel n : ℕ} (h : r.Sound) (hfuel : r.ahead.length < fuel) :
    ∃ r', r.readLoop fuel n = some (r.left.take n, decide (r.left.length ≤ n), r') ∧ r'.Sound ∧
      r'.left = r.left.drop n := by
  -- every turn takes one piece, so the induction is on the pieces that are left
  obtain ⟨ps, hps⟩ : ∃ ps, r.ahead = ps := ⟨_, rfl⟩
  induction ps generalizing fuel n r with
  | nil =>
    obtain ⟨fuel, rfl⟩ : ∃ k, fuel = k + 1 := ⟨fuel - 1, by omega⟩
    have hleft : r.left = [] := by rw [left, hps]; rfl
    refine ⟨{ r with buf := none, piece := none }, ?_, ⟨?_, ?_, ?_⟩, ?_⟩
    · simp [readLoop, next_nil hps, hleft]
    · exact fun buf hbuf => nomatch hbuf
    · exact fun buf hbuf => nomatch hbuf
    · exact fun hpiece => nomatch hpiece
    · rw [hleft, List.drop_nil]
      rfl
  | cons p ps ih =>
    obtain ⟨fuel, rfl⟩ : ∃ k, fuel = k + 1 := ⟨fuel - 1, by omega⟩
    have hleft : r.left = p ++ ps.flatten := by rw [left, hps]; rfl
    obtain ⟨r₁, hnext, hrest⟩ := next_cons h hps
    by_cases hfits : n < p.length
    · obtain ⟨hsound, hahead⟩ := hrest (some (p.drop n)) (by simpa using hfits)
      refine ⟨_, ?_, hsound, ?_⟩
      · have hmore : ¬ p.length + ps.flatten.length ≤ n := by omega
        simp only [readLoop, hnext, if_pos hfits, hleft, List.take_append_of_le_length hfits.le,
          List.length_append, decide_eq_false hmore]
      · rw [left, hahead, hleft, List.drop_append_of_le_length hfits.le]
        rfl
    · obtain ⟨hsound, hahead⟩ := hrest none (by simp)
      have hahead' : ahead { r₁ with piece := none } = ps := hahead
      have hlt : (ahead { r₁ with piece := none }).length < fuel := by
        rw [hps, List.length_cons] at hfuel
        rw [hahead']
        omega
      obtain ⟨r', hloop, hsound', hleft'⟩ := ih (n := n - p.length) hsound hlt hahead'
      have hrestLeft : left { r₁ with piece := none } = ps.flatten := by rw [left, hahead']
      rw [hrestLeft] at hloop hleft'
      refine ⟨r', ?_, hsound', ?_⟩
      · have heof : p.length + ps.flatten.length ≤ n ↔ ps.flatten.length ≤ n - p.length := by omega
        have htake : (p ++ ps.flatten).take n = p ++ ps.flatten.take (n - p.length) := by
          rw [List.take_append, List.take_of_length_le (by omega)]
        simp only [readLoop, hnext, if_neg hfits, hloop, hleft, Option.map_some, htake,
          List.length_append, heof]
      · have hnil : p.drop n = [] := List.drop_eq_nil_of_le (by omega)
        rw [hleft', hleft, List.drop_append, hnil, List.nil_append]

/-- `Read` copies a front of the bytes that are left, and reports `EOF` when it has copied all of
them. -/
theorem read_eq (h : r.Sound) (n : ℕ) :
    ∃ r', r.read n = some (r.left.take n, decide (r.left.length ≤ n), r') ∧ r'.Sound ∧
      r'.left = r.left.drop n :=
  readLoop_eq h (Nat.lt_succ_self _)

/-- What a sequence of `Read` calls delivers: consecutive portions of the given sizes, and `EOF`
with every portion that ends at the end. -/
def portions : List ℕ → List UInt8 → List (List UInt8 × Bool)
  | [], _ => []
  | n :: ns, b => (b.take n, decide (b.length ≤ n)) :: portions ns (b.drop n)

/-- The portions make up a front of the whole. -/
theorem flatten_portions (ns : List ℕ) (b : List UInt8) :
    ((portions ns b).map Prod.fst).flatten = b.take ns.sum := by
  induction ns generalizing b with
  | nil => simp [portions]
  | cons n ns ih =>
    rw [portions, List.map_cons, List.flatten_cons, ih, List.sum_cons, List.take_add]

/-- A sequence of `Read` calls delivers the bytes that are left in portions. -/
theorem reads_eq (h : r.Sound) (ns : List ℕ) :
    ∃ r', r.reads ns = some (portions ns r.left, r') := by
  induction ns generalizing r with
  | nil => exact ⟨r, rfl⟩
  | cons n ns ih =>
    obtain ⟨r₁, hread, hsound, hleft⟩ := read_eq h n
    obtain ⟨r', hreads⟩ := ih hsound
    refine ⟨r', ?_⟩
    rw [reads, hread]
    simp only [Option.bind_eq_bind, Option.bind_some, hreads, hleft]
    rfl

end EncReader

/-- `Encode` to a writer that is not an `encbuf`: the arguments of its `Write` calls. -/
def Value.encodeTo (v : Value) : Except EncErr (List (List UInt8)) := do
  let w ← v.write Encbuf.empty
  return w.toWriter

/-- `EncodeToReader`: the size and the reader. -/
def Value.encodeToReader (v : Value) : Except EncErr (ℕ × EncReader) := do
  let w ← v.write Encbuf.empty
  return (w.size, ⟨some w, 0, 0, none⟩)

theorem EncReader.left_new (w : Encbuf) : EncReader.left ⟨some w, 0, 0, none⟩ = w.toBytes :=
  w.flatten_toWriter

variable {b : List UInt8} {v : Value}

/-- The buffer of a value that has an encoding. -/
theorem Value.write_of_encode (h : v.encode = .ok b) :
    ∃ w, v.write Encbuf.empty = .ok w ∧ w.Bounded ∧ w.toBytes = b ∧ w.size = b.length := by
  have hagrees := v.agrees_write Encbuf.empty
  rw [h] at hagrees
  cases hw : v.write Encbuf.empty with
  | error e => rw [hw] at hagrees; exact hagrees.elim
  | ok w =>
    rw [hw] at hagrees
    obtain ⟨u, rfl, hbounded, hbytes, hsize⟩ := hagrees
    have hempty : Encbuf.empty.append u = u := by simp [Encbuf.append, Encbuf.empty]
    rw [hempty]
    exact ⟨u, rfl, hbounded, hbytes, hsize⟩

/-- The `Write` calls of `Encode` carry the encoding. -/
theorem Value.encodeTo_eq (h : v.encode = .ok b) : ∃ ws, v.encodeTo = .ok ws ∧ ws.flatten = b := by
  obtain ⟨w, hw, -, hbytes, -⟩ := Value.write_of_encode h
  refine ⟨w.toWriter, ?_, ?_⟩
  · rw [Value.encodeTo, hw]
    rfl
  · rw [w.flatten_toWriter, hbytes]

/-- The three outputs of the encoder for a value that is encoded to `b`: `b` is the recursive
encoding, the `Write` calls of `Encode` carry `b`, and the reader of `EncodeToReader`, which
returns the length of `b`, delivers it in portions of any sizes. -/
theorem Value.encoder_outputs {v : Value} {b : List UInt8} (h : v.encodeToBytes = .ok b) :
    v.encode = .ok b ∧
      (∃ ws, v.encodeTo = .ok ws ∧ ws.flatten = b) ∧
      ∃ r, v.encodeToReader = .ok (b.length, r) ∧ ∀ ns : List ℕ, ∃ outs r',
        r.reads ns = some (outs, r') ∧ (outs.map Prod.fst).flatten = b.take ns.sum ∧
          outs = EncReader.portions ns b := by
  have henc := (Value.encodeToBytes_eq_ok.mp h).1
  obtain ⟨w, hw, hbounded, hbytes, hsize⟩ := Value.write_of_encode henc
  refine ⟨henc, Value.encodeTo_eq henc, ⟨some w, 0, 0, none⟩, ?_, fun ns => ?_⟩
  · rw [Value.encodeToReader, hw, ← hsize]
    rfl
  · have hsound : EncReader.Sound ⟨some w, 0, 0, none⟩ :=
      ⟨fun buf hbuf => Option.some.inj hbuf ▸ hbounded, fun buf _ => Nat.zero_le _,
        fun hpiece => nomatch hpiece⟩
    obtain ⟨r', hreads⟩ := EncReader.reads_eq hsound ns
    rw [EncReader.left_new, hbytes] at hreads
    exact ⟨_, r', hreads, EncReader.flatten_portions ns b, rfl⟩

/-- The value `[]interface{}{[]byte{1, 2}, []interface{}{nil}}`. -/
def nestedValue : Value := .list [.typed .bytes [1, 2], .list [.nilInterface]]

/-- The outputs for a nested list. -/
theorem encoder_outputs_nested :
    nestedValue.encode = .ok [0xC5, 0x82, 1, 2, 0xC1, 0xC0] ∧
      (∃ ws, nestedValue.encodeTo = .ok ws ∧ ws.flatten = [0xC5, 0x82, 1, 2, 0xC1, 0xC0]) ∧
      ∃ r, nestedValue.encodeToReader = .ok (6, r) ∧ ∀ ns : List ℕ, ∃ outs r',
        r.reads ns = some (outs, r') ∧
          (outs.map Prod.fst).flatten = [0xC5, 0x82, 1, 2, 0xC1, 0xC0].take ns.sum ∧
          outs = EncReader.portions ns [0xC5, 0x82, 1, 2, 0xC1, 0xC0] :=
  Value.encoder_outputs rfl

end Hashgrid.Rlp
