import Hashgrid.Rlp.Encode

/-!
# What the encoder buffer produces

The bytes of `toBytes` are the recursive RLP encoding: the header of a list followed
by the concatenated encodings of its elements. The proof treats everything written
between two points in time as a buffer of its own that is appended to the earlier one.
-/

namespace Hashgrid.Rlp

open Hashgrid.Bytes

/-- The encoding of an unsigned integer. -/
def encodeUint (i : ℕ) : List UInt8 :=
  if i = 0 then [0x80]
  else if i < 128 then [byte i]
  else (0x80 + byte (putint i).length) :: putint i

/-- The encoding of a Boolean. -/
def encodeBool (b : Bool) : List UInt8 := [if b then 0x01 else 0x80]

/-- The encoding of a big integer. -/
def encodeBigInt (i : ℤ) : Except EncErr (List UInt8) :=
  if i < 0 then .error .negativeBigInt
  else if i = 0 then .ok [0x80]
  else .ok (encodeString (natBytes i.toNat))

/-- The concatenated encodings of the elements of a list. -/
def encodeElems {α : Type} (enc : α → Except EncErr (List UInt8)) :
    List α → Except EncErr (List UInt8)
  | [] => .ok []
  | x :: xs => do
    let b ← enc x
    let bs ← encodeElems enc xs
    return b ++ bs

/-- The encoding of a nil pointer to a type. -/
def encodeNil : Ty → Except EncErr (List UInt8)
  | .struct _ => .ok [0xC0]
  | .array _ _ => .ok [0xC0]
  | .slice _ => .ok [0xC0]
  | .ptr elem => encodeNil elem
  | _ => .ok [0x80]

mutual

/-- The RLP encoding of a value by recursion on its type. -/
def encode : (t : Ty) → t.Val → Except EncErr (List UInt8)
  | .uint _, v => .ok (encodeUint (BitVec.toNat v))
  | .bool, v => .ok (encodeBool v)
  | .string, v => .ok (encodeString v)
  | .bytes, v => .ok (encodeString v)
  | .byteArray _, v => .ok (encodeString (FixedBytes.bytes v))
  | .bigInt, v => Option.elim v (.ok [0x80]) encodeBigInt
  | .bigIntNoPtr, v => encodeBigInt v
  | .slice elem, v => (encodeElems (encode elem) v).map encodeList
  | .array _ elem, v => (encodeElems (encode elem) v.val).map encodeList
  | .struct fields, v => (encodeFields fields v).map encodeList
  | .ptr elem, v => Option.elim v (encodeNil elem) (encode elem)

/-- The concatenated encodings of the fields of a struct. -/
def encodeFields : (fs : Fields) → fs.Val → Except EncErr (List UInt8)
  | .nil, _ => .ok []
  | .cons _ type rest, v => do
    let b ← encode type v.1
    let bs ← encodeFields rest v.2
    return b ++ bs

end

variable {w : Encbuf} {b : List UInt8} {e : Except EncErr (List UInt8)} {r : Except EncErr Encbuf}

namespace Encbuf

/-- The buffer `w` after everything in `u` was written to it. -/
def append (w u : Encbuf) : Encbuf :=
  ⟨w.str ++ u.str, w.lheads ++ u.lheads.map (fun h => ⟨h.offset + w.str.length, h.size⟩),
    w.lhsize + u.lhsize⟩

/-- The buffer whose only content is the list of everything in `u`. -/
def enclose (u : Encbuf) : Encbuf :=
  ⟨u.str, ⟨0, u.size⟩ :: u.lheads, u.lhsize + headsize u.size⟩

/-- A buffer that holds string data only. -/
def ofBytes (b : List UInt8) : Encbuf := ⟨b, [], 0⟩

/-- Every header belongs to a position in the string data. -/
def Bounded (w : Encbuf) : Prop := ∀ h ∈ w.lheads, h.offset ≤ w.str.length

theorem append_append (w u u' : Encbuf) : (w.append u).append u' = w.append (u.append u') := by
  simp [append, Function.comp_def, Nat.add_comm, Nat.add_left_comm]

theorem append_empty (w : Encbuf) : w.append empty = w := by simp [append, empty]

theorem write_eq_append (w : Encbuf) (b : List UInt8) : w.write b = w.append (ofBytes b) := by
  simp [write, append, ofBytes]

/-- Closing the header that was opened before `u` was written. -/
theorem listEnd_list_append (w u : Encbuf) :
    (w.list.append u).listEnd w.lheads.length = w.append u.enclose := by
  have hsize : u.str.length + (w.lhsize + u.lhsize) - w.lhsize = u.str.length + u.lhsize := by
    omega
  simp [listEnd, list, append, enclose, size, Nat.add_assoc, hsize]

variable {u : Encbuf}

/-- Portions with well-placed headers compose. -/
theorem Bounded.append (hw : w.Bounded) (hu : u.Bounded) : (w.append u).Bounded := by
  intro h hmem
  simp only [Encbuf.append, List.mem_append, List.mem_map, List.length_append] at hmem ⊢
  rcases hmem with hmem | ⟨h', hmem, rfl⟩
  · have := hw h hmem
    omega
  · have := hu h' hmem
    simp only
    omega

/-- Enclosing keeps headers well placed. -/
theorem Bounded.enclose (hu : u.Bounded) : u.enclose.Bounded := by
  intro h hmem
  rcases List.mem_cons.mp hmem with rfl | hmem
  · exact Nat.zero_le _
  · exact hu h hmem

/-- Past the data of an earlier portion, the pieces are those of the later portion. -/
theorem pieces_append_right (s u : List UInt8) (hs : List ListHead) (q : ℕ) :
    pieces (s ++ u) (hs.map fun h => ⟨h.offset + s.length, h.size⟩) (s.length + q) =
      pieces u hs q := by
  induction hs generalizing q with
  | nil => simp [pieces, List.drop_append]
  | cons h hs ih =>
    have hdrop : (s ++ u).drop (s.length + q) = u.drop q := by simp [List.drop_append]
    have hoff : h.offset + s.length - (s.length + q) = h.offset - q := by omega
    simp only [List.map_cons, pieces, hdrop, hoff, Nat.add_assoc, ih]

/-- The pieces of a later portion, seen from inside the data of an earlier one. -/
theorem flatten_pieces_append {s u : List UInt8} {p : ℕ} (hp : p ≤ s.length)
    (hs : List ListHead) :
    (pieces (s ++ u) (hs.map fun h => ⟨h.offset + s.length, h.size⟩) p).flatten =
      s.drop p ++ (pieces u hs 0).flatten := by
  cases hs with
  | nil => simp [pieces, List.drop_append_of_le_length hp]
  | cons h hs =>
    have htake : ((s ++ u).drop p).take (h.offset + s.length - p) =
        s.drop p ++ u.take h.offset := by
      rw [List.drop_append_of_le_length hp, List.take_append,
        List.take_of_length_le (by simp; omega), List.length_drop]
      congr 2
      omega
    have hpos : p + (s.drop p ++ u.take h.offset).length =
        s.length + (u.take h.offset).length := by
      simp only [List.length_append, List.length_drop]
      omega
    simp only [List.map_cons, pieces, htake, hpos, pieces_append_right, List.flatten_cons,
      List.drop_zero, Nat.sub_zero, Nat.zero_add, List.append_assoc]

/-- Merging commutes with appending a portion. -/
theorem toBytes_append (hw : w.Bounded) (u : Encbuf) :
    (w.append u).toBytes = w.toBytes ++ u.toBytes := by
  have general (hs : List ListHead) (hhs : ∀ h ∈ hs, h.offset ≤ w.str.length) (p : ℕ)
      (hp : p ≤ w.str.length) :
      (pieces (w.str ++ u.str)
          (hs ++ u.lheads.map fun h => ⟨h.offset + w.str.length, h.size⟩) p).flatten =
        (pieces w.str hs p).flatten ++ (pieces u.str u.lheads 0).flatten := by
    induction hs generalizing p with
    | nil => simpa [pieces] using flatten_pieces_append hp u.lheads
    | cons h hs ih =>
      have hoff := hhs h List.mem_cons_self
      have htake : ((w.str ++ u.str).drop p).take (h.offset - p) =
          (w.str.drop p).take (h.offset - p) := by
        rw [List.drop_append_of_le_length hp, List.take_append_of_le_length]
        rw [List.length_drop]
        omega
      have hnext : p + ((w.str.drop p).take (h.offset - p)).length ≤ w.str.length := by
        simp only [List.length_take, List.length_drop]
        omega
      simp only [List.cons_append, pieces, htake, List.flatten_cons, List.append_assoc,
        ih (fun h' hmem => hhs h' (List.mem_cons_of_mem h hmem)) _ hnext]
  exact general w.lheads hw 0 (Nat.zero_le _)

theorem toBytes_enclose (u : Encbuf) :
    u.enclose.toBytes = puthead 0xC0 0xF7 u.size ++ u.toBytes := by
  simp [toBytes, enclose, pieces]

theorem toBytes_ofBytes (b : List UInt8) : (ofBytes b).toBytes = b := by
  simp [toBytes, ofBytes, pieces]

/-- The `Write` calls of `toWriter` carry the bytes of `toBytes`. -/
theorem flatten_toWriter (w : Encbuf) : w.toWriter.flatten = w.toBytes := by
  rw [toWriter, toBytes]
  induction pieces w.str w.lheads 0 with
  | nil => rfl
  | cons b bs ih =>
    by_cases hb : b = []
    · simpa [hb] using ih
    · simpa [hb] using ih

end Encbuf

/-- The buffer `w'` is `w` with exactly the encoding `b` written to it. -/
def Encbuf.Wrote (w w' : Encbuf) (b : List UInt8) : Prop :=
  ∃ u : Encbuf, w' = w.append u ∧ u.Bounded ∧ u.toBytes = b ∧ u.size = b.length

namespace Encbuf

theorem wrote_nil (w : Encbuf) : w.Wrote w [] :=
  ⟨empty, (append_empty w).symm, by simp [Bounded, empty], rfl, rfl⟩

theorem wrote_write (w : Encbuf) (b : List UInt8) : w.Wrote (w.write b) b :=
  ⟨ofBytes b, write_eq_append w b, by simp [Bounded, ofBytes], toBytes_ofBytes b,
    by simp [size, ofBytes]⟩

variable {w' : Encbuf}

/-- Two portions in sequence. -/
theorem Wrote.trans {w'' : Encbuf} {b' : List UInt8} (h : w.Wrote w' b) (h' : w'.Wrote w'' b') :
    w.Wrote w'' (b ++ b') := by
  obtain ⟨u, rfl, hu, hb, hsize⟩ := h
  obtain ⟨u', rfl, hu', hb', hsize'⟩ := h'
  refine ⟨u.append u', append_append w u u', hu.append hu', ?_, ?_⟩
  · rw [toBytes_append hu, hb, hb']
  · rw [List.length_append, ← hsize, ← hsize']
    simp only [size, append, List.length_append]
    omega

/-- Closing a list writes its header in front of what was written inside. -/
theorem Wrote.listEnd (h : w.list.Wrote w' b) :
    w.Wrote (w'.listEnd w.lheads.length) (encodeList b) := by
  obtain ⟨u, rfl, hu, hb, hsize⟩ := h
  refine ⟨u.enclose, listEnd_list_append w u, hu.enclose, ?_, ?_⟩
  · rw [toBytes_enclose, hb, hsize, encodeList]
  · rw [encodeList, List.length_append, ← headsize_eq_length, ← hsize]
    simp only [size, enclose]
    omega

/-- What was written to an empty buffer is the whole output. -/
theorem Wrote.output (h : empty.Wrote w b) : w.toBytes = b ∧ w.size = b.length := by
  obtain ⟨u, rfl, -, hb, hsize⟩ := h
  have hempty : empty.append u = u := by simp [append, empty]
  rw [hempty]
  exact ⟨hb, hsize⟩

end Encbuf

/-- Buffer and recursive encoding fail together or produce the same bytes. -/
def Agrees (w : Encbuf) : Except EncErr Encbuf → Except EncErr (List UInt8) → Prop
  | .ok w', .ok b => w.Wrote w' b
  | .error e, .error e' => e = e'
  | _, _ => False

/-- Agreement of two steps in sequence. -/
theorem Agrees.bind {e' : Except EncErr (List UInt8)} {f : Encbuf → Except EncErr Encbuf}
    (h : Agrees w r e) (h' : ∀ w', Agrees w' (f w') e') :
    Agrees w (r >>= f) (e >>= fun b => e' >>= fun bs => pure (b ++ bs)) := by
  match r, e, h with
  | .error _, .error _, h => exact h
  | .ok w', .ok b, h =>
    have hnext := h' w'
    change Agrees w (f w') (e' >>= fun bs => pure (b ++ bs))
    match f w', e', hnext with
    | .error _, .error _, hnext => exact hnext
    | .ok _, .ok _, hnext => exact h.trans hnext

/-- Agreement inside a list gives agreement on the list. -/
theorem Agrees.listEnd (h : Agrees w.list r e) :
    Agrees w (r >>= fun w' => pure (w'.listEnd w.lheads.length)) (e.map encodeList) := by
  match r, e, h with
  | .error _, .error _, h => exact h
  | .ok _, .ok _, h => exact Encbuf.Wrote.listEnd h

/-- The element loop agrees with the concatenation of the element encodings. -/
theorem agrees_foldlM {α : Type} {f : Encbuf → α → Except EncErr Encbuf}
    {enc : α → Except EncErr (List UInt8)} (h : ∀ x w, Agrees w (f w x) (enc x)) (l : List α)
    (w : Encbuf) : Agrees w (l.foldlM f w) (encodeElems enc l) := by
  induction l generalizing w with
  | nil => exact w.wrote_nil
  | cons x l ih => exact (h x w).bind ih

/-- Big integers. -/
theorem agrees_writeBigInt (w : Encbuf) (i : ℤ) : Agrees w (w.writeBigInt i) (encodeBigInt i) := by
  unfold Encbuf.writeBigInt encodeBigInt
  split_ifs
  · rfl
  · exact w.wrote_write _
  · exact w.wrote_write _

theorem wrote_writeUint (w : Encbuf) (i : ℕ) : w.Wrote (w.writeUint i) (encodeUint i) := by
  unfold Encbuf.writeUint encodeUint
  split_ifs <;> exact w.wrote_write _

theorem wrote_emptyList (w : Encbuf) :
    w.Wrote (w.list.listEnd w.lheads.length) [0xC0] :=
  w.list.wrote_nil.listEnd

/-- Nil pointers. -/
theorem agrees_writeNil : ∀ (t : Ty) (w : Encbuf), Agrees w (writeNil t w) (encodeNil t)
  | .uint _, w => by
    simpa [writeNil, encodeNil, Encbuf.writeUint, Agrees] using w.wrote_write [0x80]
  | .bool, w => w.wrote_write [0x80]
  | .string, w => w.wrote_write [0x80]
  | .bytes, w => w.wrote_write [0x80]
  | .byteArray _, w => w.wrote_write [0x80]
  | .bigInt, w => w.wrote_write [0x80]
  | .bigIntNoPtr, w => w.wrote_write [0x80]
  | .slice _, w => wrote_emptyList w
  | .array _ _, w => wrote_emptyList w
  | .struct _, w => wrote_emptyList w
  | .ptr elem, w => agrees_writeNil elem w

mutual

/-- Every writer writes the recursive encoding. -/
theorem agrees_write : ∀ (t : Ty) (v : t.Val) (w : Encbuf), Agrees w (write t v w) (encode t v)
  | .uint _, v, w => wrote_writeUint w (BitVec.toNat v)
  | .bool, _, w => w.wrote_write _
  | .string, _, w => w.wrote_write _
  | .bytes, _, w => w.wrote_write _
  | .byteArray _, _, w => w.wrote_write _
  | .bigInt, none, w => w.wrote_write _
  | .bigInt, some i, w => agrees_writeBigInt w i
  | .bigIntNoPtr, i, w => agrees_writeBigInt w i
  | .slice elem, v, w => (agrees_foldlM (fun x w => agrees_write elem x w) v w.list).listEnd
  | .array _ elem, v, w => (agrees_foldlM (fun x w => agrees_write elem x w) v.val w.list).listEnd
  | .struct fields, v, w => (agrees_writeFields fields v w.list).listEnd
  | .ptr elem, none, w => agrees_writeNil elem w
  | .ptr elem, some x, w => agrees_write elem x w

/-- The fields of a struct are written one after the other. -/
theorem agrees_writeFields : ∀ (fs : Fields) (v : fs.Val) (w : Encbuf),
    Agrees w (writeFields fs v w) (encodeFields fs v)
  | .nil, _, w => w.wrote_nil
  | .cons _ type rest, v, w =>
    (agrees_write type v.1 w).bind (fun w' => agrees_writeFields rest v.2 w')

end

/-- What agrees with a recursive encoding on the empty buffer outputs it. -/
theorem Agrees.output (h : Agrees Encbuf.empty r e) :
    r.map Encbuf.toBytes = e ∧ r.map Encbuf.size = e.map List.length := by
  match r, e, h with
  | .error _, .error _, rfl => exact ⟨rfl, rfl⟩
  | .ok _, .ok _, h =>
    obtain ⟨hbytes, hsize⟩ := Encbuf.Wrote.output h
    exact ⟨congrArg Except.ok hbytes, congrArg Except.ok hsize⟩

/-- What agrees with a recursive encoding on the empty buffer returns it as a slice, as far as
it fits in one. -/
theorem Agrees.slice_eq_ok (h : Agrees Encbuf.empty r e) :
    (r >>= fun w => if w.size < 2 ^ 63 then pure w.toBytes else throw .makeslice) = .ok b ↔
      e = .ok b ∧ b.length < 2 ^ 63 := by
  obtain ⟨hbytes, hsize⟩ := h.output
  cases r with
  | error e =>
    simp [← hbytes, Bind.bind, Except.bind, Except.map]
  | ok w =>
    have hlen : w.size = w.toBytes.length := by
      rw [← hbytes] at hsize
      exact Except.ok.inj hsize
    rw [← hbytes]
    simp only [Bind.bind, Except.bind, Except.map, Except.ok.injEq, hlen]
    split_ifs with hfit
    · exact ⟨fun h => ⟨Except.ok.inj h, Except.ok.inj h ▸ hfit⟩, fun h => congrArg Except.ok h.1⟩
    · constructor
      · intro h
        cases h
      · rintro ⟨rfl, hlt⟩
        exact absurd hlt hfit

theorem encodeToBytes_eq_ok {t : Ty} {v : t.Val} :
    encodeToBytes t v = .ok b ↔ encode t v = .ok b ∧ b.length < 2 ^ 63 :=
  (agrees_write t v Encbuf.empty).slice_eq_ok

theorem agrees_writeIfaces (vs : List Iface) (w : Encbuf) :
    Agrees w (writeIfaces vs w)
      ((encodeElems (fun v : Iface => encode v.type v.val) vs).map encodeList) :=
  (agrees_foldlM (fun v w => agrees_write v.type v.val w) vs w.list).listEnd

end Hashgrid.Rlp
