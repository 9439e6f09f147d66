import Hashgrid.Lib.Bytes
import Mathlib.Data.Nat.Bitwise

/-!
# Message frames on a connection

`p2p/server.go` writes a message as one code byte, two four-byte words (the type
and the payload size) and the payload. `putInt32` and `readInt32` are separate
shift sequences, and the second byte that `putInt32` stores is `v >> 26` where
`readInt32` expects bits 16 to 23. This file determines which sequences of
messages survive the trip.
-/

namespace Hashgrid.Wire

/-- An `io.Reader` over fixed data. One `Read` call hands over at most `chunk`
bytes, so that a reader may deliver its data in pieces. -/
structure Reader where
  /-- The bytes still to be read. -/
  data : List UInt8
  /-- The most that a single `Read` call delivers. -/
  chunk : ℕ
  deriving DecidableEq

/-- The bytes that one `Read` call stores in a buffer of `n` bytes. -/
def Reader.read (r : Reader) (n : ℕ) : List UInt8 := r.data.take (min n r.chunk)

/-- `bytes.NewReader`: every call delivers as much as the buffer holds. -/
def newReader (b : List UInt8) : Reader := ⟨b, b.length⟩

/-- `p2p.Msg`. -/
structure Msg where
  /-- Message code. -/
  code : UInt8
  /-- Event type, or zero. -/
  type : UInt32
  /-- Size of the payload. -/
  size : UInt32
  /-- The payload reader. -/
  payload : Reader
  deriving DecidableEq

/-- What the receiver of a message can observe. -/
structure Contents where
  /-- Message code. -/
  code : UInt8
  /-- Event type, or zero. -/
  type : UInt32
  /-- Size of the payload. -/
  size : UInt32
  /-- All payload bytes. -/
  bytes : List UInt8
  deriving DecidableEq

/-- The observable part of a message. -/
def Msg.contents (m : Msg) : Contents := ⟨m.code, m.type, m.size, m.payload.data⟩

/-- The ways in which reading or writing a message fails. -/
inductive ConnErr
  /-- `ReadMsg` or `WriteMsg` on a connection without a descriptor. -/
  | notExist
  /-- `WriteMsg error: payload size not match`. -/
  | payloadSize
  /-- `io.ReadFull` found no byte at all. -/
  | eof
  /-- `io.ReadFull` found fewer bytes than it needs. -/
  | unexpectedEOF
  /-- The header does not fit in the allocated buffer: a run-time panic. -/
  | indexOutOfRange
  deriving DecidableEq

/-- `putInt32`. -/
def putInt32 (v : UInt32) : List UInt8 :=
  [(v >>> 24).toUInt8, (v >>> 26).toUInt8, (v >>> 8).toUInt8, v.toUInt8]

/-- `readInt32`, applied to the first four bytes of its argument. -/
def readInt32 : List UInt8 → UInt32
  | b0 :: b1 :: b2 :: b3 :: _ =>
    b3.toUInt32 ||| b2.toUInt32 <<< 8 ||| b1.toUInt32 <<< 16 ||| b0.toUInt32 <<< 24
  | _ => 0

/-- `conn.WriteMsg`, appending to the bytes already on the wire. The buffer has
`9 + Size` bytes in 32-bit arithmetic. -/
def writeMsg (fd : Option (List UInt8)) (m : Msg) : Except ConnErr (List UInt8) :=
  match fd with
  | none => .error .notExist
  | some wire =>
    let buflen := (9 + m.size).toNat
    if buflen < 9 then .error .indexOutOfRange
    else
      let body := m.payload.read (buflen - 9)
      if body.length ≠ m.size.toNat then .error .payloadSize
      else .ok (wire ++ m.code :: (putInt32 m.type ++ putInt32 m.size ++ body))

/-- `io.ReadFull` of `n` bytes. -/
def readFull (wire : List UInt8) (n : ℕ) : Except ConnErr (List UInt8 × List UInt8) :=
  if n ≤ wire.length then .ok (wire.take n, wire.drop n)
  else if wire.length = 0 then .error .eof else .error .unexpectedEOF

/-- `conn.ReadMsg`, returning the message and the bytes left on the wire. -/
def readMsg (fd : Option (List UInt8)) : Except ConnErr (Msg × List UInt8) :=
  match fd with
  | none => .error .notExist
  | some wire => do
    let (headbuf, wire) ← readFull wire 9
    let size := readInt32 (headbuf.drop 5)
    let (framebuf, wire) ← readFull wire size.toNat
    return (⟨headbuf.headD 0, readInt32 (headbuf.drop 1), size, newReader framebuf⟩, wire)

/-- A sequence of `WriteMsg` calls on one connection. -/
def writeMsgs : List Msg → List UInt8 → Except ConnErr (List UInt8)
  | [], wire => .ok wire
  | m :: ms, wire => do
    let wire ← writeMsg (some wire) m
    writeMsgs ms wire

/-- `n` successive `ReadMsg` calls on one connection. -/
def readMsgs : ℕ → List UInt8 → Except ConnErr (List Msg × List UInt8)
  | 0, wire => .ok ([], wire)
  | n + 1, wire => do
    let (m, wire) ← readMsg (some wire)
    let (ms, wire) ← readMsgs n wire
    return (m :: ms, wire)

/-- Write a sequence of messages on an empty wire and read as many back. -/
def transfer (ms : List Msg) : Except ConnErr (List Msg × List UInt8) := do
  let wire ← writeMsgs ms []
  readMsgs ms.length wire

/-- The other end observes exactly the messages that were written, and no byte
is left on the wire. -/
def Delivered (ms : List Msg) : Prop :=
  (transfer ms).toOption.map (fun r => (r.1.map Msg.contents, r.2)) =
    some (ms.map Msg.contents, [])

instance (ms : List Msg) : Decidable (Delivered ms) := inferInstanceAs (Decidable (_ = _))

/-- A message as `Send` builds it: the announced size is the number of payload
bytes, one `Read` call delivers all of them, and the frame length does not wrap. -/
structure Msg.Sendable (m : Msg) : Prop where
  /-- The size field is the payload length. -/
  size_eq : m.payload.data.length = m.size.toNat
  /-- The payload reader delivers all its bytes. -/
  delivers : m.size.toNat ≤ m.payload.chunk
  /-- The frame is shorter than `2 ^ 32` bytes. -/
  fits : 9 + m.size.toNat < 2 ^ 32

/-- The word `v` keeps its second byte in `putInt32`: bits 26 to 31 are the same
number as bits 16 to 23. Every word below `2 ^ 16` does. -/
def WordIntact (v : UInt32) : Prop := (v >>> 26).toUInt8 = (v >>> 16).toUInt8

instance (v : UInt32) : Decidable (WordIntact v) := inferInstanceAs (Decidable (_ = _))

/-- A disjunction of disjoint byte shifts is a sum. -/
theorem toNat_readInt32 (b0 b1 b2 b3 : UInt8) (rest : List UInt8) :
    (readInt32 (b0 :: b1 :: b2 :: b3 :: rest)).toNat =
      b3.toNat + 2 ^ 8 * b2.toNat + 2 ^ 16 * b1.toNat + 2 ^ 24 * b0.toNat := by
  have h0 := b0.toNat_lt
  have h1 := b1.toNat_lt
  have h2 := b2.toNat_lt
  have h3 := b3.toNat_lt
  have hor (x y k : ℕ) (hx : x < 2 ^ k) : x ||| y * 2 ^ k = x + 2 ^ k * y := by
    rw [Nat.or_comm, ← Nat.shiftLeft_eq, ← Nat.shiftLeft_add_eq_or_of_lt hx, Nat.shiftLeft_eq]
    ring
  simp only [readInt32, UInt32.toNat_or, UInt32.toNat_shiftLeft, UInt8.toNat_toUInt32,
    UInt32.toNat_ofNat, Nat.shiftLeft_eq]
  norm_num only
  rw [Nat.mod_eq_of_lt (by omega), Nat.mod_eq_of_lt (by omega), Nat.mod_eq_of_lt (by omega)]
  have e8 := hor b3.toNat b2.toNat 8 (by omega)
  have e16 := hor (b3.toNat + 2 ^ 8 * b2.toNat) b1.toNat 16 (by omega)
  have e24 := hor (b3.toNat + 2 ^ 8 * b2.toNat + 2 ^ 16 * b1.toNat) b0.toNat 24 (by omega)
  norm_num only at e8 e16 e24
  rw [e8, e16, e24]

/-- Reading a stored word back gives the word exactly when it is intact. -/
theorem readInt32_putInt32_append (v : UInt32) (rest : List UInt8) :
    readInt32 (putInt32 v ++ rest) = v ↔ WordIntact v := by
  have hv := v.toNat_lt
  rw [← UInt32.toNat_inj, WordIntact, ← UInt8.toNat_inj]
  simp only [putInt32, List.cons_append, List.nil_append, toNat_readInt32, UInt32.toNat_toUInt8,
    UInt32.toNat_shiftRight, UInt32.toNat_ofNat, Nat.shiftRight_eq_div_pow]
  norm_num only
  have h16 : v.toNat / 65536 = v.toNat / 256 / 256 := by omega
  have h24 : v.toNat / 16777216 = v.toNat / 256 / 256 / 256 := by omega
  rw [h16, h24]
  omega

/-- The bytes of a message with a payload that is read in one go. -/
def frame (m : Msg) : List UInt8 :=
  m.code :: (putInt32 m.type ++ putInt32 m.size ++ m.payload.data)

/-- The message that `ReadMsg` hands out for an intact frame: its payload reader
is a fresh reader over the received bytes. -/
def Msg.received (m : Msg) : Msg := { m with payload := newReader m.payload.data }

variable {m : Msg} {ms : List Msg} {rest : List UInt8}

/-- `WriteMsg` of a sendable message appends its frame. -/
theorem writeMsg_sendable (hm : m.Sendable) (wire : List UInt8) :
    writeMsg (some wire) m = .ok (wire ++ frame m) := by
  have hfits := hm.fits
  have hlen : (9 + m.size).toNat = 9 + m.size.toNat := by
    rw [UInt32.toNat_add, show (9 : UInt32).toNat = 9 from rfl, Nat.mod_eq_of_lt hfits]
  have hread : m.payload.read m.size.toNat = m.payload.data := by
    rw [Reader.read, min_eq_left hm.delivers, ← hm.size_eq, List.take_length]
  have hbuf : ¬ 9 + m.size.toNat < 9 := by omega
  simp only [writeMsg, hlen, if_neg hbuf, Nat.add_sub_cancel_left, hread, hm.size_eq, ne_eq,
    not_true_eq_false, if_false, frame]

/-- A run of `WriteMsg` calls on sendable messages lays their frames end to end. -/
theorem writeMsgs_sendable (hms : ∀ m ∈ ms, m.Sendable) (wire : List UInt8) :
    writeMsgs ms wire = .ok (wire ++ ms.flatMap frame) := by
  induction ms generalizing wire with
  | nil => simp [writeMsgs]
  | cons m ms ih =>
    have hm := hms m List.mem_cons_self
    have hrest : ∀ m' ∈ ms, m'.Sendable := fun m' h => hms m' (List.mem_cons_of_mem m h)
    simp only [writeMsgs, writeMsg_sendable hm, bind, Except.bind, ih hrest, List.flatMap_cons,
      List.append_assoc]

/-- `ReadMsg` at the start of a frame splits off the nine header bytes and then
trusts the size word it reads there. -/
theorem readMsg_frame (m : Msg) (rest : List UInt8) :
    readMsg (some (frame m ++ rest)) =
      (readFull (m.payload.data ++ rest) (readInt32 (putInt32 m.size)).toNat).map fun r =>
        (⟨m.code, readInt32 (putInt32 m.type ++ putInt32 m.size), readInt32 (putInt32 m.size),
          newReader r.1⟩, r.2) := by
  have hhead : readFull (frame m ++ rest) 9 =
      .ok (m.code :: (putInt32 m.type ++ putInt32 m.size), m.payload.data ++ rest) := by
    simp [readFull, frame, putInt32]
  simp only [readMsg, hhead, bind, Except.bind, List.drop_succ_cons, List.headD_cons,
    List.drop_zero]
  have hdrop : (putInt32 m.type ++ putInt32 m.size).drop 4 = putInt32 m.size := by
    simp [putInt32]
  rw [hdrop]
  cases readFull (m.payload.data ++ rest) (readInt32 (putInt32 m.size)).toNat <;> rfl

/-- An intact frame is read back as written, and the wire is left at the next frame. -/
theorem readMsg_intact (hm : m.Sendable) (htype : WordIntact m.type) (hsize : WordIntact m.size)
    (rest : List UInt8) : readMsg (some (frame m ++ rest)) = .ok (m.received, rest) := by
  have ht := (readInt32_putInt32_append m.type (putInt32 m.size)).mpr htype
  have hs : readInt32 (putInt32 m.size) = m.size := by
    simpa using (readInt32_putInt32_append m.size []).mpr hsize
  rw [readMsg_frame, ht, hs, ← hm.size_eq]
  simp [readFull, Except.map, Msg.received]

/-- A frame whose message is observed unchanged has intact header words. -/
theorem intact_of_readMsg {m' : Msg} {rest' : List UInt8}
    (hread : readMsg (some (frame m ++ rest)) = .ok (m', rest'))
    (hsame : m'.contents = m.contents) : WordIntact m.type ∧ WordIntact m.size := by
  rw [readMsg_frame] at hread
  cases hbody : readFull (m.payload.data ++ rest) (readInt32 (putInt32 m.size)).toNat with
  | error e => simp [hbody, Except.map] at hread
  | ok r =>
    simp only [hbody, Except.map, Except.ok.injEq, Prod.mk.injEq] at hread
    obtain ⟨rfl, rfl⟩ := hread
    simp only [Msg.contents, Contents.mk.injEq] at hsame
    obtain ⟨-, htype, hsize, -⟩ := hsame
    constructor
    · exact (readInt32_putInt32_append _ _).mp htype
    · exact (readInt32_putInt32_append _ []).mp (by simpa using hsize)

/-- Intact frames laid end to end are read back one by one. -/
theorem readMsgs_intact (hms : ∀ m ∈ ms, m.Sendable)
    (hintact : ∀ m ∈ ms, WordIntact m.type ∧ WordIntact m.size) :
    readMsgs ms.length (ms.flatMap frame) = .ok (ms.map Msg.received, []) := by
  induction ms with
  | nil => rfl
  | cons m ms ih =>
    obtain ⟨htype, hsize⟩ := hintact m List.mem_cons_self
    have htail := ih (fun m' h => hms m' (List.mem_cons_of_mem m h))
      (fun m' h => hintact m' (List.mem_cons_of_mem m h))
    simp only [List.length_cons, List.flatMap_cons, readMsgs,
      readMsg_intact (hms m List.mem_cons_self) htype hsize, bind, Except.bind, htail, pure,
      Except.pure, List.map_cons]

/-- If reading frames end to end shows the messages unchanged, every header word
is intact: the first damaged word would already be observed. -/
theorem intact_of_readMsgs {ms' : List Msg} (hms : ∀ m ∈ ms, m.Sendable)
    (hread : readMsgs ms.length (ms.flatMap frame) = .ok (ms', rest))
    (hsame : ms'.map Msg.contents = ms.map Msg.contents) :
    ∀ m ∈ ms, WordIntact m.type ∧ WordIntact m.size := by
  induction ms generalizing ms' rest with
  | nil => simp
  | cons m ms ih =>
    have hm := hms m List.mem_cons_self
    simp only [List.length_cons, List.flatMap_cons, readMsgs, bind, Except.bind] at hread
    cases hfirst : readMsg (some (frame m ++ ms.flatMap frame)) with
    | error e => simp [hfirst] at hread
    | ok r =>
      obtain ⟨m', wire⟩ := r
      simp only [hfirst] at hread
      cases htail : readMsgs ms.length wire with
      | error e => simp [htail] at hread
      | ok t =>
        simp only [htail, pure, Except.pure, Except.ok.injEq, Prod.mk.injEq] at hread
        obtain ⟨rfl, -⟩ := hread
        simp only [List.map_cons, List.cons.injEq] at hsame
        have hintact := intact_of_readMsg hfirst hsame.1
        have hwire : wire = ms.flatMap frame := by
          rw [readMsg_intact hm hintact.1 hintact.2] at hfirst
          simpa using (congrArg Prod.snd (Except.ok.inj hfirst)).symm
        subst hwire
        have hrest := ih (fun x h => hms x (List.mem_cons_of_mem m h)) htail hsame.2
        intro x hx
        rcases List.mem_cons.mp hx with rfl | hx
        · exact hintact
        · exact hrest x hx

/-- A sequence of sendable messages reaches the other end unchanged, with no byte
left over, exactly when every type word and every size word is intact. -/
theorem delivered_iff_intact {ms : List Msg} (hms : ∀ m ∈ ms, m.Sendable) :
    Delivered ms ↔ ∀ m ∈ ms, WordIntact m.type ∧ WordIntact m.size := by
  have hwrite : transfer ms = readMsgs ms.length (ms.flatMap frame) := by
    simp [transfer, writeMsgs_sendable hms, bind, Except.bind]
  rw [Delivered, hwrite]
  constructor
  · intro h
    cases hread : readMsgs ms.length (ms.flatMap frame) with
    | error e => simp [hread, Except.toOption] at h
    | ok r =>
      simp only [hread, Except.toOption, Option.map_some, Option.some.injEq,
        Prod.mk.injEq] at h
      exact intact_of_readMsgs hms hread h.1
  · intro h
    have hsame (m : Msg) : m.received.contents = m.contents := rfl
    simp [readMsgs_intact hms h, Except.toOption, Function.comp, hsame]

/-- A ping followed by an empty event message, both with small words. -/
theorem delivered_ping_then_event :
    Delivered [⟨0x02, 0, 1, newReader [0x80]⟩, ⟨0x10, 2, 0, newReader []⟩] := by
  apply (delivered_iff_intact ?_).mpr
  · decide
  · intro m hm
    simp only [List.mem_cons, List.not_mem_nil, or_false] at hm
    rcases hm with rfl | rfl <;> exact ⟨by decide, by decide, by decide⟩

/-- An event message of type `2 ^ 16` is sendable, but its type comes back as
zero: the second byte is stored as `2 ^ 16 >> 26`. -/
theorem not_delivered_type_two_pow_sixteen :
    (∀ m ∈ [(⟨0x10, 0x10000, 0, newReader []⟩ : Msg)], m.Sendable) ∧
      ¬ Delivered [⟨0x10, 0x10000, 0, newReader []⟩] := by
  constructor
  · intro m hm
    rw [List.mem_singleton.mp hm]
    exact ⟨by decide, by decide, by decide⟩
  · decide

end Hashgrid.Wire
