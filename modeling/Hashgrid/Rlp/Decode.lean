import Hashgrid.Rlp.Stream

/-!
# Typed decoding

The decoders that `makeDecoder` builds fill a variable piece by piece and may fail
after any piece. They are modelled on a fresh variable: each returns the value as far
as it was filled, the error, and the stream.
-/

namespace Hashgrid.Rlp

open Hashgrid.Bytes

/-- `wrapStreamError`. -/
def wrapStreamError (e : Err) (t : Ty) : Err :=
  match e with
  | .canonInt => .decodeError "non-canonical integer (leading zero bytes)" t []
  | .canonSize => .decodeError "non-canonical size information" t []
  | .expectedList => .decodeError "expected input list" t []
  | .expectedString => .decodeError "expected input string or byte" t []
  | .uintOverflow => .decodeError "input string too long" t []
  | .notAtEOL => .decodeError "input list has too many elements" t []
  | e => e

/-- `addErrorContext`. -/
def addErrorContext (e : Err) (ctx : String) : Err :=
  match e with
  | .decodeError msg t cs => .decodeError msg t (cs ++ [ctx])
  | e => e

/-- `decodeBigInt` into a nil pointer. The pointer is set before the check for leading
zero bytes. -/
def decodeBigInt (s : Stream) : Option ℤ × Option Err × Stream :=
  match s.bytes with
  | (_, some e, s) => (none, some (wrapStreamError e .bigInt), s)
  | (b, none, s) =>
    if b.head? = some 0 then (some 0, some (wrapStreamError .canonInt .bigInt), s)
    else (some (bytesNat b), none, s)

/-- The array that holds the bytes `b`, filled up with zeros. -/
def fillArray (n : ℕ) (b : List UInt8) : FixedBytes n :=
  ⟨(b ++ List.replicate n 0).take n, by simp⟩

/-- `decodeByteArray`. The error of `Uint` in the single-byte case is dropped. -/
def decodeByteArray (n : ℕ) (s : Stream) : FixedBytes n × Option Err × Stream :=
  match s.kindOf with
  | (_, _, some e, s) => (FixedBytes.zero n, some e, s)
  | (.byte, _, none, s) =>
    if n = 0 then
      (FixedBytes.zero n, some (.decodeError "input string too long" (.byteArray n) []), s)
    else if n > 1 then
      (FixedBytes.zero n, some (.decodeError "input string too short" (.byteArray n) []), s)
    else
      match s.uint 64 with
      | (bv, _, s) => (fillArray n [byte bv], none, s)
  | (.string, size, none, s) =>
    if n < size then
      (FixedBytes.zero n, some (.decodeError "input string too long" (.byteArray n) []), s)
    else if n > size then
      (FixedBytes.zero n, some (.decodeError "input string too short" (.byteArray n) []), s)
    else
      match s.readFull n with
      | (b, some e, s) => (fillArray n b, some e, s)
      | (b, none, s) =>
        if size = 1 ∧ b.headD 0 < 128 then
          (fillArray n b, some (wrapStreamError .canonSize (.byteArray n)), s)
        else (fillArray n b, none, s)
  | (.list, _, none, s) =>
    (FixedBytes.zero n, some (wrapStreamError .expectedString (.byteArray n)), s)

/-- The loop of `decodeSliceElems`. Every decoded element takes at least one byte, so a
loop that outlives `fuel`, the number of bytes in the input and two more, reads nothing
any more. -/
def decodeSliceElems {α : Type} (elemdec : Stream → α × Option Err × Stream) :
    ℕ → List α → Stream → List α × Option Err × Stream
  | 0, val, s => (val, some .diverges, s)
  | fuel + 1, val, s =>
    match elemdec s with
    | (x, none, s) => decodeSliceElems elemdec fuel (val ++ [x]) s
    | (_, some .eol, s) => (val, none, s)
    | (x, some e, s) => (val ++ [x], some (addErrorContext e s!"[{val.length}]"), s)

/-- `decodeListSlice`. -/
def decodeListSlice {α : Type} (elemdec : Stream → α × Option Err × Stream) (t : Ty)
    (s : Stream) : List α × Option Err × Stream :=
  match s.list with
  | (_, some e, s) => ([], some (wrapStreamError e t), s)
  | (0, none, s) => ([], s.listEnd)
  | (_, none, s) =>
    match decodeSliceElems elemdec (s.input.length + 2) [] s with
    | (val, some e, s) => (val, some e, s)
    | (val, none, s) => (val, s.listEnd)

/-- The loop of `decodeListArray` over the `n` elements that are left, starting at index
`i`. It also returns how many elements are missing at `EOL`. -/
def decodeArrayElems {α : Type} (elemdec : Stream → α × Option Err × Stream) (zero : α) :
    (n : ℕ) → ℕ → Stream → {l : List α // l.length = n} × Bool × Option Err × Stream
  | 0, _, s => (⟨[], rfl⟩, false, none, s)
  | n + 1, i, s =>
    match elemdec s with
    | (_, some .eol, s) => (⟨List.replicate (n + 1) zero, List.length_replicate⟩, true, none, s)
    | (x, some e, s) =>
      (⟨x :: List.replicate n zero, by simp⟩, false, some (addErrorContext e s!"[{i}]"), s)
    | (x, none, s) =>
      match decodeArrayElems elemdec zero n (i + 1) s with
      | (xs, short, err, s) => (⟨x :: xs.val, by simp [xs.property]⟩, short, err, s)

/-- `decodeListArray`. -/
def decodeListArray {α : Type} (elemdec : Stream → α × Option Err × Stream) (zero : α)
    (n : ℕ) (t : Ty) (s : Stream) : {l : List α // l.length = n} × Option Err × Stream :=
  match s.list with
  | (_, some e, s) =>
    (⟨List.replicate n zero, List.length_replicate⟩, some (wrapStreamError e t), s)
  | (_, none, s) =>
    match decodeArrayElems elemdec zero n 0 s with
    | (val, _, some e, s) => (val, some e, s)
    | (val, true, none, s) =>
      (val, some (.decodeError "input list has too few elements" t []), s)
    | (val, false, none, s) =>
      match s.listEnd with
      | (err, s) => (val, err.map (wrapStreamError · t), s)

mutual

/-- The decoder that `makeDecoder` chooses for a type, applied to a fresh variable. -/
def decode : (t : Ty) → Stream → t.Val × Option Err × Stream
  | .uint bits, s =>
    match s.uint bits with
    | (_, some e, s) => ((0 : BitVec bits), some (wrapStreamError e (.uint bits)), s)
    | (num, none, s) => (BitVec.ofNat bits num, none, s)
  | .bool, s =>
    match s.bool with
    | (b, err, s) => (b, err.map (wrapStreamError · .bool), s)
  | .string, s =>
    match s.bytes with
    | (b, err, s) => (b, err.map (wrapStreamError · .string), s)
  | .bytes, s =>
    match s.bytes with
    | (b, err, s) => (b, err.map (wrapStreamError · .bytes), s)
  | .byteArray n, s => decodeByteArray n s
  | .bigInt, s => decodeBigInt s
  | .bigIntNoPtr, s =>
    match decodeBigInt s with
    | (i, err, s) => (i.getD 0, err, s)
  | .slice elem, s => decodeListSlice (decode elem) (.slice elem) s
  | .array n elem, s => decodeListArray (decode elem) elem.zero n (.array n elem) s
  | .struct fields, s =>
    match s.list with
    | (_, some e, s) => (fields.zero, some (wrapStreamError e (.struct fields)), s)
    | (_, none, s) =>
      match decodeFields fields (.struct fields) s with
      | (val, some e, s) => (val, some e, s)
      | (val, none, s) =>
        match s.listEnd with
        | (err, s) => (val, err.map (wrapStreamError · (.struct fields)), s)
  | .ptr elem, s =>
    match decode elem s with
    | (_, some e, s) => (none, some e, s)
    | (x, none, s) => (some x, none, s)

/-- The field loop of `makeStructDecoder` for the struct type `t`. -/
def decodeFields : (fs : Fields) → (t : Ty) → Stream → fs.Val × Option Err × Stream
  | .nil, _, s => ((), none, s)
  | .cons name type rest, t, s =>
    match decode type s with
    | (x, some .eol, s) => ((x, rest.zero), some (.decodeError "too few elements" t []), s)
    | (x, some e, s) => ((x, rest.zero), some (addErrorContext e ("." ++ name)), s)
    | (x, none, s) =>
      match decodeFields rest t s with
      | (xs, err, s) => ((x, xs), err, s)

end

/-- `DecodeBytes` into a fresh variable. -/
def decodeBytes (t : Ty) (b : List UInt8) : t.Val × Option Err :=
  match decode t (newStream b b.length) with
  | (v, some e, _) => (v, some e)
  | (v, none, s) => (v, if s.input.length > 0 then some .moreThanOneValue else none)

end Hashgrid.Rlp
