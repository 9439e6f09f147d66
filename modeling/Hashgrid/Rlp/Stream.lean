import Hashgrid.Rlp.Types

/-!
# The decoding stream

`Stream` in `rlp/decode.go` reads one value at a time from a byte source. It caches
the kind of the value ahead, keeps a stack of the open lists, and keeps an error of
`readKind` until the next read. Every operation returns the stream also when it
fails, because callers may go on with it.
-/

namespace Hashgrid.Rlp

open Hashgrid.Bytes

/-- `Kind`. -/
inductive Kind
  /-- A single byte that is its own encoding. -/
  | byte
  /-- A string with a header. -/
  | string
  /-- A list. -/
  | list
  deriving DecidableEq

/-- Errors of the decoder. -/
inductive Err
  /-- `EOL`: the end of the current list. -/
  | eol
  /-- `ErrExpectedString`. -/
  | expectedString
  /-- `ErrExpectedList`. -/
  | expectedList
  /-- `ErrCanonInt`. -/
  | canonInt
  /-- `ErrCanonSize`. -/
  | canonSize
  /-- `ErrElemTooLarge`. -/
  | elemTooLarge
  /-- `ErrValueTooLarge`. -/
  | valueTooLarge
  /-- `ErrMoreThanOneValue`. -/
  | moreThanOneValue
  /-- `errNotInList`. -/
  | notInList
  /-- `errNotAtEOL`. -/
  | notAtEOL
  /-- `errUintOverflow`. -/
  | uintOverflow
  /-- `io.EOF`. -/
  | eof
  /-- `io.ErrUnexpectedEOF`. -/
  | unexpectedEOF
  /-- `rlp: invalid boolean value`. -/
  | invalidBool (num : ℕ)
  /-- `decodeError`: a message, the type that was decoded and the path to it. -/
  | decodeError (msg : String) (type : Ty) (ctx : List String)
  /-- No error of the source: a loop that reads nothing and therefore never ends. -/
  | diverges

/-- `listpos`: the position inside an open list, and its size. -/
structure ListPos where
  /-- Number of content bytes read. -/
  pos : ℕ
  /-- Number of content bytes. -/
  size : ℕ

/-- `Stream`, with the bytes that the source still holds. -/
structure Stream where
  /-- Bytes not yet taken from the source. -/
  input : List UInt8
  /-- Number of bytes that may still be read. -/
  remaining : ℕ
  /-- Whether an input limit is set. -/
  limited : Bool
  /-- Kind of the value ahead, or `none` when it has not been read. -/
  kind : Option Kind
  /-- Size of the value ahead. -/
  size : ℕ
  /-- Value of a single byte in the type tag. -/
  byteval : UInt8
  /-- Error of the last `readKind`. -/
  kinderr : Option Err
  /-- The open lists, innermost first. -/
  stack : List ListPos

/-- Subtraction of `uint64` values. -/
def sub64 (a b : ℕ) : ℕ := (a + 2 ^ 64 - b) % 2 ^ 64

/-- Addition of `uint64` values. -/
def add64 (a b : ℕ) : ℕ := (a + b) % 2 ^ 64

/-- `NewStream` over a `bytes.Reader`. A zero limit stands for the length of the data. -/
def newStream (r : List UInt8) (inputLimit : ℕ) : Stream where
  input := r
  remaining := if inputLimit > 0 then inputLimit else r.length
  limited := true
  kind := none
  size := 0
  byteval := 0
  kinderr := none
  stack := []

namespace Stream

/-- The part of `willRead` that accounts for the input limit. -/
def takeRemaining (n : ℕ) (s : Stream) : Option Err × Stream :=
  if s.limited then
    if n > s.remaining then (some .valueTooLarge, s)
    else (none, { s with remaining := s.remaining - n })
  else (none, s)

/-- `willRead`. -/
def willRead (n : ℕ) (s : Stream) : Option Err × Stream :=
  let s := { s with kind := none }
  match s.stack with
  | tos :: rest =>
    if n > sub64 tos.size tos.pos then (some .elemTooLarge, s)
    else takeRemaining n { s with stack := ⟨add64 tos.pos n, tos.size⟩ :: rest }
  | [] => takeRemaining n s

/-- `readFull`: the bytes stored in a buffer of `n` bytes. -/
def readFull (n : ℕ) (s : Stream) : List UInt8 × Option Err × Stream :=
  match willRead n s with
  | (some e, s) => ([], some e, s)
  | (none, s) =>
    let b := s.input.take n
    let s := { s with input := s.input.drop n }
    if b.length < n then (b, some .unexpectedEOF, s) else (b, none, s)

/-- `readByte`. -/
def readByte (s : Stream) : UInt8 × Option Err × Stream :=
  match willRead 1 s with
  | (some e, s) => (0, some e, s)
  | (none, s) =>
    match s.input with
    | [] => (0, some .unexpectedEOF, s)
    | b :: rest => (b, none, { s with input := rest })

/-- `readUint` for an integer of `size` bytes. -/
def readUint (size : ℕ) (s : Stream) : ℕ × Option Err × Stream :=
  match size with
  | 0 => (0, none, { s with kind := none })
  | 1 =>
    match readByte s with
    | (b, err, s) => (b.toNat, err, s)
  | size =>
    match readFull size s with
    | (_, some e, s) => (0, some e, s)
    | (b, none, s) =>
      if b.head? = some 0 then (0, some .canonSize, s) else (bytesNat b, none, s)

/-- The check of `readKind` that a separate size is not below 56. -/
def checkSize : ℕ × Option Err × Stream → ℕ × Option Err × Stream
  | (size, none, s) => (size, if size < 56 then some .canonSize else none, s)
  | (size, some e, s) => (size, some e, s)

/-- At top level the end of the input is reported as `io.EOF`. -/
def topLevelErr (s : Stream) (e : Err) : Err :=
  match s.stack, e with
  | [], .unexpectedEOF => .eof
  | [], .valueTooLarge => .eof
  | _, e => e

/-- `readKind`. -/
def readKind (s : Stream) : Kind × ℕ × Option Err × Stream :=
  match readByte s with
  | (_, some e, s) => (.byte, 0, some (topLevelErr s e), s)
  | (b, none, s) =>
    if b < 0x80 then (.byte, 0, none, { s with byteval := b })
    else
      let s := { s with byteval := 0 }
      if b < 0xB8 then (.string, (b - 0x80).toNat, none, s)
      else if b < 0xC0 then (.string, checkSize (readUint (b - 0xB7).toNat s))
      else if b < 0xF8 then (.list, (b - 0xC0).toNat, none, s)
      else (.list, checkSize (readUint (b - 0xF7).toNat s))

/-- The checks of `Kind` on the size of a value whose header was read without error. -/
def sizeErr (size : ℕ) (s : Stream) : Option Err :=
  match s.stack with
  | [] => if s.limited ∧ size > s.remaining then some .valueTooLarge else none
  | tos :: _ => if size > sub64 tos.size tos.pos then some .elemTooLarge else none

/-- The part of `Kind` that reads a header and remembers it. -/
def fetchKind (s : Stream) : Kind × ℕ × Option Err × Stream :=
  match readKind s with
  | (k, size, some e, s) =>
    (k, size, some e, { s with kind := some k, size := size, kinderr := some e })
  | (k, size, none, s) =>
    (k, size, sizeErr size s,
      { s with kind := some k, size := size, kinderr := sizeErr size s })

/-- `Kind`. -/
def kindOf (s : Stream) : Kind × ℕ × Option Err × Stream :=
  match s.kind with
  | some k => (k, s.size, s.kinderr, s)
  | none =>
    let s := { s with kinderr := none }
    match s.stack with
    | [] => fetchKind s
    | tos :: _ => if tos.pos = tos.size then (.byte, 0, some .eol, s) else fetchKind s

/-- `Bytes`. -/
def bytes (s : Stream) : List UInt8 × Option Err × Stream :=
  match kindOf s with
  | (_, _, some e, s) => ([], some e, s)
  | (.byte, _, none, s) => ([s.byteval], none, { s with kind := none })
  | (.string, size, none, s) =>
    match readFull size s with
    | (_, some e, s) => ([], some e, s)
    | (b, none, s) =>
      if size = 1 ∧ b.headD 0 < 128 then ([], some .canonSize, s) else (b, none, s)
  | (.list, _, none, s) => ([], some .expectedString, s)

/-- `uint`. -/
def uint (maxbits : ℕ) (s : Stream) : ℕ × Option Err × Stream :=
  match kindOf s with
  | (_, _, some e, s) => (0, some e, s)
  | (.byte, _, none, s) =>
    if s.byteval = 0 then (0, some .canonInt, s)
    else (s.byteval.toNat, none, { s with kind := none })
  | (.string, size, none, s) =>
    if size > maxbits / 8 then (0, some .uintOverflow, s)
    else
      match readUint size s with
      | (_, some .canonSize, s) => (0, some .canonInt, s)
      | (_, some e, s) => (0, some e, s)
      | (v, none, s) =>
        if size > 0 ∧ v < 128 then (0, some .canonSize, s) else (v, none, s)
  | (.list, _, none, s) => (0, some .expectedString, s)

/-- `Bool`. -/
def bool (s : Stream) : Bool × Option Err × Stream :=
  match uint 8 s with
  | (_, some e, s) => (false, some e, s)
  | (0, none, s) => (false, none, s)
  | (1, none, s) => (true, none, s)
  | (num, none, s) => (false, some (.invalidBool num), s)

/-- `List`. -/
def list (s : Stream) : ℕ × Option Err × Stream :=
  match kindOf s with
  | (_, _, some e, s) => (0, some e, s)
  | (.list, size, none, s) =>
    (size, none, { s with stack := ⟨0, size⟩ :: s.stack, kind := none, size := 0 })
  | (_, _, none, s) => (0, some .expectedList, s)

/-- `ListEnd`. -/
def listEnd (s : Stream) : Option Err × Stream :=
  match s.stack with
  | [] => (some .notInList, s)
  | tos :: rest =>
    if tos.pos ≠ tos.size then (some .notAtEOL, s)
    else
      let rest :=
        match rest with
        | [] => []
        | outer :: outers => ⟨add64 outer.pos tos.size, outer.size⟩ :: outers
      (none, { s with stack := rest, kind := none, size := 0 })

end Stream

end Hashgrid.Rlp
