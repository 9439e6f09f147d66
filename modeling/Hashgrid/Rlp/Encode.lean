import Hashgrid.Rlp.Types

/-!
# The encoder buffer

`encbuf` keeps the string data and the list headers apart, because the size of a
list is known only after its elements are written. A header records where in the
string data it belongs; `toBytes` and `toWriter` merge the two sequences.
-/

namespace Hashgrid.Rlp

open Hashgrid.Bytes

/-- Errors of the encoder. -/
inductive EncErr
  /-- `rlp: cannot encode negative *big.Int`. -/
  | negativeBigInt
  /-- The output does not fit in a byte slice, whose length is an `int`: a panic. -/
  | makeslice
  deriving DecidableEq

/-- `listhead`: the position of a list header in the string data, and the size of the
list with all headers inside it. -/
structure ListHead where
  /-- Index of this header in the string data. -/
  offset : ℕ
  /-- Total size of the encoded elements. -/
  size : ℕ

/-- `encbuf`. -/
structure Encbuf where
  /-- String data, with everything except list headers. -/
  str : List UInt8
  /-- All list headers. -/
  lheads : List ListHead
  /-- Sum of the sizes of all finished list headers. -/
  lhsize : ℕ

namespace Encbuf

/-- The buffer after `reset`. -/
def empty : Encbuf := ⟨[], [], 0⟩

/-- Append string data. -/
def write (w : Encbuf) (b : List UInt8) : Encbuf := { w with str := w.str ++ b }

/-- `size`. -/
def size (w : Encbuf) : ℕ := w.str.length + w.lhsize

/-- `list`: open a list header. Until `listEnd` its size field holds the header bytes
written before it. -/
def list (w : Encbuf) : Encbuf :=
  { w with lheads := w.lheads ++ [⟨w.str.length, w.lhsize⟩] }

/-- `listEnd` for the header at index `i`. -/
def listEnd (w : Encbuf) (i : ℕ) : Encbuf :=
  match w.lheads[i]? with
  | none => w
  | some lh =>
    let size := w.size - lh.offset - lh.size
    { w with
      lheads := w.lheads.set i { lh with size := size }
      lhsize := w.lhsize + headsize size }

/-- `writeUint`. -/
def writeUint (w : Encbuf) (i : ℕ) : Encbuf :=
  if i = 0 then w.write [0x80]
  else if i < 128 then w.write [byte i]
  else w.write ((0x80 + byte (putint i).length) :: putint i)

/-- `writeBool`. -/
def writeBool (w : Encbuf) (b : Bool) : Encbuf := w.write [if b then 0x01 else 0x80]

/-- `writeBigInt`. -/
def writeBigInt (w : Encbuf) (i : ℤ) : Except EncErr Encbuf :=
  if i < 0 then .error .negativeBigInt
  else if i = 0 then .ok (w.write [0x80])
  else .ok (w.write (encodeString (natBytes i.toNat)))

/-- `writeBigIntPtr`. -/
def writeBigIntPtr (w : Encbuf) (ptr : Option ℤ) : Except EncErr Encbuf :=
  match ptr with
  | none => .ok (w.write [0x80])
  | some i => w.writeBigInt i

/-- The string data and headers from the position `strpos` on, in output order. -/
def pieces (str : List UInt8) : List ListHead → ℕ → List (List UInt8)
  | [], strpos => [str.drop strpos]
  | head :: heads, strpos =>
    (str.drop strpos).take (head.offset - strpos) :: puthead 0xC0 0xF7 head.size ::
      pieces str heads (strpos + ((str.drop strpos).take (head.offset - strpos)).length)

/-- `toBytes`. -/
def toBytes (w : Encbuf) : List UInt8 := (pieces w.str w.lheads 0).flatten

/-- `toWriter`: the arguments of the `Write` calls. Empty pieces are not written. -/
def toWriter (w : Encbuf) : List (List UInt8) := (pieces w.str w.lheads 0).filter (· ≠ [])

end Encbuf

mutual

/-- The writer that `makeWriter` chooses for a type. -/
def write : (t : Ty) → t.Val → Encbuf → Except EncErr Encbuf
  | .uint _, v, w => .ok (w.writeUint (BitVec.toNat v))
  | .bool, v, w => .ok (w.writeBool v)
  | .string, v, w => .ok (w.write (encodeString v))
  | .bytes, v, w => .ok (w.write (encodeString v))
  | .byteArray _, v, w => .ok (w.write (encodeString (FixedBytes.bytes v)))
  | .bigInt, v, w => w.writeBigIntPtr v
  | .bigIntNoPtr, v, w => w.writeBigInt v
  | .slice elem, v, w => do
    let w' ← List.foldlM (fun w x => write elem x w) w.list v
    return w'.listEnd w.lheads.length
  | .array _ elem, v, w => do
    let w' ← List.foldlM (fun w x => write elem x w) w.list v.val
    return w'.listEnd w.lheads.length
  | .struct fields, v, w => do
    let w' ← writeFields fields v w.list
    return w'.listEnd w.lheads.length
  | .ptr elem, v, w =>
    match (v : Option elem.Val) with
    | some x => write elem x w
    | none => writeNil elem w

/-- The writers of the fields of a struct, one after the other. -/
def writeFields : (fs : Fields) → fs.Val → Encbuf → Except EncErr Encbuf
  | .nil, _, w => .ok w
  | .cons _ type rest, v, w => do
    let w ← write type v.1 w
    writeFields rest v.2 w

/-- `nilfunc` of `makePtrWriter`: what stands for a nil pointer. Zero structs and arrays
are written as an empty list to avoid infinite recursion. -/
def writeNil : (t : Ty) → Encbuf → Except EncErr Encbuf
  | .byteArray _, w => .ok (w.write [0x80])
  | .struct _, w => .ok (w.list.listEnd w.lheads.length)
  | .array _ _, w => .ok (w.list.listEnd w.lheads.length)
  | .uint bits, w => .ok (w.writeUint (BitVec.toNat (0 : BitVec bits)))
  | .bool, w => .ok (w.writeBool false)
  | .string, w => .ok (w.write (encodeString []))
  | .bytes, w => .ok (w.write (encodeString []))
  | .bigInt, w => w.writeBigIntPtr none
  | .bigIntNoPtr, w => w.writeBigInt 0
  | .slice _, w => .ok (w.list.listEnd w.lheads.length)
  | .ptr elem, w => writeNil elem w

end

/-- `EncodeToBytes`. -/
def encodeToBytes (t : Ty) (v : t.Val) : Except EncErr (List UInt8) := do
  let w ← write t v Encbuf.empty
  if w.size < 2 ^ 63 then return w.toBytes else throw .makeslice

/-- A value in an interface: its dynamic type and the value. -/
structure Iface where
  /-- The dynamic type. -/
  type : Ty
  /-- The value. -/
  val : type.Val

/-- The writer for `[]interface{}`: a list of values of any types. -/
def writeIfaces (vs : List Iface) (w : Encbuf) : Except EncErr Encbuf := do
  let w' ← vs.foldlM (fun w v => write v.type v.val w) w.list
  return w'.listEnd w.lheads.length

end Hashgrid.Rlp
