import Hashgrid.Rlp.EncodeSemantics

/-!
# Values of any kind

Beyond the types of `Ty`, `makeWriter` handles interfaces, `RawValue`, slices with tag
`tail` and types with an `EncodeRLP` method. What an interface or a pointer contains is
written like the contained value, so these have no constructor of their own.
-/

namespace Hashgrid.Rlp

/-- A value as the writers see it. -/
inductive Value
  /-- A value of a type that contains no interfaces, raw values, encoders or tags. -/
  | typed (t : Ty) (v : t.Val)
  /-- A `RawValue`, or the argument of a `Write` call inside `EncodeRLP`. -/
  | rawValue (b : List UInt8)
  /-- A nil interface. -/
  | nilInterface
  /-- A slice, an array or a struct. -/
  | list (vs : List Value)
  /-- A slice with tag `tail`, or the values that `EncodeRLP` encodes one after the other. -/
  | tail (vs : List Value)

namespace Value

mutual

/-- The writer that `makeWriter` chooses for a value. -/
def write : Value → Encbuf → Except EncErr Encbuf
  | .typed t v, w => Rlp.write t v w
  | .rawValue b, w => .ok (w.write b)
  | .nilInterface, w => .ok (w.write [0xC0])
  | .list vs, w => do
    let w' ← writeAll vs w.list
    return w'.listEnd w.lheads.length
  | .tail vs, w => writeAll vs w

/-- The writers of several values, one after the other. -/
def writeAll : List Value → Encbuf → Except EncErr Encbuf
  | [], w => .ok w
  | v :: vs, w => do
    let w ← write v w
    writeAll vs w

end

mutual

/-- The RLP encoding of a value by recursion: a list is its header followed by the
concatenated encodings of its elements. -/
def encode : Value → Except EncErr (List UInt8)
  | .typed t v => Rlp.encode t v
  | .rawValue b => .ok b
  | .nilInterface => .ok [0xC0]
  | .list vs => (encodeAll vs).map encodeList
  | .tail vs => encodeAll vs

/-- The concatenated encodings of several values. -/
def encodeAll : List Value → Except EncErr (List UInt8)
  | [] => .ok []
  | v :: vs => do
    let b ← encode v
    let bs ← encodeAll vs
    return b ++ bs

end

mutual

/-- Every writer writes the recursive encoding. -/
theorem agrees_write : ∀ (v : Value) (w : Encbuf), Agrees w (v.write w) v.encode
  | .typed t v, w => Rlp.agrees_write t v w
  | .rawValue b, w => w.wrote_write b
  | .nilInterface, w => w.wrote_write [0xC0]
  | .list vs, w => (agrees_writeAll vs w.list).listEnd
  | .tail vs, w => agrees_writeAll vs w

theorem agrees_writeAll : ∀ (vs : List Value) (w : Encbuf), Agrees w (writeAll vs w) (encodeAll vs)
  | [], w => w.wrote_nil
  | v :: vs, w => (agrees_write v w).bind (agrees_writeAll vs)

end

/-- `EncodeToBytes`. -/
def encodeToBytes (v : Value) : Except EncErr (List UInt8) := do
  let w ← v.write Encbuf.empty
  if w.size < 2 ^ 63 then return w.toBytes else throw .makeslice

theorem encodeToBytes_eq_ok {v : Value} {b : List UInt8} :
    v.encodeToBytes = .ok b ↔ v.encode = .ok b ∧ b.length < 2 ^ 63 :=
  (agrees_write v Encbuf.empty).slice_eq_ok

end Value

end Hashgrid.Rlp
