import Hashgrid.Rlp.Header

/-!
# The Go types that RLP handles

`rlp` chooses a writer and a decoder by reflection on the Go type. The types that
occur in the repository, and those that the package supports without custom
methods or struct tags, form the inductive family `Ty`; `Ty.Val` is the type of
the values of each of them. A pointer is an option, with `none` for `nil`.
-/

namespace Hashgrid.Rlp

open Hashgrid.Bytes

mutual

/-- Go types, up to the distinctions that `makeWriter` and `makeDecoder` make.
Slices and arrays of bytes are types of their own because both functions treat them
as strings. -/
inductive Ty
  /-- An unsigned integer type of the given width. -/
  | uint (bits : ℕ)
  /-- `bool`. -/
  | bool
  /-- `string`. -/
  | string
  /-- `[]byte`. -/
  | bytes
  /-- `[n]byte`. -/
  | byteArray (n : ℕ)
  /-- `*big.Int`. -/
  | bigInt
  /-- `big.Int`. -/
  | bigIntNoPtr
  /-- `[]T` for a type other than `byte`. -/
  | slice (elem : Ty)
  /-- `[n]T` for a type other than `byte`. -/
  | array (n : ℕ) (elem : Ty)
  /-- A struct type with its exported fields. -/
  | struct (fields : Fields)
  /-- `*T` for a type other than `big.Int`. -/
  | ptr (elem : Ty)

/-- The exported fields of a struct type, in declaration order. -/
inductive Fields
  /-- No further field. -/
  | nil
  /-- A field and those after it. -/
  | cons (name : String) (type : Ty) (rest : Fields)

end

mutual

/-- The values of a type. Nil slices are identified with empty ones. -/
def Ty.Val : Ty → Type
  | .uint bits => BitVec bits
  | .bool => Bool
  | .string => List UInt8
  | .bytes => List UInt8
  | .byteArray n => FixedBytes n
  | .bigInt => Option ℤ
  | .bigIntNoPtr => ℤ
  | .slice elem => List elem.Val
  | .array n elem => {l : List elem.Val // l.length = n}
  | .struct fields => fields.Val
  | .ptr elem => Option elem.Val

/-- The values of a sequence of fields. -/
def Fields.Val : Fields → Type
  | .nil => Unit
  | .cons _ type rest => type.Val × rest.Val

end

mutual

/-- The zero value of a type, with which a fresh variable starts. -/
def Ty.zero : (t : Ty) → t.Val
  | .uint bits => (0 : BitVec bits)
  | .bool => false
  | .string => ([] : List UInt8)
  | .bytes => ([] : List UInt8)
  | .byteArray n => FixedBytes.zero n
  | .bigInt => (none : Option ℤ)
  | .bigIntNoPtr => (0 : ℤ)
  | .slice elem => ([] : List elem.Val)
  | .array n elem => ⟨List.replicate n elem.zero, List.length_replicate⟩
  | .struct fields => fields.zero
  | .ptr elem => (none : Option elem.Val)

/-- The zero values of a sequence of fields. -/
def Fields.zero : (fs : Fields) → fs.Val
  | .nil => ()
  | .cons _ type rest => (type.zero, rest.zero)

end

end Hashgrid.Rlp
