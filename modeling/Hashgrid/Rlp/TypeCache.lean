import Mathlib.Data.Finset.Card
import Mathlib.Logic.Relation

/-!
# The type cache

`cachedTypeInfo` generates the decoder and the writer of a type from those of the types that
it is built from, and keeps them in a cache. Recursive types are cut by a placeholder, which
is put into the cache before the generation starts, is filled when it succeeds, and is
removed from the cache when it fails. Types are known only by what `makeDecoder` and
`makeWriter` ask for.
-/

namespace Hashgrid.Rlp.TypeCache

/-- `tags`. -/
structure Tags where
  /-- Whether empty input results in a nil pointer. -/
  nilOK : Bool
  /-- Whether the field swallows additional list elements. -/
  tail : Bool
  /-- Whether the field is ignored. -/
  ignored : Bool
  deriving DecidableEq

/-- The empty tags. -/
def Tags.none : Tags := ⟨false, false, false⟩

/-- A field of a struct type. -/
structure Field (T : Type) where
  /-- Whether the field is exported. -/
  exported : Bool
  /-- Its type. -/
  type : T
  /-- Its tags, if `parseStructTag` accepts them. -/
  tags : Option Tags

/-- What `makeDecoder` or `makeWriter` does for a type. -/
inductive Shape (T : Type)
  /-- The function does not need other types. -/
  | leaf
  /-- A slice, an array or a pointer. -/
  | elem (t : T)
  /-- A struct. -/
  | struct (fields : List (Field T))
  /-- The type is not RLP-serializable. -/
  | unsupported

/-- A system of types. Types with an own `DecodeRLP` or `EncodeRLP` method may have different
shapes for the two functions. -/
structure TypeSystem (T : Type) where
  /-- The case of `makeDecoder`. -/
  decoder : T → Shape T
  /-- The case of `makeWriter`. -/
  writer : T → Shape T

/-- `typekey`. -/
def Key (T : Type) : Type := T × Tags

instance {T : Type} [DecidableEq T] : DecidableEq (Key T) :=
  inferInstanceAs (DecidableEq (T × Tags))

/-- What is done on the way to a decoder or a writer. -/
inductive Request (T : Type)
  /-- The type is looked up. -/
  | look (key : Key T)
  /-- An error is returned. -/
  | fail

/-- The requests of `structFields`. -/
def structFields {T : Type} : List (Field T) → List (Request T)
  | [] => []
  | f :: fields =>
    if f.exported then
      match f.tags with
      | none => [.fail]
      | some tags =>
        if tags.ignored then structFields fields else .look (f.type, tags) :: structFields fields
    else structFields fields

/-- The requests for a type of the given shape. -/
def Shape.requests {T : Type} : Shape T → List (Request T)
  | .leaf => []
  | .elem t => [.look (t, .none)]
  | .struct fields => structFields fields
  | .unsupported => [.fail]

/-- `typeinfo`. The functions are known by the type infos they refer to; `none` is nil. -/
structure TypeInfo where
  /-- The decoder. -/
  decoder : Option (List ℕ)
  /-- The writer. -/
  writer : Option (List ℕ)
  deriving DecidableEq

/-- `typeCache`, and the type infos that were allocated. A pointer is an index into them. -/
structure Cache (T : Type) where
  /-- The type infos. -/
  heap : List TypeInfo
  /-- The map. -/
  entries : Key T → Option ℕ

variable {T : Type} [DecidableEq T]

namespace Cache

/-- The empty cache. -/
def empty : Cache T := ⟨[], fun _ => none⟩

/-- A placeholder is put into the cache. -/
def place (s : Cache T) (key : Key T) : Cache T :=
  ⟨s.heap ++ [⟨none, none⟩], Function.update s.entries key (some s.heap.length)⟩

/-- The entry is removed. -/
def delete (s : Cache T) (key : Key T) : Cache T :=
  { s with entries := Function.update s.entries key none }

/-- The type info is overwritten. -/
def fill (s : Cache T) (r : ℕ) (info : TypeInfo) : Cache T := { s with heap := s.heap.set r info }

end Cache

/-- What a computation on the cache returns, unless it does not return: a result or an error, and
the cache. -/
def Outcome (T α : Type) : Type := Option (Option α × Cache T)

/-- The lookups on the way to a decoder or a writer. -/
def generate (look : Key T → Cache T → Outcome T ℕ) :
    List (Request T) → Cache T → Outcome T (List ℕ)
  | [], s => some (some [], s)
  | .fail :: _, s => some (none, s)
  | .look key :: requests, s =>
    match look key s with
    | none => none
    | some (none, s) => some (none, s)
    | some (some r, s) =>
      match generate look requests s with
      | none => none
      | some (none, s) => some (none, s)
      | some (some rs, s) => some (some (r :: rs), s)

/-- `cachedTypeInfo1`. A lookup that outlives `fuel` nested ones, or that finds its own placeholder
gone, does not return. -/
def cachedTypeInfo1 (sys : TypeSystem T) : ℕ → Key T → Cache T → Outcome T ℕ
  | 0, _, _ => none
  | fuel + 1, key, s =>
    match s.entries key with
    | some r => some (some r, s)
    | none =>
      match generate (cachedTypeInfo1 sys fuel) (sys.decoder key.1).requests (s.place key) with
      | none => none
      | some (none, s) => some (none, s.delete key)
      | some (some decoder, s) =>
        match generate (cachedTypeInfo1 sys fuel) (sys.writer key.1).requests s with
        | none => none
        | some (none, s) => some (none, s.delete key)
        | some (some writer, s) =>
          match s.entries key with
          | none => none
          | some r => some (some r, s.fill r ⟨some decoder, some writer⟩)

/-- A sequence of `cachedTypeInfo` calls: the result of each, and the cache. -/
def cachedTypeInfos (sys : TypeSystem T) (fuel : ℕ) :
    List (Key T) → Cache T → Option (List (Option ℕ) × Cache T)
  | [], s => some ([], s)
  | key :: keys, s =>
    match cachedTypeInfo1 sys fuel key s with
    | none => none
    | some (res, s) =>
      match cachedTypeInfos sys fuel keys s with
      | none => none
      | some (results, s) => some (res :: results, s)

end Hashgrid.Rlp.TypeCache
