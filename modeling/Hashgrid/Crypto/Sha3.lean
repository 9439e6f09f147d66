import Hashgrid.Lib.Bytes
import Hashgrid.Lib.Heap
import Hashgrid.Lib.Sponge

/-!
# The sponge of the sha3 package

The `state` objects live in a heap, since the slice `buf` of one may point into the array
`storage` of another: `clone` copies the array and has to point the slice of the copy at
the copy. A byte that is appended to `buf` is written into the array that `buf` points
into. The permutation `keccakF1600` is a parameter, and the words are read and written in
the little-endian order of the unaligned variant.
-/

namespace Hashgrid.Sha3

open Hashgrid.Bytes

/-- `spongeDirection`. -/
inductive SpongeDirection
  /-- `spongeAbsorbing`. -/
  | absorbing
  /-- `spongeSqueezing`. -/
  | squeezing
  deriving DecidableEq

/-- `maxRate`. -/
def maxRate : ℕ := 168

/-- The words of the state, `[25]uint64`. -/
def Lanes : Type := Fin 25 → UInt64

/-- A slice of the array `storage` of a state. It reaches to the end of the array. -/
structure Slice where
  /-- The state whose array it is. -/
  owner : ℕ
  /-- The index of the first byte. -/
  start : ℕ
  /-- The number of bytes. -/
  len : ℕ
  deriving DecidableEq

/-- `cap` of a slice. -/
def Slice.cap (w : Slice) : ℕ := maxRate - w.start

/-- The `state` of a hash function. -/
structure State where
  /-- The main state of the hash. -/
  a : Lanes
  /-- The input or the output that is waiting; `none` is the nil slice. -/
  buf : Option Slice
  /-- The number of bytes of the state to use. -/
  rate : ℕ
  /-- The domain separation byte. -/
  dsbyte : UInt8
  /-- The array behind `buf`. -/
  storage : FixedBytes maxRate
  /-- The default output size in bytes. -/
  outputLen : ℕ
  /-- Whether the sponge is absorbing or squeezing. -/
  state : SpongeDirection

/-- The words of a new state. -/
def Lanes.zero : Lanes := fun _ => 0

instance : Inhabited State :=
  ⟨⟨.zero, none, 0, 0, .zero maxRate, 0, .absorbing⟩⟩

/-- The states in memory. -/
abbrev Mem : Type := Heap State

/-- The ways in which a call can fail. -/
inductive Stop
  /-- The panic of `Write` after `Read`. -/
  | writeAfterRead
  /-- A slice expression out of range. -/
  | sliceBounds
  /-- An index out of range. -/
  | indexOutOfRange
  /-- `append` beyond the capacity: the bytes would move to another array. -/
  | regrown
  /-- A loop that does not end. -/
  | diverges
  deriving DecidableEq

/-- Overwrite the bytes of an array from an index on. -/
def patch {n : ℕ} (b : FixedBytes n) (i : ℕ) (bs : List UInt8) : FixedBytes n :=
  ⟨(b.bytes.take i ++ bs ++ b.bytes.drop (i + bs.length)).take n, by
    have hlen := b.length_eq
    simp only [List.length_take, List.length_append, List.length_drop]
    omega⟩

/-- Replace a state. -/
def Mem.set (mem : Mem) (d : ℕ) (s : State) : Mem := mem.update d fun _ => s

/-- The bytes of a slice. -/
def Mem.bytes (mem : Mem) (w : Slice) : List UInt8 :=
  ((mem.get w.owner).storage.bytes.drop w.start).take w.len

/-- `d.storage[:n]`. -/
def storageUpTo (d n : ℕ) : Except Stop Slice :=
  if n ≤ maxRate then .ok ⟨d, 0, n⟩ else .error .sliceBounds

/-- The slice `d.buf`, where a nil slice is replaced by `d.storage[:0]`. -/
def Mem.bufOf (mem : Mem) (d : ℕ) : Slice := (mem.get d).buf.getD ⟨d, 0, 0⟩

/-- `append(w, bs...)`. -/
def Mem.append (mem : Mem) (w : Slice) (bs : List UInt8) : Except Stop (Mem × Slice) :=
  if w.len + bs.length ≤ w.cap then
    let s := mem.get w.owner
    .ok (mem.set w.owner { s with storage := patch s.storage (w.start + w.len) bs },
      { w with len := w.len + bs.length })
  else .error .regrown

/-- A little-endian word. -/
def leWord (b : List UInt8) : UInt64 := UInt64.ofNat (bytesNat b.reverse)

/-- The bytes of the words in memory order. -/
def Lanes.bytes (a : Lanes) : List UInt8 :=
  (List.finRange 25).flatMap fun i => (List.range 8).map fun j =>
    UInt8.ofNat ((a i).toNat >>> (8 * j))

/-- The number of words that `xorInUnaligned` changes for an input of `n` bytes. -/
def lanesRead (n : ℕ) : ℕ :=
  if 168 ≤ n then 21 else if 144 ≤ n then 18 else if 136 ≤ n then 17
  else if 104 ≤ n then 13 else if 72 ≤ n then 9 else 0

/-- `xorInUnaligned`. -/
def xorIn (a : Lanes) (buf : List UInt8) : Except Stop Lanes :=
  if buf = [] then .error .indexOutOfRange
  else .ok fun i =>
    if i.val < lanesRead buf.length then a i ^^^ leWord ((buf.drop (8 * i.val)).take 8) else a i

/-- `copyOutUnaligned` into the slice `w`. -/
def Mem.copyOut (mem : Mem) (a : Lanes) (w : Slice) : Mem :=
  let s := mem.get w.owner
  mem.set w.owner
    { s with storage := patch s.storage w.start ((a.bytes.take maxRate).take w.len) }

section Functions

variable (f : Lanes → Lanes)

/-- `permute`. -/
def permute (mem : Mem) (d : ℕ) : Except Stop Mem := do
  let s := mem.get d
  match s.state with
  | .absorbing =>
    let a ← xorIn s.a ((s.buf.map mem.bytes).getD [])
    return mem.set d { s with a := f a, buf := some ⟨d, 0, 0⟩ }
  | .squeezing =>
    let w ← storageUpTo d s.rate
    let mem := mem.set d { s with a := f s.a, buf := some w }
    return mem.copyOut (f s.a) w

/-- The first part of `padAndPermute`: the padding behind the bytes of the buffer. -/
def padBuf (mem : Mem) (d : ℕ) (dsbyte : UInt8) : Except Stop Mem := do
  let (mem, w) ← mem.append (mem.bufOf d) [dsbyte]
  let zerosStart := w.len
  let s := mem.get d
  let w ← storageUpTo d s.rate
  let zeroed := patch s.storage zerosStart (List.replicate (s.rate - zerosStart) 0)
  if s.rate = 0 then throw .indexOutOfRange
  let last := zeroed.bytes.getD (s.rate - 1) 0
  return mem.set d { s with
    buf := some w, storage := patch zeroed (s.rate - 1) [last ^^^ 0x80] }

/-- `padAndPermute`. -/
def padAndPermute (mem : Mem) (d : ℕ) (dsbyte : UInt8) : Except Stop Mem := do
  let mem ← padBuf mem d dsbyte
  let mem ← permute f mem d
  let s := mem.get d
  let w ← storageUpTo d s.rate
  let mem := mem.set d { s with state := .squeezing, buf := some w }
  return mem.copyOut s.a w

/-- One turn of the loop in `Write`: the memory and the input that is left. -/
def writeTurn (mem : Mem) (d : ℕ) (p : List UInt8) : Except Stop (Mem × List UInt8) := do
  let s := mem.get d
  let w := mem.bufOf d
  if w.len = 0 ∧ s.rate ≤ p.length then
    -- The fast path: the input is not copied.
    let a ← xorIn s.a (p.take s.rate)
    return (mem.set d { s with a := f a }, p.drop s.rate)
  else
    let todo := min (s.rate - w.len) p.length
    let (mem, w) ← mem.append w (p.take todo)
    let mem := mem.set d { mem.get d with buf := some w }
    if w.len = s.rate then
      let mem ← permute f mem d
      return (mem, p.drop todo)
    return (mem, p.drop todo)

/-- The loop in `Write`. -/
def writeLoop (d : ℕ) : ℕ → Mem → List UInt8 → Except Stop Mem
  | _, mem, [] => .ok mem
  | 0, _, _ :: _ => .error .diverges
  | fuel + 1, mem, x :: xs => do
    let (mem, p) ← writeTurn f mem d (x :: xs)
    writeLoop d fuel mem p

/-- `Write`. Every turn of the loop takes at least one byte of the input. -/
def write (mem : Mem) (d : ℕ) (p : List UInt8) : Except Stop Mem := do
  let s := mem.get d
  if s.state ≠ .absorbing then throw .writeAfterRead
  let mem := mem.set d { s with buf := some (mem.bufOf d) }
  writeLoop f d p.length mem p

/-- The loop in `Read` for `n` more bytes: the bytes and the memory. -/
def readLoop (d : ℕ) : ℕ → Mem → ℕ → Except Stop (List UInt8 × Mem)
  | _, mem, 0 => .ok ([], mem)
  | 0, _, _ + 1 => .error .diverges
  | fuel + 1, mem, n + 1 => do
    let s := mem.get d
    let w := mem.bufOf d
    let out := (mem.bytes w).take (n + 1)
    let w := { w with start := w.start + out.length, len := w.len - out.length }
    let mem := mem.set d { s with buf := some w }
    let mem ← if w.len = 0 then permute f mem d else pure mem
    let (rest, mem) ← readLoop d fuel mem (n + 1 - out.length)
    return (out ++ rest, mem)

/-- `Read` into a slice of `n` bytes. -/
def read (mem : Mem) (d n : ℕ) : Except Stop (List UInt8 × Mem) := do
  let s := mem.get d
  let mem ← if s.state = .absorbing then padAndPermute f mem d s.dsbyte else pure mem
  readLoop f d n mem n

end Functions

/-- `clone`. -/
def clone (mem : Mem) (d : ℕ) : Except Stop (Mem × ℕ) := do
  let s := mem.get d
  let ret := mem.next
  match s.state with
  | .absorbing =>
    let w ← storageUpTo ret (mem.bufOf d).len
    return (mem.alloc { s with buf := some w }, ret)
  | .squeezing =>
    let cap := (s.buf.map Slice.cap).getD 0
    if cap ≤ s.rate ∧ s.rate ≤ maxRate then
      return (mem.alloc { s with buf := some ⟨ret, s.rate - cap, cap⟩ }, ret)
    else throw .sliceBounds

/-- `Sum`: the bytes behind `bs` and the memory. -/
def sum (f : Lanes → Lanes) (mem : Mem) (d : ℕ) (bs : List UInt8) :
    Except Stop (List UInt8 × Mem) := do
  let (mem, dup) ← clone mem d
  let (hash, mem) ← read f mem dup (mem.get dup).outputLen
  return (bs ++ hash, mem)

/-- `NewKeccak256`. -/
def newKeccak256 (mem : Mem) : Mem × ℕ :=
  (mem.alloc
    { a := .zero
      buf := none
      rate := 136
      dsbyte := 0x01
      storage := .zero maxRate
      outputLen := 32
      state := .absorbing }, mem.next)

/-- A call on a hash function. -/
inductive Call
  /-- `Write` of the bytes. -/
  | write (p : List UInt8)
  /-- `Sum` behind the bytes. -/
  | sum (bs : List UInt8)

/-- A sequence of calls on one hash function: what its `Sum` calls return. -/
def calls (f : Lanes → Lanes) (d : ℕ) : Mem → List Call → Except Stop (List (List UInt8) × Mem)
  | mem, [] => .ok ([], mem)
  | mem, .write p :: cs => do
    let mem ← write f mem d p
    calls f d mem cs
  | mem, .sum bs :: cs => do
    let (out, mem) ← sum f mem d bs
    let (outs, mem) ← calls f d mem cs
    return (out :: outs, mem)

end Hashgrid.Sha3
