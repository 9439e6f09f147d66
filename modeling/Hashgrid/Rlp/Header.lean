import Hashgrid.Lib.Bytes

/-!
# RLP headers

`rlp/encode.go` writes a header in front of every string of more than one byte and
of every list: one tag byte, followed for long values by the size in big-endian
form. `putint` and `intsize` are written out case by case in the source; this file
relates them to the byte string of a number.
-/

namespace Hashgrid.Rlp

open Hashgrid.Bytes

/-- Conversion of an unsigned integer to `byte`, keeping the low eight bits. -/
def byte (i : ℕ) : UInt8 := UInt8.ofNat i

/-- `putint`: the bytes stored for the `uint64` value `i`. -/
def putint (i : ℕ) : List UInt8 :=
  if i < 1 <<< 8 then [byte i]
  else if i < 1 <<< 16 then [byte (i >>> 8), byte i]
  else if i < 1 <<< 24 then [byte (i >>> 16), byte (i >>> 8), byte i]
  else if i < 1 <<< 32 then [byte (i >>> 24), byte (i >>> 16), byte (i >>> 8), byte i]
  else if i < 1 <<< 40 then
    [byte (i >>> 32), byte (i >>> 24), byte (i >>> 16), byte (i >>> 8), byte i]
  else if i < 1 <<< 48 then
    [byte (i >>> 40), byte (i >>> 32), byte (i >>> 24), byte (i >>> 16), byte (i >>> 8), byte i]
  else if i < 1 <<< 56 then
    [byte (i >>> 48), byte (i >>> 40), byte (i >>> 32), byte (i >>> 24), byte (i >>> 16),
      byte (i >>> 8), byte i]
  else
    [byte (i >>> 56), byte (i >>> 48), byte (i >>> 40), byte (i >>> 32), byte (i >>> 24),
      byte (i >>> 16), byte (i >>> 8), byte i]

/-- The loop of `intsize`. The eighth shift leaves any `uint64` at zero, so the loop is
left with that size when the seven tests before it have failed. -/
def intsizeLoop : ℕ → ℕ → ℕ → ℕ
  | 0, _, size => size
  | fuel + 1, i, size => if i >>> 8 = 0 then size else intsizeLoop fuel (i >>> 8) (size + 1)

/-- `intsize`: the number of bytes needed to store `i`. -/
def intsize (i : ℕ) : ℕ := intsizeLoop 7 i 1

/-- `headsize`: the size of the header of a value of the given size. -/
def headsize (size : ℕ) : ℕ := if size < 56 then 1 else 1 + intsize size

/-- `puthead`: the header of a value of the given size. -/
def puthead (smalltag largetag : UInt8) (size : ℕ) : List UInt8 :=
  if size < 56 then [smalltag + byte size]
  else (largetag + byte (putint size).length) :: putint size

/-- `encodeString`, which leaves out the header of a single byte up to `0x7F`. -/
def encodeString (b : List UInt8) : List UInt8 :=
  match b with
  | [x] => if x ≤ 0x7F then [x] else puthead 0x80 0xB7 1 ++ [x]
  | _ => puthead 0x80 0xB7 b.length ++ b

/-- A header and the contents of a list. -/
def encodeList (content : List UInt8) : List UInt8 := puthead 0xC0 0xF7 content.length ++ content

theorem byte_mod (i : ℕ) : byte (i % 256) = byte i := by
  apply UInt8.toNat_inj.mp
  simp [byte]

variable {i : ℕ}

theorem natBytes_of_pos (hi : 0 < i) : natBytes i = natBytes (i / 256) ++ [byte i] := by
  rw [natBytes, Nat.digits_def' (by decide) hi, List.map_cons, List.reverse_cons, ← natBytes]
  exact congrArg (fun x => natBytes (i / 256) ++ [x]) (byte_mod i)

/-- A number with `k + 1` digits is spelled by its right shifts. -/
theorem natBytes_eq_shifts {k : ℕ} (hle : 256 ^ k ≤ i) (hlt : i < 256 ^ (k + 1)) :
    natBytes i = ((List.range (k + 1)).map fun j => byte (i >>> (8 * j))).reverse := by
  have hpos : 0 < i := lt_of_lt_of_le (by positivity) hle
  rw [natBytes_of_pos hpos]
  induction k generalizing i with
  | zero =>
    have hsmall : i / 256 = 0 := Nat.div_eq_of_lt (by simpa using hlt)
    simp [hsmall]
  | succ k ih =>
    have hle' : 256 ^ k ≤ i / 256 := by
      rw [Nat.le_div_iff_mul_le (by decide), ← pow_succ]
      exact hle
    have hlt' : i / 256 < 256 ^ (k + 1) := by
      rw [Nat.div_lt_iff_lt_mul (by decide), ← pow_succ]
      exact hlt
    have hpos' : 0 < i / 256 := lt_of_lt_of_le (by positivity) hle'
    rw [natBytes_of_pos hpos', ih hle' hlt' hpos', List.range_succ_eq_map (n := k + 1),
      List.map_cons, List.reverse_cons, List.map_map]
    have hshift (j : ℕ) : (i / 256) >>> (8 * j) = i >>> (8 * (j + 1)) := by
      rw [Nat.shiftRight_eq_div_pow, Nat.shiftRight_eq_div_pow, Nat.div_div_eq_div_mul,
        Nat.mul_add, pow_add, Nat.mul_comm (2 ^ (8 * j))]
      norm_num only
    simp [Function.comp_def, hshift]

/-- On positive 64-bit values the case analysis of `putint` writes the digits of the
number and nothing else. -/
theorem putint_eq_natBytes (hi : 0 < i) (hlt : i < 2 ^ 64) : putint i = natBytes i := by
  have hbytes (k : ℕ) (hle : 256 ^ k ≤ i) (hlt : i < 256 ^ (k + 1)) := natBytes_eq_shifts hle hlt
  simp only [putint, Nat.shiftLeft_eq, Nat.reducePow, one_mul]
  split_ifs with c1 c2 c3 c4 c5 c6 c7
  · rw [hbytes 0 (by omega) (by omega)]; rfl
  · rw [hbytes 1 (by omega) (by omega)]; rfl
  · rw [hbytes 2 (by omega) (by omega)]; rfl
  · rw [hbytes 3 (by omega) (by omega)]; rfl
  · rw [hbytes 4 (by omega) (by omega)]; rfl
  · rw [hbytes 5 (by omega) (by omega)]; rfl
  · rw [hbytes 6 (by omega) (by omega)]; rfl
  · rw [hbytes 7 (by omega) (by omega)]; rfl

theorem bytesNat_putint (hi : 0 < i) (hlt : i < 2 ^ 64) : bytesNat (putint i) = i := by
  rw [putint_eq_natBytes hi hlt, bytesNat_natBytes]

/-- `putint` writes between one and eight bytes, and the number of bytes locates its
argument between two powers of 256. -/
theorem putint_length_spec (i : ℕ) :
    (1 ≤ (putint i).length ∧ (putint i).length ≤ 8) ∧
      ((putint i).length = 1 ∨ 2 ^ (8 * ((putint i).length - 1)) ≤ i) ∧
      ((putint i).length = 8 ∨ i < 2 ^ (8 * (putint i).length)) := by
  simp only [putint, Nat.shiftLeft_eq, one_mul]
  split_ifs <;> refine ⟨⟨by simp, by simp⟩, ?_, ?_⟩ <;>
    first
      | exact Or.inl rfl
      | (refine Or.inr ?_; simp only [List.length_cons, List.length_nil]; omega)

/-- `putint` writes at least as many bytes for a larger number. -/
theorem putint_length_mono {j : ℕ} (hij : i ≤ j) : (putint i).length ≤ (putint j).length := by
  obtain ⟨_, hi, _⟩ := putint_length_spec i
  obtain ⟨_, _, hj⟩ := putint_length_spec j
  by_contra hlt
  have hpow : 2 ^ (8 * (putint j).length) ≤ 2 ^ (8 * ((putint i).length - 1)) :=
    Nat.pow_le_pow_right (by decide) (by omega)
  omega

/-- `intsize` is the length of what `putint` writes. -/
theorem intsize_eq_length (i : ℕ) : intsize i = (putint i).length := by
  have hzero (k : ℕ) : i >>> k = 0 ↔ i < 1 <<< k := by
    rw [Nat.shiftRight_eq_div_pow, Nat.one_shiftLeft, Nat.div_eq_zero_iff_lt (by positivity)]
  simp only [intsize, intsizeLoop, ← Nat.shiftRight_add, hzero, putint, Nat.reduceAdd]
  split_ifs <;> rfl

/-- `headsize` is the length of the header that `puthead` writes. -/
theorem headsize_eq_length (size : ℕ) (small large : UInt8) :
    headsize size = (puthead small large size).length := by
  unfold headsize puthead
  split
  · rfl
  · rw [intsize_eq_length, List.length_cons, Nat.add_comm]

end Hashgrid.Rlp
