import Hashgrid.Core.Types

/-!
# Byte arrays and numbers

`SetBytes`, `Big` and the constructors of `Hash` and `Address` in `core/types.go`. `SetBytes`
copies a slice to the end of an array and leaves the bytes in front of it alone, so its result
depends on what the array held before.
-/

namespace Hashgrid.Core

open Hashgrid.Bytes

variable {α : Type}

@[simp] theorem length_copySlice (dst src : List α) : (copySlice dst src).length = dst.length := by
  simp [copySlice]
  omega

theorem copySlice_eq {dst src : List α} (h : src.length = dst.length) :
    copySlice dst src = src := by
  rw [copySlice, ← h, List.take_length, h, List.drop_length, List.append_nil]

/-- `SetBytes` of an array: a slice that is too long is cropped from the left, and the rest is
copied to the end of the array. -/
def setBytes {n : ℕ} (h : FixedBytes n) (b : List UInt8) : FixedBytes n :=
  let b := if b.length > n then b.drop (b.length - n) else b
  ⟨h.bytes.take (n - b.length) ++ copySlice (h.bytes.drop (n - b.length)) b, by
    rw [List.length_append, length_copySlice, ← List.length_append, List.take_append_drop,
      h.length_eq]⟩

/-- `Big` of an array. -/
def big {n : ℕ} (h : FixedBytes n) : ℤ := bytesNat h.bytes

/-- `SetBytes` of `Hash`. -/
def Hash.setBytes (h : Hash) (b : List UInt8) : Hash := Core.setBytes h b

/-- `SetBytes` of `Address`. -/
def Address.setBytes (a : Address) (b : List UInt8) : Address := Core.setBytes a b

/-- `Big` of `Hash`. -/
def Hash.big (h : Hash) : ℤ := Core.big h

/-- `Big` of `Address`. -/
def Address.big (a : Address) : ℤ := Core.big a

/-- `BytesToHash`. -/
def bytesToHash (b : List UInt8) : Hash := Hash.setBytes (FixedBytes.zero 32) b

/-- `BytesToAddress`. -/
def bytesToAddress (b : List UInt8) : Address := Address.setBytes (FixedBytes.zero 20) b

/-- `BigToHash`. `Bytes` of a big integer are those of its absolute value. -/
def bigToHash (b : ℤ) : Hash := bytesToHash (natBytes b.natAbs)

/-- `BigToAddress`. -/
def bigToAddress (b : ℤ) : Address := bytesToAddress (natBytes b.natAbs)

section

variable {n : ℕ}

/-- The bytes after `SetBytes`: what the slice does not reach stays. -/
theorem bytes_setBytes (h : FixedBytes n) (b : List UInt8) :
    (setBytes h b).bytes = h.bytes.take (n - b.length) ++ b.drop (b.length - n) := by
  have hcrop : (if b.length > n then b.drop (b.length - n) else b) = b.drop (b.length - n) := by
    split_ifs with hlong
    · rfl
    · rw [Nat.sub_eq_zero_of_le (by omega), List.drop_zero]
  have hlen : n - (b.drop (b.length - n)).length = n - b.length := by
    rw [List.length_drop]
    omega
  have hfits : (b.drop (b.length - n)).length = (h.bytes.drop (n - b.length)).length := by
    rw [List.length_drop, List.length_drop, h.length_eq]
    omega
  simp only [setBytes, hcrop, hlen, copySlice_eq hfits]

/-- The number after `SetBytes`: that of the slice, and above it that of the bytes which the slice
does not reach. -/
theorem bytesNat_setBytes (h : FixedBytes n) (b : List UInt8) :
    bytesNat (setBytes h b).bytes =
      bytesNat (h.bytes.take (n - b.length)) * 256 ^ (min b.length n) + bytesNat b % 256 ^ n := by
  have hlen : (b.drop (b.length - n)).length = min b.length n := by
    rw [List.length_drop]
    omega
  rw [bytes_setBytes, bytesNat_append, bytesNat_mod, hlen]

/-- `SetBytes` sets an array to the value of the slice just when the bytes that the slice does not
reach are zero. -/
theorem big_setBytes_iff (h : FixedBytes n) (b : List UInt8) :
    big (setBytes h b) = (bytesNat b : ℤ) % 256 ^ n ↔ ∀ x ∈ h.bytes.take (n - b.length), x = 0 := by
  have hcast : (bytesNat b : ℤ) % 256 ^ n = (bytesNat b % 256 ^ n : ℕ) := by push_cast; rfl
  rw [big, hcast, Nat.cast_inj, bytesNat_setBytes, Nat.add_eq_right, Nat.mul_eq_zero,
    bytesNat_eq_zero_iff, or_iff_left (by positivity)]

theorem eq_of_big_eq {h h' : FixedBytes n} (heq : big h = big h') : h = h' :=
  FixedBytes.ext_bytes (eq_of_bytesNat_eq (h.length_eq.trans h'.length_eq.symm)
    (Nat.cast_inj.mp heq))

/-- An array is made of the bytes of its number. -/
theorem setBytes_natBytes_big (h : FixedBytes n) :
    setBytes (FixedBytes.zero n) (natBytes (big h).natAbs) = h := by
  have hzero : ∀ x ∈ (FixedBytes.zero n).bytes.take (n - (natBytes (big h).natAbs).length),
      x = 0 := fun x hx => List.eq_of_mem_replicate (List.mem_of_mem_take hx)
  have hlt := bytesNat_lt h.bytes
  rw [h.length_eq] at hlt
  have hmod : (bytesNat h.bytes : ℤ) % 256 ^ n = bytesNat h.bytes := by
    exact_mod_cast Nat.mod_eq_of_lt hlt
  have hbig := (big_setBytes_iff (FixedBytes.zero n) (natBytes (big h).natAbs)).mpr hzero
  have habs : (big h).natAbs = bytesNat h.bytes := rfl
  rw [habs, bytesNat_natBytes, hmod] at hbig
  exact eq_of_big_eq hbig

end

/-- `SetBytes` sets a hash or an address to the value of the slice just when the slice is long
enough or the bytes that it does not reach are zero before. The constructors start from zero, so
they turn the number of a hash or an address back into it. -/
theorem setBytes_value_iff (h : Hash) (a : Address) (b : List UInt8) :
    ((h.setBytes b).big = (bytesNat b : ℤ) % 2 ^ 256 ↔
        ∀ x ∈ h.bytes.take (32 - b.length), x = 0) ∧
      ((a.setBytes b).big = (bytesNat b : ℤ) % 2 ^ 160 ↔
        ∀ x ∈ a.bytes.take (20 - b.length), x = 0) ∧
      bigToHash h.big = h ∧ bigToAddress a.big = a := by
  refine ⟨?_, ?_, setBytes_natBytes_big h, setBytes_natBytes_big a⟩
  · exact big_setBytes_iff h b
  · exact big_setBytes_iff a b

/-- A hash that starts with a one keeps it when it is set to a slice of one byte. -/
theorem not_setBytes_value_leftover :
    (Hash.setBytes (FixedBytes.ofNat 32 (2 ^ 248)) [5]).big = 2 ^ 248 + 5 ∧
      (bytesNat [5] : ℤ) % 2 ^ 256 = 5 ∧
      (Hash.setBytes (FixedBytes.ofNat 32 (2 ^ 248)) [5]).big ≠ (bytesNat [5] : ℤ) % 2 ^ 256 := by
  decide +kernel

end Hashgrid.Core
