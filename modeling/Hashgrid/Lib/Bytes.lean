import Mathlib.Data.Nat.Digits.Lemmas
import Mathlib.Tactic.Ring

/-!
# Fixed-length byte strings and big-endian numbers

A byte array of a fixed length is a list that carries its length, so a value of
the wrong length cannot be built. Natural numbers are written in base 256 with
the most significant byte first and no leading zero; Mathlib's `Nat.digits`
supplies the digits in the opposite order.
-/

namespace Hashgrid.Bytes

/-- An array of `n` bytes. -/
structure FixedBytes (n : ℕ) where
  /-- The bytes in index order. -/
  bytes : List UInt8
  /-- The array has exactly `n` entries. -/
  length_eq : bytes.length = n
  deriving DecidableEq

namespace FixedBytes

variable {n : ℕ}

theorem ext_bytes {a b : FixedBytes n} (h : a.bytes = b.bytes) : a = b := by
  cases a
  cases b
  simpa using h

/-- The array with every entry zero. -/
def zero (n : ℕ) : FixedBytes n := ⟨List.replicate n 0, List.length_replicate⟩

/-- The `n` low-order bytes of a number, most significant first. -/
def ofNat (n k : ℕ) : FixedBytes n :=
  ⟨(List.range n).reverse.map fun i => UInt8.ofNat (k >>> (8 * i)), by simp⟩

/-- Byte-wise lexicographic comparison, with results `1`, `-1` and `0`. -/
def compareList : List UInt8 → List UInt8 → ℤ
  | a :: as, b :: bs => if a ≠ b then (if a > b then 1 else -1) else compareList as bs
  | _, _ => 0

/-- Byte-wise comparison of two arrays of one length. -/
def compare (a b : FixedBytes n) : ℤ := compareList a.bytes b.bytes

/-- Comparison of equally long lists reports zero exactly on equal lists. -/
theorem compareList_eq_zero {as bs : List UInt8} (h : as.length = bs.length) :
    compareList as bs = 0 ↔ as = bs := by
  induction as generalizing bs with
  | nil =>
    have hb : bs = [] := List.length_eq_zero_iff.mp h.symm
    simp [compareList, hb]
  | cons a as ih =>
    cases bs with
    | nil => simp at h
    | cons b bs =>
      have hlen : as.length = bs.length := by simpa using h
      by_cases hab : a = b
      · simp [compareList, hab, ih hlen]
      · have hne : (if a > b then (1 : ℤ) else -1) ≠ 0 := by split <;> decide
        simp only [compareList, ne_eq, hab, not_false_eq_true, if_true, hne, List.cons.injEq,
          false_and]

@[simp] theorem compare_eq_zero {a b : FixedBytes n} : a.compare b = 0 ↔ a = b := by
  rw [compare, compareList_eq_zero (a.length_eq.trans b.length_eq.symm)]
  exact ⟨ext_bytes, fun h => h ▸ rfl⟩

end FixedBytes

/-- The bytes in a slice, whose length is a signed 64-bit number. -/
def SliceBytes : Type := {b : List UInt8 // b.length < 2 ^ 63}

/-- The number that a byte string denotes, most significant byte first. -/
def bytesNat (b : List UInt8) : ℕ := Nat.ofDigits 256 (b.reverse.map UInt8.toNat)

/-- The bytes of a number, most significant first and without leading zeros. -/
def natBytes (n : ℕ) : List UInt8 := ((Nat.digits 256 n).map UInt8.ofNat).reverse

/-- Digits in base 256 survive the passage through bytes. -/
theorem map_toNat_ofNat_digits (n : ℕ) :
    ((Nat.digits 256 n).map UInt8.ofNat).map UInt8.toNat = Nat.digits 256 n := by
  rw [List.map_map]
  conv_rhs => rw [← List.map_id (Nat.digits 256 n)]
  apply List.map_congr_left
  intro d hd
  have hlt : d < 256 := Nat.digits_lt_base (by decide) hd
  simp [Function.comp, Nat.mod_eq_of_lt hlt]

@[simp] theorem bytesNat_natBytes (n : ℕ) : bytesNat (natBytes n) = n := by
  rw [bytesNat, natBytes, List.reverse_reverse, map_toNat_ofNat_digits, Nat.ofDigits_digits]

theorem natBytes_injective : Function.Injective natBytes := by
  intro m n h
  rw [← bytesNat_natBytes m, h, bytesNat_natBytes]

@[simp] theorem natBytes_zero : natBytes 0 = [] := by simp [natBytes]

/-- The leading byte of a number is never zero. -/
theorem natBytes_head?_ne_zero (n : ℕ) : (natBytes n).head? ≠ some 0 := by
  by_cases hn : n = 0
  · simp [hn]
  · have hne : Nat.digits 256 n ≠ [] := Nat.digits_ne_nil_iff_ne_zero.mpr hn
    have hlast := Nat.getLast_digit_ne_zero 256 hn
    have hlt : (Nat.digits 256 n).getLast hne < 256 :=
      Nat.digits_lt_base (by decide) (List.getLast_mem hne)
    rw [natBytes, List.head?_reverse, List.getLast?_map, List.getLast?_eq_some_getLast hne]
    simp only [Option.map_some, ne_eq, Option.some.injEq]
    intro hzero
    apply hlast
    have h := congrArg UInt8.toNat hzero
    simpa [Nat.mod_eq_of_lt hlt] using h

theorem digit_lt (b : List UInt8) : ∀ d ∈ b.map UInt8.toNat, d < 256 := by
  intro d hd
  obtain ⟨x, -, rfl⟩ := List.mem_map.mp hd
  exact x.toNat_lt

theorem bytesNat_lt (b : List UInt8) : bytesNat b < 256 ^ b.length := by
  have hlt := Nat.ofDigits_lt_base_pow_length (by decide : 1 < 256) (digit_lt b.reverse)
  rwa [List.length_map, List.length_reverse] at hlt

variable {b : List UInt8}

/-- The bytes of the number that a byte string without a leading zero denotes are that byte
string. -/
theorem natBytes_bytesNat (hb : b.head? ≠ some 0) : natBytes (bytesNat b) = b := by
  have hlast : ∀ h : b.reverse.map UInt8.toNat ≠ [],
      (b.reverse.map UInt8.toNat).getLast h ≠ 0 := by
    intro h hzero
    have hsome : (b.reverse.map UInt8.toNat).getLast? = some 0 := by
      rw [List.getLast?_eq_some_getLast h, hzero]
    rw [List.getLast?_map, List.getLast?_reverse, Option.map_eq_some_iff] at hsome
    obtain ⟨x, hx, hx0⟩ := hsome
    have hzero : x = 0 := UInt8.toNat_inj.mp hx0
    exact hb (hzero ▸ hx)
  rw [natBytes, bytesNat, Nat.digits_ofDigits 256 (by decide) _ (digit_lt _) hlast,
    List.map_map]
  have hid : UInt8.ofNat ∘ UInt8.toNat = id := funext fun x => UInt8.ofNat_toNat
  rw [hid, List.map_id, List.reverse_reverse]

/-- The leading byte of a byte string counts for the power of 256 of the number of bytes after
it. -/
theorem bytesNat_cons (x : UInt8) (b : List UInt8) :
    bytesNat (x :: b) = x.toNat * 256 ^ b.length + bytesNat b := by
  rw [bytesNat, List.reverse_cons, List.map_append, Nat.ofDigits_append, List.length_map,
    List.length_reverse, List.map_singleton, Nat.ofDigits_singleton, bytesNat, Nat.add_comm,
    Nat.mul_comm]

/-- Two byte strings in sequence: the first counts for the power of 256 of the length of the
second. -/
theorem bytesNat_append (a b : List UInt8) :
    bytesNat (a ++ b) = bytesNat a * 256 ^ b.length + bytesNat b := by
  induction a with
  | nil =>
    have hnil : bytesNat [] = 0 := rfl
    rw [List.nil_append, hnil, Nat.zero_mul, Nat.zero_add]
  | cons x a ih =>
    rw [List.cons_append, bytesNat_cons, bytesNat_cons, ih, List.length_append, pow_add]
    ring

/-- A byte string denotes zero just when all its bytes are zero. -/
theorem bytesNat_eq_zero_iff : bytesNat b = 0 ↔ ∀ x ∈ b, x = 0 := by
  induction b with
  | nil => exact iff_of_true rfl fun x hx => nomatch hx
  | cons x b ih =>
    have hx : x.toNat = 0 ↔ x = 0 := UInt8.toNat_inj (b := 0)
    rw [bytesNat_cons, Nat.add_eq_zero_iff, Nat.mul_eq_zero, ih, List.forall_mem_cons, ← hx]
    simp

/-- The last bytes of a byte string denote its remainder. -/
theorem bytesNat_mod (b : List UInt8) (n : ℕ) :
    bytesNat b % 256 ^ n = bytesNat (b.drop (b.length - n)) := by
  by_cases hn : n ≤ b.length
  · have hlen : (b.drop (b.length - n)).length = n := by
      rw [List.length_drop]
      omega
    have hlt := bytesNat_lt (b.drop (b.length - n))
    rw [hlen] at hlt
    conv_lhs => rw [← List.take_append_drop (b.length - n) b, bytesNat_append, hlen]
    rw [Nat.mul_add_mod', Nat.mod_eq_of_lt hlt]
  · have hlt : bytesNat b < 256 ^ n :=
      (bytesNat_lt b).trans_le (Nat.pow_le_pow_right (by decide) (by omega))
    rw [Nat.mod_eq_of_lt hlt, Nat.sub_eq_zero_of_le (by omega), List.drop_zero]

/-- Byte strings of one length that denote the same number are equal. -/
theorem eq_of_bytesNat_eq {a : List UInt8} (hlen : a.length = b.length)
    (h : bytesNat a = bytesNat b) : a = b := by
  have hdigits := Nat.ofDigits_inj_of_len_eq (by decide : 1 < 256)
    (by simpa using hlen : (a.reverse.map UInt8.toNat).length = (b.reverse.map UInt8.toNat).length)
    (digit_lt a.reverse) (digit_lt b.reverse) h
  have hreverse := List.map_injective_iff.mpr (fun x y => UInt8.toNat_inj.mp) hdigits
  exact List.reverse_injective hreverse

end Hashgrid.Bytes
