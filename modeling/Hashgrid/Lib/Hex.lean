import Mathlib.Data.List.Basic

/-!
# Hexadecimal text

A text is a byte string. Every byte is written as two digits, with lower-case letters, and
digits are read in both cases. Reading gives back what was written, and writing what was read
gives the text back up to the case of its letters.
-/

namespace Hashgrid.Hex

/-- The digit for a half byte. -/
def digit (x : UInt8) : UInt8 := if x < 10 then '0'.toUInt8 + x else 'a'.toUInt8 + (x - 10)

/-- The two digits of every byte. -/
def encodeToString : List UInt8 → List UInt8
  | [] => []
  | x :: b => digit (x >>> 4) :: digit (x &&& 0x0F) :: encodeToString b

/-- The half byte that a digit stands for. -/
def fromHexChar (c : UInt8) : Option UInt8 :=
  if '0'.toUInt8 ≤ c ∧ c ≤ '9'.toUInt8 then some (c - '0'.toUInt8)
  else if 'a'.toUInt8 ≤ c ∧ c ≤ 'f'.toUInt8 then some (c - 'a'.toUInt8 + 10)
  else if 'A'.toUInt8 ≤ c ∧ c ≤ 'F'.toUInt8 then some (c - 'A'.toUInt8 + 10)
  else none

/-- Why a text cannot be read. -/
inductive DecodeErr
  /-- A byte that is no digit. -/
  | invalidByte (c : UInt8)
  /-- A single digit at the end. -/
  | length
  deriving DecidableEq

/-- The bytes up to the first error, and the error. -/
def decodeString : List UInt8 → List UInt8 × Option DecodeErr
  | [] => ([], none)
  | [c] => ([], some (if (fromHexChar c).isNone then .invalidByte c else .length))
  | a :: b :: s =>
    match fromHexChar a, fromHexChar b with
    | none, _ => ([], some (.invalidByte a))
    | some _, none => ([], some (.invalidByte b))
    | some x, some y => ((x <<< 4 ||| y) :: (decodeString s).1, (decodeString s).2)

/-- A letter in lower case. -/
def lower (c : UInt8) : UInt8 :=
  if 'A'.toUInt8 ≤ c ∧ c ≤ 'Z'.toUInt8 then c + 32 else c

theorem forall_byte {P : UInt8 → Prop} (h : ∀ n < 256, P (UInt8.ofNat n)) (x : UInt8) : P x := by
  have hx := h x.toNat x.toNat_lt
  rwa [UInt8.ofNat_toNat] at hx

theorem fromHexChar_digit : ∀ x : UInt8, x < 16 → fromHexChar (digit x) = some x :=
  forall_byte (by decide +kernel)

/-- The half byte of a digit is written as the digit in lower case. -/
theorem digit_fromHexChar :
    ∀ c x : UInt8, fromHexChar c = some x → x < 16 ∧ digit x = lower c := by
  have hall : ∀ c : UInt8, ∀ x ∈ fromHexChar c, x < 16 ∧ digit x = lower c :=
    forall_byte (by decide +kernel)
  exact fun c x hx => hall c x hx

theorem fromHexChar_lower : ∀ c : UInt8, fromHexChar (lower c) = fromHexChar c :=
  forall_byte (by decide +kernel)

theorem halves :
    ∀ x : UInt8, x >>> 4 < 16 ∧ x &&& 0x0F < 16 ∧ (x >>> 4) <<< 4 ||| (x &&& 0x0F) = x :=
  forall_byte (by decide +kernel)

/-- Two halves make a byte. -/
theorem halves_of_digits : ∀ x y : UInt8, x < 16 → y < 16 →
    (x <<< 4 ||| y) >>> 4 = x ∧ (x <<< 4 ||| y) &&& 0x0F = y := by
  have hall : ∀ m < 16, ∀ n < 16, (UInt8.ofNat m <<< 4 ||| UInt8.ofNat n) >>> 4 = UInt8.ofNat m ∧
      (UInt8.ofNat m <<< 4 ||| UInt8.ofNat n) &&& 0x0F = UInt8.ofNat n := by decide +kernel
  intro x y hx hy
  have hxy := hall x.toNat (UInt8.lt_iff_toNat_lt.mp hx) y.toNat (UInt8.lt_iff_toNat_lt.mp hy)
  rwa [UInt8.ofNat_toNat, UInt8.ofNat_toNat] at hxy

/-- Two digits are written for every byte. -/
@[simp] theorem length_encodeToString (b : List UInt8) :
    (encodeToString b).length = 2 * b.length := by
  induction b with
  | nil => rfl
  | cons x b ih =>
    rw [encodeToString, List.length_cons, List.length_cons, ih, List.length_cons]
    omega

variable {b s : List UInt8}

/-- All that is written are digits of half bytes. -/
theorem exists_digit_of_mem {c : UInt8} (hc : c ∈ encodeToString b) :
    ∃ x : UInt8, x < 16 ∧ c = digit x := by
  induction b with
  | nil => cases hc
  | cons x b ih =>
    obtain ⟨hhigh, hlow, -⟩ := halves x
    rcases List.mem_cons.mp hc with rfl | hc
    · exact ⟨_, hhigh, rfl⟩
    · rcases List.mem_cons.mp hc with rfl | hc
      · exact ⟨_, hlow, rfl⟩
      · exact ih hc

/-- What was written is read, in whatever case its letters are. -/
theorem decodeString_of_lower (h : s.map lower = encodeToString b) :
    decodeString s = (b, none) := by
  induction b generalizing s with
  | nil =>
    rw [List.map_eq_nil_iff.mp h]
    rfl
  | cons x b ih =>
    obtain ⟨hhigh, hlow, hbyte⟩ := halves x
    obtain ⟨c, s, rfl, hc, h⟩ := List.map_eq_cons_iff.mp h
    obtain ⟨d, s, rfl, hd, h⟩ := List.map_eq_cons_iff.mp h
    have hc' : fromHexChar c = some (x >>> 4) := by
      rw [← fromHexChar_lower, hc, fromHexChar_digit _ hhigh]
    have hd' : fromHexChar d = some (x &&& 0x0F) := by
      rw [← fromHexChar_lower, hd, fromHexChar_digit _ hlow]
    simp only [decodeString, hc', hd', ih h, hbyte]

/-- A text of digits for `n` bytes is read without an error, and what was read is written as the
text in lower case. -/
theorem exists_decodeString {n : ℕ} (hlen : s.length = 2 * n)
    (hs : ∀ c ∈ s, (fromHexChar c).isSome) :
    ∃ b, decodeString s = (b, none) ∧ b.length = n ∧ encodeToString b = s.map lower := by
  induction n generalizing s with
  | zero =>
    rw [List.length_eq_zero_iff.mp hlen]
    exact ⟨[], rfl, rfl, rfl⟩
  | succ n ih =>
    match s, hlen with
    | c :: d :: s, hlen =>
      obtain ⟨x, hx⟩ := Option.isSome_iff_exists.mp (hs c (by simp))
      obtain ⟨y, hy⟩ := Option.isSome_iff_exists.mp (hs d (by simp))
      obtain ⟨b, hb, hblen, henc⟩ := ih (s := s) (by simp at hlen; omega)
        fun c hc => hs c (by simp [hc])
      obtain ⟨hx16, hdx⟩ := digit_fromHexChar c x hx
      obtain ⟨hy16, hdy⟩ := digit_fromHexChar d y hy
      obtain ⟨hhigh, hlow⟩ := halves_of_digits x y hx16 hy16
      refine ⟨(x <<< 4 ||| y) :: b, ?_, by rw [List.length_cons, hblen], ?_⟩
      · simp only [decodeString, hx, hy, hb]
      · rw [encodeToString, hhigh, hlow, hdx, hdy, henc]
        rfl

end Hashgrid.Hex
