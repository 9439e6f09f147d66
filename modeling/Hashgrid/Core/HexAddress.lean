import Hashgrid.Core.SetBytes
import Hashgrid.Lib.Hex

/-!
# Addresses as text

`Hex`, `IsHexAddress` and `HexToAddress` of `core/types.go`, with the functions of
`core/common/bytes.go` that they call. A Go string is a byte string. `Hex` chooses the case of
letters by the bits of a digest; reading ignores the case, so the digest does not matter.
-/

namespace Hashgrid.Core

open Hashgrid.Bytes Hashgrid.Hex

/-- `HasHexPrefix`. -/
def hasHexPrefix : List UInt8 → Bool
  | a :: b :: _ => a = '0'.toUInt8 ∧ (b = 'x'.toUInt8 ∨ b = 'X'.toUInt8)
  | _ => false

/-- `isHexCharacter`. -/
def isHexCharacter (c : UInt8) : Bool :=
  ('0'.toUInt8 ≤ c ∧ c ≤ '9'.toUInt8) ∨ ('a'.toUInt8 ≤ c ∧ c ≤ 'f'.toUInt8) ∨
    ('A'.toUInt8 ≤ c ∧ c ≤ 'F'.toUInt8)

/-- `IsHex`. -/
def isHex (str : List UInt8) : Bool :=
  if str.length % 2 ≠ 0 then false else str.all isHexCharacter

/-- `Hex2Bytes`, which drops the error. -/
def hex2Bytes (str : List UInt8) : List UInt8 := (decodeString str).1

/-- `FromHex`. -/
def fromHex (s : List UInt8) : List UInt8 :=
  let s :=
    if s.length > 1 then
      if s.take 2 = ['0'.toUInt8, 'x'.toUInt8] ∨ s.take 2 = ['0'.toUInt8, 'X'.toUInt8] then
        s.drop 2
      else s
    else s
  hex2Bytes (if s.length % 2 = 1 then '0'.toUInt8 :: s else s)

/-- `HexToAddress`. -/
def hexToAddress (s : List UInt8) : Address := bytesToAddress (fromHex s)

/-- A text without the prefix `0x` or `0X`. -/
def bareHex (s : List UInt8) : List UInt8 := if hasHexPrefix s then s.drop 2 else s

/-- `IsHexAddress`. -/
def isHexAddress (s : List UInt8) : Bool :=
  decide ((bareHex s).length = 2 * 20) && isHex (bareHex s)

/-- One turn of the loop in `Hex`: a letter is written in upper case when the half byte of the
digest at its place is above 7. The digest has a byte for every two characters. -/
def checksumChar (hash : Hash) (i : ℕ) (c : UInt8) : UInt8 :=
  let hashByte := hash.bytes.getD (i / 2) 0
  let hashByte := if i % 2 = 0 then hashByte >>> 4 else hashByte &&& 0xF
  if c > '9'.toUInt8 ∧ hashByte > 7 then c - 32 else c

/-- `Hex` of `Address`. -/
def Address.hex (keccak : List UInt8 → Hash) (a : Address) : List UInt8 :=
  let unchecksummed := encodeToString a.bytes
  let hash := keccak unchecksummed
  ['0'.toUInt8, 'x'.toUInt8] ++ unchecksummed.mapIdx (checksumChar hash)

/-- Two texts are equal up to the case of letters and up to the prefix. -/
def SameHex (s t : List UInt8) : Prop := (bareHex s).map lower = (bareHex t).map lower

instance (s t : List UInt8) : Decidable (SameHex s t) := inferInstanceAs (Decidable (_ = _))

theorem isHexCharacter_eq : ∀ c : UInt8, isHexCharacter c = (fromHexChar c).isSome :=
  forall_byte (by decide +kernel)

/-- `IsHex` accepts texts of digits of even length. -/
theorem isHex_iff {str : List UInt8} :
    isHex str = true ↔ str.length % 2 = 0 ∧ ∀ c ∈ str, (fromHexChar c).isSome := by
  unfold isHex
  split_ifs with hodd
  · exact iff_of_false (by decide) fun h => hodd h.1
  · simp only [List.all_eq_true, isHexCharacter_eq]
    exact ⟨fun h => ⟨of_not_not hodd, h⟩, fun h => h.2⟩

variable (keccak : List UInt8 → Hash) {s : List UInt8}

theorem isHexAddress_iff : isHexAddress s = true ↔
    (bareHex s).length = 2 * 20 ∧ ∀ c ∈ bareHex s, (fromHexChar c).isSome := by
  rw [isHexAddress, Bool.and_eq_true, decide_eq_true_eq, isHex_iff]
  refine and_congr_right fun hlen => and_iff_right ?_
  rw [hlen]

/-- `FromHex` drops the same prefix as `IsHexAddress`. -/
theorem fromHex_eq (s : List UInt8) : fromHex s =
    hex2Bytes (if (bareHex s).length % 2 = 1 then '0'.toUInt8 :: bareHex s else bareHex s) := by
  have hbare : (if s.length > 1 then
      if s.take 2 = ['0'.toUInt8, 'x'.toUInt8] ∨ s.take 2 = ['0'.toUInt8, 'X'.toUInt8] then
        s.drop 2
      else s
    else s) = bareHex s := by
    match s with
    | [] => rfl
    | [_] => rfl
    | a :: b :: s => simp [bareHex, hasHexPrefix, ← and_or_left]
  simp only [fromHex, hbare]

/-- `HexToAddress` reads a text of 40 digits without an error, and what it has read is written as
the text in lower case. -/
theorem hexToAddress_of_isHexAddress (h : isHexAddress s = true) :
    decodeString (bareHex s) = ((hexToAddress s).bytes, none) ∧
      encodeToString (hexToAddress s).bytes = (bareHex s).map lower := by
  obtain ⟨hlen, hdigits⟩ := isHexAddress_iff.mp h
  obtain ⟨b, hb, hblen, henc⟩ := exists_decodeString hlen hdigits
  have hfrom : fromHex s = b := by
    rw [fromHex_eq, hlen, if_neg (by decide), hex2Bytes, hb]
  have hbytes : (hexToAddress s).bytes = b := by
    have hset := bytes_setBytes (FixedBytes.zero 20) b
    rw [hblen, Nat.sub_self, List.take_zero, List.nil_append, List.drop_zero] at hset
    rw [hexToAddress, hfrom]
    exact hset
  rw [hbytes]
  exact ⟨hb, henc⟩

/-- A turn of the loop changes only the case of a digit. -/
theorem lower_checksumChar {b : List UInt8} {c : UInt8} (hc : c ∈ encodeToString b) (hash : Hash)
    (i : ℕ) : lower (checksumChar hash i c) = c := by
  have hcase : ∀ x : UInt8, x < 16 → lower (digit x) = digit x ∧
      ('9'.toUInt8 < digit x → lower (digit x - 32) = digit x) := forall_byte (by decide +kernel)
  obtain ⟨x, hx, rfl⟩ := exists_digit_of_mem hc
  obtain ⟨hsame, hupper⟩ := hcase x hx
  unfold checksumChar
  dsimp only
  generalize (if i % 2 = 0 then hash.bytes.getD (i / 2) 0 >>> 4
    else hash.bytes.getD (i / 2) 0 &&& 0xF) = hashByte
  split_ifs with hletter
  · exact hupper hletter.1
  · exact hsame

/-- Behind its prefix, `Hex` writes the digits of the address in some case. -/
theorem map_lower_hex (a : Address) :
    (bareHex (a.hex keccak)).map lower = encodeToString a.bytes := by
  have hbare : bareHex (a.hex keccak) =
      (encodeToString a.bytes).mapIdx (checksumChar (keccak (encodeToString a.bytes))) := rfl
  rw [hbare]
  refine List.ext_getElem (by simp) fun i hi hi' => ?_
  rw [List.getElem_map, List.getElem_mapIdx]
  exact lower_checksumChar (List.getElem_mem hi') _ i

/-- `IsHexAddress` accepts what `Hex` writes. -/
theorem isHexAddress_hex (a : Address) : isHexAddress (a.hex keccak) = true := by
  have hlower := map_lower_hex keccak a
  refine isHexAddress_iff.mpr ⟨?_, fun c hc => ?_⟩
  · have hlen := congrArg List.length hlower
    rwa [List.length_map, length_encodeToString, a.length_eq] at hlen
  · have hmem : lower c ∈ encodeToString a.bytes := hlower ▸ List.mem_map_of_mem hc
    obtain ⟨x, hx, hdigit⟩ := exists_digit_of_mem hmem
    rw [← fromHexChar_lower, hdigit, fromHexChar_digit x hx]
    rfl

theorem hexToAddress_hex (a : Address) : hexToAddress (a.hex keccak) = a := by
  obtain ⟨hread, -⟩ := hexToAddress_of_isHexAddress (isHexAddress_hex keccak a)
  rw [decodeString_of_lower (map_lower_hex keccak a)] at hread
  exact FixedBytes.ext_bytes (congrArg Prod.fst hread).symm

/-- Addresses and their texts: what `Hex` writes is accepted and read as the address, whatever the
digest is, and a text that is accepted is written again up to the case of letters and up to the
prefix. -/
theorem hexAddress_roundTrip (keccak : List UInt8 → Hash) :
    (∀ a : Address, isHexAddress (a.hex keccak) = true ∧ hexToAddress (a.hex keccak) = a) ∧
      ∀ s : List UInt8, isHexAddress s = true → SameHex ((hexToAddress s).hex keccak) s := by
  refine ⟨fun a => ⟨isHexAddress_hex keccak a, hexToAddress_hex keccak a⟩, fun s hs => ?_⟩
  obtain ⟨-, henc⟩ := hexToAddress_of_isHexAddress hs
  rw [SameHex, map_lower_hex, henc]

/-- A text with a letter in upper case and without a prefix. -/
theorem hexAddress_roundTrip_upper :
    isHexAddress (List.replicate 39 '0'.toUInt8 ++ ['A'.toUInt8]) = true ∧
      SameHex ((hexToAddress (List.replicate 39 '0'.toUInt8 ++ ['A'.toUInt8])).hex
        fun _ => FixedBytes.zero 32) (List.replicate 39 '0'.toUInt8 ++ ['A'.toUInt8]) := by
  have haccepted : isHexAddress (List.replicate 39 '0'.toUInt8 ++ ['A'.toUInt8]) = true := by
    decide +kernel
  exact ⟨haccepted, (hexAddress_roundTrip _).2 _ haccepted⟩

end Hashgrid.Core
