import Hashgrid.Rlp.SliceLoop

/-!
# What the end of a list says about typed decoding

A typed decoder reports `EOL` only if the first operation on the stream does, so the stream
stands where it was. The loops over elements and fields turn the `EOL` of an entry into
another error.
-/

namespace Hashgrid.Rlp

open Hashgrid.Bytes

variable {s s' : Stream} {inp : List UInt8} {st : List ListPos} {α : Type} {s₁ : Stream} {t : Ty}

theorem wrapStreamError_eol {x v : α} {e : Err}
    (h : (x, some (wrapStreamError e t), s₁) = (v, some .eol, s')) : e = .eol ∧ s₁ = s' := by
  simpa using (Prod.mk.inj h).2

/-- Wrapping an error, if there is one, makes no `EOL`. -/
theorem wrapped_eol {x v : α} {err : Option Err}
    (h : (x, err.map (wrapStreamError · t), s₁) = (v, some .eol, s')) :
    err = some .eol ∧ s₁ = s' := by
  simp only [Prod.mk.injEq, Option.map_eq_some_iff, wrapStreamError_eq_eol] at h
  obtain ⟨-, ⟨e, rfl, rfl⟩, hs⟩ := h
  exact ⟨rfl, hs⟩

/-- Byte arrays report `EOL` only without having read anything. -/
theorem decodeByteArray_eol_ok {n : ℕ} {v : FixedBytes n} (h : Ready s inp st)
    (hok : decodeByteArray n s = (v, some .eol, s')) : Ready s' inp st := by
  unfold decodeByteArray at hok
  split at hok
  · next hkind =>
    cases hok
    exact kindOf_eol_ok h hkind
  · split_ifs at hok <;> cases hok
  · next size s₁ hkind =>
    split_ifs at hok
    · cases hok
    · cases hok
    · split at hok
      · next hread =>
        cases hok
        exact absurd (by rw [hread]) (plain_ne_eol (plain_readFull s₁ n))
      · split_ifs at hok <;> cases hok
  · cases hok

/-- Big integers report `EOL` only without having read anything. -/
theorem decodeBigInt_eol_ok {v : Option ℤ} (h : Ready s inp st)
    (hok : decodeBigInt s = (v, some .eol, s')) : Ready s' inp st := by
  unfold decodeBigInt at hok
  split at hok
  · next e s₁ hbytes =>
    obtain ⟨rfl, rfl⟩ := wrapStreamError_eol hok
    exact bytes_eol_ok h hbytes
  · split_ifs at hok <;> cases hok

/-- The element loop of an array does not report `EOL`. -/
theorem decodeArrayElems_ne_eol (dec : Stream → α × Option Err × Stream) (zero : α) (n i : ℕ)
    (s : Stream) : (decodeArrayElems dec zero n i s).2.2.1 ≠ some .eol := by
  induction n generalizing i s with
  | zero => exact fun h => nomatch h
  | succ n ih =>
    rw [decodeArrayElems]
    split
    · exact fun h => nomatch h
    · next hne _ =>
      intro heol
      exact hne (addErrorContext_eq_eol.mp (Option.some.inj heol))
    · exact ih _ _

/-- The field loop does not report `EOL`. -/
theorem decodeFields_ne_eol : ∀ (fs : Fields) (t : Ty) (s : Stream),
    (decodeFields fs t s).2.1 ≠ some .eol
  | .nil, _, _ => fun h => nomatch h
  | .cons _ _ rest, t, s => by
    rw [decodeFields]
    split
    · exact fun h => nomatch h
    · next hne _ =>
      intro heol
      exact hne (addErrorContext_eq_eol.mp (Option.some.inj heol))
    · exact decodeFields_ne_eol rest t _

/-- A typed decoder reports `EOL` only without having read anything. -/
theorem decode_eol_ok : ∀ (t : Ty) {v : t.Val}, Ready s inp st →
    decode t s = (v, some .eol, s') → Ready s' inp st
  | .uint bits, v, h, hok => by
    simp only [decode] at hok
    split at hok
    · next e s₁ huint =>
      obtain ⟨rfl, rfl⟩ := wrapStreamError_eol hok
      exact uint_eol_ok h huint
    · cases hok
  | .bool, v, h, hok => by
    simp only [decode] at hok
    obtain ⟨herr, rfl⟩ := wrapped_eol hok
    unfold Stream.bool at herr ⊢
    split at herr
    · next huint =>
      cases herr
      exact uint_eol_ok h huint
    · cases herr
    · cases herr
    · cases herr
  | .string, v, h, hok => by
    simp only [decode] at hok
    obtain ⟨herr, rfl⟩ := wrapped_eol hok
    exact bytes_eol_ok h (show s.bytes = (s.bytes.1, some .eol, s.bytes.2.2) by rw [← herr])
  | .bytes, v, h, hok => by
    simp only [decode] at hok
    obtain ⟨herr, rfl⟩ := wrapped_eol hok
    exact bytes_eol_ok h (show s.bytes = (s.bytes.1, some .eol, s.bytes.2.2) by rw [← herr])
  | .byteArray n, v, h, hok => decodeByteArray_eol_ok h hok
  | .bigInt, v, h, hok => decodeBigInt_eol_ok h hok
  | .bigIntNoPtr, v, h, hok => by
    simp only [decode] at hok
    obtain ⟨-, hok⟩ := Prod.mk.inj hok
    exact decodeBigInt_eol_ok h (show decodeBigInt s = ((decodeBigInt s).1, some .eol, s') by
      rw [← hok])
  | .slice elem, v, h, hok => decodeListSlice_eol_ok h hok
  | .array n elem, v, h, hok => by
    simp only [decode, decodeListArray] at hok
    split at hok
    · next e s₁ hlist =>
      obtain ⟨rfl, rfl⟩ := wrapStreamError_eol hok
      exact list_eol_ok h hlist
    · next s₁ hlist =>
      split at hok
      · next hloop =>
        cases hok
        exact absurd (by rw [hloop]) (decodeArrayElems_ne_eol (decode elem) elem.zero n 0 s₁)
      · cases hok
      · next s₂ hloop => exact absurd (wrapped_eol hok).1 (plain_ne_eol (plain_listEnd s₂))
  | .struct fields, v, h, hok => by
    simp only [decode] at hok
    split at hok
    · next e s₁ hlist =>
      obtain ⟨rfl, rfl⟩ := wrapStreamError_eol hok
      exact list_eol_ok h hlist
    · next s₁ hlist =>
      split at hok
      · next hloop =>
        cases hok
        exact absurd (by rw [hloop]) (decodeFields_ne_eol fields (.struct fields) s₁)
      · next s₂ hloop => exact absurd (wrapped_eol hok).1 (plain_ne_eol (plain_listEnd s₂))
  | .ptr elem, v, h, hok => by
    simp only [decode] at hok
    split at hok
    · next hx =>
      cases hok
      exact decode_eol_ok elem h hx
    · cases hok

end Hashgrid.Rlp
