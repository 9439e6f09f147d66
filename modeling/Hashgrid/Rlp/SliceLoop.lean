import Hashgrid.Rlp.Decode
import Hashgrid.Rlp.StreamAccepts
import Hashgrid.Rlp.StreamEnds

/-!
# The element loop of a slice

`decodeListSlice` is used with the decoder of the element type and with `decodeInterface`.
What it reads, and what its success says about the input, depends on the element decoder
only through the properties that are named here.
-/

namespace Hashgrid.Rlp

variable {α : Type} {dec : Stream → α × Option Err × Stream}

/-- The decoder returns the value when it starts at the given bytes. -/
structure ReadsAs (dec : Stream → α × Option Err × Stream) (x : α) (b : List UInt8) : Prop where
  /-- There is something to read. -/
  pos : 1 ≤ b.length
  /-- The value is returned and its bytes are left behind. -/
  reads : ∀ {s : Stream} {rest : List UInt8} {st : List ListPos}, Ready s (b ++ rest) st →
    Room st b.length → ∃ s', dec s = (x, none, s') ∧ Ready s' rest (advance st b.length)

/-- At the end of a list the decoder reports `EOL` and reads nothing. -/
def StopsAtEnd (dec : Stream → α × Option Err × Stream) : Prop :=
  ∀ {s : Stream} {inp : List UInt8} {st : List ListPos} {n : ℕ},
    Ready s inp (⟨n, n⟩ :: st) → ∃ x, dec s = (x, some .eol, { s with kinderr := none })

variable {st : List ListPos} {l : List α} {bs : List (List UInt8)} {s s' : Stream}
  {inp rest : List UInt8} {P : α → List UInt8 → Prop} {t : Ty} {e : Err}

/-- The element loop over the bytes of the elements ends at `EOL` with all of them. -/
theorem decodeSliceElems_reads (hend : StopsAtEnd dec) (hl : List.Forall₂ (ReadsAs dec) l bs)
    {p n m : ℕ} (hsize : n < 2 ^ 64) (hpos : p + bs.flatten.length = n) (hfuel : l.length < m)
    (h : Ready s (bs.flatten ++ rest) (⟨p, n⟩ :: st)) (acc : List α) :
    ∃ s', decodeSliceElems dec m acc s = (acc ++ l, none, s') ∧ Ready s' rest (⟨n, n⟩ :: st) := by
  induction hl generalizing s p m acc with
  | nil =>
    obtain ⟨m, rfl⟩ : ∃ k, m = k + 1 := ⟨m - 1, by simp at hfuel; omega⟩
    obtain rfl : p = n := by simpa using hpos
    obtain ⟨x, hx⟩ := hend h
    refine ⟨{ s with kinderr := none }, ?_, ⟨h.remember .., h.kind⟩⟩
    simp [decodeSliceElems, hx]
  | @cons x b l bs hx _ ih =>
    obtain ⟨m, rfl⟩ : ∃ k, m = k + 1 := ⟨m - 1, by simp at hfuel; omega⟩
    rw [List.flatten_cons, List.length_append] at hpos
    rw [List.flatten_cons, List.append_assoc] at h
    obtain ⟨s₁, hdec, hready⟩ := hx.reads h
      (show p + b.length ≤ n ∧ n < 2 ^ 64 from ⟨by omega, hsize⟩)
    obtain ⟨s', hloop, hready'⟩ := ih (p := p + b.length) (by omega) (by simpa using hfuel) hready
      (acc ++ [x])
    exact ⟨s', by simp [decodeSliceElems, hdec, hloop], hready'⟩

/-- There are at most as many elements as bytes. -/
theorem length_le_of_readsAs (hl : List.Forall₂ (ReadsAs dec) l bs) :
    l.length ≤ bs.flatten.length := by
  induction hl with
  | nil => simp
  | cons hx _ ih =>
    have hpos := hx.pos
    simp only [List.length_cons, List.flatten_cons, List.length_append]
    omega

/-- `decodeListSlice` reads a list of elements. -/
theorem decodeListSlice_reads (hend : StopsAtEnd dec) (hl : List.Forall₂ (ReadsAs dec) l bs)
    (hlt : bs.flatten.length < 2 ^ 64) (t : Ty) :
    ReadsAs (decodeListSlice dec t) l (encodeList bs.flatten) := by
  refine ⟨encodeList_length_pos _, fun {s rest st} h hroom => ?_⟩
  have hlen : (encodeList bs.flatten).length =
      (header .list bs.flatten.length).length + bs.flatten.length := List.length_append
  have hle := length_le_of_readsAs hl
  obtain ⟨s₁, hlist, hready⟩ := list_encodeList hlt h hroom
  have hend' (s₂ : Stream) (h₂ : Ready s₂ rest (⟨bs.flatten.length, bs.flatten.length⟩ ::
      advance st (header .list bs.flatten.length).length)) :
      ∃ s', s₂.listEnd = (none, s') ∧
        Ready s' rest (advance st (encodeList bs.flatten).length) := by
    rw [hlen] at hroom
    obtain ⟨s', hs', hready'⟩ := listEnd_at h₂.toAt hroom.advance
    exact ⟨s', hs', by rw [hlen]; simpa using hready'⟩
  cases hc : bs.flatten.length with
  | zero =>
    have hnil : l = [] := List.length_eq_zero_iff.mp (by omega)
    have hcnil : bs.flatten = [] := List.length_eq_zero_iff.mp hc
    rw [hcnil] at hready
    obtain ⟨s', hs', hready'⟩ := hend' s₁ (by simpa [hcnil] using hready)
    refine ⟨s', ?_, hready'⟩
    rw [hc] at hlist
    simp only [decodeListSlice, hlist, hs', hnil]
  | succ k =>
    obtain ⟨s₂, hloop, hready₂⟩ := decodeSliceElems_reads hend hl
      (p := 0) (n := bs.flatten.length) (m := s₁.input.length + 2) (by omega) (by omega)
      (by rw [hready.input, List.length_append]; omega) hready []
    obtain ⟨s', hs', hready'⟩ := hend' s₂ hready₂
    refine ⟨s', ?_, hready'⟩
    rw [hc] at hlist
    simp only [decodeListSlice, hlist, hloop, hs', List.nil_append]

/-- The decoder returns values without end. -/
def Spins (dec : Stream → α × Option Err × Stream) (s : Stream) : Prop :=
  ∃ x, dec s = (x, none, s)

/-- What a decoder may do in front of a value: it accepts only bytes that are related to the
value it returns, and it reports `EOL` without having read anything. It may also leave a
stream on which it spins. -/
structure Accepts (dec : Stream → α × Option Err × Stream) (P : α → List UInt8 → Prop) :
    Prop where
  /-- What a returned value says about the input. -/
  ok : ∀ {s s' : Stream} {inp : List UInt8} {st : List ListPos} {x : α}, Ready s inp st →
    Room st 0 → dec s = (x, none, s') → Spins dec s' ∨
      ∃ c rest, inp = c ++ rest ∧ Room st c.length ∧ P x c ∧ Ready s' rest (advance st c.length)
  /-- Nothing is read in front of `EOL`. -/
  eol : ∀ {s s' : Stream} {inp : List UInt8} {st : List ListPos} {x : α}, Ready s inp st →
    Room st 0 → dec s = (x, some .eol, s') → Ready s' inp st

/-- The element loop does not come back from a decoder that spins. -/
theorem decodeSliceElems_spins (h : Spins dec s) (m : ℕ) (acc : List α) :
    (decodeSliceElems dec m acc s).2.1 ≠ none := by
  obtain ⟨x, hx⟩ := h
  induction m generalizing acc with
  | zero => exact fun h => nomatch h
  | succ m ih =>
    rw [decodeSliceElems, hx]
    exact ih _

/-- The element loop ends without error only after the bytes of its elements. -/
theorem decodeSliceElems_ok (hdec : Accepts dec P) {m : ℕ} {acc : List α} (h : Ready s inp st)
    (htop : Room st 0) (hok : decodeSliceElems dec m acc s = (l, none, s')) :
    ∃ xs cs rest, l = acc ++ xs ∧ List.Forall₂ P xs cs ∧ inp = cs.flatten ++ rest ∧
      Room st cs.flatten.length ∧ Ready s' rest (advance st cs.flatten.length) := by
  induction m generalizing acc s inp st with
  | zero => cases hok
  | succ m ih =>
    rw [decodeSliceElems] at hok
    split at hok
    · next x s₁ hx =>
      rcases hdec.ok h htop hx with hspins | ⟨c, rest, rfl, hroom, hP, hready⟩
      · exact absurd (by rw [hok]) (decodeSliceElems_spins hspins m (acc ++ [x]))
      · obtain ⟨xs, cs, rest', rfl, hxs, rfl, hroom', hready'⟩ :=
          ih hready (Room.advance (n := 0) hroom) hok
        refine ⟨x :: xs, c :: cs, rest', by simp, .cons hP hxs, by simp, ?_, ?_⟩
        · rw [List.flatten_cons, List.length_append]
          exact hroom'.of_advance
        · rw [List.flatten_cons, List.length_append, ← advance_advance]
          exact hready'
    · next x s₁ hx =>
      cases hok
      exact ⟨[], [], inp, by simp, .nil, rfl, htop, by simpa using hdec.eol h htop hx⟩
    · cases hok

/-- A list that is left at its end was read as a whole. -/
theorem listEnd_content {s₂ : Stream} {n : ℕ} {rest' c : List UInt8} (hinp : rest = c ++ rest')
    (hroom : Room st ((header .list n).length + n))
    (h : At s₂ rest' (advance (⟨0, n⟩ :: advance st (header .list n).length) c.length))
    (hok : s₂.listEnd = (none, s')) :
    header .list n ++ rest = encodeList c ++ rest' ∧ Room st (encodeList c).length ∧
      Ready s' rest' (advance st (encodeList c).length) := by
  have hfull : 0 + c.length = n := listEnd_ok h hok
  obtain rfl : c.length = n := by omega
  have hlen : (encodeList c).length = (header .list c.length).length + c.length :=
    List.length_append
  have hat : At s₂ rest' (⟨c.length, c.length⟩ :: advance st (header .list c.length).length) := by
    simpa [advance] using h
  obtain ⟨s₃, hs₃, hready⟩ := listEnd_at hat hroom.advance
  rw [hok] at hs₃
  cases hs₃
  rw [hinp, hlen]
  exact ⟨(List.append_assoc ..).symm, hroom, by simpa using hready⟩

/-- `decodeListSlice` returns elements only if the input starts with the list of their bytes. -/
theorem decodeListSlice_ok (hdec : Accepts dec P) (h : Ready s inp st) (htop : Room st 0)
    (hok : decodeListSlice dec t s = (l, none, s')) :
    ∃ cs rest, List.Forall₂ P l cs ∧ inp = encodeList cs.flatten ++ rest ∧
      Room st (encodeList cs.flatten).length ∧
      Ready s' rest (advance st (encodeList cs.flatten).length) := by
  unfold decodeListSlice at hok
  split at hok
  · cases hok
  · next s₁ hlist =>
    obtain ⟨rest, rfl, hn, hroom, -, hready⟩ := list_ok h htop hlist
    obtain ⟨rfl, hend⟩ := Prod.mk.inj hok
    have hat : At s₁ rest (advance (⟨0, 0⟩ :: advance st (header .list 0).length) 0) := by
      simpa using hready.toAt
    exact ⟨[], rest, .nil, listEnd_content (c := []) rfl hroom hat hend⟩
  · next n s₁ _ hlist =>
    obtain ⟨rest, rfl, hn, hroom, -, hready⟩ := list_ok h htop hlist
    split at hok
    · cases hok
    · next l' s₂ hloop =>
      obtain ⟨rfl, hend⟩ := Prod.mk.inj hok
      obtain ⟨xs, cs, rest', rfl, hxs, hinp, -, hready'⟩ :=
        decodeSliceElems_ok hdec hready ⟨by simp, hn⟩ hloop
      exact ⟨cs, rest', hxs, listEnd_content hinp hroom hready'.toAt hend⟩

@[simp] theorem wrapStreamError_eq_eol : wrapStreamError e t = .eol ↔ e = .eol := by
  cases e <;> simp [wrapStreamError]

@[simp] theorem addErrorContext_eq_eol {ctx : String} :
    addErrorContext e ctx = .eol ↔ e = .eol := by
  cases e <;> simp [addErrorContext]

/-- The element loop does not report `EOL`. -/
theorem decodeSliceElems_ne_eol (dec : Stream → α × Option Err × Stream) (m : ℕ) (acc : List α)
    (s : Stream) : (decodeSliceElems dec m acc s).2.1 ≠ some .eol := by
  induction m generalizing acc s with
  | zero => exact fun h => nomatch h
  | succ m ih =>
    rw [decodeSliceElems]
    split
    · exact ih _ _
    · exact fun h => nomatch h
    · next hne _ =>
      intro heol
      exact hne (addErrorContext_eq_eol.mp (Option.some.inj heol))

/-- `decodeListSlice` reports `EOL` only without having read anything. -/
theorem decodeListSlice_eol_ok (h : Ready s inp st)
    (hok : decodeListSlice dec t s = (l, some .eol, s')) : Ready s' inp st := by
  unfold decodeListSlice at hok
  split at hok
  · next e s₁ hlist =>
    simp only [Prod.mk.injEq, Option.some.injEq, wrapStreamError_eq_eol] at hok
    obtain ⟨-, rfl, rfl⟩ := hok
    exact list_eol_ok h hlist
  · next s₁ hlist =>
    exact absurd (congrArg Prod.fst (Prod.mk.inj hok).2) (plain_ne_eol (plain_listEnd s₁))
  · next s₁ _ hlist =>
    split at hok
    · next heq =>
      cases hok
      exact absurd (by rw [heq]) (decodeSliceElems_ne_eol dec (s₁.input.length + 2) [] s₁)
    · next s₂ _ =>
      exact absurd (congrArg Prod.fst (Prod.mk.inj hok).2) (plain_ne_eol (plain_listEnd s₂))

end Hashgrid.Rlp
