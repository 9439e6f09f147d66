import Hashgrid.Rlp.TypedDecode

/-!
# Loops over slices that end

The loop of `decodeSliceElems` has no bound of its own. It ends because every element that is
decoded moves the stream on in the enclosing list. A byte that an element leaves behind is
decoded again and again, so the loop ends unless an element is, or ends with, such a byte.
-/

namespace Hashgrid.Rlp

open Hashgrid.Bytes

variable {s s' : Stream} {inp : List UInt8} {st : List ListPos} {elem t : Ty} {e : Err} {n p : ℕ}

@[simp] theorem wrapStreamError_eq_diverges : wrapStreamError e t = .diverges ↔ e = .diverges := by
  cases e <;> simp [wrapStreamError]

@[simp] theorem addErrorContext_eq_diverges {ctx : String} :
    addErrorContext e ctx = .diverges ↔ e = .diverges := by
  cases e <;> simp [addErrorContext]

/-- No error is remembered that `Kind` would report once more. -/
def Fresh (s : Stream) : Prop := s.kind = none ∨ s.kinderr = none

theorem Rests.fresh {stale : Bool} (h : Rests stale s inp st) : Fresh s := by
  cases stale with
  | true => exact .inr (show Stale s inp st from h).kinderr
  | false => exact .inl (show Ready s inp st from h).kind

/-- `Kind` returns. -/
theorem kindOf_returns (h : Fresh s) : s.kindOf.2.2.1 ≠ some .diverges := by
  unfold Stream.kindOf
  split
  · next k hk =>
    rcases h with hnone | herr
    · rw [hnone] at hk
      cases hk
    · rw [herr]
      exact fun h => nomatch h
  · dsimp only
    split
    · exact plain_ne_diverges (plain_fetchKind _)
    · split_ifs
      · exact fun h => nomatch h
      · exact plain_ne_diverges (plain_fetchKind _)

/-- `Bytes` returns. -/
theorem bytes_returns (h : Fresh s) : s.bytes.2.1 ≠ some .diverges := by
  have hkind := kindOf_returns h
  unfold Stream.bytes
  split
  · next heq => rwa [heq] at hkind
  · exact fun h => nomatch h
  · next size s₁ heq =>
    have hread := plain_ne_diverges (plain_readFull s₁ size)
    split
    · next hfull => rwa [hfull] at hread
    · split_ifs <;> exact fun h => nomatch h
  · exact fun h => nomatch h

/-- `uint` returns. -/
theorem uint_returns (h : Fresh s) (w : ℕ) : (s.uint w).2.1 ≠ some .diverges := by
  have hkind := kindOf_returns h
  unfold Stream.uint
  split
  · next heq => rwa [heq] at hkind
  · split_ifs <;> exact fun h => nomatch h
  · next size s₁ heq =>
    have hread := plain_ne_diverges (plain_readUint s₁ size)
    split_ifs
    · exact fun h => nomatch h
    · split
      · exact fun h => nomatch h
      · next huint => rwa [huint] at hread
      · split_ifs <;> exact fun h => nomatch h
  · exact fun h => nomatch h

/-- `Bool` returns. -/
theorem bool_returns (h : Fresh s) : s.bool.2.1 ≠ some .diverges := by
  have huint := uint_returns h 8
  unfold Stream.bool
  split
  · next heq => rwa [heq] at huint
  · exact fun h => nomatch h
  · exact fun h => nomatch h
  · exact fun h => nomatch h

/-- `List` returns. -/
theorem list_returns (h : Fresh s) : s.list.2.1 ≠ some .diverges := by
  have hkind := kindOf_returns h
  unfold Stream.list
  split
  · next heq => rwa [heq] at hkind
  · exact fun h => nomatch h
  · exact fun h => nomatch h

/-- `decodeByteArray` returns. -/
theorem decodeByteArray_returns (h : Fresh s) (n : ℕ) :
    (decodeByteArray n s).2.1 ≠ some .diverges := by
  have hkind := kindOf_returns h
  unfold decodeByteArray
  split
  · next heq => rwa [heq] at hkind
  · split_ifs <;> exact fun h => nomatch h
  · next size s₁ heq =>
    have hread := plain_ne_diverges (plain_readFull s₁ n)
    split_ifs
    · exact fun h => nomatch h
    · exact fun h => nomatch h
    · split
      · next hfull => rwa [hfull] at hread
      · split_ifs <;> exact fun h => nomatch h
  · exact fun h => nomatch h

/-- `decodeBigInt` returns. -/
theorem decodeBigInt_returns (h : Fresh s) : (decodeBigInt s).2.1 ≠ some .diverges := by
  have hbytes := bytes_returns h
  unfold decodeBigInt
  split
  · next heq =>
    rw [heq] at hbytes
    simpa using hbytes
  · split_ifs
    · exact fun h => nomatch h
    · exact fun h => nomatch h

section Loop

variable {α : Type} {dec : Stream → α × Option Err × Stream}

/-- The elements that a loop decodes one after the other, without an error. -/
inductive Elements (dec : Stream → α × Option Err × Stream) : Stream → List α → Stream → Prop
  /-- None yet. -/
  | nil (s : Stream) : Elements dec s [] s
  /-- One element and those after it. -/
  | cons {s s₁ s' : Stream} {x : α} {l : List α} (head : dec s = (x, none, s₁))
      (tail : Elements dec s₁ l s') : Elements dec s (x :: l) s'

variable {acc l : List α} {m : ℕ}

/-- A decoder that spins stays where it is. -/
theorem Elements.eq_of_spins (h : Elements dec s l s') (hspins : Spins dec s) : s' = s := by
  obtain ⟨x, hx⟩ := hspins
  induction h with
  | nil s => rfl
  | cons head _ ih =>
    rw [hx] at head
    cases head
    exact ih hx

/-- The loop ends if every call returns and there are fewer elements than iterations. -/
theorem decodeSliceElems_ends (hcalls : ∀ l s', Elements dec s l s' → (dec s').2.1 ≠ some .diverges)
    (hbound : ∀ l s', Elements dec s l s' → l.length < m) :
    (decodeSliceElems dec m acc s).2.1 ≠ some .diverges := by
  induction m generalizing acc s with
  | zero => exact absurd (hbound [] s (.nil s)) (Nat.not_lt_zero _)
  | succ m ih =>
    have hcall := hcalls [] s (.nil s)
    rw [decodeSliceElems]
    split
    · next x s₁ hx =>
      refine ih (fun l s' hl => hcalls _ s' (.cons hx hl)) fun l s' hl => ?_
      have hlen := hbound _ s' (.cons hx hl)
      rw [List.length_cons] at hlen
      omega
    · intro h
      cases h
    · next hx =>
      rw [hx] at hcall
      simpa using hcall

/-- The loop does not end if a call does not return, or if the decoder spins. -/
theorem decodeSliceElems_diverges (hl : Elements dec s l s')
    (h : Spins dec s' ∨ (dec s').2.1 = some .diverges) :
    (decodeSliceElems dec m acc s).2.1 = some .diverges := by
  induction hl generalizing m acc with
  | nil s =>
    induction m generalizing acc with
    | zero => rfl
    | succ m ih =>
      rw [decodeSliceElems]
      rcases h with ⟨x, hx⟩ | herr
      · rw [hx]
        exact ih
      · generalize dec s = r at herr
        obtain ⟨x, err, s₁⟩ := r
        cases herr
        rfl
  | cons head _ ih =>
    cases m with
    | zero => rfl
    | succ m =>
      rw [decodeSliceElems, head]
      exact ih h

end Loop

mutual

/-- While a value of the type is decoded from the stream, the loop of some slice decodes an element
that leaves a byte behind. -/
def LeavesByte : Ty → Stream → Prop
  | .slice elem, s => ∃ n s₁ l s', s.list = (n + 1, none, s₁) ∧
      Elements (decode elem) s₁ l s' ∧ ((∃ x ∈ l, stuck elem x = true) ∨ LeavesByte elem s')
  | .array n elem, s => ∃ k s₁ l s', s.list = (k, none, s₁) ∧
      Elements (decode elem) s₁ l s' ∧ l.length < n ∧ LeavesByte elem s'
  | .struct fields, s => ∃ k s₁, s.list = (k, none, s₁) ∧ LeavesByteFields fields s₁
  | .ptr elem, s => LeavesByte elem s
  | _, _ => False

/-- While the fields are decoded, the loop of some slice decodes such an element. -/
def LeavesByteFields : Fields → Stream → Prop
  | .nil, _ => False
  | .cons _ type rest, s => LeavesByte type s ∨
      ∃ x s', decode type s = (x, none, s') ∧ LeavesByteFields rest s'

end

/-- A stream at position `p` of an open list of `n` bytes, in front of an element. -/
structure InList (p n : ℕ) (st : List ListPos) (s : Stream) : Prop where
  /-- The stream stands in front of an element. -/
  ready : Ready s s.input (⟨p, n⟩ :: st)
  /-- The position is inside the list. -/
  room : Room (⟨p, n⟩ :: st) 0

variable {v : t.Val} {i : ℕ}

/-- What was decoded without error took at least one byte. -/
theorem Decoded.length_pos {c : List UInt8} (h : Decoded t v c) : 1 ≤ c.length := by
  obtain ⟨x, rfl, -⟩ := h.item
  cases x with
  | str b => exact encodeString_length_pos b
  | list xs => exact encodeList_length_pos _

/-- An element that is decoded moves on in the list. It leaves a byte behind on which its decoder
spins, or the stream stands in front of the next element. -/
theorem InList.step (hw : elem.Supported) (h : InList p n st s) {x : elem.Val}
    (hx : decode elem s = (x, none, s')) :
    ∃ q, p < q ∧ s'.stack = ⟨q, n⟩ :: st ∧ s'.input.length < s.input.length ∧
      (stuck elem x = true ∧ Spins (decode elem) s' ∨ stuck elem x = false ∧ InList q n st s') := by
  obtain ⟨c, rest, hinp, hroom, hdecoded, hrests⟩ := decode_ok elem hw h.ready h.room hx
  have hpos := hdecoded.length_pos
  have hat := hrests.at
  have hlen := congrArg List.length hinp
  rw [List.length_append] at hlen
  refine ⟨p + c.length, by omega, hat.stack, by rw [hat.input]; omega, ?_⟩
  cases hstuck : stuck elem x with
  | true =>
    rw [hstuck] at hrests
    have hstale : Stale s' rest _ := hrests
    exact .inl ⟨rfl, decode_spins elem hstuck hstale⟩
  | false =>
    rw [hstuck] at hrests
    have hready : Ready s' rest _ := hrests
    refine .inr ⟨rfl, ?_, Room.advance (n := 0) hroom⟩
    rw [hready.input]
    exact hready

/-- After some elements the decoder spins on what one of them has left behind, or as many bytes of
the list were taken. -/
theorem InList.elements (hw : elem.Supported) {l : List elem.Val} (h : InList p n st s)
    (hl : Elements (decode elem) s l s') :
    ((∃ x ∈ l, stuck elem x = true) ∧ Spins (decode elem) s') ∨
      (∀ x ∈ l, stuck elem x = false) ∧
        ∃ q, InList q n st s' ∧ p + l.length ≤ q ∧ l.length + s'.input.length ≤ s.input.length := by
  induction hl generalizing p with
  | nil s => exact .inr ⟨List.forall_mem_nil _, p, h, le_refl _, by simp⟩
  | cons head tail ih =>
    obtain ⟨q, hq, -, hinput, ⟨hstuck, hspins⟩ | ⟨hfree, hlist⟩⟩ := h.step hw head
    · rw [tail.eq_of_spins hspins]
      exact .inl ⟨⟨_, List.mem_cons_self, hstuck⟩, hspins⟩
    · rcases ih hlist with ⟨⟨x, hx, hstuck⟩, hspins⟩ | ⟨hall, r, hlist', hr, hinput'⟩
      · exact .inl ⟨⟨x, List.mem_cons_of_mem _ hx, hstuck⟩, hspins⟩
      · refine .inr ⟨List.forall_mem_cons.mpr ⟨hfree, hall⟩, r, hlist', ?_, ?_⟩
        · rw [List.length_cons]
          omega
        · rw [List.length_cons]
          omega

/-- A list that is opened. -/
theorem inList_of_list (h : Ready s inp st) (htop : Room st 0) (hok : s.list = (n, none, s')) :
    InList 0 n (advance st (header .list n).length) s' := by
  obtain ⟨rest, -, hn, -, -, hready⟩ := list_ok h htop hok
  refine ⟨?_, ⟨Nat.zero_le n, hn⟩⟩
  rw [hready.input]
  exact hready

/-- The stream is between two decoders, possibly with a byte that was left behind. -/
def Settled (s : Stream) : Prop := ∃ stale inp st, Rests stale s inp st ∧ Room st 0

theorem InList.settled (h : InList p n st s) : Settled s :=
  ⟨false, s.input, _, h.ready, h.room⟩

/-- After a decoder that returned a value. -/
theorem Settled.step (hw : t.Supported) (h : Settled s) (hok : decode t s = (v, none, s')) :
    Settled s' := by
  obtain ⟨stale, inp, st, hrests, htop⟩ := h
  obtain ⟨c, rest, -, hroom, hrests', -⟩ := decode_next ⟨decode_ok t hw⟩ hrests htop hok
  exact ⟨_, rest, _, hrests', Room.advance (n := 0) hroom⟩

/-- After some elements. -/
theorem Settled.elements (hw : elem.Supported) {l : List elem.Val} (h : Settled s)
    (hl : Elements (decode elem) s l s') : Settled s' := by
  induction hl with
  | nil s => exact h
  | cons head _ ih => exact ih (h.step hw head)

/-- Only a stream in front of a value opens a list. -/
theorem Settled.list (h : Settled s) (hok : s.list = (n, none, s')) : ∃ st, InList 0 n st s' := by
  obtain ⟨stale, inp, st, hrests, htop⟩ := h
  cases stale with
  | false => exact ⟨_, inList_of_list hrests htop hok⟩
  | true =>
    rw [Stale.list hrests] at hok
    cases hok

theorem Settled.fresh (h : Settled s) : Fresh s := by
  obtain ⟨stale, inp, st, hrests, -⟩ := h
  exact hrests.fresh

/-- The element loop of an array ends if every call returns. -/
theorem decodeArrayElems_ends {α : Type} {dec : Stream → α × Option Err × Stream} {zero : α}
    (hcalls : ∀ l s', Elements dec s l s' → l.length < n → (dec s').2.1 ≠ some .diverges) :
    (decodeArrayElems dec zero n i s).2.2.1 ≠ some .diverges := by
  induction n generalizing i s with
  | zero =>
    intro h
    cases h
  | succ n ih =>
    have hcall := hcalls [] s (.nil s) (Nat.succ_pos n)
    rw [decodeArrayElems]
    split
    · intro h
      cases h
    · next hx =>
      rw [hx] at hcall
      simpa using hcall
    · next x s₁ hx =>
      exact ih fun l s' hl hlt => hcalls _ s' (.cons hx hl) (by rw [List.length_cons]; omega)

/-- The element loop of an array does not end if a call does not return. -/
theorem decodeArrayElems_diverges {α : Type} {dec : Stream → α × Option Err × Stream} {zero : α}
    {l : List α} (hl : Elements dec s l s') (hlt : l.length < n)
    (h : (dec s').2.1 = some .diverges) :
    (decodeArrayElems dec zero n i s).2.2.1 = some .diverges := by
  induction hl generalizing n i with
  | nil s =>
    obtain ⟨n, rfl⟩ : ∃ k, n = k + 1 := ⟨n - 1, by simp at hlt; omega⟩
    rw [decodeArrayElems]
    generalize dec s = r at h
    obtain ⟨x, err, s₁⟩ := r
    cases h
    rfl
  | cons head _ ih =>
    rw [List.length_cons] at hlt
    obtain ⟨n, rfl⟩ : ∃ k, n = k + 1 := ⟨n - 1, by omega⟩
    rw [decodeArrayElems, head]
    exact ih (by omega) h

/-- The decoder of a slice returns if no element leaves a byte behind, and the element decoder
returns. -/
theorem decodeListSlice_returns (hw : elem.Supported) (h : Settled s)
    (helem : ∀ {s' : Stream}, Settled s' → ¬ LeavesByte elem s' →
      (decode elem s').2.1 ≠ some .diverges) (hclear : ¬ LeavesByte (.slice elem) s) (t : Ty) :
    (decodeListSlice (decode elem) t s).2.1 ≠ some .diverges := by
  have hlist := list_returns h.fresh
  unfold decodeListSlice
  split
  · next heq =>
    rw [heq] at hlist
    simpa using hlist
  · exact plain_ne_diverges (plain_listEnd _)
  · next n s₁ hne hopen =>
    cases n with
    | zero => exact absurd rfl hne
    | succ n =>
      obtain ⟨st, hin⟩ := h.list hopen
      have hat (l : List elem.Val) (s' : Stream) (hl : Elements (decode elem) s₁ l s') :
          Settled s' ∧ l.length ≤ s₁.input.length := by
        rcases hin.elements hw hl with ⟨hstuck, -⟩ | ⟨-, q, hq, -, hlen⟩
        · exact absurd ⟨n, s₁, l, s', hopen, hl, .inl hstuck⟩ hclear
        · exact ⟨hq.settled, by omega⟩
      have hloop : (decodeSliceElems (decode elem) (s₁.input.length + 2) [] s₁).2.1 ≠
          some .diverges := by
        refine decodeSliceElems_ends (fun l s' hl => ?_) fun l s' hl => ?_
        · exact helem (hat l s' hl).1 fun hinner =>
            hclear ⟨n, s₁, l, s', hopen, hl, .inr hinner⟩
        · exact Nat.lt_add_right 1 (Nat.lt_succ_of_le (hat l s' hl).2)
      split
      · next heq => rwa [heq] at hloop
      · exact plain_ne_diverges (plain_listEnd _)

/-- The decoder of an array returns if the element decoder does. -/
theorem decodeListArray_returns (hw : elem.Supported) (h : Settled s)
    (helem : ∀ {s' : Stream}, Settled s' → ¬ LeavesByte elem s' →
      (decode elem s').2.1 ≠ some .diverges) (hclear : ¬ LeavesByte (.array n elem) s) (t : Ty) :
    (decodeListArray (decode elem) elem.zero n t s).2.1 ≠ some .diverges := by
  have hlist := list_returns h.fresh
  unfold decodeListArray
  split
  · next heq =>
    rw [heq] at hlist
    simpa using hlist
  · next k s₁ hopen =>
    obtain ⟨st, hin⟩ := h.list hopen
    have hloop : (decodeArrayElems (decode elem) elem.zero n 0 s₁).2.2.1 ≠ some .diverges := by
      refine decodeArrayElems_ends fun l s' hl hlt => ?_
      exact helem (hin.settled.elements hw hl) fun hinner =>
        hclear ⟨k, s₁, l, s', hopen, hl, hlt, hinner⟩
    split
    · next heq => rwa [heq] at hloop
    · intro h
      cases h
    · simpa using plain_ne_diverges (plain_listEnd _)

mutual

/-- A decoder returns if no loop inside it decodes an element that leaves a byte behind. -/
theorem decode_returns : ∀ (t : Ty), t.Supported → ∀ {s : Stream}, Settled s →
    ¬ LeavesByte t s → (decode t s).2.1 ≠ some .diverges
  | .uint bits, _, s, h, _ => by
    have huint := uint_returns h.fresh bits
    simp only [decode]
    split
    · next heq =>
      rw [heq] at huint
      simpa using huint
    · exact fun h => nomatch h
  | .bool, _, s, h, _ => by
    have hbool := bool_returns h.fresh
    simpa [decode] using hbool
  | .string, _, s, h, _ => by
    have hbytes := bytes_returns h.fresh
    simpa [decode] using hbytes
  | .bytes, _, s, h, _ => by
    have hbytes := bytes_returns h.fresh
    simpa [decode] using hbytes
  | .byteArray n, _, s, h, _ => decodeByteArray_returns h.fresh n
  | .bigInt, _, s, h, _ => decodeBigInt_returns h.fresh
  | .bigIntNoPtr, _, s, h, _ => decodeBigInt_returns h.fresh
  | .slice elem, hw, s, h, hclear => by
    have hw : elem.Supported := hw
    simp only [decode]
    exact decodeListSlice_returns hw h (fun hs' hclear' => decode_returns elem hw hs' hclear')
      hclear _
  | .array n elem, hw, s, h, hclear => by
    have hw : elem.Supported := hw
    simp only [decode]
    exact decodeListArray_returns hw h (fun hs' hclear' => decode_returns elem hw hs' hclear')
      hclear _
  | .struct fields, hw, s, h, hclear => by
    have hlist := list_returns h.fresh
    simp only [decode]
    split
    · next heq =>
      rw [heq] at hlist
      simpa using hlist
    · next k s₁ hopen =>
      obtain ⟨st, hin⟩ := h.list hopen
      have hloop : (decodeFields fields (.struct fields) s₁).2.1 ≠ some .diverges :=
        decodeFields_returns fields hw hin.settled fun hinner => hclear ⟨k, s₁, hopen, hinner⟩
      split
      · next heq => rwa [heq] at hloop
      · simpa using plain_ne_diverges (plain_listEnd _)
  | .ptr elem, hw, s, h, hclear => by
    have helem := decode_returns elem hw h hclear
    simp only [decode]
    split
    · next heq => rwa [heq] at helem
    · exact fun h => nomatch h

/-- The field loop. -/
theorem decodeFields_returns : ∀ (fs : Fields), fs.Supported → ∀ {t : Ty} {s : Stream}, Settled s →
    ¬ LeavesByteFields fs s → (decodeFields fs t s).2.1 ≠ some .diverges
  | .nil, _, _, _, _, _ => fun h => nomatch h
  | .cons _ type rest, hw, t, s, h, hclear => by
    have hfirst := decode_returns type hw.1 h fun hinner => hclear (.inl hinner)
    rw [decodeFields]
    split
    · exact fun h => nomatch h
    · next heq =>
      rw [heq] at hfirst
      simpa using hfirst
    · next x s₁ heq =>
      exact decodeFields_returns rest hw.2 (h.step hw.1 heq) fun hinner =>
        hclear (.inr ⟨x, s₁, heq, hinner⟩)

end

mutual

/-- A decoder does not return if a loop inside it decodes an element that leaves a byte behind. -/
theorem decode_diverges : ∀ (t : Ty), t.Supported → ∀ {s : Stream}, Settled s →
    LeavesByte t s → (decode t s).2.1 = some .diverges
  | .uint _, _, _, _, hleaves => False.elim hleaves
  | .bool, _, _, _, hleaves => False.elim hleaves
  | .string, _, _, _, hleaves => False.elim hleaves
  | .bytes, _, _, _, hleaves => False.elim hleaves
  | .byteArray _, _, _, _, hleaves => False.elim hleaves
  | .bigInt, _, _, _, hleaves => False.elim hleaves
  | .bigIntNoPtr, _, _, _, hleaves => False.elim hleaves
  | .slice elem, hw, s, h, hleaves => by
    have hw : elem.Supported := hw
    obtain ⟨n, s₁, l, s', hopen, hl, hcall⟩ := hleaves
    obtain ⟨st, hin⟩ := h.list hopen
    have hstops : Spins (decode elem) s' ∨ (decode elem s').2.1 = some .diverges := by
      rcases hin.elements hw hl with ⟨-, hspins⟩ | ⟨hfree, q, hq, -, -⟩
      · exact .inl hspins
      · rcases hcall with ⟨x, hx, hstuck⟩ | hinner
        · exact absurd (hfree x hx) (by simp [hstuck])
        · exact .inr (decode_diverges elem hw hq.settled hinner)
    have hloop : (decodeSliceElems (decode elem) (s₁.input.length + 2) [] s₁).2.1 =
        some .diverges := decodeSliceElems_diverges hl hstops
    simp only [decode, decodeListSlice, hopen]
    generalize decodeSliceElems (decode elem) (s₁.input.length + 2) [] s₁ = r at hloop
    obtain ⟨val, err, s₂⟩ := r
    cases hloop
    rfl
  | .array n elem, hw, s, h, hleaves => by
    have hw : elem.Supported := hw
    obtain ⟨k, s₁, l, s', hopen, hl, hlt, hinner⟩ := hleaves
    obtain ⟨st, hin⟩ := h.list hopen
    have hcall := decode_diverges elem hw (hin.settled.elements hw hl) hinner
    have hloop : (decodeArrayElems (decode elem) elem.zero n 0 s₁).2.2.1 = some .diverges :=
      decodeArrayElems_diverges hl hlt hcall
    simp only [decode, decodeListArray, hopen]
    generalize decodeArrayElems (decode elem) elem.zero n 0 s₁ = r at hloop
    obtain ⟨val, short, err, s₂⟩ := r
    cases hloop
    rfl
  | .struct fields, hw, s, h, hleaves => by
    obtain ⟨k, s₁, hopen, hinner⟩ := hleaves
    obtain ⟨st, hin⟩ := h.list hopen
    have hloop := decodeFields_diverges fields hw (t := .struct fields) hin.settled hinner
    simp only [decode, hopen]
    generalize decodeFields fields (.struct fields) s₁ = r at hloop
    obtain ⟨val, err, s₂⟩ := r
    cases hloop
    rfl
  | .ptr elem, hw, s, h, hleaves => by
    have hcall := decode_diverges elem hw h hleaves
    simp only [decode]
    generalize decode elem s = r at hcall
    obtain ⟨val, err, s₂⟩ := r
    cases hcall
    rfl

/-- The field loop. -/
theorem decodeFields_diverges : ∀ (fs : Fields), fs.Supported → ∀ {t : Ty} {s : Stream},
    Settled s → LeavesByteFields fs s → (decodeFields fs t s).2.1 = some .diverges
  | .nil, _, _, _, _, hleaves => False.elim hleaves
  | .cons name type rest, hw, t, s, h, hleaves => by
    rw [decodeFields]
    rcases hleaves with hfirst | ⟨x, s', hx, hrest⟩
    · have hcall := decode_diverges type hw.1 h hfirst
      generalize decode type s = r at hcall
      obtain ⟨val, err, s₂⟩ := r
      cases hcall
      rfl
    · have hloop := decodeFields_diverges rest hw.2 (t := t) (h.step hw.1 hx) hrest
      rw [hx]
      exact hloop

end

/-- The position in the innermost list. -/
def Stream.listPos (s : Stream) : ℕ := (s.stack.head?.map ListPos.pos).getD 0

/-- What keeps the loop over a list of `n` bytes from running on: every element that is decoded
without error takes at least one byte of the list, and the loop ends after at most `n + 1`
iterations. -/
structure LoopEnds (elem : Ty) (n : ℕ) (s : Stream) : Prop where
  /-- Every element moves on in the list. -/
  moves : ∀ l s' x s'', Elements (decode elem) s l s' → decode elem s' = (x, none, s'') →
    s'.listPos < s''.listPos
  /-- The loop ends. -/
  ends : (decodeSliceElems (decode elem) (n + 1) [] s).2.1 ≠ some .diverges

/-- No element that the loop decodes, and none that a loop inside an element decodes, is a one-byte
array that holds zero, or a pointer to one. -/
def NothingLeft (elem : Ty) (s : Stream) : Prop :=
  ∀ l s', Elements (decode elem) s l s' → (∀ x ∈ l, stuck elem x = false) ∧ ¬ LeavesByte elem s'

/-- The loop over a list inside any open lists takes a byte for every element and ends just when no
element leaves a byte behind. -/
theorem sliceLoop_ends_iff {elem : Ty} (hw : elem.Supported) {n : ℕ} (hn : n < 2 ^ 64)
    (h : Ready s inp (⟨0, n⟩ :: st)) : LoopEnds elem n s ↔ NothingLeft elem s := by
  have hin : InList 0 n st s := ⟨h.input.symm ▸ h, ⟨Nat.zero_le n, hn⟩⟩
  constructor
  · intro hends l s' hl
    rcases hin.elements hw hl with ⟨-, x, hx⟩ | ⟨hfree, q, hq, -, -⟩
    -- A decoder that spins would not move on.
    · exact absurd (hends.moves l s' x s' hl hx) (lt_irrefl _)
    · refine ⟨hfree, fun hinner => ?_⟩
      have hcall := decode_diverges elem hw hq.settled hinner
      exact hends.ends (decodeSliceElems_diverges hl (.inr hcall))
  · intro hleft
    have hlist (l : List elem.Val) (s' : Stream) (hl : Elements (decode elem) s l s') :
        ∃ q, InList q n st s' ∧ l.length ≤ q := by
      rcases hin.elements hw hl with ⟨⟨x, hx, hstuck⟩, -⟩ | ⟨-, q, hq, hlen, -⟩
      · exact absurd ((hleft l s' hl).1 x hx) (by simp [hstuck])
      · exact ⟨q, hq, by omega⟩
    constructor
    · intro l s' x s'' hl hx
      obtain ⟨q, hq, -⟩ := hlist l s' hl
      obtain ⟨r, hr, hstack, -⟩ := hq.step hw hx
      rw [Stream.listPos, Stream.listPos, hq.ready.stack, hstack]
      exact hr
    · refine decodeSliceElems_ends (fun l s' hl => ?_) fun l s' hl => ?_
      · obtain ⟨q, hq, -⟩ := hlist l s' hl
        exact decode_returns elem hw hq.settled (hleft l s' hl).2
      · obtain ⟨q, hq, hlen⟩ := hlist l s' hl
        have hroom : q + 0 ≤ n := hq.room.1
        omega

/-- The stream behind the header of the list that the input starts with. -/
def insideList (b : List UInt8) : Stream := (newStream b b.length).list.2.2

/-- The stream after a number of calls of a decoder. -/
def afterCalls {α : Type} (dec : Stream → α × Option Err × Stream) (s : Stream) : ℕ → Stream
  | 0 => s
  | n + 1 => afterCalls dec (dec s).2.2 n

/-- The elements up to the first error of the decoder. -/
theorem Elements.of_afterCalls {α : Type} {dec : Stream → α × Option Err × Stream} {l : List α}
    (h : Elements dec s l s') (hstop : (dec (afterCalls dec s n)).2.1 ≠ none) :
    l.length ≤ n ∧ s' = afterCalls dec s l.length ∧
      ∀ x ∈ l, ∃ i < n, x = (dec (afterCalls dec s i)).1 := by
  induction h generalizing n with
  | nil s => exact ⟨Nat.zero_le n, rfl, List.forall_mem_nil _⟩
  | @cons s s₁ s' x l head tail ih =>
    cases n with
    | zero =>
      rw [afterCalls, head] at hstop
      exact absurd rfl hstop
    | succ n =>
      rw [afterCalls, head] at hstop
      obtain ⟨hlen, hs', hall⟩ := ih hstop
      refine ⟨Nat.succ_le_succ hlen, ?_, List.forall_mem_cons.mpr ⟨⟨0, Nat.succ_pos n, ?_⟩, ?_⟩⟩
      · rw [List.length_cons, afterCalls, head]
        exact hs'
      · rw [afterCalls, head]
      · intro y hy
        obtain ⟨i, hi, heq⟩ := hall y hy
        refine ⟨i + 1, Nat.succ_lt_succ hi, ?_⟩
        rw [afterCalls, head]
        exact heq

/-- The lists `[01, 02]` and `[03]` of one-byte arrays in a list. -/
def nestedList : Stream := insideList [0xC5, 0xC2, 1, 2, 0xC1, 3]

/-- The loop over the two lists ends, and so do the loops in them. -/
theorem sliceLoop_ends_nestedList :
    (decodeSliceElems (decode (.slice (.byteArray 1))) 6 [] nestedList).1.map List.length = [2, 1] ∧
      LoopEnds (.slice (.byteArray 1)) 5 nestedList := by
  let outer (k : ℕ) : Stream := afterCalls (decode (.slice (.byteArray 1))) nestedList k
  let inner (k i : ℕ) : Stream := afterCalls (decode (.byteArray 1)) (outer k).list.2.2 i
  obtain ⟨hvalues, hstop, hend, hbytes⟩ :
      (decodeSliceElems (decode (.slice (.byteArray 1))) 6 [] nestedList).1.map List.length =
        [2, 1] ∧
      (decode (.slice (.byteArray 1)) (outer 2)).2.1 ≠ none ∧ (outer 2).list.2.1 ≠ none ∧
      ∀ k < 2, (decode (.byteArray 1) (inner k (2 - k))).2.1 ≠ none ∧
        ∀ i < 2 - k, stuck (.byteArray 1) (decode (.byteArray 1) (inner k i)).1 = false := by
    decide +kernel
  have hready : Ready nestedList [0xC2, 1, 2, 0xC1, 3] [⟨0, 5⟩] := ⟨⟨rfl, rfl, rfl, rfl⟩, rfl⟩
  have hw : Ty.Supported (.slice (.byteArray 1)) := trivial
  refine ⟨hvalues, (sliceLoop_ends_iff hw (by decide) hready).mpr fun l s' hl =>
    ⟨fun _ _ => rfl, ?_⟩⟩
  obtain ⟨hlen, rfl, -⟩ := hl.of_afterCalls hstop
  rintro ⟨n, s₁, l', s'', hopen, hl', ⟨x, hx, hstuck⟩ | hfalse⟩
  · rcases Nat.lt_or_eq_of_le hlen with hlt | heq
    · obtain ⟨hstop', hfree⟩ := hbytes l.length hlt
      obtain rfl : (outer l.length).list.2.2 = s₁ := by rw [hopen]
      obtain ⟨-, -, hall⟩ := hl'.of_afterCalls hstop'
      obtain ⟨i, hi, rfl⟩ := hall x hx
      rw [hfree i hi] at hstuck
      cases hstuck
    · rw [← heq, hopen] at hend
      exact hend rfl
  · exact hfalse

/-- The loop over a list that holds the one-byte array `00` does not end. -/
theorem not_sliceLoop_ends_zeroByte :
    ¬ LoopEnds (.byteArray 1) 1 (insideList [0xC1, 0]) :=
  fun h => h.ends rfl

end Hashgrid.Rlp
