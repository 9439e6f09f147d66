import Hashgrid.Core.Types
import Hashgrid.Rlp.StreamValues

/-!
# Event hashes

`Event.Hash` feeds the RLP encoding of five of the eight fields to Keccak, and
`validateEvent` recomputes it on a copy of the event. The hash function is a parameter;
where two hashes are compared, the two inputs at hand are assumed not to collide.
-/

namespace Hashgrid.Core

open Hashgrid.Bytes Hashgrid.Rlp

variable {ρ : Type} (keccak : List UInt8 → Hash)

/-- `rlp.Encode`: everything that reaches the writer. A failed encoding writes nothing. -/
def encodeTo (x : List Iface) : List UInt8 :=
  match writeIfaces x Encbuf.empty with
  | .ok w => w.toWriter.flatten
  | .error _ => []

/-- `rlpHash`. The error of `rlp.Encode` is dropped. -/
def rlpHash (x : List Iface) : Hash := keccak (encodeTo x)

/-- The argument of `rlpHash` in `Event.Hash`. -/
def Event.hashFields (e : Event ρ) : List Iface :=
  [⟨.bigInt, e.timeStamp⟩, ⟨transTy, transVal e.trans⟩, ⟨.byteArray 32, e.selfPart⟩,
    ⟨sigTy, e.selfSig.val⟩, ⟨.byteArray 32, e.otherPartH⟩]

/-- `Event.Hash`. -/
def Event.hash (e : Event ρ) : Hash := rlpHash keccak e.hashFields

/-- The bytes that `validateEvent` hashes. -/
def Event.checkInput (e : Event ρ) : List UInt8 :=
  encodeTo ({ copyEvent e with selfHash := FixedBytes.zero 32 } : Event ρ).hashFields

/-- `validateEvent`. -/
def validateEvent (e : Event ρ) : Bool :=
  let nEvent : Event ρ := { copyEvent e with selfHash := FixedBytes.zero 32 }
  (nEvent.hash keccak).compare e.selfHash = 0

variable {e : Event ρ} {n : ℕ}

theorem validateEvent_iff : validateEvent keccak e = true ↔ keccak e.checkInput = e.selfHash := by
  simp only [validateEvent, decide_eq_true_eq, FixedBytes.compare_eq_zero]
  rfl

/-- What reaches the writer is the recursive encoding. -/
theorem encodeTo_eq (x : List Iface) :
    encodeTo x = match encodeElems (fun v : Iface => encode v.type v.val) x with
      | .ok b => encodeList b
      | .error _ => [] := by
  have hout := (agrees_writeIfaces x Encbuf.empty).output.1
  unfold encodeTo
  cases hw : writeIfaces x Encbuf.empty with
  | error e =>
    rw [hw] at hout
    cases henc : encodeElems (fun v : Iface => encode v.type v.val) x with
    | error e' => rfl
    | ok b => simp [henc, Except.map] at hout
  | ok w =>
    rw [hw] at hout
    cases henc : encodeElems (fun v : Iface => encode v.type v.val) x with
    | error e' => simp [henc, Except.map] at hout
    | ok b =>
      rw [henc] at hout
      exact (Encbuf.flatten_toWriter w).trans (Except.ok.inj hout)

/-- The time stamp that the hash sees: a nil pointer counts as zero. -/
def Event.stamp (e : Event ρ) : ℤ := e.timeStamp.getD 0

/-- The encoding of a nonnegative time stamp. -/
theorem encode_timeStamp (h : 0 ≤ e.stamp) :
    encode .bigInt e.timeStamp = .ok (encodeString (natBytes e.stamp.toNat)) := by
  unfold Event.stamp at h ⊢
  cases hts : e.timeStamp with
  | none => rfl
  | some t =>
    change encodeBigInt t = _
    have hneg : ¬ t < 0 := by simpa [hts] using h
    unfold encodeBigInt
    rw [if_neg hneg]
    split_ifs with hzero
    · subst hzero
      rfl
    · rfl

/-- A negative time stamp cannot be encoded. -/
theorem encode_timeStamp_neg (h : e.stamp < 0) :
    encode .bigInt e.timeStamp = .error .negativeBigInt := by
  unfold Event.stamp at h
  cases hts : e.timeStamp with
  | none => simp [hts] at h
  | some t =>
    have hneg : t < 0 := by simpa [hts] using h
    change encodeBigInt t = _
    rw [encodeBigInt, if_pos hneg]

/-- The encoding of an array of at least two bytes starts with its header. -/
theorem encodeString_fixed (hn : 1 < n) (v : FixedBytes n) :
    encodeString v.bytes = header .string n ++ v.bytes := by
  have h := encodeString_of_header (c := v.bytes) fun x hx => by
    have := v.length_eq
    rw [hx] at this
    simp at this
    omega
  rwa [v.length_eq] at h

/-- The part of the hash input that follows the time stamp. -/
def Event.checkTail (e : Event ρ) : List UInt8 :=
  [0xC0] ++ (encodeString e.selfPart.bytes ++
    (encodeList (encodeString e.selfSig.addr.bytes) ++ encodeString e.otherPartH.bytes))

/-- The hash input of an event with a nonnegative time stamp. -/
theorem checkInput_eq (h : 0 ≤ e.stamp) :
    e.checkInput = encodeList (encodeString (natBytes e.stamp.toNat) ++ e.checkTail) := by
  have hts := encode_timeStamp h
  rw [Event.checkInput, copyEvent_eq, encodeTo_eq]
  simp only [Event.hashFields, encodeElems, hts]
  simp only [bind, Except.bind, pure, Except.pure, encode, encodeElems, transTy, transVal, sigTy,
    Sig.val, encodeFields, Except.map, Event.checkTail, List.map_nil]
  simp only [List.append_nil]
  rfl

theorem checkInput_eq_nil (h : e.stamp < 0) : e.checkInput = [] := by
  have hts := encode_timeStamp_neg h
  rw [Event.checkInput, copyEvent_eq, encodeTo_eq]
  simp only [Event.hashFields, encodeElems, hts]
  rfl

/-- Only events with a negative time stamp have no hash input. -/
theorem checkInput_eq_nil_iff : e.checkInput = [] ↔ e.stamp < 0 := by
  refine ⟨fun h => ?_, checkInput_eq_nil⟩
  by_contra hneg
  rw [checkInput_eq (by omega)] at h
  have hpos := encodeList_length_pos (encodeString (natBytes e.stamp.toNat) ++ e.checkTail)
  rw [h] at hpos
  simp at hpos

theorem encodeString_fixed_length (hn : 1 < n) (v w : FixedBytes n) :
    (encodeString v.bytes).length = (encodeString w.bytes).length := by
  rw [encodeString_fixed hn, encodeString_fixed hn, List.length_append, List.length_append,
    v.length_eq, w.length_eq]

/-- The fields that the hash of an accepted event depends on. -/
structure SameHashed (e e' : Event ρ) : Prop where
  /-- The time stamps agree, with nil read as zero. -/
  stamp : e.stamp = e'.stamp
  /-- The self parents agree. -/
  selfPart : e.selfPart = e'.selfPart
  /-- The creators agree. -/
  selfSig : e.selfSig = e'.selfSig
  /-- The hashes of the other parents agree. -/
  otherPartH : e.otherPartH = e'.otherPartH

theorem encodeSig_length (s s' : Sig) :
    (encodeList (encodeString s.addr.bytes)).length =
      (encodeList (encodeString s'.addr.bytes)).length := by
  have hlen := encodeString_fixed_length (by decide) s.addr s'.addr
  simp only [encodeList, List.length_append, hlen]

theorem checkTail_length (e e' : Event ρ) : e.checkTail.length = e'.checkTail.length := by
  simp only [Event.checkTail, List.length_append,
    encodeString_fixed_length (by decide) e.selfPart e'.selfPart,
    encodeSig_length e.selfSig e'.selfSig,
    encodeString_fixed_length (by decide) e.otherPartH e'.otherPartH]

variable {e' : Event ρ}

/-- The part after the time stamp determines the three fields in it. -/
theorem checkTail_inj (h : e.checkTail = e'.checkTail) :
    e.selfPart = e'.selfPart ∧ e.selfSig = e'.selfSig ∧ e.otherPartH = e'.otherPartH := by
  obtain ⟨hpart, hrest⟩ := List.append_inj (List.append_cancel_left h)
    (encodeString_fixed_length (by decide) _ _)
  obtain ⟨hsig, hother⟩ := List.append_inj hrest (encodeSig_length _ _)
  have haddr := FixedBytes.ext_bytes (encodeString_injective (encodeList_injective hsig))
  refine ⟨FixedBytes.ext_bytes (encodeString_injective hpart), ?_,
    FixedBytes.ext_bytes (encodeString_injective hother)⟩
  exact congrArg Sig.mk haddr

/-- Two hash inputs are equal when both time stamps are negative, or when the hashed
fields agree. -/
theorem checkInput_eq_iff :
    e.checkInput = e'.checkInput ↔ (e.stamp < 0 ∧ e'.stamp < 0) ∨ SameHashed e e' := by
  constructor
  · intro h
    by_cases hneg : e.stamp < 0
    · have hnil := checkInput_eq_nil hneg
      exact Or.inl ⟨hneg, checkInput_eq_nil_iff.mp (h.symm.trans hnil)⟩
    · have hneg' : ¬ e'.stamp < 0 := by
        intro hneg'
        exact hneg (checkInput_eq_nil_iff.mp (h.trans (checkInput_eq_nil hneg')))
      rw [checkInput_eq (by omega), checkInput_eq (by omega)] at h
      obtain ⟨hstamp, htail⟩ := List.append_inj' (encodeList_injective h) (checkTail_length e e')
      have hnat := natBytes_injective (encodeString_injective hstamp)
      obtain ⟨hpart, hsig, hother⟩ := checkTail_inj htail
      exact Or.inr ⟨by omega, hpart, hsig, hother⟩
  · rintro (⟨hneg, hneg'⟩ | hsame)
    · rw [checkInput_eq_nil hneg, checkInput_eq_nil hneg']
    · have htail : e.checkTail = e'.checkTail := by
        simp only [Event.checkTail, hsame.selfPart, hsame.selfSig, hsame.otherPartH]
      by_cases hneg : e.stamp < 0
      · rw [checkInput_eq_nil hneg, checkInput_eq_nil (hsame.stamp ▸ hneg)]
      · have hneg' : ¬ e'.stamp < 0 := hsame.stamp ▸ hneg
        rw [checkInput_eq (by omega), checkInput_eq (by omega), hsame.stamp, htail]

/-- Two accepted events whose hash inputs do not collide have the same `SelfHash` exactly
when their time stamps are both negative or they agree on the hashed fields. So an event whose
time stamp is not negative agrees on them with every event that has its `SelfHash`. -/
theorem selfHash_eq_iff_sameHashed {e e' : Event ρ} (hvalid : validateEvent keccak e = true)
    (hvalid' : validateEvent keccak e' = true)
    (hcollision : keccak e.checkInput = keccak e'.checkInput → e.checkInput = e'.checkInput) :
    (e.selfHash = e'.selfHash ↔ (e.stamp < 0 ∧ e'.stamp < 0) ∨ SameHashed e e') ∧
      (0 ≤ e.stamp → e.selfHash = e'.selfHash → SameHashed e e') := by
  rw [validateEvent_iff] at hvalid hvalid'
  have hiff : e.selfHash = e'.selfHash ↔ (e.stamp < 0 ∧ e'.stamp < 0) ∨ SameHashed e e' := by
    rw [← checkInput_eq_iff, ← hvalid, ← hvalid']
    exact ⟨hcollision, congrArg keccak⟩
  refine ⟨hiff, fun hstamp hhash => ?_⟩
  rcases hiff.mp hhash with ⟨hneg, -⟩ | hsame
  · omega
  · exact hsame

/-- An event without transactions. -/
def plainEvent (stamp : ℤ) (creator : ℕ) (selfPart otherPartH : Hash) (otherPartA : ℕ)
    (round : ℤ) (digest : Hash) : Event ℤ where
  timeStamp := some stamp
  trans := []
  selfPart := selfPart
  selfHash := digest
  selfSig := ⟨FixedBytes.ofNat 20 creator⟩
  otherPartH := otherPartH
  otherPartA := FixedBytes.ofNat 20 otherPartA
  roundID := some round

/-- A hash function given by a table of inputs and digests. -/
def tabulated (table : List (List UInt8 × Hash)) (input : List UInt8) : Hash :=
  (table.lookup input).getD (FixedBytes.zero 32)

/-- The first event of creator `0x0a`, with time stamp 1, under its Keccak-256 digest. -/
def firstEvent (otherPartA : ℕ) (round : ℤ) : Event ℤ :=
  plainEvent 1 0x0A (FixedBytes.zero 32) (FixedBytes.zero 32) otherPartA round
    (FixedBytes.ofNat 32 0x01f91fec2b633ca355f6633fe5318a8f4c99d2ce3dc0c8f29e14424c68273004)

/-- Another first event of creator `0x0a`, with time stamp 2, under its Keccak-256 digest. -/
def laterEvent : Event ℤ :=
  plainEvent 2 0x0A (FixedBytes.zero 32) (FixedBytes.zero 32) 0 0
    (FixedBytes.ofNat 32 0x60924ae07db0116df6c923ba6132e087d27012a8383c3f26feb34a7947e5fe60)

/-- Keccak-256 on the hash inputs of the two events. -/
def firstKeccak : List UInt8 → Hash :=
  tabulated [((firstEvent 0 0).checkInput, (firstEvent 0 0).selfHash),
    (laterEvent.checkInput, laterEvent.selfHash)]

/-- The second event of creator `0x0a`, on top of the first one. -/
def secondEvent : Event ℤ :=
  plainEvent 3 0x0A (firstEvent 0 0).selfHash (FixedBytes.zero 32) 0 0
    (FixedBytes.ofNat 32 0x5313fc18727c0e8a91408c9993c64962d5aa63439693ddfb3672c67bc9ed1230)

/-- Keccak-256 on the hash inputs of the two events. -/
def soloKeccak : List UInt8 → Hash :=
  tabulated ([firstEvent 0 0, secondEvent].map fun e => (e.checkInput, e.selfHash))

/-- Two events that differ in `OtherPartA` and in `RoundID` are accepted under one hash, and they
agree on the hashed fields. -/
theorem selfHash_eq_iff_sameHashed_first :
    firstEvent 0 0 ≠ firstEvent 0x0B 7 ∧ (firstEvent 0 0).selfHash = (firstEvent 0x0B 7).selfHash ∧
      SameHashed (firstEvent 0 0) (firstEvent 0x0B 7) := by
  obtain ⟨hne, hvalid, hvalid'⟩ : firstEvent 0 0 ≠ firstEvent 0x0B 7 ∧
      validateEvent firstKeccak (firstEvent 0 0) = true ∧
      validateEvent firstKeccak (firstEvent 0x0B 7) = true := by decide +kernel
  have hsame := selfHash_eq_iff_sameHashed firstKeccak hvalid hvalid' fun _ => rfl
  exact ⟨hne, rfl, hsame.2 (by decide) rfl⟩

/-- Two accepted events with one `SelfHash` that differ in `OtherPartA` and in `RoundID`. -/
theorem firstEvent_altered :
    validateEvent firstKeccak (firstEvent 0 0) = true ∧
      validateEvent firstKeccak (firstEvent 0x0B 7) = true ∧
      (firstEvent 0 0).selfHash = (firstEvent 0x0B 7).selfHash ∧
      (firstEvent 0 0).otherPartA ≠ (firstEvent 0x0B 7).otherPartA ∧
      (firstEvent 0 0).roundID ≠ (firstEvent 0x0B 7).roundID := by
  decide +kernel

end Hashgrid.Core
