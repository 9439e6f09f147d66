import Hashgrid.Core.EventWire
import Hashgrid.Rlp.CleanValues

/-!
# The wire format of events

An event has no one-byte array, so no byte of it is read twice. Events with their two big
integers and all transactions correspond to the byte strings that are accepted as events.
-/

namespace Hashgrid.Core

open Hashgrid.Bytes Hashgrid.Rlp

/-- `DecodeBytes` into a fresh event: the event as far as it was filled, and the error. -/
def decodeEventBytes (b : List UInt8) : Event ℤ × Option Err :=
  (decodeBytes eventTy b).map Event.ofVal id

/-- Transactions in their Go type survive the passage through the model's. -/
theorem transVal_transOfVal (v : transTy.Val) : transVal (transOfVal v) = v := by
  change List.map _ (List.map _ (show List (Option Unit) from v)) = _
  rw [List.map_map]
  refine (List.map_congr_left fun t _ => ?_).trans (List.map_id _)
  cases t <;> rfl

/-- A value of the Go type is that of its event. -/
theorem Event.val_ofVal (v : eventTy.Val) : (Event.ofVal v).val = v := by
  obtain ⟨timeStamp, trans, selfPart, selfHash, ⟨addr, ⟨⟩⟩, otherPartH, otherPartA, roundID,
    ⟨⟩⟩ := v
  exact congrArg (fun ts => (timeStamp, ts, selfPart, selfHash, (addr, ()), otherPartH, otherPartA,
    roundID, ())) (transVal_transOfVal trans)

theorem not_stuck_fixed {n : ℕ} (hn : 1 < n) (v : FixedBytes n) :
    stuck (.byteArray n) v = false :=
  beq_false_of_ne (regular_fixed hn v)

theorem clean_transTy (v : transTy.Val) : clean transTy v = true := by
  refine List.all_eq_true.mpr fun x _ => ?_
  cases x <;> rfl

/-- No byte of an event is read twice. -/
theorem clean_eventTy (v : eventTy.Val) : clean eventTy v = true := by
  obtain ⟨timeStamp, trans, selfPart, selfHash, selfSig, otherPartH, otherPartA, roundID, ⟨⟩⟩ := v
  change orderly false [(true, false), (clean transTy trans, false),
    (true, stuck (.byteArray 32) selfPart), (true, stuck (.byteArray 32) selfHash), (true, false),
    (true, stuck (.byteArray 32) otherPartH), (true, stuck (.byteArray 20) otherPartA),
    (true, false)] = true
  rw [clean_transTy, not_stuck_fixed (by decide) selfPart, not_stuck_fixed (by decide) selfHash,
    not_stuck_fixed (by decide) otherPartH, not_stuck_fixed (by decide) otherPartA]
  rfl

theorem supported_eventTy : eventTy.Supported := by
  simp [eventTy, transTy, sigTy, Ty.Supported, Fields.Supported]

/-- An event with its two big integers and all transactions is proper. -/
theorem proper_val {e : Event ℤ} {stamp round : ℤ} (hstamp : e.timeStamp = some stamp)
    (hstamp' : 0 ≤ stamp) (hround : e.roundID = some round) (hround' : 0 ≤ round)
    (htrans : ∀ t ∈ e.trans, t ≠ none) : Proper eventTy e.val := by
  have hts : Proper transTy (transVal e.trans) := by
    intro x hx
    obtain ⟨t, ht, rfl⟩ := List.mem_map.mp (show x ∈ e.trans.map _ from hx)
    obtain ⟨y, rfl⟩ := Option.ne_none_iff_exists'.mp (htrans t ht)
    trivial
  have hint {i : ℤ} (hi : 0 ≤ i) {v : Option ℤ} (hv : v = some i) : Proper .bigInt v := by
    rw [hv]
    exact hi
  exact ⟨hint hstamp' hstamp, hts, trivial, trivial, ⟨trivial, trivial⟩, trivial, trivial,
    hint hround' hround, trivial⟩

/-- The wire format of events. An event with nonnegative big integers and without nil
transactions is encoded, and if the encoding fits in a slice, it is decoded to the same event. A
byte string that is accepted as an event is the encoding of the result. -/
theorem decodeEventBytes_bijective :
    (∀ (e : Event ℤ) (stamp round : ℤ), e.timeStamp = some stamp → 0 ≤ stamp →
        e.roundID = some round → 0 ≤ round → (∀ t ∈ e.trans, t ≠ none) →
        ∃ b, encode eventTy e.val = .ok b ∧ (b.length < 2 ^ 63 →
          encodeToBytes eventTy e.val = .ok b ∧ decodeEventBytes b = (e, none))) ∧
      ∀ b : SliceBytes, (decodeEventBytes b.val).2 = none →
        encodeToBytes eventTy (decodeEventBytes b.val).1.val = .ok b.val := by
  refine ⟨fun e stamp round hstamp hstamp' hround hround' htrans => ?_, fun b hok => ?_⟩
  · have hproper := proper_val hstamp hstamp' hround hround' htrans
    obtain ⟨b, henc⟩ := hproper.exists_encode eventTy
    refine ⟨b, henc, fun hlt => ?_⟩
    have hbytes := encodeToBytes_eq_ok.mpr ⟨henc, hlt⟩
    refine ⟨hbytes, ?_⟩
    have hdec := decodeBytes_of_clean supported_eventTy hproper (clean_eventTy _) hbytes
    rw [decodeEventBytes, hdec, Prod.map_apply, Event.ofVal_val, id]
  · rcases hdec : decodeBytes eventTy b.val with ⟨v, err⟩
    rw [decodeEventBytes, hdec, Prod.map_apply] at hok ⊢
    obtain rfl : err = none := hok
    obtain ⟨b', henc, hclean, -⟩ := (decoded_of_decodeBytes supported_eventTy hdec).enc
    rw [Event.val_ofVal, encodeToBytes_eq_ok, henc, hclean (clean_eventTy _)]
    exact ⟨rfl, b.property⟩

end Hashgrid.Core
