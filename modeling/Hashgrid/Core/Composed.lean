import Hashgrid.Core.RandParent
import Hashgrid.Core.References

/-!
# Composed events

What `ComposeEvent` puts into an event. No round ever prefers a vertex, so the other parent
is what `RandParent` returns. That is an entry with the zero address, or none.
-/

namespace Hashgrid.Core

open Hashgrid.Bytes Hashgrid.Machine

/-- The entry that the loop of `RandParent` returns is the one that it began with, or it is that of
a newcomer. -/
theorem randParentLoop_ret (except : Address) (chosen i : ℕ) (ret : RequestArg)
    (comers : List RequestArg) : (randParentLoop except chosen i ret comers).1 = ret ∨
      ∃ n ∈ comers, n.targetHash = (randParentLoop except chosen i ret comers).1.targetHash ∧
        n.targetAddr = (randParentLoop except chosen i ret comers).1.targetAddr := by
  induction comers generalizing i ret with
  | nil => exact Or.inl rfl
  | cons arg rest ih =>
    rw [randParentLoop]
    split_ifs
    · exact Or.inr ⟨arg, List.mem_cons_self, rfl, rfl⟩
    · right
      rcases ih (i + 1) arg with heq | ⟨n, hn, hsame⟩
      · exact ⟨arg, List.mem_cons_self, congrArg RequestArg.targetHash heq.symm,
          congrArg RequestArg.targetAddr heq.symm⟩
      · exact ⟨n, List.mem_cons_of_mem arg hn, hsame⟩
    · rcases ih (i + 1) ret with heq | ⟨n, hn, hsame⟩
      · exact Or.inl heq
      · exact Or.inr ⟨n, List.mem_cons_of_mem arg hn, hsame⟩

/-- `RandParent` returns an entry with the zero address: the empty one, or that of a newcomer. -/
theorem Round.randParent_ret {rd : Round} {except : Address} {rand : ℕ} {arg : RequestArg}
    (h : (rd.randParent except rand).2 = some arg) : arg.targetAddr = FixedBytes.zero 20 ∧
      (arg.targetHash = FixedBytes.zero 32 ∨
        ∃ n ∈ rd.newComer, n.targetHash = arg.targetHash ∧ n.targetAddr = arg.targetAddr) := by
  unfold Round.randParent at h
  split_ifs at h
  dsimp only at h
  split_ifs at h with hzero
  have hret := randParentLoop_ret except (rand % rd.newComer.length) 0
    ⟨FixedBytes.zero 32, FixedBytes.zero 20, 0⟩ rd.newComer
  rw [Option.some.inj h] at hret
  refine ⟨Option.some.inj h ▸ FixedBytes.compare_eq_zero.mp hzero, hret.imp_left fun heq => ?_⟩
  rw [heq]

namespace JPGraph

/-- What `ComposeEvent` puts into an event. -/
structure Composed (keccak : List UInt8 → Hash) (jp : JPGraph) (now : ℤ) (e : Event ℕ) : Prop where
  /-- The time. -/
  stamp : e.timeStamp = some now
  /-- No transactions. -/
  trans : e.trans = []
  /-- This node is the creator. -/
  creator : e.selfSig.addr = jp.coinbase
  /-- There is a round number. -/
  round : e.roundID ≠ none
  /-- The hash is that of the event. -/
  hash : e.selfHash = e.hash keccak
  /-- The zero address as that of the other parent. -/
  otherA : e.otherPartA = FixedBytes.zero 20
  /-- No other parent, or a stored event of the zero address. -/
  otherH : e.otherPartH = FixedBytes.zero 32 ∨ ∃ v < jp.verts.next,
    (jp.vert v).event.selfHash = e.otherPartH ∧
      (jp.vert v).event.selfSig.addr = FixedBytes.zero 20

variable {keccak : List UInt8 → Hash} {jp : JPGraph}

/-- The other parent that is chosen. -/
theorem Referring.chosenOther (h : Referring keccak jp) (i rand : ℕ) :
    Ensures (jp.chooseOther i rand) fun r =>
      r.2.2 = FixedBytes.zero 20 ∧ (r.2.1 = FixedBytes.zero 32 ∨ ∃ v < jp.verts.next,
        (jp.vert v).event.selfHash = r.2.1 ∧
          (jp.vert v).event.selfSig.addr = FixedBytes.zero 20) := by
  unfold JPGraph.chooseOther
  rw [h.best i]
  dsimp only
  split_ifs
  · exact .error
  · cases hparent : ((jp.round i).randParent jp.coinbase rand).2 with
    | none => exact .ok ⟨rfl, Or.inl rfl⟩
    | some arg =>
      obtain ⟨haddr, hhash⟩ := Round.randParent_ret hparent
      refine .ok ⟨haddr, hhash.imp_right ?_⟩
      rintro ⟨n, hn, hsameHash, hsameAddr⟩
      obtain ⟨v, hv, hvHash, hvAddr⟩ := h.comer i n hn
      exact ⟨v, hv, hvHash.trans hsameHash, hvAddr.trans (hsameAddr.trans haddr)⟩

/-- The fields of a composed event. -/
theorem Referring.composed (h : Referring keccak jp) (now : ℤ) (rand : ℕ) :
    Ensures (jp.composeEvent keccak now rand) fun r => jp.Composed keccak now r.2 := by
  intro r hr
  obtain ⟨c, i, k, hcomposes⟩ := jp.composeEvent_composes keccak now rand r hr
  obtain ⟨jp₁, ts, hchoose, -⟩ := hcomposes.graph
  obtain ⟨haddr, hhash⟩ := h.chosenOther i rand _ hchoose
  refine ⟨hcomposes.stamp, hcomposes.trans, hcomposes.creator, ?_, hcomposes.hash, haddr, hhash⟩
  rw [hcomposes.roundID]
  exact Option.some_ne_none k

/-- A composed event is valid. -/
theorem Composed.valid {now : ℤ} {e : Event ℕ} (h : jp.Composed keccak now e) :
    validateEvent keccak e = true := by
  rw [validateEvent_iff, h.hash]
  refine congrArg keccak ?_
  unfold Event.checkInput Event.hashFields
  rw [copyEvent_eq, h.trans]

end JPGraph

end Hashgrid.Core
