import Hashgrid.Core.AddEffect

/-!
# What the loops of a node can do

`ComposeEvent`, `RoundLoop` and the search of `MonitorLoop`, each summed up by what it
changes outside of links, colours, newcomers and transactions.
-/

namespace Hashgrid.Core

open Hashgrid.Bytes Hashgrid.Machine

namespace JPGraph

/-- The pointer that a composed event uses: a new one, or that of the newest vertex of this
node. -/
def OwnPointer (jp : JPGraph) (k : ℕ) : Prop :=
  k = jp.cells.next ∨ ∃ c v, jp.graph.lookup jp.coinbase = some c ∧ (jp.col c).verTop = some v ∧
    (jp.vert v).event.roundID = some k

/-- What `ComposeEvent` can do: it makes an event of this node and writes a round number
through the pointer of that event. -/
theorem composeEvent_cases (keccak : List UInt8 → Hash) (jp : JPGraph) (now : ℤ) (rand : ℕ) :
    Ensures (jp.composeEvent keccak now rand) fun r =>
      r.2.selfSig.addr = jp.coinbase ∧ ∃ jp₁ k x, Neutral jp jp₁ ∧ jp.OwnPointer k ∧
        r.2.roundID = some k ∧
        r.1 = { jp₁ with cells := (jp.cells.alloc jp.currentIdx).update k fun _ => x } := by
  intro r hr
  obtain ⟨c, i, k, h⟩ := jp.composeEvent_composes keccak now rand r hr
  obtain ⟨jp₁, ts, hchoose, -, hgraph⟩ := h.graph
  have halike : Alike jp { jp₁ with transUnHandled := ts } := jp.alike_chooseOther i rand _ hchoose
  refine ⟨h.creator, _, k, (jp.round i).index, halike.neutral, ?_, h.roundID, hgraph⟩
  have hpointer := h.pointer
  unfold composePointer at hpointer
  split at hpointer
  · next v hv => exact Or.inr ⟨c, v, h.column, hv, hpointer⟩
  · exact Or.inl (Option.some.inj hpointer).symm

variable (jp : JPGraph)

/-- What a turn of `RoundLoop` can do: open a round, and enter the vertex in the round with its
number. -/
theorem roundLoop_cases (v : ℕ) :
    Ensures (jp.roundLoop v) fun r => ∃ cell jp₁, (jp.vert v).event.roundID = some cell ∧
      jp₁ = (if jp.opensRound v cell then jp.openRound cell else jp) ∧
      (r.1 = jp₁ ∨ ∃ i k, jp₁.findRound (jp₁.cells.get cell) = some i ∧
        r.1 = jp₁.setWitness i k v) := by
  unfold roundLoop
  split
  · exact .error
  · next cell hcell =>
    dsimp only
    generalize hjp₁ : (if jp.opensRound v cell then jp.openRound cell else jp) = jp₁
    split
    · exact .ok ⟨cell, jp₁, hcell, hjp₁.symm, Or.inl rfl⟩
    · next i hi =>
      split_ifs
      · refine .bind (.self _) fun complete _ => .ok ?_
        exact ⟨cell, jp₁, hcell, hjp₁.symm, Or.inr ⟨i, _, hi, rfl⟩⟩
      · exact .error

end JPGraph

end Hashgrid.Core
