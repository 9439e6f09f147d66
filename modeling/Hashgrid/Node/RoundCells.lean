import Hashgrid.Node.MonitorFront

/-!
# Who writes round numbers

Round numbers are read and written through pointers that events of one node share. An old
number changes only when `RoundLoop` opens a round or when `ComposeEvent` puts an event on
top of the newest vertex of this node.
-/

namespace Hashgrid.Core

open Hashgrid.Bytes Hashgrid.Machine

namespace JPGraph

/-- `ComposeEvent` writes another number through the pointer, because the newest vertex of this
node has it and the newest round has another number. -/
def WritesOwn (jp : JPGraph) (k : ℕ) : Prop :=
  ∃ c ∈ jp.graph.lookup jp.coinbase, ∃ v ∈ (jp.col c).verTop,
    (jp.vert v).event.roundID = some k ∧
      ∃ i ∈ jp.queue.head?, jp.cells.get k ≠ (jp.round i).index

instance (jp : JPGraph) (k : ℕ) : Decidable (jp.WritesOwn k) :=
  inferInstanceAs (Decidable (∃ c ∈ jp.graph.lookup jp.coinbase, ∃ v ∈ (jp.col c).verTop,
    _ ∧ ∃ i ∈ jp.queue.head?, _))

/-- `ComposeEvent` changes the number behind an old pointer in this way only. -/
theorem get_cells_composeEvent (keccak : List UInt8 → Hash) (jp : JPGraph) (now : ℤ) (rand : ℕ)
    {k : ℕ} (hk : k < jp.cells.next) (hsafe : ¬ jp.WritesOwn k) :
    Ensures (jp.composeEvent keccak now rand) fun r => r.1.cells.get k = jp.cells.get k := by
  intro r hr
  obtain ⟨c, i, k', h⟩ := jp.composeEvent_composes keccak now rand r hr
  obtain ⟨jp₁, ts, -, -, hgraph⟩ := h.graph
  have hold : (jp.cells.alloc jp.currentIdx).get k = jp.cells.get k := Heap.get_alloc_of_lt hk _
  rw [hgraph]
  rcases Heap.get_update_eq_or (jp.cells.alloc (jp.currentIdx : ℤ)) k' k
    fun _ => ((jp.round i).index : ℤ) with heq | ⟨rfl, heq⟩
  · exact heq.trans hold
  -- The pointer is that of the newest vertex, because it is not a new one.
  · refine heq.trans (not_not.mp fun hne => hsafe ?_)
    have hpointer := h.pointer
    unfold composePointer at hpointer
    split at hpointer
    · next v hv => exact ⟨c, h.column, v, hv, hpointer, i, h.front, fun hsame => hne hsame.symm⟩
    · exact absurd (Option.some.inj hpointer) hk.ne'

end JPGraph

end Hashgrid.Core

namespace Hashgrid.Node

open Hashgrid.Bytes Hashgrid.Core Hashgrid.Machine Hashgrid.Wire

/-- A turn of the event loop composes an event. -/
def Handler.Composes (h : Handler) : Branch → Prop
  | .onlyTime _ _ => True
  | .overFlow _ _ => h.transUnHandled > maxTransInEvent
  | _ => False

instance (h : Handler) (b : Branch) : Decidable (h.Composes b) :=
  match b with
  | .onlyTime _ _ => isTrue trivial
  | .overFlow _ _ => inferInstanceAs (Decidable (_ > _))
  | .eventNorm | .witnessL | .witnessR | .request => isFalse id

/-- The step writes another number through a pointer: `RoundLoop` opens a round for a vertex with
the pointer, or `ComposeEvent` uses the pointer after a round was opened. -/
def NodeState.Rewrites (s : NodeState) (k : ℕ) : Action → Prop
  | .roundLoop => s.consensus = none ∧ ∃ v ∈ s.graph.roundTrigger.head?,
      (s.graph.vert v).event.roundID = some k ∧ s.graph.opensRound v k
  | .handle b => s.handler.Composes b ∧ s.graph.WritesOwn k
  | _ => False

instance (s : NodeState) (k : ℕ) (a : Action) : Decidable (s.Rewrites k a) :=
  match a with
  | .roundLoop => inferInstanceAs (Decidable (_ ∧ ∃ v ∈ s.graph.roundTrigger.head?, _))
  | .handle _ => inferInstanceAs (Decidable (_ ∧ _))
  | .receive _ _ | .add _ | .send _ | .cast _ | .monitor _ | .consensusShow => isFalse id

variable (keccak : List UInt8 → Hash) {k : ℕ}

/-- A turn of the event loop changes the number behind an old pointer only when it composes an
event. -/
theorem get_cells_eventHandle (h : Handler) {jp : JPGraph} (b : Branch) (hk : k < jp.cells.next) :
    Ensures (eventHandle keccak h jp b) fun t =>
      k < t.graph.cells.next ∧
        (¬ (h.Composes b ∧ jp.WritesOwn k) → t.graph.cells.get k = jp.cells.get k) := by
  refine .map (Q := fun t => k < t.graph.cells.next ∧
    (¬ (h.Composes b ∧ jp.WritesOwn k) → t.graph.cells.get k = jp.cells.get k)) ?_
      fun t ht => t.finish_eq.2 ▸ ht
  have hcompose (now : ℤ) (rand : ℕ) (hb : h.Composes b) (f : JPGraph × Event ℕ → Turn)
      (hf : ∀ r, (f r).graph = r.1) :
      Ensures (jp.composeEvent keccak now rand >>= fun r => .ok (f r)) fun t =>
        k < t.graph.cells.next ∧
          (¬ (h.Composes b ∧ jp.WritesOwn k) → t.graph.cells.get k = jp.cells.get k) := by
    refine .bind (.self _) fun r hr => .ok ?_
    rw [hf]
    refine ⟨?_, fun hsafe => ?_⟩
    · obtain ⟨-, jp₁, k', x, -, -, -, hcells⟩ := jp.composeEvent_cases keccak now rand r hr
      rw [hcells]
      simp only [Heap.next_update, Heap.next_alloc]
      omega
    · exact jp.get_cells_composeEvent keccak now rand hk (fun hwrites => hsafe ⟨hb, hwrites⟩) r hr
  unfold select
  cases b with
  | onlyTime now rand => exact hcompose now rand trivial _ fun _ => rfl
  | overFlow now rand =>
    dsimp only
    split
    · next hbusy => exact hcompose now rand hbusy _ fun _ => rfl
    · exact .ok ⟨hk, fun _ => rfl⟩
  | witnessR =>
    dsimp only
    split
    · exact .error
    · exact .bind (.self _) fun _ _ => .ok ⟨hk, fun _ => rfl⟩
  | eventNorm => dsimp only; split <;> first | exact .error | exact .ok ⟨hk, fun _ => rfl⟩
  | witnessL => dsimp only; split <;> first | exact .error | exact .ok ⟨hk, fun _ => rfl⟩
  | request => dsimp only; split <;> first | exact .error | exact .ok ⟨hk, fun _ => rfl⟩

namespace NodeState

variable {s : NodeState}

/-- `RoundLoop` changes numbers behind pointers only when it opens a round. -/
theorem get_cells_roundLoopStep (hk : k < s.graph.cells.next) :
    Ensures s.roundLoopStep fun r => k < r.1.graph.cells.next ∧
      (¬ s.Rewrites k .roundLoop → r.1.graph.cells.get k = s.graph.cells.get k) := by
  unfold roundLoopStep
  split
  · exact .ok ⟨hk, fun _ => rfl⟩
  · next hidle =>
    split
    · exact .error
    · next v rest hq =>
      refine .bind (JPGraph.roundLoop_cases _ v) fun r hr => .ok ?_
      obtain ⟨cell, jp₁, hcell, hjp₁, hr⟩ := hr
      have hcells : r.1.cells = jp₁.cells := by
        rcases hr with hr | ⟨i, j, -, hr⟩
        · rw [hr]
        · exact (congrArg JPGraph.cells hr :)
      change k < r.1.cells.next ∧ (_ → r.1.cells.get k = s.graph.cells.get k)
      rw [hcells, hjp₁]
      split_ifs with hopens
      · refine ⟨hk.trans_eq (Heap.next_update ..).symm, fun hsafe => ?_⟩
        have hne : k ≠ cell := by
          rintro rfl
          exact hsafe ⟨hidle, v, by rw [hq]; rfl, hcell, hopens⟩
        exact Heap.get_update_ne _ hne _
      · exact ⟨hk, fun _ => rfl⟩

/-- The number behind an old pointer changes in the steps that rewrite it only. -/
theorem get_cells_move (a : Action) (hk : k < s.graph.cells.next) :
    Ensures (s.move keccak a) fun r =>
      k < r.1.graph.cells.next ∧
        (¬ s.Rewrites k a → r.1.graph.cells.get k = s.graph.cells.get k) := by
  have hsame {jp : JPGraph} (h : jp.cells = s.graph.cells) :
      k < jp.cells.next ∧ (¬ s.Rewrites k a → jp.cells.get k = s.graph.cells.get k) := by
    rw [h]
    exact ⟨hk, fun _ => rfl⟩
  intro r hr
  cases s.move_spec keccak a r hr with
  | handle b t ht hnext =>
    rw [hnext]
    exact get_cells_eventHandle keccak s.handler b hk t ht
  | receive msg pick hd hhd hnext =>
    rw [hnext]
    rcases handle_cases s.graph msg pick hd hhd with heq | ⟨-, ch, -, hput⟩
    · exact hsame (congrArg JPGraph.cells heq)
    · have hcells := (putEvent_spec _ ch _ _ hput).1
      dsimp only
      rw [hcells]
      unfold JPGraph.receive
      split
      · exact hsame rfl
      · exact ⟨by simp only [Heap.next_alloc]; omega, fun _ => Heap.get_alloc_of_lt hk _⟩
  | add i call jp pc _ hstep hnext =>
    rw [hnext]
    exact hsame (call.step_keeps keccak s.graph _ hstep).cells
  | send i hnext => exact hsame (congrArg (fun s' => s'.graph.cells) hnext)
  | cast i hnext => exact hsame (congrArg (fun s' => s'.graph.cells) hnext)
  | trigger _ _ _ => exact get_cells_roundLoopStep hk r hr
  | roundLoop _ _ _ _ _ _ _ _ => exact get_cells_roundLoopStep hk r hr
  | monitor order m jp hstep hnext =>
    rw [hnext]
    refine hsame ?_
    cases monitorStep_effect s.monitor s.graph order _ hstep with
    | front i _ _ _ hgraph => exact congrArg JPGraph.cells hgraph
    | receive i v rest _ _ _ hgraph => exact hgraph.alike.neutral.cells
    | put v _ _ hgraph => exact (congrArg JPGraph.cells hgraph :)
    | mark v _ _ hgraph => exact (congrArg JPGraph.cells hgraph :)
    | trigger v _ _ hgraph => exact (congrArg JPGraph.cells hgraph :)
  | consensusShow rest hnext => exact hsame (congrArg (fun s' => s'.graph.cells) hnext)

end NodeState

end Hashgrid.Node
