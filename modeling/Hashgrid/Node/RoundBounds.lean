import Hashgrid.Node.RoundCells

/-!
# How far round numbers go

The round numbers of a node stay below a bound as long as those of the incoming events do,
unless `RoundLoop` opens a round for a vertex that is marked `WitnessLocal`.
-/

namespace Hashgrid.Core.JPGraph

open Hashgrid.Bytes Hashgrid.Machine

/-- No round number is negative or above the bound. -/
structure Within (jp : JPGraph) (top : ℕ) : Prop where
  /-- The current round. -/
  current : jp.currentIdx ≤ top
  /-- The rounds of the queue. -/
  index : ∀ i, (jp.round i).index ≤ top
  /-- The numbers behind round pointers. -/
  cell : ∀ k, 0 ≤ jp.cells.get k ∧ jp.cells.get k ≤ top

variable {jp jp' : JPGraph} {top : ℕ}

theorem Within.mono (h : jp.Within top) {top' : ℕ} (hle : top ≤ top') : jp.Within top' where
  current := h.current.trans hle
  index i := (h.index i).trans hle
  cell k := ⟨(h.cell k).1, (h.cell k).2.trans (by exact_mod_cast hle)⟩

/-- A step that leaves rounds alone. -/
theorem Within.keeps (h : jp.Within top) (hrounds : jp.KeepsRounds jp')
    (hcell : ∀ k, 0 ≤ jp'.cells.get k ∧ jp'.cells.get k ≤ top) : jp'.Within top where
  current := hrounds.current.le.trans h.current
  index i := (hrounds.index i).le.trans (h.index i)
  cell := hcell

theorem Within.same (h : jp.Within top) (hrounds : jp.KeepsRounds jp')
    (hcells : jp'.cells = jp.cells) : jp'.Within top :=
  h.keeps hrounds fun k => hcells ▸ h.cell k

variable {cells : Heap ℤ} {x : ℤ}

/-- A new round number. -/
theorem get_alloc_within (h : ∀ k, 0 ≤ cells.get k ∧ cells.get k ≤ top) (hx : 0 ≤ x ∧ x ≤ top)
    (k : ℕ) : 0 ≤ (cells.alloc x).get k ∧ (cells.alloc x).get k ≤ top := by
  rw [Heap.get_alloc]
  split_ifs
  · exact hx
  · exact h k

/-- A round number is written. -/
theorem get_update_within (h : ∀ k, 0 ≤ cells.get k ∧ cells.get k ≤ top) (hx : 0 ≤ x ∧ x ≤ top)
    (cell k : ℕ) :
    0 ≤ (cells.update cell fun _ => x).get k ∧ (cells.update cell fun _ => x).get k ≤ top := by
  rcases cells.get_update_eq_or cell k fun _ => x with heq | ⟨-, heq⟩
  · rw [heq]
    exact h k
  · rw [heq]
    exact hx

/-- `ComposeEvent` writes the number of the front round. -/
theorem Within.composeEvent (h : jp.Within top) (keccak : List UInt8 → Hash) (now : ℤ)
    (rand : ℕ) : Ensures (jp.composeEvent keccak now rand) fun r => r.1.Within top := by
  intro r hr
  refine h.keeps (jp.keepsRounds_composeEvent keccak now rand r hr) ?_
  have hcurrent : (0 : ℤ) ≤ jp.currentIdx ∧ (jp.currentIdx : ℤ) ≤ top :=
    ⟨Int.natCast_nonneg _, by exact_mod_cast h.current⟩
  obtain ⟨c, i, k, hcomposes⟩ := jp.composeEvent_composes keccak now rand r hr
  obtain ⟨jp₁, ts, -, -, hgraph⟩ := hcomposes.graph
  rw [hgraph]
  refine get_update_within (get_alloc_within h.cell hcurrent) ⟨Int.natCast_nonneg _, ?_⟩ k
  exact_mod_cast h.index i

/-- An event comes in. -/
theorem Within.receive (h : jp.Within top) {e : Event ℤ} (he : ∀ x ∈ e.roundID, 0 ≤ x ∧ x ≤ top) :
    (jp.receive e).1.Within top := by
  unfold JPGraph.receive
  split
  · exact h
  · next x hx => exact ⟨h.current, h.index, get_alloc_within h.cell (he x hx)⟩

/-- A turn of `RoundLoop` opens at most one round, and one above the bound only for a local
witness. -/
theorem Within.roundLoop (h : jp.Within top) (v : ℕ) : Ensures (jp.roundLoop v) fun r =>
    jp.currentIdx ≤ r.1.currentIdx ∧ r.1.Within (max top r.1.currentIdx) ∧
      (r.1.currentIdx ≤ top ∨ (jp.vert v).witness = Mark.witnessLocal ∧
        r.1.currentIdx = jp.currentIdx + 1) := by
  intro r hr
  obtain ⟨cell, jp₁, -, hjp₁, hcases⟩ := jp.roundLoop_cases v r hr
  -- The entry in a witness table changes no number.
  have hrest : r.1.currentIdx = jp₁.currentIdx ∧ r.1.cells = jp₁.cells ∧
      ∀ i, (r.1.round i).index = (jp₁.round i).index := by
    rcases hcases with heq | ⟨i, k, -, heq⟩
    · rw [heq]
      exact ⟨rfl, rfl, fun _ => rfl⟩
    · rw [heq]
      exact ⟨rfl, rfl, (keepsRounds_setWitness jp₁ i k v).index⟩
  obtain ⟨hcurrent, hcells, hindex⟩ := hrest
  suffices hopen : jp.currentIdx ≤ jp₁.currentIdx ∧ jp₁.Within (max top jp₁.currentIdx) ∧
      (jp₁.currentIdx ≤ top ∨ (jp.vert v).witness = Mark.witnessLocal ∧
        jp₁.currentIdx = jp.currentIdx + 1) by
    rw [hcurrent]
    refine ⟨hopen.1, ⟨?_, fun i => ?_, fun k => ?_⟩, hopen.2.2⟩
    · exact hcurrent ▸ hopen.2.1.current
    · exact hindex i ▸ hopen.2.1.index i
    · exact hcells ▸ hopen.2.1.cell k
  rw [hjp₁]
  split_ifs with hopens
  · have hnew : (0 : ℤ) ≤ jp.currentIdx + 1 ∧
        (jp.currentIdx + 1 : ℤ) ≤ (max top (jp.currentIdx + 1) : ℕ) := by omega
    have h' := h.mono (le_max_left top (jp.currentIdx + 1))
    refine ⟨Nat.le_succ _, ⟨le_max_right _ _, fun i => ?_, ?_⟩, ?_⟩
    · have hget := jp.rounds.get_alloc (newRound jp.broadness (jp.currentIdx + 1)) i
      have hround : ((jp.openRound cell).round i).index ≤ max top (jp.currentIdx + 1) := by
        change ((jp.rounds.alloc _).get i).index ≤ _
        rw [hget]
        split_ifs
        · exact le_max_right _ _
        · exact h'.index i
      exact hround
    · exact get_update_within h'.cell hnew cell
    · have hopens : ((jp.vert v).witness = Mark.witnessLocal ∧ jp.cells.get cell = jp.currentIdx) ∨
          ((jp.vert v).witness = Mark.witness ∧ jp.cells.get cell = jp.currentIdx + 1) := by
        simpa [opensRound] using hopens
      rcases hopens with ⟨hlocal, -⟩ | ⟨-, hcell⟩
      · exact Or.inr ⟨hlocal, rfl⟩
      · left
        have hle := (h.cell cell).2
        change jp.currentIdx + 1 ≤ top
        omega
  · exact ⟨le_rfl, h.mono (le_max_left _ _), Or.inl h.current⟩

end Hashgrid.Core.JPGraph

namespace Hashgrid.Node.NodeState

open Hashgrid.Bytes Hashgrid.Core Hashgrid.Machine Hashgrid.Wire

/-- What a step does to the round numbers of a node. -/
structure Raises (s s' : NodeState) (a : Action) (top : ℕ) : Prop where
  /-- The current round does not go back. -/
  mono : s.graph.currentIdx ≤ s'.graph.currentIdx
  /-- The numbers stay below the bound or the current round. -/
  within : s'.graph.Within (max top s'.graph.currentIdx)
  /-- Only a local witness takes the node above the bound. -/
  raised : s'.graph.currentIdx ≤ top ∨ a = .roundLoop ∧ ∃ v,
    s.graph.roundTrigger.head? = some v ∧ (s.graph.vert v).witness = Mark.witnessLocal ∧
      s'.graph.currentIdx = s.graph.currentIdx + 1

variable {a : Action} {s : NodeState} {top : ℕ}

theorem raises_of_within {s' : NodeState} (hcurrent : s'.graph.currentIdx = s.graph.currentIdx)
    (h : s'.graph.Within top) : s.Raises s' a top :=
  ⟨hcurrent.ge, h.mono (le_max_left _ _), Or.inl h.current⟩

/-- Every step of a node, as long as the round numbers of incoming events are below the bound. -/
theorem within_move (keccak : List UInt8 → Hash) (h : s.graph.Within top)
    (hreceived : ∀ msg pick, a = .receive msg pick → msg.code = eventMsg →
      ∀ x ∈ (decodeMsg msg).roundID, 0 ≤ x ∧ x ≤ top) :
    Ensures (s.move keccak a) fun r => s.Raises r.1 a top := by
  intro r hr
  have hkeeps (ha : a ≠ .roundLoop) : s.graph.KeepsRounds r.1.graph :=
    s.move_keepsRounds keccak ha r hr
  cases s.move_spec keccak a r hr with
  | handle b t ht hnext =>
    have hrounds := hkeeps (by intro hb; cases hb)
    refine raises_of_within hrounds.current ?_
    rw [hnext] at hrounds ⊢
    cases eventHandle_cases keccak s.handler s.graph b t ht with
    | take ch e hb hhead he hg =>
      refine h.same hrounds ?_
      change t.graph.cells = s.graph.cells
      rw [hg]
      cases ch <;> rfl
    | compose now rand e hb hcomp he => exact h.composeEvent keccak now rand _ hcomp
    | idle hb he hg => exact h.same hrounds hg.cells
  | receive msg pick hd hhd hnext =>
    have hrounds := hkeeps (by intro hb; cases hb)
    refine raises_of_within hrounds.current ?_
    rw [hnext] at hrounds ⊢
    rcases handle_cases s.graph msg pick hd hhd with heq | ⟨hcode, ch, -, hput⟩
    · exact heq ▸ h
    · refine h.keeps hrounds fun k => ?_
      have hcells := (putEvent_spec _ ch _ _ hput).1
      change 0 ≤ hd.graph.cells.get k ∧ hd.graph.cells.get k ≤ top
      rw [hcells]
      exact (h.receive (hreceived msg pick rfl hcode)).cell k
  | add i call jp pc hfound hstep hnext =>
    have hrounds := hkeeps (by intro hb; cases hb)
    refine raises_of_within hrounds.current ?_
    rw [hnext] at hrounds ⊢
    exact h.same hrounds (call.step_keeps keccak s.graph _ hstep).cells
  | send i hnext =>
    rw [hnext]
    exact raises_of_within rfl h
  | cast i hnext =>
    rw [hnext]
    exact raises_of_within rfl h
  | trigger idx hidx hnext =>
    rw [hnext]
    exact raises_of_within rfl ⟨h.current, h.index, h.cell⟩
  | roundLoop v rest jp consensus hidle hhead hturn hnext =>
    rw [hnext]
    have htaken : ({ s.graph with roundTrigger := rest } : JPGraph).Within top :=
      ⟨h.current, h.index, h.cell⟩
    obtain ⟨hmono, hwithin, hraised⟩ := htaken.roundLoop v _ hturn
    refine ⟨hmono, hwithin, hraised.imp_right fun hlocal => ?_⟩
    exact ⟨rfl, v, by rw [hhead]; rfl, hlocal⟩
  | monitor order m jp hstep hnext =>
    have hrounds := hkeeps (by intro hb; cases hb)
    refine raises_of_within hrounds.current ?_
    rw [hnext] at hrounds ⊢
    refine h.same hrounds ?_
    cases monitorStep_effect s.monitor s.graph order _ hstep with
    | front i _ _ _ hgraph => exact congrArg JPGraph.cells hgraph
    | receive i v rest _ _ _ hgraph => exact hgraph.alike.neutral.cells
    | put v _ _ hgraph => exact (congrArg JPGraph.cells hgraph :)
    | mark v _ _ hgraph => exact (congrArg JPGraph.cells hgraph :)
    | trigger v _ _ hgraph => exact (congrArg JPGraph.cells hgraph :)
  | consensusShow rest hnext =>
    rw [hnext]
    exact raises_of_within rfl ⟨h.current, h.index, h.cell⟩

/-- A new node is in round 0. -/
theorem within_newNode (coinbase : Address) (broadness top : ℕ) :
    (newNode coinbase broadness).graph.Within top := by
  refine ⟨Nat.zero_le top, fun i => ?_, fun k => ?_⟩
  · have hindex : ((newNode coinbase broadness).graph.round i).index = 0 := by cases i <;> rfl
    exact hindex.le.trans (Nat.zero_le top)
  · have hcell : (newNode coinbase broadness).graph.cells.get k = 0 := rfl
    rw [hcell]
    omega

end Hashgrid.Node.NodeState
