import Hashgrid.Core.References
import Hashgrid.Core.SiteLinks
import Hashgrid.Node.Pointers

/-!
# Events in the columns of their creators

`AddNode` looks an address up and stores a new column in separate sections. Two calls for one
address may both store a column, and the events in the first one are in no column any more. As
long as a column is stored only for an address that has none, columns keep what they hold, and
every call of `AddEvent` puts its event into the column of the creator.
-/

namespace Hashgrid.Core

open Hashgrid.Bytes Hashgrid.Machine Hashgrid.Node

/-- The next section of a call stores no column for an address that has one. -/
def AddCall.Anew (call : AddCall) (jp : JPGraph) : Prop :=
  match call.pc with
  | .selfInsert _ _ => jp.graph.lookup call.event.selfSig.addr = none
  | .otherInsert _ _ => jp.graph.lookup call.event.otherPartA = none
  | _ => True

instance (jp : JPGraph) : (call : AddCall) → Decidable (call.Anew jp)
  | ⟨e, _, .selfInsert _ _⟩ => inferInstanceAs (Decidable (jp.graph.lookup e.selfSig.addr = none))
  | ⟨e, _, .otherInsert _ _⟩ => inferInstanceAs (Decidable (jp.graph.lookup e.otherPartA = none))
  | ⟨_, _, .start⟩ | ⟨_, _, .selfCheck _ _⟩ | ⟨_, _, .selfMajority _ _ _ _⟩
  | ⟨_, _, .otherCheck _ _⟩ | ⟨_, _, .otherMajority _ _ _ _⟩ | ⟨_, _, .insert _ _ _⟩
  | ⟨_, _, .existed _⟩ | ⟨_, _, .trigger _⟩ | ⟨_, _, .link _ _ _ _⟩ | ⟨_, _, .request _ _ _⟩
  | ⟨_, _, .record _ _ _ _⟩ | ⟨_, _, .comer _ _ _⟩ | ⟨_, _, .lost _ _ _⟩ | ⟨_, _, .created _⟩ =>
    isTrue trivial

namespace JPGraph

variable {jp jp' jp'' : JPGraph}

/-- Addresses keep their columns, and columns keep what they hold. -/
structure ColumnsStay (jp jp' : JPGraph) : Prop where
  /-- Addresses keep their columns. -/
  lookup : ∀ a c, jp.graph.lookup a = some c → jp'.graph.lookup a = some c
  /-- Columns keep their vertices. -/
  chain : ∀ c k v, (jp.col c).hashChain.lookup k = some v → (jp'.col c).hashChain.lookup k = some v

theorem ColumnsStay.trans (h : ColumnsStay jp jp') (h' : ColumnsStay jp' jp'') :
    ColumnsStay jp jp'' :=
  ⟨fun a c hc => h'.lookup a c (h.lookup a c hc), fun c k v hv => h'.chain c k v (h.chain c k v hv)⟩

/-- A step that leaves columns alone. -/
theorem ColumnsStay.of_eq (hgraph : jp'.graph = jp.graph) (hcols : jp'.cols = jp.cols) :
    ColumnsStay jp jp' := by
  refine ⟨fun a c hc => hgraph ▸ hc, fun c k v hv => ?_⟩
  unfold col
  rw [hcols]
  exact hv

variable {a : Address} {e : Event ℕ} {c : ℕ}

theorem ColumnsStay.held (h : ColumnsStay jp jp') {k : Hash} {v : ℕ} (hv : jp.held a k = some v) :
    jp'.held a k = some v := by
  obtain ⟨c, hc, hchain⟩ := Option.bind_eq_some_iff.mp hv
  exact Option.bind_eq_some_iff.mpr ⟨c, h.lookup a c hc, h.chain c k v hchain⟩

/-- Every address has a column of its own, with events of this creator. -/
structure Columned (jp : JPGraph) : Prop where
  /-- Columns are there. -/
  lt : ∀ a c, jp.graph.lookup a = some c → c < jp.cols.next
  /-- No two addresses share a column. -/
  own : ∀ a b c, jp.graph.lookup a = some c → jp.graph.lookup b = some c → a = b
  /-- The events of a column have its address. -/
  creator : ∀ a c k v, jp.graph.lookup a = some c → (jp.col c).hashChain.lookup k = some v →
    v < jp.verts.next ∧ (jp.vert v).event.selfSig.addr = a

/-- A step that leaves columns and events alone. -/
theorem Columned.same (h : Columned jp) (hgraph : jp'.graph = jp.graph) (hcols : jp'.cols = jp.cols)
    (hnext : jp.verts.next ≤ jp'.verts.next)
    (hevent : ∀ v < jp.verts.next, (jp'.vert v).event = (jp.vert v).event) : Columned jp' := by
  have hcol (c : ℕ) : jp'.col c = jp.col c := congrArg (Heap.get · c) hcols
  refine ⟨fun a c hc => ?_, fun a b c ha hb => ?_, fun a c k v hc hv => ?_⟩
  · rw [hcols]
    exact h.lt a c (hgraph ▸ hc)
  · exact h.own a b c (hgraph ▸ ha) (hgraph ▸ hb)
  · rw [hcol] at hv
    obtain ⟨hlt, hcreator⟩ := h.creator a c k v (hgraph ▸ hc) hv
    exact ⟨lt_of_lt_of_le hlt hnext, by rw [hevent v hlt]; exact hcreator⟩

theorem col_addNodeInsert (jp : JPGraph) (a : Address) (c : ℕ) : (jp.addNodeInsert a).1.col c =
    if c = jp.cols.next then newColumn jp.graph.entries.length else jp.col c :=
  jp.cols.get_alloc _ c

/-- A column for a new address. -/
theorem columnsStay_addNodeInsert (hnew : jp.graph.lookup a = none) :
    ColumnsStay jp (jp.addNodeInsert a).1 := by
  refine ⟨fun b c hc => ?_, fun c k v hv => ?_⟩
  · have hne : b ≠ a := by
      rintro rfl
      cases hnew.symm.trans hc
    exact (AList.lookup_insert_ne hne).trans hc
  · rw [col_addNodeInsert]
    split_ifs with hc
    · have hold : jp.col c = default := Heap.get_of_le hc.ge
      rw [hold] at hv
      cases hv
    · exact hv

/-- A column that is stored belongs to its address. -/
theorem Columned.addNodeInsert (h : Columned jp) (a : Address) :
    Columned (jp.addNodeInsert a).1 := by
  have hlook {b : Address} {c : ℕ} (hb : (jp.addNodeInsert a).1.graph.lookup b = some c) :
      b = a ∧ c = jp.cols.next ∨ jp.graph.lookup b = some c ∧ c < jp.cols.next := by
    by_cases hba : b = a
    · subst hba
      exact Or.inl ⟨rfl, (Option.some.inj ((AList.lookup_insert _).symm.trans hb)).symm⟩
    · have hold := (AList.lookup_insert_ne hba).symm.trans hb
      exact Or.inr ⟨hold, h.lt b c hold⟩
  have hnext : (jp.addNodeInsert a).1.cols.next = jp.cols.next + 1 := Heap.next_alloc ..
  refine ⟨fun b c hb => ?_, fun b b' c hb hb' => ?_, fun b c k v hb hv => ?_⟩
  · rw [hnext]
    rcases hlook hb with ⟨-, rfl⟩ | ⟨-, hlt⟩ <;> omega
  · rcases hlook hb with ⟨rfl, rfl⟩ | ⟨hold, hlt⟩
    · rcases hlook hb' with ⟨rfl, -⟩ | ⟨-, hlt⟩
      · rfl
      · omega
    · rcases hlook hb' with ⟨-, rfl⟩ | ⟨hold', -⟩
      · omega
      · exact h.own b b' c hold hold'
  · rw [col_addNodeInsert] at hv
    rcases hlook hb with ⟨-, rfl⟩ | ⟨hold, hlt⟩
    · rw [if_pos rfl] at hv
      cases hv
    · rw [if_neg (Nat.ne_of_lt hlt)] at hv
      exact h.creator b c k v hold hv

theorem hashChain_addNodeMajority (jp : JPGraph) (c mlen d : ℕ) :
    ((jp.addNodeMajority c mlen).col d).hashChain = (jp.col d).hashChain :=
  Heap.get_update_of_eq jp.cols c (g := Column.hashChain) (fun _ => by rfl) d

/-- The end of `AddNode`. -/
theorem Columned.addNodeMajority (h : Columned jp) (c mlen : ℕ) :
    Columned (jp.addNodeMajority c mlen) := by
  refine ⟨fun a d hd => ?_, h.own, fun a d k v hd hv => ?_⟩
  · exact lt_of_lt_of_eq (h.lt a d hd) (Heap.next_update ..).symm
  · rw [hashChain_addNodeMajority] at hv
    exact h.creator a d k v hd hv

/-- The end of `AddNode`. -/
theorem columnsStay_addNodeMajority (jp : JPGraph) (c mlen : ℕ) :
    ColumnsStay jp (jp.addNodeMajority c mlen) := by
  refine ⟨fun _ _ hd => hd, fun d k v hv => ?_⟩
  rw [hashChain_addNodeMajority]
  exact hv

/-- A vertex is put on a column that has none with its hash. -/
theorem columnsStay_withVertex (hlook : (jp.col c).hashChain.lookup e.selfHash = none) (ty : ℕ) :
    ColumnsStay jp (jp.withVertex e ty c) := by
  refine ⟨fun _ _ hd => hd, fun d k v hv => ?_⟩
  rcases jp.col_withVertex_or e ty c d with heq | ⟨rfl, heq⟩
  · rw [heq]
    exact hv
  · have hne : k ≠ e.selfHash := by
      rintro rfl
      cases hlook.symm.trans hv
    rw [heq]
    exact (AList.lookup_insert_ne hne).trans hv

/-- A vertex is put on the column of its creator. -/
theorem Columned.withVertex (h : Columned jp) (hc : jp.graph.lookup e.selfSig.addr = some c)
    (ty : ℕ) : Columned (jp.withVertex e ty c) := by
  have hext := jp.extends_withVertex e ty c
  refine ⟨fun a d hd => ?_, h.own, fun a d k v hd hv => ?_⟩
  · exact lt_of_lt_of_eq (h.lt a d hd) (Heap.next_update ..).symm
  · have hin (hv : (jp.col d).hashChain.lookup k = some v) :
        v < (jp.withVertex e ty c).verts.next ∧
          ((jp.withVertex e ty c).vert v).event.selfSig.addr = a := by
      obtain ⟨hlt, hcreator⟩ := h.creator a d k v hd hv
      exact ⟨lt_of_lt_of_le hlt hext.verts, by rw [hext.event v hlt]; exact hcreator⟩
    rcases jp.col_withVertex_or e ty c d with heq | ⟨rfl, heq⟩
    · rw [heq] at hv
      exact hin hv
    · rw [heq] at hv
      by_cases hk : k = e.selfHash
      · subst hk
        rw [AList.lookup_insert] at hv
        obtain rfl := Option.some.inj hv
        rw [next_withVertex, event_withVertex, copyEvent_eq]
        exact ⟨Nat.lt_succ_self _, h.own _ _ d hc hd⟩
      · rw [AList.lookup_insert_ne hk] at hv
        exact hin hv

theorem Columned.held_withVertex (h : Columned jp) (hc : jp.graph.lookup e.selfSig.addr = some c)
    (ty : ℕ) : (jp.withVertex e ty c).held e.selfSig.addr e.selfHash = some jp.verts.next := by
  refine Option.bind_eq_some_iff.mpr ⟨c, hc, ?_⟩
  rw [col_withVertex (h.lt _ c hc), if_pos rfl]
  exact AList.lookup_insert _

end JPGraph

/-- Columns are in order, and the call knows the column of the creator. -/
structure AddCall.Placed (jp : JPGraph) (call : AddCall) : Prop where
  /-- Columns are in order. -/
  columned : jp.Columned
  /-- The call knows the column of the creator. -/
  column : ∀ c ∈ call.pc.column, jp.graph.lookup call.event.selfSig.addr = some c

/-- What a step of a call that stores columns for new addresses only does to columns. -/
structure AddCall.Places (keccak : List UInt8 → Hash) (call : AddCall) (jp jp' : JPGraph)
    (next : Option AddPc) : Prop where
  /-- Columns keep what they hold. -/
  keeps : jp.ColumnsStay jp'
  /-- Columns stay in order. -/
  columned : call.Placed jp → jp'.Columned
  /-- The call knows the column of the creator. -/
  column : call.Placed jp → ∀ c ∈ next.bind AddPc.column,
    jp'.graph.lookup call.event.selfSig.addr = some c
  /-- A valid event that is not in its column yet is on its way, or gets there. -/
  goes : call.Placed jp → validateEvent keccak call.event = true → call.pc.vertex = none →
    (∃ pc, next = some pc ∧ pc.vertex = none) ∨
      ∃ v, jp'.held call.event.selfSig.addr call.event.selfHash = some v

section Call

variable {keccak : List UInt8 → Hash} {jp jp' : JPGraph} {call : AddCall} {next : Option AddPc}

/-- A step of a call that leaves columns alone. -/
theorem AddCall.places_same (hs : SameStore jp jp')
    (hcolumn : call.Placed jp → ∀ c ∈ next.bind AddPc.column,
      jp.graph.lookup call.event.selfSig.addr = some c)
    (hgoes : validateEvent keccak call.event = true → call.pc.vertex = none →
      ∃ pc, next = some pc ∧ pc.vertex = none) : call.Places keccak jp jp' next where
  keeps := .of_eq hs.graph hs.cols
  columned h := h.columned.same hs.graph hs.cols hs.next.ge fun v _ => hs.event v
  column h c hc := hs.graph ▸ hcolumn h c hc
  goes _ hvalid hvertex := Or.inl (hgoes hvalid hvertex)

/-- A step of `AddEvent` keeps columns, and takes a valid event to the column of its creator. -/
theorem AddCall.step_places (hanew : call.Anew jp) :
    Ensures (call.step keccak jp) fun r => call.Places keccak jp r.1 r.2 := by
  obtain ⟨e, ty, pc⟩ := call
  intro r hr
  -- Steps behind the column of the creator leave columns alone.
  have hbehind {jp' : JPGraph} (hs : SameStore jp jp') {v : ℕ} (hpc : pc.vertex = some v)
      {next : Option AddPc} (hnext : next.bind AddPc.column = none) :
      AddCall.Places keccak ⟨e, ty, pc⟩ jp jp' next := by
    refine places_same hs (fun _ c hc => ?_) fun _ hvertex => ?_
    · rw [hnext] at hc
      cases hc
    · cases hpc.symm.trans hvertex
  have hrefl : SameStore jp jp := sameStore_of_neutral (.refl jp)
  cases AddCall.step_moves keccak ⟨e, ty, pc⟩ jp r hr with
  | rejects hinvalid =>
    refine places_same hrefl (fun _ c hc => by cases hc) fun hvalid _ => ?_
    cases hinvalid.symm.trans hvalid
  | looks _ _ hnext hlook =>
    refine places_same hrefl (fun h c hc => ?_) fun _ _ => ⟨_, rfl, hnext⟩
    exact (hlook c hc).elim (h.column c) id
  | selfInsert =>
    refine ⟨JPGraph.columnsStay_addNodeInsert hanew, fun h => h.columned.addNodeInsert _,
      fun _ c hc => ?_, fun _ _ _ => Or.inl ⟨_, rfl, rfl⟩⟩
    cases hc
    exact AList.lookup_insert _
  | selfMajority oc ok2 c mlen =>
    refine ⟨jp.columnsStay_addNodeMajority c mlen, fun h => h.columned.addNodeMajority c mlen,
      fun h d hd => ?_, fun _ _ _ => Or.inl ⟨_, rfl, AddPc.vertex_afterSelf _ _ _ _⟩⟩
    cases (AddPc.column_afterSelf _ _ _ _).symm.trans hd
    exact h.column c rfl
  | otherInsert =>
    have hkeeps := JPGraph.columnsStay_addNodeInsert hanew
    exact ⟨hkeeps, fun h => h.columned.addNodeInsert _,
      fun h c hc => hkeeps.lookup _ c (h.column c hc), fun _ _ _ => Or.inl ⟨_, rfl, rfl⟩⟩
  | otherMajority sc fw c mlen =>
    exact ⟨jp.columnsStay_addNodeMajority c mlen, fun h => h.columned.addNodeMajority c mlen,
      fun h d hd => h.column d hd, fun _ _ _ => Or.inl ⟨_, rfl, rfl⟩⟩
  | @known sc v fw oc hlook =>
    refine ⟨.of_eq rfl rfl, fun h => h.columned, fun _ c hc => ?_, fun h _ _ => Or.inr ⟨v, ?_⟩⟩
    · split_ifs at hc <;> cases hc
    · exact Option.bind_eq_some_iff.mpr ⟨sc, h.column sc rfl, hlook⟩
  | @inserts sc fw oc hlook =>
    refine ⟨JPGraph.columnsStay_withVertex hlook ty,
      fun h => h.columned.withVertex (h.column sc rfl) ty, fun _ c hc => ?_,
      fun h _ _ => Or.inr ⟨_, h.columned.held_withVertex (h.column sc rfl) ty⟩⟩
    cases hc
  | existed v => exact hbehind (sameStore_markVertex jp v ty) rfl rfl
  | trigger v => exact hbehind (sameStore_triggerRound jp v) rfl rfl
  | link sc fw oc v =>
    refine hbehind (sameStore_of_neutral (jp.alike_linkOther v oc).neutral) rfl ?_
    split_ifs <;> rfl
  | request sc fw v =>
    exact hbehind (sameStore_of_neutral (jp.alike_requestParentEvent v).neutral) rfl rfl
  | @record _ v _ round _ hround =>
    have hs : SameStore jp round.1 := by
      rcases jp.recordRound_cases _ _ _ _ _ hround with heq | ⟨x, i, -, -, -, heq⟩
      · exact heq ▸ hrefl
      · have hmark := sameStore_markVertex jp v Mark.witness
        exact heq ▸ ⟨hmark.coinbase, hmark.cells, hmark.next, hmark.event, hmark.cols, hmark.graph⟩
    refine hbehind hs rfl ?_
    cases round.2 <;> rfl
  | comer _ hjp' =>
    exact hbehind (sameStore_of_neutral (jp.alike_addComer _ _ _ hjp').neutral) rfl rfl
  | lost i v linkpost =>
    exact hbehind (sameStore_of_neutral (jp.alike_updateLost i v linkpost).neutral) rfl rfl
  | created v => exact hbehind (sameStore_signalCreated jp v) rfl rfl

end Call

end Hashgrid.Core
