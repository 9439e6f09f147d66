import Hashgrid.Core.Compose
import Hashgrid.Core.Rounds

/-!
# The skeleton of the graph

What is left of the graph without other links, colours, newcomers, lost parents, requests
and transactions. `RoundLoop` and the search of `AddEvent` in the round queue read and
write the skeleton only, and most of the other sections leave it alone.
-/

namespace Hashgrid.Core

open Hashgrid.Bytes Hashgrid.Machine

/-- The loop of `RandParent` counts references only. -/
theorem map_targetHash_randParentLoop (except : Address) (chosen i : ℕ) (ret : RequestArg)
    (newComer : List RequestArg) :
    (randParentLoop except chosen i ret newComer).2.map RequestArg.targetHash =
      newComer.map RequestArg.targetHash := by
  induction newComer generalizing i ret with
  | nil => rfl
  | cons arg rest ih =>
    unfold randParentLoop
    split_ifs
    · rfl
    · exact congrArg (List.cons _) (ih _ _)
    · exact congrArg (List.cons _) (ih _ _)

/-- `RandParent` counts references only. -/
theorem Round.map_targetHash_randParent (rd : Round) (except : Address) (rand : ℕ) :
    (rd.randParent except rand).1.map RequestArg.targetHash =
      rd.newComer.map RequestArg.targetHash := by
  unfold Round.randParent
  split_ifs
  · rfl
  · dsimp only
    split_ifs <;> exact map_targetHash_randParentLoop _ _ _ _ _

/-- A vertex without its other link and its colours. -/
def Vertex.bare (vert : Vertex) : Vertex := { vert with anotherPt := none, color := [] }

/-- A round without newcomers and lost parents. -/
def Round.bare (rd : Round) : Round := { rd with lostDict := ∅, newComer := [], ncLocked := false }

namespace JPGraph

/-- The graph without other links, colours, newcomers, lost parents, requests and
transactions. -/
def skeleton (jp : JPGraph) : JPGraph :=
  { jp with
    verts := jp.verts.map Vertex.bare
    rounds := jp.rounds.map Round.bare
    requestChan := []
    transUnHandled := [] }

/-- The graphs have the same skeleton. -/
def Alike (jp jp' : JPGraph) : Prop := jp'.skeleton = jp.skeleton

theorem Alike.refl (jp : JPGraph) : Alike jp jp := rfl

theorem Alike.trans {jp jp' jp'' : JPGraph} (h : Alike jp jp') (h' : Alike jp' jp'') :
    Alike jp jp'' :=
  Eq.trans h' h

section Reads

variable {jp jp' : JPGraph}

theorem vert_skeleton (jp : JPGraph) (v : ℕ) : jp.skeleton.vert v = (jp.vert v).bare :=
  Heap.get_map (g := Vertex.bare) rfl jp.verts v

theorem round_skeleton (jp : JPGraph) (i : ℕ) : jp.skeleton.round i = (jp.round i).bare :=
  Heap.get_map (g := Round.bare) rfl jp.rounds i

variable {β : Type}

theorem Alike.read {g : JPGraph → β} (hg : ∀ jp : JPGraph, g jp.skeleton = g jp)
    (h : Alike jp jp') : g jp' = g jp := by
  rw [← hg jp', ← hg jp, h]

theorem Alike.vert {g : Vertex → β} (hg : ∀ vert : Vertex, g vert.bare = g vert) (h : Alike jp jp')
    (v : ℕ) : g (jp'.vert v) = g (jp.vert v) :=
  h.read (g := fun jp => g (jp.vert v)) fun jp => by rw [vert_skeleton, hg]

theorem Alike.round {g : Round → β} (hg : ∀ rd : Round, g rd.bare = g rd) (h : Alike jp jp')
    (i : ℕ) : g (jp'.round i) = g (jp.round i) :=
  h.read (g := fun jp => g (jp.round i)) fun jp => by rw [round_skeleton, hg]

theorem Alike.next (h : Alike jp jp') : jp'.verts.next = jp.verts.next :=
  h.read (g := fun jp => jp.verts.next) fun _ => Heap.next_map ..

theorem Alike.event (h : Alike jp jp') (v : ℕ) :
    (jp'.vert v).event = (jp.vert v).event :=
  h.vert (g := Vertex.event) (fun _ => by rfl) v

theorem Alike.witness (h : Alike jp jp') (v : ℕ) :
    (jp'.vert v).witness = (jp.vert v).witness :=
  h.vert (g := Vertex.witness) (fun _ => by rfl) v

theorem Alike.selfPt (h : Alike jp jp') (v : ℕ) :
    (jp'.vert v).selfPt = (jp.vert v).selfPt :=
  h.vert (g := Vertex.selfPt) (fun _ => by rfl) v

theorem Alike.seqNum (h : Alike jp jp') (v : ℕ) :
    (jp'.vert v).seqNum = (jp.vert v).seqNum :=
  h.vert (g := Vertex.seqNum) (fun _ => by rfl) v

theorem Alike.rounds (h : Alike jp jp') : jp'.rounds.next = jp.rounds.next :=
  h.read (g := fun jp => jp.rounds.next) fun _ => Heap.next_map ..

theorem Alike.index (h : Alike jp jp') (i : ℕ) :
    (jp'.round i).index = (jp.round i).index :=
  h.round (g := Round.index) (fun _ => by rfl) i

theorem Alike.witnesses (h : Alike jp jp') (i : ℕ) :
    (jp'.round i).witnesses = (jp.round i).witnesses :=
  h.round (g := Round.witnesses) (fun _ => by rfl) i

theorem Alike.roundBroadness (h : Alike jp jp') (i : ℕ) :
    (jp'.round i).broadness = (jp.round i).broadness :=
  h.round (g := Round.broadness) (fun _ => by rfl) i

theorem Alike.cols (h : Alike jp jp') : jp'.cols = jp.cols :=
  h.read fun _ => by rfl

theorem Alike.graph (h : Alike jp jp') : jp'.graph = jp.graph :=
  h.read fun _ => by rfl

theorem Alike.cells (h : Alike jp jp') : jp'.cells = jp.cells :=
  h.read fun _ => by rfl

theorem Alike.coinbase (h : Alike jp jp') : jp'.coinbase = jp.coinbase :=
  h.read fun _ => by rfl

theorem Alike.broadness (h : Alike jp jp') : jp'.broadness = jp.broadness :=
  h.read fun _ => by rfl

theorem Alike.roundTrigger (h : Alike jp jp') : jp'.roundTrigger = jp.roundTrigger :=
  h.read fun _ => by rfl

theorem Alike.selfEventCreated (h : Alike jp jp') : jp'.selfEventCreated = jp.selfEventCreated :=
  h.read fun _ => by rfl

theorem Alike.col (h : Alike jp jp') (c : ℕ) : jp'.col c = jp.col c :=
  congrArg (Heap.get · c) h.cols

end Reads

section Sections

theorem alike_setRound (jp : JPGraph) (i : ℕ) {f : Round → Round}
    (hf : ∀ rd, (f rd).bare = rd.bare) : Alike jp (jp.setRound i f) := by
  simp only [Alike, skeleton, setRound, Heap.map_update_of_eq hf]

theorem alike_setVert (jp : JPGraph) (v : ℕ) {f : Vertex → Vertex}
    (hf : ∀ vert, (f vert).bare = vert.bare) : Alike jp (jp.setVert v f) := by
  simp only [Alike, skeleton, setVert, Heap.map_update_of_eq hf]

/-- The section under the lock of the other column. -/
theorem alike_linkOther (jp : JPGraph) (v : ℕ) (oc : Option ℕ) :
    Alike jp (jp.linkOther v oc).1 := by
  unfold linkOther
  split
  · exact alike_setVert jp v fun _ => by rfl
  · exact .refl jp

theorem alike_requestParentEvent (jp : JPGraph) (v : ℕ) : Alike jp (jp.requestParentEvent v) := rfl

/-- The entry in `newComer`. -/
theorem alike_addComer (jp : JPGraph) (i : ℕ) (rqa : RequestArg) :
    Ensures (jp.addComer i rqa) (Alike jp) := by
  unfold addComer
  split_ifs
  · exact .error
  · exact .ok (alike_setRound jp i fun _ => by rfl)
  · exact .ok (alike_setRound jp i fun _ => by rfl)

/-- The section under the lock of the lost parents. -/
theorem alike_updateLost (jp : JPGraph) (i v : ℕ) (linkpost : Bool) :
    Alike jp (jp.updateLost i v linkpost) := by
  have hpatch : Alike jp (jp.patchLost i v) := by
    unfold patchLost
    split
    · exact .refl jp
    · simp only [Alike, skeleton]
      rw [Heap.map_updateAll_of_eq fun _ => by rfl, Heap.map_update_of_eq fun _ => by rfl]
  unfold updateLost
  dsimp only
  split_ifs
  · exact hpatch.trans (alike_setRound _ i fun _ => by rfl)
  · exact hpatch

/-- What `AddEvent` does in the round of a new vertex. -/
theorem alike_joinRound (jp : JPGraph) (v : ℕ) (linkpost : Bool) (round : Option ℕ) :
    Ensures (jp.joinRound v linkpost round) (Alike jp) := by
  cases round with
  | none => exact .ok (.refl jp)
  | some i =>
    exact .bind (alike_addComer jp i _) fun jp' h => .ok (h.trans (alike_updateLost jp' i v _))

/-- No transaction is taken into the event, and only the transactions that wait change. -/
theorem takeTrans_cases (jp : JPGraph) :
    Ensures jp.takeTrans fun r => r.2 = [] ∧ ∃ ts, (jp.transUnHandled = [] → ts = []) ∧
      r.1 = { jp with transUnHandled := ts } := by
  unfold takeTrans
  dsimp only
  split_ifs
  · exact .ok ⟨rfl, jp.transUnHandled, id, rfl⟩
  · exact .ok ⟨by simp [copySlice], _, fun hnone => by simp [hnone], rfl⟩
  · exact .error

/-- Choosing the other parent of a composed event counts in newcomers only. -/
theorem chooseOther_cases (jp : JPGraph) (i rand : ℕ) :
    Ensures (jp.chooseOther i rand) fun r => r.1 = jp ∨
      ∃ newComer, newComer.map RequestArg.targetHash =
          (jp.round i).newComer.map RequestArg.targetHash ∧
        r.1 = jp.setRound i fun rd => { rd with newComer := newComer } := by
  unfold chooseOther
  cases (jp.round i).bestVertex with
  | some v => exact .ok (Or.inl rfl)
  | none =>
    dsimp only
    split_ifs
    · exact .error
    · have hhashes := (jp.round i).map_targetHash_randParent jp.coinbase rand
      generalize (jp.round i).randParent jp.coinbase rand = chosen at hhashes
      obtain ⟨newComer, arg⟩ := chosen
      cases arg <;> exact .ok (Or.inr ⟨newComer, hhashes, rfl⟩)

theorem alike_chooseOther (jp : JPGraph) (i rand : ℕ) :
    Ensures (jp.chooseOther i rand) fun r => Alike jp r.1 := by
  intro r hr
  rcases jp.chooseOther_cases i rand r hr with hr | ⟨newComer, -, hr⟩
  · rw [hr]
    exact .refl jp
  · rw [hr]
    exact alike_setRound jp i fun _ => by rfl

/-- The choice reads neither round numbers nor transactions. -/
theorem chooseOther_with (jp : JPGraph) (cells : Heap ℤ) (ts : List (Option Transaction))
    (i rand : ℕ) : JPGraph.chooseOther { jp with cells := cells, transUnHandled := ts } i rand =
      (jp.chooseOther i rand).map fun r =>
        ({ r.1 with cells := cells, transUnHandled := ts }, r.2) := by
  unfold chooseOther round vert
  cases (jp.rounds.get i).bestVertex with
  | some v => rfl
  | none =>
    dsimp only
    split_ifs
    · rfl
    · generalize (jp.rounds.get i).randParent jp.coinbase rand = chosen
      obtain ⟨newComer, arg⟩ := chosen
      cases arg <;> rfl

/-- The pointer through which `ComposeEvent` writes: that of the newest vertex of this node, or
else a new one. -/
def composePointer (jp : JPGraph) (c : ℕ) : Option ℕ :=
  match (jp.col c).verTop with
  | some v => (jp.vert v).event.roundID
  | none => some jp.cells.next

theorem composeOn_snd (jp : JPGraph) (verTop : Option ℕ) (cell : ℕ) :
    (jp.composeOn verTop cell).2 = match verTop with
      | some v => (jp.vert v).event.roundID
      | none => some cell := by
  cases verTop <;> rfl

/-- A call of `ComposeEvent` that returns the pair `r`, where this node has column `c`, the front
round is `i` and the number of that round is written through the pointer `k`. -/
structure Composes (keccak : List UInt8 → Hash) (jp : JPGraph) (now : ℤ) (rand : ℕ)
    (r : JPGraph × Event ℕ) (c i k : ℕ) : Prop where
  column : jp.graph.lookup jp.coinbase = some c
  front : jp.queue.head? = some i
  pointer : jp.composePointer c = some k
  /-- The other parent is chosen, transactions are cut off, and the number is written. -/
  graph : ∃ jp₁ ts, jp.chooseOther i rand = .ok (jp₁, r.2.otherPartH, r.2.otherPartA) ∧
    (jp.transUnHandled = [] → ts = []) ∧ r.1 = { jp₁ with
      transUnHandled := ts
      cells := (jp.cells.alloc jp.currentIdx).update k fun _ => (jp.round i).index }
  stamp : r.2.timeStamp = some now
  trans : r.2.trans = []
  creator : r.2.selfSig.addr = jp.coinbase
  roundID : r.2.roundID = some k
  hash : r.2.selfHash = r.2.hash keccak

/-- What `ComposeEvent` does when it returns. -/
theorem composeEvent_composes (keccak : List UInt8 → Hash) (jp : JPGraph) (now : ℤ) (rand : ℕ) :
    Ensures (jp.composeEvent keccak now rand) fun r =>
      ∃ c i k, Composes keccak jp now rand r c i k := by
  unfold composeEvent
  refine .bind (takeTrans_cases _) fun r hr => ?_
  obtain ⟨_, _⟩ := r
  obtain ⟨rfl, ts, hts, rfl⟩ := hr
  dsimp only
  split
  · next c i hc hi =>
    rw [chooseOther_with]
    cases hchoose : jp.chooseOther i rand with
    | error stop => exact .error
    | ok r =>
      have halike := alike_chooseOther jp i rand r hchoose
      obtain ⟨jp₁, otherPartH, otherPartA⟩ := r
      simp only [Except.map, bind, Except.bind]
      split
      · next k hk =>
        refine .ok ⟨c, i, k, hc, hi, (composeOn_snd ..).symm.trans hk,
          ⟨jp₁, ts, hchoose, hts, ?_⟩, rfl, rfl, halike.coinbase, hk, rfl⟩
        rw [← halike.index i]
        rfl
      · exact .error
  · exact .error

/-- Changes of colours. -/
theorem SameButColors.alike {jp jp' : JPGraph} (h : SameButColors jp jp') : Alike jp jp' := by
  have hverts : jp'.verts.map Vertex.bare = jp.verts.map Vertex.bare := by
    simp only [Heap.map, Heap.mk.injEq]
    refine List.ext_getElem? fun v => ?_
    have hnext : jp'.verts.objs.length = jp.verts.objs.length := h.next
    have hvert := h.vert v
    simp only [JPGraph.vert, Heap.get, List.getD_eq_getElem?_getD] at hvert
    simp only [List.getElem?_map]
    by_cases hv : v < jp.verts.objs.length
    · have hv' : v < jp'.verts.objs.length := hnext ▸ hv
      rw [List.getElem?_eq_getElem hv, List.getElem?_eq_getElem hv'] at hvert ⊢
      have hbare := congrArg (fun vert : Vertex => { vert with anotherPt := none }) hvert
      exact congrArg some hbare
    · rw [List.getElem?_eq_none (by omega), List.getElem?_eq_none (by omega)]
  rw [Alike, h.rest]
  simp only [skeleton, hverts]

end Sections

end JPGraph

end Hashgrid.Core
