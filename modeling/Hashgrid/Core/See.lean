import Hashgrid.Core.Graph
import Hashgrid.Lib.Machine

/-!
# See and strong see

`clearColorDFS`, `dfsVisit` and `JudgeSee` of `core/round.go`. All they change is the
colours of vertices.
-/

namespace Hashgrid.Core

open Hashgrid.Bytes Hashgrid.Machine

namespace JPGraph

/-- Set the colour of a vertex in a cluster. -/
def paint (jp : JPGraph) (cluster : ℕ) (color : Color) (v : ℕ) : JPGraph :=
  jp.setVert v fun vert => { vert with color := vert.color.set cluster color }

/-- The first loop of `clearColorDFS` on a column: the newest vertex of the round. More turns
than there are vertices in the column mean that the loop has no end. -/
def findOfRound (jp : JPGraph) (c idx : ℕ) : ℕ → Option ℕ → Except Stop (Option ℕ)
  | _, none => .ok none
  | 0, some _ => .error .loops
  | turns + 1, some s => do
    let r ← jp.derefRound (jp.vert s).event
    if r = idx then return some s
    else jp.findOfRound c idx turns ((jp.col c).hashChain.lookup (jp.vert s).event.selfPart)

/-- The second loop of `clearColorDFS` on a column. -/
def whiten (c idx cluster : ℕ) : ℕ → Option ℕ → JPGraph → Except Stop JPGraph
  | _, none, jp => .ok jp
  | 0, some _, _ => .error .loops
  | turns + 1, some s, jp => do
    let r ← jp.derefRound (jp.vert s).event
    if r = idx then
      whiten c idx cluster turns ((jp.col c).hashChain.lookup (jp.vert s).event.selfPart)
        (jp.paint cluster .white s)
    else return jp

/-- `clearColorDFS` on one column. The starter of an earlier column stays when this one has no
vertex of the round. -/
def clearColumn (idx cluster : ℕ) (st : JPGraph × Option ℕ) (a : Address) :
    Except Stop (JPGraph × Option ℕ) :=
  match st.1.graph.lookup a with
  | none => .ok st
  | some c => do
    let turns := (st.1.col c).hashChain.entries.length + 1
    let found ← st.1.findOfRound c idx turns (st.1.col c).verTop
    let starter := found <|> st.2
    let jp ← whiten c idx cluster turns starter st.1
    return (jp, starter)

/-- `clearColorDFS`, with the order in which Go walks over the columns. Anything but an order
of the columns stands for the order of the table. -/
def clearColorDFS (jp : JPGraph) (idx cluster : ℕ) (order : List Address) : Except Stop JPGraph :=
  ((if order.Perm jp.graph.keys then order else jp.graph.keys).foldlM (clearColumn idx cluster)
    (jp, none)).map Prod.fst

/-- `dfsVisit`. The colours end it before the fuel does. -/
def dfsVisit (cluster e : ℕ) : ℕ → JPGraph → List ℕ → ℕ → Except Stop (JPGraph × List ℕ)
  | 0, _, _, _ => .error .loops
  | fuel + 1, jp, marks, s =>
    let vert := jp.vert s
    let next (st : JPGraph × List ℕ) (u : Option ℕ) : Except Stop (JPGraph × List ℕ) :=
      match u with
      | none => .ok st
      | some u =>
        if (st.1.vert u).color[cluster]? = some .white then dfsVisit cluster e fuel st.1 st.2 u
        else .ok st
    if marks.length ≤ vert.seqNum then .error .indexOutOfRange
    else if s = e ∨ vert.witness = Mark.witness then .ok (jp, marks.set vert.seqNum 1)
    else do
      let st ← next (jp.paint cluster .grey s, marks.set vert.seqNum 1) vert.selfPt
      let st ← next st vert.anotherPt
      return (st.1.paint cluster .black s, st.2)

/-- The vertices that a vertex links to, in the order of `dfsVisit`. -/
def parents (jp : JPGraph) (v : ℕ) : List ℕ :=
  (jp.vert v).selfPt.toList ++ (jp.vert v).anotherPt.toList

/-- One turn of the loop of `dfsVisit` over the links of a vertex. -/
def dfsNext (cluster e fuel : ℕ) (st : JPGraph × List ℕ) (u : ℕ) :
    Except Stop (JPGraph × List ℕ) :=
  if (st.1.vert u).color[cluster]? = some .white then dfsVisit cluster e fuel st.1 st.2 u
  else .ok st

/-- `dfsVisit` as a loop over the links. -/
theorem dfsVisit_succ (cluster e fuel : ℕ) (jp : JPGraph) (marks : List ℕ) (s : ℕ) :
    dfsVisit cluster e (fuel + 1) jp marks s =
      if marks.length ≤ (jp.vert s).seqNum then .error .indexOutOfRange
      else if s = e ∨ (jp.vert s).witness = Mark.witness then
        .ok (jp, marks.set (jp.vert s).seqNum 1)
      else do
        let st ← (jp.parents s).foldlM (dfsNext cluster e fuel)
          (jp.paint cluster .grey s, marks.set (jp.vert s).seqNum 1)
        return (st.1.paint cluster .black s, st.2) := by
  have hlink (st : JPGraph × List ℕ) (u : Option ℕ) :
      u.toList.foldlM (dfsNext cluster e fuel) st =
        match u with
        | none => .ok st
        | some u => dfsNext cluster e fuel st u := by
    cases u with
    | none => rfl
    | some u => exact bind_pure _
  simp only [parents, List.foldlM_append, hlink, bind_assoc]
  rfl

/-- `JudgeSee`: whether `s` sees `e`, and whether it does so through enough columns. -/
def judgeSee (jp : JPGraph) (s e cluster : ℕ) : Except Stop (JPGraph × Bool × Bool) := do
  let marks := List.replicate jp.broadness 0
  let (jp, marks) ← dfsVisit cluster e (jp.verts.next + 1) jp marks s
  match marks[(jp.vert e).seqNum]? with
  | none => .error .indexOutOfRange
  | some t => return (jp, t = 1, jp.strongSeen marks.sum)

/-- Two graphs differ in the colours of vertices only. -/
structure SameButColors (jp jp' : JPGraph) : Prop where
  /-- Everything but the vertices stays. -/
  rest : jp' = { jp with verts := jp'.verts }
  /-- No vertex is added. -/
  next : jp'.verts.next = jp.verts.next
  /-- The vertices keep everything but their colours. -/
  vert : ∀ v, { jp'.vert v with color := [] } = { jp.vert v with color := [] }

variable (jp : JPGraph) {jp' : JPGraph} {cluster : ℕ}

theorem SameButColors.refl : SameButColors jp jp := ⟨rfl, rfl, fun _ => rfl⟩

/-- Two changes of colours in sequence. -/
theorem SameButColors.trans {jp jp'' : JPGraph} (h : SameButColors jp jp')
    (h' : SameButColors jp' jp'') : SameButColors jp jp'' where
  rest := by
    rw [h'.rest, h.rest]
  next := h'.next.trans h.next
  vert v := (h'.vert v).trans (h.vert v)

/-- One vertex is painted. -/
theorem sameButColors_paint (cluster : ℕ) (color : Color) (v : ℕ) :
    SameButColors jp (jp.paint cluster color v) where
  rest := rfl
  next := Heap.next_update ..
  vert u := jp.vert_setVert_of_eq v (g := fun x => { x with color := [] }) (fun _ => by rfl) u

/-- Vertices were painted in one cluster, and nothing else happened. -/
inductive Painted (cluster : ℕ) (jp : JPGraph) : JPGraph → Prop
  /-- Nothing was painted. -/
  | refl : Painted cluster jp jp
  /-- One more vertex was painted. -/
  | paint {jp' : JPGraph} (h : Painted cluster jp jp') (color : Color) (v : ℕ) :
      Painted cluster jp (jp'.paint cluster color v)

/-- Vertices were painted twice. -/
theorem Painted.trans {jp jp'' : JPGraph} (h : Painted cluster jp jp')
    (h' : Painted cluster jp' jp'') : Painted cluster jp jp'' := by
  induction h' with
  | refl => exact h
  | paint _ color v ih => exact ih.paint color v

/-- Painting changes colours only. -/
theorem Painted.sameButColors {jp : JPGraph} (h : Painted cluster jp jp') :
    SameButColors jp jp' := by
  induction h with
  | refl => exact .refl jp
  | paint _ color v ih => exact ih.trans (sameButColors_paint ..)

/-- The second loop of `clearColorDFS` paints vertices. -/
theorem painted_whiten (c idx cluster turns : ℕ) (s : Option ℕ) (jp : JPGraph) :
    Ensures (whiten c idx cluster turns s jp) (Painted cluster jp) := by
  induction turns generalizing s jp with
  | zero =>
    cases s with
    | none => exact .ok .refl
    | some s => exact .error
  | succ turns ih =>
    cases s with
    | none => exact .ok .refl
    | some s =>
      refine .bind (.self _) fun r _ => ?_
      split_ifs
      · intro jp' hjp'
        exact (Painted.refl.paint .white s).trans (ih _ _ jp' hjp')
      · exact .ok .refl

/-- `clearColorDFS` paints vertices. -/
theorem painted_clearColorDFS (idx cluster : ℕ) (order : List Address) :
    Ensures (jp.clearColorDFS idx cluster order) (Painted cluster jp) := by
  refine .map (Q := fun st => Painted cluster jp st.1) (.foldlM ?_ _ .refl) fun st h => h
  intro st a hst
  unfold clearColumn
  cases st.1.graph.lookup a with
  | none => exact .ok hst
  | some c =>
    refine .bind (.self _) fun found _ => ?_
    exact .bind (painted_whiten _ _ _ _ _ _) fun jp' hjp' => .ok (hst.trans hjp')

theorem sameButColors_clearColorDFS (idx cluster : ℕ) (order : List Address) :
    Ensures (jp.clearColorDFS idx cluster order) (SameButColors jp) :=
  fun jp' hjp' => (painted_clearColorDFS jp idx cluster order jp' hjp').sameButColors

/-- `dfsVisit` paints vertices. -/
theorem painted_dfsVisit (cluster e fuel : ℕ) (jp : JPGraph) (marks : List ℕ) (s : ℕ) :
    Ensures (dfsVisit cluster e fuel jp marks s) fun st => Painted cluster jp st.1 := by
  induction fuel generalizing jp marks s with
  | zero => exact .error
  | succ fuel ih =>
    have hnext (st : JPGraph × List ℕ) (u : ℕ) (hst : Painted cluster jp st.1) :
        Ensures (dfsNext cluster e fuel st u) fun st' => Painted cluster jp st'.1 := by
      unfold dfsNext
      split_ifs
      · exact fun st' hst' => hst.trans (ih _ _ _ st' hst')
      · exact .ok hst
    rw [dfsVisit_succ]
    split_ifs
    · exact .error
    · exact .ok .refl
    · refine .bind (.foldlM hnext _ (Painted.refl.paint .grey s)) fun st hst => ?_
      exact .ok (hst.paint .black s)

theorem sameButColors_dfsVisit (cluster e fuel : ℕ) (jp : JPGraph) (marks : List ℕ) (s : ℕ) :
    Ensures (dfsVisit cluster e fuel jp marks s) fun st => SameButColors jp st.1 :=
  fun st hst => (painted_dfsVisit cluster e fuel jp marks s st hst).sameButColors

/-- `JudgeSee` paints vertices. -/
theorem painted_judgeSee (s e cluster : ℕ) :
    Ensures (jp.judgeSee s e cluster) fun r => Painted cluster jp r.1 := by
  refine .bind (painted_dfsVisit _ _ _ _ _ _) fun st hst => ?_
  dsimp only
  split
  · exact .error
  · exact .ok hst

end JPGraph

end Hashgrid.Core
