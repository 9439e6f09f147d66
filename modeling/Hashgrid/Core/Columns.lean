import Hashgrid.Core.LinkView

/-!
# New columns

`AddNode` in terms of the abstract graph: a new column is empty, so nothing changes there.
-/

namespace Hashgrid.Core

open Hashgrid.Bytes Hashgrid.Machine Hashgrid.Links

namespace JPGraph

/-- Columns may have been added, and nothing else that links depend on has changed. -/
structure Grown (jp jp' : JPGraph) : Prop where
  /-- Columns stay apart. -/
  wf : jp'.Wf
  /-- New columns are empty. -/
  links : jp'.links = jp.links
  /-- The vertices stay. -/
  verts : jp'.verts = jp.verts
  /-- The rounds stay. -/
  rounds : jp'.rounds = jp.rounds
  /-- The round numbers of events stay. -/
  cells : jp'.cells = jp.cells
  /-- Known addresses keep their columns. -/
  keeps : ∀ b c, jp.graph.lookup b = some c → jp'.graph.lookup b = some c

variable {jp : JPGraph} {a : Address}

theorem Grown.refl (hwf : jp.Wf) : Grown jp jp :=
  ⟨hwf, rfl, rfl, rfl, rfl, fun _ _ h => h⟩

theorem Grown.trans {jp' jp'' : JPGraph} (h : Grown jp jp') (h' : Grown jp' jp'') : Grown jp jp'' :=
  ⟨h'.wf, h'.links.trans h.links, h'.verts.trans h.verts, h'.rounds.trans h.rounds,
    h'.cells.trans h.cells, fun b c hb => h'.keeps b c (h.keeps b c hb)⟩

/-- The columns after a new one was added. -/
theorem col_addNode_new (hnew : jp.graph.lookup a = none) (c : ℕ) :
    (jp.addNode a).1.col c =
      if c = jp.cols.next then newColumn jp.graph.entries.length else jp.col c := by
  have hcol : (jp.addNode a).1.cols = (jp.cols.alloc (newColumn jp.graph.entries.length)).update
      jp.cols.next fun cl => { cl with verTop := none } := by
    simp only [addNode, hnew, addNodeInsert, addNodeMajority, setCol]
  unfold col
  rw [hcol, Heap.get_update (by simp)]
  split
  · simp [newColumn]
  · next hc => rw [Heap.get_alloc, if_neg hc]

theorem graph_addNode_new (hnew : jp.graph.lookup a = none) :
    (jp.addNode a).1.graph = jp.graph.insert a jp.cols.next := by
  simp only [addNode, hnew, addNodeInsert, addNodeMajority, setCol]

theorem lookup_addNode_of_ne {b : Address} (hnew : jp.graph.lookup a = none) (hb : b ≠ a) :
    (jp.addNode a).1.graph.lookup b = jp.graph.lookup b := by
  rw [graph_addNode_new hnew, AList.lookup_insert_ne hb]

/-- `AddNode` returns the column of the address. -/
theorem lookup_addNode (jp : JPGraph) (a : Address) :
    (jp.addNode a).1.graph.lookup a = some (jp.addNode a).2 := by
  cases h : jp.graph.lookup a with
  | some c => simp only [addNode, h]
  | none =>
    rw [graph_addNode_new h, AList.lookup_insert]
    simp only [addNode, h, addNodeInsert]

/-- A new column belongs to the new address only. -/
theorem wf_addNode_new (hwf : jp.Wf) (hnew : jp.graph.lookup a = none) : (jp.addNode a).1.Wf := by
  have hnext : (jp.addNode a).1.cols.next = jp.cols.next + 1 := by
    simp only [addNode, hnew, addNodeInsert, addNodeMajority, setCol, Heap.next_update,
      Heap.next_alloc]
  have hself {c : ℕ} (hc : (jp.addNode a).1.graph.lookup a = some c) : c = jp.cols.next := by
    rw [graph_addNode_new hnew, AList.lookup_insert] at hc
    exact (Option.some.inj hc).symm
  have hold {b : Address} {c : ℕ} (hb : b ≠ a)
      (hc : (jp.addNode a).1.graph.lookup b = some c) : jp.graph.lookup b = some c := by
    rwa [lookup_addNode_of_ne hnew hb] at hc
  constructor
  · intro b c hc
    by_cases hb : b = a
    · have := hself (hb ▸ hc)
      omega
    · have := hwf.col_lt b c (hold hb hc)
      omega
  · intro b b' c hc hc'
    by_cases hb : b = a <;> by_cases hb' : b' = a
    · exact hb.trans hb'.symm
    · have := hself (hb ▸ hc)
      have := hwf.col_lt b' c (hold hb' hc')
      omega
    · have := hself (hb' ▸ hc')
      have := hwf.col_lt b c (hold hb hc)
      omega
    · exact hwf.col_inj b b' c (hold hb hc) (hold hb' hc')

/-- Whatever is empty in a new column looks the same under every address. -/
theorem bind_col_addNode_new {β : Type} (hwf : jp.Wf) (hnew : jp.graph.lookup a = none)
    {g : Column → Option β} (hg : g (newColumn jp.graph.entries.length) = none) (b : Address) :
    ((jp.addNode a).1.graph.lookup b).bind (fun c => g ((jp.addNode a).1.col c)) =
      (jp.graph.lookup b).bind fun c => g (jp.col c) := by
  by_cases hb : b = a
  · subst hb
    rw [graph_addNode_new hnew, AList.lookup_insert, hnew]
    simp [col_addNode_new hnew, hg]
  · rw [lookup_addNode_of_ne hnew hb]
    cases hc : jp.graph.lookup b with
    | none => rfl
    | some c =>
      have hlt := hwf.col_lt b c hc
      simp [col_addNode_new hnew, Nat.ne_of_lt hlt]

/-- `AddNode` adds at most an empty column. -/
theorem grown_addNode (hwf : jp.Wf) (a : Address) : Grown jp (jp.addNode a).1 := by
  cases hnew : jp.graph.lookup a with
  | some c =>
    have hsame : (jp.addNode a).1 = jp := by simp only [addNode, hnew]
    rw [hsame]
    exact Grown.refl hwf
  | none =>
    have hverts : (jp.addNode a).1.verts = jp.verts := by
      simp only [addNode, hnew, addNodeInsert, addNodeMajority, setCol]
    have hrounds : (jp.addNode a).1.rounds = jp.rounds := by
      simp only [addNode, hnew, addNodeInsert, addNodeMajority, setCol]
    have hcells : (jp.addNode a).1.cells = jp.cells := by
      simp only [addNode, hnew, addNodeInsert, addNodeMajority, setCol]
    refine ⟨wf_addNode_new hwf hnew, ?_, hverts, hrounds, hcells, ?_⟩
    · have hchain (b : Address) (h : Hash) :=
        bind_col_addNode_new hwf hnew (g := fun cl => cl.hashChain.lookup h) rfl b
      have htop := bind_col_addNode_new hwf hnew (g := fun cl => cl.verTop) rfl
      simp only [links, vert, round, hverts, hrounds, hchain, htop]
    · intro b c hc
      have hb : b ≠ a := by
        rintro rfl
        rw [hnew] at hc
        cases hc
      rw [lookup_addNode_of_ne hnew hb, hc]

theorem fst_lookupColumns (jp : JPGraph) (e : Event ℕ) :
    (jp.lookupColumns e).1 = jp.graph.lookup e.selfSig.addr := by
  unfold lookupColumns
  dsimp only
  split <;> rfl

/-- The creator's column. -/
theorem selfColumnOf_spec (hwf : jp.Wf) (e : Event ℕ) :
    Grown jp (jp.selfColumnOf e (jp.lookupColumns e).1).1 ∧
      (jp.selfColumnOf e (jp.lookupColumns e).1).1.graph.lookup e.selfSig.addr =
        some (jp.selfColumnOf e (jp.lookupColumns e).1).2.1 := by
  rw [fst_lookupColumns]
  cases h : jp.graph.lookup e.selfSig.addr with
  | some c => exact ⟨Grown.refl hwf, h⟩
  | none => exact ⟨grown_addNode hwf _, lookup_addNode jp _⟩

/-- The column of the other parent, found before or after the creator's column was added. -/
theorem otherColumnOf_spec {jp₁ : JPGraph} (h : Grown jp jp₁) (e : Event ℕ) :
    Grown jp₁ (jp₁.otherColumnOf e (jp.lookupColumns e).2.1 (jp.lookupColumns e).2.2).1 ∧
      (jp₁.otherColumnOf e (jp.lookupColumns e).2.1 (jp.lookupColumns e).2.2).2 =
        (otherColumnName e).bind
          (jp₁.otherColumnOf e (jp.lookupColumns e).2.1
            (jp.lookupColumns e).2.2).1.graph.lookup := by
  unfold lookupColumns otherColumnName
  dsimp only
  by_cases hzero : e.otherPartA = FixedBytes.zero 20
  · rw [if_neg (not_not.mpr (FixedBytes.compare_eq_zero.mpr hzero)), if_pos hzero]
    exact ⟨Grown.refl h.wf, rfl⟩
  · rw [if_pos (fun h => hzero (FixedBytes.compare_eq_zero.mp h)), if_neg hzero]
    dsimp only
    unfold otherColumnOf
    cases hc : jp.graph.lookup e.otherPartA with
    | some c =>
      rw [Option.isSome_some, if_pos rfl]
      exact ⟨Grown.refl h.wf, (h.keeps _ c hc).symm⟩
    | none =>
      rw [Option.isSome_none, if_neg (by decide)]
      exact ⟨grown_addNode h.wf _, (lookup_addNode jp₁ _).symm⟩

end JPGraph

end Hashgrid.Core
