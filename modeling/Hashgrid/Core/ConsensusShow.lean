import Hashgrid.Core.SiteLinks
import Hashgrid.Lib.SortKey

/-!
# The report of `ConsensusShow`

When a round is complete, `ConsensusShow` sorts the addresses of the columns and prints for
each of them the blocks from the top of its column back to the last witness. The order of
two addresses is that of the sums of their bytes.
-/

namespace Hashgrid.Core

open Hashgrid.Bytes Hashgrid.Machine Hashgrid.Links Hashgrid.Walks Hashgrid.Sorting

/-- The sum of the bytes of an address, as `AddrSlice.Less` computes it. -/
def byteSum (a : Address) : ℕ := (a.bytes.map UInt8.toNat).sum

/-- `AddrSlice.Less`. -/
def addrLess (a b : Address) : Bool := byteSum a < byteSum b

/-- What is known of the result of `sort.Sort(AddrSlice(addrPre))`: it is a permutation that is
ordered by `Less`. -/
def SortResult (addrPre sorted : List Address) : Prop :=
  sorted.Perm addrPre ∧ sorted.Pairwise fun a b => ¬ addrLess b a

instance (addrPre sorted : List Address) : Decidable (SortResult addrPre sorted) :=
  inferInstanceAs (Decidable (_ ∧ _))

theorem sortResult_iff {addrPre sorted : List Address} :
    SortResult addrPre sorted ↔ Sorts byteSum addrPre sorted := by
  simp only [SortResult, addrLess, decide_eq_true_eq]
  exact ⟨fun h => ⟨h.1, h.2⟩, fun h => ⟨h.perm, h.ordered⟩⟩

/-- The lines that `ConsensusShow` prints. -/
inductive ShowLine
  /-- A round is complete. -/
  | reached (idx : ℕ)
  /-- A column. -/
  | addr (a : Address)
  /-- A block of the column. -/
  | block (h : Hash)
  /-- The number of blocks so far. -/
  | total (n : ℕ)
  deriving DecidableEq

/-- The address in a line. -/
def ShowLine.address : ShowLine → Option Address
  | .addr a => some a
  | _ => none

namespace JPGraph

/-- The loop over self parents, up to the next witness. More turns than there are vertices mean
that the loop has no end. -/
def blocksFrom (jp : JPGraph) : ℕ → Option ℕ → Except Stop (List ℕ)
  | _, none => .ok []
  | 0, some _ => .error .loops
  | turns + 1, some x =>
    if (jp.vert x).witness ≠ Mark.witness then
      (jp.blocksFrom turns (jp.vert x).selfPt).map fun xs => x :: xs
    else .ok []

/-- The blocks of a column: the top, also if it is a witness, and the vertices below it up to the
next witness. -/
def columnBlocks (jp : JPGraph) (c : ℕ) : Except Stop (List ℕ) :=
  match (jp.col c).verTop with
  | none => .ok []
  | some x =>
    if (jp.vert x).witness = Mark.witness then
      (jp.blocksFrom (jp.verts.next + 1) (jp.vert x).selfPt).map fun xs => x :: xs
    else jp.blocksFrom (jp.verts.next + 1) (some x)

/-- The blocks of the column of an address. -/
def blocksOf (jp : JPGraph) (a : Address) : Except Stop (List ℕ) :=
  match jp.graph.lookup a with
  | none => .ok []
  | some c => jp.columnBlocks c

/-- The blocks that are printed, column by column. -/
def showColumns (jp : JPGraph) (addrPre : List Address) : Except Stop (List (Address × List ℕ)) :=
  addrPre.mapM fun a => (jp.blocksOf a).map fun xs => (a, xs)

/-- The lines for a column. -/
def columnLines (jp : JPGraph) (column : Address × List ℕ) : List ShowLine :=
  .addr column.1 :: column.2.map fun x => .block (jp.vert x).event.selfHash

/-- A turn of `ConsensusShow` with the sorted addresses, and the number of blocks after it. -/
def consensusShow (jp : JPGraph) (addrPre : List Address) (idx totalBlocks : ℕ) :
    Except Stop (List ShowLine × ℕ) := do
  let columns ← jp.showColumns addrPre
  let total := totalBlocks + (columns.map fun column => column.2.length).sum
  return (.reached idx :: columns.flatMap jp.columnLines ++ [.total total], total)

/-- Whatever the order of the map and the sort are, the same lines are printed. -/
def ShowsOneWay (jp : JPGraph) : Prop :=
  ∀ enum₁ enum₂ addrs₁ addrs₂ : List Address, ∀ idx totalBlocks,
    enum₁.Perm jp.graph.keys → enum₂.Perm jp.graph.keys →
    SortResult enum₁ addrs₁ → SortResult enum₂ addrs₂ →
      jp.consensusShow addrs₁ idx totalBlocks = jp.consensusShow addrs₂ idx totalBlocks

/-- `AddrSlice.Less` is a strict total order on the addresses of the columns. -/
def LessTotal (jp : JPGraph) : Prop :=
  IsStrictTotalOrder { a // a ∈ jp.graph.keys } fun a b => addrLess a b

/-- The addresses of the columns have different byte sums. -/
def SumsDiffer (jp : JPGraph) : Prop :=
  ∀ a ∈ jp.graph.keys, ∀ b ∈ jp.graph.keys, byteSum a = byteSum b → a = b

instance (jp : JPGraph) : Decidable jp.SumsDiffer :=
  inferInstanceAs (Decidable (∀ a ∈ _, ∀ b ∈ _, _))

variable {jp : JPGraph} {l : List ℕ}

/-- With enough turns, the loop visits the vertices of a walk up to the next witness. -/
theorem blocksFrom_eq {start : Option ℕ} (h : Walk (fun v => (jp.vert v).selfPt) start l)
    {turns : ℕ} (hturns : l.length ≤ turns) :
    jp.blocksFrom turns start =
      .ok (l.takeWhile fun v => (jp.vert v).witness ≠ Mark.witness) := by
  induction h generalizing turns with
  | nil => cases turns <;> rfl
  | @cons x l hrest ih =>
    cases turns with
    | zero => simp at hturns
    | succ turns =>
      by_cases hmark : (jp.vert x).witness = Mark.witness
      · simp [blocksFrom, hmark]
      · rw [blocksFrom, if_pos hmark, ih (by simpa using hturns),
          List.takeWhile_cons_of_pos (by simpa using hmark)]
        rfl

/-- The first vertices of a walk, up to the next witness after the start. -/
def upToWitness (jp : JPGraph) : List ℕ → List ℕ
  | [] => []
  | x :: l => x :: l.takeWhile fun v => (jp.vert v).witness ≠ Mark.witness

/-- A walk along self links is not longer than there are vertices. -/
theorem length_walk_le (h : Columnar jp.links) {a : Address} (hsorted : l.Pairwise (· > ·))
    (hmem : ∀ v, v ∈ l ↔ ∃ k, jp.links.chain a k = some v) : l.length ≤ jp.verts.next := by
  have hsub : l ⊆ List.range jp.verts.next := by
    intro v hv
    obtain ⟨k, hk⟩ := (hmem v).mp hv
    rw [List.mem_range, ← length_nodes_links]
    exact h.lt_of_chain hk
  have hnodup : l.Nodup := hsorted.imp fun hgt => Nat.ne_of_gt hgt
  simpa using (hnodup.subperm hsub).length_le

/-- The blocks of a column are the first vertices of the walk from its top. -/
theorem blocksOf_eq (h : Columnar jp.links) (a : Address) :
    ∃ l, Walk jp.links.selfPt (jp.links.top a) l ∧ l.Pairwise (· > ·) ∧
      (∀ v, v ∈ l ↔ ∃ k, jp.links.chain a k = some v) ∧
      jp.blocksOf a = .ok (jp.upToWitness l) := by
  obtain ⟨l, hwalk, hsorted, hmem⟩ := h.walk a
  have hlen := length_walk_le h hsorted hmem
  refine ⟨l, hwalk, hsorted, hmem, ?_⟩
  have htop : jp.links.top a = (jp.graph.lookup a).bind fun c => (jp.col c).verTop := rfl
  unfold blocksOf
  cases hc : jp.graph.lookup a with
  | none =>
    rw [htop, hc, Option.bind_none] at hwalk
    cases hwalk
    rfl
  | some c =>
    rw [htop, hc, Option.bind_some] at hwalk
    dsimp only
    unfold columnBlocks
    cases hx : (jp.col c).verTop with
    | none =>
      rw [hx] at hwalk
      cases hwalk
      rfl
    | some x =>
      rw [hx] at hwalk
      cases hwalk with
      | @cons _ l hrest =>
        have hturns : (x :: l).length ≤ jp.verts.next + 1 := Nat.le_succ_of_le hlen
        dsimp only
        split_ifs with hmark
        · have hbelow : jp.blocksFrom (jp.verts.next + 1) (jp.vert x).selfPt = _ :=
            blocksFrom_eq hrest (Nat.le_of_succ_le hturns)
          rw [hbelow]
          rfl
        · rw [blocksFrom_eq (.cons hrest) hturns, List.takeWhile_cons_of_pos (by simpa using hmark)]
          rfl

/-- The walks of `ConsensusShow` end. -/
theorem exists_showColumns (h : Columnar jp.links) (addrPre : List Address) :
    ∃ columns, jp.showColumns addrPre = .ok columns := by
  unfold showColumns
  induction addrPre with
  | nil => exact ⟨[], rfl⟩
  | cons a addrPre ih =>
    obtain ⟨l, -, -, -, hblocks⟩ := jp.blocksOf_eq h a
    obtain ⟨columns, hcolumns⟩ := ih
    rw [List.mapM_cons, hblocks, hcolumns]
    exact ⟨_, rfl⟩

/-- The columns are shown in the order of the addresses. -/
theorem addresses_showColumns (jp : JPGraph) (addrPre : List Address) :
    Ensures (jp.showColumns addrPre) fun columns => columns.map Prod.fst = addrPre := by
  unfold showColumns
  induction addrPre with
  | nil => exact .ok rfl
  | cons a addrPre ih =>
    rw [List.mapM_cons]
    have hcolumn : Ensures ((jp.blocksOf a).map fun xs => (a, xs)) fun column => column.1 = a :=
      .map (.self _) fun _ _ => rfl
    refine .bind hcolumn fun column hcolumn => .bind ih fun columns hcolumns => .ok ?_
    rw [List.map_cons, hcolumn, hcolumns]

theorem filterMap_columnLines (jp : JPGraph) (column : Address × List ℕ) :
    (jp.columnLines column).filterMap ShowLine.address = [column.1] := by
  simp [columnLines, ShowLine.address, Function.comp_def]

/-- The addresses among the lines of a turn are those that were passed to it. -/
theorem addresses_consensusShow (jp : JPGraph) (addrPre : List Address) (idx totalBlocks : ℕ) :
    Ensures (jp.consensusShow addrPre idx totalBlocks) fun r =>
      r.1.filterMap ShowLine.address = addrPre := by
  refine .bind (jp.addresses_showColumns addrPre) fun columns hcolumns => .ok ?_
  have hlines : (columns.flatMap jp.columnLines).filterMap ShowLine.address =
      columns.map Prod.fst := by
    rw [List.filterMap_flatMap]
    simp only [filterMap_columnLines]
    exact List.map_eq_flatMap.symm
  simp only [List.filterMap_append, List.cons_append, List.filterMap_cons, ShowLine.address,
    List.filterMap_nil, List.append_nil]
  rw [hlines, hcolumns]

/-- The lines are the same just when the addresses are in the same order. -/
theorem consensusShow_inj (h : Columnar jp.links) {addrs₁ addrs₂ : List Address}
    {idx totalBlocks : ℕ} : jp.consensusShow addrs₁ idx totalBlocks =
      jp.consensusShow addrs₂ idx totalBlocks ↔ addrs₁ = addrs₂ := by
  refine ⟨fun heq => ?_, fun heq => by rw [heq]⟩
  obtain ⟨columns, hcolumns⟩ := exists_showColumns h addrs₁
  have hshow : ∃ r, jp.consensusShow addrs₁ idx totalBlocks = .ok r := by
    unfold consensusShow
    rw [hcolumns]
    exact ⟨_, rfl⟩
  obtain ⟨r, hr⟩ := hshow
  rw [← jp.addresses_consensusShow addrs₁ idx totalBlocks r hr]
  exact jp.addresses_consensusShow addrs₂ idx totalBlocks r (heq ▸ hr)

/-- `Less` is a strict total order just when the byte sums differ. -/
theorem lessTotal_iff_sumsDiffer (jp : JPGraph) : jp.LessTotal ↔ jp.SumsDiffer := by
  constructor
  · intro htotal a ha b hb hsum
    have hless : ¬ addrLess a b ∧ ¬ addrLess b a := by simp [addrLess, hsum]
    have htri := @IsStrictTotalOrder.toTrichotomous _ _ htotal
    exact congrArg Subtype.val (htri.trichotomous ⟨a, ha⟩ ⟨b, hb⟩ hless.1 hless.2)
  · intro hdiffer
    refine { trichotomous := fun a b hab hba => ?_, irrefl := fun a => ?_, trans := ?_ }
    · simp only [addrLess, decide_eq_true_eq, not_lt] at hab hba
      exact Subtype.ext (hdiffer a a.2 b b.2 (le_antisymm hba hab))
    · simp [addrLess]
    · intro a b c hab hbc
      simp only [addrLess, decide_eq_true_eq] at hab hbc ⊢
      exact hab.trans hbc

end JPGraph

/-- `ConsensusShow` prints the same lines for all orders of the map and all results of the sort just
when the byte sums of the addresses differ, which is when `Less` is a strict total order on them. -/
theorem showsOneWay_iff_sumsDiffer {jp : JPGraph} (h : Columnar jp.links) :
    (jp.ShowsOneWay ↔ jp.SumsDiffer) ∧ (jp.LessTotal ↔ jp.SumsDiffer) := by
  refine ⟨?_, jp.lessTotal_iff_sumsDiffer⟩
  rw [JPGraph.SumsDiffer, ← sorts_unique_iff jp.graph.keys_nodup]
  constructor
  · intro hone addrs₁ addrs₂ h₁ h₂
    have hlines := hone _ _ addrs₁ addrs₂ 0 0 (.refl _) (.refl _) (sortResult_iff.mpr h₁)
      (sortResult_iff.mpr h₂)
    exact (JPGraph.consensusShow_inj h).mp hlines
  · intro hunique enum₁ enum₂ addrs₁ addrs₂ idx totalBlocks henum₁ henum₂ h₁ h₂
    have hsorts {enum addrs : List Address} (henum : enum.Perm jp.graph.keys)
        (haddrs : SortResult enum addrs) : Sorts byteSum jp.graph.keys addrs :=
      sortResult_iff.mp ⟨haddrs.1.trans henum, haddrs.2⟩
    rw [hunique _ _ (hsorts henum₁ h₁) (hsorts henum₂ h₂)]

/-- The address whose last two bytes are the given ones. -/
def twoBytes (x y : ℕ) : Address := FixedBytes.ofNat 20 (256 * x + y)

/-- A new node with a second column. -/
def twoColumns (a b : Address) : JPGraph := ((newJPGraph a 2).addNode b).1

theorem columnar_twoColumns (a b : Address) : Columnar (twoColumns a b).links := by
  have hlinked := Site.linked_newSite a 2
  have hlinks : (twoColumns a b).links = (newSite a 2).graph.links :=
    (JPGraph.grown_addNode hlinked.wf b).links
  exact hlinks ▸ hlinked.columnar

/-- Addresses with the byte sums 3 and 4 are shown in one order. -/
theorem showsOneWay_three_four : (twoColumns (twoBytes 1 2) (twoBytes 2 2)).ShowsOneWay :=
  (showsOneWay_iff_sumsDiffer (columnar_twoColumns _ _)).1.mpr (by decide +kernel)

/-- The addresses with the last bytes 1, 2 and 2, 1 have the same byte sum, and both orders are
results of the sort. -/
theorem not_showsOneWay_three_three :
    SortResult [twoBytes 1 2, twoBytes 2 1] [twoBytes 1 2, twoBytes 2 1] ∧
      SortResult [twoBytes 2 1, twoBytes 1 2] [twoBytes 2 1, twoBytes 1 2] ∧
      ((twoColumns (twoBytes 1 2) (twoBytes 2 1)).consensusShow [twoBytes 1 2, twoBytes 2 1]
        0 0).toOption =
          some ([.reached 0, .addr (twoBytes 1 2), .addr (twoBytes 2 1), .total 0], 0) ∧
      ((twoColumns (twoBytes 1 2) (twoBytes 2 1)).consensusShow [twoBytes 2 1, twoBytes 1 2]
        0 0).toOption =
          some ([.reached 0, .addr (twoBytes 2 1), .addr (twoBytes 1 2), .total 0], 0) ∧
      ¬ (twoColumns (twoBytes 1 2) (twoBytes 2 1)).ShowsOneWay := by
  have hsort₁ : SortResult [twoBytes 1 2, twoBytes 2 1] [twoBytes 1 2, twoBytes 2 1] :=
    ⟨.refl _, by decide⟩
  have hsort₂ : SortResult [twoBytes 2 1, twoBytes 1 2] [twoBytes 2 1, twoBytes 1 2] :=
    ⟨.refl _, by decide⟩
  refine ⟨hsort₁, hsort₂, by decide +kernel, by decide +kernel, fun hone => ?_⟩
  have hlines := hone _ _ _ _ 0 0 (by decide +kernel) (by decide +kernel) hsort₁ hsort₂
  have hsame := (JPGraph.consensusShow_inj (columnar_twoColumns _ _)).mp hlines
  exact absurd hsame (by decide)

end Hashgrid.Core
