import Hashgrid.Core.ConsensusShow
import Hashgrid.Core.Retrieve

/-!
# How often a block is counted

`ConsensusShow` next to all other activities of a node. It takes a complete round from
`consensusTrigger`, sorts the addresses, and then walks back in one column after the
other. Between two columns other goroutines run. It does not remember where an earlier
walk began, so blocks are counted twice or left out unless there is exactly one new
witness in every column between two rounds.
-/

namespace Hashgrid.Core

open Hashgrid.Bytes Hashgrid.Machine Hashgrid.Links Hashgrid.Walks

/-- The first witness on a walk along self links. -/
def JPGraph.witnessFrom (jp : JPGraph) : ℕ → Option ℕ → Option ℕ
  | _, none => none
  | 0, some _ => none
  | turns + 1, some x =>
    if (jp.vert x).witness = Mark.witness then some x
    else jp.witnessFrom turns (jp.vert x).selfPt

/-- A node with its `ConsensusShow`. -/
structure ShowSite where
  /-- The node. -/
  site : Site
  /-- The sorted addresses that are still to be shown in this turn. -/
  addrPre : List Address
  /-- `totalBlocks`. -/
  totalBlocks : ℕ

/-- What happens next. -/
inductive ShowMove
  /-- A move of the node. -/
  | move (m : Move)
  /-- `ConsensusShow` receives a round and sorts the addresses. -/
  | take (sorted : List Address)
  /-- `ConsensusShow` walks back in the next column. -/
  | column

namespace ShowSite

/-- One step. A walk in a column holds the lock of the column. The output of a walk is the address
with the vertices that were counted. -/
def step (keccak : List UInt8 → Hash) (s : ShowSite) :
    ShowMove → Except Stop (ShowSite × List (Address × List ℕ))
  | .move m => (s.site.step keccak m).map fun site => ({ s with site := site }, [])
  | .take sorted =>
    match s.addrPre, s.site.graph.consensusTrigger with
    | [], _ :: rest =>
      if SortResult s.site.graph.graph.keys sorted then
        .ok ({ s with
          site := { s.site with graph := { s.site.graph with consensusTrigger := rest } }
          addrPre := sorted }, [])
      else .error .blocked
    | _, _ => .error .blocked
  | .column =>
    match s.addrPre with
    | [] => .error .blocked
    | a :: rest => (s.site.graph.blocksOf a).map fun xs =>
      ({ s with addrPre := rest, totalBlocks := s.totalBlocks + xs.length }, [(a, xs)])

end ShowSite

/-- A new node. -/
def newShowSite (coinbase : Address) (broadness : ℕ) : ShowSite :=
  ⟨newSite coinbase broadness, [], 0⟩

/-- The vertices that were counted. -/
def counted (log : List (Address × List ℕ)) : List ℕ := log.flatMap Prod.snd

/-- The vertex on top of a column when `ConsensusShow` last found it non-empty. -/
def lastTop (log : List (Address × List ℕ)) (a : Address) : Option ℕ :=
  (log.filterMap fun column => if column.1 = a then column.2.head? else none).getLast?

/-- Every vertex is counted at most once, and once a witness is counted, all earlier vertices of its
column are. -/
def CountsOnce (s : ShowSite × List (Address × List ℕ)) : Prop :=
  s.1.totalBlocks = (counted s.2).length ∧ (counted s.2).Nodup ∧
    ∀ v ∈ counted s.2, (s.1.site.graph.vert v).witness = Mark.witness →
      ∀ u < v, (s.1.site.graph.vert u).event.selfSig.addr =
        (s.1.site.graph.vert v).event.selfSig.addr → u ∈ counted s.2

instance (s : ShowSite × List (Address × List ℕ)) : Decidable (CountsOnce s) :=
  inferInstanceAs (Decidable (_ ∧ _ ∧ ∀ v ∈ counted s.2, _ → ∀ u < v, _))

/-- When `ConsensusShow` walks in a column, the last witness below its top is the vertex that was on
top when it last walked there, and there is none if it did not. -/
def FollowsOn (s : ShowSite × List (Address × List ℕ)) : ShowMove → Prop
  | .column => ∀ a ∈ s.1.addrPre.head?, ∀ t ∈ s.1.site.graph.newest a,
      s.1.site.graph.witnessFrom (s.1.site.graph.verts.next + 1) (s.1.site.graph.vert t).selfPt =
        lastTop s.2 a
  | _ => True

instance (s : ShowSite × List (Address × List ℕ)) (m : ShowMove) : Decidable (FollowsOn s m) :=
  match m with
  | .column => inferInstanceAs (Decidable (∀ a ∈ s.1.addrPre.head?, ∀ t ∈ _, _))
  | .move _ => isTrue trivial
  | .take _ => isTrue trivial

theorem counted_concat (log : List (Address × List ℕ)) (column : Address × List ℕ) :
    counted (log ++ [column]) = counted log ++ column.2 := by
  simp [counted]

/-- The top of a column after a walk in a column. -/
theorem lastTop_concat (log : List (Address × List ℕ)) (a b : Address) (xs : List ℕ) :
    lastTop (log ++ [(a, xs)]) b =
      if a = b then xs.head?.or (lastTop log b) else lastTop log b := by
  unfold lastTop
  rw [List.filterMap_append]
  split_ifs with hab
  · cases xs <;> simp [hab]
  · simp [hab]

/-- The witness at which a walk stops. -/
theorem JPGraph.witnessFrom_eq {jp : JPGraph} {start : Option ℕ} {l : List ℕ}
    (h : Walk (fun v => (jp.vert v).selfPt) start l) {turns : ℕ} (hturns : l.length ≤ turns) :
    jp.witnessFrom turns start =
      (l.dropWhile fun v => (jp.vert v).witness ≠ Mark.witness).head? := by
  induction h generalizing turns with
  | nil => cases turns <;> rfl
  | @cons x l hrest ih =>
    cases turns with
    | zero => simp at hturns
    | succ turns =>
      by_cases hmark : (jp.vert x).witness = Mark.witness
      · simp [JPGraph.witnessFrom, hmark]
      · rw [JPGraph.witnessFrom, if_neg hmark, ih (by simpa using hturns),
          List.dropWhile_cons_of_pos (by simpa using hmark)]

/-- What was counted are the vertices from the last tops down. -/
structure Tallied (g : LinkGraph Hash Address) (log : List (Address × List ℕ)) : Prop where
  /-- No vertex is counted twice. -/
  nodup : (counted log).Nodup
  /-- The vertices of a column from its last top down are counted, and no others. -/
  mem : ∀ u, u ∈ counted log ↔ ∃ n t, g.nodes[u]? = some n ∧ lastTop log n.creator = some t ∧ u ≤ t
  /-- The last tops are there. -/
  lt : ∀ a t, lastTop log a = some t → t < g.nodes.length

theorem tallied_nil (g : LinkGraph Hash Address) : Tallied g [] :=
  ⟨.nil, by simp [counted, lastTop], by simp [lastTop]⟩

/-- A vertex that is added is not counted yet. -/
theorem Tallied.add {g : LinkGraph Hash Address} {log : List (Address × List ℕ)}
    (h : Tallied g log) (x : Arrival Hash Address) : Tallied (g.add x) log := by
  have hnodes : (g.add x).nodes = g.nodes ++ [x.node] := LinkGraph.add_nodes ..
  refine ⟨h.nodup, fun u => ?_, fun a t ht => ?_⟩
  · rw [h.mem]
    constructor
    · rintro ⟨n, t, hn, ht, hle⟩
      have hlt := LinkGraph.lt_of_nodes hn
      exact ⟨n, t, by rw [hnodes, List.getElem?_append_left hlt, hn], ht, hle⟩
    · rintro ⟨n, t, hn, ht, hle⟩
      have hlt := h.lt _ t ht
      rw [hnodes, List.getElem?_append_left (by omega)] at hn
      exact ⟨n, t, hn, ht, hle⟩
  · have := h.lt a t ht
    rw [hnodes, List.length_append]
    omega

/-- The vertices of a column are those of its creator. -/
theorem mem_column_iff {g : LinkGraph Hash Address} (h : Columnar g) {a : Address} {v : ℕ} :
    (∃ k, g.chain a k = some v) ↔ ∃ n, g.nodes[v]? = some n ∧ n.creator = a := by
  constructor
  · rintro ⟨k, hk⟩
    obtain ⟨n, hn, hcreator, -⟩ := h.chain a k v hk
    exact ⟨n, hn, hcreator⟩
  · rintro ⟨n, hn, rfl⟩
    exact ⟨n.hash, h.held v n hn⟩

section Column

variable {g : LinkGraph Hash Address} {log : List (Address × List ℕ)} {a : Address}

/-- A walk in an empty column. -/
theorem Tallied.empty (h : Tallied g log) (a : Address) : Tallied g (log ++ [(a, [])]) := by
  have hlast (b : Address) : lastTop (log ++ [(a, [])]) b = lastTop log b := by
    rw [lastTop_concat, List.head?_nil, Option.none_or, ite_self]
  refine ⟨?_, fun u => ?_, fun b t => ?_⟩
  · rw [counted_concat, List.append_nil]
    exact h.nodup
  · rw [counted_concat, List.append_nil, h.mem]
    simp only [hlast]
  · rw [hlast]
    exact h.lt b t

/-- A walk that stops at the last top counts just the vertices that were not counted before. -/
theorem Tallied.column (h : Tallied g log) (hcol : Columnar g) {t : ℕ} {taken dropped : List ℕ}
    (hsorted : (t :: (taken ++ dropped)).Pairwise (· > ·))
    (hmem : ∀ v, v ∈ t :: (taken ++ dropped) ↔ ∃ k, g.chain a k = some v)
    (hstop : dropped.head? = lastTop log a) : Tallied g (log ++ [(a, t :: taken)]) := by
  have hsplit : (t :: taken ++ dropped).Pairwise (· > ·) := hsorted
  obtain ⟨hnew, hold, hacross⟩ := List.pairwise_append.mp hsplit
  have hlast (b : Address) :
      lastTop (log ++ [(a, t :: taken)]) b = if a = b then some t else lastTop log b := by
    rw [lastTop_concat, List.head?_cons, Option.some_or]
  have hcolumn (v : ℕ) : v ∈ t :: taken ∨ v ∈ dropped ↔
      ∃ n, g.nodes[v]? = some n ∧ n.creator = a := by
    rw [← mem_column_iff hcol, ← hmem, ← List.mem_append]
    rfl
  have hle {v : ℕ} (hv : v ∈ t :: taken ∨ v ∈ dropped) : v ≤ t := by
    have hv' : v ∈ t :: (taken ++ dropped) := List.mem_append.mpr hv
    rcases List.mem_cons.mp hv' with rfl | hv'
    · exact le_rfl
    · exact Nat.le_of_lt (List.rel_of_pairwise_cons hsorted hv')
  have hdropped {v : ℕ} (hv : v ∈ dropped) : v ∈ counted log := by
    obtain ⟨n, hn, hcreator⟩ := (hcolumn v).mp (Or.inr hv)
    cases dropped with
    | nil => cases hv
    | cons d rest =>
      refine (h.mem v).mpr ⟨n, d, hn, by rw [hcreator, ← hstop, List.head?_cons], ?_⟩
      rcases List.mem_cons.mp hv with rfl | hv
      · exact le_rfl
      · exact Nat.le_of_lt (List.rel_of_pairwise_cons hold hv)
  refine ⟨?_, fun u => ?_, fun b s hs => ?_⟩
  · rw [counted_concat]
    refine List.nodup_append.mpr ⟨h.nodup, hnew.imp fun hgt => Nat.ne_of_gt hgt, ?_⟩
    rintro v hv _ hv' rfl
    -- a vertex above the last top was not counted
    obtain ⟨n, hn, hcreator⟩ := (hcolumn v).mp (Or.inl hv')
    obtain ⟨n', d, hn', hd, hle'⟩ := (h.mem v).mp hv
    cases hn.symm.trans hn'
    rw [hcreator, ← hstop] at hd
    have hgt : v > d := hacross v hv' d (List.mem_of_mem_head? hd)
    omega
  · rw [counted_concat, List.mem_append, h.mem]
    constructor
    · rintro (⟨n, d, hn, hd, hud⟩ | hu)
      · by_cases hcreator : a = n.creator
        · refine ⟨n, t, hn, by rw [hlast, if_pos hcreator], hud.trans ?_⟩
          rw [← hcreator, ← hstop] at hd
          exact hle (Or.inr (List.mem_of_mem_head? hd))
        · exact ⟨n, d, hn, by rw [hlast, if_neg hcreator, hd], hud⟩
      · obtain ⟨n, hn, hcreator⟩ := (hcolumn u).mp (Or.inl hu)
        exact ⟨n, t, hn, by rw [hlast, if_pos hcreator.symm], hle (Or.inl hu)⟩
    · rintro ⟨n, d, hn, hd, hud⟩
      rw [hlast] at hd
      split_ifs at hd with hcreator
      · rcases (hcolumn u).mpr ⟨n, hn, hcreator.symm⟩ with hu | hu
        · exact Or.inr hu
        · exact Or.inl ((h.mem u).mp (hdropped hu))
      · exact Or.inl ⟨n, d, hn, hd, hud⟩
  · rw [hlast] at hs
    split_ifs at hs
    · cases hs
      obtain ⟨n, hn, -⟩ := (hcolumn t).mp (Or.inl List.mem_cons_self)
      exact LinkGraph.lt_of_nodes hn
    · exact h.lt b s hs

end Column

/-- The columns are in order, and what was counted are the vertices from the last tops down. -/
structure ShowSite.Tallies (s : ShowSite × List (Address × List ℕ)) : Prop where
  /-- Columns and links. -/
  linked : Site.Linked s.1.site.graph
  /-- The vertices that were counted. -/
  tallied : Tallied s.1.site.graph.links s.2
  /-- Their number. -/
  total : s.1.totalBlocks = (counted s.2).length

/-- A walk that stops at the last top. -/
theorem ShowSite.Tallies.column {s : ShowSite} {log : List (Address × List ℕ)}
    (h : Tallies (s, log)) {a : Address} {rest : List Address} (ha : s.addrPre = a :: rest)
    (hfollows : FollowsOn (s, log) .column) :
    Ensures (s.site.graph.blocksOf a) fun xs =>
      Tallied s.site.graph.links (log ++ [(a, xs)]) := by
  obtain ⟨l, hwalk, hsorted, hmem, hblocks⟩ := s.site.graph.blocksOf_eq h.linked.columnar a
  have hlen : l.length ≤ s.site.graph.verts.next :=
    JPGraph.length_walk_le h.linked.columnar hsorted hmem
  rw [hblocks]
  refine .ok ?_
  cases l with
  | nil => exact h.tallied.empty a
  | cons t l =>
    have htop : s.site.graph.newest a = some t := by
      change s.site.graph.links.top a = some t
      generalize s.site.graph.links.top a = start at hwalk ⊢
      cases hwalk
      rfl
    have hrest : Walk (fun v => (s.site.graph.vert v).selfPt) (s.site.graph.vert t).selfPt l := by
      generalize s.site.graph.links.top a = start at hwalk
      cases hwalk with
      | cons hrest => exact hrest
    have hstop := hfollows a (by rw [ha]; rfl) t htop
    rw [JPGraph.witnessFrom_eq hrest (Nat.le_succ_of_le (Nat.le_of_succ_le hlen))] at hstop
    refine h.tallied.column h.linked.columnar ?_ (fun v => ?_) hstop
    · rwa [List.takeWhile_append_dropWhile]
    · rw [List.takeWhile_append_dropWhile]
      exact hmem v

variable {s : ShowSite × List (Address × List ℕ)}

/-- Every step whose walk stops at the last top keeps the tally. -/
theorem ShowSite.tallies_step {keccak : List UInt8 → Hash} (h : Tallies s) {m : ShowMove}
    (hfollows : FollowsOn s m) : Ensures (logged (ShowSite.step keccak) s m) Tallies := by
  obtain ⟨s, log⟩ := s
  intro q hq
  obtain ⟨⟨s', out⟩, hs', rfl⟩ := exists_of_map_eq_ok hq
  cases m with
  | move m =>
    obtain ⟨site, hsite, heq⟩ := exists_of_map_eq_ok hs'
    cases heq
    have hlinked := h.linked.step m site hsite
    refine ⟨hlinked, ?_, ?_⟩
    · rw [List.append_nil]
      cases hadded : s.site.added m with
      | none =>
        have hlinks := (Site.step_other hadded site hsite).links
        exact hlinks ▸ h.tallied
      | some event =>
        obtain ⟨-, -, hlinks⟩ := Site.step_added_links h.linked hadded site hsite
        change Tallied site.graph.links log
        rw [hlinks]
        split_ifs
        · exact h.tallied.add _
        · exact h.tallied
    · rw [List.append_nil]
      exact h.total
  | take sorted =>
    simp only [ShowSite.step] at hs'
    split at hs'
    · split_ifs at hs'
      cases hs'
      have hlinked := h.linked
      rw [List.append_nil]
      exact ⟨⟨⟨hlinked.wf.col_lt, hlinked.wf.col_inj⟩, hlinked.sound, hlinked.columnar,
        hlinked.waiting, hlinked.queue⟩, h.tallied, h.total⟩
    · cases hs'
  | column =>
    simp only [ShowSite.step] at hs'
    cases ha : s.addrPre with
    | nil =>
      rw [ha] at hs'
      cases hs'
    | cons a rest =>
      rw [ha] at hs'
      obtain ⟨xs, hxs, heq⟩ := exists_of_map_eq_ok hs'
      cases heq
      refine ⟨h.linked, h.column ha hfollows xs hxs, ?_⟩
      have htotal : s.totalBlocks = (counted log).length := h.total
      change s.totalBlocks + xs.length = (counted (log ++ [(a, xs)])).length
      rw [counted_concat, List.length_append, htotal]

/-- The tally counts every vertex at most once, and from a counted vertex down. -/
theorem ShowSite.Tallies.countsOnce (h : Tallies s) : CountsOnce s := by
  refine ⟨h.total, h.tallied.nodup, fun v hv _ u huv hcreator => ?_⟩
  obtain ⟨n, t, hn, ht, hle⟩ := (h.tallied.mem v).mp hv
  have hlt := LinkGraph.lt_of_nodes hn
  rw [JPGraph.length_nodes_links] at hlt
  have hnode {w : ℕ} (hw : w < s.1.site.graph.verts.next) : s.1.site.graph.links.nodes[w]? =
      some (nodeOf (s.1.site.graph.vert w).event) := by simp [JPGraph.links, hw]
  rw [hnode hlt] at hn
  cases hn
  refine (h.tallied.mem u).mpr ⟨_, t, hnode (huv.trans hlt), ?_, by omega⟩
  rw [← ht]
  exact congrArg (lastTop s.2) hcreator

/-- In every run in which each walk of `ConsensusShow` stops at the vertex that was on top when it
last walked in that column, every vertex is counted at most once, and once a witness is counted,
all earlier vertices of its column are. -/
theorem countsOnce_of_followsOn (keccak : List UInt8 → Hash) {coinbase : Address} {broadness : ℕ}
    {moves : List ShowMove} {s : ShowSite × List (Address × List ℕ)}
    (hrun : run (logged (ShowSite.step keccak)) (newShowSite coinbase broadness, []) moves = .ok s)
    (hfollows : Meets (logged (ShowSite.step keccak)) FollowsOn
      (newShowSite coinbase broadness, []) moves) : CountsOnce s := by
  have hinit : ShowSite.Tallies (newShowSite coinbase broadness, []) :=
    ⟨Site.linked_newSite coinbase broadness, tallied_nil _, rfl⟩
  have htallies := run_invariant (fun _ _ h hm => ShowSite.tallies_step h hm) hinit hfollows s hrun
  exact htallies.countsOnce

/-- Nodes `0x0a` and `0x0b` have one event each in round 0 of node `0x0a`, and a witness copy of
the second one is delivered the given number of times. Every time `ConsensusShow` runs. -/
def showCopies (n : ℕ) : List ShowMove :=
  [.move (.compose 1 0), .move (.add 0 Mark.normal), .move (.arrive eventB Mark.normal)] ++
    (List.replicate n [.move (.arrive eventB Mark.witness), .move .roundLoop,
      .take [FixedBytes.ofNat 20 0x0A, FixedBytes.ofNat 20 0x0B], .column, .column]).flatten

/-- Node `0x0a` after these moves. -/
def shownSite (n : ℕ) : ShowSite × List (Address × List ℕ) :=
  (run (logged (ShowSite.step triangleKeccak)) (newShowSite (FixedBytes.ofNat 20 0x0A) 2, [])
    (showCopies n)).toOption.getD (newShowSite (FixedBytes.ofNat 20 0x0A) 2, [])

/-- The second event of creator `0x0b`, on top of `eventB`. -/
def eventB2 : Event ℤ :=
  plainEvent 4 0x0B eventB.selfHash eventA1.selfHash 0x0A 0
    (FixedBytes.ofNat 32 0xb2c336863577da0bd165df84e60575310d71e0527efa3f7bb78f2b76262cd504)

/-- Keccak-256 on the hash inputs of two events of each creator. -/
def twiceKeccak : List UInt8 → Hash :=
  tabulated ([eventA1, eventB, secondEvent, eventB2].map fun e => (e.checkInput, e.selfHash))

/-- Node `0x0a` composes an event and gets one of node `0x0b`, first as a normal event and then as a
witness. `RoundLoop` and `ConsensusShow` run. -/
def showEvents (now : ℤ) (i : ℕ) (e : Event ℤ) : List ShowMove :=
  [.move (.compose now 0), .move (.add i Mark.normal), .move (.arrive e Mark.normal),
    .move (.arrive e Mark.witness), .move .roundLoop,
    .take [FixedBytes.ofNat 20 0x0A, FixedBytes.ofNat 20 0x0B], .column, .column]

/-- Node `0x0a` after this has happened twice. -/
def shownTwice : ShowSite × List (Address × List ℕ) :=
  (run (logged (ShowSite.step twiceKeccak)) (newShowSite (FixedBytes.ofNat 20 0x0A) 2, [])
    (showEvents 1 0 eventB ++ showEvents 3 1 eventB2)).toOption.getD
      (newShowSite (FixedBytes.ofNat 20 0x0A) 2, [])

/-- Every trigger counts the events that have come since the last one. -/
theorem countsOnce_shownTwice :
    counted shownTwice.2 = [0, 1, 2, 3] ∧ CountsOnce shownTwice := by
  have hrun : run (logged (ShowSite.step twiceKeccak))
      (newShowSite (FixedBytes.ofNat 20 0x0A) 2, [])
      (showEvents 1 0 eventB ++ showEvents 3 1 eventB2) = .ok shownTwice :=
    eq_ok_getD (by decide +kernel) _
  exact ⟨by decide +kernel, countsOnce_of_followsOn twiceKeccak hrun (by decide +kernel)⟩

/-- After the second witness copy they are counted again. -/
theorem not_countsOnce_showCopies_two :
    run (logged (ShowSite.step triangleKeccak)) (newShowSite (FixedBytes.ofNat 20 0x0A) 2, [])
        (showCopies 2) = .ok (shownSite 2) ∧
      counted (shownSite 2).2 = [0, 1, 0, 1] ∧ ¬ CountsOnce (shownSite 2) :=
  ⟨eq_ok_getD (by decide +kernel) _, by decide +kernel, by decide +kernel⟩

end Hashgrid.Core
