import Hashgrid.Core.LinkSteps
import Hashgrid.Core.LoopEffect

/-!
# References between vertices

Columns, vertices, rounds and calls refer to vertices. In every order of the steps of
`AddEvent` and of the other goroutines a reference leads to a vertex, the key under which a
vertex is stored is its hash, and a vertex that is linked to another one has named it.
-/

namespace Hashgrid.Core

open Hashgrid.Bytes Hashgrid.Machine

/-- A vertex without its mark and its colours. -/
def Vertex.thread (v : Vertex) : Event ℕ × Option ℕ × Option ℕ × ℕ :=
  (v.event, v.anotherPt, v.selfPt, v.seqNum)

/-- What a round knows about parents. -/
def Round.dicts (rd : Round) : (AList fun _ : Hash => List ℕ) × List RequestArg × Option ℕ :=
  (rd.lostDict, rd.newComer, rd.bestVertex)

namespace JPGraph

/-- Vertices stay, apart from marks and colours, and so do columns and what rounds know about
parents. -/
structure SameThreads (jp jp' : JPGraph) : Prop where
  /-- The node keeps its address. -/
  coinbase : jp'.coinbase = jp.coinbase
  /-- No vertex is added. -/
  next : jp'.verts.next = jp.verts.next
  /-- The vertices stay. -/
  vert : ∀ v, (jp'.vert v).thread = (jp.vert v).thread
  /-- The addresses stay. -/
  graph : jp'.graph = jp.graph
  /-- The columns stay. -/
  cols : jp'.cols = jp.cols
  /-- The rounds stay. -/
  round : ∀ i, (jp'.round i).dicts = (jp.round i).dicts

/-- References are right. -/
structure Referring (keccak : List UInt8 → Hash) (jp : JPGraph) : Prop where
  /-- A column has a vertex under its hash. -/
  chain : ∀ c h v, (jp.col c).hashChain.lookup h = some v →
    v < jp.verts.next ∧ (jp.vert v).event.selfHash = h
  /-- The vertex on top of a column has its number. -/
  top : ∀ c v, (jp.col c).verTop = some v →
    v < jp.verts.next ∧ (jp.vert v).seqNum = (jp.col c).seqNum
  /-- The self parent of a vertex has the same number. -/
  self : ∀ v p, (jp.vert v).selfPt = some p →
    p < jp.verts.next ∧ (jp.vert p).seqNum = (jp.vert v).seqNum
  /-- The other parent of a vertex is the one that it names. -/
  other : ∀ v p, (jp.vert v).anotherPt = some p →
    p < jp.verts.next ∧ (jp.vert p).event.selfHash = (jp.vert v).event.otherPartH
  /-- A vertex waits for the parent that it names. -/
  lost : ∀ i h us, (jp.round i).lostDict.lookup h = some us → ∀ u ∈ us,
    u < jp.verts.next ∧ (jp.vert u).event.otherPartH = h
  /-- The newcomers of a round are vertices. -/
  comer : ∀ i, ∀ n ∈ (jp.round i).newComer, ∃ v < jp.verts.next,
    (jp.vert v).event.selfHash = n.targetHash ∧ (jp.vert v).event.selfSig.addr = n.targetAddr
  /-- No round prefers a vertex. -/
  best : ∀ i, (jp.round i).bestVertex = none
  /-- The events of vertices are valid. -/
  valid : ∀ v < jp.verts.next, validateEvent keccak (jp.vert v).event = true

/-- Vertices stay with their events, their self parents and their numbers. -/
structure Extends (jp jp' : JPGraph) : Prop where
  /-- The node keeps its address. -/
  coinbase : jp'.coinbase = jp.coinbase
  /-- Vertices stay. -/
  verts : jp.verts.next ≤ jp'.verts.next
  /-- Their events stay. -/
  event : ∀ v < jp.verts.next, (jp'.vert v).event = (jp.vert v).event
  /-- Their self parents stay. -/
  selfPt : ∀ v < jp.verts.next, (jp'.vert v).selfPt = (jp.vert v).selfPt
  /-- Their numbers stay. -/
  seqNum : ∀ v < jp.verts.next, (jp'.vert v).seqNum = (jp.vert v).seqNum

variable {keccak : List UInt8 → Hash} {jp jp' jp'' : JPGraph}

theorem Extends.refl (jp : JPGraph) : Extends jp jp :=
  ⟨rfl, le_rfl, fun _ _ => rfl, fun _ _ => rfl, fun _ _ => rfl⟩

/-- Two steps. -/
theorem Extends.trans (h : Extends jp jp') (h' : Extends jp' jp'') : Extends jp jp'' where
  coinbase := h'.coinbase.trans h.coinbase
  verts := h.verts.trans h'.verts
  event v hv := (h'.event v (lt_of_lt_of_le hv h.verts)).trans (h.event v hv)
  selfPt v hv := (h'.selfPt v (lt_of_lt_of_le hv h.verts)).trans (h.selfPt v hv)
  seqNum v hv := (h'.seqNum v (lt_of_lt_of_le hv h.verts)).trans (h.seqNum v hv)

/-- Vertices do not change. -/
theorem Extends.of_verts (hcoinbase : jp'.coinbase = jp.coinbase) (h : jp'.verts = jp.verts) :
    Extends jp jp' where
  coinbase := hcoinbase
  verts := (congrArg Heap.next h).ge
  event v _ := congrArg (fun verts : Heap Vertex => (verts.get v).event) h
  selfPt v _ := congrArg (fun verts : Heap Vertex => (verts.get v).selfPt) h
  seqNum v _ := congrArg (fun verts : Heap Vertex => (verts.get v).seqNum) h

namespace SameThreads

protected theorem refl (jp : JPGraph) : SameThreads jp jp :=
  ⟨rfl, rfl, fun _ => rfl, rfl, rfl, fun _ => rfl⟩

/-- Two steps. -/
protected theorem trans (h : SameThreads jp jp') (h' : SameThreads jp' jp'') :
    SameThreads jp jp'' where
  coinbase := h'.coinbase.trans h.coinbase
  next := h'.next.trans h.next
  vert v := (h'.vert v).trans (h.vert v)
  graph := h'.graph.trans h.graph
  cols := h'.cols.trans h.cols
  round i := (h'.round i).trans (h.round i)

/-- A step that leaves vertices, columns and rounds alone. -/
theorem of_eq (h : (jp'.coinbase, jp'.verts, jp'.graph, jp'.cols, jp'.rounds) =
    (jp.coinbase, jp.verts, jp.graph, jp.cols, jp.rounds)) : SameThreads jp jp' := by
  simp only [Prod.mk.injEq] at h
  obtain ⟨hcoinbase, hverts, hgraph, hcols, hrounds⟩ := h
  refine ⟨hcoinbase, congrArg Heap.next hverts, fun v => ?_, hgraph, hcols, fun i => ?_⟩
  · exact congrArg (fun verts : Heap Vertex => (verts.get v).thread) hverts
  · exact congrArg (fun rounds : Heap Round => (rounds.get i).dicts) hrounds

variable (h : SameThreads jp jp')
include h

theorem event (v : ℕ) : (jp'.vert v).event = (jp.vert v).event := congrArg Prod.fst (h.vert v)

theorem anotherPt (v : ℕ) : (jp'.vert v).anotherPt = (jp.vert v).anotherPt :=
  congrArg (fun t => t.2.1) (h.vert v)

theorem selfPt (v : ℕ) : (jp'.vert v).selfPt = (jp.vert v).selfPt :=
  congrArg (fun t => t.2.2.1) (h.vert v)

theorem seqNum (v : ℕ) : (jp'.vert v).seqNum = (jp.vert v).seqNum :=
  congrArg (fun t => t.2.2.2) (h.vert v)

theorem lostDict (i : ℕ) : (jp'.round i).lostDict = (jp.round i).lostDict :=
  congrArg Prod.fst (h.round i)

theorem newComer (i : ℕ) : (jp'.round i).newComer = (jp.round i).newComer :=
  congrArg (fun t => t.2.1) (h.round i)

theorem bestVertex (i : ℕ) : (jp'.round i).bestVertex = (jp.round i).bestVertex :=
  congrArg (fun t => t.2.2) (h.round i)

/-- What is there stays. -/
theorem extends_ : Extends jp jp' where
  coinbase := h.coinbase
  verts := h.next.ge
  event v _ := h.event v
  selfPt v _ := h.selfPt v
  seqNum v _ := h.seqNum v

end SameThreads

/-- Links and lost parents change. -/
structure Relinks (jp jp' : JPGraph) : Prop where
  /-- The node keeps its address. -/
  coinbase : jp'.coinbase = jp.coinbase
  /-- No vertex is added. -/
  next : jp'.verts.next = jp.verts.next
  /-- Events, self parents and numbers stay. -/
  vert : ∀ v, (jp'.vert v).event = (jp.vert v).event ∧ (jp'.vert v).selfPt = (jp.vert v).selfPt ∧
    (jp'.vert v).seqNum = (jp.vert v).seqNum
  /-- A new link leads to the parent that is named. -/
  other : ∀ v p, (jp'.vert v).anotherPt = some p → (jp.vert v).anotherPt = some p ∨
    p < jp.verts.next ∧ (jp.vert p).event.selfHash = (jp.vert v).event.otherPartH
  /-- Columns stay. -/
  cols : jp'.cols = jp.cols
  /-- A vertex that waits names the parent. -/
  lost : ∀ i h us, (jp'.round i).lostDict.lookup h = some us → ∀ u ∈ us,
    u < jp.verts.next ∧ (jp.vert u).event.otherPartH = h
  /-- Newcomers and the preferred vertex stay. -/
  round : ∀ i, (jp'.round i).newComer = (jp.round i).newComer ∧
    (jp'.round i).bestVertex = (jp.round i).bestVertex

/-- What is there stays. -/
theorem Relinks.extends_ (hr : Relinks jp jp') : Extends jp jp' where
  coinbase := hr.coinbase
  verts := hr.next.ge
  event v _ := (hr.vert v).1
  selfPt v _ := (hr.vert v).2.1
  seqNum v _ := (hr.vert v).2.2

/-- Links to named parents keep references right. -/
theorem Referring.relinks (h : Referring keccak jp) (hr : Relinks jp jp') :
    Referring keccak jp' := by
  have hevent := fun v => (hr.vert v).1
  have hcol (c : ℕ) : jp'.col c = jp.col c := congrArg (Heap.get · c) hr.cols
  refine ⟨fun c k v hv => ?_, fun c v hv => ?_, fun v p hp => ?_, fun v p hp => ?_,
    fun i k us hus u hu => ?_, fun i n hn => ?_, fun i => ?_, fun v hv => ?_⟩
  · rw [hcol] at hv
    rw [hr.next, hevent]
    exact h.chain c k v hv
  · rw [hcol] at hv
    rw [hr.next, hcol, (hr.vert v).2.2]
    exact h.top c v hv
  · rw [(hr.vert v).2.1] at hp
    rw [hr.next, (hr.vert v).2.2, (hr.vert p).2.2]
    exact h.self v p hp
  · rw [hr.next, hevent, hevent]
    exact (hr.other v p hp).elim (h.other v p) id
  · rw [hr.next, hevent]
    exact hr.lost i k us hus u hu
  · rw [(hr.round i).1] at hn
    obtain ⟨v, hv, hhash, haddr⟩ := h.comer i n hn
    exact ⟨v, hr.next ▸ hv, by rw [hevent]; exact hhash, by rw [hevent]; exact haddr⟩
  · rw [(hr.round i).2]
    exact h.best i
  · rw [hevent]
    exact h.valid v (hr.next ▸ hv)

/-- A step that keeps the vertices, the columns and the parents keeps references right. -/
theorem Referring.same (h : Referring keccak jp) (hs : SameThreads jp jp') :
    Referring keccak jp' := by
  refine h.relinks ⟨hs.coinbase, hs.next, fun v => ⟨hs.event v, hs.selfPt v, hs.seqNum v⟩,
    fun v p hp => ?_, hs.cols, fun i k us hus => ?_, fun i => ⟨hs.newComer i, hs.bestVertex i⟩⟩
  · exact Or.inl (hs.anotherPt v ▸ hp)
  · exact h.lost i k us (hs.lostDict i ▸ hus)

theorem sameThreads_verts (jp : JPGraph) {verts : Heap Vertex} (hnext : verts.next = jp.verts.next)
    (hvert : ∀ v, (verts.get v).thread = (jp.vert v).thread) :
    SameThreads jp { jp with verts := verts } :=
  ⟨rfl, hnext, hvert, rfl, rfl, fun _ => rfl⟩

variable {f : Round → Round} {v : ℕ} {except : Address} {n : RequestArg} {ws : List ℕ} {k : Hash}

theorem sameThreads_setRound (jp : JPGraph) (i : ℕ) (hf : ∀ rd, (f rd).dicts = rd.dicts) :
    SameThreads jp (jp.setRound i f) :=
  ⟨rfl, rfl, fun _ => rfl, rfl, rfl, Heap.get_update_of_eq jp.rounds i hf⟩

theorem sameThreads_markVertex (jp : JPGraph) (v ty : ℕ) : SameThreads jp (jp.markVertex v ty) :=
  sameThreads_verts jp (Heap.next_update ..)
    (Heap.get_update_of_eq jp.verts v (g := Vertex.thread) fun _ => by rfl)

theorem sameThreads_setWitness (jp : JPGraph) (i k v : ℕ) :
    SameThreads jp (jp.setWitness i k v) :=
  sameThreads_setRound jp i fun _ => by rfl

theorem sameThreads_triggerRound (jp : JPGraph) (v : ℕ) : SameThreads jp (jp.triggerRound v) :=
  .of_eq rfl

/-- A new vertex is announced. -/
theorem sameThreads_signalCreated (jp : JPGraph) (v : ℕ) : SameThreads jp (jp.signalCreated v) := by
  unfold signalCreated
  split
  · exact .of_eq rfl
  · exact .refl jp

/-- The search in the round queue. -/
theorem sameThreads_recordRound (jp : JPGraph) (firstWitness : Bool) (ty c v : ℕ) :
    Ensures (jp.recordRound firstWitness ty c v) fun r => SameThreads jp r.1 := by
  intro r hr
  rcases jp.recordRound_cases firstWitness ty c v r hr with heq | ⟨x, i, -, -, -, heq⟩
  · rw [heq]
    exact .refl jp
  · rw [heq]
    exact (jp.sameThreads_markVertex v _).trans (sameThreads_setWitness _ _ _ _)

/-- A new round knows no parents. -/
theorem sameThreads_openRound (jp : JPGraph) (cell : ℕ) : SameThreads jp (jp.openRound cell) := by
  refine ⟨rfl, rfl, fun _ => rfl, rfl, rfl, fun i => ?_⟩
  have hget := jp.rounds.get_alloc (newRound jp.broadness (jp.currentIdx + 1)) i
  by_cases hi : i = jp.rounds.next
  · have hold : jp.round i = default := Heap.get_of_le hi.ge
    rw [if_pos hi] at hget
    rw [hold]
    exact (congrArg Round.dicts hget).trans (by rfl)
  · rw [if_neg hi] at hget
    exact congrArg Round.dicts hget

/-- A turn of `RoundLoop`. -/
theorem sameThreads_roundLoop (jp : JPGraph) (v : ℕ) :
    Ensures (jp.roundLoop v) fun r => SameThreads jp r.1 := by
  intro r hr
  obtain ⟨cell, jp₁, -, hjp₁, hcases⟩ := jp.roundLoop_cases v r hr
  have hopen : SameThreads jp jp₁ := by
    rw [hjp₁]
    split_ifs
    · exact jp.sameThreads_openRound cell
    · exact .refl jp
  rcases hcases with heq | ⟨i, k, -, heq⟩
  · rw [heq]
    exact hopen
  · rw [heq]
    exact hopen.trans (sameThreads_setWitness _ _ _ _)

/-- Painting keeps vertices. -/
theorem SameButColors.sameThreads (h : SameButColors jp jp') : SameThreads jp jp' := by
  have hrest := h.rest
  have hvert := h.vert
  have hnext := h.next
  generalize jp'.verts = verts at hrest hnext
  subst hrest
  refine sameThreads_verts jp hnext fun v => ?_
  have hthread := congrArg Vertex.thread (hvert v)
  exact hthread

/-- References stay right when the newcomers of a round change, if they are vertices. -/
theorem Referring.setComers (h : Referring keccak jp) (i : ℕ)
    (hlost : ∀ rd, (f rd).lostDict = rd.lostDict) (hbest : ∀ rd, (f rd).bestVertex = rd.bestVertex)
    (hcomer : ∀ n ∈ (f (jp.round i)).newComer, ∃ v < jp.verts.next,
      (jp.vert v).event.selfHash = n.targetHash ∧ (jp.vert v).event.selfSig.addr = n.targetAddr) :
    Referring keccak (jp.setRound i f) where
  chain := h.chain
  top := h.top
  self := h.self
  other := h.other
  lost j k us hus := h.lost j k us
    ((Heap.get_update_of_eq jp.rounds i (g := Round.lostDict) hlost j).symm ▸ hus)
  comer j n hn := by
    have hround := jp.rounds.get_update_eq_or i j f
    rcases hround with heq | ⟨rfl, heq⟩
    · have hsame : ((jp.setRound i f).round j) = jp.round j := heq
      rw [hsame] at hn
      exact h.comer j n hn
    · have hnew : ((jp.setRound j f).round j) = f (jp.round j) := heq
      rw [hnew] at hn
      exact hcomer n hn
  best j := (Heap.get_update_of_eq jp.rounds i (g := Round.bestVertex) hbest j).trans (h.best j)
  valid := h.valid

/-- A vertex is entered as a newcomer. -/
theorem Referring.addComer (h : Referring keccak jp) (i : ℕ) (hv : v < jp.verts.next) :
    Ensures (jp.addComer i (jp.comerOf v)) fun jp' =>
      Referring keccak jp' ∧ jp.Extends jp' ∧ jp'.verts.next = jp.verts.next := by
  unfold JPGraph.addComer
  split_ifs
  · exact .error
  · exact .ok ⟨h.setComers i (fun _ => by rfl) (fun _ => by rfl) (h.comer i),
      .of_verts rfl rfl, rfl⟩
  · refine .ok ⟨h.setComers i (fun _ => by rfl) (fun _ => by rfl) fun n hn => ?_,
      .of_verts rfl rfl, rfl⟩
    rcases List.mem_append.mp hn with hn | hn
    · exact h.comer i n hn
    · obtain rfl := List.mem_singleton.mp hn
      exact ⟨v, hv, rfl, rfl⟩

/-- The loop of `RandParent` keeps what the entries refer to. -/
theorem exists_of_mem_randParentLoop {chosen i : ℕ} {ret : RequestArg} {comers : List RequestArg}
    (hn : n ∈ (randParentLoop except chosen i ret comers).2) :
    ∃ m ∈ comers, m.targetHash = n.targetHash ∧ m.targetAddr = n.targetAddr := by
  induction comers generalizing i ret with
  | nil => cases hn
  | cons arg rest ih =>
    have hlater {i : ℕ} {ret : RequestArg}
        (hn : n ∈ arg :: (randParentLoop except chosen i ret rest).2) :
        ∃ m ∈ arg :: rest, m.targetHash = n.targetHash ∧ m.targetAddr = n.targetAddr := by
      rcases List.mem_cons.mp hn with rfl | hn
      · exact ⟨n, List.mem_cons_self, rfl, rfl⟩
      · obtain ⟨m, hm, hsame⟩ := ih hn
        exact ⟨m, List.mem_cons_of_mem _ hm, hsame⟩
    rw [randParentLoop] at hn
    split_ifs at hn
    · rcases List.mem_cons.mp hn with rfl | hn
      · exact ⟨arg, List.mem_cons_self, rfl, rfl⟩
      · exact ⟨n, List.mem_cons_of_mem _ hn, rfl, rfl⟩
    · exact hlater hn
    · exact hlater hn

/-- `RandParent` keeps what the entries refer to. -/
theorem exists_of_mem_randParent {rd : Round} {rand : ℕ} (hn : n ∈ (rd.randParent except rand).1) :
    ∃ m ∈ rd.newComer, m.targetHash = n.targetHash ∧ m.targetAddr = n.targetAddr := by
  unfold Round.randParent at hn
  split_ifs at hn
  · exact ⟨n, hn, rfl, rfl⟩
  · dsimp only at hn
    split_ifs at hn <;> exact exists_of_mem_randParentLoop hn

/-- Choosing the other parent keeps references right. -/
theorem Referring.chooseOther (h : Referring keccak jp) (i rand : ℕ) :
    Ensures (jp.chooseOther i rand) fun r => Referring keccak r.1 ∧ r.1.verts = jp.verts ∧
      ∀ j, (r.1.round j).lostDict = (jp.round j).lostDict := by
  unfold JPGraph.chooseOther
  rw [h.best i]
  dsimp only
  split_ifs
  · exact .error
  · have hmem := fun n (hn : n ∈ ((jp.round i).randParent jp.coinbase rand).1) =>
      exists_of_mem_randParent hn
    generalize (jp.round i).randParent jp.coinbase rand = chosen at hmem
    obtain ⟨newComer, arg⟩ := chosen
    have hset : Referring keccak (jp.setRound i fun rd => { rd with newComer := newComer }) := by
      refine h.setComers i (fun _ => by rfl) (fun _ => by rfl) fun n hn => ?_
      obtain ⟨m, hm, hhash, haddr⟩ := hmem n hn
      obtain ⟨v, hv, hhash', haddr'⟩ := h.comer i m hm
      exact ⟨v, hv, hhash'.trans hhash, haddr'.trans haddr⟩
    have hdict := Heap.get_update_of_eq jp.rounds i
      (f := fun rd => { rd with newComer := newComer }) (g := Round.lostDict) fun _ => by rfl
    cases arg <;> exact .ok ⟨hset, rfl, hdict⟩

/-- Composing an event keeps references right. -/
theorem Referring.composeEvent (h : Referring keccak jp) (now : ℤ) (rand : ℕ) :
    Ensures (jp.composeEvent keccak now rand) fun r =>
      Referring keccak r.1 ∧ r.1.verts = jp.verts ∧
        ∀ j, (r.1.round j).lostDict = (jp.round j).lostDict := by
  intro r hr
  obtain ⟨c, i, k, hcomposes⟩ := jp.composeEvent_composes keccak now rand r hr
  obtain ⟨jp₁, ts, hchoose, -, hgraph⟩ := hcomposes.graph
  obtain ⟨href, hverts, hdict⟩ := h.chooseOther i rand _ hchoose
  rw [hgraph]
  exact ⟨href.same (.of_eq rfl), hverts, hdict⟩

/-- A new column has no vertices. -/
theorem Referring.addNodeInsert (h : Referring keccak jp) (a : Address) :
    Referring keccak (jp.addNodeInsert a).1 := by
  have hcol (c : ℕ) : (jp.addNodeInsert a).1.col c = jp.col c ∨
      (jp.addNodeInsert a).1.col c = newColumn jp.graph.entries.length := by
    have hget := jp.cols.get_alloc (newColumn jp.graph.entries.length) c
    split_ifs at hget
    · exact Or.inr hget
    · exact Or.inl hget
  refine ⟨fun c k v hv => ?_, fun c v hv => ?_, h.self, h.other, h.lost, h.comer, h.best,
    h.valid⟩
  · rcases hcol c with heq | heq
    · rw [heq] at hv
      exact h.chain c k v hv
    · rw [heq] at hv
      cases hv
  · rcases hcol c with heq | heq
    · rw [heq] at hv ⊢
      exact h.top c v hv
    · rw [heq] at hv
      cases hv

/-- The end of `AddNode` keeps references right. -/
theorem Referring.addNodeMajority (h : Referring keccak jp) (c mlen : ℕ) :
    Referring keccak (jp.addNodeMajority c mlen) := by
  have hchain := Heap.get_update_of_eq jp.cols c (f := fun cl => { cl with verTop := none })
    (g := Column.hashChain) fun _ => by rfl
  have hnum := Heap.get_update_of_eq jp.cols c (f := fun cl => { cl with verTop := none })
    (g := Column.seqNum) fun _ => by rfl
  refine ⟨fun c' k v hv => h.chain c' k v ((hchain c').symm ▸ hv), fun c' v hv => ?_, h.self,
    h.other, h.lost, h.comer, h.best, h.valid⟩
  have hlook : ((jp.cols.update c fun cl => { cl with verTop := none }).get c').verTop =
      some v := hv
  rcases jp.cols.get_update_eq_or c c' fun cl => { cl with verTop := none } with heq | ⟨rfl, heq⟩
  · rw [heq] at hlook
    exact ⟨(h.top c' v hlook).1, (h.top c' v hlook).2.trans (hnum c').symm⟩
  · rw [heq] at hlook
    cases hlook

theorem validateEvent_copyEvent {ρ : Type} (keccak : List UInt8 → Hash) (e : Event ρ) :
    validateEvent keccak (copyEvent e) = validateEvent keccak e := by
  simp [validateEvent]

section Store

variable (jp : JPGraph) (e : Event ℕ) (ty c : ℕ)

theorem next_withVertex : (jp.withVertex e ty c).verts.next = jp.verts.next + 1 :=
  Heap.next_alloc ..

theorem event_withVertex : ((jp.withVertex e ty c).vert jp.verts.next).event = copyEvent e := by
  rw [vert_withVertex, if_pos rfl]
  rfl

/-- A column stays, or the new vertex is on top of it. -/
theorem col_withVertex_or (c' : ℕ) : (jp.withVertex e ty c).col c' = jp.col c' ∨
    c' = c ∧ (jp.withVertex e ty c).col c' = { jp.col c' with
      hashChain := (jp.col c').hashChain.insert e.selfHash jp.verts.next
      verTop := some jp.verts.next } :=
  jp.cols.get_update_eq_or c c' _

/-- What is there stays. -/
theorem extends_withVertex : Extends jp (jp.withVertex e ty c) := by
  have hold {v : ℕ} (hv : v < jp.verts.next) : (jp.withVertex e ty c).vert v = jp.vert v := by
    rw [vert_withVertex, if_neg (Nat.ne_of_lt hv)]
  refine ⟨rfl, ?_, fun v hv => ?_, fun v hv => ?_, fun v hv => ?_⟩
  · rw [next_withVertex]
    omega
  all_goals rw [hold hv]

end Store

/-- A new vertex of a valid event keeps references right. -/
theorem Referring.withVertex (h : Referring keccak jp) {e : Event ℕ}
    (he : validateEvent keccak e = true) (ty c : ℕ) :
    Referring keccak (jp.withVertex e ty c) := by
  have hext := jp.extends_withVertex e ty c
  have hlt {v : ℕ} (hv : v < jp.verts.next) : v < (jp.withVertex e ty c).verts.next :=
    lt_of_lt_of_le hv hext.verts
  have hnew : jp.verts.next < (jp.withVertex e ty c).verts.next := by
    rw [next_withVertex]
    omega
  refine ⟨fun c' k v hv => ?_, fun c' v hv => ?_, fun v p hp => ?_, fun v p hp => ?_,
    fun i k us hus u hu => ?_, fun i n hn => ?_, h.best, fun v hv => ?_⟩
  · have hin (hv : (jp.col c').hashChain.lookup k = some v) :
        v < (jp.withVertex e ty c).verts.next ∧
          ((jp.withVertex e ty c).vert v).event.selfHash = k := by
      obtain ⟨hv, hhash⟩ := h.chain c' k v hv
      exact ⟨hlt hv, by rw [hext.event v hv]; exact hhash⟩
    rcases jp.col_withVertex_or e ty c c' with heq | ⟨-, heq⟩
    · rw [heq] at hv
      exact hin hv
    · rw [heq] at hv
      by_cases hk : k = e.selfHash
      · subst hk
        rw [AList.lookup_insert] at hv
        obtain rfl := Option.some.inj hv
        exact ⟨hnew, by rw [event_withVertex, copyEvent_eq]⟩
      · rw [AList.lookup_insert_ne hk] at hv
        exact hin hv
  · rcases jp.col_withVertex_or e ty c c' with heq | ⟨rfl, heq⟩
    · rw [heq] at hv ⊢
      obtain ⟨hv, hseq⟩ := h.top c' v hv
      exact ⟨hlt hv, by rw [hext.seqNum v hv]; exact hseq⟩
    · rw [heq] at hv ⊢
      obtain rfl := Option.some.inj hv
      exact ⟨hnew, by rw [vert_withVertex, if_pos rfl]⟩
  · rw [vert_withVertex jp e ty c v] at hp ⊢
    split_ifs at hp ⊢
    · obtain ⟨hp, hseq⟩ := h.top c p hp
      exact ⟨hlt hp, by rw [hext.seqNum p hp]; exact hseq⟩
    · obtain ⟨hp, hseq⟩ := h.self v p hp
      exact ⟨hlt hp, by rw [hext.seqNum p hp]; exact hseq⟩
  · rw [vert_withVertex jp e ty c v] at hp ⊢
    split_ifs at hp ⊢
    · cases hp
    · obtain ⟨hp, hhash⟩ := h.other v p hp
      exact ⟨hlt hp, by rw [hext.event p hp]; exact hhash⟩
  · obtain ⟨hu, hhash⟩ := h.lost i k us hus u hu
    exact ⟨hlt hu, by rw [hext.event u hu]; exact hhash⟩
  · obtain ⟨v, hv, hhash, haddr⟩ := h.comer i n hn
    exact ⟨v, hlt hv, by rw [hext.event v hv]; exact hhash,
      by rw [hext.event v hv]; exact haddr⟩
  · rw [next_withVertex] at hv
    by_cases heq : v = jp.verts.next
    · rw [heq, event_withVertex, validateEvent_copyEvent, he]
    · rw [hext.event v (by omega)]
      exact h.valid v (by omega)

/-- The link to the other parent. -/
theorem Referring.relinks_linkOther (h : Referring keccak jp) (v : ℕ) (oc : Option ℕ) :
    Relinks jp (jp.linkOther v oc).1 := by
  unfold linkOther
  split
  · next p hp =>
    obtain ⟨c, -, hp⟩ := Option.bind_eq_some_iff.mp hp
    have hvert {β : Type} {g : Vertex → β}
        (hg : ∀ vert : Vertex, g { vert with anotherPt := some p } = g vert) :=
      Heap.get_update_of_eq jp.verts v hg
    refine ⟨rfl, Heap.next_update .., fun u => ⟨?_, ?_, ?_⟩, fun u q hq => ?_, rfl, h.lost,
      fun _ => ⟨rfl, rfl⟩⟩
    · exact hvert (g := Vertex.event) (fun _ => by rfl) u
    · exact hvert (g := Vertex.selfPt) (fun _ => by rfl) u
    · exact hvert (g := Vertex.seqNum) (fun _ => by rfl) u
    · have hq : ((jp.verts.update v fun vert => { vert with anotherPt := some p }).get u).anotherPt
          = some q := hq
      rcases jp.verts.get_update_eq_or v u fun vert => { vert with anotherPt := some p } with
        heq | ⟨rfl, heq⟩
      · rw [heq] at hq
        exact Or.inl hq
      · rw [heq] at hq
        obtain rfl := Option.some.inj hq
        exact Or.inr (h.chain c _ p hp)
  · exact ⟨rfl, rfl, fun _ => ⟨rfl, rfl, rfl⟩, fun _ _ => Or.inl, rfl, h.lost,
      fun _ => ⟨rfl, rfl⟩⟩

/-- What is in the dictionaries after the vertices that waited for a vertex were taken out. -/
theorem lookup_patchLost {i j : ℕ} {us : List ℕ}
    (hus : (jp.round i).lostDict.lookup (jp.vert v).event.selfHash = some us)
    (hws : ((jp.patchLost i v).round j).lostDict.lookup k = some ws) :
    (jp.round j).lostDict.lookup k = some ws ∧
      (i < jp.rounds.next → j = i → k ≠ (jp.vert v).event.selfHash) := by
  unfold patchLost at hws
  rw [hus] at hws
  let erase (rd : Round) : Round :=
    { rd with lostDict := rd.lostDict.erase (jp.vert v).event.selfHash }
  have hws : ((jp.rounds.update i erase).get j).lostDict.lookup k = some ws := hws
  by_cases hj : j = i
  · subst hj
    by_cases hlt : j < jp.rounds.next
    · rw [Heap.get_update_self hlt] at hws
      dsimp only [erase] at hws
      by_cases hk : k = (jp.vert v).event.selfHash
      · rw [hk, AList.lookup_erase] at hws
        cases hws
      · rw [AList.lookup_erase_ne hk] at hws
        exact ⟨hws, fun _ _ => hk⟩
    · rw [Heap.get_of_le (by rw [Heap.next_update]; omega)] at hws
      cases hws
  · rw [Heap.get_update_ne _ hj] at hws
    exact ⟨hws, fun _ heq => absurd heq hj⟩

/-- Who waits after a vertex was entered in the dictionary of a round. -/
theorem lookup_addLost {i j w : ℕ} (hws : ((jp.addLost i v).round j).lostDict.lookup k = some ws)
    (hw : w ∈ ws) :
    (∃ us, (jp.round j).lostDict.lookup k = some us ∧ w ∈ us) ∨
      w = v ∧ j = i ∧ k = (jp.vert v).event.otherPartH := by
  let oph := (jp.vert v).event.otherPartH
  let wait (rd : Round) : Round :=
    { rd with lostDict := rd.lostDict.insert oph ((rd.lostDict.lookup oph).getD [] ++ [v]) }
  have hws : ((jp.rounds.update i wait).get j).lostDict.lookup k = some ws := hws
  rcases jp.rounds.get_update_eq_or i j wait with heq | ⟨rfl, heq⟩
  · rw [heq] at hws
    exact Or.inl ⟨ws, hws, hw⟩
  · rw [heq] at hws
    dsimp only [wait] at hws
    by_cases hk : k = oph
    · subst hk
      rw [AList.lookup_insert] at hws
      obtain rfl := Option.some.inj hws
      rcases List.mem_append.mp hw with hw | hw
      · cases hold : (jp.rounds.get j).lostDict.lookup oph with
        | none =>
          rw [hold] at hw
          cases hw
        | some us =>
          rw [hold] at hw
          exact Or.inl ⟨us, hold, hw⟩
      · exact Or.inr ⟨List.mem_singleton.mp hw, rfl, rfl⟩
    · rw [AList.lookup_insert_ne hk] at hws
      exact Or.inl ⟨ws, hws, hw⟩

/-- The vertices that waited for a vertex. -/
theorem Referring.relinks_patchLost (h : Referring keccak jp) (i : ℕ) (hv : v < jp.verts.next) :
    Relinks jp (jp.patchLost i v) := by
  unfold patchLost
  split
  · exact ⟨rfl, rfl, fun _ => ⟨rfl, rfl, rfl⟩, fun _ _ => Or.inl, rfl, h.lost,
      fun _ => ⟨rfl, rfl⟩⟩
  · next us hus =>
    let link (vert : Vertex) : Vertex := { vert with anotherPt := some v }
    let erase (rd : Round) : Round :=
      { rd with lostDict := rd.lostDict.erase (jp.vert v).event.selfHash }
    have hvert {β : Type} {g : Vertex → β} (hg : ∀ vert, g (link vert) = g vert) :=
      Heap.get_updateAll_of_eq jp.verts us hg
    refine ⟨rfl, Heap.next_updateAll .., fun u => ⟨?_, ?_, ?_⟩, fun u q hq => ?_, rfl,
      fun j k ws hws => ?_, fun j => ⟨?_, ?_⟩⟩
    · exact hvert (g := Vertex.event) (fun _ => by rfl) u
    · exact hvert (g := Vertex.selfPt) (fun _ => by rfl) u
    · exact hvert (g := Vertex.seqNum) (fun _ => by rfl) u
    · have hq : ((jp.verts.updateAll us link).get u).anotherPt = some q := hq
      by_cases hlt : u < jp.verts.next
      · rw [Heap.get_updateAll hlt us fun _ => by rfl] at hq
        split_ifs at hq with hu
        · obtain rfl := Option.some.inj hq
          exact Or.inr ⟨hv, (h.lost i _ us hus u hu).2.symm⟩
        · exact Or.inl hq
      · rw [Heap.get_of_le (by rw [Heap.next_updateAll]; omega)] at hq
        cases hq
    · exact h.lost j k ws (lookup_patchLost hus (by unfold patchLost; rw [hus]; exact hws)).1
    · exact Heap.get_update_of_eq jp.rounds i (f := erase) (g := Round.newComer)
        (fun _ => by rfl) j
    · exact Heap.get_update_of_eq jp.rounds i (f := erase) (g := Round.bestVertex)
        (fun _ => by rfl) j

/-- A vertex without its other parent. -/
theorem Referring.relinks_addLost (h : Referring keccak jp) (i : ℕ) (hv : v < jp.verts.next) :
    Relinks jp (jp.addLost i v) := by
  unfold addLost
  dsimp only
  let oph := (jp.vert v).event.otherPartH
  let wait (rd : Round) : Round :=
    { rd with lostDict := rd.lostDict.insert oph ((rd.lostDict.lookup oph).getD [] ++ [v]) }
  refine ⟨rfl, rfl, fun _ => ⟨rfl, rfl, rfl⟩, fun _ _ => Or.inl, rfl, fun j k ws hws w hw => ?_,
    fun j => ⟨?_, ?_⟩⟩
  · rcases lookup_addLost hws hw with ⟨us, hus, hmem⟩ | ⟨rfl, -, hk⟩
    · exact h.lost j k us hus w hmem
    · exact ⟨hv, hk.symm⟩
  · exact Heap.get_update_of_eq jp.rounds i (f := wait) (g := Round.newComer) (fun _ => by rfl) j
  · exact Heap.get_update_of_eq jp.rounds i (f := wait) (g := Round.bestVertex)
      (fun _ => by rfl) j

/-- The section under the lock of the lost parents keeps references right. -/
theorem Referring.updateLost (h : Referring keccak jp) (i : ℕ) (hv : v < jp.verts.next)
    (linkpost : Bool) :
    Referring keccak (jp.updateLost i v linkpost) ∧ jp.Extends (jp.updateLost i v linkpost) ∧
      (jp.updateLost i v linkpost).verts.next = jp.verts.next := by
  have hpatch := h.relinks_patchLost i hv
  have h' := h.relinks hpatch
  unfold JPGraph.updateLost
  dsimp only
  split_ifs
  · have hadd := h'.relinks_addLost i (hpatch.next ▸ hv)
    exact ⟨h'.relinks hadd, hpatch.extends_.trans hadd.extends_, hadd.next.trans hpatch.next⟩
  · exact ⟨h', hpatch.extends_, hpatch.next⟩

end JPGraph

/-- A call that has started has a valid event, and the vertex that it works on is there. -/
structure AddCall.Ready (keccak : List UInt8 → Hash) (jp : JPGraph) (call : AddCall) : Prop where
  /-- The event was validated. -/
  valid : call.pc ≠ .start → validateEvent keccak call.event = true
  /-- The vertex is there. -/
  vertex : ∀ v ∈ call.pc.vertex, v < jp.verts.next

theorem AddCall.Ready.mono {keccak : List UInt8 → Hash} {jp jp' : JPGraph} {call : AddCall}
    (h : call.Ready keccak jp) (hle : jp.verts.next ≤ jp'.verts.next) : call.Ready keccak jp' :=
  ⟨h.valid, fun v hv => lt_of_lt_of_le (h.vertex v hv) hle⟩

/-- What a step of a call does to references. -/
structure AddCall.Advances (keccak : List UInt8 → Hash) (call : AddCall) (jp jp' : JPGraph)
    (next : Option AddPc) : Prop where
  /-- References stay right. -/
  referring : jp'.Referring keccak
  /-- What is there stays. -/
  extends_ : jp.Extends jp'
  /-- A new vertex has the event of the call. -/
  new : ∀ v < jp'.verts.next, v < jp.verts.next ∨ (jp'.vert v).event = copyEvent call.event
  /-- The call stays ready. -/
  ready : ∀ pc ∈ next, AddCall.Ready keccak jp' { call with pc := pc }

section Advances

variable {keccak : List UInt8 → Hash} {jp jp' : JPGraph} {call : AddCall}

/-- A step of a call that adds no vertex. -/
theorem AddCall.Ready.advances (hcall : call.Ready keccak jp) (hstart : call.pc ≠ .start)
    (h : jp'.Referring keccak) (hext : jp.Extends jp') (hnext : jp'.verts.next = jp.verts.next)
    {next : Option AddPc} (hpc : ∀ v ∈ next.bind AddPc.vertex, v ∈ call.pc.vertex) :
    call.Advances keccak jp jp' next where
  referring := h
  extends_ := hext
  new _ hv := Or.inl (hnext ▸ hv)
  ready pc hpc' := ⟨fun _ => hcall.valid hstart,
    fun v hv => hnext ▸ hcall.vertex v (hpc v (Option.mem_bind_iff.mpr ⟨pc, hpc', hv⟩))⟩

/-- A step of a call keeps references right. -/
theorem JPGraph.Referring.callStep (h : jp.Referring keccak) (hcall : call.Ready keccak jp) :
    Ensures (call.step keccak jp) fun r => call.Advances keccak jp r.1 r.2 := by
  obtain ⟨e, ty, pc⟩ := call
  intro r hr
  have hsame {jp' : JPGraph} (hs : jp.SameThreads jp') (hstart : pc ≠ .start)
      {next : Option AddPc} (hpc : ∀ v ∈ next.bind AddPc.vertex, v ∈ pc.vertex) :
      AddCall.Advances keccak ⟨e, ty, pc⟩ jp jp' next :=
    hcall.advances hstart (h.same hs) hs.extends_ hs.next hpc
  have hnone : ∀ v ∈ (none : Option ℕ), v ∈ pc.vertex := fun _ hv => by cases hv
  have hvertex : ∀ v ∈ pc.vertex, v ∈ pc.vertex := fun _ hv => hv
  cases AddCall.step_moves keccak ⟨e, ty, pc⟩ jp r hr with
  | rejects => exact ⟨h, .refl jp, fun _ hv => Or.inl hv, fun _ hq => by cases hq⟩
  | looks hvalid _ hnext =>
    refine ⟨h, .refl jp, fun _ hv => Or.inl hv, fun q hq => ⟨fun _ => ?_, fun v hv => ?_⟩⟩
    · by_cases hstart : pc = .start
      · exact hvalid hstart
      · exact hcall.valid hstart
    · cases hq
      cases hnext.symm.trans hv
  | selfInsert | otherInsert =>
    exact hcall.advances nofun (h.addNodeInsert _) (.of_verts rfl rfl) rfl hnone
  | selfMajority =>
    exact hcall.advances nofun (h.addNodeMajority _ _) (.of_verts rfl rfl) rfl (by simp)
  | otherMajority =>
    exact hcall.advances nofun (h.addNodeMajority _ _) (.of_verts rfl rfl) rfl hnone
  | known fw oc hlook =>
    refine ⟨h, .refl jp, fun _ hv => Or.inl hv,
      fun q hq => ⟨fun _ => hcall.valid nofun, fun v hv => ?_⟩⟩
    split_ifs at hq
    · cases hq
      cases hv
      exact (h.chain _ _ _ hlook).1
    · cases hq
  | @inserts sc fw oc hlook =>
    have hvalid := hcall.valid nofun
    have hnext := jp.next_withVertex e ty sc
    refine ⟨h.withVertex hvalid ty sc, jp.extends_withVertex e ty sc, fun v hv => ?_,
      fun q hq => ⟨fun _ => hvalid, fun v hv => ?_⟩⟩
    · by_cases heq : v = jp.verts.next
      · exact Or.inr (heq ▸ jp.event_withVertex e ty sc)
      · exact Or.inl (by dsimp only at hv; omega)
    · cases hq
      cases hv
      exact hnext.ge
  | existed v => exact hsame (jp.sameThreads_markVertex v ty) nofun hvertex
  | trigger v => exact hsame (jp.sameThreads_triggerRound v) nofun hnone
  | link sc fw oc v =>
    have hrelinks := h.relinks_linkOther v oc
    refine hcall.advances nofun (h.relinks hrelinks) hrelinks.extends_ hrelinks.next ?_
    split_ifs <;> exact hvertex
  | request sc fw v =>
    have hs : jp.SameThreads (jp.requestParentEvent v) := .of_eq rfl
    exact hsame hs nofun hvertex
  | @record _ _ _ round _ hround =>
    refine hsame (jp.sameThreads_recordRound _ _ _ _ _ hround) nofun ?_
    cases round.2 <;> exact hvertex
  | comer linkpost hjp' =>
    obtain ⟨href, hext, hnext⟩ := h.addComer _ (hcall.vertex _ rfl) _ hjp'
    exact hcall.advances nofun href hext hnext hvertex
  | lost i v linkpost =>
    obtain ⟨href, hext, hnext⟩ := h.updateLost i (hcall.vertex v rfl) linkpost
    exact hcall.advances nofun href hext hnext hvertex
  | created v => exact hsame (jp.sameThreads_signalCreated v) nofun hnone

end Advances

end Hashgrid.Core
