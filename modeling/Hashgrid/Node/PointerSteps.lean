import Hashgrid.Core.LinkSteps
import Hashgrid.Node.Pointers

/-!
# Steps keep round pointers and witness tables right

The steps that change round numbers, columns or vertices, or the event channels.
-/

namespace Hashgrid.Node

open Hashgrid.Bytes Hashgrid.Core Hashgrid.Machine

variable {t : Target} {own own' : ℕ → Prop} {jp jp' : JPGraph} {cells : Heap ℤ} {ty v : ℕ}
  {e : Event ℕ}

theorem grows_setCells (hnext : jp.cells.next ≤ cells.next) : Grows jp { jp with cells := cells } :=
  ⟨rfl, hnext, le_rfl, fun _ _ => rfl, le_rfl, fun _ _ _ h => h⟩

/-- Round numbers of events of other nodes do not change, so the invariant stays. -/
theorem GraphInv.setCells (h : GraphInv t own jp) (hnext : jp.cells.next ≤ cells.next)
    (hown : ∀ k < jp.cells.next, (own' k ↔ own k))
    (hget : ∀ k < jp.cells.next, ¬ own k → cells.get k = jp.cells.get k) :
    GraphInv t own' { jp with cells := cells } where
  foreign := h.foreign
  graph := h.graph
  chain := h.chain
  top := h.top
  created := h.created
  trigger := h.trigger
  pointer v hv := (grows_setCells hnext).pointerOk hown (h.pointer v hv)
  channel ch e he := by
    refine (grows_setCells hnext).pointerOk hown (h.channel ch e ?_)
    cases ch <;> exact he
  mark := h.mark
  round v hv ht := by
    have hround := h.round v hv ht
    obtain ⟨k, hk, hvalue⟩ := Option.map_eq_some_iff.mp hround
    obtain ⟨hlt, hiff⟩ := h.pointer v hv k hk
    have hforeign : ¬ own k := fun hk => h.foreign (ht.2.symm.trans (hiff.mp hk))
    refine Option.map_eq_some_iff.mpr ⟨k, hk, ?_⟩
    rw [← hvalue]
    exact hget k hlt hforeign
  table := h.table

/-- A new round has no witnesses. -/
theorem GraphInv.pushRound (h : GraphInv t own jp) (current l idx : ℕ) :
    GraphInv t own
      { jp with currentIdx := current, rounds := jp.rounds.alloc (newRound l idx) } := by
  refine h.sameStore (sameStore_rest jp) h.created h.trigger (h.sameChannels rfl rfl rfl) h.mark
    fun i k v hv => ?_
  have hround : (JPGraph.round { jp with
      currentIdx := current, rounds := jp.rounds.alloc (newRound l idx) } i) =
        if i = jp.rounds.next then newRound l idx else jp.round i := Heap.get_alloc ..
  rw [hround] at hv ⊢
  split_ifs at hv ⊢
  · simp [newRound, List.getElem?_replicate] at hv
  · exact h.table i k v hv

/-- A round is opened through a pointer of this node, or without changing the number. -/
theorem GraphInv.openRound (h : GraphInv t own jp) {cell : ℕ}
    (hcell : own cell ∨ jp.cells.get cell = jp.currentIdx + 1) :
    GraphInv t own (jp.openRound cell) := by
  have hcells : GraphInv t own
      { jp with cells := jp.cells.update cell fun _ => jp.currentIdx + 1 } := by
    refine h.setCells (by rw [Heap.next_update]) (fun _ _ => Iff.rfl) fun k _ hforeign => ?_
    rcases jp.cells.get_update_eq_or cell k (fun _ => jp.currentIdx + 1) with heq | ⟨rfl, heq⟩
    · exact heq
    · rw [heq]
      exact (hcell.resolve_left hforeign).symm
  exact hcells.pushRound _ _ _

/-- `RoundLoop` enters the watched event in its round only. -/
theorem GraphInv.roundLoop (h : GraphInv t own jp) (hv : v < jp.verts.next) :
    Ensures (jp.roundLoop v) fun r => GraphInv t own r.1 ∧ Grows jp r.1 := by
  intro r hr
  obtain ⟨cell, jp₁, hcell, hjp₁, hr⟩ := jp.roundLoop_cases v r hr
  have hopened : GraphInv t own jp₁ ∧ Grows jp jp₁ ∧ jp₁.vert = jp.vert ∧
      jp₁.verts.next = jp.verts.next := by
    rw [hjp₁]
    split_ifs with hopens
    · refine ⟨h.openRound ?_, ?_, rfl, rfl⟩
      · simp only [JPGraph.opensRound, decide_eq_true_eq] at hopens
        rcases hopens with ⟨hlocal, -⟩ | ⟨-, hnext⟩
        · exact Or.inl ((h.pointer v hv cell hcell).2.mpr (h.mark v hlocal))
        · exact Or.inr hnext
      · exact (grows_setCells (Heap.next_update ..).ge).trans (sameStore_rest _).grows
    · exact ⟨h, .refl jp, rfl, rfl⟩
  obtain ⟨hinv, hgrows, hvert, hnext⟩ := hopened
  rcases hr with hr | ⟨i, k, hfind, hr⟩
  · rw [hr]
    exact ⟨hinv, hgrows⟩
  · rw [hr]
    refine ⟨hinv.setWitness (hnext ▸ hv) fun ht => ?_,
      hgrows.trans (sameStore_setWitness ..).grows⟩
    have hround := hinv.round v (hnext ▸ hv) ht
    have hcell' : (jp₁.vert v).event.roundID = some cell := by rw [hvert]; exact hcell
    have hvalue : jp₁.cells.get cell = t.round := by
      simpa [JPGraph.roundOf, hcell'] using hround
    have hindex := List.find?_some hfind
    rw [hvalue] at hindex
    exact_mod_cast (of_decide_eq_true hindex).symm

/-- Other columns, with the same vertices. -/
theorem GraphInv.columns (h : GraphInv t own jp) {cols : Heap Column}
    {graph : AList fun _ : Address => ℕ} {superMajority : ℕ}
    (hgraph : ∀ a c, graph.lookup a = some c → c < cols.next ∧
      ∀ b, graph.lookup b = some c → b = a)
    (hchain : ∀ c k v, (cols.get c).hashChain.lookup k = some v → v < jp.verts.next)
    (htop : ∀ c v, (cols.get c).verTop = some v → v < jp.verts.next ∧
      ∀ a, graph.lookup a = some c → (jp.vert v).event.selfSig.addr = a) :
    GraphInv t own
      { jp with cols := cols, graph := graph, superMajority := superMajority } where
  foreign := h.foreign
  graph := hgraph
  chain := hchain
  top := htop
  created := h.created
  trigger := h.trigger
  pointer := h.pointer
  channel := h.sameChannels rfl rfl rfl
  mark := h.mark
  round := h.round
  table := h.table

/-- A new column belongs to its address only. -/
theorem GraphInv.addNodeInsert (h : GraphInv t own jp) (a : Address) :
    GraphInv t own (jp.addNodeInsert a).1 ∧ Grows jp (jp.addNodeInsert a).1 ∧
      ColumnOf (jp.addNodeInsert a).1 jp.cols.next a := by
  have hlook {b : Address} {c : ℕ} (hb : (jp.graph.insert a jp.cols.next).lookup b = some c)
      (hc : c ≠ jp.cols.next) : jp.graph.lookup b = some c := by
    by_cases hba : b = a
    · subst hba
      rw [AList.lookup_insert] at hb
      exact absurd (Option.some.inj hb).symm hc
    · rwa [AList.lookup_insert_ne hba] at hb
  have hget := Heap.get_alloc jp.cols (newColumn jp.graph.entries.length)
  have hgrows : Grows jp (jp.addNodeInsert a).1 :=
    ⟨rfl, le_rfl, le_rfl, fun _ _ => rfl, (Nat.le_succ _).trans_eq (Heap.next_alloc ..).symm,
      fun b c hc hb => hlook hb (Nat.ne_of_lt hc)⟩
  have hnew : ColumnOf (jp.addNodeInsert a).1 jp.cols.next a := by
    refine ⟨(Nat.lt_succ_self _).trans_eq (Heap.next_alloc ..).symm, fun b hb => ?_⟩
    by_contra hba
    rw [show (jp.addNodeInsert a).1.graph = jp.graph.insert a jp.cols.next from rfl,
      AList.lookup_insert_ne hba] at hb
    exact absurd (h.graph b _ hb).1 (lt_irrefl _)
  refine ⟨h.columns ?_ ?_ ?_, hgrows, hnew⟩
  · intro b c hb
    by_cases hc : c = jp.cols.next
    · subst hc
      obtain rfl := hnew.2 b hb
      exact hnew
    · exact hgrows.columnOf (h.graph b c (hlook hb hc))
  · intro c k v hv
    rw [hget] at hv
    split_ifs at hv
    · simp [newColumn] at hv
    · exact h.chain c k v hv
  · intro c v hv
    rw [hget] at hv
    split_ifs at hv with hc
    · simp [newColumn] at hv
    · exact ⟨(h.top c v hv).1, fun b hb => (h.top c v hv).2 b (hlook hb hc)⟩

/-- The end of `AddNode` forgets the top of a column. -/
theorem GraphInv.addNodeMajority (h : GraphInv t own jp) (c mlen : ℕ) :
    GraphInv t own (jp.addNodeMajority c mlen) ∧ Grows jp (jp.addNodeMajority c mlen) := by
  have hchain (d : ℕ) : ((jp.addNodeMajority c mlen).col d).hashChain = (jp.col d).hashChain :=
    Heap.get_update_of_eq jp.cols c (g := Column.hashChain) (fun _ => by rfl) d
  have htop {d v : ℕ} (hv : ((jp.addNodeMajority c mlen).col d).verTop = some v) :
      (jp.col d).verTop = some v := by
    rcases jp.cols.get_update_eq_or c d fun cl => { cl with verTop := none } with heq | ⟨-, heq⟩
    · exact (congrArg Column.verTop heq).symm.trans hv
    · exact absurd ((congrArg Column.verTop heq).symm.trans hv) (by simp)
  have hgrows : Grows jp (jp.addNodeMajority c mlen) :=
    ⟨rfl, le_rfl, le_rfl, fun _ _ => rfl, (Heap.next_update ..).ge, fun _ _ _ h => h⟩
  refine ⟨h.columns ?_ ?_ ?_, hgrows⟩
  · exact fun b d hb => hgrows.columnOf (h.graph b d hb)
  · exact fun d k v hv => h.chain d k v (hchain d ▸ hv)
  · exact fun d v hv => h.top d v (htop hv)

theorem vert_withVertex_of_lt (hv : v < jp.verts.next) (e : Event ℕ) (ty c : ℕ) :
    (jp.withVertex e ty c).vert v = jp.vert v := by
  rw [JPGraph.vert_withVertex, if_neg (Nat.ne_of_lt hv)]

/-- A new vertex only adds. -/
theorem grows_withVertex (jp : JPGraph) (e : Event ℕ) (ty c : ℕ) :
    Grows jp (jp.withVertex e ty c) where
  coinbase := rfl
  cells := le_rfl
  verts := (Nat.le_succ _).trans_eq (Heap.next_alloc ..).symm
  event _ hv := congrArg Vertex.event (vert_withVertex_of_lt hv e ty c)
  cols := (Heap.next_update ..).ge
  owner _ _ _ h := h

variable {c : ℕ}

/-- A new vertex for an event on the column of its creator. -/
theorem GraphInv.withVertex (h : GraphInv t own jp) (hc : ColumnOf jp c e.selfSig.addr)
    (he : PointerOk own jp e) (hty : ty ≠ Mark.witnessLocal)
    (hround : t.Is e → jp.roundOf e = some (t.round : ℤ)) :
    GraphInv t own (jp.withVertex e ty c) := by
  have hnext : (jp.withVertex e ty c).verts.next = jp.verts.next + 1 := Heap.next_alloc ..
  have hold {v : ℕ} (hv : v < jp.verts.next) := vert_withVertex_of_lt hv e ty c
  have hnew : ((jp.withVertex e ty c).vert jp.verts.next).event = { e with trans := [] } := by
    simp [JPGraph.vert_withVertex, newVertex]
  have hcol := JPGraph.col_withVertex hc.1 e ty
  have hgrows := grows_withVertex jp e ty c
  have hpointer {e' : Event ℕ} (he' : PointerOk own jp e') :
      PointerOk own (jp.withVertex e ty c) e' := hgrows.pointerOk (fun _ _ => Iff.rfl) he'
  refine ⟨h.foreign, ?_, ?_, ?_, ?_, ?_, ?_, ?_, ?_, ?_, ?_⟩
  · exact fun a d hd => hgrows.columnOf (h.graph a d hd)
  · intro d k v hv
    rw [hcol] at hv
    rw [hnext]
    split_ifs at hv
    · by_cases hk : k = e.selfHash
      · subst hk
        rw [AList.lookup_insert] at hv
        cases hv
        omega
      · rw [AList.lookup_insert_ne hk] at hv
        exact Nat.lt_succ_of_lt (h.chain c k v hv)
    · exact Nat.lt_succ_of_lt (h.chain d k v hv)
  · intro d v hv
    rw [hcol] at hv
    rw [hnext]
    split_ifs at hv with hd
    · cases hv
      subst hd
      exact ⟨by omega, fun a ha => by rw [hnew]; exact (hc.2 a ha).symm⟩
    · obtain ⟨hlt, haddr⟩ := h.top d v hv
      exact ⟨by omega, fun a ha => by rw [hold hlt]; exact haddr a ha⟩
  · exact fun v hv => hgrows.ownVertex (h.created v hv)
  · exact fun v hv => lt_of_lt_of_le (h.trigger v hv) hgrows.verts
  · intro v hv
    by_cases hlt : v < jp.verts.next
    · rw [hold hlt]
      exact hpointer (h.pointer v hlt)
    · obtain rfl : v = jp.verts.next := by omega
      rw [hnew]
      exact hpointer he
  · exact fun ch e' he' => hpointer (h.sameChannels rfl rfl rfl ch e' he')
  · intro v hv
    by_cases hlt : v = jp.verts.next
    · rw [JPGraph.vert_withVertex, if_pos hlt] at hv
      exact absurd hv hty
    · rw [JPGraph.vert_withVertex, if_neg hlt] at hv ⊢
      exact h.mark v hv
  · intro v hv ht
    by_cases hlt : v < jp.verts.next
    · rw [hold hlt] at ht ⊢
      exact h.round v hlt ht
    · obtain rfl : v = jp.verts.next := by omega
      rw [hnew] at ht ⊢
      exact hround ht
  · intro i k v hv
    obtain ⟨hlt, hindex⟩ := h.table i k v hv
    rw [hold hlt]
    exact ⟨by omega, hindex⟩

/-- The search for a round finds the round with the number, if it is there. -/
theorem index_of_searchRound {r i : ℕ} (hthere : ∃ j ∈ jp.queue, (jp.round j).index = r)
    (hsearch : jp.searchRound (r : ℤ) = some i) : (jp.round i).index = r := by
  obtain ⟨j, hj, hindex⟩ := hthere
  unfold JPGraph.searchRound at hsearch
  cases hfind : jp.queue.find? fun i => decide ((r : ℤ) = (jp.round i).index) with
  | none => exact absurd hindex.symm (by simpa using List.find?_eq_none.mp hfind j hj)
  | some i' =>
    rw [hfind] at hsearch
    cases hsearch
    have hi := List.find?_some hfind
    exact_mod_cast (of_decide_eq_true hi).symm

/-- `AddEvent` enters the watched event in its round only, if this round is in the queue. -/
theorem GraphInv.recordRound (h : GraphInv t own jp) {firstWitness : Bool} (hv : v < jp.verts.next)
    (hthere : t.Is (jp.vert v).event →
      (firstWitness ∨ ty = Mark.witness ∨ (jp.col c).hashChain.entries.length = 1) →
      ∃ i ∈ jp.queue, (jp.round i).index = t.round) :
    Ensures (jp.recordRound firstWitness ty c v) fun r => GraphInv t own r.1 ∧ Grows jp r.1 := by
  intro r hr
  rcases jp.recordRound_cases firstWitness ty c v r hr with hr | ⟨x, i, hx, hsearch, hwitness, hr⟩
  · rw [hr]
    exact ⟨h, .refl jp⟩
  · rw [hr]
    have hs := sameStore_markVertex jp v Mark.witness
    have hmarked : GraphInv t own (jp.markVertex v Mark.witness) :=
      h.markVertex fun hlocal => absurd hlocal (by decide)
    refine ⟨hmarked.setWitness (lt_of_lt_of_le hv hs.grows.verts) fun ht => ?_,
      hs.grows.trans (sameStore_setWitness ..).grows⟩
    rw [hs.event] at ht
    rw [h.round v hv ht] at hx
    cases hx
    exact index_of_searchRound (hthere ht hwitness) hsearch

/-- Other events in the channels. -/
theorem GraphInv.setChannels (h : GraphInv t own jp) {norm remote loc : List (Event ℕ)}
    (hnorm : ∀ e ∈ norm, PointerOk own jp e) (hremote : ∀ e ∈ remote, PointerOk own jp e)
    (hlocal : ∀ e ∈ loc, PointerOk own jp e) :
    GraphInv t own { jp with eventNorm := norm, witnessR := remote, witnessL := loc } ∧
      Grows jp { jp with eventNorm := norm, witnessR := remote, witnessL := loc } := by
  have hs : SameStore jp { jp with eventNorm := norm, witnessR := remote, witnessL := loc } :=
    sameStore_rest jp
  refine ⟨h.sameStore hs h.created h.trigger (fun ch => ?_) h.mark h.table, hs.grows⟩
  cases ch <;> assumption

/-- An event is taken from a channel. -/
theorem GraphInv.dropEvent (h : GraphInv t own jp) (ch : Channel) :
    GraphInv t own (dropEvent jp ch) ∧ Grows jp (dropEvent jp ch) := by
  have htail (ch : Channel) (e : Event ℕ) (he : e ∈ (jp.channel ch).tail) : PointerOk own jp e :=
    h.channel ch e (List.mem_of_mem_tail he)
  cases ch with
  | eventNorm =>
    exact h.setChannels (htail .eventNorm) (h.channel .witnessR) (h.channel .witnessL)
  | witnessR =>
    exact h.setChannels (h.channel .eventNorm) (htail .witnessR) (h.channel .witnessL)
  | witnessL =>
    exact h.setChannels (h.channel .eventNorm) (h.channel .witnessR) (htail .witnessL)

/-- An event is put into a channel. -/
theorem GraphInv.putEvent (h : GraphInv t own jp) (ch : Channel) (he : PointerOk own jp e) :
    Ensures (putEvent jp ch e) fun jp' => GraphInv t own jp' ∧ Grows jp jp' := by
  have hput (ch : Channel) (e' : Event ℕ) (he' : e' ∈ jp.channel ch ++ [e]) :
      PointerOk own jp e' := by
    rcases List.mem_append.mp he' with he' | he'
    · exact h.channel ch e' he'
    · rw [List.mem_singleton.mp he']
      exact he
  unfold Node.putEvent
  split_ifs
  · cases ch with
    | eventNorm =>
      exact .ok (h.setChannels (hput .eventNorm) (h.channel .witnessR) (h.channel .witnessL))
    | witnessR =>
      exact .ok (h.setChannels (h.channel .eventNorm) (hput .witnessR) (h.channel .witnessL))
    | witnessL =>
      exact .ok (h.setChannels (h.channel .eventNorm) (h.channel .witnessR) (hput .witnessL))
  · exact .error

/-- An event is read from the wire. Its pointer is new. -/
theorem GraphInv.receive (h : GraphInv t own jp) (e : Event ℤ) :
    ∃ own', GraphInv t own' (jp.receive e).1 ∧ (∀ k < jp.cells.next, (own' k ↔ own k)) ∧
      Grows jp (jp.receive e).1 ∧ PointerOk own' (jp.receive e).1 (jp.receive e).2 := by
  unfold JPGraph.receive
  cases e.roundID with
  | none => exact ⟨own, h, fun _ _ => Iff.rfl, .refl jp, fun k hk => nomatch hk⟩
  | some r =>
    have hnext : jp.cells.next < (jp.cells.alloc r).next := by simp
    have hown (k : ℕ) (hk : k < jp.cells.next) :
        (if k = jp.cells.next then e.selfSig.addr = jp.coinbase else own k) ↔ own k := by
      rw [if_neg (Nat.ne_of_lt hk)]
    refine ⟨fun k => if k = jp.cells.next then e.selfSig.addr = jp.coinbase else own k,
      h.setCells hnext.le hown fun k hk _ => Heap.get_alloc_of_lt hk r, hown,
      grows_setCells hnext.le, fun k hk => ?_⟩
    cases hk
    exact ⟨hnext, iff_of_eq (if_pos rfl)⟩

/-- An event is composed. Its pointer is one of this node. -/
theorem GraphInv.composeEvent (h : GraphInv t own jp) (keccak : List UInt8 → Hash) (now : ℤ)
    (rand : ℕ) :
    Ensures (jp.composeEvent keccak now rand) fun r =>
      ∃ own', GraphInv t own' r.1 ∧ (∀ k < jp.cells.next, (own' k ↔ own k)) ∧ Grows jp r.1 ∧
        PointerOk own' r.1 r.2 := by
  intro r hr
  obtain ⟨haddr, jp₁, k, x, hneutral, hpointer, hk, hr⟩ :=
    jp.composeEvent_cases keccak now rand r hr
  have hcells : jp₁.cells = jp.cells := hneutral.cells
  have hnext : ((jp.cells.alloc jp.currentIdx).update k fun _ => x).next = jp.cells.next + 1 := by
    simp
  have hown (j : ℕ) (hj : j < jp.cells.next) : (j = jp.cells.next ∨ own j) ↔ own j :=
    or_iff_right (Nat.ne_of_lt hj)
  have hkown : k < jp.cells.next + 1 ∧ (k = jp.cells.next ∨ own k) := by
    rcases hpointer with rfl | ⟨c, v, hc, hv, hvk⟩
    · exact ⟨Nat.lt_succ_self _, Or.inl rfl⟩
    · obtain ⟨hlt, hcreator⟩ := h.top c v hv
      obtain ⟨hkl, hiff⟩ := h.pointer v hlt k hvk
      exact ⟨Nat.lt_succ_of_lt hkl, Or.inr (hiff.mpr (hcreator _ hc))⟩
  rw [hr]
  have hle : jp₁.cells.next ≤ ((jp.cells.alloc jp.currentIdx).update k fun _ => x).next := by
    rw [hnext, hcells]
    exact Nat.le_succ _
  have hgrows := (sameStore_of_neutral hneutral).grows.trans (grows_setCells hle)
  refine ⟨fun j => j = jp.cells.next ∨ own j, (h.neutral hneutral).setCells hle ?_ ?_, hown,
    hgrows, ?_⟩
  · rw [hcells]
    exact hown
  · intro j hj hforeign
    rw [hcells] at hj ⊢
    have hne : j ≠ k := by
      rintro rfl
      exact hforeign (hkown.2.resolve_left (Nat.ne_of_lt hj))
    rw [Heap.get_update_ne _ hne, Heap.get_alloc_of_lt hj]
  · intro j hj
    rw [hk] at hj
    cases hj
    exact ⟨hkown.1.trans_eq hnext.symm, iff_of_true hkown.2 (haddr.trans hneutral.coinbase.symm)⟩

end Hashgrid.Node
