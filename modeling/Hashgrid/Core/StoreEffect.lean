import Hashgrid.Core.SiteLinks

/-!
# What a stored event changes

The columns, vertices, marks and witness tables after an undisturbed call of `AddEvent`
with a new event.
-/

namespace Hashgrid.Core

open Hashgrid.Bytes Hashgrid.Machine Hashgrid.Links

/-- A vertex before and after a call of `AddEvent` that does not create it. -/
structure Vertex.Kept (vert vert' : Vertex) : Prop where
  /-- The event stays. -/
  event : vert'.event = vert.event
  /-- The self link stays. -/
  selfPt : vert'.selfPt = vert.selfPt
  /-- The column number stays. -/
  seqNum : vert'.seqNum = vert.seqNum
  /-- The mark stays, or becomes `Witness`. -/
  witness : vert'.witness = vert.witness ∨ vert'.witness = Mark.witness

theorem Vertex.Kept.refl (vert : Vertex) : Vertex.Kept vert vert := ⟨rfl, rfl, rfl, Or.inl rfl⟩

variable {jp jp₀ : JPGraph} {keccak : List UInt8 → Hash} {ty : ℕ} {e₀ : Event ℕ}

namespace JPGraph

/-- The number of the creator's column, which is added if it is missing. -/
def numberOf (jp : JPGraph) (a : Address) : ℕ := ((jp.addNode a).1.col (jp.addNode a).2).seqNum

/-- `AddEvent` enters a new event as a witness: it has that type, or it is the first event of its
column. -/
def EntersWitness {ρ : Type} (jp : JPGraph) (e : Event ρ) (ty : ℕ) : Prop :=
  ty = Mark.witness ∨ jp.newest e.selfSig.addr = none

instance {ρ : Type} (jp : JPGraph) (e : Event ρ) (ty : ℕ) : Decidable (jp.EntersWitness e ty) :=
  inferInstanceAs (Decidable (_ ∨ _))

/-- A column without vertices. -/
theorem length_hashChain_eq_zero {cl : Column} :
    cl.hashChain.entries.length = 0 ↔ ∀ h, cl.hashChain.lookup h = none := by
  rw [List.length_eq_zero_iff]
  constructor
  · intro hnil h
    have hkeys : cl.hashChain.keys = [] := congrArg List.keys hnil
    rw [AList.lookup_eq_none, AList.mem_keys, hkeys]
    exact List.not_mem_nil
  · intro hall
    refine List.eq_nil_iff_forall_not_mem.mpr fun entry hentry => ?_
    have hmem : entry.1 ∈ cl.hashChain := List.mem_map_of_mem hentry
    exact absurd hmem (AList.lookup_eq_none.mp (hall entry.1))

theorem seqNum_addNode (hwf : jp.Wf) {b : Address} {c : ℕ} (h : jp.graph.lookup b = some c)
    (a : Address) : ((jp.addNode a).1.col c) = jp.col c := by
  cases hnew : jp.graph.lookup a with
  | some d => rw [addNode_known hnew]
  | none => rw [col_addNode_new hnew, if_neg (Nat.ne_of_lt (hwf.col_lt b c h))]

/-- The column of the creator after the columns of an event were added. -/
theorem col_withColumns (hwf : jp.Wf) (e : Event ℕ) :
    (jp.withColumns e).col (jp.columnOf e) =
      (jp.addNode e.selfSig.addr).1.col (jp.addNode e.selfSig.addr).2 := by
  unfold withColumns columnOf
  split_ifs
  · rfl
  · exact seqNum_addNode (grown_addNode hwf _).wf (lookup_addNode jp _) _

theorem columnOf_lt (hwf : jp.Wf) (e : Event ℕ) : jp.columnOf e < (jp.withColumns e).cols.next :=
  (grown_withColumns hwf e).wf.col_lt _ _ (lookup_withColumns jp e)

/-- The newest vertex of the creator's column. -/
theorem verTop_withColumns (hwf : jp.Wf) (e : Event ℕ) :
    ((jp.withColumns e).col (jp.columnOf e)).verTop = jp.newest e.selfSig.addr := by
  have htop : jp.newest e.selfSig.addr = (jp.withColumns e).links.top e.selfSig.addr := by
    rw [(grown_withColumns hwf e).links]
    rfl
  rw [htop]
  simp only [links, lookup_withColumns, Option.bind_some]

/-- The vertices after a new one was put on its column. -/
theorem vert_withNew (hwf : jp.Wf) (e : Event ℕ) (ty v : ℕ) :
    (jp.withNew e ty).vert v = if v = jp.verts.next then
      { newVertex e ty with
        selfPt := jp.newest e.selfSig.addr
        seqNum := jp.numberOf e.selfSig.addr } else jp.vert v := by
  have hverts := (grown_withColumns hwf e).verts
  unfold withNew
  rw [vert_withVertex, hverts, verTop_withColumns hwf, col_withColumns hwf]
  simp only [vert, hverts]
  rfl

theorem next_withNew (hwf : jp.Wf) (e : Event ℕ) (ty : ℕ) :
    (jp.withNew e ty).verts.next = jp.verts.next + 1 := by
  have hverts := (grown_withColumns hwf e).verts
  simp only [withNew, withVertex, Heap.next_alloc, hverts]

theorem rounds_withNew (hwf : jp.Wf) (e : Event ℕ) (ty : ℕ) :
    (jp.withNew e ty).rounds = jp.rounds ∧ (jp.withNew e ty).cells = jp.cells :=
  ⟨(grown_withColumns hwf e).rounds, (grown_withColumns hwf e).cells⟩

variable {e : Event ℕ} {jp' : JPGraph} {v : ℕ}

/-- A new vertex is the only one of its column, or of type `Witness`, just when it is entered as
a witness. -/
theorem entersWitness_iff (h : Site.Linked jp) (hnew : jp.held e.selfSig.addr e.selfHash = none)
    (ty : ℕ) :
    ((jp.graph.lookup e.selfSig.addr).isNone = true ∨ ty = Mark.witness ∨
      ((jp.withNew e ty).col (jp.columnOf e)).hashChain.entries.length = 1) ↔
      jp.EntersWitness e ty := by
  have hchain (k : Hash) : ((jp.withColumns e).col (jp.columnOf e)).hashChain.lookup k =
      jp.held e.selfSig.addr k := chain_withColumns h.wf e k
  have hnotMem : e.selfHash ∉ ((jp.withColumns e).col (jp.columnOf e)).hashChain :=
    AList.lookup_eq_none.mp ((hchain _).trans hnew)
  have hone : ((jp.withNew e ty).col (jp.columnOf e)).hashChain.entries.length = 1 ↔
      jp.newest e.selfSig.addr = none := by
    unfold withNew
    rw [col_withVertex (columnOf_lt h.wf e), if_pos rfl, AList.entries_insert_of_notMem hnotMem,
      List.length_cons, Nat.add_eq_right, length_hashChain_eq_zero]
    simp only [hchain]
    constructor
    · intro hall
      cases htop : jp.newest e.selfSig.addr with
      | none => rfl
      | some t =>
        obtain ⟨k, hk⟩ := h.columnar.top htop
        exact absurd (hk.symm.trans (hall k)) (by simp)
    · exact fun htop k => h.columnar.chain_of_top_none htop k
  have hfirst : (jp.graph.lookup e.selfSig.addr).isNone = true →
      jp.newest e.selfSig.addr = none := by
    intro hnone
    simp only [newest, Option.isNone_iff_eq_none.mp hnone, Option.bind_none]
  unfold EntersWitness
  rw [hone]
  constructor
  · rintro (hnone | hty | htop)
    · exact Or.inr (hfirst hnone)
    · exact Or.inl hty
    · exact Or.inr htop
  · rintro (hty | htop)
    · exact Or.inr (Or.inl hty)
    · exact Or.inr (Or.inr htop)

/-- The graph after a new event was put on its column and recorded in round `i`. -/
def recordedIn (jp : JPGraph) (e : Event ℕ) (ty i : ℕ) : JPGraph :=
  if jp.EntersWitness e ty then
    ((jp.withNew e ty).markVertex jp.verts.next Mark.witness).setWitness i
      (jp.numberOf e.selfSig.addr) jp.verts.next
  else jp.withNew e ty

/-- The record of a new event: it is entered in the round that the search finds. -/
theorem recordNew_eq (h : Site.Linked jp) (hnew : jp.held e.selfSig.addr e.selfHash = none) {x : ℤ}
    {i : ℕ} (hx : jp.roundOf e = some x) (hi : jp.searchRound x = some i) (ty : ℕ) :
    jp.recordNew e ty =
      if jp.EntersWitness e ty ∧ (jp.round i).witnesses.length ≤ jp.numberOf e.selfSig.addr then
        .error .indexOutOfRange
      else .ok (jp.recordedIn e ty i, some i) := by
  obtain ⟨hrounds, hcells⟩ := rounds_withNew h.wf e ty
  have hround : (jp.withNew e ty).round i = jp.round i := congrArg (Heap.get · i) hrounds
  have hevent : (jp.withNew e ty).roundOf ((jp.withNew e ty).vert jp.verts.next).event =
      some x := by
    rw [vert_withNew h.wf, if_pos rfl, ← hx]
    simp only [roundOf, newVertex, copyEvent_eq, hcells]
  have hsearch : (jp.withNew e ty).searchRound x = some i := by
    rw [← hi]
    exact searchRound_congr (congrArg Heap.next hrounds)
      (fun j => congrArg (fun rs => (Heap.get rs j).index) hrounds) x
  have hnumber : ((jp.withNew e ty).col (jp.columnOf e)).seqNum = jp.numberOf e.selfSig.addr := by
    unfold withNew
    rw [col_withVertex (columnOf_lt h.wf e), if_pos rfl, numberOf, ← col_withColumns h.wf e]
  have henters := entersWitness_iff h hnew ty
  unfold recordNew recordedIn
  rw [recordRound_eq hevent hsearch, hround, hnumber]
  by_cases hent : jp.EntersWitness e ty
  · rw [if_pos (henters.mpr hent), if_pos hent]
    simp only [hent, true_and]
    split_ifs with hlt hle hle
    · omega
    · rfl
    · rfl
    · omega
  · rw [if_neg (fun hent' => hent (henters.mp hent')), if_neg hent,
      if_neg fun hboth => hent hboth.1]

/-- Without a round number the record of a new event is a panic. -/
theorem recordNew_nil (h : Site.Linked jp) (hx : jp.roundOf e = none) (ty : ℕ) :
    jp.recordNew e ty = .error .nilDeref := by
  obtain ⟨hrounds, hcells⟩ := rounds_withNew h.wf e ty
  have hnil : (jp.withNew e ty).roundOf ((jp.withNew e ty).vert jp.verts.next).event = none := by
    rw [vert_withNew h.wf, if_pos rfl, ← hx]
    simp only [roundOf, newVertex, copyEvent_eq, hcells]
  exact recordRound_nil (by rw [hrounds]; exact h.queue) hnil _ _ _

/-- The vertices after a new event was recorded. -/
theorem vert_recordedIn (hwf : jp.Wf) (e : Event ℕ) (ty i v : ℕ) :
    (jp.recordedIn e ty i).vert v = if v = jp.verts.next then
      { newVertex e ty with
        witness := if jp.EntersWitness e ty then Mark.witness else ty
        selfPt := jp.newest e.selfSig.addr
        seqNum := jp.numberOf e.selfSig.addr } else jp.vert v := by
  unfold recordedIn
  split_ifs with henters hv hv
  · subst hv
    change ((jp.withNew e ty).verts.update jp.verts.next _).get jp.verts.next = _
    rw [Heap.get_update_self (by rw [next_withNew hwf]; omega)]
    change { (jp.withNew e ty).vert jp.verts.next with witness := Mark.witness } = _
    rw [vert_withNew hwf, if_pos rfl]
  · change ((jp.withNew e ty).verts.update jp.verts.next _).get v = _
    rw [Heap.get_update_ne _ hv]
    change (jp.withNew e ty).vert v = _
    rw [vert_withNew hwf, if_neg hv]
  · subst hv
    rw [vert_withNew hwf, if_pos rfl]
    rfl
  · rw [vert_withNew hwf, if_neg hv]

/-- The announcement of a new vertex only touches the channel. -/
theorem signalCreated_eq (jp : JPGraph) (v : ℕ) : jp.signalCreated v =
    { jp with selfEventCreated := jp.selfEventCreated ++
        if (jp.vert v).event.selfSig.addr.compare jp.coinbase = 0 ∧
          (jp.vert v).witness = Mark.normal then [v] else [] } := by
  unfold signalCreated
  split_ifs
  · rfl
  · rw [List.append_nil]

/-- What an undisturbed call of `AddEvent` does. -/
inductive AddEffect (keccak : List UInt8 → Hash) (jp : JPGraph) (e : Event ℕ) (ty : ℕ)
    (jp' : JPGraph) : Prop
  /-- The event is rejected. -/
  | rejected (invalid : validateEvent keccak e = false) (graph : jp' = jp)
  /-- The event is in its column already. -/
  | known (valid : validateEvent keccak e = true) (v : ℕ)
      (held : jp.held e.selfSig.addr e.selfHash = some v)
      (graph : jp' = if ty = Mark.witness then (jp.withColumns e).existedWitness v ty
        else jp.withColumns e)
  /-- A new vertex is put on its column, recorded in the round that the search finds, and
  announced. -/
  | stored (valid : validateEvent keccak e = true)
      (missing : jp.held e.selfSig.addr e.selfHash = none) (x : ℤ) (i : ℕ)
      (round : jp.roundOf e = some x) (search : jp.searchRound x = some i)
      (fits : jp.EntersWitness e ty →
        jp.numberOf e.selfSig.addr < (jp.round i).witnesses.length)
      (graph : Alike ((jp.recordedIn e ty i).signalCreated jp.verts.next) jp')

/-- Every undisturbed call of `AddEvent` on a graph in order has one of these effects. -/
theorem addEvent_effect (keccak : List UInt8 → Hash) (h : Site.Linked jp) (e : Event ℕ) (ty : ℕ) :
    Ensures (jp.addEvent keccak e ty) fun r => AddEffect keccak jp e ty r.1 := by
  intro r hr
  cases jp.addEvent_cases keccak h.wf e ty r hr with
  | rejected hinvalid hgraph => exact .rejected hinvalid hgraph
  | known hvalid v hheld hgraph => exact .known hvalid v hheld hgraph
  | stored hvalid hmissing rec hrec hgraph =>
    cases hx : jp.roundOf e with
    | none =>
      rw [recordNew_nil h hx] at hrec
      cases hrec
    | some x =>
      obtain ⟨i, hi⟩ := exists_searchRound h.queue x
      rw [recordNew_eq h hmissing hx hi] at hrec
      split_ifs at hrec with hfits
      cases hrec
      refine .stored hvalid hmissing x i hx hi (fun henters => ?_) hgraph
      exact Nat.lt_of_not_le fun hle => hfits ⟨henters, hle⟩

/-- The vertices after a new event was recorded and announced. -/
theorem vert_stored (hwf : jp.Wf) (e : Event ℕ) (ty i v : ℕ) :
    ((jp.recordedIn e ty i).signalCreated jp.verts.next).vert v = if v = jp.verts.next then
      { newVertex e ty with
        witness := if jp.EntersWitness e ty then Mark.witness else ty
        selfPt := jp.newest e.selfSig.addr
        seqNum := jp.numberOf e.selfSig.addr } else jp.vert v := by
  rw [← vert_recordedIn hwf, signalCreated_eq]
  rfl

theorem vert_markVertex (jp : JPGraph) (u ty v : ℕ) :
    (jp.markVertex u ty).vert v = jp.vert v ∨
      v = u ∧ (jp.markVertex u ty).vert v = { jp.vert v with witness := ty } :=
  Heap.get_update_eq_or jp.verts u v _

/-- `AddEvent` changes nothing but the mark and the other link of an old vertex. -/
theorem AddEffect.kept (h : AddEffect keccak jp e ty jp') (hwf : jp.Wf) (hv : v < jp.verts.next) :
    Vertex.Kept (jp.vert v) (jp'.vert v) := by
  have hcolumns : (jp.withColumns e).vert v = jp.vert v :=
    congrArg (Heap.get · v) (grown_withColumns hwf e).verts
  cases h with
  | rejected _ hgraph =>
    rw [hgraph]
    exact .refl _
  | known _ u _ hgraph =>
    rw [hgraph]
    split_ifs with hty
    · rw [← hcolumns, hty]
      change Vertex.Kept _ (((jp.withColumns e).markVertex u Mark.witness).vert v)
      rcases (jp.withColumns e).vert_markVertex u Mark.witness v with heq | ⟨-, heq⟩
      · rw [heq]
        exact .refl _
      · rw [heq]
        exact ⟨rfl, rfl, rfl, Or.inr rfl⟩
    · rw [hcolumns]
      exact .refl _
  | stored _ _ x i _ _ _ hgraph =>
    have hold := vert_stored hwf e ty i v
    rw [if_neg (Nat.ne_of_lt hv)] at hold
    refine ⟨?_, ?_, ?_, Or.inl ?_⟩
    · rw [hgraph.event, hold]
    · rw [hgraph.selfPt, hold]
    · rw [hgraph.seqNum, hold]
    · rw [hgraph.witness, hold]

/-- The number of vertices after a new event was recorded. -/
theorem next_recordedIn (hwf : jp.Wf) (e : Event ℕ) (ty i : ℕ) :
    (jp.recordedIn e ty i).verts.next = jp.verts.next + 1 := by
  unfold recordedIn
  split_ifs
  · exact (Heap.next_update ..).trans (next_withNew hwf e ty)
  · exact next_withNew hwf e ty

/-- The number of vertices after a stored event was delivered again. -/
theorem next_existed (hwf : jp.Wf) (e : Event ℕ) (ty v : ℕ) :
    (if ty = Mark.witness then (jp.withColumns e).existedWitness v ty
      else jp.withColumns e).verts.next = jp.verts.next := by
  have hcolumns := congrArg Heap.next (grown_withColumns hwf e).verts
  split_ifs
  · exact (frame_existedWitness (jp.withColumns e) v ty).next.trans hcolumns
  · exact hcolumns

/-- `AddEvent` removes no vertex. -/
theorem AddEffect.next_le (h : AddEffect keccak jp e ty jp') (hwf : jp.Wf) :
    jp.verts.next ≤ jp'.verts.next := by
  cases h with
  | rejected _ hgraph => rw [hgraph]
  | known _ u _ hgraph => rw [hgraph, next_existed hwf]
  | stored _ _ x i _ _ _ hgraph =>
    rw [hgraph.next, signalCreated_eq, next_recordedIn hwf]
    exact Nat.le_succ _

/-- `AddEvent` creates a vertex for an event that it accepts and does not find. -/
theorem AddEffect.next_new (h : AddEffect keccak jp e ty jp') (hwf : jp.Wf)
    (hvalid : validateEvent keccak e = true) (hmissing : jp.held e.selfSig.addr e.selfHash = none) :
    jp.verts.next < jp'.verts.next := by
  cases h with
  | rejected hinvalid _ => simp [hvalid] at hinvalid
  | known _ u hheld _ => simp [hmissing] at hheld
  | stored _ _ x i _ _ _ hgraph =>
    rw [hgraph.next, signalCreated_eq, next_recordedIn hwf]
    exact Nat.lt_succ_self _

/-- The vertex that `AddEvent` creates. -/
structure NewVertex (jp : JPGraph) (e : Event ℕ) (ty : ℕ) (vert : Vertex) : Prop where
  /-- The event is a copy. -/
  event : vert.event = copyEvent e
  /-- It follows the newest vertex of the column. -/
  selfPt : vert.selfPt = jp.newest e.selfSig.addr
  /-- It has the number of the column. -/
  seqNum : vert.seqNum = jp.numberOf e.selfSig.addr
  /-- It is marked. -/
  witness : vert.witness = if jp.EntersWitness e ty then Mark.witness else ty

/-- `AddEvent` creates at most one vertex. -/
theorem AddEffect.created (h : AddEffect keccak jp e ty jp') (hwf : jp.Wf) (hv : v < jp'.verts.next)
    (hnew : jp.verts.next ≤ v) : v = jp.verts.next ∧ NewVertex jp e ty (jp'.vert v) := by
  cases h with
  | rejected _ hgraph =>
    rw [hgraph] at hv
    omega
  | known _ u _ hgraph =>
    rw [hgraph, next_existed hwf] at hv
    omega
  | stored _ _ x i _ _ _ hgraph =>
    rw [hgraph.next, signalCreated_eq, next_recordedIn hwf] at hv
    obtain rfl : v = jp.verts.next := by omega
    have hvert := vert_stored hwf e ty i jp.verts.next
    rw [if_pos rfl] at hvert
    refine ⟨rfl, ?_, ?_, ?_, ?_⟩
    · rw [hgraph.event, hvert]
      rfl
    · rw [hgraph.selfPt, hvert]
    · rw [hgraph.seqNum, hvert]
    · rw [hgraph.witness, hvert]

/-- The event of a new vertex is a copy. -/
theorem AddEffect.event_new (h : AddEffect keccak jp e ty jp') (hwf : jp.Wf)
    (hvalid : validateEvent keccak e = true) (hmissing : jp.held e.selfSig.addr e.selfHash = none) :
    (jp'.vert jp.verts.next).event = copyEvent e := by
  cases h with
  | rejected hinvalid _ => simp [hvalid] at hinvalid
  | known _ u hheld _ => simp [hmissing] at hheld
  | stored _ _ x i _ _ _ hgraph =>
    rw [hgraph.event, vert_stored hwf, if_pos rfl]
    rfl

end JPGraph

/-- A graph with a round number more is in order. -/
theorem Received.linked {e : Event ℤ} (h : Received jp e jp₀ e₀) (hlinked : Site.Linked jp) :
    Site.Linked jp₀ := by
  refine ⟨h.wf hlinked.wf, h.links ▸ hlinked.sound, h.links ▸ hlinked.columnar,
    h.links ▸ hlinked.waiting, ?_⟩
  rw [h.rest]
  exact hlinked.queue

theorem Received.read {e : Event ℤ} (h : Received jp e jp₀ e₀) {β : Type} {g : JPGraph → β}
    (hg : ∀ jp cells, g { jp with cells := cells } = g jp) : g jp₀ = g jp := by
  rw [h.rest, hg]

theorem Received.held {e : Event ℤ} (h : Received jp e jp₀ e₀) :
    jp₀.held e₀.selfSig.addr e₀.selfHash = jp.held e.selfSig.addr e.selfHash := by
  rw [h.rest, h.event]
  rfl

theorem Received.entersWitness {e : Event ℤ} (h : Received jp e jp₀ e₀) (ty : ℕ) :
    jp₀.EntersWitness e₀ ty ↔ jp.EntersWitness e ty := by
  rw [h.rest, h.event]
  rfl

/-- The column of the creator has its number. -/
theorem Received.numberOf {e : Event ℤ} (h : Received jp e jp₀ e₀) :
    jp₀.numberOf e₀.selfSig.addr = jp.numberOf e.selfSig.addr := by
  rw [h.rest, h.event]
  unfold JPGraph.numberOf
  cases hlook : jp.graph.lookup e.selfSig.addr with
  | none => simp [JPGraph.addNode, hlook, JPGraph.addNodeInsert, JPGraph.addNodeMajority,
      JPGraph.setCol, JPGraph.col]
  | some c => simp [JPGraph.addNode, hlook, JPGraph.col]

/-- What a move does that passes an event to `AddEvent`. -/
theorem Site.step_effect {s : Site} (h : Linked s.graph) {m : Move} {e : Event ℤ}
    (hadded : s.added m = some (e, ty)) :
    Ensures (s.step keccak m) fun s' => ∃ jp₀ e₀, Received s.graph e jp₀ e₀ ∧ Linked jp₀ ∧
      JPGraph.AddEffect keccak jp₀ e₀ ty s'.graph ∧ s' = { s with graph := s'.graph } := by
  intro s' hs'
  obtain ⟨jp₀, e₀, err, hrec, hadd, hs'⟩ := step_added hadded s' hs'
  have hlinked := hrec.linked h
  exact ⟨jp₀, e₀, hrec, hlinked, JPGraph.addEvent_effect keccak hlinked e₀ ty _ hadd, hs'⟩

end Hashgrid.Core
