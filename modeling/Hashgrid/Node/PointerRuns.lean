import Hashgrid.Core.Columns
import Hashgrid.Node.PointerSteps

/-!
# Runs keep the watched event in one round

The invariant of a whole node. A step keeps it if the watched event is stored with its
round number only, and is entered as a witness by `AddEvent` only when its round is there.
-/

namespace Hashgrid.Node

open Hashgrid.Bytes Hashgrid.Core Hashgrid.Machine Hashgrid.Wire

/-- What a call of `AddEvent` has found out about the graph. -/
def PcOk (jp : JPGraph) (e : Event ℕ) : AddPc → Prop
  | .start | .selfCheck .. | .selfInsert .. => True
  | .selfMajority _ _ c _ | .otherCheck c _ | .otherInsert c _ | .otherMajority c _ _ _
  | .insert c _ _ => ColumnOf jp c e.selfSig.addr
  | .existed v | .trigger v | .link _ _ _ v | .request _ _ v | .record _ _ v _ | .comer _ v _
  | .lost _ v _ | .created v => v < jp.verts.next

/-- A call of `AddEvent` is about an event whose pointer is right. -/
structure CallOk (own : ℕ → Prop) (jp : JPGraph) (call : AddCall) : Prop where
  /-- The pointer of the event. -/
  pointer : PointerOk own jp call.event
  /-- Nothing is added as a local witness. -/
  type : call.type ≠ Mark.witnessLocal
  /-- Where the call stands. -/
  pc : PcOk jp call.event call.pc

/-- The vertex that `MonitorLoop` holds is one of this node. -/
def MonitorOk (jp : JPGraph) : MonitorPc → Prop
  | .front | .receive _ => True
  | .put v | .mark v | .trigger v => OwnVertex jp v

/-- A call stores the watched event with its round number only, and enters it as a witness only
when its round is in the queue. -/
def Target.Faithful (t : Target) (jp : JPGraph) (call : AddCall) : Prop :=
  match call.pc with
  | .insert c _ _ => t.Is call.event → (jp.col c).hashChain.lookup call.event.selfHash = none →
      jp.roundOf call.event = some (t.round : ℤ)
  | .record c firstWitness v _ => t.Is (jp.vert v).event →
      (firstWitness ∨ call.type = Mark.witness ∨ (jp.col c).hashChain.entries.length = 1) →
      ∃ i ∈ jp.queue, (jp.round i).index = t.round
  | _ => True

instance (t : Target) (jp : JPGraph) (call : AddCall) : Decidable (t.Faithful jp call) := by
  unfold Target.Faithful
  split <;> infer_instance

/-- The invariant of a node. -/
structure NodeInv (t : Target) (own : ℕ → Prop) (s : NodeState) : Prop where
  /-- The graph. -/
  graph : GraphInv t own s.graph
  /-- The event of the event loop. -/
  event : ∀ e, s.handler.et = some e → PointerOk own s.graph e
  /-- The calls of `AddEvent`. -/
  adds : ∀ call ∈ s.adds, CallOk own s.graph call
  /-- `MonitorLoop`. -/
  monitor : MonitorOk s.graph s.monitor.pc

variable {t : Target} {own own' : ℕ → Prop} {jp jp' : JPGraph} {e : Event ℕ} {call : AddCall}
  {i : ℕ}

/-- What a call has found out stays. -/
theorem pcOk_iff {pc : AddPc} : PcOk jp e pc ↔
    (∀ c ∈ pc.column, ColumnOf jp c e.selfSig.addr) ∧ ∀ v ∈ pc.vertex, v < jp.verts.next := by
  cases pc <;> simp [PcOk, AddPc.column, AddPc.vertex]

theorem PcOk.grows {pc : AddPc} (h : PcOk jp e pc) (hg : Grows jp jp') : PcOk jp' e pc := by
  rw [pcOk_iff] at h ⊢
  exact ⟨fun c hc => hg.columnOf (h.1 c hc), fun v hv => lt_of_lt_of_le (h.2 v hv) hg.verts⟩

theorem CallOk.grows (h : CallOk own jp call) (hown : ∀ k < jp.cells.next, (own' k ↔ own k))
    (hg : Grows jp jp') : CallOk own' jp' call :=
  ⟨hg.pointerOk hown h.pointer, h.type, h.pc.grows hg⟩

/-- `MonitorLoop` is not disturbed by others. -/
theorem MonitorOk.grows {pc : MonitorPc} (h : MonitorOk jp pc) (hg : Grows jp jp') :
    MonitorOk jp' pc := by
  cases pc with
  | front | receive => trivial
  | put | mark | trigger => exact hg.ownVertex h

/-- A step of a faithful call keeps the invariant of the graph. -/
theorem GraphInv.callStep (h : GraphInv t own jp) (hcall : CallOk own jp call)
    (hfaithful : t.Faithful jp call) (keccak : List UInt8 → Hash) :
    Ensures (call.step keccak jp) fun r => GraphInv t own r.1 ∧ Grows jp r.1 ∧
      ∀ pc, r.2 = some pc → PcOk r.1 call.event pc := by
  obtain ⟨hpointer, hty, hpc⟩ := hcall
  obtain ⟨e, ty, pc⟩ := call
  intro r hr
  obtain ⟨hcolumn, hvertex⟩ := pcOk_iff.mp hpc
  dsimp only at hpointer hty hcolumn hvertex
  -- The call goes on with the column and the vertex that it had, or without.
  have hgoes {jp' : JPGraph} {next : Option AddPc} (hstep : GraphInv t own jp' ∧ Grows jp jp')
      (hcol : ∀ c ∈ next.bind AddPc.column, c ∈ pc.column)
      (hvert : ∀ v ∈ next.bind AddPc.vertex, v ∈ pc.vertex) :
      GraphInv t own jp' ∧ Grows jp jp' ∧ ∀ pc, next = some pc → PcOk jp' e pc := by
    refine ⟨hstep.1, hstep.2, fun pc' hpc' => pcOk_iff.mpr ⟨fun c hc => ?_, fun v hv => ?_⟩⟩
    · exact hstep.2.columnOf (hcolumn c (hcol c (hpc' ▸ hc)))
    · exact lt_of_lt_of_le (hvertex v (hvert v (hpc' ▸ hv))) hstep.2.verts
  have hneutral {jp' : JPGraph} (hn : jp.Alike jp') : GraphInv t own jp' ∧ Grows jp jp' :=
    ⟨h.neutral hn.neutral, (sameStore_of_neutral hn.neutral).grows⟩
  have hnone {o : Option ℕ} : ∀ c ∈ (none : Option ℕ), c ∈ o := fun _ hc => by cases hc
  have hsame {o : Option ℕ} : ∀ c ∈ o, c ∈ o := fun _ hc => hc
  cases AddCall.step_moves keccak ⟨e, ty, pc⟩ jp r hr with
  | rejects => exact ⟨h, .refl jp, nofun⟩
  | looks _ _ hnext hlook =>
    refine ⟨h, .refl jp, fun q hq => pcOk_iff.mpr ⟨fun c hc => ?_, fun v hv => ?_⟩⟩
    · cases hq
      exact (hlook c hc).elim (hcolumn c) (h.graph _ c)
    · cases hq
      cases hnext.symm.trans hv
  | selfInsert =>
    obtain ⟨hinv, hgrows, hcol⟩ := h.addNodeInsert e.selfSig.addr
    exact ⟨hinv, hgrows, by rintro _ ⟨⟩; exact hcol⟩
  | selfMajority oc ok2 c mlen =>
    refine hgoes (h.addNodeMajority c mlen) (fun d hd => ?_) (by simp)
    exact (AddPc.column_afterSelf ..).symm.trans hd
  | otherInsert =>
    obtain ⟨hinv, hgrows, -⟩ := h.addNodeInsert e.otherPartA
    exact hgoes ⟨hinv, hgrows⟩ hsame hnone
  | otherMajority sc fw c mlen => exact hgoes (h.addNodeMajority c mlen) hsame hnone
  | known fw oc hlook =>
    refine ⟨h, .refl jp, fun q hq => ?_⟩
    split_ifs at hq
    cases hq
    exact h.chain _ _ _ hlook
  | @inserts sc fw oc hlook =>
    refine ⟨h.withVertex (hcolumn sc rfl) hpointer hty fun ht => hfaithful ht hlook,
      grows_withVertex jp e ty sc, ?_⟩
    rintro _ ⟨⟩
    exact (Nat.lt_succ_self _).trans_eq (Heap.next_alloc ..).symm
  | existed v =>
    exact hgoes ⟨h.markVertex fun hlocal => absurd hlocal hty, (sameStore_markVertex jp v ty).grows⟩
      hnone hsame
  | trigger v =>
    exact hgoes ⟨h.triggerRound (hvertex v rfl), (sameStore_triggerRound jp v).grows⟩ hnone hnone
  | link sc fw oc v =>
    refine hgoes (hneutral (jp.alike_linkOther v oc)) ?_ ?_
    · split_ifs <;> exact hnone
    · split_ifs <;> exact hsame
  | request sc fw v => exact hgoes (hneutral (jp.alike_requestParentEvent v)) hnone hsame
  | @record _ v _ round _ hround =>
    refine hgoes (h.recordRound (hvertex v rfl) hfaithful round hround) ?_ ?_
    · cases round.2 <;> exact hnone
    · cases round.2 <;> exact hsame
  | comer _ hjp' => exact hgoes (hneutral (jp.alike_addComer _ _ _ hjp')) hnone hsame
  | lost i v linkpost => exact hgoes (hneutral (jp.alike_updateLost i v linkpost)) hnone hsame
  | created v =>
    exact hgoes ⟨h.signalCreated (hvertex v rfl), (sameStore_signalCreated jp v).grows⟩ hnone hnone

/-- `MonitorLoop` keeps the invariant of the graph. -/
theorem GraphInv.monitorStep (h : GraphInv t own jp) {m : Monitor} (hm : MonitorOk jp m.pc)
    (order : ℕ → List Address) :
    Ensures (m.step jp order) fun r =>
      GraphInv t own r.2 ∧ Grows jp r.2 ∧ MonitorOk r.2 r.1.pc := by
  obtain ⟨pc, roundNum⟩ := m
  unfold Monitor.step
  cases pc with
  | front =>
    dsimp only
    split
    · exact .error
    · exact .ok ⟨h, .refl jp, trivial⟩
  | receive i =>
    dsimp only
    split
    · exact .error
    · next v rest hq =>
      have hs : SameStore jp { jp with selfEventCreated := rest } := sameStore_rest jp
      have hinv : GraphInv t own { jp with selfEventCreated := rest } :=
        h.sameStore hs (fun u hu => h.created u (hq ▸ List.mem_cons_of_mem v hu)) h.trigger
          (h.sameChannels rfl rfl rfl) h.mark h.table
      have hv : OwnVertex jp v := h.created v (hq ▸ List.mem_cons_self)
      unfold Monitor.judge
      split_ifs
      · exact .ok ⟨hinv, hs.grows, trivial⟩
      · refine .bind (sameButColors_countSees _ _ _ _) fun st hst => ?_
        have hgrows := hs.grows.trans (sameStore_of_neutral hst.alike.neutral).grows
        dsimp only
        split_ifs
        · exact .ok ⟨hinv.neutral hst.alike.neutral, hgrows, hgrows.ownVertex hv⟩
        · exact .ok ⟨hinv.neutral hst.alike.neutral, hgrows, trivial⟩
  | put v =>
    have hput (e : Event ℕ) (he : e ∈ jp.witnessL ++ [(jp.vert v).event]) : PointerOk own jp e := by
      rcases List.mem_append.mp he with he | he
      · exact h.channel .witnessL e he
      · rw [List.mem_singleton.mp he]
        exact h.pointer v hm.1
    obtain ⟨hinv, hgrows⟩ := h.setChannels (h.channel .eventNorm) (h.channel .witnessR) hput
    exact .ok ⟨hinv, hgrows, hgrows.ownVertex hm⟩
  | mark v =>
    have hs := sameStore_markVertex jp v Mark.witnessLocal
    exact .ok ⟨h.markVertex fun _ => hm.2, hs.grows, hs.grows.ownVertex hm⟩
  | trigger v => exact .ok ⟨h.triggerRound hm.1, (sameStore_triggerRound jp v).grows, trivial⟩

/-- The action does not let `AddEvent` store the watched event with another round number, or enter
it as a witness while its round is missing. -/
def Target.FaithfulStep (t : Target) (s : NodeState) : Action → Prop
  | .add i =>
    match s.adds[i]? with
    | none => True
    | some call => t.Faithful s.graph call
  | _ => True

/-- A step of a call is faithful just when the call, if there is one, is. -/
theorem Target.all_faithful_iff {s : NodeState} :
    (s.adds[i]?.all fun call => decide (t.Faithful s.graph call)) = true ↔
      t.FaithfulStep s (.add i) := by
  rw [Target.FaithfulStep]
  cases s.adds[i]? <;> simp

instance (t : Target) (s : NodeState) : (a : Action) → Decidable (t.FaithfulStep s a)
  | .add _ => decidable_of_iff _ Target.all_faithful_iff
  | .handle _ | .receive _ _ | .send _ | .cast _ | .roundLoop | .monitor _ | .consensusShow =>
    isTrue trivial

variable {s s' : NodeState}

/-- The invariant of a node after a step: what is new has to be right. -/
theorem NodeInv.next (h : NodeInv t own s) (hinv : GraphInv t own' s'.graph)
    (hown : ∀ k < s.graph.cells.next, (own' k ↔ own k)) (hgrows : Grows s.graph s'.graph)
    (hevent : ∀ e, s'.handler.et = some e → s.handler.et = some e ∨ PointerOk own' s'.graph e)
    (hadds : ∀ call ∈ s'.adds, call ∈ s.adds ∨ CallOk own' s'.graph call)
    (hmonitor : s'.monitor = s.monitor ∨ MonitorOk s'.graph s'.monitor.pc) : NodeInv t own' s' where
  graph := hinv
  event e he := (hevent e he).elim (fun he => hgrows.pointerOk hown (h.event e he)) id
  adds call hcall := (hadds call hcall).elim (fun hc => (h.adds call hc).grows hown hgrows) id
  monitor := hmonitor.elim (fun hm => hm ▸ h.monitor.grows hgrows) id

/-- The invariant of a node after a step on the graph alone. -/
theorem NodeInv.setGraph (h : NodeInv t own s) (hinv : GraphInv t own' s'.graph)
    (hown : ∀ k < s.graph.cells.next, (own' k ↔ own k)) (hgrows : Grows s.graph s'.graph)
    (hhandler : s'.handler = s.handler) (hadds : s'.adds = s.adds)
    (hmonitor : s'.monitor = s.monitor) : NodeInv t own' s' :=
  h.next hinv hown hgrows (fun _ he => Or.inl (hhandler ▸ he)) (fun _ hc => Or.inl (hadds ▸ hc))
    (Or.inl hmonitor)

/-- A turn of the event loop keeps the invariant. -/
theorem NodeInv.handleStep (h : NodeInv t own s) (keccak : List UInt8 → Hash) (b : Branch) :
    Ensures (s.handleStep keccak b) fun r => ∃ own', NodeInv t own' r.1 := by
  refine .bind (.self _) fun tn htn => .ok ?_
  have hkind := eventHandle_cases keccak s.handler s.graph b tn htn
  have hcalls := mem_addCalls keccak s.handler s.graph b tn htn
  have hturn : ∃ own', GraphInv t own' tn.graph ∧
      (∀ k < s.graph.cells.next, (own' k ↔ own k)) ∧ Grows s.graph tn.graph ∧
      ∀ e, tn.handler.et = some e → PointerOk own' tn.graph e := by
    cases hkind with
    | take ch e hb hhead he hgraph =>
      obtain ⟨hinv, hgrows⟩ := h.graph.dropEvent ch
      rw [← hgraph] at hinv hgrows
      refine ⟨own, hinv, fun _ _ => Iff.rfl, hgrows, fun e' he' => ?_⟩
      rw [he] at he'
      cases he'
      exact hgrows.pointerOk (fun _ _ => Iff.rfl)
        (h.graph.channel ch e (List.mem_of_mem_head? hhead))
    | compose now rand e hb hcomp he =>
      obtain ⟨own', hinv, hown, hgrows, hpointer⟩ :=
        h.graph.composeEvent keccak now rand _ hcomp
      refine ⟨own', hinv, hown, hgrows, fun e' he' => ?_⟩
      rw [he] at he'
      cases he'
      exact hpointer
    | idle hb he hn =>
      have hgrows := (sameStore_of_neutral hn).grows
      refine ⟨own, h.graph.neutral hn, fun _ _ => Iff.rfl, hgrows, fun e' he' => ?_⟩
      exact hgrows.pointerOk (fun _ _ => Iff.rfl) (h.event e' (he ▸ he'))
  obtain ⟨own', hinv, hown, hgrows, hevent⟩ := hturn
  refine ⟨own', h.next hinv hown hgrows (fun e he => Or.inr (hevent e he)) ?_ (Or.inl rfl)⟩
  intro call hcall
  rcases List.mem_append.mp hcall with hcall | hcall
  · exact Or.inl hcall
  · obtain ⟨c, hc, rfl⟩ := List.mem_map.mp hcall
    obtain ⟨he, hty⟩ := hcalls c hc
    exact Or.inr ⟨hevent _ he, hty, trivial⟩

/-- A message keeps the invariant. -/
theorem NodeInv.receiveStep (h : NodeInv t own s) (msg : Msg) (pick : ℕ) :
    Ensures (s.receiveStep msg pick) fun r => ∃ own', NodeInv t own' r.1 := by
  refine .bind (handle_cases s.graph msg pick) fun hd hhd => .ok ?_
  have hmsg : ∃ own', GraphInv t own' hd.graph ∧
      (∀ k < s.graph.cells.next, (own' k ↔ own k)) ∧ Grows s.graph hd.graph := by
    rcases hhd with hhd | ⟨-, ch, -, hput⟩
    · rw [hhd]
      exact ⟨own, h.graph, fun _ _ => Iff.rfl, .refl _⟩
    · obtain ⟨own', hinv, hown, hgrows, hpointer⟩ := h.graph.receive (decodeMsg msg)
      obtain ⟨hinv', hgrows'⟩ := hinv.putEvent ch hpointer _ hput
      exact ⟨own', hinv', hown, hgrows.trans hgrows'⟩
  obtain ⟨own', hinv, hown, hgrows⟩ := hmsg
  exact ⟨own', h.setGraph hinv hown hgrows rfl rfl rfl⟩

/-- A step of a faithful call keeps the invariant. -/
theorem NodeInv.addStep (h : NodeInv t own s) (keccak : List UInt8 → Hash)
    (ha : t.FaithfulStep s (.add i)) : Ensures (s.addStep keccak i) fun r => NodeInv t own r.1 := by
  unfold NodeState.addStep
  split
  · exact .error
  · next call hcall =>
    have hok := h.adds call (List.mem_of_getElem? hcall)
    have hfaithful : t.Faithful s.graph call := by simpa only [Target.FaithfulStep, hcall] using ha
    refine .bind (h.graph.callStep hok hfaithful keccak) fun r hr => ?_
    obtain ⟨jp, next⟩ := r
    obtain ⟨hinv, hgrows, hpc⟩ := hr
    cases next with
    | some pc =>
      refine .ok (h.next hinv (fun _ _ => Iff.rfl) hgrows (fun e he => Or.inl he) ?_ (Or.inl rfl))
      intro c hc
      rcases List.mem_or_eq_of_mem_set hc with hc | rfl
      · exact Or.inl hc
      · exact Or.inr ⟨hgrows.pointerOk (fun _ _ => Iff.rfl) hok.pointer, hok.type, hpc pc rfl⟩
    | none =>
      exact .ok (h.next hinv (fun _ _ => Iff.rfl) hgrows (fun e he => Or.inl he)
        (fun c hc => Or.inl (List.mem_of_mem_eraseIdx hc)) (Or.inl rfl))

/-- `RoundLoop` keeps the invariant. -/
theorem NodeInv.roundLoopStep (h : NodeInv t own s) :
    Ensures s.roundLoopStep fun r => NodeInv t own r.1 := by
  unfold NodeState.roundLoopStep
  split
  · next idx _ =>
    have hn : s.graph.Neutral
        { s.graph with consensusTrigger := s.graph.consensusTrigger ++ [idx] } :=
      s.graph.neutral_queues _ _ _
    exact .ok (h.setGraph (h.graph.neutral hn) (fun _ _ => Iff.rfl) (sameStore_of_neutral hn).grows
      rfl rfl rfl)
  · split
    · exact .error
    · next v rest hq =>
      have hs : SameStore s.graph { s.graph with roundTrigger := rest } := sameStore_rest s.graph
      have hinv : GraphInv t own { s.graph with roundTrigger := rest } :=
        h.graph.sameStore hs h.graph.created
          (fun u hu => h.graph.trigger u (hq ▸ List.mem_cons_of_mem v hu))
          (h.graph.sameChannels rfl rfl rfl) h.graph.mark h.graph.table
      have hv : v < s.graph.verts.next := h.graph.trigger v (hq ▸ List.mem_cons_self)
      refine .bind (hinv.roundLoop hv) fun r hr => .ok ?_
      exact h.setGraph hr.1 (fun _ _ => Iff.rfl) (hs.grows.trans hr.2) rfl rfl rfl

/-- Every faithful step keeps the invariant. -/
theorem NodeInv.step (h : NodeInv t own s) (keccak : List UInt8 → Hash) {a : Action}
    (ha : t.FaithfulStep s a) :
    Ensures (s.step keccak a) fun r => ∃ own', NodeInv t own' r.1 := by
  refine NodeState.step_of_move ?_
  have hkeep {x : Except Stop (NodeState × List Output)}
      (hx : Ensures x fun r => NodeInv t own r.1) :
      Ensures x fun r => ∃ own', NodeInv t own' r.1 := fun r hr => ⟨own, hx r hr⟩
  unfold NodeState.move
  cases a with
  | handle b => exact h.handleStep keccak b
  | receive msg pick => exact h.receiveStep msg pick
  | add i => exact hkeep (h.addStep keccak ha)
  | send i =>
    dsimp only [NodeState.sendStep]
    split
    · exact .error
    · exact hkeep (.ok ⟨h.graph, h.event, h.adds, h.monitor⟩)
  | cast i =>
    dsimp only [NodeState.castStep]
    split
    · exact hkeep (.ok h)
    · exact .error
  | roundLoop => exact hkeep h.roundLoopStep
  | monitor order =>
    refine hkeep (.bind (h.graph.monitorStep h.monitor order) fun r hr => .ok ?_)
    obtain ⟨m, jp⟩ := r
    obtain ⟨hinv, hgrows, hm⟩ := hr
    exact h.next hinv (fun _ _ => Iff.rfl) hgrows (fun e he => Or.inl he) (fun c hc => Or.inl hc)
      (Or.inr hm)
  | consensusShow =>
    dsimp only [NodeState.consensusStep]
    split
    · exact .error
    · next rest _ =>
      have hn : s.graph.Neutral { s.graph with consensusTrigger := rest } :=
        s.graph.neutral_queues _ _ _
      exact hkeep (.ok (h.setGraph (h.graph.neutral hn) (fun _ _ => Iff.rfl)
        (sameStore_of_neutral hn).grows rfl rfl rfl))

end Hashgrid.Node
