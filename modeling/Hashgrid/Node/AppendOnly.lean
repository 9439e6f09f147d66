import Hashgrid.Core.Acyclic
import Hashgrid.Core.LinkOnce
import Hashgrid.Lib.Pool
import Hashgrid.Node.Placed
import Hashgrid.Node.Queues

/-!
# Nodes only add

Whatever messages come in and however the goroutines of a node interleave, the references
between its vertices are right, and what is known about a vertex stays as it is. Two nodes
therefore agree on the ancestors of an event that both of them have stored. Vertices also stay
in their columns, as long as no column is stored for an address that has one.
-/

namespace Hashgrid.Core.JPGraph

open Hashgrid.Bytes

/-- Vertices stay with what is known about them; an other link may come, but does not change. -/
structure Appends (jp jp' : JPGraph) : Prop extends Extends jp jp' where
  /-- Other links stay. -/
  links : KeepsLinks jp jp'

theorem Appends.refl (jp : JPGraph) : Appends jp jp := ⟨.refl jp, fun _ _ hp => hp⟩

theorem Appends.trans {jp jp' jp'' : JPGraph} (h : Appends jp jp') (h' : Appends jp' jp'') :
    Appends jp jp'' :=
  ⟨h.toExtends.trans h'.toExtends, fun v p hp => h'.links v p (h.links v p hp)⟩

/-- What a goroutine other than a call of `AddEvent` does to the vertices. -/
structure Upholds (keccak : List UInt8 → Hash) (jp jp' : JPGraph) : Prop where
  /-- References stay right. -/
  referring : jp'.Referring keccak
  /-- What is there stays. -/
  extends_ : jp.Extends jp'
  /-- Other links and dictionaries stay. -/
  links : jp.LinksStay jp'
  /-- No vertex is added. -/
  next : jp'.verts.next = jp.verts.next
  /-- The addresses stay. -/
  graph : jp'.graph = jp.graph
  /-- The columns stay. -/
  cols : jp'.cols = jp.cols

theorem SameThreads.upholds {keccak : List UInt8 → Hash} {jp jp' : JPGraph}
    (hs : SameThreads jp jp') (h : jp.Referring keccak) : Upholds keccak jp jp' :=
  ⟨h.same hs, hs.extends_, hs.linksStay, hs.next, hs.graph, hs.cols⟩

/-- The vertex that is reached by a number of other links. -/
def otherAncestor (jp : JPGraph) : ℕ → ℕ → Option ℕ
  | 0, v => some v
  | n + 1, v => (jp.vert v).anotherPt.bind (otherAncestor jp n)

end Hashgrid.Core.JPGraph

namespace Hashgrid.Node

open Hashgrid.Bytes Hashgrid.Core Hashgrid.Machine Hashgrid.Wire

variable {jp : JPGraph}

/-- A step of `MonitorLoop` leaves vertices and rounds alone apart from marks and colours. -/
theorem sameThreads_monitorEffect {m : Monitor} {r : Monitor × JPGraph} (h : MonitorEffect m jp r) :
    jp.SameThreads r.2 := by
  cases h with
  | front i hpc hhead hmonitor hgraph =>
    rw [hgraph]
    exact .refl jp
  | receive i v rest hpc hq hmonitor hgraph =>
    have hq : jp.SameThreads { jp with selfEventCreated := rest } := .of_eq rfl
    exact hq.trans hgraph.sameThreads
  | put v hpc hmonitor hgraph =>
    rw [hgraph]
    exact .of_eq rfl
  | mark v hpc hmonitor hgraph =>
    rw [hgraph]
    exact jp.sameThreads_markVertex v _
  | trigger v hpc hmonitor hgraph =>
    rw [hgraph]
    exact jp.sameThreads_triggerRound v

/-- Putting an event into a channel leaves vertices and rounds alone. -/
theorem sameThreads_putEvent (jp : JPGraph) (ch : Channel) (e : Event ℕ) :
    Ensures (putEvent jp ch e) jp.SameThreads := by
  unfold putEvent
  split_ifs
  · cases ch <;> exact .ok (.of_eq rfl)
  · exact .error

/-- Handling a message leaves vertices and rounds alone. -/
theorem sameThreads_handle (jp : JPGraph) (msg : Msg) (pick : ℕ) :
    Ensures (handle jp msg pick) fun hd => jp.SameThreads hd.graph := by
  intro hd hhd
  rcases handle_cases jp msg pick hd hhd with heq | ⟨-, ch, -, hput⟩
  · rw [heq]
    exact .refl jp
  · have hreceive : jp.SameThreads (jp.receive (decodeMsg msg)).1 := by
      unfold JPGraph.receive
      cases (decodeMsg msg).roundID <;> exact .of_eq rfl
    exact hreceive.trans (sameThreads_putEvent _ ch _ _ hput)

/-- The time and the random number with which a turn of the event loop composes an event. -/
def Branch.composes (h : Handler) : Branch → Option (ℤ × ℕ)
  | .onlyTime now rand => some (now, rand)
  | .overFlow now rand => if h.transUnHandled > maxTransInEvent then some (now, rand) else none
  | _ => none

/-- The event that a turn of the event loop composes. -/
def composedIn (keccak : List UInt8 → Hash) (h : Handler) (jp : JPGraph) (b : Branch) :
    Option (Event ℕ) :=
  (b.composes h).bind fun clock => (jp.composeEvent keccak clock.1 clock.2).toOption.map Prod.snd

/-- What a branch of the event loop can do with events, before the end of the turn. -/
inductive Selected (keccak : List UInt8 → Hash) (h : Handler) (jp : JPGraph) (b : Branch)
    (t : Turn) : Prop
  /-- It takes the oldest event of a channel. -/
  | take (ch : Channel) (e : Event ℕ) (rest : List (Event ℕ)) (queue : jp.channel ch = e :: rest)
      (event : t.handler.et = some e) (type : ch ≠ .witnessL → t.handler.ty ≠ Mark.witnessLocal)
      (same : jp.SameThreads t.graph)
      (channel : ∀ ch', t.graph.channel ch' = if ch' = ch then rest else jp.channel ch')
      (started : ∀ g ∈ t.started, ∃ ty, g = .broadcastEvent e ty)
  /-- It composes an event. -/
  | compose (now : ℤ) (rand : ℕ) (e : Event ℕ)
      (graph : jp.composeEvent keccak now rand = .ok (t.graph, e))
      (composed : composedIn keccak h jp b = some e) (event : t.handler.et = some e)
      (started : ∀ g ∈ t.started, ∃ ty, g = .broadcastEvent e ty)
  /-- It leaves events alone. -/
  | idle (event : t.handler.et = h.et) (same : jp.SameThreads t.graph)
      (channel : ∀ ch, t.graph.channel ch = jp.channel ch)
      (started : ∀ e ty, .broadcastEvent e ty ∉ t.started)

/-- Every branch of the event loop. The transactions that the loop has taken stay, and no event is
added before the end of the turn. -/
theorem select_spec (keccak : List UInt8 → Hash) (h : Handler) (jp : JPGraph) (b : Branch) :
    Ensures (select keccak h jp b) fun t =>
      Selected keccak h jp b t ∧ t.handler.transUnHandled = h.transUnHandled ∧
        t.addCalls = [] := by
  have hcomposed {now : ℤ} {rand : ℕ} {r : JPGraph × Event ℕ}
      (hb : b.composes h = some (now, rand)) (hr : jp.composeEvent keccak now rand = .ok r) :
      composedIn keccak h jp b = some r.2 := by
    unfold composedIn
    rw [hb, Option.bind_some, hr]
    rfl
  unfold select
  cases b with
  | eventNorm =>
    dsimp only
    split
    · exact .error
    · next e rest hq =>
      have hty : Mark.normal ≠ Mark.witnessLocal := by decide
      exact .ok ⟨.take .eventNorm e rest hq rfl (fun _ => hty) (.of_eq rfl)
        (fun ch => by cases ch <;> rfl) (fun _ hg => by cases hg), rfl, rfl⟩
  | witnessL =>
    dsimp only
    split
    · exact .error
    · next e rest hq =>
      exact .ok ⟨.take .witnessL e rest hq rfl (fun hne => absurd rfl hne)
        (.of_eq rfl) (fun ch => by cases ch <;> rfl)
        (fun _ hg => ⟨_, List.mem_singleton.mp hg⟩), rfl, rfl⟩
  | witnessR =>
    dsimp only
    split
    · exact .error
    · next e rest hq =>
      have hty : Mark.witness ≠ Mark.witnessLocal := by decide
      refine .bind (.self _) fun r _ => .ok ?_
      exact ⟨.take .witnessR e rest hq rfl (fun _ => hty) (.of_eq rfl)
        (fun ch => by cases ch <;> rfl) (fun _ hg => by cases hg), rfl, rfl⟩
  | onlyTime now rand =>
    refine .bind (.self _) fun r hr => .ok ?_
    exact ⟨.compose now rand r.2 hr (hcomposed rfl hr) rfl
      (fun _ hg => ⟨_, List.mem_singleton.mp hg⟩), rfl, rfl⟩
  | overFlow now rand =>
    dsimp only
    split
    · next hfull =>
      refine .bind (.self _) fun r hr => .ok ?_
      exact ⟨.compose now rand r.2 hr (hcomposed (if_pos hfull) hr) rfl
        (fun _ hg => by cases hg), rfl, rfl⟩
    · exact .ok ⟨.idle rfl (.refl jp) (fun _ => rfl) (fun _ _ hg => by cases hg), rfl, rfl⟩
  | request =>
    dsimp only
    split
    · exact .error
    · refine .ok ⟨.idle rfl (.of_eq rfl) (fun ch => by cases ch <;> rfl)
        (fun _ _ hg => ?_), rfl, rfl⟩
      cases List.mem_singleton.mp hg

/-- A turn of the event loop adds no vertex and keeps references right. -/
theorem upholds_eventHandle {keccak : List UInt8 → Hash} (href : jp.Referring keccak) (h : Handler)
    (b : Branch) : Ensures (eventHandle keccak h jp b) fun t => jp.Upholds keccak t.graph := by
  refine .map (Q := fun t => jp.Upholds keccak t.graph) (fun t ht => ?_)
    fun t ht => t.finish_eq.2 ▸ ht
  cases (select_spec keccak h jp b t ht).1 with
  | take ch e rest _ _ _ hsame _ _ => exact hsame.upholds href
  | compose now rand e hr _ _ _ =>
    obtain ⟨href', hverts, hdict⟩ := href.composeEvent now rand _ hr
    obtain ⟨-, jp₁, k, x, hneutral, -, -, hgraph⟩ := jp.composeEvent_cases keccak now rand _ hr
    have hcoinbase : t.graph.coinbase = jp.coinbase :=
      (congrArg JPGraph.coinbase hgraph :).trans hneutral.coinbase
    refine ⟨href', .of_verts hcoinbase hverts, ⟨(congrArg Heap.next hverts).ge, fun v => ?_, hdict⟩,
      congrArg Heap.next hverts, (congrArg JPGraph.graph hgraph :).trans hneutral.graph,
      (congrArg JPGraph.cols hgraph :).trans hneutral.cols⟩
    exact congrArg (fun verts : Heap Vertex => (verts.get v).anotherPt) hverts
  | idle _ hsame _ _ => exact hsame.upholds href

namespace NodeState

/-- References are right, calls are ready, and every vertex without its other link waits in one
place. -/
structure Sound (keccak : List UInt8 → Hash) (s : NodeState) : Prop where
  /-- The graph. -/
  graph : s.graph.Referring keccak
  /-- The calls of `AddEvent`. -/
  calls : ∀ call ∈ s.adds, call.Ready keccak s.graph
  /-- The vertices that wait. -/
  once : s.graph.LinkOnce (s.adds.filterMap fun call => call.pc.waiting)

variable {keccak : List UInt8 → Hash} {s s' : NodeState}

/-- A step that starts calls at most. -/
theorem Sound.upholds (h : s.Sound keccak) (hg : s.graph.Upholds keccak s'.graph)
    {starts : List AddCall} (hadds : s'.adds = s.adds ++ starts)
    (hstarts : ∀ call ∈ starts, call.pc = .start) :
    s'.Sound keccak ∧ s.graph.Appends s'.graph := by
  refine ⟨⟨hg.referring, fun call hcall => ?_, ?_⟩, ⟨hg.extends_, hg.links.keepsLinks⟩⟩
  · rw [hadds] at hcall
    rcases List.mem_append.mp hcall with hcall | hcall
    · exact (h.calls call hcall).mono hg.next.ge
    · refine ⟨fun hpc => absurd (hstarts call hcall) hpc, fun v hv => ?_⟩
      rw [hstarts call hcall] at hv
      cases hv
  · have hnone : starts.filterMap (fun call => call.pc.waiting) = [] := by
      rw [List.filterMap_eq_nil_iff]
      intro call hcall
      rw [hstarts call hcall]
      rfl
    rw [hadds, List.filterMap_append, hnone, List.append_nil]
    exact h.once.same hg.links

/-- A step of a call. -/
theorem Sound.call (h : s.Sound keccak) {i : ℕ} {call : AddCall} {pc : Option AddPc}
    (hfound : s.adds[i]? = some call) (hstep : call.step keccak s.graph = .ok (jp, pc))
    (hnext : s' = { s with
      graph := jp
      adds := pc.elim (s.adds.eraseIdx i) fun pc => s.adds.set i { call with pc := pc } }) :
    s'.Sound keccak ∧ s.graph.Appends s'.graph := by
  obtain ⟨rest, hadds, hgoes⟩ := Pools.exists_perm hfound
  have hadds' := hgoes pc fun pc => { call with pc := pc }
  have hadv := h.graph.callStep (h.calls call (hadds.mem_iff.mpr List.mem_cons_self)) _ hstep
  -- The vertex of this call comes first, those of the other calls behind it.
  have honce : s.graph.LinkOnce
      (call.pc.waiting.toList ++ rest.filterMap fun c => c.pc.waiting) := by
    refine h.once.perm ((hadds.filterMap _).trans (.of_eq ?_))
    rw [List.filterMap_cons]
    cases call.pc.waiting <;> rfl
  obtain ⟨honce', hlinks⟩ := honce.callStep h.graph _ hstep
  rw [hnext]
  refine ⟨⟨hadv.referring, fun c hc => ?_, ?_⟩, ⟨hadv.extends_, hlinks⟩⟩
  · rcases List.mem_append.mp (hadds'.mem_iff.mp hc) with hc | hc
    · obtain ⟨pc', hpc, rfl⟩ := Option.map_eq_some_iff.mp (Option.mem_toList.mp hc)
      exact hadv.ready pc' hpc
    · exact (h.calls c (hadds.mem_iff.mpr (List.mem_cons_of_mem _ hc))).mono hadv.extends_.verts
  · refine honce'.perm (.trans (.of_eq ?_) (hadds'.filterMap _).symm)
    rw [List.filterMap_append]
    cases pc with
    | none => rfl
    | some pc =>
      cases hwaiting : pc.waiting <;> simp [hwaiting]

variable {a : Action} {actions : List Action}

/-- A step of a goroutine that is no call of `AddEvent` starts calls at most. -/
theorem upholds_move (h : s.graph.Referring keccak) (ha : ∀ i, a ≠ .add i) :
    Ensures (s.move keccak a) fun r => s.graph.Upholds keccak r.1.graph ∧
      ∃ starts, r.1.adds = s.adds ++ starts ∧ ∀ call ∈ starts, call.pc = .start := by
  intro r hr
  have hsame (hs : s.graph.SameThreads r.1.graph) (hadds : r.1.adds = s.adds) :
      s.graph.Upholds keccak r.1.graph ∧
        ∃ starts, r.1.adds = s.adds ++ starts ∧ ∀ call ∈ starts, call.pc = .start :=
    ⟨hs.upholds h, [], hadds.trans (List.append_nil _).symm, fun _ hc => by cases hc⟩
  cases s.move_spec keccak a r hr with
  | handle b t hturn hnext =>
    rw [hnext]
    refine ⟨upholds_eventHandle h s.handler b t hturn, _, rfl, fun call hcall => ?_⟩
    obtain ⟨c, -, rfl⟩ := List.mem_map.mp hcall
    rfl
  | receive msg pick hd hhandled hnext =>
    rw [hnext] at hsame ⊢
    exact hsame (sameThreads_handle s.graph msg pick hd hhandled) rfl
  | add i call jp pc hfound hstep hnext => exact absurd rfl (ha i)
  | send i hnext =>
    rw [hnext] at hsame ⊢
    exact hsame (.refl s.graph) rfl
  | cast i hnext =>
    rw [hnext] at hsame ⊢
    exact hsame (.refl s.graph) rfl
  | trigger idx hidx hnext =>
    rw [hnext] at hsame ⊢
    exact hsame (.of_eq rfl) rfl
  | roundLoop v rest jp consensus hidle hhead hturn hnext =>
    rw [hnext] at hsame ⊢
    have htake : s.graph.SameThreads { s.graph with roundTrigger := rest } := .of_eq rfl
    exact hsame (htake.trans (JPGraph.sameThreads_roundLoop _ v _ hturn)) rfl
  | monitor order m jp hstep hnext =>
    rw [hnext] at hsame ⊢
    exact hsame (sameThreads_monitorEffect (monitorStep_effect _ _ _ _ hstep)) rfl
  | consensusShow rest hnext =>
    rw [hnext] at hsame ⊢
    exact hsame (.of_eq rfl) rfl

/-- Every step of a node keeps references right and only adds. -/
theorem Sound.move (h : s.Sound keccak) (a : Action) :
    Ensures (s.move keccak a) fun r => r.1.Sound keccak ∧ s.graph.Appends r.1.graph := by
  intro r hr
  by_cases ha : ∃ i, a = .add i
  · obtain ⟨i, rfl⟩ := ha
    cases s.move_spec keccak _ r hr with
    | add i call jp pc hfound hstep hnext => exact h.call hfound hstep hnext
  · obtain ⟨hg, starts, hadds, hstarts⟩ := upholds_move h.graph (not_exists.mp ha) r hr
    exact h.upholds hg hadds hstarts

/-- The step stores no column for an address that has one. -/
def Anew (s : NodeState) : Action → Prop
  | .add i => ∀ call ∈ s.adds[i]?, call.Anew s.graph
  | _ => True

instance (s : NodeState) : (a : Action) → Decidable (s.Anew a)
  | .add i => inferInstanceAs (Decidable (∀ call ∈ s.adds[i]?, call.Anew s.graph))
  | .handle _ | .receive _ _ | .send _ | .cast _ | .roundLoop | .monitor _ | .consensusShow =>
    isTrue trivial

/-- Columns are in order, and calls know the columns of creators. -/
structure Placed (s : NodeState) : Prop where
  /-- Columns are in order. -/
  columned : s.graph.Columned
  /-- Calls know the columns of creators. -/
  calls : ∀ call ∈ s.adds, ∀ c ∈ call.pc.column,
    s.graph.graph.lookup call.event.selfSig.addr = some c

/-- Columns keep what they hold, and stay in order. -/
theorem columns_move (hsound : s.Sound keccak) (ha : s.Anew a) :
    Ensures (s.move keccak a) fun r =>
      s.graph.ColumnsStay r.1.graph ∧ (s.Placed → r.1.Placed) := by
  intro r hr
  by_cases hadd : ∃ i, a = .add i
  · obtain ⟨i, rfl⟩ := hadd
    cases s.move_spec keccak _ r hr with
    | add i call jp pc hfound hstep hnext =>
      obtain ⟨rest, hadds, hgoes⟩ := Pools.exists_perm hfound
      have hadds' := hgoes pc fun pc => { call with pc := pc }
      have hplaces := AddCall.step_places (ha call hfound) _ hstep
      have hcall (h : s.Placed) : call.Placed s.graph :=
        ⟨h.columned, h.calls call (hadds.mem_iff.mpr List.mem_cons_self)⟩
      rw [hnext]
      refine ⟨hplaces.keeps, fun h => ⟨hplaces.columned (hcall h), fun c hc d hd => ?_⟩⟩
      rcases List.mem_append.mp (hadds'.mem_iff.mp hc) with hc | hc
      · obtain ⟨pc', hpc, rfl⟩ := Option.map_eq_some_iff.mp (Option.mem_toList.mp hc)
        exact hplaces.column (hcall h) d (Option.mem_bind_iff.mpr ⟨pc', hpc, hd⟩)
      · exact hplaces.keeps.lookup _ d
          (h.calls c (hadds.mem_iff.mpr (List.mem_cons_of_mem _ hc)) d hd)
  · obtain ⟨hg, starts, hadds, hstarts⟩ := upholds_move hsound.graph (not_exists.mp hadd) r hr
    refine ⟨.of_eq hg.graph hg.cols, fun h => ⟨?_, fun call hcall c hc => ?_⟩⟩
    · exact h.columned.same hg.graph hg.cols hg.extends_.verts hg.extends_.event
    · rw [hadds] at hcall
      rcases List.mem_append.mp hcall with hcall | hcall
      · exact hg.graph ▸ h.calls call hcall c hc
      · rw [hstarts call hcall] at hc
        cases hc

/-- A new node has no vertices. -/
theorem sound_newNode (keccak : List UInt8 → Hash) (coinbase : Address) (broadness : ℕ) :
    (newNode coinbase broadness).Sound keccak := by
  have hbare : (bareGraph coinbase broadness).Referring keccak := by
    refine ⟨fun c k v hv => ?_, fun c v hv => ?_, fun v p hp => ?_, fun v p hp => ?_,
      fun i k us hus => ?_, fun i n hn => ?_, fun i => rfl, fun v hv => ?_⟩
    · cases hv
    · cases hv
    · cases hp
    · cases hp
    · cases hus
    · cases hn
    · exact absurd hv (Nat.not_lt_zero v)
  have hcolumn : (((bareGraph coinbase broadness).addNode coinbase).1).Referring keccak := by
    unfold JPGraph.addNode
    exact (hbare.addNodeInsert coinbase).addNodeMajority _ _
  have hround (i : ℕ) : ((newNode coinbase broadness).graph.round i).dicts =
      (((bareGraph coinbase broadness).addNode coinbase).1.round i).dicts := by
    cases i <;> rfl
  refine ⟨hcolumn.same ⟨rfl, rfl, fun _ => rfl, rfl, rfl, hround⟩,
    fun call hcall => (by cases hcall), ?_⟩
  have hdict (i : ℕ) : ((newNode coinbase broadness).graph.round i).lostDict = ∅ :=
    congrArg Prod.fst (hround i)
  have hnobody (v i : ℕ) : ¬ (newNode coinbase broadness).graph.WaitsIn v i := by
    rintro ⟨k, us, hus, -⟩
    rw [hdict] at hus
    cases hus
  refine ⟨List.nodup_nil, fun v hv => (by cases hv), fun v hv => (by cases hv),
    fun v hv => (by cases hv), fun v i hw => absurd hw (hnobody v i),
    fun v i j hw => absurd hw (hnobody v i)⟩

theorem Placed.move (h : s.Placed) (hsound : s.Sound keccak) (ha : s.Anew a) :
    Ensures (s.move keccak a) fun r => r.1.Sound keccak ∧ r.1.Placed := by
  intro r hr
  exact ⟨(hsound.move a r hr).1, (columns_move hsound ha r hr).2 h⟩

/-- A new node has its own column, without vertices. -/
theorem placed_newNode (coinbase : Address) (broadness : ℕ) :
    (newNode coinbase broadness).Placed := by
  have hbare : (bareGraph coinbase broadness).Columned :=
    ⟨fun _ _ hc => (by cases hc), fun _ _ _ hc => (by cases hc), fun _ _ _ _ hc => (by cases hc)⟩
  have hcolumn : ((bareGraph coinbase broadness).addNode coinbase).1.Columned :=
    (hbare.addNodeInsert coinbase).addNodeMajority _ _
  exact ⟨hcolumn.same rfl rfl le_rfl fun _ _ => rfl, fun _ hc => by cases hc⟩

/-- Every run keeps references right and only adds. -/
theorem Sound.run (keccak : List UInt8 → Hash) {s : NodeState × List Output}
    (h : s.1.Sound keccak) (actions : List Action) :
    Ensures (Machine.run (logged (NodeState.step keccak)) s actions) fun s' =>
      s'.1.Sound keccak ∧ s.1.graph.Appends s'.1.graph := by
  have hstep (s₁ : NodeState × List Output) (a : Action)
      (hs : s₁.1.Sound keccak ∧ s.1.graph.Appends s₁.1.graph) :
      Ensures (logged (NodeState.step keccak) s₁ a) fun s₂ =>
        s₂.1.Sound keccak ∧ s.1.graph.Appends s₂.1.graph := by
    refine .map (step_of_move (hs.1.move a)) fun r hr => ?_
    exact ⟨hr.1, hs.2.trans hr.2⟩
  exact run_preserves hstep ⟨h, .refl _⟩ actions

/-- Every reachable state of a node. -/
theorem Sound.of_run (keccak : List UInt8 → Hash) {coinbase : Address} {broadness : ℕ}
    {s : NodeState × List Output}
    (hrun : Machine.run (logged (NodeState.step keccak)) (newNode coinbase broadness, []) actions =
      .ok s) : s.1.Sound keccak :=
  (Sound.run keccak (sound_newNode keccak coinbase broadness) actions s hrun).1

/-- Columns keep what they hold along a run. -/
theorem columns_run {s s' : NodeState × List Output} (hsound : s.1.Sound keccak)
    (hrun : Machine.run (logged (NodeState.step keccak)) s actions = .ok s')
    (hanew : Meets (logged (NodeState.step keccak)) (fun s a => s.1.Anew a) s actions) :
    s.1.graph.ColumnsStay s'.1.graph ∧ (s.1.Placed → s'.1.Placed) := by
  have hstep (s₁ : NodeState × List Output) (a : Action)
      (h : s₁.1.Sound keccak ∧ s.1.graph.ColumnsStay s₁.1.graph ∧ (s.1.Placed → s₁.1.Placed))
      (ha : s₁.1.Anew a) : Ensures (logged (NodeState.step keccak) s₁ a) fun s₂ =>
        s₂.1.Sound keccak ∧ s.1.graph.ColumnsStay s₂.1.graph ∧ (s.1.Placed → s₂.1.Placed) := by
    refine .map (step_of_move (Q := fun r => r.1.Sound keccak ∧
      s₁.1.graph.ColumnsStay r.1.graph ∧ (s₁.1.Placed → r.1.Placed)) fun r hr => ?_) fun r hr => ?_
    · exact ⟨(h.1.move a r hr).1, columns_move h.1 ha r hr⟩
    · exact ⟨hr.1, h.2.1.trans hr.2.1, fun hplaced => hr.2.2 (h.2.2 hplaced)⟩
  exact (run_invariant hstep ⟨hsound, .of_eq rfl rfl, id⟩ hanew s' hrun).2

end NodeState

/-- An event comes in and is added. -/
def addsArrived (e : Event ℤ) (steps : ℕ) : List Action :=
  [.receive (arrivedMsg eventMsg 1 e.wire) 0, .handle .eventNorm] ++
    List.replicate steps (.add 0)

/-- What happens at node `0x0c` when events come in. -/
def triangleSteps (s : NodeState × List Output) (actions : List Action) :
    Except Stop (NodeState × List Output) :=
  run (logged (NodeState.step triangleKeccak)) s actions

/-- `eventB` arrives before its other parent. -/
def arriveSwapped : List Action := addsArrived eventB 14 ++ addsArrived eventA1 8

/-- Node `0x0c` after the first two events arrived. -/
def swappedNode : NodeState × List Output :=
  (triangleSteps (newNode (FixedBytes.ofNat 20 0x0C) 3, []) arriveSwapped).toOption.getD
    (newNode (FixedBytes.ofNat 20 0x0C) 3, [])

theorem triangleSteps_arriveSwapped :
    triangleSteps (newNode (FixedBytes.ofNat 20 0x0C) 3, []) arriveSwapped = .ok swappedNode :=
  eq_ok_getD (by decide +kernel) _

/-- Node `0x0c` after all three events arrived. -/
def swappedTriangle : NodeState × List Output :=
  (triangleSteps swappedNode (addsArrived eventA2 7)).toOption.getD swappedNode

/-- In every reachable state of a node, whatever messages came in: columns have vertices under
their hashes, self parents are of the same creator, other links lead to the parents that are
named, and all stored events are valid. -/
theorem referring_of_run (keccak : List UInt8 → Hash) {coinbase : Address} {broadness : ℕ}
    {actions : List Action} {s : NodeState × List Output}
    (hrun : run (logged (NodeState.step keccak)) (newNode coinbase broadness, []) actions =
      .ok s) : s.1.graph.Referring keccak :=
  (NodeState.Sound.of_run keccak hrun).graph

/-- The late parent is linked, and the references are right. -/
theorem referring_swappedNode :
    (swappedNode.1.graph.vert 0).anotherPt = some 1 ∧
      swappedNode.1.graph.Referring triangleKeccak := by
  have hlinked : (swappedNode.1.graph.vert 0).anotherPt = some 1 := by decide +kernel
  exact ⟨hlinked, referring_of_run triangleKeccak triangleSteps_arriveSwapped⟩

/-- From every reachable state on, whatever messages come in: a vertex keeps its event, its self
parent and its number, and an other link that is set never changes. If besides no column is stored
for an address that has one, addresses keep their columns and columns their vertices. -/
theorem appends_of_run (keccak : List UInt8 → Hash) {coinbase : Address} {broadness : ℕ}
    {before after : List Action} {s s' : NodeState × List Output}
    (hbefore : run (logged (NodeState.step keccak)) (newNode coinbase broadness, []) before =
      .ok s)
    (hafter : run (logged (NodeState.step keccak)) s after = .ok s') :
    s.1.graph.Appends s'.1.graph ∧
      (Meets (logged (NodeState.step keccak)) (fun s a => s.1.Anew a) s after →
        s.1.graph.ColumnsStay s'.1.graph) := by
  have hsound := NodeState.Sound.of_run keccak hbefore
  exact ⟨(hsound.run keccak after s' hafter).2,
    fun hanew => (NodeState.columns_run hsound hafter hanew).1⟩

/-- The third event leaves the first two alone, and both columns stay. -/
theorem appends_swappedTriangle :
    swappedNode.1.graph.verts.next = 2 ∧ swappedTriangle.1.graph.verts.next = 3 ∧
      swappedNode.1.graph.Appends swappedTriangle.1.graph ∧
      swappedNode.1.graph.ColumnsStay swappedTriangle.1.graph := by
  obtain ⟨htwo, hthree, hreached, hanew⟩ :
      swappedNode.1.graph.verts.next = 2 ∧ swappedTriangle.1.graph.verts.next = 3 ∧
      (triangleSteps swappedNode (addsArrived eventA2 7)).toOption.isSome = true ∧
      Meets (logged (NodeState.step triangleKeccak)) (fun s a => s.1.Anew a) swappedNode
        (addsArrived eventA2 7) := by
    decide +kernel
  have hafter : triangleSteps swappedNode (addsArrived eventA2 7) = .ok swappedTriangle :=
    eq_ok_getD hreached _
  obtain ⟨happends, hcolumns⟩ := appends_of_run triangleKeccak triangleSteps_arriveSwapped hafter
  exact ⟨htwo, hthree, happends, hcolumns hanew⟩

end Hashgrid.Node
