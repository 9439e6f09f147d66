import Hashgrid.Node.RoundCells

/-!
# Vertices that are announced to `MonitorLoop`

Every round pointer at a node is there. A vertex is announced only after its round was
looked up, so every vertex that `MonitorLoop` gets has a round pointer.
-/

namespace Hashgrid.Core

open Hashgrid.Bytes Hashgrid.Machine

/-- The round pointer of an event is there, if it has one. -/
def JPGraph.Allocated (jp : JPGraph) (e : Event ℕ) : Prop := ∀ k ∈ e.roundID, k < jp.cells.next

/-- A vertex has a round pointer. -/
def JPGraph.Pointed (jp : JPGraph) (v : ℕ) : Prop := (jp.vert v).event.roundID ≠ none

variable {jp : JPGraph}

/-- A vertex with a round pointer is there. -/
theorem JPGraph.Pointed.lt {v : ℕ} (h : jp.Pointed v) : v < jp.verts.next := by
  by_contra hle
  refine h ?_
  have hdefault : jp.vert v = default := Heap.get_of_le (by omega)
  rw [hdefault]
  rfl

/-- The vertex that a call is going to announce. -/
def AddPc.announces : AddPc → Option ℕ
  | .comer _ v _ | .lost _ v _ | .created v => some v
  | _ => none

theorem AddPc.announces_of_vertex {pc : AddPc} (h : pc.vertex = none) : pc.announces = none := by
  cases pc with
  | comer | lost | created => cases h
  | _ => rfl

/-- What a step of `AddEvent` does to pointers and announcements. -/
structure AddCall.Announces (call : AddCall) (jp : JPGraph) (r : JPGraph × Option AddPc) :
    Prop where
  /-- A vertex keeps its event, or gets the pointer of the event that is added. -/
  event : ∀ v, (r.1.vert v).event = (jp.vert v).event ∨
    (r.1.vert v).event.roundID = call.event.roundID
  /-- Only the vertex of this call is announced. -/
  created : ∀ v ∈ r.1.selfEventCreated, v ∈ jp.selfEventCreated ∨ call.pc.announces = some v
  /-- The vertex that the call is going to announce has a round pointer. -/
  next : ∀ pc ∈ r.2, ∀ v ∈ pc.announces, call.pc.announces = some v ∨ jp.Pointed v

/-- The search in the round queue reads the round pointer. -/
theorem JPGraph.pointed_of_recordRound (hrounds : 0 < jp.rounds.next) (firstWitness : Bool)
    (ty c v : ℕ) : Ensures (jp.recordRound firstWitness ty c v) fun _ => jp.Pointed v := by
  unfold JPGraph.recordRound
  split
  · next hempty => simp [JPGraph.queue, hrounds.ne'] at hempty
  · refine .bind (jp.derefRound_spec _) fun x hx => ?_
    have hpointed : jp.Pointed v := by
      intro hnone
      simp [JPGraph.roundOf, hnone] at hx
    intro r _
    exact hpointed

/-- A step that leaves the vertices and the announcements alone. -/
theorem AddCall.Announces.of_neutral {call : AddCall} {jp' : JPGraph} (h : jp.Neutral jp')
    {next : Option AddPc}
    (hnext : ∀ pc ∈ next, ∀ v ∈ pc.announces, call.pc.announces = some v ∨ jp.Pointed v) :
    call.Announces jp (jp', next) where
  event v := Or.inl (h.event v)
  created _ hv := Or.inl (h.selfEventCreated ▸ hv)
  next := hnext

/-- Every step of `AddEvent` announces only vertices with a round pointer. -/
theorem AddCall.step_announces (keccak : List UInt8 → Hash) (call : AddCall)
    (hrounds : 0 < jp.rounds.next) : Ensures (call.step keccak jp) (call.Announces jp) := by
  obtain ⟨e, ty, pc⟩ := call
  intro r hr
  have hquiet {jp' : JPGraph} {next : Option AddPc} (hverts : jp'.verts = jp.verts)
      (hcreated : jp'.selfEventCreated = jp.selfEventCreated)
      (hnext : ∀ pc ∈ next, pc.announces = none) :
      Announces ⟨e, ty, pc⟩ jp (jp', next) := by
    refine ⟨fun v => Or.inl ?_, fun v hv => Or.inl (hcreated ▸ hv), fun pc' hpc' v hv => ?_⟩
    · exact congrArg (fun verts : Heap Vertex => (verts.get v).event) hverts
    · rw [hnext pc' hpc'] at hv
      cases hv
  cases AddCall.step_moves keccak ⟨e, ty, pc⟩ jp r hr with
  | rejects | trigger => exact hquiet rfl rfl nofun
  | looks _ _ hnext =>
    exact hquiet rfl rfl (by rintro _ ⟨⟩; exact AddPc.announces_of_vertex hnext)
  | selfInsert | otherInsert | otherMajority => exact hquiet rfl rfl (by rintro _ ⟨⟩; rfl)
  | selfMajority =>
    exact hquiet rfl rfl (by rintro _ ⟨⟩; exact AddPc.announces_of_vertex (by simp))
  | known =>
    refine hquiet rfl rfl fun q hq => ?_
    split_ifs at hq
    · cases hq
      rfl
    · cases hq
  | @inserts sc fw oc hlook =>
    refine ⟨fun v => ?_, fun v hv => Or.inl hv, by rintro _ ⟨⟩ v ⟨⟩⟩
    have hvert := jp.vert_withVertex e ty sc v
    split_ifs at hvert
    · exact Or.inr (congrArg (fun vert : Vertex => vert.event.roundID) hvert)
    · exact Or.inl (congrArg Vertex.event hvert)
  | existed v =>
    refine ⟨fun u => Or.inl ?_, fun u hu => Or.inl hu, by rintro _ ⟨⟩ u ⟨⟩⟩
    exact jp.vert_setVert_of_eq v (g := Vertex.event) (fun _ => by rfl) u
  | link sc fw oc v =>
    refine .of_neutral (jp.alike_linkOther v oc).neutral ?_
    split_ifs <;> rintro _ ⟨⟩ u ⟨⟩
  | request sc fw v =>
    exact .of_neutral (jp.alike_requestParentEvent v).neutral (by rintro _ ⟨⟩ u ⟨⟩)
  | @record sc v fw round linkpost hround =>
    have hpointed := JPGraph.pointed_of_recordRound hrounds fw ty sc v round hround
    have hnext : ∀ pc ∈ some (round.2.elim (AddPc.created v) fun i => .comer i v linkpost),
        ∀ u ∈ pc.announces, AddPc.announces (.record sc fw v linkpost) = some u ∨ jp.Pointed u := by
      cases round.2 <;> rintro _ ⟨⟩ u ⟨⟩ <;> exact Or.inr hpointed
    rcases jp.recordRound_cases fw ty sc v round hround with heq | ⟨x, i, -, -, -, heq⟩
    · rw [heq]
      exact .of_neutral (.refl jp) hnext
    · rw [heq]
      refine ⟨fun u => Or.inl ?_, fun u hu => Or.inl hu, hnext⟩
      exact jp.vert_setVert_of_eq v (g := Vertex.event) (fun _ => by rfl) u
  | comer linkpost hjp' =>
    refine .of_neutral (jp.alike_addComer _ _ _ hjp').neutral ?_
    rintro _ ⟨⟩ u hu
    exact Or.inl hu
  | lost i v linkpost =>
    refine .of_neutral (jp.alike_updateLost i v linkpost).neutral ?_
    rintro _ ⟨⟩ u hu
    exact Or.inl hu
  | created v =>
    unfold JPGraph.signalCreated
    split_ifs
    · refine ⟨fun u => Or.inl rfl, fun u hu => ?_, nofun⟩
      rcases List.mem_append.mp hu with hold | hnew
      · exact Or.inl hold
      · exact Or.inr (congrArg some (List.mem_singleton.mp hnew).symm)
    · exact hquiet rfl rfl nofun

end Hashgrid.Core

namespace Hashgrid.Node

open Hashgrid.Bytes Hashgrid.Core Hashgrid.Machine Hashgrid.Wire

/-- The vertex that `MonitorLoop` holds. -/
def MonitorPc.holds : MonitorPc → Option ℕ
  | .put v | .mark v | .trigger v => some v
  | .front | .receive _ => none

/-- All round pointers are there, and what is announced has one. -/
structure NodeState.Pointed (s : NodeState) : Prop where
  /-- There is a round. -/
  rounds : 0 < s.graph.rounds.next
  /-- The vertices. -/
  vert : ∀ v, s.graph.Allocated (s.graph.vert v).event
  /-- The channels. -/
  channel : ∀ ch, ∀ e ∈ s.graph.channel ch, s.graph.Allocated e
  /-- The event of the event loop. -/
  event : ∀ e ∈ s.handler.et, s.graph.Allocated e
  /-- The calls of `AddEvent`. -/
  adds : ∀ call ∈ s.adds, s.graph.Allocated call.event ∧
    ∀ v ∈ call.pc.announces, s.graph.Pointed v
  /-- The announced vertices. -/
  created : ∀ v ∈ s.graph.selfEventCreated, s.graph.Pointed v
  /-- The vertex of `MonitorLoop`. -/
  monitor : ∀ v ∈ MonitorPc.holds s.monitor.pc, s.graph.Pointed v

/-- Rounds stay. -/
theorem NodeState.rounds_move (keccak : List UInt8 → Hash) (s : NodeState) (a : Action) :
    Ensures (s.move keccak a) fun r => s.graph.rounds.next ≤ r.1.graph.rounds.next := by
  by_cases ha : a = .roundLoop
  · subst ha
    intro r hr
    obtain ⟨-, hrounds⟩ := s.roundLoopStep_rounds r hr
    split_ifs at hrounds <;> omega
  · exact fun r hr => (s.move_keepsRounds keccak ha r hr).rounds.ge

namespace NodeState.Pointed

section Step

variable {s : NodeState} (h : s.Pointed) {keccak : List UInt8 → Hash} {r : NodeState × List Output}
  {a : Action}

/-- A vertex with a round pointer keeps it. -/
theorem pointed_move (hr : s.move keccak a = .ok r) {v : ℕ} (hv : s.graph.Pointed v) :
    r.1.graph.Pointed v := by
  unfold JPGraph.Pointed
  rw [s.event_move keccak a hv.lt r hr]
  exact hv

/-- An event that comes in has a round pointer of its own. -/
theorem message {msg : Msg} {pick : ℕ} {hd : Handled}
    (hhd : handle s.graph msg pick = .ok hd) :
    hd.graph.verts = s.graph.verts ∧ hd.graph.selfEventCreated = s.graph.selfEventCreated ∧
      ∀ ch, ∀ e ∈ hd.graph.channel ch, e ∈ s.graph.channel ch ∨ hd.graph.Allocated e := by
  rcases handle_cases s.graph msg pick hd hhd with heq | ⟨-, ch, -, hput⟩
  · rw [heq]
    exact ⟨rfl, rfl, fun _ _ he => Or.inl he⟩
  · have hreceive (e : Event ℤ) : (s.graph.receive e).1.verts = s.graph.verts ∧
        (s.graph.receive e).1.selfEventCreated = s.graph.selfEventCreated ∧
        (s.graph.receive e).1.Allocated (s.graph.receive e).2 := by
      unfold JPGraph.receive
      split
      · exact ⟨rfl, rfl, fun k hk => nomatch hk⟩
      · refine ⟨rfl, rfl, ?_⟩
        rintro k ⟨⟩
        simp
    obtain ⟨hverts, hcreated, halloc⟩ := hreceive (decodeMsg msg)
    obtain ⟨hcells', hverts', hcreated', hchannel⟩ := putEvent_spec _ ch _ _ hput
    refine ⟨hverts'.trans hverts, hcreated'.trans hcreated, fun ch' e he => ?_⟩
    rw [hchannel, channel_receive] at he
    split_ifs at he
    · refine (List.mem_append.mp he).imp_right fun hnew k hk => ?_
      rw [List.mem_singleton.mp hnew] at hk
      exact (halloc k hk).trans_eq (congrArg Heap.next hcells'.symm)
    · exact Or.inl he

include h

/-- Every step keeps the pointers if what is new is right. -/
theorem next (hr : s.move keccak a = .ok r)
    (hvert : ∀ v, (r.1.graph.vert v).event = (s.graph.vert v).event ∨
      r.1.graph.Allocated (r.1.graph.vert v).event)
    (hchannel : ∀ ch, ∀ e ∈ r.1.graph.channel ch, e ∈ s.graph.channel ch ∨ r.1.graph.Allocated e)
    (hevent : r.1.handler.et = s.handler.et ∨ ∀ e ∈ r.1.handler.et, r.1.graph.Allocated e)
    (hadds : ∀ call ∈ r.1.adds, call ∈ s.adds ∨ r.1.graph.Allocated call.event ∧
      ∀ v ∈ call.pc.announces, r.1.graph.Pointed v) (hcreated : ∀ v ∈ r.1.graph.selfEventCreated,
      v ∈ s.graph.selfEventCreated ∨ s.graph.Pointed v) (hmonitor : r.1.monitor = s.monitor ∨
      ∀ v ∈ MonitorPc.holds r.1.monitor.pc, s.graph.Pointed v) : r.1.Pointed := by
  have halloc {e : Event ℕ} (he : s.graph.Allocated e) : r.1.graph.Allocated e :=
    fun k hk => (s.get_cells_move keccak a (he k hk) r hr).1
  refine ⟨h.rounds.trans_le (s.rounds_move keccak a r hr), fun v => ?_, fun ch e he => ?_,
    fun e he => ?_, fun call hcall => ?_, fun v hv => ?_, fun v hv => ?_⟩
  · exact (hvert v).elim (fun heq => heq ▸ halloc (h.vert v)) id
  · exact (hchannel ch e he).elim (fun he => halloc (h.channel ch e he)) id
  · exact hevent.elim (fun heq => halloc (h.event e (heq ▸ he))) fun hnew => hnew e he
  · refine (hadds call hcall).elim (fun hold => ?_) id
    obtain ⟨he, hv⟩ := h.adds call hold
    exact ⟨halloc he, fun v hv' => pointed_move hr (hv v hv')⟩
  · exact pointed_move hr ((hcreated v hv).elim (fun hv => h.created v hv) id)
  · exact pointed_move hr
      (hmonitor.elim (fun heq => h.monitor v (heq ▸ hv)) fun hnew => hnew v hv)

/-- A turn of the event loop. -/
theorem turn {b : Branch} {t : Turn} (ht : eventHandle keccak s.handler s.graph b = .ok t)
    (hcells : ∀ k < s.graph.cells.next, k < t.graph.cells.next) :
    (∀ v, (t.graph.vert v).event = (s.graph.vert v).event) ∧
      t.graph.selfEventCreated = s.graph.selfEventCreated ∧
      (∀ ch, ∀ e ∈ t.graph.channel ch, e ∈ s.graph.channel ch) ∧
      ∀ e ∈ t.handler.et, t.graph.Allocated e := by
  cases eventHandle_cases keccak s.handler s.graph b t ht with
  | take ch e hb hhead he hgraph =>
    have hmem : e ∈ s.graph.channel ch := List.mem_of_mem_head? hhead
    have hsame : t.graph.verts = s.graph.verts ∧
        t.graph.selfEventCreated = s.graph.selfEventCreated := by
      rw [hgraph]
      cases ch <;> exact ⟨rfl, rfl⟩
    refine ⟨fun v => ?_, hsame.2, fun ch' e' he' => ?_, fun e' he' => ?_⟩
    · exact congrArg (fun verts : Heap Vertex => (verts.get v).event) hsame.1
    · rw [hgraph] at he'
      cases ch <;> cases ch' <;> first | exact he' | exact List.mem_of_mem_tail he'
    · rw [he] at he'
      cases he'
      exact fun k hk => hcells k (h.channel ch e hmem k hk)
  | compose now rand e hb hcomp he =>
    obtain ⟨-, jp₁, k, x, hneutral, hown, hround, hgraph⟩ :=
      s.graph.composeEvent_cases keccak now rand _ hcomp
    dsimp only at hround hgraph
    refine ⟨fun v => ?_, ?_, fun ch e' he' => ?_, fun e' he' => ?_⟩
    · rw [hgraph]
      exact hneutral.event v
    · rw [hgraph]
      exact hneutral.selfEventCreated
    · rwa [channel_composeEvent hcomp ch] at he'
    · rw [he] at he'
      cases he'
      intro k' hk'
      cases hround.symm.trans hk'
      rcases hown with hnew | ⟨c, v, -, -, hpointer⟩
      · rw [hgraph, hnew]
        simp
      · exact hcells k (h.vert v k hpointer)
  | idle hb he hneutral =>
    refine ⟨hneutral.event, hneutral.selfEventCreated, fun ch e' he' => ?_, fun e' he' => ?_⟩
    · rwa [hneutral.channel ch] at he'
    · rw [he] at he'
      exact fun k hk => hcells k (h.event e' he' k hk)

/-- A turn of the event loop keeps the pointers. -/
theorem handle (b : Branch) : Ensures (s.move keccak (.handle b)) fun r => r.1.Pointed := by
  rintro ⟨s', out⟩ hr
  cases s.move_spec keccak (.handle b) _ hr with
  | handle _ t ht hnext =>
    dsimp only at hnext
    subst hnext
    obtain ⟨hverts, hcreated, hchannel, hevent⟩ :=
      h.turn ht fun k hk => (s.get_cells_move keccak (.handle b) hk _ hr).1
    refine h.next hr (fun v => Or.inl (hverts v)) (fun ch e he => Or.inl (hchannel ch e he))
      (Or.inr hevent) (fun call hcall => ?_) (fun v hv => Or.inl (hcreated ▸ hv)) (Or.inl rfl)
    rcases List.mem_append.mp hcall with hold | hnew
    · exact Or.inl hold
    · obtain ⟨c, hc, rfl⟩ := List.mem_map.mp hnew
      have hcall := (mem_addCalls keccak s.handler s.graph b t ht c hc).1
      exact Or.inr ⟨hevent c.1 hcall, fun v hv => nomatch hv⟩

/-- A message keeps the pointers. -/
theorem receive (msg : Msg) (pick : ℕ) :
    Ensures (s.move keccak (.receive msg pick)) fun r => r.1.Pointed := by
  rintro ⟨s', out⟩ hr
  cases s.move_spec keccak (.receive msg pick) _ hr with
  | receive _ _ hd hhd hnext =>
    dsimp only at hnext
    subst hnext
    obtain ⟨hverts, hcreated, hchannel⟩ := message hhd
    refine h.next hr (fun v => Or.inl ?_) hchannel (Or.inl rfl) (fun call hcall => Or.inl hcall)
      (fun v hv => Or.inl (hcreated ▸ hv)) (Or.inl rfl)
    exact congrArg (fun verts : Heap Vertex => (verts.get v).event) hverts

/-- A step of a call of `AddEvent` keeps the pointers. -/
theorem add (i : ℕ) : Ensures (s.move keccak (.add i)) fun r => r.1.Pointed := by
  rintro ⟨s', out⟩ hr
  cases s.move_spec keccak (.add i) _ hr with
  | add _ call jp next hcall hstep hnext =>
    dsimp only at hnext
    subst hnext
    have hann := call.step_announces keccak h.rounds _ hstep
    have hkeeps := call.step_keeps keccak s.graph _ hstep
    obtain ⟨halloc, hannounced⟩ := h.adds call (List.mem_of_getElem? hcall)
    have hevent : jp.Allocated call.event :=
      fun k hk => (s.get_cells_move keccak (.add i) (halloc k hk) _ hr).1
    refine h.next hr (fun v => ?_) (fun ch e he => Or.inl (hkeeps.channel ch ▸ he)) (Or.inl rfl)
      (fun c hc => ?_) (fun v hv => ?_) (Or.inl rfl)
    · refine (hann.event v).imp_right fun hpointer k hk => hevent k ?_
      rwa [← hpointer]
    · cases next with
      | none => exact Or.inl (List.mem_of_mem_eraseIdx hc)
      | some pc =>
        refine (List.mem_or_eq_of_mem_set hc).imp_right fun heq => ?_
        subst heq
        refine ⟨hevent, fun v hv => pointed_move hr ?_⟩
        exact (hann.next pc rfl v hv).elim (fun hold => hannounced v hold) id
    · exact (hann.created v hv).imp_right fun hold => hannounced v hold

/-- `RoundLoop` keeps the pointers. -/
theorem roundLoop : Ensures (s.move keccak .roundLoop) fun r => r.1.Pointed := by
  intro r hr
  have hframe := s.roundLoopStep_frame r hr
  refine h.next hr (fun v => Or.inl ?_) (fun ch e he => Or.inl (hframe.channel ch ▸ he))
    (Or.inl (congrArg Handler.et hframe.handler)) (fun c hc => Or.inl (hframe.adds ▸ hc))
    (fun v hv => Or.inl (hframe.created ▸ hv)) (Or.inl hframe.monitor)
  exact congrArg (fun verts : Heap Vertex => (verts.get v).event) hframe.verts

/-- `MonitorLoop` keeps the pointers. -/
theorem monitorLoop (order : ℕ → List Address) :
    Ensures (s.move keccak (.monitor order)) fun r => r.1.Pointed := by
  intro r hr
  obtain ⟨⟨m, jp⟩, hq, heq⟩ := exists_of_map_eq_ok (f := fun q : Monitor × JPGraph => _) hr
  subst heq
  have hnext (hverts : ∀ v, (jp.vert v).event = (s.graph.vert v).event)
      (hchannel : ∀ ch, ∀ e ∈ jp.channel ch, e ∈ s.graph.channel ch ∨ jp.Allocated e)
      (hcreated : ∀ v ∈ jp.selfEventCreated, v ∈ s.graph.selfEventCreated)
      (hholds : ∀ v ∈ MonitorPc.holds m.pc, s.graph.Pointed v) :=
    h.next hr (fun v => Or.inl (hverts v)) hchannel (Or.inl rfl) (fun c hc => Or.inl hc)
      (fun v hv => Or.inl (hcreated v hv)) (Or.inr hholds)
  have hheld {v : ℕ} {pc : MonitorPc} (hpc : MonitorPc.holds s.monitor.pc = some v)
      (hpc' : MonitorPc.holds pc = some v) : ∀ u ∈ MonitorPc.holds pc, s.graph.Pointed u := by
    intro u hu
    cases hpc'.symm.trans hu
    exact h.monitor _ hpc
  cases monitorStep_effect s.monitor s.graph order _ hq with
  | front i hpc hhead hmonitor hgraph =>
    dsimp only at hmonitor hgraph
    subst hgraph
    exact hnext (fun _ => rfl) (fun _ _ he => Or.inl he) (fun _ hv => hv)
      (by rw [hmonitor]; exact fun v hv => nomatch hv)
  | receive i v rest hpc hcreated hmonitor hgraph =>
    have hneutral := hgraph.alike.neutral
    refine hnext hneutral.event (fun ch e he => Or.inl ?_) (fun u hu => ?_) fun u hu => ?_
    · rw [hneutral.channel ch] at he
      cases ch <;> exact he
    · rw [hneutral.selfEventCreated] at hu
      rw [hcreated]
      exact List.mem_cons_of_mem v hu
    · rcases hmonitor with hm | hm
      · rw [hm] at hu
        cases hu
      · rw [hm] at hu
        cases hu
        exact h.created v (hcreated ▸ List.mem_cons_self)
  | put v hpc hmonitor hgraph =>
    dsimp only at hmonitor hgraph
    subst hgraph
    refine hnext (fun _ => rfl) (fun ch e he => ?_) (fun _ hv => hv)
      (by rw [hmonitor]; exact hheld (by rw [hpc]; rfl) rfl)
    cases ch with
    | eventNorm => exact Or.inl he
    | witnessR => exact Or.inl he
    | witnessL =>
      refine (List.mem_append.mp he).imp_right fun hnew => ?_
      rw [List.mem_singleton.mp hnew]
      exact h.vert v
  | mark v hpc hmonitor hgraph =>
    dsimp only at hmonitor hgraph
    subst hgraph
    refine hnext (fun u => ?_) (fun ch e he => Or.inl (by cases ch <;> exact he)) (fun _ hv => hv)
      (by rw [hmonitor]; exact hheld (by rw [hpc]; rfl) rfl)
    exact s.graph.vert_setVert_of_eq v (g := Vertex.event) (fun _ => by rfl) u
  | trigger v hpc hmonitor hgraph =>
    dsimp only at hmonitor hgraph
    subst hgraph
    exact hnext (fun _ => rfl) (fun ch e he => Or.inl (by cases ch <;> exact he)) (fun _ hv => hv)
      (by rw [hmonitor]; exact fun v hv => nomatch hv)

/-- Every step keeps the pointers. -/
theorem move (a : Action) : Ensures (s.move keccak a) fun r => r.1.Pointed := by
  cases a with
  | handle b => exact h.handle b
  | receive msg pick => exact h.receive msg pick
  | add i => exact h.add i
  | send i =>
    intro r hr
    cases s.move_spec keccak (.send i) r hr with
    | send _ hnext =>
      exact hnext ▸ ⟨h.rounds, h.vert, h.channel, h.event, h.adds, h.created, h.monitor⟩
  | cast i =>
    intro r hr
    cases s.move_spec keccak (.cast i) r hr with
    | cast _ hnext => exact hnext ▸ h
  | roundLoop => exact h.roundLoop
  | monitor order => exact h.monitorLoop order
  | consensusShow =>
    intro r hr
    cases s.move_spec keccak .consensusShow r hr with
    | consensusShow rest hnext =>
      exact hnext ▸ ⟨h.rounds, h.vert, h.channel, h.event, h.adds, h.created, h.monitor⟩

end Step

/-- A new node. -/
theorem newNode (coinbase : Address) (broadness : ℕ) : (newNode coinbase broadness).Pointed where
  rounds := Nat.one_pos
  vert v := by
    have hdefault : (Node.newNode coinbase broadness).graph.vert v = default :=
      Heap.get_of_le (Nat.zero_le v)
    rw [hdefault]
    exact fun k hk => nomatch hk
  channel ch e he := by cases ch <;> cases he
  event e he := nomatch he
  adds call hcall := nomatch hcall
  created v hv := nomatch hv
  monitor v hv := nomatch hv

/-- Every reachable state of a node. -/
theorem of_run (keccak : List UInt8 → Hash) {coinbase : Address} {broadness : ℕ}
    {actions : List Action} {s : NodeState × List Output}
    (hrun : run (logged (NodeState.step keccak)) (Node.newNode coinbase broadness, []) actions =
      .ok s) : s.1.Pointed := by
  have hstep (s : NodeState × List Output) (a : Action) (h : s.1.Pointed) :
      Ensures (logged (NodeState.step keccak) s a) fun s' => s'.1.Pointed :=
    .map (NodeState.step_of_move (h.move a)) fun r hr => hr
  exact run_preserves hstep (newNode coinbase broadness) actions s hrun

end NodeState.Pointed

end Hashgrid.Node
