import Hashgrid.Node.Agreement

/-!
# Delivered events are not lost

What becomes of a valid event after it was put into `eventNorm` or `witnessR`. It waits there,
then in a call of `AddEvent` that has not come to the column of its creator, and then it is in
this column for good. Other goroutines and other events do not change that, in whatever order
they come, as long as no column is stored for an address that has one. Events in `witnessL` are
not added.
-/

namespace Hashgrid.Core

open Hashgrid.Bytes

/-- A valid event of the creator with the hash. -/
structure Event.Names {ρ : Type} (keccak : List UInt8 → Hash) (a : Address) (k : Hash)
    (e : Event ρ) : Prop where
  /-- It is valid. -/
  valid : validateEvent keccak e = true
  /-- It has the creator. -/
  creator : e.selfSig.addr = a
  /-- It has the hash. -/
  hash : e.selfHash = k

theorem JPGraph.names_receive {keccak : List UInt8 → Hash} {a : Address} {k : Hash} {e : Event ℤ}
    (h : e.Names keccak a k) (jp : JPGraph) : (jp.receive e).2.Names keccak a k := by
  unfold JPGraph.receive
  split <;> exact ⟨h.valid, h.creator, h.hash⟩

end Hashgrid.Core

namespace Hashgrid.Node

open Hashgrid.Bytes Hashgrid.Core Hashgrid.Machine Hashgrid.Wire

variable {ch : Channel}

/-- What a turn of the event loop takes from a channel other than `witnessL` is added. -/
theorem eventHandle_takes (keccak : List UInt8 → Hash) (h : Handler) (jp : JPGraph) (b : Branch)
    (hch : ch ≠ .witnessL) : Ensures (eventHandle keccak h jp b) fun t =>
      ∀ e ∈ jp.channel ch, e ∈ t.graph.channel ch ∨ ∃ ty, (e, ty) ∈ t.addCalls := by
  refine .map (.self _) fun t ht e he => ?_
  have hstays (hmem : e ∈ t.graph.channel ch) :
      e ∈ t.finish.graph.channel ch ∨ ∃ ty, (e, ty) ∈ t.finish.addCalls := by
    rw [t.finish_eq.2]
    exact Or.inl hmem
  cases (select_spec keccak h jp b t ht).1 with
  | take ch' e' rest hq hevent hty _ hchannel _ =>
    have hnow := hchannel ch
    split_ifs at hnow with heq
    · subst heq
      rw [hq] at he
      rcases List.mem_cons.mp he with rfl | he
      · refine Or.inr ⟨t.handler.ty, ?_⟩
        rw [Turn.addCalls_finish, if_pos (hty hch), hevent]
        exact List.mem_append_right _ List.mem_cons_self
      · exact hstays (hnow ▸ he)
    · exact hstays (hnow ▸ he)
  | compose _ _ _ hr _ _ _ => exact hstays (channel_composeEvent hr ch ▸ he)
  | idle _ _ hchannel _ => exact hstays (hchannel ch ▸ he)

namespace NodeState

/-- The valid event of the creator with the hash waits in a channel other than `witnessL`, or in a
call of `AddEvent` that has not come to the column of the creator, or it is in this column. -/
inductive Keeps (keccak : List UInt8 → Hash) (a : Address) (k : Hash) (s : NodeState) : Prop
  /-- It waits in a channel. -/
  | waits (ch : Channel) (other : ch ≠ .witnessL) (e : Event ℕ) (mem : e ∈ s.graph.channel ch)
      (names : e.Names keccak a k)
  /-- It waits in a call. -/
  | calls (call : AddCall) (mem : call ∈ s.adds) (vertex : call.pc.vertex = none)
      (names : call.event.Names keccak a k)
  /-- It is in its column. -/
  | stored (v : ℕ) (held : s.graph.held a k = some v)

variable {keccak : List UInt8 → Hash} {a : Address} {k : Hash} {s s' : NodeState}

/-- A step that leaves the calls alone and takes nothing from the channels. -/
theorem Keeps.sameCalls (h : s.Keeps keccak a k) (hstay : s.graph.ColumnsStay s'.graph)
    (hchannel : ∀ ch ≠ .witnessL, ∀ e ∈ s.graph.channel ch, e ∈ s'.graph.channel ch)
    (hadds : s'.adds = s.adds) : s'.Keeps keccak a k := by
  cases h with
  | waits ch hother e hmem hnames => exact .waits ch hother e (hchannel ch hother e hmem) hnames
  | calls call hmem hvertex hnames => exact .calls call (hadds ▸ hmem) hvertex hnames
  | stored v hheld => exact .stored v (hstay.held hheld)

/-- A turn of the event loop. -/
theorem Keeps.handleStep (h : s.Keeps keccak a k) (hstay : s.graph.ColumnsStay s'.graph)
    {b : Branch} {t : Turn} (ht : eventHandle keccak s.handler s.graph b = .ok t)
    (hgraph : s'.graph = t.graph)
    (hadds : s'.adds = s.adds ++ t.addCalls.map fun call => ⟨call.1, call.2, .start⟩) :
    s'.Keeps keccak a k := by
  cases h with
  | waits ch hother e hmem hnames =>
    rcases eventHandle_takes keccak s.handler s.graph b hother t ht e hmem with hstays | ⟨ty, hty⟩
    · exact .waits ch hother e (hgraph ▸ hstays) hnames
    · refine .calls ⟨e, ty, .start⟩ ?_ rfl hnames
      rw [hadds]
      exact List.mem_append_right _ (List.mem_map.mpr ⟨(e, ty), hty, rfl⟩)
  | calls call hmem hvertex hnames =>
    refine .calls call ?_ hvertex hnames
    rw [hadds]
    exact List.mem_append_left _ hmem
  | stored v hheld => exact .stored v (hstay.held hheld)

/-- A call of `AddEvent` goes on. -/
theorem Keeps.addStep (h : s.Keeps keccak a k) (hplaced : s.Placed)
    (hstay : s.graph.ColumnsStay s'.graph) {i : ℕ} {call : AddCall} {jp : JPGraph}
    {pc : Option AddPc} (hfound : s.adds[i]? = some call) (hanew : call.Anew s.graph)
    (hstep : call.step keccak s.graph = .ok (jp, pc))
    (hnext : s' = { s with
      graph := jp
      adds := pc.elim (s.adds.eraseIdx i) fun pc => s.adds.set i { call with pc := pc } }) :
    s'.Keeps keccak a k := by
  obtain ⟨rest, hadds, hgoes⟩ := Pools.exists_perm hfound
  have hcalls : s'.adds.Perm ((pc.map fun pc => { call with pc := pc }).toList ++ rest) :=
    hnext ▸ hgoes pc fun pc => { call with pc := pc }
  cases h with
  | waits ch hother e hmem hnames =>
    have hkeeps := call.step_keeps keccak s.graph _ hstep
    refine .waits ch hother e ?_ hnames
    rw [hnext]
    exact (hkeeps.channel ch).symm ▸ hmem
  | calls c hmem hvertex hnames =>
    rcases List.mem_cons.mp (hadds.mem_iff.mp hmem) with rfl | hrest
    · have hgoes := (AddCall.step_places hanew _ hstep).goes
        ⟨hplaced.columned, hplaced.calls c hmem⟩ hnames.valid hvertex
      rcases hgoes with ⟨pc', rfl, hvertex'⟩ | ⟨v, hheld⟩
      · exact .calls { c with pc := pc' } (hcalls.mem_iff.mpr List.mem_cons_self) hvertex' hnames
      · exact .stored v (by rw [hnext, ← hnames.creator, ← hnames.hash]; exact hheld)
    · exact .calls c (hcalls.mem_iff.mpr (List.mem_append_right _ hrest)) hvertex hnames
  | stored v hheld => exact .stored v (hstay.held hheld)

/-- A step of a node loses no event. -/
theorem Keeps.move (h : s.Keeps keccak a k) (hsound : s.Sound keccak) (hplaced : s.Placed)
    {act : Action} (hanew : s.Anew act) :
    Ensures (s.move keccak act) fun r => r.1.Keeps keccak a k := by
  intro r hr
  have hstay := (columns_move hsound hanew r hr).1
  cases s.move_spec keccak act r hr with
  | handle b t ht hnext => exact h.handleStep hstay ht (by rw [hnext]) (by rw [hnext])
  | receive msg pick hd hhd hnext =>
    refine h.sameCalls hstay (fun ch _ e he => ?_) (by rw [hnext])
    rw [hnext]
    rcases handle_cases s.graph msg pick hd hhd with heq | ⟨-, ch', -, hput⟩
    · exact heq ▸ he
    · obtain ⟨-, -, -, hchannel⟩ := putEvent_spec _ ch' _ _ hput
      have hin : e ∈ (s.graph.receive (decodeMsg msg)).1.channel ch := by
        rw [channel_receive]
        exact he
      change e ∈ hd.graph.channel ch
      rw [hchannel]
      split_ifs
      · exact List.mem_append_left _ hin
      · exact hin
  | add i call jp pc hfound hstep hnext =>
    exact h.addStep hplaced hstay hfound (hanew call hfound) hstep hnext
  | send i hnext =>
    exact h.sameCalls hstay (fun _ _ _ he => by rw [hnext]; exact he) (by rw [hnext])
  | cast i hnext => exact hnext ▸ h
  | trigger idx hidx hnext =>
    refine h.sameCalls hstay (fun ch _ e he => ?_) (by rw [hnext])
    rw [hnext]
    cases ch <;> exact he
  | roundLoop v rest jp consensus hidle hhead hturn hnext =>
    refine h.sameCalls hstay (fun ch _ e he => ?_) (by rw [hnext])
    rw [hnext]
    change e ∈ jp.channel ch
    rw [channel_roundLoop _ _ _ hturn ch]
    cases ch <;> exact he
  | monitor order m jp hstep hnext =>
    refine h.sameCalls hstay (fun ch hother e he => ?_) (by rw [hnext])
    rw [hnext]
    change e ∈ jp.channel ch
    rcases channel_monitorEffect (monitorStep_effect s.monitor s.graph order _ hstep) ch with
      heq | ⟨v, -, hlocal, -⟩
    · exact heq ▸ he
    · exact absurd hlocal hother
  | consensusShow rest hnext =>
    refine h.sameCalls hstay (fun ch _ e he => ?_) (by rw [hnext])
    rw [hnext]
    cases ch <;> exact he

/-- A message brings a valid event. -/
theorem keeps_receive {msg : Msg} (hcode : msg.code = eventMsg)
    (hchan : chanEvent msg.type = some ch) (hother : ch ≠ .witnessL)
    (hnames : (decodeMsg msg).Names keccak a k) (s : NodeState) (pick : ℕ) :
    Ensures (s.move keccak (.receive msg pick)) fun r => r.1.Keeps keccak a k := by
  intro r hr
  cases s.move_spec keccak _ r hr with
  | receive _ _ hd hhd hnext =>
    rw [handle_eventMsg s.graph hcode, hchan] at hhd
    obtain ⟨jp, hput, rfl⟩ := exists_of_map_eq_ok hhd
    obtain ⟨-, -, -, hchannel⟩ := putEvent_spec _ ch _ _ hput
    refine .waits ch hother _ ?_ (s.graph.names_receive hnames)
    rw [hnext]
    change _ ∈ jp.channel ch
    rw [hchannel, if_pos rfl]
    exact List.mem_append_right _ List.mem_cons_self

/-- A run of a node loses no event. -/
theorem Keeps.run {s s' : NodeState × List Output} {actions : List Action}
    (h : s.1.Keeps keccak a k) (hsound : s.1.Sound keccak) (hplaced : s.1.Placed)
    (hrun : Machine.run (logged (NodeState.step keccak)) s actions = .ok s')
    (hanew : Meets (logged (NodeState.step keccak)) (fun s a => s.1.Anew a) s actions) :
    s'.1.Keeps keccak a k := by
  have hstep (s : NodeState × List Output) (act : Action)
      (hs : s.1.Sound keccak ∧ s.1.Placed ∧ s.1.Keeps keccak a k) (hact : s.1.Anew act) :
      Ensures (logged (NodeState.step keccak) s act) fun s' =>
        s'.1.Sound keccak ∧ s'.1.Placed ∧ s'.1.Keeps keccak a k := by
    obtain ⟨hsound, hplaced, hkeeps⟩ := hs
    refine .map (step_of_move (Q := fun r => r.1.Sound keccak ∧ r.1.Placed ∧ r.1.Keeps keccak a k)
      fun r hr => ?_) fun r hr => hr
    obtain ⟨hsound', hplaced'⟩ := hplaced.move hsound hact r hr
    exact ⟨hsound', hplaced', hkeeps.move hsound hplaced hact r hr⟩
  exact (run_invariant hstep ⟨hsound, hplaced, h⟩ hanew s' hrun).2.2

end NodeState

/-- A valid event that a message brings to a reachable state is not lost, unless a column is stored
for an address that has one: in whatever order the goroutines go on and whatever else comes in, it
waits in its channel or in a call of `AddEvent` until it is in the column of its creator. -/
theorem delivered_kept (keccak : List UInt8 → Hash) {coinbase : Address} {broadness : ℕ}
    {before after : List Action} {s : NodeState × List Output} {msg : Msg} {pick : ℕ}
    {ch : Channel} (hcode : msg.code = eventMsg) (hchan : chanEvent msg.type = some ch)
    (hother : ch ≠ .witnessL) (hvalid : validateEvent keccak (decodeMsg msg) = true)
    (hrun : run (logged (NodeState.step keccak)) (newNode coinbase broadness, [])
      (before ++ .receive msg pick :: after) = .ok s)
    (hanew : Meets (logged (NodeState.step keccak)) (fun s a => s.1.Anew a)
      (newNode coinbase broadness, []) (before ++ .receive msg pick :: after)) :
    (∃ ch' ≠ .witnessL, ∃ e ∈ s.1.graph.channel ch', e.selfHash = (decodeMsg msg).selfHash) ∨
      (∃ call ∈ s.1.adds, call.event.selfHash = (decodeMsg msg).selfHash) ∨
        ∃ v, s.1.graph.held (decodeMsg msg).selfSig.addr (decodeMsg msg).selfHash = some v := by
  obtain ⟨s₁, hbefore, hrest⟩ := exists_of_run_append hrun
  obtain ⟨s₂, hfirst, hafter⟩ := exists_of_run_cons hrest
  have hsound₁ := NodeState.Sound.of_run keccak hbefore
  have hplaced₁ : s₁.1.Placed :=
    (NodeState.columns_run (NodeState.sound_newNode keccak coinbase broadness) hbefore
      hanew.append_left).2 (NodeState.placed_newNode coinbase broadness)
  -- The message takes the node to a state where the event waits in its channel.
  obtain ⟨hanew₁, hanew₂⟩ := hanew.of_append hbefore
  rw [hfirst] at hanew₂
  obtain ⟨r, hr, rfl⟩ := exists_of_map_eq_ok hfirst
  obtain ⟨hsound₂, hplaced₂⟩ : r.1.Sound keccak ∧ r.1.Placed :=
    NodeState.step_of_move (hplaced₁.move hsound₁ hanew₁) r hr
  have hkeeps₂ := NodeState.step_of_move
    (NodeState.keeps_receive hcode hchan hother ⟨hvalid, rfl, rfl⟩ s₁.1 pick) r hr
  have hkeeps :=
    NodeState.Keeps.run (s := (r.1, s₁.2 ++ r.2)) hkeeps₂ hsound₂ hplaced₂ hafter hanew₂
  cases hkeeps with
  | waits ch' hother' e hmem hnames => exact Or.inl ⟨ch', hother', e, hmem, hnames.hash⟩
  | calls call hmem _ hnames => exact Or.inr (Or.inl ⟨call, hmem, hnames.hash⟩)
  | stored v hheld => exact Or.inr (Or.inr ⟨v, hheld⟩)

/-- `eventB` comes in at node `0x0c` before its other parent, and after both were added it is in
the column of its creator. -/
theorem delivered_kept_swapped :
    ∃ v, swappedNode.1.graph.held (decodeMsg (arrivedMsg eventMsg 1 eventB.wire)).selfSig.addr
      (decodeMsg (arrivedMsg eventMsg 1 eventB.wire)).selfHash = some v := by
  obtain ⟨hvalid, hnorm, hwitness, hadds, hanew⟩ :
      validateEvent triangleKeccak (decodeMsg (arrivedMsg eventMsg 1 eventB.wire)) = true ∧
      swappedNode.1.graph.eventNorm = [] ∧ swappedNode.1.graph.witnessR = [] ∧
      swappedNode.1.adds = [] ∧
      Meets (logged (NodeState.step triangleKeccak)) (fun s a => s.1.Anew a)
        (newNode (FixedBytes.ofNat 20 0x0C) 3, []) arriveSwapped := by decide +kernel
  rcases @delivered_kept triangleKeccak _ _ [] _ _ _ _ _ rfl rfl (by decide) hvalid
    triangleSteps_arriveSwapped hanew with ⟨ch, hother, e, he, -⟩ | ⟨call, hcall, -⟩ | hstored
  · cases ch with
    | eventNorm => exact absurd he (by rw [JPGraph.channel, hnorm]; exact List.not_mem_nil)
    | witnessR => exact absurd he (by rw [JPGraph.channel, hwitness]; exact List.not_mem_nil)
    | witnessL => exact absurd rfl hother
  · exact absurd (hadds ▸ hcall) List.not_mem_nil
  · exact hstored

end Hashgrid.Node
