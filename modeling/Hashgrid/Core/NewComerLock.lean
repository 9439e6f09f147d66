import Hashgrid.Core.AddEffect
import Hashgrid.Core.Retrieve
import Hashgrid.Core.StoreEffect
import Hashgrid.Lib.Pool

/-!
# The lock of the newcomers

`addComer` returns with the lock `nc` held when it finds its hash in the list already.
Calls of `AddEvent` interleave with each other and with the loops of the node. As long as
no event gets a second vertex, no hash comes twice, and the lock is free after every step.
-/

namespace Hashgrid.Core

open Hashgrid.Bytes Hashgrid.Machine Hashgrid.Pools

/-- A call of `AddEvent` starts. -/
inductive NewCall
  /-- With an event from the wire. -/
  | arrive (e : Event ℤ) (ty : ℕ)
  /-- With a composed event. -/
  | add (i ty : ℕ)

/-- What goes on next to the calls of `AddEvent`. -/
inductive Turn
  /-- An event is composed. -/
  | compose (now : ℤ) (rand : ℕ)
  /-- A turn of `RoundLoop`. -/
  | roundLoop
  /-- A step of `MonitorLoop`. -/
  | monitor (order : ℕ → List Address)

/-- A turn is a move. -/
def Turn.move : Turn → Move
  | .compose now rand => .compose now rand
  | .roundLoop => .roundLoop
  | .monitor order => .monitor order

theorem Turn.added_move (s : Site) (t : Turn) : s.added t.move = none := by
  cases t <;> rfl

/-- Calls of `AddEvent`, cut at their locks and channels, with the loops of the node. -/
def addCalls (keccak : List UInt8 → Hash) : System Stop Site AddCall NewCall Turn where
  start s call :=
    match call with
    | .arrive e ty =>
      match s.graph.receive e with
      | (jp, e) => .ok ({ s with graph := jp }, ⟨e, ty, .start⟩)
    | .add i ty =>
      match s.composed[i]? with
      | none => .error .blocked
      | some e => .ok (s, ⟨e, ty, .start⟩)
  go s call := (call.step keccak s.graph).map fun r =>
    ({ s with graph := r.1 }, r.2.map fun pc => { call with pc := pc })
  other s t := s.step keccak t.move
  idle := .blocked

/-- The new vertex of a call that has not been entered in the list of newcomers. -/
def AddPc.unlisted : AddPc → Option ℕ
  | .link _ _ _ v => some v
  | .request _ _ v => some v
  | .record _ _ v _ => some v
  | .comer _ v _ => some v
  | _ => none

theorem AddPc.unlisted_of_vertex {pc : AddPc} (h : pc.vertex = none) : pc.unlisted = none := by
  cases pc with
  | link | request | record | comer => cases h
  | _ => rfl

/-- The column in which a call looks for its event. -/
def AddPc.insertColumn : AddPc → Option ℕ
  | .insert c _ _ => some c
  | _ => none

namespace JPGraph

/-- Vertices keep their hashes, and rounds their newcomers. -/
structure SameComers (jp jp' : JPGraph) : Prop where
  /-- No vertex is added. -/
  next : jp'.verts.next = jp.verts.next
  /-- The hashes of vertices stay. -/
  hash : ∀ v, (jp'.vert v).event.selfHash = (jp.vert v).event.selfHash
  /-- The newcomers stay. -/
  comers : ∀ i, jp'.comers i = jp.comers i

variable (jp : JPGraph) {jp' : JPGraph}

theorem SameComers.refl : SameComers jp jp := ⟨rfl, fun _ => rfl, fun _ => rfl⟩

theorem SameComers.trans {jp jp'' : JPGraph} (h : SameComers jp jp') (h' : SameComers jp' jp'') :
    SameComers jp jp'' :=
  ⟨h'.next.trans h.next, fun v => (h'.hash v).trans (h.hash v),
    fun i => (h'.comers i).trans (h.comers i)⟩

theorem sameComers_setVert (v : ℕ) {f : Vertex → Vertex}
    (hf : ∀ vert, (f vert).event = vert.event) : SameComers jp (jp.setVert v f) :=
  ⟨Heap.next_update .., fun u => congrArg Event.selfHash (jp.vert_setVert_of_eq v hf u),
    fun _ => rfl⟩

theorem sameComers_setRound (i : ℕ) {f : Round → Round} (hf : ∀ rd, (f rd).ncLocked = rd.ncLocked)
    (hf' : ∀ rd, (f rd).newComer = rd.newComer) : SameComers jp (jp.setRound i f) :=
  ⟨rfl, fun _ => rfl, comers_setRound jp i hf hf'⟩

/-- The section under the lock of the other column. -/
theorem sameComers_linkOther (v : ℕ) (oc : Option ℕ) : SameComers jp (jp.linkOther v oc).1 := by
  unfold linkOther
  split
  · exact sameComers_setVert jp v fun _ => by rfl
  · exact .refl jp

/-- The search in the round queue. -/
theorem sameComers_recordRound (fw : Bool) (ty c v : ℕ) :
    Ensures (jp.recordRound fw ty c v) fun r => SameComers jp r.1 := by
  intro r hr
  rcases jp.recordRound_cases fw ty c v r hr with heq | ⟨x, i, -, -, -, heq⟩
  · rw [heq]
    exact .refl jp
  · rw [heq]
    refine (sameComers_setVert jp v fun _ => by rfl).trans (sameComers_setRound _ i ?_ ?_)
    · exact fun _ => rfl
    · exact fun _ => rfl

/-- The section under the lock of the lost parents. -/
theorem sameComers_updateLost (i v : ℕ) (linkpost : Bool) :
    SameComers jp (jp.updateLost i v linkpost) := by
  have hpatch : SameComers jp (jp.patchLost i v) := by
    unfold patchLost
    split
    · exact .refl jp
    · next us _ =>
      have hverts : SameComers jp { jp with
          verts := jp.verts.updateAll us fun vert => { vert with anotherPt := some v } } :=
        ⟨Heap.next_updateAll .., Heap.get_updateAll_of_eq jp.verts us
          (g := fun vert => vert.event.selfHash) fun _ => by rfl, fun _ => rfl⟩
      refine hverts.trans (sameComers_setRound _ i ?_ ?_)
      · exact fun _ => rfl
      · exact fun _ => rfl
  unfold updateLost
  dsimp only
  split_ifs
  · refine hpatch.trans (sameComers_setRound _ i ?_ ?_)
    · exact fun _ => rfl
    · exact fun _ => rfl
  · exact hpatch

theorem sameComers_signalCreated (v : ℕ) : SameComers jp (jp.signalCreated v) := by
  rw [signalCreated_eq]
  exact ⟨rfl, fun _ => rfl, fun _ => rfl⟩

theorem Linkless.sameComers {jp : JPGraph} (h : Linkless jp jp') : SameComers jp jp' := by
  refine ⟨?_, fun v => congrArg Event.selfHash (h.event v), h.comers⟩
  rw [← length_nodes_links, h.links, length_nodes_links]

/-- All locks are free, no two vertices have one hash, and newcomers have the hashes of
vertices. -/
structure ComersFree (jp : JPGraph) : Prop where
  /-- The locks. -/
  unlocked : ∀ i, (jp.comers i).1 = false
  /-- The hashes of vertices. -/
  hash_inj : ∀ u < jp.verts.next, ∀ v < jp.verts.next,
    (jp.vert u).event.selfHash = (jp.vert v).event.selfHash → u = v
  /-- The newcomers. -/
  stored : ∀ i, ∀ h ∈ (jp.comers i).2, ∃ v < jp.verts.next, (jp.vert v).event.selfHash = h

/-- The new vertex of the call is there, and is no newcomer yet. -/
def Unlisted (jp : JPGraph) (call : AddCall) : Prop :=
  ∀ v, call.pc.unlisted = some v →
    v < jp.verts.next ∧ ∀ i, (jp.vert v).event.selfHash ∉ (jp.comers i).2

/-- Steps that keep hashes and newcomers. -/
theorem SameComers.comersFree {jp : JPGraph} (h : SameComers jp jp') (hfree : jp.ComersFree) :
    jp'.ComersFree := by
  refine ⟨fun i => ?_, fun u hu v hv huv => ?_, fun i k hk => ?_⟩
  · rw [h.comers]
    exact hfree.unlocked i
  · rw [h.hash, h.hash] at huv
    exact hfree.hash_inj u (h.next ▸ hu) v (h.next ▸ hv) huv
  · rw [h.comers] at hk
    obtain ⟨v, hv, hvk⟩ := hfree.stored i k hk
    exact ⟨v, h.next ▸ hv, (h.hash v).trans hvk⟩

/-- Steps that keep hashes and newcomers. -/
theorem SameComers.unlisted {jp : JPGraph} (h : SameComers jp jp') {call : AddCall}
    (hcall : jp.Unlisted call) : jp'.Unlisted call := by
  intro v hv
  obtain ⟨hlt, hnot⟩ := hcall v hv
  refine ⟨h.next ▸ hlt, fun i => ?_⟩
  rw [h.hash, h.comers]
  exact hnot i

end JPGraph

/-- The calls have different new vertices. -/
def AddCall.Apart (call other : AddCall) : Prop :=
  ∀ v, call.pc.unlisted = some v → other.pc.unlisted ≠ some v

/-- If the call does not find its event in its column, no vertex has its hash. -/
def AddCall.InsertsNew (jp : JPGraph) (call : AddCall) : Prop :=
  ∀ c, call.pc.insertColumn = some c → (jp.col c).hashChain.lookup call.event.selfHash = none →
    ∀ v < jp.verts.next, (jp.vert v).event.selfHash ≠ call.event.selfHash

instance (jp : JPGraph) (call : AddCall) : Decidable (call.InsertsNew jp) :=
  match h : call.pc.insertColumn with
  | none => isTrue fun c hc => absurd (h.symm.trans hc) (by simp)
  | some c => decidable_of_iff ((jp.col c).hashChain.lookup call.event.selfHash = none →
      ∀ v < jp.verts.next, (jp.vert v).event.selfHash ≠ call.event.selfHash)
    ⟨fun hnew d hd => by
      cases h.symm.trans hd
      exact hnew, fun hall => hall c h⟩

namespace AddCall

/-- A step that keeps hashes and newcomers, after which the call has no new vertex that it did
not have before. -/
structure Quiet (call : AddCall) (jp : JPGraph) (r : JPGraph × Option AddPc) : Prop where
  /-- Hashes and newcomers stay. -/
  same : jp.SameComers r.1
  /-- The call gets no new vertex. -/
  unlisted : ∀ pc, r.2 = some pc → ∀ v, pc.unlisted = some v → call.pc.unlisted = some v

section Quiet

variable {call : AddCall} {jp jp' : JPGraph} {pc : AddPc}

theorem Quiet.last (h : jp.SameComers jp') : call.Quiet jp (jp', none) :=
  ⟨h, fun _ hpc => nomatch hpc⟩

/-- The call goes on without a new vertex. -/
theorem Quiet.without (h : jp.SameComers jp') (hpc : pc.unlisted = none) :
    call.Quiet jp (jp', some pc) := by
  refine ⟨h, fun pc' hpc' v hv => ?_⟩
  cases hpc'
  rw [hpc] at hv
  cases hv

/-- The call goes on with the new vertex that it has. -/
theorem Quiet.keeping (h : jp.SameComers jp') (hpc : pc.unlisted = call.pc.unlisted) :
    call.Quiet jp (jp', some pc) := by
  refine ⟨h, fun pc' hpc' v hv => ?_⟩
  cases hpc'
  exact hpc.symm.trans hv

end Quiet

/-- What a step of a call does to newcomers when it neither creates nor enters a vertex. -/
theorem step_quiet (keccak : List UInt8 → Hash) (call : AddCall) (jp : JPGraph)
    (hinsert : ∀ c, call.pc.insertColumn = some c →
      (jp.col c).hashChain.lookup call.event.selfHash ≠ none)
    (hcomer : ∀ i v linkpost, call.pc ≠ .comer i v linkpost) :
    Ensures (call.step keccak jp) (call.Quiet jp) := by
  obtain ⟨e, ty, pc⟩ := call
  intro r hr
  cases AddCall.step_moves keccak ⟨e, ty, pc⟩ jp r hr with
  | rejects => exact .last (.refl jp)
  | looks _ _ hnext => exact .without (.refl jp) (AddPc.unlisted_of_vertex hnext)
  | selfInsert | otherInsert | otherMajority =>
    exact .without ⟨rfl, fun _ => rfl, fun _ => rfl⟩ rfl
  | selfMajority =>
    exact .without ⟨rfl, fun _ => rfl, fun _ => rfl⟩ (AddPc.unlisted_of_vertex (by simp))
  | known =>
    split_ifs
    · exact .without (.refl jp) rfl
    · exact .last (.refl jp)
  | inserts fw oc hlook => exact absurd hlook (hinsert _ rfl)
  | existed v => exact .without (JPGraph.sameComers_setVert jp v fun _ => by rfl) rfl
  | trigger v => exact .last ⟨rfl, fun _ => rfl, fun _ => rfl⟩
  | link sc fw oc v =>
    refine .keeping (jp.sameComers_linkOther v oc) ?_
    split_ifs <;> rfl
  | request sc fw v => exact .keeping ⟨rfl, fun _ => rfl, fun _ => rfl⟩ rfl
  | @record _ _ _ round linkpost hround =>
    have hsame := jp.sameComers_recordRound _ _ _ _ _ hround
    obtain ⟨jp', i⟩ := round
    cases i with
    | none => exact .without hsame rfl
    | some i => exact .keeping hsame rfl
  | comer linkpost => exact absurd rfl (hcomer _ _ linkpost)
  | lost i v linkpost => exact .without (jp.sameComers_updateLost i v linkpost) rfl
  | created v => exact .last (jp.sameComers_signalCreated v)

end AddCall

variable {i : ℕ}

namespace JPGraph

section NewVertex

variable {jp : JPGraph} {e : Event ℕ} (c ty : ℕ)

/-- The hashes of vertices after one was created. -/
theorem selfHash_withVertex (v : ℕ) : ((jp.withVertex e ty c).vert v).event.selfHash =
    if v = jp.verts.next then e.selfHash else (jp.vert v).event.selfHash := by
  rw [vert_withVertex]
  split_ifs
  · simp only [newVertex, copyEvent_eq]
  · rfl

/-- A vertex with a new hash. -/
theorem ComersFree.withVertex (h : jp.ComersFree)
    (hnew : ∀ v < jp.verts.next, (jp.vert v).event.selfHash ≠ e.selfHash) :
    (jp.withVertex e ty c).ComersFree := by
  have hnext : (jp.withVertex e ty c).verts.next = jp.verts.next + 1 := Heap.next_alloc ..
  refine ⟨h.unlocked, fun u hu v hv huv => ?_, fun i k hk => ?_⟩
  · rw [hnext] at hu hv
    rw [selfHash_withVertex, selfHash_withVertex] at huv
    split_ifs at huv with hu' hv' hv'
    · rw [hu', hv']
    · exact absurd huv.symm (hnew v (by omega))
    · exact absurd huv (hnew u (by omega))
    · exact h.hash_inj u (by omega) v (by omega) huv
  · obtain ⟨v, hv, hvk⟩ := h.stored i k hk
    refine ⟨v, by omega, ?_⟩
    rw [selfHash_withVertex, if_neg (Nat.ne_of_lt hv)]
    exact hvk

/-- Other calls keep their new vertices. -/
theorem Unlisted.withVertex {call : AddCall} (h : jp.Unlisted call) :
    (jp.withVertex e ty c).Unlisted call := by
  have hnext : (jp.withVertex e ty c).verts.next = jp.verts.next + 1 := Heap.next_alloc ..
  intro v hv
  obtain ⟨hlt, hnot⟩ := h v hv
  refine ⟨by omega, fun i => ?_⟩
  rw [selfHash_withVertex, if_neg (Nat.ne_of_lt hlt)]
  exact hnot i

end NewVertex

/-- The newcomers after one was added. -/
theorem comers_addComer {jp : JPGraph} (rqa : RequestArg) (hfree : (jp.comers i).1 = false)
    (hnew : rqa.targetHash ∉ (jp.comers i).2) :
    Ensures (jp.addComer i rqa) fun jp' => jp'.verts = jp.verts ∧
      ∀ j, (jp'.comers j).1 = (jp.comers j).1 ∧
        ∀ h ∈ (jp'.comers j).2, h ∈ (jp.comers j).2 ∨ h = rqa.targetHash := by
  have hlisted : ((jp.round i).newComer.any fun n =>
      n.targetHash.compare rqa.targetHash = 0) = false := by
    rw [List.any_eq_false]
    intro n hn hcmp
    rw [decide_eq_true_eq, FixedBytes.compare_eq_zero] at hcmp
    exact hnew (hcmp ▸ List.mem_map_of_mem hn)
  have hlock : (jp.round i).ncLocked = false := hfree
  unfold addComer
  rw [hlock, hlisted]
  refine .ok ⟨rfl, fun j => ?_⟩
  rcases Heap.get_update_eq_or jp.rounds i j fun rd =>
    { rd with newComer := rd.newComer ++ [rqa] } with heq | ⟨-, heq⟩
  · simp only [comers, round, setRound, heq, true_and]
    exact fun h hh => Or.inl hh
  · simp only [comers, round, setRound, heq, true_and, List.map_append, List.map_singleton]
    intro h hh
    exact (List.mem_append.mp hh).imp id List.mem_singleton.mp

end JPGraph

namespace AddCall

/-- What a step of a call has to keep. -/
structure KeepsComers (call : AddCall) (jp : JPGraph) (r : JPGraph × Option AddPc) : Prop where
  /-- The locks stay free. -/
  free : r.1.ComersFree
  /-- The call goes on. -/
  own : ∀ pc, r.2 = some pc → r.1.Unlisted { call with pc := pc }
  /-- The other calls are not disturbed. -/
  others : ∀ d, jp.Unlisted d → call.Apart d →
    r.1.Unlisted d ∧ ∀ pc, r.2 = some pc → Apart { call with pc := pc } d

section Step

variable (keccak : List UInt8 → Hash) {call : AddCall} {jp : JPGraph} (h : jp.ComersFree)

include h

/-- A vertex is created. -/
theorem step_comers_insert {c : ℕ} {fw : Bool} {oc : Option ℕ} (hpc : call.pc = .insert c fw oc)
    (hlook : (jp.col c).hashChain.lookup call.event.selfHash = none)
    (hnew : ∀ v < jp.verts.next, (jp.vert v).event.selfHash ≠ call.event.selfHash) :
    Ensures (call.step keccak jp) (call.KeepsComers jp) := by
  have hnext : (jp.withVertex call.event call.type c).verts.next = jp.verts.next + 1 :=
    Heap.next_alloc ..
  simp only [AddCall.step, hpc, JPGraph.insertVertex_new hlook]
  refine .ok ⟨h.withVertex c call.type hnew, fun pc hpc' v hv => ?_, fun d hd _ => ?_⟩
  · cases hpc'
    cases hv
    refine ⟨Nat.lt_of_lt_of_eq (Nat.lt_succ_self _) hnext.symm, fun i hi => ?_⟩
    rw [JPGraph.selfHash_withVertex, if_pos rfl] at hi
    obtain ⟨u, hu, huhash⟩ := h.stored i _ hi
    exact hnew u hu huhash
  · refine ⟨hd.withVertex c call.type, fun pc hpc' v hv hdv => ?_⟩
    cases hpc'
    cases hv
    exact absurd (hd _ hdv).1 (lt_irrefl _)

/-- A vertex is entered. -/
theorem step_comers_comer (hcall : jp.Unlisted call) {v : ℕ} {linkpost : Bool}
    (hpc : call.pc = .comer i v linkpost) :
    Ensures (call.step keccak jp) (call.KeepsComers jp) := by
  obtain ⟨hv, hnot⟩ := hcall v (by rw [hpc]; rfl)
  simp only [AddCall.step, hpc]
  have hadds := JPGraph.comers_addComer (jp.comerOf v) (h.unlocked i) (hnot i)
  refine .bind hadds fun jp' hjp' => .ok ?_
  obtain ⟨hverts, hcomers⟩ := hjp'
  have hvert (u : ℕ) : jp'.vert u = jp.vert u := congrArg (Heap.get · u) hverts
  refine ⟨⟨fun j => ?_, fun u hu w hw huw => ?_, fun j k hk => ?_⟩, fun pc hpc' w hw => ?_,
    fun d hd hapart => ⟨fun w hw => ?_, fun pc hpc' w hw => ?_⟩⟩
  · exact (hcomers j).1.trans (h.unlocked j)
  · rw [hvert, hvert] at huw
    rw [hverts] at hu hw
    exact h.hash_inj u hu w hw huw
  · rw [hverts]
    simp only [hvert]
    rcases (hcomers j).2 k hk with hk | rfl
    · exact h.stored j k hk
    · exact ⟨v, hv, rfl⟩
  · cases hpc'
    cases hw
  · -- The entry has another hash, because the calls have different vertices.
    obtain ⟨hlt, hnot'⟩ := hd w hw
    rw [hverts, hvert]
    refine ⟨hlt, fun j hj => ?_⟩
    rcases (hcomers j).2 _ hj with hj | hj
    · exact hnot' j hj
    · have hwv : w = v := h.hash_inj w hlt v hv hj
      exact hapart v (by rw [hpc]; rfl) (hwv ▸ hw)
  · cases hpc'
    cases hw

/-- Every step keeps the locks free, if the call does not create a second vertex. -/
theorem step_comers (hcall : jp.Unlisted call) (hok : call.InsertsNew jp) :
    Ensures (call.step keccak jp) (call.KeepsComers jp) := by
  by_cases hcomer : ∃ i v linkpost, call.pc = .comer i v linkpost
  · obtain ⟨i, v, linkpost, hpc⟩ := hcomer
    exact step_comers_comer keccak h hcall hpc
  · by_cases hinsert : ∃ c, call.pc.insertColumn = some c ∧
      (jp.col c).hashChain.lookup call.event.selfHash = none
    · obtain ⟨c, hc, hlook⟩ := hinsert
      have hnew := hok c hc hlook
      cases hpc : call.pc with
      | insert c' fw oc =>
        rw [hpc] at hc
        cases hc
        exact step_comers_insert keccak h hpc hlook hnew
      | _ =>
        rw [hpc] at hc
        cases hc
    · intro r hr
      obtain ⟨hsame, hpc⟩ := call.step_quiet keccak jp (fun c hc hlook => hinsert ⟨c, hc, hlook⟩)
        (fun i v linkpost hpc => hcomer ⟨i, v, linkpost, hpc⟩) r hr
      refine ⟨hsame.comersFree h, fun pc hr2 => ?_, fun d hd hapart => ⟨hsame.unlisted hd, ?_⟩⟩
      · exact hsame.unlisted fun v hv => hcall v (hpc pc hr2 v hv)
      · exact fun pc hr2 v hv => hapart v (hpc pc hr2 v hv)

end Step

end AddCall

/-- While no event gets a second vertex, every step keeps the locks free. -/
theorem keeps_addCalls (keccak : List UInt8 → Hash) : Keeps (addCalls keccak)
    (fun s call => call.InsertsNew s.graph) (fun s => s.graph.ComersFree)
    (fun s call => s.graph.Unlisted call) AddCall.Apart where
  symm c d h v hd hc := h v hc hd
  start s call h := by
    have hsame {jp : JPGraph} (hjp : s.graph.SameComers jp) (e : Event ℕ) (ty : ℕ) :
        jp.ComersFree ∧ jp.Unlisted ⟨e, ty, .start⟩ ∧ ∀ d, s.graph.Unlisted d →
          jp.Unlisted d ∧ AddCall.Apart ⟨e, ty, .start⟩ d :=
      ⟨hjp.comersFree h, fun v hv => (nomatch hv), fun d hd =>
        ⟨hjp.unlisted hd, fun v hv => nomatch hv⟩⟩
    cases call with
    | arrive e ty =>
      have hreceive : s.graph.SameComers (s.graph.receive e).1 := by
        rw [(received_receive s.graph e).rest]
        exact ⟨rfl, fun _ => rfl, fun _ => rfl⟩
      exact .ok (hsame hreceive _ _)
    | add i ty =>
      simp only [addCalls]
      split
      · exact .error
      · exact .ok (hsame (.refl _) _ _)
  other s t h := by
    intro s' hs'
    have hsame := (Site.step_other (t.added_move s) s' hs').sameComers
    exact ⟨hsame.comersFree h, fun d hd => hsame.unlisted hd⟩
  go s call h hcall hok := by
    refine .map (call.step_comers keccak h hcall hok) fun r hr => ?_
    obtain ⟨jp, next⟩ := r
    obtain ⟨hfree, hown, hothers⟩ := hr
    refine ⟨hfree, fun call' hcall' => ?_, fun d hd hapart => ?_⟩
    · obtain ⟨pc, hpc, rfl⟩ := Option.map_eq_some_iff.mp hcall'
      exact hown pc hpc
    · refine ⟨(hothers d hd hapart).1, fun call' hcall' => ?_⟩
      obtain ⟨pc, hpc, rfl⟩ := Option.map_eq_some_iff.mp hcall'
      exact (hothers d hd hapart).2 pc hpc

/-- A call that does not find its event in its column finds no vertex with its hash. -/
def InsertsOnce (s : Pool Site AddCall) (act : Act NewCall Turn) : Prop :=
  Goes s act fun call => call.InsertsNew s.memory.graph

instance (s : Pool Site AddCall) (act : Act NewCall Turn) : Decidable (InsertsOnce s act) :=
  inferInstanceAs (Decidable (Goes s act fun _ => _))

/-- A new node without calls. -/
def newPool (coinbase : Address) (broadness : ℕ) : Pool Site AddCall :=
  ⟨newSite coinbase broadness, []⟩

/-- The lock of the newcomers of the round is free, and nobody who takes it is blocked. -/
structure JPGraph.NcFree (jp : JPGraph) (i : ℕ) : Prop where
  /-- The lock. -/
  unlocked : (jp.round i).ncLocked = false
  /-- `addComer`. -/
  addComer : ∀ rqa, Avoids (jp.addComer i rqa) .blocked
  /-- `RandParent` in `ComposeEvent`. -/
  chooseOther : ∀ rand, Avoids (jp.chooseOther i rand) .blocked

/-- Nobody is blocked by a lock that is free. -/
theorem JPGraph.ncFree_of_unlocked {jp : JPGraph} (h : (jp.round i).ncLocked = false) :
    jp.NcFree i := by
  refine ⟨h, fun rqa => ?_, fun rand => ?_⟩
  · unfold JPGraph.addComer
    rw [h, if_neg Bool.false_ne_true]
    split_ifs <;> exact .ok
  · unfold JPGraph.chooseOther
    rw [h]
    cases (jp.round i).bestVertex with
    | some v => exact .ok
    | none =>
      dsimp only
      rw [if_neg Bool.false_ne_true]
      generalize (jp.round i).randParent jp.coinbase rand = chosen
      obtain ⟨newComer, arg⟩ := chosen
      cases arg <;> exact .ok

/-- Let calls of `AddEvent` interleave with each other and with the loops of the node. If no call
creates a vertex for an event that has one, the lock of the newcomers of every round is free
after every step. -/
theorem ncFree_of_insertsOnce (keccak : List UInt8 → Hash) {coinbase : Address} {broadness : ℕ}
    {acts : List (Act NewCall Turn)} {s : Pool Site AddCall}
    (hrun : run (addCalls keccak).step (newPool coinbase broadness) acts = .ok s)
    (hmeets : Meets (addCalls keccak).step InsertsOnce (newPool coinbase broadness) acts) (i : ℕ) :
    s.memory.graph.NcFree i := by
  have hempty (i : ℕ) : (newPool coinbase broadness).memory.graph.comers i = (false, []) := by
    cases i <;> rfl
  have hinit : Holds (fun s : Site => s.graph.ComersFree) (fun s call => s.graph.Unlisted call)
      AddCall.Apart (newPool coinbase broadness) := by
    refine ⟨⟨fun i => ?_, fun u hu => (nomatch hu), fun i k hk => ?_⟩, fun _ h => (nomatch h), .nil⟩
    · rw [hempty]
    · rw [hempty] at hk
      cases hk
  have hholds := (keeps_addCalls keccak).run (fun _ _ h => h) hinit hmeets s hrun
  exact JPGraph.ncFree_of_unlocked (hholds.inv.unlocked i)

/-- Node `0x0a` after the given steps of calls and loops. -/
def poolAfter (acts : List (Act NewCall Turn)) : Pool Site AddCall :=
  (run (addCalls triangleKeccak).step (newPool (FixedBytes.ofNat 20 0x0A) 3) acts).toOption.getD
    (newPool (FixedBytes.ofNat 20 0x0A) 3)

/-- Two calls for one event start and take the given number of steps in turn. -/
def twice (e : Event ℤ) (n : ℕ) : List (Act NewCall Turn) :=
  .start (.arrive e Mark.normal) :: .start (.arrive e Mark.normal) ::
    (List.replicate n [.go 0, .go 1]).flatten

/-- Two calls for an event of node `0x0a` itself, whose column is there. The second call finds the
vertex of the first one and returns, and the first one enters it as a newcomer. -/
def ownTwice : List (Act NewCall Turn) := twice eventA1 2 ++ List.replicate 6 (.go 0)

/-- The newcomer is there, and the lock is free. -/
theorem ncFree_ownTwice : (poolAfter ownTwice).memory.graph.comers 0 = (false, [eventA1.selfHash]) ∧
    (poolAfter ownTwice).calls = [] ∧ (poolAfter ownTwice).memory.graph.NcFree 0 := by
  obtain ⟨hreached, hmeets, hcomers, hcalls⟩ :
      (run (addCalls triangleKeccak).step (newPool (FixedBytes.ofNat 20 0x0A) 3)
        ownTwice).toOption.isSome = true ∧
      Meets (addCalls triangleKeccak).step InsertsOnce (newPool (FixedBytes.ofNat 20 0x0A) 3)
        ownTwice ∧
      (poolAfter ownTwice).memory.graph.comers 0 = (false, [eventA1.selfHash]) ∧
      (poolAfter ownTwice).calls = [] := by decide +kernel
  have hrun : run (addCalls triangleKeccak).step (newPool (FixedBytes.ofNat 20 0x0A) 3) ownTwice =
      .ok (poolAfter ownTwice) := eq_ok_getD hreached _
  exact ⟨hcomers, hcalls, ncFree_of_insertsOnce triangleKeccak hrun hmeets 0⟩

/-- Two calls for an event of a new creator both store a column for it and create a vertex each.
The second call leaves `addComer` with the lock held. -/
theorem not_ncFree_twice_eventB : validateEvent triangleKeccak eventB = true ∧
    run (addCalls triangleKeccak).step (newPool (FixedBytes.ofNat 20 0x0A) 3) (twice eventB 9) =
      .ok (poolAfter (twice eventB 9)) ∧
    (poolAfter (twice eventB 9)).calls.map AddCall.pc = [.lost 0 0 true, .lost 0 1 true] ∧
    ((poolAfter (twice eventB 9)).memory.graph.round 0).ncLocked = true ∧
    ¬ (poolAfter (twice eventB 9)).memory.graph.NcFree 0 :=
  ⟨by decide +kernel, eq_ok_getD (by decide +kernel) _, by decide +kernel, by decide +kernel,
    fun h => absurd h.unlocked (by decide +kernel)⟩

end Hashgrid.Core
