import Hashgrid.Core.References

/-!
# Other links are set once

A vertex whose other link is missing waits: first in the call that stores it, then in the
dictionary of a round. It never waits in two places and never with a link. So the link is
set at most once, whatever calls of `AddEvent` run at the same time.
-/

namespace Hashgrid.Core

open Hashgrid.Bytes Hashgrid.Machine

/-- The vertex whose other link a call still has to settle. -/
def AddPc.waiting : AddPc → Option ℕ
  | .link _ _ _ v | .request _ _ v | .record _ _ v true | .comer _ v true | .lost _ v true => some v
  | _ => none

theorem AddPc.waiting_of_vertex {pc : AddPc} (h : pc.vertex = none) : pc.waiting = none := by
  cases pc with
  | link | request | record | comer | lost => cases h
  | _ => rfl

namespace JPGraph

/-- The vertex waits in the dictionary of a round. -/
def WaitsIn (jp : JPGraph) (v i : ℕ) : Prop :=
  ∃ h us, (jp.round i).lostDict.lookup h = some us ∧ v ∈ us

/-- The vertices that wait in calls or in dictionaries have no other link, and each of them waits
in one place only. -/
structure LinkOnce (jp : JPGraph) (waiting : List ℕ) : Prop where
  /-- A vertex waits in one call only. -/
  nodup : waiting.Nodup
  /-- The vertices of calls are there. -/
  lt : ∀ v ∈ waiting, v < jp.verts.next
  /-- The vertices of calls have no other link. -/
  free : ∀ v ∈ waiting, (jp.vert v).anotherPt = none
  /-- The vertices of calls are in no dictionary. -/
  apart : ∀ v ∈ waiting, ∀ i, ¬ jp.WaitsIn v i
  /-- The vertices of dictionaries have no other link. -/
  lost : ∀ v i, jp.WaitsIn v i → (jp.vert v).anotherPt = none
  /-- A vertex is in the dictionary of one round only. -/
  once : ∀ v i j, jp.WaitsIn v i → jp.WaitsIn v j → i = j

/-- Other links stay. -/
def KeepsLinks (jp jp' : JPGraph) : Prop :=
  ∀ v p, (jp.vert v).anotherPt = some p → (jp'.vert v).anotherPt = some p

/-- Other links and dictionaries do not change. -/
structure LinksStay (jp jp' : JPGraph) : Prop where
  /-- Vertices stay. -/
  next : jp.verts.next ≤ jp'.verts.next
  /-- The other links stay, and new vertices have none. -/
  link : ∀ v, (jp'.vert v).anotherPt = (jp.vert v).anotherPt
  /-- The dictionaries stay. -/
  dict : ∀ i, (jp'.round i).lostDict = (jp.round i).lostDict

variable {keccak : List UInt8 → Hash} {jp jp' jp'' : JPGraph} {waiting : List ℕ}

theorem SameThreads.linksStay (h : SameThreads jp jp') : LinksStay jp jp' :=
  ⟨h.next.ge, h.anotherPt, h.lostDict⟩

/-- Steps that leave vertices and rounds alone. -/
theorem LinksStay.of_eq (hverts : jp'.verts = jp.verts) (hrounds : jp'.rounds = jp.rounds) :
    LinksStay jp jp' where
  next := (congrArg Heap.next hverts).ge
  link v := congrArg (fun verts : Heap Vertex => (verts.get v).anotherPt) hverts
  dict i := congrArg (fun rounds : Heap Round => (rounds.get i).lostDict) hrounds

theorem LinksStay.keepsLinks (h : LinksStay jp jp') : KeepsLinks jp jp' :=
  fun v _ hp => (h.link v).trans hp

theorem LinksStay.waitsIn_iff (h : LinksStay jp jp') (v i : ℕ) :
    jp'.WaitsIn v i ↔ jp.WaitsIn v i := by
  unfold WaitsIn
  rw [h.dict]

/-- Who waits stays when other links and dictionaries do not change. -/
theorem LinkOnce.same (h : LinkOnce jp waiting) (hs : LinksStay jp jp') :
    LinkOnce jp' waiting where
  nodup := h.nodup
  lt v hv := lt_of_lt_of_le (h.lt v hv) hs.next
  free v hv := (hs.link v).trans (h.free v hv)
  apart v hv i hw := h.apart v hv i ((hs.waitsIn_iff v i).mp hw)
  lost v i hw := (hs.link v).trans (h.lost v i ((hs.waitsIn_iff v i).mp hw))
  once v i j hi hj := h.once v i j ((hs.waitsIn_iff v i).mp hi) ((hs.waitsIn_iff v j).mp hj)

variable {waiting' : List ℕ} {v : ℕ}

/-- Calls may stop waiting. -/
theorem LinkOnce.sublist (h : LinkOnce jp waiting) (hsub : waiting'.Sublist waiting) :
    LinkOnce jp waiting' where
  nodup := h.nodup.sublist hsub
  lt v hv := h.lt v (hsub.subset hv)
  free v hv := h.free v (hsub.subset hv)
  apart v hv := h.apart v (hsub.subset hv)
  lost := h.lost
  once := h.once

/-- The order of calls does not matter. -/
theorem LinkOnce.perm (h : LinkOnce jp waiting) (hperm : waiting.Perm waiting') :
    LinkOnce jp waiting' where
  nodup := hperm.nodup_iff.mp h.nodup
  lt v hv := h.lt v (hperm.mem_iff.mpr hv)
  free v hv := h.free v (hperm.mem_iff.mpr hv)
  apart v hv := h.apart v (hperm.mem_iff.mpr hv)
  lost := h.lost
  once := h.once

theorem linksStay_setRound (jp : JPGraph) (i : ℕ) {f : Round → Round}
    (hf : ∀ rd, (f rd).lostDict = rd.lostDict) : LinksStay jp (jp.setRound i f) :=
  ⟨le_rfl, fun _ => rfl, Heap.get_update_of_eq jp.rounds i hf⟩

/-- A vertex is entered as a newcomer. -/
theorem linksStay_addComer (jp : JPGraph) (i : ℕ) (rqa : RequestArg) :
    Ensures (jp.addComer i rqa) (LinksStay jp) := by
  unfold addComer
  split_ifs
  · exact .error
  · exact .ok (jp.linksStay_setRound i fun _ => by rfl)
  · exact .ok (jp.linksStay_setRound i fun _ => by rfl)

/-- A new vertex has no other link. -/
theorem linksStay_withVertex (jp : JPGraph) (e : Event ℕ) (ty c : ℕ) :
    LinksStay jp (jp.withVertex e ty c) := by
  refine ⟨(jp.extends_withVertex e ty c).verts, fun v => ?_, fun _ => rfl⟩
  rw [vert_withVertex]
  split_ifs with hv
  · rw [hv, show jp.vert jp.verts.next = default from Heap.get_of_le le_rfl]
    rfl
  · rfl

/-- A new vertex waits. -/
theorem LinkOnce.withVertex (href : Referring keccak jp) (h : LinkOnce jp waiting) (e : Event ℕ)
    (ty c : ℕ) : LinkOnce (jp.withVertex e ty c) (jp.verts.next :: waiting) := by
  have hs := jp.linksStay_withVertex e ty c
  have h' := h.same hs
  have hfresh : (jp.vert jp.verts.next) = default := Heap.get_of_le le_rfl
  refine ⟨List.nodup_cons.mpr ⟨fun hmem => absurd (h.lt _ hmem) (lt_irrefl _), h.nodup⟩,
    fun v hv => ?_, fun v hv => ?_, fun v hv i hw => ?_, h'.lost, h'.once⟩
  · rcases List.mem_cons.mp hv with rfl | hv
    · exact (jp.next_withVertex e ty c).ge
    · exact h'.lt v hv
  · rcases List.mem_cons.mp hv with rfl | hv
    · rw [hs.link, hfresh]
      rfl
    · exact h'.free v hv
  · rcases List.mem_cons.mp hv with rfl | hv
    · obtain ⟨k, us, hus, hmem⟩ := (hs.waitsIn_iff _ i).mp hw
      exact absurd (href.lost i k us hus _ hmem).1 (lt_irrefl _)
    · exact h'.apart v hv i hw

/-- The call finds the other parent of its vertex. -/
theorem LinkOnce.link (h : LinkOnce jp (v :: waiting)) (p : ℕ) :
    LinkOnce (jp.setVert v fun vert => { vert with anotherPt := some p }) waiting ∧
      KeepsLinks jp (jp.setVert v fun vert => { vert with anotherPt := some p }) := by
  have hne {u : ℕ} (hu : u ≠ v) :
      (jp.setVert v fun vert => { vert with anotherPt := some p }).vert u = jp.vert u :=
    Heap.get_update_ne jp.verts hu _
  have hmem {u : ℕ} (hu : u ∈ waiting) : u ≠ v :=
    fun heq => (List.nodup_cons.mp h.nodup).1 (heq ▸ hu)
  have hout {u i : ℕ} (hw : jp.WaitsIn u i) : u ≠ v :=
    fun heq => h.apart v List.mem_cons_self i (heq ▸ hw)
  have h' := h.sublist (List.sublist_cons_self v waiting)
  refine ⟨⟨h'.nodup, fun u hu => ?_, fun u hu => ?_, h'.apart, fun u i hw => ?_, h'.once⟩,
    fun u q hq => ?_⟩
  · exact (h'.lt u hu).trans_eq (Heap.next_update ..).symm
  · rw [hne (hmem hu)]
    exact h'.free u hu
  · rw [hne (hout hw)]
    exact h.lost u i hw
  · by_cases hu : u = v
    · rw [hu, h.free v List.mem_cons_self] at hq
      cases hq
    · rw [hne hu]
      exact hq

/-- The vertices that waited for a vertex get their link. -/
theorem LinkOnce.patchLost (href : Referring keccak jp) (h : LinkOnce jp waiting) (i v : ℕ) :
    LinkOnce (jp.patchLost i v) waiting ∧ KeepsLinks jp (jp.patchLost i v) := by
  cases hus : (jp.round i).lostDict.lookup (jp.vert v).event.selfHash with
  | none =>
    have hsame : jp.patchLost i v = jp := by
      unfold JPGraph.patchLost
      rw [hus]
    rw [hsame]
    exact ⟨h, fun _ _ hp => hp⟩
  | some us =>
    have hlt : i < jp.rounds.next := by
      by_contra hle
      rw [show jp.round i = default from Heap.get_of_le (not_lt.mp hle)] at hus
      cases hus
    let link (vert : Vertex) : Vertex := { vert with anotherPt := some v }
    have hverts : (jp.patchLost i v).verts = jp.verts.updateAll us link := by
      unfold JPGraph.patchLost
      rw [hus]
    have hvert {u : ℕ} (hu : u ∉ us) : (jp.patchLost i v).vert u = jp.vert u := by
      change (jp.patchLost i v).verts.get u = jp.verts.get u
      rw [hverts]
      by_cases hlt : u < jp.verts.next
      · rw [Heap.get_updateAll hlt us fun _ => by rfl, if_neg hu]
      · rw [Heap.get_of_le (by rw [Heap.next_updateAll]; omega), Heap.get_of_le (by omega)]
    have hnext : (jp.patchLost i v).verts.next = jp.verts.next := by
      rw [hverts, Heap.next_updateAll]
    have hold {w j : ℕ} (hw : (jp.patchLost i v).WaitsIn w j) : jp.WaitsIn w j ∧ w ∉ us := by
      obtain ⟨k, ws, hws, hmem⟩ := hw
      obtain ⟨hws, hk⟩ := lookup_patchLost hus hws
      refine ⟨⟨k, ws, hws, hmem⟩, fun hin => ?_⟩
      obtain rfl : i = j := h.once w i j ⟨_, us, hus, hin⟩ ⟨k, ws, hws, hmem⟩
      exact hk hlt rfl ((href.lost i k ws hws w hmem).2.symm.trans (href.lost i _ us hus w hin).2)
    have hin {w : ℕ} (hw : w ∈ us) : jp.WaitsIn w i := ⟨_, us, hus, hw⟩
    refine ⟨⟨h.nodup, fun w hw => hnext ▸ h.lt w hw, fun w hw => ?_, fun w hw j hj => ?_,
      fun w j hj => ?_, fun w j k hj hk => ?_⟩, fun w q hq => ?_⟩
    · rw [hvert fun hmem => h.apart w hw i (hin hmem)]
      exact h.free w hw
    · exact h.apart w hw j (hold hj).1
    · rw [hvert (hold hj).2]
      exact h.lost w j (hold hj).1
    · exact h.once w j k (hold hj).1 (hold hk).1
    · rw [hvert fun hmem => ?_]
      · exact hq
      · rw [h.lost w i (hin hmem)] at hq
        cases hq

/-- A vertex that is in a dictionary after another one was entered. -/
theorem waitsIn_addLost {i w j : ℕ} (hw : (jp.addLost i v).WaitsIn w j) :
    jp.WaitsIn w j ∨ w = v ∧ j = i := by
  obtain ⟨k, ws, hws, hmem⟩ := hw
  rcases lookup_addLost hws hmem with ⟨us, hus, hmem⟩ | ⟨rfl, rfl, -⟩
  · exact Or.inl ⟨k, us, hus, hmem⟩
  · exact Or.inr ⟨rfl, rfl⟩

/-- The vertex of a call moves to the dictionary of a round. -/
theorem LinkOnce.addLost (h : LinkOnce jp (v :: waiting)) (i : ℕ) :
    LinkOnce (jp.addLost i v) waiting := by
  have h' := h.sublist (List.sublist_cons_self v waiting)
  have hv := h.apart v List.mem_cons_self
  refine ⟨h'.nodup, h'.lt, h'.free, fun w hw j hj => ?_, fun w j hj => ?_, fun w j k hj hk => ?_⟩
  · rcases waitsIn_addLost hj with hj | ⟨rfl, -⟩
    · exact h'.apart w hw j hj
    · exact (List.nodup_cons.mp h.nodup).1 hw
  · rcases waitsIn_addLost hj with hj | ⟨rfl, -⟩
    · exact h.lost w j hj
    · exact h.free w List.mem_cons_self
  · rcases waitsIn_addLost hj with hj' | ⟨rfl, rfl⟩
    · rcases waitsIn_addLost hk with hk' | ⟨rfl, -⟩
      · exact h.once w j k hj' hk'
      · exact absurd hj' (hv j)
    · rcases waitsIn_addLost hk with hk' | ⟨-, rfl⟩
      · exact absurd hk' (hv k)
      · rfl

end JPGraph

section Call

variable {keccak : List UInt8 → Hash} {jp : JPGraph} {call : AddCall} {waiting : List ℕ}

/-- A step of a call, next to the vertices of other calls: links stay, and who waits waits once. -/
theorem JPGraph.LinkOnce.callStep (href : jp.Referring keccak)
    (h : jp.LinkOnce (call.pc.waiting.toList ++ waiting)) :
    Ensures (call.step keccak jp) fun r =>
      r.1.LinkOnce ((r.2.bind AddPc.waiting).toList ++ waiting) ∧ jp.KeepsLinks r.1 := by
  obtain ⟨e, ty, pc⟩ := call
  intro r hr
  -- Most steps leave other links and dictionaries alone; their call goes on waiting or stops.
  have hsame {jp' : JPGraph} (hs : jp.LinksStay jp') (next : Option AddPc)
      (hnext : next.bind AddPc.waiting = pc.waiting ∨ next.bind AddPc.waiting = none) :
      jp'.LinkOnce ((next.bind AddPc.waiting).toList ++ waiting) ∧ jp.KeepsLinks jp' := by
    refine ⟨?_, hs.keepsLinks⟩
    rcases hnext with heq | heq
    · rw [heq]
      exact h.same hs
    · rw [heq]
      exact (h.same hs).sublist (List.sublist_append_right _ _)
  have hrefl : jp.LinksStay jp := (SameThreads.refl jp).linksStay
  cases AddCall.step_moves keccak ⟨e, ty, pc⟩ jp r hr with
  | rejects => exact hsame hrefl none (Or.inr rfl)
  | looks _ _ hnext => exact hsame hrefl _ (Or.inr (AddPc.waiting_of_vertex hnext))
  | selfInsert | otherInsert | otherMajority =>
    refine hsame ?_ (some _) (Or.inr rfl)
    exact .of_eq rfl rfl
  | selfMajority =>
    refine hsame ?_ (some _) (Or.inr (AddPc.waiting_of_vertex (AddPc.vertex_afterSelf ..)))
    exact .of_eq rfl rfl
  | known =>
    refine hsame hrefl _ (Or.inr ?_)
    split_ifs <;> rfl
  | @inserts sc fw oc hlook =>
    exact ⟨h.withVertex href e ty sc, (jp.linksStay_withVertex e ty sc).keepsLinks⟩
  | existed v => exact hsame (jp.sameThreads_markVertex v ty).linksStay _ (Or.inr rfl)
  | trigger v => exact hsame (jp.sameThreads_triggerRound v).linksStay none (Or.inr rfl)
  | link sc fw oc v =>
    unfold JPGraph.linkOther
    split
    · exact h.link _
    · exact hsame hrefl _ (Or.inl rfl)
  | request sc fw v =>
    have hs : jp.SameThreads (jp.requestParentEvent v) := .of_eq rfl
    exact hsame hs.linksStay _ (Or.inl rfl)
  | @record _ _ _ round linkpost hround =>
    have hs := (jp.sameThreads_recordRound _ _ _ _ _ hround).linksStay
    obtain ⟨jp', i⟩ := round
    cases i with
    | none => exact hsame hs _ (Or.inr rfl)
    | some i =>
      refine hsame hs _ (Or.inl ?_)
      cases linkpost <;> rfl
  | comer linkpost hjp' =>
    refine hsame (jp.linksStay_addComer _ _ _ hjp') _ (Or.inl ?_)
    cases linkpost <;> rfl
  | lost i v linkpost =>
    obtain ⟨hpatch, hkeep⟩ := h.patchLost href i v
    unfold JPGraph.updateLost
    cases linkpost with
    | true => exact ⟨hpatch.addLost i, hkeep⟩
    | false => exact ⟨hpatch, hkeep⟩
  | created v => exact hsame (jp.sameThreads_signalCreated v).linksStay none (Or.inr rfl)

end Call

end Hashgrid.Core
