import Hashgrid.Core.Acyclic
import Hashgrid.Links.Order

/-!
# The order in which events arrive

The same valid events, passed to `AddEvent` in two orders, make the same links just when
the events of every creator keep their order and it does not matter for a swapped pair of
child and other parent whether the parent is looked up in its column or patched through
the dictionary of a round.
-/

namespace Hashgrid.Core

open Hashgrid.Bytes Hashgrid.ListOrder Hashgrid.Machine Hashgrid.Links

variable {jp : JPGraph} {indices : List ℕ} {coinbase : Address} {broadness : ℕ}
  {l₁ l₂ : List (Event ℤ)}

namespace JPGraph

/-- The hash of every vertex with the hashes of its self parent and its other parent. -/
def linkTable (jp : JPGraph) : List (Hash × Option Hash × Option Hash) :=
  (List.range jp.verts.next).map fun v =>
    ((jp.vert v).event.selfHash, (jp.vert v).selfPt.map fun p => (jp.vert p).event.selfHash,
      (jp.vert v).anotherPt.map fun p => (jp.vert p).event.selfHash)

/-- The same vertices with the same parents, up to the order of the vertices. -/
def SameLinks (jp₁ jp₂ : JPGraph) : Prop := ∀ row, row ∈ jp₁.linkTable ↔ row ∈ jp₂.linkTable

/-- What is known after the given events arrived at a graph. -/
structure Arrived (jp₀ : JPGraph) (events : List (Event ℤ)) (jp : JPGraph) : Prop where
  /-- Columns stay apart. -/
  wf : jp.Wf
  /-- Other links lead to the other parent. -/
  sound : Sound jp.links
  /-- The round queue is the same. -/
  searchRound : ∀ r, jp.searchRound r = jp₀.searchRound r
  /-- The links are those of the arrivals. -/
  describes : Describes (events.map jp₀.arrivalOf) jp.links

variable {events : List (Event ℤ)} {keccak : List UInt8 → Hash} {jp₀ : JPGraph}

/-- One more valid event arrives. -/
theorem Arrived.arriveEvent {e : Event ℤ} (h : Arrived jp₀ events jp)
    (hvalid : validateEvent keccak e = true) (hnew : ∀ p ∈ events, p.selfHash ≠ e.selfHash)
    (ty : ℕ) : Ensures (jp.arriveEvent keccak (e, ty)) (Arrived jp₀ (events ++ [e])) := by
  intro jp' hjp'
  obtain ⟨hwf, hsearch, hlinks⟩ := arriveEvent_refines h.wf h.sound e ty jp' hjp'
  have harrival : jp.arrivalOf e = jp₀.arrivalOf e := by
    simp only [arrivalOf, funext h.searchRound]
  have hfresh : ∀ p ∈ events.map jp₀.arrivalOf, p.node.hash ≠ (jp₀.arrivalOf e).node.hash := by
    simp only [List.mem_map]
    rintro _ ⟨p, hp, rfl⟩
    exact hnew p hp
  have hunknown : ¬ (jp.links.chain (jp₀.arrivalOf e).node.creator
      (jp₀.arrivalOf e).node.hash).isSome = true := by
    intro hsome
    obtain ⟨i, hi⟩ := Option.isSome_iff_exists.mp hsome
    obtain ⟨x, hx, -, hhash⟩ := (h.describes.chain _ _ i).mp hi
    exact hfresh x (List.mem_of_getElem? hx) hhash
  rw [if_pos hvalid, harrival, LinkGraph.arrive, if_neg hunknown] at hlinks
  refine ⟨hwf, hlinks ▸ h.sound.add, fun r => (hsearch r).trans (h.searchRound r), ?_⟩
  rw [hlinks, List.map_append, List.map_singleton]
  exact h.describes.add hfresh

/-- All events of a list arrive. -/
theorem Arrived.run {rest : List (Event ℤ)} (h : Arrived jp₀ events jp)
    (hvalid : ∀ e ∈ rest, validateEvent keccak e = true)
    (hnodup : ((events ++ rest).map Event.selfHash).Nodup) :
    Ensures (Machine.run (JPGraph.arriveEvent keccak) jp (arrivals rest))
      (Arrived jp₀ (events ++ rest)) := by
  induction rest generalizing jp events with
  | nil => exact .ok (by simpa using h)
  | cons e rest ih =>
    have hnew : ∀ p ∈ events, p.selfHash ≠ e.selfHash := by
      intro p hp heq
      rw [List.map_append, List.map_cons] at hnodup
      exact notMem_of_nodup hnodup (heq ▸ List.mem_map_of_mem hp)
    rw [List.append_cons] at hnodup ⊢
    intro jp'' hrun
    unfold arrivals Machine.run at hrun
    rw [List.map_cons] at hrun
    dsimp only at hrun
    cases hstep : jp.arriveEvent keccak (e, Mark.normal) with
    | error stop =>
      rw [hstep] at hrun
      cases hrun
    | ok jp' =>
      rw [hstep] at hrun
      exact ih (h.arriveEvent (hvalid e List.mem_cons_self) hnew _ jp' hstep)
        (fun e' he' => hvalid e' (List.mem_cons_of_mem e he')) hnodup jp'' hrun

/-- The table of links is that of the abstract graph. -/
theorem Arrived.linkTable (h : Arrived jp₀ events jp) : jp.linkTable = jp.links.table := by
  have hlength : (events.map jp₀.arrivalOf).length = jp.verts.next := by
    rw [← h.describes.length, length_nodes_links]
  have hhash {v : ℕ} (hv : v < jp.verts.next) :
      jp.links.hashAt v = some (jp.vert v).event.selfHash := by
    simp [LinkGraph.hashAt, links, hv, nodeOf]
  have hparent {o : Option ℕ} (ho : ∀ p, o = some p → p < jp.verts.next) :
      o.bind jp.links.hashAt = o.map fun p => (jp.vert p).event.selfHash := by
    cases o with
    | none => rfl
    | some p => exact hhash (ho p rfl)
  unfold JPGraph.linkTable LinkGraph.table
  rw [length_nodes_links, ← List.filterMap_eq_map]
  refine List.filterMap_congr fun v hv => ?_
  have hv := List.mem_range.mp hv
  rw [hhash hv, LinkGraph.parents, hparent fun p hp => ?_, hparent fun p hp => ?_]
  · rfl
  · exact hlength ▸ h.describes.anotherPt_lt hp
  · exact hlength ▸ h.describes.selfPt_lt (hlength ▸ hv) hp

end JPGraph

theorem arrived_freshGraph (coinbase : Address) (broadness : ℕ) (indices : List ℕ) :
    JPGraph.Arrived (freshGraph coinbase broadness indices) []
      (freshGraph coinbase broadness indices) := by
  obtain ⟨hwf, hlinks⟩ := links_freshGraph coinbase broadness indices
  exact ⟨hwf, hlinks ▸ sound_empty, fun _ => rfl, hlinks ▸ describes_empty⟩

/-- The number of the round in which an event is filed: its own round number when the queue
has that round, and otherwise the number of the oldest round. -/
def filedRound (indices : List ℕ) (e : Event ℤ) : Option ℤ :=
  e.roundID.bind fun r =>
    if r ∈ indices.map Int.ofNat then some r else (indices.map Int.ofNat).head?

theorem index_freshGraph (coinbase : Address) (broadness : ℕ) (indices : List ℕ) (i : ℕ) :
    ((freshGraph coinbase broadness indices).round i).index = indices.getD i 0 := by
  change ((Heap.mk (indices.map (newRound broadness))).get i).index = _
  simp only [Heap.get, List.getD_eq_getElem?_getD, List.getElem?_map]
  cases indices[i]? <;> rfl

/-- The round that the search finds in a fresh graph has the expected number. -/
theorem index_searchRound (coinbase : Address) (broadness : ℕ) (indices : List ℕ) (r : ℤ) :
    ((freshGraph coinbase broadness indices).searchRound r).map (fun i => (indices.getD i 0 : ℤ)) =
      if r ∈ indices.map Int.ofNat then some r else (indices.map Int.ofNat).head? := by
  have hqueue : (freshGraph coinbase broadness indices).queue =
      (List.range indices.length).reverse := by
    unfold JPGraph.queue
    change (List.range (indices.map (newRound broadness)).length).reverse = _
    rw [List.length_map]
  unfold JPGraph.searchRound
  simp only [hqueue, index_freshGraph]
  cases hfind : (List.range indices.length).reverse.find?
    fun i => decide (r = indices.getD i 0) with
  | some k =>
    have hk := List.mem_of_find?_eq_some hfind
    have hr : r = indices.getD k 0 := by simpa using List.find?_some hfind
    rw [List.mem_reverse, List.mem_range] at hk
    rw [if_pos]
    · simp [hr]
    · rw [hr, List.getD_eq_getElem _ _ hk]
      exact List.mem_map_of_mem (List.getElem_mem hk)
  | none =>
    rw [if_neg]
    · cases indices <;> simp [List.range_succ_eq_map]
    · rintro hmem
      obtain ⟨k, hk, rfl⟩ := List.mem_map.mp hmem
      obtain ⟨i, hi, rfl⟩ := List.getElem_of_mem hk
      have := List.find?_eq_none.mp hfind i (by simpa using hi)
      simp [hi] at this

/-- Events are filed in the same round just when the expected numbers agree. -/
theorem patched_iff (hnodup : indices.Nodup) (v p : Event ℤ) :
    Patched ((freshGraph coinbase broadness indices).arrivalOf v)
        ((freshGraph coinbase broadness indices).arrivalOf p) ↔
      (filedRound indices v).isSome ∧ filedRound indices v = filedRound indices p := by
  set jp := freshGraph coinbase broadness indices
  have hfiled (e : Event ℤ) : (jp.arrivalOf e).ledger.map (fun i => (indices.getD i 0 : ℤ)) =
      filedRound indices e := by
    simp only [JPGraph.arrivalOf, filedRound, Option.map_bind]
    congr 1
    exact funext (index_searchRound coinbase broadness indices)
  have hlt {e : Event ℤ} {i : ℕ} (hi : (jp.arrivalOf e).ledger = some i) : i < indices.length := by
    obtain ⟨r, -, hr⟩ := Option.bind_eq_some_iff.mp hi
    have := JPGraph.lt_of_searchRound hr
    simpa [jp, freshGraph, Heap.next] using this
  unfold Patched
  rw [← hfiled v, ← hfiled p]
  cases hv : (jp.arrivalOf v).ledger with
  | none => simp
  | some i =>
    cases hp : (jp.arrivalOf p).ledger with
    | none => simp
    | some j =>
      have hi := hlt hv
      have hj := hlt hp
      have hij : indices[i] = indices[j] ↔ i = j := hnodup.getElem_inj_iff
      simp [List.getElem?_eq_getElem hi, List.getElem?_eq_getElem hj, hij]

/-- The events of every creator keep their order. -/
def SameColumnOrder (l₁ l₂ : List (Event ℤ)) : Prop :=
  ∀ e ∈ l₁, (l₁.filter fun x => x.selfSig.addr = e.selfSig.addr) =
    l₂.filter fun x => x.selfSig.addr = e.selfSig.addr

/-- Two events arrive in opposite orders. -/
def Opposite (l₁ l₂ : List (Event ℤ)) (v p : Event ℤ) : Prop :=
  [p, v].Sublist l₁ ∧ [v, p].Sublist l₂ ∨ [v, p].Sublist l₁ ∧ [p, v].Sublist l₂

/-- A child and its other parent that arrive in opposite orders: the child names the column of
the parent just when both are filed in the same round. -/
def SwapsAgree (indices : List ℕ) (l₁ l₂ : List (Event ℤ)) : Prop :=
  ∀ v ∈ l₁, ∀ p ∈ l₁, p.selfHash = v.otherPartH → Opposite l₁ l₂ v p →
    ((v.otherPartA ≠ FixedBytes.zero 20 ∧ v.otherPartA = p.selfSig.addr) ↔
      ((filedRound indices v).isSome ∧ filedRound indices v = filedRound indices p))

instance (l₁ l₂ : List (Event ℤ)) : Decidable (SameColumnOrder l₁ l₂) :=
  inferInstanceAs (Decidable (∀ _ ∈ _, _))

instance (l₁ l₂ : List (Event ℤ)) (v p : Event ℤ) : Decidable (Opposite l₁ l₂ v p) :=
  inferInstanceAs (Decidable (_ ∨ _))

instance (indices : List ℕ) (l₁ l₂ : List (Event ℤ)) : Decidable (SwapsAgree indices l₁ l₂) :=
  inferInstanceAs (Decidable (∀ _ ∈ _, ∀ _ ∈ _, _ → _ → _))

/-- The order inside the columns, in terms of arrivals. -/
theorem sameColumnOrder_iff (hperm : l₁.Perm l₂)
    (hinj : ∀ x ∈ l₁, ∀ y ∈ l₁, jp.arrivalOf x = jp.arrivalOf y → x = y) :
    SameColumnOrder l₁ l₂ ↔
      ∀ a, columnOf (l₁.map jp.arrivalOf) a = columnOf (l₂.map jp.arrivalOf) a := by
  have hcol (l : List (Event ℤ)) (a : Address) : columnOf (l.map jp.arrivalOf) a =
      (l.filter fun x => x.selfSig.addr = a).map jp.arrivalOf := by
    simp only [columnOf, List.filter_map]
    rfl
  have hmap (a : Address) : columnOf (l₁.map jp.arrivalOf) a = columnOf (l₂.map jp.arrivalOf) a ↔
      (l₁.filter fun x => x.selfSig.addr = a) = l₂.filter fun x => x.selfSig.addr = a := by
    rw [hcol, hcol]
    refine map_eq_map_iff_of_injOn fun x hx y hy => hinj x (List.mem_filter.mp hx).1 y ?_
    exact hperm.mem_iff.mpr (List.mem_filter.mp hy).1
  simp only [hmap]
  refine ⟨fun h a => ?_, fun h e _ => h e.selfSig.addr⟩
  by_cases ha : ∃ e ∈ l₁, e.selfSig.addr = a
  · obtain ⟨e, he, rfl⟩ := ha
    exact h e he
  · have hnone (l : List (Event ℤ)) (hl : ∀ e ∈ l, e ∈ l₁) :
        (l.filter fun x => x.selfSig.addr = a) = [] :=
      List.filter_eq_nil_iff.mpr fun e he haddr => ha ⟨e, hl e he, of_decide_eq_true haddr⟩
    rw [hnone l₁ fun _ he => he, hnone l₂ fun _ he => hperm.mem_iff.mpr he]

/-- Swapped pairs, in terms of arrivals. -/
theorem swapsAgree_iff (hindices : indices.Nodup) (hperm : l₁.Perm l₂)
    (hjp : jp = freshGraph coinbase broadness indices)
    (hinj : ∀ x ∈ l₁, ∀ y ∈ l₁, jp.arrivalOf x = jp.arrivalOf y → x = y) :
    SwapsAgree indices l₁ l₂ ↔ ∀ x ∈ l₁.map jp.arrivalOf, ∀ p ∈ l₁.map jp.arrivalOf,
      p.node.hash = x.node.otherRef → Swapped (l₁.map jp.arrivalOf) (l₂.map jp.arrivalOf) x p →
        (Found x p ↔ Patched x p) := by
  have hsub₂ {x : Event ℤ} (hx : x ∈ l₁) :
      ∀ y ∈ l₂, jp.arrivalOf y = jp.arrivalOf x → y = x :=
    fun y hy => hinj y (hperm.mem_iff.mpr hy) x hx
  have hsub₁ {x : Event ℤ} (hx : x ∈ l₁) :
      ∀ y ∈ l₁, jp.arrivalOf y = jp.arrivalOf x → y = x := fun y hy => hinj y hy x hx
  have hfound (v p : Event ℤ) : Found (jp.arrivalOf v) (jp.arrivalOf p) ↔
      v.otherPartA ≠ FixedBytes.zero 20 ∧ v.otherPartA = p.selfSig.addr := by
    simp only [Found, JPGraph.arrivalOf, otherColumnName, nodeOf]
    split_ifs with hzero <;> simp [hzero]
  simp only [List.forall_mem_map]
  refine forall₄_congr fun v hv p hp => ?_
  subst hjp
  rw [Swapped, pair_sublist_map_iff (hsub₁ hp) (hsub₁ hv),
    pair_sublist_map_iff (hsub₂ hv) (hsub₂ hp), pair_sublist_map_iff (hsub₁ hv) (hsub₁ hp),
    pair_sublist_map_iff (hsub₂ hp) (hsub₂ hv), hfound, patched_iff hindices]
  rfl

/-- When two orders of the same valid events lead to the same graph. -/
theorem sameLinks_iff (keccak : List UInt8 → Hash) {coinbase : Address} {broadness : ℕ}
    {indices : List ℕ} (hindices : indices.Nodup) {l₁ l₂ : List (Event ℤ)} {jp₁ jp₂ : JPGraph}
    (hvalid : ∀ e ∈ l₁, validateEvent keccak e = true) (hhash : (l₁.map Event.selfHash).Nodup)
    (hperm : l₁.Perm l₂)
    (hrun₁ : run (JPGraph.arriveEvent keccak) (freshGraph coinbase broadness indices)
      (arrivals l₁) = .ok jp₁)
    (hrun₂ : run (JPGraph.arriveEvent keccak) (freshGraph coinbase broadness indices)
      (arrivals l₂) = .ok jp₂) :
    jp₁.SameLinks jp₂ ↔ SameColumnOrder l₁ l₂ ∧ SwapsAgree indices l₁ l₂ := by
  have hinit := arrived_freshGraph coinbase broadness indices
  have h₁ := hinit.run hvalid (by simpa using hhash) jp₁ hrun₁
  have h₂ := hinit.run (fun e he => hvalid e (hperm.mem_iff.mpr he))
    (by simpa using (hperm.map _).nodup_iff.mp hhash) jp₂ hrun₂
  rw [List.nil_append] at h₁ h₂
  generalize hjp : freshGraph coinbase broadness indices = jp at h₁ h₂
  have hinj : ∀ x ∈ l₁, ∀ y ∈ l₁, jp.arrivalOf x = jp.arrivalOf y → x = y := by
    intro x hx y hy heq
    exact List.inj_on_of_nodup_map hhash hx hy
      (congrArg (fun a : Arrival Hash Address => a.node.hash) heq)
  have hnodup : ((l₁.map jp.arrivalOf).map fun x => x.node.hash).Nodup := by
    rw [List.map_map]
    exact hhash
  rw [JPGraph.SameLinks, h₁.linkTable, h₂.linkTable,
    same_table_iff h₁.describes h₂.describes (hperm.map _) hnodup, sameColumnOrder_iff hperm hinj,
    swapsAgree_iff hindices hperm hjp.symm hinj]

/-- The child `eventB` may arrive before or after its other parent `eventA1`. -/
theorem sameLinks_parent_swapped :
    (triangleGraph [eventA1, eventB, eventA2]).SameLinks
      (triangleGraph [eventB, eventA1, eventA2]) :=
  (sameLinks_iff triangleKeccak (List.nodup_singleton 0) (by decide +kernel) (by decide +kernel)
    (show [eventA1, eventB, eventA2].Perm [eventB, eventA1, eventA2] by decide +kernel)
    (eq_ok_getD (by decide +kernel) _) (eq_ok_getD (by decide +kernel) _)).mpr
    ⟨by decide +kernel, by decide +kernel⟩

/-- When `eventA2` arrives before its self parent `eventA1`, it has no self link and `eventA1`
is linked to it. -/
theorem not_sameLinks_selfParent_late :
    (∀ e ∈ [eventA1, eventB, eventA2], validateEvent triangleKeccak e = true) ∧
      [eventA1, eventB, eventA2].Perm [eventA2, eventA1, eventB] ∧
      triangleRun [eventA1, eventB, eventA2] = .ok (triangleGraph [eventA1, eventB, eventA2]) ∧
      triangleRun [eventA2, eventA1, eventB] = .ok (triangleGraph [eventA2, eventA1, eventB]) ∧
      ¬ (triangleGraph [eventA1, eventB, eventA2]).SameLinks
        (triangleGraph [eventA2, eventA1, eventB]) := by
  refine ⟨by decide +kernel, by decide +kernel, eq_ok_getD (by decide +kernel) _,
    eq_ok_getD (by decide +kernel) _, fun h => ?_⟩
  have hrow : (eventA1.selfHash, none, none) ∈
      (triangleGraph [eventA1, eventB, eventA2]).linkTable := by decide +kernel
  exact absurd ((h _).mp hrow) (by decide +kernel)

end Hashgrid.Core
