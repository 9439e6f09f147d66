import Hashgrid.Core.Acyclic
import Hashgrid.Core.Sequence
import Hashgrid.Links.Complete

/-!
# Links over whole runs

In every run of calls that do not overlap, the columns and links of the graph are those
of an abstract graph in which the accepted events arrive.
-/

namespace Hashgrid.Core

open Hashgrid.Bytes Hashgrid.Machine Hashgrid.Links

/-- An event in memory with the graph that it is passed to, after it was received or composed. -/
structure Received (jp : JPGraph) (e : Event ℤ) (jp₀ : JPGraph) (e₀ : Event ℕ) : Prop where
  /-- At most a round number was allocated. -/
  rest : jp₀ = { jp with cells := jp₀.cells }
  /-- The event has the given fields. -/
  event : e₀ = { e with roundID := e₀.roundID }
  /-- Its pointer leads to the given round number. -/
  value : jp₀.roundOf e₀ = e.roundID
  /-- The other round numbers stay. -/
  cells : ∀ k < jp.cells.next, jp₀.cells.get k = jp.cells.get k
  /-- No round number is removed. -/
  grown : jp.cells.next ≤ jp₀.cells.next

/-- An event that is read from the wire. -/
theorem received_receive (jp : JPGraph) (e : Event ℤ) :
    Received jp e (jp.receive e).1 (jp.receive e).2 := by
  unfold JPGraph.receive
  cases hround : e.roundID with
  | none => exact ⟨rfl, rfl, by simp [JPGraph.roundOf, hround], fun _ _ => rfl, le_rfl⟩
  | some r =>
    refine ⟨rfl, rfl, by simp [JPGraph.roundOf, hround], fun k hk => ?_, ?_⟩
    · exact Heap.get_alloc_of_lt hk r
    · exact Nat.le_of_lt (by simp)

theorem received_valueOf (jp : JPGraph) (e : Event ℕ) : Received jp (jp.valueOf e) jp e :=
  ⟨rfl, rfl, rfl, fun _ _ => rfl, le_rfl⟩

section Received

variable {jp jp₀ : JPGraph} {e : Event ℤ} {e₀ : Event ℕ} (h : Received jp e jp₀ e₀)

include h

theorem Received.links : jp₀.links = jp.links := by
  rw [h.rest]
  rfl

theorem Received.wf (hwf : jp.Wf) : jp₀.Wf :=
  hwf.congr (by rw [h.rest]) (by rw [h.rest])

theorem Received.validate (keccak : List UInt8 → Hash) :
    validateEvent keccak e₀ = validateEvent keccak e := by
  rw [h.event]
  rfl

/-- The event arrives as it was sent. -/
theorem Received.arrivalAt : jp₀.arrivalAt e₀ = jp.arrivalOf e := by
  have hsearch : jp₀.searchRound = jp.searchRound := by
    rw [h.rest]
    rfl
  have hnode : nodeOf e₀ = nodeOf e := by
    rw [h.event]
    rfl
  have hother : otherColumnName e₀ = otherColumnName e := by
    rw [h.event]
    rfl
  simp only [JPGraph.arrivalAt, JPGraph.arrivalOf, h.value, hsearch, hnode, hother]

end Received

namespace JPGraph

/-- The vertex with the given hash in the column of an address. -/
def held (jp : JPGraph) (a : Address) (h : Hash) : Option ℕ :=
  (jp.graph.lookup a).bind fun c => (jp.col c).hashChain.lookup h

/-- The newest vertex in the column of an address. -/
def newest (jp : JPGraph) (a : Address) : Option ℕ :=
  (jp.graph.lookup a).bind fun c => (jp.col c).verTop

/-- `AddEvent` accepts the event and does not find it in its column. -/
def Creates (keccak : List UInt8 → Hash) (jp : JPGraph) (e : Event ℤ) : Prop :=
  validateEvent keccak e = true ∧ jp.held e.selfSig.addr e.selfHash = none

instance (keccak : List UInt8 → Hash) (jp : JPGraph) (e : Event ℤ) :
    Decidable (jp.Creates keccak e) :=
  inferInstanceAs (Decidable (_ ∧ _))

end JPGraph

namespace Site

variable {keccak : List UInt8 → Hash} {s : Site} {m : Move} {e : Event ℤ} {ty : ℕ}

/-- A move that passes an event to `AddEvent` does nothing else. -/
theorem step_added (h : s.added m = some (e, ty)) :
    Ensures (s.step keccak m) fun s' => ∃ jp₀ e₀ err,
      Received s.graph e jp₀ e₀ ∧ jp₀.addEvent keccak e₀ ty = .ok (s'.graph, err) ∧
        s' = { s with graph := s'.graph } := by
  cases m with
  | arrive e' ty' =>
    cases h
    intro s' hs'
    obtain ⟨jp, hjp, rfl⟩ := exists_of_map_eq_ok hs'
    obtain ⟨r, hr, rfl⟩ := exists_of_map_eq_ok hjp
    exact ⟨_, _, r.2, received_receive s.graph e, hr, rfl⟩
  | add i ty' =>
    unfold added at h
    cases hi : s.composed[i]? with
    | none => simp [hi] at h
    | some e₀ =>
      simp only [hi, Option.map_some, Option.some.injEq, Prod.mk.injEq] at h
      obtain ⟨rfl, rfl⟩ := h
      intro s' hs'
      simp only [step, hi] at hs'
      obtain ⟨r, hr, rfl⟩ := exists_of_map_eq_ok hs'
      exact ⟨s.graph, e₀, r.2, received_valueOf s.graph e₀, hr, rfl⟩
  | compose now rand => cases h
  | roundLoop => cases h
  | monitor order => cases h

/-- The moves that pass no event to `AddEvent`: composing an event, and the turns of the two
loops. -/
inductive OtherMove (keccak : List UInt8 → Hash) (s s' : Site) : Move → Prop
  /-- An event is composed. -/
  | compose (now : ℤ) (rand : ℕ) (r : JPGraph × Event ℕ)
      (hr : s.graph.composeEvent keccak now rand = .ok r)
      (hs' : s' = { s with graph := r.1, composed := s.composed ++ [r.2] }) :
      OtherMove keccak s s' (.compose now rand)
  /-- A turn of `RoundLoop`. -/
  | roundLoop (jp : JPGraph) (hjp : s.graph.roundTurn = .ok jp)
      (hs' : s' = { s with graph := jp }) : OtherMove keccak s s' .roundLoop
  /-- A step of `MonitorLoop`. -/
  | monitor (order : ℕ → List Address) (r : Monitor × JPGraph)
      (hr : s.monitor.step s.graph order = .ok r)
      (hs' : s' = { s with monitor := r.1, graph := r.2 }) :
      OtherMove keccak s s' (.monitor order)

/-- A move that passes no event to `AddEvent` is one of these. -/
theorem otherMove {s' : Site} (h : s.added m = none) (hs' : s.step keccak m = .ok s') :
    OtherMove keccak s s' m := by
  cases m with
  | arrive e ty => cases h
  | add i ty =>
    unfold added at h
    cases hi : s.composed[i]? with
    | none =>
      simp only [step, hi] at hs'
      cases hs'
    | some e₀ => simp [hi] at h
  | compose now rand =>
    obtain ⟨r, hr, hs'⟩ := exists_of_map_eq_ok hs'
    exact .compose now rand r hr hs'.symm
  | roundLoop =>
    obtain ⟨jp, hjp, hs'⟩ := exists_of_map_eq_ok hs'
    exact .roundLoop jp hjp hs'.symm
  | monitor order =>
    obtain ⟨r, hr, hs'⟩ := exists_of_map_eq_ok hs'
    exact .monitor order r hr hs'.symm

/-- All other moves change no links. -/
theorem step_other (h : s.added m = none) :
    Ensures (s.step keccak m) fun s' => s.graph.Linkless s'.graph := by
  intro s' hs'
  cases otherMove h hs' with
  | compose now rand r hr heq =>
    rw [heq]
    exact s.graph.linkless_composeEvent keccak now rand r hr
  | roundLoop jp hjp heq =>
    rw [heq]
    exact s.graph.linkless_roundTurn jp hjp
  | monitor order r hr heq =>
    rw [heq]
    exact JPGraph.linkless_monitorStep s.monitor s.graph order r hr

/-- What holds of columns and links after every run. -/
structure Linked (jp : JPGraph) : Prop where
  /-- Columns stay apart. -/
  wf : jp.Wf
  /-- Other links lead to the other parent. -/
  sound : Sound jp.links
  /-- Self links chain the columns. -/
  columnar : Columnar jp.links
  /-- Vertices that wait are not linked. -/
  waiting : Waiting jp.links
  /-- There is a round. -/
  queue : 0 < jp.rounds.next

/-- An accepted event arrives in the abstract graph. -/
theorem step_added_links (hlinked : Linked s.graph) (h : s.added m = some (e, ty)) :
    Ensures (s.step keccak m) fun s' => s'.graph.Wf ∧ 0 < s'.graph.rounds.next ∧
      s'.graph.links = if s.graph.Creates keccak e then
        s.graph.links.add (s.graph.arrivalOf e) else s.graph.links := by
  intro s' hs'
  obtain ⟨jp₀, e₀, err, hrec, hadd, -⟩ := step_added h s' hs'
  obtain ⟨hkept, hlinks⟩ := JPGraph.addEvent_refines (hrec.wf hlinked.wf)
    (hrec.links ▸ hlinked.sound) e₀ ty _ hadd
  refine ⟨hkept.wf (hrec.wf hlinked.wf), ?_, ?_⟩
  · have hrounds : s'.graph.rounds.next = jp₀.rounds.next := hkept.rounds
    rw [hrounds, hrec.rest]
    exact hlinked.queue
  · rw [hrec.validate, hrec.links, hrec.arrivalAt] at hlinks
    have hheld : s.graph.links.chain (s.graph.arrivalOf e).node.creator
        (s.graph.arrivalOf e).node.hash = s.graph.held e.selfSig.addr e.selfHash := rfl
    rw [hlinks, LinkGraph.arrive, hheld]
    by_cases hcreates : s.graph.Creates keccak e
    · rw [if_pos hcreates, if_pos hcreates.1, if_neg (by simp [hcreates.2])]
    · rw [if_neg hcreates]
      split_ifs with hvalid hknown
      · rfl
      · exact absurd ⟨hvalid, by simpa using hknown⟩ hcreates
      · rfl

/-- The condition holds for the event that a move passes to `AddEvent`, if there is one. -/
def AddsOnly (s : Site) (m : Move) (P : Event ℤ → ℕ → Prop) : Prop :=
  ∀ e ty, s.added m = some (e, ty) → P e ty

instance decidableAddsOnly (s : Site) (m : Move) (P : Event ℤ → ℕ → Prop)
    [∀ e ty, Decidable (P e ty)] : Decidable (s.AddsOnly m P) :=
  match h : s.added m with
  | none => isTrue fun _ _ he => absurd (h.symm.trans he) (by simp)
  | some x => decidable_of_iff (P x.1 x.2) (by
      refine ⟨fun hP e ty he => ?_, fun hall => hall x.1 x.2 h⟩
      cases h.symm.trans he
      exact hP)

theorem addsOnly_of_none (h : s.added m = none) (P : Event ℤ → ℕ → Prop) : s.AddsOnly m P :=
  fun _ _ he => absurd (h.symm.trans he) (by simp)

theorem addsOnly_iff (h : s.added m = some (e, ty)) (P : Event ℤ → ℕ → Prop) :
    s.AddsOnly m P ↔ P e ty := by
  refine ⟨fun hall => hall e ty h, fun hP e' ty' he' => ?_⟩
  cases h.symm.trans he'
  exact hP

/-- Every move keeps columns and links in order. -/
theorem Linked.step (h : Linked s.graph) (m : Move) :
    Ensures (s.step keccak m) fun s' => Linked s'.graph := by
  intro s' hs'
  cases hadded : s.added m with
  | none =>
    obtain ⟨hgraph, hcols, hlinks, -, -, hrounds⟩ := step_other hadded s' hs'
    exact ⟨h.wf.congr hgraph (congrArg Heap.next hcols), hlinks ▸ h.sound, hlinks ▸ h.columnar,
      hlinks ▸ h.waiting, Nat.lt_of_lt_of_le h.queue hrounds⟩
  | some event =>
    obtain ⟨hwf, hqueue, hlinks⟩ := step_added_links h hadded s' hs'
    split_ifs at hlinks with hcreates
    · exact ⟨hwf, hlinks ▸ h.sound.add, hlinks ▸ h.columnar.add hcreates.2,
        hlinks ▸ h.waiting.add h.sound, hqueue⟩
    · exact ⟨hwf, hlinks ▸ h.sound, hlinks ▸ h.columnar, hlinks ▸ h.waiting, hqueue⟩

/-- A new graph has one empty column and one round. -/
theorem linked_newSite (coinbase : Address) (broadness : ℕ) :
    Linked (newSite coinbase broadness).graph := by
  obtain ⟨hwf, hlinks⟩ := links_freshGraph coinbase broadness [0]
  have hempty : (newSite coinbase broadness).graph.links = LinkGraph.empty := hlinks
  refine ⟨hwf, hempty ▸ sound_empty, hempty ▸ columnar_empty, hempty ▸ waiting_empty, ?_⟩
  exact Nat.zero_lt_one

/-- Columns and links are in order after every run. -/
theorem linked_of_run {coinbase : Address} {broadness : ℕ} {moves : List Move}
    (hrun : run (Site.step keccak) (newSite coinbase broadness) moves = .ok s) :
    Linked s.graph := by
  have hstep (s : Site) (m : Move) (h : Linked s.graph) :
      Ensures (s.step keccak m) fun s' => Linked s'.graph := h.step m
  exact run_preserves hstep (linked_newSite coinbase broadness) moves s hrun

end Site

end Hashgrid.Core
