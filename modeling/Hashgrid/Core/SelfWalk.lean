import Hashgrid.Core.Retrieve

/-!
# Two walks along the self parents

`dfsVisit` and `ConsensusShow` follow the pointers to self parents, `clearColorDFS`
follows the hashes of self parents through the map of the column. The two ways agree
just when every event arrives on top of its self parent and before the events that refer
to it.
-/

namespace Hashgrid.Core

open Hashgrid.Bytes Hashgrid.Machine Hashgrid.Links Hashgrid.Walks

namespace JPGraph

/-- The step of `dfsVisit` and `ConsensusShow`. -/
def selfNext (jp : JPGraph) (v : ℕ) : Option ℕ := (jp.vert v).selfPt

/-- The step of `clearColorDFS` in a column. -/
def hashNext (jp : JPGraph) (c v : ℕ) : Option ℕ :=
  (jp.col c).hashChain.lookup (jp.vert v).event.selfPart

/-- In every column the walk along the pointers goes along with the walk along the hashes as far
as the latter goes, and every self parent has the hash that the vertex names. -/
structure SelfWalksAgree (jp : JPGraph) : Prop where
  /-- The walks from the top of a column. -/
  visits : ∀ a c, jp.graph.lookup a = some c → ∀ n v,
    visit (jp.hashNext c) (jp.col c).verTop n = some v →
      visit jp.selfNext (jp.col c).verTop n = some v
  /-- The self parents. -/
  selfHash : ∀ v p, (jp.vert v).selfPt = some p →
    (jp.vert p).event.selfHash = (jp.vert v).event.selfPart

variable {jp : JPGraph}

theorem lt_of_selfPt {v p : ℕ} (h : (jp.vert v).selfPt = some p) : v < jp.verts.next := by
  by_contra hv
  have hdefault : jp.vert v = default := Heap.get_of_le (by omega)
  rw [hdefault] at h
  cases h

/-- The self parents of a column by pointer, the vertices of which are found by hash. -/
theorem exists_walk (h : Columnar jp.links) {a : Address} {c : ℕ}
    (hc : jp.graph.lookup a = some c) : ∃ l, Walk jp.selfNext (jp.col c).verTop l ∧
      l.Pairwise (· > ·) ∧ ∀ v, v ∈ l ↔ v < jp.verts.next ∧ (jp.vert v).event.selfSig.addr = a := by
  obtain ⟨l, hwalk, hsorted, hmem⟩ := h.walk a
  have htop : jp.links.top a = (jp.col c).verTop := by simp only [links, hc, Option.bind_some]
  rw [htop] at hwalk
  refine ⟨l, hwalk, hsorted, fun v => ?_⟩
  rw [hmem]
  constructor
  · rintro ⟨k, hk⟩
    obtain ⟨n, hn, rfl, -⟩ := h.chain a k v hk
    obtain ⟨hlt, rfl⟩ := nodes_links_eq hn
    exact ⟨hlt, rfl⟩
  · rintro ⟨hlt, rfl⟩
    exact ⟨_, h.held v _ (nodes_links_of_lt hlt)⟩

/-- The walks agree just when the self references of the abstract graph follow its self links. -/
theorem selfWalksAgree_iff (h : Columnar jp.links) : jp.SelfWalksAgree ↔ FollowsRefs jp.links := by
  have hchain {a : Address} {c : ℕ} (hc : jp.graph.lookup a = some c) (v : ℕ) :
      jp.links.chain a (jp.vert v).event.selfPart = jp.hashNext c v := by
    simp only [links, hc, Option.bind_some, hashNext]
  constructor
  · intro hagree v n hn
    obtain ⟨hlt, rfl⟩ := nodes_links_eq hn
    obtain ⟨c, hc, -⟩ := Option.bind_eq_some_iff.mp (h.held v _ hn)
    obtain ⟨l, hwalk, -, hmem⟩ := exists_walk h hc
    -- A self parent by pointer is found under its hash.
    have hstep : ∀ u ∈ l, ∀ w, jp.selfNext u = some w → jp.hashNext c u = some w := by
      intro u hu w hw
      obtain ⟨hwlt, hwaddr⟩ := (hmem w).mp (hwalk.next_mem hu hw)
      have hheld := h.held w _ (nodes_links_of_lt hwlt)
      rw [← hchain hc, ← hagree.selfHash u w hw, ← hheld]
      exact congrArg (jp.links.chain · _) hwaddr.symm
    have hsame := (hwalk.visits_iff hstep).mp (hagree.visits _ c hc) v ((hmem v).mpr ⟨hlt, rfl⟩)
    exact (hchain hc v).trans hsame
  · intro hfollows
    constructor
    · intro a c hc
      obtain ⟨l, hwalk, -, hmem⟩ := exists_walk h hc
      have hsame : ∀ v ∈ l, jp.hashNext c v = jp.selfNext v := by
        intro v hv
        obtain ⟨hlt, rfl⟩ := (hmem v).mp hv
        exact (hchain hc v).symm.trans (hfollows v _ (nodes_links_of_lt hlt))
      exact (hwalk.visits_iff fun v hv w hw => (hsame v hv).trans hw).mpr hsame
    · intro v p hp
      have hnode := nodes_links_of_lt (lt_of_selfPt hp)
      obtain ⟨n, hn, -, hhash⟩ := h.chain _ _ p ((hfollows v _ hnode).trans hp)
      obtain ⟨-, rfl⟩ := nodes_links_eq hn
      exact hhash

/-- The event arrives on top of its self parent, or as the first of its column, and before the
events that refer to it. -/
def ArrivesOnTop (jp : JPGraph) (e : Event ℤ) : Prop :=
  (∀ v < jp.verts.next, (jp.vert v).event.selfSig.addr = e.selfSig.addr →
      (jp.vert v).event.selfPart ≠ e.selfHash) ∧
    ((jp.newest e.selfSig.addr).map (fun t => (jp.vert t).event.selfHash) = some e.selfPart ∨
      jp.newest e.selfSig.addr = none ∧ e.selfPart ≠ e.selfHash)

instance (jp : JPGraph) (e : Event ℤ) : Decidable (jp.ArrivesOnTop e) :=
  inferInstanceAs (Decidable (_ ∧ (_ ∨ _)))

/-- The condition on the graph is the one on the abstract graph. -/
theorem arrivesOnTop_iff (h : Columnar jp.links) (e : Event ℤ) :
    jp.ArrivesOnTop e ↔ OnTop jp.links (jp.arrivalOf e) := by
  have htop : jp.links.top (jp.arrivalOf e).node.creator = jp.newest e.selfSig.addr := rfl
  have hunnamed : (∀ v < jp.verts.next, (jp.vert v).event.selfSig.addr = e.selfSig.addr →
      (jp.vert v).event.selfPart ≠ e.selfHash) ↔ ∀ (v : ℕ) (n : Node Hash Address),
      jp.links.nodes[v]? = some n → n.creator = (jp.arrivalOf e).node.creator →
        n.selfRef ≠ (jp.arrivalOf e).node.hash := by
    constructor
    · intro hall v n hn
      obtain ⟨hlt, rfl⟩ := nodes_links_eq hn
      exact hall v hlt
    · intro hall v hlt
      exact hall v _ (nodes_links_of_lt hlt)
  unfold ArrivesOnTop
  rw [hunnamed]
  cases hnew : jp.newest e.selfSig.addr with
  | none =>
    constructor
    · rintro ⟨hun, hfirst⟩
      have hfirst : e.selfPart ≠ e.selfHash := by simpa using hfirst
      exact ⟨hun, fun t n ht => absurd (htop.symm.trans ht) (by simp [hnew]), fun _ => hfirst⟩
    · intro hon
      exact ⟨hon.unnamed, Or.inr ⟨rfl, hon.first (htop.trans hnew)⟩⟩
  | some t =>
    obtain ⟨k, hk⟩ := h.top (htop.trans hnew)
    have hlt : t < jp.verts.next := length_nodes_links jp ▸ h.lt_of_chain hk
    constructor
    · rintro ⟨hun, hmatch⟩
      have hmatch : (jp.vert t).event.selfHash = e.selfPart := by simpa using hmatch
      refine ⟨hun, fun t' n ht' hn => ?_, fun hnone => absurd (htop.symm.trans hnone) ?_⟩
      · cases (htop.symm.trans ht').symm.trans hnew
        obtain ⟨-, rfl⟩ := nodes_links_eq hn
        exact hmatch
      · simp [hnew]
    · intro hon
      have hmatch := hon.matching t _ (htop.trans hnew) (nodes_links_of_lt hlt)
      exact ⟨hon.unnamed, Or.inl (congrArg some hmatch)⟩

end JPGraph

/-- Every event that becomes a vertex arrives on top of its self parent and before the events
that refer to it. -/
def Site.AddsOnTop (keccak : List UInt8 → Hash) (s : Site) (m : Move) : Prop :=
  s.AddsOnly m fun e _ => s.graph.Creates keccak e → s.graph.ArrivesOnTop e

instance (keccak : List UInt8 → Hash) (s : Site) (m : Move) : Decidable (s.AddsOnTop keccak m) :=
  inferInstanceAs (Decidable (s.AddsOnly m fun _ _ => _ → _))

/-- A move keeps the self references right just when it adds on top. -/
theorem Site.followsRefs_step_iff {keccak : List UInt8 → Hash} {s : Site} (h : Linked s.graph)
    (m : Move) : Ensures (s.step keccak m) fun s' =>
      FollowsRefs s'.graph.links ↔ FollowsRefs s.graph.links ∧ s.AddsOnTop keccak m := by
  intro s' hs'
  cases hadded : s.added m with
  | none =>
    have hadds : s.AddsOnTop keccak m := addsOnly_of_none hadded _
    rw [(step_other hadded s' hs').links]
    exact ⟨fun hrefs => ⟨hrefs, hadds⟩, And.left⟩
  | some x =>
    obtain ⟨e, ty⟩ := x
    have hadds : s.AddsOnTop keccak m ↔ (s.graph.Creates keccak e → s.graph.ArrivesOnTop e) :=
      addsOnly_iff hadded _
    obtain ⟨-, -, hlinks⟩ := step_added_links h hadded s' hs'
    rw [hadds, hlinks]
    split_ifs with hcreates
    · rw [followsRefs_add_iff (x := s.graph.arrivalOf e) h.columnar hcreates.2,
        JPGraph.arrivesOnTop_iff h.columnar]
      simp only [hcreates, true_implies]
    · simp only [hcreates, false_implies, and_true]

/-- After every run, the two walks agree in every column just when every event was added on top
of its self parent and before the events that refer to it. -/
theorem selfWalksAgree_iff_addsOnTop (keccak : List UInt8 → Hash) {coinbase : Address}
    {broadness : ℕ} {moves : List Move} {s : Site}
    (hrun : run (Site.step keccak) (newSite coinbase broadness) moves = .ok s) :
    s.graph.SelfWalksAgree ↔
      Meets (Site.step keccak) (Site.AddsOnTop keccak) (newSite coinbase broadness) moves := by
  have hinit := Site.linked_newSite coinbase broadness
  have hempty : FollowsRefs (newSite coinbase broadness).graph.links := by
    have hlinks : (newSite coinbase broadness).graph.links = LinkGraph.empty :=
      (links_freshGraph coinbase broadness [0]).2
    rw [hlinks]
    exact fun v n hn => nomatch hn
  have hstep (s : Site) (m : Move) (h : Site.Linked s.graph) : Ensures (s.step keccak m) fun s' =>
      Site.Linked s'.graph ∧
        (FollowsRefs s'.graph.links ↔ FollowsRefs s.graph.links ∧ s.AddsOnTop keccak m) :=
    fun s' hs' => ⟨h.step m s' hs', s.followsRefs_step_iff h m s' hs'⟩
  have hiff : FollowsRefs s.graph.links ↔ FollowsRefs (newSite coinbase broadness).graph.links ∧
      Meets (Site.step keccak) (Site.AddsOnTop keccak) (newSite coinbase broadness) moves :=
    run_iff_meets (P := fun s : Site => FollowsRefs s.graph.links) hstep hinit moves s hrun
  rw [JPGraph.selfWalksAgree_iff (Site.linked_of_run hrun).columnar, hiff]
  exact and_iff_right hempty

/-- In the order of their references the events of the triangle are added on top. -/
theorem selfWalksAgree_triangle :
    (triangleSite [eventA1, eventB, eventA2]).graph.SelfWalksAgree :=
  (selfWalksAgree_iff_addsOnTop triangleKeccak (run_siteAfter (by decide +kernel))).mpr
    (by decide +kernel)

/-- Another event on top of `eventA1`. -/
def eventFork : Event ℤ :=
  plainEvent 4 0x0A eventA1.selfHash (FixedBytes.zero 32) 0 0
    (FixedBytes.ofNat 32 0x340ba6e919e72f5bceb3e7db78f4a1417728b928d9bd36b4165fb24e4ba4e2a5)

/-- Keccak-256 on the hash inputs of the fork. -/
def forkKeccak : List UInt8 → Hash :=
  tabulated ([eventA1, eventA2, eventFork].map fun e => (e.checkInput, e.selfHash))

/-- Node `0x0a` after the two branches of the fork arrived. -/
def forkSite : Site :=
  siteAfter forkKeccak (FixedBytes.ofNat 20 0x0A) 3 (arriving [eventA1, eventA2, eventFork])

/-- After a fork, the pointer of `eventFork` leads to `eventA2`, and its hash to `eventA1`. -/
theorem not_selfWalksAgree_fork :
    (∀ e ∈ [eventA1, eventA2, eventFork], validateEvent forkKeccak e = true) ∧
      run (Site.step forkKeccak) (newSite (FixedBytes.ofNat 20 0x0A) 3)
        (arriving [eventA1, eventA2, eventFork]) = .ok forkSite ∧
      visit (forkSite.graph.hashNext 0) (forkSite.graph.col 0).verTop 1 = some 0 ∧
      visit forkSite.graph.selfNext (forkSite.graph.col 0).verTop 1 = some 1 ∧
      ¬ forkSite.graph.SelfWalksAgree := by
  refine ⟨by decide +kernel, run_siteAfter (by decide +kernel), by decide +kernel,
    by decide +kernel, fun h => ?_⟩
  have hvisit := h.visits (FixedBytes.ofNat 20 0x0A) 0 (by decide +kernel) 1 0 (by decide +kernel)
  exact absurd hvisit (by decide +kernel)

end Hashgrid.Core
