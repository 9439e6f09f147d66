import Hashgrid.Core.StoreEffect

/-!
# What a call changes in the rounds

The entries of the witness tables, the round numbers and the channel of `RoundLoop` after
an undisturbed call of `AddEvent` and after a turn of `RoundLoop`.
-/

namespace Hashgrid.Core

open Hashgrid.Bytes Hashgrid.Machine Hashgrid.Links

namespace JPGraph

/-- The vertex in the witness table of a round at the given index. -/
def entry (jp : JPGraph) (i k : ℕ) : Option ℕ := (jp.round i).witnesses[k]?.join

theorem entry_congr {jp jp' : JPGraph} (h : jp'.rounds = jp.rounds) (i k : ℕ) :
    jp'.entry i k = jp.entry i k := by
  simp only [entry, JPGraph.round, h]

theorem Alike.entry {jp jp' : JPGraph} (h : Alike jp jp') (i k : ℕ) :
    jp'.entry i k = jp.entry i k := by
  simp only [JPGraph.entry, h.witnesses]

/-- The table after a witness was entered. -/
theorem witnesses_setWitness (jp : JPGraph) (i k v j : ℕ) :
    ((jp.setWitness i k v).round j).witnesses = (jp.round j).witnesses ∨
      j = i ∧ ((jp.setWitness i k v).round j).witnesses =
        (jp.round j).witnesses.set k (some v) := by
  rcases jp.rounds.get_update_eq_or i j
    (fun rd => { rd with witnesses := rd.witnesses.set k (some v) }) with heq | ⟨hj, heq⟩
  · exact Or.inl (congrArg Round.witnesses heq)
  · exact Or.inr ⟨hj, congrArg Round.witnesses heq⟩

variable {i v : ℕ} {r : ℤ} {k : ℕ}

/-- Where an entry comes from after a witness was entered. -/
theorem entry_setWitness {jp : JPGraph} {j l u : ℕ} (h : (jp.setWitness i k v).entry j l = some u) :
    jp.entry j l = some u ∨ j = i ∧ l = k ∧ u = v := by
  unfold entry at h ⊢
  rcases jp.witnesses_setWitness i k v j with heq | ⟨hj, heq⟩
  · exact Or.inl (heq ▸ h)
  · rw [heq, List.getElem?_set] at h
    split_ifs at h with hk hlt
    · exact Or.inr ⟨hj, hk.symm, (Option.some.inj h).symm⟩
    · cases h
    · exact Or.inl h

/-- The witness stands where it was entered. -/
theorem entry_setWitness_self {jp : JPGraph} (hi : i < jp.rounds.next)
    (hk : k < (jp.round i).witnesses.length) (v : ℕ) :
    (jp.setWitness i k v).entry i k = some v := by
  have hround : (jp.setWitness i k v).round i =
      { jp.round i with witnesses := (jp.round i).witnesses.set k (some v) } :=
    Heap.get_update_self hi _
  unfold entry
  rw [hround]
  simp [hk]

theorem index_setWitness (jp : JPGraph) (i k v j : ℕ) :
    ((jp.setWitness i k v).round j).index = (jp.round j).index :=
  Heap.get_update_of_eq jp.rounds i (g := Round.index) (fun _ => by rfl) j

theorem round_openRound (jp : JPGraph) (cell i : ℕ) : (jp.openRound cell).round i =
    if i = jp.rounds.next then newRound jp.broadness (jp.currentIdx + 1) else jp.round i :=
  Heap.get_alloc ..

/-- A new round has no witnesses. -/
theorem entry_openRound (jp : JPGraph) (cell i k : ℕ) :
    (jp.openRound cell).entry i k = jp.entry i k := by
  unfold entry
  rw [round_openRound]
  split_ifs with hi
  · have hdefault : jp.round i = default := Heap.get_of_le hi.ge
    rw [hdefault]
    simp only [newRound, List.getElem?_replicate]
    split_ifs <;> rfl
  · rfl

/-- The entries before `RoundLoop` looks for a round. -/
theorem entry_turnGraph (jp : JPGraph) (v cell i k : ℕ) :
    (jp.turnGraph v cell).entry i k = jp.entry i k := by
  unfold turnGraph
  split_ifs
  · exact jp.entry_openRound cell i k
  · rfl

theorem findRound_eq_some {jp : JPGraph} (h : jp.findRound r = some i) :
    i < jp.rounds.next ∧ ((jp.round i).index : ℤ) = r := by
  obtain ⟨hi, hmem⟩ := And.intro (List.find?_some h) (List.mem_of_find?_eq_some h)
  exact ⟨by simpa [queue] using hmem, (of_decide_eq_true hi).symm⟩

/-- The queue has a round with the given number. -/
def HasRound (jp : JPGraph) (r : ℤ) : Prop := ∃ i < jp.rounds.next, r = (jp.round i).index

instance (jp : JPGraph) (r : ℤ) : Decidable (jp.HasRound r) :=
  inferInstanceAs (Decidable (∃ i, i < _ ∧ _))

theorem findRound_eq_none {jp : JPGraph} : jp.findRound r = none ↔ ¬ jp.HasRound r := by
  simp [findRound, HasRound, queue]

theorem hasRound_of_find {jp : JPGraph} (h : jp.findRound r = some i) : jp.HasRound r := by
  obtain ⟨hi, hindex⟩ := findRound_eq_some h
  exact ⟨i, hi, hindex.symm⟩

/-- `AddEvent` finds the round that `RoundLoop` finds, if the queue has one. -/
theorem searchRound_of_hasRound {jp : JPGraph} (h : jp.HasRound r) :
    jp.searchRound r = jp.findRound r := by
  cases hfind : jp.findRound r with
  | none => exact absurd h (findRound_eq_none.mp hfind)
  | some i =>
    unfold findRound at hfind
    simp only [searchRound, hfind, Option.orElse_eq_orElse, Option.orElse_eq_or, Option.some_or]

/-- The search of `AddEvent` finds a round with the right number just when the queue has one. -/
theorem index_searchRound {jp : JPGraph} (h : jp.searchRound r = some i) :
    i < jp.rounds.next ∧ (((jp.round i).index : ℤ) = r ↔ jp.HasRound r) := by
  by_cases hround : jp.HasRound r
  · rw [searchRound_of_hasRound hround] at h
    obtain ⟨hlt, hindex⟩ := findRound_eq_some h
    exact ⟨hlt, iff_of_true hindex hround⟩
  · have hlt : i < jp.rounds.next := by
      have hfind := findRound_eq_none.mpr hround
      unfold findRound at hfind
      unfold searchRound at h
      rw [hfind] at h
      simpa [queue] using List.mem_of_getLast? h
    exact ⟨hlt, iff_of_false (fun hindex => hround ⟨i, hlt, hindex.symm⟩) hround⟩

/-- Where an entry comes from after a turn of `RoundLoop`. -/
theorem entry_roundTurn (jp : JPGraph) : Ensures jp.roundTurn fun jp' => ∃ v rest cell,
    jp.roundTrigger = v :: rest ∧ (jp.vert v).event.roundID = some cell ∧
      ∀ i k u, jp'.entry i k = some u →
        jp.entry i k = some u ∨ k = (jp.vert v).seqNum ∧ u = v := by
  intro jp' hjp'
  obtain ⟨v, rest, cell, hq, hcell, hturn⟩ := jp.roundTurn_spec jp' hjp'
  refine ⟨v, rest, cell, hq, hcell, fun j k u hu => ?_⟩
  rcases hturn with ⟨-, rfl⟩ | ⟨i, complete, -, -, -, rfl⟩
  · exact Or.inl ((jp.entry_turnGraph v cell j k).symm.trans hu)
  · have hset : ((jp.turnGraph v cell).setWitness i (jp.vert v).seqNum v).entry j k = some u := hu
    rcases entry_setWitness hset with hold | ⟨-, hk, huv⟩
    · exact Or.inl ((jp.entry_turnGraph v cell j k).symm.trans hold)
    · exact Or.inr ⟨hk, huv⟩

/-- The round of a new vertex after it was recorded. -/
theorem rounds_recordedIn {jp : JPGraph} (hwf : jp.Wf) (e : Event ℕ) (ty i : ℕ) :
    (jp.recordedIn e ty i).rounds = if jp.EntersWitness e ty then
      (jp.setWitness i (jp.numberOf e.selfSig.addr) jp.verts.next).rounds else jp.rounds := by
  have hrounds := (rounds_withNew hwf e ty).1
  unfold recordedIn
  split_ifs
  · exact congrArg (fun rounds => Heap.update rounds i _) hrounds
  · exact hrounds

section AddEffect

variable {keccak : List UInt8 → Hash} {jp jp' : JPGraph} {e : Event ℕ} {ty : ℕ}
  (h : AddEffect keccak jp e ty jp')

include h

variable {β : Type}

/-- `AddEvent` touches no round numbers of events, no number of the newest round, and no
consensus. -/
theorem AddEffect.read {g : JPGraph → β}
    (hg : ∀ jp verts cols rounds graph superMajority selfEventCreated roundTrigger requestChan
      transUnHandled, g { jp with
        verts := verts, cols := cols, rounds := rounds, graph := graph
        superMajority := superMajority, selfEventCreated := selfEventCreated
        roundTrigger := roundTrigger, requestChan := requestChan
        transUnHandled := transUnHandled } = g jp) : g jp' = g jp := by
  have hcolumns : g (jp.withColumns e) = g jp :=
    read_withColumns (fun jp graph cols superMajority =>
      hg jp jp.verts cols jp.rounds graph superMajority jp.selfEventCreated jp.roundTrigger
        jp.requestChan jp.transUnHandled) jp e
  cases h with
  | rejected _ hgraph => rw [hgraph]
  | known _ u _ hgraph =>
    rw [hgraph]
    split_ifs
    · exact (hg (jp.withColumns e) ..).trans hcolumns
    · exact hcolumns
  | stored _ _ x i _ _ _ hgraph =>
    have hnew : g (jp.withNew e ty) = g jp := (hg (jp.withColumns e) ..).trans hcolumns
    have hrecorded : g (jp.recordedIn e ty i) = g jp := by
      unfold recordedIn
      split_ifs
      · exact (hg (jp.withNew e ty) ..).trans hnew
      · exact hnew
    rw [hgraph.read (g := g) fun jp => hg jp .., signalCreated_eq]
    exact (hg (jp.recordedIn e ty i) ..).trans hrecorded

/-- What `AddEvent` does not change in a round. -/
theorem AddEffect.round {g : Round → β} (hbare : ∀ rd : Round, g rd.bare = g rd)
    (hset : ∀ (rd : Round) k v, g { rd with witnesses := rd.witnesses.set k v } = g rd)
    (hwf : jp.Wf) (i : ℕ) : g (jp'.round i) = g (jp.round i) := by
  have hcolumns := (grown_withColumns hwf e).rounds
  have hround {jp₁ : JPGraph} (hrounds : jp₁.rounds = jp.rounds) :
      g (jp₁.round i) = g (jp.round i) :=
    congrArg (fun rounds => g (Heap.get rounds i)) hrounds
  cases h with
  | rejected _ hgraph => rw [hgraph]
  | known _ u _ hgraph =>
    rw [hgraph]
    split_ifs
    · exact hround hcolumns
    · exact hround hcolumns
  | stored _ _ x j _ _ _ hgraph =>
    rw [hgraph.round hbare, signalCreated_eq]
    have hrounds := rounds_recordedIn hwf e ty j
    split_ifs at hrounds
    · refine (congrArg (fun rounds => g (Heap.get rounds i)) hrounds).trans ?_
      exact Heap.get_update_of_eq jp.rounds j (fun rd => hset rd _ _) i
    · exact hround hrounds

/-- `AddEvent` opens no round. -/
theorem AddEffect.rounds (hwf : jp.Wf) : jp'.rounds.next = jp.rounds.next := by
  have hcolumns := congrArg Heap.next (grown_withColumns hwf e).rounds
  cases h with
  | rejected _ hgraph => rw [hgraph]
  | known _ u _ hgraph =>
    rw [hgraph]
    split_ifs <;> exact hcolumns
  | stored _ _ x j _ _ _ hgraph =>
    rw [hgraph.rounds, signalCreated_eq, rounds_recordedIn hwf e ty j]
    split_ifs
    · exact Heap.next_update ..
    · rfl

/-- Where an entry comes from after `AddEvent`. -/
theorem AddEffect.entry (hwf : jp.Wf) (hentry : jp'.entry i k = some v) :
    jp.entry i k = some v ∨ v = jp.verts.next ∧ k = jp.numberOf e.selfSig.addr ∧
      validateEvent keccak e = true ∧ jp.held e.selfSig.addr e.selfHash = none ∧
      jp.EntersWitness e ty ∧ ∃ x, jp.roundOf e = some x ∧ jp.searchRound x = some i := by
  have hcolumns := (grown_withColumns hwf e).rounds
  cases h with
  | rejected _ hgraph => exact Or.inl (hgraph ▸ hentry)
  | known _ u _ hgraph =>
    rw [hgraph] at hentry
    split_ifs at hentry
    · exact Or.inl ((entry_congr hcolumns i k).symm.trans hentry)
    · exact Or.inl ((entry_congr hcolumns i k).symm.trans hentry)
  | stored hvalid hmissing x j hx hj _ hgraph =>
    rw [hgraph.entry, signalCreated_eq] at hentry
    have hrounds := rounds_recordedIn hwf e ty j
    split_ifs at hrounds with henters
    · have hset : (jp.setWitness j (jp.numberOf e.selfSig.addr) jp.verts.next).entry i k =
          some v := (entry_congr hrounds i k).symm.trans hentry
      rcases entry_setWitness hset with hold | ⟨rfl, hk, hv⟩
      · exact Or.inl hold
      · exact Or.inr ⟨hv, hk, hvalid, hmissing, henters, x, hx, hj⟩
    · exact Or.inl ((entry_congr hrounds i k).symm.trans hentry)

/-- A new witness stands in the round that the search finds. -/
theorem AddEffect.entry_new (hwf : jp.Wf) (hvalid : validateEvent keccak e = true)
    (hmissing : jp.held e.selfSig.addr e.selfHash = none) (henters : jp.EntersWitness e ty) :
    ∃ x i, jp.roundOf e = some x ∧ jp.searchRound x = some i ∧
      jp'.entry i (jp.numberOf e.selfSig.addr) = some jp.verts.next := by
  cases h with
  | rejected hinvalid _ => simp [hvalid] at hinvalid
  | known _ u hheld _ => simp [hmissing] at hheld
  | stored _ _ x i hx hi hfits hgraph =>
    refine ⟨x, i, hx, hi, ?_⟩
    have hrounds := rounds_recordedIn hwf e ty i
    rw [if_pos henters] at hrounds
    rw [hgraph.entry, signalCreated_eq]
    refine (entry_congr hrounds i _).trans ?_
    exact entry_setWitness_self (index_searchRound hi).1 (hfits henters) _

/-- A new witness fits into the table of a round. -/
theorem AddEffect.fits (hwf : jp.Wf) (hlt : jp.verts.next < jp'.verts.next)
    (henters : jp.EntersWitness e ty) :
    ∃ i < jp.rounds.next, jp.numberOf e.selfSig.addr < (jp.round i).witnesses.length := by
  cases h with
  | rejected _ hgraph =>
    rw [hgraph] at hlt
    exact absurd hlt (lt_irrefl _)
  | known _ u _ hgraph =>
    rw [hgraph, next_existed hwf] at hlt
    exact absurd hlt (lt_irrefl _)
  | stored _ _ x i _ hi hfits _ => exact ⟨i, (index_searchRound hi).1, hfits henters⟩

/-- `AddEvent` sends no new vertex to `RoundLoop`. -/
theorem AddEffect.trigger_new (hvalid : validateEvent keccak e = true)
    (hmissing : jp.held e.selfSig.addr e.selfHash = none) :
    jp'.roundTrigger = jp.roundTrigger := by
  have hcolumns : (jp.withColumns e).roundTrigger = jp.roundTrigger :=
    read_withColumns (fun _ _ _ _ => by rfl) jp e
  cases h with
  | rejected hinvalid _ => simp [hvalid] at hinvalid
  | known _ u hheld _ => simp [hmissing] at hheld
  | stored _ _ x i _ _ _ hgraph =>
    rw [hgraph.roundTrigger, signalCreated_eq, ← hcolumns]
    unfold recordedIn
    split_ifs <;> rfl

/-- `AddEvent` sends a vertex to `RoundLoop` only after it has marked it as a witness. -/
theorem AddEffect.trigger (hlinked : Site.Linked jp) (hv : v ∈ jp'.roundTrigger) :
    v ∈ jp.roundTrigger ∨ v < jp.verts.next ∧ (jp'.vert v).witness = Mark.witness := by
  have hcolumns : (jp.withColumns e).roundTrigger = jp.roundTrigger :=
    read_withColumns (fun _ _ _ _ => by rfl) jp e
  cases h with
  | rejected _ hgraph => exact Or.inl (hgraph ▸ hv)
  | known _ u hheld hgraph =>
    have hlt : u < jp.verts.next := length_nodes_links jp ▸ hlinked.columnar.lt_of_chain hheld
    have hverts := congrArg Heap.next (grown_withColumns hlinked.wf e).verts
    rw [hgraph] at hv ⊢
    split_ifs at hv ⊢ with hty
    · have hmem : v ∈ (jp.withColumns e).roundTrigger ++ [u] := hv
      rw [hcolumns] at hmem
      rcases List.mem_append.mp hmem with hold | hnew
      · exact Or.inl hold
      · obtain rfl := List.mem_singleton.mp hnew
        refine Or.inr ⟨hlt, ?_⟩
        have hmark : ((jp.withColumns e).existedWitness v ty).vert v =
            { (jp.withColumns e).vert v with witness := ty } :=
          Heap.get_update_self (hverts ▸ hlt) _
        rw [hmark, hty]
    · exact Or.inl (hcolumns ▸ hv)
  | stored hvalid hmissing x i hx hi hfits hgraph =>
    have htrigger := (AddEffect.stored hvalid hmissing x i hx hi hfits hgraph).trigger_new hvalid
      hmissing
    exact Or.inl (htrigger ▸ hv)

end AddEffect

end JPGraph

end Hashgrid.Core
