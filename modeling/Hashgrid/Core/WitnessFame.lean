import Hashgrid.Core.Clearing

/-!
# The votes for famous witnesses

`WitnessFame` of `core/round.go` lets the witnesses of the newest round vote for those of
the round before. Its loops go over all entries of the witness tables, which have room for
`MaxNodeCount` witnesses, while `NewRound` makes the vote tables for the configured number
of peers. Whatever is in the tables, the loops leave the vote tables unless the two sizes
are the same.
-/

namespace Hashgrid.Core

open Hashgrid.Bytes Hashgrid.Machine

/-- `FamousWitness`. -/
def Mark.famousWitness : ℕ := 4

/-- `ColorClusterVote`. -/
def colorClusterVote : ℕ := 1

section Tables

variable {α : Type}

/-- Read an entry of a table. -/
def tableGet (t : List (List α)) (i j : ℕ) : Except Stop α :=
  match t[i]?.bind fun row => row[j]? with
  | some x => .ok x
  | none => .error .indexOutOfRange

/-- Write an entry of a table. -/
def tableSet (t : List (List α)) (i j : ℕ) (x : α) : Except Stop (List (List α)) :=
  match t[i]? with
  | some row => if j < row.length then .ok (t.set i (row.set j x)) else .error .indexOutOfRange
  | none => .error .indexOutOfRange

/-- A table with `l` rows of `l` entries. -/
structure IsSquare (t : List (List α)) (l : ℕ) : Prop where
  /-- The number of rows. -/
  rows : t.length = l
  /-- The length of each row. -/
  entries : ∀ row ∈ t, row.length = l

variable {t : List (List α)} {l i j : ℕ}

/-- Reading inside a square table. -/
theorem IsSquare.get (h : IsSquare t l) (hi : i < l) (hj : j < l) :
    ∃ x, tableGet t i j = .ok x := by
  have hrow : t[i]? = some (t.get ⟨i, h.rows.symm ▸ hi⟩) := List.getElem?_eq_getElem _
  have hlen := h.entries _ (List.get_mem t ⟨i, h.rows.symm ▸ hi⟩)
  refine ⟨(t.get ⟨i, h.rows.symm ▸ hi⟩).get ⟨j, hlen.symm ▸ hj⟩, ?_⟩
  have hentry : (t.get ⟨i, h.rows.symm ▸ hi⟩)[j]? = some _ :=
    List.getElem?_eq_getElem (hlen.symm ▸ hj)
  rw [tableGet, hrow, Option.bind_some, hentry]
  rfl

/-- Writing to a square table is possible just inside it, and leaves it square. -/
theorem IsSquare.set (h : IsSquare t l) (x : α) :
    (i < l ∧ j < l ∧ ∃ t', tableSet t i j x = .ok t' ∧ IsSquare t' l) ∨
      (¬(i < l ∧ j < l) ∧ tableSet t i j x = .error .indexOutOfRange) := by
  unfold tableSet
  cases hrow : t[i]? with
  | none =>
    have hi : ¬ i < l := by
      have hle := List.getElem?_eq_none_iff.mp hrow
      rw [h.rows] at hle
      omega
    exact .inr ⟨fun hij => hi hij.1, rfl⟩
  | some row =>
    have hi : i < l := h.rows ▸ (List.getElem?_eq_some_iff.mp hrow).1
    have hlen := h.entries row (List.mem_of_getElem? hrow)
    dsimp only
    rw [hlen]
    by_cases hj : j < l
    · rw [if_pos hj]
      refine .inl ⟨hi, hj, _, rfl, by rw [List.length_set, h.rows], fun r hr => ?_⟩
      rcases List.mem_or_eq_of_mem_set hr with hr | rfl
      · exact h.entries r hr
      · rw [List.length_set, hlen]
    · rw [if_neg hj]
      exact .inr ⟨fun hij => hj hij.2, rfl⟩

end Tables

/-- The tables `votes` and `strongsee` of a round, which only `WitnessFame` uses. -/
structure Ballot where
  /-- Whether the witness of a column sees the one of another column. -/
  votes : List (List ℕ)
  /-- Whether it does so through enough columns. -/
  strongsee : List (List Bool)

/-- The tables that `NewRound` makes. -/
def newBallot (l : ℕ) : Ballot where
  votes := List.replicate l (List.replicate l 0)
  strongsee := List.replicate l (List.replicate l false)

/-- The tables have the size that `NewRound` gives them. -/
structure Ballot.Sized (b : Ballot) (l : ℕ) : Prop where
  /-- The votes. -/
  votes : IsSquare b.votes l
  /-- The strong sees. -/
  strongsee : IsSquare b.strongsee l

/-- New tables. -/
theorem sized_newBallot (l : ℕ) : (newBallot l).Sized l := by
  refine ⟨⟨?_, fun row hrow => ?_⟩, ⟨?_, fun row hrow => ?_⟩⟩
  · exact List.length_replicate
  · rw [List.eq_of_mem_replicate hrow, List.length_replicate]
  · exact List.length_replicate
  · rw [List.eq_of_mem_replicate hrow, List.length_replicate]

namespace JPGraph

/-- `JudgeSee` where one of the vertices may be nil. -/
def judgeEntry (jp : JPGraph) (n m : Option ℕ) (cluster : ℕ) :
    Except Stop (JPGraph × ℕ × Bool) :=
  match n, m with
  | some s, some e => do
    let (jp, see, strongsee) ← jp.judgeSee s e cluster
    return (jp, if see then 1 else 0, strongsee)
  | _, _ => .ok (jp, 0, false)

/-- An entry of a witness table with its index, for each of the two tables of the loops. -/
abbrev VotePair : Type := (Option ℕ × ℕ) × (Option ℕ × ℕ)

/-- The turns of the two nested loops over the witness tables. -/
def votePairs (round p1Round : Round) : List VotePair :=
  round.witnesses.zipIdx.product p1Round.witnesses.zipIdx

/-- The search in a turn of the loops, with the order in which Go walks over the columns. -/
def searchVote (idx : ℕ) (order : ℕ → ℕ → List Address) (jp : JPGraph) (p : VotePair) :
    Except Stop (JPGraph × ℕ × Bool) := do
  let jp ← jp.clearColorDFS idx colorClusterVote (order p.1.2 p.2.2)
  jp.judgeEntry p.1.1 p.2.1 colorClusterVote

/-- A turn of the loops of `WitnessFame` over the witness tables. -/
def castVote (idx : ℕ) (order : ℕ → ℕ → List Address) (st : JPGraph × Ballot) (p : VotePair) :
    Except Stop (JPGraph × Ballot) := do
  let (jp, see, strongsee) ← searchVote idx order st.1 p
  let votes ← tableSet st.2.votes p.1.2 p.2.2 see
  let strongsees ← tableSet st.2.strongsee p.1.2 p.2.2 strongsee
  return (jp, ⟨votes, strongsees⟩)

/-- The votes for one column that come with a strong see. -/
def totalVote (b : Ballot) (i : ℕ) : Except Stop ℕ :=
  (List.range b.votes.length).foldlM (fun v j => do
    let strongsee ← tableGet b.strongsee i j
    if strongsee then
      let vote ← tableGet b.votes i j
      return v + vote
    else return v) 0

/-- A turn of the last loop of `WitnessFame`: a witness with enough votes is famous. -/
def markFamous (p2Round : Round) (jp : JPGraph) (vote : ℕ × ℕ) : Except Stop JPGraph :=
  if vote.1 > jp.superMajority then
    match p2Round.witnesses[vote.2]? with
    | none => .error .indexOutOfRange
    | some none => .error .nilDeref
    | some (some v) =>
      .ok (jp.setVert v fun vert => { vert with witness := Mark.famousWitness })
  else .ok jp

/-- `WitnessFame`, with the vote tables of the newest round. -/
def witnessFame (jp : JPGraph) (b : Ballot) (order : ℕ → ℕ → List Address) :
    Except Stop (JPGraph × Ballot) :=
  match jp.queue with
  | [] => .error .nilDeref
  | [_] => .ok (jp, b)
  | i :: i₁ :: rest => do
    let round := jp.round i
    let p1Round := jp.round i₁
    let (jp', b) ← (votePairs round p1Round).foldlM (castVote p1Round.index order) (jp, b)
    let totalVotes ← (List.range round.broadness).mapM (totalVote b)
    match rest with
    | [] => return (jp', b)
    | i₂ :: _ =>
      let jp' ← totalVotes.zipIdx.foldlM (markFamous (jp.round i₂)) jp'
      return (jp', b)

/-- The search in a turn of the loops, for what it does to the graph. -/
def searchTurn (idx : ℕ) (order : ℕ → ℕ → List Address) (jp : JPGraph) (p : VotePair) :
    Except Stop JPGraph := (searchVote idx order jp p).map Prod.fst

/-- The searches of `WitnessFame` alone, without the vote tables. -/
def searchVotes (jp : JPGraph) (order : ℕ → ℕ → List Address) : Except Stop JPGraph :=
  match jp.queue with
  | i :: i₁ :: _ => (votePairs (jp.round i) (jp.round i₁)).foldlM
      (searchTurn (jp.round i₁).index order) jp
  | _ => .ok jp

/-- A round queue with at least two rounds for `l` peers, the witnesses of which are there. -/
structure FameQueue (jp : JPGraph) (l : ℕ) : Prop where
  /-- There are two rounds. -/
  two : 2 ≤ jp.queue.length
  /-- The number of peers in each round. -/
  broadness : ∀ i ∈ jp.queue, (jp.round i).broadness = l
  /-- The size of the witness tables. -/
  tables : ∀ i ∈ jp.queue, (jp.round i).witnesses.length = maxNodeCount
  /-- The first witnesses of each round are there. -/
  present : ∀ i ∈ jp.queue, ∀ k < l, ∃ v, (jp.round i).witnesses[k]? = some (some v)

variable {jp jp' : JPGraph} {b : Ballot} {l idx : ℕ} {order : ℕ → ℕ → List Address}

/-- The entries of a turn are inside the vote tables. -/
def Inside (l : ℕ) (p : VotePair) : Prop := p.1.2 < l ∧ p.2.2 < l

variable {p : VotePair} {st : JPGraph × Ballot} {ps : List VotePair}

/-- A turn that stays inside the vote tables goes on if its search does. -/
theorem castVote_inside (h : b.Sized l) (hp : Inside l p) {r : JPGraph × ℕ × Bool}
    (hsearch : searchVote idx order jp p = .ok r) :
    ∃ b', castVote idx order (jp, b) p = .ok (r.1, b') ∧ b'.Sized l := by
  obtain ⟨-, -, votes, hvotes, hsquare⟩ :=
    (h.votes.set (i := p.1.2) (j := p.2.2) r.2.1).resolve_right fun h' => h'.1 hp
  obtain ⟨-, -, sees, hsees, hsquare'⟩ :=
    (h.strongsee.set (i := p.1.2) (j := p.2.2) r.2.2).resolve_right fun h' => h'.1 hp
  refine ⟨⟨votes, sees⟩, ?_, hsquare, hsquare'⟩
  simp only [castVote, hsearch, bind, Except.bind, hvotes, hsees]
  rfl

/-- A turn that goes on stays inside the vote tables. -/
theorem inside_of_castVote (h : b.Sized l) (hcast : castVote idx order (jp, b) p = .ok st) :
    Inside l p ∧ searchTurn idx order jp p = .ok st.1 ∧ st.2.Sized l := by
  cases hsearch : searchVote idx order jp p with
  | error e =>
    simp only [castVote, hsearch, bind, Except.bind] at hcast
    cases hcast
  | ok r =>
    by_cases hp : Inside l p
    · obtain ⟨b', hcast', hsized⟩ := castVote_inside h hp hsearch
      obtain rfl := Except.ok.inj (hcast'.symm.trans hcast)
      exact ⟨hp, by rw [searchTurn, hsearch]; rfl, hsized⟩
    · rcases h.votes.set (i := p.1.2) (j := p.2.2) r.2.1 with ⟨hi, hj, -⟩ | ⟨-, hvotes⟩
      · exact absurd ⟨hi, hj⟩ hp
      · simp only [castVote, hsearch, bind, Except.bind, hvotes] at hcast
        cases hcast

/-- The loops over the witness tables that go on stay inside the vote tables. -/
theorem inside_of_foldlM (h : b.Sized l) (hfold : ps.foldlM (castVote idx order) (jp, b) = .ok st) :
    (∀ p ∈ ps, Inside l p) ∧ ps.foldlM (searchTurn idx order) jp = .ok st.1 := by
  induction ps generalizing jp b with
  | nil =>
    obtain rfl := Except.ok.inj hfold
    exact ⟨List.forall_mem_nil _, rfl⟩
  | cons p ps ih =>
    rw [List.foldlM_cons] at hfold
    cases hcast : castVote idx order (jp, b) p with
    | error e =>
      rw [hcast] at hfold
      cases hfold
    | ok st₁ =>
      rw [hcast] at hfold
      obtain ⟨hp, hsearch, hsized⟩ := inside_of_castVote h hcast
      obtain ⟨hps, hrest⟩ := ih hsized hfold
      refine ⟨List.forall_mem_cons.mpr ⟨hp, hps⟩, ?_⟩
      rw [List.foldlM_cons, hsearch]
      exact hrest

/-- The loops over the witness tables go on if they stay inside the vote tables and their searches
return. -/
theorem foldlM_of_inside (h : b.Sized l) (hps : ∀ p ∈ ps, Inside l p)
    (hsearch : ps.foldlM (searchTurn idx order) jp = .ok jp') :
    ∃ b', ps.foldlM (castVote idx order) (jp, b) = .ok (jp', b') ∧ b'.Sized l := by
  induction ps generalizing jp b with
  | nil =>
    obtain rfl := Except.ok.inj hsearch
    exact ⟨b, rfl, h⟩
  | cons p ps ih =>
    obtain ⟨hp, hrest⟩ := List.forall_mem_cons.mp hps
    rw [List.foldlM_cons] at hsearch
    cases hone : searchVote idx order jp p with
    | error e =>
      rw [searchTurn, hone] at hsearch
      cases hsearch
    | ok r =>
      rw [searchTurn, hone] at hsearch
      obtain ⟨b₁, hcast, hsized⟩ := castVote_inside h hp hone
      obtain ⟨b', hfold, hsized'⟩ := ih hsized hrest hsearch
      refine ⟨b', ?_, hsized'⟩
      rw [List.foldlM_cons, hcast]
      exact hfold

/-- The votes of a column inside the tables can be counted. -/
theorem exists_totalVote (h : b.Sized l) {i : ℕ} (hi : i < l) : ∃ v, totalVote b i = .ok v := by
  have hloop (js : List ℕ) (hjs : ∀ j ∈ js, j < l) (v : ℕ) : ∃ v', js.foldlM (fun v j => do
      let strongsee ← tableGet b.strongsee i j
      if strongsee then
        let vote ← tableGet b.votes i j
        return v + vote
      else return v) v = .ok v' := by
    induction js generalizing v with
    | nil => exact ⟨v, rfl⟩
    | cons j js ih =>
      obtain ⟨hj, hrest⟩ := List.forall_mem_cons.mp hjs
      obtain ⟨strongsee, hsee⟩ := h.strongsee.get hi hj
      obtain ⟨vote, hvote⟩ := h.votes.get hi hj
      simp only [List.foldlM_cons, hsee, hvote, bind, Except.bind]
      cases strongsee with
      | false => exact ih hrest v
      | true => exact ih hrest (v + vote)
  exact hloop _ (fun j hj => by rw [h.votes.rows] at hj; exact List.mem_range.mp hj) 0

/-- The votes of all columns inside the tables can be counted. -/
theorem exists_totalVotes (h : b.Sized l) {is : List ℕ} (his : ∀ i ∈ is, i < l) :
    ∃ vs, is.mapM (totalVote b) = .ok vs ∧ vs.length = is.length := by
  induction is with
  | nil => exact ⟨[], rfl, rfl⟩
  | cons i is ih =>
    obtain ⟨hi, hrest⟩ := List.forall_mem_cons.mp his
    obtain ⟨v, hv⟩ := exists_totalVote h hi
    obtain ⟨vs, hvs, hlen⟩ := ih hrest
    refine ⟨v :: vs, ?_, by rw [List.length_cons, List.length_cons, hlen]⟩
    rw [List.mapM_cons, hv, hvs]
    rfl

/-- The last loop goes on where the witnesses are there. -/
theorem exists_markFamous {p2Round : Round} {votes : List (ℕ × ℕ)}
    (h : ∀ vote ∈ votes, ∃ v, p2Round.witnesses[vote.2]? = some (some v)) (jp : JPGraph) :
    ∃ jp', votes.foldlM (markFamous p2Round) jp = .ok jp' := by
  induction votes generalizing jp with
  | nil => exact ⟨jp, rfl⟩
  | cons vote votes ih =>
    obtain ⟨⟨v, hv⟩, hrest⟩ := List.forall_mem_cons.mp h
    rw [List.foldlM_cons, markFamous, hv]
    split_ifs
    · exact ih hrest _
    · exact ih hrest _

/-- Every turn of the loops is inside the vote tables just when these have the size of the witness
tables. -/
theorem forall_inside_iff {round p1Round : Round} (h : round.witnesses.length = maxNodeCount)
    (h₁ : p1Round.witnesses.length = maxNodeCount) :
    (∀ p ∈ votePairs round p1Round, Inside l p) ↔ maxNodeCount ≤ l := by
  constructor
  · intro hinside
    have hlast : 127 < round.witnesses.length := by
      rw [h]
      decide
    have hlast₁ : 127 < p1Round.witnesses.length := by
      rw [h₁]
      decide
    have hp := hinside ((round.witnesses.get ⟨127, hlast⟩, 127), (p1Round.witnesses.get
      ⟨127, hlast₁⟩, 127)) (List.mem_product.mpr ⟨?_, ?_⟩)
    · exact hp.1
    · exact List.mk_mem_zipIdx_iff_getElem?.mpr (List.getElem?_eq_getElem hlast)
    · exact List.mk_mem_zipIdx_iff_getElem?.mpr (List.getElem?_eq_getElem hlast₁)
  · intro hle p hp
    obtain ⟨hp₀, hp₁⟩ := List.mem_product.mp hp
    have hlt := (List.getElem?_eq_some_iff.mp (List.mem_zipIdx_iff_getElem?.mp hp₀)).1
    have hlt₁ := (List.getElem?_eq_some_iff.mp (List.mem_zipIdx_iff_getElem?.mp hp₁)).1
    exact ⟨by omega, by omega⟩

/-- `WitnessFame` returns just when its searches return and the vote tables have the size of the
witness tables. -/
theorem exists_witnessFame_iff (hmax : l ≤ maxNodeCount) (hqueue : jp.FameQueue l)
    (hb : b.Sized l) (order : ℕ → ℕ → List Address) :
    (∃ r, jp.witnessFame b order = .ok r) ↔
      l = maxNodeCount ∧ ∃ jp', jp.searchVotes order = .ok jp' := by
  obtain ⟨i, i₁, rest, hq⟩ : ∃ i i₁ rest, jp.queue = i :: i₁ :: rest := by
    have htwo := hqueue.two
    match hq : jp.queue, htwo with
    | i :: i₁ :: rest, _ => exact ⟨i, i₁, rest, rfl⟩
  have hi : i ∈ jp.queue := by simp [hq]
  have hi₁ : i₁ ∈ jp.queue := by simp [hq]
  have hinside := forall_inside_iff (l := l) (hqueue.tables i hi) (hqueue.tables i₁ hi₁)
  simp only [witnessFame, searchVotes, hq]
  constructor
  · rintro ⟨r, hr⟩
    cases hfold : (votePairs (jp.round i) (jp.round i₁)).foldlM
        (castVote (jp.round i₁).index order) (jp, b) with
    | error e =>
      rw [hfold] at hr
      cases hr
    | ok st =>
      obtain ⟨hall, hsearch⟩ := inside_of_foldlM hb hfold
      exact ⟨le_antisymm hmax (hinside.mp hall), st.1, hsearch⟩
  · rintro ⟨rfl, jp', hsearch⟩
    obtain ⟨b', hfold, hsized⟩ := foldlM_of_inside hb (hinside.mpr le_rfl) hsearch
    obtain ⟨votes, hvotes, hlen⟩ := exists_totalVotes hsized fun k hk =>
      List.mem_range.mp hk
    simp only [hfold, hqueue.broadness i hi, bind, Except.bind, hvotes]
    cases rest with
    | nil => exact ⟨_, rfl⟩
    | cons i₂ rest =>
      have hpresent : ∀ vote ∈ votes.zipIdx,
          ∃ v, (jp.round i₂).witnesses[vote.2]? = some (some v) := by
        intro vote hvote
        have hlt := (List.getElem?_eq_some_iff.mp (List.mem_zipIdx_iff_getElem?.mp hvote)).1
        rw [hlen, List.length_range] at hlt
        exact hqueue.present i₂ (by simp [hq]) _ hlt
      obtain ⟨jp'', hmark⟩ := exists_markFamous hpresent jp'
      simp only [hmark]
      exact ⟨_, rfl⟩

/-- The witnesses of all rounds in the queue are vertices. -/
def WitnessesThere (jp : JPGraph) : Prop :=
  ∀ i ∈ jp.queue, ∀ v, some v ∈ (jp.round i).witnesses → v < jp.verts.next

/-- The search in a turn returns if the graph is in order. -/
theorem exists_searchTurn (h : jp.InOrder) (hrefs : jp.RefsEnd) (hbounded : jp.Bounded)
    (hn : ∀ v, p.1.1 = some v → v < jp.verts.next) (hm : ∀ v, p.2.1 = some v → v < jp.verts.next) :
    ∃ jp', searchTurn idx order jp p = .ok jp' ∧ Painted colorClusterVote jp jp' := by
  obtain ⟨jp₁, hclear, -⟩ :=
    exists_clearColorDFS h hrefs (show colorClusterVote < maxColorCluster by decide) idx
      (order p.1.2 p.2.2)
  have hpainted := jp.painted_clearColorDFS _ _ _ jp₁ hclear
  have hcolors := hpainted.sameButColors
  have hbounded₁ := hbounded.colors hcolors
  obtain ⟨⟨n, i⟩, m, j⟩ := p
  simp only [searchTurn, searchVote, hclear, bind, Except.bind]
  cases n with
  | none => exact ⟨jp₁, rfl, hpainted⟩
  | some s =>
    cases m with
    | none => exact ⟨jp₁, rfl, hpainted⟩
    | some e =>
      obtain ⟨jp₂, met, -, hjudge⟩ := exists_judgeSee_whites (hcolors.next ▸ hn s rfl)
        (hcolors.next ▸ hm e rfl) hbounded₁.links hbounded₁.numbers
      have hpainted₂ := jp₁.painted_judgeSee s e colorClusterVote _ hjudge
      simp only [judgeEntry, hjudge, bind, Except.bind]
      exact ⟨jp₂, rfl, hpainted.trans hpainted₂⟩

/-- The searches of `WitnessFame` return if the graph is in order. -/
theorem exists_searchVotes (h : jp.InOrder) (hrefs : jp.RefsEnd)
    (hbroadness : jp.broadness = jp.size) (hthere : jp.WitnessesThere)
    (order : ℕ → ℕ → List Address) :
    ∃ jp', jp.searchVotes order = .ok jp' := by
  have hloop (ps : List VotePair) (hps : ∀ p ∈ ps, (∀ v, p.1.1 = some v → v < jp.verts.next) ∧
      ∀ v, p.2.1 = some v → v < jp.verts.next) {jp₁ : JPGraph}
      (hpainted : Painted colorClusterVote jp jp₁) (idx : ℕ) :
      ∃ jp', ps.foldlM (searchTurn idx order) jp₁ = .ok jp' := by
    induction ps generalizing jp₁ with
    | nil => exact ⟨jp₁, rfl⟩
    | cons p ps ih =>
      obtain ⟨hp, hrest⟩ := List.forall_mem_cons.mp hps
      have hcolors := hpainted.sameButColors
      obtain ⟨jp₂, hturn, hpainted₂⟩ := exists_searchTurn (h.painted hpainted)
        (hrefs.colors hcolors) ((h.bounded hbroadness).colors hcolors) (hcolors.next ▸ hp.1)
        (hcolors.next ▸ hp.2)
      obtain ⟨jp', hjp'⟩ := ih hrest (hpainted.trans hpainted₂)
      exact ⟨jp', by rw [List.foldlM_cons, hturn]; exact hjp'⟩
  have hentry {i : ℕ} (hi : i ∈ jp.queue) : ∀ p ∈ (jp.round i).witnesses.zipIdx,
      ∀ v, p.1 = some v → v < jp.verts.next := by
    intro p hp v hv
    have hmem := List.mem_of_getElem? (List.mem_zipIdx_iff_getElem?.mp hp)
    exact hthere i hi v (hv ▸ hmem)
  unfold searchVotes
  split
  · next i i₁ rest hq =>
    refine hloop _ (fun p hp => ?_) .refl _
    obtain ⟨hp₀, hp₁⟩ := List.mem_product.mp hp
    exact ⟨hentry (by simp [hq]) _ hp₀, hentry (by simp [hq]) _ hp₁⟩
  · exact ⟨jp, rfl⟩

/-- `WitnessFame` returns just when the vote tables have the size of the witness tables and its
searches return. On a graph in order, they do. -/
theorem witnessFame_completes_iff (hmax : l ≤ maxNodeCount) (hqueue : jp.FameQueue l)
    (hb : b.Sized l) (order : ℕ → ℕ → List Address) :
    ((∃ r, jp.witnessFame b order = .ok r) ↔
      l = maxNodeCount ∧ ∃ jp', jp.searchVotes order = .ok jp') ∧
    (jp.InOrder → jp.RefsEnd → jp.broadness = jp.size → jp.WitnessesThere →
      ((∃ r, jp.witnessFame b order = .ok r) ↔ l = maxNodeCount)) := by
  have hiff := exists_witnessFame_iff hmax hqueue hb order
  refine ⟨hiff, fun h hrefs hbroadness hthere => ?_⟩
  rw [hiff]
  exact and_iff_left (exists_searchVotes h hrefs hbroadness hthere order)

end JPGraph

/-- A round for `l` peers in which one vertex is the witness of each. -/
def fameRound (l idx : ℕ) : Round :=
  { newRound l idx with
    witnesses := List.replicate l (some 0) ++ List.replicate (maxNodeCount - l) none }

/-- A graph for `l` peers with one vertex and two rounds. -/
def fameGraph (l : ℕ) : JPGraph :=
  { bareGraph (FixedBytes.zero 20) l with
    verts := ⟨[newVertex { firstEvent 0 0 with roundID := none } Mark.witness]⟩
    rounds := ⟨[fameRound l 0, fameRound l 1]⟩ }

/-- The round queue of the graph. -/
theorem fameQueue_fameGraph {l : ℕ} (hl : l ≤ maxNodeCount) : (fameGraph l).FameQueue l := by
  have hround : ∀ i ∈ (fameGraph l).queue, ∃ idx, (fameGraph l).round i = fameRound l idx := by
    intro i hi
    have hi' : i ∈ [1, 0] := hi
    simp only [List.mem_cons, List.not_mem_nil, or_false] at hi'
    rcases hi' with rfl | rfl
    · exact ⟨1, rfl⟩
    · exact ⟨0, rfl⟩
  refine ⟨le_rfl, fun i hi => ?_, fun i hi => ?_, fun i hi k hk => ⟨0, ?_⟩⟩
  · obtain ⟨idx, hidx⟩ := hround i hi
    rw [hidx]
    rfl
  · obtain ⟨idx, hidx⟩ := hround i hi
    rw [hidx, fameRound, List.length_append, List.length_replicate, List.length_replicate]
    omega
  · obtain ⟨idx, hidx⟩ := hround i hi
    rw [hidx, fameRound, List.getElem?_append_left (by rwa [List.length_replicate]),
      List.getElem?_replicate_of_lt hk]

/-- A search for the vertex that it starts from changes nothing. -/
theorem searchTurn_fameGraph {l : ℕ} (hl : 0 < l) (idx i j : ℕ) :
    JPGraph.searchTurn idx (fun _ _ => []) (fameGraph l) ((some 0, i), (some 0, j)) =
      .ok (fameGraph l) := by
  have hclear : (fameGraph l).clearColorDFS idx colorClusterVote [] = .ok (fameGraph l) := rfl
  have hnum : ((fameGraph l).vert 0).seqNum = 0 := rfl
  have hnext : (fameGraph l).verts.next = 1 := rfl
  have hlen : ¬ (List.replicate l 0).length ≤ 0 := by
    rw [List.length_replicate]
    omega
  have hmark : ((List.replicate l 0).set 0 1)[0]? = some 1 :=
    List.getElem?_set_self (by rwa [List.length_replicate])
  have hjudge : (fameGraph l).judgeSee 0 0 colorClusterVote = .ok (fameGraph l, true,
      (fameGraph l).strongSeen ((List.replicate l 0).set 0 1).sum) := by
    simp only [JPGraph.judgeSee, JPGraph.dfsVisit_succ, hnum, hnext]
    rw [show (fameGraph l).broadness = l from rfl, if_neg hlen, if_pos (Or.inl trivial)]
    simp only [bind, Except.bind, hnum, hmark]
    rfl
  simp only [JPGraph.searchTurn, JPGraph.searchVote, hclear, JPGraph.judgeEntry, bind, Except.bind,
    hjudge]
  rfl

/-- For 128 peers `WitnessFame` returns. -/
theorem witnessFame_completes_full :
    ∃ r, (fameGraph 128).witnessFame (newBallot 128) (fun _ _ => []) = .ok r := by
  refine (JPGraph.witnessFame_completes_iff le_rfl (fameQueue_fameGraph le_rfl)
    (sized_newBallot _) _).1.mpr ⟨rfl, fameGraph 128, ?_⟩
  have hentry (idx : ℕ) : ∀ p ∈ (fameRound 128 idx).witnesses.zipIdx, p.1 = some 0 := by
    intro p hp
    have hmem := List.mem_of_getElem? (List.mem_zipIdx_iff_getElem?.mp hp)
    rw [fameRound, show maxNodeCount - 128 = 0 from rfl, List.replicate_zero,
      List.append_nil] at hmem
    exact List.eq_of_mem_replicate hmem
  have hloop (ps : List JPGraph.VotePair) (hps : ∀ p ∈ ps, p.1.1 = some 0 ∧ p.2.1 = some 0) :
      ps.foldlM (JPGraph.searchTurn 0 fun _ _ => []) (fameGraph 128) = .ok (fameGraph 128) := by
    induction ps with
    | nil => rfl
    | cons p ps ih =>
      obtain ⟨hp, hrest⟩ := List.forall_mem_cons.mp hps
      obtain ⟨⟨n, i⟩, m, j⟩ := p
      obtain ⟨rfl, rfl⟩ := hp
      rw [List.foldlM_cons, searchTurn_fameGraph (by decide)]
      exact ih hrest
  refine hloop _ fun p hp => ?_
  obtain ⟨hp₀, hp₁⟩ := List.mem_product.mp hp
  exact ⟨hentry 1 _ hp₀, hentry 0 _ hp₁⟩

/-- For one peer it writes past the end of the first row of the vote tables. -/
theorem not_witnessFame_completes_one :
    (fameGraph 1).FameQueue 1 ∧ (newBallot 1).Sized 1 ∧
      ¬ ∃ r, (fameGraph 1).witnessFame (newBallot 1) (fun _ _ => []) = .ok r := by
  refine ⟨fameQueue_fameGraph (by decide), sized_newBallot 1, ?_⟩
  rintro ⟨r, hr⟩
  have hnone : ((fameGraph 1).witnessFame (newBallot 1)
      (fun _ _ => [])).toOption.isNone = true := by decide +kernel
  rw [hr] at hnone
  cases hnone

end Hashgrid.Core
