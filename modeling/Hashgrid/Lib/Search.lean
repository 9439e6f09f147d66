import Mathlib.Data.Finset.Card
import Mathlib.Logic.Relation

/-!
# Depth-first search

A search goes along the links of a graph and remembers which objects are still to be
entered. Some objects stop it: they are met, as often as a link leads to them, but never
entered. The search meets exactly the objects to which links lead through objects still to
be entered, without passing an object that stops it.
-/

namespace Hashgrid.Search

variable {α : Type}

/-- One link, out of an object that does not stop the search. -/
def Passes (links : α → List α) (stops : α → Bool) (u v : α) : Prop :=
  stops u = false ∧ v ∈ links u

/-- Links lead to an object without passing one that stops the search. -/
def Meets (links : α → List α) (stops : α → Bool) : α → α → Prop :=
  Relation.ReflTransGen (Passes links stops)

/-- What a search knows. -/
structure State (α : Type) where
  /-- The objects that are still to be entered. -/
  fresh : Finset α
  /-- The objects that were met. -/
  met : Finset α

/-- An object that needs no more work: it was entered, or it was met and stops the search. -/
def State.Settled (stops : α → Bool) (st : State α) (v : α) : Prop :=
  v ∉ st.fresh ∨ (stops v = true ∧ v ∈ st.met)

/-- What a search from the given roots does to what is known. -/
structure Explores (links : α → List α) (stops : α → Bool) (st st' : State α)
    (roots : List α) : Prop where
  /-- Nothing becomes fresh again. -/
  fresh : st'.fresh ⊆ st.fresh
  /-- Nothing is forgotten. -/
  met : st.met ⊆ st'.met
  /-- What is met can be met from a root. -/
  sound : ∀ v ∈ st'.met, v ∈ st.met ∨ ∃ r ∈ roots, Meets links stops r v
  /-- What was entered was met, and so was everything behind it. -/
  closed : ∀ v ∈ st.fresh, v ∉ st'.fresh →
    stops v = false ∧ v ∈ st'.met ∧ ∀ u ∈ links v, st'.Settled stops u
  /-- The roots need no more work. -/
  roots : ∀ r ∈ roots, st'.Settled stops r

variable {r s v : α} {fresh vs : Finset α} {fuel : ℕ}

/-- What is settled stays settled. -/
theorem State.Settled.mono {stops : α → Bool} {st st' : State α} (h : st.Settled stops v)
    (hfresh : st'.fresh ⊆ st.fresh) (hmet : st.met ⊆ st'.met) : st'.Settled stops v := by
  rcases h with hentered | ⟨hstops, hv⟩
  · exact .inl fun hfresh' => hentered (hfresh hfresh')
  · exact .inr ⟨hstops, hmet hv⟩

variable {links : α → List α} {stops : α → Bool} {st st' st'' : State α}

/-- Without roots nothing happens. -/
theorem Explores.nil (st : State α) : Explores links stops st st [] where
  fresh := Finset.Subset.refl _
  met := Finset.Subset.refl _
  sound _ hv := .inl hv
  closed _ hfresh hentered := absurd hfresh hentered
  roots _ hr := nomatch hr

/-- A root that was entered before. -/
theorem Explores.entered (hr : r ∉ st.fresh) : Explores links stops st st [r] where
  fresh := Finset.Subset.refl _
  met := Finset.Subset.refl _
  sound _ hv := .inl hv
  closed _ hfresh hentered := absurd hfresh hentered
  roots _ hv := List.mem_singleton.mp hv ▸ .inl hr

/-- The first root, then the others. -/
theorem Explores.cons {rs : List α} (h : Explores links stops st st' [r])
    (h' : Explores links stops st' st'' rs) : Explores links stops st st'' (r :: rs) where
  fresh := h'.fresh.trans h.fresh
  met := h.met.trans h'.met
  sound v hv := by
    rcases h'.sound v hv with hv | ⟨r', hr', hmeets⟩
    · rcases h.sound v hv with hv | ⟨r', hr', hmeets⟩
      · exact .inl hv
      · exact .inr ⟨r, List.mem_cons_self, List.mem_singleton.mp hr' ▸ hmeets⟩
    · exact .inr ⟨r', List.mem_cons_of_mem _ hr', hmeets⟩
  closed v hfresh hentered := by
    by_cases hfresh' : v ∈ st'.fresh
    · exact h'.closed v hfresh' hentered
    · obtain ⟨hstops, hv, hlinks⟩ := h.closed v hfresh hfresh'
      exact ⟨hstops, h'.met hv, fun u hu => (hlinks u hu).mono h'.fresh h'.met⟩
  roots v hv := by
    rcases List.mem_cons.mp hv with rfl | hv
    · exact (h.roots v List.mem_cons_self).mono h'.fresh h'.met
    · exact h'.roots v hv

/-- A search that explored a root has met everything that can be met from it, if all that was
fresh. -/
theorem Explores.mem_met (h : Explores links stops ⟨fresh, ∅⟩ st' [s])
    (hfresh : ∀ v, Meets links stops s v → v ∈ fresh) (v : α) :
    v ∈ st'.met ↔ Meets links stops s v := by
  have hmet {u : α} (hu : u ∈ fresh) (hsettled : st'.Settled stops u) : u ∈ st'.met := by
    rcases hsettled with hentered | ⟨_, hmem⟩
    · exact (h.closed u hu hentered).2.1
    · exact hmem
  constructor
  · intro hv
    rcases h.sound v hv with hv | ⟨r, hr, hmeets⟩
    · cases hv
    · exact List.mem_singleton.mp hr ▸ hmeets
  · intro hmeets
    -- along the links: every object is settled in the end
    suffices hv : st'.Settled stops v from hmet (hfresh v hmeets) hv
    induction hmeets with
    | refl => exact h.roots s List.mem_cons_self
    | @tail u w hu hstep hsettled =>
      have hentered : u ∉ st'.fresh := by
        rcases hsettled with hentered | ⟨hstops, _⟩
        · exact hentered
        · exact absurd (hstep.1.symm.trans hstops) (by decide)
      exact (h.closed u (hfresh u hu) hentered).2.2 w hstep.2

variable [DecidableEq α]

/-- An object that stops the search is met. -/
theorem Explores.stopped (hs : stops s = true) :
    Explores links stops st { st with met := insert s st.met } [s] where
  fresh := Finset.Subset.refl _
  met := Finset.subset_insert _ _
  sound v hv := by
    rcases Finset.mem_insert.mp hv with rfl | hv
    · exact .inr ⟨v, List.mem_cons_self, .refl⟩
    · exact .inl hv
  closed _ hfresh hentered := absurd hfresh hentered
  roots v hv := by
    obtain rfl := List.mem_singleton.mp hv
    exact .inr ⟨hs, Finset.mem_insert_self _ _⟩

/-- An object is entered and its links are searched. -/
theorem Explores.enter (hs : stops s = false)
    (h : Explores links stops ⟨st.fresh.erase s, insert s st.met⟩ st' (links s)) :
    Explores links stops st st' [s] where
  fresh := h.fresh.trans (Finset.erase_subset _ _)
  met := (Finset.subset_insert _ _).trans h.met
  sound v hv := by
    rcases h.sound v hv with hv | ⟨r, hr, hmeets⟩
    · rcases Finset.mem_insert.mp hv with rfl | hv
      · exact .inr ⟨v, List.mem_cons_self, .refl⟩
      · exact .inl hv
    · exact .inr ⟨s, List.mem_cons_self, .head ⟨hs, hr⟩ hmeets⟩
  closed v hfresh hentered := by
    by_cases hvs : v = s
    · exact ⟨hvs ▸ hs, hvs ▸ h.met (Finset.mem_insert_self _ _), hvs ▸ h.roots⟩
    · exact h.closed v (Finset.mem_erase.mpr ⟨hvs, hfresh⟩) hentered
  roots v hv := by
    obtain rfl := List.mem_singleton.mp hv
    exact .inl fun hv => Finset.notMem_erase v _ (h.fresh hv)

/-- Search from an object. The fuel bounds the depth. -/
def visit (links : α → List α) (stops : α → Bool) : ℕ → State α → α → Option (State α)
  | 0, _, _ => none
  | fuel + 1, st, s =>
    if stops s then some { st with met := insert s st.met }
    else (links s).foldlM
      (fun st u => if u ∈ st.fresh then visit links stops fuel st u else some st)
      ⟨st.fresh.erase s, insert s st.met⟩

/-- Search from each of some objects that is still fresh when its turn comes. -/
def visitAll (links : α → List α) (stops : α → Bool) (fuel : ℕ) (st : State α) (roots : List α) :
    Option (State α) :=
  roots.foldlM (fun st u => if u ∈ st.fresh then visit links stops fuel st u else some st) st

theorem visit_succ (fuel : ℕ) (s : α) : visit links stops (fuel + 1) st s =
    if stops s then some { st with met := insert s st.met }
    else visitAll links stops fuel ⟨st.fresh.erase s, insert s st.met⟩ (links s) := rfl

theorem visitAll_cons (fuel : ℕ) (r : α) (rs : List α) :
    visitAll links stops fuel st (r :: rs) =
      (if r ∈ st.fresh then visit links stops fuel st r else some st).bind
        fun st => visitAll links stops fuel st rs := rfl

/-- A search from several roots explores them if a search from one does. -/
theorem visitAll_explores
    (h : ∀ {st st' : State α} {s : α}, visit links stops fuel st s = some st' →
      Explores links stops st st' [s]) {roots : List α}
    (hvisit : visitAll links stops fuel st roots = some st') :
    Explores links stops st st' roots := by
  induction roots generalizing st with
  | nil => exact Option.some.inj hvisit ▸ .nil st
  | cons r rs ih =>
    rw [visitAll_cons, Option.bind_eq_some_iff] at hvisit
    obtain ⟨st₁, hfirst, hrest⟩ := hvisit
    refine Explores.cons ?_ (ih hrest)
    split_ifs at hfirst with hr
    · exact h hfirst
    · exact Option.some.inj hfirst ▸ .entered hr

/-- A search that ends has explored its root. -/
theorem visit_explores (h : visit links stops fuel st s = some st') :
    Explores links stops st st' [s] := by
  induction fuel generalizing st st' s with
  | zero => cases h
  | succ fuel ih =>
    rw [visit_succ] at h
    split_ifs at h with hstops
    · exact Option.some.inj h ▸ .stopped hstops
    · exact .enter (Bool.not_eq_true _ ▸ hstops) (visitAll_explores ih h)

/-- Searches from several roots end if a search from one of them does. -/
theorem exists_visitAll (h : ∀ {st : State α} {s : α}, st.fresh.card < fuel → s ∈ st.fresh →
      ∃ st', visit links stops fuel st s = some st') (roots : List α)
    (hfuel : st.fresh.card < fuel) : ∃ st', visitAll links stops fuel st roots = some st' := by
  induction roots generalizing st with
  | nil => exact ⟨st, rfl⟩
  | cons r rs ih =>
    rw [visitAll_cons]
    split_ifs with hr
    · obtain ⟨st₁, hst₁⟩ := h hfuel hr
      have hcard := Finset.card_le_card (visit_explores hst₁).fresh
      rw [hst₁, Option.bind_some]
      exact ih (by omega)
    · exact ih hfuel

/-- With fuel for every fresh object a search ends. -/
theorem exists_visit (hfuel : st.fresh.card < fuel) (hs : s ∈ st.fresh) :
    ∃ st', visit links stops fuel st s = some st' := by
  induction fuel generalizing st s with
  | zero => exact absurd hfuel (Nat.not_lt_zero _)
  | succ fuel ih =>
    rw [visit_succ]
    split_ifs
    · exact ⟨_, rfl⟩
    · have hcard := Finset.card_erase_lt_of_mem hs
      exact exists_visitAll ih _ (by dsimp only; omega)

/-- The links to the given objects only. -/
def within (links : α → List α) (vs : Finset α) (v : α) : List α := (links v).filter (· ∈ vs)

/-- Searches from several roots do not look at what is not fresh, if a search from one of them
does not. -/
theorem visitAll_within (h : ∀ {st : State α} {s : α}, st.fresh ⊆ vs →
      visit (within links vs) stops fuel st s = visit links stops fuel st s)
    (hfresh : st.fresh ⊆ vs) (roots : List α) :
    visitAll (within links vs) stops fuel st (roots.filter (· ∈ vs)) =
      visitAll links stops fuel st roots := by
  induction roots generalizing st with
  | nil => rfl
  | cons r rs ih =>
    rw [visitAll_cons]
    by_cases hr : r ∈ st.fresh
    · rw [List.filter_cons_of_pos (by simpa using hfresh hr), visitAll_cons, if_pos hr, if_pos hr,
        h hfresh]
      cases hst : visit links stops fuel st r with
      | none => rfl
      | some st' => exact ih ((visit_explores hst).fresh.trans hfresh)
    · rw [if_neg hr, Option.bind_some, ← ih hfresh]
      by_cases hvs : r ∈ vs
      · rw [List.filter_cons_of_pos (by simpa using hvs), visitAll_cons, if_neg hr,
          Option.bind_some]
      · rw [List.filter_cons_of_neg (by simpa using hvs)]

/-- A search does not look at what is not fresh. -/
theorem visit_within (hfresh : st.fresh ⊆ vs) :
    visit (within links vs) stops fuel st s = visit links stops fuel st s := by
  induction fuel generalizing st s with
  | zero => rfl
  | succ fuel ih =>
    rw [visit_succ, visit_succ]
    split_ifs
    · rfl
    · exact visitAll_within ih ((Finset.erase_subset _ _).trans hfresh) _

/-- It makes no difference to what a search meets whether its root is fresh. -/
theorem visit_insert (h : visit links stops fuel ⟨insert s fresh, ∅⟩ s = some st) :
    ∃ st', visit links stops fuel ⟨fresh, ∅⟩ s = some st' ∧ st'.met = st.met := by
  cases fuel with
  | zero => cases h
  | succ fuel =>
    rw [visit_succ] at h ⊢
    split_ifs at h ⊢
    · have hmet : insert s ∅ = st.met := congrArg State.met (Option.some.inj h)
      exact ⟨_, rfl, hmet⟩
    · dsimp only at h ⊢
      rw [Finset.erase_insert_eq_erase] at h
      exact ⟨st, h, rfl⟩

theorem Meets.mem_insert (h : Meets (within links vs) stops s v) : v ∈ insert s vs := by
  cases h with
  | refl => exact Finset.mem_insert_self s vs
  | tail _ hstep => exact Finset.mem_insert_of_mem (by simpa using (List.mem_filter.mp hstep.2).2)

/-- A search meets exactly what can be met through fresh objects. -/
theorem exists_visit_met (hfuel : (insert s fresh).card < fuel) :
    ∃ st', visit links stops fuel ⟨fresh, ∅⟩ s = some st' ∧
      ∀ v, v ∈ st'.met ↔ Meets (within links fresh) stops s v := by
  obtain ⟨st, hst⟩ : ∃ st, visit (within links fresh) stops fuel ⟨insert s fresh, ∅⟩ s = some st :=
    exists_visit hfuel (Finset.mem_insert_self s fresh)
  obtain ⟨st', hst', hmet⟩ := visit_insert hst
  refine ⟨st', (visit_within (Finset.Subset.refl _)).symm.trans hst', fun v => ?_⟩
  rw [hmet]
  exact (visit_explores hst).mem_met (fun u hu => hu.mem_insert) v

/-- What can be met through more objects. -/
theorem Meets.mono {ws : Finset α} (hsub : vs ⊆ ws) (h : Meets (within links vs) stops s v) :
    Meets (within links ws) stops s v := by
  induction h with
  | refl => exact .refl
  | tail _ hstep ih =>
    obtain ⟨hlink, hmem⟩ := List.mem_filter.mp hstep.2
    refine ih.tail ⟨hstep.1, List.mem_filter.mpr ⟨hlink, ?_⟩⟩
    exact decide_eq_true (hsub (of_decide_eq_true hmem))

theorem Meets.of_within (h : Meets (within links vs) stops s v) : Meets links stops s v := by
  induction h with
  | refl => exact .refl
  | tail _ hstep ih => exact ih.tail ⟨hstep.1, (List.mem_filter.mp hstep.2).1⟩

/-- If all that can be met but the root is among the given objects, it can be met through them. -/
theorem Meets.within (h : Meets links stops s v)
    (hvs : ∀ u, Meets links stops s u → u = s ∨ u ∈ vs) : Meets (within links vs) stops s v := by
  induction h with
  | refl => exact .refl
  | @tail u w hu hstep ih =>
    rcases hvs w (hu.tail hstep) with rfl | hw
    · exact .refl
    · exact ih.tail ⟨hstep.1, List.mem_filter.mpr ⟨hstep.2, decide_eq_true hw⟩⟩

end Hashgrid.Search
