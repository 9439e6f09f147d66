import Hashgrid.Lib.Machine

/-!
# Pools of calls

Calls that run interleaved over a shared memory, next to other activities. To verify such
a system, give an invariant of the memory, an assertion for every call and a relation that
keeps calls apart. If a step of a call keeps the invariant, its own assertion and the
assertions of all calls that it is kept apart from, then all of this holds in every run.
-/

namespace Hashgrid.Pools

open Hashgrid.Machine

/-- A memory with the calls that run on it. -/
structure Pool (M C : Type) where
  /-- The memory. -/
  memory : M
  /-- The calls. -/
  calls : List C

/-- What can happen next. -/
inductive Act (A V : Type)
  /-- A call starts. -/
  | start (a : A)
  /-- A call goes on. -/
  | go (i : ℕ)
  /-- Something else happens. -/
  | other (v : V)
  deriving DecidableEq

/-- How calls start and go on, and what else happens to the memory. -/
structure System (E M C A V : Type) where
  /-- A call starts. -/
  start : M → A → Except E (M × C)
  /-- A call goes on, and returns if nothing is left to do. -/
  go : M → C → Except E (M × Option C)
  /-- Something else happens. -/
  other : M → V → Except E M
  /-- The failure to go on with a call that is not there. -/
  idle : E

section System

variable {E M C A V : Type}

/-- One step of one call or of something else. -/
def System.step (sys : System E M C A V) (s : Pool M C) : Act A V → Except E (Pool M C)
  | .start a => (sys.start s.memory a).map fun r => ⟨r.1, s.calls ++ [r.2]⟩
  | .go i =>
    match s.calls[i]? with
    | none => .error sys.idle
    | some c => (sys.go s.memory c).map fun r =>
      match r.2 with
      | some c' => ⟨r.1, s.calls.set i c'⟩
      | none => ⟨r.1, s.calls.eraseIdx i⟩
  | .other v => (sys.other s.memory v).map fun m => { s with memory := m }

variable {calls : List C} {i : ℕ} {c : C} {s : Pool M C}

/-- The calls before and after the one that goes on. -/
theorem exists_others (h : calls[i]? = some c) :
    ∃ l r, calls = l ++ c :: r ∧ (∀ c', calls.set i c' = l ++ c' :: r) ∧
      calls.eraseIdx i = l ++ r := by
  obtain ⟨hi, rfl⟩ := List.getElem?_eq_some_iff.mp h
  refine ⟨calls.take i, calls.drop (i + 1), ?_, fun c' => ?_, ?_⟩
  · rw [List.getElem_cons_drop, List.take_append_drop]
  · rw [List.set_eq_take_append_cons_drop, if_pos hi]
  · exact List.eraseIdx_eq_take_drop_succ calls i

/-- The call that goes on and the others, in some order. -/
theorem exists_perm (h : calls[i]? = some c) :
    ∃ rest, calls.Perm (c :: rest) ∧ ∀ {P : Type} (next : Option P) (f : P → C),
      (next.elim (calls.eraseIdx i) fun p => calls.set i (f p)).Perm
        ((next.map f).toList ++ rest) := by
  obtain ⟨l, r, hcalls, hset, herase⟩ := exists_others h
  refine ⟨l ++ r, hcalls ▸ List.perm_middle, fun next f => ?_⟩
  cases next with
  | none => exact .of_eq herase
  | some p => exact (List.Perm.of_eq (hset (f p))).trans List.perm_middle

/-- The other calls stay when a call goes on. -/
theorem mem_set_of_ne {d : C} (h : calls[i]? = some c) (hd : d ∈ calls) (hne : d ≠ c) (c' : C) :
    d ∈ calls.set i c' := by
  obtain ⟨l, r, hcalls, hset, -⟩ := exists_others h
  rw [hcalls] at hd
  rw [hset]
  rcases List.mem_append.mp hd with hl | hr
  · exact List.mem_append_left _ hl
  · exact List.mem_append_right _ (List.mem_cons_of_mem _ ((List.mem_cons.mp hr).resolve_left hne))

/-- The condition holds for the call that goes on, if one does. -/
def Goes (s : Pool M C) (act : Act A V) (P : C → Prop) : Prop :=
  ∀ i c, act = .go i → s.calls[i]? = some c → P c

/-- A decidable condition can be checked for the call that goes on. -/
instance decidableGoes (s : Pool M C) (act : Act A V) (P : C → Prop) [DecidablePred P] :
    Decidable (Goes s act P) :=
  match act with
  | .start _ => isTrue fun _ _ hact => nomatch hact
  | .other _ => isTrue fun _ _ hact => nomatch hact
  | .go i =>
    match h : s.calls[i]? with
    | none => isTrue fun j c hact hc => by
        cases hact
        exact absurd (h.symm.trans hc) (by simp)
    | some c => decidable_of_iff (P c) ⟨fun hP j d hact hd => by
        cases hact
        cases h.symm.trans hd
        exact hP, fun hall => hall i c rfl h⟩

/-- The steps of a system keep an invariant of the memory, an assertion for every call, and calls
apart. A step of a call may have a condition. -/
structure Keeps (sys : System E M C A V) (ok : M → C → Prop) (inv : M → Prop)
    (assertion : M → C → Prop) (apart : C → C → Prop) : Prop where
  /-- Calls are apart from each other. -/
  symm : ∀ c d, apart c d → apart d c
  /-- A call starts. -/
  start : ∀ m a, inv m → Ensures (sys.start m a) fun r =>
    inv r.1 ∧ assertion r.1 r.2 ∧ ∀ d, assertion m d → assertion r.1 d ∧ apart r.2 d
  /-- A call goes on. -/
  go : ∀ m c, inv m → assertion m c → ok m c → Ensures (sys.go m c) fun r =>
    inv r.1 ∧ (∀ c', r.2 = some c' → assertion r.1 c') ∧
      ∀ d, assertion m d → apart c d → assertion r.1 d ∧ ∀ c', r.2 = some c' → apart c' d
  /-- Something else happens. -/
  other : ∀ m v, inv m → Ensures (sys.other m v) fun m' =>
    inv m' ∧ ∀ d, assertion m d → assertion m' d

/-- The invariant holds, every call has its assertion, and the calls are apart. -/
structure Holds (inv : M → Prop) (assertion : M → C → Prop) (apart : C → C → Prop)
    (s : Pool M C) : Prop where
  /-- The memory. -/
  inv : inv s.memory
  /-- The calls. -/
  assertion : ∀ c ∈ s.calls, assertion s.memory c
  /-- Any two of them. -/
  apart : s.calls.Pairwise apart

variable {sys : System E M C A V} {ok : M → C → Prop} {inv : M → Prop}
  {assertion : M → C → Prop} {apart : C → C → Prop}

/-- One step keeps what the parts of the system keep. -/
theorem Keeps.step (hkeeps : Keeps sys ok inv assertion apart) (h : Holds inv assertion apart s)
    (act : Act A V) (hok : Goes s act (ok s.memory)) :
    Ensures (sys.step s act) (Holds inv assertion apart) := by
  cases act with
  | start a =>
    refine .map (hkeeps.start s.memory a h.inv) fun r hr => ?_
    obtain ⟨hinv, hnew, hold⟩ := hr
    refine ⟨hinv, fun c hc => ?_, List.pairwise_append.mpr ⟨h.apart, ?_, fun d hd c hc => ?_⟩⟩
    · rcases List.mem_append.mp hc with hc | hc
      · exact (hold c (h.assertion c hc)).1
      · exact List.mem_singleton.mp hc ▸ hnew
    · exact List.pairwise_singleton _ _
    · rw [List.mem_singleton.mp hc]
      exact hkeeps.symm _ _ (hold d (h.assertion d hd)).2
  | go i =>
    cases hi : s.calls[i]? with
    | none =>
      simp only [System.step, hi]
      exact .error
    | some c =>
      simp only [System.step, hi]
      obtain ⟨l, r, hcalls, hset, herase⟩ := exists_others hi
      have hassert := h.assertion
      have hapart := h.apart
      rw [hcalls] at hassert hapart
      obtain ⟨hl, hcr, hacross⟩ := List.pairwise_append.mp hapart
      obtain ⟨hc, hr⟩ := List.pairwise_cons.mp hcr
      have hothers : ∀ d ∈ l ++ r, assertion s.memory d ∧ apart c d := by
        intro d hd
        rcases List.mem_append.mp hd with hd | hd
        · exact ⟨hassert d (List.mem_append_left _ hd),
            hkeeps.symm _ _ (hacross d hd c List.mem_cons_self)⟩
        · exact ⟨hassert d (List.mem_append_right _ (List.mem_cons_of_mem _ hd)), hc d hd⟩
      have hlr : (l ++ r).Pairwise apart := List.pairwise_append.mpr
        ⟨hl, hr, fun d hd e he => hacross d hd e (List.mem_cons_of_mem _ he)⟩
      refine .map (hkeeps.go s.memory c h.inv (h.assertion c (List.mem_of_getElem? hi))
        (hok i c rfl hi)) fun res hres => ?_
      obtain ⟨m', next⟩ := res
      obtain ⟨hinv, hown, hrest⟩ := hres
      have hkept : ∀ d ∈ l ++ r, assertion m' d ∧ ∀ c', next = some c' → apart c' d :=
        fun d hd => hrest d (hothers d hd).1 (hothers d hd).2
      cases next with
      | none =>
        refine ⟨hinv, fun d hd => ?_, ?_⟩
        · exact (hkept d (herase ▸ hd)).1
        · exact herase ▸ hlr
      | some c' =>
        have hperm : (s.calls.set i c').Perm (c' :: (l ++ r)) := hset c' ▸ List.perm_middle
        refine ⟨hinv, fun d hd => ?_, ?_⟩
        · rcases List.mem_cons.mp (hperm.mem_iff.mp hd) with rfl | hd
          · exact hown d rfl
          · exact (hkept d hd).1
        · refine (hperm.pairwise_iff fun {x y} hxy => hkeeps.symm x y hxy).mpr ?_
          exact List.pairwise_cons.mpr ⟨fun d hd => (hkept d hd).2 c' rfl, hlr⟩
  | other v =>
    refine .map (hkeeps.other s.memory v h.inv) fun m' hm' => ?_
    exact ⟨hm'.1, fun c hc => hm'.2 c (h.assertion c hc), h.apart⟩

/-- A run in which every step of a call meets its condition keeps what the parts of the system
keep. -/
theorem Keeps.run (hkeeps : Keeps sys ok inv assertion apart) {cond : Pool M C → Act A V → Prop}
    (hcond : ∀ s act, cond s act → Goes s act (ok s.memory)) {acts : List (Act A V)}
    (h : Holds inv assertion apart s) (hmeets : Meets sys.step cond s acts) :
    Ensures (Machine.run sys.step s acts) (Holds inv assertion apart) := by
  have hstep (s : Pool M C) (act : Act A V) (h : Holds inv assertion apart s) (hok : cond s act) :
      Ensures (sys.step s act) (Holds inv assertion apart) :=
    hkeeps.step h act (hcond s act hok)
  exact run_invariant hstep h hmeets

end System

end Hashgrid.Pools
