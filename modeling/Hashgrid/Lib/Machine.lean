import Mathlib.Data.List.Basic

/-!
# Machines driven by actions

A machine takes an action in a state and either moves to a next state or stops. This
file has the partial-correctness rules for single steps and the invariant rule for
runs, also for runs whose steps all meet a condition on the state before them.
-/

namespace Hashgrid.Machine

section Ensures

variable {E α β : Type}

/-- Whenever the computation succeeds, its result has the property. -/
def Ensures (x : Except E α) (Q : α → Prop) : Prop := ∀ a, x = .ok a → Q a

variable {Q : α → Prop} {a : α} {e : E} {x : Except E α} {R : β → Prop} {f : β → α → Except E β}
  {b : β} {l : List α}

theorem Ensures.ok (h : Q a) : Ensures (.ok a : Except E α) Q := by
  intro a' ha
  exact Except.ok.inj ha ▸ h

theorem Ensures.error : Ensures (.error e : Except E α) Q := by
  intro a ha
  cases ha

/-- Two computations in sequence. -/
theorem Ensures.bind {f : α → Except E β} (hx : Ensures x Q) (hf : ∀ a, Q a → Ensures (f a) R) :
    Ensures (x >>= f) R := by
  intro b hb
  cases h : x with
  | error e =>
    rw [h] at hb
    cases hb
  | ok a =>
    rw [h] at hb
    exact hf a (hx a h) b hb

/-- A computation in sequence with a pure function. -/
theorem Ensures.map {f : α → β} (hx : Ensures x Q) (hf : ∀ a, Q a → R (f a)) :
    Ensures (x.map f) R := by
  intro b hb
  cases h : x with
  | error e =>
    rw [h] at hb
    cases hb
  | ok a =>
    rw [h] at hb
    exact Except.ok.inj hb ▸ hf a (hx a h)

/-- A loop over a list preserves what each turn preserves. -/
theorem Ensures.foldlM {Q : β → Prop} (hf : ∀ b a, Q b → Ensures (f b a) Q) (l : List α)
    (hb : Q b) : Ensures (l.foldlM f b) Q := by
  induction l generalizing b with
  | nil => exact .ok hb
  | cons a l ih => exact .bind (hf b a hb) fun b' hb' => ih hb'

/-- A loop over a list preserves what each turn with an entry of the list preserves. -/
theorem Ensures.foldlM_mem {Q : β → Prop} (hf : ∀ b, ∀ a ∈ l, Q b → Ensures (f b a) Q) (hb : Q b) :
    Ensures (l.foldlM f b) Q := by
  induction l generalizing b with
  | nil => exact .ok hb
  | cons a l ih =>
    refine .bind (hf b a List.mem_cons_self hb) fun b' hb' => ?_
    exact ih (fun c a' ha' => hf c a' (List.mem_cons_of_mem a ha')) hb'

theorem Ensures.self (x : Except E α) : Ensures x fun a => x = .ok a := fun _ ha => ha

/-- The computation does not fail in the given way. -/
def Avoids (x : Except E α) (e : E) : Prop := x ≠ .error e

theorem Avoids.ok : Avoids (.ok a) e := fun h => nomatch h

theorem Avoids.error {e' : E} (h : e' ≠ e) : Avoids (.error e' : Except E α) e :=
  fun heq => h (Except.error.inj heq)

/-- Two computations in sequence. -/
theorem Avoids.bind {f : α → Except E β} (hx : Avoids x e) (hf : ∀ a, x = .ok a → Avoids (f a) e) :
    Avoids (x >>= f) e := by
  cases h : x with
  | error e' =>
    intro heq
    exact hx (h.trans (congrArg _ (Except.error.inj heq)))
  | ok a => exact hf a h

/-- A computation in sequence with a pure function. -/
theorem Avoids.map {f : α → β} (hx : Avoids x e) : Avoids (x.map f) e := by
  cases h : x with
  | error e' =>
    intro heq
    exact hx (h.trans (congrArg _ (Except.error.inj heq)))
  | ok a => exact .ok

/-- A loop over a list avoids what each of its turns avoids. -/
theorem Avoids.foldlM {Q : β → Prop} (hf : ∀ b, ∀ a ∈ l, Q b → Avoids (f b a) e ∧ Ensures (f b a) Q)
    (hb : Q b) : Avoids (l.foldlM f b) e := by
  induction l generalizing b with
  | nil => exact .ok
  | cons a l ih =>
    obtain ⟨hnow, hnext⟩ := hf b a List.mem_cons_self hb
    refine hnow.bind fun b' hb' => ih (fun c x hx => ?_) (hnext b' hb')
    exact hf c x (List.mem_cons_of_mem a hx)

/-- A loop whose turns do what those of another loop do when they succeed. -/
theorem foldlM_ok {g : β → α → Except E β} (h : ∀ b a c, f b a = .ok c → g b a = .ok c) {c : β}
    (hf : l.foldlM f b = .ok c) : l.foldlM g b = .ok c := by
  induction l generalizing b with
  | nil => exact hf
  | cons a l ih =>
    rw [List.foldlM_cons] at hf ⊢
    cases hfirst : f b a with
    | error e =>
      rw [hfirst] at hf
      cases hf
    | ok b' =>
      rw [hfirst] at hf
      rw [h b a b' hfirst]
      exact ih hf

/-- A loop that is seen through a function, if each of its turns is. -/
theorem foldlM_map {γ : Type} {f' : γ → α → Except E γ} {g : β → γ}
    (h : ∀ b a, f' (g b) a = (f b a).map g) (l : List α) (b : β) :
    l.foldlM f' (g b) = (l.foldlM f b).map g := by
  induction l generalizing b with
  | nil => rfl
  | cons a l ih =>
    rw [List.foldlM_cons, List.foldlM_cons, h]
    cases f b a with
    | error e => rfl
    | ok b' => exact ih b'

theorem exists_of_map_eq_ok {f : α → β} (h : x.map f = .ok b) : ∃ a, x = .ok a ∧ f a = b := by
  cases x with
  | error e => cases h
  | ok a => exact ⟨a, rfl, Except.ok.inj h⟩

/-- The result of a computation that is mapped by an injective function. -/
theorem map_eq_ok_iff {f : α → β} (hf : Function.Injective f) :
    x.map f = .ok (f a) ↔ x = .ok a := by
  cases x with
  | error e => exact iff_of_false (fun h => nomatch h) fun h => nomatch h
  | ok b => simp only [Except.map, Except.ok.injEq, hf.eq_iff]

variable {y : Except E α}

theorem ok_of_map_eq {f : α → β} (h : x.map f = y.map f) (ha : x = .ok a) :
    ∃ b, y = .ok b ∧ f b = f a := by
  subst ha
  exact exists_of_map_eq_ok h.symm

theorem error_iff_of_map_eq {f : α → β} (h : x.map f = y.map f) (e : E) :
    x = .error e ↔ y = .error e := by
  cases x <;> cases y <;> simp_all [Except.map]

theorem eq_ok_of_toOption (h : x.toOption = some a) : x = .ok a := by
  cases x with
  | error e => simp [Except.toOption] at h
  | ok b => exact congrArg _ (Option.some.inj h)

/-- How a computation fails, if it does. -/
def failure : Except E α → Option E
  | .ok _ => none
  | .error e => some e

theorem eq_error_of_failure (h : failure x = some e) : x = .error e := by
  cases x with
  | error e' => exact congrArg _ (Option.some.inj h)
  | ok a => cases h

theorem eq_error_iff : x = .error e ↔ failure x = some e := by
  refine ⟨fun h => ?_, eq_error_of_failure⟩
  rw [h]
  rfl

theorem exists_ok_of_failure (h : failure x = none) : ∃ a, x = .ok a := by
  cases x with
  | error e => cases h
  | ok a => exact ⟨a, rfl⟩

theorem failure_map (x : Except E α) (f : α → β) : failure (x.map f) = failure x := by
  cases x <;> rfl

theorem eq_ok_getD (h : x.toOption.isSome = true) (d : α) : x = .ok (x.toOption.getD d) := by
  obtain ⟨a, ha⟩ := Option.isSome_iff_exists.mp h
  rw [ha, Option.getD_some]
  exact eq_ok_of_toOption ha

end Ensures

section Run

variable {E S A : Type} {step : S → A → Except E S}

/-- The state after a sequence of actions. -/
def run (step : S → A → Except E S) : S → List A → Except E S
  | s, [] => .ok s
  | s, a :: as =>
    match step s a with
    | .ok s' => run step s' as
    | .error e => .error e

theorem run_singleton (s : S) (a : A) : run step s [a] = step s a := by
  unfold run
  cases step s a <;> rfl

variable {as bs : List A} {s s' : S} {ok ok' : S → A → Prop} {P : A → Prop} {inv : S → Prop}

/-- The first step of a run. -/
theorem exists_of_run_cons {a : A} (h : run step s (a :: as) = .ok s') :
    ∃ s₁, step s a = .ok s₁ ∧ run step s₁ as = .ok s' := by
  unfold run at h
  cases hstep : step s a with
  | error e =>
    rw [hstep] at h
    cases h
  | ok s₁ =>
    rw [hstep] at h
    exact ⟨s₁, rfl, h⟩

/-- The two parts of a run. -/
theorem exists_of_run_append (h : run step s (as ++ bs) = .ok s') :
    ∃ s₁, run step s as = .ok s₁ ∧ run step s₁ bs = .ok s' := by
  induction as generalizing s with
  | nil => exact ⟨s, rfl, h⟩
  | cons a as ih =>
    obtain ⟨s₂, hstep, hrest⟩ := exists_of_run_cons h
    obtain ⟨s₁, has, hbs⟩ := ih hrest
    refine ⟨s₁, ?_, hbs⟩
    unfold run
    rw [hstep]
    exact has

/-- A run in two parts. -/
theorem run_append (h : run step s as = .ok s') (bs : List A) :
    run step s (as ++ bs) = run step s' bs := by
  induction as generalizing s with
  | nil =>
    cases h
    rfl
  | cons a as ih =>
    cases hstep : step s a with
    | error e => simp [run, hstep] at h
    | ok s₁ =>
      simp only [run, hstep, List.cons_append] at h ⊢
      exact ih h

/-- Every step of a run meets the condition. -/
def Meets (step : S → A → Except E S) (ok : S → A → Prop) : S → List A → Prop
  | _, [] => True
  | s, a :: as =>
    ok s a ∧
      match step s a with
      | .ok s' => Meets step ok s' as
      | .error _ => True

/-- A decidable condition can be checked along a run. -/
instance decidableMeets {ok : S → A → Prop} [∀ s a, Decidable (ok s a)] :
    (s : S) → (as : List A) → Decidable (Meets step ok s as)
  | _, [] => isTrue trivial
  | s, a :: as =>
    match h : step s a with
    | .ok s' =>
      have : Decidable (Meets step ok s' as) := decidableMeets s' as
      decidable_of_iff (ok s a ∧ Meets step ok s' as) (by simp only [Meets, h])
    | .error _ => decidable_of_iff (ok s a) (by simp only [Meets, h, and_true])

/-- The first part of a run that meets a condition. -/
theorem Meets.append_left (h : Meets step ok s (as ++ bs)) : Meets step ok s as := by
  induction as generalizing s with
  | nil => trivial
  | cons a as ih =>
    obtain ⟨hok, hrest⟩ := h
    refine ⟨hok, ?_⟩
    cases hstep : step s a with
    | error e => trivial
    | ok s' =>
      rw [hstep] at hrest
      exact ih hrest

/-- The second part of a run meets the condition that the run meets. -/
theorem Meets.of_append (h : Meets step ok s (as ++ bs)) (hrun : run step s as = .ok s') :
    Meets step ok s' bs := by
  induction as generalizing s with
  | nil =>
    cases hrun
    exact h
  | cons a as ih =>
    obtain ⟨-, hrest⟩ := h
    unfold run at hrun
    cases hstep : step s a with
    | error e =>
      rw [hstep] at hrun
      cases hrun
    | ok s₁ =>
      rw [hstep] at hrun hrest
      exact ih hrest hrun

/-- A condition on the actions of a run holds at every step. -/
theorem meets_of_mem (hP : ∀ a ∈ as, P a) : Meets step (fun _ a => P a) s as := by
  induction as generalizing s with
  | nil => trivial
  | cons a as ih =>
    refine ⟨hP a List.mem_cons_self, ?_⟩
    cases step s a with
    | error e => trivial
    | ok s' => exact ih fun b hb => hP b (List.mem_cons_of_mem a hb)

/-- A condition on the actions of a run holds next to another one. -/
theorem Meets.and_mem (h : Meets step ok s as) (hP : ∀ a ∈ as, P a) :
    Meets step (fun s a => ok s a ∧ P a) s as := by
  induction as generalizing s with
  | nil => trivial
  | cons a as ih =>
    obtain ⟨hok, hrest⟩ := h
    refine ⟨⟨hok, hP a List.mem_cons_self⟩, ?_⟩
    cases hstep : step s a with
    | error e => trivial
    | ok s' =>
      rw [hstep] at hrest
      exact ih hrest fun b hb => hP b (List.mem_cons_of_mem a hb)

/-- What every step that meets the condition preserves, every such run preserves. -/
theorem run_invariant (hstep : ∀ s a, inv s → ok s a → Ensures (step s a) inv) (hs : inv s)
    (hmeets : Meets step ok s as) : Ensures (run step s as) inv := by
  induction as generalizing s with
  | nil => exact .ok hs
  | cons a as ih =>
    intro s'' hrun
    unfold run at hrun
    cases h : step s a with
    | error e =>
      rw [h] at hrun
      cases hrun
    | ok s' =>
      obtain ⟨hok, hrest⟩ := hmeets
      rw [h] at hrun hrest
      exact ih (hstep s a hs hok s' h) hrest s'' hrun

theorem meets_true (s : S) (as : List A) : Meets step (fun _ _ => True) s as :=
  meets_of_mem (P := fun _ => True) fun _ _ => trivial

/-- A condition that follows from an invariant along a run. -/
theorem Meets.of_invariant (hstep : ∀ s a, inv s → ok s a → ok' s a ∧ Ensures (step s a) inv)
    (hs : inv s) (hmeets : Meets step ok s as) : Meets step ok' s as := by
  induction as generalizing s with
  | nil => trivial
  | cons a as ih =>
    obtain ⟨hok, hrest⟩ := hmeets
    obtain ⟨hnow, hnext⟩ := hstep s a hs hok
    refine ⟨hnow, ?_⟩
    cases h : step s a with
    | error e => trivial
    | ok s' =>
      rw [h] at hrest
      exact ih (hnext s' h) hrest

theorem run_preserves (hstep : ∀ s a, inv s → Ensures (step s a) inv) (hs : inv s) (as : List A) :
    Ensures (run step s as) inv :=
  run_invariant (fun s a h _ => hstep s a h) hs (meets_true s as)

/-- What every step that meets the condition takes from one number to the next. -/
theorem run_counted {inv : ℕ → S → Prop}
    (hstep : ∀ n s a, inv n s → ok s a → Ensures (step s a) (inv (n + 1))) {n : ℕ} (hs : inv n s)
    (hmeets : Meets step ok s as) : Ensures (run step s as) (inv (n + as.length)) := by
  induction as generalizing n s with
  | nil => exact .ok hs
  | cons a as ih =>
    intro s'' hrun
    unfold run at hrun
    cases h : step s a with
    | error e =>
      rw [h] at hrun
      cases hrun
    | ok s' =>
      obtain ⟨hok, hrest⟩ := hmeets
      rw [h] at hrun hrest
      have hlength : n + (a :: as).length = n + 1 + as.length := by
        rw [List.length_cons]
        omega
      rw [hlength]
      exact ih (hstep n s a hs hok s' h) hrest s'' hrun

/-- A run avoids what every step avoids that meets the condition. -/
theorem run_avoids {e : E}
    (hstep : ∀ s a, inv s → ok s a → Avoids (step s a) e ∧ Ensures (step s a) inv) (hs : inv s)
    (hmeets : Meets step ok s as) : Avoids (run step s as) e := by
  induction as generalizing s with
  | nil => exact .ok
  | cons a as ih =>
    obtain ⟨hok, hrest⟩ := hmeets
    obtain ⟨hnow, hnext⟩ := hstep s a hs hok
    cases h : step s a with
    | error e' =>
      simp only [run, h]
      exact .error fun he => hnow (he ▸ h)
    | ok s' =>
      rw [h] at hrest
      simp only [run, h]
      exact ih (hnext s' h) hrest

/-- A property that a step keeps just when it meets the condition, and that is never regained,
holds after a run just when it held before and every step meets the condition. -/
theorem run_iff_meets {P : S → Prop}
    (hstep : ∀ s a, inv s → Ensures (step s a) fun s' => inv s' ∧ (P s' ↔ P s ∧ ok s a))
    (hs : inv s) (as : List A) :
    Ensures (run step s as) fun s' => P s' ↔ P s ∧ Meets step ok s as := by
  induction as generalizing s with
  | nil => exact .ok (by simp [Meets])
  | cons a as ih =>
    intro s'' hrun
    unfold run at hrun
    unfold Meets
    cases h : step s a with
    | error e =>
      rw [h] at hrun
      cases hrun
    | ok s' =>
      rw [h] at hrun
      obtain ⟨hs', hP⟩ := hstep s a hs s' h
      have hrest : P s'' ↔ P s' ∧ Meets step ok s' as := ih hs' s'' hrun
      rw [hrest, hP, and_assoc]

/-- Conditions that agree on the steps of a run, given an invariant and another condition that the
run meets, hold along it together. -/
theorem meets_iff {ok₀ : S → A → Prop}
    (hstep : ∀ s a, inv s → ok₀ s a → Ensures (step s a) fun s' => inv s' ∧ (ok s a ↔ ok' s a))
    (hs : inv s) (hmeets : Meets step ok₀ s as) (hrun : run step s as = .ok s') :
    Meets step ok s as ↔ Meets step ok' s as := by
  induction as generalizing s with
  | nil => rfl
  | cons a as ih =>
    obtain ⟨hok₀, hrest⟩ := hmeets
    unfold run at hrun
    unfold Meets
    cases h : step s a with
    | error e =>
      rw [h] at hrun
      cases hrun
    | ok s₁ =>
      rw [h] at hrun hrest
      obtain ⟨hs₁, hok⟩ := hstep s a hs hok₀ s₁ h
      exact and_congr hok (ih hs₁ hrest hrun)

/-- Conditions that agree on the steps of a run hold along it together. -/
theorem meets_congr (h : ∀ s a s', step s a = .ok s' → (ok s a ↔ ok' s a))
    (hrun : run step s as = .ok s') : Meets step ok s as ↔ Meets step ok' s as := by
  have hstep (s : S) (a : A) (_ _ : True) :
      Ensures (step s a) fun _ => True ∧ (ok s a ↔ ok' s a) :=
    fun s' hs' => ⟨trivial, h s a s' hs'⟩
  exact meets_iff hstep trivial (meets_true s as) hrun

/-- A machine with outputs, together with the log of all outputs. -/
def logged {O : Type} (step : S → A → Except E (S × List O)) (s : S × List O) (a : A) :
    Except E (S × List O) :=
  (step s.1 a).map fun r => (r.1, s.2 ++ r.2)

end Run

end Hashgrid.Machine
