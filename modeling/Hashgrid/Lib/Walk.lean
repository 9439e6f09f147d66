import Mathlib.Data.List.Basic

/-!
# Walks along a successor

Objects that are chained by a successor function. A finite walk is given by the list of
the objects on it. Two successor functions lead the same way just when they agree on the
objects of the walk.
-/

namespace Hashgrid.Walks

variable {α : Type}

/-- From the start, the successor leads through the given objects and ends after them. -/
inductive Walk (next : α → Option α) : Option α → List α → Prop
  /-- There is nothing to visit. -/
  | nil : Walk next none []
  /-- An object is visited, and then those that its successor leads to. -/
  | cons {v : α} {l : List α} : Walk next (next v) l → Walk next (some v) (v :: l)

/-- The object that is visited after the given number of steps. -/
def visit (next : α → Option α) (start : Option α) : ℕ → Option α
  | 0 => start
  | n + 1 => (visit next start n).bind next

/-- The first step can be made first. -/
theorem visit_succ (next : α → Option α) (start : Option α) (n : ℕ) :
    visit next start (n + 1) = visit next (start.bind next) n := by
  induction n with
  | zero => rfl
  | succ n ih => rw [visit, ih, visit]

variable {next : α → Option α} {start : Option α} {l : List α}

/-- A walk visits its objects one after the other. -/
theorem Walk.visit_eq (h : Walk next start l) (n : ℕ) : visit next start n = l[n]? := by
  induction h generalizing n with
  | nil =>
    induction n with
    | zero => rfl
    | succ n ih => rw [visit, ih, List.getElem?_nil, List.getElem?_nil, Option.bind_none]
  | cons _ ih =>
    cases n with
    | zero => rfl
    | succ n => rw [visit_succ, Option.bind_some, ih, List.getElem?_cons_succ]

/-- A walk depends on the successors of its objects only. -/
theorem Walk.congr {next' : α → Option α} (h : Walk next start l)
    (hnext : ∀ v ∈ l, next' v = next v) : Walk next' start l := by
  induction h with
  | nil => exact .nil
  | cons _ ih =>
    refine .cons ?_
    rw [hnext _ List.mem_cons_self]
    exact ih fun v hv => hnext v (List.mem_cons_of_mem _ hv)

/-- The successor of an object on a walk is on the walk. -/
theorem Walk.next_mem (h : Walk next start l) {v w : α} (hv : v ∈ l) (hw : next v = some w) :
    w ∈ l := by
  induction h with
  | nil => cases hv
  | @cons u rest hrest ih =>
    rcases List.mem_cons.mp hv with rfl | hv
    · rw [hw] at hrest
      cases hrest with
      | cons _ => exact List.mem_cons_of_mem _ List.mem_cons_self
    · exact List.mem_cons_of_mem _ (ih hv)

/-- Nothing comes after the last object of a walk. -/
theorem Walk.next_getLast (h : Walk next start l) {v : α} (hv : l.getLast? = some v) :
    next v = none := by
  induction h with
  | nil => cases hv
  | @cons u rest hrest ih =>
    cases rest with
    | nil =>
      obtain rfl : u = v := by simpa using hv
      generalize next u = after at hrest ⊢
      cases hrest
      rfl
    | cons w rest => exact ih (by rwa [List.getLast?_cons_cons] at hv)

/-- What holds of the start and of every successor holds on the whole walk. -/
theorem Walk.forall_mem {P : α → Prop} (h : Walk next start l)
    (hnext : ∀ v w, next v = some w → P w) (hstart : ∀ v, start = some v → P v) : ∀ v ∈ l, P v := by
  induction h with
  | nil => exact List.forall_mem_nil P
  | @cons u rest _ ih =>
    exact List.forall_mem_cons.mpr ⟨hstart u rfl, ih (hnext u)⟩

/-- The walk from the first object with a property on. -/
theorem Walk.find? (h : Walk next start l) (p : α → Bool) :
    Walk next (l.find? p) (l.dropWhile fun v => !p v) := by
  induction h with
  | nil => exact .nil
  | @cons u rest hrest ih =>
    by_cases hu : p u = true
    · rw [List.find?_cons_of_pos hu, List.dropWhile_cons_of_neg (by simp [hu])]
      exact .cons hrest
    · rw [List.find?_cons_of_neg hu, List.dropWhile_cons_of_pos (by simpa using hu)]
      exact ih

/-- The objects that the first steps visit. -/
def trail (next : α → Option α) : ℕ → Option α → List α
  | _, none => []
  | 0, some _ => []
  | n + 1, some v => v :: trail next n (next v)

/-- No step visits more than one object. -/
theorem length_trail_le (next : α → Option α) (n : ℕ) (start : Option α) :
    (trail next n start).length ≤ n := by
  induction n generalizing start with
  | zero => cases start <;> exact Nat.le_refl _
  | succ n ih =>
    cases start with
    | none => exact Nat.zero_le _
    | some v => exact Nat.succ_le_succ (ih (next v))

/-- If nothing is left to visit after some steps, these are the whole walk. -/
theorem walk_trail {n : ℕ} (h : visit next start n = none) :
    Walk next start (trail next n start) := by
  induction n generalizing start with
  | zero =>
    obtain rfl : start = none := h
    exact .nil
  | succ n ih =>
    cases start with
    | none => exact .nil
    | some v => exact .cons (ih (by rwa [visit_succ] at h))

/-- Let `q` follow `p` wherever `p` goes on. Then `p` goes along with `q` as far as `q` goes
just when the two agree on the walk along `p`. -/
theorem Walk.visits_iff {p q : α → Option α} (h : Walk p start l)
    (hstep : ∀ v ∈ l, ∀ w, p v = some w → q v = some w) :
    (∀ n v, visit q start n = some v → visit p start n = some v) ↔ ∀ v ∈ l, q v = p v := by
  constructor
  · intro hvisit
    induction h with
    | nil => exact fun v hv => nomatch hv
    | @cons u rest _ ih =>
      have hu : q u = p u := by
        cases hp : p u with
        | some w => exact hstep u List.mem_cons_self w hp
        | none =>
          cases hq : q u with
          | none => rfl
          | some x =>
            have hx : visit p (some u) 1 = some x := hvisit 1 x (by simpa [visit] using hq)
            rw [← hx]
            simp [visit, hp]
      intro v hv
      rcases List.mem_cons.mp hv with rfl | hv
      · exact hu
      · refine ih (fun v hv => hstep v (List.mem_cons_of_mem _ hv)) (fun n x hx => ?_) v hv
        have hx' : visit q (some u) (n + 1) = some x := by
          rw [visit_succ, Option.bind_some, hu, hx]
        have hy := hvisit (n + 1) x hx'
        rwa [visit_succ, Option.bind_some] at hy
  · intro hagree n v hv
    rw [(h.congr hagree).visit_eq] at hv
    rw [h.visit_eq, hv]

end Hashgrid.Walks
