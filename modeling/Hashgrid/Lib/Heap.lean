import Mathlib.Data.List.GetD

/-!
# Heaps of objects

Objects that other objects point to live in a heap and are named by their position in
it. Nothing is ever freed. A reference that does not point into the heap reads as the
default object and writes nothing.
-/

namespace Hashgrid

/-- A heap of objects of one type. -/
structure Heap (α : Type) where
  /-- The objects in the order in which they were allocated. -/
  objs : List α
  deriving DecidableEq

namespace Heap

variable {α : Type}

/-- The heap without objects. -/
def empty : Heap α := ⟨[]⟩

/-- The reference that the next allocation returns. -/
def next (h : Heap α) : ℕ := h.objs.length

/-- Allocate an object; its reference is `next`. -/
def alloc (h : Heap α) (x : α) : Heap α := ⟨h.objs ++ [x]⟩

/-- The object behind a reference. -/
def get [Inhabited α] (h : Heap α) (r : ℕ) : α := h.objs.getD r default

/-- Change the object behind a reference. -/
def update (h : Heap α) (r : ℕ) (f : α → α) : Heap α := ⟨h.objs.modify r f⟩

/-- Change the objects behind several references, one after the other. -/
def updateAll (h : Heap α) (rs : List ℕ) (f : α → α) : Heap α :=
  rs.foldl (fun h r => h.update r f) h

/-- Apply a function to every object. -/
def map {β : Type} (g : α → β) (h : Heap α) : Heap β := ⟨h.objs.map g⟩

@[simp] theorem next_alloc (h : Heap α) (x : α) : (h.alloc x).next = h.next + 1 := by
  simp [alloc, next]

@[simp] theorem next_update (h : Heap α) (r : ℕ) (f : α → α) : (h.update r f).next = h.next := by
  simp [update, next]

/-- Changing objects allocates nothing. -/
@[simp] theorem next_updateAll (h : Heap α) (rs : List ℕ) (f : α → α) :
    (h.updateAll rs f).next = h.next := by
  unfold updateAll
  induction rs generalizing h with
  | nil => rfl
  | cons r rs ih => rw [List.foldl_cons, ih, next_update]

variable {β : Type} {f : α → α} {h : Heap α} {r : ℕ}

@[simp] theorem next_map (g : α → β) (h : Heap α) : (h.map g).next = h.next := by
  simp [map, next]

theorem map_alloc (g : α → β) (h : Heap α) (x : α) : (h.alloc x).map g = (h.map g).alloc (g x) := by
  simp [map, alloc]

variable {g : α → β} {s : ℕ}

/-- A function on the objects that makes up for a change. -/
theorem map_update (f' : β → β) (hf : ∀ x, g (f x) = f' (g x)) (h : Heap α) (r : ℕ) :
    (h.update r f).map g = (h.map g).update r f' := by
  simp only [map, update, Heap.mk.injEq]
  refine List.ext_getElem? fun i => ?_
  simp only [List.getElem?_map, List.getElem?_modify]
  cases h.objs[i]? with
  | none => rfl
  | some x =>
    by_cases hri : r = i
    · simp [hri, hf]
    · simp [hri]

theorem map_update_of_eq (hf : ∀ x, g (f x) = g x) (h : Heap α) (r : ℕ) :
    (h.update r f).map g = h.map g := by
  rw [map_update id hf]
  simp [update, List.modify_id]

/-- A function on the objects that does not see several changes. -/
theorem map_updateAll_of_eq (hf : ∀ x, g (f x) = g x) (h : Heap α) (rs : List ℕ) :
    (h.updateAll rs f).map g = h.map g := by
  unfold updateAll
  induction rs generalizing h with
  | nil => rfl
  | cons r rs ih => rw [List.foldl_cons, ih, map_update_of_eq hf]

variable [Inhabited α]

/-- Reading after a function was applied to the objects. -/
theorem get_map [Inhabited β] (hg : g default = default) (h : Heap α) (r : ℕ) :
    (h.map g).get r = g (h.get r) := by
  simp only [get, map, List.getD_eq_getElem?_getD, List.getElem?_map]
  cases h.objs[r]? with
  | none => exact hg.symm
  | some x => rfl

theorem get_of_le (hr : h.next ≤ r) : h.get r = default :=
  List.getD_eq_default _ _ hr

/-- Reading after an allocation. -/
theorem get_alloc (h : Heap α) (x : α) (r : ℕ) :
    (h.alloc x).get r = if r = h.next then x else h.get r := by
  unfold get alloc next
  rcases Nat.lt_trichotomy r h.objs.length with hlt | heq | hgt
  · rw [if_neg (by omega), List.getD_append _ _ _ _ hlt]
  · simp [heq]
  · rw [if_neg (by omega), List.getD_eq_default _ _ (by simp; omega),
      List.getD_eq_default _ _ (by omega)]

@[simp] theorem get_alloc_next (h : Heap α) (x : α) : (h.alloc x).get h.next = x := by
  simp [get_alloc]

theorem get_alloc_of_lt (hr : r < h.next) (x : α) : (h.alloc x).get r = h.get r := by
  rw [get_alloc, if_neg (by omega)]

/-- Reading after a change. -/
theorem get_update (hr : r < h.next) (f : α → α) (s : ℕ) :
    (h.update r f).get s = if s = r then f (h.get r) else h.get s := by
  unfold get update next at *
  simp only [List.getD_eq_getElem?_getD, List.getElem?_modify]
  by_cases hs : s = r
  · subst hs
    simp [List.getElem?_eq_getElem hr]
  · simp [hs, Ne.symm hs]

theorem get_update_self (hr : r < h.next) (f : α → α) : (h.update r f).get r = f (h.get r) := by
  simp [get_update hr]

@[simp] theorem get_update_ne (h : Heap α) (hs : s ≠ r) (f : α → α) :
    (h.update r f).get s = h.get s := by
  simp [get, update, List.getD_eq_getElem?_getD, Ne.symm hs]

/-- A change leaves an object as it is or changes it. -/
theorem get_update_eq_or (h : Heap α) (r s : ℕ) (f : α → α) :
    (h.update r f).get s = h.get s ∨ s = r ∧ (h.update r f).get s = f (h.get s) := by
  by_cases hs : s = r
  · subst hs
    by_cases hr : s < h.next
    · exact Or.inr ⟨rfl, get_update_self hr f⟩
    · refine Or.inl ?_
      rw [get_of_le (by rw [next_update]; omega), get_of_le (by omega)]
  · exact Or.inl (get_update_ne h hs f)

/-- A change that keeps a feature of every object keeps it behind every reference. -/
theorem get_update_of_eq (h : Heap α) (r : ℕ) (hf : ∀ x, g (f x) = g x) (s : ℕ) :
    g ((h.update r f).get s) = g (h.get s) := by
  by_cases hr : r < h.next
  · rw [get_update hr]
    split
    · next hs => rw [hf, hs]
    · rfl
  · have hsame : h.update r f = h := by
      unfold update
      rw [List.modify_eq_self (by unfold next at hr; omega)]
    rw [hsame]

/-- Changing several objects keeps what each change keeps. -/
theorem get_updateAll_of_eq (h : Heap α) (rs : List ℕ) (hf : ∀ x, g (f x) = g x) (s : ℕ) :
    g ((h.updateAll rs f).get s) = g (h.get s) := by
  unfold updateAll
  induction rs generalizing h with
  | nil => rfl
  | cons r rs ih => rw [List.foldl_cons, ih, get_update_of_eq h r hf]

/-- Reading after several changes of one kind, which may hit an object more than once. -/
theorem get_updateAll (hs : s < h.next) (rs : List ℕ) (hf : ∀ x, f (f x) = f x) :
    (h.updateAll rs f).get s = if s ∈ rs then f (h.get s) else h.get s := by
  unfold updateAll
  induction rs generalizing h with
  | nil => simp
  | cons r rs ih =>
    rw [List.foldl_cons, ih (by simpa using hs)]
    by_cases hsr : s = r
    · subst hsr
      simp only [get_update_self hs, hf, List.mem_cons, true_or, if_true, ite_self]
    · simp only [get_update_ne h hsr, List.mem_cons, hsr, false_or]

end Heap

end Hashgrid
