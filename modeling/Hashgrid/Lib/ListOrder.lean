import Mathlib.Data.List.Induction
import Mathlib.Data.List.Nodup

/-!
# The order of a list without repetitions

Such a list is determined by its members and the predecessor of each of them. The order
of two members is stated by a sublist of length two.
-/

namespace Hashgrid.ListOrder

variable {α β : Type} {x y : α} {l l₁ l₂ : List α} {i : ℕ} {f : α → β}

theorem notMem_of_nodup {s t : List α} (h : (s ++ x :: t).Nodup) : x ∉ s :=
  fun hx => (List.nodup_cons.mp (List.nodup_middle.mp h)).1 (List.mem_append_left t hx)

/-- A prefix of one list is a prefix of the other when members have the same predecessors. -/
theorem prefix_of_getLast?_eq (hsub : ∀ x ∈ l₁, x ∈ l₂) (h₁ : l₁.Nodup) (h₂ : l₂.Nodup)
    (hpred : ∀ s₁ t₁ s₂ t₂ x, l₁ = s₁ ++ x :: t₁ → l₂ = s₂ ++ x :: t₂ →
      s₁.getLast? = s₂.getLast?) (p : List α) (hp : p <+: l₁) : p <+: l₂ := by
  induction p using List.reverseRecOn with
  | nil => exact List.nil_prefix
  | append_singleton p z ih =>
    obtain ⟨t, rfl⟩ := hp
    obtain ⟨r, rfl⟩ := ih ⟨z :: t, by simp⟩
    have hz : z ∉ p := notMem_of_nodup (t := t) (by simpa using h₁)
    have hmem : z ∈ p ++ r := hsub z (by simp)
    have hmem := (List.mem_append.mp hmem).resolve_left hz
    obtain ⟨r₁, r₂, rfl⟩ := List.append_of_mem hmem
    have hlast := hpred p t (p ++ r₁) r₂ z (by simp) (by simp)
    -- A last element of `r₁` would also be the last element of `p`.
    cases r₁ using List.reverseRecOn with
    | nil => exact ⟨r₂, by simp⟩
    | append_singleton r₁ w =>
      rw [← List.append_assoc, List.getLast?_concat] at hlast
      have hw : w ∈ p := List.mem_of_getLast? hlast
      rw [List.append_assoc] at h₂
      exact absurd (List.mem_append_left r₁ hw) (notMem_of_nodup (t := z :: r₂) (by simpa using h₂))

/-- A list without repetitions is determined by its members and their predecessors. -/
theorem eq_of_getLast?_eq (hperm : l₁.Perm l₂) (hnodup : l₁.Nodup)
    (hpred : ∀ s₁ t₁ s₂ t₂ x, l₁ = s₁ ++ x :: t₁ → l₂ = s₂ ++ x :: t₂ →
      s₁.getLast? = s₂.getLast?) : l₁ = l₂ := by
  have hprefix := prefix_of_getLast?_eq (fun x hx => hperm.mem_iff.mp hx) hnodup
    (hperm.nodup_iff.mp hnodup) hpred l₁ List.prefix_rfl
  exact hprefix.eq_of_length hperm.length_eq

/-- What precedes a member is determined in a list without repetitions. -/
theorem eq_of_append_cons_eq {s s' t t' : List α} (h : s ++ x :: t = s' ++ x :: t')
    (hnodup : (s ++ x :: t).Nodup) : s = s' := by
  have hs : x ∉ s := notMem_of_nodup hnodup
  have ht : x ∉ t := fun hx =>
    (List.nodup_cons.mp (List.nodup_middle.mp hnodup)).1 (List.mem_append_right s hx)
  exact ((List.append_cons_inj_of_notMem hs ht).mp h).1

variable {j : ℕ}

theorem index_unique (hnodup : l.Nodup) (hi : l[i]? = some x) (hj : l[j]? = some x) : i = j := by
  obtain ⟨hlt, -⟩ := List.getElem?_eq_some_iff.mp hi
  exact (List.getElem?_inj hlt hnodup).mp (hi.trans hj.symm)

/-- The members of a list with one more element at its end. -/
theorem getElem?_concat_iff : (l ++ [x])[i]? = some y ↔ l[i]? = some y ∨ i = l.length ∧ x = y := by
  rcases Nat.lt_trichotomy i l.length with hi | rfl | hi
  · rw [List.getElem?_append_left hi]
    simp [Nat.ne_of_lt hi]
  · simp
  · rw [List.getElem?_eq_none (by simp; omega), List.getElem?_eq_none (by omega)]
    simp [Nat.ne_of_gt hi]

/-- One member comes before another. -/
theorem pair_sublist_iff :
    [x, y].Sublist l ↔ ∃ i j : ℕ, i < j ∧ l[i]? = some x ∧ l[j]? = some y := by
  induction l with
  | nil => simp
  | cons z l ih =>
    constructor
    · intro h
      cases h with
      | cons _ h =>
        obtain ⟨i, j, hij, hi, hj⟩ := ih.mp h
        exact ⟨i + 1, j + 1, by omega, by simpa using hi, by simpa using hj⟩
      | cons_cons _ h =>
        obtain ⟨j, hj⟩ := List.mem_iff_getElem?.mp (List.singleton_sublist.mp h)
        exact ⟨0, j + 1, by omega, rfl, by simpa using hj⟩
    · rintro ⟨i, j, hij, hi, hj⟩
      obtain ⟨j, rfl⟩ : ∃ k, j = k + 1 := ⟨j - 1, by omega⟩
      rw [List.getElem?_cons_succ] at hj
      cases i with
      | zero =>
        cases Option.some.inj hi
        exact (List.singleton_sublist.mpr (List.mem_of_getElem? hj)).cons_cons _
      | succ i => exact (ih.mpr ⟨i, j, by omega, by simpa using hi, hj⟩).cons _

/-- In a list without repetitions the order is that of the positions. -/
theorem pair_sublist_iff_lt (hnodup : l.Nodup) (hi : l[i]? = some x) (hj : l[j]? = some y) :
    [x, y].Sublist l ↔ i < j := by
  rw [pair_sublist_iff]
  constructor
  · rintro ⟨i', j', hlt, hi', hj'⟩
    rwa [index_unique hnodup hi hi', index_unique hnodup hj hj']
  · intro hlt
    exact ⟨i, j, hlt, hi, hj⟩

/-- The order of two members is that of their images under a function that keeps the members
of the list apart. -/
theorem pair_sublist_map_iff (hx : ∀ z ∈ l, f z = f x → z = x) (hy : ∀ z ∈ l, f z = f y → z = y) :
    [f x, f y].Sublist (l.map f) ↔ [x, y].Sublist l := by
  refine ⟨?_, fun h => h.map f⟩
  simp only [pair_sublist_iff, List.getElem?_map, Option.map_eq_some_iff]
  rintro ⟨i, j, hij, ⟨x', hi, hx'⟩, ⟨y', hj, hy'⟩⟩
  obtain rfl := hx x' (List.mem_of_getElem? hi) hx'
  obtain rfl := hy y' (List.mem_of_getElem? hj) hy'
  exact ⟨i, j, hij, hi, hj⟩

/-- A function that keeps the members of two lists apart keeps the lists apart. -/
theorem map_eq_map_iff_of_injOn (h : ∀ x ∈ l₁, ∀ y ∈ l₂, f x = f y → x = y) :
    l₁.map f = l₂.map f ↔ l₁ = l₂ := by
  refine ⟨fun heq => ?_, congrArg _⟩
  refine List.ext_getElem? fun i => ?_
  have hi := congrArg (fun l : List β => l[i]?) heq
  simp only [List.getElem?_map] at hi
  cases h₁ : l₁[i]? with
  | none =>
    rw [h₁] at hi
    exact (Option.map_eq_none_iff.mp hi.symm).symm
  | some x =>
    rw [h₁] at hi
    obtain ⟨y, h₂, hy⟩ := Option.map_eq_some_iff.mp hi.symm
    rw [h₂, h x (List.mem_of_getElem? h₁) y (List.mem_of_getElem? h₂) hy.symm]

end Hashgrid.ListOrder
