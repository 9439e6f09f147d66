import Mathlib.Data.List.Sort
import Mathlib.Logic.Equiv.Basic

/-!
# Sorting by a key

All that is known of the result of an unstable sort is that it is a permutation in which
no member has a smaller key than one before it. The result is determined just when the
members have different keys.
-/

namespace Hashgrid.Sorting

variable {α κ : Type} [LinearOrder κ] {key : α → κ}

/-- The second list is a result of sorting the first one. -/
structure Sorts (key : α → κ) (l l' : List α) : Prop where
  /-- The members are the same. -/
  perm : l'.Perm l
  /-- No member has a smaller key than one before it. -/
  ordered : l'.Pairwise fun a b => ¬ key b < key a

/-- Every list can be sorted. -/
theorem exists_sorts (key : α → κ) (l : List α) : ∃ l', Sorts key l l' := by
  refine ⟨l.mergeSort fun a b => key a ≤ key b, List.mergeSort_perm .., ?_⟩
  have hordered : (l.mergeSort fun a b => key a ≤ key b).Pairwise
      fun a b => decide (key a ≤ key b) = true := by
    refine List.pairwise_mergeSort (fun a b c hab hbc => ?_) (fun a b => ?_) l
    · simpa using (of_decide_eq_true hab).trans (of_decide_eq_true hbc)
    · simpa using le_total (key a) (key b)
  exact hordered.imp fun h => not_lt.mpr (of_decide_eq_true h)

variable {l : List α}

/-- Members with different keys are sorted in one way. -/
theorem Sorts.unique {l₁ l₂ : List α} (h₁ : Sorts key l l₁) (h₂ : Sorts key l l₂)
    (hkey : ∀ a ∈ l, ∀ b ∈ l, key a = key b → a = b) : l₁ = l₂ := by
  refine List.Perm.eq_of_pairwise (fun a b ha hb hab hba => ?_) h₁.ordered h₂.ordered
    (h₁.perm.trans h₂.perm.symm)
  refine hkey a (h₁.perm.mem_iff.mp ha) b (h₂.perm.mem_iff.mp hb) (le_antisymm ?_ ?_)
  · exact not_lt.mp hab
  · exact not_lt.mp hba

/-- Two members with the same key can be exchanged. -/
theorem Sorts.swap [DecidableEq α] {l' : List α} (h : Sorts key l l') (hnodup : l.Nodup) {a b : α}
    (ha : a ∈ l) (hb : b ∈ l) (hkey : key a = key b) : Sorts key l (l'.map (Equiv.swap a b)) := by
  constructor
  · refine (List.perm_ext_iff_of_nodup ?_ hnodup).mpr fun x => ?_
    · exact (h.perm.nodup_iff.mpr hnodup).map (Equiv.injective _)
    · rw [List.mem_map_of_involutive (Equiv.swap_apply_self a b), h.perm.mem_iff,
        Equiv.swap_apply_def]
      split_ifs with hxa hxb
      · exact iff_of_true hb (hxa ▸ ha)
      · exact iff_of_true ha (hxb ▸ hb)
      · rfl
  · rw [List.pairwise_map]
    simpa only [Equiv.apply_swap_eq_self hkey] using h.ordered

/-- The result of sorting is determined just when the members have different keys. -/
theorem sorts_unique_iff (hnodup : l.Nodup) :
    (∀ l₁ l₂, Sorts key l l₁ → Sorts key l l₂ → l₁ = l₂) ↔
      ∀ a ∈ l, ∀ b ∈ l, key a = key b → a = b := by
  refine ⟨fun hunique a ha b hb hkey => ?_, fun hkey l₁ l₂ h₁ h₂ => h₁.unique h₂ hkey⟩
  classical
  obtain ⟨l', h⟩ := exists_sorts key l
  have hsame : l'.map (Equiv.swap a b) = l'.map id := by
    rw [List.map_id]
    exact hunique _ _ (h.swap hnodup ha hb hkey) h
  have hfix := List.map_inj_left.mp hsame a (h.perm.mem_iff.mpr ha)
  rw [Equiv.swap_apply_left] at hfix
  exact hfix.symm

end Hashgrid.Sorting
