import Mathlib.Data.Finset.Card

/-!
# Quorum intersection

Any two sets of at least `q` out of `n` members meet exactly when `n < 2 * q`.
-/

namespace Hashgrid.Quorum

variable {α : Type} [DecidableEq α]

/-- Any two subsets with at least `q` members have a member in common. -/
def Intersecting (members : Finset α) (q : ℕ) : Prop :=
  ∀ S ⊆ members, ∀ T ⊆ members, q ≤ S.card → q ≤ T.card → (S ∩ T).Nonempty

variable {members : Finset α} {q : ℕ}

/-- Two disjoint quorums exist as soon as the members can be split between them. -/
theorem exists_disjoint (h : 2 * q ≤ members.card) :
    ∃ S ⊆ members, ∃ T ⊆ members, S.card = q ∧ T.card = q ∧ Disjoint S T := by
  obtain ⟨S, hS, hcard⟩ := Finset.exists_subset_card_eq (show q ≤ members.card by omega)
  have hrest : q ≤ (members \ S).card := by
    rw [Finset.card_sdiff_of_subset hS, hcard]
    omega
  obtain ⟨T, hT, hcardT⟩ := Finset.exists_subset_card_eq hrest
  refine ⟨S, hS, T, hT.trans Finset.sdiff_subset, hcard, hcardT, ?_⟩
  exact Finset.disjoint_of_subset_right hT Finset.disjoint_sdiff

/-- Quorums meet exactly when two of them outnumber the members. -/
theorem intersecting_iff : Intersecting members q ↔ members.card < 2 * q := by
  constructor
  · intro h
    by_contra hle
    obtain ⟨S, hS, T, hT, hcardS, hcardT, hdisjoint⟩ := exists_disjoint (not_lt.mp hle)
    have hmeet := h S hS T hT hcardS.ge hcardT.ge
    rw [Finset.disjoint_iff_inter_eq_empty.mp hdisjoint] at hmeet
    exact Finset.not_nonempty_empty hmeet
  · intro hlt S hS T hT hcardS hcardT
    exact Finset.inter_nonempty_of_card_lt_card_add_card hS hT (by omega)

end Hashgrid.Quorum
