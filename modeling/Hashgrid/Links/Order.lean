import Hashgrid.Links.Arrivals

/-!
# The order of arrival

When two orders of the same arrivals lead to the same links.
-/

namespace Hashgrid.Links

open Hashgrid.ListOrder

variable {H A : Type}

/-- The hash of the node at a position. -/
def LinkGraph.hashAt (g : LinkGraph H A) (i : ℕ) : Option H := g.nodes[i]?.map Node.hash

/-- The hashes of the linked parents of a node. -/
def LinkGraph.parents (g : LinkGraph H A) (i : ℕ) : Option H × Option H :=
  ((g.selfPt i).bind g.hashAt, (g.anotherPt i).bind g.hashAt)

/-- The hash of every node with the hashes of its linked parents. -/
def LinkGraph.table (g : LinkGraph H A) : List (H × Option H × Option H) :=
  (List.range g.nodes.length).filterMap fun i => (g.hashAt i).map fun h => (h, g.parents i)

variable {x : Arrival H A} {i : ℕ}

section Parents

variable [DecidableEq A] {l : List (Arrival H A)} {g : LinkGraph H A}

theorem Describes.hashAt (h : Describes l g) (i : ℕ) :
    g.hashAt i = l[i]?.map fun x => x.node.hash := by
  rw [LinkGraph.hashAt, h.nodes, List.getElem?_map, Option.map_map]
  rfl

/-- The table has one row for each arrival. -/
theorem Describes.mem_table (h : Describes l g) (row : H × Option H × Option H) :
    row ∈ g.table ↔ ∃ i x, l[i]? = some x ∧ row = (x.node.hash, g.parents i) := by
  unfold LinkGraph.table
  simp only [List.mem_filterMap, List.mem_range, Option.map_eq_some_iff, h.hashAt, h.length]
  constructor
  · rintro ⟨i, -, _, ⟨x, hx, rfl⟩, rfl⟩
    exact ⟨i, x, hx, rfl⟩
  · rintro ⟨i, x, hx, rfl⟩
    exact ⟨i, (List.getElem?_eq_some_iff.mp hx).1, _, ⟨x, hx, rfl⟩, rfl⟩

/-- The self parent of a node. -/
theorem Describes.selfParent (h : Describes l g) (hi : l[i]? = some x) :
    (g.parents i).1 =
      (columnOf (l.take i) x.node.creator).getLast?.map fun y => y.node.hash := by
  have hself := h.selfPt i x hi
  unfold LinkGraph.parents
  generalize (columnOf (l.take i) x.node.creator).getLast? = r at hself ⊢
  cases hpt : g.selfPt i with
  | none =>
    cases r with
    | none => rfl
    | some y => simp [hpt] at hself
  | some j =>
    cases r with
    | none => simp [hpt] at hself
    | some y =>
      have hy : l[j]? = some y := by simpa [hpt] using hself
      rw [Option.bind_some, h.hashAt, hy]

/-- The other parent of a node. -/
theorem Describes.otherParent (h : Describes l g) (hi : l[i]? = some x) (k : H) :
    (g.parents i).2 = some k ↔ x.node.otherRef = k ∧
      ∃ j p, l[j]? = some p ∧ p.node.hash = x.node.otherRef ∧ Joined x p i j := by
  unfold LinkGraph.parents
  simp only [Option.bind_eq_some_iff, h.anotherPt, h.hashAt, hi]
  constructor
  · rintro ⟨j, ⟨y, p, hy, hp, hhash, hjoin⟩, hk⟩
    cases hy
    rw [hp] at hk
    exact ⟨hhash.symm.trans (Option.some.inj hk), j, p, hp, hhash, hjoin⟩
  · rintro ⟨rfl, j, p, hp, hhash, hjoin⟩
    exact ⟨j, ⟨x, p, rfl, hp, hhash, hjoin⟩, by rw [hp, ← hhash]; rfl⟩

end Parents

/-- Two nodes arrive in opposite orders. -/
def Swapped (l₁ l₂ : List (Arrival H A)) (x p : Arrival H A) : Prop :=
  [p, x].Sublist l₁ ∧ [x, p].Sublist l₂ ∨ [x, p].Sublist l₁ ∧ [p, x].Sublist l₂

section Compare

variable [DecidableEq A] {l₁ l₂ : List (Arrival H A)} {g₁ g₂ : LinkGraph H A}

omit [DecidableEq A] in
theorem eq_of_hash_eq (hnodup : (l₁.map fun x => x.node.hash).Nodup) {y : Arrival H A} (hx : x ∈ l₁)
    (hy : y ∈ l₁) (heq : x.node.hash = y.node.hash) : x = y :=
  List.inj_on_of_nodup_map hnodup hx hy heq

theorem columnOf_append_cons (s t : List (Arrival H A)) (x : Arrival H A) :
    columnOf (s ++ x :: t) x.node.creator =
      columnOf s x.node.creator ++ x :: columnOf t x.node.creator := by
  simp [columnOf]

/-- What precedes a node in its column is the column of what precedes it. -/
theorem columnOf_take (hnodup : l₁.Nodup) (hi : l₁[i]? = some x) {s t : List (Arrival H A)}
    (hst : columnOf l₁ x.node.creator = s ++ x :: t) : columnOf (l₁.take i) x.node.creator = s := by
  obtain ⟨hlt, hx⟩ := List.getElem?_eq_some_iff.mp hi
  have hsplit : l₁ = l₁.take i ++ x :: l₁.drop (i + 1) := by
    rw [← hx, ← List.drop_eq_getElem_cons hlt, List.take_append_drop]
  have hcol := columnOf_append_cons (l₁.take i) (l₁.drop (i + 1)) x
  rw [← hsplit] at hcol
  exact eq_of_append_cons_eq (hcol.symm.trans hst) (hcol ▸ hnodup.filter _)

/-- Two orders give every node the same self parent just when every creator's nodes arrive in
the same order. -/
theorem same_selfParent_iff (h₁ : Describes l₁ g₁) (h₂ : Describes l₂ g₂) (hperm : l₁.Perm l₂)
    (hnodup : (l₁.map fun x => x.node.hash).Nodup) :
    (∀ i₁ i₂ x, l₁[i₁]? = some x → l₂[i₂]? = some x → (g₁.parents i₁).1 = (g₂.parents i₂).1) ↔
      ∀ a, columnOf l₁ a = columnOf l₂ a := by
  have hnodup₁ : l₁.Nodup := hnodup.of_map _
  have hnodup₂ : l₂.Nodup := hperm.nodup_iff.mp hnodup₁
  constructor
  · intro hsame a
    refine eq_of_getLast?_eq (hperm.filter _) (hnodup₁.filter _) ?_
    intro s₁ t₁ s₂ t₂ x hs₁ hs₂
    have hmem₁ {y : Arrival H A} (hy : y ∈ s₁ ++ x :: t₁) : y ∈ l₁ :=
      (List.mem_filter.mp (hs₁ ▸ hy : y ∈ columnOf l₁ a)).1
    have hmem₂ {y : Arrival H A} (hy : y ∈ s₂ ++ x :: t₂) : y ∈ l₁ :=
      hperm.mem_iff.mpr (List.mem_filter.mp (hs₂ ▸ hy : y ∈ columnOf l₂ a)).1
    have hx : x ∈ l₁ := hmem₁ (by simp)
    have ha : x ∈ columnOf l₁ a := by
      rw [hs₁]
      simp
    obtain rfl := of_decide_eq_true (List.mem_filter.mp ha).2
    obtain ⟨i₁, hi₁⟩ := List.mem_iff_getElem?.mp hx
    obtain ⟨i₂, hi₂⟩ := List.mem_iff_getElem?.mp (hperm.mem_iff.mp hx)
    have heq := hsame i₁ i₂ x hi₁ hi₂
    rw [h₁.selfParent hi₁, h₂.selfParent hi₂, columnOf_take hnodup₁ hi₁ hs₁,
      columnOf_take hnodup₂ hi₂ hs₂] at heq
    cases hlast₁ : s₁.getLast? with
    | none =>
      rw [hlast₁] at heq
      exact (Option.map_eq_none_iff.mp heq.symm).symm
    | some y₁ =>
      rw [hlast₁] at heq
      obtain ⟨y₂, hlast₂, hhash⟩ := Option.map_eq_some_iff.mp heq.symm
      have hy₁ := hmem₁ (List.mem_append_left _ (List.mem_of_getLast? hlast₁))
      have hy₂ := hmem₂ (List.mem_append_left _ (List.mem_of_getLast? hlast₂))
      rw [hlast₂, eq_of_hash_eq hnodup hy₂ hy₁ hhash]
  · intro hcols i₁ i₂ x hi₁ hi₂
    have hx : x ∈ columnOf l₁ x.node.creator :=
      List.mem_filter.mpr ⟨List.mem_of_getElem? hi₁, by simp⟩
    obtain ⟨s, t, hst⟩ := List.append_of_mem hx
    rw [h₁.selfParent hi₁, h₂.selfParent hi₂, columnOf_take hnodup₁ hi₁ hst,
      columnOf_take hnodup₂ hi₂ ((hcols _).symm.trans hst)]

variable {p : Arrival H A}

omit [DecidableEq A] in
/-- Whether a node is joined to its other parent in both orders. -/
theorem joined_iff_joined {i₁ j₁ i₂ j₂ : ℕ} :
    (Joined x p i₁ j₁ ↔ Joined x p i₂ j₂) ↔
      (¬ (j₁ ≤ i₁ ↔ j₂ ≤ i₂) → (Found x p ↔ Patched x p)) := by
  unfold Joined
  split_ifs <;> tauto

omit [DecidableEq A] in
/-- Two nodes are swapped when their positions compare differently. -/
theorem swapped_iff (hnodup₁ : l₁.Nodup) (hnodup₂ : l₂.Nodup) {i₁ j₁ i₂ j₂ : ℕ}
    (hi₁ : l₁[i₁]? = some x) (hj₁ : l₁[j₁]? = some p) (hi₂ : l₂[i₂]? = some x)
    (hj₂ : l₂[j₂]? = some p) : Swapped l₁ l₂ x p ↔ ¬ (j₁ ≤ i₁ ↔ j₂ ≤ i₂) := by
  have hself : i₁ = j₁ ↔ i₂ = j₂ := by
    constructor
    · rintro rfl
      cases hi₁.symm.trans hj₁
      exact index_unique hnodup₂ hi₂ hj₂
    · rintro rfl
      cases hi₂.symm.trans hj₂
      exact index_unique hnodup₁ hi₁ hj₁
  unfold Swapped
  rw [pair_sublist_iff_lt hnodup₁ hj₁ hi₁, pair_sublist_iff_lt hnodup₂ hi₂ hj₂,
    pair_sublist_iff_lt hnodup₁ hi₁ hj₁, pair_sublist_iff_lt hnodup₂ hj₂ hi₂]
  omega

/-- Two orders give every node the same other parent just when it makes no difference for
swapped nodes whether they are found or patched. -/
theorem same_otherParent_iff (h₁ : Describes l₁ g₁) (h₂ : Describes l₂ g₂) (hperm : l₁.Perm l₂)
    (hnodup : (l₁.map fun x => x.node.hash).Nodup) :
    (∀ i₁ i₂ x, l₁[i₁]? = some x → l₂[i₂]? = some x → (g₁.parents i₁).2 = (g₂.parents i₂).2) ↔
      ∀ x ∈ l₁, ∀ p ∈ l₁, p.node.hash = x.node.otherRef → Swapped l₁ l₂ x p →
        (Found x p ↔ Patched x p) := by
  have hnodup₁ : l₁.Nodup := hnodup.of_map _
  have hnodup₂ : l₂.Nodup := hperm.nodup_iff.mp hnodup₁
  -- The other parent at a known position decides the link.
  have hparent {l : List (Arrival H A)} {g : LinkGraph H A} (h : Describes l g) (hl : l.Perm l₁)
      {i j : ℕ} {x p : Arrival H A} (hi : l[i]? = some x) (hj : l[j]? = some p)
      (hhash : p.node.hash = x.node.otherRef) (k : H) :
      (g.parents i).2 = some k ↔ x.node.otherRef = k ∧ Joined x p i j := by
    rw [h.otherParent hi]
    refine and_congr_right fun _ => ⟨?_, fun hjoin => ⟨j, p, hj, hhash, hjoin⟩⟩
    rintro ⟨j', p', hj', hhash', hjoin⟩
    obtain rfl := eq_of_hash_eq hnodup (hl.mem_iff.mp (List.mem_of_getElem? hj'))
      (hl.mem_iff.mp (List.mem_of_getElem? hj)) (hhash'.trans hhash.symm)
    rwa [index_unique (hl.nodup_iff.mpr hnodup₁) hj hj']
  constructor
  · intro hsame x hx p hp hhash
    obtain ⟨i₁, hi₁⟩ := List.mem_iff_getElem?.mp hx
    obtain ⟨i₂, hi₂⟩ := List.mem_iff_getElem?.mp (hperm.mem_iff.mp hx)
    obtain ⟨j₁, hj₁⟩ := List.mem_iff_getElem?.mp hp
    obtain ⟨j₂, hj₂⟩ := List.mem_iff_getElem?.mp (hperm.mem_iff.mp hp)
    rw [swapped_iff hnodup₁ hnodup₂ hi₁ hj₁ hi₂ hj₂, ← joined_iff_joined]
    have h := hparent h₁ (.refl _) hi₁ hj₁ hhash x.node.otherRef
    rw [hsame i₁ i₂ x hi₁ hi₂, hparent h₂ hperm.symm hi₂ hj₂ hhash] at h
    simpa using h.symm
  · intro hswap i₁ i₂ x hi₁ hi₂
    refine Option.ext fun k => ?_
    by_cases hp : ∃ p ∈ l₁, p.node.hash = x.node.otherRef
    · obtain ⟨p, hp, hhash⟩ := hp
      obtain ⟨j₁, hj₁⟩ := List.mem_iff_getElem?.mp hp
      obtain ⟨j₂, hj₂⟩ := List.mem_iff_getElem?.mp (hperm.mem_iff.mp hp)
      have hx := hswap x (List.mem_of_getElem? hi₁) p hp hhash
      rw [swapped_iff hnodup₁ hnodup₂ hi₁ hj₁ hi₂ hj₂, ← joined_iff_joined] at hx
      rw [hparent h₁ (.refl _) hi₁ hj₁ hhash, hparent h₂ hperm.symm hi₂ hj₂ hhash, hx]
    · rw [h₁.otherParent hi₁, h₂.otherParent hi₂]
      refine and_congr_right fun _ => iff_of_false ?_ ?_
      · rintro ⟨j, p, hj, hhash, -⟩
        exact hp ⟨p, List.mem_of_getElem? hj, hhash⟩
      · rintro ⟨j, p, hj, hhash, -⟩
        exact hp ⟨p, hperm.mem_iff.mpr (List.mem_of_getElem? hj), hhash⟩

/-- Two graphs over the same arrivals have the same rows just when every node has the same
parents in both. -/
theorem same_table_iff_parents (h₁ : Describes l₁ g₁) (h₂ : Describes l₂ g₂) (hperm : l₁.Perm l₂)
    (hnodup : (l₁.map fun x => x.node.hash).Nodup) :
    (∀ row, row ∈ g₁.table ↔ row ∈ g₂.table) ↔
      ∀ i₁ i₂ x, l₁[i₁]? = some x → l₂[i₂]? = some x → g₁.parents i₁ = g₂.parents i₂ := by
  simp only [h₁.mem_table, h₂.mem_table]
  constructor
  · intro hrows i₁ i₂ x hi₁ hi₂
    obtain ⟨j, y, hj, heq⟩ := (hrows (x.node.hash, g₁.parents i₁)).mp ⟨i₁, x, hi₁, rfl⟩
    obtain ⟨hhash, hparents⟩ := Prod.mk.inj heq
    obtain rfl := eq_of_hash_eq hnodup (List.mem_of_getElem? hi₁)
      (hperm.mem_iff.mpr (List.mem_of_getElem? hj)) hhash
    rw [hparents, index_unique (hperm.nodup_iff.mp (hnodup.of_map _)) hi₂ hj]
  · intro hsame row
    constructor
    · rintro ⟨i₁, x, hi₁, rfl⟩
      obtain ⟨i₂, hi₂⟩ := List.mem_iff_getElem?.mp (hperm.mem_iff.mp (List.mem_of_getElem? hi₁))
      exact ⟨i₂, x, hi₂, by rw [hsame i₁ i₂ x hi₁ hi₂]⟩
    · rintro ⟨i₂, x, hi₂, rfl⟩
      obtain ⟨i₁, hi₁⟩ := List.mem_iff_getElem?.mp (hperm.mem_iff.mpr (List.mem_of_getElem? hi₂))
      exact ⟨i₁, x, hi₁, by rw [hsame i₁ i₂ x hi₁ hi₂]⟩

/-- When two orders of the same arrivals lead to the same links. -/
theorem same_table_iff (h₁ : Describes l₁ g₁) (h₂ : Describes l₂ g₂) (hperm : l₁.Perm l₂)
    (hnodup : (l₁.map fun x => x.node.hash).Nodup) :
    (∀ row, row ∈ g₁.table ↔ row ∈ g₂.table) ↔
      (∀ a, columnOf l₁ a = columnOf l₂ a) ∧ ∀ x ∈ l₁, ∀ p ∈ l₁, p.node.hash = x.node.otherRef →
        Swapped l₁ l₂ x p → (Found x p ↔ Patched x p) := by
  rw [same_table_iff_parents h₁ h₂ hperm hnodup, ← same_selfParent_iff h₁ h₂ hperm hnodup,
    ← same_otherParent_iff h₁ h₂ hperm hnodup]
  simp only [Prod.ext_iff]
  constructor
  · intro h
    exact ⟨fun i₁ i₂ x hi₁ hi₂ => (h i₁ i₂ x hi₁ hi₂).1,
      fun i₁ i₂ x hi₁ hi₂ => (h i₁ i₂ x hi₁ hi₂).2⟩
  · rintro ⟨hself, hother⟩ i₁ i₂ x hi₁ hi₂
    exact ⟨hself i₁ i₂ x hi₁ hi₂, hother i₁ i₂ x hi₁ hi₂⟩

end Compare

end Hashgrid.Links
