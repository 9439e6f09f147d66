import Hashgrid.Rlp.TypeCache

/-!
# Complete entries of the type cache

A type that is used while it is generated is on a cycle. If no type on a cycle leads to an
unsupported type, then its generation will succeed, so whoever has got its placeholder ends
up with a complete type info. Otherwise the placeholder may stay empty for ever.
-/

namespace Hashgrid.Rlp.TypeCache

variable {T : Type}

/-- All requests for a type. -/
def TypeSystem.requests (sys : TypeSystem T) (key : Key T) : List (Request T) :=
  (sys.decoder key.1).requests ++ (sys.writer key.1).requests

/-- The first type needs the second. -/
def Uses (sys : TypeSystem T) (a b : Key T) : Prop := .look b ∈ sys.requests a

/-- The type leads to no error. -/
def Generable (sys : TypeSystem T) (a : Key T) : Prop :=
  ∀ b, Relation.ReflTransGen (Uses sys) a b → .fail ∉ sys.requests b

/-- No type on a cycle that the type leads to leads to an error. -/
def Tame (sys : TypeSystem T) (a : Key T) : Prop :=
  ∀ b, Relation.ReflTransGen (Uses sys) a b → Relation.TransGen (Uses sys) b b → Generable sys b

variable {sys : TypeSystem T} {a b : Key T}

theorem Generable.uses (h : Generable sys a) (hab : Uses sys a b) : Generable sys b :=
  fun c hc => h c (.head hab hc)

/-- A type is generable when its own requests do not fail and all that it uses is generable. -/
theorem generable_of_uses (hfail : .fail ∉ sys.requests a)
    (huses : ∀ b, Uses sys a b → Generable sys b) : Generable sys a := by
  intro c hc
  rcases Relation.ReflTransGen.cases_head hc with rfl | ⟨b, hab, hbc⟩
  · exact hfail
  · exact huses b hab c hbc

theorem Generable.requests (h : Generable sys a) {requests : List (Request T)}
    (hsub : requests ⊆ sys.requests a) :
    .fail ∉ requests ∧ ∀ k, .look k ∈ requests → Generable sys k :=
  ⟨fun hfail => h a .refl (hsub hfail), fun _ hk => h.uses (hsub hk)⟩

theorem Tame.uses (h : Tame sys a) (hab : Uses sys a b) : Tame sys b :=
  fun c hc => h c (.head hab hc)

variable {s s' s'' : Cache T} {key : Key T}

/-- The later cache has all entries and type infos of the earlier one. -/
structure Extends (s s' : Cache T) : Prop where
  /-- The entries stay. -/
  entries : ∀ {k r}, s.entries k = some r → s'.entries k = some r
  /-- No type info is removed. -/
  length_le : s.heap.length ≤ s'.heap.length
  /-- The type infos stay. -/
  heap : ∀ {r}, r < s.heap.length → s'.heap[r]? = s.heap[r]?

theorem Extends.refl (s : Cache T) : Extends s s := ⟨id, le_refl _, fun _ => rfl⟩

theorem Extends.trans (h : Extends s s') (h' : Extends s' s'') : Extends s s'' :=
  ⟨fun hk => h'.entries (h.entries hk), h.length_le.trans h'.length_le,
    fun hr => (h'.heap (lt_of_lt_of_le hr h.length_le)).trans (h.heap hr)⟩

variable {r : ℕ} {look : Key T → Cache T → Outcome T ℕ}

/-- Filling a type info that is new. -/
theorem Extends.fill (h : Extends s s') (hr : s.heap.length ≤ r) (info : TypeInfo) :
    Extends s (s'.fill r info) := by
  refine ⟨h.entries, by simpa [Cache.fill] using h.length_le, fun {i} hi => ?_⟩
  rw [← h.heap hi]
  exact List.getElem?_set_ne (by omega)

/-- The type info of the type is generated, and it refers to the type infos of types that the type
uses. -/
def Filled (sys : TypeSystem T) (s : Cache T) (k : Key T) (r : ℕ) : Prop :=
  ∃ ds ws, s.heap[r]? = some ⟨some ds, some ws⟩ ∧
    ∀ d ∈ ds ++ ws, ∃ k', Uses sys k k' ∧ s.entries k' = some d

/-- The cache while the types in `busy` are generated. -/
structure Sound (sys : TypeSystem T) (busy : List (Key T)) (s : Cache T) : Prop where
  /-- The entries point to type infos. -/
  valid : ∀ {k r}, s.entries k = some r → r < s.heap.length
  /-- No two types share a type info. -/
  inj : ∀ {k k' r}, s.entries k = some r → s.entries k' = some r → k = k'
  /-- The types that are generated have a placeholder. -/
  placed : ∀ k ∈ busy, s.entries k ≠ none
  /-- All other types in the cache are generable. -/
  generable : ∀ {k r}, s.entries k = some r → k ∉ busy → Generable sys k
  /-- All other type infos in the cache are generated. -/
  filled : ∀ {k r}, s.entries k = some r → k ∉ busy → Filled sys s k r

variable {busy : List (Key T)}

theorem sound_empty : Sound sys [] (Cache.empty : Cache T) :=
  ⟨fun h => (nomatch h), fun h => (nomatch h), fun _ h => (nomatch h), fun h => (nomatch h),
    fun h => (nomatch h)⟩

/-- The lookups of a generation extend the cache if each of them does. -/
theorem extends_generate (hlook : ∀ {key s res s'}, look key s = some (res, s') → Extends s s')
    {requests : List (Request T)} {res : Option (List ℕ)}
    (h : generate look requests s = some (res, s')) : Extends s s' := by
  induction requests generalizing s res with
  | nil =>
    obtain ⟨-, rfl⟩ := Prod.mk.inj (Option.some.inj h)
    exact .refl s
  | cons request requests ih =>
    cases request with
    | fail =>
      obtain ⟨-, rfl⟩ := Prod.mk.inj (Option.some.inj h)
      exact .refl s
    | look key =>
      rw [generate] at h
      split at h
      · cases h
      · next heq =>
        obtain ⟨-, rfl⟩ := Prod.mk.inj (Option.some.inj h)
        exact hlook heq
      · next s₁ heq =>
        refine (hlook heq).trans ?_
        split at h
        · cases h
        · next hrest =>
          obtain ⟨-, rfl⟩ := Prod.mk.inj (Option.some.inj h)
          exact ih hrest
        · next hrest =>
          obtain ⟨-, rfl⟩ := Prod.mk.inj (Option.some.inj h)
          exact ih hrest

/-- What a lookup that returns leaves behind: a sound cache, and the type in it if it is
generable. -/
structure Looked (sys : TypeSystem T) (busy : List (Key T)) (key : Key T) (res : Option ℕ)
    (s' : Cache T) : Prop where
  /-- The cache is sound. -/
  sound : Sound sys busy s'
  /-- The lookup succeeds exactly for generable types. -/
  isSome_iff : res.isSome = true ↔ Generable sys key
  /-- The result is the entry of the type. -/
  entry : ∀ r, res = some r → s'.entries key = some r

/-- What the lookups of a generation leave behind. -/
theorem generate_sound {requests : List (Request T)}
    (hext : ∀ {k s res s'}, look k s = some (res, s') → Extends s s')
    (hlook : ∀ {k s res s'}, .look k ∈ requests → Sound sys busy s → look k s = some (res, s') →
      Looked sys busy k res s') (hs : Sound sys busy s) {res : Option (List ℕ)}
    (h : generate look requests s = some (res, s')) :
    Sound sys busy s' ∧
      (res.isSome = true ↔ .fail ∉ requests ∧ ∀ k, .look k ∈ requests → Generable sys k) ∧
      ∀ rs, res = some rs → ∀ r ∈ rs, ∃ k, .look k ∈ requests ∧ s'.entries k = some r := by
  induction requests generalizing s res s' with
  | nil =>
    obtain ⟨rfl, rfl⟩ := Prod.mk.inj (Option.some.inj h)
    refine ⟨hs, by simp, fun rs hrs r hr => ?_⟩
    cases hrs
    exact nomatch hr
  | cons request requests ih =>
    cases request with
    | fail =>
      obtain ⟨rfl, rfl⟩ := Prod.mk.inj (Option.some.inj h)
      exact ⟨hs, by simp, fun rs hrs => nomatch hrs⟩
    | look key =>
      rw [generate] at h
      split at h
      · cases h
      · next heq =>
        obtain ⟨rfl, rfl⟩ := Prod.mk.inj (Option.some.inj h)
        have hlooked := hlook List.mem_cons_self hs heq
        refine ⟨hlooked.sound, ?_, fun rs hrs => nomatch hrs⟩
        refine iff_of_false (by simp) fun hall => ?_
        have := hlooked.isSome_iff.mpr (hall.2 key List.mem_cons_self)
        cases this
      · next r s₁ heq =>
        have hlooked := hlook List.mem_cons_self hs heq
        have hkey : Generable sys key := hlooked.isSome_iff.mp rfl
        have hrest {res' : Option (List ℕ)} {s₂ : Cache T}
            (hgen : generate look requests s₁ = some (res', s₂)) :=
          ih (fun hmem => hlook (List.mem_cons_of_mem _ hmem)) hlooked.sound hgen
        split at h
        · cases h
        · next heq' =>
          obtain ⟨rfl, rfl⟩ := Prod.mk.inj (Option.some.inj h)
          obtain ⟨hsound, hiff, -⟩ := hrest heq'
          refine ⟨hsound, iff_of_false (by simp) fun hall => ?_, fun rs hrs => nomatch hrs⟩
          have := hiff.mpr ⟨fun hmem => hall.1 (List.mem_cons_of_mem _ hmem),
            fun k hk => hall.2 k (List.mem_cons_of_mem _ hk)⟩
          cases this
        · next rs s₂ heq' =>
          obtain ⟨rfl, rfl⟩ := Prod.mk.inj (Option.some.inj h)
          obtain ⟨hsound, hiff, hrefs⟩ := hrest heq'
          obtain ⟨hfail, hall⟩ := hiff.mp rfl
          refine ⟨hsound, iff_of_true rfl ⟨by simpa using hfail, fun k hk => ?_⟩,
            fun rs' hrs r' hr' => ?_⟩
          · rcases List.mem_cons.mp hk with heqk | hk
            · exact Request.look.inj heqk ▸ hkey
            · exact hall k hk
          · obtain rfl : r :: rs = rs' := Option.some.inj hrs
            rcases List.mem_cons.mp hr' with rfl | hr'
            · have hentry := (extends_generate hext heq').entries (hlooked.entry _ rfl)
              exact ⟨key, List.mem_cons_self, hentry⟩
            · obtain ⟨k, hk, hentry⟩ := hrefs rs rfl r' hr'
              exact ⟨k, List.mem_cons_of_mem _ hk, hentry⟩

/-- The types of a finite set that are not cached. -/
def uncached (U : Finset (Key T)) (s : Cache T) : Finset (Key T) :=
  U.filter fun k => s.entries k = none

/-- What is cached stays cached. -/
theorem Extends.uncached_subset (h : Extends s s') (U : Finset (Key T)) :
    uncached U s' ⊆ uncached U s := by
  intro k hk
  obtain ⟨hmem, hnone⟩ := Finset.mem_filter.mp hk
  refine Finset.mem_filter.mpr ⟨hmem, ?_⟩
  by_contra hne
  obtain ⟨r, hr⟩ := Option.ne_none_iff_exists'.mp hne
  rw [h.entries hr] at hnone
  cases hnone

/-- The lookups of a generation return if each of them does. -/
theorem generate_returns {requests : List (Request T)}
    (hext : ∀ {k s res s'}, look k s = some (res, s') → Extends s s')
    (hlook : ∀ k s', .look k ∈ requests → Extends s s' → ∃ res s'', look k s' = some (res, s'')) :
    ∃ res s', generate look requests s = some (res, s') := by
  induction requests generalizing s with
  | nil => exact ⟨_, _, rfl⟩
  | cons request requests ih =>
    cases request with
    | fail => exact ⟨_, _, rfl⟩
    | look key =>
      obtain ⟨res, s₁, hres⟩ := hlook key s List.mem_cons_self (.refl s)
      rw [generate, hres]
      cases res with
      | none => exact ⟨_, _, rfl⟩
      | some r =>
        obtain ⟨res', s₂, hrest⟩ := ih (s := s₁) fun k s' hk hs' =>
          hlook k s' (List.mem_cons_of_mem _ hk) ((hext hres).trans hs')
        dsimp only
        rw [hrest]
        cases res' <;> exact ⟨_, _, rfl⟩

/-- The type info refers to another one. -/
def Refers (s : Cache T) (r r' : ℕ) : Prop :=
  ∃ info, s.heap[r]? = some info ∧ r' ∈ info.decoder.getD [] ++ info.writer.getD []

/-- The decoder and the writer of the type info, and those of all type infos that they refer to,
are generated. -/
def Complete (s : Cache T) (r : ℕ) : Prop :=
  ∀ r', Relation.ReflTransGen (Refers s) r r' →
    ∃ ds ws, s.heap[r']? = some ⟨some ds, some ws⟩

/-- Between two lookups all entries are complete. -/
theorem Sound.complete (h : Sound sys [] s) (hr : s.entries key = some r) : Complete s r := by
  intro r' hreach
  -- every type info that is reached is the one of a cached type
  have hcached : ∃ k, s.entries k = some r' := by
    induction hreach with
    | refl => exact ⟨key, hr⟩
    | tail _ hrefers ih =>
      obtain ⟨k, hk⟩ := ih
      obtain ⟨ds, ws, hinfo, hrefs⟩ := h.filled hk (List.not_mem_nil)
      obtain ⟨info, hinfo', hmem⟩ := hrefers
      obtain rfl := Option.some.inj (hinfo.symm.trans hinfo')
      obtain ⟨k', -, hk'⟩ := hrefs _ hmem
      exact ⟨k', hk'⟩
  obtain ⟨k, hk⟩ := hcached
  obtain ⟨ds, ws, hinfo, -⟩ := h.filled hk (List.not_mem_nil)
  exact ⟨ds, ws, hinfo⟩

section Decidable

variable [DecidableEq T]

theorem entries_place (s : Cache T) (key : Key T) :
    (s.place key).entries key = some s.heap.length := Function.update_self ..

variable {k : Key T} {fuel : ℕ} {res : Option ℕ} {U : Finset (Key T)}

theorem entries_place_of_ne (h : k ≠ key) :
    (s.place key).entries k = s.entries k := Function.update_of_ne h ..

theorem entries_delete (s : Cache T) (key : Key T) :
    (s.delete key).entries key = none := Function.update_self ..

theorem entries_delete_of_ne (h : k ≠ key) :
    (s.delete key).entries k = s.entries k := Function.update_of_ne h ..

/-- A new placeholder. -/
theorem extends_place (hkey : s.entries key = none) : Extends s (s.place key) := by
  refine ⟨fun {k r} hk => ?_, by simp [Cache.place], fun hr => ?_⟩
  · have hne : k ≠ key := fun h => by rw [h, hkey] at hk; cases hk
    rwa [entries_place_of_ne hne]
  · exact List.getElem?_append_left hr

/-- Removing an entry that is new. -/
theorem Extends.delete (h : Extends s s') (hkey : s.entries key = none) :
    Extends s (s'.delete key) := by
  refine ⟨fun {k r} hk => ?_, h.length_le, h.heap⟩
  have hne : k ≠ key := fun h => by rw [h, hkey] at hk; cases hk
  exact (entries_delete_of_ne hne).trans (h.entries hk)

/-- What `cachedTypeInfo1` does when it returns: the type is cached, or one of the two generations
fails, or both succeed. -/
theorem cachedTypeInfo1_cases (h : cachedTypeInfo1 sys (fuel + 1) key s = some (res, s')) :
    (s.entries key = res ∧ res ≠ none ∧ s' = s) ∨ s.entries key = none ∧
      ((∃ s₁, generate (cachedTypeInfo1 sys fuel) (sys.decoder key.1).requests (s.place key) =
          some (none, s₁) ∧ res = none ∧ s' = s₁.delete key) ∨
        ∃ ds s₁, generate (cachedTypeInfo1 sys fuel) (sys.decoder key.1).requests (s.place key) =
          some (some ds, s₁) ∧
          ((∃ s₂, generate (cachedTypeInfo1 sys fuel) (sys.writer key.1).requests s₁ =
              some (none, s₂) ∧ res = none ∧ s' = s₂.delete key) ∨
            ∃ ws s₂ r, generate (cachedTypeInfo1 sys fuel) (sys.writer key.1).requests s₁ =
              some (some ws, s₂) ∧ s₂.entries key = some r ∧ res = some r ∧
              s' = s₂.fill r ⟨some ds, some ws⟩)) := by
  rw [cachedTypeInfo1] at h
  split at h
  · next hr =>
    obtain ⟨rfl, rfl⟩ := Prod.mk.inj (Option.some.inj h)
    exact .inl ⟨hr, by simp, rfl⟩
  · next hnone =>
    refine .inr ⟨hnone, ?_⟩
    split at h
    · cases h
    · next s₁ hdec =>
      obtain ⟨rfl, rfl⟩ := Prod.mk.inj (Option.some.inj h)
      exact .inl ⟨s₁, hdec, rfl, rfl⟩
    · next ds s₁ hdec =>
      refine .inr ⟨ds, s₁, hdec, ?_⟩
      split at h
      · cases h
      · next s₂ hwr =>
        obtain ⟨rfl, rfl⟩ := Prod.mk.inj (Option.some.inj h)
        exact .inl ⟨s₂, hwr, rfl, rfl⟩
      · next ws s₂ hwr =>
        split at h
        · cases h
        · next r hr =>
          obtain ⟨rfl, rfl⟩ := Prod.mk.inj (Option.some.inj h)
          exact .inr ⟨ws, s₂, r, hwr, hr, rfl, rfl⟩

/-- A lookup keeps all entries and type infos. -/
theorem extends_cachedTypeInfo1 (h : cachedTypeInfo1 sys fuel key s = some (res, s')) :
    Extends s s' := by
  induction fuel generalizing key s s' res with
  | zero => cases h
  | succ fuel ih =>
    rcases cachedTypeInfo1_cases h with ⟨-, -, rfl⟩ | ⟨hnone, hgen⟩
    · exact .refl _
    · have hplace := extends_place hnone
      rcases hgen with ⟨s₁, hdec, -, rfl⟩ | ⟨ds, s₁, hdec, hwr⟩
      · exact (hplace.trans (extends_generate ih hdec)).delete hnone
      · have hs₁ := extends_generate ih hdec
        rcases hwr with ⟨s₂, hwr, -, rfl⟩ | ⟨ws, s₂, r, hwr, hr, -, rfl⟩
        · exact (hplace.trans (hs₁.trans (extends_generate ih hwr))).delete hnone
        · have hs₂ := hs₁.trans (extends_generate ih hwr)
          have hown : s₂.entries key = some s.heap.length := hs₂.entries (entries_place s key)
          obtain rfl : s.heap.length = r := Option.some.inj (hown.symm.trans hr)
          exact (hplace.trans hs₂).fill (le_refl _) _

/-- Placing a placeholder. -/
theorem Sound.place (h : Sound sys busy s) (hkey : s.entries key = none) :
    Sound sys (key :: busy) (s.place key) := by
  have hext := extends_place hkey
  have hold {k : Key T} {r : ℕ} (hk : (s.place key).entries k = some r) (hne : k ≠ key) :
      s.entries k = some r := (entries_place_of_ne hne).symm.trans hk
  have hnew {r : ℕ} (hk : (s.place key).entries key = some r) : r = s.heap.length :=
    Option.some.inj (hk.symm.trans (entries_place s key))
  have hlen : (s.place key).heap.length = s.heap.length + 1 := by simp [Cache.place]
  refine ⟨fun {k r} hk => ?_, fun {k k' r} hk hk' => ?_, fun k hk => ?_, fun {k r} hk hbusy => ?_,
    fun {k r} hk hbusy => ?_⟩
  · by_cases hne : k = key
    · rw [hne] at hk
      rw [hnew hk]
      omega
    · have := h.valid (hold hk hne)
      omega
  · by_cases hne : k = key <;> by_cases hne' : k' = key
    · rw [hne, hne']
    · rw [hne] at hk
      have := h.valid (hold hk' hne')
      rw [hnew hk] at this
      omega
    · rw [hne'] at hk'
      have := h.valid (hold hk hne)
      rw [hnew hk'] at this
      omega
    · exact h.inj (hold hk hne) (hold hk' hne')
  · rcases List.mem_cons.mp hk with rfl | hk
    · rw [entries_place]
      simp
    · obtain ⟨r, hr⟩ := Option.ne_none_iff_exists'.mp (h.placed k hk)
      rw [hext.entries hr]
      simp
  · exact h.generable (hold hk (List.ne_of_not_mem_cons hbusy)) (List.not_mem_of_not_mem_cons hbusy)
  · have hne := List.ne_of_not_mem_cons hbusy
    have hbusy := List.not_mem_of_not_mem_cons hbusy
    obtain ⟨ds, ws, hinfo, hrefs⟩ := h.filled (hold hk hne) hbusy
    refine ⟨ds, ws, (hext.heap (h.valid (hold hk hne))).trans hinfo, fun d hd => ?_⟩
    obtain ⟨k', huses, hk'⟩ := hrefs d hd
    exact ⟨k', huses, hext.entries hk'⟩

/-- Removing the placeholder of a type that is not generable. No generated type info refers to
it. -/
theorem Sound.delete (h : Sound sys (key :: busy) s) (hbusy : key ∉ busy)
    (hkey : ¬ Generable sys key) : Sound sys busy (s.delete key) := by
  have hold {k : Key T} {r : ℕ} (hk : (s.delete key).entries k = some r) :
      k ≠ key ∧ s.entries k = some r := by
    by_cases hne : k = key
    · rw [hne, entries_delete] at hk
      cases hk
    · exact ⟨hne, (entries_delete_of_ne hne).symm.trans hk⟩
  refine ⟨fun hk => h.valid (hold hk).2, fun hk hk' => h.inj (hold hk).2 (hold hk').2,
    fun k hk => ?_, fun {k r} hk hkbusy => ?_, fun {k r} hk hkbusy => ?_⟩
  · have hne : k ≠ key := fun heq => hbusy (heq ▸ hk)
    rw [entries_delete_of_ne hne]
    exact h.placed k (List.mem_cons_of_mem key hk)
  · exact h.generable (hold hk).2 (List.not_mem_cons_of_ne_of_not_mem (hold hk).1 hkbusy)
  · have hk' : k ∉ key :: busy :=
      List.not_mem_cons_of_ne_of_not_mem (hold hk).1 hkbusy
    obtain ⟨ds, ws, hinfo, hrefs⟩ := h.filled (hold hk).2 hk'
    refine ⟨ds, ws, hinfo, fun d hd => ?_⟩
    obtain ⟨k', huses, hd'⟩ := hrefs d hd
    have hne : k' ≠ key := fun heq => hkey (heq ▸ (h.generable (hold hk).2 hk').uses huses)
    exact ⟨k', huses, (entries_delete_of_ne hne).trans hd'⟩

/-- Filling the placeholder of a type. -/
theorem Sound.fill (h : Sound sys (key :: busy) s) (hr : s.entries key = some r)
    (hkey : Generable sys key) {ds ws : List ℕ}
    (hrefs : ∀ d ∈ ds ++ ws, ∃ k', Uses sys key k' ∧ s.entries k' = some d) :
    Sound sys busy (s.fill r ⟨some ds, some ws⟩) := by
  refine ⟨fun hk => ?_, h.inj, fun k hk => h.placed k (List.mem_cons_of_mem key hk),
    fun {k r'} hk hkbusy => ?_, fun {k r'} hk hkbusy => ?_⟩
  · simpa [Cache.fill] using h.valid hk
  · by_cases hne : k = key
    · exact hne ▸ hkey
    · exact h.generable hk (List.not_mem_cons_of_ne_of_not_mem hne hkbusy)
  · by_cases hne : k = key
    · subst hne
      obtain rfl : r = r' := Option.some.inj (hr.symm.trans hk)
      exact ⟨ds, ws, List.getElem?_set_self (h.valid hr), hrefs⟩
    · obtain ⟨ds', ws', hinfo, hrefs'⟩ :=
        h.filled hk (List.not_mem_cons_of_ne_of_not_mem hne hkbusy)
      have hcell : r ≠ r' := fun heq => hne (h.inj hk (heq ▸ hr))
      exact ⟨ds', ws', (List.getElem?_set_ne hcell).trans hinfo, hrefs'⟩

/-- A lookup leaves a sound cache behind, and succeeds exactly for generable types. -/
theorem cachedTypeInfo1_sound (hs : Sound sys busy s)
    (hbusy : ∀ a ∈ busy, Relation.TransGen (Uses sys) a key) (htame : Tame sys key)
    (h : cachedTypeInfo1 sys fuel key s = some (res, s')) : Looked sys busy key res s' := by
  induction fuel generalizing busy key s s' res with
  | zero => cases h
  | succ fuel ih =>
    rcases cachedTypeInfo1_cases h with ⟨hentry, hne, rfl⟩ | ⟨hnone, hgen⟩
    · -- a type that is found is either finished or on a cycle
      obtain ⟨r, rfl⟩ := Option.ne_none_iff_exists'.mp hne
      refine ⟨hs, iff_of_true rfl ?_, fun r' hr' => hr' ▸ hentry⟩
      by_cases hmem : key ∈ busy
      · exact htame key .refl (hbusy key hmem)
      · exact hs.generable hentry hmem
    · have hkey : key ∉ busy := fun hmem => hs.placed key hmem hnone
      have hplace := hs.place hnone
      have hlook {requests : List (Request T)} (hsub : requests ⊆ sys.requests key) {k : Key T}
          {s₁ s₂ : Cache T} {res : Option ℕ} (hk : .look k ∈ requests)
          (hs₁ : Sound sys (key :: busy) s₁)
          (hres : cachedTypeInfo1 sys fuel k s₁ = some (res, s₂)) :
          Looked sys (key :: busy) k res s₂ := by
        have huses : Uses sys key k := hsub hk
        refine ih hs₁ (fun a ha => ?_) (htame.uses huses) hres
        rcases List.mem_cons.mp ha with rfl | ha
        · exact .single huses
        · exact (hbusy a ha).tail huses
      have hdecsub : (sys.decoder key.1).requests ⊆ sys.requests key :=
        fun q hq => List.mem_append_left _ hq
      have hwrsub : (sys.writer key.1).requests ⊆ sys.requests key :=
        fun q hq => List.mem_append_right _ hq
      rcases hgen with ⟨s₁, hdec, rfl, rfl⟩ | ⟨ds, s₁, hdec, hwr⟩
      · obtain ⟨hsound, hiff, -⟩ :=
          generate_sound extends_cachedTypeInfo1 (hlook hdecsub) hplace hdec
        have hbad : ¬ Generable sys key := fun hg =>
          nomatch hiff.mpr (hg.requests hdecsub)
        exact ⟨hsound.delete hkey hbad, iff_of_false (by simp) hbad, fun r hr => nomatch hr⟩
      · obtain ⟨hsound₁, hiff₁, hrefs₁⟩ :=
          generate_sound extends_cachedTypeInfo1 (hlook hdecsub) hplace hdec
        rcases hwr with ⟨s₂, hwr, rfl, rfl⟩ | ⟨ws, s₂, r, hwr, hr, rfl, rfl⟩
        · obtain ⟨hsound, hiff, -⟩ :=
            generate_sound extends_cachedTypeInfo1 (hlook hwrsub) hsound₁ hwr
          have hbad : ¬ Generable sys key := fun hg =>
            nomatch hiff.mpr (hg.requests hwrsub)
          exact ⟨hsound.delete hkey hbad, iff_of_false (by simp) hbad, fun r hr => nomatch hr⟩
        · obtain ⟨hsound₂, hiff₂, hrefs₂⟩ :=
            generate_sound extends_cachedTypeInfo1 (hlook hwrsub) hsound₁ hwr
          obtain ⟨hfail₁, hall₁⟩ := hiff₁.mp rfl
          obtain ⟨hfail₂, hall₂⟩ := hiff₂.mp rfl
          have hgood : Generable sys key := generable_of_uses
            (fun hfail => (List.mem_append.mp hfail).elim hfail₁ hfail₂)
            fun b hb => (List.mem_append.mp hb).elim (hall₁ b) (hall₂ b)
          refine ⟨hsound₂.fill hr hgood fun d hd => ?_, iff_of_true rfl hgood,
            fun r' hr' => hr' ▸ hr⟩
          rcases List.mem_append.mp hd with hd | hd
          · obtain ⟨k, hk, hentry⟩ := hrefs₁ ds rfl d hd
            exact ⟨k, hdecsub hk, (extends_generate extends_cachedTypeInfo1 hwr).entries hentry⟩
          · obtain ⟨k, hk, hentry⟩ := hrefs₂ ws rfl d hd
            exact ⟨k, hwrsub hk, hentry⟩

/-- A lookup returns if it may nest as deep as there are types left to be cached. -/
theorem cachedTypeInfo1_returns (hclosed : ∀ a ∈ U, ∀ b, Uses sys a b → b ∈ U) (hkey : key ∈ U)
    (hfuel : (uncached U s).card < fuel) :
    ∃ res s', cachedTypeInfo1 sys fuel key s = some (res, s') := by
  induction fuel generalizing key s with
  | zero => omega
  | succ fuel ih =>
    rw [cachedTypeInfo1]
    cases hentry : s.entries key with
    | some r => exact ⟨_, _, rfl⟩
    | none =>
      -- the placeholder is cached during the generation, so the nested lookups need less
      have hless : (uncached U (s.place key)).card < (uncached U s).card := by
        refine Finset.card_lt_card (Finset.ssubset_iff_subset_ne.mpr
          ⟨(extends_place hentry).uncached_subset U, fun heq => ?_⟩)
        have hmem : key ∈ uncached U s := Finset.mem_filter.mpr ⟨hkey, hentry⟩
        rw [← heq, uncached, Finset.mem_filter, entries_place] at hmem
        cases hmem.2
      have hlook {requests : List (Request T)} (hsub : requests ⊆ sys.requests key) {s₁ : Cache T}
          (hs₁ : Extends (s.place key) s₁) (k : Key T) (s' : Cache T) (hk : .look k ∈ requests)
          (hs' : Extends s₁ s') : ∃ res s'', cachedTypeInfo1 sys fuel k s' = some (res, s'') := by
        have hle := Finset.card_le_card ((hs₁.trans hs').uncached_subset U)
        exact ih (hclosed key hkey k (hsub hk)) (by omega)
      obtain ⟨res, s₁, hdec⟩ := generate_returns extends_cachedTypeInfo1
        (hlook (fun q hq => List.mem_append_left _ hq) (.refl _))
      dsimp only
      rw [hdec]
      cases res with
      | none => exact ⟨_, _, rfl⟩
      | some ds =>
        have hs₁ := extends_generate extends_cachedTypeInfo1 hdec
        obtain ⟨res, s₂, hwr⟩ := generate_returns extends_cachedTypeInfo1
          (hlook (fun q hq => List.mem_append_right _ hq) hs₁)
        dsimp only
        rw [hwr]
        cases res with
        | none => exact ⟨_, _, rfl⟩
        | some ws =>
          have hs₂ := hs₁.trans (extends_generate extends_cachedTypeInfo1 hwr)
          dsimp only
          rw [hs₂.entries (entries_place s key)]
          exact ⟨_, _, rfl⟩

/-- Calls for tame types return, keep the cache sound and succeed exactly for generable types. -/
theorem cachedTypeInfos_sound (hclosed : ∀ a ∈ U, ∀ b, Uses sys a b → b ∈ U) (hfuel : U.card < fuel)
    {keys : List (Key T)} (hkeys : ∀ k ∈ keys, k ∈ U ∧ Tame sys k) (hs : Sound sys [] s) :
    ∃ results s', cachedTypeInfos sys fuel keys s = some (results, s') ∧ Sound sys [] s' ∧
      List.Forall₂ (fun k res => res.isSome = true ↔ Generable sys k) keys results := by
  induction keys generalizing s with
  | nil => exact ⟨[], s, rfl, hs, .nil⟩
  | cons key keys ih =>
    obtain ⟨hmem, htame⟩ := hkeys key List.mem_cons_self
    have hle : (uncached U s).card ≤ U.card := Finset.card_le_card (Finset.filter_subset _ U)
    obtain ⟨res, s₁, hres⟩ := cachedTypeInfo1_returns hclosed hmem (lt_of_le_of_lt hle hfuel)
    have hlooked := cachedTypeInfo1_sound hs (fun a ha => nomatch ha) htame hres
    obtain ⟨results, s₂, hrest, hsound, hall⟩ :=
      ih (fun k hk => hkeys k (List.mem_cons_of_mem key hk)) hlooked.sound
    refine ⟨res :: results, s₂, ?_, hsound, .cons hlooked.isSome_iff hall⟩
    rw [cachedTypeInfos, hres]
    dsimp only
    rw [hrest]

/-- In every sequence of calls for tame types, every call returns, every entry is complete, and
whether a type has been found generable does not depend on the calls before. -/
theorem complete_of_tame {U : Finset (Key T)} (hclosed : ∀ a ∈ U, ∀ b, Uses sys a b → b ∈ U)
    {fuel : ℕ} (hfuel : U.card < fuel) {keys : List (Key T)}
    (hkeys : ∀ k ∈ keys, k ∈ U ∧ Tame sys k) :
    ∃ results s, cachedTypeInfos sys fuel keys .empty = some (results, s) ∧
      (∀ k r, s.entries k = some r → Complete s r) ∧
      List.Forall₂ (fun k res => res.isSome = true ↔ Generable sys k) keys results := by
  obtain ⟨results, s, hrun, hsound, hall⟩ := cachedTypeInfos_sound hclosed hfuel hkeys sound_empty
  exact ⟨results, s, hrun, fun k r hr => hsound.complete hr, hall⟩

end Decidable

/-- The types of `type A struct { B *B; C chan int }` and `type B struct { A *A }`. -/
inductive Sample
  /-- `A`. -/
  | a
  /-- `*A`. -/
  | ptrA
  /-- `B`. -/
  | b
  /-- `*B`. -/
  | ptrB
  /-- The type of the field `C`. -/
  | c
  deriving DecidableEq

/-- The shapes of the sample types, with any shape for the field `C`. -/
def sampleShape (c : Shape Sample) : Sample → Shape Sample
  | .a => .struct [⟨true, .ptrB, some .none⟩, ⟨true, .c, some .none⟩]
  | .ptrA => .elem .a
  | .b => .struct [⟨true, .ptrA, some .none⟩]
  | .ptrB => .elem .b
  | .c => c

/-- The system of the sample types. -/
def sampleSystem (c : Shape Sample) : TypeSystem Sample := ⟨sampleShape c, sampleShape c⟩

/-- A sample type without tags. -/
def Sample.bare (t : Sample) : Key Sample := (t, .none)

/-- All sample types without tags. -/
def sampleKeys : Finset (Key Sample) :=
  {Sample.a.bare, Sample.ptrA.bare, Sample.b.bare, Sample.ptrB.bare, Sample.c.bare}

/-- The request stays inside of the set. -/
def Request.within (U : Finset (Key Sample)) : Request Sample → Bool
  | .look k => k ∈ U
  | .fail => true

/-- The sample types need only each other. -/
theorem sampleKeys_closed :
    ∀ a ∈ sampleKeys, ∀ b, Uses (sampleSystem .leaf) a b → b ∈ sampleKeys := by
  have hall : ∀ a ∈ sampleKeys, ∀ q ∈ (sampleSystem .leaf).requests a,
      q.within sampleKeys = true := by decide
  exact fun a ha b hb => of_decide_eq_true (hall a ha _ hb)

theorem sample_generable (a : Key Sample) : Generable (sampleSystem .leaf) a := by
  rintro ⟨t, tags⟩ -
  cases t <;>
    simp [TypeSystem.requests, sampleSystem, sampleShape, Shape.requests, structFields, Tags.none]

/-- With a supported type for `C`, looking up `A` and then `B` leaves complete entries. -/
theorem complete_sample :
    ∃ results s, cachedTypeInfos (sampleSystem .leaf) 6 [Sample.a.bare, Sample.b.bare] .empty =
        some (results, s) ∧
      (∀ k r, s.entries k = some r → Complete s r) ∧
      List.Forall₂ (fun k res => res.isSome = true ↔ Generable (sampleSystem .leaf) k)
        [Sample.a.bare, Sample.b.bare] results :=
  complete_of_tame sampleKeys_closed (by decide)
    (fun k hk => ⟨by
      rcases List.mem_cons.mp hk with rfl | hk
      · decide
      · rw [List.mem_singleton.mp hk]
        decide, fun b _ _ => sample_generable b⟩)

/-- With a channel for `C`, looking up `A` fails. `B` is found afterwards, but its type info leads
to the empty placeholder of `A`; in an empty cache the lookup of `B` fails. -/
theorem sample_depends_on_history :
    ((cachedTypeInfos (sampleSystem .unsupported) 6 [Sample.a.bare, Sample.b.bare] .empty).map
        fun p => (p.1, p.2.heap.take 4)) =
      some ([none, some 2], [⟨none, none⟩, ⟨some [2], some [2]⟩, ⟨some [3], some [3]⟩,
        ⟨some [0], some [0]⟩]) ∧
      (cachedTypeInfos (sampleSystem .unsupported) 6 [Sample.b.bare] .empty).map Prod.fst =
        some [none] := by
  decide +kernel

end Hashgrid.Rlp.TypeCache
