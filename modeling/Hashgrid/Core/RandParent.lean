import Hashgrid.Core.Compose

/-!
# The choice of a random parent

`RandParent` is to return an entry of `newComer` that does not have the excepted address, or
nil if there is none. Its loop settles on such an entry whenever there is one. The test after
the loop then throws the entry away unless its address is zero, and lets the empty entry pass
with which the loop began.
-/

namespace Hashgrid.Core

open Hashgrid.Bytes

/-- The entry does not have the excepted address. -/
def RequestArg.differs (except : Address) (arg : RequestArg) : Bool := arg.targetAddr ≠ except

/-- The entry on which the loop of `RandParent` settles: the one at the random position if it does
not have the excepted address, and the last such entry otherwise. -/
def settledComer (except : Address) (chosen : ℕ) (comers : List RequestArg) : Option RequestArg :=
  (comers[chosen]?.filter (RequestArg.differs except)) <|>
    (comers.filter (RequestArg.differs except)).getLast?

/-- What `RandParent` is for: it returns an entry that does not have the excepted address, and nil
only if there is none. -/
def Round.RandParentRight (rd : Round) (except : Address) (rand : ℕ) : Prop :=
  (∀ arg ∈ (rd.randParent except rand).2,
      arg ∈ (rd.randParent except rand).1 ∧ arg.targetAddr ≠ except) ∧
    ((rd.randParent except rand).2 = none → ∀ arg ∈ rd.newComer, arg.targetAddr = except)

variable {except : Address} {arg ret : RequestArg} {comers : List RequestArg}

theorem RequestArg.differs_iff : arg.differs except = true ↔ arg.targetAddr.compare except ≠ 0 := by
  rw [differs, decide_eq_true_eq, Ne, Ne, FixedBytes.compare_eq_zero]

/-- The loop stops at the random position if the entry there does not have the excepted address. -/
theorem randParentLoop_hit (ret : RequestArg) {i k : ℕ} (harg : comers[k]? = some arg)
    (hdiffers : arg.differs except = true) :
    randParentLoop except (i + k) i ret comers =
      ({ arg with refered := arg.refered + 1 },
        comers.set k { arg with refered := arg.refered + 1 }) := by
  induction comers generalizing i k ret with
  | nil => simp at harg
  | cons first rest ih =>
    cases k with
    | zero =>
      obtain rfl : first = arg := Option.some.inj harg
      rw [randParentLoop, if_pos (RequestArg.differs_iff.mp hdiffers),
        if_pos (Nat.add_zero i).symm]
      rfl
    | succ k =>
      have hnext : i + (k + 1) = i + 1 + k := by omega
      have hne : ¬ i = i + 1 + k := by omega
      rw [hnext, randParentLoop, if_neg hne, ih first harg, ih ret harg]
      split_ifs <;> rfl

/-- Otherwise it goes through all entries and keeps the last one that does not have the excepted
address. -/
theorem randParentLoop_miss (ret : RequestArg) {chosen i : ℕ}
    (hmiss : ∀ k arg, chosen = i + k → comers[k]? = some arg → arg.differs except = false) :
    randParentLoop except chosen i ret comers =
      ((comers.filter (RequestArg.differs except)).getLast?.getD ret, comers) := by
  induction comers generalizing i ret with
  | nil => rfl
  | cons first rest ih =>
    have hrest (k : ℕ) (arg : RequestArg) (hk : chosen = i + 1 + k) (harg : rest[k]? = some arg) :
        arg.differs except = false :=
      hmiss (k + 1) arg (by omega) harg
    by_cases hdiffers : first.differs except = true
    · have hne : ¬ i = chosen := by
        intro hi
        have hfalse := hmiss 0 first (by omega) rfl
        exact absurd (hdiffers.symm.trans hfalse) (by decide)
      rw [randParentLoop, if_pos (RequestArg.differs_iff.mp hdiffers), if_neg hne, ih first hrest,
        List.filter_cons_of_pos hdiffers]
      simp [List.getLast?_cons]
    · rw [randParentLoop, if_neg fun h => hdiffers (RequestArg.differs_iff.mpr h), ih ret hrest,
        List.filter_cons_of_neg hdiffers]

/-- What `RandParent` does with the entry on which its loop settles. -/
theorem Round.randParentRight_of_loop {rd : Round} {rand : ℕ} (hne : rd.newComer ≠ [])
    (hloop : randParentLoop except (rand % rd.newComer.length) 0
      ⟨FixedBytes.zero 32, FixedBytes.zero 20, 0⟩ rd.newComer = (ret, comers)) :
    rd.RandParentRight except rand ↔
      if ret.targetAddr = FixedBytes.zero 20 then ret ∈ comers ∧ ret.targetAddr ≠ except
      else ∀ arg ∈ rd.newComer, arg.targetAddr = except := by
  have hlength : ¬ rd.newComer.length = 0 := fun h => hne (List.length_eq_zero_iff.mp h)
  rw [RandParentRight, randParent, if_neg hlength, hloop]
  dsimp only
  by_cases hzero : ret.targetAddr = FixedBytes.zero 20
  · rw [if_pos (FixedBytes.compare_eq_zero.mpr hzero), if_pos hzero]
    simp
  · rw [if_neg fun h => hzero (FixedBytes.compare_eq_zero.mp h), if_neg hzero]
    simp

/-- When the loop settles on an entry of the list, `RandParent` does what it is for just when that
entry has the zero address. -/
theorem right_iff_of_settled {entry : RequestArg} {comers' : List RequestArg}
    (hret : ret.targetAddr = entry.targetAddr) (hmem : entry ∈ comers) (hmem' : ret ∈ comers')
    (haddr : entry.targetAddr ≠ except) :
    (if ret.targetAddr = FixedBytes.zero 20 then ret ∈ comers' ∧ ret.targetAddr ≠ except
      else ∀ arg ∈ comers, arg.targetAddr = except) ↔
      ∃ arg, some entry = some arg ∧ arg.targetAddr = FixedBytes.zero 20 := by
  rw [hret]
  split_ifs with hzero
  · exact iff_of_true ⟨hmem', haddr⟩ ⟨entry, rfl, hzero⟩
  · refine iff_of_false (fun hall => haddr (hall entry hmem)) ?_
    rintro ⟨arg, harg, hzero'⟩
    exact hzero (Option.some.inj harg ▸ hzero')

/-- `RandParent` does what it is for exactly when the list is empty or the entry on which its loop
settles has the zero address. -/
theorem randParent_right_iff (rd : Round) (except : Address) (rand : ℕ) :
    rd.RandParentRight except rand ↔ rd.newComer = [] ∨
      ∃ arg, settledComer except (rand % rd.newComer.length) rd.newComer = some arg ∧
        arg.targetAddr = FixedBytes.zero 20 := by
  by_cases hne : rd.newComer = []
  · refine iff_of_true ?_ (.inl hne)
    simp [Round.RandParentRight, Round.randParent, hne]
  rw [or_iff_right hne]
  have hlt : rand % rd.newComer.length < rd.newComer.length :=
    Nat.mod_lt _ (List.length_pos_iff.mpr hne)
  obtain ⟨entry, hentry⟩ : ∃ entry, rd.newComer[rand % rd.newComer.length]? = some entry :=
    ⟨_, List.getElem?_eq_getElem hlt⟩
  by_cases hdiffers : entry.differs except = true
  · have hloop := randParentLoop_hit ⟨FixedBytes.zero 32, FixedBytes.zero 20, 0⟩ (i := 0) hentry
      hdiffers
    rw [Nat.zero_add] at hloop
    have hsettled : settledComer except (rand % rd.newComer.length) rd.newComer = some entry := by
      simp [settledComer, hentry, hdiffers]
    have haddr : entry.targetAddr ≠ except := by simpa [RequestArg.differs] using hdiffers
    rw [Round.randParentRight_of_loop hne hloop, hsettled]
    exact right_iff_of_settled rfl (List.mem_of_getElem? hentry) (List.mem_set hlt _) haddr
  · have hmiss (k : ℕ) (arg : RequestArg) (hk : rand % rd.newComer.length = 0 + k)
        (harg : rd.newComer[k]? = some arg) : arg.differs except = false := by
      rw [Nat.zero_add] at hk
      rw [← hk, hentry] at harg
      exact Option.some.inj harg ▸ Bool.eq_false_of_not_eq_true hdiffers
    have hloop := randParentLoop_miss ⟨FixedBytes.zero 32, FixedBytes.zero 20, 0⟩ hmiss
    have hsettled : settledComer except (rand % rd.newComer.length) rd.newComer =
        (rd.newComer.filter (RequestArg.differs except)).getLast? := by
      rw [settledComer, hentry, Option.filter_some_neg (Bool.eq_false_of_not_eq_true hdiffers)]
      rfl
    rw [Round.randParentRight_of_loop hne hloop, hsettled]
    cases hlast : (rd.newComer.filter (RequestArg.differs except)).getLast? with
    | none =>
      -- no entry qualifies, and the loop returns the empty entry with which it began
      have hall : ∀ arg ∈ rd.newComer, arg.targetAddr = except := by
        simpa [RequestArg.differs] using List.getLast?_eq_none_iff.mp hlast
      rw [Option.getD_none, if_pos rfl]
      refine iff_of_false (fun hmem => hmem.2 (hall _ hmem.1)) ?_
      rintro ⟨arg, harg, -⟩
      cases harg
    | some arg =>
      obtain ⟨hmem, harg⟩ := List.mem_filter.mp (List.mem_of_getLast? hlast)
      have haddr : arg.targetAddr ≠ except := by simpa [RequestArg.differs] using harg
      rw [Option.getD_some]
      exact right_iff_of_settled rfl hmem hmem haddr

/-- A round that only one other node has sent an event to. -/
def oneComerRound : Round :=
  { newRound 3 0 with newComer := [⟨FixedBytes.ofNat 32 1, FixedBytes.ofNat 20 0x0B, 0⟩] }

/-- Node `0x0a` is offered no parent, although there is one; node `0x0b` is offered an entry that
nobody has made. -/
theorem not_randParent_right_oneComer :
    oneComerRound.randParent (FixedBytes.ofNat 20 0x0A) 0 =
        ([⟨FixedBytes.ofNat 32 1, FixedBytes.ofNat 20 0x0B, 1⟩], none) ∧
      ¬ oneComerRound.RandParentRight (FixedBytes.ofNat 20 0x0A) 0 ∧
      (oneComerRound.randParent (FixedBytes.ofNat 20 0x0B) 0).2 =
        some ⟨FixedBytes.zero 32, FixedBytes.zero 20, 0⟩ ∧
      ¬ oneComerRound.RandParentRight (FixedBytes.ofNat 20 0x0B) 0 := by
  unfold Round.RandParentRight
  decide +kernel

end Hashgrid.Core
