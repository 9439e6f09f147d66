import Mathlib.Data.List.Basic

/-!
# Absorbing a message block by block

A sponge takes its input in blocks of `r` symbols. A one-shot run cuts the whole message
into blocks; an incremental run keeps the symbols of the last, incomplete block in a
buffer and takes a block as soon as the buffer is full. The relation `Absorbed` says what
the incremental state stands for, and its rules are the ways in which a run moves on.
The padding rule appends a domain byte, zeros and a final bit, at least one byte in all.
-/

namespace Hashgrid.Sponge

variable {σ α : Type} (step : σ → List α → σ) (r : ℕ)

/-- Take `k` blocks from the front of a message. -/
def absorbBlocks : ℕ → σ → List α → σ
  | 0, s, _ => s
  | k + 1, s, m => absorbBlocks k (step s (m.take r)) (m.drop r)

/-- Take every complete block of a message. -/
def absorb (s : σ) (m : List α) : σ := absorbBlocks step r (m.length / r) s m

/-- One more block behind complete ones. -/
theorem absorbBlocks_append {k : ℕ} {s : σ} {m block : List α} (hm : m.length = k * r)
    (hblock : block.length = r) :
    absorbBlocks step r (k + 1) s (m ++ block) = step (absorbBlocks step r k s m) block := by
  induction k generalizing s m with
  | zero =>
    have hnil : m = [] := List.eq_nil_of_length_eq_zero (by simpa using hm)
    simp [absorbBlocks, hnil, ← hblock]
  | succ k ih =>
    have hle : r ≤ m.length := by
      rw [hm, Nat.succ_mul]
      exact Nat.le_add_left _ _
    have hrest : (m.drop r).length = k * r := by
      rw [List.length_drop, hm, Nat.succ_mul, Nat.add_sub_cancel]
    rw [absorbBlocks, List.take_append_of_le_length hle, List.drop_append_of_le_length hle,
      ih hrest]
    rfl

/-- The state `s` with the pending symbols `buf` stands for the message `m`, absorbed from
the state `s₀`. -/
structure Absorbed (s₀ : σ) (m : List α) (s : σ) (buf : List α) : Prop where
  /-- The pending symbols are less than a block. -/
  short : buf.length < r
  /-- The symbols before the pending ones are complete blocks, and the state took them. -/
  taken : ∃ k full, m = full ++ buf ∧ full.length = k * r ∧ s = absorbBlocks step r k s₀ full

namespace Absorbed

variable {step r} {s₀ s : σ} {m buf p : List α}

theorem nil (hr : 0 < r) : Absorbed step r s₀ [] s₀ [] :=
  ⟨hr, 0, [], rfl, by simp, rfl⟩

theorem pend (h : Absorbed step r s₀ m s buf) (hp : (buf ++ p).length < r) :
    Absorbed step r s₀ (m ++ p) s (buf ++ p) := by
  obtain ⟨k, full, rfl, hfull, hs⟩ := h.taken
  exact ⟨hp, k, full, List.append_assoc .., hfull, hs⟩

/-- Symbols that fill the block. -/
theorem fill (h : Absorbed step r s₀ m s buf) (hp : (buf ++ p).length = r) :
    Absorbed step r s₀ (m ++ p) (step s (buf ++ p)) [] := by
  obtain ⟨k, full, rfl, hfull, hs⟩ := h.taken
  have hr : 0 < r := Nat.zero_lt_of_lt h.short
  refine ⟨hr, k + 1, full ++ (buf ++ p), by simp, ?_, ?_⟩
  · rw [List.length_append, hfull, hp, Nat.succ_mul]
  · rw [absorbBlocks_append step r hfull hp, hs]

theorem length_mod (h : Absorbed step r s₀ m s buf) : m.length % r = buf.length := by
  obtain ⟨k, full, rfl, hfull, -⟩ := h.taken
  rw [List.length_append, hfull, Nat.mul_add_mod_self_right, Nat.mod_eq_of_lt h.short]

theorem absorb_eq (h : Absorbed step r s₀ m s []) : absorb step r s₀ m = s := by
  obtain ⟨k, full, rfl, hfull, hs⟩ := h.taken
  have hr : 0 < r := Nat.zero_lt_of_lt h.short
  rw [absorb, List.append_nil, hfull, Nat.mul_div_cancel _ hr, hs]

end Absorbed

/-- The padding of a message of `len` bytes to complete blocks of `r` bytes: the domain
byte, zeros, and the highest bit of the last byte, which may be the domain byte itself. -/
def padding (ds : UInt8) (len : ℕ) : List UInt8 :=
  match r - 1 - len % r with
  | 0 => [ds ^^^ 0x80]
  | z + 1 => ds :: (List.replicate z 0 ++ [0x80])

theorem padding_mod (ds : UInt8) (len : ℕ) : padding r ds (len % r) = padding r ds len := by
  rw [padding, padding, Nat.mod_mod]

/-- The padding completes the last block. -/
theorem length_padding {ds : UInt8} {len : ℕ} (hr : 0 < r) :
    (padding r ds len).length = r - len % r := by
  have hlt : len % r < r := Nat.mod_lt _ hr
  unfold padding
  cases hz : r - 1 - len % r with
  | zero =>
    simp only [List.length_singleton]
    omega
  | succ z =>
    simp only [List.length_cons, List.length_append, List.length_replicate, List.length_nil]
    omega

end Hashgrid.Sponge
