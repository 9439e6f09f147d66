import Hashgrid.Rlp.StreamReads

/-!
# What the end of a list says about the input

`EOL` comes from `Kind` alone, before it has read anything. So an operation that reports it
leaves the stream where it was.
-/

namespace Hashgrid.Rlp

variable {s s' : Stream} {inp : List UInt8} {st : List ListPos}

/-- No error, or one that comes from reading: neither the end of a list nor a loop without end. -/
def plain : Option Err → Bool
  | some .eol => false
  | some .diverges => false
  | _ => true

variable {err : Option Err} {n : ℕ}

theorem plain_ne_eol (h : plain err = true) : err ≠ some .eol := by
  rintro rfl
  cases h

theorem plain_ne_diverges (h : plain err = true) : err ≠ some .diverges := by
  rintro rfl
  cases h

/-- `willRead`. -/
theorem plain_willRead (s : Stream) (n : ℕ) : plain (s.willRead n).1 = true := by
  unfold Stream.willRead
  dsimp only
  split
  · split_ifs
    · rfl
    · unfold Stream.takeRemaining
      split_ifs <;> rfl
  · unfold Stream.takeRemaining
    split_ifs <;> rfl

/-- `readFull`. -/
theorem plain_readFull (s : Stream) (n : ℕ) : plain (s.readFull n).2.1 = true := by
  have hwill := plain_willRead s n
  unfold Stream.readFull
  split
  · next heq => rwa [heq] at hwill
  · dsimp only
    split_ifs <;> rfl

/-- `readByte`. -/
theorem plain_readByte (s : Stream) : plain s.readByte.2.1 = true := by
  have hwill := plain_willRead s 1
  unfold Stream.readByte
  split
  · next heq => rwa [heq] at hwill
  · split <;> rfl

/-- `readUint`. -/
theorem plain_readUint (s : Stream) (n : ℕ) : plain (s.readUint n).2.1 = true := by
  unfold Stream.readUint
  split
  · rfl
  · exact plain_readByte s
  · have hread := plain_readFull s n
    split
    · next heq => rwa [heq] at hread
    · split_ifs <;> rfl

/-- `readKind`. -/
theorem plain_readKind (s : Stream) : plain s.readKind.2.2.1 = true := by
  have hbyte := plain_readByte s
  have hsize (s₁ : Stream) (n : ℕ) : plain (Stream.checkSize (s₁.readUint n)).2.1 = true := by
    have huint := plain_readUint s₁ n
    generalize s₁.readUint n = r at huint
    obtain ⟨v, err, s₂⟩ := r
    cases err with
    | none =>
      unfold Stream.checkSize
      dsimp only
      split_ifs <;> rfl
    | some e => exact huint
  unfold Stream.readKind
  split
  · next e s₁ heq =>
    rw [heq] at hbyte
    unfold Stream.topLevelErr
    dsimp only
    split
    · rfl
    · rfl
    · exact hbyte
  · dsimp only
    split_ifs
    · rfl
    · rfl
    · exact hsize _ _
    · rfl
    · exact hsize _ _

/-- The part of `Kind` that reads a header. -/
theorem plain_fetchKind (s : Stream) : plain s.fetchKind.2.2.1 = true := by
  have hread := plain_readKind s
  unfold Stream.fetchKind
  split
  · next heq => rwa [heq] at hread
  · dsimp only
    unfold Stream.sizeErr
    split <;> split_ifs <;> rfl

/-- `ListEnd`. -/
theorem plain_listEnd (s : Stream) : plain s.listEnd.1 = true := by
  unfold Stream.listEnd
  split
  · rfl
  · split_ifs <;> rfl

/-- `Kind` reports `EOL` only without having read anything. -/
theorem kindOf_eol_ok {k : Kind} (h : Ready s inp st) (hok : s.kindOf = (k, n, some .eol, s')) :
    Ready s' inp st := by
  have hfetch (s₁ : Stream) : s₁.fetchKind.2.2.1 ≠ some .eol := plain_ne_eol (plain_fetchKind s₁)
  unfold Stream.kindOf at hok
  rw [h.kind] at hok
  dsimp only at hok
  split at hok
  · exact absurd (by rw [hok]) (hfetch { s with kinderr := none, kind := none })
  · split_ifs at hok
    · cases hok
      exact ⟨h.remember .., rfl⟩
    · exact absurd (by rw [hok]) (hfetch { s with kinderr := none, kind := none })

/-- `Bytes` reports `EOL` only without having read anything. -/
theorem bytes_eol_ok {c : List UInt8} (h : Ready s inp st)
    (hok : s.bytes = (c, some .eol, s')) : Ready s' inp st := by
  unfold Stream.bytes at hok
  split at hok
  · next hkind =>
    cases hok
    exact kindOf_eol_ok h hkind
  · cases hok
  · next size s₁ hkind =>
    have hread := plain_ne_eol (plain_readFull s₁ size)
    split at hok
    · next heq =>
      cases hok
      exact absurd (by rw [heq]) hread
    · split_ifs at hok <;> cases hok
  · cases hok

/-- `uint` reports `EOL` only without having read anything. -/
theorem uint_eol_ok {w v : ℕ} (h : Ready s inp st) (hok : s.uint w = (v, some .eol, s')) :
    Ready s' inp st := by
  unfold Stream.uint at hok
  split at hok
  · next hkind =>
    cases hok
    exact kindOf_eol_ok h hkind
  · split_ifs at hok <;> cases hok
  · next size s₁ hkind =>
    have hread := plain_ne_eol (plain_readUint s₁ size)
    split_ifs at hok
    · cases hok
    · split at hok
      · cases hok
      · next heq =>
        cases hok
        exact absurd (by rw [heq]) hread
      · split_ifs at hok <;> cases hok
  · cases hok

/-- `List` reports `EOL` only without having read anything. -/
theorem list_eol_ok (h : Ready s inp st) (hok : s.list = (n, some .eol, s')) : Ready s' inp st := by
  unfold Stream.list at hok
  split at hok
  · next hkind =>
    cases hok
    exact kindOf_eol_ok h hkind
  · cases hok
  · cases hok

end Hashgrid.Rlp
