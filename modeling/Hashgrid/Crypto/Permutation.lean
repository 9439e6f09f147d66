import Hashgrid.Crypto.Sha3
import Hashgrid.Lib.KeccakF

/-!
# The permutation of the sha3 package

`keccakF1600` of `keccakf.go` works in place and does four rounds in one turn of its loop. In
each round the words of a row are written where the words came from that they are made of, so
that in the next round the rows lie elsewhere. The places are those that the source has written
out for each of the four rounds, and after four rounds every word is back where it belongs.

Whatever the words are, the loop computes Keccak-f[1600] of FIPS-202 on their bits.
-/

namespace Hashgrid.Sha3

open Hashgrid

/-- The words in memory. -/
abbrev Words : Type := Vector UInt64 25

/-- `rc`. -/
def rc : List UInt64 :=
  [0x0000000000000001, 0x0000000000008082, 0x800000000000808A, 0x8000000080008000,
    0x000000000000808B, 0x0000000080000001, 0x8000000080008081, 0x8000000000008009,
    0x000000000000008A, 0x0000000000000088, 0x0000000080008009, 0x000000008000000A,
    0x000000008000808B, 0x800000000000008B, 0x8000000000008089, 0x8000000000008003,
    0x8000000000008002, 0x8000000000000080, 0x000000000000800A, 0x800000008000000A,
    0x8000000080008081, 0x8000000000008080, 0x0000000080000001, 0x8000000080008008]

/-- `t<<n | t>>(64-n)`. -/
def rotl (t : UInt64) (n : ℕ) : UInt64 := t <<< UInt64.ofNat n ||| t >>> UInt64.ofNat (64 - n)

/-- The numbers of the five columns, and of the five rows. -/
def fives : List (ZMod 5) := (List.range 5).map fun n => (n : ZMod 5)

/-- How far the words are rotated that make up a row, for each row and column. The first one is
not. -/
def rotation (m x : ZMod 5) : ℕ :=
  (([[0, 44, 43, 21, 14], [3, 45, 61, 28, 20], [18, 1, 6, 25, 8], [36, 10, 15, 56, 27],
    [41, 2, 62, 55, 39]] : List (List ℕ)).getD m.val []).getD x.val 0

/-- The places of the words that make up the rows. -/
abbrev Places : Type := ZMod 5 → ZMod 5 → Fin 25

/-- Places from a table with one line for each row. -/
def places (table : List (List (Fin 25))) : Places := fun m x => (table.getD m.val []).getD x.val 0

/-- The places in round 1. -/
def places1 : Places :=
  places [[0, 6, 12, 18, 24], [10, 16, 22, 3, 9], [20, 1, 7, 13, 19], [5, 11, 17, 23, 4],
    [15, 21, 2, 8, 14]]

/-- The places in round 2. -/
def places2 : Places :=
  places [[0, 16, 7, 23, 14], [20, 11, 2, 18, 9], [15, 6, 22, 13, 4], [10, 1, 17, 8, 24],
    [5, 21, 12, 3, 19]]

/-- The places in round 3. -/
def places3 : Places :=
  places [[0, 11, 22, 8, 19], [15, 1, 12, 23, 9], [5, 16, 2, 13, 24], [20, 6, 17, 3, 14],
    [10, 21, 7, 18, 4]]

/-- The places in round 4. -/
def places4 : Places :=
  places [[0, 1, 2, 3, 4], [5, 6, 7, 8, 9], [10, 11, 12, 13, 14], [15, 16, 17, 18, 19],
    [20, 21, 22, 23, 24]]

/-- The `n`-th place of a column. -/
def columnPlace (x : ZMod 5) (n : ℕ) : Fin 25 := Fin.ofNat 25 (x.val + 5 * n)

/-- The place of a word before the first round. -/
def place (x y : ZMod 5) : Fin 25 := columnPlace x y.val

/-- The first values of `bc0` to `bc4` in a round. -/
def parities (a : Words) (x : ZMod 5) : UInt64 :=
  a.get (columnPlace x 0) ^^^ a.get (columnPlace x 1) ^^^ a.get (columnPlace x 2) ^^^
    a.get (columnPlace x 3) ^^^ a.get (columnPlace x 4)

/-- The values of `d0` to `d4` in a round. -/
def effects (bc : ZMod 5 → UInt64) (x : ZMod 5) : UInt64 := bc (x - 1) ^^^ rotl (bc (x + 1)) 1

/-- The values of `bc0` to `bc4` for a row. -/
def rowWords (pos : ZMod 5 → Fin 25) (d : ZMod 5 → UInt64) (m : ZMod 5) (a : Words) (j : ZMod 5) :
    UInt64 :=
  rotl (a.get (pos (j - (m + m))) ^^^ d (j - (m + m))) (rotation m (j - (m + m)))

/-- What is written for a row. The constant of the round comes to the first word of row 0. -/
def rowValue (bc : ZMod 5 → UInt64) (rc : UInt64) (m x : ZMod 5) : UInt64 :=
  if m = 0 ∧ x = 0 then bc x ^^^ (bc (x + 1 + 1) &&& ~~~bc (x + 1)) ^^^ rc
  else bc x ^^^ (bc (x + 1 + 1) &&& ~~~bc (x + 1))

/-- Write five words. -/
def store (a : Words) (pos : ZMod 5 → Fin 25) (v : ZMod 5 → UInt64) : Words :=
  fives.foldl (fun a x => a.set (pos x) (v x)) a

/-- One of the four rounds in a turn of the loop. -/
def keccakRound (pos : Places) (rc : UInt64) (a : Words) : Words :=
  let d := effects (parities a)
  fives.foldl (fun a m => store a (pos m) (rowValue (rowWords (pos m) d m a) rc m)) a

/-- A turn of the loop of `keccakF1600`. -/
def keccakTurn (a : Words) (i : ℕ) : Words :=
  let a := keccakRound places1 (rc.getD i 0) a
  let a := keccakRound places2 (rc.getD (i + 1) 0) a
  let a := keccakRound places3 (rc.getD (i + 2) 0) a
  keccakRound places4 (rc.getD (i + 3) 0) a

/-- `keccakF1600`. -/
def keccakF1600 (a : Lanes) : Lanes :=
  ([0, 4, 8, 12, 16, 20].foldl keccakTurn (Vector.ofFn a)).get

section Store

variable {pos : ZMod 5 → Fin 25} {v : ZMod 5 → UInt64} {a : Words}

theorem get_set (a : Words) (i j : Fin 25) (w : UInt64) :
    (a.set i w).get j = if i = j then w else a.get j := by
  change (a.set i w)[j.val] = if i = j then w else a[j.val]
  rw [Vector.getElem_set]
  simp only [Fin.ext_iff]

variable {xs : List (ZMod 5)} {i : Fin 25}

/-- Words elsewhere stay. -/
theorem get_foldl_set_of_ne (h : ∀ x ∈ xs, pos x ≠ i) :
    (xs.foldl (fun a x => a.set (pos x) (v x)) a).get i = a.get i := by
  induction xs generalizing a with
  | nil => rfl
  | cons x xs ih =>
    rw [List.foldl_cons, ih fun y hy => h y (List.mem_cons_of_mem x hy), get_set,
      if_neg (h x List.mem_cons_self)]

/-- Words that are written to different places are there afterwards. -/
theorem get_foldl_set_of_mem (hpos : Function.Injective pos) {x : ZMod 5} (hx : x ∈ xs) :
    (xs.foldl (fun a x => a.set (pos x) (v x)) a).get (pos x) = v x := by
  induction xs generalizing a with
  | nil => cases hx
  | cons y xs ih =>
    rw [List.foldl_cons]
    by_cases hmem : x ∈ xs
    · exact ih hmem
    · obtain rfl := (List.mem_cons.mp hx).resolve_right hmem
      have hne : ∀ z ∈ xs, pos z ≠ pos x := fun z hz heq => hmem (hpos heq ▸ hz)
      rw [get_foldl_set_of_ne hne, get_set, if_pos rfl]

theorem mem_fives (x : ZMod 5) : x ∈ fives := by
  revert x
  decide

theorem get_store (hpos : Function.Injective pos) (x : ZMod 5) :
    (store a pos v).get (pos x) = v x :=
  get_foldl_set_of_mem hpos (mem_fives x)

theorem get_store_of_ne (h : ∀ x, pos x ≠ i) : (store a pos v).get i = a.get i :=
  get_foldl_set_of_ne fun x _ => h x

end Store

section Round

variable {pos : Places}

/-- Every word has its own place. -/
def Places.Apart (pos : Places) : Prop :=
  ∀ m x m' x', pos m x = pos m' x' → m = m' ∧ x = x'

instance (pos : Places) : Decidable pos.Apart :=
  inferInstanceAs (Decidable (∀ m x m' x', pos m x = pos m' x' → m = m' ∧ x = x'))

/-- The loop over the rows that is part of a round. -/
def storeRows (pos : Places) (d : ZMod 5 → UInt64) (rc : UInt64) (ms : List (ZMod 5)) (a : Words) :
    Words :=
  ms.foldl (fun a m => store a (pos m) (rowValue (rowWords (pos m) d m a) rc m)) a

variable {d : ZMod 5 → UInt64} {rc : UInt64} {a : Words} {ms : List (ZMod 5)} {m : ZMod 5}

/-- The words of the rows that are not written stay. -/
theorem get_storeRows_of_notMem (hpos : pos.Apart) (hm : m ∉ ms) (x : ZMod 5) :
    (storeRows pos d rc ms a).get (pos m x) = a.get (pos m x) := by
  unfold storeRows
  induction ms generalizing a with
  | nil => rfl
  | cons n ms ih =>
    rw [List.foldl_cons, ih (List.not_mem_of_not_mem_cons hm)]
    exact get_store_of_ne fun y heq => List.ne_of_not_mem_cons hm (hpos n y m x heq).1.symm

/-- The rows do not read what other rows write, so each is made of the words before the round. -/
theorem get_storeRows (hpos : pos.Apart) (hms : ms.Nodup) (hm : m ∈ ms) (x : ZMod 5) :
    (storeRows pos d rc ms a).get (pos m x) =
      rowValue (rowWords (pos m) d m a) rc m x := by
  induction ms generalizing a with
  | nil => cases hm
  | cons n ms ih =>
    obtain ⟨hn, hms⟩ := List.nodup_cons.mp hms
    have hcons : storeRows pos d rc (n :: ms) a = storeRows pos d rc ms
        (store a (pos n) (rowValue (rowWords (pos n) d n a) rc n)) := rfl
    rw [hcons]
    by_cases hmem : m ∈ ms
    · have hne : n ≠ m := fun heq => hn (heq ▸ hmem)
      have hwords : rowWords (pos m) d m
          (store a (pos n) (rowValue (rowWords (pos n) d n a) rc n)) = rowWords (pos m) d m a := by
        funext j
        unfold rowWords
        rw [get_store_of_ne fun y heq => hne (hpos n y m _ heq).1]
      rw [ih hms hmem, hwords]
    · obtain rfl := (List.mem_cons.mp hm).resolve_right hmem
      rw [get_storeRows_of_notMem hpos hmem, get_store fun y y' heq => (hpos _ _ _ _ heq).2]

theorem get_keccakRound (hpos : pos.Apart) (a : Words) (m x : ZMod 5) :
    (keccakRound pos rc a).get (pos m x) =
      rowValue (rowWords (pos m) (effects (parities a)) m a) rc m x :=
  get_storeRows hpos (by decide) (mem_fives m) x

end Round

/-- A bit of a word. -/
def laneBit (w : UInt64) (z : ZMod 64) : Bool := w.toBitVec.getLsbD z.val

section Bits

variable (t u : UInt64) (z : ZMod 64)

theorem eq_of_laneBit {t u : UInt64} (h : ∀ z, laneBit t z = laneBit u z) : t = u := by
  refine UInt64.toBitVec_inj.mp (BitVec.eq_of_getLsbD_eq fun i hi => ?_)
  have hbit := h (i : ZMod 64)
  rw [laneBit, laneBit, ZMod.val_natCast_of_lt hi] at hbit
  exact hbit

@[simp] theorem laneBit_xor : laneBit (t ^^^ u) z = (laneBit t z ^^ laneBit u z) := by
  simp [laneBit]

@[simp] theorem laneBit_and_not : laneBit (u &&& ~~~t) z = (!laneBit t z && laneBit u z) := by
  have hlt : z.val < 64 := ZMod.val_lt z
  simp [laneBit, hlt, Bool.and_comm]

variable {n : ℕ}

/-- The place of a bit before a rotation. -/
theorem val_sub_natCast (hn : n < 64) : (z - (n : ZMod 64)).val =
    if n ≤ z.val then z.val - n else 64 + z.val - n := by
  have hlt : z.val < 64 := ZMod.val_lt z
  split_ifs with hle
  · have hval : (n : ZMod 64).val ≤ z.val := by rwa [ZMod.val_natCast_of_lt hn]
    rw [ZMod.val_sub hval, ZMod.val_natCast_of_lt hn]
  · have hcast : z - (n : ZMod 64) = ((64 + z.val - n : ℕ) : ZMod 64) := by
      rw [Nat.cast_sub (by omega), Nat.cast_add, ZMod.natCast_zmod_val,
        show ((64 : ℕ) : ZMod 64) = 0 from rfl, zero_add]
    rw [hcast, ZMod.val_natCast_of_lt (by omega)]

/-- Bits of a rotated word. -/
theorem laneBit_rotl (hn : n < 64) : laneBit (rotl t n) z = laneBit t (z - n) := by
  have hlt : z.val < 64 := ZMod.val_lt z
  unfold laneBit rotl
  simp only [UInt64.toBitVec_or, UInt64.toBitVec_shiftLeft, UInt64.toBitVec_shiftRight,
    BitVec.getLsbD_or, BitVec.shiftLeft_eq', BitVec.ushiftRight_eq', BitVec.getLsbD_shiftLeft,
    BitVec.getLsbD_ushiftRight, BitVec.toNat_umod, UInt64.toNat_toBitVec, UInt64.toNat_ofNat',
    BitVec.ofNat_eq_ofNat, BitVec.toNat_ofNat, Nat.reducePow, Nat.reduceMod, Nat.reduceDvd,
    Nat.mod_mod_of_dvd]
  rw [val_sub_natCast z hn, Nat.mod_eq_of_lt hn]
  by_cases hz : n ≤ z.val
  · rw [if_pos hz]
    by_cases hzero : n = 0
    · subst hzero
      simp [hlt]
    · -- The other half of the rotation reads beyond the end of the word.
      rw [Nat.mod_eq_of_lt (by omega), BitVec.getLsbD_of_ge _ (64 - n + z.val) (by omega)]
      simp [hlt, hz]
  · rw [if_neg hz, Nat.mod_eq_of_lt (by omega), show 64 - n + z.val = 64 + z.val - n by omega]
    simp [hz]

end Bits

/-- The bits of the words, for the given places of the words at `x` and `y`. -/
def bitsAt (p : ZMod 5 → ZMod 5 → Fin 25) (a : Words) : KeccakF.State :=
  fun x y z => laneBit (a.get (p x y)) z

theorem rotation_eq_offset (m x : ZMod 5) :
    (rotation m x : ZMod 64) = (KeccakF.offset x (x + 2 * m) : ZMod 64) := by
  revert m x
  decide +kernel

theorem rotation_lt (m x : ZMod 5) : rotation m x < 64 := by
  revert m x
  decide +kernel

theorem laneBit_rc : ∀ r < 24, ∀ z, laneBit (rc.getD r 0) z = KeccakF.roundConstant r z := by
  decide +kernel

section Rounds

variable {p : ZMod 5 → ZMod 5 → Fin 25} {pos : Places} {a : Words}

/-- How the places of a round fit to those that the words have before it. -/
structure Fits (p : ZMod 5 → ZMod 5 → Fin 25) (pos : Places) : Prop where
  /-- The words stay in their columns. -/
  column : ∀ x, List.Perm [p x 0, p x 1, p x 2, p x 3, p x 4]
    [columnPlace x 0, columnPlace x 1, columnPlace x 2, columnPlace x 3, columnPlace x 4]
  /-- The words of a row come from where π takes them. -/
  from_ : ∀ m x, pos m x = p x (x + 2 * m)
  /-- Every word has its own place. -/
  apart : pos.Apart

theorem fits_places1 : Fits place places1 := by
  constructor <;> decide +kernel

theorem fits_places2 : Fits (fun x y => places1 y x) places2 := by
  constructor <;> decide +kernel

theorem fits_places3 : Fits (fun x y => places2 y x) places3 := by
  constructor <;> decide +kernel

theorem fits_places4 : Fits (fun x y => places3 y x) places4 := by
  constructor <;> decide +kernel

theorem places4_eq (x y : ZMod 5) : places4 y x = place x y := by
  revert x y
  decide +kernel

/-- The parities of the columns, wherever the words of the columns lie. -/
theorem Fits.parity (h : Fits p pos) (a : Words) (x : ZMod 5) (z : ZMod 64) :
    laneBit (parities a x) z = KeccakF.parity (bitsAt p a) x z := by
  let add (i : Fin 25) (s : Bool) : Bool := laneBit (a.get i) z ^^ s
  have hcomm : LeftCommutative add := ⟨fun _ _ _ => Bool.xor_left_comm _ _ _⟩
  have hsum (i j k l m : Fin 25) : [i, j, k, l, m].foldr add false =
      (laneBit (a.get i) z ^^ laneBit (a.get j) z ^^ laneBit (a.get k) z ^^
        laneBit (a.get l) z ^^ laneBit (a.get m) z) := by
    simp [add]
  have hperm := (h.column x).foldr_eq (f := add) false
  rw [hsum, hsum] at hperm
  unfold parities
  simp only [laneBit_xor]
  exact hperm.symm

theorem Fits.effect (h : Fits p pos) (a : Words) (x : ZMod 5) (z : ZMod 64) :
    laneBit (effects (parities a) x) z = KeccakF.effect (KeccakF.parity (bitsAt p a)) x z := by
  unfold effects KeccakF.effect
  rw [laneBit_xor, laneBit_rotl _ _ (by decide), h.parity, h.parity, Nat.cast_one]

/-- The words that make up a row have the bits that θ, ρ and π bring there. -/
theorem Fits.rowWords (h : Fits p pos) (a : Words) (m j : ZMod 5) (z : ZMod 64) :
    laneBit (rowWords (pos m) (effects (parities a)) m a j) z =
      KeccakF.pi (KeccakF.rho (KeccakF.theta (bitsAt p a))) j m z := by
  have hcolumn : ∀ m j : ZMod 5, j - (m + m) = j + 3 * m ∧ j + 3 * m + 2 * m = j := by decide
  obtain ⟨hfrom, hrow⟩ := hcolumn m j
  unfold Sha3.rowWords
  rw [laneBit_rotl _ _ (rotation_lt ..), rotation_eq_offset, laneBit_xor, h.effect, h.from_, hfrom,
    hrow]
  rfl

/-- A round does to the bits what the standard says. -/
theorem Fits.keccakRound (h : Fits p pos) (rc : UInt64) (a : Words) :
    bitsAt (fun x y => pos y x) (keccakRound pos rc a) =
      KeccakF.round (laneBit rc) (bitsAt p a) := by
  funext x y z
  have hvalue : bitsAt (fun x y => pos y x) (Sha3.keccakRound pos rc a) x y z =
      laneBit (rowValue (Sha3.rowWords (pos y) (effects (parities a)) y a) rc y x) z :=
    congrArg (laneBit · z) (get_keccakRound h.apart a y x)
  have hnext : x + 1 + 1 = x + 2 := by ring
  rw [hvalue]
  unfold rowValue KeccakF.round KeccakF.iota KeccakF.chi
  split_ifs with hfirst
  · rw [laneBit_xor, laneBit_xor, laneBit_and_not, h.rowWords, h.rowWords, h.rowWords, hnext,
      decide_eq_true hfirst.symm, Bool.true_and]
  · rw [laneBit_xor, laneBit_and_not, h.rowWords, h.rowWords, h.rowWords, hnext,
      decide_eq_false fun hxy => hfirst hxy.symm, Bool.false_and, Bool.xor_false]

/-- A turn of the loop does four rounds. -/
theorem bitsAt_keccakTurn (a : Words) {i : ℕ} (hi : i + 3 < 24) :
    bitsAt place (keccakTurn a i) = [i, i + 1, i + 2, i + 3].foldl
      (fun A r => KeccakF.round (KeccakF.roundConstant r) A) (bitsAt place a) := by
  have hrc {r : ℕ} (hr : r < 24) : laneBit (rc.getD r 0) = KeccakF.roundConstant r :=
    funext (laneBit_rc r hr)
  have hlast : bitsAt place = bitsAt fun x y => places4 y x := by
    unfold bitsAt
    simp only [places4_eq]
  unfold keccakTurn
  dsimp only
  nth_rewrite 1 [hlast]
  rw [fits_places4.keccakRound, fits_places3.keccakRound, fits_places2.keccakRound,
    fits_places1.keccakRound, hrc (by omega), hrc (by omega), hrc (by omega), hrc (by omega)]
  rfl

end Rounds

/-- The bits of the words in the order of the standard. -/
def Lanes.bits (a : Lanes) : KeccakF.State := fun x y z => laneBit (a (place x y)) z

/-- Words with the same bits. -/
theorem Lanes.bits_injective : Function.Injective Lanes.bits := by
  intro a b h
  funext i
  have hplace : ∀ i, ∃ x y, place x y = i := by decide +kernel
  obtain ⟨x, y, rfl⟩ := hplace i
  refine eq_of_laneBit fun z => ?_
  change a.bits x y z = b.bits x y z
  rw [h]

/-- The loop does four rounds in each turn. -/
theorem bitsAt_foldl_keccakTurn {turns : List ℕ} (h : ∀ i ∈ turns, i + 3 < 24) (a : Words) :
    bitsAt place (turns.foldl keccakTurn a) =
      (turns.flatMap fun i => [i, i + 1, i + 2, i + 3]).foldl
        (fun A r => KeccakF.round (KeccakF.roundConstant r) A) (bitsAt place a) := by
  induction turns generalizing a with
  | nil => rfl
  | cons i turns ih =>
    rw [List.foldl_cons, ih fun j hj => h j (List.mem_cons_of_mem i hj),
      bitsAt_keccakTurn a (h i List.mem_cons_self), List.flatMap_cons, List.foldl_append]

theorem bitsAt_loop (a : Words) : bitsAt place ([0, 4, 8, 12, 16, 20].foldl keccakTurn a) =
    KeccakF.permutation (bitsAt place a) := by
  have hturns : ∀ i ∈ [0, 4, 8, 12, 16, 20], i + 3 < 24 := by decide
  exact bitsAt_foldl_keccakTurn hturns a

theorem bitsAt_ofFn (a : Lanes) : bitsAt place (Vector.ofFn a) = a.bits := by
  funext x y z
  exact congrArg (laneBit · z) (Vector.getElem_ofFn _)

/-- `keccakF1600`, with four rounds in each turn of its loop and its words in changing places,
computes Keccak-f[1600] on the bits of every state. -/
theorem bits_keccakF1600 (a : Lanes) : (keccakF1600 a).bits = KeccakF.permutation a.bits := by
  rw [← bitsAt_ofFn a, ← bitsAt_loop]
  rfl

/-- `keccakF1600` is a permutation: no two states become the same, and every state is reached. -/
theorem keccakF1600_bijective : Function.Bijective keccakF1600 := by
  have hword : Finite UInt64 := Finite.of_injective UInt64.toFin fun _ _ h => UInt64.toFin_inj.mp h
  have hfinite : Finite Lanes := inferInstanceAs (Finite (Fin 25 → UInt64))
  refine Finite.injective_iff_bijective.mp fun a b h => Lanes.bits_injective ?_
  have hbits : bitsAt place ([0, 4, 8, 12, 16, 20].foldl keccakTurn (Vector.ofFn a)) =
      bitsAt place ([0, 4, 8, 12, 16, 20].foldl keccakTurn (Vector.ofFn b)) :=
    congrArg Lanes.bits h
  rw [bitsAt_loop, bitsAt_loop, bitsAt_ofFn, bitsAt_ofFn] at hbits
  exact KeccakF.permutation_injective hbits

end Hashgrid.Sha3
