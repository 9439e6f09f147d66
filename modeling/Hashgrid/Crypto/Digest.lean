import Hashgrid.Core.EventHash
import Hashgrid.Crypto.Sha3
import Hashgrid.Rlp.EncReader

/-!
# Digests of messages that arrive in pieces

The one-shot Keccak-256 sponge pads the whole message, absorbs it block by block and
returns the first 32 bytes of the state. A hash function that was fed with `Write` calls
stands for the message written so far: its words have taken the complete blocks, and its
buffer, at the start of its own array, has the rest. Every turn of the loop in `Write`
keeps this, `clone` carries it over to the copy, and `Read` on the copy finishes the
one-shot run.
-/

namespace Hashgrid.Sha3

open Hashgrid.Bytes Hashgrid.Sponge

/-- The words with a block, followed by zeros, added to them. -/
def xorBlock (a : Lanes) (b : List UInt8) : Lanes := fun i =>
  a i ^^^ leWord (((b ++ List.replicate (200 - b.length) 0).drop (8 * i.val)).take 8)

section Spec

variable (f : Lanes → Lanes)

/-- Absorb one block. -/
def absorbBlock (a : Lanes) (b : List UInt8) : Lanes := f (xorBlock a b)

/-- The one-shot Keccak-256 sponge. -/
def keccak256 (m : List UInt8) : List UInt8 :=
  (absorb (absorbBlock f) 136 .zero (m ++ padding 136 0x01 m.length)).bytes.take 32

/-- What the `Sum` calls have to return when the bytes `m` were written before. -/
def answers : List UInt8 → List Call → List (List UInt8)
  | _, [] => []
  | m, .write p :: cs => answers (m ++ p) cs
  | m, .sum bs :: cs => (bs ++ keccak256 f m) :: answers m cs

end Spec

/-! ## Arrays and words -/

/-- The bytes up to the end of an overwritten part. -/
theorem take_patch {n i : ℕ} {b : FixedBytes n} {bs : List UInt8} (h : i + bs.length ≤ n) :
    (patch b i bs).bytes.take (i + bs.length) = b.bytes.take i ++ bs := by
  have hlen : (b.bytes.take i ++ bs).length = i + bs.length := by
    simp [b.length_eq]
    omega
  rw [patch, List.take_take, Nat.min_eq_left h, ← hlen, List.take_left]

/-- Zeros are the word zero. -/
theorem leWord_replicate (n : ℕ) : leWord (List.replicate n 0) = 0 := by
  have hzero : ∀ k, Nat.ofDigits 256 (List.replicate k 0) = 0 := by
    intro k
    induction k with
    | zero => rfl
    | succ k ih => rw [List.replicate_succ, Nat.ofDigits_cons, ih]
  simp [leWord, bytesNat, hzero]

/-- `xorIn` adds a block of 136 bytes. -/
theorem xorIn_block {a : Lanes} {b : List UInt8} (h : b.length = 136) :
    xorIn a b = .ok (xorBlock a b) := by
  have hne : b ≠ [] := by
    rintro rfl
    cases h
  rw [xorIn, if_neg hne]
  refine congrArg Except.ok (funext fun i => ?_)
  have hread : lanesRead b.length = 17 := by
    rw [h]
    rfl
  rw [hread, xorBlock]
  by_cases hi : i.val < 17
  · rw [if_pos hi, List.drop_append_of_le_length (by omega),
      List.take_append_of_le_length (by rw [List.length_drop]; omega)]
  · -- The words behind the block meet zeros only.
    have hzeros : ((b ++ List.replicate (200 - b.length) 0).drop (8 * i.val)).take 8 =
        List.replicate (min 8 (200 - b.length - (8 * i.val - b.length))) 0 := by
      rw [List.drop_append, List.drop_eq_nil_of_le (by omega), List.nil_append,
        List.drop_replicate, List.take_replicate]
    rw [if_neg hi, hzeros, leWord_replicate, UInt64.xor_zero]

theorem Lanes.length_bytes (a : Lanes) : a.bytes.length = 200 := by
  simp [Lanes.bytes, List.length_flatMap]

theorem length_keccak256 (f : Lanes → Lanes) (m : List UInt8) : (keccak256 f m).length = 32 := by
  rw [keccak256, List.length_take, Lanes.length_bytes]
  rfl

/-! ## States in memory -/

section Memory

variable {mem : Mem} {d : ℕ} {s s' : State}

@[simp] theorem Mem.next_set : (mem.set d s).next = mem.next := Heap.next_update ..

theorem Mem.get_set (hd : d < mem.next) : (mem.set d s).get d = s := Heap.get_update_self hd _

theorem Mem.set_set : (mem.set d s).set d s' = mem.set d s' := by
  exact congrArg Heap.mk (List.modify_modify_eq ..)

end Memory

/-! ## Absorbing -/

section Absorbing

variable {f : Lanes → Lanes} {mem : Mem} {d n : ℕ} {s : State} {m p : List UInt8}

/-- The state `s` at the reference `d` is a Keccak-256 sponge that was fed with `m`, and `n`
of these bytes are in its buffer. -/
structure Fed (f : Lanes → Lanes) (d : ℕ) (s : State) (m : List UInt8) (n : ℕ) : Prop where
  /-- The rate of Keccak-256. -/
  rate : s.rate = 136
  /-- The domain byte of Keccak-256. -/
  dsbyte : s.dsbyte = 0x01
  /-- The size of the digest. -/
  outputLen : s.outputLen = 32
  /-- The sponge is absorbing. -/
  state : s.state = .absorbing
  /-- The buffer is at the start of the array of the state. -/
  buf : s.buf.getD ⟨d, 0, 0⟩ = ⟨d, 0, n⟩
  /-- The words took the complete blocks, the buffer has the rest. -/
  absorbed : Absorbed (absorbBlock f) 136 .zero m s.a (s.storage.bytes.take n)

theorem Fed.length_take (h : Fed f d s m n) : (s.storage.bytes.take n).length = n ∧ n < 136 := by
  have hshort := h.absorbed.short
  have hlen := s.storage.length_eq
  simp only [List.length_take, maxRate] at *
  omega

theorem fed_newKeccak256 (mem : Mem) :
    Fed f (newKeccak256 mem).2 ((newKeccak256 mem).1.get (newKeccak256 mem).2) [] 0 := by
  simp only [newKeccak256, Heap.get_alloc_next]
  exact ⟨rfl, rfl, rfl, rfl, rfl, Absorbed.nil (by decide)⟩

/-- `append` to the buffer. -/
theorem append_buf (hbuf : mem.bufOf d = ⟨d, 0, n⟩) (hroom : n + p.length ≤ maxRate) :
    mem.append (mem.bufOf d) p =
      .ok (mem.set d { mem.get d with storage := patch (mem.get d).storage n p },
        ⟨d, 0, n + p.length⟩) := by
  have hcap : n + p.length ≤ Slice.cap ⟨d, 0, n⟩ := hroom
  rw [hbuf, Mem.append, if_pos hcap]
  simp

/-- `permute` of a full buffer takes the block. -/
theorem permute_full (hstate : (mem.get d).state = .absorbing)
    (hbuf : (mem.get d).buf = some ⟨d, 0, 136⟩) :
    permute f mem d = .ok (mem.set d { mem.get d with
      a := absorbBlock f (mem.get d).a ((mem.get d).storage.bytes.take 136)
      buf := some ⟨d, 0, 0⟩ }) := by
  have hlen : ((mem.get d).storage.bytes.take 136).length = 136 := by
    simp [(mem.get d).storage.length_eq, maxRate]
  have hbytes : mem.bytes ⟨d, 0, 136⟩ = (mem.get d).storage.bytes.take 136 := rfl
  simp only [permute, hstate, hbuf, Option.map_some, Option.getD_some, hbytes, xorIn_block hlen]
  rfl

/-- The fast path takes a block of the input. -/
theorem writeTurn_fast (h : Fed f d (mem.get d) m 0) (hp : 136 ≤ p.length) :
    ∃ s, writeTurn f mem d p = .ok (mem.set d s, p.drop 136) ∧
      Fed f d s (m ++ p.take 136) 0 := by
  have hlen : (p.take 136).length = 136 := by simpa using hp
  have hbuf : mem.bufOf d = ⟨d, 0, 0⟩ := h.buf
  refine ⟨{ mem.get d with a := absorbBlock f (mem.get d).a (p.take 136) }, ?_,
    h.rate, h.dsbyte, h.outputLen, h.state, h.buf, ?_⟩
  · simp only [writeTurn, hbuf, h.rate, hp, and_self, if_true, xorIn_block hlen]
    rfl
  · exact h.absorbed.fill (by simpa using hp)

/-- The state with bytes written behind its buffer of `n` bytes. -/
def State.pended (s : State) (d n : ℕ) (bs : List UInt8) : State :=
  { s with storage := patch s.storage n bs, buf := some ⟨d, 0, n + bs.length⟩ }

/-- Bytes that do not fill the buffer. -/
theorem Fed.pended (h : Fed f d s m n) (hp : n + p.length < 136) :
    Fed f d (s.pended d n p) (m ++ p) (n + p.length) := by
  have hroom : n + p.length ≤ maxRate := by
    rw [maxRate]
    omega
  have hstored := take_patch (b := s.storage) hroom
  refine ⟨h.rate, h.dsbyte, h.outputLen, h.state, rfl, ?_⟩
  simp only [State.pended, hstored]
  exact h.absorbed.pend (by rw [List.length_append, h.length_take.1]; exact hp)

/-- Bytes that fill the buffer are taken with it. -/
theorem Fed.filled (h : Fed f d s m n) (hp : n + p.length = 136) :
    Fed f d { s.pended d n p with
      a := absorbBlock f s.a ((s.pended d n p).storage.bytes.take 136)
      buf := some ⟨d, 0, 0⟩ } (m ++ p) 0 := by
  have hroom : n + p.length ≤ maxRate := by
    rw [maxRate]
    omega
  have hstored := take_patch (b := s.storage) hroom
  refine ⟨h.rate, h.dsbyte, h.outputLen, h.state, rfl, ?_⟩
  rw [hp] at hstored
  simp only [State.pended, hstored, List.take_zero]
  exact h.absorbed.fill (by rw [List.length_append, h.length_take.1, hp])

/-- The slow path writes behind the buffer and takes the block when the buffer is full. -/
theorem writeTurn_slow (hd : d < mem.next) (h : Fed f d (mem.get d) m n)
    (hslow : ¬(n = 0 ∧ 136 ≤ p.length)) {todo : ℕ} (htodo : todo = min (136 - n) p.length) :
    ∃ s n', writeTurn f mem d p = .ok (mem.set d s, p.drop todo) ∧
      Fed f d s (m ++ p.take todo) n' := by
  have hlt := h.length_take.2
  have hbuf : mem.bufOf d = ⟨d, 0, n⟩ := h.buf
  have hlen : (p.take todo).length = todo := by
    rw [List.length_take]
    omega
  have hroom : n + (p.take todo).length ≤ maxRate := by
    rw [hlen, maxRate]
    omega
  have happend := append_buf hbuf hroom
  have hturn : writeTurn f mem d p = (do
      let mem := mem.set d ((mem.get d).pended d n (p.take todo))
      if n + todo = 136 then
        let mem ← permute f mem d
        return (mem, p.drop todo)
      return (mem, p.drop todo)) := by
    rw [hlen, hbuf] at happend
    simp only [writeTurn, hbuf, h.rate, hslow, if_false, ← htodo, happend]
    simp only [bind, Except.bind, Mem.set_set, Mem.get_set hd, State.pended, hlen, h.rate]
  rw [hturn]
  by_cases hfull : n + todo = 136
  · have hpended : n + (p.take todo).length = 136 := by rw [hlen, hfull]
    refine ⟨_, 0, ?_, h.filled hpended⟩
    simp only [hfull, if_true]
    rw [permute_full (by rw [Mem.get_set hd]; exact h.state)
      (by rw [Mem.get_set hd, State.pended, hpended])]
    simp only [Mem.get_set hd, Mem.set_set]
    rfl
  · refine ⟨_, _, ?_, h.pended (by rw [hlen]; omega)⟩
    simp only [hfull, if_false]
    rfl

/-- One turn of the loop in `Write` takes a part of the input that is not empty. -/
theorem writeTurn_spec (hd : d < mem.next) (h : Fed f d (mem.get d) m n) (hp : p ≠ []) :
    ∃ s n' k, writeTurn f mem d p = .ok (mem.set d s, p.drop (k + 1)) ∧
      Fed f d s (m ++ p.take (k + 1)) n' := by
  have hpos : 0 < p.length := List.length_pos_iff.mpr hp
  have hlt := h.length_take.2
  by_cases hfast : n = 0 ∧ 136 ≤ p.length
  · obtain ⟨rfl, hlen⟩ := hfast
    obtain ⟨s, hturn, hfed⟩ := writeTurn_fast h hlen
    exact ⟨s, 0, 135, hturn, hfed⟩
  · obtain ⟨k, hk⟩ : ∃ k, k + 1 = min (136 - n) p.length :=
      ⟨min (136 - n) p.length - 1, by omega⟩
    obtain ⟨s, n', hturn, hfed⟩ := writeTurn_slow hd h hfast hk
    exact ⟨s, n', k, hturn, hfed⟩

/-- The loop in `Write` takes the whole input. -/
theorem writeLoop_spec (hd : d < mem.next) (h : Fed f d (mem.get d) m n) {fuel : ℕ}
    (hfuel : p.length ≤ fuel) :
    ∃ mem' n', writeLoop f d fuel mem p = .ok mem' ∧ mem'.next = mem.next ∧
      Fed f d (mem'.get d) (m ++ p) n' := by
  induction fuel generalizing mem m n p with
  | zero =>
    have hnil : p = [] := List.eq_nil_of_length_eq_zero (by omega)
    subst hnil
    exact ⟨mem, n, rfl, rfl, by simpa using h⟩
  | succ fuel ih =>
    cases p with
    | nil => exact ⟨mem, n, rfl, rfl, by simpa using h⟩
    | cons x xs =>
      obtain ⟨s, n₁, k, hturn, hfed⟩ := writeTurn_spec hd h (List.cons_ne_nil x xs)
      rw [← Mem.get_set (s := s) hd] at hfed
      have hrest : ((x :: xs).drop (k + 1)).length ≤ fuel := by
        simp only [List.length_drop, List.length_cons] at hfuel ⊢
        omega
      obtain ⟨mem', n', hloop, hnext, hfed'⟩ := ih (by simpa using hd) hfed hrest
      refine ⟨mem', n', ?_, by simpa using hnext, ?_⟩
      · rw [writeLoop, hturn]
        exact hloop
      · rwa [List.append_assoc, List.take_append_drop] at hfed'

/-- `Write` takes the whole input. -/
theorem write_spec (hd : d < mem.next) (h : Fed f d (mem.get d) m n) (p : List UInt8) :
    ∃ mem' n', write f mem d p = .ok mem' ∧ mem'.next = mem.next ∧
      Fed f d (mem'.get d) (m ++ p) n' := by
  have hbuf : mem.bufOf d = ⟨d, 0, n⟩ := h.buf
  have hfed : Fed f d { mem.get d with buf := some ⟨d, 0, n⟩ } m n :=
    ⟨h.rate, h.dsbyte, h.outputLen, h.state, rfl, h.absorbed⟩
  rw [← Mem.get_set (s := { mem.get d with buf := some ⟨d, 0, n⟩ }) hd] at hfed
  obtain ⟨mem', n', hloop, hnext, hfed'⟩ := writeLoop_spec (by simpa using hd) hfed le_rfl
  refine ⟨mem', n', ?_, by simpa using hnext, hfed'⟩
  simp only [write, hbuf]
  rw [if_neg (not_not.mpr h.state)]
  exact hloop

/-! ## Squeezing -/

/-- The array with the domain byte and zeros behind its first `n` bytes. -/
def zeroed (st : FixedBytes maxRate) (n : ℕ) (ds : UInt8) : FixedBytes maxRate :=
  patch (patch st n [ds]) (n + 1) (List.replicate (136 - (n + 1)) 0)

/-- The array with the padding behind its first `n` bytes. -/
def padded (st : FixedBytes maxRate) (n : ℕ) (ds : UInt8) : FixedBytes maxRate :=
  patch (zeroed st n ds) 135 [(zeroed st n ds).bytes.getD 135 0 ^^^ 0x80]

/-- The first block with the domain byte and zeros. -/
theorem take_zeroed (st : FixedBytes maxRate) (hn : n < 136) (ds : UInt8) :
    (zeroed st n ds).bytes.take 136 = st.bytes.take n ++ ds :: List.replicate (135 - n) 0 := by
  have hds : n + [ds].length ≤ maxRate := by
    simp only [List.length_singleton, maxRate]
    omega
  have hzeros : n + 1 + (List.replicate (136 - (n + 1)) (0 : UInt8)).length = 136 := by
    rw [List.length_replicate]
    omega
  have hroom : n + 1 + (List.replicate (136 - (n + 1)) (0 : UInt8)).length ≤ maxRate := by
    rw [hzeros]
    decide
  have hpatch := take_patch (b := patch st n [ds]) hroom
  have hbyte : (patch st n [ds]).bytes.take (n + 1) = st.bytes.take n ++ [ds] := take_patch hds
  rw [hzeros, hbyte, List.append_assoc] at hpatch
  rw [zeroed, hpatch, show 136 - (n + 1) = 135 - n by omega]
  rfl

/-- The first block of the padded array. -/
theorem take_padded (st : FixedBytes maxRate) (hn : n < 136) (ds : UInt8) :
    (padded st n ds).bytes.take 136 = st.bytes.take n ++ padding 136 ds n := by
  have hlen : (st.bytes.take n).length = n := by
    simp only [List.length_take, st.length_eq, maxRate]
    omega
  have hzeroed := take_zeroed st hn ds
  have hlast : (zeroed st n ds).bytes.getD 135 0 =
      (ds :: List.replicate (135 - n) 0).getD (135 - n) 0 := by
    have htake : (zeroed st n ds).bytes.getD 135 0 =
        ((zeroed st n ds).bytes.take 136).getD 135 0 := by
      rw [List.getD_eq_getElem?_getD, List.getD_eq_getElem?_getD, List.getElem?_take_of_lt]
      decide
    rw [htake, hzeroed, List.getD_append_right _ _ _ _ (by omega), hlen]
  have hfront : (zeroed st n ds).bytes.take 135 =
      st.bytes.take n ++ (ds :: List.replicate (135 - n) 0).take (135 - n) := by
    have htake : (zeroed st n ds).bytes.take 135 =
        ((zeroed st n ds).bytes.take 136).take 135 := by rw [List.take_take]; rfl
    rw [htake, hzeroed, List.take_append, hlen, List.take_of_length_le (by omega)]
  have hroom : 135 + [(zeroed st n ds).bytes.getD 135 0 ^^^ 0x80].length ≤ maxRate := by
    simp [maxRate]
  have hpatch : (padded st n ds).bytes.take 136 = (zeroed st n ds).bytes.take 135 ++
      [(zeroed st n ds).bytes.getD 135 0 ^^^ 0x80] := take_patch hroom
  rw [hpatch, hfront, hlast, List.append_assoc, padding, Nat.mod_eq_of_lt hn]
  refine congrArg (st.bytes.take n ++ ·) ?_
  cases hz : 136 - 1 - n with
  | zero => simp
  | succ z => simp

/-- The words after the padded message. -/
def finalLanes (f : Lanes → Lanes) (m : List UInt8) : Lanes :=
  absorb (absorbBlock f) 136 .zero (m ++ padding 136 0x01 m.length)

/-- The words after the last block, which has the padding. -/
theorem Fed.finalLanes_eq (h : Fed f d s m n) :
    finalLanes f m = absorbBlock f s.a ((padded s.storage n 0x01).bytes.take 136) := by
  obtain ⟨hlen, hlt⟩ := h.length_take
  have hmod := h.absorbed.length_mod
  rw [hlen] at hmod
  have hpad := padding_mod 136 0x01 m.length
  rw [hmod] at hpad
  rw [take_padded _ hlt, hpad]
  refine (h.absorbed.fill ?_).absorb_eq
  rw [List.length_append, hlen, length_padding 136 (by decide), hmod]
  omega

/-- A squeezing state whose buffer is the first block of the words. -/
structure Full (d : ℕ) (s : State) (a : Lanes) : Prop where
  /-- The rate of Keccak-256. -/
  rate : s.rate = 136
  /-- The sponge is squeezing. -/
  state : s.state = .squeezing
  /-- The buffer is a block at the start of the array. -/
  buf : s.buf = some ⟨d, 0, 136⟩
  /-- The block. -/
  block : s.storage.bytes.take 136 = a.bytes.take 136

/-- The buffer with the padding. -/
theorem padBuf_spec (hd : d < mem.next) (h : Fed f d (mem.get d) m n) :
    padBuf mem d 0x01 = .ok (mem.set d { mem.get d with
      buf := some ⟨d, 0, 136⟩, storage := padded (mem.get d).storage n 0x01 }) := by
  have hlt := h.length_take.2
  have hbuf : mem.bufOf d = ⟨d, 0, n⟩ := h.buf
  have hroom : n + [(0x01 : UInt8)].length ≤ maxRate := by
    simp only [List.length_singleton, maxRate]
    omega
  have hrate : storageUpTo d 136 = .ok ⟨d, 0, 136⟩ := rfl
  simp only [padBuf, append_buf hbuf hroom, bind, Except.bind, Mem.get_set hd, Mem.set_set]
  rw [h.rate, hrate]
  rfl

/-- `padAndPermute` finishes the message and has the first output ready. -/
theorem padAndPermute_spec (hd : d < mem.next) (h : Fed f d (mem.get d) m n) :
    ∃ s, padAndPermute f mem d 0x01 = .ok (mem.set d s) ∧ Full d s (finalLanes f m) := by
  have hrate : storageUpTo d 136 = .ok ⟨d, 0, 136⟩ := rfl
  rw [padAndPermute, padBuf_spec hd h]
  simp only [bind, Except.bind]
  rw [permute_full (by rw [Mem.get_set hd]; exact h.state) (by rw [Mem.get_set hd])]
  simp only [Mem.get_set hd, Mem.set_set, h.rate, hrate, ← h.finalLanes_eq, Mem.copyOut]
  refine ⟨_, rfl, rfl, rfl, rfl, ?_⟩
  have hblock : ((finalLanes f m).bytes.take maxRate).take 136 = (finalLanes f m).bytes.take 136 :=
    List.take_take
  have hlen : ((finalLanes f m).bytes.take 136).length = 136 := by
    rw [List.length_take, Lanes.length_bytes]
    rfl
  have hroom : 0 + ((finalLanes f m).bytes.take 136).length ≤ maxRate := by
    rw [hlen]
    decide
  have hpatch := take_patch (b := padded (mem.get d).storage n 0x01) hroom
  rw [hlen] at hpatch
  simpa only [hblock, List.take_zero, List.nil_append] using hpatch

/-- `Read` of a digest from a sponge that was fed with `m`. -/
theorem read_spec (hd : d < mem.next) (h : Fed f d (mem.get d) m n) :
    ∃ s, read f mem d 32 = .ok (keccak256 f m, mem.set d s) := by
  obtain ⟨s, hpad, hfull⟩ := padAndPermute_spec hd h
  have hget : (mem.set d s).get d = s := Mem.get_set hd
  have hbuf : Mem.bufOf (mem.set d s) d = ⟨d, 0, 136⟩ := by
    rw [Mem.bufOf, hget, hfull.buf]
    rfl
  have hout : ((mem.set d s).bytes ⟨d, 0, 136⟩).take 32 = keccak256 f m := by
    have hbytes : (mem.set d s).bytes ⟨d, 0, 136⟩ = s.storage.bytes.take 136 := by
      rw [Mem.bytes, hget]
      rfl
    rw [hbytes, hfull.block, List.take_take]
    rfl
  have hlen := length_keccak256 f m
  refine ⟨{ s with buf := some ⟨d, 32, 104⟩ }, ?_⟩
  simp only [read, h.state, h.dsbyte, if_true, hpad, bind, Except.bind, readLoop, hbuf, hout, hlen,
    hget, Mem.set_set]
  exact congrArg (fun out => Except.ok (out, _)) (List.append_nil _)

/-- The buffer of the copy is in the copy, so the copy stands for the same message. -/
theorem clone_spec (h : Fed f d (mem.get d) m n) :
    ∃ s, clone mem d = .ok (mem.alloc s, mem.next) ∧ Fed f mem.next s m n := by
  have hlt := h.length_take.2
  have hbuf : mem.bufOf d = ⟨d, 0, n⟩ := h.buf
  have hstorage : storageUpTo mem.next n = .ok ⟨mem.next, 0, n⟩ := by
    rw [storageUpTo, if_pos (by rw [maxRate]; omega)]
  refine ⟨{ mem.get d with buf := some ⟨mem.next, 0, n⟩ }, ?_,
    h.rate, h.dsbyte, h.outputLen, h.state, rfl, h.absorbed⟩
  simp only [clone, h.state, hbuf, hstorage, bind, Except.bind]
  rfl

/-- `Sum` returns the digest of the message so far and leaves the hash function as it is. -/
theorem sum_spec (hd : d < mem.next) (h : Fed f d (mem.get d) m n) (bs : List UInt8) :
    ∃ mem', sum f mem d bs = .ok (bs ++ keccak256 f m, mem') ∧ d < mem'.next ∧
      mem'.get d = mem.get d := by
  obtain ⟨s, hclone, hfed⟩ := clone_spec h
  have hnext : mem.next < (mem.alloc s).next := by
    rw [Heap.next_alloc]
    omega
  rw [← Heap.get_alloc_next mem s] at hfed
  obtain ⟨s', hread⟩ := read_spec hnext hfed
  refine ⟨Mem.set (mem.alloc s) mem.next s', ?_, ?_, ?_⟩
  · simp only [sum, hclone, bind, Except.bind]
    rw [hfed.outputLen, hread]
    rfl
  · rw [Mem.next_set, Heap.next_alloc]
    omega
  · rw [Mem.set, Heap.get_update_ne _ (by omega), Heap.get_alloc_of_lt hd]

/-- The answers to any calls on a hash function that was fed with `m`. -/
theorem calls_spec (hd : d < mem.next) (h : Fed f d (mem.get d) m n) (cs : List Call) :
    ∃ mem', calls f d mem cs = .ok (answers f m cs, mem') := by
  induction cs generalizing mem m n with
  | nil => exact ⟨mem, rfl⟩
  | cons c cs ih =>
    cases c with
    | write p =>
      obtain ⟨mem₁, n₁, hwrite, hnext, hfed⟩ := write_spec hd h p
      obtain ⟨mem', hcalls⟩ := ih (by omega) hfed
      refine ⟨mem', ?_⟩
      rw [calls, hwrite]
      exact hcalls
    | sum bs =>
      obtain ⟨mem₁, hsum, hd₁, hget⟩ := sum_spec hd h bs
      obtain ⟨mem', hcalls⟩ := ih hd₁ (hget ▸ h)
      refine ⟨mem', ?_⟩
      simp only [calls, hsum, bind, Except.bind, hcalls]
      rfl

end Absorbing

/-! ## The hash of a value -/

section RlpHash

open Hashgrid.Rlp Hashgrid.Core

variable (f : Lanes → Lanes) (mem : Mem)

/-- The one-shot digest as a hash. -/
def digest (m : List UInt8) : Hash := ⟨keccak256 f m, length_keccak256 f m⟩

/-- The body of `rlpHash` for the `Write` calls of `rlp.Encode`. The slice `h[:0]` has room
for the digest, so `Sum` writes it into the array `h`. -/
def hashWrites (ws : List (List UInt8)) : Except Stop Hash := do
  let (mem, hw) := newKeccak256 mem
  let mem ← ws.foldlM (fun mem p => write f mem hw p) mem
  let (hash, _) ← sum f mem hw []
  let h : Hash := .zero 32
  return if hash.length ≤ 32 then patch h 0 hash else h

/-- `rlpHash`. The error of `rlp.Encode` is dropped, and a failed encoding writes nothing. -/
def rlpHash (x : Value) : Except Stop Hash :=
  match x.encodeTo with
  | .ok ws => hashWrites f mem ws
  | .error _ => hashWrites f mem []

variable {f mem}

/-- A sequence of `Write` calls feeds the sponge with their concatenation. -/
theorem foldlM_write {d n : ℕ} {m : List UInt8} (hd : d < mem.next)
    (h : Fed f d (mem.get d) m n) (ws : List (List UInt8)) :
    ∃ mem' n', ws.foldlM (fun mem p => write f mem d p) mem = .ok mem' ∧ d < mem'.next ∧
      Fed f d (mem'.get d) (m ++ ws.flatten) n' := by
  induction ws generalizing mem m n with
  | nil => exact ⟨mem, n, rfl, hd, by simpa using h⟩
  | cons p ws ih =>
    obtain ⟨mem₁, n₁, hwrite, hnext, hfed⟩ := write_spec hd h p
    obtain ⟨mem', n', hfold, hd', hfed'⟩ := ih (by omega) hfed
    refine ⟨mem', n', ?_, hd', ?_⟩
    · rw [List.foldlM_cons, hwrite]
      exact hfold
    · rwa [List.flatten_cons, ← List.append_assoc]

/-- The hash does not depend on how the bytes are spread over the `Write` calls. -/
theorem hashWrites_eq (ws : List (List UInt8)) :
    hashWrites f mem ws = .ok (digest f ws.flatten) := by
  have hd : (newKeccak256 mem).2 < (newKeccak256 mem).1.next := by
    simp [newKeccak256]
  obtain ⟨mem', n', hfold, hd', hfed⟩ := foldlM_write hd (fed_newKeccak256 (f := f) mem) ws
  obtain ⟨mem'', hsum, -, -⟩ := sum_spec hd' hfed []
  have hlen := length_keccak256 f ws.flatten
  simp only [hashWrites, hfold, hsum, bind, Except.bind, List.nil_append, hlen, le_refl, if_true]
  refine congrArg Except.ok (FixedBytes.ext_bytes ?_)
  have hroom : 0 + (keccak256 f ws.flatten).length ≤ 32 := by omega
  have hpatch := take_patch (b := FixedBytes.zero 32) hroom
  rw [hlen, List.take_of_length_le (FixedBytes.length_eq _).le] at hpatch
  exact hpatch

theorem hashWrites_event {ρ : Type} (e : Event ρ) {w : Encbuf}
    (h : writeIfaces e.hashFields Encbuf.empty = .ok w) :
    hashWrites f mem w.toWriter = .ok (e.hash (digest f)) := by
  rw [hashWrites_eq, Event.hash, Core.rlpHash, Core.encodeTo, h]

/-- The hash of a value is the one-shot digest of its encoding, however the encoding reaches
the hash function; and whatever `Write` and `Sum` calls are made on a new hash function, each
`Sum` returns the one-shot digest of all bytes written before it. -/
theorem rlpHash_oneShot (f : Lanes → Lanes) (mem : Mem) :
    (∀ x b, x.encodeToBytes = .ok b → ∃ h, rlpHash f mem x = .ok h ∧ h.bytes = keccak256 f b) ∧
      ∀ cs, ∃ mem', calls f (newKeccak256 mem).2 (newKeccak256 mem).1 cs =
        .ok (answers f [] cs, mem') := by
  refine ⟨fun x b hx => ?_, fun cs => ?_⟩
  · obtain ⟨ws, hws, rfl⟩ := Value.encodeTo_eq (Value.encodeToBytes_eq_ok.mp hx).1
    refine ⟨digest f ws.flatten, ?_, rfl⟩
    rw [rlpHash, hws]
    exact hashWrites_eq ws
  · exact calls_spec (by simp [newKeccak256]) (fed_newKeccak256 mem) cs

/-- The hash of a nested list. -/
theorem rlpHash_oneShot_nested :
    nestedValue.encodeToBytes = .ok [0xC5, 0x82, 1, 2, 0xC1, 0xC0] ∧
      ∃ h, rlpHash id .empty nestedValue = .ok h ∧
        h.bytes = keccak256 id [0xC5, 0x82, 1, 2, 0xC1, 0xC0] :=
  ⟨rfl, (rlpHash_oneShot id .empty).1 _ _ rfl⟩

end RlpHash

end Hashgrid.Sha3
