import Mathlib.Data.ZMod.Basic
import Mathlib.Data.Fintype.Pi
import Mathlib.Tactic.Ring

/-!
# The permutation Keccak-f[1600]

The step mappings of FIPS-202 on the bits of a state, with the offsets of the rotations and the
round constants as the standard generates them, and that the whole can be undone.

The step θ adds to each bit the parities of two columns. On the parities it is a linear map, and
repeated squaring shows what its powers are: the bits that occur twice in a square cancel. Its
64th power no longer moves bits along the lanes, and the third power of that is the identity.
-/

namespace Hashgrid.KeccakF

/-- The bits of a state, by `x`, `y` and `z`. -/
abbrev State : Type := ZMod 5 → ZMod 5 → ZMod 64 → Bool

/-- One bit for each column of a state. -/
abbrev Plane : Type := ZMod 5 → ZMod 64 → Bool

/-- The parities of the columns. -/
def parity (A : State) : Plane :=
  fun x z => A x 0 z ^^ A x 1 z ^^ A x 2 z ^^ A x 3 z ^^ A x 4 z

/-- What θ adds to the bits of a column. -/
def effect (P : Plane) : Plane := fun x z => P (x - 1) z ^^ P (x + 1) (z - 1)

/-- The step θ. -/
def theta (A : State) : State := fun x y z => A x y z ^^ effect (parity A) x z

/-- The lanes other than the first one, in the order in which ρ visits them. -/
def walk : ℕ → ZMod 5 × ZMod 5
  | 0 => (1, 0)
  | t + 1 => ((walk t).2, 2 * (walk t).1 + 3 * (walk t).2)

/-- How far ρ rotates a lane. -/
def offset (x y : ZMod 5) : ℕ :=
  (((List.range 24).map fun t => (walk t, (t + 1) * (t + 2) / 2)).lookup (x, y)).getD 0

/-- The step ρ. -/
def rho (A : State) : State := fun x y z => A x y (z - (offset x y : ZMod 64))

/-- The step π. -/
def pi (A : State) : State := fun x y z => A (x + 3 * y) x z

/-- The step χ. -/
def chi (A : State) : State := fun x y z => A x y z ^^ (!A (x + 1) y z && A (x + 2) y z)

/-- The step ι. -/
def iota (rc : ZMod 64 → Bool) (A : State) : State :=
  fun x y z => A x y z ^^ (decide (x = 0 ∧ y = 0) && rc z)

/-- The shift register behind the round constants, with its first bit as the lowest one. -/
def register : ℕ → ℕ
  | 0 => 1
  | t + 1 => if 2 * register t < 256 then 2 * register t else (2 * register t) ^^^ 0x171

/-- The constant of a round. -/
def roundConstant (r : ℕ) (z : ZMod 64) : Bool :=
  (List.range 7).any fun j => z.val = 2 ^ j - 1 && (register (j + 7 * r)).testBit 0

/-- A round with a given constant. -/
def round (rc : ZMod 64 → Bool) (A : State) : State := iota rc (chi (pi (rho (theta A))))

/-- Keccak-f[1600]. -/
def permutation (A : State) : State :=
  (List.range 24).foldl (fun A r => round (roundConstant r) A) A

/-- A power of the map of parities by θ: `mix 1` is the map itself. -/
def mix (n : ℕ) (P : Plane) : Plane :=
  fun x z => P x z ^^ P (x - n) z ^^ P (x + n) (z - n)

/-- θ on the parities. The five bits that it adds to a column are one bit to the parity. -/
theorem parity_theta (A : State) : parity (theta A) = mix 1 (parity A) := by
  funext x z
  have hadd (a b c d e f g : Bool) :
      ((a ^^ (f ^^ g)) ^^ (b ^^ (f ^^ g)) ^^ (c ^^ (f ^^ g)) ^^ (d ^^ (f ^^ g)) ^^
        (e ^^ (f ^^ g))) = ((a ^^ b ^^ c ^^ d ^^ e) ^^ f ^^ g) := by
    cases f <;> cases g <;> simp
  unfold mix
  rw [Nat.cast_one, Nat.cast_one]
  exact hadd ..

/-- Squaring doubles the distances: what is added twice cancels. -/
theorem mix_mix (n : ℕ) (P : Plane) : mix n (mix n P) = mix (2 * n) P := by
  funext x z
  have hcancel (a b c d e f : Bool) :
      ((a ^^ b ^^ c) ^^ (b ^^ d ^^ e) ^^ (c ^^ e ^^ f)) = (a ^^ d ^^ f) := by
    cases b <;> cases c <;> cases e <;> simp
  have hback (m : ZMod 5) : x - m + m = x := sub_add_cancel x m
  have hforth (m : ZMod 5) : x + m - m = x := add_sub_cancel_right x m
  have hfar (m : ZMod 5) : x - m - m = x - 2 * m := by ring
  have hnear (m : ZMod 5) : x + m + m = x + 2 * m := by ring
  have hlane (m : ZMod 64) : z - m - m = z - 2 * m := by ring
  unfold mix
  rw [hback, hforth, hfar, hnear, hlane, hcancel]
  push_cast
  rfl

/-- The powers of the map of parities by θ whose exponents are powers of two. -/
theorem mix_one_iterate (k : ℕ) : (mix 1)^[2 ^ k] = mix (2 ^ k) := by
  induction k with
  | zero => rfl
  | succ k ih =>
    rw [pow_succ, Function.iterate_mul, ih, mul_comm]
    exact funext (mix_mix (2 ^ k))

/-- The 64th power leaves the lanes alone, and its third power is the identity. -/
theorem mix_mix_mix (P : Plane) : mix 64 (mix 64 (mix 64 P)) = P := by
  rw [mix_mix]
  funext x z
  have hcancel (a b c d e : Bool) :
      ((a ^^ b ^^ c) ^^ (d ^^ e ^^ b) ^^ (e ^^ c ^^ d)) = a := by
    cases b <;> cases c <;> cases d <;> cases e <;> simp
  have hnear : ∀ x : ZMod 5, x - 4 = x + 1 ∧ x - 3 = x + 2 := by decide
  have hfar : ∀ x : ZMod 5, x + 2 + 1 = x + 3 ∧ x + 2 + 4 = x + 1 ∧ x + 3 + 1 = x + 4 ∧
      x + 3 + 4 = x + 2 := by decide
  obtain ⟨h₁, h₂, h₃, h₄⟩ := hfar x
  have h64 : ((64 : ℕ) : ZMod 5) = 4 ∧ ((64 : ℕ) : ZMod 64) = 0 := ⟨rfl, rfl⟩
  have h128 : ((2 * 64 : ℕ) : ZMod 5) = 3 ∧ ((2 * 64 : ℕ) : ZMod 64) = 0 := ⟨rfl, rfl⟩
  unfold mix
  simp only [h64, h128, sub_zero, hnear, h₁, h₂, h₃, h₄]
  exact hcancel ..

/-- θ can be undone on the parities. -/
theorem mix_one_injective : Function.Injective (mix 1) := by
  have hback (P : Plane) : (mix 1)^[191] (mix 1 P) = P := by
    rw [← Function.iterate_succ_apply, show Nat.succ 191 = 2 ^ 6 * 3 from rfl,
      Function.iterate_mul, mix_one_iterate]
    exact mix_mix_mix P
  exact Function.LeftInverse.injective hback

/-- θ can be undone. -/
theorem theta_injective : Function.Injective theta := by
  intro A B h
  have hparity : parity A = parity B := mix_one_injective (by
    rw [← parity_theta, ← parity_theta, h])
  funext x y z
  have hbit : theta A x y z = theta B x y z := by rw [h]
  unfold theta at hbit
  rw [hparity] at hbit
  exact Bool.xor_left_inj.mp hbit

/-- ρ can be undone. -/
theorem rho_injective : Function.Injective rho := by
  intro A B h
  funext x y z
  have hbit : rho A x y (z + offset x y) = rho B x y (z + offset x y) := by rw [h]
  unfold rho at hbit
  rw [add_sub_cancel_right] at hbit
  exact hbit

/-- π can be undone. -/
theorem pi_injective : Function.Injective pi := by
  intro A B h
  funext x y z
  have hlane : ∀ x y : ZMod 5, y + 3 * (2 * (x - y)) = x := by decide
  have hbit : pi A y (2 * (x - y)) z = pi B y (2 * (x - y)) z := by rw [h]
  unfold pi at hbit
  rw [hlane] at hbit
  exact hbit

/-- The five bits of a row are determined by those that χ makes of them. -/
theorem row_injective : ∀ a₀ a₁ a₂ a₃ a₄ b₀ b₁ b₂ b₃ b₄ : Bool,
    (a₀ ^^ (!a₁ && a₂)) = (b₀ ^^ (!b₁ && b₂)) → (a₁ ^^ (!a₂ && a₃)) = (b₁ ^^ (!b₂ && b₃)) →
    (a₂ ^^ (!a₃ && a₄)) = (b₂ ^^ (!b₃ && b₄)) → (a₃ ^^ (!a₄ && a₀)) = (b₃ ^^ (!b₄ && b₀)) →
    (a₄ ^^ (!a₀ && a₁)) = (b₄ ^^ (!b₀ && b₁)) →
      a₀ = b₀ ∧ a₁ = b₁ ∧ a₂ = b₂ ∧ a₃ = b₃ ∧ a₄ = b₄ := by
  decide +kernel

/-- χ can be undone. -/
theorem chi_injective : Function.Injective chi := by
  intro A B h
  funext x y z
  have hbit (x : ZMod 5) : chi A x y z = chi B x y z := by rw [h]
  obtain ⟨h₀, h₁, h₂, h₃, h₄⟩ := row_injective _ _ _ _ _ _ _ _ _ _
    (hbit 0) (hbit 1) (hbit 2) (hbit 3) (hbit 4)
  fin_cases x
  · exact h₀
  · exact h₁
  · exact h₂
  · exact h₃
  · exact h₄

/-- ι can be undone. -/
theorem iota_injective (rc : ZMod 64 → Bool) : Function.Injective (iota rc) := by
  intro A B h
  funext x y z
  have hbit : iota rc A x y z = iota rc B x y z := by rw [h]
  exact Bool.xor_left_inj.mp hbit

theorem round_injective (rc : ZMod 64 → Bool) : Function.Injective (round rc) :=
  (iota_injective rc).comp <| chi_injective.comp <| pi_injective.comp <|
    rho_injective.comp theta_injective

/-- Keccak-f[1600] can be undone. -/
theorem permutation_injective : Function.Injective permutation := by
  have hrounds (rs : List ℕ) :
      Function.Injective fun A : State => rs.foldl (fun A r => round (roundConstant r) A) A := by
    induction rs with
    | nil => exact Function.injective_id
    | cons r rs ih => exact ih.comp (round_injective (roundConstant r))
  exact hrounds (List.range 24)

end Hashgrid.KeccakF
