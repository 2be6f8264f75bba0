/-
  Foundation/Bitwise.lean --- masking and rounding of unbounded integers.

  `x & ~m` and the rounding idiom `(x + a - 1) & ~(a - 1)` over integers of any
  size and sign, with two's complement reading of the negative ones.  For a
  power of two the idiom rounds up to a multiple; for any other positive `a` it
  still never goes below `x`, and that is all it does.
-/
import Mathlib.Data.Int.Bitwise
import Mathlib.Data.Nat.Bitwise
import Mathlib.Tactic.Positivity
import Mathlib.Tactic.Ring

set_option autoImplicit false

namespace SoftHier.Foundation

/-! ## Natural numbers -/

namespace NatBits

/-- `x & ~m` on natural numbers. -/
def andNot (x m : Nat) : Nat := x ^^^ (x &&& m)

@[simp] theorem testBit_andNot (x m i : Nat) :
    (andNot x m).testBit i = (x.testBit i && !m.testBit i) := by
  simp only [andNot, Nat.testBit_xor, Nat.testBit_and]
  cases x.testBit i <;> cases m.testBit i <;> rfl

/-- The mask clears exactly Mathlib's set difference of the bits. -/
theorem andNot_eq_ldiff (x m : Nat) : andNot x m = Nat.ldiff x m :=
  Nat.eq_of_testBit_eq fun i => by rw [testBit_andNot, Nat.testBit_ldiff]

theorem div_two_andNot (x m : Nat) : andNot x m / 2 = andNot (x / 2) (m / 2) := by
  simp only [andNot, Nat.xor_div_two, Nat.and_div_two]

theorem and_add_andNot (x m : Nat) : (x &&& m) + andNot x m = x := by
  induction x using Nat.strong_induction_on generalizing m with
  | h x ih =>
    by_cases hx : x = 0
    · subst hx; simp [andNot]
    · have half := ih (x / 2) (by omega) (m / 2)
      have hand : (x &&& m) / 2 = (x / 2) &&& (m / 2) := Nat.and_div_two
      have hnot := div_two_andNot x m
      have band : (x &&& m) % 2 = 1 ↔ x % 2 = 1 ∧ m % 2 = 1 := by
        rw [Nat.and_mod_two_eq_one]
      have bnot : andNot x m % 2 = 1 ↔ x % 2 = 1 ∧ ¬ m % 2 = 1 := by
        rw [andNot, Nat.xor_mod_two_eq_one, Nat.and_mod_two_eq_one]
        tauto
      omega

theorem or_add_and (x m : Nat) : (x ||| m) + (x &&& m) = x + m := by
  induction x using Nat.strong_induction_on generalizing m with
  | h x ih =>
    by_cases hx : x = 0
    · subst hx; simp
    · have half := ih (x / 2) (by omega) (m / 2)
      have hand : (x &&& m) / 2 = (x / 2) &&& (m / 2) := Nat.and_div_two
      have hor : (x ||| m) / 2 = (x / 2) ||| (m / 2) := Nat.or_div_two
      have band : (x &&& m) % 2 = 1 ↔ x % 2 = 1 ∧ m % 2 = 1 := by
        rw [Nat.and_mod_two_eq_one]
      have bor : (x ||| m) % 2 = 1 ↔ x % 2 = 1 ∨ m % 2 = 1 := by
        rw [Nat.or_mod_two_eq_one]
      omega

theorem le_andNot_add (x m : Nat) : x ≤ andNot x m + m := by
  have h := and_add_andNot x m
  have hle : x &&& m ≤ m := Nat.and_le_right
  omega

theorem andNot_two_pow_sub_one (x k : Nat) : andNot x (2 ^ k - 1) = x - x % 2 ^ k := by
  have h := and_add_andNot x (2 ^ k - 1)
  rw [Nat.and_two_pow_sub_one_eq_mod] at h
  omega

theorem or_two_pow_sub_one (x k : Nat) : x ||| (2 ^ k - 1) = x - x % 2 ^ k + (2 ^ k - 1) := by
  have h := or_add_and x (2 ^ k - 1)
  rw [Nat.and_two_pow_sub_one_eq_mod] at h
  have hle := Nat.mod_le x (2 ^ k)
  omega

end NatBits

/-! ## Integers -/

namespace IntBits

/-- `x & ~m` on integers of either sign. -/
def andNot : Int → Int → Int
  | .ofNat x, .ofNat m => .ofNat (NatBits.andNot x m)
  | .ofNat x, .negSucc m => .ofNat (x &&& m)
  | .negSucc x, .ofNat m => .negSucc (x ||| m)
  | .negSucc x, .negSucc m => .ofNat (NatBits.andNot m x)

/-- The case definition is Mathlib's set difference of two's complement bits. -/
theorem andNot_eq_ldiff (x m : Int) : andNot x m = Int.ldiff x m := by
  cases x with
  | ofNat x =>
    cases m with
    | ofNat m => exact congrArg Int.ofNat (NatBits.andNot_eq_ldiff x m)
    | negSucc m => rfl
  | negSucc x =>
    cases m with
    | ofNat m => rfl
    | negSucc m => exact congrArg Int.ofNat (NatBits.andNot_eq_ldiff m x)

/-- Masking with a non-negative mask removes at most the mask. -/
theorem sub_le_andNot {m : Int} (hm : 0 ≤ m) (x : Int) : x - m ≤ andNot x m := by
  obtain ⟨m, rfl⟩ := Int.eq_ofNat_of_zero_le hm
  cases x with
  | ofNat x =>
    have h := NatBits.le_andNot_add x m
    show (x : Int) - (m : Int) ≤ (NatBits.andNot x m : Int)
    omega
  | negSucc x =>
    have h := NatBits.or_add_and x m
    show Int.negSucc x - (m : Int) ≤ Int.negSucc (x ||| m)
    omega

theorem andNot_nonneg_of_neg {m : Int} (hm : m < 0) (x : Int) : 0 ≤ andNot x m := by
  cases m with
  | ofNat m => exact absurd hm (by simp)
  | negSucc m => cases x <;> exact Int.natCast_nonneg _

@[simp] theorem andNot_self (x : Int) : andNot x x = 0 := by
  cases x <;> simp [andNot, NatBits.andNot]

theorem andNot_two_pow_sub_one (x : Int) (k : Nat) :
    andNot x ((2 : Int) ^ k - 1) = (2 : Int) ^ k * (x / 2 ^ k) := by
  have hpos : 0 < 2 ^ k := Nat.two_pow_pos k
  have hmask : ((2 : Int) ^ k - 1) = Int.ofNat (2 ^ k - 1) := by
    have : ((2 ^ k - 1 : Nat) : Int) = (2 : Int) ^ k - 1 := by
      rw [Int.ofNat_sub hpos]; simp
    exact this.symm
  rw [hmask]
  cases x with
  | ofNat x =>
    show ((NatBits.andNot x (2 ^ k - 1) : Nat) : Int) = 2 ^ k * ((x : Int) / 2 ^ k)
    rw [NatBits.andNot_two_pow_sub_one]
    have h := Nat.div_add_mod x (2 ^ k)
    have hdiv : ((x / 2 ^ k : Nat) : Int) = (x : Int) / 2 ^ k := by
      rw [Int.natCast_ediv, Int.natCast_pow]
      rfl
    have heq : x - x % 2 ^ k = 2 ^ k * (x / 2 ^ k) := by omega
    rw [heq, ← hdiv]
    push_cast
    rfl
  | negSucc x =>
    show Int.negSucc (x ||| (2 ^ k - 1)) = 2 ^ k * (Int.negSucc x / 2 ^ k)
    have hdiv : Int.negSucc x / ((2 ^ k : Nat) : Int) = -(((x / 2 ^ k : Nat) : Int) + 1) := by
      rw [Int.negSucc_ediv _ (by exact_mod_cast hpos)]
      rfl
    have hpow : ((2 ^ k : Nat) : Int) = (2 : Int) ^ k := by simp
    rw [← hpow, hdiv, NatBits.or_two_pow_sub_one, Int.negSucc_eq]
    have h := Nat.div_add_mod x (2 ^ k)
    have heq : x - x % 2 ^ k = 2 ^ k * (x / 2 ^ k) := by omega
    rw [heq, Int.natCast_add, Int.ofNat_sub hpos]
    push_cast
    ring

end IntBits

/-! ## Rounding up -/

/-- `(x + align - 1) & ~(align - 1)`. -/
def alignUp (x align : Int) : Int := IntBits.andNot (x + align - 1) (align - 1)

theorem le_alignUp {align : Int} (h : 1 ≤ align) (x : Int) : x ≤ alignUp x align := by
  have hle := IntBits.sub_le_andNot (m := align - 1) (by omega) (x + align - 1)
  unfold alignUp
  omega

/-- Zero rounds to zero, whatever the alignment. -/
@[simp] theorem alignUp_zero (align : Int) : alignUp 0 align = 0 := by
  rw [alignUp, show (0 : Int) + align - 1 = align - 1 by omega, IntBits.andNot_self]

/-- A non-negative number never rounds to a negative one, whatever the alignment. -/
theorem alignUp_nonneg {x : Int} (hx : 0 ≤ x) (align : Int) : 0 ≤ alignUp x align := by
  by_cases h : 1 ≤ align
  · exact le_trans hx (le_alignUp h x)
  · exact IntBits.andNot_nonneg_of_neg (by omega) _

theorem alignUp_two_pow (x : Int) (k : Nat) :
    alignUp x (2 ^ k) = 2 ^ k * ((x + 2 ^ k - 1) / 2 ^ k) :=
  IntBits.andNot_two_pow_sub_one _ k

theorem dvd_alignUp_two_pow (x : Int) (k : Nat) : (2 : Int) ^ k ∣ alignUp x (2 ^ k) := by
  rw [alignUp_two_pow]
  exact Int.dvd_mul_right _ _

/-- Rounding up to a power of two does not pass a multiple of it. -/
theorem alignUp_two_pow_le {x bound : Int} {k : Nat} (hx : x ≤ bound)
    (hb : (2 : Int) ^ k ∣ bound) : alignUp x (2 ^ k) ≤ bound := by
  obtain ⟨c, rfl⟩ := hb
  have hpos : (0 : Int) < 2 ^ k := by positivity
  rw [alignUp_two_pow]
  refine mul_le_mul_of_nonneg_left ?_ hpos.le
  have hlt : x + 2 ^ k - 1 < 2 ^ k * (c + 1) := by
    rw [mul_add, mul_one]
    omega
  exact Int.lt_add_one_iff.mp (Int.ediv_lt_of_lt_mul hpos (by rwa [mul_comm]))

/-- Rounding up to a power of two leaves exactly its multiples alone. -/
theorem alignUp_two_pow_eq_iff {x : Int} {k : Nat} :
    alignUp x (2 ^ k) = x ↔ (2 : Int) ^ k ∣ x := by
  constructor
  · intro h
    have hdvd := dvd_alignUp_two_pow x k
    rwa [h] at hdvd
  · intro h
    have hpos : (0 : Int) < 2 ^ k := by positivity
    exact le_antisymm (alignUp_two_pow_le (le_refl x) h) (le_alignUp (by omega) x)

end SoftHier.Foundation
