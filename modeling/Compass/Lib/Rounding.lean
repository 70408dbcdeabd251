/-
Rounding to the nearest integer, ties away from zero, and what becomes of it
when digits are cut off one by one.

`nearest` is the rounding of a rational number. `tenth` is the same for a
tenth, in integers, and `tenth^[k]` rounds k times; that is not the same as to
round once to k digits less: a 4 that a 5 behind it rounds up is a 5 then
(`iterate_tenth_eq_nearest_iff`).
-/
import Mathlib.Data.Rat.Floor
import Mathlib.Tactic.Positivity

namespace Rounding

open Int

/-- The nearest integer, ties away from zero. -/
def nearest (q : ℚ) : Int :=
  if 0 ≤ q then ⌊q + 1 / 2⌋ else -⌊-q + 1 / 2⌋

theorem nearest_neg (q : ℚ) : nearest (-q) = -nearest q := by
  rcases lt_trichotomy q 0 with h | rfl | h
  · rw [nearest, nearest, if_pos (by linarith), if_neg (by linarith), neg_neg]
  · norm_num [nearest]
  · rw [nearest, nearest, if_neg (by linarith), if_pos (by linarith), neg_neg]

theorem nearest_intCast (n : Int) : nearest n = n := by
  have hnat : ∀ m : Int, 0 ≤ m → nearest m = m := by
    intro m hm
    have hcast : (0 : ℚ) ≤ m := by exact_mod_cast hm
    rw [nearest, if_pos hcast, floor_eq_iff]
    constructor <;> linarith
  rcases le_total 0 n with h | h
  · exact hnat n h
  · have hneg := hnat (-n) (by omega)
    rw [cast_neg, nearest_neg] at hneg
    omega

/-- In integers: half of the divisor is added before the division. -/
theorem nearest_div (n d : Nat) (hd : 0 < d) :
    nearest ((n : ℚ) / d) = ((2 * n + d) / (2 * d) : Nat) := by
  rw [nearest, if_pos (by positivity)]
  have hsum : (n : ℚ) / d + 1 / 2 = ((2 * n + d : Nat) : ℚ) / ((2 * d : Nat) : ℚ) := by
    push_cast
    field_simp
  rw [hsum, Rat.floor_natCast_div_natCast]
  norm_cast

theorem nearest_abs_le {q : ℚ} {n : Int} (h : n ≤ |q|) : n ≤ |nearest q| := by
  have hpos : ∀ r : ℚ, 0 ≤ r → n ≤ r → n ≤ |nearest r| := by
    intro r hr hle
    refine le_trans ?_ (le_abs_self _)
    rw [nearest, if_pos hr, le_floor]
    linarith
  rcases le_total 0 q with hq | hq
  · exact hpos q hq (by rwa [abs_of_nonneg hq] at h)
  · have hneg := hpos (-q) (by linarith) (by rwa [abs_of_nonpos hq] at h)
    rwa [nearest_neg, abs_neg] at hneg

-- ======== tenths

/-- The nearest integer to a tenth. -/
def tenth (n : Nat) : Nat :=
  (n + 5) / 10

/-- A five in each of the last k places. -/
def fives : Nat → Nat
  | 0 => 0
  | k + 1 => 10 * fives k + 5

theorem nine_mul_fives (k : Nat) : 9 * fives k + 5 = 5 * 10 ^ k := by
  induction k with
  | zero => rfl
  | succ k ih =>
    rw [fives, pow_succ]
    omega

/-- Every round adds its five. -/
theorem iterate_tenth (n k : Nat) : tenth^[k] n = (n + fives k) / 10 ^ k := by
  induction k generalizing n with
  | zero => simp [fives]
  | succ k ih =>
    rw [Function.iterate_succ_apply, ih, tenth, fives, pow_succ', ← Nat.div_div_eq_div_mul]
    congr 1
    omega

/-- The digits that are cut off begin with a 4 that is rounded up to a 5. -/
def RoundsTwice (n k : Nat) : Prop :=
  4 * (10 ^ k - 1) < 9 * (n % 10 ^ k) ∧ 2 * (n % 10 ^ k) < 10 ^ k

theorem iterate_tenth_eq_nearest_iff (n k : Nat) :
    (tenth^[k] n : Int) = nearest ((n : ℚ) / (10 ^ k : Nat)) ↔ ¬ RoundsTwice n k := by
  have hpos : 0 < 10 ^ k := by positivity
  have hfives := nine_mul_fives k
  have hmod := Nat.mod_lt n hpos
  have hdiv := Nat.div_add_mod n (10 ^ k)
  rw [nearest_div n _ hpos, iterate_tenth, RoundsTwice, Nat.cast_inj]
  generalize 10 ^ k = d at *
  generalize n % d = c at *
  generalize n / d = q at *
  subst hdiv
  have hleft : (d * q + c + fives k) / d = q + (c + fives k) / d := by
    rw [add_assoc, Nat.mul_add_div hpos]
  have hright : (2 * (d * q + c) + d) / (2 * d) = q + (2 * c + d) / (2 * d) := by
    rw [show 2 * (d * q + c) + d = 2 * d * q + (2 * c + d) by ring, Nat.mul_add_div (by omega)]
  rw [hleft, hright, Nat.add_left_cancel_iff]
  have hbit : ∀ a b : Nat, a < 2 * b → a / b = if b ≤ a then 1 else 0 := by
    intro a b hab
    split
    · next h => exact Nat.div_eq_of_lt_le (by omega) (by omega)
    · next h => exact Nat.div_eq_of_lt (by omega)
  rw [hbit _ _ (by omega), hbit _ _ (by omega)]
  split_ifs <;> simp <;> omega

end Rounding
