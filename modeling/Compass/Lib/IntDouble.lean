/-
Integers that pass through an IEEE-754 binary64.

A program that keeps an integer counter but writes `x += s * 1.0`
converts the counter to a double, adds there, and converts back. On
integers that double arithmetic has an exact description: the value is
rounded to the nearest multiple of `2 ^ e`, ties to the even quotient,
where `e` is the number of bits by which the magnitude exceeds the
53-bit significand. Nothing here mentions exponent overflow: the
largest integer the users of this file form is far below `2 ^ 1023`.

`ofInt` is the conversion, `add` the sum of two integral doubles, and
the one fact every exactness argument rests on is `ofInt_of_le`: up to
magnitude `2 ^ 53` the conversion is the identity. At `2 ^ 53 + 1` it
stops being one.
-/
import Mathlib.Data.Nat.Log
import Mathlib.Tactic.NormNum

namespace IntDouble

open Int

-- ======== the format

/-- Bits in the significand of a binary64, the hidden one included. -/
def significandBits : Nat := 53

/-- `n / 2 ^ e` rounded to nearest, ties to even. -/
def roundQuot (n e : Nat) : Nat :=
  if 2 ^ e < 2 * (n % 2 ^ e)
      ∨ (2 * (n % 2 ^ e) = 2 ^ e ∧ n / 2 ^ e % 2 = 1) then
    n / 2 ^ e + 1
  else n / 2 ^ e

/-- How many low bits of `n` do not fit the significand. -/
def excessBits (n : Nat) : Nat := Nat.log2 n + 1 - significandBits

/-- The double nearest to a natural number. -/
def roundNat (n : Nat) : Nat :=
  roundQuot n (excessBits n) * 2 ^ excessBits n

/-- The double nearest to an integer, as the integer it denotes. -/
def ofInt (x : Int) : Int :=
  if x < 0 then -(roundNat x.natAbs : Int) else (roundNat x.natAbs : Int)

/-- The sum of two integral doubles. -/
def add (x y : Int) : Int := ofInt (x + y)

-- ======== the exact range

/-- Nothing is rounded away below the significand's width. -/
theorem roundQuot_zero (n : Nat) : roundQuot n 0 = n := by
  simp [roundQuot, Nat.mod_one]

/-- Naturals up to `2 ^ 53` are doubles. -/
theorem roundNat_of_le {n : Nat} (h : n ≤ 2 ^ 53) : roundNat n = n := by
  rcases Nat.lt_or_eq_of_le h with hlt | rfl
  · have hexc : excessBits n = 0 := by
      rcases Nat.eq_zero_or_pos n with rfl | hpos
      · rfl
      · have hlog : Nat.log2 n < 53 := (Nat.log2_lt hpos.ne').mpr hlt
        unfold excessBits significandBits
        omega
    simp [roundNat, hexc, roundQuot_zero]
  · decide

/-- Integers of magnitude up to `2 ^ 53` are doubles. -/
theorem ofInt_of_le {x : Int} (h : x.natAbs ≤ 2 ^ 53) : ofInt x = x := by
  unfold ofInt
  rw [roundNat_of_le h]
  split <;> omega

/-- A sum that stays within `2 ^ 53` is exact. -/
theorem add_of_le {x y : Int} (h : (x + y).natAbs ≤ 2 ^ 53) :
    add x y = x + y :=
  ofInt_of_le h

-- The first integer that is not a double: the tie goes to the even
-- neighbour below.
example : ofInt (2 ^ 53 + 1) = 2 ^ 53 := by
  decide

-- ======== representable

/-- A number whose excess bits are all zero is its own double. -/
theorem roundNat_of_dvd {n : Nat} (h : 2 ^ excessBits n ∣ n) :
    roundNat n = n := by
  have hmod : n % 2 ^ excessBits n = 0 := Nat.mod_eq_zero_of_dvd h
  unfold roundNat roundQuot
  rw [hmod, if_neg (by omega), Nat.div_mul_cancel h]

/-- Rounding never leaves more than the significand's range of
quotients. -/
theorem roundQuot_excessBits_le (n : Nat) :
    roundQuot n (excessBits n) ≤ 2 ^ 53 := by
  have hlt : n < 2 ^ 53 * 2 ^ excessBits n := by
    rw [← Nat.pow_add]
    refine lt_of_lt_of_le Nat.lt_log2_self ?_
    refine Nat.pow_le_pow_right (by decide) ?_
    unfold excessBits significandBits
    omega
  have hdiv : n / 2 ^ excessBits n < 2 ^ 53 :=
    Nat.div_lt_of_lt_mul (by rwa [Nat.mul_comm] at hlt)
  unfold roundQuot
  split <;> omega

/-- A multiple of `2 ^ e` by at most `2 ^ 53` is its own double. -/
theorem roundNat_mul_pow {q : Nat} (hq : q ≤ 2 ^ 53) (e : Nat) :
    roundNat (q * 2 ^ e) = q * 2 ^ e := by
  apply roundNat_of_dvd
  rcases Nat.lt_or_eq_of_le hq with hlt | rfl
  · rcases Nat.eq_zero_or_pos q with rfl | hpos
    · simp
    · have hlog : Nat.log2 (q * 2 ^ e) < 53 + e := by
        have hne : q * 2 ^ e ≠ 0 := (Nat.mul_pos hpos (Nat.two_pow_pos e)).ne'
        rw [Nat.log2_lt hne, Nat.pow_add]
        exact Nat.mul_lt_mul_of_pos_right hlt (Nat.two_pow_pos e)
      have hexc : excessBits (q * 2 ^ e) ≤ e := by
        unfold excessBits significandBits
        omega
      exact Dvd.dvd.mul_left (Nat.pow_dvd_pow 2 hexc) q
  · rw [← Nat.pow_add]
    refine Nat.pow_dvd_pow 2 ?_
    unfold excessBits significandBits
    rw [Nat.log2_two_pow]
    omega

/-- From `2 ^ 53` on numbers are not rounded below it. -/
theorem le_roundNat {n : Nat} (h : 2 ^ 53 ≤ n) : 2 ^ 53 ≤ roundNat n := by
  have hlog : 53 ≤ Nat.log2 n := (Nat.le_log2 (by omega)).mpr h
  have hpow : 2 ^ Nat.log2 n ≤ n := Nat.log2_self_le (by omega)
  have hquot : 2 ^ 52 ≤ n / 2 ^ excessBits n := by
    rw [Nat.le_div_iff_mul_le (Nat.two_pow_pos _), ← Nat.pow_add]
    refine le_trans (Nat.pow_le_pow_right (by decide) ?_) hpow
    unfold excessBits significandBits
    omega
  have hround : 2 ^ 52 ≤ roundQuot n (excessBits n) := by
    unfold roundQuot
    split <;> omega
  have hone : 2 ^ 1 ≤ 2 ^ excessBits n := by
    refine Nat.pow_le_pow_right (by decide) ?_
    unfold excessBits significandBits
    omega
  calc 2 ^ 53 = 2 ^ 52 * 2 ^ 1 := by decide
    _ ≤ roundQuot n (excessBits n) * 2 ^ excessBits n := Nat.mul_le_mul hround hone

theorem ofInt_natCast (n : Nat) : ofInt n = roundNat n := by
  unfold ofInt
  rw [if_neg (by omega), natAbs_natCast]

theorem ofInt_neg (n : Nat) : ofInt (-n) = -roundNat n := by
  unfold ofInt
  rw [natAbs_neg, natAbs_natCast]
  split
  · rfl
  · obtain rfl : n = 0 := by omega
    rfl

/-- A double converted again is itself. -/
theorem ofInt_ofInt (x : Int) : ofInt (ofInt x) = ofInt x := by
  have hround : roundNat (roundNat x.natAbs) = roundNat x.natAbs :=
    roundNat_mul_pow (roundQuot_excessBits_le x.natAbs) _
  unfold ofInt
  by_cases hx : x < 0
  · rw [if_pos hx, natAbs_neg, natAbs_natCast, hround]
    split
    · rfl
    · omega
  · rw [if_neg hx, natAbs_natCast, hround, if_neg (by omega)]

/-- A sum of doubles is a double. -/
theorem ofInt_add (x y : Int) : ofInt (add x y) = add x y :=
  ofInt_ofInt (x + y)

end IntDouble
