/-
`BCH3Interval` and `BCH3_Range`.

The loop takes the bits of the bound off from below. A block of keys that
a bit stands for sums to the sign of its first key times the size of the
block, as long as the seed has no bit below; from the first bit of the
seed on every block sums to zero, and the loop stops there.

The block of the highest bit has `2 ^ 31` keys, and its term is the `int`
one shifted left by 31, which is `-2 ^ 31` for either sign of the key. The
loop gets there when the bound has its highest bit and the seed none but
perhaps that one. With the sign plus, the sum is then `2 ^ 32` too small
(`bch3Interval_eq`).

A range subtracts two such sums, so the loss of both cancels; and past
the last key the upper sum is zero, which is right for every seed but
zero, since all keys together sum to zero.

`EH3Interval` and `EH3_Range`.

Each round of the loop takes one digit base four off the bound and adds
the sums of the blocks of keys that the digit stands for. A block's sum
is the sign of its first key, times two for each lower digit, with one
more change of sign for each digit of the seed that is three: the count
that the loop carries along (`eh3IntervalLoop_eq`). So the sum below a
bound is exact for every bound.

A range is the difference of two such sums, and its upper bound is taken
in 32 bits. Past the last key the bound is zero, and what is missing then
is the sum over all keys, which is never zero.
-/
import Mathlib.Tactic.Linarith
import Compass.Sketch.Proofs.Parity

namespace Compass.Sketch

namespace Host

open DigitSum Finset Nat

-- ======== the loss

/-- What the sum below a bound lacks. -/
def lost (i1 s0 : UInt32) (gamma : Nat) : Int :=
  if 2 ^ 31 ≤ gamma ∧ Overflows i1 s0 then 2 ^ 32 else 0

theorem seedSign_eq (s0 : UInt32) : seedSign s0 = if s0.toNat % 2 = 1 then 1 else -1 := by
  have hbit := bit_ne_zero s0 (i := 0) (by decide)
  rw [show UInt32.ofNat 0 = 0 from rfl, UInt32.shiftRight_zero, Nat.pow_zero, Nat.div_one] at hbit
  unfold seedSign
  simp only [hbit]

theorem lost_zero (i1 s0 : UInt32) : lost i1 s0 0 = 0 :=
  if_neg fun h => absurd h.1 (by decide)

/-- The highest bit stays with the upper digits. -/
theorem lost_half (i1 s0 : UInt32) {i u : Nat} (hi : i < 31) :
    lost i1 s0 (u / 2 * 2 ^ (i + 1)) = lost i1 s0 (u * 2 ^ i) := by
  have hpow : (2 : Nat) ^ 31 = 2 ^ (30 - i) * 2 * 2 ^ i := by
    rw [← Nat.pow_succ, ← Nat.pow_add]
    congr 1
    omega
  have hiff : 2 ^ 31 ≤ u / 2 * 2 ^ (i + 1) ↔ 2 ^ 31 ≤ u * 2 ^ i := by
    rw [hpow, Nat.pow_succ', ← Nat.mul_assoc, Nat.mul_le_mul_right_iff (Nat.two_pow_pos i),
      Nat.mul_le_mul_right_iff (Nat.two_pow_pos i)]
    omega
  unfold lost
  simp only [hiff]

theorem lost_eq_zero {i1 s0 : UInt32} {i : Nat} (hi : i ≤ 31) (hbit : i1.toNat % 2 ^ i ≠ 0)
    (gamma : Nat) : lost i1 s0 gamma = 0 := by
  refine if_neg fun h => hbit ?_
  have hdvd : 2 ^ i ∣ i1.toNat :=
    (pow_dvd_pow 2 hi).trans (dvd_of_mod_eq_zero h.2.1)
  exact mod_eq_zero_of_dvd hdvd

/-- The term of a block, with what its shift loses. -/
theorem shl32_bch3 {s0 i1 : UInt32} {i u : Nat} (hi : i < 32) (hfit : u * 2 ^ i < 2 ^ 32)
    (hodd : u % 2 = 1) (hlow : i1.toNat % 2 ^ i = 0) :
    shl32 (bch3 s0 i1 (UInt32.ofNat (u / 2 * 2 ^ (i + 1)))) i
        - lost i1 s0 (u / 2 * 2 ^ (i + 1))
      = seedSign s0 * (bch3Chi i1 (u / 2 * 2 ^ (i + 1)) * 2 ^ i) - lost i1 s0 (u * 2 ^ i) := by
  have hchi : bch3 s0 i1 (UInt32.ofNat (u / 2 * 2 ^ (i + 1)))
      = seedSign s0 * bch3Chi i1 (u / 2 * 2 ^ (i + 1)) := bch3_eq_chi s0 i1 _
  by_cases hlast : i = 31
  · subst hlast
    obtain rfl : u = 1 := by omega
    rw [hchi, show 1 / 2 * 2 ^ (31 + 1) = 0 from rfl, bch3Chi_zero, lost_zero, lost, seedSign_eq]
    by_cases hplus : s0.toNat % 2 = 1
    · rw [if_pos hplus, if_pos ⟨by decide, hlow, hplus⟩]
      decide
    · rw [if_neg hplus, if_neg fun h => hplus h.2.2]
      decide
  · have hcases : bch3 s0 i1 (UInt32.ofNat (u / 2 * 2 ^ (i + 1))) = 1
        ∨ bch3 s0 i1 (UInt32.ofNat (u / 2 * 2 ^ (i + 1))) = -1 := by
      unfold bch3
      split <;> simp
    rw [shl32_of_small hcases (by omega), hchi, lost_half i1 s0 (by omega)]
    ring

-- ======== the loop

/-- What the loop adds, from bit `i` on. -/
theorem bch3IntervalLoop_eq (s0 i1 : UInt32) {n i u : Nat} (hi : i + 1 + n = 32)
    (hfit : u * 2 ^ (i + 1) < 2 ^ 32) (hlow : i1.toNat % 2 ^ i = 0) (sum : Int) :
    bch3IntervalLoop s0 i1 (List.range' (i + 1) n) (UInt32.ofNat (u * 2 ^ (i + 1))) sum
      = sum + seedSign s0 * ∑ j ∈ range (u * 2 ^ (i + 1)), bch3Chi i1 j
        - lost i1 s0 (u * 2 ^ (i + 1)) := by
  induction n generalizing i u sum with
  | zero =>
    have hu : u = 0 := by
      obtain rfl : i = 31 := by omega
      omega
    subst hu
    simp [bch3IntervalLoop, lost_zero]
  | succ n ih =>
    rw [List.range'_succ, bch3IntervalLoop]
    by_cases hzero : UInt32.ofNat (u * 2 ^ (i + 1)) = 0
    · have hnat : u * 2 ^ (i + 1) = 0 := by
        rw [← UInt32.toNat_ofNat_of_lt' hfit, hzero]
        rfl
      rw [if_pos hzero, hnat, sum_range_zero, lost_zero, mul_zero, add_zero, sub_zero]
    rw [if_neg hzero, Nat.add_sub_cancel]
    have hbelow := below_bch3Chi i1 (k := i + 1) (by omega)
    have hmod := Nat.mod_pow_succ (x := i1.toNat) (b := 2) (k := i)
    rw [hlow, Nat.zero_add] at hmod
    by_cases hseed : (i1 >>> UInt32.ofNat i) &&& 1 ≠ 0
    · -- a bit of the seed: the blocks from here on sum to zero
      have hbit : i1.toNat % 2 ^ (i + 1) ≠ 0 := by
        rw [hmod, (bit_ne_zero i1 (by omega)).mp hseed]
        omega
      have hsum := (bch3Chi_splits i1).sum_digits (k := i + 1) (u := 0) (t := u)
        (by rw [Nat.zero_add]; exact hfit.le)
      rw [hbelow, if_neg hbit, Nat.zero_add] at hsum
      rw [if_pos hseed, hsum, lost_eq_zero (by omega) hbit]
      simp
    · have hclear : i1.toNat % 2 ^ (i + 1) = 0 := by
        have heven : i1.toNat / 2 ^ i % 2 = 0 := by
          have := mt (bit_ne_zero i1 (i := i) (by omega)).mpr hseed
          omega
        rw [hmod, heven, Nat.mul_zero]
      rw [if_pos hclear] at hbelow
      have hu : u / 2 * 2 + u % 2 = u := by omega
      have hnext : u / 2 * 2 ^ (i + 1 + 1) = u / 2 * 2 * 2 ^ (i + 1) := by ring
      have hsum := (bch3Chi_splits i1).sum_digits (k := i + 1) (u := u / 2 * 2) (t := u % 2)
        (by rw [hu]; exact hfit.le)
      rw [hu, hbelow, ← hnext] at hsum
      have hsmaller : u / 2 * 2 ^ (i + 1 + 1) < 2 ^ 32 := by
        refine lt_of_le_of_lt ?_ hfit
        rw [hnext]
        exact Nat.mul_le_mul_right _ (by omega)
      have hdigit : UInt32.ofNat (u * 2 ^ (i + 1)) >>> UInt32.ofNat (i + 1) &&& 1 ≠ 0
          ↔ u % 2 = 1 := by
        rw [bit_ne_zero _ (by omega), UInt32.toNat_ofNat_of_lt' hfit,
          Nat.mul_div_cancel _ (Nat.two_pow_pos _)]
      rw [if_neg hseed]
      by_cases hodd : u % 2 = 1
      · have hterm := @shl32_bch3 s0 i1 (i + 1) u (by omega) hfit hodd hclear
        have hfirst : (u / 2 * 2 + 0) * 2 ^ (i + 1) = u / 2 * 2 ^ (i + 1 + 1) := by ring
        rw [if_pos (hdigit.mpr hodd)]
        rw [take_bit (by omega) hodd, ih (by omega) hsmaller hclear, hsum, hodd,
          sum_range_one, hfirst]
        linarith
      · have hsame : u * 2 ^ (i + 1) = u / 2 * 2 ^ (i + 1 + 1) := by
          rw [hnext]
          congr 1
          omega
        rw [if_neg (mt hdigit.mp hodd), hsame, ih (by omega) hsmaller hclear]

theorem sum_bch3 (s0 i1 : UInt32) (n : Nat) :
    ∑ k ∈ range n, bch3 s0 i1 (UInt32.ofNat k)
      = seedSign s0 * ∑ j ∈ range n, bch3Chi i1 j := by
  rw [mul_sum]
  exact sum_congr rfl fun k _ => bch3_eq_chi s0 i1 _

/-- The fast sum is the sum over all keys below the bound, but for the
loss. -/
theorem bch3Interval_eq (gamma i1 s0 : UInt32) :
    bch3Interval gamma i1 s0
      = ∑ k ∈ range gamma.toNat, bch3 s0 i1 (UInt32.ofNat k) - lost i1 s0 gamma.toNat := by
  have hlt : gamma.toNat < 2 ^ 32 := gamma.toNat_lt
  have hbit := bit_ne_zero gamma (i := 0) (by decide)
  rw [show UInt32.ofNat 0 = 0 from rfl, UInt32.shiftRight_zero, Nat.pow_zero, Nat.div_one] at hbit
  have hloop := bch3IntervalLoop_eq s0 i1 (n := 31) (i := 0) (u := gamma.toNat / 2) rfl
    (by omega) (Nat.mod_one _)
  rw [Nat.zero_add, Nat.pow_one] at hloop
  have hlost : lost i1 s0 (gamma.toNat / 2 * 2) = lost i1 s0 gamma.toNat := by
    have hiff : 2 ^ 31 ≤ gamma.toNat / 2 * 2 ↔ 2 ^ 31 ≤ gamma.toNat := by omega
    unfold lost
    simp only [hiff]
  unfold bch3Interval
  by_cases hodd : gamma.toNat % 2 = 1
  · have hleft : gamma - 1 = UInt32.ofNat (gamma.toNat / 2 * 2) := by
      rw [UInt32.sub_eq_iff_eq_add, show (1 : UInt32) = UInt32.ofNat 1 from rfl,
        ← UInt32.ofNat_add, ← hodd, Nat.div_add_mod', UInt32.ofNat_toNat]
    have hsum : ∑ k ∈ range gamma.toNat, bch3 s0 i1 (UInt32.ofNat k)
        = ∑ k ∈ range (gamma.toNat / 2 * 2), bch3 s0 i1 (UInt32.ofNat k)
          + bch3 s0 i1 (UInt32.ofNat (gamma.toNat / 2 * 2)) := by
      rw [← sum_range_succ]
      congr 2
      omega
    rw [if_pos (hbit.mpr hodd), hleft, hloop, hsum, sum_bch3, hlost]
    ring
  · have heven : gamma.toNat / 2 * 2 = gamma.toNat := by omega
    rw [heven, UInt32.ofNat_toNat] at hloop
    rw [if_neg (mt hbit.mp hodd), hloop, sum_bch3]
    ring

-- ======== the range

/-- All keys together. -/
theorem sum_all_bch3 (s0 i1 : UInt32) :
    ∑ k ∈ range (2 ^ 32), bch3 s0 i1 (UInt32.ofNat k)
      = if i1 = 0 then seedSign s0 * 2 ^ 32 else 0 := by
  have hbelow := below_bch3Chi i1 (k := 32) le_rfl
  rw [below, mod_eq_of_lt i1.toNat_lt] at hbelow
  have hzero : i1.toNat = 0 ↔ i1 = 0 := UInt32.toNat_inj (b := 0)
  rw [sum_bch3, hbelow]
  simp only [hzero]
  split
  · rfl
  · exact mul_zero _

theorem lost_eq_iff {i1 s0 : UInt32} {a b : Nat} (h : a ≤ b) :
    lost i1 s0 b = lost i1 s0 a ↔ ¬ (Overflows i1 s0 ∧ a < 2 ^ 31 ∧ 2 ^ 31 ≤ b) := by
  unfold lost
  by_cases hover : Overflows i1 s0
  · by_cases ha : 2 ^ 31 ≤ a
    · rw [if_pos ⟨le_trans ha h, hover⟩, if_pos ⟨ha, hover⟩]
      exact iff_of_true rfl fun hbad => absurd hbad.2.1 (by omega)
    · by_cases hb : 2 ^ 31 ≤ b
      · rw [if_pos ⟨hb, hover⟩, if_neg fun hpair => ha hpair.1]
        exact iff_of_false (by decide) (not_not.mpr ⟨hover, by omega, hb⟩)
      · rw [if_neg fun hpair => hb hpair.1, if_neg fun hpair => ha hpair.1]
        exact iff_of_true rfl fun hbad => hb hbad.2.2
  · rw [if_neg fun hpair => hover hpair.2, if_neg fun hpair => hover hpair.2]
    exact iff_of_true rfl fun hbad => hover hbad.1

end Host

open Host

theorem bch3Range_eq_iff {alpha beta : UInt32} (i1 s0 : UInt32) (h : alpha ≤ beta) :
    bch3Range alpha beta i1 s0
        = ∑ k ∈ Finset.Icc alpha.toNat beta.toNat, bch3 s0 i1 (UInt32.ofNat k)
      ↔ RangeExact alpha beta i1 s0 := by
  have hle : alpha.toNat ≤ beta.toNat := UInt32.le_iff_toNat_le.mp h
  unfold bch3Range RangeExact
  rw [sum_Icc _ hle, bch3Interval_eq alpha]
  rcases toNat_succ beta with ⟨hmax, hnext⟩ | ⟨hmax, hnext⟩
  · rw [bch3Interval_eq (beta + 1), hnext, if_pos hmax, ← lost_eq_iff (by omega)]
    constructor
    · intro heq
      linarith
    · intro heq
      rw [heq]
      ring
  · have hzero : bch3Interval 0 i1 s0 = 0 := by
      exact sub_eq_zero.mpr (lost_zero i1 s0).symm
    have hcount : beta.toNat + 1 = 2 ^ 32 := by omega
    rw [hnext, hzero, hcount, sum_all_bch3, if_neg (not_not.mpr hmax)]
    have hgoal : (0 - (∑ k ∈ Finset.range alpha.toNat, bch3 s0 i1 (UInt32.ofNat k)
          - lost i1 s0 alpha.toNat)
        = (if i1 = 0 then seedSign s0 * 2 ^ 32 else 0)
          - ∑ k ∈ Finset.range alpha.toNat, bch3 s0 i1 (UInt32.ofNat k))
        ↔ lost i1 s0 alpha.toNat = if i1 = 0 then seedSign s0 * 2 ^ 32 else 0 := by
      constructor <;> intro heq <;> linarith
    rw [hgoal]
    by_cases hseed : i1 = 0
    · rw [if_pos hseed, if_neg (not_not.mpr hseed), seedSign_eq]
      have hlow : i1.toNat % 2 ^ 31 = 0 := by
        rw [hseed]
        rfl
      unfold lost
      by_cases hplus : s0.toNat % 2 = 1
      · by_cases hhigh : 2 ^ 31 ≤ alpha.toNat
        · rw [if_pos ⟨hhigh, hlow, hplus⟩, if_pos hplus]
          exact iff_of_true (by decide) ⟨hplus, hhigh⟩
        · rw [if_neg fun hpair => hhigh hpair.1, if_pos hplus]
          exact iff_of_false (by decide) fun hpair => hhigh hpair.2
      · rw [if_neg fun hpair => hplus hpair.2.2, if_neg hplus]
        exact iff_of_false (by decide) fun hpair => hplus hpair.1
    · rw [if_neg hseed, if_pos hseed]
      unfold lost
      by_cases hbad : 2 ^ 31 ≤ alpha.toNat ∧ Overflows i1 s0
      · rw [if_pos hbad]
        exact iff_of_false (by decide) (not_not.mpr ⟨hbad.2, hbad.1⟩)
      · rw [if_neg hbad]
        exact iff_of_true rfl fun hpair => hbad ⟨hpair.2, hpair.1⟩

/-- The fast sum below a bound is exact unless the bound has its highest
bit and the shift loses the sign; and then which ranges are exact. -/
theorem bch3_exact_iff (gamma i1 s0 : UInt32) :
    (bch3Interval gamma i1 s0 = ∑ k ∈ Finset.range gamma.toNat, bch3 s0 i1 (UInt32.ofNat k)
      ↔ ¬ (2 ^ 31 ≤ gamma.toNat ∧ Overflows i1 s0))
    ∧ ∀ alpha beta, alpha ≤ beta →
      (bch3Range alpha beta i1 s0
          = ∑ k ∈ Finset.Icc alpha.toNat beta.toNat, bch3 s0 i1 (UInt32.ofNat k)
        ↔ RangeExact alpha beta i1 s0) := by
  refine ⟨?_, fun alpha beta h => bch3Range_eq_iff i1 s0 h⟩
  rw [bch3Interval_eq, lost]
  by_cases hbad : 2 ^ 31 ≤ gamma.toNat ∧ Overflows i1 s0
  · rw [if_pos hbad]
    exact iff_of_false (by intro heq; linarith) (not_not.mpr hbad)
  · rw [if_neg hbad, sub_zero]
    exact iff_of_true rfl hbad

/-- A seed with bits: nothing is lost. -/
theorem bch3_exact_five :
    bch3Interval 5 8 3 = ∑ k ∈ Finset.range (5 : UInt32).toNat, bch3 3 8 (UInt32.ofNat k)
      ∧ bch3Range 1 2 8 3
        = ∑ k ∈ Finset.Icc (1 : UInt32).toNat (2 : UInt32).toNat, bch3 3 8 (UInt32.ofNat k) :=
  ⟨(bch3_exact_iff 5 8 3).1.mpr (by decide), ((bch3_exact_iff 5 8 3).2 1 2 (by decide)).mpr
    (by decide)⟩

/-- Seed zero with the sign plus: `2 ^ 31` keys of value one sum to
`-2 ^ 31`. -/
theorem bch3Interval_negative :
    bch3Interval 2147483648 0 1 = -2147483648
      ∧ ∑ k ∈ Finset.range (2147483648 : UInt32).toNat, bch3 1 0 (UInt32.ofNat k)
        = 2147483648 := by
  have hval : bch3Interval 2147483648 0 1 = -2147483648 := by decide +kernel
  have hsum := bch3Interval_eq 2147483648 0 1
  have hlost : lost 0 1 (2147483648 : UInt32).toNat = 2 ^ 32 := by decide +kernel
  exact ⟨hval, by linarith⟩

end Compass.Sketch

namespace Compass.Sketch

namespace Host

open DigitSum

-- ======== the EH3 loop

theorem ofNat_digit {k t : Nat} (hk : k < 16) (ht : t < 4) :
    UInt32.ofNat t <<< UInt32.ofNat (2 * k) = UInt32.ofNat (t * 4 ^ k) := by
  interval_cases t <;> interval_cases k <;> rfl

/-- The digit that a round takes off, and what it leaves. -/
theorem take_digit {k u : Nat} (hk : k < 16) (hfit : u * 4 ^ k < 2 ^ 32) :
    (UInt32.ofNat (u * 4 ^ k) >>> UInt32.ofNat (2 * k)) &&& 3 = UInt32.ofNat (u % 4)
      ∧ UInt32.ofNat (u * 4 ^ k) ^^^ (UInt32.ofNat (u % 4) <<< UInt32.ofNat (2 * k))
        = UInt32.ofNat (u / 4 * 4 ^ (k + 1)) := by
  have hpow : (4 : Nat) ^ k = 2 ^ (2 * k) := by rw [Nat.pow_mul]
  have hu : u = u / 4 * 4 + u % 4 := by omega
  have hlt : u % 4 < 4 := Nat.mod_lt _ (by decide)
  refine ⟨UInt32.toNat_inj.mp ?_, ?_⟩
  · rw [digit_toNat _ 3 (by omega), UInt32.toNat_ofNat_of_lt' hfit, hpow,
      Nat.mul_div_cancel _ (Nat.two_pow_pos _)]
    show u &&& (2 ^ 2 - 1) = _
    rw [Nat.and_two_pow_sub_one_eq_mod, UInt32.toNat_ofNat_of_lt' (lt_trans hlt (by decide))]
  · have hsplit : u * 4 ^ k = u / 4 * 2 ^ (2 * (k + 1)) + u % 4 * 4 ^ k := by
      rw [show (2 : Nat) ^ (2 * (k + 1)) = 4 * 4 ^ k by rw [Nat.pow_mul, Nat.pow_succ']]
      conv_lhs => rw [hu]
      ring
    have hdigit : u % 4 * 4 ^ k < 2 ^ (2 * (k + 1)) := by
      rw [show (2 : Nat) ^ (2 * (k + 1)) = 4 * 4 ^ k by rw [Nat.pow_mul, Nat.pow_succ']]
      exact Nat.mul_lt_mul_of_pos_right hlt (Nat.pow_pos (by decide))
    rw [ofNat_digit hk hlt, hsplit, ofNat_split _ hdigit, UInt32.xor_assoc, UInt32.xor_self,
      UInt32.xor_zero]
    congr 2
    rw [Nat.pow_mul]

theorem eh3_cases (i0 i1 j : UInt32) : eh3 i0 i1 j = 1 ∨ eh3 i0 i1 j = -1 := by
  unfold eh3
  dsimp only
  split <;> simp

/-- The terms of one digit are the sums over its blocks. -/
theorem eh3Digit_eq (s0 i1 : UInt32) {k q t : Nat} (hk : k < 16) (ht : t < 4) (c : Nat) :
    eh3Digit s0 i1 (UInt32.ofNat (q * 4 ^ (k + 1))) (UInt32.ofNat t) (2 * k)
        (fun v => if c % 2 = 1 then -v else v)
      = seedSign s0 * ∑ d ∈ Finset.range t,
          eh3Chi i1 ((q * 4 + d) * 4 ^ k) * ((-1) ^ c * 2 ^ k) := by
  have hterm : ∀ d : Nat,
      (if c % 2 = 1 then -shl32 (eh3 s0 i1 (UInt32.ofNat ((q * 4 + d) * 4 ^ k))) ((2 * k) >>> 1)
        else shl32 (eh3 s0 i1 (UInt32.ofNat ((q * 4 + d) * 4 ^ k))) ((2 * k) >>> 1))
      = seedSign s0 * (eh3Chi i1 ((q * 4 + d) * 4 ^ k) * ((-1) ^ c * 2 ^ k)) := by
    intro d
    have hhalf : (2 * k) >>> 1 = k := by
      omega
    rw [hhalf, shl32_of_small (eh3_cases _ _ _) (by omega), eh3_eq_chi, eh3Chi]
    rcases Nat.mod_two_eq_zero_or_one c with hc | hc
    · rw [if_neg (by omega), (Nat.even_iff.mpr hc).neg_one_pow]
      ring
    · rw [if_pos hc, (Nat.odd_iff.mpr hc).neg_one_pow]
      ring
  have hfirst : UInt32.ofNat (q * 4 ^ (k + 1)) = UInt32.ofNat ((q * 4 + 0) * 4 ^ k) := by
    congr 1
    ring
  have hsecond : UInt32.ofNat (q * 4 ^ (k + 1)) + (1 <<< UInt32.ofNat (2 * k))
      = UInt32.ofNat ((q * 4 + 1) * 4 ^ k) := by
    rw [show (1 : UInt32) = UInt32.ofNat 1 from rfl, ofNat_digit hk (by decide), ← UInt32.ofNat_add]
    congr 1
    ring
  have hthird : UInt32.ofNat (q * 4 ^ (k + 1)) + (1 <<< UInt32.ofNat (2 * k + 1))
      = UInt32.ofNat ((q * 4 + 2) * 4 ^ k) := by
    have hshift : (1 : UInt32) <<< UInt32.ofNat (2 * k + 1) = UInt32.ofNat (2 * 4 ^ k) := by
      interval_cases k <;> rfl
    rw [hshift, ← UInt32.ofNat_add]
    congr 1
    ring
  rw [Finset.mul_sum]
  unfold eh3Digit
  dsimp only
  rw [hsecond, hthird, hfirst, hterm 0, hterm 1, hterm 2]
  interval_cases t
  · rfl
  · rw [if_pos (by decide), Finset.sum_range_one]
  · rw [if_neg (by decide), if_pos (by decide), Finset.sum_range_succ, Finset.sum_range_one]
  · rw [if_neg (by decide), if_neg (by decide), if_pos (by decide), Finset.sum_range_succ,
      Finset.sum_range_succ, Finset.sum_range_one]

/-- What the loop adds, from digit `k` on: the keys below the digits that
are left. -/
theorem eh3IntervalLoop_eq (s0 i1 : UInt32) {n k u : Nat} (hk : k + n = 16)
    (hfit : u * 4 ^ k < 2 ^ 32) (sum : Int) :
    eh3IntervalLoop s0 i1 (List.range' (2 * k) n 2) (UInt32.ofNat (u * 4 ^ k)) (threes i1 k) sum
      = sum + seedSign s0 * ∑ j ∈ Finset.range (u * 4 ^ k), eh3Chi i1 j := by
  induction n generalizing k u sum with
  | zero =>
    have hu : u = 0 := by
      obtain rfl : k = 16 := by omega
      omega
    subst hu
    simp [eh3IntervalLoop]
  | succ n ih =>
    rw [List.range'_succ, eh3IntervalLoop]
    by_cases hzero : UInt32.ofNat (u * 4 ^ k) = 0
    · have hnat : u * 4 ^ k = 0 := by
        rw [← UInt32.toNat_ofNat_of_lt' hfit, hzero]
        rfl
      rw [if_pos hzero, hnat, Finset.sum_range_zero, mul_zero, add_zero]
    · obtain ⟨htake, hleft⟩ := take_digit (by omega) hfit
      have hu : u / 4 * 4 + u % 4 = u := by omega
      have hlt : u % 4 < 4 := Nat.mod_lt _ (by decide)
      have hnext : u / 4 * 4 ^ (k + 1) = u / 4 * 4 * 4 ^ k := by ring
      have hsmaller : u / 4 * 4 ^ (k + 1) ≤ u * 4 ^ k := by
        rw [hnext]
        exact Nat.mul_le_mul_right _ (by omega)
      have hsum := (eh3Chi_splits i1).sum_digits (k := k) (u := u / 4 * 4) (t := u % 4)
        (by rw [hu]; exact hfit.le)
      rw [hu, below_eh3Chi i1 (by omega)] at hsum
      rw [if_neg hzero]
      dsimp only
      rw [htake, hleft, eh3Digit_eq s0 i1 (by omega) hlt (threes i1 k),
        show 2 * k + 2 = 2 * (k + 1) by ring, ← threes, ih (by omega) (by omega), hsum, hnext]
      ring

/-- The keys of the lowest digit are visited one by one. -/
theorem eh3_first_digit (s0 i1 : UInt32) {q t : Nat} (ht : t < 4) :
    (if UInt32.ofNat t = 1 then eh3 s0 i1 (UInt32.ofNat (q * 4))
      else if UInt32.ofNat t = 2 then
        eh3 s0 i1 (UInt32.ofNat (q * 4)) + eh3 s0 i1 (UInt32.ofNat (q * 4) + 1)
      else if UInt32.ofNat t = 3 then
        eh3 s0 i1 (UInt32.ofNat (q * 4)) + eh3 s0 i1 (UInt32.ofNat (q * 4) + 1)
          + eh3 s0 i1 (UInt32.ofNat (q * 4) + 2)
      else 0)
      = ∑ d ∈ Finset.range t, eh3 s0 i1 (UInt32.ofNat (q * 4 + d)) := by
  have hone : UInt32.ofNat (q * 4) + 1 = UInt32.ofNat (q * 4 + 1) := by
    rw [UInt32.ofNat_add]
    rfl
  have htwo : UInt32.ofNat (q * 4) + 2 = UInt32.ofNat (q * 4 + 2) := by
    rw [UInt32.ofNat_add]
    rfl
  rw [hone, htwo]
  interval_cases t
  · rfl
  · rw [if_pos (by decide), Finset.sum_range_one]
    rfl
  · rw [if_neg (by decide), if_pos (by decide), Finset.sum_range_succ, Finset.sum_range_one]
    rfl
  · rw [if_neg (by decide), if_neg (by decide), if_pos (by decide), Finset.sum_range_succ,
      Finset.sum_range_succ, Finset.sum_range_one]
    rfl

theorem sum_eh3 (s0 i1 : UInt32) (n : Nat) :
    ∑ k ∈ Finset.range n, eh3 s0 i1 (UInt32.ofNat k)
      = seedSign s0 * ∑ j ∈ Finset.range n, eh3Chi i1 j := by
  rw [Finset.mul_sum]
  exact Finset.sum_congr rfl fun k _ => eh3_eq_chi s0 i1 _

/-- The fast sum is the sum over all keys below the bound. -/
theorem eh3Interval_eq (gamma i1 s0 : UInt32) :
    eh3Interval gamma i1 s0
      = ∑ k ∈ Finset.range gamma.toNat, eh3 s0 i1 (UInt32.ofNat k) := by
  have hlt : gamma.toNat < 2 ^ 32 := gamma.toNat_lt
  have hdigit : gamma.toNat % 4 < 4 := Nat.mod_lt _ (by decide)
  have htake : gamma &&& 3 = UInt32.ofNat (gamma.toNat % 4) := by
    refine UInt32.toNat_inj.mp ?_
    rw [UInt32.toNat_and, UInt32.toNat_ofNat_of_lt' (lt_trans hdigit (by decide))]
    exact Nat.and_two_pow_sub_one_eq_mod _ 2
  have hleft : gamma - UInt32.ofNat (gamma.toNat % 4) = UInt32.ofNat (gamma.toNat / 4 * 4) := by
    rw [UInt32.sub_eq_iff_eq_add, ← UInt32.ofNat_add]
    rw [Nat.div_add_mod' gamma.toNat 4, UInt32.ofNat_toNat]
  have hthrees : (if i1 &&& 3 = 3 then 1 else 0) = threes i1 1 := by
    unfold threes threes
    rw [show UInt32.ofNat (2 * 0) = 0 from rfl, UInt32.shiftRight_zero]
  have hloop := eh3IntervalLoop_eq s0 i1 (n := 15) (k := 1) (u := gamma.toNat / 4) rfl
    (by omega) (∑ d ∈ Finset.range (gamma.toNat % 4),
      eh3 s0 i1 (UInt32.ofNat (gamma.toNat / 4 * 4 + d)))
  rw [Nat.pow_one] at hloop
  unfold eh3Interval
  dsimp only
  rw [htake, hleft, hthrees, eh3_first_digit s0 i1 hdigit]
  refine hloop.trans ?_
  rw [← sum_eh3, add_comm, ← Finset.sum_range_add, Nat.div_add_mod']

-- ======== the EH3 range

/-- The sum over all keys is two to the sixteen, up to the sign. -/
theorem sum_all_eh3_ne_zero (s0 i1 : UInt32) :
    ∑ k ∈ Finset.range (4 ^ 16), eh3 s0 i1 (UInt32.ofNat k) ≠ 0 := by
  rw [sum_eh3]
  have hbelow := below_eh3Chi i1 (k := 16) le_rfl
  rw [below] at hbelow
  rw [hbelow]
  have hseed : seedSign s0 ≠ 0 := by rcases seedSign_cases s0 with h | h <;> rw [h] <;> decide
  exact mul_ne_zero hseed (mul_ne_zero (pow_ne_zero _ (by decide)) (by decide))

end Host

open Host in
/-- The fast range sum of a generator is the sum of its variables exactly
for the ranges that end before the last key. -/
theorem intervalSum_eq_iff (xi : XiEH3) {alpha beta : UInt32} (h : alpha ≤ beta) :
    xi.intervalSum alpha beta
        = ∑ k ∈ Finset.Icc alpha.toNat beta.toNat, xi.element (UInt32.ofNat k)
      ↔ beta.toNat ≠ 2 ^ 32 - 1 := by
  have hle : alpha.toNat ≤ beta.toNat := UInt32.le_iff_toNat_le.mp h
  unfold XiEH3.intervalSum XiEH3.element Host.eh3Range
  rw [sum_Icc _ hle, eh3Interval_eq alpha]
  rcases toNat_succ beta with ⟨hmax, hnext⟩ | ⟨hmax, hnext⟩
  · rw [eh3Interval_eq (beta + 1), hnext]
    exact iff_of_true rfl hmax
  · have hall := sum_all_eh3_ne_zero xi.seeds.1 xi.seeds.2
    have hzero : eh3Interval 0 xi.seeds.2 xi.seeds.1 = 0 := eh3Interval_eq 0 _ _
    have hcount : beta.toNat + 1 = 4 ^ 16 := by rw [hmax]; decide
    rw [hnext, hzero, hcount]
    refine iff_of_false (fun heq => hall ?_) (not_not.mpr hmax)
    exact (sub_left_inj.mp heq).symm

/-- The two keys from one to two. -/
theorem intervalSum_one_two :
    (1 : UInt32) ≤ 2
      ∧ (XiEH3.mk (7, 9)).intervalSum 1 2
        = ∑ k ∈ Finset.Icc 1 2, (XiEH3.mk (7, 9)).element (UInt32.ofNat k) :=
  ⟨by decide, (intervalSum_eq_iff ⟨(7, 9)⟩ (by decide)).mpr (by decide)⟩

/-- The range that holds the last key only has the sum zero minus the sum
of all the others. -/
theorem intervalSum_last :
    (XiEH3.mk (0, 0)).intervalSum 4294967295 4294967295 = 65535
      ∧ ∑ k ∈ Finset.Icc 4294967295 4294967295,
          (XiEH3.mk (0, 0)).element (UInt32.ofNat k) = -1 := by
  decide +kernel

end Compass.Sketch
