/-
The signs of BCH3 and EH3 keys, digit by digit.

# The argument

The parity of a word is linear in the word (`seqXor_xor`), so the sign of
a key is a seed's sign times a character of the key's word (`chi_xor`).
For BCH3 the word of a key is linear in the key, and for EH3 it is linear
once the key is cut between two digits base four: the product of two
neighbouring bits stays within a digit (`eh3Word_xor`). So both signs
split along the digits (`bch3Chi_splits`, `eh3Chi_splits`).

What is left are the sums over one digit. Base two it is two, or zero
when the bit of the seed is set; base four it is two, or minus two when
both bits of the seed are (`below_bch3Chi`, `below_eh3Chi`).

The dyadic map meets membership.

The loop of `Dyadic_Range_EH3` is the cut of the interval into dyadic
blocks (`Dyadic.cover`): at level `pw` the first bound is a multiple of
`2 ^ pw` and the last one is one below such a multiple, and what the loop
tests are the lowest bits of the two quotients (`dyadicRangeIds_eq`). The
loop of `element` visits, level by level, the block that holds the point
(`dyadicPointIds_eq`).

Both loops name a block by the same id. The front mask of level `k` is
`k` ones followed by zeros, `2 ^ k - 1` times `2 ^ (dom - k + 1)`, and the
offset of a block of that level has at most `dom - k` bits, so between
the ones and the offset there is always a zero, and an id belongs to one
block only (`blockId_inj`).
-/
import Mathlib.Tactic.IntervalCases
import Compass.Lib.Binary
import Compass.Sketch.Host

namespace Compass.Sketch

open Nat

namespace Host

open DigitSum Finset UInt32

-- ======== parity

/-- The sign of a word: minus one when the number of its bits is odd. -/
def chi (w : UInt32) : Int :=
  if seqXor w &&& 1 ≠ 0 then -1 else 1

/-- What the seed `i0` contributes: a sign for all keys. -/
def seedSign (i0 : UInt32) : Int :=
  if i0 &&& 1 ≠ 0 then 1 else -1

theorem xor_and (a b c : UInt32) : (a ^^^ b) &&& c = (a &&& c) ^^^ (b &&& c) := by
  refine UInt32.toBitVec_inj.mp (BitVec.eq_of_getLsbD_eq fun n _ => ?_)
  simp [Bool.and_xor_distrib_right]

theorem seqXor_xor (x y : UInt32) : seqXor (x ^^^ y) = seqXor x ^^^ seqXor y := by
  have hstep : ∀ (n a b : UInt32),
      (a ^^^ b) ^^^ ((a ^^^ b) >>> n) = (a ^^^ (a >>> n)) ^^^ (b ^^^ (b >>> n)) := by
    intro n a b
    rw [shiftRight_xor]
    ac_rfl
  simp only [seqXor, hstep]
  exact xor_and _ _ 1

theorem and_one_cases (a : UInt32) : a &&& 1 = 0 ∨ a &&& 1 = 1 := by
  have hnat : (a &&& 1).toNat = a.toNat % 2 := by simp [and_one_is_mod]
  rcases mod_two_eq_zero_or_one a.toNat with h | h
  · left; exact UInt32.toNat_inj.mp (hnat.trans h)
  · right; exact UInt32.toNat_inj.mp (hnat.trans h)

theorem chi_xor (x y : UInt32) : chi (x ^^^ y) = chi x * chi y := by
  unfold chi
  rw [seqXor_xor, xor_and]
  rcases and_one_cases (seqXor x) with hx | hx <;> rcases and_one_cases (seqXor y) with hy | hy <;>
    rw [hx, hy] <;> rfl

theorem seedSign_chi (i0 w : UInt32) :
    (if (i0 ^^^ seqXor w) &&& 1 ≠ 0 then (1 : Int) else -1) = seedSign i0 * chi w := by
  unfold chi seedSign
  rw [xor_and]
  rcases and_one_cases i0 with hx | hx <;> rcases and_one_cases (seqXor w) with hy | hy <;>
    rw [hx, hy] <;> rfl

variable {n : Nat}

theorem chi_shiftLeft (hn : n < 32) : chi (1 <<< ofNat n) = -1 := by
  interval_cases n <;> rfl

theorem chi_zero : chi 0 = 1 := rfl

-- ======== words

variable {m : Nat}

theorem add_eq_xor {r : Nat} (u : Nat) (hr : r < 2 ^ m) : u * 2 ^ m + r = (u * 2 ^ m) ^^^ r := by
  refine Nat.eq_of_testBit_eq fun n => ?_
  rw [Nat.mul_comm, Nat.testBit_two_pow_mul_add _ hr, Nat.testBit_xor, Nat.testBit_two_pow_mul]
  by_cases hn : n < m
  · simp [hn, Nat.not_le.mpr hn]
  · have hlarge : r.testBit n = false :=
      Nat.testBit_lt_two_pow (lt_of_lt_of_le hr (Nat.pow_le_pow_right (by decide) (by omega)))
    simp [hn, Nat.le_of_not_lt hn, hlarge]

theorem ofNat_split {r : Nat} (u : Nat) (hr : r < 2 ^ m) :
    ofNat (u * 2 ^ m + r) = ofNat (u * 2 ^ m) ^^^ ofNat r := by
  rw [add_eq_xor u hr]
  exact ofNat_xor _ _

theorem getLsbD_ofNat (j : Nat) (hn : n < 32) :
    (ofNat j).toBitVec.getLsbD n = j.testBit n := by
  show (BitVec.ofNat 32 j).getLsbD n = _
  rw [BitVec.getLsbD_ofNat, decide_eq_true hn, Bool.true_and]

/-- The bits of the upper digits stand above. -/
theorem getLsbD_upper (u : Nat) (hn : n < 32) (hm : n < m) :
    (ofNat (u * 2 ^ m)).toBitVec.getLsbD n = false := by
  rw [getLsbD_ofNat _ hn, mul_comm, testBit_two_pow_mul]
  simp [not_le.mpr hm]

/-- The bits of the lower digits stand below. -/
theorem getLsbD_lower {r : Nat} (hr : r < 2 ^ m) (hn : n < 32) (hm : m ≤ n) :
    (ofNat r).toBitVec.getLsbD n = false := by
  rw [getLsbD_ofNat _ hn]
  exact Nat.testBit_lt_two_pow (lt_of_lt_of_le hr (Nat.pow_le_pow_right (by decide) hm))

theorem digit_toNat (w : UInt32) (m : UInt32) (hn : n < 32) :
    ((w >>> UInt32.ofNat n) &&& m).toNat = (w.toNat / 2 ^ n) &&& m.toNat := by
  have hmod : (UInt32.ofNat n).toNat % 32 = n := by
    rw [UInt32.toNat_ofNat', mod_eq_of_lt (a := n) (by omega), mod_eq_of_lt hn]
  rw [UInt32.toNat_and, UInt32.toNat_shiftRight, hmod, shiftRight_eq_div_pow]

theorem ofNat_bit {i t : Nat} (hi : i < 32) (ht : t < 2) :
    ofNat t <<< ofNat i = ofNat (t * 2 ^ i) := by
  interval_cases t <;> interval_cases i <;> rfl

/-- A bit of a word. -/
theorem bit_ne_zero (w : UInt32) {i : Nat} (hi : i < 32) :
    (w >>> UInt32.ofNat i) &&& 1 ≠ 0 ↔ w.toNat / 2 ^ i % 2 = 1 := by
  have hnat : ((w >>> UInt32.ofNat i) &&& 1).toNat = w.toNat / 2 ^ i % 2 := by
    rw [digit_toNat w 1 hi]
    exact and_one_is_mod _
  rw [Ne, ← UInt32.toNat_inj, hnat]
  show ¬ w.toNat / 2 ^ i % 2 = 0 ↔ _
  omega

/-- What is left when the lowest bit is taken off. -/
theorem take_bit {i u : Nat} (hi : i < 32) (hodd : u % 2 = 1) :
    UInt32.ofNat (u * 2 ^ i) ^^^ (1 <<< UInt32.ofNat i) = UInt32.ofNat (u / 2 * 2 ^ (i + 1)) := by
  have hsplit : u * 2 ^ i = u / 2 * 2 ^ (i + 1) + 1 * 2 ^ i := by
    have hu : u = u / 2 * 2 + 1 := by omega
    conv_lhs => rw [hu]
    ring
  have hbit : 1 * 2 ^ i < 2 ^ (i + 1) := by
    rw [Nat.one_mul]
    exact Nat.pow_lt_pow_right (by decide) (by omega)
  rw [show (1 : UInt32) = UInt32.ofNat 1 from rfl, ofNat_bit hi (by decide), hsplit,
    ofNat_split _ hbit, UInt32.xor_assoc, UInt32.xor_self, UInt32.xor_zero]

-- ======== the word of a key

/-- The bits of EH3 whose parity is the sign of a key. -/
def eh3Word (i1 j : UInt32) : UInt32 :=
  (i1 &&& j) ^^^ (j &&& (j <<< 1) &&& (0xAAAAAAAA : UInt32))

theorem eh3_eq_chi (i0 i1 j : UInt32) : eh3 i0 i1 j = seedSign i0 * chi (eh3Word i1 j) :=
  seedSign_chi i0 _

theorem bch3_eq_chi (i0 i1 j : UInt32) : bch3 i0 i1 j = seedSign i0 * chi (i1 &&& j) :=
  seedSign_chi i0 _

theorem mask_getLsbD (hn : n < 32) :
    (0xAAAAAAAA : BitVec 32).getLsbD n = decide (n % 2 = 1) := by
  interval_cases n <;> rfl

theorem eh3Word_getLsbD (i1 j : UInt32) (hn : n < 32) :
    (eh3Word i1 j).toBitVec.getLsbD n
      = ((i1.toBitVec.getLsbD n && j.toBitVec.getLsbD n)
        ^^ (decide (n % 2 = 1) && j.toBitVec.getLsbD n && j.toBitVec.getLsbD (n - 1))) := by
  have hmask := mask_getLsbD hn
  have hshift : (j <<< 1).toBitVec.getLsbD n = (!decide (n = 0) && j.toBitVec.getLsbD (n - 1)) := by
    have hprev : n - 1 < 32 := by omega
    simp [hn, BitVec.getLsbD_eq_getElem hprev]
  unfold eh3Word
  rw [UInt32.toBitVec_xor, UInt32.toBitVec_and, UInt32.toBitVec_and, UInt32.toBitVec_and,
    BitVec.getLsbD_xor, BitVec.getLsbD_and, BitVec.getLsbD_and, BitVec.getLsbD_and, hshift]
  have hmask' : (0xAAAAAAAA : UInt32).toBitVec.getLsbD n = decide (n % 2 = 1) := hmask
  rw [hmask']
  by_cases hodd : n % 2 = 1
  · have hpos : n ≠ 0 := by omega
    simp [hodd, hpos]
  · simp [hodd]

variable {k : Nat}

/-- The product of neighbouring bits does not cross a digit. -/
theorem eh3Word_xor (i1 : UInt32) {a b : UInt32}
    (ha : ∀ n < 32, n < 2 * k → a.toBitVec.getLsbD n = false)
    (hb : ∀ n < 32, 2 * k ≤ n → b.toBitVec.getLsbD n = false) :
    eh3Word i1 (a ^^^ b) = eh3Word i1 a ^^^ eh3Word i1 b := by
  refine UInt32.toBitVec_inj.mp (BitVec.eq_of_getLsbD_eq fun n hn => ?_)
  rw [UInt32.toBitVec_xor, BitVec.getLsbD_xor, eh3Word_getLsbD _ _ hn, eh3Word_getLsbD _ _ hn,
    eh3Word_getLsbD _ _ hn, UInt32.toBitVec_xor, BitVec.getLsbD_xor, BitVec.getLsbD_xor]
  by_cases hk : n < 2 * k
  · rw [ha n hn hk, ha (n - 1) (by omega) (by omega)]
    simp
  · rw [hb n hn (by omega)]
    by_cases hodd : n % 2 = 1
    · rw [hb (n - 1) (by omega) (by omega)]
      simp
    · simp [hodd]

-- ======== digit by digit

/-- The sign of a key, without the seed that all keys share. -/
def eh3Chi (i1 : UInt32) (j : Nat) : Int :=
  chi (eh3Word i1 (UInt32.ofNat j))

def bch3Chi (i1 : UInt32) (j : Nat) : Int :=
  chi (i1 &&& UInt32.ofNat j)

theorem eh3Chi_splits (i1 : UInt32) : Splits (eh3Chi i1) 4 16 := by
  intro k u r hr _
  have hpow : (4 : Nat) ^ k = 2 ^ (2 * k) := by rw [Nat.pow_mul]
  rw [hpow] at hr ⊢
  unfold eh3Chi
  rw [ofNat_split u hr, eh3Word_xor i1 (fun n hn hm => getLsbD_upper u hn hm)
    (fun n hn hm => getLsbD_lower hr hn hm), chi_xor]

theorem bch3Chi_splits (i1 : UInt32) : Splits (bch3Chi i1) 2 32 := by
  intro k u r hr _
  unfold bch3Chi
  rw [ofNat_split u hr, UInt32.and_comm, xor_and, chi_xor, UInt32.and_comm _ i1,
    UInt32.and_comm _ i1]

-- ======== seed bits

/-- The sign that one bit of the seed gives to a key with that bit. -/
def bitSign (i1 : UInt32) (n : Nat) : Int :=
  if i1.toNat.testBit n then -1 else 1

section

variable (i1 : UInt32)

theorem chi_and_shiftLeft (hn : n < 32) : chi (i1 &&& (1 <<< UInt32.ofNat n)) = bitSign i1 n := by
  have hbit : i1 &&& (1 <<< UInt32.ofNat n)
      = if i1.toNat.testBit n then 1 <<< UInt32.ofNat n else 0 := by
    have hone : (1 <<< UInt32.ofNat n).toNat = 2 ^ n := by interval_cases n <;> rfl
    refine UInt32.toNat_inj.mp ?_
    rw [UInt32.toNat_and, hone, and_two_pow]
    cases i1.toNat.testBit n
    · simp
    · simp [hone]
  rw [hbit, bitSign]
  split
  · exact chi_shiftLeft hn
  · exact chi_zero

theorem bch3Chi_zero : bch3Chi i1 0 = 1 := by
  unfold bch3Chi
  rw [show UInt32.ofNat 0 = 0 from rfl, UInt32.and_zero, chi_zero]

theorem bch3Chi_two_pow (hk : k < 32) : bch3Chi i1 (2 ^ k) = bitSign i1 k := by
  rw [← chi_and_shiftLeft i1 hk, bch3Chi]
  congr 2
  interval_cases k <;> rfl

theorem eh3Chi_zero : eh3Chi i1 0 = 1 := by
  unfold eh3Chi eh3Word
  rw [show UInt32.ofNat 0 = 0 from rfl, UInt32.and_zero]
  exact chi_zero

/-- A digit one, a digit two and a digit three. -/
theorem eh3Chi_digit (hk : k < 16) : eh3Chi i1 (1 * 4 ^ k) = bitSign i1 (2 * k)
      ∧ eh3Chi i1 (2 * 4 ^ k) = bitSign i1 (2 * k + 1)
      ∧ eh3Chi i1 (3 * 4 ^ k) = -(bitSign i1 (2 * k) * bitSign i1 (2 * k + 1)) := by
  have hone : ∀ j : UInt32, j &&& (j <<< 1) &&& 0xAAAAAAAA = 0 → eh3Word i1 j = i1 &&& j := by
    intro j hj
    rw [eh3Word, hj, UInt32.xor_zero]
  have hpair : ∀ m < 16, UInt32.ofNat (1 * 4 ^ m) = 1 <<< UInt32.ofNat (2 * m)
      ∧ UInt32.ofNat (2 * 4 ^ m) = 1 <<< UInt32.ofNat (2 * m + 1)
      ∧ UInt32.ofNat (3 * 4 ^ m)
        = (1 <<< UInt32.ofNat (2 * m)) ^^^ (1 <<< UInt32.ofNat (2 * m + 1))
      ∧ (UInt32.ofNat (1 * 4 ^ m) &&& (UInt32.ofNat (1 * 4 ^ m) <<< 1) &&& (0xAAAAAAAA : UInt32))
        = 0
      ∧ (UInt32.ofNat (2 * 4 ^ m) &&& (UInt32.ofNat (2 * 4 ^ m) <<< 1) &&& (0xAAAAAAAA : UInt32))
        = 0
      ∧ (UInt32.ofNat (3 * 4 ^ m) &&& (UInt32.ofNat (3 * 4 ^ m) <<< 1) &&& (0xAAAAAAAA : UInt32))
        = 1 <<< UInt32.ofNat (2 * m + 1) := by
    decide
  obtain ⟨h1, h2, h3, hp1, hp2, hp3⟩ := hpair k hk
  have hlow := chi_and_shiftLeft i1 (n := 2 * k) (by omega)
  have hhigh := chi_and_shiftLeft i1 (n := 2 * k + 1) (by omega)
  unfold eh3Chi
  refine ⟨?_, ?_, ?_⟩
  · rw [hone _ hp1, h1, hlow]
  · rw [hone _ hp2, h2, hhigh]
  · rw [eh3Word, hp3, h3, UInt32.and_comm, xor_and, chi_xor, chi_xor, UInt32.and_comm _ i1,
      UInt32.and_comm _ i1, hlow, hhigh, chi_shiftLeft (by omega)]
    ring

end

-- ======== sums over all digits

/-- The digits of the seed, below digit `k`, that are three. -/
def threes (i1 : UInt32) : Nat → Nat
  | 0 => 0
  | k + 1 =>
    if (i1 >>> UInt32.ofNat (2 * k)) &&& 3 = 3 then threes i1 k + 1 else threes i1 k

theorem digit_eq_three (i1 : UInt32) (hk : k < 16) : (i1 >>> UInt32.ofNat (2 * k)) &&& 3 = 3
      ↔ i1.toNat.testBit (2 * k) = true ∧ i1.toNat.testBit (2 * k + 1) = true := by
  rw [← UInt32.toNat_inj, digit_toNat i1 3 (by omega)]
  show (i1.toNat / 2 ^ (2 * k)) &&& (2 ^ 2 - 1) = 3 ↔ _
  rw [Nat.and_two_pow_sub_one_eq_mod, Nat.testBit_eq_decide_div_mod_eq,
    Nat.testBit_eq_decide_div_mod_eq, Nat.pow_succ 2 (2 * k), ← Nat.div_div_eq_div_mul,
    decide_eq_true_iff, decide_eq_true_iff]
  omega

theorem below_eh3Chi (i1 : UInt32) (hk : k ≤ 16) :
    below (eh3Chi i1) 4 k = (-1) ^ threes i1 k * 2 ^ k := by
  induction k with
  | zero =>
    show ∑ r ∈ range 1, eh3Chi i1 r = 1
    rw [sum_range_one, eh3Chi_zero]
  | succ k ih =>
    rw [(eh3Chi_splits i1).below_succ (Nat.pow_le_pow_right (by decide) hk), ih (by omega)]
    obtain ⟨h1, h2, h3⟩ := eh3Chi_digit i1 (k := k) (by omega)
    rw [sum_range_succ, sum_range_succ, sum_range_succ,
      sum_range_one, Nat.zero_mul, eh3Chi_zero, h1, h2, h3, threes]
    have hthree := digit_eq_three i1 (k := k) (by omega)
    unfold bitSign
    -- only two ones turn the sign
    by_cases hlow : i1.toNat.testBit (2 * k) = true <;>
      by_cases hhigh : i1.toNat.testBit (2 * k + 1) = true <;>
      simp only [hlow, hhigh, if_true, Bool.false_eq_true, if_false, hthree, and_self,
        and_true, and_false] <;>
      ring

theorem below_bch3Chi (i1 : UInt32) (hk : k ≤ 32) :
    below (bch3Chi i1) 2 k = if i1.toNat % 2 ^ k = 0 then 2 ^ k else 0 := by
  induction k with
  | zero =>
    show ∑ r ∈ range 1, bch3Chi i1 r = _
    rw [sum_range_one, bch3Chi_zero, Nat.pow_zero, Nat.mod_one, if_pos rfl]
    rfl
  | succ k ih =>
    rw [(bch3Chi_splits i1).below_succ (Nat.pow_le_pow_right (by decide) hk), ih (by omega),
      sum_range_succ, sum_range_one, Nat.zero_mul, Nat.one_mul, bch3Chi_zero,
      bch3Chi_two_pow i1 (by omega), bitSign, Nat.testBit_eq_decide_div_mod_eq]
    have hmod := Nat.mod_pow_succ (x := i1.toNat) (b := 2) (k := k)
    by_cases hbit : i1.toNat / 2 ^ k % 2 = 1
    · have hne : i1.toNat % 2 ^ (k + 1) ≠ 0 := by
        rw [hmod, hbit]
        omega
      simp [hbit, hne]
    · have hzero : i1.toNat / 2 ^ k % 2 = 0 := by omega
      rw [hmod, hzero, Nat.mul_zero, Nat.add_zero]
      simp only [decide_false, Bool.false_eq_true, if_false, show ¬ (0 = 1) from by decide]
      split
      · ring
      · rfl

theorem seedSign_cases (i0 : UInt32) : seedSign i0 = 1 ∨ seedSign i0 = -1 := by
  unfold seedSign
  split <;> simp

theorem shl32_of_small {v : Int} (hv : v = 1 ∨ v = -1) (hn : n < 31) :
    shl32 v n = v * 2 ^ n := by
  have hle : (2 : Int) ^ n ≤ 2 ^ 30 := pow_le_pow_right₀ (by decide) (by omega)
  have hpos : (0 : Int) < 2 ^ n := by positivity
  refine Int.bmod_eq_of_le ?_ ?_ <;> rcases hv with rfl | rfl <;> norm_num <;> omega

-- ======== ranges

theorem sum_Icc (f : Nat → Int) {a b : Nat} (h : a ≤ b) :
    ∑ k ∈ Finset.Icc a b, f k = ∑ k ∈ range (b + 1), f k - ∑ k ∈ range a, f k := by
  have hIco : Finset.Icc a b = Finset.Ico a (b + 1) := by
    ext k
    simp
  rw [hIco, sum_Ico_eq_sub f (by omega)]

/-- The next key, and the one after the last. -/
theorem toNat_succ (beta : UInt32) :
    (beta.toNat ≠ 2 ^ 32 - 1 ∧ (beta + 1).toNat = beta.toNat + 1)
      ∨ (beta.toNat = 2 ^ 32 - 1 ∧ beta + 1 = 0) := by
  have hlt := beta.toNat_lt
  have hadd : (beta + 1).toNat = (beta.toNat + 1) % 2 ^ 32 := UInt32.toNat_add beta 1
  by_cases hmax : beta.toNat = 2 ^ 32 - 1
  · refine .inr ⟨hmax, UInt32.toNat_inj.mp ?_⟩
    rw [hadd, hmax]
    rfl
  · refine .inl ⟨hmax, ?_⟩
    rw [hadd, mod_eq_of_lt (by omega)]

end Host

end Compass.Sketch

namespace Compass.Sketch

open List

namespace Host

open Dyadic

-- ======== ids

/-- The front mask of a level. -/
def levelMask (dom k : Nat) : Nat :=
  (2 ^ k - 1) * 2 ^ (dom + 1 - k)

/-- The id under which both loops know a block. -/
def blockId (dom : Nat) (b : Block) : UInt32 :=
  UInt32.ofNat (levelMask dom b.1) ^^^ UInt32.ofNat b.2

variable {dom k : Nat}

theorem levelMask_succ (hk : k ≤ dom) :
    levelMask dom (k + 1) = levelMask dom k + 2 ^ (dom - k) := by
  have hpos := Nat.two_pow_pos k
  obtain ⟨m, rfl⟩ := Nat.exists_eq_add_of_le hk
  unfold levelMask
  rw [show k + m + 1 - (k + 1) = m by omega, show k + m + 1 - k = m + 1 by omega,
    show k + m - k = m by omega, Nat.pow_succ, Nat.pow_succ]
  obtain ⟨n, hn⟩ : ∃ n, 2 ^ k = n + 1 := ⟨2 ^ k - 1, by omega⟩
  rw [hn, Nat.add_sub_cancel, show (n + 1) * 2 - 1 = 2 * n + 1 by omega]
  ring

theorem levelMask_mono {dom k l : Nat} (hkl : k ≤ l) (hl : l ≤ dom + 1) :
    levelMask dom k ≤ levelMask dom l := by
  induction hkl with
  | refl => exact le_rfl
  | step _ ih =>
    rw [Nat.succ_eq_add_one, levelMask_succ (by omega)]
    exact (ih (by omega)).trans (Nat.le_add_right _ _)

theorem levelMask_lt (hk : k ≤ dom) :
    levelMask dom k + 2 ^ (dom - k) < 2 ^ (dom + 1) := by
  have hle := @levelMask_mono dom (k + 1) (dom + 1) (by omega) le_rfl
  rw [levelMask_succ hk] at hle
  have hlast : levelMask dom (dom + 1) = 2 ^ (dom + 1) - 1 := by
    unfold levelMask
    rw [Nat.sub_self, Nat.pow_zero, Nat.mul_one]
  have := Nat.two_pow_pos (dom + 1)
  omega

theorem blockId_toNat {o : Nat} (hdom : dom ≤ 30) (hk : k ≤ dom) (ho : o < 2 ^ (dom - k)) :
    (blockId dom (k, o)).toNat = levelMask dom k + o := by
  have hlow : o < 2 ^ (dom + 1 - k) :=
    lt_of_lt_of_le ho (Nat.pow_le_pow_right (by decide) (by omega))
  have hlt := levelMask_lt hk
  have hsize : 2 ^ (dom + 1) ≤ 2 ^ 31 := Nat.pow_le_pow_right (by decide) (by omega)
  unfold blockId
  have hmask : levelMask dom k = (2 ^ k - 1) * 2 ^ (dom + 1 - k) := rfl
  have hfit : levelMask dom k + o < UInt32.size := by
    show _ < 2 ^ 32
    omega
  rw [hmask, ← ofNat_split _ hlow, ← hmask, UInt32.toNat_ofNat_of_lt' hfit]

theorem blockId_inj {l o p : Nat} (hdom : dom ≤ 30) (hk : k ≤ dom) (hl : l ≤ dom)
    (ho : o < 2 ^ (dom - k)) (hp : p < 2 ^ (dom - l))
    (h : blockId dom (k, o) = blockId dom (l, p)) : k = l ∧ o = p := by
  have hnat : levelMask dom k + o = levelMask dom l + p := by
    rw [← blockId_toNat hdom hk ho, ← blockId_toNat hdom hl hp, h]
  -- a higher level starts where the lower one ends
  have hnext : ∀ {a b x y : Nat}, b ≤ dom → a < b → x < 2 ^ (dom - a) →
      levelMask dom a + x = levelMask dom b + y → False := by
    intro a b x y hb hab hx heq
    have hle := @levelMask_mono dom (a + 1) b hab (by omega)
    rw [levelMask_succ (by omega)] at hle
    omega
  rcases lt_trichotomy k l with hlt | heq | hlt
  · exact (hnext hl hlt ho hnat).elim
  · subst heq
    exact ⟨rfl, by omega⟩
  · exact (hnext hk hlt hp hnat.symm).elim

/-- The mask of the next level. -/
theorem next_mask (hdom : dom ≤ 30) (hk : k ≤ dom) :
    (UInt32.ofNat (levelMask dom k) >>> 1) ^^^ (1 <<< UInt32.ofNat dom)
      = UInt32.ofNat (levelMask dom (k + 1)) := by
  have hall : ∀ d < 31, ∀ l < d + 1, (UInt32.ofNat (levelMask d l) >>> 1) ^^^ (1 <<< UInt32.ofNat d)
        = UInt32.ofNat (levelMask d (l + 1)) := by
    decide +kernel
  exact hall dom (by omega) k (by omega)

-- ======== the range

theorem wrap32_of_small {v : Int} (hlow : -(2 ^ 31) ≤ v) (hhigh : v < 2 ^ 31) : wrap32 v = v := by
  exact Int.bmod_eq_of_le (by omega) (by omega)

theorem shl32_one (hk : k ≤ 30) : shl32 1 k = 2 ^ k := by
  rw [shl32_of_small (.inl rfl) (by omega), Int.one_mul]

/-- The quotient of the first bound, and that of the last one. -/
theorem shiftRight_bounds (k : Nat) {u v : Nat} (hv : 0 < v) :
    ((u * 2 ^ k : Nat) : Int) >>> k = u ∧ ((v * 2 ^ k : Nat) - 1 : Int) >>> k = v - 1 := by
  have hpos : 0 < 2 ^ k := Nat.two_pow_pos k
  have hsplit : ((v * 2 ^ k : Nat) - 1 : Int) = ((2 ^ k - 1 + (v - 1) * 2 ^ k : Nat) : Int) := by
    obtain ⟨w, rfl⟩ : ∃ w, v = w + 1 := ⟨v - 1, by omega⟩
    have hle : 1 ≤ 2 ^ k := hpos
    push_cast [Nat.cast_sub hle]
    ring
  constructor
  · rw [Int.shiftRight_eq_div_pow, ← Int.natCast_ediv, Nat.mul_div_cancel _ hpos]
  · rw [hsplit, Int.shiftRight_eq_div_pow, ← Int.natCast_ediv, Nat.add_mul_div_right _ _ hpos,
      Nat.div_eq_of_lt (by omega), Nat.zero_add]
    omega

theorem ofInt_natCast (n : Nat) : UInt32.ofInt n = UInt32.ofNat n := by
  exact UInt32.ofNat_mod_size

/-- The block at the first bound. -/
theorem front_eq (dom k u : Nat) :
    (if (u : Int) % 2 = 1 then [UInt32.ofNat (levelMask dom k) ^^^ UInt32.ofInt u] else [])
      = (oddBlock k u u).map (blockId dom) := by
  unfold oddBlock
  by_cases hodd : u % 2 = 1
  · rw [if_pos hodd, if_pos (by omega), ofInt_natCast]
    rfl
  · rw [if_neg hodd, if_neg (by omega)]
    rfl

/-- The first bound after its block is taken off. -/
theorem front_bound {u : Nat} (hk : k ≤ 30) (hfit : (u + 1) * 2 ^ k ≤ 2 ^ 30) :
    (if (u : Int) % 2 = 1 then wrap32 (((u * 2 ^ k : Nat) : Int) + shl32 1 k)
        else ((u * 2 ^ k : Nat) : Int))
      = (((u + u % 2) * 2 ^ k : Nat) : Int) := by
  by_cases hodd : u % 2 = 1
  · have hsum : ((u * 2 ^ k : Nat) : Int) + 2 ^ k = (((u + 1) * 2 ^ k : Nat) : Int) := by
      push_cast
      ring
    rw [if_pos (by omega), shl32_one hk, hsum, hodd, wrap32_of_small (by omega) (by omega)]
  · rw [if_neg (by omega), show u % 2 = 0 by omega, add_zero]

/-- The block at the last bound. -/
theorem back_eq (dom : Nat) {v : Nat} (hk : k ≤ 30) (hv : 0 < v) (hfit : v * 2 ^ k ≤ 2 ^ 30) :
    (if ((v : Int) - 1) % 2 = 0 then
        [UInt32.ofNat (levelMask dom k) ^^^ UInt32.ofInt
          (wrap32 (wrap32 (((v * 2 ^ k : Nat) : Int) - 1 - shl32 1 k) + 1) >>> k)]
        else [])
      = (oddBlock k v (v - 1)).map (blockId dom) := by
  obtain ⟨w, rfl⟩ : ∃ w, v = w + 1 := ⟨v - 1, by omega⟩
  unfold oddBlock
  by_cases hodd : (w + 1) % 2 = 1
  · have hsub : (((w + 1) * 2 ^ k : Nat) : Int) - 1 - 2 ^ k = ((w * 2 ^ k : Nat) : Int) - 1 := by
      push_cast
      ring
    have hw : w * 2 ^ k ≤ (w + 1) * 2 ^ k := Nat.mul_le_mul_right _ (by omega)
    have hinner : wrap32 (((w * 2 ^ k : Nat) : Int) - 1) = ((w * 2 ^ k : Nat) : Int) - 1 :=
      wrap32_of_small (by omega) (by omega)
    have houter : wrap32 ((w * 2 ^ k : Nat) : Int) = ((w * 2 ^ k : Nat) : Int) :=
      wrap32_of_small (by omega) (by omega)
    rw [if_pos hodd, if_pos (by omega), shl32_one hk, hsub, hinner, Int.sub_add_cancel, houter,
      (shiftRight_bounds k hv).1, ofInt_natCast]
    rfl
  · rw [if_neg hodd, if_neg (by omega)]
    rfl

/-- The last bound after its block is taken off. -/
theorem back_bound {v : Nat} (hk : k ≤ 30) (hv : 0 < v) (hfit : v * 2 ^ k ≤ 2 ^ 30) :
    (if ((v : Int) - 1) % 2 = 0 then wrap32 (((v * 2 ^ k : Nat) : Int) - 1 - shl32 1 k)
        else ((v * 2 ^ k : Nat) : Int) - 1)
      = (((v - v % 2) * 2 ^ k : Nat) : Int) - 1 := by
  obtain ⟨w, rfl⟩ : ∃ w, v = w + 1 := ⟨v - 1, by omega⟩
  by_cases hodd : (w + 1) % 2 = 1
  · have hsub : (((w + 1) * 2 ^ k : Nat) : Int) - 1 - 2 ^ k = ((w * 2 ^ k : Nat) : Int) - 1 := by
      push_cast
      ring
    have hw : w * 2 ^ k ≤ (w + 1) * 2 ^ k := Nat.mul_le_mul_right _ (by omega)
    rw [if_pos (by omega), shl32_one hk, hsub, hodd, Nat.add_sub_cancel,
      wrap32_of_small (by omega) (by omega)]
  · rw [if_neg (by omega), show (w + 1) % 2 = 0 by omega, Nat.sub_zero]

/-- The loop is the cut. -/
theorem dyadicRangeIds_eq {dom : Nat} (hdom : dom ≤ 30) {fuel k u v : Nat}
    (hfit : v * 2 ^ k ≤ 2 ^ dom) :
    dyadicRangeIds dom fuel (UInt32.ofNat (levelMask dom k)) k ((u * 2 ^ k : Nat) : Int)
        (((v * 2 ^ k : Nat) : Int) - 1)
      = (Dyadic.cover fuel k u v).map (List.map (blockId dom)) := by
  induction fuel generalizing k u v with
  | zero => rfl
  | succ fuel ih =>
    have hpos : 0 < 2 ^ k := Nat.two_pow_pos k
    have hstop : ∀ x y : Nat,
        ((x * 2 ^ k : Nat) : Int) > ((y * 2 ^ k : Nat) : Int) - 1 ↔ y ≤ x := by
      intro x y
      rw [← Nat.mul_le_mul_right_iff hpos]
      omega
    rw [dyadicRangeIds, Dyadic.cover]
    by_cases hdone : v ≤ u
    · rw [if_pos ((hstop u v).mpr hdone), if_pos hdone]
      rfl
    rw [if_neg (mt (hstop u v).mp hdone), if_neg hdone]
    have hlevel : k ≤ dom := by
      by_contra hgt
      have hlarge : 2 ^ dom < 2 ^ k := Nat.pow_lt_pow_right (by decide) (by omega)
      have : 2 ^ k ≤ v * 2 ^ k := Nat.le_mul_of_pos_left _ (by omega)
      omega
    have hsize : 2 ^ dom ≤ 2 ^ 30 := Nat.pow_le_pow_right (by decide) hdom
    have hnext : (u + 1) * 2 ^ k ≤ v * 2 ^ k := Nat.mul_le_mul_right _ (by omega)
    obtain ⟨hu, hv⟩ := shiftRight_bounds k (u := u) (v := v) (by omega)
    dsimp only
    rw [hu, hv, front_eq, front_bound (by omega) (by omega), back_eq dom (by omega) (by omega)
      (by omega), back_bound (by omega) (by omega) (by omega)]
    by_cases hone : v ≤ u + u % 2
    · rw [if_pos ((hstop _ v).mpr hone), if_pos hone]
      rfl
    rw [if_neg (mt (hstop _ v).mp hone), if_neg hone, next_mask hdom hlevel]
    have halpha : (u + u % 2) * 2 ^ k = (u + u % 2) / 2 * 2 ^ (k + 1) := by
      rw [Nat.pow_succ', ← Nat.mul_assoc, Nat.div_mul_cancel (by omega)]
    have hbeta : (v - v % 2) * 2 ^ k = (v - v % 2) / 2 * 2 ^ (k + 1) := by
      rw [Nat.pow_succ', ← Nat.mul_assoc, Nat.div_mul_cancel (by omega)]
    have hless : (v - v % 2) * 2 ^ k ≤ v * 2 ^ k := Nat.mul_le_mul_right _ (by omega)
    rw [halpha, hbeta, ih (by omega), Option.map_map, Option.map_map]
    congr 1
    funext rest
    simp only [Function.comp_apply, map_append]

-- ======== the point

/-- The loop visits the block of the point on every level. -/
theorem dyadicPointIds_eq (hdom : dom ≤ 30) {j : Nat} (hj : j < 2 ^ dom) {n : Nat}
    (hk : k + n = dom) :
    dyadicPointIds dom n (UInt32.ofNat (levelMask dom k)) k (UInt32.ofNat (j / 2 ^ k * 2 ^ k))
      = (List.range' k (n + 1)).map fun l => blockId dom (l, j / 2 ^ l) := by
  induction n generalizing k with
  | zero =>
    obtain rfl : k = dom := by omega
    rw [dyadicPointIds, range'_one, map_singleton, Nat.div_eq_of_lt hj]
    simp [blockId]
  | succ n ih =>
    have hsize : 2 ^ dom ≤ 2 ^ 30 := Nat.pow_le_pow_right (by decide) hdom
    have hle : j / 2 ^ k * 2 ^ k ≤ j := Nat.div_mul_le_self j (2 ^ k)
    have hhalf : j / 2 ^ (k + 1) = j / 2 ^ k / 2 := by
      rw [Nat.pow_succ, Nat.div_div_eq_div_mul]
    have hfit : j / 2 ^ k * 2 ^ k < UInt32.size := by
      show _ < 2 ^ 32
      omega
    have hoffset : UInt32.ofNat (j / 2 ^ k * 2 ^ k) >>> UInt32.ofNat k
        = UInt32.ofNat (j / 2 ^ k) := by
      have hsmall : j / 2 ^ k < UInt32.size := by
        have := Nat.div_le_self j (2 ^ k)
        show _ < 2 ^ 32
        omega
      have hword : (UInt32.ofNat k).toNat % 32 = k := by
        rw [UInt32.toNat_ofNat_of_lt' (by show k < 2 ^ 32; omega)]
        omega
      rw [← UInt32.toNat_inj, UInt32.toNat_shiftRight, hword, UInt32.toNat_ofNat_of_lt' hfit,
        UInt32.toNat_ofNat_of_lt' hsmall, Nat.shiftRight_eq_div_pow,
        Nat.mul_div_cancel _ (Nat.two_pow_pos k)]
    have hclear : (if (UInt32.ofNat (j / 2 ^ k * 2 ^ k) >>> UInt32.ofNat k) &&& 1 ≠ 0 then
          UInt32.ofNat (j / 2 ^ k * 2 ^ k) ^^^ (1 <<< UInt32.ofNat k)
        else UInt32.ofNat (j / 2 ^ k * 2 ^ k))
        = UInt32.ofNat (j / 2 ^ (k + 1) * 2 ^ (k + 1)) := by
      have hbit := bit_ne_zero (UInt32.ofNat (j / 2 ^ k * 2 ^ k)) (i := k) (by omega)
      rw [UInt32.toNat_ofNat_of_lt' hfit, Nat.mul_div_cancel _ (Nat.two_pow_pos k)] at hbit
      by_cases hodd : j / 2 ^ k % 2 = 1
      · rw [if_pos (hbit.mpr hodd), take_bit (by omega) hodd, hhalf]
      · have heven : j / 2 ^ k / 2 * 2 = j / 2 ^ k := by
          omega
        rw [if_neg (mt hbit.mp hodd), hhalf, Nat.pow_succ', ← Nat.mul_assoc, heven]
    rw [dyadicPointIds, hclear, next_mask hdom (by omega), ih (by omega), hoffset,
      range'_succ, map_cons]
    rfl

theorem levelMask_zero (dom : Nat) : levelMask dom 0 = 0 := by
  unfold levelMask
  rw [Nat.pow_zero, Nat.sub_self, Nat.zero_mul]

end Host

-- ======== membership

section Membership

open Host

variable (xi : XiDyadicMapEH3)

theorem pointIds_eq (hdom : xi.domSize ≤ 30) {j : UInt32} (hj : j.toNat < 2 ^ xi.domSize) :
    xi.pointIds j
      = (List.range' 0 (xi.domSize + 1)).map fun l => blockId xi.domSize (l, j.toNat / 2 ^ l) := by
  have h := dyadicPointIds_eq hdom hj (n := xi.domSize) (k := 0) (Nat.zero_add _)
  rw [levelMask_zero, Nat.pow_zero, Nat.div_one, Nat.mul_one, UInt32.ofNat_toNat] at h
  exact h

/-- The cover is the cut, under the ids of its blocks. -/
theorem cover_eq (hdom : xi.domSize ≤ 30) {a b : UInt32} (hab : a ≤ b)
    (hb : b.toNat < 2 ^ xi.domSize) (fuel : Nat) :
    xi.cover fuel a b
      = (Dyadic.cover fuel 0 a.toNat (b.toNat + 1)).map (List.map (blockId xi.domSize)) := by
  have hle : a.toNat ≤ b.toNat := UInt32.le_iff_toNat_le.mp hab
  have hsize : 2 ^ xi.domSize ≤ 2 ^ 30 := Nat.pow_le_pow_right (by decide) hdom
  have h := @dyadicRangeIds_eq xi.domSize hdom fuel 0 a.toNat (b.toNat + 1) (by omega)
  rw [levelMask_zero, Nat.pow_zero, Nat.mul_one, Nat.mul_one, Nat.cast_add, Nat.cast_one,
    Int.add_sub_cancel] at h
  unfold XiDyadicMapEH3.cover
  rw [wrap32_of_small (by omega) (by omega), wrap32_of_small (by omega) (by omega)]
  exact h

/-- Where a block of the cut lies in the levels. -/
theorem mem_cover_level {dom fuel u v : Nat} {bs : List Dyadic.Block} (hv : v ≤ 2 ^ dom)
    (h : Dyadic.cover fuel 0 u v = some bs) {b : Dyadic.Block} (hb : b ∈ bs) :
    b.1 ≤ dom ∧ b.2 < 2 ^ (dom - b.1) := by
  have hend : (b.2 + 1) * 2 ^ b.1 ≤ 2 ^ dom := (Dyadic.mem_cover h hb).2.trans hv
  have hlevel : b.1 ≤ dom := by
    by_contra hgt
    have hlarge : 2 ^ dom < 2 ^ b.1 := Nat.pow_lt_pow_right (by decide) (by omega)
    have : 2 ^ b.1 ≤ (b.2 + 1) * 2 ^ b.1 := Nat.le_mul_of_pos_left _ (by omega)
    omega
  refine ⟨hlevel, ?_⟩
  rw [← Nat.sub_add_cancel hlevel, Nat.pow_add] at hend
  exact Nat.le_of_mul_le_mul_right hend (Nat.two_pow_pos _)

/-- An id of a point is in the cover when its block is in the cut. -/
theorem mem_pointIds_cover (hdom : xi.domSize ≤ 30) {fuel u v : Nat} {bs : List Dyadic.Block}
    (hv : v ≤ 2 ^ xi.domSize) (h : Dyadic.cover fuel 0 u v = some bs) {j : UInt32}
    (hj : j.toNat < 2 ^ xi.domSize) (id : UInt32) :
    id ∈ xi.pointIds j ∧ id ∈ bs.map (blockId xi.domSize)
      ↔ ∃ b ∈ bs, b.Holds j.toNat ∧ blockId xi.domSize b = id := by
  rw [pointIds_eq xi hdom hj]
  constructor
  · rintro ⟨hpoint, hcover⟩
    obtain ⟨l, hl, rfl⟩ := mem_map.mp hpoint
    obtain ⟨b, hb, heq⟩ := mem_map.mp hcover
    have hlevel : l ≤ xi.domSize := by
      have := (mem_range'_1.mp hl).2
      omega
    obtain ⟨hk, ho⟩ := mem_cover_level hv h hb
    have hoffset : j.toNat / 2 ^ l < 2 ^ (xi.domSize - l) := by
      rw [Nat.div_lt_iff_lt_mul (Nat.two_pow_pos l), ← Nat.pow_add, Nat.sub_add_cancel hlevel]
      exact hj
    obtain ⟨hfst, hsnd⟩ := blockId_inj hdom hk hlevel ho hoffset heq
    refine ⟨b, hb, ?_, heq⟩
    show _ / 2 ^ b.1 = b.2
    rw [hfst, hsnd]
  · rintro ⟨b, hb, hholds, rfl⟩
    refine ⟨mem_map.mpr ⟨b.1, ?_, ?_⟩, mem_map.mpr ⟨b, hb, rfl⟩⟩
    · have := (mem_cover_level hv h hb).1
      exact mem_range'_1.mpr ⟨Nat.zero_le _, by omega⟩
    · rw [show j.toNat / 2 ^ b.1 = b.2 from hholds]

/-- The cover ends, has distinct ids, and meets the ids of a point once
when the point is in the range and never when it is not. -/
theorem dyadic_exact (hdom : xi.domSize ≤ 30) {a b : UInt32} (hab : a ≤ b)
    (hb : b.toNat < 2 ^ xi.domSize) :
    ∃ ids, (∀ fuel, xi.domSize + 2 ≤ fuel → xi.cover fuel a b = some ids) ∧ ids.Nodup
      ∧ ∀ j : UInt32, j.toNat < 2 ^ xi.domSize →
        (a ≤ j ∧ j ≤ b → ∃! id, id ∈ xi.pointIds j ∧ id ∈ ids)
        ∧ (¬ (a ≤ j ∧ j ≤ b) → ∀ id ∈ xi.pointIds j, id ∉ ids) := by
  have hv : b.toNat + 1 ≤ 2 ^ xi.domSize := hb
  have hends := Dyadic.cover_isSome (n := xi.domSize + 1) (Nat.lt_succ_self _) (k := 0)
    (u := a.toNat) (v := b.toNat + 1)
    (lt_of_le_of_lt hv (Nat.pow_lt_pow_right (by decide) (Nat.lt_succ_self _)))
  obtain ⟨bs, hbs⟩ := Option.isSome_iff_exists.mp hends
  refine ⟨bs.map (blockId xi.domSize), ?_, ?_, ?_⟩
  · intro fuel hfuel
    rw [cover_eq xi hdom hab hb, Dyadic.cover_mono_le hfuel hbs]
    rfl
  · refine Nodup.map_on ?_ (Dyadic.nodup_cover hbs)
    rintro ⟨k, o⟩ hx ⟨l, p⟩ hy heq
    obtain ⟨hk, ho⟩ := mem_cover_level hv hbs hx
    obtain ⟨hl, hp⟩ := mem_cover_level hv hbs hy
    obtain ⟨rfl, rfl⟩ := blockId_inj hdom hk hl ho hp heq
    rfl
  · intro j hj
    have hcount := Dyadic.count_cover hbs j.toNat
    rw [Nat.pow_zero, Nat.div_one] at hcount
    have hmem := mem_pointIds_cover xi hdom hv hbs hj
    have hrange : a ≤ j ∧ j ≤ b ↔ a.toNat ≤ j.toNat ∧ j.toNat < b.toNat + 1 := by
      rw [UInt32.le_iff_toNat_le, UInt32.le_iff_toNat_le, Nat.lt_succ_iff]
    constructor
    · intro hin
      rw [if_pos (hrange.mp hin)] at hcount
      obtain ⟨l, hl⟩ := length_eq_one_iff.mp (countP_eq_length_filter.symm.trans hcount)
      have hone : ∀ x, x ∈ bs ∧ x.Holds j.toNat ↔ x = l := by
        intro x
        rw [← mem_singleton, ← hl, mem_filter, decide_eq_true_iff]
      obtain ⟨hlmem, hlholds⟩ := (hone l).mpr rfl
      refine ⟨blockId xi.domSize l, (hmem _).mpr ⟨l, hlmem, hlholds, rfl⟩, ?_⟩
      intro id hid
      obtain ⟨x, hx, hholds, rfl⟩ := (hmem id).mp hid
      rw [(hone x).mp ⟨hx, hholds⟩]
    · intro hout id hpoint hcover
      rw [if_neg (mt hrange.mpr hout), countP_eq_zero] at hcount
      obtain ⟨x, hx, hholds, -⟩ := (hmem id).mp ⟨hpoint, hcover⟩
      exact hcount x hx (decide_eq_true hholds)

theorem dyadic_exact_three_twelve :
    ∃ ids, (∀ fuel, 6 ≤ fuel → (XiDyadicMapEH3.mk (5, 9) 4).cover fuel 3 12 = some ids)
      ∧ ids.Nodup
      ∧ ∀ j : UInt32, j.toNat < 2 ^ 4 →
        (3 ≤ j ∧ j ≤ 12 → ∃! id, id ∈ (XiDyadicMapEH3.mk (5, 9) 4).pointIds j ∧ id ∈ ids)
        ∧ (¬ (3 ≤ j ∧ j ≤ 12) → ∀ id ∈ (XiDyadicMapEH3.mk (5, 9) 4).pointIds j, id ∉ ids) :=
  dyadic_exact (XiDyadicMapEH3.mk (5, 9) 4) (by decide) (by decide) (by decide)

end Membership

end Compass.Sketch
