/-
Sums over an initial segment of the natural numbers of a function that
splits along the digits.

A function `f` splits in base `b` when its value at a number is the
product of its values at the upper and at the lower digits, wherever the
number is cut. The sum over a block of numbers that share their upper
digits is then the value at the start of the block times the sum over the
lower digits (`Splits.sum_block`), and so the sum over all numbers below
a bound can be taken digit by digit (`Splits.sum_digits`). Only numbers
of at most `N` digits are looked at.

Cutting an interval of natural numbers into dyadic blocks.

A block is a level `k` and an offset `o`, and holds the `2 ^ k` numbers
whose quotient by `2 ^ k` is `o`. An interval whose bounds are multiples
of `2 ^ k` is given by the two quotients `u` and `v`, the second one
excluded. The cut takes a block of level `k` off at either end where the
bound is odd, and goes on with the halved bounds one level up.

Every number of the interval is in exactly one block of the cut, and no
other number is in any (`count_cover`). Since a block is not empty, that
also makes the blocks distinct (`nodup_cover`).

Smearing the bits of a word to the right.

`v ||| (v >>> m)` doubles the reach of a word's bits: where bit `i` told
whether one of the next `m` bits of a word is set, it now tells so of the
next `2 * m`. From a word itself, with the shifts 1, 2, 4, and so on up
to half the width, every bit below the highest one gets set.
-/
import Mathlib.Algebra.BigOperators.Intervals
import Mathlib.Algebra.BigOperators.Ring.Finset
import Mathlib.Data.Nat.Bitwise
import Mathlib.Data.Nat.Size
import Mathlib.Tactic.Ring

namespace DigitSum

open Finset Nat

def Splits (f : Nat → Int) (b N : Nat) : Prop :=
  ∀ k u r, r < b ^ k → u * b ^ k + r < b ^ N → f (u * b ^ k + r) = f (u * b ^ k) * f r

/-- The sum over all numbers of `k` digits. -/
def below (f : Nat → Int) (b k : Nat) : Int :=
  ∑ r ∈ range (b ^ k), f r

variable {f : Nat → Int} {b N : Nat}

variable (h : Splits f b N)
include h

theorem Splits.sum_block {k u : Nat} (hfit : u * b ^ k + b ^ k ≤ b ^ N) :
    ∑ r ∈ range (b ^ k), f (u * b ^ k + r) = f (u * b ^ k) * below f b k := by
  rw [below, mul_sum]
  refine sum_congr rfl fun r hr => ?_
  have hr := mem_range.mp hr
  exact h k u r hr (by omega)

/-- One digit: the numbers from `u` to `u + t`, and `k` more digits. -/
theorem Splits.sum_digits {k u t : Nat} (hfit : (u + t) * b ^ k ≤ b ^ N) :
    ∑ j ∈ range ((u + t) * b ^ k), f j
      = ∑ j ∈ range (u * b ^ k), f j + ∑ d ∈ range t, f ((u + d) * b ^ k) * below f b k := by
  induction t with
  | zero => simp
  | succ t ih =>
    have hsplit : (u + (t + 1)) * b ^ k = (u + t) * b ^ k + b ^ k := by ring
    rw [hsplit] at hfit ⊢
    rw [sum_range_add, ih (by omega), h.sum_block hfit, sum_range_succ, add_assoc]

theorem Splits.below_succ {k : Nat} (hk : b ^ (k + 1) ≤ b ^ N) :
    below f b (k + 1) = (∑ d ∈ range b, f (d * b ^ k)) * below f b k := by
  have hpow : b ^ (k + 1) = (0 + b) * b ^ k := by rw [zero_add, pow_succ']
  rw [below, hpow, h.sum_digits (hpow ▸ hk), zero_mul, sum_range_zero, zero_add, sum_mul]
  simp only [zero_add]

end DigitSum

namespace Dyadic

open List

/-- A level and an offset. -/
abbrev Block := Nat × Nat

/-- The block holds the number. -/
def Block.Holds (j : Nat) (b : Block) : Prop :=
  j / 2 ^ b.1 = b.2

instance (j : Nat) (b : Block) : Decidable (b.Holds j) :=
  inferInstanceAs (Decidable (_ = _))

/-- The block at an odd bound. -/
def oddBlock (k bound o : Nat) : List Block :=
  if bound % 2 = 1 then [(k, o)] else []

/-- The cut of the numbers from `u * 2 ^ k` to below `v * 2 ^ k`, with at
most `fuel` levels. -/
def cover : Nat → Nat → Nat → Nat → Option (List Block)
  | 0, _, _, _ => none
  | fuel + 1, k, u, v =>
    if v ≤ u then some []
    else if v ≤ u + u % 2 then some (oddBlock k u u)
    else
      (cover fuel (k + 1) ((u + u % 2) / 2) ((v - v % 2) / 2)).map fun rest =>
        oddBlock k u u ++ oddBlock k v (v - 1) ++ rest

variable {fuel u v : Nat} {bs : List Block}
variable {k : Nat}

theorem cover_cases (h : cover (fuel + 1) k u v = some bs) :
    (v ≤ u ∧ bs = []) ∨ (u < v ∧ v ≤ u + u % 2 ∧ bs = oddBlock k u u)
      ∨ (u + u % 2 < v ∧ ∃ rest, cover fuel (k + 1) ((u + u % 2) / 2) ((v - v % 2) / 2) = some rest
          ∧ bs = oddBlock k u u ++ oddBlock k v (v - 1) ++ rest) := by
  rw [cover] at h
  split at h
  · rename_i hstop
    exact .inl ⟨hstop, (Option.some.inj h).symm⟩
  split at h
  · rename_i hstop
    exact .inr (.inl ⟨by omega, hstop, (Option.some.inj h).symm⟩)
  obtain ⟨rest, hrest, rfl⟩ := Option.map_eq_some_iff.mp h
  exact .inr (.inr ⟨by omega, rest, hrest, rfl⟩)

-- ======== termination

theorem cover_isSome {n : Nat} (hn : n < fuel) (hv : v < 2 ^ n) : (cover fuel k u v).isSome := by
  induction fuel generalizing n k u v with
  | zero => omega
  | succ fuel ih =>
    rw [cover]
    split
    · rfl
    split
    · rfl
    rw [Option.isSome_map]
    match n with
    | 0 => omega
    | n + 1 =>
      exact ih (n := n) (by omega) (by omega)

/-- More levels do not change the cut. -/
theorem cover_mono (h : cover fuel k u v = some bs) : cover (fuel + 1) k u v = some bs := by
  induction fuel generalizing k u v bs with
  | zero => cases h
  | succ fuel ih =>
    rw [cover]
    obtain ⟨hstop, rfl⟩ | ⟨hgo, hstop, rfl⟩ | ⟨hgo, rest, hrest, rfl⟩ := cover_cases h
    · rw [if_pos hstop]
    · rw [if_neg (by omega), if_pos hstop]
    · rw [if_neg (by omega), if_neg (by omega), ih hrest, Option.map_some]

theorem cover_mono_le {fuel' : Nat} (hle : fuel ≤ fuel') (h : cover fuel k u v = some bs) :
    cover fuel' k u v = some bs := by
  induction hle with
  | refl => exact h
  | step _ ih => exact cover_mono ih

-- ======== membership

theorem count_oddBlock (j k bound o : Nat) :
    (oddBlock k bound o).countP (fun b => Block.Holds j b)
      = if bound % 2 = 1 ∧ j / 2 ^ k = o then 1 else 0 := by
  unfold oddBlock
  by_cases hodd : bound % 2 = 1
  · rw [if_pos hodd, countP_singleton]
    refine if_congr (decide_eq_true_iff.trans ?_) rfl rfl
    exact (and_iff_right hodd).symm
  · rw [if_neg hodd, countP_nil, if_neg fun hc => hodd hc.1]

/-- A number of the interval is in one block, another one in none. -/
theorem count_cover (h : cover fuel k u v = some bs) (j : Nat) :
    bs.countP (fun b => Block.Holds j b)
      = if u ≤ j / 2 ^ k ∧ j / 2 ^ k < v then 1 else 0 := by
  induction fuel generalizing k u v bs with
  | zero => cases h
  | succ fuel ih =>
    have hhalf : j / 2 ^ (k + 1) = j / 2 ^ k / 2 := by
      rw [Nat.pow_succ, Nat.div_div_eq_div_mul]
    obtain ⟨hstop, rfl⟩ | ⟨hgo, hstop, rfl⟩ | ⟨hgo, rest, hrest, rfl⟩ := cover_cases h
    · rw [countP_nil, if_neg (by omega)]
    · rw [count_oddBlock]
      split_ifs <;> omega
    · rw [countP_append, countP_append, count_oddBlock, count_oddBlock, ih hrest, hhalf]
      generalize j / 2 ^ k = q
      split_ifs <;> omega

/-- A block of the cut lies in the interval. -/
theorem mem_cover (h : cover fuel 0 u v = some bs) {b : Block} (hb : b ∈ bs) :
    u ≤ b.2 * 2 ^ b.1 ∧ (b.2 + 1) * 2 ^ b.1 ≤ v := by
  have hpos := Nat.two_pow_pos b.1
  have hin : ∀ j, Block.Holds j b → u ≤ j ∧ j < v := by
    intro j hj
    have hcount := count_cover h j
    have hsome : 0 < bs.countP (fun b => Block.Holds j b) :=
      countP_pos_iff.mpr ⟨b, hb, decide_eq_true hj⟩
    rw [hcount, Nat.pow_zero, Nat.div_one] at hsome
    by_contra hout
    rw [if_neg hout] at hsome
    omega
  have hlow : Block.Holds (b.2 * 2 ^ b.1) b := Nat.mul_div_cancel _ hpos
  have hhigh : Block.Holds (b.2 * 2 ^ b.1 + (2 ^ b.1 - 1)) b := by
    show _ / _ = _
    rw [Nat.add_comm, Nat.add_mul_div_right _ _ hpos, Nat.div_eq_of_lt (by omega), Nat.zero_add]
  have hlast := (hin _ hhigh).2
  refine ⟨(hin _ hlow).1, ?_⟩
  rw [Nat.add_mul, Nat.one_mul]
  omega

theorem nodup_cover (h : cover fuel 0 u v = some bs) :
    bs.Nodup := by
  rw [nodup_iff_count_le_one]
  intro b
  by_cases hb : b ∈ bs
  · have hcount := count_cover h (b.2 * 2 ^ b.1)
    have hle : bs.count b ≤ bs.countP (fun x => Block.Holds (b.2 * 2 ^ b.1) x) := by
      refine countP_mono_left fun x _ hx => ?_
      obtain rfl := eq_of_beq hx
      exact decide_eq_true (Nat.mul_div_cancel _ (Nat.two_pow_pos _))
    rw [hcount] at hle
    refine hle.trans ?_
    split <;> omega
  · rw [count_eq_zero_of_not_mem hb]
    omega

end Dyadic

namespace Smear

variable {w : ℕ}

/-- Bit `i` of `v` tells whether one of the `m` bits of `y` from `i` on is
set. -/
def Reaches (y v : BitVec w) (m : ℕ) : Prop :=
  ∀ i, v.getLsbD i = true ↔ ∃ j < m, y.getLsbD (i + j) = true

theorem reaches_self (y : BitVec w) : Reaches y y 1 := by
  intro i
  constructor
  · intro h
    exact ⟨0, by omega, h⟩
  · intro ⟨j, hj, h⟩
    have hj0 : j = 0 := by omega
    rwa [hj0] at h

theorem Reaches.smear {y v : BitVec w} {m : ℕ} (h : Reaches y v m) :
    Reaches y (v ||| (v >>> m)) (m + m) := by
  intro i
  rw [BitVec.getLsbD_or, BitVec.getLsbD_ushiftRight, Bool.or_eq_true, h i, h (m + i)]
  constructor
  · intro hor
    rcases hor with ⟨j, hj, hy⟩ | ⟨j, hj, hy⟩
    · exact ⟨j, by omega, hy⟩
    · refine ⟨m + j, by omega, ?_⟩
      rwa [show i + (m + j) = m + i + j by omega]
  · intro ⟨j, hj, hy⟩
    by_cases hlt : j < m
    · exact .inl ⟨j, hlt, hy⟩
    · refine .inr ⟨j - m, by omega, ?_⟩
      rwa [show m + i + (j - m) = i + j by omega]

/-- A word whose bits reach over the whole width has just the bits up to
the highest one set. -/
theorem Reaches.toNat_eq {y v : BitVec w} (h : Reaches y v w) :
    v.toNat = 2 ^ y.toNat.size - 1 := by
  apply Nat.eq_of_testBit_eq
  intro i
  rw [Nat.testBit_two_pow_sub_one, BitVec.testBit_toNat, Bool.eq_iff_iff, h i, decide_eq_true_iff]
  constructor
  · intro ⟨j, _, hy⟩
    have hle : i + j < y.toNat.size := Nat.lt_size.mpr (Nat.ge_two_pow_of_testBit hy)
    omega
  · intro hi
    obtain ⟨k, hk, hbit⟩ := Nat.exists_ge_and_testBit_of_ge_two_pow (Nat.lt_size.mp hi)
    have hkw : k < w := BitVec.lt_of_getLsbD hbit
    refine ⟨k - i, by omega, ?_⟩
    rwa [show i + (k - i) = k by omega]

end Smear
