/-
Intervals of integers and the four corners of an operation.

An interval is a pair of ends; it is empty where they cross. An operation
that, with either argument fixed, stays between its values at the ends of
the other argument is on two intervals between the least and the greatest
of its values at the four corners (`mem_corners`). Sums, differences and
products are such operations everywhere, the quotient that rounds
towards zero where the divisor keeps its sign.
-/
import Mathlib.Tactic.Linarith

/-- A pair of ends. -/
structure IntInterval where
  lo : ℤ
  hi : ℤ
deriving DecidableEq, Repr

namespace IntInterval

instance : Membership ℤ IntInterval := ⟨fun I x => I.lo ≤ x ∧ x ≤ I.hi⟩

variable {I : IntInterval} {x : ℤ}

theorem mem_iff : x ∈ I ↔ I.lo ≤ x ∧ x ≤ I.hi := Iff.rfl

/-- Being between two values, whichever is the smaller. -/
def Between (u v x : ℤ) : Prop :=
  (u ≤ x ∧ x ≤ v) ∨ (v ≤ x ∧ x ≤ u)

/-- The least interval with two others in it. -/
def join (I J : IntInterval) : IntInterval :=
  ⟨min I.lo J.lo, max I.hi J.hi⟩

theorem mem_join_left (J : IntInterval) (h : x ∈ I) : x ∈ I.join J := by
  obtain ⟨hlo, hhi⟩ := h
  exact ⟨le_trans (min_le_left _ _) hlo, le_trans hhi (le_max_left _ _)⟩

variable {J : IntInterval}

theorem mem_join_right (I : IntInterval) (h : x ∈ J) : x ∈ I.join J := by
  obtain ⟨hlo, hhi⟩ := h
  exact ⟨le_trans (min_le_right _ _) hlo, le_trans hhi (le_max_right _ _)⟩

-- ======== corners

/-- The interval from the least to the greatest of the four corners. -/
def corners (f : ℤ → ℤ → ℤ) (I J : IntInterval) : IntInterval :=
  ⟨min (min (min (f I.lo J.lo) (f I.lo J.hi)) (f I.hi J.lo)) (f I.hi J.hi),
    max (max (max (f I.lo J.lo) (f I.lo J.hi)) (f I.hi J.lo)) (f I.hi J.hi)⟩

/-- Each corner is in the interval of the corners. -/
theorem corner_mem (f : ℤ → ℤ → ℤ) (I J : IntInterval) :
    f I.lo J.lo ∈ corners f I J ∧ f I.lo J.hi ∈ corners f I J
      ∧ f I.hi J.lo ∈ corners f I J ∧ f I.hi J.hi ∈ corners f I J := by
  unfold corners
  simp only [mem_iff]
  omega

/-- Bounds of the four corners bound their interval. -/
theorem corners_bounds {f : ℤ → ℤ → ℤ} {K : IntInterval} (hll : f I.lo J.lo ∈ K)
    (hlh : f I.lo J.hi ∈ K) (hhl : f I.hi J.lo ∈ K) (hhh : f I.hi J.hi ∈ K) :
    K.lo ≤ (corners f I J).lo ∧ (corners f I J).hi ≤ K.hi :=
  ⟨le_min (le_min (le_min hll.1 hlh.1) hhl.1) hhh.1,
    max_le (max_le (max_le hll.2 hlh.2) hhl.2) hhh.2⟩

theorem mem_of_between {u v : ℤ} (h : Between u v x) (hu : u ∈ I) (hv : v ∈ I) : x ∈ I := by
  rw [mem_iff] at *
  rcases h with h | h <;> omega

/-- An operation that stays between its values at the ends of either
argument stays between its corners. -/
theorem mem_corners {f : ℤ → ℤ → ℤ} {y : ℤ} (hright : Between (f x J.lo) (f x J.hi) (f x y))
    (hlow : Between (f I.lo J.lo) (f I.hi J.lo) (f x J.lo))
    (hhigh : Between (f I.lo J.hi) (f I.hi J.hi) (f x J.hi)) : f x y ∈ corners f I J := by
  obtain ⟨hll, hlh, hhl, hhh⟩ := corner_mem f I J
  exact mem_of_between hright (mem_of_between hlow hll hhl) (mem_of_between hhigh hlh hhh)

variable {I J : IntInterval} {x y : ℤ}

theorem add_mem_corners (hx : x ∈ I) (hy : y ∈ J) : x + y ∈ corners (· + ·) I J := by
  rw [mem_iff] at hx hy
  apply mem_corners
  · left
    omega
  · left
    omega
  · left
    omega

theorem sub_mem_corners (hx : x ∈ I) (hy : y ∈ J) : x - y ∈ corners (· - ·) I J := by
  rw [mem_iff] at hx hy
  apply mem_corners
  · right
    omega
  · left
    omega
  · left
    omega

theorem mul_between {u v : ℤ} (c : ℤ) (h : u ≤ x ∧ x ≤ v) : Between (c * u) (c * v) (c * x) := by
  by_cases hc : 0 ≤ c
  · exact .inl ⟨mul_le_mul_of_nonneg_left h.1 hc, mul_le_mul_of_nonneg_left h.2 hc⟩
  · have hneg : c ≤ 0 := by omega
    exact .inr ⟨mul_le_mul_of_nonpos_left h.2 hneg, mul_le_mul_of_nonpos_left h.1 hneg⟩

theorem mul_mem_corners (hx : x ∈ I) (hy : y ∈ J) : x * y ∈ corners (· * ·) I J := by
  have hleft : ∀ c, Between (I.lo * c) (I.hi * c) (x * c) := by
    intro c
    rw [mul_comm I.lo, mul_comm I.hi, mul_comm x]
    exact mul_between c hx
  exact mem_corners (mul_between x hy) (hleft J.lo) (hleft J.hi)

-- ======== quotients

/-- With a divisor other than zero, the quotient is between those of the
ends of the dividend. -/
theorem tdiv_between_left {u v c : ℤ} (hc : c ≠ 0) (h : u ≤ x ∧ x ≤ v) :
    Between (u.tdiv c) (v.tdiv c) (x.tdiv c) := by
  by_cases hpos : 0 < c
  · exact .inl ⟨Int.tdiv_le_tdiv hpos h.1, Int.tdiv_le_tdiv hpos h.2⟩
  · obtain ⟨d, rfl⟩ : ∃ d, c = -d := ⟨-c, by omega⟩
    have hd : 0 < d := by omega
    rw [Int.tdiv_neg, Int.tdiv_neg, Int.tdiv_neg]
    exact .inr ⟨neg_le_neg (Int.tdiv_le_tdiv hd h.2), neg_le_neg (Int.tdiv_le_tdiv hd h.1)⟩

/-- A greater divisor gives a smaller quotient. -/
theorem tdiv_anti_right {c d : ℤ} (hx : 0 ≤ x) (hc : 0 < c) (hcd : c ≤ d) :
    x.tdiv d ≤ x.tdiv c := by
  apply Int.le_tdiv_of_mul_le hc
  have hq : 0 ≤ x.tdiv d := Int.tdiv_nonneg hx (by omega)
  calc x.tdiv d * c ≤ x.tdiv d * d := mul_le_mul_of_nonneg_left hcd hq
    _ = d * x.tdiv d := mul_comm _ _
    _ ≤ x := Int.mul_tdiv_self_le hx

theorem Between.neg {u v z : ℤ} (h : Between u v z) : Between (-u) (-v) (-z) := by
  unfold Between at *
  omega

/-- Between two divisors of one sign, the quotient is between theirs. -/
theorem tdiv_between_right {c d : ℤ} (x : ℤ) (h : c ≤ y ∧ y ≤ d) (hsign : 0 < c ∨ d < 0) :
    Between (x.tdiv c) (x.tdiv d) (x.tdiv y) := by
  -- for positive divisors first, then by the signs
  have hpos : ∀ {x c d y : ℤ}, c ≤ y ∧ y ≤ d → 0 < c →
      Between (x.tdiv c) (x.tdiv d) (x.tdiv y) := by
    intro x c d y h hc
    by_cases hx : 0 ≤ x
    · exact .inr ⟨tdiv_anti_right hx (by omega) h.2, tdiv_anti_right hx hc h.1⟩
    · obtain ⟨z, rfl⟩ : ∃ z, x = -z := ⟨-x, by omega⟩
      have hz : 0 ≤ z := by omega
      rw [Int.neg_tdiv, Int.neg_tdiv, Int.neg_tdiv]
      exact Between.neg (.inr ⟨tdiv_anti_right hz (by omega) h.2, tdiv_anti_right hz hc h.1⟩)
  rcases hsign with hc | hd
  · exact hpos h hc
  · obtain ⟨c', rfl⟩ : ∃ c', c = -c' := ⟨-c, by omega⟩
    obtain ⟨d', rfl⟩ : ∃ d', d = -d' := ⟨-d, by omega⟩
    obtain ⟨y', rfl⟩ : ∃ y', y = -y' := ⟨-y, by omega⟩
    rw [Int.tdiv_neg, Int.tdiv_neg, Int.tdiv_neg]
    have hflip : Between (x.tdiv d') (x.tdiv c') (x.tdiv y') := hpos (by omega) (by omega)
    exact Between.neg (Or.symm hflip)

theorem tdiv_mem_corners (hx : x ∈ I) (hy : y ∈ J) (hsign : 0 < J.lo ∨ J.hi < 0) :
    x.tdiv y ∈ corners Int.tdiv I J := by
  rw [mem_iff] at hy
  exact mem_corners (tdiv_between_right x hy hsign) (tdiv_between_left (by omega) hx)
    (tdiv_between_left (by omega) hx)

end IntInterval
