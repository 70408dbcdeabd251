/-
The two overloads of `Size_Of_Join`, and the median they return.

The overloads have loops of their own, over one other sketch and over an
array of them; a product of two cells is the same in both. The median sorts
a copy of the estimates, unless there are only one or two of them.
-/
import Mathlib.Algebra.BigOperators.Group.List.Basic
import Compass.Sketch.Runtime

namespace Compass.Sketch

open List

/-- The middle element of a sorted array, or the average of the two. -/
def IsMiddle (sorted : List ℚ) (m : ℚ) : Prop :=
  if sorted.length % 2 = 1 then sorted[sorted.length / 2]? = some m
  else ∀ a b, sorted[sorted.length / 2 - 1]? = some a → sorted[sorted.length / 2]? = some b →
    m = (a + b) / 2

theorem median_isMiddle {x sorted : List ℚ} (hperm : sorted.Perm x)
    (hsorted : sorted.Pairwise (· ≤ ·)) : IsMiddle sorted (median x) := by
  have hsort := BubbleSort.bubbleSort_eq hperm hsorted
  unfold median IsMiddle
  dsimp only
  rw [hsort, hperm.length_eq]
  by_cases h1 : x.length = 1
  · obtain ⟨a, rfl⟩ := length_eq_one_iff.1 h1
    obtain rfl := perm_singleton.1 hperm
    simp
  by_cases h2 : x.length = 2
  · rw [h2]
    obtain ⟨c, d, rfl⟩ := length_eq_two.1 h2
    intro a b ha hb
    obtain ⟨p, q, rfl⟩ := length_eq_two.1 (hperm.length_eq.trans h2)
    obtain rfl := Option.some.inj ha
    obtain rfl := Option.some.inj hb
    have hsum : p + q = c + d := by simpa using hperm.sum_eq
    exact congrArg (· / 2) hsum.symm
  rw [if_neg h1, if_neg h2]
  simp only [getD_eq_getElem?_getD]
  split
  · next hodd =>
      have hlt : x.length / 2 < sorted.length := by
        rw [hperm.length_eq]
        omega
      rw [if_neg (by omega), getElem?_eq_getElem hlt]
      rfl
  · intro a b ha hb
    rw [if_pos (by omega), ha, hb]
    rfl

/-- The two overloads agree on one other sketch, neither cares which of the
two sketches it is called on, and the median is the middle of the array. -/
theorem sizeOfJoin_consistent (dims : FagmsDims) (s s1 : FagmsSketch) :
    s.sizeOfJoin dims s1 = s.sizeOfJoins dims [s1] ∧
    s.sizeOfJoin dims s1 = s1.sizeOfJoin dims s ∧
    ∀ x sorted : List ℚ, sorted.Perm x → sorted.Pairwise (· ≤ ·) →
      IsMiddle sorted (median x) := by
  refine ⟨rfl, ?_, fun x sorted => median_isMiddle⟩
  unfold FagmsSketch.sizeOfJoin
  simp only [mul_comm]

/-- The median of `5, 1, 2`. -/
theorem sizeOfJoin_consistent_median : IsMiddle [1, 2, 5] (median [5, 1, 2]) :=
  have s : FagmsSketch := ⟨0, fun _ => 0, fun _ _ => 0⟩
  (sizeOfJoin_consistent ⟨0, 0⟩ s s).2.2 [5, 1, 2] [1, 2, 5] (by decide) (by norm_num)

end Compass.Sketch
