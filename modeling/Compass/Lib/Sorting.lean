/-
Sorting and ordered iteration of the C++ standard library.

`std::sort` is kept as the standard promises it: a rearrangement in which
no element comes before a smaller one. The sort need not be stable, so
equal elements may come out in any order, and everything proved with a
`StdSort` holds for every implementation. A `std::set` is a `Finset`
here, and a loop over it visits the elements in `ascending` order.

Bubble sort as a `while` loop over passes.

A pass goes once over the list, swaps neighbours that are in the wrong
order and reports whether it swapped anything; the loop runs until a pass
reports nothing. The loop is not bounded by a counter, so its termination
is the first fact this module has to supply: a pass that swaps removes at
least one inversion (`bubblePass_inversions`). The other one is that a
pass without a swap has found the list in order.
-/
import Mathlib.Data.Finset.Basic
import Mathlib.Data.List.Sort

/-- A sorting function for the comparison `le`. -/
structure StdSort (β : Type _) (le : β → β → Prop) where
  run : List β → List β
  perm : ∀ l, (run l).Perm l
  sorted : ∀ l, (run l).Pairwise le

namespace StdSort

open List

variable {β : Type _}

/-- One implementation: insertion sort. -/
def insertion (le : β → β → Prop) [DecidableRel le] [Std.Total le] [IsTrans β le] : StdSort β le :=
  ⟨List.insertionSort le, List.perm_insertionSort le, List.pairwise_insertionSort le⟩

variable [LinearOrder β]

theorem insertionSort_eq_of_perm {l l' : List β} (h : l.Perm l') :
    l.insertionSort (· ≤ ·) = l'.insertionSort (· ≤ ·) := by
  refine Perm.eq_of_pairwise (fun a b _ _ => le_antisymm)
    (pairwise_insertionSort _ l) (pairwise_insertionSort _ l') ?_
  exact (perm_insertionSort _ l).trans
    (h.trans (perm_insertionSort _ l').symm)

/-- The elements of a `std::set` in the order a loop visits them. -/
def ascending (s : Finset β) : List β :=
  Quot.liftOn s.1 (List.insertionSort (· ≤ ·)) fun _ _ h =>
    insertionSort_eq_of_perm h

theorem mem_ascending {s : Finset β} {v : β} : v ∈ ascending s ↔ v ∈ s := by
  obtain ⟨m, hnd⟩ := s
  induction m using Quot.inductionOn with
  | h l => exact (perm_insertionSort _ l).mem_iff

theorem nodup_ascending (s : Finset β) : (ascending s).Nodup := by
  obtain ⟨m, hnd⟩ := s
  induction m using Quot.inductionOn with
  | h l => exact (perm_insertionSort _ l).nodup_iff.mpr hnd

end StdSort

namespace BubbleSort

open List

variable {α : Type _} [LinearOrder α]

/-- One pass of compare and swap over neighbours, with the flag that says
whether there was a swap. -/
def bubblePass : List α → List α × Bool
  | x :: y :: rest =>
    if x > y then (y :: (bubblePass (x :: rest)).1, true)
    else
      let r := bubblePass (y :: rest)
      (x :: r.1, r.2)
  | l => (l, false)

/-- The pairs that stand in the wrong order. -/
def inversions : List α → Nat
  | [] => 0
  | x :: l => l.countP (· < x) + inversions l

theorem bubblePass_perm (l : List α) : (bubblePass l).1.Perm l := by
  induction l using bubblePass.induct with
  | case1 x y rest hxy ih =>
    rw [bubblePass, if_pos hxy]
    exact (ih.cons y).trans (Perm.swap x y rest)
  | case2 x y rest hxy ih =>
    rw [bubblePass, if_neg hxy]
    exact ih.cons x
  | case3 l hl =>
    unfold bubblePass
    split
    · next x y rest => exact absurd rfl (hl x y rest)
    · exact List.Perm.refl _

/-- A pass never adds an inversion, and one that swaps removes one. -/
theorem bubblePass_inversions (l : List α) :
    inversions (bubblePass l).1 + (if (bubblePass l).2 then 1 else 0)
      ≤ inversions l := by
  induction l using bubblePass.induct with
  | case1 x y rest hxy ih =>
    have hcount := (bubblePass_perm (x :: rest)).countP_eq (· < y)
    rw [bubblePass, if_pos hxy]
    simp only [inversions, countP_cons, if_true] at ih ⊢
    rw [hcount, countP_cons]
    simp only [decide_eq_true_eq, not_lt_of_gt hxy, if_false, hxy, if_true]
    omega
  | case2 x y rest hxy ih =>
    have hcount := (bubblePass_perm (y :: rest)).countP_eq (· < x)
    rw [bubblePass, if_neg hxy]
    simp only [inversions] at ih ⊢
    omega
  | case3 l hl =>
    unfold bubblePass
    split
    · next x y rest => exact absurd rfl (hl x y rest)
    · simp

/-- Passes until one of them swaps nothing. -/
def bubbleSort (l : List α) : List α :=
  if (bubblePass l).2 then bubbleSort (bubblePass l).1
  else (bubblePass l).1
termination_by inversions l
decreasing_by
  have h := bubblePass_inversions l
  rw [if_pos (by assumption)] at h
  omega

/-- A pass that swaps nothing has found the list in order. -/
theorem bubblePass_false (l : List α) : (bubblePass l).2 = false →
    (bubblePass l).1 = l ∧ l.Pairwise (· ≤ ·) := by
  induction l using bubblePass.induct with
  | case1 x y rest hxy ih =>
    rw [bubblePass, if_pos hxy]
    exact nofun
  | case2 x y rest hxy ih =>
    rw [bubblePass, if_neg hxy]
    intro h
    obtain ⟨heq, hsorted⟩ := ih h
    have hle := not_lt.mp hxy
    refine ⟨congrArg (x :: ·) heq, pairwise_cons.2 ⟨fun z hz => ?_, hsorted⟩⟩
    rcases mem_cons.1 hz with rfl | hz
    · exact hle
    · exact hle.trans (rel_of_pairwise_cons hsorted hz)
  | case3 l hl =>
    unfold bubblePass
    split
    · next x y rest => exact absurd rfl (hl x y rest)
    · next hshort =>
        refine fun _ => ⟨rfl, ?_⟩
        match l, hshort with
        | [], _ => exact Pairwise.nil
        | [x], _ => exact pairwise_singleton _ x
        | x :: y :: rest, h => exact absurd rfl (h x y rest)

/-- The list that comes out is the sorted one. -/
theorem bubbleSort_eq {l sorted : List α} (hperm : sorted.Perm l)
    (hsorted : sorted.Pairwise (· ≤ ·)) : bubbleSort l = sorted := by
  induction l using bubbleSort.induct with
  | case1 l h ih =>
    rw [bubbleSort, if_pos h]
    exact ih (hperm.trans (bubblePass_perm l).symm)
  | case2 l h =>
    rw [bubbleSort, if_neg h]
    obtain ⟨heq, hl⟩ := bubblePass_false l (Bool.eq_false_iff.2 h)
    rw [heq]
    exact hperm.symm.eq_of_pairwise (fun a b _ _ => le_antisymm) hl hsorted

end BubbleSort
