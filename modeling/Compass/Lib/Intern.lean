/-
Interning: the distinct items of a sequence, each with a number.

`intern` keeps a list of distinct items and adds an item that is not
there yet at its end; an item's number is its place in the list. Run over
a whole sequence from the empty list, an item's number is the number of
distinct items that come before its first occurrence
(`idxOf_internAll_nil`), so numbers are given in the order of first
occurrence and never change.
-/
import Mathlib.Data.Finset.Card

namespace Intern

open List

variable {α : Type*} [BEq α] [LawfulBEq α]

/-- The list with an item in it, at the end where it is new. -/
def intern (xs : List α) (s : α) : List α :=
  if s ∈ xs then xs else xs ++ [s]

/-- The list with every item of a sequence in it. -/
def internAll (xs ss : List α) : List α :=
  ss.foldl intern xs

variable {xs ss : List α} {s t : α}

theorem intern_of_mem (h : s ∈ xs) : intern xs s = xs := if_pos h

theorem intern_of_not_mem (h : s ∉ xs) : intern xs s = xs ++ [s] := if_neg h

@[simp] theorem mem_intern : t ∈ intern xs s ↔ t ∈ xs ∨ t = s := by
  by_cases h : s ∈ xs
  · rw [intern_of_mem h]
    refine ⟨.inl, ?_⟩
    intro ht
    rcases ht with ht | rfl
    · exact ht
    · exact h
  · simp [intern_of_not_mem h]

theorem nodup_intern (h : xs.Nodup) : (intern xs s).Nodup := by
  by_cases hs : s ∈ xs
  · rwa [intern_of_mem hs]
  · rw [intern_of_not_mem hs, nodup_append]
    refine ⟨h, nodup_singleton s, ?_⟩
    intro a ha b hb hab
    rw [hab, mem_singleton.mp hb] at ha
    exact hs ha

/-- A number, once given, stays. -/
theorem idxOf_intern_of_mem (h : t ∈ xs) : (intern xs s).idxOf t = xs.idxOf t := by
  by_cases hs : s ∈ xs
  · rw [intern_of_mem hs]
  · rw [intern_of_not_mem hs, idxOf_append_of_mem h]

@[simp] theorem internAll_nil : internAll xs [] = xs := rfl

@[simp] theorem internAll_cons : internAll xs (s :: ss) = internAll (intern xs s) ss := rfl

theorem internAll_append (ts : List α) :
    internAll xs (ss ++ ts) = internAll (internAll xs ss) ts :=
  foldl_append

theorem mem_internAll : t ∈ internAll xs ss ↔ t ∈ xs ∨ t ∈ ss := by
  induction ss generalizing xs with
  | nil => simp
  | cons s ss ih => simp [ih, or_assoc]

theorem nodup_internAll (h : xs.Nodup) : (internAll xs ss).Nodup := by
  induction ss generalizing xs with
  | nil => exact h
  | cons s ss ih => exact ih (nodup_intern h)

theorem internAll_of_subset (h : ∀ s ∈ ss, s ∈ xs) : internAll xs ss = xs := by
  induction ss with
  | nil => rfl
  | cons s ss ih =>
    rw [internAll_cons, intern_of_mem (h s mem_cons_self)]
    exact ih fun s hs => h s (mem_cons_of_mem _ hs)

theorem idxOf_internAll_of_mem (h : t ∈ xs) : (internAll xs ss).idxOf t = xs.idxOf t := by
  induction ss generalizing xs with
  | nil => rfl
  | cons s ss ih =>
    rw [internAll_cons, ih (mem_intern.mpr (.inl h)), idxOf_intern_of_mem h]

theorem length_le_intern : xs.length ≤ (intern xs s).length := by
  by_cases h : s ∈ xs
  · rw [intern_of_mem h]
  · rw [intern_of_not_mem h, length_append]
    omega

/-- The list never shrinks. -/
theorem length_le_internAll : xs.length ≤ (internAll xs ss).length := by
  induction ss generalizing xs with
  | nil => exact Nat.le_refl _
  | cons s ss ih => exact Nat.le_trans length_le_intern ih

variable [DecidableEq α]

/-- The list is as long as there are distinct items. -/
theorem length_internAll_nil : (internAll [] ss).length = ss.toFinset.card := by
  have hset : (internAll [] ss).toFinset = ss.toFinset := by
    ext t
    simp [mem_internAll]
  rw [← hset, toFinset_card_of_nodup (nodup_internAll nodup_nil)]

/-- An item's number is the number of distinct items before its first
occurrence. -/
theorem idxOf_internAll_nil (h : s ∈ ss) :
    (internAll [] ss).idxOf s = (ss.take (ss.idxOf s)).toFinset.card := by
  -- The sequence is what comes before the first occurrence, the item, and the rest.
  obtain ⟨as, bs, rfl, hnew⟩ := eq_append_cons_of_mem h
  have hfirst : (as ++ s :: bs).idxOf s = as.length := by
    rw [idxOf_append_of_notMem hnew, idxOf_cons_self, Nat.add_zero]
  have hfresh : s ∉ internAll [] as := by
    intro hmem
    rcases mem_internAll.mp hmem with h0 | h0
    · cases h0
    · exact hnew h0
  rw [hfirst, take_left, internAll_append, internAll_cons,
    idxOf_internAll_of_mem (mem_intern.mpr (.inr rfl)), intern_of_not_mem hfresh,
    idxOf_append_of_notMem hfresh, idxOf_cons_self, Nat.add_zero,
    length_internAll_nil]

end Intern
