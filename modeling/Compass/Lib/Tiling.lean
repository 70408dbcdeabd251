/-
Pieces that tile an interval.

Each piece has a start and a length. A list of pieces tiles the interval
from `a` to `c` if the first piece starts at `a`, each of the others where
the one before it ends, and the last one ends at `c`. Pieces may be empty.
A stretch of the list can be replaced by any other pieces that tile the
same part.
-/
import Mathlib.Algebra.GroupWithZero.Nat
import Mathlib.Tactic.Common
import Mathlib.Data.List.Pairwise
import Mathlib.Order.Basic

namespace Tiling

open List

variable {α : Type*} (start : α → Int) (len : α → Nat)

/-- `xs` tiles the interval from `a` to `c`. -/
def Tiles : Int → List α → Int → Prop
  | a, [], c => a = c
  | a, x :: xs, c => start x = a ∧ Tiles (a + len x) xs c

variable {start len} {a b c : Int} {xs ys zs : List α}

@[simp]
theorem tiles_nil : Tiles start len a [] c ↔ a = c := Iff.rfl

@[simp]
theorem tiles_cons {x : α} :
    Tiles start len a (x :: xs) c
      ↔ start x = a ∧ Tiles start len (a + len x) xs c := Iff.rfl

theorem tiles_append :
    Tiles start len a (xs ++ ys) c
      ↔ ∃ b, Tiles start len a xs b ∧ Tiles start len b ys c := by
  induction xs generalizing a with
  | nil => simp
  | cons x xs ih =>
    simp only [cons_append, tiles_cons, ih]
    constructor
    · intro h
      obtain ⟨hx, b, hxs, hys⟩ := h
      exact ⟨b, ⟨hx, hxs⟩, hys⟩
    · intro h
      obtain ⟨b, ⟨hx, hxs⟩, hys⟩ := h
      exact ⟨hx, b, hxs, hys⟩

/-- Pieces that keep their place may change in other ways. -/
theorem tiles_map {g : α → α} (hstart : ∀ x, start (g x) = start x)
    (hlen : ∀ x, len (g x) = len x) :
    Tiles start len a (xs.map g) c ↔ Tiles start len a xs c := by
  induction xs generalizing a with
  | nil => rfl
  | cons x xs ih => simp only [map_cons, tiles_cons, hstart, hlen, ih]

/-- A stretch may be replaced by pieces that tile the same part. -/
theorem Tiles.replace (h : Tiles start len a (xs ++ (ys ++ zs)) c) {ys' : List α}
    (hys : ∀ p q, Tiles start len p ys q → Tiles start len p ys' q) :
    Tiles start len a (xs ++ (ys' ++ zs)) c := by
  obtain ⟨p, hxs, hrest⟩ := tiles_append.1 h
  obtain ⟨q, hmid, hzs⟩ := tiles_append.1 hrest
  exact tiles_append.2 ⟨p, hxs, tiles_append.2 ⟨q, hys p q hmid, hzs⟩⟩

variable (h : Tiles start len a xs c)
include h

theorem Tiles.le : a ≤ c := by
  induction xs generalizing a with
  | nil => exact Int.le_of_eq h
  | cons x xs ih =>
    have := ih h.2
    omega

theorem Tiles.eq_add_sum : c = a + ((xs.map len).sum : Nat) := by
  induction xs generalizing a with
  | nil =>
    have : a = c := h
    simp [this]
  | cons x xs ih =>
    have := ih h.2
    rw [map_cons, sum_cons]
    omega

/-- Every piece lies inside the interval. -/
theorem Tiles.mem {x : α} (hx : x ∈ xs) : a ≤ start x ∧ start x + len x ≤ c := by
  induction xs generalizing a with
  | nil => cases hx
  | cons y xs ih =>
    rcases mem_cons.1 hx with hhead | htail
    · subst hhead
      have := h.2.le
      have := h.1
      omega
    · have := ih h.2 htail
      omega

/-- A piece ends before the next ones start. -/
theorem Tiles.pairwise : xs.Pairwise fun x y => start x + len x ≤ start y := by
  induction xs generalizing a with
  | nil => exact Pairwise.nil
  | cons x xs ih =>
    apply Pairwise.cons ?_ (ih h.2)
    intro y hy
    have := h.1
    have := (h.2.mem hy).1
    omega

/-- Two different pieces have no place in common. -/
theorem Tiles.disjoint {x y : α} (hx : x ∈ xs) (hy : y ∈ xs) (hne : x ≠ y) :
    start x + len x ≤ start y ∨ start y + len y ≤ start x := by
  obtain ⟨i, hi, rfl⟩ := mem_iff_getElem.1 hx
  obtain ⟨j, hj, rfl⟩ := mem_iff_getElem.1 hy
  have hpair := pairwise_iff_getElem.1 h.pairwise
  rcases Nat.lt_trichotomy i j with hlt | heq | hgt
  · exact Or.inl (hpair i j hi hj hlt)
  · subst heq
    exact absurd rfl hne
  · exact Or.inr (hpair j i hj hi hgt)

end Tiling
