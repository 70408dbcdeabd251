/-
Wildcard patterns over any alphabet, and the words they stand for.

A pattern is a list of items; the words of a pattern are those of its items
one after the other. Every item but `any` takes one letter, so a word is
read letter by letter, and `any` in front means that some end of the word
is one of the rest.
-/
import Mathlib.Computability.Language

namespace Wildcard

open List

inductive Item (α : Type) where
  /-- Any word. -/
  | any
  /-- Any one letter. -/
  | one
  /-- One letter of a set. -/
  | set (cs : List α)
  /-- This letter. -/
  | lit (c : α)
deriving DecidableEq, Repr

variable {α : Type} {c : α} {w t : List α} {items : List (Item α)}

/-- The letters that an item of one letter takes. -/
def Item.Takes : Item α → α → Prop
  | .any, _ => False
  | .one, _ => True
  | .set cs, c => c ∈ cs
  | .lit d, c => c = d

instance [DecidableEq α] (item : Item α) (c : α) : Decidable (item.Takes c) := by
  cases item <;> unfold Item.Takes <;> infer_instance

def Item.language : Item α → Language α
  | .any => ⊤
  | item => {w | ∃ c, item.Takes c ∧ w = [c]}

/-- The words of a pattern. -/
def language (items : List (Item α)) : Language α :=
  (items.map Item.language).prod

@[simp] theorem mem_language_nil : w ∈ language ([] : List (Item α)) ↔ w = [] := by
  simp [language]

-- ======== one letter

variable {item : Item α}

theorem Item.mem_language (h : item ≠ .any) : w ∈ item.language ↔ ∃ c, item.Takes c ∧ w = [c] := by
  cases item with
  | any => exact absurd rfl h
  | one | set _ | lit _ => exact Iff.rfl

theorem cons_mem_language (h : item ≠ .any) :
    c :: w ∈ language (item :: items) ↔ item.Takes c ∧ w ∈ language items := by
  constructor
  · rintro ⟨a, ha, b, hb, heq⟩
    obtain ⟨d, hd, rfl⟩ := (Item.mem_language h).1 ha
    obtain ⟨rfl, rfl⟩ := cons.inj heq
    exact ⟨hd, hb⟩
  · rintro ⟨hc, hw⟩
    exact ⟨[c], (Item.mem_language h).2 ⟨c, hc, rfl⟩, w, hw, rfl⟩

theorem nil_not_mem_language (h : item ≠ .any) : [] ∉ language (item :: items) := by
  rintro ⟨a, ha, b, -, heq⟩
  obtain ⟨d, -, rfl⟩ := (Item.mem_language h).1 ha
  exact absurd heq (by simp)

-- ======== any word

/-- `any` in front: an end of the word is one of the rest. -/
theorem mem_language_any :
    w ∈ language (.any :: items) ↔ ∃ t, t <:+ w ∧ t ∈ language items := by
  constructor
  · rintro ⟨a, -, t, ht, rfl⟩
    exact ⟨t, suffix_append a t, ht⟩
  · rintro ⟨t, ⟨a, rfl⟩, ht⟩
    exact ⟨a, trivial, t, ht, rfl⟩

theorem mem_language_any_of_suffix (hsuf : t <:+ w) (ht : t ∈ language (.any :: items)) :
    w ∈ language (.any :: items) := by
  obtain ⟨u, hu, hmem⟩ := mem_language_any.1 ht
  exact mem_language_any.2 ⟨u, hu.trans hsuf, hmem⟩

theorem mem_language_any_of_mem (hw : w ∈ language items) : w ∈ language (.any :: items) :=
  mem_language_any.2 ⟨w, suffix_rfl, hw⟩

@[simp] theorem nil_mem_language_any :
    [] ∈ language (.any :: items) ↔ [] ∈ language items := by
  simp [mem_language_any]

theorem cons_mem_language_any :
    c :: w ∈ language (.any :: items) ↔
      c :: w ∈ language items ∨ w ∈ language (.any :: items) := by
  simp [mem_language_any, suffix_cons_iff]

@[simp] theorem mem_language_any_nil : w ∈ language [Item.any] :=
  mem_language_any.2 ⟨[], nil_suffix, by simp⟩

/-- One `any` is as good as two. -/
theorem language_any_any :
    w ∈ language (.any :: .any :: items) ↔ w ∈ language (.any :: items) := by
  constructor
  · intro h
    obtain ⟨t, hsuf, ht⟩ := mem_language_any.1 h
    exact mem_language_any_of_suffix hsuf ht
  · exact mem_language_any_of_mem

/-- An item of one letter behind `any` leaves one letter less for the rest. -/
theorem language_any_one :
    c :: w ∈ language (.any :: .one :: items) ↔ w ∈ language (.any :: items) := by
  rw [mem_language_any, mem_language_any]
  constructor
  · rintro ⟨t, hsuf, ht⟩
    cases t with
    | nil => exact absurd ht (nil_not_mem_language (by simp))
    | cons d t =>
      have hmem := ((cons_mem_language (by simp)).1 ht).2
      rcases suffix_cons_iff.1 hsuf with heq | hsuf
      · obtain ⟨rfl, rfl⟩ := cons.inj heq
        exact ⟨t, suffix_rfl, hmem⟩
      · exact ⟨t, (suffix_cons d t).trans hsuf, hmem⟩
  · rintro ⟨t, ⟨a, rfl⟩, ht⟩
    cases h : (c :: a).getLast? with
    | none => simp at h
    | some d =>
      obtain ⟨b, hb⟩ := getLast?_eq_some_iff.1 h
      refine ⟨d :: t, ⟨b, ?_⟩, (cons_mem_language (by simp)).2 ⟨trivial, ht⟩⟩
      rw [← cons_append, hb, append_assoc, singleton_append]

-- ======== a text

theorem exists_cons_of_mem_language (h : item ≠ .any) (hw : w ∈ language (item :: items)) :
    ∃ c t, w = c :: t ∧ item.Takes c ∧ t ∈ language items := by
  cases w with
  | nil => exact absurd hw (nil_not_mem_language h)
  | cons c t => exact ⟨c, t, rfl, (cons_mem_language h).1 hw⟩

/-- A text in front of a pattern. -/
theorem mem_language_lits {text : List α} : w ∈ language (text.map Item.lit ++ items) ↔
    ∃ t, w = text ++ t ∧ t ∈ language items := by
  induction text generalizing w with
  | nil => simp
  | cons c text ih =>
    constructor
    · intro hw
      obtain ⟨d, t, rfl, rfl, ht⟩ := exists_cons_of_mem_language (by simp) hw
      obtain ⟨u, rfl, hu⟩ := ih.1 ht
      exact ⟨u, rfl, hu⟩
    · rintro ⟨t, rfl, ht⟩
      exact (cons_mem_language (by simp)).2 ⟨rfl, ih.2 ⟨t, rfl, ht⟩⟩

/-- A text between two `any` stands anywhere in the word. -/
theorem mem_language_between {text : List α} :
    w ∈ language (.any :: (text.map Item.lit ++ [.any])) ↔ text <:+: w := by
  rw [mem_language_any]
  simp only [mem_language_lits, mem_language_any_nil, and_true]
  constructor
  · rintro ⟨t, hsuf, u, rfl⟩
    exact (prefix_append text u).isInfix.trans hsuf.isInfix
  · rintro ⟨a, b, rfl⟩
    exact ⟨text ++ b, ⟨a, (append_assoc _ _ _).symm⟩, b, rfl⟩

end Wildcard
