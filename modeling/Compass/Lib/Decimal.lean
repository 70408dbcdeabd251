/-
Decimal conversions of the C++ standard library, and what concatenating
decimal texts does to the numbers they denote.

`toDecimal` is `std::to_string` of a signed integer and `stoi` is
`std::stoi`: leading blanks, an optional sign, then the longest run of
digits, with the two exceptions the library documents. Texts are lists
of characters, so that the facts about concatenation are the list facts
of Mathlib.

Two results carry the users of this module. Appending digits to the text
of a positive number gives the text of the number read off the whole
(`toDigits_append_digits`), so texts without a leading zero are equal
exactly when their values are. And a text `a ++ sep ++ b` with a
separator of two equal letters determines `a` and `b` up to the
ambiguities listed in `twinSep_append_eq_iff`: the separator may sit at
another place of the same text.

Numbers with a fixed point: an integer and a scale, which says how many of
its digits stand behind the point.

Two numbers of one scale compare like their integers. A number is brought to
a larger scale by multiplication, and nothing is lost.
-/
import Mathlib.Data.List.TakeWhile
import Mathlib.Tactic.FieldSimp
import Mathlib.Tactic.IntervalCases
import Mathlib.Tactic.Positivity

namespace Decimal

open List Nat

-- ======== conversions

/-- `std::to_string` of a signed integer. -/
def toDecimal (v : Int) : List Char :=
  if v < 0 then '-' :: Nat.toDigits 10 v.natAbs
  else Nat.toDigits 10 v.natAbs

inductive StoiError where
  | invalidArgument
  | outOfRange
deriving Repr, DecidableEq

def isBlank (c : Char) : Bool :=
  c = ' ' || c = '\t' || c = '\n' || c = '\x0b' || c = '\x0c' || c = '\r'

def intMax : Int := 2147483647
def intMin : Int := -2147483648

/-- The digits of `std::stoi` once blanks and sign are gone: the longest
run of digits, read with the sign `neg`. -/
def stoiDigits (neg : Bool) (s : List Char) : Except StoiError Int :=
  let digits := s.takeWhile Char.isDigit
  if digits = [] then .error .invalidArgument
  else
    let m : Int := Nat.ofDigitChars 10 digits 0
    let v := if neg then -m else m
    if v < intMin ∨ intMax < v then .error .outOfRange else .ok v

/-- `std::stoi` in base ten. -/
def stoi (s : List Char) : Except StoiError Int :=
  match s.dropWhile isBlank with
  | '-' :: rest => stoiDigits true rest
  | '+' :: rest => stoiDigits false rest
  | rest => stoiDigits false rest

-- ======== digit strings

def AllDigits (s : List Char) : Prop := ∀ c ∈ s, c.isDigit = true

theorem allDigits_toDigits (n : Nat) : AllDigits (Nat.toDigits 10 n) :=
  fun _ hc => isDigit_of_mem_toDigits (by decide) (by decide) hc

theorem AllDigits.append {s t : List Char} (hs : AllDigits s)
    (ht : AllDigits t) : AllDigits (s ++ t) := by
  intro c hc
  rcases mem_append.1 hc with hc | hc
  · exact hs c hc
  · exact ht c hc

theorem toDecimal_of_nonneg {v : Int} (hv : 0 ≤ v) :
    toDecimal v = Nat.toDigits 10 v.natAbs :=
  if_neg (by omega)

/-- A digit is neither a blank nor a sign. -/
theorem digit_not_lead {c : Char} (hc : c.isDigit = true) :
    isBlank c = false ∧ c ≠ '-' ∧ c ≠ '+' := by
  have hblank : ∀ d : Char, d.isDigit = false → c ≠ d := by
    intro d hd heq
    rw [heq, hd] at hc
    cases hc
  refine ⟨?_, hblank _ (by decide), hblank _ (by decide)⟩
  simp only [isBlank, Bool.or_eq_false_iff, decide_eq_false_iff_not]
  refine ⟨⟨⟨⟨⟨?_, ?_⟩, ?_⟩, ?_⟩, ?_⟩, ?_⟩ <;>
    exact hblank _ (by decide)

/-- On a non-empty string of digits `std::stoi` is the value of the
string, unless that is above `INT_MAX`. -/
theorem stoi_digits {s : List Char} (hne : s ≠ []) (hs : AllDigits s) :
    stoi s = if intMax < Nat.ofDigitChars 10 s 0 then .error .outOfRange
      else .ok (Nat.ofDigitChars 10 s 0 : Int) := by
  cases s with
  | nil => exact absurd rfl hne
  | cons c s =>
    obtain ⟨hblank, hminus, hplus⟩ := digit_not_lead (hs c (by simp))
    have hrest : stoi (c :: s) = stoiDigits false (c :: s) := by
      unfold stoi
      rw [dropWhile_cons_of_neg (by simp [hblank])]
      split
      · next heq => exact absurd (cons.inj heq).1 hminus
      · next heq => exact absurd (cons.inj heq).1 hplus
      · rfl
    have htake : (c :: s).takeWhile Char.isDigit = c :: s :=
      takeWhile_eq_self_iff.mpr hs
    have hmin : ¬ ((ofDigitChars 10 (c :: s) 0 : Int) < intMin) := by
      unfold intMin
      omega
    rw [hrest]
    unfold stoiDigits
    simp only [htake, reduceCtorEq, if_false, Bool.false_eq_true, hmin, false_or]

theorem digitChar_of_isDigit {c : Char} (hc : c.isDigit = true) :
    c.toNat - '0'.toNat < 10
      ∧ (c.toNat - '0'.toNat).digitChar = c := by
  obtain ⟨hlo, hhi⟩ := Char.isDigit_iff_toNat.mp hc
  simp only [Char.reduceToNat] at hlo hhi ⊢
  refine ⟨by omega, ?_⟩
  have hback : c = Char.ofNat c.toNat := (Char.ofNat_toNat c).symm
  generalize c.toNat = m at hlo hhi hback ⊢
  rw [hback]
  interval_cases m <;> rfl

/-- Digits appended to the text of a positive number give the text of
the number the whole denotes. -/
theorem toDigits_append_digits {s : List Char} (hs : AllDigits s) :
    ∀ {n : Nat}, 0 < n →
      Nat.toDigits 10 n ++ s = Nat.toDigits 10 (Nat.ofDigitChars 10 s n) := by
  induction s with
  | nil =>
    intro n _
    rw [append_nil, ofDigitChars_nil]
  | cons c s ih =>
    intro n hn
    obtain ⟨hlt, hchar⟩ := digitChar_of_isDigit (hs c (by simp))
    rw [ofDigitChars_cons, ← ih (fun x hx => hs x (by simp [hx]))
      (by omega), ← toDigits_append_toDigits (by decide) hn hlt,
      toDigits_of_lt_base hlt, hchar, append_assoc,
      singleton_append]

-- ======== doubled separators

variable {α : Type _} {x : α} {a b c d : List α}

/-- The text `a ++ [x, x] ++ b` can also be cut at a later separator,
into `c` and `d`: the separator slides by one place, or a second copy of
it stands inside `b`. -/
def Recut (x : α) (a b c d : List α) : Prop :=
  (c = a ++ [x] ∧ b = x :: d)
    ∨ ∃ p, c = a ++ x :: x :: p ∧ b = p ++ x :: x :: d

theorem Recut.append_eq (h : Recut x a b c d) :
    a ++ x :: x :: b = c ++ x :: x :: d := by
  rcases h with ⟨rfl, rfl⟩ | ⟨p, rfl, rfl⟩ <;> simp

theorem Recut.left_ne (h : Recut x a b c d) : a ≠ c := by
  intro heq
  have hlen := congrArg length heq
  rcases h with ⟨rfl, -⟩ | ⟨p, rfl, -⟩ <;> simp at hlen

/-- With `c` the longer left part, the two cuts agree or `c`, `d` is a
later cut. -/
theorem recut_of_prefix {e : List α} (hc : c = a ++ e) (h : x :: x :: b = e ++ x :: x :: d) :
    (a = c ∧ b = d) ∨ Recut x a b c d := by
  match e with
  | [] =>
    refine .inl ⟨by simp [hc], ?_⟩
    exact (cons.inj (cons.inj h).2).2
  | [y] =>
    obtain ⟨rfl, htail⟩ := cons.inj h
    exact .inr (.inl ⟨hc, (cons.inj htail).2⟩)
  | y :: z :: p =>
    obtain ⟨rfl, htail⟩ := cons.inj h
    obtain ⟨rfl, hb⟩ := cons.inj htail
    exact .inr (.inr ⟨p, hc, hb⟩)

/-- A text with a doubled separator determines its two parts up to
recutting. -/
theorem twinSep_append_eq_iff :
    a ++ x :: x :: b = c ++ x :: x :: d
      ↔ (a = c ∧ b = d) ∨ Recut x a b c d ∨ Recut x c d a b := by
  constructor
  · intro h
    rcases append_eq_append_iff.mp h with ⟨e, hc, he⟩ | ⟨e, ha, he⟩
    · rcases recut_of_prefix hc he with heq | hcut
      · exact .inl heq
      · exact .inr (.inl hcut)
    · rcases recut_of_prefix ha he with ⟨hac, hbd⟩ | hcut
      · exact .inl ⟨hac.symm, hbd.symm⟩
      · exact .inr (.inr hcut)
  · intro h
    rcases h with ⟨rfl, rfl⟩ | hcut | hcut
    · rfl
    · exact hcut.append_eq
    · exact hcut.append_eq.symm

end Decimal

namespace FixedPoint

variable {m n : Int} {s k : Nat}

/-- The number that an integer stands for. -/
def value (n : Int) (scale : Nat) : ℚ :=
  n / 10 ^ scale

theorem value_le_value : value m s ≤ value n s ↔ m ≤ n := by
  have hpos : (0 : ℚ) < 10 ^ s := by positivity
  rw [value, value, div_le_div_iff_of_pos_right hpos, Int.cast_le]

theorem value_mul_pow (n : Int) (s k : Nat) : value (n * 10 ^ k) (s + k) = value n s := by
  rw [value, value, Int.cast_mul, Int.cast_pow, Int.cast_ofNat, pow_add]
  field_simp

/-- Numbers of two scales compare like their integers at the larger scale. -/
theorem value_le_value_of_add {t j : Nat} (h : s + k = t + j) :
    value m s ≤ value n t ↔ m * 10 ^ k ≤ n * 10 ^ j := by
  rw [← value_mul_pow m s k, ← value_mul_pow n t j, h, value_le_value]

end FixedPoint
