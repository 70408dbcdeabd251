/-
Numbers in the text streams of the C++ standard library.

`os << x` of a double is `%g` with the six digits of the default
precision. The doubles here are integers (`IntDouble`), so a number of at
most six digits is written as it is, and any other in the scientific
notation, rounded to six digits, the zeros at the end left out.

`is >> x` skips blanks and takes the longest text that can be a number. The
variable keeps what it had when there is none; that, and a text that does
not denote an integer, is `none` here.

What is read back of a double is the double rounded to six digits
(`extractDouble_insertDouble`), which is the double itself exactly when
six digits are enough (`rounded_eq_iff`).
-/
import Compass.Lib.Decimal
import Compass.Lib.IntDouble

namespace TextStream

open Nat
open Option
open Decimal List

-- ======== lines

/-- The lines that `std::getline` finds in a text. -/
def lines : List Char → List (List Char)
  | [] => []
  | c :: s =>
    if c = '\n' then [] :: lines s
    else
      match lines s with
      | [] => [[c]]
      | l :: ls => (c :: l) :: ls

-- ======== writing

def precision : Nat := 6

/-- `n / d` rounded to nearest, ties to even. -/
def roundHalfEven (n d : Nat) : Nat :=
  if d < 2 * (n % d) ∨ (2 * (n % d) = d ∧ n / d % 2 = 1) then n / d + 1 else n / d

def stripZeros (s : List Char) : List Char :=
  (s.reverse.dropWhile (· = '0')).reverse

/-- At least two digits. -/
def exponentText (x : Nat) : List Char :=
  if x < 10 then '0' :: Nat.toDigits 10 x else Nat.toDigits 10 x

/-- The digits `q` with the point behind the first. -/
def scientific (q x : Nat) : List Char :=
  let digits := Nat.toDigits 10 q
  let fraction := stripZeros digits.tail
  digits.take 1 ++ (if fraction = [] then [] else '.' :: fraction)
    ++ 'e' :: '+' :: exponentText x

/-- `os << x` of a double that is a natural number. -/
def insertNat (n : Nat) : List Char :=
  let k := (Nat.toDigits 10 n).length
  if k ≤ precision then Nat.toDigits 10 n
  else
    let q := roundHalfEven n (10 ^ (k - precision))
    -- `999999.5` is written as `1e+06`
    if q = 10 ^ precision then scientific (10 ^ (precision - 1)) k
    else scientific q (k - 1)

/-- `os << x` of a double that is an integer. -/
def insertDouble (v : Int) : List Char :=
  if v < 0 then '-' :: insertNat v.natAbs else insertNat v.natAbs

/-- Values, each with a blank behind it. -/
def spaced {α : Type} (insert : α → List Char) (xs : List α) : List Char :=
  xs.flatMap fun x => insert x ++ [' ']

-- ======== reading

def sign : List Char → Bool × List Char
  | '-' :: s => (true, s)
  | '+' :: s => (false, s)
  | s => (false, s)

/-- `is >> x` of an unsigned integer with the greatest value `max`. -/
def extractUnsigned (max : Nat) (s : List Char) : Option (Nat × List Char) :=
  let (neg, s) := sign (s.dropWhile isBlank)
  let (digits, s) := s.span Char.isDigit
  let n := Nat.ofDigitChars 10 digits 0
  if digits = [] ∨ max < n then none
  else some (if neg then (max + 1 - n) % (max + 1) else n, s)

def fraction : List Char → List Char × List Char
  | '.' :: s => s.span Char.isDigit
  | s => ([], s)

/-- The exponent. An `e` without digits behind it is no number. -/
def exponent : List Char → Option (Int × List Char)
  | c :: s =>
    if c = 'e' ∨ c = 'E' then
      let (neg, s) := sign s
      let (digits, s) := s.span Char.isDigit
      let x : Int := Nat.ofDigitChars 10 digits 0
      if digits = [] then none else some (if neg then -x else x, s)
    else some (0, c :: s)
  | [] => some (0, [])

/-- `m * 10 ^ x`, where that is an integer. -/
def scaled (m : Nat) (x : Int) : Option Nat :=
  if 0 ≤ x then some (m * 10 ^ x.toNat)
  else if m % 10 ^ (-x).toNat = 0 then some (m / 10 ^ (-x).toNat)
  else none

/-- `is >> x` of a double. -/
def extractDouble (s : List Char) : Option (Int × List Char) := do
  let (neg, s) := sign (s.dropWhile isBlank)
  let (whole, s) := s.span Char.isDigit
  let (frac, s) := fraction s
  if whole ++ frac = [] then none
  else
    let (x, s) ← exponent s
    let n ← scaled (Nat.ofDigitChars 10 (whole ++ frac) 0) (x - frac.length)
    some (IntDouble.ofInt (if neg then -n else n), s)

/-- A number of values, one after the other. -/
def extractMany {α : Type} (extract : List Char → Option (α × List Char)) :
    Nat → List Char → Option (List α × List Char)
  | 0, s => some ([], s)
  | n + 1, s => do
      let (x, s) ← extract s
      let (xs, s) ← extractMany extract n s
      some (x :: xs, s)

variable {s : List Char}

-- ======== lines

/-- A line that has been written is read. -/
theorem lines_append {l : List Char} (h : '\n' ∉ l) : lines (l ++ '\n' :: s) = l :: lines s := by
  induction l with
  | nil => simp [lines]
  | cons c l ih =>
    rw [mem_cons, not_or] at h
    rw [cons_append, lines, if_neg (Ne.symm h.1), ih h.2]

-- ======== digits

/-- The text goes on with no digit. -/
def Stops (s : List Char) : Prop := ∀ c ∈ s.head?, c.isDigit = false

theorem stops_nil : Stops [] := by
  simp [Stops]

theorem stops_cons {c : Char} (h : c.isDigit = false) : Stops (c :: s) := by
  simpa [Stops] using h

theorem span_digits {d : List Char} (hd : AllDigits d) (hs : Stops s) :
    (d ++ s).span Char.isDigit = (d, s) := by
  rw [span_eq_takeWhile_dropWhile]
  have hnone : s.takeWhile Char.isDigit = [] ∧ s.dropWhile Char.isDigit = s := by
    cases s with
    | nil => simp
    | cons c s =>
      have hc : c.isDigit = false := hs c rfl
      simp [hc]
  rw [takeWhile_append_of_pos hd, dropWhile_append_of_pos hd, hnone.1, hnone.2, append_nil]

/-- Blanks are skipped, and a digit is neither a blank nor a sign. -/
theorem sign_digits {d : List Char} (hne : d ≠ []) (hd : AllDigits d) :
    sign ((d ++ s).dropWhile isBlank) = (false, d ++ s) := by
  cases d with
  | nil => exact absurd rfl hne
  | cons c d =>
    obtain ⟨hblank, hminus, hplus⟩ := digit_not_lead (hd c mem_cons_self)
    rw [cons_append, dropWhile_cons_of_neg (by simp [hblank])]
    unfold sign
    split
    · next heq => exact absurd (cons.inj heq).1 hminus
    · next heq => exact absurd (cons.inj heq).1 hplus
    · rfl

theorem extractUnsigned_blank (max : Nat) (s : List Char) :
    extractUnsigned max (' ' :: s) = extractUnsigned max s := by
  unfold extractUnsigned
  rw [dropWhile_cons_of_pos (by decide)]

theorem extractDouble_blank (s : List Char) : extractDouble (' ' :: s) = extractDouble s := by
  unfold extractDouble
  rw [dropWhile_cons_of_pos (by decide)]

variable {n : Nat}

/-- An unsigned integer that has been written is read. -/
theorem extractUnsigned_toDigits {max : Nat} (hn : n ≤ max) (hs : Stops s) :
    extractUnsigned max (Nat.toDigits 10 n ++ s) = some (n, s) := by
  have hd := allDigits_toDigits n
  unfold extractUnsigned
  rw [sign_digits toDigits_ne_nil hd]
  dsimp only
  rw [span_digits hd hs]
  rw [ofDigitChars_ten_toDigits, if_neg]
  · rfl
  · rw [not_or]
    exact ⟨toDigits_ne_nil, by omega⟩

-- ======== six digits

/-- The number that is written. -/
def rounded (n : Nat) : Nat :=
  let k := (Nat.toDigits 10 n).length
  if k ≤ precision then n
  else roundHalfEven n (10 ^ (k - precision)) * 10 ^ (k - precision)

def roundedInt (v : Int) : Int :=
  if v < 0 then -(rounded v.natAbs : Int) else (rounded v.natAbs : Int)

theorem stripZeros_append (s : List Char) :
    ∃ z, s = stripZeros s ++ replicate z '0' := by
  refine ⟨(s.reverse.takeWhile (· = '0')).length, ?_⟩
  have hzeros : s.reverse.takeWhile (fun c => decide (c = '0'))
      = replicate (s.reverse.takeWhile fun c => decide (c = '0')).length '0' := by
    refine eq_replicate_of_mem fun c hc => ?_
    simpa using mem_takeWhile_imp hc
  have hsplit := takeWhile_append_dropWhile (p := fun c => decide (c = '0')) (l := s.reverse)
  rw [hzeros] at hsplit
  have hrev := congrArg reverse hsplit
  rw [reverse_append, reverse_replicate, reverse_reverse] at hrev
  exact hrev.symm

theorem exponentText_spec (x : Nat) :
    AllDigits (exponentText x) ∧ exponentText x ≠ []
      ∧ Nat.ofDigitChars 10 (exponentText x) 0 = x := by
  unfold exponentText
  split
  · refine ⟨?_, cons_ne_nil _ _, ?_⟩
    · intro c hc
      rcases mem_cons.mp hc with rfl | hc
      · decide
      · exact allDigits_toDigits x c hc
    · rw [ofDigitChars_cons]
      exact ofDigitChars_ten_toDigits
  · exact ⟨allDigits_toDigits x, toDigits_ne_nil, ofDigitChars_ten_toDigits⟩

theorem exponent_text (x : Nat) (hs : Stops s) :
    exponent ('e' :: '+' :: (exponentText x ++ s)) = some ((x : Int), s) := by
  obtain ⟨hd, hne, hvalue⟩ := exponentText_spec x
  have hsign : sign ('+' :: (exponentText x ++ s)) = (false, exponentText x ++ s) := rfl
  simp only [exponent, true_or, if_true, hsign, span_digits hd hs, if_neg hne, hvalue,
    Bool.false_eq_true, if_false]

/-- What the mantissa and the exponent of a number of six digits denote. -/
theorem scaled_stripped {q m z x : Nat} (hq : m * 10 ^ z = q) (hz : z ≤ 5) (hx : 5 ≤ x) :
    scaled m ((x : Int) - ((5 - z : Nat) : Int)) = some (q * 10 ^ (x - 5)) := by
  have hexp : (x : Int) - ((5 - z : Nat) : Int) = ((z + (x - 5) : Nat) : Int) := by omega
  unfold scaled
  rw [hexp, if_pos (Int.natCast_nonneg _), Int.toNat_natCast, ← hq, pow_add, mul_assoc]

variable {neg : Bool}

/-- The parts of a text that is a number. -/
theorem extractDouble_eq {t u v w whole frac : List Char} {x : Int}
    (hsign : sign (s.dropWhile isBlank) = (neg, t)) (hwhole : t.span Char.isDigit = (whole, u))
    (hfrac : fraction u = (frac, v)) (hne : whole ≠ []) (hexp : exponent v = some (x, w))
    (hscaled : scaled (Nat.ofDigitChars 10 (whole ++ frac) 0) (x - frac.length) = some n) :
    extractDouble s = some (IntDouble.ofInt (if neg then -(n : Int) else n), w) := by
  have hne' : ¬ whole ++ frac = [] := fun h => hne (append_eq_nil_iff.mp h).1
  simp only [extractDouble, hsign, hwhole, hfrac, if_neg hne', hexp, hscaled,
    bind_eq_bind, bind_some]

/-- The sign of a number that has been written. -/
theorem sign_text {d : List Char} (hne : d ≠ []) (hd : AllDigits d) :
    sign (((if neg then ['-'] else []) ++ (d ++ s)).dropWhile isBlank) = (neg, d ++ s) := by
  cases neg with
  | true =>
    rfl
  | false =>
    simp only [Bool.false_eq_true, if_false, nil_append]
    exact sign_digits hne hd

/-- A number in the usual notation is read. -/
theorem extractDouble_digits (n : Nat) (hs : ∀ c ∈ s.head?, c = ' ') :
    extractDouble ((if neg then ['-'] else []) ++ (Nat.toDigits 10 n ++ s))
      = some (IntDouble.ofInt (if neg then -(n : Int) else n), s) := by
  have hd := allDigits_toDigits n
  have hstops : Stops s := fun c hc => by rw [hs c hc]; decide
  have hfrac : fraction s = ([], s) := by
    cases s with
    | nil => rfl
    | cons c s =>
      obtain rfl := hs c rfl
      rfl
  have hexp : exponent s = some (0, s) := by
    cases s with
    | nil => rfl
    | cons c s =>
      obtain rfl := hs c rfl
      rfl
  refine extractDouble_eq (sign_text toDigits_ne_nil hd) (span_digits hd hstops) hfrac
    toDigits_ne_nil hexp ?_
  simp [scaled]

/-- A number of six digits in the scientific notation is read. -/
theorem extractDouble_scientific {q x : Nat} (hlo : 10 ^ 5 ≤ q) (hhi : q < 10 ^ 6) (hx : 5 ≤ x)
    (hs : Stops s) : extractDouble ((if neg then ['-'] else []) ++ (scientific q x ++ s))
      = some (IntDouble.ofInt (if neg then -((q * 10 ^ (x - 5) : Nat) : Int)
          else ((q * 10 ^ (x - 5) : Nat) : Int)), s) := by
  have hlength : (toDigits 10 q).length = 6 := by
    have h6 := (length_toDigits_le_iff (b := 10) (n := q) (k := 6) (by decide)
      (by decide)).mpr hhi
    have h5 := mt (length_toDigits_le_iff (b := 10) (n := q) (k := 5) (by decide)
      (by decide)).mp (by omega)
    omega
  obtain ⟨d, tail, hdigits⟩ := exists_cons_of_ne_nil (toDigits_ne_nil (n := q) (b := 10))
  have hall := allDigits_toDigits q
  have hvalue : ofDigitChars 10 (toDigits 10 q) 0 = q := ofDigitChars_ten_toDigits
  rw [hdigits] at hlength hall hvalue
  obtain ⟨z, hz⟩ := stripZeros_append tail
  have hsum : (stripZeros tail).length + z = 5 := by
    have hlength' := congrArg length hz
    rw [length_append, length_replicate] at hlength'
    rw [length_cons] at hlength
    omega
  have hmantissa : ofDigitChars 10 ([d] ++ stripZeros tail) 0 * 10 ^ z = q := by
    rw [hz, ← cons_append, ofDigitChars_append, ofDigitChars_replicate_zero] at hvalue
    rw [mul_comm]
    exact hvalue
  have hd : AllDigits [d] := fun c hc => hall c (by rw [mem_singleton.mp hc]; simp)
  have hstripped : AllDigits (stripZeros tail) := by
    intro c hc
    refine hall c (mem_cons_of_mem _ ?_)
    rw [hz]
    exact mem_append_left _ hc
  have hscaled := scaled_stripped hmantissa (by omega) hx
  rw [show 5 - z = (stripZeros tail).length by omega] at hscaled
  have hexp := exponent_text x hs
  by_cases hnone : stripZeros tail = []
  · have htext : scientific q x ++ s = [d] ++ ('e' :: '+' :: (exponentText x ++ s)) := by
      unfold scientific
      rw [hdigits]
      simp [hnone]
    rw [htext]
    have hfrac : fraction ('e' :: '+' :: (exponentText x ++ s))
        = ([], 'e' :: '+' :: (exponentText x ++ s)) := rfl
    rw [hnone] at hscaled
    exact extractDouble_eq (sign_text (cons_ne_nil _ _) hd)
      (span_digits hd (stops_cons (by decide))) hfrac (cons_ne_nil _ _) hexp hscaled
  · have htext : scientific q x ++ s
        = [d] ++ ('.' :: (stripZeros tail ++ ('e' :: '+' :: (exponentText x ++ s)))) := by
      unfold scientific
      rw [hdigits]
      simp [hnone]
    rw [htext]
    exact extractDouble_eq (sign_text (cons_ne_nil _ _) hd)
      (span_digits hd (stops_cons (by decide)))
      (span_digits hstripped (stops_cons (by decide))) (cons_ne_nil _ _) hexp hscaled

-- ------------------------------------------------------------ sequences

/-- Values that have been written are read one after the other. -/
theorem extractMany_spaced {α β : Type} {insert : α → List Char} {read : α → β}
    {extract : List Char → Option (β × List Char)}
    (hread : ∀ x s, extract (insert x ++ ' ' :: s) = some (read x, ' ' :: s))
    (hblank : ∀ s, extract (' ' :: s) = extract s) (xs : List α) :
    ∃ s, extractMany extract xs.length (spaced insert xs) = some (xs.map read, s) := by
  have hfrom : ∀ xs : List α, ∃ s,
      extractMany extract xs.length (' ' :: spaced insert xs) = some (xs.map read, s) := by
    intro xs
    induction xs with
    | nil => exact ⟨_, rfl⟩
    | cons x xs ih =>
      obtain ⟨s, hs⟩ := ih
      refine ⟨s, ?_⟩
      have hcons : spaced insert (x :: xs) = insert x ++ ' ' :: spaced insert xs := by
        simp [spaced]
      simp only [length_cons, extractMany, hcons, hblank, hread, hs, bind_eq_bind,
        bind_some, map_cons]
  cases xs with
  | nil => exact ⟨_, rfl⟩
  | cons x xs =>
    obtain ⟨s, hs⟩ := hfrom (x :: xs)
    refine ⟨s, ?_⟩
    rw [← hs]
    simp only [length_cons, extractMany, hblank]

-- ======== rounding

/-- A number of more than six digits, rounded to six. -/
theorem roundHalfEven_bounds {k : Nat} (hk : 6 < k) (hlo : 10 ^ (k - 1) ≤ n) (hhi : n < 10 ^ k) :
    10 ^ 5 ≤ roundHalfEven n (10 ^ (k - 6)) ∧ roundHalfEven n (10 ^ (k - 6)) ≤ 10 ^ 6 := by
  have hpos : 0 < 10 ^ (k - 6) := Nat.pow_pos (by decide)
  have hquot : 10 ^ 5 ≤ n / 10 ^ (k - 6) ∧ n / 10 ^ (k - 6) < 10 ^ 6 := by
    rw [Nat.le_div_iff_mul_le hpos, Nat.div_lt_iff_lt_mul hpos, ← Nat.pow_add, ← Nat.pow_add,
      show 5 + (k - 6) = k - 1 by omega, show 6 + (k - 6) = k by omega]
    exact ⟨hlo, hhi⟩
  unfold roundHalfEven
  split <;> omega

theorem length_bounds {k : Nat} (h : (Nat.toDigits 10 n).length = k) (hk : 1 < k) :
    10 ^ (k - 1) ≤ n ∧ n < 10 ^ k := by
  constructor
  · have hshort := mt (length_toDigits_le_iff (b := 10) (n := n) (k := k - 1) (by decide)
      (by omega)).mpr (by omega)
    omega
  · exact (length_toDigits_le_iff (by decide) (by omega)).mp h.le

/-- What is written of a double is read as the double rounded to six
digits. -/
theorem extractDouble_insertDouble (v : Int) (hs : ∀ c ∈ s.head?, c = ' ') :
    extractDouble (insertDouble v ++ s) = some (IntDouble.ofInt (roundedInt v), s) := by
  have hstops : Stops s := fun c hc => by rw [hs c hc]; decide
  have hnat : ∀ (neg : Bool) (n : Nat),
      extractDouble ((if neg then ['-'] else []) ++ (insertNat n ++ s))
        = some (IntDouble.ofInt (if neg then -(rounded n : Int) else rounded n), s) := by
    intro neg n
    by_cases hshort : (toDigits 10 n).length ≤ 6
    · simp only [insertNat, rounded, precision, hshort, if_true]
      exact extractDouble_digits n hs
    · simp only [insertNat, rounded, precision, hshort, if_false]
      obtain ⟨hlo, hhi⟩ := length_bounds rfl (show 1 < (toDigits 10 n).length by omega)
      generalize (toDigits 10 n).length = k at hshort hlo hhi ⊢
      obtain ⟨hqlo, hqhi⟩ := roundHalfEven_bounds (by omega) hlo hhi
      by_cases hfull : roundHalfEven n (10 ^ (k - 6)) = 10 ^ 6
      · have hpow : 10 ^ (6 - 1) * 10 ^ (k - 5) = 10 ^ 6 * 10 ^ (k - 6) := by
          rw [← pow_add, ← pow_add]
          congr 1
          omega
        simp only [hfull, if_true]
        rw [extractDouble_scientific (by decide) (by decide) (by omega) hstops, hpow]
      · simp only [hfull, if_false]
        rw [extractDouble_scientific hqlo (by omega) (by omega) hstops,
          show k - 1 - 5 = k - 6 by omega]
  have hv := hnat (decide (v < 0)) v.natAbs
  unfold insertDouble roundedInt
  by_cases hneg : v < 0
  · simpa [hneg] using hv
  · simpa [hneg] using hv

theorem newline_notMem_insertDouble (v : Int) : '\n' ∉ insertDouble v := by
  have hdigits : ∀ {s : List Char}, AllDigits s → '\n' ∉ s := by
    intro s hs h
    exact absurd (hs _ h) (by decide)
  have hscientific : ∀ q x, '\n' ∉ scientific q x := by
    intro q x
    have htail : '\n' ∉ stripZeros (toDigits 10 q).tail := by
      obtain ⟨z, hz⟩ := stripZeros_append (toDigits 10 q).tail
      intro h
      refine hdigits (allDigits_toDigits q) (mem_of_mem_tail ?_)
      rw [hz]
      exact mem_append_left _ h
    have hhead : '\n' ∉ (toDigits 10 q).take 1 := fun h =>
      hdigits (allDigits_toDigits q) (mem_of_mem_take h)
    unfold scientific
    simp only [mem_append, mem_cons, not_or]
    refine ⟨⟨hhead, ?_⟩, by decide, by decide, hdigits (exponentText_spec x).1⟩
    split
    · exact not_mem_nil
    · rw [mem_cons, not_or]
      exact ⟨by decide, htail⟩
  have hnat : ∀ n, '\n' ∉ insertNat n := by
    intro n
    unfold insertNat
    dsimp only
    split
    · exact hdigits (allDigits_toDigits n)
    · split <;> exact hscientific _ _
  unfold insertDouble
  split
  · rw [mem_cons, not_or]
    exact ⟨by decide, hnat _⟩
  · exact hnat _

/-- The decimal digits of a number from the first to the last that is not
zero are at most six. -/
def SixDigits (n : Nat) : Prop :=
  ∃ m x, n = m * 10 ^ x ∧ m < 10 ^ 6

/-- Rounding to six digits changes the numbers that have more. -/
theorem rounded_eq_iff (n : Nat) : rounded n = n ↔ SixDigits n := by
  unfold rounded precision
  dsimp only
  split
  · next hshort =>
      have hlt := (Nat.length_toDigits_le_iff (b := 10) (n := n) (by decide) (by decide)).mp hshort
      exact ⟨fun _ => ⟨n, 0, by simp, hlt⟩, fun _ => rfl⟩
  · next hlong =>
      obtain ⟨hlo, hhi⟩ := length_bounds rfl (show 1 < (Nat.toDigits 10 n).length by omega)
      generalize (Nat.toDigits 10 n).length = k at hlong hlo hhi ⊢
      obtain ⟨-, hqhi⟩ := roundHalfEven_bounds (by omega) hlo hhi
      constructor
      · intro h
        rcases Nat.lt_or_eq_of_le hqhi with hlt | hfull
        · exact ⟨_, _, h.symm, hlt⟩
        · refine ⟨1, 6 + (k - 6), ?_, by decide⟩
          rw [hfull, ← Nat.pow_add] at h
          rw [Nat.one_mul, h]
      · rintro ⟨m, x, rfl, hm⟩
        -- the zeros at the end are at least those that are cut off
        have hx : k - 6 ≤ x := by
          by_contra hx
          have hpow : m * 10 ^ x < 10 ^ 6 * 10 ^ x :=
            Nat.mul_lt_mul_of_pos_right hm (Nat.pow_pos (by decide))
          rw [← Nat.pow_add] at hpow
          have hle : 10 ^ (6 + x) ≤ 10 ^ (k - 1) := Nat.pow_le_pow_right (by decide) (by omega)
          omega
        obtain ⟨y, rfl⟩ := Nat.exists_eq_add_of_le hx
        have hpos : 0 < 10 ^ (k - 6) := Nat.pow_pos (by decide)
        have hsplit : m * 10 ^ (k - 6 + y) = 10 ^ (k - 6) * (m * 10 ^ y) := by
          rw [Nat.pow_add]
          ac_rfl
        have hround : roundHalfEven (m * 10 ^ (k - 6 + y)) (10 ^ (k - 6)) = m * 10 ^ y := by
          unfold roundHalfEven
          rw [hsplit, Nat.mul_mod_right, Nat.mul_div_cancel_left _ hpos, if_neg (by omega)]
        rw [hround, hsplit]
        ac_rfl

/-- A double of a magnitude below `2 ^ 53` is read back exactly when it
has six digits at most. -/
theorem roundedInt_eq_iff {v : Int} (hv : v.natAbs < 2 ^ 53) :
    IntDouble.ofInt (roundedInt v) = v ↔ SixDigits v.natAbs := by
  rw [← rounded_eq_iff]
  have hnat : IntDouble.roundNat (rounded v.natAbs) = v.natAbs
      ↔ rounded v.natAbs = v.natAbs := by
    rcases le_total (rounded v.natAbs) (2 ^ 53) with hle | hge
    · rw [IntDouble.roundNat_of_le hle]
    · have hround := IntDouble.le_roundNat hge
      omega
  unfold roundedInt
  split
  · rw [IntDouble.ofInt_neg]
    omega
  · rw [IntDouble.ofInt_natCast]
    omega

end TextStream
