/-
When a decimal literal is parsed exactly.

# Plan

The text of a literal is taken apart (`splitAtDot_text`, `stoll_signed`), so
that parsing it is arithmetic on its digits (`addDecimal_text`). The rest is
arithmetic: a number that is brought to a larger scale is multiplied, one that
is brought to a smaller one loses its digits one by one, and that is to round
it once unless a digit is rounded up twice.
-/
import Compass.Import.ParseNumeric

namespace Compass.Import

open List Option Nat Function Except

open Analyzer (convertDecimalValueToScale roundTenth)
open Decimal Rounding

-- ======== texts

variable {digits : List Char}

/-- `std::stoll` of a sign and digits. -/
theorem stoll_signed (hne : digits ≠ []) (hdigits : AllDigits digits) (sign : Option Bool) :
    stoll (signText sign ++ digits) = stollDigits (sign = some true) digits := by
  cases sign with
  | some neg =>
    cases neg <;> rfl
  | none =>
    cases digits with
    | nil => exact absurd rfl hne
    | cons c s =>
      obtain ⟨hblank, hminus, hplus⟩ := digit_not_lead (hdigits c (by simp))
      rw [signText, nil_append, stoll, dropWhile_cons_of_neg (by simp [hblank])]
      split
      · next heq => exact absurd (cons.inj heq).1 hminus
      · next heq => exact absurd (cons.inj heq).1 hplus
      · rfl

theorem stollDigits_of_digits (hne : digits ≠ []) (hdigits : AllDigits digits) (neg : Bool) :
    stollDigits neg digits =
      let v : Int := if neg then -Nat.ofDigitChars 10 digits 0 else Nat.ofDigitChars 10 digits 0
      if v < -2 ^ 63 ∨ 2 ^ 63 ≤ v then .error .outOfRange else .ok v := by
  have htake : digits.takeWhile Char.isDigit = digits := takeWhile_eq_self_iff.2 hdigits
  simp only [stollDigits, htake, if_neg hne]

theorem ofDigitChars_lt (hdigits : AllDigits digits) :
    Nat.ofDigitChars 10 digits 0 < 10 ^ digits.length := by
  induction digits using reverseRecOn with
  | nil => simp
  | append_singleton digits c ih =>
    have hc := hdigits c (by simp)
    have hprefix := ih fun d hd => hdigits d (by simp [hd])
    have hvalue : c.toNat - '0'.toNat < 10 := by
      simp only [Char.isDigit, Bool.and_eq_true, decide_eq_true_eq] at hc
      have hle : c.toNat ≤ 57 := hc.2
      have hzero : '0'.toNat = 48 := rfl
      omega
    rw [ofDigitChars_append, ofDigitChars_cons, ofDigitChars_nil,
      length_append, length_singleton, pow_succ]
    omega

-- ======== 64 bits

section

variable {ε ε' α β : Type}

theorem ok_bind (a : α) (f : α → Except ε β) : (ok a >>= f) = f a := rfl

theorem error_bind (e : ε) (f : α → Except ε β) : (error e >>= f) = .error e := rfl

theorem mapError_ok (g : ε → ε') (a : α) :
    (ok a : Except ε α).mapError g = .ok a := rfl

end

theorem inInt64_natCast (n : Nat) :
    inInt64 n = if n < 2 ^ 63 then .ok (n : Int) else .error .overflow := by
  unfold inInt64
  by_cases h : n < 2 ^ 63
  · rw [if_pos h, if_pos (by omega)]
  · rw [if_neg h, if_neg (by omega)]

theorem combine_natCast (result fraction scale : Nat) :
    combine result fraction scale =
      if result * 10 ^ scale + fraction < 2 ^ 63 then
        .ok ((result * 10 ^ scale + fraction : Nat) : Int)
      else .error .overflow := by
  unfold combine
  rw [show (result : Int) * 10 ^ scale = ((result * 10 ^ scale : Nat) : Int) by push_cast; rfl,
    inInt64_natCast]
  by_cases h : result * 10 ^ scale < 2 ^ 63
  · simp only [if_pos h, bind, Except.bind]
    rw [if_neg (by omega), ← cast_add, inInt64_natCast]
  · simp only [if_neg h, bind, Except.bind]
    rw [if_neg (by omega)]

-- ======== literals

namespace Literal

variable (lit : Literal)

theorem dot_not_mem {digits : List Char} (hdigits : AllDigits digits) : '.' ∉ digits := by
  intro h
  have hdot := hdigits _ h
  revert hdot
  decide

theorem dot_not_mem_front : '.' ∉ signText lit.sign ++ lit.integral := by
  rw [mem_append, not_or]
  refine ⟨?_, dot_not_mem lit.integral_digits⟩
  unfold signText
  split <;> simp

theorem front_ne_nil : signText lit.sign ++ lit.integral ≠ [] := by
  simp [lit.integral_ne]

theorem splitAtDot_text : splitAtDot lit.text =
    (signText lit.sign ++ lit.integral, lit.fraction.getD ['0']) := by
  have htake : (signText lit.sign ++ lit.integral).takeWhile (· ≠ '.')
      = signText lit.sign ++ lit.integral := by
    refine takeWhile_eq_self_iff.2 fun c hc => ?_
    simp only [decide_eq_true_eq]
    rintro rfl
    exact lit.dot_not_mem_front hc
  unfold splitAtDot text
  cases lit.fraction with
  | none => simp only [append_nil, htake, drop_length, getD_none]
  | some digits =>
    have htake' : (signText lit.sign ++ lit.integral ++ '.' :: digits).takeWhile (· ≠ '.')
        = signText lit.sign ++ lit.integral := by
      rw [takeWhile_append_of_pos (takeWhile_eq_self_iff.1 htake)]
      simp
    simp only [htake', drop_left, if_neg lit.front_ne_nil, getD_some]

theorem minus_mem_front : '-' ∈ signText lit.sign ++ lit.integral ↔ lit.negative = true := by
  have hdigits : '-' ∉ lit.integral := by
    intro h
    have hminus := lit.integral_digits _ h
    revert hminus
    decide
  rw [mem_append, or_iff_left hdigits, negative]
  cases lit.sign with
  | none => simp [signText]
  | some neg => cases neg <;> simp [signText]

/-- What is behind the point is short enough for `std::stoll`. -/
theorem parseFraction_decimals :
    parseFraction (lit.fraction.getD ['0']) = .ok (Nat.ofDigitChars 10 lit.decimals 0 : Int) := by
  unfold decimals
  have hlength := lit.length_le
  have hdigits := lit.fraction_digits
  have hintegral := length_pos_iff.2 lit.integral_ne
  cases hfraction : lit.fraction with
  | none => rfl
  | some digits =>
    by_cases hnil : digits = []
    · subst hnil
      rfl
    have hall := hdigits digits hfraction
    have hsmall := ofDigitChars_lt hall
    rw [hfraction, elim_some] at hlength
    have hle : 10 ^ digits.length ≤ 10 ^ 18 := Nat.pow_le_pow_right (by norm_num) (by omega)
    have hstoll := stoll_signed hnil hall none
    rw [signText, nil_append, stollDigits_of_digits hnil hall] at hstoll
    rw [getD_some, parseFraction, if_neg hnil, hstoll]
    rw [if_neg (by omega)]
    rfl

theorem codeScale_eq : ((lit.fraction.getD ['0']).length : Int) = lit.parsedScale := by
  unfold parsedScale
  cases lit.fraction <;> rfl

/-- The type that a literal is parsed as. -/
def parsedType : Analyzer.SQLTypeInfo :=
  { numericInfo with
    scale := lit.parsedScale
    dimension := ((signText lit.sign ++ lit.integral).length : Int) + lit.parsedScale }

def signed (n : Int) : Int :=
  if lit.negative then -n else n

theorem stoll_front : stoll (signText lit.sign ++ lit.integral) =
    if lit.BeyondInt64 then .error .outOfRange
    else .ok (lit.signed (Nat.ofDigitChars 10 lit.integral 0)) := by
  have hstoll := stoll_signed lit.integral_ne lit.integral_digits lit.sign
  rw [hstoll, stollDigits_of_digits lit.integral_ne lit.integral_digits]
  unfold BeyondInt64 signed negative
  by_cases hneg : lit.sign = some true
  · simp only [hneg, decide_true, if_true]
    split_ifs <;> first | rfl | omega
  · simp only [hneg, decide_false, Bool.false_eq_true, if_false]
    split_ifs <;> first | rfl | omega

/-- The literal's digits in one integer, unless there are too many of them. -/
theorem parseNumeric_text : parseNumeric lit.text numericInfo =
    if lit.BeyondInt64 then .error (.stoll .outOfRange)
    else if lit.magnitude < 2 ^ 63 then .ok (lit.signed lit.magnitude, lit.parsedType)
    else .error .overflow := by
  have hfix : fixScale lit.text (signText lit.sign ++ lit.integral) (lit.fraction.getD ['0'])
      numericInfo (Nat.ofDigitChars 10 lit.decimals 0 : Int)
        = .ok (lit.parsedType, (Nat.ofDigitChars 10 lit.decimals 0 : Int)) := by
    rw [fixScale, if_pos (show numericInfo.dimension = 0 from rfl), parsedType, lit.codeScale_eq]
    rfl
  have habs : |lit.signed (Nat.ofDigitChars 10 lit.integral 0)|
      = (Nat.ofDigitChars 10 lit.integral 0 : Int) := by
    unfold signed
    split <;> simp
  have hscale : lit.parsedType.scale.toNat = lit.parsedScale := by
    simp [parsedType]
  have hmagnitude : Nat.ofDigitChars 10 lit.integral 0 * 10 ^ lit.parsedScale
      + Nat.ofDigitChars 10 lit.decimals 0 = lit.magnitude := by rw [magnitude]
  have hle : Nat.ofDigitChars 10 lit.integral 0 ≤ lit.magnitude := by
    exact le_trans (Nat.le_mul_of_pos_right _ (by positivity)) (Nat.le_add_right _ _)
  have hcombine := combine_natCast (Nat.ofDigitChars 10 lit.integral 0)
    (Nat.ofDigitChars 10 lit.decimals 0) lit.parsedScale
  have hintegral := inInt64_natCast (Nat.ofDigitChars 10 lit.integral 0)
  rw [hmagnitude] at hcombine
  simp only [parseNumeric, lit.splitAtDot_text, lit.stoll_front, lit.minus_mem_front]
  by_cases hbeyond : lit.BeyondInt64
  · rw [if_pos hbeyond, if_pos hbeyond]
    rfl
  rw [if_neg hbeyond, if_neg hbeyond, mapError_ok, ok_bind, habs]
  by_cases hfits : lit.magnitude < 2 ^ 63
  · rw [if_pos hfits] at hcombine ⊢
    rw [if_pos (lt_of_le_of_lt hle hfits)] at hintegral
    rw [hintegral, ok_bind, lit.parseFraction_decimals, ok_bind, hfix, ok_bind]
    rw [hscale, hcombine, ok_bind, signed]
    cases lit.negative
    · rw [if_neg (by decide), if_neg (by decide), mul_one]
      rfl
    · rw [if_pos rfl, if_pos rfl, mul_neg_one]
      rfl
  · rw [if_neg hfits] at hcombine ⊢
    by_cases hlt : Nat.ofDigitChars 10 lit.integral 0 < 2 ^ 63
    · rw [if_pos hlt] at hintegral
      rw [hintegral, ok_bind, lit.parseFraction_decimals, ok_bind, hfix, ok_bind]
      rw [hscale, hcombine, error_bind]
    · rw [if_neg hlt] at hintegral
      rw [hintegral, error_bind]

-- ======== scaling

@[simp] theorem signed_of_not_negative (h : lit.negative = false) (n : Int) :
    lit.signed n = n := by
  simp [signed, h]

@[simp] theorem signed_of_negative (h : lit.negative = true) (n : Int) :
    lit.signed n = -n := by
  simp [signed, h]

/-- The code rounds a negative number as its absolute value. -/
theorem roundTenth_signed (n : Nat) : roundTenth (lit.signed n) = lit.signed (tenth n : Nat) := by
  have hpos : ∀ m : Nat, ((m : Int) + 5).tdiv 10 = (tenth m : Nat) := by
    intro m
    rw [Int.tdiv_eq_ediv_of_nonneg (by omega), tenth]
    omega
  unfold roundTenth
  cases hneg : lit.negative
  · rw [lit.signed_of_not_negative hneg, lit.signed_of_not_negative hneg]
    split
    · exact hpos n
    · next hzero =>
        obtain rfl : n = 0 := by omega
        rfl
  · rw [lit.signed_of_negative hneg, lit.signed_of_negative hneg, if_neg (by omega),
      show -(n : Int) - 5 = -(n + 5) by ring, Int.neg_tdiv, hpos]

theorem iterate_roundTenth_signed (n k : Nat) :
    roundTenth^[k] (lit.signed n) = lit.signed (tenth^[k] n : Nat) := by
  induction k generalizing n with
  | zero => rfl
  | succ k ih =>
    rw [iterate_succ_apply, lit.roundTenth_signed, ih, iterate_succ_apply]

theorem iterate_tenth_le (n k : Nat) : tenth^[k] n ≤ n := by
  induction k generalizing n with
  | zero => exact le_rfl
  | succ k ih =>
    refine le_trans (ih _) ?_
    unfold tenth
    omega

variable {scale : Nat}

/-- Two to the 63rd is no multiple of ten, so the bound is the same for both
signs. -/
theorem convertDecimal_up (n precision : Nat) (h : lit.parsedScale < scale) :
    convertDecimal (lit.signed n) lit.parsedType (decimalType precision scale) =
      if n * 10 ^ (scale - lit.parsedScale) < 2 ^ 63 then
        .ok (lit.signed (n * 10 ^ (scale - lit.parsedScale) : Nat))
      else .error .overflow := by
  have hdiff : ((scale : Int) - lit.parsedScale).toNat = scale - lit.parsedScale := by omega
  have hconvert : convertDecimalValueToScale (lit.signed n) lit.parsedType
      (decimalType precision scale)
        = lit.signed (n * 10 ^ (scale - lit.parsedScale) : Nat) := by
    unfold convertDecimalValueToScale
    rw [if_pos (by simp [decimalType, parsedType, h])]
    simp only [decimalType, parsedType, hdiff]
    cases hneg : lit.negative
    · rw [lit.signed_of_not_negative hneg, lit.signed_of_not_negative hneg]
      push_cast
      rfl
    · rw [lit.signed_of_negative hneg, lit.signed_of_negative hneg]
      push_cast
      ring
  have hmul : lit.signed n * 10 ^ (scale - lit.parsedScale)
      = lit.signed (n * 10 ^ (scale - lit.parsedScale) : Nat) := by
    cases hneg : lit.negative
    · rw [lit.signed_of_not_negative hneg, lit.signed_of_not_negative hneg]
      push_cast
      rfl
    · rw [lit.signed_of_negative hneg, lit.signed_of_negative hneg]
      push_cast
      ring
  have hten : 10 ∣ n * 10 ^ (scale - lit.parsedScale) :=
    Dvd.dvd.mul_left (dvd_pow_self 10 (by omega)) n
  unfold convertDecimal
  rw [if_pos (by simp [decimalType, parsedType, h]), hconvert]
  simp only [decimalType, parsedType, hdiff]
  rw [hmul]
  generalize n * 10 ^ (scale - lit.parsedScale) = m at *
  have hbound : inInt64 (lit.signed m) =
      if m < 2 ^ 63 then .ok (lit.signed m) else .error .overflow := by
    cases hneg : lit.negative
    · rw [lit.signed_of_not_negative hneg, inInt64_natCast]
    · rw [lit.signed_of_negative hneg, inInt64]
      by_cases hm : m < 2 ^ 63
      · rw [if_pos hm, if_pos (by omega)]
      · rw [if_neg hm, if_neg (by omega)]
  rw [hbound]
  by_cases hm : m < 2 ^ 63
  · rw [if_pos hm]
    rfl
  · rw [if_neg hm]
    rfl

theorem convertDecimal_down {n : Nat} (hn : n < 2 ^ 63) (precision : Nat)
    (h : scale < lit.parsedScale) :
    convertDecimal (lit.signed n) lit.parsedType (decimalType precision scale) =
      if n + 5 < 2 ^ 63 + (if lit.negative then 1 else 0) then
        .ok (lit.signed (tenth^[lit.parsedScale - scale] n : Nat))
      else .error .overflow := by
  have hdiff : ((lit.parsedScale : Int) - scale).toNat = lit.parsedScale - scale := by omega
  have hconvert : convertDecimalValueToScale (lit.signed n) lit.parsedType
      (decimalType precision scale)
        = lit.signed (tenth^[lit.parsedScale - scale] n : Nat) := by
    unfold convertDecimalValueToScale
    rw [if_neg (by simp [decimalType, parsedType]; omega)]
    simp only [decimalType, parsedType, hdiff]
    exact lit.iterate_roundTenth_signed n _
  have hfive : (-2 ^ 63 ≤ (if lit.signed n > 0 then lit.signed n + 5 else lit.signed n - 5)
      ∧ (if lit.signed n > 0 then lit.signed n + 5 else lit.signed n - 5) < 2 ^ 63)
        ↔ n + 5 < 2 ^ 63 + (if lit.negative then 1 else 0) := by
    unfold signed
    split_ifs <;> omega
  unfold convertDecimal
  rw [if_neg (by simp [decimalType, parsedType]; omega),
    if_pos (by simp [decimalType, parsedType, h]), hconvert, inInt64]
  by_cases hfits : n + 5 < 2 ^ 63 + (if lit.negative then 1 else 0)
  · rw [if_pos hfits, if_pos (hfive.2 hfits)]
    rfl
  · rw [if_neg hfits, if_neg fun hp => hfits (hfive.1 hp)]
    rfl

theorem convertDecimal_same (n precision : Nat) :
    convertDecimal (lit.signed n) lit.parsedType (decimalType precision lit.parsedScale) =
      .ok (lit.signed n) := by
  have hconvert : convertDecimalValueToScale (lit.signed n) lit.parsedType
      (decimalType precision lit.parsedScale) = lit.signed n := by
    simp [convertDecimalValueToScale, decimalType, parsedType]
  unfold convertDecimal
  rw [if_neg (by simp [decimalType, parsedType]), if_neg (by simp [decimalType, parsedType]),
    hconvert]
  rfl

-- ======== the value

/-- The digits that are parsed are those of the literal. -/
theorem value_eq : lit.value =
    (if lit.negative then -1 else 1) * ((lit.magnitude : ℚ) / (10 ^ lit.parsedScale : Nat)) := by
  have hdigits : (ofDigitChars 10 (lit.integral ++ lit.decimals) 0 : ℚ)
      / 10 ^ lit.decimals.length = (lit.magnitude : ℚ) / (10 ^ lit.parsedScale : Nat) := by
    rw [ofDigitChars_append, magnitude, ofDigitChars_eq_ofDigitChars_zero]
    unfold decimals parsedScale
    cases lit.fraction with
    | none => simp
    | some digits =>
      rw [getD_some]
      push_cast
      ring
  rw [value, mul_div_assoc, hdigits]

/-- The literal without its sign. -/
def absolute : ℚ :=
  (lit.magnitude : ℚ) / (10 ^ lit.parsedScale : Nat)

theorem absolute_nonneg : 0 ≤ lit.absolute := by
  unfold absolute
  positivity

theorem atScale_value (scale : Nat) :
    atScale lit.value scale = lit.signed (atScale lit.absolute scale) := by
  unfold atScale
  rw [lit.value_eq, ← absolute]
  cases hneg : lit.negative
  · rw [lit.signed_of_not_negative hneg, if_neg Bool.false_ne_true, one_mul]
  · rw [lit.signed_of_negative hneg, if_pos rfl, neg_one_mul, neg_mul, nearest_neg]

theorem atScale_up (h : lit.parsedScale ≤ scale) :
    atScale lit.absolute scale = (lit.magnitude * 10 ^ (scale - lit.parsedScale) : Nat) := by
  have hpow : (10 : ℚ) ^ scale = 10 ^ lit.parsedScale * 10 ^ (scale - lit.parsedScale) := by
    rw [← pow_add, Nat.add_sub_cancel' h]
  have hvalue : lit.absolute * 10 ^ scale
      = ((lit.magnitude * 10 ^ (scale - lit.parsedScale) : Nat) : Int) := by
    rw [absolute, hpow]
    push_cast
    field_simp
  rw [atScale, hvalue, nearest_intCast]

theorem atScale_down (h : scale ≤ lit.parsedScale) : atScale lit.absolute scale
      = nearest ((lit.magnitude : ℚ) / (10 ^ (lit.parsedScale - scale) : Nat)) := by
  have hpow : (10 : ℚ) ^ lit.parsedScale = 10 ^ (lit.parsedScale - scale) * 10 ^ scale := by
    rw [← pow_add, Nat.sub_add_cancel h]
  rw [atScale, absolute]
  push_cast
  rw [hpow]
  congr 1
  field_simp

/-- A number that `std::stoll` does not take is out of range at every scale. -/
theorem not_fits_of_beyond (h : lit.BeyondInt64) (precision scale : Nat) :
    ¬ FitsPrecision precision (atScale lit.value scale) := by
  have hscaled : ((ofDigitChars 10 lit.integral 0 : Nat) : Int)
      ≤ |lit.absolute * 10 ^ scale| := by
    have hpos : (0 : ℚ) < (10 ^ lit.parsedScale : Nat) := by positivity
    have hone : (1 : ℚ) ≤ 10 ^ scale := one_le_pow₀ (by norm_num)
    have hint : (ofDigitChars 10 lit.integral 0 : ℚ) ≤ lit.absolute := by
      rw [absolute, le_div_iff₀ hpos, magnitude]
      push_cast
      exact le_add_of_nonneg_right (by positivity)
    rw [abs_of_nonneg (mul_nonneg lit.absolute_nonneg (by positivity)), Int.cast_natCast]
    exact le_trans hint (le_mul_of_one_le_right lit.absolute_nonneg hone)
  have hnonneg : 0 ≤ atScale lit.absolute scale := by
    rw [atScale, nearest, if_pos (mul_nonneg lit.absolute_nonneg (by positivity))]
    exact Int.floor_nonneg.2
      (add_nonneg (mul_nonneg lit.absolute_nonneg (by positivity)) (by norm_num))
  have hle := nearest_abs_le hscaled
  rw [← atScale, abs_of_nonneg hnonneg] at hle
  rintro ⟨hlow, hhigh, -⟩
  rw [lit.atScale_value] at hlow hhigh
  unfold BeyondInt64 at h
  cases hneg : lit.negative
  · rw [hneg, if_neg Bool.false_ne_true] at h
    rw [lit.signed_of_not_negative hneg] at hhigh
    omega
  · rw [hneg, if_pos rfl] at h
    rw [lit.signed_of_negative hneg] at hlow
    omega

theorem signed_inj {m n : Int} : lit.signed m = lit.signed n ↔ m = n := by
  unfold signed
  split
  · exact neg_inj
  · exact Iff.rfl

theorem fits_signed {n : Nat} (h : n < 2 ^ 63) (precision : Nat) :
    FitsPrecision precision (lit.signed n) ↔ |lit.signed n| < 10 ^ precision := by
  have hrange : -2 ^ 63 ≤ lit.signed n ∧ lit.signed n < 2 ^ 63 := by
    unfold signed
    split <;> omega
  rw [FitsPrecision, and_iff_right hrange.1, and_iff_right hrange.2]

-- ======== exact or not

theorem addDecimal_text (precision scale : Nat) (hin : ¬ lit.BeyondInt64)
    (hfits : lit.magnitude < 2 ^ 63) :
    addDecimal lit.text (decimalType precision scale) =
      convertDecimal (lit.signed lit.magnitude) lit.parsedType (decimalType precision scale) := by
  rw [addDecimal, lit.parseNumeric_text, if_neg hin, if_pos hfits]
  rfl

theorem parsesExactly_iff (precision scale : Nat) :
    ParsesExactly lit.text lit.value precision scale ↔ lit.Safe precision scale := by
  unfold ParsesExactly Safe
  by_cases hbeyond : lit.BeyondInt64
  · rw [addDecimal, lit.parseNumeric_text, if_pos hbeyond, error_bind]
    exact iff_of_true (lit.not_fits_of_beyond hbeyond precision scale) (.inl hbeyond)
  rw [or_iff_right hbeyond]
  by_cases hfits : lit.magnitude < 2 ^ 63
  swap
  · rw [addDecimal, lit.parseNumeric_text, if_neg hbeyond, if_neg hfits, error_bind]
    exact iff_of_false id fun h => hfits h.1
  rw [lit.addDecimal_text precision scale hbeyond hfits, and_iff_right hfits,
    lit.atScale_value scale]
  rcases lt_trichotomy lit.parsedScale scale with h | rfl | h
  · rw [lit.convertDecimal_up _ precision h, lit.atScale_up h.le]
    by_cases hup : lit.magnitude * 10 ^ (scale - lit.parsedScale) < 2 ^ 63
    · rw [if_pos hup]
      simp only [true_and]
      rw [lit.fits_signed hup]
      exact ⟨fun hp => ⟨fun _ => hup, fun hlt => absurd hlt (by omega), hp⟩, fun hp => hp.2.2⟩
    · rw [if_neg hup]
      exact iff_of_false id fun hp => hup (hp.1 h)
  · rw [lit.convertDecimal_same, lit.atScale_up le_rfl, Nat.sub_self, pow_zero, mul_one]
    simp only [true_and]
    rw [lit.fits_signed hfits]
    exact ⟨fun hp => ⟨fun hlt => absurd hlt (lt_irrefl _), fun hlt => absurd hlt (lt_irrefl _), hp⟩,
      fun hp => hp.2.2⟩
  · rw [lit.convertDecimal_down hfits precision h, lit.atScale_down h.le]
    by_cases hfive : lit.magnitude + 5 < 2 ^ 63 + (if lit.negative then 1 else 0)
    · rw [if_pos hfive]
      simp only
      rw [lit.signed_inj, iterate_tenth_eq_nearest_iff,
        lit.fits_signed (lt_of_le_of_lt (iterate_tenth_le _ _) hfits)]
      constructor
      · rintro ⟨honce, hp⟩
        rw [(iterate_tenth_eq_nearest_iff _ _).2 honce] at hp
        exact ⟨fun hlt => absurd hlt (by omega), fun _ => ⟨hfive, honce⟩, hp⟩
      · rintro ⟨-, hdown, hp⟩
        have honce := (hdown h).2
        refine ⟨honce, ?_⟩
        rwa [(iterate_tenth_eq_nearest_iff _ _).2 honce]
    · rw [if_neg hfive]
      exact iff_of_false id fun hp => hfive (hp.2.1 h).1

end Literal

/-- Two texts of one number, both parsed exactly, give one result. -/
theorem ParsesExactly.agree {text text' : List Char} {q : ℚ} {precision scale : Nat}
    (h : ParsesExactly text q precision scale) (h' : ParsesExactly text' q precision scale) :
    (addDecimal text (decimalType precision scale)).toOption
      = (addDecimal text' (decimalType precision scale)).toOption := by
  have hresult : ∀ s, ParsesExactly s q precision scale →
      (addDecimal s (decimalType precision scale)).toOption =
        if FitsPrecision precision (atScale q scale) then some (atScale q scale) else none := by
    intro s hs
    unfold ParsesExactly at hs
    cases hs' : addDecimal s (decimalType precision scale) with
    | ok n =>
      rw [hs'] at hs
      obtain ⟨rfl, hfits⟩ := hs
      rw [if_pos hfits]
      rfl
    | error e =>
      rw [hs'] at hs
      cases e with
      | overflow => exact hs.elim
      | stoll error | runtimeError message =>
        rw [if_neg hs]
        rfl
  rw [hresult text h, hresult text' h']

/-- A literal is parsed exactly if and only if it is safe, and then zeros
behind its fraction change nothing. -/
theorem addDecimal_exact_iff (lit : Literal) (precision scale : Nat) :
    (ParsesExactly lit.text lit.value precision scale ↔ lit.Safe precision scale)
      ∧ ∀ padded : Literal, padded.value = lit.value →
        lit.Safe precision scale → padded.Safe precision scale →
          (addDecimal padded.text (decimalType precision scale)).toOption
            = (addDecimal lit.text (decimalType precision scale)).toOption := by
  refine ⟨lit.parsesExactly_iff precision scale, fun padded hvalue hsafe hpadded => ?_⟩
  have hexact := (lit.parsesExactly_iff precision scale).2 hsafe
  have hother := (padded.parsesExactly_iff precision scale).2 hpadded
  rw [hvalue] at hother
  exact hother.agree hexact

theorem value_fortyFive : Literal.fortyFive.value = 9 / 20 := by
  have hneg : Literal.fortyFive.negative = false := by decide
  have hmagnitude : Literal.fortyFive.magnitude = 45 := by decide
  have hparsed : Literal.fortyFive.parsedScale = 2 := rfl
  rw [Literal.value_eq, hneg, hmagnitude, hparsed]
  norm_num

theorem value_fortyFiveZero : Literal.fortyFiveZero.value = 9 / 20 := by
  have hneg : Literal.fortyFiveZero.negative = false := by decide
  have hmagnitude : Literal.fortyFiveZero.magnitude = 450 := by decide
  have hparsed : Literal.fortyFiveZero.parsedScale = 3 := rfl
  rw [Literal.value_eq, hneg, hmagnitude, hparsed]
  norm_num

/-- `0.450` and `0.45`, with one decimal. -/
theorem addDecimal_exact_iff_padded :
    (addDecimal Literal.fortyFiveZero.text (decimalType 3 1)).toOption
      = (addDecimal Literal.fortyFive.text (decimalType 3 1)).toOption := by
  have hscale : atScale (9 / 20) 1 = 5 := by norm_num [atScale, Rounding.nearest]
  refine (addDecimal_exact_iff Literal.fortyFive 3 1).2 Literal.fortyFiveZero
    (value_fortyFiveZero.trans value_fortyFive.symm) (.inr ⟨by decide, by decide, ?_, ?_⟩)
    (.inr ⟨by decide, by decide, ?_, ?_⟩)
  · exact fun _ => ⟨by decide, by unfold Rounding.RoundsTwice; decide⟩
  · rw [value_fortyFive, hscale]
    decide
  · exact fun _ => ⟨by decide, by unfold Rounding.RoundsTwice; decide⟩
  · rw [value_fortyFiveZero, hscale]
    decide

/-- `0.45` without decimals is rounded to `0.5` and then to 1. -/
theorem addDecimal_rounds_twice :
    addDecimal Literal.fortyFive.text (decimalType 3 0) = .ok 1
      ∧ atScale Literal.fortyFive.value 0 = 0
      ∧ ¬ ParsesExactly Literal.fortyFive.text Literal.fortyFive.value 3 0 := by
  have hadd : addDecimal Literal.fortyFive.text (decimalType 3 0) = .ok 1 := by decide
  have hscale : atScale Literal.fortyFive.value 0 = 0 := by
    rw [value_fortyFive]
    norm_num [atScale, nearest]
  refine ⟨hadd, hscale, ?_⟩
  unfold ParsesExactly
  rw [hadd, hscale]
  exact fun h => absurd h.1 one_ne_zero

end Compass.Import
