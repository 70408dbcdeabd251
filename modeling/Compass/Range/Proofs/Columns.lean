/-
The operations on ranges against exact interval arithmetic.

Where an operation on two ranges gives a range, its ends are those of the
four corners (`binOp_interval`), so the exact result of two numbers of the
ranges lies in it. A corner that does not fit 64 bits makes the result
Invalid. For a quotient the divisor must keep its sign, which the product
of its ends tells as long as it does not wrap (`sign_of_product`).

The ranges of columns, cut by the qualifiers.

A qualifier that the row satisfies, and that speaks of the column, cuts
the column's range only where the value is not (`applySimpleQual_spec`).
The ends next to a constant do not wrap then: the value lies beyond the
constant and is itself an `int64_t`. So the cuts are the exact ones.
-/
import Compass.Range.ExpressionRange

namespace Compass.Range

open IntInterval Option Nat Int

-- ======== int64_t

theorem toInt_min (a b : Int64) : (min a b).toInt = min a.toInt b.toInt := by
  have h : min a b = if a ≤ b then a else b := rfl
  rw [h]
  split
  case isTrue hle =>
    rw [Int64.le_iff_toInt_le] at hle
    omega
  case isFalse hle =>
    rw [Int64.le_iff_toInt_le] at hle
    omega

theorem toInt_max (a b : Int64) : (max a b).toInt = max a.toInt b.toInt := by
  have h : max a b = if a ≤ b then b else a := rfl
  rw [h]
  split
  case isTrue hle =>
    rw [Int64.le_iff_toInt_le] at hle
    omega
  case isFalse hle =>
    rw [Int64.le_iff_toInt_le] at hle
    omega

theorem checkedInt64_eq_some {z : Int} {w : Int64} (h : checkedInt64 z = some w) :
    w.toInt = z ∧ -2 ^ 63 ≤ z ∧ z < 2 ^ 63 := by
  unfold checkedInt64 at h
  split at h
  case isTrue hfits =>
    obtain rfl := some.inj h
    exact ⟨Int64.toInt_ofInt_of_le hfits.1 hfits.2, hfits⟩
  case isFalse => cases h

-- ======== binOp

variable {f : Int → Int → Int} {a b r : IntRange}

section

variable (h : binOp f a b = some r)
include h

/-- The corners of which `binOp` takes the least and the greatest. -/
theorem binOp_eq_some : ∃ minMin minMax maxMin maxMax,
      checkedInt64 (f a.intMin.toInt b.intMin.toInt) = some minMin
      ∧ checkedInt64 (f a.intMin.toInt b.intMax.toInt) = some minMax
      ∧ checkedInt64 (f a.intMax.toInt b.intMin.toInt) = some maxMin
      ∧ checkedInt64 (f a.intMax.toInt b.intMax.toInt) = some maxMax
      ∧ r = ⟨min (min (min minMin minMax) maxMin) maxMax,
          max (max (max minMin minMax) maxMin) maxMax, a.hasNulls || b.hasNulls⟩ := by
  simp only [binOp, bind_eq_bind, bind_eq_some_iff, pure_def, some.injEq] at h
  obtain ⟨w1, h1, w2, h2, w3, h3, w4, h4, hr⟩ := h
  exact ⟨w1, w2, w3, w4, h1, h2, h3, h4, hr.symm⟩

/-- The ends of the result are the corners'. -/
theorem binOp_interval : r.interval = IntInterval.corners f a.interval b.interval
      ∧ r.hasNulls = (a.hasNulls || b.hasNulls) := by
  obtain ⟨w1, w2, w3, w4, h1, h2, h3, h4, rfl⟩ := binOp_eq_some h
  refine ⟨?_, rfl⟩
  unfold IntRange.interval corners
  simp only [toInt_min, toInt_max, (checkedInt64_eq_some h1).1, (checkedInt64_eq_some h2).1,
    (checkedInt64_eq_some h3).1, (checkedInt64_eq_some h4).1]

/-- The result is the exact one, which then fits. -/
theorem binOp_hull : cornersHull f a.interval b.interval = some r.interval := by
  have hint := (binOp_interval h).1
  unfold cornersHull
  rw [← hint]
  exact if_pos ⟨r.intMin.le_toInt, r.intMax.toInt_lt⟩

end

/-- The product of the ends, as the code computes it. -/
theorem toInt_product (b : IntRange) :
    (b.intMin * b.intMax).toInt = (b.interval.lo * b.interval.hi).bmod (2 ^ 64) := by
  rw [Int64.toInt_mul]
  rfl

/-- The test of `operator/` keeps divisors of one sign, unless the
product wraps. -/
theorem sign_of_product (hpos : ¬ b.intMin * b.intMax ≤ 0) (hsafe : ¬ ProductWraps b.interval) :
    0 < b.interval.lo * b.interval.hi := by
  rw [Int64.le_iff_toInt_le, toInt_product] at hpos
  have hzero : (0 : Int64).toInt = 0 := rfl
  unfold ProductWraps at hsafe
  omega

theorem divRange_eq_some {nullDivByZero : Bool} (h : divRange nullDivByZero a b = some r) :
    ¬ b.intMin * b.intMax ≤ 0 ∧ ∃ q, binOp tdiv a b = some q ∧ r.interval = q.interval
      ∧ (q.hasNulls = true → r.hasNulls = true) ∧ (nullDivByZero = true → r.hasNulls = true) := by
  unfold divRange at h
  split at h
  case isTrue => cases h
  case isFalse hpos =>
    obtain ⟨q, hq, rfl⟩ := map_eq_some_iff.mp h
    refine ⟨hpos, q, hq, ?_⟩
    cases nullDivByZero with
    | false => exact ⟨rfl, fun h => h, fun h => nomatch h⟩
    | true => exact ⟨rfl, fun _ => rfl, fun _ => rfl⟩

/-- Ends whose product is positive have one sign. -/
theorem same_sign {J : IntInterval} (hpos : 0 < J.lo * J.hi) : 0 < J.lo ∨ J.hi < 0 := by
  by_cases hlo : 0 < J.lo
  · exact .inl hlo
  · right
    by_contra hhi
    have := mul_nonpos_of_nonpos_of_nonneg (show J.lo ≤ 0 by omega) (show 0 ≤ J.hi by omega)
    omega

/-- Ends whose product wraps reach over zero, and neither is next to
it. -/
theorem ProductWraps.ends (h : ProductWraps b.interval)
    (hle : b.interval.lo ≤ b.interval.hi) : b.interval.lo ≤ -2 ∧ 2 ≤ b.interval.hi := by
  obtain ⟨hneg, hwrap⟩ := h
  have hlo : -2 ^ 63 ≤ b.interval.lo := b.intMin.le_toInt
  have hhi : b.interval.hi < 2 ^ 63 := b.intMax.toInt_lt
  -- a product that does not leave the type would be its own wrap
  have hfar : b.interval.lo * b.interval.hi < -2 ^ 63 := by
    by_contra hnear
    rw [bmod_eq_of_le (by omega) (by omega)] at hwrap
    omega
  generalize b.interval.lo = lo at *
  generalize b.interval.hi = hi at *
  have hlo0 : lo < 0 := by
    by_contra h0
    have := mul_nonneg (show 0 ≤ lo by omega) (show 0 ≤ hi by omega)
    omega
  have hhi0 : 0 < hi := by
    by_contra h0
    have := mul_nonneg_of_nonpos_of_nonpos (show lo ≤ 0 by omega) (show hi ≤ 0 by omega)
    omega
  constructor
  · by_contra h0
    obtain rfl : lo = -1 := by omega
    omega
  · by_contra h0
    obtain rfl : hi = 1 := by omega
    omega

/-- A quotient by a divisor of at least two halves the dividend. -/
theorem tdiv_mem_half {u c : Int} {m : Nat} (hu : u.natAbs ≤ m) (hc : c ≤ -2 ∨ 2 ≤ c) :
    u.tdiv c ∈ IntInterval.mk (-(m / 2 : Nat)) (m / 2 : Nat) := by
  rw [mem_iff]
  dsimp only
  have hc' : 2 ≤ c.natAbs := by omega
  have habs : (u.tdiv c).natAbs = u.natAbs / c.natAbs := natAbs_tdiv u c
  have hhalf : u.natAbs / c.natAbs ≤ u.natAbs / 2 := div_le_div_left hc' (by omega)
  omega

/-- Where the product wraps, the quotient's range is too small for every
dividend that is not always zero. -/
theorem divRange_unsound {nullDivByZero : Bool} (hr : divRange nullDivByZero a b = some r)
    (hwrap : ProductWraps b.interval) (hle : b.interval.lo ≤ b.interval.hi) {x : Int}
    (hx : x ∈ a.interval) (hne : x ≠ 0) :
    ∃ u ∈ a.interval, ∃ y ∈ b.interval, y ≠ 0 ∧ u.tdiv y ∉ r.interval := by
  obtain ⟨hlo, hhi⟩ := hwrap.ends hle
  obtain ⟨-, q, hq, hint, -⟩ := divRange_eq_some hr
  rw [hint, (binOp_interval hq).1]
  rw [mem_iff] at hx
  -- the end of the dividend that is furthest from zero
  obtain ⟨u, hu, hfar⟩ : ∃ u, (u = a.interval.lo ∨ u = a.interval.hi)
      ∧ a.interval.lo.natAbs ≤ u.natAbs ∧ a.interval.hi.natAbs ≤ u.natAbs := by
    by_cases h : a.interval.lo.natAbs ≤ a.interval.hi.natAbs
    · exact ⟨_, .inr rfl, h, le_refl _⟩
    · exact ⟨_, .inl rfl, le_refl _, by omega⟩
  obtain ⟨hbelow, habove⟩ := corners_bounds
    (tdiv_mem_half hfar.1 (.inl hlo)) (tdiv_mem_half hfar.1 (.inr hhi))
    (tdiv_mem_half hfar.2 (.inl hlo)) (tdiv_mem_half hfar.2 (.inr hhi))
  refine ⟨u, ?_, 1, ?_, by omega, ?_⟩
  · rw [mem_iff]
    omega
  · rw [mem_iff]
    omega
  · rw [Int.tdiv_one, mem_iff]
    dsimp only at hbelow habove
    omega

/-- The divisors have zero in the middle. -/
theorem divRange_unsound_wrapped :
    ∃ r, divRange false ⟨1, 7, false⟩ ⟨-4611686018427387905, 3, false⟩ = some r
      ∧ ∃ u ∈ (IntRange.mk 1 7 false).interval,
        ∃ y ∈ (IntRange.mk (-4611686018427387905) 3 false).interval,
          y ≠ 0 ∧ u.tdiv y ∉ r.interval :=
  ⟨_, rfl, divRange_unsound rfl (by decide) (by decide) (x := 1)
    (IntInterval.mem_iff.2 (by decide)) (by decide)⟩

-- ======== join

theorem orRange_interval (a b : IntRange) :
    (orRange a b).interval = a.interval.join b.interval := by
  unfold orRange IntRange.interval IntInterval.join
  simp only [toInt_min, toInt_max]

theorem contains_some_iff {x : Int} : r.Contains (some x) ↔ x ∈ r.interval := Iff.rfl

variable {v : Option Int}

theorem orRange_contains_left (b : IntRange) (h : a.Contains v) : (orRange a b).Contains v := by
  cases v with
  | none =>
    show (a.hasNulls || b.hasNulls) = true
    rw [show a.hasNulls = true from h, Bool.true_or]
  | some x =>
    rw [contains_some_iff, orRange_interval]
    exact mem_join_left _ h

theorem orRange_contains_right (a : IntRange) (h : b.Contains v) : (orRange a b).Contains v := by
  cases v with
  | none =>
    show (a.hasNulls || b.hasNulls) = true
    rw [show b.hasNulls = true from h, Bool.or_true]
  | some x =>
    rw [contains_some_iff, orRange_interval]
    exact mem_join_right _ h

theorem setHasNulls_contains (h : r.Contains v) : r.setHasNulls.Contains v := by
  cases v with
  | none => rfl
  | some x => exact h

end Compass.Range

namespace Compass.Range

-- ======== data

theorem truncate_bounds {w : Nat} (datum : Fragment.Datum) (hw : w ≤ 64) :
    -2 ^ 63 ≤ (datum.truncate w).toInt ∧ (datum.truncate w).toInt < 2 ^ 63 := by
  have hlow := BitVec.le_two_mul_toInt (x := datum.truncate w)
  have hhigh := BitVec.two_mul_toInt_lt (x := datum.truncate w)
  have hpow : (2 : Int) ^ w ≤ 2 ^ 64 := by
    have := Nat.pow_le_pow_right (show 0 < 2 by omega) hw
    exact_mod_cast this
  omega

/-- A constant's value is an `int64_t`. -/
theorem getValueFromDatum_bounds (datum : Fragment.Datum) (type : SQLTypes) :
    -2 ^ 63 ≤ getValueFromDatum datum type ∧ getValueFromDatum datum type < 2 ^ 63 := by
  have hlow := BitVec.le_two_mul_toInt (x := datum)
  have hhigh := BitVec.two_mul_toInt_lt (x := datum)
  have hbig : -2 ^ 63 ≤ datum.toInt ∧ datum.toInt < 2 ^ 63 := by omega
  cases type with
  | kSMALLINT | kINT => exact truncate_bounds datum (by omega)
  | kBIGINT | kTIME | kTIMESTAMP | kDATE | kNUMERIC | kDECIMAL => exact hbig
  | _ => exact ⟨show -2 ^ 63 ≤ (0 : Int) by decide, show (0 : Int) < 2 ^ 63 by decide⟩

-- ======== cuts

variable {r : IntRange}

/-- A comparison that a number of the range satisfies cuts the range
exactly, and keeps the number. -/
theorem applyIntQual_spec {x c : Int} {op : SQLOps} (hc : -2 ^ 63 ≤ c ∧ c < 2 ^ 63)
    (hx : x ∈ r.interval) (hop : (if op = .kBW_EQ then x == c else Fragment.icmp op x c) = true) :
    x ∈ (applyIntQual (Int64.ofInt c) op r).interval
      ∧ (applyIntQual (Int64.ofInt c) op r).interval = cutInterval c op r.interval := by
  have hcc : (Int64.ofInt c).toInt = c := Int64.toInt_ofInt_of_le hc.1 hc.2
  have hlo := r.intMin.le_toInt
  have hhi := r.intMax.toInt_lt
  have hone : (1 : Int64).toInt = 1 := rfl
  rw [IntInterval.mem_iff] at hx ⊢
  unfold IntRange.interval at hx ⊢
  dsimp only at hx ⊢
  cases op with
  | kGT =>
    have hgt : x > c := by simpa [Fragment.icmp] using hop
    have hsucc : (Int64.ofInt c + 1).toInt = c + 1 := by
      rw [Int64.toInt_add, hcc, hone]
      exact Int.bmod_eq_of_le (by omega) (by omega)
    simp only [applyIntQual, cutInterval, toInt_max, hsucc, and_true]
    omega
  | kGE =>
    have hge : x ≥ c := by simpa [Fragment.icmp] using hop
    simp only [applyIntQual, cutInterval, toInt_max, hcc, and_true]
    omega
  | kLT =>
    have hlt : x < c := by simpa [Fragment.icmp] using hop
    have hpred : (Int64.ofInt c - 1).toInt = c - 1 := by
      rw [Int64.toInt_sub, hcc, hone]
      exact Int.bmod_eq_of_le (by omega) (by omega)
    simp only [applyIntQual, cutInterval, toInt_min, hpred, and_true]
    omega
  | kLE =>
    have hle : x ≤ c := by simpa [Fragment.icmp] using hop
    simp only [applyIntQual, cutInterval, toInt_min, hcc, and_true]
    omega
  | kEQ =>
    have heq : x = c := by simpa [Fragment.icmp] using hop
    simp only [applyIntQual, cutInterval, toInt_max, toInt_min, hcc, and_true]
    omega
  | _ => exact ⟨hx, rfl⟩

-- ======== qualifiers

variable {row : Row} {tableId columnId rteIdx : Int}

/-- A cast that keeps the numbers of an interval. -/
theorem castSimple_of_keeps {operandTi ti : SQLTypeInfo} {I : IntInterval} {x : Int}
    (h : CastKeeps operandTi ti I) (hx : x ∈ I) : castSimple operandTi ti x = x := by
  obtain ⟨hint, hint', hkeep⟩ := h
  have hts : ¬ (operandTi.type = .kTIMESTAMP ∧ ti.type = .kDATE) := by
    intro ⟨hts, _⟩
    unfold SQLTypeInfo.isInteger at hint
    rw [hts] at hint
    cases hint
  unfold castSimple
  rw [if_neg hts]
  split
  case isFalse => rfl
  case isTrue hnarrow =>
    rcases hkeep with hwide | ⟨hlo, hhi⟩
    · omega
    · rw [IntInterval.mem_iff] at hx
      have hw : 1 ≤ Fragment.bitWidth ti := by
        unfold Fragment.bitWidth
        split <;> omega
      obtain ⟨w, hw'⟩ : ∃ w, Fragment.bitWidth ti = w + 1 := ⟨Fragment.bitWidth ti - 1, by omega⟩
      rw [hw', Nat.add_sub_cancel] at hlo hhi
      rw [hw']
      have hpow : ((2 ^ (w + 1) : Nat) : Int) = 2 * 2 ^ w := by
        push_cast
        rw [Int.pow_succ, Int.mul_comm]
      exact Int.bmod_eq_of_le (by rw [hpow]; omega) (by rw [hpow]; omega)

variable {known : Option IntInterval}

/-- The left side of a qualifier that speaks of the column is the
column's value. -/
theorem qualOperand_of_reads {left : Fragment.Expr} (hreads : ReadsColumn rteIdx known left)
    (hcol : qualColumn left = some (tableId, columnId))
    (hknown : ∀ x, row tableId columnId rteIdx = some x → ∃ I, known = some I ∧ x ∈ I) :
    qualOperand row left = row tableId columnId rteIdx := by
  unfold ReadsColumn at hreads
  split at hreads
  case h_1 ti t c rte =>
    obtain ⟨rfl, rfl⟩ := Prod.mk.inj (Option.some.inj hcol)
    rw [← hreads]
    rfl
  case h_2 ti cti t c rte =>
    obtain ⟨rfl, rfl⟩ := Prod.mk.inj (Option.some.inj hcol)
    obtain ⟨rfl, hkeeps⟩ := hreads
    show (row t c rte).map (castSimple cti ti) = row t c rte
    cases hv : row t c rte with
    | none => rfl
    | some x =>
      obtain ⟨I, hI, hx⟩ := hknown x hv
      rw [Option.map_some, castSimple_of_keeps (hkeeps I hI) hx]
  case h_3 => exact hreads.elim

/-- A qualifier compares the column with a constant, or leaves it
alone. -/
theorem qual_cases (tableId columnId : Int) (q : Fragment.Expr) :
    (∃ ti optype qualifier left cti isNull constval,
      q = .binOper ti optype qualifier left (.constant cti isNull constval)
        ∧ qualColumn left = some (tableId, columnId))
      ∨ ((∀ r, applySimpleQual tableId columnId r q = r)
        ∧ ∀ I, cutByQual tableId columnId I q = I) := by
  cases q with
  | binOper ti optype qualifier left right =>
    cases right with
    | constant cti isNull constval =>
      by_cases hcol : qualColumn left = some (tableId, columnId)
      · exact .inl ⟨ti, optype, qualifier, left, cti, isNull, constval, rfl, hcol⟩
      · exact .inr ⟨fun r => if_neg hcol, fun I => if_neg hcol⟩
    | _ => exact .inr ⟨fun r => rfl, fun I => rfl⟩
  | _ => exact .inr ⟨fun r => rfl, fun I => rfl⟩

/-- A qualifier that the row satisfies cuts the column's range exactly,
and keeps its value. -/
theorem applySimpleQual_spec {q : Fragment.Expr} (hq : qualHolds row q = true)
    (hreads : ∀ ti optype qualifier left right, q = .binOper ti optype qualifier left right →
      qualColumn left = some (tableId, columnId) → ReadsColumn rteIdx known left)
    (hknown : ∀ x, row tableId columnId rteIdx = some x → ∃ I, known = some I ∧ x ∈ I)
    (hr : r.Contains (row tableId columnId rteIdx)) :
    (applySimpleQual tableId columnId r q).Contains (row tableId columnId rteIdx)
      ∧ (applySimpleQual tableId columnId r q).interval
        = cutByQual tableId columnId r.interval q := by
  rcases qual_cases tableId columnId q with
    ⟨ti, optype, qualifier, left, cti, isNull, constval, rfl, hcol⟩ | ⟨hsame, hcut⟩
  · have hleft := qualOperand_of_reads (hreads _ _ _ _ _ rfl hcol) hcol hknown
    have happly : applySimpleQual tableId columnId r
        (.binOper ti optype qualifier left (.constant cti isNull constval))
        = applyIntQual (Int64.ofInt (getValueFromDatum constval cti.type)) optype r :=
      if_pos hcol
    have hcut : cutByQual tableId columnId r.interval
        (.binOper ti optype qualifier left (.constant cti isNull constval))
        = cutInterval (getValueFromDatum constval cti.type) optype r.interval :=
      if_pos hcol
    rw [happly, hcut]
    simp only [qualHolds, hleft] at hq
    cases hv : row tableId columnId rteIdx with
    | none =>
      -- only an equality of NULLs holds, which cuts nothing
      have hbw : optype = .kBW_EQ := by
        cases isNull with
        | true => simpa [hv, qualOperand] using hq
        | false => simp [hv, qualOperand] at hq
      subst hbw
      rw [hv] at hr
      exact ⟨hr, rfl⟩
    | some x =>
      rw [hv] at hr
      cases isNull with
      | true => simp [hv, qualOperand] at hq
      | false =>
        have hop : (if optype = .kBW_EQ then x == getValueFromDatum constval cti.type
            else Fragment.icmp optype x (getValueFromDatum constval cti.type)) = true := by
          simpa only [hv, qualOperand, Bool.false_eq_true, if_false] using hq
        exact applyIntQual_spec (getValueFromDatum_bounds constval cti.type) hr hop
  · rw [hsame, hcut]
    exact ⟨hr, rfl⟩

/-- All qualifiers together. -/
theorem foldl_applySimpleQual_spec {quals : List Fragment.Expr}
    (hquals : ∀ q ∈ quals, qualHolds row q = true) (hreads : ∀ ti optype qualifier left right,
      Fragment.Expr.binOper ti optype qualifier left right ∈ quals →
      qualColumn left = some (tableId, columnId) → ReadsColumn rteIdx known left)
    (hknown : ∀ x, row tableId columnId rteIdx = some x → ∃ I, known = some I ∧ x ∈ I)
    (hr : r.Contains (row tableId columnId rteIdx)) :
    (quals.foldl (applySimpleQual tableId columnId) r).Contains (row tableId columnId rteIdx)
      ∧ (quals.foldl (applySimpleQual tableId columnId) r).interval
        = quals.foldl (cutByQual tableId columnId) r.interval := by
  induction quals generalizing r with
  | nil => exact ⟨hr, rfl⟩
  | cons q quals ih =>
    obtain ⟨hcontains, hinterval⟩ := applySimpleQual_spec (hquals q List.mem_cons_self)
      (fun ti op ql left right he => hreads ti op ql left right (he ▸ List.mem_cons_self))
      hknown hr
    rw [List.foldl_cons, List.foldl_cons, ← hinterval]
    exact ih (fun q' hq' => hquals q' (List.mem_cons_of_mem _ hq'))
      (fun ti op ql left right he => hreads ti op ql left right (List.mem_cons_of_mem _ he))
      hcontains

-- ======== columns

variable {env : RangeEnv} {simpleQuals : Option (List Fragment.Expr)}

/-- The range of a column contains its value, and is the exact one. -/
theorem columnRange_sound (hrow : Consistent env simpleQuals row)
    (hsafe : ColumnSafe env simpleQuals tableId columnId rteIdx)
    (hrange : columnRange env simpleQuals tableId columnId rteIdx = some r) :
    r.Contains (row tableId columnId rteIdx)
      ∧ columnHull env simpleQuals tableId columnId rteIdx = some r.interval := by
  have hfits := hrow.columns tableId columnId rteIdx
  unfold columnRange at hrange
  unfold ColumnFits at hfits
  unfold columnHull
  by_cases htable : tableId > 0
  · rw [if_pos htable] at hrange hfits ⊢
    obtain ⟨r0, hr0, hr⟩ := Option.map_eq_some_iff.mp hrange
    have hcontains := hfits r0 hr0
    have hint : (if env.isOuterJoinProj rteIdx then r0.setHasNulls else r0).interval
        = r0.interval := by
      split <;> rfl
    rw [hr0, Option.map_some]
    generalize (if env.isOuterJoinProj rteIdx then r0.setHasNulls else r0) = r1
      at hr hcontains hint
    unfold applySimpleQuals at hr
    cases simpleQuals with
    | none =>
      rw [← hr]
      exact ⟨hcontains, by rw [hint]⟩
    | some quals =>
      have hknown : ∀ x, row tableId columnId rteIdx = some x →
          ∃ I, (env.getColRange tableId columnId).map IntRange.interval = some I ∧ x ∈ I := by
        intro x hx
        rw [hx] at hcontains
        refine ⟨r0.interval, by rw [hr0]; rfl, ?_⟩
        rw [← hint]
        exact hcontains
      obtain ⟨hall, hfold⟩ := foldl_applySimpleQual_spec (hrow.quals quals rfl)
        (hsafe htable quals rfl) hknown hcontains
      dsimp only at hr ⊢
      rw [hint] at hfold
      rw [← hfold]
      generalize quals.foldl (applySimpleQual tableId columnId) r1 = r2 at hr hall
      have hcross : r2.intMin > r2.intMax ↔ r2.interval.lo > r2.interval.hi :=
        Int64.lt_iff_toInt_lt
      split at hr
      case isTrue hempty =>
        rw [if_pos (hcross.mp hempty), ← hr]
        refine ⟨?_, rfl⟩
        cases hv : row tableId columnId rteIdx with
        | none =>
          rw [hv] at hall
          exact hall
        | some x =>
          rw [hv] at hall
          have hlo : r2.interval.lo ≤ x := hall.1
          have hhi : x ≤ r2.interval.hi := hall.2
          have := hcross.mp hempty
          omega
      case isFalse hne =>
        rw [if_neg fun h => hne (hcross.mpr h), ← hr]
        exact ⟨hall, rfl⟩
  · rw [if_neg htable] at hrange hfits ⊢
    exact ⟨hfits r hrange, by rw [hrange]; rfl⟩

end Compass.Range
