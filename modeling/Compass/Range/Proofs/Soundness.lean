/-
Soundness of the range analysis.

On a safe expression and a row that fits, the range of every part
contains the part's value and has the ends of exact interval arithmetic
(`sound`). Both go through one induction over the expression, since an
operation is sound by the ranges of its operands and safe by their exact
intervals.

The analysis is not sound in general: `x / y` with `y` from `-2^32` to
`2^32 - 1` passes the test for a zero divisor, since the product of the
ends wraps to `2^32`.
-/
import Compass.Range.Proofs.Columns

namespace Compass.Range

open Option Except Int

variable {β : Type} {env : RangeEnv} {simpleQuals : Option (List Fragment.Expr)}
  {holds : β → Row → Bool} {row : Row} {a b r : IntRange}

variable {ti : IntegerType} {optype : ArithOp}

-- ======== operations

theorem checkedResult_eq_ok {z : Int} {v : Option Int} (h : checkedResult ti z = .ok v) :
    v = some z := by
  unfold checkedResult at h
  split at h
  case isTrue => exact (ok.inj h).symm
  case isFalse => cases h

section

variable (hrange : arithRange env optype (some a) (some b) = some r)
include hrange

variable (hdiv : optype = .kDIVIDE → ¬ ProductWraps b.interval)
include hdiv

/-- An operation on two numbers of the ranges. -/
theorem arith_sound {x y : Int} {v : Option Int} (hx : x ∈ a.interval)
    (hy : y ∈ b.interval) (hv : evalArith env.nullDivByZero ti optype x y = .ok v) :
    r.Contains v := by
  cases optype with
  | kPLUS =>
    rw [checkedResult_eq_ok hv, contains_some_iff, (binOp_interval hrange).1]
    exact IntInterval.add_mem_corners hx hy
  | kMINUS =>
    rw [checkedResult_eq_ok hv, contains_some_iff, (binOp_interval hrange).1]
    exact IntInterval.sub_mem_corners hx hy
  | kMULTIPLY =>
    rw [checkedResult_eq_ok hv, contains_some_iff, (binOp_interval hrange).1]
    exact IntInterval.mul_mem_corners hx hy
  | kDIVIDE =>
    obtain ⟨hpos, q, hq, hint, -⟩ := divRange_eq_some hrange
    have hsign := same_sign (sign_of_product hpos (hdiv rfl))
    have hzero : ¬ y = 0 := by
      rw [IntInterval.mem_iff] at hy
      omega
    simp only [evalArith, if_neg hzero] at hv
    rw [checkedResult_eq_ok hv, contains_some_iff, hint, (binOp_interval hq).1]
    exact IntInterval.tdiv_mem_corners hx hy hsign
  | kMODULO => cases hrange

omit hdiv in
/-- The flag of an operation's range is that of its operands'. -/
theorem arith_hasNulls (h : a.hasNulls = true ∨ b.hasNulls = true) : r.hasNulls = true := by
  have hor : (a.hasNulls || b.hasNulls) = true := Bool.or_eq_true_iff.mpr h
  cases optype with
  | kPLUS | kMINUS | kMULTIPLY => rw [(binOp_interval hrange).2, hor]
  | kDIVIDE =>
    obtain ⟨-, q, hq, -, hnulls, -⟩ := divRange_eq_some hrange
    exact hnulls (by rw [(binOp_interval hq).2, hor])
  | kMODULO => cases hrange

/-- The range of an operation has the exact ends. -/
theorem arith_hull : arithHull optype (some a.interval) (some b.interval) = some r.interval := by
  cases optype with
  | kPLUS | kMINUS | kMULTIPLY => exact binOp_hull hrange
  | kDIVIDE =>
    obtain ⟨hpos, q, hq, hint, -⟩ := divRange_eq_some hrange
    have hsign := sign_of_product hpos (hdiv rfl)
    show (if b.interval.lo * b.interval.hi ≤ 0 then none
      else cornersHull tdiv a.interval b.interval) = _
    rw [if_neg (by omega), binOp_hull hq, hint]
  | kMODULO => cases hrange

end

/-- A cast keeps the numbers of its type. -/
theorem castValue_of_fits {x : Int} (h : ti.Fits x) : castValue ti x = x := by
  cases ti with
  | kSMALLINT | kINT | kBIGINT => exact bmod_eq_of_le h.1 h.2

/-- A cast gives a number of its type. -/
theorem castValue_fits (ti : IntegerType) (x : Int) : ti.Fits (castValue ti x) := by
  cases ti with
  | kSMALLINT | kINT | kBIGINT => exact ⟨le_bmod (by decide), bmod_lt (by decide)⟩

theorem castValue_mem {I : IntInterval} {x : Int} (h : CastStays ti I) (hx : x ∈ I) :
    castValue ti x ∈ I := by
  rw [IntInterval.mem_iff] at hx ⊢
  rcases h with hempty | ⟨hlo, hhi⟩ | ⟨hlo, hhi⟩
  · omega
  · have hfit : ti.Fits x := ⟨le_trans hlo.1 hx.1, lt_of_le_of_lt hx.2 hhi.2⟩
    rw [castValue_of_fits hfit]
    exact hx
  · obtain ⟨hmin, hmax⟩ := castValue_fits ti x
    omega

theorem arithRange_eq_some {lhs rhs : ExpressionRange}
    (h : arithRange env optype lhs rhs = some r) : ∃ a b, lhs = some a ∧ rhs = some b := by
  cases lhs with
  | none => cases h
  | some a =>
    cases rhs with
    | none => cases h
    | some b => exact ⟨a, b, rfl, rfl⟩

-- ======== expressions

/-- The range of an expression contains its value and has the exact
ends. -/
def SoundFor (env : RangeEnv) (simpleQuals : Option (List Fragment.Expr))
    (holds : β → Row → Bool) (row : Row) (e : Expr β) (r : IntRange) : Prop :=
  (∀ v, eval env.nullDivByZero holds row e = .ok v → r.Contains v)
    ∧ hull env simpleQuals e = some r.interval

theorem Consistent.none (h : Consistent env simpleQuals row) : Consistent env none row :=
  ⟨h.columns, fun _ h => nomatch h⟩

theorem constant_sound {isNull : Bool} {constval : Fragment.Datum}
    (hrange : constantRange ti isNull constval = some r) :
    SoundFor env simpleQuals holds row (.constant ti isNull constval) r := by
  have hbounds : -2 ^ 63 ≤ ti.constant constval ∧ ti.constant constval < 2 ^ 63 := by
    cases ti with
    | kSMALLINT => exact getValueFromDatum_bounds constval .kSMALLINT
    | kINT => exact getValueFromDatum_bounds constval .kINT
    | kBIGINT => exact getValueFromDatum_bounds constval .kBIGINT
  have hval : (Int64.ofInt (ti.constant constval)).toInt = ti.constant constval :=
    Int64.toInt_ofInt_of_le hbounds.1 hbounds.2
  cases isNull with
  | true => cases hrange
  | false =>
    obtain rfl := some.inj hrange
    constructor
    · intro v hv
      have hv' : v = some (ti.constant constval) := by
        simpa [eval] using (ok.inj hv).symm
      rw [hv']
      exact ⟨le_of_eq hval, ge_of_eq hval⟩
    · simp [hull, IntRange.interval, hval]

theorem binOper_sound {left right : Expr β}
    (ihl : ∀ a, getExpressionRange env simpleQuals left = some a →
      SoundFor env simpleQuals holds row left a)
    (ihr : ∀ b, getExpressionRange env simpleQuals right = some b →
      SoundFor env simpleQuals holds row right b)
    (hdiv : optype = .kDIVIDE → ∀ J, hull env simpleQuals right = some J → ¬ ProductWraps J)
    (hrange : getExpressionRange env simpleQuals (.binOper ti optype left right) = some r) :
    SoundFor env simpleQuals holds row (.binOper ti optype left right) r := by
  unfold getExpressionRange at hrange
  obtain ⟨a, b, ha, hb⟩ := arithRange_eq_some hrange
  rw [ha, hb] at hrange
  obtain ⟨hleft, hhullL⟩ := ihl a ha
  obtain ⟨hright, hhullR⟩ := ihr b hb
  have hdiv' : optype = .kDIVIDE → ¬ ProductWraps b.interval := fun hop => hdiv hop _ hhullR
  constructor
  · intro v hv
    unfold eval at hv
    cases hl : eval env.nullDivByZero holds row left with
    | error e =>
      rw [hl] at hv
      cases hv
    | ok lhs =>
      cases hr : eval env.nullDivByZero holds row right with
      | error e =>
        rw [hl, hr] at hv
        cases hv
      | ok rhs =>
        have hlc := hleft lhs hl
        have hrc := hright rhs hr
        rw [hl, hr] at hv
        cases lhs with
        | none =>
          obtain rfl : none = v := ok.inj hv
          exact arith_hasNulls hrange (.inl hlc)
        | some x =>
          cases rhs with
          | none =>
            obtain rfl : none = v := ok.inj hv
            exact arith_hasNulls hrange (.inr hrc)
          | some y => exact arith_sound hrange hdiv' hlc hrc hv
  · unfold hull
    rw [hhullL, hhullR]
    exact arith_hull hrange hdiv'

theorem cast_sound {operand : Expr β} (ih : SoundFor env simpleQuals holds row operand r)
    (hstays : ∀ I, hull env simpleQuals operand = some I → CastStays ti I) :
    SoundFor env simpleQuals holds row (.uoper ti .kCAST operand) r := by
  obtain ⟨hvals, hhull⟩ := ih
  constructor
  · intro v hv
    unfold eval at hv
    cases harg : eval env.nullDivByZero holds row operand with
    | error e =>
      rw [harg] at hv
      cases hv
    | ok arg =>
      have hc := hvals arg harg
      rw [harg] at hv
      obtain rfl : arg.map (castValue ti) = v := ok.inj hv
      cases arg with
      | none => exact hc
      | some x =>
        rw [map_some, contains_some_iff]
        exact castValue_mem (hstays _ hhull) hc
  · unfold hull
    exact hhull

/-- What the pairs of a CASE contribute: the range before them is
contained in the one after, and so is the value of the pair taken. -/
def WhensSound (env : RangeEnv) (holds : β → Row → Bool) (row : Row) (whens : Whens β)
    (before : ExpressionRange) (after : IntRange) : Prop :=
  (∀ a, before = some a → ∀ v, a.Contains v → after.Contains v)
    ∧ (∀ elseValue v, evalWhens env.nullDivByZero holds row whens elseValue = .ok v →
      elseValue = .ok v ∨ after.Contains v)
    ∧ whensHull env whens (before.map IntRange.interval) = some after.interval

theorem whens_cons_sound {cond : β} {result : Expr β} {rest : Whens β}
    {before : ExpressionRange} {crt after : IntRange}
    (hresult : SoundFor env none holds row result crt) (hrest : WhensSound env holds row rest
      (some (match before with
        | some a => orRange a crt
        | none => crt)) after) :
    WhensSound env holds row (.cons cond result rest) before after := by
  obtain ⟨hvals, hhull⟩ := hresult
  obtain ⟨hbefore, heval, hwhens⟩ := hrest
  have hcrt : ∀ v, crt.Contains v → after.Contains v := by
    intro v hv
    cases before with
    | none => exact hbefore crt rfl v hv
    | some a => exact hbefore _ rfl v (orRange_contains_right a hv)
  refine ⟨?_, ?_, ?_⟩
  · intro a ha v hv
    subst ha
    exact hbefore _ rfl v (orRange_contains_left crt hv)
  · intro elseValue v hv
    unfold evalWhens at hv
    split at hv
    case isTrue => exact .inr (hcrt v (hvals v hv))
    case isFalse => exact heval elseValue v hv
  · unfold whensHull
    rw [hhull]
    cases before with
    | none => exact hwhens
    | some a =>
      dsimp only [map_some] at hwhens ⊢
      rw [orRange_interval] at hwhens
      exact hwhens

theorem case_sound {whens : Whens β} {elseExpr : Expr β}
    (ihw : ∀ after, whensRange env whens none = some (some after) →
      WhensSound env holds row whens none after)
    (ihe : ∀ b, getExpressionRange env none elseExpr = some b →
      SoundFor env none holds row elseExpr b)
    (hrange : getExpressionRange env simpleQuals (.caseExpr ti whens elseExpr) = some r) :
    SoundFor env simpleQuals holds row (.caseExpr ti whens elseExpr) r := by
  obtain ⟨exprRange, hwhens, hrest⟩ := bind_eq_some_iff.mp hrange
  by_cases hnull : elseExpr.isNullConstant = true
  · rw [if_pos hnull] at hrest
    obtain ⟨after, rfl, rfl⟩ := map_eq_some_iff.mp hrest
    obtain ⟨-, heval, hhull⟩ := ihw after hwhens
    rw [map_none] at hhull
    constructor
    · intro v hv
      rcases heval _ v hv with helse | hc
      · have hnone : eval env.nullDivByZero holds row elseExpr = .ok none := by
          cases elseExpr with
          | constant ti' isNull constval =>
            have : isNull = true := hnull
            subst this
            simp [eval]
          | _ => cases hnull
        rw [hnone] at helse
        rw [← ok.inj helse]
        rfl
      · exact setHasNulls_contains hc
    · unfold hull
      rw [hhull]
      simp only [bind_eq_bind, bind_some, if_pos hnull]
      rfl
  · rw [if_neg hnull] at hrest
    obtain ⟨after, rfl, hjoin⟩ := bind_eq_some_iff.mp hrest
    obtain ⟨b, hb, hout⟩ := bind_eq_some_iff.mp hjoin
    obtain rfl : orRange after b = r := some.inj hout
    obtain ⟨-, heval, hhull⟩ := ihw after hwhens
    obtain ⟨helse, hhullE⟩ := ihe b hb
    rw [map_none] at hhull
    constructor
    · intro v hv
      rcases heval _ v hv with he | hc
      · exact orRange_contains_right after (helse v he)
      · exact orRange_contains_left b hc
    · unfold hull
      rw [hhull, hhullE]
      simp only [bind_eq_bind, bind_some, if_neg hnull, orRange_interval]
      rfl

mutual

/-- On a row that fits, the range of a safe expression contains its value
and has the exact ends. -/
theorem sound (e : Expr β) (simpleQuals : Option (List Fragment.Expr))
    (hrow : Consistent env simpleQuals row) (hsafe : Safe env simpleQuals e) (r : IntRange)
    (hrange : getExpressionRange env simpleQuals e = some r) :
    SoundFor env simpleQuals holds row e r := by
  match e with
  | .columnVar ti tableId columnId rteIdx =>
    unfold Safe at hsafe
    unfold getExpressionRange at hrange
    obtain ⟨hcontains, hhull⟩ := columnRange_sound hrow hsafe hrange
    constructor
    · intro v hv
      unfold eval at hv
      rw [← ok.inj hv]
      exact hcontains
    · unfold hull
      exact hhull
  | .constant ti isNull constval =>
    unfold getExpressionRange at hrange
    exact constant_sound hrange
  | .binOper ti optype left right =>
    unfold Safe at hsafe
    obtain ⟨hsl, hsr, hdiv⟩ := hsafe
    exact binOper_sound (sound left simpleQuals hrow hsl) (sound right simpleQuals hrow hsr)
      hdiv hrange
  | .uoper ti .kCAST operand =>
    unfold Safe at hsafe
    unfold getExpressionRange at hrange
    exact cast_sound (sound operand simpleQuals hrow hsafe.1 r hrange) hsafe.2
  | .uoper ti .kUMINUS operand =>
    unfold getExpressionRange at hrange
    cases hrange
  | .caseExpr ti whens elseExpr =>
    unfold Safe at hsafe
    exact case_sound (whens_sound whens none hrow.none hsafe.1)
      (sound elseExpr none hrow.none hsafe.2) hrange

theorem whens_sound (whens : Whens β) (before : ExpressionRange)
    (hrow : Consistent env none row) (hsafe : WhensSafe env whens) (after : IntRange)
    (hrange : whensRange env whens before = some (some after)) :
    WhensSound env holds row whens before after := by
  match whens with
  | .nil =>
    unfold whensRange at hrange
    obtain rfl := some.inj hrange
    refine ⟨?_, ?_, ?_⟩
    · intro a ha v hv
      obtain rfl := some.inj ha
      exact hv
    · intro elseValue v hv
      unfold evalWhens at hv
      exact .inl hv
    · unfold whensHull
      rfl
  | .cons cond result rest =>
    unfold WhensSafe at hsafe
    unfold whensRange at hrange
    split at hrange
    case h_1 => cases hrange
    case h_2 crt hcrt =>
      exact whens_cons_sound (sound result none hrow hsafe.1 crt hcrt)
        (whens_sound rest _ hrow hsafe.2 after hrange)

end

-- ======== results

end Compass.Range
