/-
The set of `get_domain` covers a CASE unless the row takes a branch that
puts nothing into the set, or something else than itself.

`getDomain_eq` separates what the branches are from what the set makes of
them: the set is the list of what they put there without duplicates, and
empty if a branch is met of which nothing is known.

A comparison of two constants fails for their types, or for a NULL among two
strings, and this is the same for constants that are equal (`datumEqual_ok`).
-/
import Compass.Analyzer.GetDomain

namespace Compass.Analyzer

open Analyzer.Expr List Except
open Distinct Listing

-- ======== the listing

/-- The set that a listing leaves. -/
def Listing.run (l : Listing) (domainSet : List Expr) : Except Fault (List Expr) := do
  let D ← Distinct.addAll operatorEq domainSet l.exprs
  return if l.stops then [] else D

def Listing.runPairs (l : Listing) (domainSet : List Expr) :
    Except Fault (List Expr × Bool) := do
  let D ← Distinct.addAll operatorEq domainSet l.exprs
  return if l.stops then ([], true) else (D, false)

theorem addAll_singleton (D : List Expr) (e : Expr) :
    Distinct.addAll operatorEq D [e] = addUnique e D := by
  simp only [addAll, addUnique]
  cases Distinct.add operatorEq e D <;> rfl

mutual

theorem getDomain_eq (D : List Expr) (e : Expr) :
    getDomain D e = (listing (!D.isEmpty) e).run D := by
  cases e with
  | caseExpr ti containsAgg pairs elseExpr =>
    rw [getDomain, getDomainPairs_eq D pairs, listing, runPairs]
    cases hadd : addAll operatorEq D (listingPairs (!D.isEmpty) pairs).exprs with
    | error f =>
      cases hstops : (listingPairs (!D.isEmpty) pairs).stops <;>
        simp [Listing.run, hadd, addAll_append, bind, Except.bind]
    | ok D₁ =>
      cases hstops : (listingPairs (!D.isEmpty) pairs).stops with
      | true => simp [Listing.run, hadd, hstops, bind, Except.bind, pure, Except.pure]
      | false =>
        have hempty : (!D.isEmpty || !(listingPairs (!D.isEmpty) pairs).exprs.isEmpty) =
            !D₁.isEmpty := by
          rw [addAll_isEmpty hadd, Bool.not_and]
        simp only [hempty, bind, Except.bind, pure, Except.pure, Bool.false_eq_true,
          if_false, getDomainElse_eq D₁ elseExpr, Listing.run, addAll_append, hadd]
  | _ => rfl

theorem getDomainPairs_eq (D : List Expr) (pairs : List (Expr × Expr)) :
    getDomainPairs D pairs = (listingPairs (!D.isEmpty) pairs).runPairs D := by
  cases pairs with
  | nil => rfl
  | cons pair pairs =>
    obtain ⟨cond, result⟩ := pair
    have hput : (result.isAtom || result.castConstant.isSome) = true →
        (do
          let D ← addUnique result D
          getDomainPairs D pairs) =
          (listingPairs (!D.isEmpty) ((cond, result) :: pairs)).runPairs D := by
      intro h
      simp only [listingPairs, h, if_true, runPairs, addAll, addUnique]
      cases hadd : Distinct.add operatorEq result D with
      | error f => rfl
      | ok D₁ =>
        have hnonempty : (!D₁.isEmpty) = true := by
          simp [add_ne_nil hadd]
        simp only [bind, Except.bind, getDomainPairs_eq D₁ pairs, hnonempty, runPairs]
    rw [getDomainPairs]
    by_cases hc : result.isConstant = true
    · rw [if_pos hc]
      exact hput (by simp [isAtom, hc])
    rw [if_neg hc]
    by_cases hv : result.isColumnVar = true
    · rw [if_pos hv]
      exact hput (by simp [isAtom, hv])
    rw [if_neg hv]
    by_cases hcast : result.castConstant.isSome = true
    · rw [if_pos hcast]
      exact hput (by simp [hcast])
    rw [if_neg hcast, getDomain_eq D result]
    simp only [listingPairs, isAtom, hc, hv, hcast, Bool.or_false, Bool.false_eq_true, if_false,
      Listing.run]
    cases hadd : addAll operatorEq D (listing (!D.isEmpty) result).exprs with
    | error f =>
      cases (listing (!D.isEmpty) result).stops ||
          (!!D.isEmpty && (listing (!D.isEmpty) result).exprs.isEmpty) <;>
        simp [runPairs, hadd, addAll_append, bind, Except.bind]
    | ok D₁ =>
      have hempty := addAll_isEmpty hadd
      cases hstops : (listing (!D.isEmpty) result).stops with
      | true => simp [runPairs, hadd, bind, Except.bind, pure, Except.pure]
      | false =>
        simp only [Bool.not_not, Bool.false_or, ← hempty, bind, Except.bind, pure,
          Except.pure, Bool.false_eq_true, if_false]
        cases hD₁ : D₁.isEmpty with
        | true =>
          simp [runPairs, hadd, bind, Except.bind, pure, Except.pure, isEmpty_iff.1 hD₁]
        | false =>
          have hbefore : (!D.isEmpty || !(listing (!D.isEmpty) result).exprs.isEmpty) =
              !D₁.isEmpty := by
            rw [hempty, Bool.not_and]
          simp only [hbefore, Bool.false_eq_true, if_false, getDomainPairs_eq D₁ pairs,
            runPairs, addAll_append, hadd, bind, Except.bind]

theorem getDomainElse_eq (D : List Expr) (elseExpr : Option Expr) :
    getDomainElse D elseExpr = (listingElse (!D.isEmpty) elseExpr).run D := by
  cases elseExpr with
  | none => rfl
  | some e =>
    have hput : ∀ e : Expr, addUnique e D = (Listing.mk [e] false).run D := by
      intro e
      rw [Listing.run, addAll_singleton]
      cases addUnique e D <;> rfl
    rw [getDomainElse, listingElse, isAtom]
    by_cases hc : e.isConstant = true
    · rw [if_pos hc, if_pos (by simp [hc]), hput]
    rw [if_neg hc]
    by_cases hv : e.isColumnVar = true
    · rw [if_pos hv, if_pos (by simp [hv]), hput]
    have hatom : ¬ (e.isConstant || e.isColumnVar) = true := by simp [hc, hv]
    rw [if_neg hv, if_neg hatom]
    by_cases hcast : e.isCast = true
    · rw [if_pos hcast, if_pos hcast]
      cases e.castConstant with
      | none => rfl
      | some c => exact hput c
    · rw [if_neg hcast, if_neg hcast, getDomain_eq D e]

end

-- ======== what is put there

/-- What branches put into the set: constants, columns, and casts of constants. -/
def Expr.IsPut (e : Expr) : Prop :=
  e.isAtom = true ∨ e.castConstant.isSome = true

variable {e : Expr} {ti ti' : SQLTypeInfo}

theorem castConstant_eq_some {c : Expr} (h : e.castConstant = some c) :
    ∃ ti containsAgg, e = .uoper ti containsAgg .kCAST c ∧ c.isConstant = true := by
  unfold castConstant at h
  split at h
  case h_1 ti containsAgg operand =>
    split at h
    case isTrue hc =>
      cases h
      exact ⟨ti, containsAgg, rfl, hc⟩
    case isFalse => cases h
  case h_2 => cases h

mutual

theorem isPut_of_mem_listing {before : Bool} {e m : Expr} (h : m ∈ (listing before e).exprs) :
    m.IsPut := by
  cases e with
  | caseExpr ti containsAgg pairs elseExpr =>
    rw [listing] at h
    dsimp only at h
    split at h
    · exact isPut_of_mem_listingPairs h
    · rcases mem_append.1 h with h | h
      · exact isPut_of_mem_listingPairs h
      · exact isPut_of_mem_listingElse h
  | _ => exact absurd h not_mem_nil

theorem isPut_of_mem_listingPairs {before : Bool} {pairs : List (Expr × Expr)} {m : Expr}
    (h : m ∈ (listingPairs before pairs).exprs) : m.IsPut := by
  cases pairs with
  | nil => exact absurd h not_mem_nil
  | cons pair pairs =>
    obtain ⟨cond, result⟩ := pair
    rw [listingPairs] at h
    dsimp only at h
    split at h
    case isTrue hput =>
      rcases mem_cons.1 h with rfl | h
      · exact (Bool.or_eq_true _ _).mp hput
      · exact isPut_of_mem_listingPairs h
    case isFalse =>
      split at h
      · exact isPut_of_mem_listing h
      · rcases mem_append.1 h with h | h
        · exact isPut_of_mem_listing h
        · exact isPut_of_mem_listingPairs h

theorem isPut_of_mem_listingElse {before : Bool} {elseExpr : Option Expr} {m : Expr}
    (h : m ∈ (listingElse before elseExpr).exprs) : m.IsPut := by
  cases elseExpr with
  | none => exact absurd h not_mem_nil
  | some e =>
    rw [listingElse] at h
    split at h
    case isTrue hatom => exact .inl (mem_singleton.1 h ▸ hatom)
    case isFalse =>
      split at h
      · obtain ⟨-, -, -, hc⟩ := castConstant_eq_some (Option.mem_toList.1 h)
        exact .inl (by rw [isAtom, hc, Bool.true_or])
      · exact isPut_of_mem_listing h

end

theorem not_isCase_of_put (h : e.IsPut) : ¬ e.isCase = true := by
  intro hcase
  cases e <;> cases hcase
  rcases h with h | h <;> cases h

theorem taken_of_put {V : Type} (S : Row V) (h : e.IsPut) :
    S.taken e = .thenBranch e := by
  have hcase := not_isCase_of_put h
  cases e with
  | caseExpr => exact absurd rfl hcase
  | _ => rfl

mutual

/-- A branch that is a constant or a column puts itself into the set. -/
theorem mem_listing_of_taken {V : Type} (S : Row V) {before : Bool} {e result : Expr}
    (hstops : (listing before e).stops = false)
    (htaken : S.taken e = .thenBranch result ∨ S.taken e = .elseBranch result)
    (hatom : result.isAtom = true) : result ∈ (listing before e).exprs := by
  cases e with
  | caseExpr ti containsAgg pairs elseExpr =>
    rw [listing] at hstops ⊢
    dsimp only at hstops ⊢
    split at hstops
    case isTrue h => exact absurd (h.symm.trans hstops) Bool.noConfusion
    case isFalse h =>
      rw [if_neg h]
      refine mem_append.2 ?_
      rcases mem_listingPairs_of_taken S (Bool.eq_false_iff.2 h) htaken hatom with hm | helse
      · exact .inl hm
      · exact .inr (mem_listingElse_of_taken S hstops helse hatom)
  | _ => cases hstops

theorem mem_listingPairs_of_taken {V : Type} (S : Row V) {before : Bool}
    {pairs : List (Expr × Expr)} {otherwise : Branch} {result : Expr}
    (hstops : (listingPairs before pairs).stops = false)
    (htaken : S.takenPairs otherwise pairs = .thenBranch result ∨
      S.takenPairs otherwise pairs = .elseBranch result)
    (hatom : result.isAtom = true) :
    result ∈ (listingPairs before pairs).exprs ∨
      (otherwise = .thenBranch result ∨ otherwise = .elseBranch result) := by
  cases pairs with
  | nil => exact .inr htaken
  | cons pair pairs =>
    obtain ⟨cond, r⟩ := pair
    rw [listingPairs] at hstops ⊢
    rw [Row.takenPairs] at htaken
    dsimp only at hstops ⊢
    split at hstops
    case isTrue hput =>
      rw [if_pos hput]
      split at htaken
      · rw [taken_of_put S ((Bool.or_eq_true _ _).mp hput)] at htaken
        rcases htaken with h | h <;> cases h
        exact .inl mem_cons_self
      · exact (mem_listingPairs_of_taken S hstops htaken hatom).imp_left
          (mem_cons_of_mem r)
    case isFalse hput =>
      rw [if_neg hput]
      split at hstops
      case isTrue => cases hstops
      case isFalse hend =>
        rw [if_neg hend]
        have hl : (listing before r).stops = false := by
          cases h : (listing before r).stops
          · rfl
          · exact absurd (by rw [h, Bool.true_or]) hend
        split at htaken
        · exact .inl (mem_append_left _ (mem_listing_of_taken S hl htaken hatom))
        · exact (mem_listingPairs_of_taken S hstops htaken hatom).imp_left
            (mem_append_right _)

theorem mem_listingElse_of_taken {V : Type} (S : Row V) {before : Bool}
    {elseExpr : Option Expr} {result : Expr} (hstops : (listingElse before elseExpr).stops = false)
    (htaken : S.takenElse elseExpr = .thenBranch result ∨
      S.takenElse elseExpr = .elseBranch result)
    (hatom : result.isAtom = true) : result ∈ (listingElse before elseExpr).exprs := by
  cases elseExpr with
  | none => rcases htaken with h | h <;> cases h
  | some e =>
    rw [listingElse] at hstops ⊢
    rw [Row.takenElse] at htaken
    split at htaken
    case isTrue hcase =>
      have hatom' : ¬ e.isAtom = true := fun h => absurd hcase (not_isCase_of_put (.inl h))
      have hcast : ¬ e.isCast = true := by
        cases e <;> cases hcase
        exact Bool.false_ne_true
      rw [if_neg hatom', if_neg hcast] at hstops ⊢
      exact mem_listing_of_taken S hstops htaken hatom
    case isFalse =>
      rcases htaken with h | h <;> cases h
      rw [if_pos hatom]
      exact mem_singleton.2 rfl

end

-- ======== the comparisons

theorem SQLTypeInfo.operatorNe_eq_false :
    ti.operatorNe ti' = false ↔ ti.type = ti'.type ∧ ti.subtype = ti'.subtype ∧
      ti.dimension = ti'.dimension ∧ ti.scale = ti'.scale ∧
      ti.compression = ti'.compression ∧
      (ti.compression = .kENCODING_NONE ∨ ti.compParam = ti'.compParam ∨
        ti.compParam = -ti'.compParam) ∧ ti.notnull = ti'.notnull := by
  simp only [operatorNe, transientDict, Bool.or_eq_false_iff, bne_eq_false_iff_eq,
    Bool.and_eq_false_iff, and_assoc, or_assoc]

theorem SQLTypeInfo.operatorNe_trans {ti'' : SQLTypeInfo} (h : ti.operatorNe ti' = false)
    (h' : ti.operatorNe ti'' = false) :
    ti'.operatorNe ti'' = false := by
  rw [operatorNe_eq_false] at *
  obtain ⟨h₁, h₂, h₃, h₄, h₅, hdict, h₇⟩ := h
  obtain ⟨h₁', h₂', h₃', h₄', h₅', hdict', h₇'⟩ := h'
  refine ⟨h₁ ▸ h₁', h₂ ▸ h₂', h₃ ▸ h₃', h₄ ▸ h₄', h₅ ▸ h₅', ?_, h₇ ▸ h₇'⟩
  rw [← h₅]
  rcases hdict with hnone | hdict
  · exact .inl hnone
  · exact hdict'.imp_right fun hdict' => by omega

theorem SQLTypeInfo.operatorNe_refl (ti : SQLTypeInfo) : ti.operatorNe ti = false :=
  operatorNe_eq_false.2 ⟨rfl, rfl, rfl, rfl, rfl, .inr (.inl rfl), rfl⟩

theorem SQLTypeInfo.operatorNe_symm (h : ti.operatorNe ti' = false) :
    ti'.operatorNe ti = false :=
  operatorNe_trans h (operatorNe_refl ti)

/-- A type that `Datum_equal` lists. -/
def isCompared : SQLTypes → Bool
  | .kBOOLEAN | .kCHAR | .kVARCHAR | .kTEXT | .kNUMERIC | .kDECIMAL | .kBIGINT | .kINT
  | .kSMALLINT | .kFLOAT | .kDOUBLE | .kTIME | .kTIMESTAMP => true
  | _ => false

theorem datumEqual_ok {d d' : Datum} :
    (∃ b, datumEqual ti d d' = .ok b) ↔ isCompared ti.type = true ∧
      (ti.isString = true → d.stringval.isSome = true ∧ d'.stringval.isSome = true) := by
  unfold datumEqual SQLTypeInfo.isString
  cases ti.type <;> simp [isCompared]
  all_goals
    cases d.stringval <;> cases d'.stringval <;> simp [ne_or_eq]

section constants

variable {ti ti' ti'' : SQLTypeInfo} {n n' n'' : Bool} {d d' d'' : Datum}

theorem constantEq_eq_true :
    constantEq ti n d (constant ti' n' d') = .ok true ↔
      ti.operatorNe ti' = false ∧ n = n' ∧ datumEqual ti d d' = .ok true := by
  rw [constantEq]
  cases ti.operatorNe ti' <;> cases n <;> cases n' <;> simp

theorem constantEq_ok :
    (∃ b, constantEq ti n d (constant ti' n' d') = .ok b) ↔
      (ti.operatorNe ti' = false → n = n' → ∃ b, datumEqual ti d d' = .ok b) := by
  rw [constantEq]
  cases ti.operatorNe ti' <;> cases n <;> cases n' <;> simp

/-- Equal constants are compared with the same others. -/
theorem constantEq_ok_left (h : constantEq ti n d (constant ti' n' d') = .ok true)
    (hok : ∃ b, constantEq ti n d (constant ti'' n'' d'') = .ok b) :
    ∃ b, constantEq ti' n' d' (constant ti'' n'' d'') = .ok b := by
  obtain ⟨hti, rfl, heq⟩ := constantEq_eq_true.1 h
  rw [constantEq_ok] at hok ⊢
  intro hti' hn
  have htype := (SQLTypeInfo.operatorNe_eq_false.1 hti).1
  have hti'' := SQLTypeInfo.operatorNe_trans (SQLTypeInfo.operatorNe_symm hti) hti'
  obtain ⟨hcompared, hstring⟩ := datumEqual_ok.1 (hok hti'' hn)
  obtain ⟨-, hstring'⟩ := datumEqual_ok.1 ⟨true, heq⟩
  refine datumEqual_ok.2 ⟨htype ▸ hcompared, fun hs => ?_⟩
  rw [SQLTypeInfo.isString, ← htype] at hs
  exact ⟨(hstring' hs).2, (hstring hs).2⟩

theorem constantEq_ok_symm (h : ∃ b, constantEq ti n d (constant ti' n' d') = .ok b) :
    ∃ b, constantEq ti' n' d' (constant ti n d) = .ok b := by
  rw [constantEq_ok] at h ⊢
  intro hti hn
  obtain ⟨hcompared, hstring⟩ := datumEqual_ok.1 (h (SQLTypeInfo.operatorNe_symm hti) hn.symm)
  have htype := (SQLTypeInfo.operatorNe_eq_false.1 hti).1
  refine datumEqual_ok.2 ⟨htype ▸ hcompared, fun hs => ?_⟩
  rw [SQLTypeInfo.isString, htype] at hs
  exact (hstring hs).symm

end constants

/-- The kinds of expressions in a set. -/
inductive PutKind : Expr → Prop
  | column {e : Expr} (h : e.isColumnVar = true) : PutKind e
  | constant (ti : SQLTypeInfo) (n : Bool) (d : Datum) : PutKind (.constant ti n d)
  | cast (ti : SQLTypeInfo) (containsAgg : Bool) (ti' : SQLTypeInfo) (n : Bool) (d : Datum) :
      PutKind (.uoper ti containsAgg .kCAST (.constant ti' n d))

theorem Expr.IsPut.kind (h : e.IsPut) : PutKind e := by
  rcases h with h | h
  · rw [isAtom, Bool.or_eq_true] at h
    rcases h with h | h
    · cases e <;> cases h
      exact .constant _ _ _
    · exact .column h
  · obtain ⟨c, hc⟩ := Option.isSome_iff_exists.1 h
    obtain ⟨ti, containsAgg, rfl, hc⟩ := castConstant_eq_some hc
    cases c <;> cases hc
    exact .cast _ _ _ _ _

theorem comparable_column {e' : Expr} (h : e.isColumnVar = true) :
    Distinct.Comparable operatorEq e e' := by
  cases e <;> cases h <;> exact ⟨_, by rw [operatorEq]⟩

theorem operatorEq_cast (ti ti' : SQLTypeInfo) (b b' : Bool) (e e' : Expr) :
    operatorEq (.uoper ti b .kCAST e) (.uoper ti' b' .kCAST e') = operatorEq e e' := by
  rw [operatorEq]
  rfl

theorem operatorEq_cast_atom {b : Bool} {e' : Expr} (h : e'.isAtom = true) :
    operatorEq (.uoper ti b .kCAST e) e' = .ok false := by
  cases e' <;> cases h <;> simp [operatorEq]

/-- Only a constant is equal to a constant. -/
theorem constant_of_same {z : Expr} {n : Bool} {d : Datum} (hz : z.IsPut)
    (h : operatorEq z (.constant ti n d) = .ok true) :
    ∃ ti' n' d', z = .constant ti' n' d' ∧ constantEq ti' n' d' (.constant ti n d) = .ok true := by
  cases hz.kind with
  | column hz =>
    cases z <;> cases hz <;> rw [operatorEq] at h <;>
      exact absurd (ok.inj h) Bool.false_ne_true
  | constant ti' n' d' =>
    rw [operatorEq] at h
    exact ⟨ti', n', d', rfl, h⟩
  | cast =>
    rw [operatorEq_cast_atom rfl] at h
    exact absurd (ok.inj h) Bool.false_ne_true

theorem cast_of_same {z : Expr} {ti₁ : SQLTypeInfo} {b n : Bool} {d : Datum} (hz : z.IsPut)
    (h : operatorEq z (.uoper ti b .kCAST (.constant ti₁ n d)) = .ok true) :
    ∃ ti' b' ti₁' n' d', z = .uoper ti' b' .kCAST (.constant ti₁' n' d') ∧
      constantEq ti₁' n' d' (.constant ti₁ n d) = .ok true := by
  cases hz.kind with
  | column hz =>
    cases z <;> cases hz <;> rw [operatorEq] at h <;>
      exact absurd (ok.inj h) Bool.false_ne_true
  | constant ti' n' d' =>
    rw [operatorEq] at h
    exact absurd (ok.inj h) Bool.false_ne_true
  | cast ti' b' ti₁' n' d' =>
    rw [operatorEq_cast, operatorEq] at h
    exact ⟨ti', b', ti₁', n', d', rfl, h⟩

theorem comparable_constant {n n' : Bool} {d d' : Datum} :
    Distinct.Comparable operatorEq (.constant ti n d) (.constant ti' n' d') ↔
      ∃ b, constantEq ti n d (.constant ti' n' d') = .ok b := by
  rw [Distinct.Comparable, operatorEq]

theorem comparable_cast {b b' : Bool} {e' : Expr} :
    Distinct.Comparable operatorEq (.uoper ti b .kCAST e) (.uoper ti' b' .kCAST e') ↔
      Distinct.Comparable operatorEq e e' := by
  rw [Distinct.Comparable, operatorEq_cast, Distinct.Comparable]

/-- Expressions of two kinds are told apart without a comparison of values. -/
theorem comparable_of_kinds {x w : Expr} (hx : x.IsPut) (hw : w.IsPut)
    (hconstant : ∀ ti n d ti' n' d', x = .constant ti n d → w = .constant ti' n' d' →
      Distinct.Comparable operatorEq x w)
    (hcast : ∀ ti b e ti' b' e', x = .uoper ti b .kCAST e → w = .uoper ti' b' .kCAST e' →
      Distinct.Comparable operatorEq x w) : Distinct.Comparable operatorEq x w := by
  cases hx.kind with
  | column hx => exact comparable_column hx
  | constant ti n d =>
    cases hw.kind with
    | column hw => cases w <;> cases hw <;> exact ⟨false, by rw [operatorEq]; rfl⟩
    | constant ti' n' d' => exact hconstant _ _ _ _ _ _ rfl rfl
    | cast => exact ⟨false, by rw [operatorEq]; rfl⟩
  | cast ti b ti₁ n d =>
    cases hw.kind with
    | column hw => exact ⟨false, operatorEq_cast_atom (by rw [isAtom, hw, Bool.or_true])⟩
    | constant => exact ⟨false, operatorEq_cast_atom rfl⟩
    | cast => exact hcast _ _ _ _ _ _ rfl rfl

theorem comparable_of_same_left {z x w : Expr} (hz : z.IsPut) (hx : x.IsPut) (hw : w.IsPut)
    (hsame : Distinct.same operatorEq z x = true)
    (h : Distinct.Comparable operatorEq z w) : Distinct.Comparable operatorEq x w := by
  rw [same_iff] at hsame
  refine comparable_of_kinds hx hw ?_ ?_
  · rintro ti n d ti' n' d' rfl rfl
    obtain ⟨_, _, _, rfl, heq⟩ := constant_of_same hz hsame
    rw [comparable_constant] at h ⊢
    exact constantEq_ok_left heq h
  · rintro ti b e ti' b' e' rfl rfl
    cases hx.kind with
    | column hx => cases hx
    | cast =>
      cases hw.kind with
      | column hw => cases hw
      | cast =>
        obtain ⟨_, _, _, _, _, rfl, heq⟩ := cast_of_same hz hsame
        rw [comparable_cast, comparable_constant] at h ⊢
        exact constantEq_ok_left heq h

theorem comparable_symm {x w : Expr} (hx : x.IsPut) (hw : w.IsPut)
    (h : Distinct.Comparable operatorEq x w) : Distinct.Comparable operatorEq w x := by
  refine comparable_of_kinds hw hx ?_ ?_
  · rintro ti n d ti' n' d' rfl rfl
    rw [comparable_constant] at h ⊢
    exact constantEq_ok_symm h
  · rintro ti b e ti' b' e' rfl rfl
    cases hw.kind with
    | column hw => cases hw
    | cast =>
      cases hx.kind with
      | column hx => cases hx
      | cast =>
        rw [comparable_cast, comparable_constant] at h ⊢
        exact constantEq_ok_symm h

-- ======== the claim

variable {V : Type}

/-- The set is that of the listing, and there is one if no comparison of two
branches fails. -/
theorem getDomain_eq_ok {D : List Expr} :
    getDomain [] e = .ok D ↔ e.Comparable ∧
      D = if (e.listing false).stops then []
        else Distinct.keep operatorEq [] (e.listing false).exprs := by
  rw [getDomain_eq, Listing.run]
  constructor
  · intro h
    cases hadd : addAll operatorEq [] (listing false e).exprs with
    | error f =>
      rw [isEmpty_nil, Bool.not_true, hadd] at h
      cases h
    | ok D₁ =>
      have hcomparable : e.Comparable :=
        (comparable_of_addAll (P := Expr.IsPut) comparable_of_same_left
          (fun hz hx hy hsame h =>
            comparable_symm hx hy (comparable_of_same_left hz hx hy hsame h))
          (fun _ h => absurd h not_mem_nil)
          (fun _ h => isPut_of_mem_listing h) .nil hadd).2
      refine ⟨hcomparable, ?_⟩
      rw [isEmpty_nil, Bool.not_true, hadd] at h
      obtain rfl := ok.inj h
      have hkeep :=
        addAll_eq (D := []) (fun _ h => absurd h not_mem_nil) hcomparable
      rw [ok.inj (hadd.symm.trans hkeep)]
  · rintro ⟨hcomparable, rfl⟩
    rw [isEmpty_nil, Bool.not_true, addAll_eq (fun _ h => absurd h not_mem_nil) hcomparable]
    rfl

namespace Row

variable (S : Row V)

theorem caseValue_of_taken {result : Expr}
    (h : S.taken e = .thenBranch result ∨ S.taken e = .elseBranch result) :
    S.caseValue e = S.value result := by
  rcases h with h | h <;> rw [caseValue, h, branchValue]

/-- A constant or a column is in the set, or an equal one is. -/
theorem put_of_isPlain {result : Expr} (hmem : result ∈ (e.listing false).exprs)
    (hplain : result.isPlain = true) :
    ∃ m ∈ Distinct.keep operatorEq [] (e.listing false).exprs, S.value m = S.value result := by
  have hatom : result.isAtom = true := by
    cases result <;> cases hplain <;> rfl
  rcases exists_mem_keep (D := []) hmem with hm | ⟨m, hm, hsame⟩
  · exact ⟨result, hm, rfl⟩
  · have hput : m.IsPut :=
      (mem_of_mem_keep hm).elim (fun h => absurd h not_mem_nil) isPut_of_mem_listing
    have hatom' : m.isAtom = true := by
      cases hput.kind with
      | column h => rw [isAtom, h, Bool.or_true]
      | constant => rfl
      | cast =>
        rw [same_iff, operatorEq_cast_atom hatom] at hsame
        exact absurd (ok.inj hsame) Bool.false_ne_true
    exact ⟨m, hm, S.value_eq hatom' hplain (same_iff.1 hsame)⟩

/-- Two casts of a constant to one type have one value. -/
theorem value_of_same {m result : Expr} (hm : m.IsPut) (hresult : result.IsPut)
    (hcast : result.isCast = true) (hti : m.typeInfo = result.typeInfo)
    (h : m.operatorEq result = .ok true) : S.value m = S.value result := by
  cases hresult.kind with
  | column hc => cases result <;> cases hc <;> cases hcast
  | constant => cases hcast
  | cast ti b ti₁ n d =>
    obtain ⟨ti', b', ti₁', n', d', rfl, heq⟩ := cast_of_same hm h
    obtain rfl : ti' = ti := hti
    exact S.value_cast rfl rfl (by rwa [operatorEq])

/-- The branch that a row takes, where it is put into the set. -/
theorem put_of_taken (hstops : (e.listing false).stops = false) (h : Covered S e) :
    e.SaysNothing ∨
      ∃ m ∈ Distinct.keep operatorEq [] (e.listing false).exprs, S.value m = S.caseValue e := by
  cases h with
  | unknown h => exact .inl h
  | plain result htaken hplain =>
    have hatom : result.isAtom = true := by
      cases result <;> cases hplain <;> rfl
    obtain ⟨m, hm, hvalue⟩ :=
      S.put_of_isPlain (mem_listing_of_taken S hstops htaken hatom) hplain
    exact .inr ⟨m, hm, hvalue.trans (S.caseValue_of_taken htaken).symm⟩
  | put before after result htaken hput hbefore =>
    have hisPut : ∀ m ∈ before ++ result :: after, m.IsPut := fun m hm =>
      isPut_of_mem_listing (hput ▸ hm)
    rw [hput, S.caseValue_of_taken htaken]
    have hkept : ∃ m ∈ Distinct.keep operatorEq [] (before ++ result :: after),
        m = result ∨ (m ∈ [] ∨ m ∈ before) ∧ Distinct.same operatorEq m result = true :=
      exists_mem_keep_append
    obtain ⟨m, hm, rfl | ⟨hearlier, hsame⟩⟩ := hkept
    · exact .inr ⟨m, hm, rfl⟩
    · have hmem : m ∈ before := hearlier.resolve_left not_mem_nil
      obtain ⟨hcast, hti⟩ := hbefore m hmem (same_iff.1 hsame)
      exact .inr ⟨m, hm, S.value_of_same (hisPut m (mem_append_left _ hmem))
        (hisPut result (mem_append_right _ mem_cons_self)) hcast hti (same_iff.1 hsame)⟩
  | elseCast result c htaken hcast hput hvalue =>
    obtain ⟨-, -, -, hc⟩ := castConstant_eq_some hcast
    have hplain : c.isPlain = true := by
      cases c <;> cases hc
      rfl
    obtain ⟨m, hm, hm'⟩ := S.put_of_isPlain hput hplain
    exact .inr ⟨m, hm, hm'.trans (hvalue.symm.trans (S.caseValue_of_taken (.inr htaken)).symm)⟩

end Row

/-- The set is empty or has the value of the expression, on a row, if no
comparison of two branches fails and the row takes no branch that the set
leaves out; and only then, where no other branch has its value. -/
theorem getDomain_covers (S : Row V) (e : Expr) :
    (e.Comparable ∧ Covered S e → S.DomainCovers e)
      ∧ (S.DomainCovers e → e.Comparable ∧ (Apart S e → Covered S e)) := by
  constructor
  · rintro ⟨hcomparable, hcovered⟩
    refine ⟨_, getDomain_eq_ok.2 ⟨hcomparable, rfl⟩, ?_⟩
    cases hstops : (e.listing false).stops with
    | true => exact .inl rfl
    | false =>
      rcases S.put_of_taken hstops hcovered with (h | h) | hput
      · exact absurd (h.symm.trans hstops) Bool.noConfusion
      · exact .inl (keep_eq_nil.2 ⟨rfl, h⟩)
      · exact .inr hput
  · rintro ⟨D, hD, hcovers⟩
    obtain ⟨hcomparable, rfl⟩ := getDomain_eq_ok.1 hD
    refine ⟨hcomparable, fun hapart => ?_⟩
    cases hstops : (e.listing false).stops with
    | true => exact .unknown (.inl hstops)
    | false =>
      rw [hstops, if_neg Bool.false_ne_true] at hcovers
      rcases hcovers with hnil | ⟨m, hm, hvalue⟩
      · exact .unknown (.inr (keep_eq_nil.1 hnil).2)
      · have hmem := (mem_of_mem_keep hm).resolve_left not_mem_nil
        obtain ⟨before, after, hput⟩ := append_of_mem hmem
        have hbefore : ∀ m' ∈ before, m'.operatorEq m ≠ .ok true := fun m' hm' =>
          (pairwise_append.1 (hput ▸ hapart.branches)).2.2 m' hm' m mem_cons_self
        rcases hapart.values m hmem hvalue with h | h | ⟨result, h, hcast⟩
        · exact .put before after m (.inl h) hput fun m' hm' heq => absurd heq (hbefore m' hm')
        · exact .put before after m (.inr h) hput fun m' hm' heq => absurd heq (hbefore m' hm')
        · refine .elseCast result m h hcast hmem ?_
          rw [← S.caseValue_of_taken (.inr h), hvalue]

-- A column whose values are numbers, next to constants that are zero.
def numbersValue : Expr → Option Int
  | .constant _ isNull _ => if isNull then none else some 0
  | .columnVar _ _ columnId _ | .var _ _ columnId .. => some columnId
  | .uoper _ _ _ operand => numbersValue operand
  | _ => none

/-- A row on which a column is its own number and no predicate holds. -/
def numbers : Row Int where
  value := numbersValue
  eq := (· == ·)
  predicate _ := .no
  value_eq {e e'} he he' h := by
    cases e' with
    | constant ti n d =>
      obtain ⟨ti', n', d', rfl, heq⟩ := constant_of_same (.inl he) h
      obtain ⟨-, rfl, -⟩ := constantEq_eq_true.1 heq
      rfl
    | columnVar ti tableId columnId rteIdx =>
      cases e <;> cases he <;> rw [operatorEq] at h
      case columnVar.columnVar.refl | columnVar.var.refl =>
        rw [Except.ok.injEq, columnVarEq] at h
        split at h
        · simp only [Bool.and_eq_true, decide_eq_true_eq] at h
          exact congrArg some h.1.2
        · exact absurd h Bool.false_ne_true
      case columnVar.constant.refl => exact absurd (Except.ok.inj h) Bool.false_ne_true
    | _ => cases he'
  value_cast {ti b b' c c'} hc hc' h := by
    cases c <;> cases hc
    cases c' <;> cases hc'
    rw [operatorEq] at h
    obtain ⟨-, rfl, -⟩ := constantEq_eq_true.1 h
    rfl

/-- `CASE WHEN NOT p THEN CAST(0 AS INT) ELSE y END`. -/
def castOrColumn : Expr :=
  .caseExpr (.plain .kINT false) false
    [(.uoper (.plain .kBOOLEAN false) false .kNOT (.columnVar (.plain .kBOOLEAN false) 1 2 0),
      .uoper (.plain .kINT true) false .kCAST (.constant (.plain .kSMALLINT true) false (.ofInt 0)))]
    (some (.columnVar (.plain .kINT false) 1 1 0))

/-- The row takes the cast, which is put into the set first. -/
theorem castOrColumn_covered : numbers.DomainCovers castOrColumn := by
  refine (getDomain_covers numbers castOrColumn).1 ⟨?_, .put [] _ _ (.inl rfl) rfl nofun⟩
  exact pairwise_pair.2 ⟨false, operatorEq_cast_atom rfl⟩

/-- `CASE WHEN p THEN 0 ELSE CAST(y AS INT) END`. -/
def zeroOrCast : Expr :=
  .caseExpr (.plain .kINT false) false
    [(.columnVar (.plain .kBOOLEAN false) 1 2 0, .constant (.plain .kINT true) false (.ofInt 0))]
    (some (.uoper (.plain .kINT false) false .kCAST
      (.columnVar (.plain .kSMALLINT false) 1 1 0)))

/-- The ELSE branch, which is 1, is in no set. -/
theorem zeroOrCast_not_covered : ¬ numbers.DomainCovers zeroOrCast := by
  rintro ⟨D, hD, hcovers⟩
  obtain rfl := Except.ok.inj
    ((by rfl : zeroOrCast.getDomain [] = .ok [.constant (.plain .kINT true) false (.ofInt 0)]).symm
      |>.trans hD)
  rcases hcovers with hnil | ⟨m, hm, hvalue⟩
  · exact absurd hnil (cons_ne_nil _ _)
  · rw [mem_singleton.1 hm] at hvalue
    exact absurd (Option.some.inj hvalue) (by decide)

end Compass.Analyzer
