/-
When the recognition of null-safe equalities is all or nothing.

`get_bitwise_equals` is: it takes its operands only once everything has
matched (`getBitwiseEquals_cases`). The conjunction is not. It gives up
when its first conjunct does not match, but puts what a later one returns
under the new AND without looking, so that a later conjunct that is not
recognised leaves a null pointer there, and by then the sides of the
first equality are gone from the input (`bitwiseEqualsConjuncts_spec`).

So the result is as it should be exactly when the condition is recognised
as a whole or does not start with an equality
(`preserved_iff_recognised`).

What `reverse_logical_distribution` does to the truth of an expression.

# The argument

An expression is the disjunction of its disjunctive form
(`any_disjunctiveForm`), a disjunct the conjunction of its conjunctive
form (`all_conjunctiveForm`). The common factors are parts of every
disjunct (`mem_commonFactors`), so a disjunct is the common part and its
remaining quals (`truth_term`), and the expression is the common part
and the disjunction of all the remainders.

# Where it goes wrong

A disjunct whose quals are all common has the empty remainder, which is
true. The loop skips it instead, and the expression that is built has
only the other remainders (`truth_result`). `(p AND q) OR p` is `p`, and
comes out as `p AND q`. The step is faithful exactly when no skipped
disjunct adds anything: there is none, or all are skipped, or the other
disjuncts are at least as true whenever it matters (`NothingLost`).
-/
import Compass.JoinQuals.Quals

namespace Compass.JoinQuals

open Compass.PushDown List

namespace Scalar

variable {D : Type}

variable {e : Scalar D} {es : List (Scalar D)}

-- ======== values

variable {ti : SQLTypeInfo}

theorem IsNullSafeEq.not_conjunction (h : e.IsNullSafeEq) : e ≠ .oper .kAND es ti := by
  obtain ⟨s, i, t, j, _, _, _, _, _, rfl⟩ := h
  intro heq
  cases heq

/-- A conjunction of two, in terms of what it is built from. -/
theorem eval_and (I : Interp D) (col : Nat → Nat → Value D) (a b : Scalar D) (ti : SQLTypeInfo) :
    (Scalar.oper .kAND [a, b] ti).eval I col
      = .ofTruth ((a.eval I col).truth ⊓ (b.eval I col).truth) := by
  simp only [eval, evals, Interp.operValue, map_cons, map_nil, Truth.all_cons,
    Truth.all_nil, inf_top_eq]

theorem evals_eq_map (I : Interp D) (col : Nat → Nat → Value D) (es : List (Scalar D)) :
    evals I col es = es.map (eval I col) := by
  induction es with
  | nil => rfl
  | cons e es ih => rw [evals, ih, map_cons]

-- ======== shapes

@[simp] theorem not_noNull : ¬ (Scalar.null : Scalar D).NoNull := by
  intro h
  cases h

@[simp] theorem noNull_input (source index : Nat) : (Scalar.input source index : Scalar D).NoNull :=
  .input source index

@[simp] theorem noNull_other (e : Rex D) : (Scalar.other e).NoNull :=
  .other e

@[simp] theorem noNull_oper {op : SQLOps} : (Scalar.oper op es ti).NoNull ↔ ∀ e ∈ es, e.NoNull := by
  constructor
  · intro h
    cases h with
    | oper _ _ h => exact h
  · exact .oper op ti

@[simp] theorem arities_input (source index : Nat) :
    (Scalar.input source index : Scalar D).Arities :=
  .input source index

@[simp] theorem arities_other (e : Rex D) : (Scalar.other e).Arities :=
  .other e

@[simp] theorem arities_oper {op : SQLOps} :
    (Scalar.oper op es ti).Arities ↔ Arity op es.length ∧ ∀ e ∈ es, e.Arities := by
  constructor
  · intro h
    cases h with
    | oper _ _ hlen hes => exact ⟨hlen, hes⟩
  · rintro ⟨hlen, hes⟩
    exact .oper op ti hlen hes

-- ======== equalities

/-- What is returned for an equality means the same. -/
theorem eval_bwEq {I : Interp D} (hI : LowersBwEq I) (col : Nat → Nat → Value D)
    (a b : Scalar D) (eqType lhsType rhsType andType orType : SQLTypeInfo) :
    (Scalar.oper .kBW_EQ [a, b] eqType).eval I col
      = (Scalar.oper .kOR [.oper .kEQ [a, b] eqType,
          .oper .kAND [.oper .kISNULL [a] lhsType, .oper .kISNULL [b] rhsType] andType]
          orType).eval I col := by
  simp only [eval, evals]
  rw [hI eqType lhsType andType orType]
  rfl

/-- Without a match nothing changes; with one, the equality is returned. -/
theorem getBitwiseEquals_cases (h : e.Arities) :
    (e.IsNullSafeEq ∧ ∃ r left, e.getBitwiseEquals = some (some r, left) ∧ r.NoNull
        ∧ ∀ I : Interp D, LowersBwEq I → ∀ col, r.eval I col = e.eval I col)
      ∨ (¬ e.IsNullSafeEq ∧ e.getBitwiseEquals = some (none, e)) := by
  unfold getBitwiseEquals
  split
  · rename_i eq both orType
    obtain ⟨-, hsides⟩ := arities_oper.mp h
    have heq := hsides eq (by simp)
    have hboth := hsides both (by simp)
    split
    · rename_i eqOps eqType l lhsType r rhsType andType
      obtain ⟨-, hnulls⟩ := arities_oper.mp hboth
      have hl := (arities_oper.mp (hnulls (.oper .kISNULL l lhsType) (by simp))).1
      have hr := (arities_oper.mp (hnulls (.oper .kISNULL r rhsType) (by simp))).1
      obtain ⟨nl, rfl⟩ := length_eq_one_iff.mp hl
      obtain ⟨nr, rfl⟩ := length_eq_one_iff.mp hr
      obtain ⟨a, b, rfl⟩ := length_eq_two.mp (arities_oper.mp heq).1
      dsimp only
      split
      · rename_i s i t j s' i' t' j'
        split
        · rename_i hsame
          obtain ⟨⟨rfl, rfl⟩, rfl, rfl⟩ := hsame
          refine .inl ⟨⟨s, i, t, j, eqType, lhsType, rhsType, andType, orType, rfl⟩, _, _, rfl,
            ?_, ?_⟩
          · simp
          · intro I hI col
            exact eval_bwEq hI col _ _ _ _ _ _ _
        · rename_i hdiffer
          refine .inr ⟨?_, rfl⟩
          rintro ⟨_, _, _, _, _, _, _, _, _, hshape⟩
          cases hshape
          exact hdiffer ⟨⟨rfl, rfl⟩, rfl, rfl⟩
      · rename_i hno
        refine .inr ⟨?_, rfl⟩
        rintro ⟨s, i, t, j, _, _, _, _, _, hshape⟩
        cases hshape
        exact hno _ _ _ _ _ _ _ _ rfl rfl rfl rfl
    · rename_i hno
      refine .inr ⟨?_, rfl⟩
      rintro ⟨s, i, t, j, _, _, _, _, _, hshape⟩
      cases hshape
      exact hno _ _ _ _ _ _ _ rfl rfl
  · rename_i hno
    refine .inr ⟨?_, rfl⟩
    rintro ⟨s, i, t, j, _, _, _, _, _, rfl⟩
    exact hno _ _ _ rfl

-- ======== conjunctions

/-- A condition that is recognised becomes one that has the same value.
One that is not recognised is left alone, unless it starts with an
equality: then a null pointer is returned inside. -/
structure Spec (e : Scalar D) : Prop where
  recognised : e.Recognised → ∃ r left,
    e.getBitwiseEqualsConjunction = some (some r, left) ∧ r.NoNull
      ∧ ∀ I : Interp D, LowersBwEq I → ∀ col, r.eval I col = e.eval I col
  broken : ¬ e.Recognised → e.StartsWithNullSafeEq → ∃ r left,
    e.getBitwiseEqualsConjunction = some (some r, left) ∧ ¬ r.NoNull
  unchanged : ¬ e.Recognised → ¬ e.StartsWithNullSafeEq →
    e.getBitwiseEqualsConjunction = some (none, e)

/-- What a conjunct gives to the loop: a pointer that is whole when the
conjunct is recognised, and then has its value. -/
theorem Spec.result (h : e.Spec) :
    ∃ r left, e.getBitwiseEqualsConjunction = some (r, left)
      ∧ ((r.getD .null).NoNull ↔ e.Recognised)
      ∧ (e.Recognised → ∀ I : Interp D, LowersBwEq I → ∀ col,
          (r.getD .null).eval I col = e.eval I col) := by
  by_cases hrec : e.Recognised
  · obtain ⟨r, left, heq, hnull, hval⟩ := h.recognised hrec
    exact ⟨some r, left, heq, iff_of_true hnull hrec, fun _ => hval⟩
  by_cases hstart : e.StartsWithNullSafeEq
  · obtain ⟨r, left, heq, hnull⟩ := h.broken hrec hstart
    exact ⟨some r, left, heq, iff_of_false hnull hrec, fun hc => absurd hc hrec⟩
  · exact ⟨none, e, h.unchanged hrec hstart, iff_of_false not_noNull hrec, fun hc => absurd hc hrec⟩

/-- The loop. The invariant is that the conjunction built so far is whole
when all conjuncts passed were recognised. -/
theorem bitwiseEqualsConjuncts_spec (ti : SQLTypeInfo) (hes : ∀ e ∈ es, e.Spec) (acc : Scalar D) :
    ∃ r left, bitwiseEqualsConjuncts ti acc es = some (r, left)
      ∧ (r.NoNull ↔ acc.NoNull ∧ ∀ e ∈ es, e.Recognised)
      ∧ (es ≠ [] → (∀ e ∈ es, e.Recognised) → ∀ I : Interp D, LowersBwEq I → ∀ col,
          r.eval I col = .ofTruth ((acc.eval I col).truth
            ⊓ Truth.all (es.map fun e => (e.eval I col).truth))) := by
  induction es generalizing acc with
  | nil =>
    refine ⟨acc, [], rfl, ?_, fun hne => absurd rfl hne⟩
    simp
  | cons e es ih =>
    obtain ⟨r, left, heq, hnull, hval⟩ := (hes e mem_cons_self).result
    obtain ⟨r', left', heq', hnull', hval'⟩ :=
      ih (fun x hx => hes x (mem_cons_of_mem _ hx)) (.oper .kAND [acc, r.getD .null] ti)
    refine ⟨r', left :: left', ?_, ?_, ?_⟩
    · rw [bitwiseEqualsConjuncts, heq]
      simp only [Option.bind_eq_bind, Option.bind_some, heq']
    · rw [hnull', noNull_oper, forall_mem_cons, forall_mem_singleton, hnull,
        forall_mem_cons, and_assoc]
    · intro _ hall I hI col
      rw [forall_mem_cons] at hall
      have hfirst : ((Scalar.oper .kAND [acc, r.getD .null] ti).eval I col)
          = .ofTruth ((acc.eval I col).truth ⊓ (e.eval I col).truth) := by
        rw [eval_and, hval hall.1 I hI col]
      rw [map_cons, Truth.all_cons]
      by_cases hes' : es = []
      · subst hes'
        obtain ⟨rfl, -⟩ : r' = _ ∧ left' = [] := by
          simpa [bitwiseEqualsConjuncts, eq_comm] using heq'
        rw [hfirst, map_nil, Truth.all_nil, inf_top_eq]
      · rw [hval' hes' hall.2 I hI col, hfirst, Value.truth_ofTruth, inf_assoc]

/-- What is no conjunction is an equality or is left alone. -/
theorem spec_of_not_conjunction (h : e.Arities) (hop : ∀ es ti, e ≠ .oper .kAND es ti) :
    e.Spec := by
  have hconj : e.getBitwiseEqualsConjunction = e.getBitwiseEquals := by
    unfold getBitwiseEqualsConjunction
    split
    · exact absurd rfl (hop _ _)
    · exact absurd rfl (hop _ _)
    · rfl
  have hrec : e.Recognised ↔ e.IsNullSafeEq := by
    constructor
    · intro hrec
      cases hrec with
      | equality heq => exact heq
      | conjunction => exact absurd rfl (hop _ _)
    · exact .equality
  have hstart : ¬ e.StartsWithNullSafeEq := by
    rintro ⟨first, rest, ti, rfl, -⟩
    exact hop _ _ rfl
  rcases getBitwiseEquals_cases h with ⟨heq, hres⟩ | ⟨hno, hres⟩
  · refine ⟨fun _ => ?_, fun hc => absurd (hrec.mpr heq) hc, fun hc => absurd (hrec.mpr heq) hc⟩
    rw [hconj]
    exact hres
  · refine ⟨fun hc => absurd (hrec.mp hc) hno, fun _ hc => absurd hc hstart, fun _ _ => ?_⟩
    rw [hconj, hres]

theorem recognised_conjunction {first second : Scalar D} {rest : List (Scalar D)} :
    (Scalar.oper .kAND (first :: second :: rest) ti).Recognised
      ↔ first.IsNullSafeEq ∧ ∀ e ∈ second :: rest, e.Recognised := by
  constructor
  · intro h
    cases h with
    | equality h => exact absurd rfl h.not_conjunction
    | conjunction _ hfirst hrest => exact ⟨hfirst, hrest⟩
  · rintro ⟨hfirst, hrest⟩
    exact .conjunction ti hfirst hrest

theorem spec_conjunction {first second : Scalar D} {rest : List (Scalar D)} (ti : SQLTypeInfo)
    (hfirst : first.Arities) (hrest : ∀ e ∈ second :: rest, e.Spec) :
    (Scalar.oper .kAND (first :: second :: rest) ti).Spec := by
  rcases getBitwiseEquals_cases hfirst with ⟨heq, acc, left, hres, hnull, hval⟩ | ⟨hno, hres⟩
  · obtain ⟨r, left', hloop, hnull', hval'⟩ := bitwiseEqualsConjuncts_spec ti hrest acc
    have hrun : (Scalar.oper .kAND (first :: second :: rest) ti).getBitwiseEqualsConjunction
        = some (some r, .oper .kAND (left :: left') ti) := by
      rw [getBitwiseEqualsConjunction, hres]
      simp only [Option.bind_eq_bind, Option.bind_some, hloop]
    refine ⟨fun hrec => ⟨_, _, hrun, ?_, ?_⟩, fun hrec _ => ⟨_, _, hrun, ?_⟩, fun _ hstart => ?_⟩
    · exact hnull'.mpr ⟨hnull, (recognised_conjunction.mp hrec).2⟩
    · intro I hI col
      rw [hval' (cons_ne_nil _ _) (recognised_conjunction.mp hrec).2 I hI col,
        hval I hI col, eval, evals_eq_map]
      simp only [Interp.operValue, map_cons, map_map, Truth.all_cons, Function.comp_def]
    · intro hwhole
      exact hrec (recognised_conjunction.mpr ⟨heq, (hnull'.mp hwhole).2⟩)
    · exact absurd ⟨first, second :: rest, ti, rfl, heq⟩ hstart
  · have hrun : (Scalar.oper .kAND (first :: second :: rest) ti).getBitwiseEqualsConjunction
        = some (none, .oper .kAND (first :: second :: rest) ti) := by
      rw [getBitwiseEqualsConjunction, hres]
      rfl
    refine ⟨fun hrec => ?_, fun _ hstart => ?_, fun _ _ => hrun⟩
    · exact absurd (recognised_conjunction.mp hrec).1 hno
    · obtain ⟨_, _, _, hshape, heq⟩ := hstart
      cases hshape
      exact absurd heq hno

theorem getBitwiseEqualsConjunction_spec (h : e.Arities) : e.Spec := by
  induction h with
  | null => exact spec_of_not_conjunction .null (by simp)
  | input source index => exact spec_of_not_conjunction (.input _ _) (by simp)
  | other e => exact spec_of_not_conjunction (.other _) (by simp)
  | @oper op ti es hlen hes ih =>
    by_cases hop : op = .kAND
    · subst hop
      match es, hlen, hes, ih with
      | first :: second :: rest, _, hes, ih =>
        exact spec_conjunction ti (hes first mem_cons_self)
          fun e he => ih e (mem_cons_of_mem _ he)
    · refine spec_of_not_conjunction (.oper op ti hlen hes) ?_
      intro es' ti' heq
      cases heq
      exact hop rfl

end Scalar

-- ======== results

variable {D : Type}

/-- The step is all or nothing, and keeps the meaning, on the conditions
that do not start with an equality and on those that are recognised as a
whole, and on no others. -/
theorem preserved_iff_recognised (c : JoinCondition D) :
    c.Preserved ↔ (c.scalar.StartsWithNullSafeEq → c.scalar.Recognised) := by
  have hspec := Scalar.getBitwiseEqualsConjunction_spec c.arities
  constructor
  · intro hpres hstart
    by_contra hrec
    obtain ⟨r, left, hrun, hnull⟩ := hspec.broken hrec hstart
    rcases hpres with hkept | ⟨r', left', hrun', hnull', -⟩
    · rw [hrun] at hkept
      cases hkept
    · rw [hrun] at hrun'
      cases hrun'
      exact hnull hnull'
  · intro h
    by_cases hrec : c.scalar.Recognised
    · exact .inr (hspec.recognised hrec)
    · exact .inl (hspec.unchanged hrec (mt h hrec))

/-- `(a = b OR (a IS NULL AND b IS NULL)) AND a > 5`. -/
def equalityAndComparison : JoinCondition Nat :=
  let bool : SQLTypeInfo := ⟨.kBOOLEAN, false, 1⟩
  { scalar := .oper .kAND
      [.oper .kOR [.oper .kEQ [.input 0 0, .input 1 0] bool,
          .oper .kAND [.oper .kISNULL [.input 0 0] bool, .oper .kISNULL [.input 1 0] bool] bool]
          bool,
        .oper .kGT [.input 0 0, .other (.literal (.scalar 5))] bool] bool
    noNull := by simp
    arities := by simp [Scalar.Arity] }

/-- The comparison is lost: its place under the new AND is null. -/
theorem equalityAndComparison_not_preserved : ¬ equalityAndComparison.Preserved := by
  obtain ⟨left, hrun⟩ : ∃ left, equalityAndComparison.scalar.getBitwiseEqualsConjunction
      = some (some (.oper .kAND [.oper .kBW_EQ [.input 0 0, .input 1 0] ⟨.kBOOLEAN, false, 1⟩,
          .null] ⟨.kBOOLEAN, false, 1⟩), left) := ⟨_, rfl⟩
  rintro (hkept | ⟨r, left', hrun', hnull, -⟩)
  · rw [hrun] at hkept
    cases hkept
  · rw [hrun] at hrun'
    cases hrun'
    simp at hnull

end Compass.JoinQuals

namespace Compass.JoinQuals

open List

variable {α : Type}

-- ======== normal forms

/-- The values of a list of expressions. -/
def truths (v : α → Truth) (es : List (BoolExpr α)) : List Truth :=
  es.map (BoolExpr.truth v)

theorem mem_truths {v : α → Truth} {es : List (BoolExpr α)} {e : BoolExpr α}
    (h : e ∈ es) : e.truth v ∈ truths v es :=
  mem_map_of_mem h

theorem truths_ne_nil {v : α → Truth} {es : List (BoolExpr α)}
    (h : es ≠ []) : truths v es ≠ [] := by
  unfold truths
  rwa [ne_eq, map_eq_nil_iff]

theorem qualToDisjunctiveForm_ne_nil (e : BoolExpr α) :
    qualToDisjunctiveForm e ≠ [] := by
  induction e with
  | or l r ihl _ =>
    intro h
    exact ihl (append_eq_nil_iff.mp h).1
  | atom a | not e _ | and l r _ _ => exact cons_ne_nil _ _

/-- An expression is the disjunction of its disjuncts. -/
theorem any_disjunctiveForm (v : α → Truth) (e : BoolExpr α) :
    Truth.any (truths v (qualToDisjunctiveForm e)) = e.truth v := by
  induction e with
  | or l r ihl ihr =>
    unfold truths at ihl ihr ⊢
    rw [qualToDisjunctiveForm, map_append, Truth.any_append, ihl, ihr]
    rfl
  | atom a | not e _ | and l r _ _ => exact sup_bot_eq _

section

variable (normalize : α → Option α)

/-- All conjuncts, simple or not. -/
def QualsConjunctiveForm.conjuncts (cf : QualsConjunctiveForm α) :
    List (BoolExpr α) :=
  cf.simpleQuals ++ cf.quals

/-- A disjunct is the conjunction of its quals, turned around or not. -/
theorem all_conjunctiveForm (v : Assignment normalize) (e : BoolExpr α) :
    Truth.all (truths v.value (qualToConjunctiveForm normalize e).conjuncts)
      = e.truth v.value := by
  unfold truths QualsConjunctiveForm.conjuncts
  induction e with
  | and l r ihl ihr =>
    rw [map_append, Truth.all_append] at ihl ihr
    simp only [qualToConjunctiveForm, map_append, Truth.all_append]
    rw [BoolExpr.truth, ← ihl, ← ihr]
    exact inf_inf_inf_comm _ _ _ _
  | atom a =>
    cases h : normalize a with
    | none => simp [qualToConjunctiveForm, h, BoolExpr.truth]
    | some q =>
      simp [qualToConjunctiveForm, h, BoolExpr.truth, v.normalized h]
  | or l r _ _ | not e _ => simp [qualToConjunctiveForm]

-- ======== rebuilding

theorem truth_foldl_and (v : α → Truth) (factors : List (BoolExpr α)) :
    ∀ front : BoolExpr α, (factors.foldl .and front).truth v
      = front.truth v ⊓ Truth.all (truths v factors) := by
  induction factors with
  | nil =>
    intro front
    exact (inf_top_eq _).symm
  | cons f factors ih =>
    intro front
    rw [foldl_cons, ih]
    exact inf_assoc _ _ _

theorem truth_foldl_or (v : α → Truth) (factors : List (BoolExpr α)) :
    ∀ front : BoolExpr α, (factors.foldl .or front).truth v
      = front.truth v ⊔ Truth.any (truths v factors) := by
  induction factors with
  | nil =>
    intro front
    exact (sup_bot_eq _).symm
  | cons f factors ih =>
    intro front
    rw [foldl_cons, ih]
    exact sup_assoc _ _ _

section

variable {factors : List (BoolExpr α)} (hne : factors ≠ [])
include hne

theorem build_and : ∃ e, buildLogicalExpression .and factors = some e
      ∧ ∀ v, e.truth v = Truth.all (truths v factors) := by
  cases factors with
  | nil => exact absurd rfl hne
  | cons f factors => exact ⟨_, rfl, fun v => truth_foldl_and v factors f⟩

theorem build_or : ∃ e, buildLogicalExpression .or factors = some e
      ∧ ∀ v, e.truth v = Truth.any (truths v factors) := by
  cases factors with
  | nil => exact absurd rfl hne
  | cons f factors => exact ⟨_, rfl, fun v => truth_foldl_or v factors f⟩

end

-- ======== common factors

variable [DecidableEq α]

theorem listContainsExpression_iff {haystack : List (BoolExpr α)} {needle : BoolExpr α} :
    listContainsExpression haystack needle = true ↔ needle ∈ haystack := by
  unfold listContainsExpression
  rw [any_eq_true]
  constructor
  · intro h
    obtain ⟨qual, hqual, heq⟩ := h
    rwa [eq_of_beq heq] at hqual
  · intro h
    exact ⟨needle, h, beq_self_eq_true needle⟩

/-- A factor that every one of several disjuncts has, not counting the
simple ones. -/
def IsCommonFactor (expr q : BoolExpr α) : Prop :=
  2 ≤ (qualToDisjunctiveForm expr).length
    ∧ ∀ t ∈ qualToDisjunctiveForm expr, q ∈ (qualToConjunctiveForm normalize t).quals

omit [DecidableEq α] in
variable {expr : BoolExpr α} {common : List (BoolExpr α)}
variable {q : BoolExpr α}

omit [DecidableEq α] in
theorem isCommonFactor_of_eq_cons {first : BoolExpr α} {terms : List (BoolExpr α)}
    (h : qualToDisjunctiveForm expr = first :: terms) : IsCommonFactor normalize expr q ↔
      q ∈ (qualToConjunctiveForm normalize first).quals ∧ terms ≠ []
        ∧ ∀ t ∈ terms, q ∈ (qualToConjunctiveForm normalize t).quals := by
  unfold IsCommonFactor
  rw [h]
  cases terms with
  | nil | cons t terms => simp

theorem mem_commonFactors : q ∈ commonFactors normalize (qualToDisjunctiveForm expr)
      ↔ IsCommonFactor normalize expr q := by
  cases h : qualToDisjunctiveForm expr with
  | nil => exact absurd h (qualToDisjunctiveForm_ne_nil expr)
  | cons first terms =>
    rw [isCommonFactor_of_eq_cons normalize h]
    unfold commonFactors
    simp only [mem_filter, Bool.and_eq_true, Bool.not_eq_true', isEmpty_eq_false_iff, all_eq_true,
      listContainsExpression_iff, ne_eq]

-- ======== remainders

variable {t : BoolExpr α}

theorem mem_remainingQuals : q ∈ remainingQuals normalize common t
      ↔ q ∈ (qualToConjunctiveForm normalize t).simpleQuals
        ∨ (q ∈ (qualToConjunctiveForm normalize t).quals ∧ q ∉ common) := by
  unfold remainingQuals
  simp only [mem_append, mem_filter, Bool.not_eq_true',
    ← Bool.not_eq_true, listContainsExpression_iff]

/-- A disjunct is the common part and its remaining quals. -/
theorem truth_term (v : Assignment normalize) (ht : t ∈ qualToDisjunctiveForm expr)
    (hcommon : common = commonFactors normalize (qualToDisjunctiveForm expr)) :
    t.truth v.value = Truth.all (truths v.value common)
      ⊓ Truth.all (truths v.value (remainingQuals normalize common t)) := by
  rw [← all_conjunctiveForm normalize v t, ← Truth.all_append]
  unfold truths QualsConjunctiveForm.conjuncts
  rw [← map_append]
  -- the two lists have the same members
  apply le_antisymm
  · apply Truth.all_le_all
    intro s hs
    obtain ⟨q, hq, rfl⟩ := mem_map.mp hs
    refine ⟨q.truth v.value, mem_map_of_mem ?_, le_rfl⟩
    rcases mem_append.mp hq with hq | hq
    · rw [hcommon, mem_commonFactors] at hq
      exact mem_append_right _ (hq.2 t ht)
    · rcases (mem_remainingQuals normalize).mp hq with hq | hq
      · exact mem_append_left _ hq
      · exact mem_append_right _ hq.1
  · apply Truth.all_le_all
    intro s hs
    obtain ⟨q, hq, rfl⟩ := mem_map.mp hs
    refine ⟨q.truth v.value, mem_map_of_mem ?_, le_rfl⟩
    rw [mem_append, mem_remainingQuals]
    rcases mem_append.mp hq with hq | hq
    · exact Or.inr (Or.inl hq)
    · by_cases hc : q ∈ common
      · exact Or.inl hc
      · exact Or.inr (Or.inr ⟨hq, hc⟩)

/-- Every factor of the disjunct is common to all of them, and none is
simple: nothing of it remains. -/
def Exhausted (expr t : BoolExpr α) : Prop :=
  (qualToConjunctiveForm normalize t).simpleQuals = []
    ∧ ∀ q ∈ (qualToConjunctiveForm normalize t).quals, IsCommonFactor normalize expr q

theorem exhausted_iff (hcommon : common = commonFactors normalize (qualToDisjunctiveForm expr)) :
    Exhausted normalize expr t
      ↔ remainingQuals normalize common t = [] := by
  rw [eq_nil_iff_forall_not_mem]
  simp only [mem_remainingQuals, not_or, not_and, not_not]
  unfold Exhausted
  rw [eq_nil_iff_forall_not_mem]
  subst hcommon
  simp only [mem_commonFactors]
  constructor
  · intro h q
    exact ⟨h.1 q, h.2 q⟩
  · intro h
    exact ⟨fun q => (h q).1, fun q => (h q).2⟩

-- ======== the result

omit [DecidableEq α] in
theorem conjuncts_ne_nil (e : BoolExpr α) :
    (qualToConjunctiveForm normalize e).conjuncts ≠ [] := by
  unfold QualsConjunctiveForm.conjuncts
  induction e with
  | and l r ihl _ =>
    intro h
    simp only [qualToConjunctiveForm, append_eq_nil_iff] at h
    exact ihl (append_eq_nil_iff.mpr ⟨h.1.1, h.2.1⟩)
  | atom a => cases h : normalize a <;> simp [qualToConjunctiveForm, h]
  | or l r _ _ | not e _ => simp [qualToConjunctiveForm]

/-- Without common factors no disjunct is exhausted. -/
theorem not_exhausted_of_no_common
    (hcommon : commonFactors normalize (qualToDisjunctiveForm expr) = []) :
    ¬ Exhausted normalize expr t := by
  intro h
  apply conjuncts_ne_nil normalize t
  unfold QualsConjunctiveForm.conjuncts
  rw [h.1, nil_append, eq_nil_iff_forall_not_mem]
  intro q hq
  have hmem := (mem_commonFactors normalize).mpr (h.2 q hq)
  rw [hcommon] at hmem
  cases hmem

/-- The terms that are rebuilt, one for every disjunct that is not
exhausted. -/
theorem mem_remainingTerms {terms : List (BoolExpr α)} {s : BoolExpr α} :
    s ∈ remainingTerms normalize common terms ↔
      ∃ t ∈ terms, remainingQuals normalize common t ≠ []
        ∧ buildLogicalExpression .and (remainingQuals normalize common t)
          = some s := by
  unfold remainingTerms
  rw [mem_filterMap]
  constructor
  · intro h
    obtain ⟨t, ht, hs⟩ := h
    by_cases hq : remainingQuals normalize common t = []
    · simp [hq] at hs
    · simp only [List.isEmpty_iff, hq, if_false] at hs
      exact ⟨t, ht, hq, hs⟩
  · intro h
    obtain ⟨t, ht, hq, hs⟩ := h
    refine ⟨t, ht, ?_⟩
    simp only [List.isEmpty_iff, hq, if_false]
    exact hs

/-- With common factors, and a disjunct that is not exhausted, the result
is as true as the truest of these disjuncts. -/
theorem result_of_remaining
    (hcommon : common = commonFactors normalize (qualToDisjunctiveForm expr)) (hne : common ≠ [])
    (hrem : ∃ t ∈ qualToDisjunctiveForm expr, ¬ Exhausted normalize expr t) :
    ∃ e', reverseLogicalDistribution normalize expr = some e'
      ∧ ∀ (v : Assignment normalize) (x : Truth), x ≤ e'.truth v.value ↔
        ∃ t ∈ qualToDisjunctiveForm expr, ¬ Exhausted normalize expr t
          ∧ x ≤ t.truth v.value := by
  have hbuilt : ∀ t, ¬ Exhausted normalize expr t →
      ∃ s, buildLogicalExpression .and (remainingQuals normalize common t)
          = some s
        ∧ ∀ v, s.truth v
          = Truth.all (truths v (remainingQuals normalize common t)) := by
    intro t ht
    rw [exhausted_iff normalize hcommon] at ht
    exact build_and ht
  have hremne : remainingTerms normalize common (qualToDisjunctiveForm expr)
      ≠ [] := by
    obtain ⟨t, ht, hex⟩ := hrem
    obtain ⟨s, hs, -⟩ := hbuilt t hex
    rw [exhausted_iff normalize hcommon] at hex
    exact ne_nil_of_mem
      ((mem_remainingTerms normalize).mpr ⟨t, ht, hex, hs⟩)
  obtain ⟨c, hc, htc⟩ := build_and hne
  obtain ⟨r, hr, htr⟩ := build_or hremne
  refine ⟨.and c r, ?_, ?_⟩
  · unfold reverseLogicalDistribution
    simp only [← hcommon, hc, hr, List.isEmpty_iff, hne, hremne, if_false]
    rfl
  · intro v x
    rw [BoolExpr.truth, htc, htr, le_inf_iff, Truth.le_any_iff (truths_ne_nil hremne)]
    constructor
    · intro h
      obtain ⟨hxc, u, hu, hxu⟩ := h
      obtain ⟨s, hs, rfl⟩ := mem_map.mp hu
      obtain ⟨t, ht, hq, hst⟩ := (mem_remainingTerms normalize).mp hs
      have hex : ¬ Exhausted normalize expr t := by
        rwa [exhausted_iff normalize hcommon]
      obtain ⟨s', hs', htruth⟩ := hbuilt t hex
      rw [hst, Option.some.injEq] at hs'
      subst hs'
      refine ⟨t, ht, hex, ?_⟩
      rw [truth_term normalize v ht hcommon, ← htruth]
      exact le_inf hxc hxu
    · intro h
      obtain ⟨t, ht, hex, hxt⟩ := h
      obtain ⟨s, hs, htruth⟩ := hbuilt t hex
      rw [truth_term normalize v ht hcommon, ← htruth, le_inf_iff] at hxt
      rw [exhausted_iff normalize hcommon] at hex
      exact ⟨hxt.1, s.truth v.value,
        mem_truths ((mem_remainingTerms normalize).mpr ⟨t, ht, hex, hs⟩),
        hxt.2⟩

/-- When every disjunct is exhausted, the result is the common part. -/
theorem result_of_exhausted
    (hcommon : common = commonFactors normalize (qualToDisjunctiveForm expr)) (hne : common ≠ [])
    (hall : ∀ t ∈ qualToDisjunctiveForm expr, Exhausted normalize expr t) :
    ∃ e', reverseLogicalDistribution normalize expr = some e'
      ∧ ∀ v : Assignment normalize, e'.truth v.value = expr.truth v.value := by
  have hremnil : remainingTerms normalize common (qualToDisjunctiveForm expr)
      = [] := by
    rw [eq_nil_iff_forall_not_mem]
    intro s hs
    obtain ⟨t, ht, hq, -⟩ := (mem_remainingTerms normalize).mp hs
    exact hq ((exhausted_iff normalize hcommon).mp (hall t ht))
  obtain ⟨c, hc, htc⟩ := build_and hne
  refine ⟨c, ?_, ?_⟩
  · unfold reverseLogicalDistribution
    simp only [← hcommon, hc, List.isEmpty_iff, hne, hremnil, if_false]
    rfl
  · intro v
    have hterm : ∀ t ∈ qualToDisjunctiveForm expr,
        t.truth v.value = Truth.all (truths v.value common) := by
      intro t ht
      rw [truth_term normalize v ht hcommon, (exhausted_iff normalize hcommon).mp (hall t ht)]
      exact inf_top_eq _
    have hnenil := qualToDisjunctiveForm_ne_nil expr
    rw [htc, ← any_disjunctiveForm v.value expr]
    apply le_antisymm
    · rw [Truth.le_any_iff (truths_ne_nil hnenil)]
      obtain ⟨t, ht⟩ := exists_mem_of_ne_nil _ hnenil
      exact ⟨_, mem_truths ht, (hterm t ht).ge⟩
    · rw [Truth.any_le_iff]
      intro u hu
      obtain ⟨t, ht, rfl⟩ := mem_map.mp hu
      exact (hterm t ht).le

/-- No exhausted disjunct is missed under the assignment: all disjuncts
are exhausted, or each exhausted one is at most as true as one that is
not. -/
def NothingLost (v : Assignment normalize) (expr : BoolExpr α) : Prop :=
  (∀ t ∈ qualToDisjunctiveForm expr, Exhausted normalize expr t)
    ∨ ∀ t ∈ qualToDisjunctiveForm expr, Exhausted normalize expr t →
        ∃ t' ∈ qualToDisjunctiveForm expr, ¬ Exhausted normalize expr t'
          ∧ t.truth v.value ≤ t'.truth v.value

/-- `reverse_logical_distribution` always returns an expression, and for
every expression and every assignment its value is the input's exactly
when no exhausted disjunct is missed. -/
theorem reverseLogicalDistribution_truth_iff (expr : BoolExpr α) :
    ∃ e', reverseLogicalDistribution normalize expr = some e'
      ∧ ∀ v : Assignment normalize, e'.truth v.value = expr.truth v.value
          ↔ NothingLost normalize v expr := by
  by_cases hne : commonFactors normalize (qualToDisjunctiveForm expr) = []
  · refine ⟨expr, ?_, ?_⟩
    · unfold reverseLogicalDistribution
      simp only [hne, isEmpty_nil, if_true]
      rfl
    · intro v
      refine iff_of_true rfl (Or.inr ?_)
      intro t _ hex
      exact absurd hex (not_exhausted_of_no_common normalize hne)
  by_cases hall : ∀ t ∈ qualToDisjunctiveForm expr, Exhausted normalize expr t
  · obtain ⟨e', he', htruth⟩ := result_of_exhausted normalize rfl hne hall
    exact ⟨e', he', fun v => iff_of_true (htruth v) (Or.inl hall)⟩
  · have hrem : ∃ t ∈ qualToDisjunctiveForm expr,
        ¬ Exhausted normalize expr t := by
      push Not at hall
      exact hall
    obtain ⟨e', he', hle⟩ := result_of_remaining normalize rfl hne hrem
    refine ⟨e', he', ?_⟩
    intro v
    have hexpr : ∀ x, x ≤ expr.truth v.value ↔
        ∃ t ∈ qualToDisjunctiveForm expr, x ≤ t.truth v.value := by
      intro x
      rw [← any_disjunctiveForm v.value expr, Truth.le_any_iff
        (truths_ne_nil (qualToDisjunctiveForm_ne_nil expr))]
      simp [truths]
    constructor
    · intro heq
      refine Or.inr ?_
      intro t ht _
      rw [← hle v, heq, hexpr]
      exact ⟨t, ht, le_rfl⟩
    · intro hlost
      rcases hlost with hlost | hlost
      · exact absurd hlost hall
      · apply le_antisymm
        · obtain ⟨t, ht, _, hxt⟩ := (hle v _).mp le_rfl
          exact (hexpr _).mpr ⟨t, ht, hxt⟩
        · obtain ⟨t, ht, hxt⟩ := (hexpr _).mp le_rfl
          rw [hle v]
          by_cases hex : Exhausted normalize expr t
          · obtain ⟨t', ht', hex', hle'⟩ := hlost t ht hex
            exact ⟨t', ht', hex', le_trans hxt hle'⟩
          · exact ⟨t, ht, hex, hxt⟩

end

-- ======== a disjunct that is lost

/-- Atoms that are no simple predicates. -/
def noSimple : Nat → Option Nat := fun _ => none

/-- `(p AND q) OR p`. -/
def absorbed : BoolExpr Nat := .or (.and (.atom 0) (.atom 1)) (.atom 0)

/-- `p` is true and `q` is not. -/
def onlyFirst : Assignment noSimple where
  value := fun n => if n = 0 then .yes else .no
  normalized := fun h => by cases h

/-- `(p AND q) OR p` comes out as `p AND q`. -/
theorem reverseLogicalDistribution_loses :
    ¬ ∀ (α : Type) (_ : DecidableEq α) (normalize : α → Option α)
        (expr : BoolExpr α) (v : Assignment normalize),
      ∃ e', reverseLogicalDistribution normalize expr = some e'
        ∧ e'.truth v.value = expr.truth v.value := by
  intro h
  obtain ⟨e', he', htruth⟩ := h Nat inferInstance noSimple absorbed onlyFirst
  have hresult : reverseLogicalDistribution noSimple absorbed
      = some (.and (.atom 0) (.atom 1)) := by
    decide
  rw [hresult, Option.some.injEq] at he'
  subst he'
  exact absurd htruth (by decide)

end Compass.JoinQuals
