/-
`rewrite_with_child_targetlist` preserves meaning where no aggregate with an
argument is rewritten and nothing that is only copied reads a column.

A copy is the same tree (`toTree_deepCopy`), so what is copied means the same
above a target list if every leaf of it does. What a class rewrites agrees
with the original if the children agree, and a leaf agrees if it is found in
the target list. That two trees agree is the same as that they have one value
for every row and every meaning of the operators (`NodeTree.agree_iff`).
-/
import Compass.Analyzer.ChildTargetlist
import Compass.Lib.Results

namespace Compass.Analyzer

open Analyzer.Expr List Option Prod
open Results NodeTree

variable {α β : Type} {x : Except Fault α}

theorem exists_ok_bind {f : α → Except Fault β} :
    (∃ b, (x >>= f) = .ok b) ↔ ∃ a, x = .ok a ∧ ∃ b, f a = .ok b := by
  simp only [bind_eq_ok]
  exact ⟨fun ⟨b, a, ha, hb⟩ => ⟨a, ha, b, hb⟩, fun ⟨a, ha, b, hb⟩ => ⟨b, a, ha, hb⟩⟩

theorem exists_ok_map {f : α → β} : (∃ b, (do
      let a ← x
      return f a) = .ok b) ↔ ∃ a, x = .ok a := by
  cases x <;> simp [bind, Except.bind, pure, Except.pure]

theorem exists_ok_map₂ {γ : Type} {y : Except Fault β} {f : α → β → γ} : (∃ c, (do
      let a ← x
      let b ← y
      return f a b) = .ok c) ↔ (∃ a, x = .ok a) ∧ ∃ b, y = .ok b := by
  cases x <;> cases y <;> simp [bind, Except.bind, pure, Except.pure]

theorem exists_ok_map₃ {γ δ : Type} {y : Except Fault β} {z : Except Fault γ} {f : α → β → γ → δ} :
    (∃ c, (do
      let a ← x
      let b ← y
      let c ← z
      return f a b c) = .ok c) ↔ (∃ a, x = .ok a) ∧ (∃ b, y = .ok b) ∧ ∃ c, z = .ok c := by
  cases x <;> cases y <;> cases z <;> simp [bind, Except.bind, pure, Except.pure]

theorem and_three_comm {p₁ p₂ p₃ q₁ q₂ q₃ : Prop} :
    (p₁ ∧ q₁) ∧ (p₂ ∧ q₂) ∧ p₃ ∧ q₃ ↔ (p₁ ∧ p₂ ∧ p₃) ∧ q₁ ∧ q₂ ∧ q₃ := by
  rw [and_and_and_comm (a := p₂), and_and_and_comm]

variable {alloc : Addr → Addr}

-- ======== induction

/-- The expressions that an expression is made of. -/
def Expr.parts : Expr → List Expr
  | columnVar .. | var .. | constant .. | subquery .. | iterExpr .. => []
  | uoper _ _ _ e | inIntegerSet _ e _ | charLengthExpr _ e _ | likelihoodExpr _ e _
  | extractExpr _ _ _ e | datetruncExpr _ _ _ e => [e]
  | binOper _ _ _ _ e₁ e₂ | dateaddExpr _ _ e₁ e₂ | datediffExpr _ _ e₁ e₂ => [e₁, e₂]
  | expressionTuple _ es | functionOper _ _ es | functionOperWithCustomTypeHandling _ _ es
  | ndvEstimator _ es => es
  | inValues _ e es => e :: es
  | likeExpr _ e₁ e₂ escape _ _ | regexpExpr _ e₁ e₂ escape =>
    e₁ :: e₂ :: escape.toList.map Prod.snd
  | aggExpr _ _ args _ _ => args.map Prod.snd
  | caseExpr _ _ pairs elseExpr => pairs.map Prod.fst ++ pairs.map Prod.snd ++ elseExpr.toList

theorem sizeOf_part {e p : Expr} (h : p ∈ e.parts) : sizeOf p < sizeOf e := by
  cases e with
  | columnVar | var | constant | subquery | iterExpr => cases h
  | uoper | inIntegerSet | charLengthExpr | likelihoodExpr | extractExpr | datetruncExpr =>
    cases mem_singleton.1 h
    simp +arith
  | binOper | dateaddExpr | datediffExpr =>
    simp only [parts, mem_cons, not_mem_nil, or_false] at h
    rcases h with rfl | rfl <;> simp +arith
  | expressionTuple | functionOper | functionOperWithCustomTypeHandling | ndvEstimator =>
    rw [parts] at h
    have := sizeOf_lt_of_mem h
    simp
    omega
  | inValues ti arg valueList =>
    rcases mem_cons.1 h with rfl | h
    · simp
      omega
    · have := sizeOf_lt_of_mem h
      simp
      omega
  | likeExpr ti arg like escape | regexpExpr ti arg like escape =>
    simp only [parts, mem_cons] at h
    rcases h with rfl | rfl | h
    · simp
      omega
    · simp
      omega
    · cases escape with
      | none => cases h
      | some q =>
        cases mem_singleton.1 h
        obtain ⟨addr, e⟩ := q
        simp
        omega
  | aggExpr ti aggtype args =>
    obtain ⟨q, hq, rfl⟩ := mem_map.1 h
    have := sizeOf_lt_of_mem hq
    obtain ⟨addr, e⟩ := q
    simp at this ⊢
    omega
  | caseExpr ti containsAgg pairs elseExpr =>
    simp only [parts, mem_append, List.mem_map] at h
    rcases h with (⟨q, hq, rfl⟩ | ⟨q, hq, rfl⟩) | h
    · have := sizeOf_lt_of_mem hq
      obtain ⟨e₁, e₂⟩ := q
      simp at this ⊢
      omega
    · have := sizeOf_lt_of_mem hq
      obtain ⟨e₁, e₂⟩ := q
      simp at this ⊢
      omega
    · cases elseExpr with
      | none => cases h
      | some e =>
        cases mem_singleton.1 h
        simp
        omega

/-- Induction over the parts of an expression. -/
theorem Expr.parts_induction {P : Expr → Prop} (h : ∀ e : Expr, (∀ p ∈ e.parts, P p) → P e)
    (e : Expr) : P e :=
  h e fun p hp =>
    have := sizeOf_part hp
    parts_induction h p
termination_by sizeOf e

theorem Expr.parts_pairs {P : Expr → Prop} {ti : SQLTypeInfo} {containsAgg : Bool}
    {pairs : List (Expr × Expr)} {elseExpr : Option Expr}
    (h : ∀ p ∈ (caseExpr ti containsAgg pairs elseExpr).parts, P p) :
    ∀ p ∈ pairs, P p.1 ∧ P p.2 := fun p hp =>
  ⟨h p.1 (mem_append_left _ (mem_append_left _ (mem_map_of_mem hp))),
    h p.2 (mem_append_left _ (mem_append_right _ (mem_map_of_mem hp)))⟩

-- ======== copies

section copies

variable (alloc : Addr → Addr)

/-- A copy is the same tree. -/
def SameTree (e : Expr) : Prop :=
  ∀ e', deepCopy alloc e = .ok e' → e'.toTree = e.toTree

variable {alloc}

theorem childrenList_deepCopyList :
    ∀ {es es' : List Expr}, (∀ e ∈ es, SameTree alloc e) → deepCopyList alloc es = .ok es' →
      childrenList es' = childrenList es
  | [], es', _, h => by
      cases h
      rfl
  | e :: es, es', hes, h => by
      obtain ⟨e', he', h⟩ := bind_eq_ok.1 h
      obtain ⟨es', hes', h⟩ := bind_eq_ok.1 h
      cases h
      rw [childrenList, childrenList, hes e mem_cons_self e' he',
        childrenList_deepCopyList (fun e he => hes e (mem_cons_of_mem _ he)) hes']

theorem childrenList_deepCopyColumns :
    ∀ {es es' : List Expr}, (∀ e ∈ es, SameTree alloc e) → deepCopyColumns alloc es = .ok es' →
      childrenList es' = childrenList es
  | [], es', _, h => by
      cases h
      rfl
  | e :: es, es', hes, h => by
      obtain ⟨e', he', h⟩ := bind_eq_ok.1 h
      split at h
      · cases h
      · obtain ⟨es', hes', h⟩ := bind_eq_ok.1 h
        cases h
        rw [childrenList, childrenList, hes e mem_cons_self e' he',
          childrenList_deepCopyColumns (fun e he => hes e (mem_cons_of_mem _ he)) hes']

theorem childrenEscape_deepCopyEscape {o o' : Option (Addr × Expr)}
    (ho : ∀ e ∈ o.toList.map snd, SameTree alloc e) (h : deepCopyEscape alloc o = .ok o') :
    childrenEscape o' = childrenEscape o := by
  cases o with
  | none =>
    cases h
    rfl
  | some p =>
    obtain ⟨addr, e⟩ := p
    obtain ⟨e', he', h⟩ := bind_eq_ok.1 h
    cases h
    rw [childrenEscape, childrenEscape, ho e (mem_singleton.2 rfl) e' he']

theorem childrenElse_deepCopyElse {o o' : Option Expr} (ho : ∀ e ∈ o.toList, SameTree alloc e)
    (h : deepCopyElse alloc o = .ok o') : childrenElse o' = childrenElse o := by
  cases o with
  | none =>
    cases h
    rfl
  | some e =>
    obtain ⟨e', he', h⟩ := bind_eq_ok.1 h
    cases h
    rw [childrenElse, childrenElse, ho e (mem_singleton.2 rfl) e' he']

theorem childrenPairs_deepCopyPairs :
    ∀ {pairs pairs' : List (Expr × Expr)}, (∀ p ∈ pairs, SameTree alloc p.1 ∧ SameTree alloc p.2) →
      deepCopyPairs alloc pairs = .ok pairs' → childrenPairs pairs' = childrenPairs pairs
  | [], pairs', _, h => by
      cases h
      rfl
  | (e₁, e₂) :: pairs, pairs', hpairs, h => by
      obtain ⟨e₁', he₁, h⟩ := bind_eq_ok.1 h
      obtain ⟨e₂', he₂, h⟩ := bind_eq_ok.1 h
      obtain ⟨pairs', hpairs', h⟩ := bind_eq_ok.1 h
      cases h
      obtain ⟨h₁, h₂⟩ := hpairs _ mem_cons_self
      rw [childrenPairs, childrenPairs, h₁ e₁' he₁, h₂ e₂' he₂,
        childrenPairs_deepCopyPairs (fun p hp => hpairs p (mem_cons_of_mem _ hp)) hpairs']

theorem sameTree_constant (ti : SQLTypeInfo) (isNull : Bool) (constval : Datum) :
    SameTree alloc (.constant ti isNull constval) := by
  intro e' h
  rw [deepCopy, deepCopyConstant] at h
  cases isNull with
  | true =>
    obtain ⟨d, -, h⟩ := bind_eq_ok.1 h
    cases h
    rfl
  | false =>
    rw [if_neg Bool.false_ne_true] at h
    split at h
    · cases h
    · cases h
      rfl

theorem toTree_deepCopy (e : Expr) : SameTree alloc e := by
  induction e using Expr.parts_induction with
  | h e ih =>
    intro e' h
    cases e with
    | columnVar | var | inIntegerSet | iterExpr =>
      cases h
      rfl
    | subquery | ndvEstimator => cases h
    | constant ti isNull constval => exact sameTree_constant ti isNull constval e' h
    | expressionTuple ti tuple =>
      rw [parts] at ih
      obtain ⟨tuple', htuple, h⟩ := bind_eq_ok.1 h
      cases h
      rw [toTree, toTree, childrenList_deepCopyColumns ih htuple]
    | uoper | charLengthExpr | likelihoodExpr | extractExpr | datetruncExpr =>
      obtain ⟨arg', harg, h⟩ := bind_eq_ok.1 h
      cases h
      rw [toTree, toTree, ih _ mem_cons_self arg' harg]
    | binOper | dateaddExpr | datediffExpr =>
      obtain ⟨left', hleft, h⟩ := bind_eq_ok.1 h
      obtain ⟨right', hright, h⟩ := bind_eq_ok.1 h
      cases h
      rw [toTree, toTree, ih _ mem_cons_self left' hleft,
        ih _ (mem_cons_of_mem _ mem_cons_self) right' hright]
    | inValues ti arg valueList =>
      obtain ⟨valueList', hlist, h⟩ := bind_eq_ok.1 h
      obtain ⟨arg', harg, h⟩ := bind_eq_ok.1 h
      cases h
      rw [toTree, toTree, ih _ mem_cons_self arg' harg,
        childrenList_deepCopyList (fun e he => ih e (mem_cons_of_mem _ he)) hlist]
    | likeExpr ti arg like escape | regexpExpr ti arg like escape =>
      obtain ⟨arg', harg, h⟩ := bind_eq_ok.1 h
      obtain ⟨like', hlike, h⟩ := bind_eq_ok.1 h
      obtain ⟨escape', hescape, h⟩ := bind_eq_ok.1 h
      cases h
      rw [toTree, toTree, ih _ mem_cons_self arg' harg,
        ih _ (mem_cons_of_mem _ mem_cons_self) like' hlike,
        childrenEscape_deepCopyEscape
          (fun e he => ih e (mem_cons_of_mem _ (mem_cons_of_mem _ he))) hescape]
    | aggExpr =>
      obtain ⟨-, -, h⟩ := bind_eq_ok.1 h
      cases h
      rfl
    | caseExpr ti containsAgg pairs elseExpr =>
      obtain ⟨pairs', hpairs, h⟩ := bind_eq_ok.1 h
      obtain ⟨else', helse, h⟩ := bind_eq_ok.1 h
      cases h
      rw [toTree, toTree, childrenPairs_deepCopyPairs (Expr.parts_pairs ih) hpairs,
        childrenElse_deepCopyElse (fun e he => ih e (mem_append_right _ he)) helse]
    | functionOper | functionOperWithCustomTypeHandling =>
      rw [parts] at ih
      obtain ⟨args', hargs, h⟩ := bind_eq_ok.1 h
      cases h
      rw [toTree, toTree, childrenList_deepCopyList ih hargs]

end copies

section copyable

variable (alloc : Addr → Addr)

/-- What can be copied, for an expression no argument of which is missing. -/
def CopyableIff (e : Expr) : Prop :=
  Copyable e.toTree ↔ (∃ e', deepCopy alloc e = .ok e') ∧ e.toTree.All fun _ => True

variable {alloc}

theorem isColumnVar_iff {e : Expr} :
    e.isColumnVar = true ↔ ∃ l : Leaf, e.toTree = .leaf l ∧ l.isColumn = true := by
  cases e <;> simp [isColumnVar, toTree, Leaf.isColumn]

theorem copyableAll_childrenList :
    ∀ {es : List Expr}, (∀ e ∈ es, CopyableIff alloc e) →
      (CopyableAll (childrenList es) ↔
        (∃ es', deepCopyList alloc es = .ok es') ∧
          NodeTree.AllList (fun _ => True) (childrenList es))
  | [], _ => by simp [childrenList, CopyableAll, deepCopyList, NodeTree.AllList]
  | e :: es, hes => by
      have he := hes e mem_cons_self
      have ih := copyableAll_childrenList fun e he => hes e (mem_cons_of_mem _ he)
      rw [CopyableIff] at he
      rw [childrenList, CopyableAll, he, ih, AllList, deepCopyList, exists_ok_map₂]
      exact and_and_and_comm

theorem copyableAll_childrenArgs :
    ∀ {args : List (Addr × Expr)}, (∀ e ∈ args.map snd, CopyableIff alloc e) →
      (CopyableAll (childrenArgs args) ↔
        (∃ es', deepCopyArgs alloc args = .ok es') ∧
          NodeTree.AllList (fun _ => True) (childrenArgs args))
  | [], _ => by simp [childrenArgs, CopyableAll, deepCopyArgs, NodeTree.AllList]
  | (addr, e) :: args, hargs => by
      have he := hargs e mem_cons_self
      have ih := copyableAll_childrenArgs fun e he => hargs e (mem_cons_of_mem _ he)
      rw [CopyableIff] at he
      rw [childrenArgs]
      split
      · simp [CopyableAll, AllList]
      · rw [CopyableAll, he, ih, AllList, deepCopyArgs, exists_ok_map₂]
        exact and_and_and_comm

theorem copyableAll_childrenEscape {o : Option (Addr × Expr)}
    (ho : ∀ e ∈ o.toList.map snd, CopyableIff alloc e) :
    CopyableAll (childrenEscape o) ↔ (∃ o', deepCopyEscape alloc o = .ok o') ∧
      NodeTree.AllList (fun _ => True) (childrenEscape o) := by
  cases o with
  | none => simp [childrenEscape, CopyableAll, deepCopyEscape, AllList]
  | some p =>
    obtain ⟨addr, e⟩ := p
    have he := ho e (mem_singleton.2 rfl)
    rw [CopyableIff] at he
    rw [childrenEscape, CopyableAll, CopyableAll, he, AllList, AllList,
      deepCopyEscape, exists_ok_map, and_true, and_true]

theorem copyableAll_childrenElse {o : Option Expr} (ho : ∀ e ∈ o.toList, CopyableIff alloc e) :
    CopyableAll (childrenElse o) ↔ (∃ o', deepCopyElse alloc o = .ok o') ∧
      NodeTree.AllList (fun _ => True) (childrenElse o) := by
  cases o with
  | none => simp [childrenElse, CopyableAll, deepCopyElse, AllList]
  | some e =>
    have he := ho e (mem_singleton.2 rfl)
    rw [CopyableIff] at he
    rw [childrenElse, CopyableAll, CopyableAll, he, AllList, AllList,
      deepCopyElse, exists_ok_map, and_true, and_true]

theorem copyableAll_childrenPairs :
    ∀ {pairs : List (Expr × Expr)}, (∀ p ∈ pairs, CopyableIff alloc p.1 ∧ CopyableIff alloc p.2) →
      (CopyableAll (childrenPairs pairs) ↔
        (∃ pairs', deepCopyPairs alloc pairs = .ok pairs') ∧
          NodeTree.AllList (fun _ => True) (childrenPairs pairs))
  | [], _ => by simp [childrenPairs, CopyableAll, deepCopyPairs, NodeTree.AllList]
  | (e₁, e₂) :: pairs, hpairs => by
      obtain ⟨h₁, h₂⟩ := hpairs _ mem_cons_self
      have ih := copyableAll_childrenPairs fun p hp => hpairs p (mem_cons_of_mem _ hp)
      rw [CopyableIff] at h₁ h₂
      rw [childrenPairs, CopyableAll, h₁, CopyableAll, h₂, ih, AllList, AllList,
        deepCopyPairs, exists_ok_map₃]
      exact and_three_comm

/-- A tuple is copied if it is one of columns. -/
theorem columns_iff : ∀ {es : List Expr},
    (∀ c ∈ childrenList es, ∃ l : Leaf, c = some (.leaf l) ∧ l.isColumn = true) ↔
      (∃ es', deepCopyColumns alloc es = .ok es') ∧
        NodeTree.AllList (fun _ => True) (childrenList es)
  | [] => by simp [childrenList, deepCopyColumns, NodeTree.AllList]
  | e :: es => by
      rw [childrenList, forall_mem_cons, columns_iff, NodeTree.AllList, deepCopyColumns]
      simp only [some.injEq, ← isColumnVar_iff, exists_ok_bind]
      constructor
      · rintro ⟨hcolumn, ⟨es', hes⟩, hall⟩
        have hcopy : deepCopy alloc e = .ok e := by
          cases e <;> first | rfl | cases hcolumn
        refine ⟨⟨e, hcopy, ?_⟩, ?_, hall⟩
        · rw [hcolumn, hes]
          exact ⟨_, rfl⟩
        · obtain ⟨l, hl, -⟩ := isColumnVar_iff.1 hcolumn
          rw [hl]
          trivial
      · rintro ⟨⟨e', he', h⟩, -, hall⟩
        cases hcolumn : e'.isColumnVar with
        | false =>
          rw [hcolumn] at h
          obtain ⟨_, h⟩ := h
          cases h
        | true =>
          rw [hcolumn] at h
          obtain ⟨es', hes⟩ := h
          obtain ⟨es', hes', -⟩ := bind_eq_ok.1 hes
          refine ⟨?_, ⟨es', hes'⟩, hall⟩
          rw [isColumnVar_iff] at hcolumn ⊢
          rwa [toTree_deepCopy e e' he'] at hcolumn

theorem copyableAll_append {us : List (Option ExprTree)} :
    ∀ {ts : List (Option ExprTree)}, CopyableAll (ts ++ us) ↔ CopyableAll ts ∧ CopyableAll us
  | [] | none :: ts => by simp [CopyableAll]
  | some t :: ts => by
      rw [cons_append, CopyableAll, CopyableAll, copyableAll_append, and_assoc]

theorem copyable_constant (ti : SQLTypeInfo) (isNull : Bool) (constval : Datum) :
    CopyableIff alloc (.constant ti isNull constval) := by
  rw [CopyableIff, deepCopy, deepCopyConstant, toTree, Copyable, All]
  cases isNull with
  | true =>
    rw [if_pos rfl, if_pos rfl, exists_ok_map, and_true]
    rfl
  | false =>
    simp only [Bool.false_eq_true, if_false, Leaf.Copyable, and_true]
    cases hstring : ti.isString <;> cases hval : constval.stringval <;> simp

theorem copyable_iff (e : Expr) : CopyableIff alloc e := by
  induction e using Expr.parts_induction with
  | h e ih =>
    cases e with
    | columnVar | var | iterExpr | subquery =>
      simp [CopyableIff, toTree, Copyable, Leaf.Copyable, deepCopy, All]
    | constant ti isNull constval => exact copyable_constant ti isNull constval
    | ndvEstimator => simp [CopyableIff, toTree, Copyable, deepCopy]
    | inIntegerSet => simp [CopyableIff, toTree, Copyable, deepCopy, All]
    | expressionTuple ti tuple =>
      rw [CopyableIff, toTree, deepCopy, exists_ok_map]
      exact columns_iff
    | uoper | charLengthExpr | likelihoodExpr | extractExpr | datetruncExpr =>
      have harg := ih _ mem_cons_self
      rw [CopyableIff] at harg
      rw [CopyableIff, toTree]
      change CopyableAll _ ↔ _
      rw [CopyableAll, CopyableAll, harg, deepCopy, exists_ok_map, All,
        AllList, AllList, and_true, and_true]
    | binOper | dateaddExpr | datediffExpr =>
      have hleft := ih _ mem_cons_self
      have hright := ih _ (mem_cons_of_mem _ mem_cons_self)
      rw [CopyableIff] at hleft hright
      rw [CopyableIff, toTree]
      change CopyableAll _ ↔ _
      rw [CopyableAll, CopyableAll, CopyableAll, hleft, hright, deepCopy, exists_ok_map₂,
        All, AllList, AllList, AllList, and_true, and_true]
      exact and_and_and_comm
    | inValues ti arg valueList =>
      have harg := ih _ mem_cons_self
      have hlist := copyableAll_childrenList fun e he => ih e (mem_cons_of_mem _ he)
      rw [CopyableIff] at harg
      rw [CopyableIff, toTree]
      change CopyableAll _ ↔ _
      rw [CopyableAll, harg, hlist, deepCopy, exists_ok_map₂, All, AllList]
      exact and_and_and_comm.trans (and_congr_left' and_comm)
    | likeExpr ti arg like escape | regexpExpr ti arg like escape =>
      have harg := ih _ mem_cons_self
      have hlike := ih _ (mem_cons_of_mem _ mem_cons_self)
      have hescape := copyableAll_childrenEscape fun e he =>
        ih e (mem_cons_of_mem _ (mem_cons_of_mem _ he))
      rw [CopyableIff] at harg hlike
      rw [CopyableIff, toTree]
      change CopyableAll _ ↔ _
      rw [CopyableAll, CopyableAll, harg, hlike, hescape, deepCopy, exists_ok_map₃,
        All, AllList, AllList]
      exact and_three_comm
    | aggExpr ti aggtype args =>
      rw [CopyableIff, toTree]
      change CopyableAll _ ↔ _
      rw [copyableAll_childrenArgs ih, deepCopy, exists_ok_map, All]
    | caseExpr ti containsAgg pairs elseExpr =>
      have hpairs := copyableAll_childrenPairs (Expr.parts_pairs ih)
      have helse := copyableAll_childrenElse fun e he => ih e (mem_append_right _ he)
      rw [CopyableIff, toTree]
      change CopyableAll _ ↔ _
      rw [copyableAll_append, hpairs, helse, deepCopy, exists_ok_map₂, All, allList_append]
      exact and_and_and_comm
    | functionOper | functionOperWithCustomTypeHandling =>
      rw [parts] at ih
      rw [CopyableIff, toTree]
      change CopyableAll _ ↔ _
      rw [copyableAll_childrenList ih, deepCopy, exists_ok_map, All]

end copyable

-- ======== agreement

/-- What a leaf is below a target list. -/
def below (l : Leaf) : Option (NodeTree Atom Head) :=
  some (.leaf l.atom)

/-- What a leaf is above it. -/
def above (tlist : List Expr) : Leaf → Option (NodeTree Atom Head)
  | .column .. => none
  | .var _ _ _ .kINPUT_OUTER varno => (entry tlist varno).bind fun e => e.toTree.subst below
  | l => below l

section agreement

variable {tlist : List Expr}

theorem below_isSome (l : Leaf) : (below l).isSome = true :=
  rfl

theorem whole_below : NodeTree.Whole below :=
  whole_leaf fun l : Leaf => some l.atom

theorem whole_above : NodeTree.Whole (above tlist) := by
  intro l
  cases l with
  | column => rfl
  | var tableId columnId rteIdx whichRow varno =>
    cases whichRow with
    | kINPUT_OUTER =>
      rw [above]
      cases entry tlist varno with
      | none => rfl
      | some e => exact whole_subst whole_below e.toTree
    | _ => exact whole_below _
  | _ => exact whole_below _

section

variable {V : Type} (atomValue : Atom → Option V) (nodeValue : Head → List V → V)

theorem valueBelow_eq (e : Expr) :
    valueBelow atomValue nodeValue e =
      e.toTree.eval (fun l => (below l).bind (NodeTree.eval atomValue nodeValue)) nodeValue :=
  rfl

theorem valueAbove_eq (e : Expr) :
    valueAbove atomValue nodeValue tlist e =
      e.toTree.eval (fun l => (above tlist l).bind (NodeTree.eval atomValue nodeValue))
        nodeValue := by
  rw [valueAbove]
  congr 1
  funext l
  cases l with
  | var tableId columnId rteIdx whichRow varno =>
    cases whichRow with
    | kINPUT_OUTER =>
      rw [Leaf.valueAbove, above, bind_assoc]
      congr 1
      funext e
      rw [valueBelow_eq, eval_subst]
    | _ => rfl
  | _ => rfl

end

/-- A tree below a target list and one above it. -/
abbrev Agrees (tlist : List Expr) (t t' : ExprTree) : Prop :=
  NodeTree.Agree SameLeaf (above tlist) below t t'

abbrev AgreesAll (tlist : List Expr) (ts ts' : List (Option ExprTree)) : Prop :=
  NodeTree.AgreeAll SameLeaf (above tlist) below ts ts'

variable {e : Expr}

theorem rewritePreserves_iff {alloc : Addr → Addr} : RewritePreserves alloc tlist e ↔
      ∃ e', e.rewriteWithChildTargetlist alloc tlist = .ok e' ∧
        Agrees tlist e.toTree e'.toTree := by
  simp only [RewritePreserves, Agrees, agree_iff whole_above whole_below, valueAbove_eq,
    valueBelow_eq]

theorem sameLeaf_refl (l : Leaf) : SameLeaf l l :=
  .inl rfl

theorem subst_below_column {ids : Int × Int} (h : e.columnIds = some ids) :
    ∃ a, e.columnAtom = some a ∧ e.toTree.subst below = some (.leaf a) := by
  cases e <;> cases h <;> exact ⟨_, rfl, rfl⟩

theorem subst_below_eq_lineage {tableId columnId rteIdx varno : Int} {whichRow : WhichRow} :
    e.toTree.subst below = some (.leaf (lineage tableId columnId rteIdx whichRow varno)) ↔
      e.columnAtom = some (lineage tableId columnId rteIdx whichRow varno) := by
  cases h : e.columnIds with
  | some ids =>
    obtain ⟨a, ha, hsubst⟩ := subst_below_column h
    rw [ha, hsubst]
    simp
  | none =>
    have hatom : e.columnAtom = none := by
      cases e <;> first | rfl | cases h
    rw [hatom]
    refine ⟨fun heq => ?_, fun heq => absurd heq (by simp)⟩
    by_cases hzero : tableId = 0
    · rw [lineage, if_pos hzero] at heq
      cases e <;> cases h <;>
        simp [toTree, subst, NodeTree.eval, below, Leaf.atom, ofTrees] at heq
    · rw [lineage, if_neg hzero] at heq
      cases e <;> cases h <;>
        simp [toTree, subst, NodeTree.eval, below, Leaf.atom, ofTrees] at heq

/-- A leaf that stays where it is means the same above a target list if it is kept. -/
theorem above_eq_below {l : Leaf} : above tlist l = below l ↔ l.Kept tlist := by
  cases l with
  | column => exact ⟨fun h => absurd h (by simp [above, below]), fun h => h.elim⟩
  | var tableId columnId rteIdx whichRow varno =>
    cases whichRow with
    | kINPUT_OUTER =>
      rw [above, Leaf.Kept, below, Leaf.atom, bind_eq_some_iff]
      simp only [subst_below_eq_lineage, forall_const]
    | _ => exact ⟨fun _ h => absurd h (by simp), fun _ => rfl⟩
  | _ => exact ⟨fun _ => trivial, fun _ => rfl⟩

theorem agrees_self {t : ExprTree} : Agrees tlist t t ↔ t.All (Leaf.Kept tlist) := by
  rw [Agrees, agree_self below_isSome]
  simp only [above_eq_below, sameLeaf_refl, true_and]

variable {ts : List (Option ExprTree)}

theorem agreesAll_self :
    AgreesAll tlist ts ts ↔ NodeTree.AllList (Leaf.Kept tlist) ts := by
  rw [AgreesAll, agreeAll_self below_isSome]
  simp only [above_eq_below, sameLeaf_refl, true_and]

variable {alloc : Addr → Addr}

/-- What is copied is kept. -/
theorem copied_iff {e : Expr} :
    (∃ e', deepCopy alloc e = .ok e' ∧ Agrees tlist e.toTree e'.toTree) ↔
      Copied tlist e.toTree := by
  have hcopyable : Copyable e.toTree ↔ _ := @copyable_iff alloc e
  rw [Copied, hcopyable]
  constructor
  · rintro ⟨e', he', hagrees⟩
    rw [toTree_deepCopy e e' he', agrees_self] at hagrees
    exact ⟨⟨⟨e', he'⟩, all_mono (fun _ _ => trivial) hagrees⟩, hagrees⟩
  · rintro ⟨⟨⟨e', he'⟩, -⟩, hkept⟩
    refine ⟨e', he', ?_⟩
    rw [toTree_deepCopy e e' he', agrees_self]
    exact hkept

theorem copiedAll_iff {α : Type} {x : Except Fault α} {children : α → List (Option ExprTree)}
    (hcopyable : CopyableAll ts ↔ (∃ r, x = .ok r) ∧ NodeTree.AllList (fun _ => True) ts)
    (hchildren : ∀ r, x = .ok r → children r = ts) :
    (∃ r, x = .ok r ∧ AgreesAll tlist ts (children r)) ↔ CopiedAll tlist ts := by
  rw [CopiedAll, hcopyable]
  constructor
  · rintro ⟨r, hr, hagrees⟩
    rw [hchildren r hr, agreesAll_self] at hagrees
    exact ⟨⟨⟨r, hr⟩, allList_mono (fun _ _ => trivial) hagrees⟩, hagrees⟩
  · rintro ⟨⟨⟨r, hr⟩, -⟩, hkept⟩
    refine ⟨r, hr, ?_⟩
    rw [hchildren r hr, agreesAll_self]
    exact hkept

theorem copiedAll_cons {t : ExprTree} :
    CopiedAll tlist (some t :: ts) ↔ Copied tlist t ∧ CopiedAll tlist ts := by
  exact and_and_and_comm

theorem copyPreserves_iff : CopyPreserves alloc e ↔ Copyable e.toTree := by
  have hcopyable : Copyable e.toTree ↔ _ := @copyable_iff alloc e
  rw [hcopyable, CopyPreserves]
  have hself : e.toTree.SameStructure SameLeaf e.toTree ↔ e.toTree.All fun _ => True := by
    have h : Agree SameLeaf below below e.toTree e.toTree ↔ _ :=
      agree_self below_isSome
    simp only [sameLeaf_refl, and_self] at h
    rw [← h, Agree]
    exact (and_iff_left rfl).symm
  constructor
  · rintro ⟨e', he', hsame, -⟩
    rw [toTree_deepCopy e e' he', hself] at hsame
    exact ⟨⟨e', he'⟩, hsame⟩
  · rintro ⟨⟨e', he'⟩, hall⟩
    refine ⟨e', he', ?_, fun V atomValue nodeValue => ?_⟩
    · rw [toTree_deepCopy e e' he', hself]
      exact hall
    · rw [valueBelow, valueBelow, toTree_deepCopy e e' he']

end agreement

-- ======== rewriting

section rewriting

variable {alloc : Addr → Addr} {tlist : List Expr}

section column

variable {tableId columnId rteIdx : Int}
variable {e : Expr}

theorem rewriteColumnVar_skip {ids : Int × Int} (h : e.columnIds = some ids)
    (hne : ids ≠ (tableId, columnId)) (varno : Int) (back : List Expr) :
    rewriteColumnVar tableId columnId varno (e :: back) =
      rewriteColumnVar tableId columnId (varno + 1) back := by
  cases e <;> cases h <;> rw [rewriteColumnVar] <;>
    exact if_neg fun heq => hne (by rw [heq.1, heq.2])

theorem rewriteColumnVar_found (h : e.columnIds = some (tableId, columnId)) (varno : Int)
    (back : List Expr) :
    ∃ e' rteIdx', rewriteColumnVar tableId columnId varno (e :: back) = .ok e' ∧
      e'.toTree = .leaf (.var tableId columnId rteIdx' .kINPUT_OUTER varno) := by
  cases e <;> cases h <;> rw [rewriteColumnVar, if_pos ⟨rfl, rfl⟩] <;> exact ⟨_, _, rfl, rfl⟩

theorem rewriteColumnVar_of_front (h : e.columnIds = some (tableId, columnId)) (back : List Expr) :
    ∀ (front : List Expr) (varno : Int),
      (∀ e' ∈ front, ∃ ids, e'.columnIds = some ids ∧ ids ≠ (tableId, columnId)) →
      ∃ e' rteIdx', rewriteColumnVar tableId columnId varno (front ++ e :: back) = .ok e' ∧
        e'.toTree = .leaf (.var tableId columnId rteIdx' .kINPUT_OUTER (varno + front.length))
  | [], varno, _ => by
      simpa using rewriteColumnVar_found h varno back
  | e₁ :: front, varno, hfront => by
      obtain ⟨ids, hids, hne⟩ := hfront e₁ mem_cons_self
      rw [cons_append, rewriteColumnVar_skip hids hne, length_cons]
      obtain ⟨e', rteIdx', he', htree⟩ := rewriteColumnVar_of_front h back front (varno + 1)
        fun e' he' => hfront e' (mem_cons_of_mem _ he')
      refine ⟨e', rteIdx', he', htree.trans ?_⟩
      congr 2
      omega

theorem exists_front_of_rewriteColumnVar {e' : Expr} :
    ∀ {tlist : List Expr} {varno : Int}, rewriteColumnVar tableId columnId varno tlist = .ok e' →
      ∃ front e back, tlist = front ++ e :: back ∧
        (∀ e' ∈ front, ∃ ids, e'.columnIds = some ids ∧ ids ≠ (tableId, columnId)) ∧
        e.columnIds = some (tableId, columnId)
  | [], varno, h => by cases h
  | e :: tlist, varno, h => by
      cases hids : e.columnIds with
      | none => cases e <;> cases hids <;> cases h
      | some ids =>
        by_cases hne : ids = (tableId, columnId)
        · exact ⟨[], e, tlist, rfl, fun _ h => absurd h not_mem_nil, hne ▸ hids⟩
        · rw [rewriteColumnVar_skip hids hne] at h
          obtain ⟨front, e₁, back, rfl, hfront, he₁⟩ := exists_front_of_rewriteColumnVar h
          refine ⟨e :: front, e₁, back, rfl, fun e' he' => ?_, he₁⟩
          rcases mem_cons.1 he' with rfl | he'
          · exact ⟨ids, hids, hne⟩
          · exact hfront e' he'

theorem entry_front {front back : List Expr} :
    entry (front ++ e :: back) (1 + front.length) = some e := by
  rw [entry, if_pos (by omega), show ((1 : Int) + front.length - 1).toNat = front.length by omega]
  simp

/-- A column becomes the Var of the first entry with its ids. -/
theorem rewriteColumnVar_iff {ti : SQLTypeInfo} :
    (∃ e', rewriteColumnVar tableId columnId 1 tlist = .ok e' ∧
      Agrees tlist (columnVar ti tableId columnId rteIdx).toTree e'.toTree) ↔
      Found tlist tableId columnId rteIdx := by
  -- above the target list the Var is what the entry is
  have hagrees : ∀ front e back (rteIdx' : Int), tlist = front ++ e :: back →
      e.columnIds = some (tableId, columnId) →
      (Agrees tlist (columnVar ti tableId columnId rteIdx).toTree
        (.leaf (.var tableId columnId rteIdx' .kINPUT_OUTER (1 + front.length))) ↔
        e.columnAtom = some (.column tableId columnId rteIdx)) := by
    intro front e back rteIdx' hlist hids
    obtain ⟨a, ha, hsubst⟩ := subst_below_column hids
    have hsame : SameStructure (H := Head) SameLeaf
        (.leaf (.column tableId columnId rteIdx))
        (.leaf (.var tableId columnId rteIdx' .kINPUT_OUTER (1 + front.length))) :=
      Or.inr ⟨rfl, rfl⟩
    rw [Agrees, Agree, toTree, and_iff_right hsame, subst, NodeTree.eval,
      subst, NodeTree.eval, above, hlist, entry_front, bind_some, hsubst, ha]
    simp [below, Leaf.atom]
  constructor
  · rintro ⟨e', he', h⟩
    obtain ⟨front, e, back, hlist, hfront, hids⟩ := exists_front_of_rewriteColumnVar he'
    obtain ⟨e'', rteIdx', he'', htree⟩ := rewriteColumnVar_of_front hids back front 1 hfront
    rw [← hlist, he'] at he''
    cases he''
    rw [htree, hagrees front e back rteIdx' hlist hids] at h
    exact ⟨front, e, back, hlist, hfront, hids, h⟩
  · rintro ⟨front, e, back, hlist, hfront, hids, hatom⟩
    obtain ⟨e', rteIdx', he', htree⟩ := rewriteColumnVar_of_front hids back front 1 hfront
    refine ⟨e', by rw [hlist, he'], ?_⟩
    rw [htree, hagrees front e back rteIdx' hlist hids]
    exact hatom

end column

section results

variable {α β γ δ : Type} {x : Except Fault α} {y : Except Fault β} {z : Except Fault γ}

theorem exists_ok_map_and {f : α → δ} {P : δ → Prop} :
    (∃ d, (do
      let a ← x
      return f a) = .ok d ∧ P d) ↔ ∃ a, x = .ok a ∧ P (f a) := by
  cases x <;> simp [bind, Except.bind, pure, Except.pure]

theorem exists_ok_map_and₂ {f : α → β → δ} {P : δ → Prop} {Q : α → Prop} {R : β → Prop}
    (h : ∀ a b, x = .ok a → y = .ok b → (P (f a b) ↔ Q a ∧ R b)) :
    (∃ d, (do
      let a ← x
      let b ← y
      return f a b) = .ok d ∧ P d) ↔ (∃ a, x = .ok a ∧ Q a) ∧ ∃ b, y = .ok b ∧ R b := by
  cases x <;> cases y <;> simp_all [bind, Except.bind, pure, Except.pure]

theorem exists_ok_map_and₃ {f : α → β → γ → δ} {P : δ → Prop} {Q : α → Prop} {R : β → Prop}
    {S : γ → Prop}
    (h : ∀ a b c, x = .ok a → y = .ok b → z = .ok c → (P (f a b c) ↔ Q a ∧ R b ∧ S c)) :
    (∃ d, (do
      let a ← x
      let b ← y
      let c ← z
      return f a b c) = .ok d ∧ P d) ↔
      (∃ a, x = .ok a ∧ Q a) ∧ (∃ b, y = .ok b ∧ R b) ∧ ∃ c, z = .ok c ∧ S c := by
  cases x <;> cases y <;> cases z <;> simp_all [bind, Except.bind, pure, Except.pure]

end results

theorem agrees_first {h : Head} {t t' : ExprTree} {ts ts' : List (Option ExprTree)} :
    Agrees tlist (.node h (some t :: ts)) (.node h (some t' :: ts')) ↔
      Agrees tlist t t' ∧ AgreesAll tlist ts ts' := by
  rw [Agrees, agree_node below_isSome, agreeAll_cons below_isSome, and_iff_right rfl]

theorem agrees_one {h : Head} {t t' : ExprTree} :
    Agrees tlist (.node h [some t]) (.node h [some t']) ↔ Agrees tlist t t' := by
  rw [agrees_first, and_iff_left agreeAll_nil]

theorem agrees_two {h : Head} {t t' u v : ExprTree} :
    Agrees tlist (.node h [some t, some u]) (.node h [some t', some v]) ↔
      Agrees tlist t t' ∧ Agrees tlist u v := by
  rw [agrees_first, AgreesAll, agreeAll_cons below_isSome, and_iff_left agreeAll_nil]

theorem rewritableAll_append {us : List (Option ExprTree)} :
    ∀ {ts : List (Option ExprTree)},
      RewritableAll tlist (ts ++ us) ↔ RewritableAll tlist ts ∧ RewritableAll tlist us
  | [] | none :: ts => by simp [RewritableAll]
  | some t :: ts => by
      rw [cons_append, RewritableAll, RewritableAll, rewritableAll_append, and_assoc]

variable (alloc tlist)

/-- What can be rewritten. -/
def RewriteIff (e : Expr) : Prop :=
  (∃ e', rewriteWithChildTargetlist alloc tlist e = .ok e' ∧ Agrees tlist e.toTree e'.toTree) ↔
    Rewritable tlist e.toTree

variable {alloc tlist}

theorem rewriteElse_iff {o : Option Expr} (ho : ∀ e ∈ o.toList, RewriteIff alloc tlist e) :
    (∃ o', rewriteElse alloc tlist o = .ok o' ∧
      AgreesAll tlist (childrenElse o) (childrenElse o')) ↔
      RewritableAll tlist (childrenElse o) := by
  cases o with
  | none => simp [rewriteElse, childrenElse, RewritableAll, AgreesAll, agreeAll_nil]
  | some e =>
    have he := ho e (mem_singleton.2 rfl)
    rw [RewriteIff] at he
    rw [rewriteElse, exists_ok_map_and, childrenElse, RewritableAll, RewritableAll, and_true, ← he]
    refine exists_congr fun e' => and_congr_right fun _ => ?_
    rw [childrenElse, AgreesAll, agreeAll_cons below_isSome, and_iff_left agreeAll_nil]

theorem length_childrenPairs :
    ∀ {pairs pairs' : List (Expr × Expr)}, rewritePairs alloc tlist pairs = .ok pairs' →
      (childrenPairs pairs).length = (childrenPairs pairs').length
  | [], pairs', h => by
      cases h
      rfl
  | (e₁, e₂) :: pairs, pairs', h => by
      obtain ⟨e₁', -, h⟩ := bind_eq_ok.1 h
      obtain ⟨e₂', -, h⟩ := bind_eq_ok.1 h
      obtain ⟨pairs', hpairs, h⟩ := bind_eq_ok.1 h
      cases h
      simp [childrenPairs, length_childrenPairs hpairs]

theorem rewritePairs_iff :
    ∀ {pairs : List (Expr × Expr)},
      (∀ p ∈ pairs, RewriteIff alloc tlist p.1 ∧ RewriteIff alloc tlist p.2) →
      ((∃ pairs', rewritePairs alloc tlist pairs = .ok pairs' ∧
        AgreesAll tlist (childrenPairs pairs) (childrenPairs pairs')) ↔
        RewritableAll tlist (childrenPairs pairs))
  | [], _ => by simp [rewritePairs, childrenPairs, RewritableAll, AgreesAll, NodeTree.agreeAll_nil]
  | (e₁, e₂) :: pairs, hpairs => by
      obtain ⟨h₁, h₂⟩ := hpairs _ mem_cons_self
      have ih := rewritePairs_iff fun p hp => hpairs p (mem_cons_of_mem _ hp)
      rw [RewriteIff] at h₁ h₂
      rw [rewritePairs, childrenPairs, RewritableAll, RewritableAll, ← h₁, ← h₂, ← ih]
      refine exists_ok_map_and₃ fun e₁' e₂' pairs' _ _ _ => ?_
      rw [childrenPairs, AgreesAll, agreeAll_cons below_isSome, agreeAll_cons below_isSome]

/-- The arguments of an aggregate stand behind null pointers. -/
theorem aggExpr_iff (ti : SQLTypeInfo) (aggtype : SQLAgg) (args : List (Addr × Expr))
    (isDistinct : Bool) (errorRate : Option ErrorRate) :
    RewriteIff alloc tlist (.aggExpr ti aggtype args isDistinct errorRate) := by
  rw [RewriteIff, rewriteWithChildTargetlist, exists_ok_map_and]
  change _ ↔ childrenArgs args = []
  cases args with
  | nil => simp [rewriteArgs, toTree, childrenArgs, agree_node below_isSome, agreeAll_nil, Agrees]
  | cons arg args =>
    constructor
    · rintro ⟨argsNew, -, h⟩
      rw [toTree, toTree, Agrees, agree_node below_isSome] at h
      have hsame := h.2.1
      rw [length_cons, replicate_succ, cons_append, nullArg, childrenArgs,
        childrenArgs, if_pos rfl] at hsame
      split at hsame <;> exact hsame.elim
    · intro h
      cases h

theorem rewrite_iff (e : Expr) : RewriteIff alloc tlist e := by
  induction e using Expr.parts_induction with
  | h e ih =>
    cases e with
    | columnVar => exact rewriteColumnVar_iff
    | var | constant | iterExpr | expressionTuple | inIntegerSet | functionOper
    | functionOperWithCustomTypeHandling | ndvEstimator => exact copied_iff
    | subquery =>
      simp [RewriteIff, rewriteWithChildTargetlist, toTree, Rewritable, Leaf.Rewritable,
        Leaf.Copyable]
    | uoper | charLengthExpr | likelihoodExpr | extractExpr | datetruncExpr =>
      have harg := ih _ mem_cons_self
      rw [RewriteIff] at harg
      rw [RewriteIff, rewriteWithChildTargetlist, exists_ok_map_and]
      change _ ↔ RewritableAll tlist [some _]
      rw [RewritableAll, RewritableAll, and_true, ← harg]
      exact exists_congr fun _ => and_congr_right fun _ => agrees_one
    | binOper | dateaddExpr | datediffExpr =>
      have hleft := ih _ mem_cons_self
      have hright := ih _ (mem_cons_of_mem _ mem_cons_self)
      rw [RewriteIff] at hleft hright
      change _ ↔ RewritableAll tlist [some _, some _]
      rw [RewritableAll, RewritableAll, RewritableAll, and_true, ← hleft, ← hright]
      exact exists_ok_map_and₂ fun _ _ _ _ => agrees_two
    | inValues ti arg valueList =>
      have harg := ih _ mem_cons_self
      rw [RewriteIff] at harg
      change _ ↔ RewritableFirst tlist (some _ :: childrenList valueList)
      rw [RewritableFirst, ← harg, ← copiedAll_iff
        (copyableAll_childrenList fun e _ => @copyable_iff alloc e)
        (fun _ => childrenList_deepCopyList fun e _ => toTree_deepCopy e), and_comm]
      exact exists_ok_map_and₂ fun _ _ _ _ => agrees_first.trans and_comm
    | likeExpr ti arg like escape | regexpExpr ti arg like escape =>
      have harg := ih _ mem_cons_self
      rw [RewriteIff] at harg
      change _ ↔ RewritableFirst tlist (some _ :: some like.toTree :: childrenEscape escape)
      rw [RewritableFirst, ← harg, copiedAll_cons, ← @copied_iff tlist alloc like, ← copiedAll_iff
        (copyableAll_childrenEscape fun e _ => @copyable_iff alloc e)
        (fun _ => childrenEscape_deepCopyEscape fun e _ => toTree_deepCopy e)]
      refine exists_ok_map_and₃ fun _ _ _ _ _ _ => ?_
      rw [toTree, toTree, agrees_first, AgreesAll, agreeAll_cons below_isSome]
    | aggExpr ti aggtype args isDistinct errorRate =>
      exact aggExpr_iff ti aggtype args isDistinct errorRate
    | caseExpr ti containsAgg pairs elseExpr =>
      change _ ↔ RewritableAll tlist (childrenPairs pairs ++ childrenElse elseExpr)
      rw [rewritableAll_append, ← rewritePairs_iff (Expr.parts_pairs ih),
        ← rewriteElse_iff fun e he => ih e (mem_append_right _ he)]
      refine exists_ok_map_and₂ fun pairs' else' hpairs _ => ?_
      rw [toTree, toTree, Agrees, agree_node below_isSome, and_iff_right rfl,
        agreeAll_append below_isSome (length_childrenPairs hpairs)]

/-- The rewritten expression and the copy have the structure and the value of
the original if and only if no aggregate that is rewritten has an argument,
every column that is rewritten is found in the target list, and what is only
copied reads no column. -/
theorem rewrite_preserves_iff (alloc : Addr → Addr) (tlist : List Expr) (e : Expr) :
    (RewritePreserves alloc tlist e ∧ CopyPreserves alloc e) ↔
      (Rewritable tlist e.toTree ∧ Copyable e.toTree) := by
  have hrewrite : _ ↔ Rewritable tlist e.toTree := @rewrite_iff alloc tlist e
  rw [rewritePreserves_iff, hrewrite, copyPreserves_iff]

/-- `SUM(x)`. -/
def sumColumn : Expr :=
  .aggExpr (.plain .kBIGINT false) .kSUM [(1, .columnVar (.plain .kINT false) 1 1 0)] false none

/-- Above a target list of the one column, the sum has two arguments, the
first of which is the null pointer. -/
theorem sumColumn_not_preserved :
    ¬ (RewritePreserves id [.columnVar (.plain .kINT false) 1 1 0] sumColumn ∧
      CopyPreserves id sumColumn) := by
  rintro ⟨⟨e', he', hsame, -⟩, -⟩
  have hrewritten : sumColumn.rewriteWithChildTargetlist id
      [.columnVar (.plain .kINT false) 1 1 0] =
      .ok (.aggExpr (.plain .kBIGINT false) .kSUM
        [nullArg, (1, .var (.plain .kINT false) 1 1 0 .kINPUT_OUTER 1)] false none) := rfl
  obtain rfl := Except.ok.inj (hrewritten.symm.trans he')
  exact hsame.2.elim

end rewriting

end Compass.Analyzer
