/-
The visitors that give the inputs of an expression another name.

`RexRebindInputsVisitor` puts the name of one node for that of another,
and `RexInputRedirector` the names of the sides where the new node is a
join. Both put inputs for inputs, so an operator stays one of its type.

The condition of a join made from pieces of a filter condition.

Rebasing turns a column of the range into the column of the join that
stands there (`rebaseInput_eval`). For a condition that splits cleanly
the new join condition exists, reads columns of the two sides of the
join, and holds where all of the pieces do
(`newJoinCondition_of_splitsCleanly`).
-/
import Compass.Optimizer.FoldFilters
import Compass.Optimizer.Proofs.Hoistable

namespace Compass.Optimizer

open Compass.PushDown Option
open Compass.RelAlg
open Compass.LeftDeep (JoinType)

variable {D : Type}

-- ======== rebind

/-- The renaming. -/
def renamed (f g i : Nat) : Nat :=
  if i = f then g else i

section Rebind

variable {f g : Nat} {e : Rex D}

theorem deepCopy_rebind (f g : Nat) (e : Rex D) :
    e.deepCopy (rebindInput f g) = some (rebind f g e) := by
  obtain ⟨e', he'⟩ := @Rex.exists_deepCopy D (rebindInput f g) e fun p _ => ⟨_, rfl⟩
  unfold rebind
  rw [he', getD_some]

theorem evalWith_rebind (I : Interp D) {col col' : Nat → Nat → Value D}
    (h : ∀ p ∈ e.inputs, col' (renamed f g p.1) p.2 = col p.1 p.2) :
    (rebind f g e).evalWith I col' = e.evalWith I col := by
  obtain ⟨e', he', hval⟩ := @Rex.deepCopy_eval D (rebindInput f g) I col col' e
    fun p hp => ⟨_, rfl, h p hp⟩
  rw [deepCopy_rebind] at he'
  rw [some.inj he', hval]

theorem mem_inputs_rebind {p : Nat × Nat} (hp : p ∈ (rebind f g e).inputs) :
    ∃ q ∈ e.inputs, p = (renamed f g q.1, q.2) := by
  obtain ⟨q, hq, r, hr, hin⟩ := Rex.inputs_deepCopy (deepCopy_rebind f g e) p hp
  obtain rfl := Option.some.inj hr
  exact ⟨q, hq, List.mem_singleton.mp hin⟩

theorem rebind_of_free (h : ∀ p ∈ e.inputs, p.1 ≠ f) : rebind f g e = e := by
  have hself := @Rex.deepCopy_self D (rebindInput f g) e fun p hp => by
    unfold rebindInput
    rw [if_neg (h p hp)]
  rw [deepCopy_rebind] at hself
  exact some.inj hself

end Rebind

/-- A copy that puts inputs in the place of inputs is an operator of the
type that the expression is. -/
theorem operatorType_deepCopy {visitInput : Nat → Nat → Option (Rex D)}
    (hinput : ∀ s i r, visitInput s i = some r → operatorType r = none) {e e' : Rex D}
    (h : e.deepCopy visitInput = some e') : operatorType e' = operatorType e := by
  cases e with
  | input s i => exact hinput s i e' h
  | func name es ti | oper op es ti =>
    rw [Rex.deepCopy, map_eq_some_iff] at h
    obtain ⟨es', -, rfl⟩ := h
    rfl
  | case bs els =>
    simp only [Rex.deepCopy, bind_eq_bind, bind_eq_some_iff] at h
    obtain ⟨bs', -, els', -, h⟩ := h
    obtain rfl := some.inj h
    rfl
  | _ =>
    obtain rfl := some.inj h
    rfl

theorem operatorType_rebind (f g : Nat) (e : Rex D) :
    operatorType (rebind f g e) = operatorType e := by
  refine operatorType_deepCopy ?_ (deepCopy_rebind f g e)
  intro s i r hr
  obtain rfl := some.inj hr
  rfl

variable {g : Nat}

theorem redirectInput_cases {Q : Plan D} {x s i : Nat} {r : Rex D}
    (h : redirectInput Q g x s i = some r) : s = g ∧ ((Q.sides x = none ∧ r = .input x i)
      ∨ ∃ lhs rhs, Q.sides x = some (lhs, rhs)
        ∧ ((Q.sizes lhs ≤ i ∧ r = .input rhs (i - Q.sizes lhs))
          ∨ (i < Q.sizes lhs ∧ r = .input lhs i))) := by
  unfold redirectInput at h
  split at h
  · next hs =>
      refine ⟨hs.1, ?_⟩
      split at h
      · next lhs rhs hsides =>
          split at h
          · next hle => exact .inr ⟨lhs, rhs, hsides, .inl ⟨hle, (some.inj h).symm⟩⟩
          · next hlt =>
              exact .inr ⟨lhs, rhs, hsides, .inr ⟨by omega, (some.inj h).symm⟩⟩
      · next hsides => exact .inl ⟨hsides, (some.inj h).symm⟩
  · cases h

theorem operatorType_redirect {Q : Plan D} {x : Nat} {e e' : Rex D}
    (h : e.deepCopy (redirectInput Q g x) = some e') : operatorType e' = operatorType e := by
  refine operatorType_deepCopy ?_ h
  intro s i r hr
  obtain ⟨-, ⟨-, rfl⟩ | ⟨_, _, -, ⟨-, rfl⟩ | ⟨-, rfl⟩⟩⟩ := redirectInput_cases hr <;> rfl

-- ------------------------------------------------ what the copies read

theorem columns_rebind (f g : Nat) (e : Rex D) (k : Nat) :
    (∃ p ∈ (rebind f g e).inputs, p.2 = k) ↔ ∃ p ∈ e.inputs, p.2 = k := by
  constructor
  · rintro ⟨p, hp, hk⟩
    obtain ⟨q, hq, rfl⟩ := mem_inputs_rebind hp
    exact ⟨q, hq, hk⟩
  · rintro ⟨p, hp, hk⟩
    obtain ⟨r, hr, hin⟩ := Rex.exists_of_deepCopy (deepCopy_rebind f g e) p hp
    obtain rfl := Option.some.inj hr
    exact ⟨_, hin _ (List.mem_singleton.mpr rfl), hk⟩

section Redirect

variable {Q : Plan D} {g x : Nat} {e e' : Rex D} (h : e.deepCopy (redirectInput Q g x) = some e')
include h

theorem columns_redirect (hsides : Q.sides x = none) (k : Nat) :
    (∃ p ∈ e'.inputs, p.2 = k) ↔ ∃ p ∈ e.inputs, p.2 = k := by
  have hvisit : ∀ {s i : Nat} {r : Rex D}, redirectInput Q g x s i = some r →
      r = .input x i := by
    intro s i r hr
    obtain ⟨-, ⟨-, rfl⟩ | ⟨lhs, rhs, hsome, -⟩⟩ := redirectInput_cases hr
    · rfl
    · rw [hsides] at hsome
      cases hsome
  constructor
  · rintro ⟨p, hp, hk⟩
    obtain ⟨q, hq, r, hr, hin⟩ := Rex.inputs_deepCopy h p hp
    obtain rfl := hvisit hr
    obtain rfl := List.mem_singleton.mp hin
    exact ⟨q, hq, hk⟩
  · rintro ⟨p, hp, hk⟩
    obtain ⟨r, hr, hin⟩ := Rex.exists_of_deepCopy h p hp
    obtain rfl := hvisit hr
    exact ⟨_, hin _ (List.mem_singleton.mpr rfl), hk⟩

/-- Over a join a column becomes one of the side it is on. -/
theorem sources_redirect {lhs rhs : Nat} (hsides : Q.sides x = some (lhs, rhs)) (a : Nat) :
    (∃ p ∈ e'.inputs, p.1 = a)
      ↔ ∃ k, (∃ p ∈ e.inputs, p.2 = k) ∧ columnSide Q lhs rhs k = a := by
  have hvisit : ∀ {s i : Nat} {r : Rex D}, redirectInput Q g x s i = some r →
      ∃ k, r = .input (columnSide Q lhs rhs i) k := by
    intro s i r hr
    unfold columnSide
    obtain ⟨-, ⟨hnone, -⟩ | ⟨lhs', rhs', hsome, hcase⟩⟩ := redirectInput_cases hr
    · rw [hsides] at hnone
      cases hnone
    · rw [hsides] at hsome
      cases hsome
      rcases hcase with ⟨hle, rfl⟩ | ⟨hlt, rfl⟩
      · exact ⟨_, by rw [if_pos hle]⟩
      · exact ⟨_, by rw [if_neg (by omega)]⟩
  constructor
  · rintro ⟨p, hp, ha⟩
    obtain ⟨q, hq, r, hr, hin⟩ := Rex.inputs_deepCopy h p hp
    obtain ⟨k, rfl⟩ := hvisit hr
    obtain rfl := List.mem_singleton.mp hin
    exact ⟨q.2, ⟨q, hq, rfl⟩, ha⟩
  · rintro ⟨k, ⟨p, hp, rfl⟩, ha⟩
    obtain ⟨r, hr, hin⟩ := Rex.exists_of_deepCopy h p hp
    obtain ⟨k, rfl⟩ := hvisit hr
    exact ⟨_, hin _ (List.mem_singleton.mpr rfl), ha⟩

end Redirect

-- ======== replaceInput

@[simp] theorem replaceInput_id (f g : Nat) (n : RelAlgNode D) :
    (replaceInput f g n).id = n.id := by
  obtain ⟨id, body⟩ := n
  cases body with
  | join ty lhs rhs c =>
    unfold replaceInput
    dsimp only
    split <;> rfl
  | _ => rfl

variable {f : Nat} {n : RelAlgNode D}

/-- Renaming where there is nothing to rename. -/
theorem replaceInput_of_free (hcompound : isCompound n = false) (hinputs : f ∉ n.inputs)
    (hexprs : ∀ p ∈ exprInputs n, p.1 ≠ f) : replaceInput f g n = n := by
  obtain ⟨id, body⟩ := n
  cases body with
  | scan size | logicalValues size => rfl
  | project input exprs fields =>
    have hne : input ≠ f := fun h => hinputs (List.mem_singleton.mpr h.symm)
    have hmap : exprs.map (rebind f g) = exprs := by
      refine (List.map_congr_left ?_).trans (List.map_id _)
      intro e he
      exact rebind_of_free fun p hp => hexprs p (List.mem_flatMap.mpr ⟨e, he, hp⟩)
    simp only [replaceInput, if_neg hne, hmap]
  | filter input c =>
    have hne : input ≠ f := fun h => hinputs (List.mem_singleton.mpr h.symm)
    simp only [replaceInput, if_neg hne, rebind_of_free hexprs]
  | aggregate input g' aggs fields =>
    have hne : input ≠ f := fun h => hinputs (List.mem_singleton.mpr h.symm)
    simp only [replaceInput, if_neg hne]
  | join ty lhs rhs c =>
    have hl : lhs ≠ f := fun h => hinputs (by simp [RelAlgNode.inputs, h])
    have hr : rhs ≠ f := fun h => hinputs (by simp [RelAlgNode.inputs, h])
    simp only [replaceInput, if_neg hl, if_neg hr, rebind_of_free hexprs]
  | sort input collation limit offset =>
    have hne : input ≠ f := fun h => hinputs (List.mem_singleton.mpr h.symm)
    simp only [replaceInput, if_neg hne]
  | compound input c => cases hcompound

theorem replaceInput_join {id lhs rhs : Nat} {ty : JoinType} {c : Rex D} (hne : lhs ≠ rhs) :
    replaceInput f g ⟨id, .join ty lhs rhs c⟩
      = ⟨id, .join ty (renamed f g lhs) (renamed f g rhs) (rebind f g c)⟩ := by
  unfold replaceInput renamed
  dsimp only
  by_cases hl : lhs = f
  · have hr : rhs ≠ f := fun h => hne (hl.trans h.symm)
    rw [if_pos hl, if_pos hl, if_neg hr]
  · rw [if_neg hl, if_neg hl]

theorem replaceInput_inputs (hsides : ∀ ty lhs rhs c, n.body = .join ty lhs rhs c → lhs ≠ rhs) :
    (replaceInput f g n).inputs = n.inputs.map (renamed f g) := by
  obtain ⟨id, body⟩ := n
  cases body with
  | join ty lhs rhs c =>
    rw [replaceInput_join (hsides ty lhs rhs c rfl)]
    rfl
  | _ => rfl

theorem isCompound_replaceInput (f g : Nat) (n : RelAlgNode D) :
    isCompound (replaceInput f g n) = isCompound n := by
  obtain ⟨id, body⟩ := n
  cases body with
  | join ty lhs rhs c =>
    unfold replaceInput
    dsimp only
    split <;> rfl
  | _ => rfl

theorem isJoin_replaceInput (f g : Nat) (n : RelAlgNode D) :
    (replaceInput f g n).isJoin = n.isJoin := by
  obtain ⟨id, body⟩ := n
  cases body with
  | join ty lhs rhs c =>
    unfold replaceInput
    dsimp only
    split <;> rfl
  | _ => rfl

/-- What becomes a filter was one. -/
theorem replaceInput_eq_filter {i y : Nat} {c : Rex D} (h : replaceInput f g n = ⟨i, .filter y c⟩) :
    ∃ x c₀, n = ⟨i, .filter x c₀⟩ ∧ y = renamed f g x ∧ c = rebind f g c₀ := by
  obtain ⟨id, body⟩ := n
  cases body with
  | filter x c₀ =>
    cases h
    exact ⟨x, c₀, rfl, rfl, rfl⟩
  | join ty lhs rhs c₀ =>
    unfold replaceInput at h
    dsimp only at h
    split at h <;> cases h
  | _ => cases h

end Compass.Optimizer

namespace Compass.Optimizer

open Compass.PushDown List
open Compass.RelAlg
open Compass.LeftDeep (JoinType Row Database column holds)

variable {D : Type}

-- ======== rebasing

section

variable {sizes : Nat → Nat} {lhs rhs base : Nat} (hne : lhs ≠ rhs)

include hne

/-- The column that an index of the range stands for. -/
theorem rebaseInput_eval (I : Interp D) {source index : Nat} (row : Row D)
    (hbase : base ≤ index) (hwidth : index < sizes lhs + sizes rhs) :
    ∃ r, rebaseInput lhs rhs base (sizes lhs) (sizes lhs + sizes rhs) source index = some r
      ∧ r.evalWith I (sideColumn sizes lhs rhs row) = column row (index - base) := by
  unfold rebaseInput
  rw [if_pos ⟨hbase, hwidth⟩]
  dsimp only
  split
  · next hright =>
      refine ⟨_, rfl, ?_⟩
      rw [Rex.evalWith, sideColumn, if_neg (Ne.symm hne), if_pos rfl]
      congr 1
      omega
  · refine ⟨_, rfl, ?_⟩
    rw [Rex.evalWith, sideColumn, if_pos rfl]

omit hne in
theorem rebaseInput_scope {source index : Nat} {r : Rex D}
    (hr : rebaseInput lhs rhs base (sizes lhs) (sizes lhs + sizes rhs) source index
      = some r) :
    ∀ p ∈ r.inputs, SideScope sizes lhs rhs p := by
  unfold rebaseInput at hr
  split at hr
  · next hb =>
      dsimp only at hr
      split at hr
      · cases hr
        intro p hp
        obtain rfl := mem_singleton.mp hp
        exact Or.inr ⟨rfl, by show _ - _ < _; omega⟩
      · cases hr
        intro p hp
        obtain rfl := mem_singleton.mp hp
        exact Or.inl ⟨rfl, by show _ - _ < _; omega⟩
  · cases hr

/-- The rebased condition has the value it had where the range starts. -/
theorem rebase_eval (I : Interp D) (row : Row D) {col : Nat → Nat → Value D} {e : Rex D}
    (hin : ∀ p ∈ e.inputs, base ≤ p.2 ∧ p.2 < sizes lhs + sizes rhs
      ∧ col p.1 p.2 = column row (p.2 - base)) :
    ∃ e', e.deepCopy (rebaseInput lhs rhs base (sizes lhs) (sizes lhs + sizes rhs))
        = some e'
      ∧ e'.evalWith I (sideColumn sizes lhs rhs row) = e.evalWith I col := by
  apply Rex.deepCopy_eval
  intro p hp
  obtain ⟨hbase, hwidth, hcol⟩ := hin p hp
  rw [hcol]
  exact rebaseInput_eval hne I row hbase hwidth

omit hne in
theorem rebase_scope {e e' : Rex D}
    (h : e.deepCopy (rebaseInput lhs rhs base (sizes lhs) (sizes lhs + sizes rhs))
      = some e') :
    ∀ p ∈ e'.inputs, SideScope sizes lhs rhs p := by
  intro p hp
  obtain ⟨p₀, -, r, hr, hin⟩ := Rex.inputs_deepCopy h p hp
  exact rebaseInput_scope hr p hin

end

-- ======== the conjunction

section

variable {visitInput : Nat → Nat → Option (Rex D)}

/-- Several conditions, all of them boolean operators. -/
theorem rebaseAll_spec {ptrs : List (CondPtr D)}
    (hcopy : ∀ c ∈ ptrs, ∃ e', c.rex.deepCopy visitInput = some e')
    (htype : ∀ c ∈ ptrs, ∃ ti, operatorType c.rex = some ti ∧ ti.type = .kBOOLEAN) :
    ∃ es notnull, rebaseAll visitInput (ptrs.map some) = some (es, notnull)
      ∧ Forall₂ (fun c e' => c.rex.deepCopy visitInput = some e') ptrs es := by
  induction ptrs with
  | nil => exact ⟨[], true, rfl, .nil⟩
  | cons c ptrs ih =>
    obtain ⟨e', he'⟩ := hcopy c mem_cons_self
    obtain ⟨ti, hti, hbool⟩ := htype c mem_cons_self
    obtain ⟨es, notnull, hes, hall⟩ :=
      ih (fun x hx => hcopy x (mem_cons_of_mem _ hx))
        fun x hx => htype x (mem_cons_of_mem _ hx)
    refine ⟨e' :: es, ti.notnull && notnull, ?_, .cons he' hall⟩
    simp [rebaseAll, he', hti, hbool, hes]

/-- The new condition of the join, whose truth is that of the copies. -/
theorem newJoinCondition_spec {ptrs : List (CondPtr D)} (hne : ptrs ≠ [])
    (hcopy : ∀ c ∈ ptrs, ∃ e', c.rex.deepCopy visitInput = some e') (htype : 2 ≤ ptrs.length →
      ∀ c ∈ ptrs, ∃ ti, operatorType c.rex = some ti ∧ ti.type = .kBOOLEAN) :
    ∃ e es, newJoinCondition visitInput (ptrs.map some) = some e
      ∧ Forall₂ (fun c e' => c.rex.deepCopy visitInput = some e') ptrs es
      ∧ (∀ p ∈ e.inputs, ∃ e' ∈ es, p ∈ e'.inputs)
      ∧ ∀ (I : Interp D) (col : Nat → Nat → Value D), (e.evalWith I col).truth = .yes ↔
            ∀ e' ∈ es, (e'.evalWith I col).truth = .yes := by
  match ptrs, hne, hcopy, htype with
  | [c], _, hcopy, _ =>
    obtain ⟨e', he'⟩ := hcopy c mem_cons_self
    refine ⟨e', [e'], he', .cons he' .nil, ?_, ?_⟩
    · exact fun p hp => ⟨e', mem_singleton.mpr rfl, hp⟩
    · intro I col
      simp
  | c :: d :: ptrs, _, hcopy, htype =>
    obtain ⟨es, notnull, hes, hall⟩ := rebaseAll_spec hcopy (htype (by simp))
    refine ⟨.oper .kAND es { type := .kBOOLEAN, notnull := notnull, size := 0 }, es,
      ?_, hall, ?_, ?_⟩
    · show (rebaseAll visitInput ((c :: d :: ptrs).map some)).map _ = _
      rw [hes]
      rfl
    · intro p hp
      exact Rex.mem_inputsAll.mp hp
    · intro I col
      rw [Rex.truth_and, Truth.all_eq_yes_iff]
      simp only [mem_map, forall_exists_index, and_imp, forall_apply_eq_imp_iff₂]

end

-- ======== the pieces

section

variable {source base width : Nat} {condition : Rex D}

/-- The parts of `splitsCleanly`. -/
theorem splitsCleanly_iff :
    splitsCleanly source base width condition = true ↔
      clean source base (base + width - 1) condition = true
        ∧ ((pieces source base (base + width - 1) condition).length ≤ 1
          ∨ ∀ e ∈ pieces source base (base + width - 1) condition, isInput e = false)
        ∧ ∀ e ∈ pieces source base (base + width - 1) condition,
            ∀ p ∈ e.inputs, p.2 < width := by
  unfold splitsCleanly
  simp only [Bool.and_eq_true, Bool.or_eq_true, decide_eq_true_eq, all_eq_true,
    Bool.not_eq_true', and_assoc]

/-- A piece that is no column is a boolean operator. -/
theorem operatorType_of_piece {first last : Nat} {e r : Rex D}
    (ht : wellTyped e = true) (hr : r ∈ pieces source first last e) (hin : isInput r = false) :
    ∃ ti, operatorType r = some ti ∧ ti.type = .kBOOLEAN := by
  have hop : ∀ (op : SQLOps) (es : List (Rex D)) (ti : SQLTypeInfo),
      whole source first last (.oper op es ti) = true →
      wellTyped (Rex.oper op es ti) = true → ti.type = .kBOOLEAN := by
    intro op es ti hw ht
    rcases whole_eq op es ti hw with ⟨rfl, -⟩ | ⟨l, r, rfl, -⟩
    · rw [wellTyped, Bool.and_eq_true, decide_eq_true_eq] at ht
      exact ht.1
    · rw [wellTyped, Bool.and_eq_true, Bool.and_eq_true, decide_eq_true_eq] at ht
      exact ht.1.1
  induction e using Rex.operand_induction with
  | oper op es ti ih =>
    by_cases hself : r = .oper op es ti
    · subst hself
      exact ⟨ti, rfl, hop op es ti (whole_of_mem_pieces hr) ht⟩
    · by_cases hand : op = .kAND
      · subst hand
        rw [pieces] at hr
        split at hr
        · exact absurd (mem_singleton.mp hr) hself
        · rw [piecesAll_eq_flatMap] at hr
          obtain ⟨x, hx, hrx⟩ := mem_flatMap.mp hr
          rw [wellTyped, wellTypedAll_eq_all, Bool.and_eq_true] at ht
          exact ih x hx (all_eq_true.mp ht.2 x hx) hrx
      · rw [pieces_of_not_and (by simp [hand])] at hr
        split at hr
        · exact absurd (mem_singleton.mp hr) hself
        · cases hr
  | input s i =>
    rw [pieces_of_not_and (by simp)] at hr
    split at hr
    · rw [mem_singleton.mp hr] at hin
      cases hin
    · cases hr
  | _ =>
    rw [pieces_of_not_and (by simp)] at hr
    simp [whole] at hr

/-- A condition that splits cleanly gives the join its condition, and
what it asks of a row is what the returned conditions ask. -/
theorem newJoinCondition_of_splitsCleanly {sizes : Nat → Nat} {lhs rhs : Nat}
    (hlr : lhs ≠ rhs) (ht : wellTyped condition = true)
    (hsplit : splitsCleanly source base (sizes lhs + sizes rhs) condition = true)
    {conds : List (Option (CondPtr D))}
    (hconds : findHoistableConditions source base (base + (sizes lhs + sizes rhs) - 1) []
      condition = conds) (hne : conds ≠ []) :
    ∃ e, newJoinCondition
        (rebaseInput lhs rhs base (sizes lhs) (sizes lhs + sizes rhs)) conds = some e
      ∧ (∀ p ∈ e.inputs, SideScope sizes lhs rhs p)
      ∧ ∀ (I : Interp D) (row : Row D) (col : Nat → Nat → Value D),
          (∀ i, col source (base + i) = column row i) →
          ((e.evalWith I (sideColumn sizes lhs rhs row)).truth = .yes ↔
            ∀ ptr, some ptr ∈ conds → (ptr.rex.evalWith I col).truth = .yes) := by
  obtain ⟨hclean, hcols, hwidth⟩ := splitsCleanly_iff.mp hsplit
  have hpiece : ∀ c ∈ conds, ∃ ptr, c = some ptr
      ∧ ptr.rex ∈ pieces source base (base + (sizes lhs + sizes rhs) - 1) condition := by
    intro c hc
    rw [← hconds] at hc
    exact mem_pieces_of_find ht hclean hc
  have hlen : conds.length
      = (pieces source base (base + (sizes lhs + sizes rhs) - 1) condition).length := by
    have h := congrArg length
      (@findHoistableConditions_eq_pieces D source base _ [] condition ht hclean)
    rwa [length_map, length_map, hconds] at h
  -- none of them is nullptr
  have hsome : conds.reduceOption.map some = conds := by
    apply Results.map_some_reduceOption
    intro c hc hnone
    obtain ⟨ptr, hptr, -⟩ := hpiece c hc
    rw [hnone] at hptr
    cases hptr
  generalize conds.reduceOption = ptrs at hsome
  subst hsome
  have hptr : ∀ ptr ∈ ptrs,
      ptr.rex ∈ pieces source base (base + (sizes lhs + sizes rhs) - 1) condition := by
    intro ptr hptr
    obtain ⟨_, heq, hmem⟩ := hpiece _ (mem_map_of_mem hptr)
    injection heq with heq
    rwa [heq]
  have hrange : ∀ ptr ∈ ptrs, ∀ p ∈ ptr.rex.inputs,
      p.1 = source ∧ base ≤ p.2 ∧ p.2 < sizes lhs + sizes rhs := by
    intro ptr hmem p hp
    obtain ⟨hs, hb, -⟩ := inputs_of_whole (whole_of_mem_pieces (hptr ptr hmem)) p hp
    exact ⟨hs, hb, hwidth _ (hptr ptr hmem) p hp⟩
  have hcopy : ∀ (I : Interp D) (row : Row D) (col : Nat → Nat → Value D),
      (∀ i, col source (base + i) = column row i) → ∀ ptr ∈ ptrs,
      ∃ e', ptr.rex.deepCopy
          (rebaseInput lhs rhs base (sizes lhs) (sizes lhs + sizes rhs)) = some e'
        ∧ e'.evalWith I (sideColumn sizes lhs rhs row) = ptr.rex.evalWith I col := by
    intro I row col hcol ptr hmem
    apply rebase_eval hlr
    intro p hp
    obtain ⟨hs, hb, hw⟩ := hrange ptr hmem p hp
    refine ⟨hb, hw, ?_⟩
    rw [hs, ← hcol, Nat.add_sub_cancel' hb]
  have hexists : ∀ ptr ∈ ptrs, ∃ e', ptr.rex.deepCopy
      (rebaseInput lhs rhs base (sizes lhs) (sizes lhs + sizes rhs)) = some e' := by
    intro ptr hmem
    obtain ⟨e', he', -⟩ := hcopy
      { apply := fun _ _ _ => .null, func := fun _ _ _ => .null, ref := fun _ => .null,
        subQuery := fun _ => .null } [] (fun _ _ => .null) (fun _ => rfl) ptr hmem
    exact ⟨e', he'⟩
  have htype : 2 ≤ ptrs.length → ∀ ptr ∈ ptrs,
      ∃ ti, operatorType ptr.rex = some ti ∧ ti.type = .kBOOLEAN := by
    intro htwo ptr hmem
    rw [length_map] at hlen
    rcases hcols with hone | hnone
    · omega
    · exact operatorType_of_piece ht (hptr ptr hmem) (hnone _ (hptr ptr hmem))
  obtain ⟨e, es, he, hall, hins, htruth⟩ :=
    newJoinCondition_spec (fun h => hne (by rw [h]; rfl)) hexists htype
  refine ⟨e, he, ?_, ?_⟩
  · intro p hp
    obtain ⟨e', he', hpe⟩ := hins p hp
    obtain ⟨k, hk, rfl⟩ := getElem_of_mem he'
    exact rebase_scope (hall.get (by rw [hall.length_eq]; exact hk) hk) p hpe
  · intro I row col hcol
    have hpair : Forall₂ (fun ptr e' => (ptr.rex.evalWith I col).truth = .yes ↔
        (e'.evalWith I (sideColumn sizes lhs rhs row)).truth = .yes) ptrs es := by
      refine ((forall₂_and_left ptrs es).mpr ⟨fun ptr h => h, hall⟩).imp ?_
      intro ptr e' h
      obtain ⟨e'', he'', heval⟩ := hcopy I row col hcol ptr h.1
      rw [h.2] at he''
      injection he'' with he''
      rw [← heval, he'']
    rw [htruth, ← Results.forall_mem_iff hpair]
    simp only [mem_map, Option.some.injEq, exists_eq_right]

end

end Compass.Optimizer
