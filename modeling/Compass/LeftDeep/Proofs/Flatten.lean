/-
What the constructor of the flattened node stores, and that the executor
reads it back.

`accumulate_spec` says what the loop over the joins leaves behind,
`rebind_eval` that a rebound condition reads the columns it read before,
and `loops_eq_flatRows` that the levels of the flattened node are the
joins of the tree again. With `rows_eq_filter` they give the equality of
the two relations, and the exact condition for it.
-/
import Compass.LeftDeep.Proofs.Join

namespace Compass.LeftDeep

open Compass.PushDown List Option Nat

variable {D : Type}

-- ======== what is accumulated

/-- The operand that a join gives to the inner condition. -/
def innerOf (join : OriginalJoin D) : Option (Rex D) :=
  if IsTrue join.condition then none
  else match join.joinType with
    | .INNER => some join.condition
    | .LEFT => none

/-- What stands in a join's place of the array. -/
def outerOf (join : OriginalJoin D) : Option (Rex D) :=
  if IsTrue join.condition then none
  else match join.joinType with
    | .INNER => none
    | .LEFT => some join.condition

/-- One round of the loop. -/
theorem add_spec (acc : Accumulated D) (join : OriginalJoin D) :
    (conditionTrue join.condition = none → acc.add join = none)
    ∧ (conditionTrue join.condition ≠ none → ∃ acc', acc.add join = some acc'
      ∧ acc'.operands = acc.operands ++ (innerOf join).toList
      ∧ acc'.outerConditionsPerLevel
        = acc.outerConditionsPerLevel ++ [outerOf join]) := by
  cases hc : conditionTrue join.condition with
  | none => exact ⟨fun _ => by simp [Accumulated.add, hc], fun h => absurd rfl h⟩
  | some b =>
    refine ⟨nofun, fun _ => ?_⟩
    cases b with
    | true =>
      have htrue : IsTrue join.condition := hc
      exact ⟨{ acc with outerConditionsPerLevel :=
          acc.outerConditionsPerLevel ++ [none] },
        by simp [Accumulated.add, hc], by simp [innerOf, htrue],
        by simp [outerOf, htrue]⟩
    | false =>
      have hfalse : ¬ IsTrue join.condition := by
        unfold IsTrue
        rw [hc]
        decide
      cases hty : join.joinType with
      | INNER | LEFT =>
        exact ⟨_, by simp only [Accumulated.add, hc, hty]; rfl,
          by simp [innerOf, hfalse, hty], by simp [outerOf, hfalse, hty]⟩

/-- Every condition that is a literal is a boolean one. -/
def BooleanLiterals (joins : List (OriginalJoin D)) : Prop :=
  ∀ join ∈ joins, conditionTrue join.condition ≠ none

/-- The whole loop. -/
theorem accumulate_spec (joins : List (OriginalJoin D)) :
    ∀ acc : Accumulated D, (¬ BooleanLiterals joins → joins.foldlM Accumulated.add acc = none)
      ∧ (BooleanLiterals joins → ∃ acc', joins.foldlM Accumulated.add acc = some acc'
        ∧ acc'.operands = acc.operands ++ joins.filterMap innerOf
        ∧ acc'.outerConditionsPerLevel
          = acc.outerConditionsPerLevel ++ joins.map outerOf) := by
  induction joins with
  | nil =>
    intro acc
    refine ⟨fun h => absurd (fun _ hj => by cases hj) h, fun _ => ?_⟩
    exact ⟨acc, rfl, by simp, by simp⟩
  | cons join joins ih =>
    intro acc
    rw [foldlM_cons]
    obtain ⟨hnone, hsome⟩ := add_spec acc join
    by_cases hj : conditionTrue join.condition = none
    · refine ⟨fun _ => by rw [hnone hj]; rfl, fun h => ?_⟩
      exact absurd hj (h join mem_cons_self)
    · obtain ⟨acc₁, hadd, hop, hout⟩ := hsome hj
      obtain ⟨ihnone, ihsome⟩ := ih acc₁
      rw [hadd, bind_eq_bind, bind_some]
      have hiff : BooleanLiterals (join :: joins) ↔ BooleanLiterals joins := by
        unfold BooleanLiterals
        simp [hj]
      rw [hiff]
      refine ⟨ihnone, fun h => ?_⟩
      obtain ⟨acc', hfold, hop', hout'⟩ := ihsome h
      refine ⟨acc', hfold, ?_, ?_⟩
      · rw [hop', hop, filterMap_cons]
        cases innerOf join <;> simp
      · rw [hout', hout]
        simp

-- ======== rebinding

/-- The flattened node covers a side of a join exactly when that side is
a join itself. -/
structure Covers (j : RelLeftDeepInnerJoin D) (tree : JoinTree D) : Prop where
  inputs : ∃ post, j.inputs = tree.inputs ++ post
  nodup : (j.inputs.map Node.id).Nodup
  joins : ∀ join ∈ tree.originalJoins, j.coversOriginalNode join.id = true
  nodes : ∀ n ∈ tree.inputs, j.coversOriginalNode n.id = false

variable {j j₀ : RelLeftDeepInnerJoin D} {i : Nat} {ty : JoinType} {c : Rex D} {rhs : Node}
  {es : List (Rex D)} {f : Nat → Nat → Option (Rex D)}

theorem Covers.lhs {lhs : JoinTree D} (h : Covers j (.join i ty c lhs rhs)) : Covers j lhs where
  inputs := by
    obtain ⟨post, hpost⟩ := h.inputs
    refine ⟨rhs :: post, ?_⟩
    rw [hpost]
    simp [JoinTree.inputs]
  nodup := h.nodup
  joins := fun join hjoin => h.joins join (mem_cons_of_mem _ hjoin)
  nodes := fun n hn => h.nodes n (mem_append_left _ hn)

theorem totalSize_append (pre post : List Node) :
    totalSize (pre ++ post) = totalSize pre + totalSize post := by
  simp [totalSize]

/-- A column of the left side stands at its own index. -/
theorem rebindInput_lhs {lhs : JoinTree D} (h : Covers j lhs) {index : Nat}
    (hidx : index < lhs.size) :
    ∃ s i, rebindInput j lhs.id index = some (.input s i)
      ∧ ∀ row : Row D, flatColumn j.inputs row s i = column row index := by
  obtain ⟨post, hpost⟩ := h.inputs
  cases lhs with
  | input n =>
    have hcov : j.coversOriginalNode n.id = false := h.nodes n mem_cons_self
    refine ⟨n.id, index, ?_, ?_⟩
    · unfold rebindInput
      rw [JoinTree.id, hcov]
      rfl
    · intro row
      unfold flatColumn
      rw [hpost]
      simp [JoinTree.inputs, offsetOf]
  | join i ty c lhs rhs =>
    have hcov : j.coversOriginalNode i = true :=
      h.joins ⟨i, ty, c⟩ mem_cons_self
    have hlt : index < totalSize j.inputs := by
      rw [hpost, totalSize_append, JoinTree.totalSize_inputs]
      omega
    obtain ⟨p, hp, -, hcol⟩ := locate_flatColumn (D := D) h.nodup hlt
    refine ⟨p.1, p.2, ?_, hcol⟩
    unfold rebindInput
    rw [JoinTree.id, hcov, if_pos rfl, hp]
    rfl

/-- A column of the right side stands behind those of the left side. -/
theorem rebindInput_rhs {lhs : JoinTree D} (h : Covers j (.join i ty c lhs rhs)) (index : Nat) :
    rebindInput j rhs.id index = some (.input rhs.id index)
      ∧ ∀ row : Row D, flatColumn j.inputs row rhs.id index
        = column row (lhs.size + index) := by
  have hcov : j.coversOriginalNode rhs.id = false :=
    h.nodes rhs (mem_append_right _ mem_cons_self)
  refine ⟨by unfold rebindInput; rw [hcov]; rfl, ?_⟩
  obtain ⟨post, hpost⟩ := h.inputs
  have hsplit : j.inputs = lhs.inputs ++ (rhs :: post) := by
    rw [hpost]
    simp [JoinTree.inputs]
  have hnot : rhs.id ∉ lhs.inputs.map Node.id := by
    have hnd := h.nodup
    rw [hsplit, map_append, map_cons] at hnd
    intro hmem
    exact (nodup_append.mp hnd).2.2 _ hmem _ mem_cons_self rfl
  have hoff : offsetOf j.inputs rhs.id = some (lhs.size + 0) := by
    rw [hsplit, ← JoinTree.totalSize_inputs lhs]
    exact offsetOf_append_right hnot (by simp [offsetOf])
  intro row
  unfold flatColumn
  rw [hoff]
  rfl

/-- A rebound condition of a join has the value it had. -/
theorem rebind_eval {lhs : JoinTree D} (h : Covers j (.join i ty c lhs rhs)) {e : Rex D}
    (hscope : ∀ p ∈ e.inputs, lhs.InScope rhs p) (hne : lhs.id ≠ rhs.id) :
    ∃ e', rebindInputsFromLeftDeepJoin j e = some e'
      ∧ ∀ (I : Interp D) (row : Row D), holds I (flatColumn j.inputs row) e'
          = holds I (joinColumn lhs rhs row) e := by
  have hcopy : ∀ (I : Interp D) (row : Row D), ∃ e', rebindInputsFromLeftDeepJoin j e = some e'
        ∧ e'.evalWith I (flatColumn j.inputs row)
          = e.evalWith I (joinColumn lhs rhs row) := by
    intro I row
    apply Rex.deepCopy_eval
    intro p hp
    rcases hscope p hp with hl | hr
    · obtain ⟨s, k, hreb, hcol⟩ := rebindInput_lhs h.lhs hl.2
      refine ⟨.input s k, by rw [hl.1, hreb], ?_⟩
      show flatColumn j.inputs row s k = _
      unfold joinColumn
      rw [hcol, if_pos hl.1]
    · obtain ⟨hreb, hcol⟩ := rebindInput_rhs h p.2
      refine ⟨.input rhs.id p.2, by rw [hr.1, hreb], ?_⟩
      show flatColumn j.inputs row rhs.id p.2 = _
      unfold joinColumn
      rw [hcol, if_neg (by rw [hr.1]; exact hne.symm), if_pos hr.1]
  -- the copy does not depend on the row it is evaluated on
  obtain ⟨e', he', -⟩ := hcopy
    ⟨fun _ _ _ => .null, fun _ _ _ => .null, fun _ => .null, fun _ => .null⟩ []
  refine ⟨e', he', ?_⟩
  intro I row
  obtain ⟨e'', he'', heval⟩ := hcopy I row
  rw [he', some.injEq] at he''
  subst he''
  unfold holds
  rw [heval]

-- ======== levels

/-- The flattened node stores, for every join of the tree, the rebound
condition of the join. -/
structure Stores (j₀ j : RelLeftDeepInnerJoin D) (joins : List (OriginalJoin D)) : Prop where
  inputs : j.inputs = j₀.inputs
  levels : j.inputs.length = joins.length + 1
  length : j.outerConditionsPerLevel.length = joins.length
  outer : ∀ (k : Nat) (join : OriginalJoin D), joins[k]? = some join → ∃ o,
    j.outerConditionsPerLevel[k]? = some o
      ∧ rebindOuter j₀ (outerOf join) = some o

section

variable {j₀ j : RelLeftDeepInnerJoin D}

variable {pre post : List (OriginalJoin D)}
variable {join : OriginalJoin D}

section

variable (h : Stores j₀ j (pre ++ join :: post))
include h

/-- Level `n + 1`, counted from the inside, is the join with `n` joins
below it. -/
theorem Stores.getOuterCondition : rebindOuter j₀ (outerOf join)
      = some (j.getOuterCondition (post.length + 1)) := by
  have hget : (pre ++ join :: post)[pre.length]? = some join := by
    rw [getElem?_append_right (Nat.le_refl _), Nat.sub_self]
    rfl
  obtain ⟨o, ho, hreb⟩ := h.outer _ _ hget
  have hidx : j.outerConditionsPerLevel.length - (post.length + 1)
      = pre.length := by
    rw [h.length, length_append, length_cons]
    omega
  unfold RelLeftDeepInnerJoin.getOuterCondition
  rw [hidx, getD_eq_getElem?_getD, ho, hreb]
  rfl

/-- The type of a level is read off the stored condition. -/
theorem Stores.joinType : j.leftDeepJoinTypes[post.length]?
      = some (if (j.getOuterCondition (post.length + 1)).isSome
          then .LEFT else .INNER) := by
  have hlt : post.length < j.inputs.length - 1 := by
    rw [h.levels, length_append, length_cons]
    omega
  unfold RelLeftDeepInnerJoin.leftDeepJoinTypes
  rw [getElem?_map, getElem?_range hlt]
  rfl

/-- What a level does. -/
theorem Stores.loopLevel (I : Interp D) (db : Database D)
    (rhs : Node) (rows : List (Row D)) : j.loopLevel I db (post.length + 1) rhs rows
      = match j.getOuterCondition (post.length + 1) with
        | some c => NestedLoop.leftJoin (· ++ ·) (nullExtend rhs)
            (fun row => holds I (flatColumn j.inputs row) c) rows (db rhs.id)
        | none => NestedLoop.innerJoin (· ++ ·) (fun _ => true) rows
            (db rhs.id) := by
  unfold RelLeftDeepInnerJoin.loopLevel
  rw [Nat.add_sub_cancel, getD_eq_getElem?_getD, h.joinType]
  cases hc : j.getOuterCondition (post.length + 1) with
  | none | some c => rfl

end

theorem loops_append (I : Interp D) (db : Database D) (rhs : Node)
    (xs : List Node) : ∀ (level : Nat) (rows : List (Row D)), j.loops I db level (xs ++ [rhs]) rows
        = j.loopLevel I db (level + xs.length) rhs
          (j.loops I db level xs rows) := by
  induction xs with
  | nil =>
    intro level rows
    rfl
  | cons x xs ih =>
    intro level rows
    show j.loops I db (level + 1) (xs ++ [rhs])
      (j.loopLevel I db level x rows) = _
    rw [ih, length_cons, add_assoc, add_comm 1]
    rfl

theorem JoinTree.length_inputs (t : JoinTree D) :
    t.inputs.length = t.originalJoins.length + 1 := by
  induction t with
  | input n => rfl
  | join i ty c lhs rhs ih =>
    simp [JoinTree.inputs, JoinTree.originalJoins, ih]

/-- A side of a join is another node than the other side. -/
theorem JoinTree.id_ne {i : Nat} {ty : JoinType} {c : Rex D} {lhs : JoinTree D} {rhs : Node}
    (h : (JoinTree.join i ty c lhs rhs).ids.Nodup) : lhs.id ≠ rhs.id := by
  have hmem : lhs.id ∈ lhs.ids := by
    cases lhs <;> exact mem_cons_self
  intro he
  rw [he] at hmem
  exact (nodup_cons.mp (nodup_cons.mp h).2).1 hmem

/-- The loops over the inputs of a subtree form the rows of the
subtree. -/
theorem loops_eq_flatRows (I : Interp D) (db : Database D) (s : JoinTree D) :
    ∀ (pre : List (OriginalJoin D)), Stores j₀ j (pre ++ s.originalJoins) →
      Covers j₀ s → s.Scoped → s.ids.Nodup →
      ∀ first rest, s.inputs = first :: rest →
        j.loops I db 1 rest (db first.id) = flatRows I db s := by
  induction s with
  | input n =>
    intro pre _ _ _ _ first rest hin
    cases hin
    rfl
  | join i ty c lhs rhs ih =>
    intro pre hstore hcov hscope hnd first rest hin
    obtain ⟨rest', hl⟩ : ∃ rest', lhs.inputs = first :: rest' := by
      cases hlhs : lhs.inputs with
      | nil =>
        have := lhs.length_inputs
        rw [hlhs] at this
        cases this
      | cons f rest' =>
        simp only [JoinTree.inputs, hlhs, cons_append, cons.injEq] at hin
        exact ⟨rest', by rw [hin.1]⟩
    have hrest : rest = rest' ++ [rhs] := by
      simp only [JoinTree.inputs, hl, cons_append, cons.injEq, true_and] at hin
      exact hin.symm
    have hlen : rest'.length = lhs.originalJoins.length := by
      have := lhs.length_inputs
      rw [hl, length_cons] at this
      omega
    have hbelow : j.loops I db 1 rest' (db first.id) = flatRows I db lhs := by
      have hstore' : Stores j₀ j ((pre ++ [⟨i, ty, c⟩])
          ++ lhs.originalJoins) := by
        rw [append_assoc]
        exact hstore
      have hnd' : lhs.ids.Nodup :=
        (nodup_cons.mp (nodup_cons.mp hnd).2).2
      exact ih _ hstore' hcov.lhs hscope.2 hnd' _ _ hl
    have houter := hstore.getOuterCondition
    rw [hrest, loops_append, hbelow, hlen, add_comm 1, hstore.loopLevel]
    -- the stored condition is that of this join, or there is none
    by_cases hc : IsTrue c
    · have hnone : outerOf ⟨i, ty, c⟩ = none := if_pos hc
      rw [hnone] at houter
      rw [← some.inj houter]
      cases ty with
      | INNER => rfl
      | LEFT => rw [flatRows_left, if_pos hc]
    · cases ty with
      | INNER =>
        have hnone : outerOf ⟨i, JoinType.INNER, c⟩ = none := if_neg hc
        rw [hnone] at houter
        rw [← some.inj houter]
        rfl
      | LEFT =>
        have hsome : outerOf ⟨i, JoinType.LEFT, c⟩ = some c := if_neg hc
        obtain ⟨c', hc', hval⟩ := rebind_eval hcov hscope.1
          (JoinTree.id_ne hnd)
        rw [hsome] at houter
        simp only [rebindOuter, hc', map_some, some.injEq] at houter
        rw [← houter, flatRows_left, if_neg hc]
        apply NestedLoop.leftJoin_congr
        intro l _ r _
        rw [hstore.inputs]
        exact hval I _

end

-- ======== the inner condition

theorem holds_conjunction (hne : es ≠ []) (nn : Bool) (I : Interp D) (col : Nat → Nat → Value D) :
    holds I col (conjunction es nn) = es.all (holds I col) := by
  have hand : ∀ ti : SQLTypeInfo, holds I col (.oper .kAND es ti)
      = es.all (holds I col) := by
    intro ti
    unfold holds
    rw [Rex.truth_and, Bool.eq_iff_iff, decide_eq_true_eq, List.all_eq_true, Truth.all_eq_yes_iff]
    simp only [List.mem_map, forall_exists_index, and_imp,
      forall_apply_eq_imp_iff₂, decide_eq_true_eq]
  match es, hne with
  | [e], _ => simp [conjunction]
  | e₁ :: e₂ :: rest, _ => exact hand _

variable {es' : List (Rex D)}

theorem length_deepCopyAll (h : Rex.deepCopyAll f es = some es') : es'.length = es.length := by
  induction es generalizing es' with
  | nil =>
    cases h
    rfl
  | cons e es ih =>
    simp only [Rex.deepCopyAll, bind_eq_bind, bind_eq_some_iff, some.injEq] at h
    obtain ⟨e', -, rest', hrest, rfl⟩ := h
    rw [length_cons, length_cons, ih hrest]

theorem deepCopyAll_append {e e' : Rex D} (hes : Rex.deepCopyAll f es = some es')
    (he : e.deepCopy f = some e') : Rex.deepCopyAll f (es ++ [e]) = some (es' ++ [e']) := by
  induction es generalizing es' with
  | nil =>
    cases hes
    simp [Rex.deepCopyAll, he]
  | cons x es ih =>
    simp only [Rex.deepCopyAll, bind_eq_bind, bind_eq_some_iff, some.injEq] at hes
    obtain ⟨x', hx, rest', hrest, rfl⟩ := hes
    simp [Rex.deepCopyAll, hx, ih hrest]

theorem deepCopy_conjunction (nn : Bool) (h : Rex.deepCopyAll f es = some es') :
    (conjunction es nn).deepCopy f = some (conjunction es' nn) := by
  have hlen := length_deepCopyAll h
  match es, es', hlen with
  | [], [], _ => simp [conjunction, Rex.deepCopy, Rex.deepCopyAll]
  | [e], [e'], _ =>
    simp only [Rex.deepCopyAll, bind_eq_bind, bind_eq_some_iff, some.injEq] at h
    obtain ⟨x, hx, rest, rfl, hcons⟩ := h
    rw [cons.injEq] at hcons
    rw [← hcons.1]
    exact hx
  | e₁ :: e₂ :: rest, e₁' :: e₂' :: rest', _ =>
    simp only [conjunction, Rex.deepCopy, h, map_some]

section

variable {j₀ : RelLeftDeepInnerJoin D}

/-- The rebound operands hold together where the inner conditions do. -/
theorem inner_rebound {s : JoinTree D} (hcov : Covers j₀ s)
    (hscope : s.Scoped) (hnd : s.ids.Nodup) :
    ∃ es', Rex.deepCopyAll (rebindInput j₀) (s.originalJoins.filterMap innerOf)
        = some es'
      ∧ ∀ (I : Interp D) (row : Row D),
        es'.all (holds I (flatColumn j₀.inputs row)) = innerHolds I s row := by
  induction s with
  | input n => exact ⟨[], rfl, fun _ _ => rfl⟩
  | join i ty c lhs rhs ih =>
    have hnd' : lhs.ids.Nodup :=
      (nodup_cons.mp (nodup_cons.mp hnd).2).2
    obtain ⟨es', hes', hval⟩ := ih hcov.lhs hscope.2 hnd'
    have hnone : innerOf ⟨i, ty, c⟩ = none →
        (∀ (I : Interp D) (row : Row D),
          innerHolds I (.join i ty c lhs rhs) row = innerHolds I lhs row) →
        ∃ es', Rex.deepCopyAll (rebindInput j₀)
            ((JoinTree.join i ty c lhs rhs).originalJoins.filterMap innerOf)
            = some es'
          ∧ ∀ (I : Interp D) (row : Row D), es'.all (holds I (flatColumn j₀.inputs row))
              = innerHolds I (.join i ty c lhs rhs) row := by
      intro hin hholds
      refine ⟨es', ?_, fun I row => (hval I row).trans (hholds I row).symm⟩
      rw [JoinTree.originalJoins, filterMap_cons, hin]
      exact hes'
    cases ty with
    | LEFT =>
      refine hnone ?_ fun _ _ => rfl
      unfold innerOf
      split <;> rfl
    | INNER =>
      by_cases hc : IsTrue c
      · refine hnone (if_pos hc) fun I row => ?_
        show (holds I (joinColumn lhs rhs row) c && _) = _
        rw [holds_of_isTrue hc, Bool.true_and]
      · have hsome : innerOf ⟨i, JoinType.INNER, c⟩ = some c := if_neg hc
        obtain ⟨c', hc', hcval⟩ := rebind_eval hcov hscope.1
          (JoinTree.id_ne hnd)
        have hcopy : c.deepCopy (rebindInput j₀) = some c' := hc'
        refine ⟨c' :: es', ?_, ?_⟩
        · rw [JoinTree.originalJoins, filterMap_cons, hsome]
          simp [Rex.deepCopyAll, hcopy, hes']
        · intro I row
          rw [all_cons, hcval, hval]
          rfl

/-- Every place of the array can be rebound. -/
theorem rebindOuter_isSome {s : JoinTree D} (hcov : Covers j₀ s)
    (hscope : s.Scoped) (hnd : s.ids.Nodup) :
    ∀ join ∈ s.originalJoins, ∃ o,
      rebindOuter j₀ (outerOf join) = some o := by
  induction s with
  | input n =>
    intro join hjoin
    cases hjoin
  | join i ty c lhs rhs ih =>
    intro join hjoin
    rcases mem_cons.mp hjoin with rfl | hjoin
    · obtain ⟨c', hc', -⟩ := rebind_eval hcov hscope.1 (JoinTree.id_ne hnd)
      cases ho : outerOf ⟨i, ty, c⟩ with
      | none => exact ⟨none, rfl⟩
      | some e =>
        have he : e = c := by
          unfold outerOf at ho
          split at ho
          · cases ho
          · cases ty <;> simp at ho
            exact ho.symm
        refine ⟨some c', ?_⟩
        rw [he]
        simp [rebindOuter, hc']
    · exact ih hcov.lhs hscope.2
        (nodup_cons.mp (nodup_cons.mp hnd).2).2 join hjoin

theorem mapM_rebindOuter {joins : List (OriginalJoin D)}
    (h : ∀ join ∈ joins, ∃ o, rebindOuter j₀ (outerOf join) = some o) :
    ∃ outer, (joins.map outerOf).mapM (rebindOuter j₀) = some outer
      ∧ outer.length = joins.length
      ∧ ∀ (k : Nat) (join : OriginalJoin D), joins[k]? = some join →
        ∃ o, outer[k]? = some o
          ∧ rebindOuter j₀ (outerOf join) = some o := by
  induction joins with
  | nil => exact ⟨[], rfl, rfl, fun k join hk => by simp at hk⟩
  | cons join joins ih =>
    obtain ⟨o, ho⟩ := h join mem_cons_self
    obtain ⟨outer, hmap, hlen, hget⟩ :=
      ih fun x hx => h x (mem_cons_of_mem _ hx)
    refine ⟨o :: outer, ?_, by simp [hlen], ?_⟩
    · rw [map_cons, mapM_cons, ho, hmap]
      rfl
    · intro k x hk
      cases k with
      | zero =>
        simp only [getElem?_cons_zero, some.injEq] at hk
        subst hk
        exact ⟨o, rfl, ho⟩
      | succ k => exact hget k x hk

end

-- ======== creation

theorem JoinTree.ids_perm (t : JoinTree D) :
    t.ids.Perm (t.originalJoins.map OriginalJoin.id ++ t.inputs.map Node.id) := by
  induction t with
  | input n => exact List.Perm.refl _
  | join i ty c lhs rhs ih =>
    simp only [JoinTree.ids, JoinTree.originalJoins, JoinTree.inputs,
      map_cons, map_append, map_nil, cons_append]
    refine Perm.cons i ?_
    rw [← append_assoc]
    exact (ih.cons rhs.id).trans (perm_append_singleton _ _).symm

variable {filter : Option (Filter D)}

/-- The node that the constructor builds covers the tree. -/
theorem covers_of_wellFormed {t : JoinTree D} (hwf : WellFormed t) (hf : ∀ f ∈ filter, f.id ∉ t.ids)
    (hin : j₀.inputs = t.inputs) (hjoins : j₀.originalJoins = t.originalJoins.map OriginalJoin.id)
    (hfilter : j₀.originalFilter = filter.map Filter.id) : Covers j₀ t where
  inputs := ⟨[], by rw [hin, append_nil]⟩
  nodup := by
    rw [hin]
    exact (nodup_append.mp ((t.ids_perm.nodup_iff).mp hwf.nodup)).2.1
  joins := by
    intro join hjoin
    unfold RelLeftDeepInnerJoin.coversOriginalNode
    rw [hjoins, Bool.or_eq_true, contains_iff_mem]
    exact Or.inr (mem_map_of_mem hjoin)
  nodes := by
    intro n hn
    have hmem : n.id ∈ t.inputs.map Node.id := mem_map_of_mem hn
    have hnot : n.id ∉ t.originalJoins.map OriginalJoin.id := by
      intro h
      have hdisj := (nodup_append.mp
        ((t.ids_perm.nodup_iff).mp hwf.nodup)).2.2
      exact hdisj _ h _ hmem rfl
    unfold RelLeftDeepInnerJoin.coversOriginalNode
    rw [hjoins, hfilter, Bool.or_eq_false_iff]
    constructor
    · cases filter with
      | none => rfl
      | some f =>
        have hne : f.id ≠ n.id := by
          intro he
          apply hf f rfl
          rw [he]
          exact t.ids_perm.mem_iff.mpr (mem_append_right _ hmem)
        simpa using hne
    · rwa [← Bool.not_eq_true, contains_iff_mem]

/-- No CHECK fails: literals are boolean, and a filter that joins an
inner condition is an operator. -/
def Accepted (filter : Option (Filter D)) (t : JoinTree D) : Prop :=
  BooleanLiterals t.originalJoins
    ∧ ∀ f ∈ filter, t.originalJoins.filterMap innerOf ≠ [] →
        operatorType f.condition ≠ none

/-- The filter holds on a row of the outermost join. -/
def filterHolds (I : Interp D) (filter : Option (Filter D))
    (lhs : JoinTree D) (rhs : Node) (row : Row D) : Bool :=
  match filter with
  | none => true
  | some f => holds I (joinColumn lhs rhs row) f.condition

section

variable {lhs : JoinTree D} (hwf : WellFormed (.join i ty c lhs rhs))
include hwf

section

variable (hf : ∀ f ∈ filter, f.Scoped (.join i ty c lhs rhs))
include hf

/-- The rebound inner condition holds where all inner conditions and the
filter hold. -/
theorem innerCondition_spec {acc : Accumulated D} {e : Rex D}
    (hcov : Covers j₀ (.join i ty c lhs rhs))
    (hop : acc.operands = (JoinTree.join i ty c lhs rhs).originalJoins.filterMap innerOf)
    (he : innerCondition acc (filter.map Filter.condition) = some e) :
    ∃ e', rebindInputsFromLeftDeepJoin j₀ e = some e'
      ∧ ∀ (I : Interp D) (row : Row D), holds I (flatColumn j₀.inputs row) e'
          = (innerHolds I (.join i ty c lhs rhs) row
            && filterHolds I filter lhs rhs row) := by
  obtain ⟨es', hes', hval⟩ := inner_rebound hcov hwf.inScope hwf.nodup
  have hne := JoinTree.id_ne hwf.nodup
  rw [← hop] at hes'
  have hlen := length_deepCopyAll hes'
  unfold innerCondition at he
  by_cases hnil : acc.operands = []
  · -- nothing but the filter
    have hinner : ∀ I row, innerHolds I (.join i ty c lhs rhs) row = true := by
      intro I row
      have hes : es' = [] := by
        rw [hnil] at hlen
        exact eq_nil_of_length_eq_zero hlen
      rw [← hval, hes]
      rfl
    rw [hnil, isEmpty_nil, if_pos rfl, some.injEq] at he
    cases filter with
    | none =>
      subst he
      exact ⟨.literal (.bool true), rfl, fun I row => by
        rw [hinner]
        rfl⟩
    | some f =>
      subst he
      obtain ⟨e', he', heval⟩ := rebind_eval hcov (hf f rfl).1 hne
      refine ⟨e', he', fun I row => ?_⟩
      rw [heval, hinner, Bool.true_and]
      rfl
  · have hempty : acc.operands.isEmpty = false := by
      rwa [isEmpty_eq_false_iff]
    have hes'ne : es' ≠ [] := by
      intro h
      rw [h] at hlen
      exact hnil (eq_nil_of_length_eq_zero hlen.symm)
    rw [hempty] at he
    cases filter with
    | none =>
      simp only [map_none, Bool.false_eq_true, if_false, some.injEq] at he
      subst he
      refine ⟨_, deepCopy_conjunction _ hes', fun I row => ?_⟩
      rw [holds_conjunction hes'ne, hval]
      exact (Bool.and_true _).symm
    | some f =>
      obtain ⟨f', hf', hfval⟩ := rebind_eval hcov (hf f rfl).1 hne
      simp only [map_some, Bool.false_eq_true, if_false] at he
      cases hty : operatorType f.condition with
      | none => rw [hty] at he; cases he
      | some ti =>
        rw [hty, some.injEq] at he
        subst he
        refine ⟨_, deepCopy_conjunction _ (deepCopyAll_append hes' hf'), fun I row => ?_⟩
        rw [holds_conjunction (by simp), all_append, hval]
        simp only [all_cons, all_nil, Bool.and_true]
        rw [hfval]
        rfl

/-- What `create_left_deep_join` returns. -/
theorem createLeftDeepJoin_spec : (¬ Accepted filter (.join i ty c lhs rhs) →
      createLeftDeepJoin filter (.join i ty c lhs rhs) = none)
    ∧ (Accepted filter (.join i ty c lhs rhs) → ∃ j₀ j,
      createLeftDeepJoin filter (.join i ty c lhs rhs) = some j
        ∧ Covers j₀ (.join i ty c lhs rhs)
        ∧ j.inputs = (JoinTree.join i ty c lhs rhs).inputs
        ∧ Stores j₀ j (JoinTree.join i ty c lhs rhs).originalJoins
        ∧ ∀ (I : Interp D) (row : Row D), holds I (flatColumn j.inputs row) j.condition
            = (innerHolds I (.join i ty c lhs rhs) row
              && filterHolds I filter lhs rhs row)) := by
  generalize ht : JoinTree.join i ty c lhs rhs = t at hwf hf ⊢
  obtain ⟨haccnone, haccsome⟩ := accumulate_spec t.originalJoins
    { operands := [], isNotnull := true, outerConditionsPerLevel := [] }
  by_cases hlit : BooleanLiterals t.originalJoins
  · obtain ⟨acc, hacc, hop, hout⟩ := haccsome hlit
    rw [nil_append] at hop hout
    constructor
    · intro hrej
      -- the filter is no operator
      have hfail : innerCondition acc (filter.map Filter.condition) = none := by
        unfold Accepted at hrej
        push Not at hrej
        obtain ⟨f, hfmem, hne, hty⟩ := hrej hlit
        subst hfmem
        have hempty : acc.operands.isEmpty = false := by
          rw [hop]
          exact isEmpty_eq_false_iff.mpr hne
        simp [innerCondition, hempty, hty]
      simp [createLeftDeepJoin, RelLeftDeepInnerJoin.construct, hacc, hfail]
    · intro hok
      obtain ⟨e, he⟩ : ∃ e, innerCondition acc (filter.map Filter.condition)
          = some e := by
        unfold innerCondition
        split
        · exact ⟨_, rfl⟩
        · rename_i hempty
          cases filter with
          | none => exact ⟨_, rfl⟩
          | some f =>
            have hne : t.originalJoins.filterMap innerOf ≠ [] := by
              rw [← hop]
              simpa using hempty
            cases hty : operatorType f.condition with
            | none => exact absurd hty (hok.2 f rfl hne)
            | some ti => exact ⟨_, by simp only [map_some, hty]; rfl⟩
      have hcons : ∃ j₀, RelLeftDeepInnerJoin.construct filter t.inputs
          t.originalJoins = some j₀ ∧ j₀.condition = e
            ∧ j₀.inputs = t.inputs
            ∧ j₀.originalJoins = t.originalJoins.map OriginalJoin.id
            ∧ j₀.originalFilter = filter.map Filter.id
            ∧ j₀.outerConditionsPerLevel = t.originalJoins.map outerOf := by
        refine ⟨⟨e, filter.map Filter.id, t.originalJoins.map OriginalJoin.id,
          t.originalJoins.map outerOf, t.inputs⟩, ?_, rfl, rfl, rfl, rfl, rfl⟩
        simp [RelLeftDeepInnerJoin.construct, hacc, he, hout]
      obtain ⟨j₀, hj₀, hcond, hin, hjoins, hfil, houter⟩ := hcons
      have hfids : ∀ f ∈ filter, f.id ∉ t.ids := by
        intro f hfm
        have hsc := hf f hfm
        rw [← ht] at hsc ⊢
        exact hsc.2
      have hcov := covers_of_wellFormed hwf hfids hin hjoins hfil
      obtain ⟨outer, hmap, hlen, hget⟩ := mapM_rebindOuter
        (rebindOuter_isSome hcov hwf.inScope hwf.nodup)
      subst ht
      obtain ⟨e', he', hval⟩ := innerCondition_spec hwf hf hcov hop he
      refine ⟨j₀, { j₀ with condition := e', outerConditionsPerLevel := outer },
        ?_, hcov, hin, ?_, hval⟩
      · simp only [createLeftDeepJoin, hj₀, bind_eq_bind, bind_some, houter, hmap, hcond, he']
        rfl
      · exact ⟨rfl, by rw [← JoinTree.length_inputs]; exact congrArg _ hin, hlen, hget⟩
  · constructor
    · intro _
      simp [createLeftDeepJoin, RelLeftDeepInnerJoin.construct, haccnone hlit]
    · intro hok
      exact absurd hok.1 hlit

end

-- ======== the two sides

/-- The rows of the flattened node: the loops, then all inner conditions
and the filter. -/
theorem rows_of_stores (hcov : Covers j₀ (.join i ty c lhs rhs))
    (hin : j.inputs = (JoinTree.join i ty c lhs rhs).inputs)
    (hstore : Stores j₀ j (JoinTree.join i ty c lhs rhs).originalJoins) {I : Interp D}
    (db : Database D) (hcond : ∀ row : Row D, holds I (flatColumn j.inputs row) j.condition
      = (innerHolds I (.join i ty c lhs rhs) row
        && filterHolds I filter lhs rhs row)) :
    j.rows I db = ((flatRows I db (.join i ty c lhs rhs)).filter
      (innerHolds I (.join i ty c lhs rhs))).filter
        (filterHolds I filter lhs rhs) := by
  have hloops := loops_eq_flatRows I db _ [] hstore hcov hwf.inScope hwf.nodup
  unfold RelLeftDeepInnerJoin.rows
  cases hins : j.inputs with
  | nil =>
    have hlen := hstore.levels
    rw [hins] at hlen
    cases hlen
  | cons first rest =>
    have hfirst := hloops first rest (by rw [← hin, hins])
    show (j.loops I db 1 rest (db first.id)).filter _ = _
    rw [hfirst, List.filter_filter]
    refine filter_congr ?_
    intro row _
    rw [← hins, hcond]
    exact Bool.and_comm _ _

omit hwf in
theorem filteredRows_eq (I : Interp D) (db : Database D)
    (filter : Option (Filter D)) (i : Nat) (ty : JoinType) (c : Rex D)
    (lhs : JoinTree D) (rhs : Node) :
    filteredRows I db filter (.join i ty c lhs rhs)
      = ((JoinTree.join i ty c lhs rhs).rows I db).filter
          (filterHolds I filter lhs rhs) := by
  cases filter with
  | none => exact (filter_true _).symm
  | some f => rfl

/-- On given tables the flattened node computes the nested joins exactly
when every LEFT join on TRUE has something on its right, or the nested
joins have no rows anyway. -/
theorem rows_eq_iff (hcov : Covers j₀ (.join i ty c lhs rhs))
    (hin : j.inputs = (JoinTree.join i ty c lhs rhs).inputs)
    (hstore : Stores j₀ j (JoinTree.join i ty c lhs rhs).originalJoins) {I : Interp D}
    {db : Database D} (hfit : db.Fits (.join i ty c lhs rhs))
    (hcond : ∀ row : Row D, holds I (flatColumn j.inputs row) j.condition
      = (innerHolds I (.join i ty c lhs rhs) row
        && filterHolds I filter lhs rhs row)) :
    j.rows I db = filteredRows I db filter (.join i ty c lhs rhs)
      ↔ RightsNonempty db (.join i ty c lhs rhs)
        ∨ filteredRows I db filter (.join i ty c lhs rhs) = [] := by
  rw [rows_of_stores hwf hcov hin hstore db hcond]
  by_cases hne : RightsNonempty db (.join i ty c lhs rhs)
  · refine iff_of_true ?_ (Or.inl hne)
    rw [filteredRows_eq, rows_eq_filter I db hwf.inScope hfit hne]
  · rw [flatRows_eq_nil I db hne]
    constructor
    · intro h
      exact Or.inr h.symm
    · intro h
      exact (h.resolve_left hne).symm

end

-- ======== the types

/-- The type that the flattened node shows for a join. -/
def flatType (join : OriginalJoin D) : JoinType :=
  if (outerOf join).isSome then .LEFT else .INNER

theorem isSome_of_rebindOuter {o o' : Option (Rex D)} (h : rebindOuter j₀ o = some o') :
    o'.isSome = o.isSome := by
  cases o with
  | none =>
    cases h
    rfl
  | some e =>
    simp only [rebindOuter, map_eq_some_iff] at h
    obtain ⟨e', -, rfl⟩ := h
    rfl

theorem Stores.leftDeepJoinTypes {joins : List (OriginalJoin D)} (h : Stores j₀ j joins) :
    j.leftDeepJoinTypes = (joins.map flatType).reverse := by
  have hlen : j.leftDeepJoinTypes.length = joins.length := by
    simp [RelLeftDeepInnerJoin.leftDeepJoinTypes, h.levels]
  apply ext_getElem?
  intro k
  by_cases hk : k < joins.length
  · -- the join with `k` joins below it
    obtain ⟨pre, join, post, hsplit, hpost⟩ :
        ∃ pre join post, joins = pre ++ join :: post ∧ post.length = k := by
      have hk' : joins.length - 1 - k < joins.length := by omega
      refine ⟨joins.take (joins.length - 1 - k), joins[joins.length - 1 - k],
        joins.drop (joins.length - 1 - k + 1), ?_, ?_⟩
      · rw [← drop_eq_getElem_cons hk', take_append_drop]
      · rw [length_drop]
        omega
    subst hsplit
    subst hpost
    rw [h.joinType, isSome_of_rebindOuter h.getOuterCondition,
      map_append, map_cons, reverse_append, reverse_cons,
      append_assoc, getElem?_append_right (by simp)]
    simp [flatType]
  · rw [getElem?_eq_none (by omega), getElem?_eq_none (by simp; omega)]

theorem JoinTree.joinTypes_eq (t : JoinTree D) :
    t.joinTypes = (t.originalJoins.map OriginalJoin.joinType).reverse := by
  induction t with
  | input n => rfl
  | join i ty c lhs rhs ih =>
    simp [JoinTree.joinTypes, JoinTree.originalJoins, ih]

theorem flatType_eq_iff (join : OriginalJoin D) :
    flatType join = join.joinType
      ↔ ¬ (join.joinType = .LEFT ∧ IsTrue join.condition) := by
  unfold flatType outerOf
  by_cases hc : IsTrue join.condition
  · cases hty : join.joinType <;> simp [hc]
  · cases hty : join.joinType <;> simp [hc]

/-- The types are kept exactly when no LEFT join is on TRUE. -/
theorem types_eq_iff {t : JoinTree D} (h : Stores j₀ j t.originalJoins) :
    j.leftDeepJoinTypes = t.joinTypes ↔ NoLeftTrue t := by
  rw [h.leftDeepJoinTypes, JoinTree.joinTypes_eq, reverse_inj]
  clear h
  induction t with
  | input n => exact iff_of_true rfl trivial
  | join i ty c lhs rhs ih =>
    rw [JoinTree.originalJoins, map_cons, map_cons, cons.injEq, ih, flatType_eq_iff]
    rfl

-- ======== the flattening

/-- The flattened node of a left-deep tree of joins with an optional
filter denotes the nested joins, and shows their join types, exactly when
no CHECK of the construction fails and no LEFT join of the tree is on the
literal TRUE. -/
theorem createLeftDeepJoin_denotes_iff (filter : Option (Filter D)) (i : Nat)
    (ty : JoinType) (c : Rex D) (lhs : JoinTree D) (rhs : Node)
    (hwf : WellFormed (.join i ty c lhs rhs)) (hf : ∀ f ∈ filter, f.Scoped (.join i ty c lhs rhs)) :
    (∃ j, createLeftDeepJoin filter (.join i ty c lhs rhs) = some j
      ∧ j.leftDeepJoinTypes = (JoinTree.join i ty c lhs rhs).joinTypes
      ∧ ∀ (I : Interp D) (db : Database D), db.Fits (.join i ty c lhs rhs) →
        j.rows I db = filteredRows I db filter (.join i ty c lhs rhs))
    ↔ Accepted filter (.join i ty c lhs rhs)
      ∧ NoLeftTrue (.join i ty c lhs rhs) := by
  obtain ⟨hrej, hacc⟩ := createLeftDeepJoin_spec hwf hf
  by_cases hok : Accepted filter (.join i ty c lhs rhs)
  · obtain ⟨j₀, j, hj, hcov, hin, hstore, hcond⟩ := hacc hok
    constructor
    · intro h
      obtain ⟨j', hj', htypes, -⟩ := h
      rw [hj, Option.some.injEq] at hj'
      subst hj'
      exact ⟨hok, (types_eq_iff hstore).mp htypes⟩
    · intro h
      refine ⟨j, hj, (types_eq_iff hstore).mpr h.2, ?_⟩
      intro I db hfit
      exact (rows_eq_iff hwf hcov hin hstore hfit (hcond I)).mpr
        (Or.inl (RightsNonempty.of_noLeftTrue db h.2))
  · constructor
    · intro h
      obtain ⟨j, hj, -⟩ := h
      rw [hrej hok] at hj
      cases hj
    · intro h
      exact absurd h.1 hok

-- ======== on TRUE

/-- One column, one row. -/
def oneRowNode : Node := { id := 0, size := 1 }

/-- One column, no rows. -/
def noRowNode : Node := { id := 1, size := 1 }

def leftOn (c : Rex Nat) : JoinTree Nat :=
  .join 2 .LEFT c (.input oneRowNode) noRowNode

def oneRowDb : Database Nat :=
  fun id => if id = 0 then [[.scalar 7]] else []

theorem leftOn_wellFormed {c : Rex Nat}
    (h : ∀ p ∈ c.inputs, JoinTree.InScope (D := Nat) (.input oneRowNode) noRowNode p) :
    WellFormed (leftOn c) where
  nodup := by
    show [2, 1, 0].Nodup
    decide
  inScope := ⟨h, trivial⟩

/-- A third table, of one column. -/
def thirdNode : Node := { id := 3, size := 1 }

def equalityOf (p q : Nat × Nat) : Rex Nat :=
  .oper .kEQ [.input p.1 p.2, .input q.1 q.2] { type := .kBOOLEAN, notnull := true, size := 0 }

/-- `(a JOIN b ON a = b) LEFT JOIN c ON b = c`. -/
def innerThenLeft : JoinTree Nat :=
  .join 4 .LEFT (equalityOf (2, 1) (3, 0))
    (.join 2 .INNER (equalityOf (0, 0) (1, 0)) (.input oneRowNode) noRowNode) thirdNode

/-- `WHERE a = c`. -/
def leftmostIsThird : Filter Nat := ⟨5, equalityOf (2, 0) (3, 0)⟩

/-- The flattening of an inner join, a LEFT join above it and a filter. -/
theorem createLeftDeepJoin_denotes_innerThenLeft :
    WellFormed innerThenLeft ∧ leftmostIsThird.Scoped innerThenLeft
      ∧ ∃ j, createLeftDeepJoin (some leftmostIsThird) innerThenLeft = some j
        ∧ j.leftDeepJoinTypes = innerThenLeft.joinTypes
        ∧ ∀ (I : Interp Nat) (db : Database Nat), db.Fits innerThenLeft →
          j.rows I db = filteredRows I db (some leftmostIsThird) innerThenLeft := by
  have hwf : WellFormed innerThenLeft := by
    refine ⟨show [4, 3, 2, 1, 0].Nodup by decide, ?_, ?_, trivial⟩
    · exact forall_mem_cons.2 ⟨.inl (by decide), forall_mem_singleton.2 (.inr (by decide))⟩
    · exact forall_mem_cons.2 ⟨.inl (by decide), forall_mem_singleton.2 (.inr (by decide))⟩
  have hscoped : leftmostIsThird.Scoped innerThenLeft :=
    ⟨forall_mem_cons.2 ⟨.inl (by decide), forall_mem_singleton.2 (.inr (by decide))⟩,
      show 5 ∉ [4, 3, 2, 1, 0] by decide⟩
  refine ⟨hwf, hscoped, (createLeftDeepJoin_denotes_iff (some leftmostIsThird) 4 .LEFT _ _ _ hwf
    (by rintro _ ⟨⟩; exact hscoped)).mpr ⟨⟨?_, ?_⟩, ?_, ?_, trivial⟩⟩
  · exact forall_mem_cons.2 ⟨by rintro ⟨⟩, forall_mem_singleton.2 (by rintro ⟨⟩)⟩
  · rintro _ ⟨⟩ _ ⟨⟩
  · exact fun h => absurd h.2 (by decide)
  · rintro ⟨⟨⟩, -⟩

/-- A LEFT join on TRUE with an empty right side loses its left row. -/
theorem createLeftDeepJoin_loses_left :
    ¬ ∀ (filter : Option (Filter Nat)) (i : Nat) (ty : JoinType) (c : Rex Nat)
        (lhs : JoinTree Nat) (rhs : Node),
      WellFormed (.join i ty c lhs rhs) →
      (∀ f ∈ filter, f.Scoped (.join i ty c lhs rhs)) →
      ∃ j, createLeftDeepJoin filter (.join i ty c lhs rhs) = some j
        ∧ j.leftDeepJoinTypes = (JoinTree.join i ty c lhs rhs).joinTypes
        ∧ ∀ (I : Interp Nat) (db : Database Nat), db.Fits (.join i ty c lhs rhs) →
          j.rows I db = filteredRows I db filter (.join i ty c lhs rhs) := by
  intro h
  have hwf : WellFormed (leftOn (.literal (.bool true))) :=
    leftOn_wellFormed nofun
  obtain ⟨j, hj, -, hrows⟩ := h none 2 .LEFT (.literal (.bool true))
    (.input oneRowNode) noRowNode hwf nofun
  have hfit : oneRowDb.Fits (leftOn (.literal (.bool true))) := by
    intro n hn row hrow
    have hn' : n = oneRowNode ∨ n = noRowNode := by
      simpa [leftOn, JoinTree.inputs] using hn
    rcases hn' with rfl | rfl
    · have hrow' : row = [.scalar 7] := by
        simpa [oneRowDb, oneRowNode] using hrow
      rw [hrow']
      rfl
    · simp [oneRowDb, noRowNode] at hrow
  have heq := hrows ⟨fun _ _ _ => .null, fun _ _ _ => .null, fun _ => .null,
    fun _ => .null⟩ oneRowDb hfit
  -- the node is the product with the empty side
  have hflat : createLeftDeepJoin none (leftOn (.literal (.bool true)))
      = some ⟨.literal (.bool true), none, [2], [none],
          [oneRowNode, noRowNode]⟩ := by
    rfl
  have hj' : some j = some ⟨.literal (.bool true), none, [2], [none],
      [oneRowNode, noRowNode]⟩ := hj.symm.trans hflat
  rw [Option.some.inj hj'] at heq
  have hne : filteredRows ⟨fun _ _ _ => .null, fun _ _ _ => .null,
      fun _ => .null, fun _ => .null⟩ oneRowDb none
      (leftOn (.literal (.bool true))) = [[.scalar 7, .null]] := by
    decide
  exact absurd (heq.trans hne) (by decide)

end Compass.LeftDeep
