/-
Runs of `fold_filters`.

A turn that folds keeps the invariant of the vector (`fold_shape`), so a
run that succeeds folds the filters that `folds` names in the plan it was
given (`run_shape`). Nothing is assumed here of what expressions read.
-/
import Compass.Optimizer.Proofs.RunShape

namespace Compass.Optimizer

open Compass.PushDown List
open Compass.RelAlg
open Compass.LeftDeep (JoinType)

variable {D : Type}

-- ======== a turn that folds

/-- What the nodes stand for after `f` has been folded into `g`. -/
def combined (merged : Nat → List Nat) (f g i : Nat) : List Nat :=
  if i = g then merged g ++ merged f else merged i

variable {merged : Nat → List Nat}

theorem combined_of_ne {f g i : Nat} (h : i ≠ g) : combined merged f g i = merged i :=
  if_neg h

theorem top_combined_of_ne {f g i : Nat} (h : i ≠ g) :
    top (combined merged f g) i = top merged i := by
  unfold top
  rw [combined_of_ne h]

theorem top_combined {f g : Nat} {above : List Nat} (h : merged f = f :: above) :
    top (combined merged f g) g = top merged f := by
  unfold top combined
  rw [if_pos rfl, h, getLastD_eq_getLast?, getLast?_append, getLast?_cons,
    Option.some_or, Option.getD_some, getLastD_cons, getLastD_eq_getLast?]

/-- A node that is not a join has one input at most. -/
theorem input_unique {n : RelAlgNode D} (hn : n.isJoin = false) {i j : Nat} (hi : i ∈ n.inputs)
    (hj : j ∈ n.inputs) : i = j := by
  obtain ⟨id, body⟩ := n
  cases body with
  | join ty lhs rhs c => cases hn
  | scan size | logicalValues size => cases hi
  | _ => exact (mem_singleton.mp hi).trans (mem_singleton.mp hj).symm

/-- A fold that has passed its CHECKs. -/
structure FoldTurn (s : FoldState D) (f g x : Nat) (cf cg cr : Rex D) : Prop
    extends FoldShape s.nodes f g x cf cg where
  copy : cf.deepCopy (redirectInput s.nodes g x) = some cr
  upperBoolean : IsBoolean cf
  lowerBoolean : IsBoolean cg

section Fold

variable {P : Plan D} {s : FoldState D} {merged : Nat → List Nat} {todo done : List Nat}
  {f g x : Nat} {cf cg cr : Rex D} (I : RunShape P s merged done) (S : FoldTurn s f g x cf cg cr)
include I S

/-- The node below the filter has nothing folded into it, and is below
it in the plan. -/
theorem fold_lower (hord : P.Ordered) (hP : P.map RelAlgNode.id = todo ++ f :: done) :
    merged g = [g] ∧ g ∉ f :: done ∧ ∃ c₀, ⟨f, .filter g c₀⟩ ∈ P := by
  obtain ⟨halone, -, hlater⟩ := I.input_alone hord S.upper hP (mem_singleton.mpr rfl)
  obtain ⟨c₀, hf₀, -⟩ := I.filter_kin hord S.upper hP
  exact ⟨halone, hlater, c₀, hf₀⟩

theorem fold_top {i : Nat} {n : RelAlgNode D} (hn : n ∈ s.nodes) (hne : n.id ≠ f)
    (hi : i ∈ n.inputs) : top (combined merged f g) (renamed f g i) = top merged i := by
  obtain ⟨above, hmerged, -⟩ := I.stacked _ S.upper
  unfold renamed
  split
  · next hif => rw [top_combined hmerged, hif]
  · exact top_combined_of_ne (S.input_ne hn hne i hi)

theorem fold_stacked (hord : P.Ordered) (hP : P.map RelAlgNode.id = todo ++ f :: done)
    (hfolds : folds P f = true) (c : Rex D) :
    ∀ n ∈ foldedPlan s.nodes f g c, ∃ above, combined merged f g n.id = n.id :: above
      ∧ Stacked P n.id above ∧ ∀ h ∈ above, h ∈ f :: done := by
  obtain ⟨halone, -, hf₀⟩ := fold_lower I S hord hP
  intro n hn
  obtain ⟨m, hm, hne, rfl⟩ := FoldShape.mem_foldedPlan.mp hn
  rw [foldedNode_id]
  by_cases hg : m.id = g
  · obtain ⟨above, hmerged, hstacked, hdone⟩ := I.stacked _ S.upper
    refine ⟨f :: above, ?_, ?_, ?_⟩
    · rw [hg, combined, if_pos rfl, halone, hmerged]
      rfl
    · rw [hg]
      exact ⟨hfolds, hf₀, hstacked⟩
    · intro h hh
      exact (mem_cons.mp hh).elim (fun heq => heq ▸ mem_cons_self)
        fun hmem => mem_cons_of_mem _ (hdone h hmem)
  · obtain ⟨above, hmerged, hstacked, hdone⟩ := I.stacked m hm
    rw [combined_of_ne hg]
    exact ⟨above, hmerged, hstacked, fun h hh => mem_cons_of_mem _ (hdone h hh)⟩

theorem fold_maximal (hord : P.Ordered) (hP : P.map RelAlgNode.id = todo ++ f :: done)
    (c : Rex D) : ∀ n ∈ foldedPlan s.nodes f g c, ∀ h c',
    ⟨h, .filter (top (combined merged f g) n.id) c'⟩ ∈ P → folds P h = true →
      h ∉ f :: done := by
  obtain ⟨-, -, c₀, hf₀⟩ := fold_lower I S hord hP
  intro n hn h c' hh hfold
  obtain ⟨m, hm, hne, rfl⟩ := FoldShape.mem_foldedPlan.mp hn
  rw [foldedNode_id] at hh
  -- a filter over the last one of `f` has been visited neither before nor now
  have hnot : ∀ k ∈ s.nodes, ⟨h, .filter (top merged k.id) c'⟩ ∈ P → k.id ≠ g →
      h ∉ f :: done := by
    intro k hk hhk hkg hmem
    rcases mem_cons.mp hmem with rfl | hdone
    · have hlater := not_visited_now hord hP hhk (mem_singleton.mpr rfl)
      obtain ⟨-, hself⟩ := I.alone hk fun h' => hlater (mem_cons_of_mem _ h')
      rw [hself] at hhk
      cases hord.eq_of_key hhk hf₀ rfl
      exact hkg rfl
    · exact I.maximal k hk h c' hhk hfold hdone
  by_cases hg : m.id = g
  · obtain ⟨above, hmerged, -⟩ := I.stacked _ S.upper
    rw [hg, top_combined hmerged] at hh
    exact hnot _ S.upper hh S.ne.1.symm
  · rw [top_combined_of_ne hg] at hh
    exact hnot m hm hh hg

omit S in
/-- What a node of the folded plan has is that of the last one of what is
folded into it. -/
theorem fold_of_top {α : Type} {new own old : Nat → α} (S : FoldShape s.nodes f g x cf cg)
    (hown : ∀ n ∈ s.nodes, own n.id = old (top merged n.id))
    (hnew : ∀ i, i ≠ f → new i = if i = g then own f else own i) (c : Rex D) :
    ∀ n ∈ foldedPlan s.nodes f g c, new n.id = old (top (combined merged f g) n.id) := by
  intro n hn
  obtain ⟨u, hu, hne, rfl⟩ := FoldShape.mem_foldedPlan.mp hn
  rw [foldedNode_id, hnew _ hne]
  split
  · next hg =>
      obtain ⟨above, hmerged, -⟩ := I.stacked _ S.upper
      rw [hg, top_combined hmerged]
      exact hown _ S.upper
  · next hg =>
      rw [top_combined_of_ne hg]
      exact hown u hu

omit S in
theorem fold_ids (hfolds : folds P f = true) (c : Rex D) :
    (foldedPlan s.nodes f g c).map RelAlgNode.id
      = (P.map RelAlgNode.id).filter fun i => !(decide (i ∈ f :: done) && folds P i) := by
  rw [FoldShape.ids_eq, I.ids, filter_filter]
  refine filter_congr fun i _ => ?_
  by_cases hi : i = f
  · simp [hi, hfolds]
  · simp [hi]

theorem fold_noCompound (c : Rex D) :
    ∀ n ∈ foldedPlan s.nodes f g c, isCompound n = false := by
  intro n hn
  obtain ⟨u, hu, -, rfl⟩ := FoldShape.mem_foldedPlan.mp hn
  rcases S.foldedNode_cases c hu with ⟨-, h⟩ | ⟨-, -, h⟩ | ⟨-, -, h⟩
  · rw [h]
    rfl
  · rw [h, isCompound_replaceInput]
    exact I.noCompound u hu
  · rw [h]
    exact I.noCompound u hu

theorem fold_sides_ne (c : Rex D) : ∀ n ∈ foldedPlan s.nodes f g c,
    ∀ ty lhs rhs c', n.body = .join ty lhs rhs c' → lhs ≠ rhs := by
  intro n hn ty lhs rhs c' hbody
  obtain ⟨u, hu, hne, rfl⟩ := FoldShape.mem_foldedPlan.mp hn
  rcases S.foldedNode_cases c hu with ⟨-, h⟩ | ⟨-, -, h⟩ | ⟨-, -, h⟩
  · rw [h] at hbody
    cases hbody
  · rw [h] at hbody
    have hsides := I.sides_ne u hu
    obtain ⟨id, body⟩ := u
    cases body with
    | join ty₀ lhs₀ rhs₀ c₀ =>
      have hne₀ := hsides ty₀ lhs₀ rhs₀ c₀ rfl
      rw [replaceInput_join hne₀] at hbody
      cases hbody
      rw [Ne, S.renamed_inj hu hne (by simp [RelAlgNode.inputs]) (by simp [RelAlgNode.inputs])]
      exact hne₀
    | _ => cases hbody
  · rw [h] at hbody
    exact I.sides_ne u hu ty lhs rhs c' hbody

variable {ty : JoinType}

variable (hord : P.Ordered)
include hord

variable (hP : P.map RelAlgNode.id = todo ++ f :: done)
include hP

/-- The sides of a join over which a fold takes place are those it had. -/
theorem fold_sides {j : Nat}
    (hj : top merged x = j) {lhs rhs : Nat} {c : Rex D} (hjoin : ⟨j, .join ty lhs rhs c⟩ ∈ P) :
    s.nodes.sides x = some (lhs, rhs) ∧ s.nodes.sizes lhs = P.sizes lhs := by
  obtain ⟨⟨x', body⟩, hx, hid⟩ := Plan.exists_input S.wo S.lower (mem_singleton.mpr rfl)
  obtain rfl : x' = x := hid
  have hself : top merged x' = x' := I.eq_of_top_join hord hx (by rw [hj]; exact hjoin)
  obtain rfl : x' = j := hself.symm.trans hj
  obtain ⟨m, hm, hkin⟩ := I.kin _ hx
  obtain rfl := hord.eq_of_key hm hjoin hkin.id
  have hisJoin := hkin.isJoin
  cases body with
  | join ty' lhs' rhs' c' =>
    have hinputs : [top merged lhs', top merged rhs'] = [lhs, rhs] := hkin.inputs
    simp only [cons.injEq, and_true] at hinputs
    -- what is below `f` has not been visited, down to the sides
    obtain ⟨-, hg, hf⟩ := fold_lower I S hord hP
    obtain ⟨⟨g', body⟩, hm', hkin'⟩ := I.kin _ S.lower
    obtain rfl : g' = g := hkin'.id
    have hxm : x' ∈ (⟨g', body⟩ : RelAlgNode D).inputs := by
      rw [← hkin'.inputs]
      exact mem_singleton.mpr hself.symm
    have hx' : x' ∉ f :: done := not_visited hord hP hm' hg hxm
    have hside : ∀ i ∈ [lhs', rhs'], top merged i = i := by
      intro i hi
      have htop : top merged i ∈ (⟨x', .join ty lhs rhs c⟩ : RelAlgNode D).inputs := by
        rw [← hkin.inputs]
        exact mem_map_of_mem hi
      have hlater := not_visited hord hP hjoin hx' htop
      obtain ⟨k, hk, rfl⟩ := Plan.exists_input S.wo hx hi
      exact (I.alone hk fun h => hlater (mem_cons_of_mem _ h)).2
    rw [hside lhs' (by simp), hside rhs' (by simp)] at hinputs
    obtain ⟨rfl, rfl⟩ := hinputs
    refine ⟨Plan.sides_of_join S.wo hx, ?_⟩
    obtain ⟨k, hk, rfl⟩ := Plan.exists_input S.wo hx (show lhs' ∈ _ by simp [RelAlgNode.inputs])
    rw [I.sizes k hk, hside k.id (by simp)]
  | _ => cases hisJoin

theorem fold_columns (ti : SQLTypeInfo) : ∀ i y c,
    ⟨i, .filter y c⟩ ∈ foldedPlan s.nodes f g (.oper .kAND [cg, cr] ti) →
      P.sides (top (combined merged f g) y) = none →
      ∀ k, (∃ p ∈ c.inputs, p.2 = k) ↔ ∃ h ∈ combined merged f g i, ReadsColumn P h k := by
  intro i y c hmem hsides k
  obtain ⟨u, hu, hne, hnode⟩ := FoldShape.mem_foldedPlan.mp hmem
  rcases S.foldedNode_cases (.oper .kAND [cg, cr] ti) hu with ⟨-, h⟩ | ⟨hg, -, h⟩ | ⟨hg, hf, h⟩
  · rw [h] at hnode
    cases hnode
    rw [top_combined_of_ne S.ne.2.2] at hsides
    have hnow : s.nodes.sides x = none := by
      cases hx : s.nodes.sides x with
      | none => rfl
      | some q =>
        obtain ⟨ty, c, hjoin⟩ := join_of_sides hx
        obtain ⟨htop, ty₀, c₀, hjoin₀⟩ := I.join_kin hord hjoin
        rw [htop, Plan.sides_of_join hord hjoin₀] at hsides
        cases hsides
    have hlower : P.sides (top merged g) = none := by
      obtain ⟨-, htop, hlater⟩ := I.input_alone hord S.upper hP (mem_singleton.mpr rfl)
      obtain ⟨y, c₀, hg₀⟩ := (I.input_filter hord fun h => hlater (mem_cons_of_mem _ h)).mp
        ⟨x, cg, S.lower⟩
      rw [htop, sides_of_filter hord hg₀]
    have hboth : (∃ p ∈ (Rex.oper .kAND [cg, cr] ti).inputs, p.2 = k)
        ↔ (∃ p ∈ cg.inputs, p.2 = k) ∨ ∃ p ∈ cr.inputs, p.2 = k := by
      simp only [Rex.inputs, Rex.inputsAll, append_nil, mem_append, or_and_right, exists_or]
    rw [hboth, columns_redirect S.copy hnow k, I.columns g x cg S.lower hsides k,
      I.columns f g cf S.upper hlower k, combined, if_pos rfl]
    simp only [mem_append, or_and_right, exists_or]
  · rw [h] at hnode
    obtain ⟨z, c₀, rfl, rfl, rfl⟩ := replaceInput_eq_filter hnode
    rw [fold_top I S hu hne (mem_singleton.mpr rfl)] at hsides
    rw [columns_rebind, I.columns i z c₀ hu hsides k, combined_of_ne hg]
  · rw [h] at hnode
    subst hnode
    have hy : y ≠ f := fun heq => hf (mem_singleton.mpr heq.symm)
    have htop := fold_top I S hu hne (mem_singleton.mpr rfl)
    rw [renamed, if_neg hy] at htop
    rw [htop] at hsides
    rw [I.columns i y c hu hsides k, combined_of_ne hg]

omit hP in
/-- A node over a join does not read the filter. -/
theorem fold_overJoin (hfolds : folds P f = true) {u m : RelAlgNode D}
    (hkin : Kin P merged u m) (hisJoin : m.isJoin = false) {j lhs rhs : Nat} {c : Rex D}
    (hj : j ∈ m.inputs) (hjoin : ⟨j, .join ty lhs rhs c⟩ ∈ P) : f ∉ u.inputs := by
  intro hf
  have hmem : top merged f ∈ m.inputs := by
    rw [← hkin.inputs]
    exact mem_map_of_mem hf
  obtain rfl := input_unique hisJoin hj hmem
  obtain ⟨y, c', _, _, hfilter, -⟩ := filter_of_folds hord (I.folds_top S.upper hfolds)
  cases hord.eq_of_key hjoin hfilter rfl

/-- The folded filter over a join. -/
theorem fold_sources
    {m : RelAlgNode D} (hkin : Kin P merged ⟨g, .filter x cg⟩ m) (hisJoin : m.isJoin = false)
    {j lhs rhs : Nat} {c : Rex D} (hj : j ∈ m.inputs) (hjoin : ⟨j, .join ty lhs rhs c⟩ ∈ P)
    (ti : SQLTypeInfo) (a : Nat) :
    (∃ p ∈ (Rex.oper .kAND [cg, cr] ti).inputs, p.1 = a) ↔ (∃ p ∈ exprInputs m, p.1 = a)
      ∨ ∃ h ∈ (combined merged f g g).tail, ∃ k, ReadsColumn P h k
        ∧ columnSide P lhs rhs k = a := by
  obtain ⟨halone, hlater, -⟩ := fold_lower I S hord hP
  obtain ⟨y, c₀, hg₀⟩ := (I.input_filter hord fun h => hlater (mem_cons_of_mem _ h)).mp
    ⟨x, cg, S.lower⟩
  have htopg : top merged g = g := by
    unfold top
    rw [halone]
    rfl
  have hcolumns : ∀ k, (∃ p ∈ cf.inputs, p.2 = k) ↔ ∃ h ∈ merged f, ReadsColumn P h k :=
    I.columns f g cf S.upper (by rw [htopg, sides_of_filter hord hg₀])
  have hx : top merged x = j := by
    rw [← hkin.inputs] at hj
    exact (mem_singleton.mp hj).symm
  obtain ⟨hsides, hsize⟩ := fold_sides I S hord hP hx hjoin
  have hside : ∀ k, columnSide s.nodes lhs rhs k = columnSide P lhs rhs k := by
    intro k
    unfold columnSide
    rw [hsize]
  have hlower := hkin.overJoin hisJoin j ty lhs rhs c hj hjoin a
  dsimp only [exprInputs] at hlower
  rw [halone] at hlower
  simp only [tail_cons, not_mem_nil, false_and, exists_false, or_false] at hlower
  have hboth : (∃ p ∈ (Rex.oper .kAND [cg, cr] ti).inputs, p.1 = a)
      ↔ (∃ p ∈ cg.inputs, p.1 = a) ∨ ∃ p ∈ cr.inputs, p.1 = a := by
    simp only [Rex.inputs, Rex.inputsAll, append_nil, mem_append, or_and_right, exists_or]
  rw [hboth, hlower, sources_redirect S.copy hsides a, combined, if_pos rfl, halone]
  simp only [hside, hcolumns, cons_append, nil_append, tail_cons]
  refine or_congr Iff.rfl ?_
  constructor
  · rintro ⟨k, ⟨h, hh, hread⟩, ha⟩
    exact ⟨h, hh, k, hread, ha⟩
  · rintro ⟨h, hh, k, hread, ha⟩
    exact ⟨k, ⟨h, hh, hread⟩, ha⟩

theorem fold_kin (hfolds : folds P f = true) {ti : SQLTypeInfo} (hti : ti.type = .kBOOLEAN) :
    ∀ n ∈ foldedPlan s.nodes f g (.oper .kAND [cg, cr] ti), ∃ m ∈ P,
      Kin P (combined merged f g) n m := by
  intro n hn
  obtain ⟨u, hu, hne, rfl⟩ := FoldShape.mem_foldedPlan.mp hn
  obtain ⟨m, hm, hkin⟩ := I.kin u hu
  have hinputs : (foldedNode s.nodes f g (.oper .kAND [cg, cr] ti) u).inputs.map
      (top (combined merged f g)) = m.inputs := by
    rw [S.inputs_foldedNode _ hu, ← hkin.inputs, map_map]
    exact map_congr_left fun i hi => fold_top I S hu hne hi
  refine ⟨m, hm, ?_⟩
  rcases S.foldedNode_cases (.oper .kAND [cg, cr] ti) hu with ⟨hg, h⟩ | ⟨hg, hf, h⟩ | ⟨hg, hf, h⟩
  · obtain rfl := S.wo.eq_of_key hu S.lower hg
    rw [h] at hinputs ⊢
    refine ⟨hkin.id, hinputs, hkin.isJoin, ?_, ?_, ?_⟩
    · intro y c₀ hbody
      obtain ⟨z, c, hz, -, hbool⟩ := hkin.filter y c₀ hbody
      cases hz
      obtain ⟨ti₀, hti₀, -⟩ := hbool.mpr S.lowerBoolean
      refine ⟨x, _, rfl, ?_, fun _ => ⟨ti, rfl, hti⟩, fun _ => hbool.mpr S.lowerBoolean⟩
      rw [hti₀]
      rfl
    · exact fun y c hbody => hkin.wasFilter x cg rfl
    · intro hisJoin j ty lhs rhs c hj hjoin
      exact fold_sources I S hord hP hkin hisJoin hj hjoin ti
  · rw [h] at hinputs ⊢
    refine ⟨?_, hinputs, ?_, ?_, ?_, ?_⟩
    · rw [replaceInput_id, hkin.id]
    · rw [isJoin_replaceInput, hkin.isJoin]
    · intro y c₀ hbody
      obtain ⟨z, c, hz, hsome, hbool⟩ := hkin.filter y c₀ hbody
      obtain ⟨id, body⟩ := u
      obtain rfl : body = .filter z c := hz
      refine ⟨renamed f g z, rebind f g c, rfl, ?_, ?_⟩
      · rw [operatorType_rebind, hsome]
      · rw [hbool, IsBoolean, IsBoolean, operatorType_rebind]
    · intro y c hbody
      have hfilter : replaceInput f g u = ⟨u.id, .filter y c⟩ := by
        rw [← hbody, ← replaceInput_id f g u]
      obtain ⟨z, c₀, hu', -⟩ := replaceInput_eq_filter hfilter
      exact hkin.wasFilter z c₀ (congrArg RelAlgNode.body hu')
    · intro hisJoin j ty lhs rhs c hj hjoin
      exact absurd hf (fold_overJoin I S hord hfolds hkin hisJoin hj hjoin)
  · rw [h] at hinputs ⊢
    refine { hkin with inputs := hinputs, overJoin := ?_ }
    rw [combined_of_ne hg]
    exact hkin.overJoin

theorem fold_boolean : ∀ f' ∈ f :: done, folds P f' = true → ∀ g c x c', ⟨f', .filter g c⟩ ∈ P →
      ⟨g, .filter x c'⟩ ∈ P → IsBoolean c ∧ IsBoolean c' := by
  intro f' hf' hfolds g₁ c x₁ c' hupper hlower
  rcases mem_cons.mp hf' with rfl | hdone
  · obtain ⟨c₀, hf₀, -, hbool⟩ := I.filter_kin hord S.upper hP
    cases hord.eq_of_key hf₀ hupper rfl
    obtain ⟨m, hm, hkin⟩ := I.kin _ S.lower
    obtain rfl := hord.eq_of_key hm hlower hkin.id
    obtain ⟨z, c₁, hz, -, hbool'⟩ := hkin.filter x₁ c' rfl
    cases hz
    exact ⟨hbool.mpr S.upperBoolean, hbool'.mpr S.lowerBoolean⟩
  · exact I.boolean f' hdone hfolds g₁ c x₁ c' hupper hlower

/-- A turn that folds. -/
theorem fold_shape (hfolds : folds P f = true) {ti : SQLTypeInfo} (hti : ti.type = .kBOOLEAN) :
    RunShape P (foldInto s f g (.oper .kAND [cg, cr] ti)) (combined merged f g) (f :: done) := by
  have hs : s = ⟨s.nodes, s.nodes.users⟩ := by
    rw [← I.web]
  have hnodes : (foldInto s f g (.oper .kAND [cg, cr] ti)).nodes
      = foldedPlan s.nodes f g (.oper .kAND [cg, cr] ti) := by
    rw [hs]
    exact FoldShape.nodes_foldInto _
  have hweb : (foldInto s f g (.oper .kAND [cg, cr] ti)).web
      = (foldedPlan s.nodes f g (.oper .kAND [cg, cr] ti)).users := by
    rw [hs]
    exact S.web_foldInto _
  constructor
  case boolean => exact fold_boolean I S hord hP
  all_goals rw [hnodes]
  case wo => exact S.ordered _
  case sides_ne => exact fold_sides_ne I S _
  case noCompound => exact fold_noCompound I S _
  case web => exact hweb
  case ids => exact fold_ids I hfolds _
  case stacked => exact fold_stacked I S hord hP hfolds _
  case maximal => exact fold_maximal I S hord hP _
  case kin => exact fold_kin I S hord hP hfolds hti
  case users => exact fold_of_top I S.1 I.users (fun i hi => by rw [S.users_eq, if_neg hi]) _
  case sizes =>
    refine fold_of_top I S.1 I.sizes (fun i hi => ?_) _
    rw [S.sizes_eq, S.sizes_upper]
    dsimp only
    rw [if_neg hi, ite_eq_right_iff.2 fun hg => congrArg _ hg.symm]
  case columns => exact fold_columns I S hord hP ti

end Fold

-- ======== the run

section Run

variable {P : Plan D} {s : FoldState D} {merged : Nat → List Nat} {todo done : List Nat}
variable {f : Nat}

section

variable (I : RunShape P s merged done)
include I

variable (hord : P.Ordered)
include hord

variable (hP : P.map RelAlgNode.id = todo ++ f :: done)
include hP

theorem exists_visited : ∃ n ∈ s.nodes, n.id = f := by
  have hnodup : (P.map RelAlgNode.id).Nodup :=
    pairwise_map.mpr (hord.after.imp fun h => h.1)
  have hdone : f ∉ done := by
    rw [hP, nodup_append] at hnodup
    exact (nodup_cons.mp hnodup.2.1).1
  obtain ⟨m, hm, hmf⟩ := mem_map.mp (show f ∈ P.map RelAlgNode.id by simp [hP])
  obtain ⟨n, hn, hkin⟩ := I.exists_node hord hm fun h => absurd (hmf ▸ h) hdone
  exact ⟨n, hn, hkin.id.symm.trans hmf⟩

/-- A turn does what the plan the run was given says. -/
theorem foldNode_eq : (folds P f = false ∧ foldNode s f = some s)
      ∨ (folds P f = true ∧ ∃ g x cf cg, FoldShape s.nodes f g x cf cg
          ∧ foldNode s f = (cf.deepCopy (redirectInput s.nodes g x)).bind fun cr =>
              (foldedCondition cg cr).bind fun c => some (foldInto s f g c)) := by
  obtain ⟨⟨f', body⟩, hn, hid⟩ := exists_visited I hord hP
  obtain rfl : f' = f := hid
  have hnode : s.nodes.node? f' = some ⟨f', body⟩ := Plan.node?_of_mem I.wo hn
  unfold foldNode
  rw [hnode]
  cases body with
  | filter g cf =>
    have hdecide := I.folds_iff_now hord hn hP
    obtain ⟨⟨g', body'⟩, hg, hid⟩ := Plan.exists_input I.wo hn (mem_singleton.mpr rfl)
    obtain rfl : g' = g := hid
    have hnode' : s.nodes.node? g' = some ⟨g', body'⟩ := Plan.node?_of_mem I.wo hg
    dsimp only
    rw [hnode']
    cases body' with
    | filter x cg =>
      dsimp only
      by_cases hlength : (s.web g').length = 1
      · rw [if_neg (by simp [hlength])]
        by_cases hsome : (operatorType cf).isSome = true
        · rw [if_neg (by simp [Option.isSome_iff_ne_none.mp hsome])]
          refine .inr ⟨hdecide.mpr ⟨⟨x, cg, hg⟩, hlength, hsome⟩, g', x, cf, cg, ?_, rfl⟩
          refine ⟨I.wo, I.sides_ne, hn, hg, ?_⟩
          have hmem : f' ∈ s.nodes.users g' :=
            Plan.mem_users.mpr ⟨_, hn, mem_singleton.mpr rfl, rfl⟩
          rw [← I.web] at hmem ⊢
          obtain ⟨u, hu⟩ := length_eq_one_iff.mp hlength
          rw [hu] at hmem ⊢
          rw [mem_singleton.mp hmem]
        · rw [if_pos (by simpa using hsome)]
          refine .inl ⟨?_, rfl⟩
          rw [Bool.eq_false_iff]
          exact fun h => hsome (hdecide.mp h).2.2
      · rw [if_pos hlength]
        refine .inl ⟨?_, rfl⟩
        rw [Bool.eq_false_iff]
        exact fun h => hlength (hdecide.mp h).2.1
    | _ =>
      refine .inl ⟨?_, rfl⟩
      rw [Bool.eq_false_iff]
      intro h
      obtain ⟨⟨x, c, hx⟩, -⟩ := hdecide.mp h
      cases I.wo.eq_of_key hg hx rfl
  | _ =>
    refine .inl ⟨I.not_folds hord hn ?_, rfl⟩
    intro x c h
    cases h

variable {s' : FoldState D} (h : foldNode s f = some s')
include h

/-- What a turn that succeeds has done. -/
theorem foldNode_cases : (folds P f = false ∧ s' = s)
      ∨ (folds P f = true ∧ ∃ g x cf cg cr ti, FoldTurn s f g x cf cg cr
          ∧ ti.type = .kBOOLEAN ∧ s' = foldInto s f g (.oper .kAND [cg, cr] ti)) := by
  rcases foldNode_eq I hord hP with ⟨hf, heq⟩ | ⟨hf, g, x, cf, cg, S, heq⟩
  · exact .inl ⟨hf, Option.some.inj (h.symm.trans heq)⟩
  · rw [heq] at h
    simp only [Option.bind_eq_some_iff] at h
    obtain ⟨cr, hcr, c, hc, h⟩ := h
    obtain ⟨hg, hr, ti, hti, rfl⟩ := foldedCondition_eq_some hc
    refine .inr ⟨hf, g, x, cf, cg, cr, ti, ⟨S, hcr, ?_, hg⟩, hti, (Option.some.inj h).symm⟩
    rwa [IsBoolean, operatorType_redirect hcr] at hr

theorem foldNode_shape : ∃ merged', RunShape P s' merged' (f :: done) := by
  rcases foldNode_cases I hord hP h with ⟨hf, rfl⟩ | ⟨hf, g, x, cf, cg, cr, ti, S, hti, rfl⟩
  · exact ⟨merged, I.skip hf⟩
  · exact ⟨_, fold_shape I S hord hP hf hti⟩

end

/-- A run that succeeds. -/
theorem run_shape (hord : P.Ordered) (todo : List Nat) :
    ∀ (s s' : FoldState D) (merged : Nat → List Nat) (done : List Nat),
      RunShape P s merged done → P.map RelAlgNode.id = todo ++ done →
      todo.reverse.foldlM foldNode s = some s' →
      ∃ merged', RunShape P s' merged' (todo ++ done) := by
  induction todo using reverseRecOn with
  | nil =>
    intro s s' merged done I _ h
    obtain rfl := Option.some.inj h
    exact ⟨merged, I⟩
  | append_singleton todo f ih =>
    intro s s' merged done I hP h
    rw [reverse_append, reverse_singleton, singleton_append, OptionFold.foldlM_cons_eq_some] at h
    obtain ⟨s₁, hstep, hrun⟩ := h
    rw [append_assoc, singleton_append] at hP ⊢
    obtain ⟨merged₁, I₁⟩ := foldNode_shape I hord hP hstep
    exact ih s₁ s' merged₁ (f :: done) I₁ hP hrun

end Run

end Compass.Optimizer
