/-
`fold_filters` as a whole.

What one fold means (`FoldStep`) adds up along the run (`run_spec`), if
nothing over a join reads a side that is folded. Where something does, the
run ends as well, but the plan it makes has a node that reads what is not
there (`overJoin_of_wellFormed`).
-/
import Compass.Optimizer.Proofs.FoldRun
import Mathlib.Tactic.IntervalCases

namespace Compass.Optimizer

open Compass.PushDown List Option
open Compass.RelAlg
open Compass.LeftDeep (JoinType Row Database column holds)

variable {D : Type}
variable {f : Nat}

/-- The copy of the upper condition. -/
theorem exists_redirected {Q : Plan D} (hwf : Q.WellFormed) {g x : Nat} {cf cg : Rex D}
    (hf : ⟨f, .filter g cf⟩ ∈ Q) (hg : ⟨g, .filter x cg⟩ ∈ Q) :
    ∃ cr, cf.deepCopy (redirectInput Q g x) = some cr := by
  refine Rex.exists_deepCopy cf fun p hp => ?_
  have hsides : Q.sides g = none := sides_of_filter hwf.ordered hg
  have hscope : Q.InScope g p := hwf.inScope _ hf p hp
  have hne : g ≠ x := by
    rintro rfl
    exact hwf.ordered.irrefl _ hg (mem_singleton.mpr rfl)
  unfold Plan.InScope at hscope
  rw [hsides] at hscope
  unfold redirectInput
  rw [if_pos ⟨hscope.1, hne⟩]
  split
  · split <;> exact ⟨_, rfl⟩
  · exact ⟨_, rfl⟩

/-- An expression reads an input of its node, or a side of the join that
is the input. -/
theorem source_cases {Q : Plan D} (hwf : Q.WellFormed) {n : RelAlgNode D} (hn : n ∈ Q)
    (hcompound : isCompound n = false) {p : Nat × Nat} (hp : p ∈ exprInputs n) :
    p.1 ∈ n.inputs ∨ (n.isJoin = false ∧ ∃ j, n.inputs = [j] ∧
      ∃ ty lhs rhs c, ⟨j, .join ty lhs rhs c⟩ ∈ Q ∧ (p.1 = lhs ∨ p.1 = rhs)) := by
  have hscope := hwf.inScope n hn
  have hread : ∀ j, Q.InScope j p → p.1 = j
      ∨ ∃ ty lhs rhs c, ⟨j, .join ty lhs rhs c⟩ ∈ Q ∧ (p.1 = lhs ∨ p.1 = rhs) := by
    intro j hj
    unfold Plan.InScope at hj
    cases hsides : Q.sides j with
    | none =>
      rw [hsides] at hj
      exact .inl hj.1
    | some q =>
      obtain ⟨lhs, rhs⟩ := q
      rw [hsides] at hj
      obtain ⟨ty, c, hmem⟩ := join_of_sides hsides
      exact .inr ⟨ty, lhs, rhs, c, hmem, hj.imp (fun h => h.1) fun h => h.1⟩
  obtain ⟨id, body⟩ := n
  cases body with
  | project input exprs fields =>
    obtain ⟨e, he, hp⟩ := mem_flatMap.mp hp
    rcases hread input (hscope e he p hp) with heq | hjoin
    · exact .inl (mem_singleton.mpr heq)
    · exact .inr ⟨rfl, input, rfl, hjoin⟩
  | filter input c =>
    rcases hread input (hscope p hp) with heq | hjoin
    · exact .inl (mem_singleton.mpr heq)
    · exact .inr ⟨rfl, input, rfl, hjoin⟩
  | join ty lhs rhs c =>
    have hside : Q.InScope id p := hscope.2 p hp
    unfold Plan.InScope at hside
    rw [Plan.sides_of_join hwf.ordered hn] at hside
    refine .inl ?_
    rcases hside with ⟨h, -⟩ | ⟨h, -⟩ <;> simp [RelAlgNode.inputs, h]
  | compound input c => cases hcompound
  | _ => cases hp

-- ======== the invariant

/-- The vector when the nodes of `done` have been visited, and what it
means. -/
structure Inv [DecidableEq D] (P : Plan D) (s : FoldState D) (merged : Nat → List Nat)
    (done : List Nat) : Prop extends RunShape P s merged done where
  wf : s.nodes.WellFormed
  condition : ∀ i x c, ⟨i, .filter x c⟩ ∈ s.nodes → ∀ E row,
    holds E.toInterp (inputColumn s.nodes x row) c = true ↔ ∀ f ∈ merged i, HoldsAt P E f row
  rows : ∀ E db, ∀ n ∈ s.nodes, s.nodes.rows E db n.id = P.rows E db (top merged n.id)

variable [DecidableEq D] {P : Plan D}

theorem Inv.init (hP : P.WellFormed) (hcompound : ∀ n ∈ P, isCompound n = false) :
    Inv P ⟨P, P.users⟩ (fun i => [i]) [] where
  toRunShape := RunShape.init hP hcompound
  wf := hP
  condition := by
    intro i x c hmem E row
    rw [forall_mem_singleton]
    constructor
    · exact fun h => ⟨x, c, hmem, h⟩
    · rintro ⟨x', c', hmem', h⟩
      cases hP.ordered.eq_of_key hmem hmem' rfl
      exact h
  rows := fun E db n _ => rfl

variable {merged : Nat → List Nat}
variable {s : FoldState D}

/-- What reads the sides of a join does not read one that is folded. -/
theorem Inv.direct {done : List Nat} (I : Inv P s merged done) (hP : P.WellFormed)
    (hfold : Foldable P) (hf : folds P f = true) :
    ∀ u ∈ s.nodes, f ∉ u.inputs → ∀ p ∈ exprInputs u, p.1 ≠ f := by
  intro u hu hinputs p hp hpf
  have hord := hP.ordered
  obtain ⟨m, hm, hkin⟩ := I.kin u hu
  rcases source_cases I.wf hu (I.noCompound u hu) hp with
    hin | ⟨hujoin, j, huinputs, ty, lhs, rhs, c, hj, -⟩
  · exact hinputs (hpf ▸ hin)
  · obtain ⟨htopj, ty₀, c₀, hj₀⟩ := I.join_kin hord hj
    have hminputs : m.inputs = [j] := by
      rw [← hkin.inputs, huinputs, map_singleton, htopj]
    have hmjoin : m.isJoin = false := hkin.isJoin ▸ hujoin
    have hjm : j ∈ m.inputs := by
      rw [hminputs]
      exact mem_singleton.mpr rfl
    obtain ⟨above, hmerged, hstacked, -⟩ := I.stacked u hu
    have hreads := (hkin.overJoin hmjoin j ty₀ _ _ c₀ hjm hj₀ f).mp ⟨p, hp, hpf⟩
    -- either way `f` is a side of the join, and is read over it
    have hside : (f = top merged lhs ∨ f = top merged rhs)
        ∧ ReadsSide P (top merged lhs) (top merged rhs) m f := by
      rcases hreads with ⟨q, hq, hqf⟩ | ⟨h, hh, k, hread, hside⟩
      · refine ⟨?_, .inl ⟨q, hq, hqf⟩⟩
        rcases source_cases hP hm (hfold.noCompound m hm) hq with
          hin | ⟨-, j', hinputs', ty', lhs', rhs', c', hj', hside⟩
        · rw [hminputs, mem_singleton, hqf] at hin
          obtain ⟨g, c', x, c'', hfilter, -⟩ := filter_of_folds hord hf
          cases hord.eq_of_key hj₀ hfilter hin.symm
        · obtain rfl : j = j' := singleton_injective (hminputs.symm.trans hinputs')
          cases hord.eq_of_key hj₀ hj' rfl
          rwa [hqf] at hside
      · refine ⟨?_, .inr ⟨above, hkin.id ▸ hstacked, h, ?_, k, hread, hside⟩⟩
        · unfold columnSide at hside
          split at hside
          · exact .inr hside.symm
          · exact .inl hside.symm
        · rwa [hmerged] at hh
    exact hfold.overJoin j ty₀ _ _ c₀ hj₀ f hside.1 hf m hm hmjoin hjm hside.2

-- ======== one turn

section Fold

variable {s : FoldState D} {merged : Nat → List Nat} {todo done : List Nat} {f g x : Nat}
  {cf cg cr : Rex D} (I : Inv P s merged done) (S : FoldStep s.nodes f g x cf cg cr)
include I S

theorem fold_condition (ti : SQLTypeInfo) : ∀ i y c,
    ⟨i, .filter y c⟩ ∈ foldedPlan s.nodes f g (.oper .kAND [cg, cr] ti) → ∀ E row,
      holds E.toInterp (inputColumn (foldedPlan s.nodes f g (.oper .kAND [cg, cr] ti)) y row) c
          = true
        ↔ ∀ h ∈ combined merged f g i, HoldsAt P E h row := by
  intro i y c hmem E row
  obtain ⟨u, hu, hne, hnode⟩ := FoldShape.mem_foldedPlan.mp hmem
  rcases S.foldedNode_eq (.oper .kAND [cg, cr] ti) hu with ⟨-, h⟩ | ⟨hg, h⟩
  · rw [h] at hnode
    cases hnode
    rw [S.holds_folded E ti row, I.condition g x cg S.lower E row, I.condition f g cf S.upper E row,
      combined, if_pos rfl, forall_mem_append]
  · rw [h] at hnode
    obtain ⟨z, c₀, rfl, rfl, rfl⟩ := replaceInput_eq_filter hnode
    have hz := Plan.exists_input S.wf.ordered hu (mem_singleton.mpr rfl)
    rw [S.holds_rebind E _ hz (S.wf.inScope _ hu) row, I.condition i z c₀ hu E row,
      combined_of_ne hg]

end Fold

/-- A turn in a plan that can be folded succeeds. -/
theorem foldNode_spec (hwf : P.WellFormed) (hfold : Foldable P) {todo done : List Nat}
    (I : Inv P s merged done) (hP : P.map RelAlgNode.id = todo ++ f :: done) :
    ∃ s' merged', foldNode s f = some s' ∧ Inv P s' merged' (f :: done) := by
  have hord := hwf.ordered
  rcases foldNode_eq I.toRunShape hord hP with ⟨hf, heq⟩ | ⟨hf, g, x, cf, cg, S, heq⟩
  · exact ⟨s, merged, heq, { I with toRunShape := I.skip hf }⟩
  · obtain ⟨cr, hcr⟩ := exists_redirected I.wf S.upper S.lower
    obtain ⟨c₀, hf₀, -, hboolf⟩ := I.filter_kin hord S.upper hP
    obtain ⟨⟨g', body⟩, hm, hkin⟩ := I.kin _ S.lower
    obtain rfl : g' = g := hkin.id
    obtain ⟨y, cg₀, hbody⟩ := hkin.wasFilter x cg rfl
    obtain rfl : body = .filter y cg₀ := hbody
    obtain ⟨x', cg', hbody', -, hboolg⟩ := hkin.filter y cg₀ rfl
    cases hbody'
    obtain ⟨hbf, hbg⟩ := hfold.boolean f g' c₀ y cg₀ hf hf₀ hm
    have hbr : IsBoolean cr := by
      rw [IsBoolean, operatorType_redirect hcr]
      exact hboolf.mp hbf
    obtain ⟨ti, hcondition⟩ := foldedCondition_of_boolean (hboolg.mp hbg) hbr
    obtain ⟨-, -, ti', hti, hc⟩ := foldedCondition_eq_some hcondition
    cases hc
    have T : FoldTurn s f g' x cf cg cr := ⟨S, hcr, hboolf.mp hbf, hboolg.mp hbg⟩
    have M : FoldStep s.nodes f g' x cf cg cr :=
      ⟨S, I.wf, I.noCompound, I.direct hwf hfold hf, hcr⟩
    have hnodes : (foldInto s f g' (.oper .kAND [cg, cr] ti)).nodes
        = foldedPlan s.nodes f g' (.oper .kAND [cg, cr] ti) := by
      rw [show s = ⟨s.nodes, s.nodes.users⟩ by rw [← I.web]]
      exact FoldShape.nodes_foldInto _
    refine ⟨foldInto s f g' (.oper .kAND [cg, cr] ti), combined merged f g', ?_, ?_⟩
    · rw [heq, hcr, bind_some, hcondition, bind_some]
    · refine { toRunShape := fold_shape I.toRunShape T hord hP hf hti, wf := ?_, condition := ?_,
               rows := ?_ }
      · rw [hnodes]
        exact M.wellFormed ti
      · rw [hnodes]
        exact fold_condition I M ti
      · rw [hnodes]
        exact fun E db => fold_of_top I.toRunShape M.1 (I.rows E db)
          (fun i hi => by rw [M.rows_eq E db ti]; exact if_neg hi) _

-- ======== the run

/-- The run over what is left of the vector. -/
theorem run_spec (hwf : P.WellFormed) (hfold : Foldable P) (todo : List Nat) :
    ∀ (s : FoldState D) (merged : Nat → List Nat) (done : List Nat), Inv P s merged done →
      P.map RelAlgNode.id = todo ++ done →
      ∃ s' merged', todo.reverse.foldlM foldNode s = some s' ∧ Inv P s' merged' (todo ++ done) := by
  induction todo using reverseRecOn with
  | nil => exact fun s merged done I _ => ⟨s, merged, rfl, I⟩
  | append_singleton todo f ih =>
    intro s merged done I hP
    rw [append_assoc, singleton_append] at hP
    obtain ⟨s₁, merged₁, hstep, I₁⟩ := foldNode_spec hwf hfold I hP
    obtain ⟨s', merged', hrun, I'⟩ := ih s₁ merged₁ (f :: done) I₁ hP
    refine ⟨s', merged', ?_, ?_⟩
    · rw [reverse_append, reverse_singleton, singleton_append, foldlM_cons, hstep]
      exact hrun
    · rwa [append_assoc, singleton_append]

/-- After the run the invariant says what the pass must do. -/
theorem Inv.folded (I : Inv P s merged (P.map RelAlgNode.id)) : Folded P s.nodes merged where
  wellFormed := I.wf
  ids := by
    rw [I.ids]
    refine filter_congr fun i hi => ?_
    rw [decide_eq_true hi, Bool.true_and]
  stacked := by
    intro n hn
    obtain ⟨above, hmerged, hstacked, -⟩ := I.stacked n hn
    exact ⟨above, hmerged, hstacked⟩
  maximal := by
    intro n hn h c hmem
    rw [Bool.eq_false_iff]
    exact fun hfolds => I.maximal n hn h c hmem hfolds (mem_map_of_mem hmem)
  condition := I.condition
  inputs := by
    intro n hn
    obtain ⟨m, hm, hkin⟩ := I.kin n hn
    exact ⟨m, hm, hkin.id, hkin.inputs⟩
  rows := I.rows

theorem foldFilters_of_foldable (hP : P.WellFormed) (hfold : Foldable P) :
    ∃ P' merged, foldFilters P = some P' ∧ Folded P P' merged := by
  obtain ⟨s, merged, hrun, I⟩ := run_spec hP hfold (P.map RelAlgNode.id) ⟨P, P.users⟩ _ []
    (Inv.init hP hfold.noCompound) (append_nil _).symm
  rw [append_nil] at I
  refine ⟨s.nodes, merged, ?_, I.folded⟩
  have hcompound : P.any isCompound = false := by
    rw [List.any_eq_false]
    intro n hn
    simp [hfold.noCompound n hn]
  have hids := I.folded.ids
  unfold foldFilters
  rw [hcompound]
  simp only [Bool.false_eq_true, if_false, hrun, bind_eq_bind, bind_some]
  cases hlast : (P.map RelAlgNode.id).getLast? with
  | none =>
    rw [getLast?_eq_none_iff] at hlast
    rw [hlast, filter_nil, map_eq_nil_iff] at hids
    rw [hids]
  | some last =>
    have hmem : last ∈ s.nodes.map RelAlgNode.id := by
      rw [hids, mem_filter]
      refine ⟨mem_of_getLast? hlast, ?_⟩
      cases hfolds : folds P last with
      | false => rfl
      | true => exact absurd hlast (hfold.notLast last hfolds)
    dsimp only
    rw [if_pos hmem]

-- ======== converse

omit [DecidableEq D] in
/-- If the plan that has been made is well formed, nothing over a join
read a side that has been folded. -/
theorem overJoin_of_wellFormed (hord : P.Ordered) (I : RunShape P s merged (P.map RelAlgNode.id))
    (hwf : s.nodes.WellFormed) {j lhs rhs : Nat} {ty : JoinType} {c : Rex D}
    (hjoin : ⟨j, .join ty lhs rhs c⟩ ∈ P) (hf : folds P f = true) {m : RelAlgNode D} (hm : m ∈ P)
    (hisJoin : m.isJoin = false) (hj : j ∈ m.inputs) : ¬ ReadsSide P lhs rhs m f := by
  have hkept : folds P m.id = false := by
    rw [Bool.eq_false_iff]
    intro hfolds
    obtain ⟨g, c', x, c'', hm', hg⟩ := filter_of_folds hord hfolds
    rw [hord.eq_of_key hm hm' rfl] at hj
    obtain rfl := mem_singleton.mp hj
    cases hord.eq_of_key hjoin hg rfl
  obtain ⟨u, hu, hkin⟩ := I.exists_node hord hm fun _ => hkept
  obtain ⟨above, hmerged, hstacked, -⟩ := I.stacked u hu
  intro hreads
  have hread : ∃ p ∈ exprInputs u, p.1 = f := by
    rw [hkin.overJoin hisJoin j ty lhs rhs c hj hjoin f, hmerged, tail_cons]
    refine hreads.imp id ?_
    rintro ⟨chain, hchain, h, hh, hcolumn⟩
    refine ⟨h, ?_, hcolumn⟩
    rw [hkin.id] at hchain
    refine stacked_subset hord hchain hstacked ?_ h hh
    intro h' c' hmem
    rw [Bool.eq_false_iff]
    refine fun hfolds => I.maximal u hu h' c' ?_ hfolds (mem_map_of_mem hmem)
    rwa [top, hmerged, getLastD_cons]
  obtain ⟨p, hp, hpf⟩ := hread
  have hthere : ∃ n ∈ s.nodes, n.id = f := by
    rcases source_cases hwf hu (I.noCompound u hu) hp with
      hin | ⟨-, j', hinputs, ty', lhs', rhs', c', hj', hside⟩
    · exact Plan.exists_input I.wo hu (hpf ▸ hin)
    · refine Plan.exists_input I.wo hj' ?_
      rw [← hpf]
      rcases hside with h | h <;> simp [RelAlgNode.inputs, h]
  obtain ⟨n, hn, hid⟩ := hthere
  have hmem : n.id ∈ s.nodes.map RelAlgNode.id := mem_map_of_mem hn
  rw [I.ids, mem_filter, hid, hf, Bool.and_true, Bool.not_eq_true', decide_eq_false_iff_not] at hmem
  exact hmem.2 hmem.1

omit [DecidableEq D] in
theorem foldable_of_foldFilters (hP : P.WellFormed) {P' : Plan D} (h : foldFilters P = some P')
    (hwf : P'.WellFormed) : Foldable P := by
  have hord := hP.ordered
  have hcompound : ∀ n ∈ P, isCompound n = false := by
    unfold foldFilters at h
    split at h
    · cases h
    · next hany =>
        intro n hn
        rw [Bool.eq_false_iff]
        exact fun hc => hany (List.any_eq_true.mpr ⟨n, hn, hc⟩)
  have hany : P.any isCompound = false := by
    rw [List.any_eq_false]
    intro n hn
    simp [hcompound n hn]
  unfold foldFilters at h
  rw [hany] at h
  simp only [Bool.false_eq_true, if_false, bind_eq_bind, bind_eq_some_iff] at h
  obtain ⟨s, hrun, h⟩ := h
  obtain ⟨merged, I⟩ := run_shape hord (P.map RelAlgNode.id) _ s _ [] (.init hP hcompound)
    (append_nil _).symm hrun
  rw [append_nil] at I
  cases hlast : (P.map RelAlgNode.id).getLast? with
  | none =>
    rw [getLast?_eq_none_iff, map_eq_nil_iff] at hlast
    subst hlast
    exact ⟨by simp, by simp, by simp [folds, Plan.node?], by simp⟩
  | some last =>
    rw [hlast] at h
    dsimp only at h
    split at h
    · next hmem =>
        obtain rfl := Option.some.inj h
        refine ⟨hcompound, ?_, ?_, ?_⟩
        · intro f g c x c' hf hupper
          exact I.boolean f (List.mem_map_of_mem hupper) hf g c x c' hupper
        · intro f hf heq
          obtain rfl := Option.some.inj (hlast.symm.trans heq)
          rw [I.ids, mem_filter, hf, Bool.and_true, Bool.not_eq_true',
            decide_eq_false_iff_not] at hmem
          exact hmem.2 hmem.1
        · intro j ty lhs rhs c hjoin f _ hf n hn hisJoin hj
          exact overJoin_of_wellFormed hord I hwf hjoin hf hn hisJoin hj
    · cases h

/-- `fold_filters` does what it must exactly to the plans that can be
folded. -/
theorem folded_iff_foldable (hP : P.WellFormed) :
    (∃ P' merged, foldFilters P = some P' ∧ Folded P P' merged) ↔ Foldable P := by
  constructor
  · rintro ⟨P', merged, h, hfolded⟩
    exact foldable_of_foldFilters hP h hfolded.wellFormed
  · exact foldFilters_of_foldable hP

-- ======== examples

/-- Three filters over a table of one column. -/
def threeFilters (c₁ c₂ c₃ : Rex Nat) : Plan Nat :=
  [⟨0, .scan 1⟩, ⟨1, .filter 0 c₁⟩, ⟨2, .filter 1 c₂⟩, ⟨3, .filter 2 c₃⟩,
    ⟨4, .project 3 [.input 3 0] ["a"]⟩]

/-- `a IS NULL`, of the column of a node. -/
def isNull (i : Nat) : Rex Nat :=
  .oper .kISNULL [.input i 0] { type := .kBOOLEAN, notnull := true, size := 1 }

theorem threeFilters_wellFormed {c₁ c₂ c₃ : Rex Nat} (h₁ : c₁.inputs = [(0, 0)])
    (h₂ : c₂.inputs = [(1, 0)]) (h₃ : c₃.inputs = [(2, 0)]) :
    (threeFilters c₁ c₂ c₃).WellFormed := by
  have hsizes : ∀ n < 5, (threeFilters c₁ c₂ c₃).sizes n = 1 := by
    intro n hn
    interval_cases n <;>
      simp [Plan.sizes, Tabulate.tabulate, threeFilters, RelAlgNode.size, Function.update]
  have hscope : ∀ n < 4, (threeFilters c₁ c₂ c₃).InScope n (n, 0) := by
    intro n hn
    have hsides : (threeFilters c₁ c₂ c₃).sides n = none := by
      interval_cases n <;> rfl
    unfold Plan.InScope
    rw [hsides]
    exact ⟨rfl, by rw [hsizes n (by omega)]; exact Nat.zero_lt_one⟩
  refine ⟨⟨?_, ?_, ?_⟩, ?_, ?_⟩
  · simp [threeFilters, RelAlgNode.inputs]
  · simp [threeFilters, RelAlgNode.inputs]
  · simp [threeFilters, RelAlgNode.inputs]
  · intro n hn
    simp only [threeFilters, mem_cons, not_mem_nil, or_false] at hn
    rcases hn with rfl | rfl | rfl | rfl | rfl
    · trivial
    · show ∀ p ∈ c₁.inputs, _
      rw [h₁, forall_mem_singleton]
      exact hscope 0 (by decide)
    · show ∀ p ∈ c₂.inputs, _
      rw [h₂, forall_mem_singleton]
      exact hscope 1 (by decide)
    · show ∀ p ∈ c₃.inputs, _
      rw [h₃, forall_mem_singleton]
      exact hscope 2 (by decide)
    · intro e he p hp
      rw [mem_singleton.mp he] at hp
      rw [mem_singleton.mp hp]
      exact hscope 3 (by decide)
  · intro n hn
    have hid : n.id < 5 := by
      simp only [threeFilters, mem_cons, not_mem_nil, or_false] at hn
      rcases hn with rfl | rfl | rfl | rfl | rfl <;> simp
    rw [hsizes n.id hid]
    decide

theorem threeFilters_foldable : Foldable (threeFilters (isNull 0) (isNull 1) (isNull 2)) := by
  have hboolean : ∀ i x c, ⟨i, .filter x c⟩ ∈ threeFilters (isNull 0) (isNull 1) (isNull 2) →
      IsBoolean c := by
    intro i x c h
    simp only [threeFilters, mem_cons, not_mem_nil, or_false] at h
    rcases h with h | h | h | h | h <;> cases h <;> exact ⟨_, rfl, rfl⟩
  refine ⟨by decide, ?_, ?_, ?_⟩
  · exact fun f g c x c' _ hf hg => ⟨hboolean f g c hf, hboolean g x c' hg⟩
  · intro f hf hlast
    obtain rfl : 4 = f := some.inj hlast
    exact absurd hf (by decide)
  · intro j ty lhs rhs c hjoin
    simp only [threeFilters, mem_cons, not_mem_nil, or_false] at hjoin
    rcases hjoin with h | h | h | h | h <;> cases h

/-- Three filters become one. -/
theorem threeFilters_folded :
    ∃ P' merged, foldFilters (threeFilters (isNull 0) (isNull 1) (isNull 2)) = some P'
      ∧ Folded (threeFilters (isNull 0) (isNull 1) (isNull 2)) P' merged :=
  (folded_iff_foldable (threeFilters_wellFormed rfl rfl rfl)).mpr threeFilters_foldable

/-- With the column itself as the first condition the pass does not come
to an end. -/
theorem booleanColumn_not_folded :
    (threeFilters (.input 0 0) (isNull 1) (isNull 2)).WellFormed
      ∧ ¬ ∃ P' merged, foldFilters (threeFilters (.input 0 0) (isNull 1) (isNull 2)) = some P'
        ∧ Folded (threeFilters (.input 0 0) (isNull 1) (isNull 2)) P' merged := by
  refine ⟨threeFilters_wellFormed rfl rfl rfl, ?_⟩
  rintro ⟨P', merged, h, -⟩
  cases h

end Compass.Optimizer
