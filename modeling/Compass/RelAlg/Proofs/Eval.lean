/-
What a deep copy does to the value of an expression.

An expression reads the row only at its inputs (`evalWith_congr`), and a
deep copy that puts an expression of the same value in the place of each
input has the same value (`deepCopy_eval`).

The equations of a plan.

In an ordered plan every node has the size and the rows that its class
gives it from its inputs (`sizes_eq`, `rows_eq`), and every row of a node
has the columns of the node (`rows_length`).
-/
import Compass.Lib.Results
import Compass.PushDown.Proofs.Plan
import Compass.RelAlg.Eval

namespace Compass.PushDown.Rex

open List

variable {D : Type}

theorem mem_inputsAll {es : List (Rex D)} {p : Nat × Nat} :
    p ∈ inputsAll es ↔ ∃ e ∈ es, p ∈ e.inputs := by
  induction es with
  | nil => simp [inputsAll]
  | cons e es ih => simp [inputsAll, ih]

theorem mem_inputsBranches {bs : List (Rex D × Rex D)} {p : Nat × Nat} :
    p ∈ inputsBranches bs ↔ ∃ b ∈ bs, p ∈ b.1.inputs ∨ p ∈ b.2.inputs := by
  induction bs with
  | nil => simp [inputsBranches]
  | cons b bs ih => simp [inputsBranches, ih, or_assoc]

/-- The value depends on the inputs only. -/
theorem evalWith_congr (I : Interp D) {col col' : Nat → Nat → Value D}
    (e : Rex D) (h : ∀ p ∈ e.inputs, col p.1 p.2 = col' p.1 p.2) :
    e.evalWith I col = e.evalWith I col' := by
  induction e using Rex.operand_induction with
  | input s i => exact h (s, i) (mem_singleton.mpr rfl)
  | literal v => rfl
  | func name es ti ih | oper op es ti ih =>
    simp only [evalWith, evalsWith_eq_map]
    congr 1
    refine map_congr_left ?_
    intro e he
    exact ih e he fun p hp => h p (mem_inputsAll.mpr ⟨e, he, hp⟩)
  | case bs els ihb ihe =>
    have hels : els.evalWith I col = els.evalWith I col' :=
      ihe fun p hp => h p (mem_append_right _ hp)
    have hbs : bs.map (fun b => (b.1.evalWith I col, b.2.evalWith I col))
        = bs.map fun b => (b.1.evalWith I col', b.2.evalWith I col') := by
      refine map_congr_left ?_
      intro b hb
      have hmem : ∀ p, p ∈ b.1.inputs ∨ p ∈ b.2.inputs →
          col p.1 p.2 = col' p.1 p.2 := fun p hp =>
        h p (mem_append_left _ (mem_inputsBranches.mpr ⟨b, hb, hp⟩))
      rw [(ihb b hb).1 fun p hp => hmem p (Or.inl hp), (ihb b hb).2 fun p hp => hmem p (Or.inr hp)]
    simp only [evalWith, evalBranches_eq_map, hels, hbs]
  | ref i | subQuery q => rfl

section

variable {visitInput : Nat → Nat → Option (Rex D)} (I : Interp D)
  {col col' : Nat → Nat → Value D}

/-- The copies of a list, when each member has one. -/
theorem deepCopyAll_eval {es : List (Rex D)} (h : ∀ e ∈ es, ∃ e', deepCopy visitInput e = some e'
      ∧ e'.evalWith I col' = e.evalWith I col) :
    ∃ es', deepCopyAll visitInput es = some es'
      ∧ es'.map (·.evalWith I col') = es.map (·.evalWith I col) := by
  induction es with
  | nil => exact ⟨[], rfl, rfl⟩
  | cons e es ih =>
    obtain ⟨e', he', hval⟩ := h e mem_cons_self
    obtain ⟨es', hes', hvals⟩ := ih fun x hx => h x (mem_cons_of_mem _ hx)
    refine ⟨e' :: es', ?_, ?_⟩
    · simp [deepCopyAll, he', hes']
    · rw [map_cons, map_cons, hval, hvals]

theorem deepCopyBranches_eval {bs : List (Rex D × Rex D)}
    (h : ∀ b ∈ bs, (∃ w', deepCopy visitInput b.1 = some w'
        ∧ w'.evalWith I col' = b.1.evalWith I col)
      ∧ ∃ t', deepCopy visitInput b.2 = some t'
        ∧ t'.evalWith I col' = b.2.evalWith I col) :
    ∃ bs', deepCopyBranches visitInput bs = some bs'
      ∧ bs'.map (fun b => (b.1.evalWith I col', b.2.evalWith I col'))
        = bs.map fun b => (b.1.evalWith I col, b.2.evalWith I col) := by
  induction bs with
  | nil => exact ⟨[], rfl, rfl⟩
  | cons b bs ih =>
    obtain ⟨⟨w', hw', hwval⟩, t', ht', htval⟩ := h b mem_cons_self
    obtain ⟨bs', hbs', hvals⟩ := ih fun x hx => h x (mem_cons_of_mem _ hx)
    refine ⟨(w', t') :: bs', ?_, ?_⟩
    · simp [deepCopyBranches, hw', ht', hbs']
    · rw [map_cons, map_cons, hwval, htval, hvals]

/-- A copy whose inputs are replaced by expressions of the same value
exists and has the same value. -/
theorem deepCopy_eval (e : Rex D) (h : ∀ p ∈ e.inputs, ∃ r, visitInput p.1 p.2 = some r
      ∧ r.evalWith I col' = col p.1 p.2) :
    ∃ e', deepCopy visitInput e = some e'
      ∧ e'.evalWith I col' = e.evalWith I col := by
  induction e using Rex.operand_induction with
  | input s i => exact h (s, i) (mem_singleton.mpr rfl)
  | literal v => exact ⟨.literal v, rfl, rfl⟩
  | func name es ti ih =>
    have hcopy : ∀ e ∈ es, ∃ e', deepCopy visitInput e = some e'
        ∧ e'.evalWith I col' = e.evalWith I col := fun e he =>
      ih e he fun p hp => h p (mem_inputsAll.mpr ⟨e, he, hp⟩)
    obtain ⟨es', hes', hvals⟩ := deepCopyAll_eval I hcopy
    refine ⟨.func name es' ti, by simp [deepCopy, hes'], ?_⟩
    simp only [evalWith, evalsWith_eq_map, hvals]
  | oper op es ti ih =>
    have hcopy : ∀ e ∈ es, ∃ e', deepCopy visitInput e = some e'
        ∧ e'.evalWith I col' = e.evalWith I col := fun e he =>
      ih e he fun p hp => h p (mem_inputsAll.mpr ⟨e, he, hp⟩)
    obtain ⟨es', hes', hvals⟩ := deepCopyAll_eval I hcopy
    refine ⟨.oper op es' ti, by simp [deepCopy, hes'], ?_⟩
    simp only [evalWith, evalsWith_eq_map, hvals]
  | case bs els ihb ihe =>
    obtain ⟨els', hels', hval⟩ :=
      ihe fun p hp => h p (mem_append_right _ hp)
    have hin : ∀ b ∈ bs, ∀ p, p ∈ b.1.inputs ∨ p ∈ b.2.inputs →
        p ∈ (Rex.case bs els).inputs := fun b hb p hp =>
      mem_append_left _ (mem_inputsBranches.mpr ⟨b, hb, hp⟩)
    have hcopy : ∀ b ∈ bs, (∃ w', deepCopy visitInput b.1 = some w'
          ∧ w'.evalWith I col' = b.1.evalWith I col)
        ∧ ∃ t', deepCopy visitInput b.2 = some t'
          ∧ t'.evalWith I col' = b.2.evalWith I col := fun b hb =>
      ⟨(ihb b hb).1 fun p hp => h p (hin b hb p (Or.inl hp)),
        (ihb b hb).2 fun p hp => h p (hin b hb p (Or.inr hp))⟩
    obtain ⟨bs', hbs', hvals⟩ := deepCopyBranches_eval I hcopy
    refine ⟨.case bs' els', by simp [deepCopy, hbs', hels'], ?_⟩
    simp only [evalWith, evalBranches_eq_map, hvals, hval]
  | ref i => exact ⟨.ref i, rfl, rfl⟩
  | subQuery q => exact ⟨.subQuery q, rfl, rfl⟩

end

/-- A copy exists when every input has a replacement. -/
theorem exists_deepCopy {visitInput : Nat → Nat → Option (Rex D)} (e : Rex D)
    (h : ∀ p ∈ e.inputs, ∃ r, visitInput p.1 p.2 = some r) :
    ∃ e', deepCopy visitInput e = some e' := by
  let I : Interp D := ⟨fun _ _ _ => .null, fun _ _ _ => .null, fun _ => .null, fun _ => .null⟩
  let col' : Nat → Nat → Value D := fun _ _ => .null
  let col : Nat → Nat → Value D := fun s i =>
    ((visitInput s i).map (evalWith I col')).getD .null
  have hvalue : ∀ p ∈ e.inputs, ∃ r, visitInput p.1 p.2 = some r
      ∧ r.evalWith I col' = col p.1 p.2 := by
    intro p hp
    obtain ⟨r, hr⟩ := h p hp
    refine ⟨r, hr, ?_⟩
    show _ = ((visitInput p.1 p.2).map (evalWith I col')).getD .null
    rw [hr, Option.map_some, Option.getD_some]
  obtain ⟨e', he', -⟩ := deepCopy_eval I e hvalue
  exact ⟨e', he'⟩

-- ======== inputs of a copy

section

variable {visitInput : Nat → Nat → Option (Rex D)}

/-- Where an input of a copy comes from. -/
def CameFrom (visitInput : Nat → Nat → Option (Rex D)) (ps : List (Nat × Nat))
    (p : Nat × Nat) : Prop :=
  ∃ p₀ ∈ ps, ∃ r, visitInput p₀.1 p₀.2 = some r ∧ p ∈ r.inputs

/-- The copy `qs` of the inputs `ps`. -/
def CopiedInputs (visitInput : Nat → Nat → Option (Rex D)) (ps qs : List (Nat × Nat)) : Prop :=
  ∃ rs, ps.mapM (fun p => visitInput p.1 p.2) = some rs ∧ qs = rs.flatMap inputs

theorem CopiedInputs.nil : CopiedInputs visitInput [] [] :=
  ⟨[], rfl, rfl⟩

theorem CopiedInputs.append {ps qs ps' qs' : List (Nat × Nat)}
    (h : CopiedInputs visitInput ps qs) (h' : CopiedInputs visitInput ps' qs') :
    CopiedInputs visitInput (ps ++ ps') (qs ++ qs') := by
  obtain ⟨rs, hrs, rfl⟩ := h
  obtain ⟨rs', hrs', rfl⟩ := h'
  exact ⟨rs ++ rs', by simp [mapM_append, hrs, hrs'], flatMap_append.symm⟩

theorem inputsAll_deepCopyAll {es es' : List (Rex D)}
    (ih : ∀ e ∈ es, ∀ e', deepCopy visitInput e = some e' →
      CopiedInputs visitInput e.inputs e'.inputs)
    (h : deepCopyAll visitInput es = some es') :
    CopiedInputs visitInput (inputsAll es) (inputsAll es') := by
  induction es generalizing es' with
  | nil =>
    cases h
    exact .nil
  | cons e es ihs =>
    simp only [deepCopyAll, Option.bind_eq_bind, Option.bind_eq_some_iff, Option.some.injEq] at h
    obtain ⟨e', he', rest, hrest, rfl⟩ := h
    rw [forall_mem_cons] at ih
    exact (ih.1 e' he').append (ihs ih.2 hrest)

theorem inputsBranches_deepCopyBranches {bs bs' : List (Rex D × Rex D)}
    (ih : ∀ b ∈ bs, (∀ e', deepCopy visitInput b.1 = some e' →
        CopiedInputs visitInput b.1.inputs e'.inputs)
      ∧ ∀ e', deepCopy visitInput b.2 = some e' →
        CopiedInputs visitInput b.2.inputs e'.inputs)
    (h : deepCopyBranches visitInput bs = some bs') :
    CopiedInputs visitInput (inputsBranches bs) (inputsBranches bs') := by
  induction bs generalizing bs' with
  | nil =>
    cases h
    exact .nil
  | cons b bs ihs =>
    simp only [deepCopyBranches, Option.bind_eq_bind, Option.bind_eq_some_iff,
      Option.some.injEq] at h
    obtain ⟨w', hw', t', ht', rest, hrest, rfl⟩ := h
    rw [forall_mem_cons] at ih
    exact ((ih.1.1 w' hw').append (ih.1.2 t' ht')).append (ihs ih.2 hrest)

section

variable {e e' : Rex D} (h : deepCopy visitInput e = some e')
include h

/-- The inputs of a copy are those of what is put in the place of the
inputs. -/
theorem copiedInputs : CopiedInputs visitInput e.inputs e'.inputs := by
  induction e using Rex.operand_induction generalizing e' with
  | input s i =>
    rw [deepCopy] at h
    exact ⟨[e'], by simp [inputs, h], by simp⟩
  | func name es ti ih | oper op es ti ih =>
    rw [deepCopy, Option.map_eq_some_iff] at h
    obtain ⟨es', hes', rfl⟩ := h
    exact inputsAll_deepCopyAll (fun e he e' => ih e he) hes'
  | case bs els ihb ihe =>
    simp only [deepCopy, Option.bind_eq_bind, Option.bind_eq_some_iff, Option.some.injEq] at h
    obtain ⟨bs', hbs', els', hels', rfl⟩ := h
    exact (inputsBranches_deepCopyBranches
      (fun b hb => ⟨fun e' => (ihb b hb).1, fun e' => (ihb b hb).2⟩) hbs').append (ihe hels')
  | _ =>
    cases h
    exact .nil

theorem inputs_deepCopy : ∀ p ∈ e'.inputs, CameFrom visitInput e.inputs p := by
  obtain ⟨rs, hrs, heq⟩ := copiedInputs h
  intro p hp
  rw [heq] at hp
  obtain ⟨r, hr, hin⟩ := mem_flatMap.mp hp
  obtain ⟨q, hq, hvisit⟩ := (OptionFold.mapM_mem hrs).1 r hr
  exact ⟨q, hq, r, hvisit, hin⟩

/-- Every input has been replaced. -/
theorem exists_of_deepCopy :
    ∀ p ∈ e.inputs, ∃ r, visitInput p.1 p.2 = some r ∧ ∀ q ∈ r.inputs, q ∈ e'.inputs := by
  obtain ⟨rs, hrs, heq⟩ := copiedInputs h
  intro p hp
  obtain ⟨r, hr, hvisit⟩ := (OptionFold.mapM_mem hrs).2 p hp
  refine ⟨r, hvisit, fun q hq => ?_⟩
  rw [heq]
  exact mem_flatMap.mpr ⟨r, hr, hq⟩

end

-- ======== copies without change

theorem deepCopyAll_self {es : List (Rex D)}
    (h : ∀ e ∈ es, deepCopy visitInput e = some e) : deepCopyAll visitInput es = some es := by
  induction es with
  | nil => rfl
  | cons e es ih =>
    rw [forall_mem_cons] at h
    simp [deepCopyAll, h.1, ih h.2]

theorem deepCopyBranches_self {bs : List (Rex D × Rex D)}
    (h : ∀ b ∈ bs, deepCopy visitInput b.1 = some b.1 ∧ deepCopy visitInput b.2 = some b.2) :
    deepCopyBranches visitInput bs = some bs := by
  induction bs with
  | nil => rfl
  | cons b bs ih =>
    rw [forall_mem_cons] at h
    simp [deepCopyBranches, h.1.1, h.1.2, ih h.2]

/-- A copy whose inputs are kept is the expression itself. -/
theorem deepCopy_self {e : Rex D} (h : ∀ p ∈ e.inputs, visitInput p.1 p.2 = some (.input p.1 p.2)) :
    deepCopy visitInput e = some e := by
  induction e using Rex.operand_induction with
  | input s i => exact h (s, i) (mem_singleton.mpr rfl)
  | literal v => rfl
  | func name es ti ih | oper op es ti ih =>
    have hall := deepCopyAll_self fun e he =>
      ih e he fun p hp => h p (mem_inputsAll.mpr ⟨e, he, hp⟩)
    rw [deepCopy, hall, Option.map_some]
  | case bs els ihb ihe =>
    have hin : ∀ b ∈ bs, ∀ p, p ∈ b.1.inputs ∨ p ∈ b.2.inputs →
        p ∈ (Rex.case bs els).inputs := fun b hb p hp =>
      mem_append_left _ (mem_inputsBranches.mpr ⟨b, hb, hp⟩)
    have hbranches := deepCopyBranches_self fun b hb =>
      ⟨(ihb b hb).1 fun p hp => h p (hin b hb p (Or.inl hp)),
        (ihb b hb).2 fun p hp => h p (hin b hb p (Or.inr hp))⟩
    have hels := ihe fun p hp => h p (mem_append_right _ hp)
    simp [deepCopy, hbranches, hels]
  | ref i | subQuery q => rfl

end

end Compass.PushDown.Rex

namespace Compass.RelAlg

open Compass.PushDown List
open Compass.LeftDeep (JoinType Row Database column holds)

variable {D : Type} {P : Plan D}

variable {n : RelAlgNode D}

-- ======== nodes

theorem Plan.node?_of_mem (h : P.Ordered) (hn : n ∈ P) :
    P.node? n.id = some n := by
  unfold Plan.node?
  cases hfind : P.find? fun m => decide (m.id = n.id) with
  | none =>
    rw [find?_eq_none] at hfind
    exact absurd (decide_eq_true rfl) (hfind n hn)
  | some m =>
    have hid : m.id = n.id := by simpa using find?_some hfind
    rw [h.eq_of_key (mem_of_find?_eq_some hfind) hn hid]

variable {i : Nat}

theorem Plan.mem_of_node? (h : P.node? i = some n) : n ∈ P ∧ n.id = i :=
  ⟨mem_of_find?_eq_some h, by simpa using find?_some h⟩

theorem Plan.exists_input (h : P.Ordered) (hn : n ∈ P) (hi : i ∈ n.inputs) : ∃ m ∈ P, m.id = i :=
  h.defined n hn i hi

theorem Plan.mem_users {u : Nat} : u ∈ P.users i ↔ ∃ n ∈ P, i ∈ n.inputs ∧ n.id = u := by
  unfold Plan.users
  simp only [mem_map, mem_filter, contains_iff_mem, and_assoc]

/-- The sides of a join of the plan. -/
theorem Plan.sides_of_join (h : P.Ordered) {ty : JoinType} {lhs rhs : Nat} {c : Rex D}
    (hn : ⟨i, .join ty lhs rhs c⟩ ∈ P) : P.sides i = some (lhs, rhs) := by
  unfold Plan.sides
  rw [Plan.node?_of_mem h hn]

-- ======== sizes

theorem size_local :
    Tabulate.Local (RelAlgNode.inputs (D := D)) fun n s => n.size s := by
  intro n s s' h
  obtain ⟨i, body⟩ := n
  cases body with
  | filter input c | sort input c l o => exact h input (mem_singleton.mpr rfl)
  | join ty lhs rhs c =>
    show s lhs + s rhs = s' lhs + s' rhs
    rw [h lhs (by simp [RelAlgNode.inputs]), h rhs (by simp [RelAlgNode.inputs])]
  | _ => rfl

theorem Plan.sizes_eq (h : P.Ordered) (hn : n ∈ P) :
    P.sizes n.id = n.size P.sizes :=
  Tabulate.tabulate_eq h size_local hn

-- ======== rows

variable {E : Engine D} {db : Database D}

/-- The rows of a node depend on those of its inputs only. -/
theorem nodeRows_local [DecidableEq D] (P : Plan D) (E : Engine D) (db : Database D) :
    Tabulate.Local RelAlgNode.inputs (nodeRows P E db) := by
  intro n t t' h
  obtain ⟨i, body⟩ := n
  cases body with
  | scan size | logicalValues size => rfl
  | join ty lhs rhs c =>
    have hl : t lhs = t' lhs := h lhs (by simp [RelAlgNode.inputs])
    have hr : t rhs = t' rhs := h rhs (by simp [RelAlgNode.inputs])
    cases ty with
    | INNER | LEFT => simp only [nodeRows, hl, hr]
  | _ input =>
    have hin : t input = t' input := h input (mem_singleton.mpr rfl)
    simp only [nodeRows, hin]

/-- Two plans in which inputs are read alike. -/
structure Plan.SameShape (P P' : Plan D) : Prop where
  sizes : P'.sizes = P.sizes
  sides : ∀ k, P'.sides k = P.sides k
  filterSides : ∀ k, P'.filterSides k = P.filterSides k

/-- What `sides` and `filterSides` see of a node: the input of a filter, the
sides of a join and those of an inner join. -/
def RelAlgNode.sidesOf : RelAlgNode D → Option Nat × Option (Nat × Nat) × Option (Nat × Nat)
  | ⟨_, .filter input _⟩ => (some input, none, none)
  | ⟨_, .join .INNER lhs rhs _⟩ => (none, some (lhs, rhs), some (lhs, rhs))
  | ⟨_, .join _ lhs rhs _⟩ => (none, some (lhs, rhs), none)
  | _ => (none, none, none)

theorem Plan.sides_eq (P : Plan D) (k : Nat) :
    P.sides k = (P.node? k).bind fun n => n.sidesOf.2.1 := by
  unfold Plan.sides
  rcases P.node? k with _ | ⟨_, _ | _ | _ | _ | _ | ⟨_ | _⟩ | _ | _⟩ <;> rfl

theorem Plan.filterSides_eq (P : Plan D) (k : Nat) : P.filterSides k
    = (P.node? k).bind fun n => n.sidesOf.1.bind fun i =>
        (P.node? i).bind fun n => n.sidesOf.2.2 := by
  unfold Plan.filterSides
  rcases P.node? k with _ | ⟨_, _ | _ | _ | input | _ | ⟨_ | _⟩ | _ | _⟩ <;> try rfl
  dsimp only [RelAlgNode.sidesOf, Option.bind_some]
  rcases P.node? input with _ | ⟨_, _ | _ | _ | _ | _ | ⟨_ | _⟩ | _ | _⟩ <;> rfl

/-- Nodes that are seen as before are read as before. -/
theorem Plan.SameShape.of_map {P P' : Plan D} {r : RelAlgNode D → RelAlgNode D}
    (hsizes : P'.sizes = P.sizes) (hnode : ∀ k, P'.node? k = (P.node? k).map r)
    (hr : ∀ n, (r n).sidesOf = n.sidesOf) : P.SameShape P' := by
  refine ⟨hsizes, fun k => ?_, fun k => ?_⟩
  · simp only [Plan.sides_eq, hnode, Option.bind_map, Function.comp_def, hr]
  · simp only [Plan.filterSides_eq, hnode, Option.bind_map, Function.comp_def, hr]

/-- The rows of a node depend on the plan by its shape only. -/
theorem Plan.SameShape.nodeRows_eq [DecidableEq D] {P' : Plan D} (h : P.SameShape P')
    (E : Engine D) (db : Database D) (n : RelAlgNode D) (t : Nat → List (Row D)) :
    nodeRows P' E db n t = nodeRows P E db n t := by
  have hcol : inputColumn P' = inputColumn P := by
    funext input row source index
    unfold inputColumn
    rw [h.sides, h.sizes, h.filterSides]
  obtain ⟨id, body⟩ := n
  cases body with
  | join ty lhs rhs c =>
    cases ty with
    | INNER | LEFT => simp only [nodeRows, h.sizes]
  | _ => simp only [nodeRows, hcol]

/-- What a node may read depends on it as well. -/
theorem Plan.SameShape.scoped {P' : Plan D} (h : P.SameShape P') (hn : n.Scoped P) :
    n.Scoped P' := by
  have hscope : ∀ input p, P'.InScope input p ↔ P.InScope input p := by
    intro input p
    unfold Plan.InScope
    rw [h.sides, h.sizes]
  obtain ⟨id, body⟩ := n
  cases body with
  | scan | logicalValues => trivial
  | _ => simpa only [RelAlgNode.Scoped, Plan.InCompoundScope, hscope, h.sizes,
      h.filterSides] using hn

theorem Plan.rows_eq [DecidableEq D] (E : Engine D) (db : Database D) (h : P.Ordered) (hn : n ∈ P) :
    P.rows E db n.id = nodeRows P E db n (P.rows E db) :=
  Tabulate.tabulate_eq h (nodeRows_local P E db) hn

-- ======== lengths

variable {row : Row D}

theorem mem_innerJoin {p : Row D → Bool} {ls rs : List (Row D)}
    (h : row ∈ NestedLoop.innerJoin (· ++ ·) p ls rs) : ∃ l ∈ ls, ∃ r ∈ rs, l ++ r = row := by
  obtain ⟨l, hl, hrow⟩ := mem_flatMap.mp h
  obtain ⟨r, hr, heq⟩ := NestedLoop.mem_partners hrow
  exact ⟨l, hl, r, hr, heq⟩

theorem mem_leftJoin {ext : Row D → Row D} {p : Row D → Bool} {ls rs : List (Row D)}
    (h : row ∈ NestedLoop.leftJoin (· ++ ·) ext p ls rs) :
    ∃ l ∈ ls, row = ext l ∨ ∃ r ∈ rs, l ++ r = row := by
  obtain ⟨l, hl, hrow⟩ := mem_flatMap.mp h
  rcases NestedLoop.mem_orLonely hrow with heq | hrow
  · exact ⟨l, hl, Or.inl heq⟩
  · obtain ⟨r, hr, heq⟩ := NestedLoop.mem_partners hrow
    exact ⟨l, hl, Or.inr ⟨r, hr, heq⟩⟩

variable {rows : List (Row D)}

theorem mem_sortRows {collation : List SortField} {limit offset : Nat}
    (h : row ∈ sortRows E collation limit offset rows) : row ∈ rows := by
  unfold sortRows at h
  split at h
  · exact mem_mergeSort.mp (mem_of_mem_drop h)
  · exact mem_mergeSort.mp (mem_of_mem_drop (mem_of_mem_take h))

/-- The rows of an aggregation, over rows that have the keys. -/
theorem aggregateRows_length [DecidableEq D] {g : Nat} {aggs : List RexAgg}
    (hrows : ∀ r ∈ rows, g ≤ r.length) (h : row ∈ aggregateRows E g aggs rows) :
    row.length = g + aggs.length := by
  obtain ⟨grp, hgrp, rfl⟩ := mem_map.mp h
  have hkey : grp.1.length = g := by
    unfold groupRows at hgrp
    split at hgrp
    · next hg =>
        obtain rfl := mem_singleton.mp hgrp
        simp [hg]
    · obtain ⟨r, hr, hk⟩ := Grouping.exists_key hgrp
      rw [hk, length_take, Nat.min_eq_left (hrows r hr)]
  rw [length_append, length_map, hkey]

theorem compoundRows_length [DecidableEq D] {c : RelCompound D} {col : Row D → Nat → Nat → Value D}
    (h : row ∈ compoundRows E c col rows) : row.length = c.targetExprs.length := by
  unfold compoundRows at h
  dsimp only at h
  split at h
  · obtain ⟨g, -, rfl⟩ := mem_map.mp h
    exact length_map _
  · obtain ⟨r, -, rfl⟩ := mem_map.mp h
    exact length_map _

/-- Every row of a node has the columns of the node. -/
theorem Plan.rows_length [DecidableEq D] (hwf : P.WellFormed) (hfits : P.Fits db) :
    ∀ n ∈ P, ∀ row ∈ P.rows E db n.id, row.length = P.sizes n.id := by
  refine hwf.ordered.read_induction ?_
  intro n hn ih row hrow
  have hinput : ∀ i ∈ n.inputs, ∀ r ∈ P.rows E db i, r.length = P.sizes i := by
    intro i hi
    obtain ⟨m, hm, rfl⟩ := Plan.exists_input hwf.ordered hn hi
    exact ih m hm hi
  have hbase := hfits n hn
  have hscope := hwf.inScope n hn
  rw [Plan.rows_eq E db hwf.ordered hn] at hrow
  rw [Plan.sizes_eq hwf.ordered hn] at hbase ⊢
  obtain ⟨i, body⟩ := n
  cases body with
  | scan size | logicalValues size => exact hbase rfl row hrow
  | project input exprs fields =>
    obtain ⟨r, -, rfl⟩ := mem_map.mp hrow
    exact length_map _
  | filter input c =>
    exact hinput input (mem_singleton.mpr rfl) row (mem_filter.mp hrow).1
  | aggregate input g aggs fields =>
    refine aggregateRows_length ?_ hrow
    intro r hr
    rw [hinput input (mem_singleton.mpr rfl) r hr]
    exact hscope.1
  | join ty lhs rhs c =>
    have hl := hinput lhs (by simp [RelAlgNode.inputs])
    have hr := hinput rhs (by simp [RelAlgNode.inputs])
    show row.length = P.sizes lhs + P.sizes rhs
    cases ty with
    | INNER =>
      obtain ⟨l, hlm, r, hrm, rfl⟩ := mem_innerJoin hrow
      rw [length_append, hl l hlm, hr r hrm]
    | LEFT =>
      obtain ⟨l, hlm, rfl | ⟨r, hrm, rfl⟩⟩ := mem_leftJoin hrow
      · rw [length_append, length_replicate, hl l hlm]
      · rw [length_append, hl l hlm, hr r hrm]
  | sort input collation limit offset =>
    exact hinput input (mem_singleton.mpr rfl) row (mem_sortRows hrow)
  | compound input c => exact compoundRows_length hrow

end Compass.RelAlg
