/-
The extraction and the rebuilding of a condition prune its formula.

A condition that reads as a formula is extracted from, for a scan with
named columns, as what is left of the formula when the pushable atoms are
kept (`find_reads`), and it is built anew as what is left when those that
stay are kept, reading in the plan with the compound (`build_reads`).
Both proofs follow the reading of the condition; they share what becomes
of an operator when its operands are kept or dropped.
-/
import Compass.Lib.Results
import Compass.PushDown.Proofs.Remap
import Compass.PushDown.Split

namespace Compass.PushDown

open List

variable {D : Type}

-- ======== the names of columns

namespace RelNode

theorem length_schema (n : RelNode) : n.schema.length = n.outputs.length := by
  induction n with
  | scan i fields | derived i fields input ih | compound i cols input ih =>
    simp [schema, outputs]
  | through i input ih => exact ih
  | join i lhs rhs ihl ihr => simp [schema, outputs, ihl, ihr]

/-- A column of a visible scan has the name it has in the scan. -/
theorem schema_of_outputs {s : Nat} {fields : List String} {n : RelNode}
    (hd : n.tables.Nodup) (h : n.find? s = some (.scan s fields)) {i c : Nat}
    (hout : n.outputs[i]? = some (s, c)) : n.schema[i]? = fields[c]? := by
  revert i
  refine scan_induct (Q := fun n => ∀ {i : Nat}, n.outputs[i]? = some (s, c) →
    n.schema[i]? = fields[c]?) ?_ ?_ ?_ ?_ hd h
  · intro i hout
    simp only [outputs, getElem?_map, Option.map_eq_some_iff] at hout
    obtain ⟨x, hx, hxc⟩ := hout
    obtain ⟨hlt, hx⟩ := List.getElem?_eq_some_iff.mp hx
    rw [getElem_range] at hx
    injection hxc with _ hxc
    rw [← hxc, ← hx]
    rfl
  · intro i input _ _ ih
    exact ih
  · intro j lhs rhs _ _ _ hr ih i hout
    rw [outputs] at hout
    by_cases hlt : i < lhs.outputs.length
    · rw [getElem?_append_left hlt] at hout
      rw [schema, getElem?_append_left (by rwa [length_schema])]
      exact ih hout
    · rw [getElem?_append_right (by omega)] at hout
      exact absurd (table_of_mem_outputs (mem_of_getElem? hout)) hr
  · intro j lhs rhs _ _ _ hl ih i hout
    rw [outputs] at hout
    by_cases hlt : i < lhs.outputs.length
    · rw [getElem?_append_left hlt] at hout
      exact absurd (table_of_mem_outputs (mem_of_getElem? hout)) hl
    · rw [getElem?_append_right (by omega)] at hout
      rw [schema, getElem?_append_right (by rw [length_schema]; omega), length_schema]
      exact ih hout

end RelNode

namespace Plan

variable {P : Plan} {s source cId : Nat}

theorem NamedScan.isScan (hs : P.NamedScan s) : P.IsScan s := by
  obtain ⟨fields, hscan, -⟩ := hs
  exact ⟨fields, hscan⟩

theorem table_ne_zero {t c : Nat} (h : P.columnOf source cId = some (t, c)) :
    t ≠ 0 := by
  intro heq
  subst heq
  obtain ⟨n, hn, hout⟩ := columnOf_eq_some.mp h
  have hmem := RelNode.outputs_found hn _ (mem_of_getElem? hout)
  exact P.tables_pos (RelNode.table_of_mem_outputs hmem)

/-- `getColumnInfoFromScan` finds every column of the scan. -/
theorem getColumnInfoFromScan_own (hs : P.NamedScan s) {c : Nat}
    (h : P.columnOf source cId = some (s, c)) :
    ∃ name, P.getColumnInfoFromScan source cId s = (c, name) ∧ name ≠ "" := by
  obtain ⟨fields, hscan, hnames⟩ := hs
  obtain ⟨n, hn, hout⟩ := columnOf_eq_some.mp h
  have hd := RelNode.nodup_found P.tables_nodup hn
  have hmem := RelNode.table_of_mem_outputs (mem_of_getElem? hout)
  have hfind := RelNode.find?_scan_found P.tables_nodup hscan hn hmem
  have hplain := RelNode.plainTable_of_find? hd hfind
  have hloc := RelNode.located_of_outputs hplain hd 0 (Nat.zero_le cId) hout
  have hname := RelNode.schema_of_outputs hd hfind hout
  have hlt : c < fields.length :=
    RelNode.column_lt_of_find? hd hfind (mem_of_getElem? hout)
  rw [getElem?_eq_getElem hlt] at hname
  refine ⟨fields[c], ?_, fun hempty => hnames (hempty ▸ getElem_mem hlt)⟩
  simp [getColumnInfoFromScan, tNumColsOf, schemaOf, hn, hloc, hname]

/-- And no column of another table. -/
theorem getColumnInfoFromScan_other (hs : P.IsScan s) {t c : Nat}
    (h : P.columnOf source cId = some (t, c)) (hts : t ≠ s) :
    (P.getColumnInfoFromScan source cId s).2 = "" := by
  by_contra hne
  have hown := columnOf_of_located hs hne
  rw [h] at hown
  injection hown with hown
  injection hown with hown _
  exact hts hown

end Plan

-- ======== meaning

section

variable {P : Plan} (I : Interp D) (row : Assignment D)

theorem ReadsOperand.eval {e : Rex D} {x : Operand D} (h : ReadsOperand P e x) :
    P.eval I row e = x.value I row := by
  induction h with
  | column h => simp [Plan.eval, Rex.evalWith, Plan.inputValue, h, Operand.value]
  | literal v => rfl
  | cast _ ih =>
    simp only [Plan.eval, Rex.evalWith, evalsWith_eq_map, map_cons, map_nil, Operand.value] at ih ⊢
    rw [ih]

/-- The condition has the truth of its formula. -/
theorem Reads.truth {e : Rex D} {φ : Formula (Atom D)} (h : Reads P e φ) :
    P.truth I row e = φ.truth (Atom.truth I row) := by
  induction h with
  | compare _ hx hy =>
    have hx := hx.eval I row
    have hy := hy.eval I row
    simp only [Plan.eval] at hx hy
    simp only [Plan.truth, Plan.eval, Rex.evalWith, evalsWith_eq_map, map_cons,
      map_nil, Formula.truth, Atom.truth, hx, hy]
  | nullTest hx =>
    have hx := hx.eval I row
    simp only [Plan.eval] at hx
    simp only [Plan.truth, Plan.eval, Rex.evalWith, evalsWith_eq_map, map_cons,
      map_nil, Formula.truth, Atom.truth, hx]
  | @junction conj ti ps _ _ ih =>
    have hparts : (ps.map Prod.fst).map (P.truth I row)
        = (ps.map Prod.snd).map (Formula.truth (Atom.truth I row)) := by
      simp only [map_map]
      exact map_congr_left ih
    rw [Formula.truth_junction, ← hparts]
    cases conj with
    | true => exact Rex.truth_and I _ ti _
    | false => exact Rex.truth_or I _ ti _
  | @not ti e φ _ ih =>
    rw [Formula.truth, ← ih]
    exact Rex.truth_not I _ ti e

end

variable {P : Plan}

section

variable {e : Rex D} {φ : Formula (Atom D)} (h : Reads P e φ)
include h

theorem Reads.proper : φ.Proper := by
  induction h with
  | compare _ _ _ | nullTest _ => exact .atom _
  | junction ps hlen _ ih =>
    refine .junction (by simpa using hlen) fun φ hφ => ?_
    obtain ⟨p, hp, rfl⟩ := mem_map.mp hφ
    exact ih p hp
  | not _ ih => exact .not ih

theorem Reads.isOper : ∃ op es ti, e = .oper op es ti := by
  cases h with
  | compare | nullTest | junction | not => exact ⟨_, _, _, rfl⟩

end

/-- A junction of expressions that read as the parts. -/
theorem Reads.of_forall₂ (conj : Bool) (ti : SQLTypeInfo) {es : List (Rex D)}
    {φs : List (Formula (Atom D))} (hlen : 2 ≤ es.length) (h : Forall₂ (Reads P) es φs) :
    Reads P (.oper (junctionOp conj) es ti) (.junction conj φs) := by
  have heq := h.length_eq
  have hjunction : Reads P (.oper (junctionOp conj) ((es.zip φs).map Prod.fst) ti)
      (.junction conj ((es.zip φs).map Prod.snd)) := by
    refine .junction _ (by simpa [← heq] using hlen) fun p hp => ?_
    exact (forall₂_iff_zip.mp h).2 hp
  rwa [map_fst_zip (by omega), map_snd_zip (by omega)] at hjunction

-- ======== rebuilding

theorem keepsSingle_junctionOp (conj : Bool) : keepsSingle (junctionOp conj) = false := by
  cases conj <;> rfl

theorem keepsSingle_nullOp (negated : Bool) : keepsSingle (nullOp negated) = true := by
  cases negated <;> rfl

theorem keepsSingle_of_isComparison {op : SQLOps} (h : op.isComparison = true) :
    keepsSingle op = false := by
  cases op <;> first | rfl | cases h

/-- AND and OR are put together again as the junction is. -/
theorem rebuildOper_junction (conj : Bool) (ti : SQLTypeInfo) {rs : List (Rex D)}
    {ψs : List (Formula (Atom D))} (h : Forall₂ (Reads P) rs ψs) :
    Option.Rel (Reads P) (rebuildOper (junctionOp conj) ti rs)
      (Formula.rebuild conj ψs) := by
  cases h with
  | nil => exact .none
  | @cons r ψ rs ψs hr htail =>
    cases htail with
    | nil =>
      obtain ⟨op, es, ti', rfl⟩ := hr.isOper
      simp only [rebuildOper, keepsSingle_junctionOp, Rex.isOperOrCase, if_true, Formula.rebuild]
      exact .some hr
    | cons hr' htail =>
      exact .some (.of_forall₂ conj ti (by simp) (.cons hr (.cons hr' htail)))

/-- An operand that is kept, as an input or a literal, or dropped. -/
def OperandResult (P : Plan) (kept : Bool) (x : Operand D) (o : Option (Rex D)) :
    Prop :=
  if kept then ∃ r, o = some r ∧ ReadsOperand P r x ∧ r.isOperOrCase = false
  else o = none

section

variable {P : Plan} {x y : Operand D} {kx ky : Bool} {ox oy : Option (Rex D)}

theorem OperandResult.leaf (h : OperandResult P kx x ox) {r : Rex D} (hr : ox = some r) :
    r.isOperOrCase = false := by
  unfold OperandResult at h
  split at h
  · obtain ⟨r', hr', -, hleaf⟩ := h
    rw [hr] at hr'
    injection hr' with hr'
    rw [hr']
    exact hleaf
  · rw [hr] at h
    cases h

/-- An input or a literal alone is not put in place of its operator. -/
theorem rebuildOper_leaf {op : SQLOps} (hop : keepsSingle op = false)
    (ti : SQLTypeInfo) (hx : OperandResult P kx x ox) :
    rebuildOper op ti ox.toList = none := by
  cases ox with
  | none => rfl
  | some r => simp [rebuildOper, hop, hx.leaf rfl]

/-- A comparison stays when both of its operands do. -/
theorem rebuildOper_compare {op : SQLOps} (hop : op.isComparison = true)
    (ti : SQLTypeInfo) (hx : OperandResult P kx x ox) (hy : OperandResult P ky y oy) :
    Option.Rel (Reads P) (rebuildOper op ti (ox.toList ++ oy.toList))
      (if kx && ky then some (.atom (.compare op ti x y)) else none) := by
  have hk := keepsSingle_of_isComparison hop
  cases kx with
  | false =>
    have hnone : ox = none := hx
    rw [hnone, Option.toList_none, nil_append, rebuildOper_leaf hk ti hy]
    exact .none
  | true =>
    cases ky with
    | false =>
      have hnone : oy = none := hy
      rw [hnone, Option.toList_none, append_nil, rebuildOper_leaf hk ti hx]
      exact .none
    | true =>
      obtain ⟨r₁, rfl, hreads₁, -⟩ := hx
      obtain ⟨r₂, rfl, hreads₂, -⟩ := hy
      exact .some (.compare hop hreads₁ hreads₂)

/-- A null test stays when its operand does. -/
theorem rebuildOper_nullTest (negated : Bool) (ti : SQLTypeInfo) (hx : OperandResult P kx x ox) :
    Option.Rel (Reads P) (rebuildOper (nullOp negated) ti ox.toList)
      (if kx then some (.atom (.nullTest negated ti x)) else none) := by
  cases kx with
  | false =>
    have hnone : ox = none := hx
    rw [hnone]
    exact .none
  | true =>
    obtain ⟨r, rfl, hreads, -⟩ := hx
    simp only [Option.toList, rebuildOper, keepsSingle_nullOp, if_true]
    exact .some (.nullTest hreads)

end

theorem rebuildOper_not (ti : SQLTypeInfo) {o : Option (Rex D)} {φ : Option (Formula (Atom D))}
    (h : Option.Rel (Reads P) o φ) :
    Option.Rel (Reads P) (rebuildOper .kNOT ti o.toList) (φ.map .not) := by
  cases h with
  | none => exact .none
  | some h => exact .some (.not h)

-- ======== the inputs of operands

section

variable {P : Plan} {s : Nat}

theorem hasJointCondition_pair {e₁ e₂ : Rex D} {x y : Operand D}
    (hx : ReadsOperand P e₁ x) (hy : ReadsOperand P e₂ y) :
    hasJointCondition P [e₁, e₂] = x.joint y := by
  cases hx with
  | @column _ _ t c hcol =>
    have ht := Plan.table_ne_zero hcol
    cases hy with
    | @column _ _ t' c' hcol' =>
      by_cases htt : t = t'
      · simp [hasJointCondition, directInputs, Plan.tableOf_eq hcol,
          Plan.tableOf_eq hcol', jointStep, Operand.joint, htt]
      · simp [hasJointCondition, directInputs, Plan.tableOf_eq hcol,
          Plan.tableOf_eq hcol', jointStep, ht, Operand.joint, htt]
    | literal | cast =>
      simp [hasJointCondition, directInputs, jointStep, Operand.joint]
  | literal | cast =>
    cases hy with
    | column | literal | cast =>
      simp [hasJointCondition, directInputs, jointStep, Operand.joint]

/-- `c_infos_tmp` has the columns of the scan. -/
theorem scanCols_map_fst (hs : P.NamedScan s) {es : List (Rex D)}
    {xs : List (Operand D)} (h : Forall₂ (ReadsOperand P) es xs) :
    (scanCols P s es).map Prod.fst = xs.flatMap (Operand.columnIn s) := by
  induction h with
  | nil => rfl
  | @cons e x es xs hx _ ih =>
    cases hx with
    | @column source index t c hcol =>
      simp only [flatMap_cons, Operand.columnIn, ← ih]
      by_cases hts : t = s
      · subst hts
        obtain ⟨name, hinfo, hname⟩ := Plan.getColumnInfoFromScan_own hs hcol
        simp [scanCols, directInputs, hinfo, hname]
      · have hinfo := Plan.getColumnInfoFromScan_other hs.isScan hcol hts
        simp [scanCols, directInputs, hinfo, hts]
    | literal | cast => simpa [scanCols, directInputs, Operand.columnIn] using ih

/-- AND and OR have no inputs as operands. -/
theorem directInputs_of_reads {ps : List (Rex D × Formula (Atom D))}
    (h : ∀ p ∈ ps, Reads P p.1 p.2) : directInputs (ps.map Prod.fst) = [] := by
  rw [directInputs, filterMap_eq_nil_iff]
  intro e he
  obtain ⟨p, hp, rfl⟩ := mem_map.mp he
  obtain ⟨op, es, ti, heq⟩ := (h p hp).isOper
  rw [heq]

theorem projects_iff {K : List ColInfo} {c : Nat} :
    Projects K c ↔ c ∈ K.map Prod.fst := by
  simp [Projects]

theorem projects_insertCol {cols : List ColInfo} {x : ColInfo} {c : Nat} :
    Projects (insertCol cols x) c ↔ Projects cols c ∨ x.1 = c := by
  have hsplit := takeWhile_append_dropWhile (p := fun y : ColInfo => y.1 < x.1)
    (l := cols)
  unfold insertCol
  simp only
  split
  · next hrest =>
      rw [hrest, append_nil] at hsplit
      rw [hsplit]
      simp [Projects, or_and_right, exists_or]
  · next y ys hrest =>
      have hmem : y ∈ cols := by
        rw [← hsplit, hrest]
        simp
      split
      · next hyx =>
          constructor
          · exact .inl
          · intro h
            rcases h with h | h
            · exact h
            · exact ⟨y, hmem, by rw [hyx, h]⟩
      · have hsame : Projects cols c ↔ Projects
            (cols.takeWhile (fun y => y.1 < x.1) ++ cols.dropWhile fun y => y.1 < x.1) c := by
          rw [hsplit]
        rw [hsame]
        simp only [projects_iff, map_append, map_cons, mem_append, mem_cons]
        tauto

theorem projects_insertCols {cols new : List ColInfo} {c : Nat} :
    Projects (insertCols cols new) c ↔ Projects cols c ∨ Projects new c := by
  unfold insertCols
  induction new generalizing cols with
  | nil => simp [Projects]
  | cons x new ih =>
    rw [foldl_cons, ih, projects_insertCol]
    simp only [projects_iff, map_cons, mem_cons]
    tauto

end

-- ======== the extraction

section

variable {P : Plan} {s : Nat}
variable {cols : List ColInfo} {e : Rex D}

theorem findOperands_cons {es rs : List (Rex D)} {o : Option (Rex D)} {cols₁ cols₂ : List ColInfo}
    (h : findFilterAndProjectFromRex P s e cols = some (o, cols₁))
    (hs : findOperands P s es cols₁ = some (rs, cols₂)) :
    findOperands P s (e :: es) cols = some (o.toList ++ rs, cols₂) := by
  simp [findOperands, h, hs]

theorem findOperands_one {o : Option (Rex D)} {cols' : List ColInfo}
    (h : findFilterAndProjectFromRex P s e cols = some (o, cols')) :
    findOperands P s [e] cols = some (o.toList, cols') := by
  simp [findOperands, h]

theorem find_oper {op : SQLOps} {ti : SQLTypeInfo} {es rs : List (Rex D)} {cols' : List ColInfo}
    (hjoint : ¬ (es.length ≥ 2 ∧ hasJointCondition P es = true))
    (h : findOperands P s es cols = some (rs, cols')) :
    findFilterAndProjectFromRex P s (.oper op es ti) cols
      = some (rebuildOper op ti rs, cols') := by
  simp only [findFilterAndProjectFromRex, if_neg hjoint, h, Option.bind_eq_bind, Option.bind_some]

theorem find_operand (hs : P.NamedScan s) {x : Operand D} (h : ReadsOperand P e x)
    (cols : List ColInfo) : ∃ o, findFilterAndProjectFromRex P s e cols = some (o, cols)
      ∧ OperandResult P (x.within s) x o := by
  induction h with
  | @column source index t c hcol =>
    by_cases hts : t = s
    · subst hts
      obtain ⟨name, hinfo, hname⟩ := Plan.getColumnInfoFromScan_own hs hcol
      refine ⟨some (.input t c), by simp [findFilterAndProjectFromRex, hinfo, hname], ?_⟩
      simp only [Operand.within, OperandResult, beq_self_eq_true, if_true]
      exact ⟨_, rfl, .column (Plan.columnOf_scan hs.isScan hcol), rfl⟩
    · have hinfo := Plan.getColumnInfoFromScan_other hs.isScan hcol hts
      refine ⟨none, by simp [findFilterAndProjectFromRex, hinfo], ?_⟩
      simp [Operand.within, OperandResult, hts]
  | literal v =>
    exact ⟨_, by simp only [findFilterAndProjectFromRex], _, rfl, .literal v, rfl⟩
  | @cast e x ti _ ih =>
    obtain ⟨o, ho, hres⟩ := ih
    refine ⟨none, ?_, rfl⟩
    rw [find_oper (by simp) (findOperands_one ho), rebuildOper_leaf rfl ti hres]

/-- What the extraction returns of a condition, and the columns that it
adds to `cols_to_project`. -/
def FindReads (P : Plan) (s : Nat) (e : Rex D) (φ : Formula (Atom D)) : Prop :=
  ∀ cols, ∃ o cols', findFilterAndProjectFromRex P s e cols = some (o, cols')
    ∧ Option.Rel (Reads P) o (φ.prune (Atom.pushable s))
    ∧ ∀ c, Projects cols' c ↔ Projects cols c ∨ c ∈ joinColumns s φ

theorem findOperands_reads {ps : List (Rex D × Formula (Atom D))}
    (h : ∀ p ∈ ps, FindReads P s p.1 p.2) (cols : List ColInfo) :
    ∃ rs cols', findOperands P s (ps.map Prod.fst) cols = some (rs, cols')
      ∧ Forall₂ (Reads P) rs
        ((ps.map Prod.snd).filterMap (Formula.prune (Atom.pushable s)))
      ∧ ∀ c, Projects cols' c
        ↔ Projects cols c ∨ c ∈ (ps.map Prod.snd).flatMap (joinColumns s) := by
  induction ps generalizing cols with
  | nil => exact ⟨[], cols, rfl, .nil, by simp⟩
  | cons p ps ih =>
    obtain ⟨o, cols₁, ho, hrel, hcols₁⟩ := h p (by simp) cols
    obtain ⟨rs, cols₂, hrs, hall, hcols₂⟩ :=
      ih (fun q hq => h q (mem_cons_of_mem _ hq)) cols₁
    refine ⟨o.toList ++ rs, cols₂, findOperands_cons ho hrs, ?_, ?_⟩
    · exact Results.forall₂_filterMap_cons hrel hall
    · intro c
      rw [hcols₂, hcols₁, map_cons, flatMap_cons, mem_append, or_assoc]

theorem pushable_joint {op : SQLOps} {ti : SQLTypeInfo} {x y : Operand D}
    (h : x.joint y = true) : Atom.pushable s (.compare op ti x y) = false := by
  cases x with
  | column t c =>
    cases y with
    | column t' c' =>
      simp only [Operand.joint, bne_iff_ne, ne_eq] at h
      simp only [Atom.pushable, Operand.within, Bool.and_eq_false_iff, beq_eq_false_iff_ne]
      omega
    | literal | cast => cases h
  | literal | cast => cases h

/-- The extraction keeps the pushable atoms. -/
theorem find_reads (hs : P.NamedScan s) {φ : Formula (Atom D)} (h : Reads P e φ) :
    FindReads P s e φ := by
  induction h with
  | @compare op ti e₁ e₂ x y hop hx hy =>
    intro cols
    have hjoint := hasJointCondition_pair hx hy
    by_cases hxy : x.joint y = true
    · refine ⟨none, insertCols cols (scanCols P s [e₁, e₂]), ?_, ?_, ?_⟩
      · simp [findFilterAndProjectFromRex, hjoint, hxy]
      · rw [Formula.prune, pushable_joint hxy]
        exact .none
      · intro c
        rw [projects_insertCols, projects_iff (K := scanCols P s [e₁, e₂]),
          scanCols_map_fst hs (.cons hx (.cons hy .nil))]
        simp [joinColumns, Formula.atoms, Atom.joinColumns, hxy]
    · obtain ⟨ox, hox, hrx⟩ := find_operand hs hx cols
      obtain ⟨oy, hoy, hry⟩ := find_operand hs hy cols
      have hops := findOperands_cons hox (findOperands_one hoy)
      refine ⟨_, cols, find_oper (by simp [hjoint, hxy]) hops, ?_, ?_⟩
      · exact rebuildOper_compare hop ti hrx hry
      · simp [joinColumns, Formula.atoms, Atom.joinColumns, hxy]
  | @nullTest negated ti e x hx =>
    intro cols
    obtain ⟨ox, hox, hrx⟩ := find_operand hs hx cols
    refine ⟨_, cols, find_oper (by simp) (findOperands_one hox), ?_, ?_⟩
    · exact rebuildOper_nullTest negated ti hrx
    · simp [joinColumns, Formula.atoms, Atom.joinColumns]
  | @junction conj ti ps _ hps ih =>
    intro cols
    obtain ⟨rs, cols', hrs, hall, hcols⟩ := findOperands_reads ih cols
    have hjoint : hasJointCondition P (ps.map Prod.fst) = false := by
      simp [hasJointCondition, directInputs_of_reads hps]
    refine ⟨_, cols', find_oper (by simp [hjoint]) hrs, ?_, ?_⟩
    · rw [Formula.prune_junction]
      exact rebuildOper_junction conj ti hall
    · intro c
      rw [hcols, joinColumns, Formula.atoms_junction, flatMap_assoc]
      rfl
  | @not ti e φ _ ih =>
    intro cols
    obtain ⟨o, cols', ho, hrel, hcols⟩ := ih cols
    refine ⟨_, cols', find_oper (by simp) (findOperands_one ho), ?_, hcols⟩
    exact rebuildOper_not ti hrel

end

-- ======== the rebuilding

section

variable {P : Plan} {s k₀ : Nat} {K : List ColInfo}

/-- The columns that the compound puts out. -/
def projectsBool (K : List ColInfo) (c : Nat) : Bool :=
  K.any fun x => x.1 == c

theorem projectsBool_iff {c : Nat} : projectsBool K c = true ↔ Projects K c := by
  simp [projectsBool, Projects]

variable {e : Rex D}

section

variable {o : Option (Rex D)} (h : buildNewFilterExpr P s k₀ K e = some o)
include h

theorem buildNewOperands_cons {es rs : List (Rex D)} (hs : buildNewOperands P s k₀ K es = some rs) :
    buildNewOperands P s k₀ K (e :: es) = some (o.toList ++ rs) := by
  simp [buildNewOperands, h, hs]

theorem buildNewOperands_one : buildNewOperands P s k₀ K [e] = some o.toList := by
  simp [buildNewOperands, h]

end

theorem build_oper {op : SQLOps} {ti : SQLTypeInfo} {es rs : List (Rex D)}
    (hown : ¬ (es.length ≥ 2 ∧ !hasJointCondition P es ∧ scanCols P s es ≠ []))
    (h : buildNewOperands P s k₀ K es = some rs) :
    buildNewFilterExpr P s k₀ K (.oper op es ti) = some (rebuildOper op ti rs) := by
  simp only [buildNewFilterExpr, if_neg hown, h, Option.bind_eq_bind, Option.bind_some]

theorem build_operand (hs : P.IsScan s) (hk : k₀ ∉ P.root.ids) {x : Operand D}
    (h : ReadsOperand P e x) : ∃ o, buildNewFilterExpr P s k₀ K e = some o
      ∧ OperandResult (P.insertCompound s k₀ K) (x.above s (projectsBool K)) x o := by
  induction h with
  | @column source index t c hcol =>
    obtain ⟨hkept, hgone⟩ :=
      columnOf_buildNewInput (D := D) (K := K) hs hk hcol
    refine ⟨buildNewInput P s k₀ K source index, by simp only [buildNewFilterExpr], ?_⟩
    by_cases habove : t ≠ s ∨ Projects K c
    · obtain ⟨source', cId', hnew, hcol'⟩ := hkept habove
      have htrue : Operand.above (D := D) s (projectsBool K) (.column t c) = true := by
        simpa [Operand.above, projectsBool_iff] using habove
      rw [htrue, hnew]
      exact ⟨_, rfl, .column hcol', rfl⟩
    · rw [not_or, not_not] at habove
      have hfalse : Operand.above (D := D) s (projectsBool K) (.column t c) = false := by
        rw [← Bool.not_eq_true]
        simpa [Operand.above, projectsBool_iff] using habove
      rw [hfalse, hgone habove.1 habove.2]
      rfl
  | literal v => exact ⟨_, by simp only [buildNewFilterExpr], _, rfl, .literal v, rfl⟩
  | @cast e x ti _ ih =>
    obtain ⟨o, ho, hres⟩ := ih
    refine ⟨none, ?_, rfl⟩
    rw [build_oper (by simp) (buildNewOperands_one ho), rebuildOper_leaf rfl ti hres]

/-- What the rebuilding makes of a condition. -/
def BuildReads (P : Plan) (s k₀ : Nat) (K : List ColInfo) (e : Rex D)
    (φ : Formula (Atom D)) : Prop :=
  ∃ o, buildNewFilterExpr P s k₀ K e = some o
    ∧ Option.Rel (Reads (P.insertCompound s k₀ K)) o
      (φ.prune (Atom.stays s (projectsBool K)))

theorem buildNewOperands_reads {ps : List (Rex D × Formula (Atom D))}
    (h : ∀ p ∈ ps, BuildReads P s k₀ K p.1 p.2) :
    ∃ rs, buildNewOperands P s k₀ K (ps.map Prod.fst) = some rs
      ∧ Forall₂ (Reads (P.insertCompound s k₀ K)) rs
        ((ps.map Prod.snd).filterMap (Formula.prune (Atom.stays s (projectsBool K)))) := by
  induction ps with
  | nil => exact ⟨[], rfl, .nil⟩
  | cons p ps ih =>
    obtain ⟨o, ho, hrel⟩ := h p (by simp)
    obtain ⟨rs, hrs, hall⟩ := ih fun q hq => h q (mem_cons_of_mem _ hq)
    refine ⟨o.toList ++ rs, buildNewOperands_cons ho hrs, ?_⟩
    exact Results.forall₂_filterMap_cons hrel hall

theorem scanCols_ne_nil (hs : P.NamedScan s) {e₁ e₂ : Rex D} {x y : Operand D}
    (hx : ReadsOperand P e₁ x) (hy : ReadsOperand P e₂ y) :
    scanCols P s [e₁, e₂] ≠ [] ↔ (x.isColumnOf s || y.isColumnOf s) = true := by
  have hcols := scanCols_map_fst hs (.cons hx (.cons hy .nil))
  have hone : ∀ z : Operand D, z.columnIn s ≠ [] ↔ z.isColumnOf s = true := by
    intro z
    cases z with
    | column t c | literal | cast => simp [Operand.columnIn, Operand.isColumnOf]
  rw [Bool.or_eq_true, ← hone, ← hone, ne_eq, ← map_eq_nil_iff, hcols]
  simp only [flatMap_cons, flatMap_nil, append_nil, append_eq_nil_iff, not_and_or, ne_eq]

/-- The rebuilding keeps the atoms that stay. -/
theorem build_reads (hs : P.NamedScan s) (hk : k₀ ∉ P.root.ids) {φ : Formula (Atom D)}
    (h : Reads P e φ) : BuildReads P s k₀ K e φ := by
  induction h with
  | @compare op ti e₁ e₂ x y hop hx hy =>
    have hjoint := hasJointCondition_pair hx hy
    have hcols := scanCols_ne_nil hs hx hy
    cases hown : x.joint y || !(x.isColumnOf s || y.isColumnOf s) with
    | false =>
      -- at least a single column is on this table
      rw [Bool.or_eq_false_iff, Bool.not_eq_false'] at hown
      refine ⟨none, ?_, ?_⟩
      · simp [buildNewFilterExpr, hjoint, hown.1, hcols.mpr hown.2]
      · simp only [Formula.prune, Atom.stays, hown.1, hown.2]
        exact .none
    | true =>
      obtain ⟨ox, hox, hrx⟩ := build_operand (K := K) hs.isScan hk hx
      obtain ⟨oy, hoy, hry⟩ := build_operand (K := K) hs.isScan hk hy
      have hops := buildNewOperands_cons hox (buildNewOperands_one hoy)
      refine ⟨_, build_oper ?_ hops, ?_⟩
      · rw [hjoint, hcols]
        intro h
        obtain ⟨-, hnot, hcol⟩ := h
        rw [Bool.not_eq_true'] at hnot
        rw [hnot, hcol] at hown
        cases hown
      · simp only [Formula.prune, Atom.stays, hown, Bool.true_and]
        exact rebuildOper_compare hop ti hrx hry
  | @nullTest negated ti e x hx =>
    obtain ⟨ox, hox, hrx⟩ := build_operand (K := K) hs.isScan hk hx
    refine ⟨_, build_oper (by simp) (buildNewOperands_one hox), ?_⟩
    exact rebuildOper_nullTest negated ti hrx
  | @junction conj ti ps _ hps ih =>
    obtain ⟨rs, hrs, hall⟩ := buildNewOperands_reads ih
    have hnone : scanCols P s (ps.map Prod.fst) = [] := by
      simp [scanCols, directInputs_of_reads hps]
    refine ⟨_, build_oper (by simp [hnone]) hrs, ?_⟩
    rw [Formula.prune_junction]
    exact rebuildOper_junction conj ti hall
  | @not ti e φ _ ih =>
    obtain ⟨o, ho, hrel⟩ := ih
    refine ⟨_, build_oper (by simp) (buildNewOperands_one ho), ?_⟩
    exact rebuildOper_not ti hrel

end

end Compass.PushDown
