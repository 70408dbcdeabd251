/-
The plans that the push-down comes to, and their columns.

At first a plan has no compounds; each push-down puts one over a scan, with
the columns that the extraction has collected. These are in the order of
their indices, under the names they have in the scan (`InOrder`), so no
column is there twice, and none is in a plan (`Narrowed.nodup`).
-/
import Mathlib.Data.List.Pairwise
import Compass.PushDown.SchemaMap
import Compass.PushDown.Proofs.Remap

namespace Compass.PushDown

open List Option Prod
open RelNode

variable {D : Type}

namespace RelNode

-- ======== the scan and the rest

/-- A node with the scan in it: what is before the scan, and what is behind. -/
structure Around (s k₀ : Nat) (K : List ColInfo) (fields : List String) (n : RelNode)
    (ts₁ ts₂ pre post : List (Nat × Nat)) : Prop where
  schema : ∃ names₁ names₂, n.schema = names₁ ++ (fields ++ names₂) ∧
    names₁.length = totalCols ts₁
  tNumCols : n.tNumCols = ts₁ ++ (s, fields.length) :: ts₂
  narrowed : (n.insertCompound s k₀ K).tNumCols = ts₁ ++ (s, K.length) :: ts₂
  outputs : n.outputs = pre ++ ((List.range fields.length).map (fun c => (s, c)) ++ post)
  projected : (n.insertCompound s k₀ K).outputs = pre ++ (K.map (fun x => (s, x.1)) ++ post)
  before : pre.length = totalCols ts₁
  not_before : s ∉ ts₁.map Prod.fst
  not_behind : s ∉ ts₂.map Prod.fst
  others_before : ∀ col ∈ pre, col.1 ≠ s
  others : ∀ col ∈ post, col.1 ≠ s

theorem length_schema_totalCols (n : RelNode) : n.schema.length = totalCols n.tNumCols := by
  induction n with
  | scan i fields | derived i fields input ih | compound i cols input ih =>
    simp [schema, tNumCols]
  | through i input ih => exact ih
  | join i lhs rhs ihl ihr =>
    rw [schema, tNumCols, length_append, totalCols_append, ihl, ihr]

theorem ne_of_not_mem {s : Nat} {n : RelNode} (hs : s ∉ n.tables) :
    ∀ col ∈ n.outputs, col.1 ≠ s :=
  fun _ hcol heq => hs (heq ▸ table_of_mem_outputs hcol)

theorem exists_around {s : Nat} (k₀ : Nat) (K : List ColInfo) {fields : List String}
    {n : RelNode} (hd : n.tables.Nodup) (h : n.find? s = some (.scan s fields)) :
    ∃ ts₁ ts₂ pre post, Around s k₀ K fields n ts₁ ts₂ pre post := by
  refine scan_induct
    (Q := fun n => ∃ ts₁ ts₂ pre post, Around s k₀ K fields n ts₁ ts₂ pre post)
    ?_ ?_ ?_ ?_ hd h
  · refine ⟨[], [], [], [], ⟨⟨[], [], by simp [schema], rfl⟩, rfl, ?_, ?_, ?_, rfl,
      by simp, by simp, by simp, by simp⟩⟩
    · simp [insertCompound, tNumCols, findBaseTableId]
    · simp [outputs]
    · simp [insertCompound, outputs, findBaseTableId]
  · rintro i input - - ⟨ts₁, ts₂, pre, post, ha⟩
    exact ⟨ts₁, ts₂, pre, post, ⟨ha.schema, ha.tNumCols, ha.narrowed, ha.outputs, ha.projected,
      ha.before, ha.not_before, ha.not_behind, ha.others_before, ha.others⟩⟩
  · rintro i lhs rhs - - - hr ⟨ts₁, ts₂, pre, post, ha⟩
    obtain ⟨names₁, names₂, hschema, hlen⟩ := ha.schema
    refine ⟨ts₁, ts₂ ++ rhs.tNumCols, pre, post ++ rhs.outputs, ⟨⟨names₁, names₂ ++ rhs.schema,
      by simp [schema, hschema], hlen⟩, ?_, ?_, ?_, ?_, ha.before, ha.not_before, ?_,
      ha.others_before, ?_⟩⟩
    · simp [tNumCols, ha.tNumCols]
    · simp [tNumCols, insertCompound, insertCompound_of_not_mem hr, ha.narrowed]
    · simp [outputs, ha.outputs]
    · simp [outputs, insertCompound, insertCompound_of_not_mem hr, ha.projected]
    · rw [map_append, mem_append, not_or]
      exact ⟨ha.not_behind, hr⟩
    · rw [forall_mem_append]
      exact ⟨ha.others, ne_of_not_mem hr⟩
  · rintro i lhs rhs - - - hl ⟨ts₁, ts₂, pre, post, ha⟩
    obtain ⟨names₁, names₂, hschema, hlen⟩ := ha.schema
    refine ⟨lhs.tNumCols ++ ts₁, ts₂, lhs.outputs ++ pre, post, ⟨⟨lhs.schema ++ names₁, names₂,
      by simp [schema, hschema], ?_⟩, ?_, ?_, ?_, ?_, ?_, ?_, ha.not_behind, ?_,
      ha.others⟩⟩
    · rw [length_append, totalCols_append, length_schema_totalCols, hlen]
    · simp [tNumCols, ha.tNumCols]
    · simp [tNumCols, insertCompound, insertCompound_of_not_mem hl, ha.narrowed]
    · simp [outputs, ha.outputs]
    · simp [outputs, insertCompound, insertCompound_of_not_mem hl, ha.projected]
    · rw [length_append, totalCols_append, length_outputs, ha.before]
    · rw [map_append, mem_append, not_or]
      exact ⟨hl, ha.not_before⟩
    · rw [forall_mem_append]
      exact ⟨ne_of_not_mem hl, ha.others_before⟩

end RelNode

-- ======== the lists

section

variable {α : Type} {l₁ l₂ l₃ : List α} {i : Nat}

theorem getElem?_middle (h₁ : l₁.length ≤ i) (h₂ : i < l₁.length + l₂.length) :
    (l₁ ++ (l₂ ++ l₃))[i]? = l₂[i - l₁.length]? := by
  rw [getElem?_append_right h₁, getElem?_append_left (by omega)]

theorem getElem?_behind (h : l₁.length + l₂.length ≤ i) :
    (l₁ ++ (l₂ ++ l₃))[i]? = l₃[i - l₁.length - l₂.length]? := by
  rw [getElem?_append_right (by omega), getElem?_append_right (by omega)]

end

-- ======== the columns

variable {fields : List String} {K tmp : List ColInfo} {x : ColInfo}

/-- The name of a column is the one it has in the scan. -/
def Named (fields : List String) (x : ColInfo) : Prop :=
  x.2 = fields.getD x.1 ""

/-- Columns of a scan, each once, in the order of their indices. -/
structure InOrder (fields : List String) (K : List ColInfo) : Prop where
  sorted : K.Pairwise fun x y => x.1 < y.1
  named : ∀ x ∈ K, Named fields x

theorem InOrder.nil : InOrder fields [] :=
  ⟨.nil, fun _ h => nomatch h⟩

theorem InOrder.cons_iff :
    InOrder fields (x :: K) ↔ (∀ y ∈ K, x.1 < y.1) ∧ Named fields x ∧ InOrder fields K := by
  constructor
  · intro h
    obtain ⟨hx, hK⟩ := pairwise_cons.1 h.sorted
    obtain ⟨hn, hnK⟩ := forall_mem_cons.1 h.named
    exact ⟨hx, hn, hK, hnK⟩
  · rintro ⟨hx, hn, hK⟩
    exact ⟨pairwise_cons.2 ⟨hx, hK.sorted⟩, forall_mem_cons.2 ⟨hn, hK.named⟩⟩

theorem insertCol_cons (y x : ColInfo) (K : List ColInfo) :
    insertCol (y :: K) x
      = if y.1 < x.1 then y :: insertCol K x
        else if y = x then y :: K else x :: y :: K := by
  unfold insertCol
  by_cases h : y.1 < x.1
  · simp only [takeWhile_cons, dropWhile_cons, h, decide_true, if_true]
    cases K.dropWhile fun z => decide (z.1 < x.1) with
    | nil => rfl
    | cons z zs =>
      dsimp only
      split <;> rfl
  · simp [h]

theorem mem_insertCol {y : ColInfo} (h : y ∈ insertCol K x) : y ∈ K ∨ y = x := by
  induction K with
  | nil => exact .inr (by simpa [insertCol] using h)
  | cons z K ih =>
    rw [insertCol_cons] at h
    split at h
    · rcases mem_cons.1 h with rfl | h
      · exact .inl mem_cons_self
      · exact (ih h).imp (mem_cons_of_mem z) id
    · split at h
      · exact .inl h
      · rcases mem_cons.1 h with rfl | h
        · exact .inr rfl
        · exact .inl h

/-- A column of the same index has the same name, so it is the same. -/
theorem InOrder.insertCol (h : InOrder fields K) (hx : Named fields x) :
    InOrder fields (insertCol K x) := by
  induction K with
  | nil => exact cons_iff.2 ⟨fun _ h => (nomatch h), hx, .nil⟩
  | cons y K ih =>
    obtain ⟨hy, hn, hK⟩ := cons_iff.1 h
    rw [insertCol_cons]
    split
    · next hlt =>
        refine cons_iff.2 ⟨fun z hz => ?_, hn, ih hK⟩
        rcases mem_insertCol hz with hz | rfl
        · exact hy z hz
        · exact hlt
    · next hge =>
        split
        · exact h
        · next hne =>
            have hlt : x.1 < y.1 := by
              by_contra hle
              have hindex : y.1 = x.1 := by omega
              exact hne (Prod.ext hindex (by rw [hn, hx, hindex]))
            refine cons_iff.2 ⟨fun z hz => ?_, hx, h⟩
            rcases mem_cons.1 hz with rfl | hz
            · exact hlt
            · exact hlt.trans (hy z hz)

theorem InOrder.insertCols (h : InOrder fields K) (htmp : ∀ x ∈ tmp, Named fields x) :
    InOrder fields (insertCols K tmp) := by
  induction tmp generalizing K with
  | nil => exact h
  | cons x tmp ih =>
    rw [forall_mem_cons] at htmp
    exact ih (h.insertCol htmp.1) htmp.2

-- ======== the extraction

section

variable {P : Plan} {s : Nat}

section

variable (hs : P.root.find? s = some (.scan s fields))
include hs

/-- A column of the scan has the name it has there. -/
theorem name_of_located {source cId c : Nat}
    (hc : RelNode.locateInScan cId s (P.tNumColsOf source) 0 = some c) :
    Named fields (c, (P.schemaOf source).getD cId "") := by
  unfold Plan.tNumColsOf at hc
  unfold Plan.schemaOf Named
  split at hc
  · next n hn =>
      have hmem : s ∈ n.tables := by
        by_contra hno
        rw [locateInScan_none hno] at hc
        cases hc
      obtain ⟨ts₁, ts₂, pre, post, ha⟩ := exists_around 0 []
        (nodup_found P.tables_nodup hn)
        (find?_scan_found P.tables_nodup hs hn hmem)
      obtain ⟨names₁, names₂, hschema, hlen⟩ := ha.schema
      rw [ha.tNumCols, locateInScan_append, if_neg ha.not_before, Nat.zero_add,
        locateInScan, if_pos rfl] at hc
      split at hc
      · next hin =>
          obtain rfl := some.inj hc
          dsimp only
          rw [getD_eq_getElem?_getD, getD_eq_getElem?_getD, hschema,
            getElem?_middle (by omega) (by omega), hlen]
      · cases hc
  · cases hc

/-- `getColumnInfoFromScan` finds a column under its name in the scan. -/
theorem named_of_located {source cId : Nat} (h : (P.getColumnInfoFromScan source cId s).2 ≠ "") :
    Named fields (P.getColumnInfoFromScan source cId s) := by
  unfold Plan.getColumnInfoFromScan at h ⊢
  split at h
  · next hc => exact name_of_located hs hc
  · exact absurd rfl h

theorem named_of_mem_scanCols (refs : List (Nat × Nat)) :
    ∀ x ∈ (refs.map fun r => P.getColumnInfoFromScan r.1 r.2 s).filter fun c => c.2 ≠ "",
      Named fields x := by
  intro x hx
  obtain ⟨hx, hne⟩ := mem_filter.1 hx
  obtain ⟨r, -, rfl⟩ := mem_map.1 hx
  exact named_of_located hs (of_decide_eq_true hne)

omit hs in
theorem named_funcOperands {es rs : List (Rex D)} {tmp' : List ColInfo}
    (ih : ∀ e ∈ es, ∀ tmp o tmp', findFilterAndProjectFromFuncOper P s e tmp = some (o, tmp') →
      (∀ x ∈ tmp, Named fields x) → ∀ x ∈ tmp', Named fields x)
    (h : findFuncOperands P s es tmp = some (rs, tmp')) (htmp : ∀ x ∈ tmp, Named fields x) :
    ∀ x ∈ tmp', Named fields x := by
  induction es generalizing rs tmp with
  | nil =>
    cases h
    exact htmp
  | cons e es ihs =>
    simp only [findFuncOperands, bind_eq_bind, bind_eq_some_iff] at h
    obtain ⟨⟨o, tmp₁⟩, ho, ⟨rs', tmp₂⟩, hrs, heq⟩ := h
    cases heq
    rw [forall_mem_cons] at ih
    exact ihs ih.2 hrs (ih.1 _ _ _ ho htmp)

theorem named_funcOper (e : Rex D) :
    ∀ tmp o tmp', findFilterAndProjectFromFuncOper P s e tmp = some (o, tmp') →
      (∀ x ∈ tmp, Named fields x) → ∀ x ∈ tmp', Named fields x := by
  induction e using Rex.operand_induction with
  | input source index =>
    intro tmp o tmp' h htmp
    simp only [findFilterAndProjectFromFuncOper] at h
    split at h
    · next hne =>
        cases h
        rw [forall_mem_append, forall_mem_singleton]
        exact ⟨htmp, named_of_located hs hne⟩
    · cases h
      exact htmp
  | literal v =>
    intro tmp o tmp' h htmp
    cases h
    exact htmp
  | func name es ti ih =>
    intro tmp o tmp' h htmp
    simp only [findFilterAndProjectFromFuncOper, bind_eq_bind, bind_eq_some_iff] at h
    obtain ⟨⟨rs, tmp₁⟩, hrs, h⟩ := h
    have htmp₁ := named_funcOperands ih hrs htmp
    split at h <;> cases h <;> exact htmp₁
  | oper op es ti | case bs els | ref i | subQuery q =>
    intro tmp o tmp' h
    cases h

end

/-- What holds of the columns collected so far holds of the columns after. -/
def Keeps (P : Plan) (s : Nat) (Q : List ColInfo → Prop) (e : Rex D) : Prop :=
  ∀ cols o cols', findFilterAndProjectFromRex P s e cols = some (o, cols') → Q cols → Q cols'

variable {Q : List ColInfo → Prop}

theorem keeps_operands {es rs : List (Rex D)} {cols cols' : List ColInfo}
    (ih : ∀ e ∈ es, Keeps P s Q e)
    (h : findOperands P s es cols = some (rs, cols')) (hcols : Q cols) :
    Q cols' := by
  induction es generalizing rs cols with
  | nil =>
    cases h
    exact hcols
  | cons e es ihs =>
    simp only [findOperands, bind_eq_bind, bind_eq_some_iff] at h
    obtain ⟨⟨o, cols₁⟩, ho, ⟨rs', cols₂⟩, hrs, heq⟩ := h
    cases heq
    rw [forall_mem_cons] at ih
    exact ihs ih.2 hrs (ih.1 _ _ _ ho hcols)

theorem keeps_branches {bs rs : List (Rex D × Rex D)} {cols cols' : List ColInfo}
    (ih : ∀ b ∈ bs, Keeps P s Q b.1 ∧ Keeps P s Q b.2)
    (h : findBranches P s bs cols = some (rs, cols')) (hcols : Q cols) :
    Q cols' := by
  induction bs generalizing rs cols with
  | nil =>
    cases h
    exact hcols
  | cons b bs ihs =>
    simp only [findBranches, bind_eq_bind, bind_eq_some_iff] at h
    obtain ⟨⟨w, cols₁⟩, hw, ⟨t, cols₂⟩, ht, ⟨rs', cols₃⟩, hrs, heq⟩ := h
    rw [forall_mem_cons] at ih
    have hcols₂ := ih.1.2 _ _ _ ht (ih.1.1 _ _ _ hw hcols)
    split at heq <;> cases heq <;> exact ihs ih.2 hrs hcols₂

variable (hs : P.root.find? s = some (.scan s fields))
include hs

/-- What holds of more and more columns of the scan holds of those that are
collected. -/
theorem keeps
    (hQ : ∀ cols tmp, (∀ x ∈ tmp, Named fields x) → Q cols → Q (insertCols cols tmp)) (e : Rex D) :
    Keeps P s Q e := by
  induction e using Rex.operand_induction with
  | input source index =>
    intro cols o cols' h hcols
    simp only [findFilterAndProjectFromRex] at h
    split at h <;> cases h <;> exact hcols
  | literal v | ref i | subQuery q =>
    intro cols o cols' h hcols
    cases h
    exact hcols
  | func name es ti =>
    intro cols o cols' h hcols
    simp only [findFilterAndProjectFromRex, bind_eq_bind, bind_eq_some_iff] at h
    obtain ⟨⟨rs, tmp⟩, hrs, h⟩ := h
    have htmp : ∀ x ∈ tmp, Named fields x :=
      named_funcOperands (fun e _ => named_funcOper hs e) hrs fun _ h => nomatch h
    split at h <;> cases h
    · exact hQ _ _ htmp hcols
    · exact hcols
  | oper op es ti ih =>
    intro cols o cols' h hcols
    unfold findFilterAndProjectFromRex at h
    split at h
    · cases h
      exact hQ _ _ (named_of_mem_scanCols hs _) hcols
    · simp only [bind_eq_bind, bind_eq_some_iff] at h
      obtain ⟨⟨rs, cols₁⟩, hrs, h⟩ := h
      cases h
      exact keeps_operands ih hrs hcols
  | case bs els ihb ihe =>
    intro cols o cols' h hcols
    simp only [findFilterAndProjectFromRex, bind_eq_bind, bind_eq_some_iff] at h
    obtain ⟨⟨rs, cols₁⟩, hrs, h⟩ := h
    have hcols₁ := keeps_branches ihb hrs hcols
    split at h
    · cases h
      exact hcols₁
    · obtain ⟨⟨o', cols₂⟩, hels, h⟩ := bind_eq_some_iff.1 h
      cases h
      exact ihe _ _ _ hels hcols₁

/-- `cols_to_project`, from the projections and the condition. -/
theorem findFilterAndProject_inOrder
    {projects : List (Rex D)} {cond : Rex D} {o : Option (Rex D)} {cols : List ColInfo}
    (h : findFilterAndProject P s projects cond = some (o, cols)) : InOrder fields cols := by
  refine keeps hs (fun _ _ htmp hcols => hcols.insertCols htmp) cond _ _ _ h ?_
  suffices ∀ K, InOrder fields K →
      InOrder fields (projects.foldl (fun cols e => getProjectFromRex P s e cols) K) from
    this [] .nil
  clear h
  induction projects with
  | nil => exact fun _ hK => hK
  | cons e projects ih =>
    exact fun K hK => ih _ (hK.insertCols (named_of_mem_scanCols hs _))

end

-- ======== the plans

namespace RelNode

/-- No compound of the push-down is visible. -/
def NoCompound : RelNode → Prop
  | .scan _ _ => True
  | .derived _ _ _ => True
  | .compound _ _ _ => False
  | .through _ input => input.NoCompound
  | .join _ lhs rhs => lhs.NoCompound ∧ rhs.NoCompound

theorem nodup_columns (t : Nat) (w : Nat) : ((range w).map fun c => (t, c)).Nodup :=
  nodup_range.map fun _ _ h => (mk.inj h).2

theorem nodup_outputs_join {i : Nat} {lhs rhs : RelNode}
    (hd : (RelNode.join i lhs rhs).tables.Nodup) (hl : lhs.outputs.Nodup)
    (hr : rhs.outputs.Nodup) : (RelNode.join i lhs rhs).outputs.Nodup := by
  rw [tables_join, nodup_append] at hd
  refine nodup_append.2 ⟨hl, hr, fun a ha b hb heq => ?_⟩
  exact hd.2.2 _ (table_of_mem_outputs ha) _ (table_of_mem_outputs hb) (congrArg fst heq)

theorem NoCompound.nodup {n : RelNode} (h : n.NoCompound) (hd : n.tables.Nodup) :
    n.outputs.Nodup := by
  induction n with
  | scan i fields | derived i fields input => exact nodup_columns _ _
  | compound i cols input => exact False.elim h
  | through i input ih => exact ih h hd
  | join i lhs rhs ihl ihr =>
    have hd' := hd
    rw [tables_join, nodup_append] at hd'
    exact nodup_outputs_join hd (ihl h.1 hd'.1) (ihr h.2 hd'.2.1)

/-- The columns of the scan in the order of their indices make way for some of
them. -/
theorem nodup_projected {s k₀ : Nat} {n : RelNode} (hK : InOrder fields K)
    (hfind : n.find? s = some (.scan s fields)) (hd : n.tables.Nodup)
    (h : n.outputs.Nodup) : (n.insertCompound s k₀ K).outputs.Nodup := by
  obtain ⟨ts₁, ts₂, pre, post, ha⟩ := exists_around k₀ K hd hfind
  rw [ha.outputs, nodup_append, nodup_append] at h
  obtain ⟨hpre, ⟨-, hpost, -⟩, hdisj⟩ := h
  have hown : (K.map fun x => (s, x.1)).Nodup := by
    rw [nodup_iff_pairwise_ne, pairwise_map]
    exact hK.sorted.imp fun hlt heq => absurd (mk.inj heq).2 (by omega)
  have htable : ∀ col ∈ K.map fun x => (s, x.1), col.1 = s := by
    intro col hcol
    obtain ⟨x, -, rfl⟩ := mem_map.1 hcol
    rfl
  rw [ha.projected, nodup_append, nodup_append]
  refine ⟨hpre, ⟨hown, hpost, fun a hmem b hb heq => ?_⟩, fun a hmem b hb => ?_⟩
  · exact ha.others b hb (heq ▸ htable a hmem)
  · rcases mem_append.1 hb with hb | hb
    · exact fun heq => ha.others_before a hmem (by rw [heq, htable b hb])
    · exact hdisj a hmem b (mem_append_right _ hb)

end RelNode

/-- A plan that the push-down comes to. -/
inductive Narrowed (D : Type) : Plan → Prop where
  | start {P : Plan} (h : P.root.NoCompound) : Narrowed D P
  | step {P : Plan} {s k₀ : Nat} {projects : List (Rex D)} {cond filter : Rex D}
      {cols : List ColInfo} (hP : Narrowed D P) (hs : P.IsScan s) (hk : k₀ ∉ P.root.ids)
      (hcols : findFilterAndProject P s projects cond = some (some filter, cols)) :
      Narrowed D (P.insertCompound s k₀ cols)

/-- No column is in it twice. -/
theorem Narrowed.nodup {P : Plan} (h : Narrowed D P) : P.root.outputs.Nodup := by
  induction h with
  | @start P h => exact h.nodup P.tables_nodup
  | @step P s k₀ projects cond filter cols hP hs hk hcols ih =>
    obtain ⟨fields, hs⟩ := hs
    exact nodup_projected (findFilterAndProject_inOrder hs hcols) hs
      P.tables_nodup ih

end Compass.PushDown
