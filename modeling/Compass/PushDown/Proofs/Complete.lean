/-
What is in `cols_to_project` (`getProjectFromRex`,
`findFilterAndProjectFromRex`), for those that look a column up in it.

The list is in the order of the indices, and has every column of the scan
that a projection refers to, so `buildNewProjectExpr` always finds what it
looks up. `buildNewFilterExpr` drops a column that is not there, as long as
it takes the reference for one of the scan: on the schema of a source that
was not looked up before the compound was put in, it may not.
-/
import Compass.PushDown.Proofs.SchemaMap
import Compass.PushDown.Proofs.Split

namespace Compass.PushDown

open List

variable {D : Type} {P : Plan} {s k₀ : Nat} {K : List ColInfo} {fields : List String}
  {kept : List Nat}

/-- The columns to project are in strict order. They have every column of
the scan that a projection refers to, and no look-up for a projection
fails; and every one that what is left of the condition refers to. -/
structure CompleteCols (P : Plan) (s k₀ : Nat) (K : List ColInfo) (kept : List Nat)
    (projects : List (Rex D)) (cond : Rex D) : Prop where
  sorted : K.Pairwise fun x y => x.1 < y.1
  projected : ∀ e ∈ projects, ∀ r ∈ e.inputs, ∀ c, P.columnOf r.1 r.2 = some (s, c) → Projects K c
  lookups : ∀ e ∈ projects, ∀ r ∈ e.inputs, P.columnOf r.1 r.2 ≠ none →
    newInput (keptSchemas P s k₀ K kept) P s k₀ K r.1 r.2 ≠ none
  residual : ∀ cond', buildFilterExprFrom (keptSchemas P s k₀ K kept) P s k₀ K cond
    = some (some cond') → List.SublistForall₂
      (fun r' r => newInput (keptSchemas P s k₀ K kept) P s k₀ K r.1 r.2 = some r'
        ∧ ∀ c, P.columnOf r.1 r.2 = some (s, c) → Projects K c) cond'.inputs cond.inputs

/-- A column of the scan is found under its name. -/
theorem info_of_columnOf (hs : P.root.find? s = some (.scan s fields)) (hnames : "" ∉ fields)
    {source cId c : Nat} (h : P.columnOf source cId = some (s, c)) :
    (P.getColumnInfoFromScan source cId s).2 ≠ ""
      ∧ (P.getColumnInfoFromScan source cId s).1 = c := by
  obtain ⟨n, hn, hout⟩ := Plan.columnOf_eq_some.1 h
  have hplain := RelNode.plainTable_found (RelNode.plainTable_of_find? P.tables_nodup hs) hn
  have hloc : RelNode.locateInScan cId s (P.tNumColsOf source) 0 = some c := by
    simp only [Plan.tNumColsOf, hn]
    exact RelNode.located_of_outputs hplain (RelNode.nodup_found P.tables_nodup hn) 0
      (Nat.zero_le _) hout
  have hlt := RelNode.column_lt_of_find? P.tables_nodup hs
    (RelNode.outputs_found hn _ (mem_of_getElem? hout))
  have hnamed := name_of_located hs hloc
  unfold Plan.getColumnInfoFromScan
  rw [hloc]
  refine ⟨fun hempty => hnames ?_, rfl⟩
  unfold Named at hnamed
  rw [← hempty, hnamed, getD_eq_getElem?_getD, getElem?_eq_getElem hlt]
  exact getElem_mem hlt

theorem projects_getProjects (hs : P.root.find? s = some (.scan s fields)) (hnames : "" ∉ fields)
    {projects : List (Rex D)} {e : Rex D} (he : e ∈ projects) {r : Nat × Nat} (hr : r ∈ e.inputs)
    {c : Nat} (hc : P.columnOf r.1 r.2 = some (s, c)) (K : List ColInfo) :
    Projects (projects.foldl (fun cols e => getProjectFromRex P s e cols) K) c := by
  obtain ⟨hname, hindex⟩ := info_of_columnOf hs hnames hc
  have hgrow : ∀ (es : List (Rex D)) (cols : List ColInfo), Projects cols c →
      Projects (es.foldl (fun cols e => getProjectFromRex P s e cols) cols) c := by
    intro es
    induction es with
    | nil => exact fun _ h => h
    | cons e es ih => exact fun cols h => ih _ (projects_insertCols.2 (.inl h))
  induction projects generalizing K with
  | nil => cases he
  | cons e' projects ih =>
    rcases mem_cons.1 he with rfl | he
    · refine hgrow projects _ (projects_insertCols.2 (.inr ⟨_, ?_, hindex⟩))
      exact mem_filter.2 ⟨mem_map_of_mem hr, decide_eq_true hname⟩
    · exact ih he _

/-- On a schema from before a reference to the scan is rewritten exactly if
its column is projected. -/
theorem newInput_kept (hs : P.IsScan s) (hk : k₀ ∉ P.root.ids) {r : Nat × Nat}
    (hkept : r.1 ∈ kept ∨ r.1 = s) {col : Nat × Nat} (hcol : P.columnOf r.1 r.2 = some col) :
    newInput (keptSchemas P s k₀ K kept) P s k₀ K r.1 r.2 ≠ none
      ↔ (col.1 = s → Projects K col.2) := by
  have hschema : keptSchemas P s k₀ K kept r.1 = P.schemas r.1 := if_pos hkept
  obtain ⟨hgoes, hdrop⟩ := columnOf_buildNewInput (D := Int) (K := K) hs hk hcol
  rw [buildNewInput_eq, Option.map_eq_none_iff] at hdrop
  rw [newInput_congr hschema]
  constructor
  · intro hsome heq
    by_contra hnot
    exact hsome (hdrop heq hnot)
  · intro hproj hnone
    obtain ⟨source, cId, heq, -⟩ := hgoes (or_iff_not_imp_left.2 fun h => hproj (not_not.1 h))
    rw [buildNewInput_eq, hnone] at heq
    cases heq

/-- The columns to project are complete when every reference of the condition
to a column of the scan has a source whose schema is there from before. -/
theorem colsToProject_complete (hs : P.root.find? s = some (.scan s fields)) (hnames : "" ∉ fields)
    (hk : k₀ ∉ P.root.ids) {known : List Nat} {projects : List (Rex D)} {cond : Rex D}
    {o : Option (Rex D)} (h : findFilterAndProject P s projects cond = some (o, K))
    (hcond : ∀ r ∈ cond.inputs, ∀ c, P.columnOf r.1 r.2 = some (s, c) →
      r.1 ∈ sourcesKept P s known projects cond ∨ r.1 = s) :
    CompleteCols P s k₀ K (sourcesKept P s known projects cond) projects cond := by
  have hprojected : ∀ e ∈ projects, ∀ r ∈ e.inputs, ∀ c,
      P.columnOf r.1 r.2 = some (s, c) → Projects K c := fun e he r hr c hc =>
    keeps (Q := (Projects · c)) hs (fun _ _ _ hcols => projects_insertCols.2 (.inl hcols)) cond
      _ _ _ h (projects_getProjects hs hnames he hr hc [])
  refine ⟨(findFilterAndProject_inOrder hs h).sorted, hprojected, fun e he r hr hcol => ?_,
    fun cond' hcond' => ?_⟩
  · obtain ⟨col, hcol⟩ := Option.ne_none_iff_exists'.1 hcol
    have hsource : r.1 ∈ sourcesKept P s known projects cond := mem_append_left _
      (mem_append_right _
        (mem_map_of_mem (f := Prod.fst) (Rex.mem_inputsAll.2 ⟨e, he, hr⟩)))
    refine (newInput_kept ⟨fields, hs⟩ hk (.inl hsource) hcol).2 fun heq => ?_
    exact hprojected e he r hr col.2 (heq ▸ hcol)
  · obtain ⟨refs, hrefs, hsub⟩ := sublistForall₂_iff.1 (newRefs_filter hcond')
    have hmem : ∀ r ∈ refs, r ∈ cond.inputs := fun r hr => hsub.subset hr
    refine sublistForall₂_iff.2 ⟨refs, ?_, hsub⟩
    refine Forall₂.flip (((forall₂_and_left refs cond'.inputs).2 ⟨hmem, hrefs.flip⟩).imp ?_)
    rintro r r' ⟨hr, hnew⟩
    refine ⟨hnew, fun c hc => (newInput_kept ⟨fields, hs⟩ hk (hcond r hr c hc) hc).1 ?_ rfl⟩
    rw [show newInput (keptSchemas P s k₀ K (sourcesKept P s known projects cond)) P s k₀ K r.1 r.2
      = some r' from hnew]
    nofun

-- ======== three columns

/-- A filter over the join of three tables. -/
def wideTables : Plan where
  root := .through 6 (.join 5 (.join 4 (.scan 1 ["x", "y", "w"]) (.scan 2 ["k", "u"]))
    (.scan 3 ["z"]))
  tables_nodup := by decide
  tables_pos := by decide

/-- With a compound over the second one, for both of its columns. -/
def secondPushed : Plan := wideTables.insertCompound 2 7 [(0, "k"), (1, "u")]

/-- `SELECT y, k, u` -/
def selectYKU : List (Rex Int) := [.input 6 1, .input 6 3, .input 6 4]

theorem secondPushed_narrowed : Narrowed Int secondPushed :=
  have hcols : findFilterAndProject wideTables 2 selectYKU (caseCondition 1)
      = some (some (nowAfter 0), [(0, "k"), (1, "u")]) := rfl
  .step (.start ⟨⟨trivial, trivial⟩, trivial⟩) ⟨["k", "u"], rfl⟩ (by decide) hcols

/-- `ELSE w`, with the join of the first two looked up before. -/
theorem colsToProject_complete_known :
    CompleteCols secondPushed 1 8 [(1, "y")] (sourcesKept secondPushed 1 [4] selectYKU
      (caseCondition 2)) selectYKU (caseCondition 2) :=
  have hlooked : ∀ r ∈ (caseCondition 2).inputs,
      r.1 ∈ sourcesKept secondPushed 1 [4] selectYKU (caseCondition 2) ∨ r.1 = 1 := by decide
  have hs : secondPushed.root.find? 1 = some (.scan 1 ["x", "y", "w"]) := rfl
  colsToProject_complete hs (by decide) (by decide) rfl fun r hr _ _ => hlooked r hr

/-- When it has not, `w` is left in the condition and not projected. -/
theorem colsToProject_not_complete :
    Narrowed Int secondPushed ∧
    (∃ filter, findFilterAndProject secondPushed 1 selectYKU (caseCondition 2)
      = some (some filter, [(1, "y")])) ∧
    ¬ CompleteCols secondPushed 1 8 [(1, "y")] (sourcesKept secondPushed 1 [] selectYKU
      (caseCondition 2)) selectYKU (caseCondition 2) := by
  refine ⟨secondPushed_narrowed, ⟨nowAfter 0, rfl⟩, fun h => ?_⟩
  obtain ⟨refs, hrefs, hsub⟩ := sublistForall₂_iff.1 (h.residual (caseCondition 2) rfl)
  obtain rfl := hsub.eq_of_length hrefs.length_eq.symm
  obtain _ | ⟨-, _ | ⟨⟨-, hproj⟩, -⟩⟩ := hrefs
  exact absurd (hproj 2 rfl) (by simp [Projects])

end Compass.PushDown
