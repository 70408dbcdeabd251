/-
Sorting by the same columns again.

An engine that orders values orders rows (`pairwise_sorted`), so rows that
were sorted and cut are sorted, and a sort by the same columns leaves them
alone (`sortRows_sortRows`). Columns that come from one column have the
same value in every row (`SameColumn.column_eq`).
-/
import Compass.Optimizer.NodeVector
import Compass.RelAlg.Proofs.Eval

namespace Compass.Optimizer

open Compass.PushDown List
open Compass.RelAlg
open Compass.LeftDeep (Row Database column holds)

variable {D : Type}

-- ======== the order

section Order

variable {E : Engine D} (h : Orders E)
include h

theorem sortsBefore_asymm {fields : List SortField} {r s : Row D}
    (hrs : sortsBefore E fields r s = true) : sortsBefore E fields s r = false := by
  induction fields with
  | nil => rfl
  | cons f fields ih =>
    rw [sortsBefore] at hrs ⊢
    split at hrs
    · next hfirst => rw [h.asymm hfirst, if_neg Bool.false_ne_true, if_pos hfirst]
    · next hnot =>
        split at hrs
        · cases hrs
        · next hnot' => rw [if_neg hnot', if_neg hnot, ih hrs]

theorem sortsBefore_between {fields : List SortField} {r s t : Row D}
    (hrt : sortsBefore E fields r t = true) :
    sortsBefore E fields r s = true ∨ sortsBefore E fields s t = true := by
  induction fields with
  | nil => cases hrt
  | cons f fields ih =>
    rw [sortsBefore] at hrt
    split at hrt
    · next hfirst =>
        rcases h.between (y := column s f.field) hfirst with hrs | hst
        · exact .inl (if_pos hrs)
        · exact .inr (if_pos hst)
    next hrt' =>
    split at hrt
    · cases hrt
    next htr' =>
    -- neither comes first, so what tells `s` from one tells it from both
    by_cases hrs : E.precedes f.sortDir f.nullsPosition (column r f.field)
        (column s f.field) = true
    · exact .inl (if_pos hrs)
    by_cases hst : E.precedes f.sortDir f.nullsPosition (column s f.field)
        (column t f.field) = true
    · exact .inr (if_pos hst)
    have hsr : ¬ E.precedes f.sortDir f.nullsPosition (column s f.field)
        (column r f.field) = true := by
      intro hsr
      exact (h.between (y := column t f.field) hsr).elim hst htr'
    have hts : ¬ E.precedes f.sortDir f.nullsPosition (column t f.field)
        (column s f.field) = true := by
      intro hts
      exact (h.between (y := column r f.field) hts).elim htr' hrs
    rcases ih hrt with hl | hr
    · exact .inl (by rw [sortsBefore, if_neg hrs, if_neg hsr, hl])
    · exact .inr (by rw [sortsBefore, if_neg hst, if_neg hts, hr])

variable (fields : List SortField)

/-- The rows are sorted. -/
theorem pairwise_sorted (rows : List (Row D)) :
    (rows.mergeSort fun r s => !sortsBefore E fields s r).Pairwise
      fun r s => (!sortsBefore E fields s r) = true := by
  refine pairwise_mergeSort ?_ ?_ rows
  · intro r s t hrs hst
    rw [Bool.not_eq_true'] at hrs hst ⊢
    by_contra htr
    rw [Bool.not_eq_false] at htr
    rcases sortsBefore_between h htr (s := s) with hts | hsr
    · exact absurd hts (by rw [hst]; exact Bool.false_ne_true)
    · exact absurd hsr (by rw [hrs]; exact Bool.false_ne_true)
  · intro r s
    by_cases hsr : sortsBefore E fields s r = true
    · rw [sortsBefore_asymm h hsr, Bool.not_false, Bool.or_true]
    · rw [Bool.not_eq_true] at hsr
      rw [hsr, Bool.not_false, Bool.true_or]

/-- Sorted and cut rows stay as they are when that is done again. -/
theorem sortRows_idem (limit : Nat) (rows : List (Row D)) :
    sortRows E fields limit 0 (sortRows E fields limit 0 rows)
      = sortRows E fields limit 0 rows := by
  unfold sortRows
  simp only [drop_zero]
  have hsorted := pairwise_sorted h fields rows
  split
  · exact mergeSort_of_pairwise hsorted
  · have htake : ((rows.mergeSort fun r s => !sortsBefore E fields s r).take limit).Pairwise
        fun r s => (!sortsBefore E fields s r) = true :=
      hsorted.sublist (take_sublist _ _)
    rw [mergeSort_of_pairwise htake, take_take, Nat.min_self]

end Order

/-- Two collations read the same in a row. -/
def ReadAlike (fields fields' : List SortField) (row : Row D) : Prop :=
  List.Forall₂ (fun x y => x.sortDir = y.sortDir ∧ x.nullsPosition = y.nullsPosition
    ∧ column row x.field = column row y.field) fields fields'

variable {fields fields' : List SortField}

theorem sortsBefore_congr {E : Engine D} {r s : Row D} (hr : ReadAlike fields fields' r)
    (hs : ReadAlike fields fields' s) : sortsBefore E fields r s = sortsBefore E fields' r s := by
  induction hr with
  | nil => rfl
  | cons hx _ ih =>
    cases hs with
    | cons hx' hs =>
      rw [sortsBefore, sortsBefore, ih hs, hx.1, hx.2.1, hx.2.2, hx'.2.2]

theorem sortRows_congr {E : Engine D} {limit offset : Nat} {rows : List (Row D)}
    (hrows : ∀ row ∈ rows, ReadAlike fields fields' row) :
    sortRows E fields limit offset rows = sortRows E fields' limit offset rows := by
  have hsort : rows.mergeSort (fun r s => !sortsBefore E fields s r)
      = rows.mergeSort fun r s => !sortsBefore E fields' s r := by
    have hmap := @map_mergeSort _ _ (fun r s => !sortsBefore E fields s r)
      (fun r s => !sortsBefore E fields' s r) id rows ?_
    · rwa [map_id, map_id] at hmap
    · intro r hr s hs
      rw [sortsBefore_congr (hrows s hs) (hrows r hr)]
      rfl
  unfold sortRows
  rw [hsort]

/-- Sorting by the same columns again. -/
theorem sortRows_sortRows {E : Engine D} (h : Orders E) {limit : Nat} {rows : List (Row D)}
    (hrows : ∀ row ∈ rows, ReadAlike fields fields' row) :
    sortRows E fields' limit 0 (sortRows E fields limit 0 rows)
      = sortRows E fields' limit 0 rows := by
  have hagain : ∀ row ∈ sortRows E fields limit 0 rows, ReadAlike fields fields' row :=
    fun row hrow => hrows row (mem_sortRows hrow)
  calc sortRows E fields' limit 0 (sortRows E fields limit 0 rows)
      = sortRows E fields limit 0 (sortRows E fields limit 0 rows) := (sortRows_congr hagain).symm
    _ = sortRows E fields limit 0 rows := sortRows_idem h fields limit rows
    _ = sortRows E fields' limit 0 rows := sortRows_congr hrows

-- ======== the columns

variable {P : Plan D}

theorem column_map {exprs : List (Rex D)} {col : Nat} {e : Rex D} (he : exprs[col]? = some e)
    (v : Rex D → Value D) : column (exprs.map v) col = v e := by
  unfold column
  rw [getD_eq_getElem?_getD, getElem?_map, he]
  rfl

/-- What an input of a project reads when its source is the input. -/
theorem inputColumn_self {input : Nat} {row : Row D} {index : Nat}
    (hjoin : P.sides input = none) : inputColumn P input row input index = column row index := by
  unfold RelAlg.inputColumn
  rw [hjoin]
  exact if_pos rfl

section

variable [DecidableEq D] {E : Engine D} {db : Database D}

/-- The two columns have the same values. -/
theorem SameColumn.column_eq (hwf : P.WellFormed) (hfits : P.Fits db) {node col col' : Nat}
    (h : SameColumn P node col col') :
    ∀ row ∈ P.rows E db node, column row col = column row col' := by
  induction h with
  | refl => exact fun _ _ => rfl
  | filter hnode _ ih =>
    intro row hrow
    rw [Plan.rows_eq E db hwf.ordered hnode] at hrow
    exact ih row (mem_filter.mp hrow).1
  | sort hnode _ ih =>
    intro row hrow
    rw [Plan.rows_eq E db hwf.ordered hnode] at hrow
    exact ih row (mem_sortRows hrow)
  | @aggregate node input col col' g aggs names hnode hcol hcol' _ ih =>
    intro row hrow
    rw [Plan.rows_eq E db hwf.ordered hnode] at hrow
    obtain ⟨grp, hgrp, rfl⟩ := mem_map.mp hrow
    unfold groupRows at hgrp
    rw [if_neg (by omega)] at hgrp
    obtain ⟨r, hr, hkey⟩ := Grouping.exists_key hgrp
    obtain ⟨m, hm, rfl⟩ := Plan.exists_input hwf.ordered hnode (mem_singleton.mpr rfl)
    have hlen : g ≤ r.length := by
      rw [Plan.rows_length hwf hfits m hm r hr]
      exact (hwf.inScope _ hnode).1
    have hread : ∀ c < g,
        column (grp.1 ++ aggs.map fun a => aggValue E a grp.2) c = column r c := by
      intro c hc
      unfold column
      rw [getD_eq_getElem?_getD, getD_eq_getElem?_getD,
        getElem?_append_left (by rw [hkey, length_take]; omega), hkey,
        getElem?_take_of_lt hc]
    rw [hread col hcol, hread col' hcol', ih r hr]
  | @project node input col col' index index' exprs names hnode hjoin hcol hcol' _ ih =>
    intro row hrow
    rw [Plan.rows_eq E db hwf.ordered hnode] at hrow
    obtain ⟨r, hr, rfl⟩ := mem_map.mp hrow
    rw [column_map hcol, column_map hcol', Rex.evalWith, Rex.evalWith]
    rw [inputColumn_self hjoin, inputColumn_self hjoin]
    exact ih r hr
  | @sameInput node input col col' source index exprs names hnode hcol hcol' =>
    intro row hrow
    rw [Plan.rows_eq E db hwf.ordered hnode] at hrow
    obtain ⟨r, -, rfl⟩ := mem_map.mp hrow
    rw [column_map hcol, column_map hcol']

end

end Compass.Optimizer
