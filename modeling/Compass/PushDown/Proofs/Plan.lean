/-
The two column lookups of the push-down agree with the columns that the
nodes put out: an index that `getColumnInfoFromScan` finds in a scan
stands for that column of the scan (`columnOf_of_located`), and the table
id of `findColumnNameByIndex` is the table of the column (`tableOf_eq`).

The truth of AND, OR and NOT, and of an operator that is put together
again from some of its operands.
-/
import Mathlib.Algebra.BigOperators.Group.List.Basic
import Mathlib.Data.List.Nodup
import Compass.PushDown.Extract

namespace Compass.PushDown

open List Option Nat Prod

namespace RelNode

-- ======== widths

/-- The number of columns of a schema. -/
def totalCols (ts : List (Nat × Nat)) : Nat :=
  (ts.map Prod.snd).sum

@[simp] theorem totalCols_nil : totalCols [] = 0 := rfl

@[simp] theorem totalCols_cons (t w : Nat) (ts : List (Nat × Nat)) :
    totalCols ((t, w) :: ts) = w + totalCols ts := rfl

theorem totalCols_append (ss ts : List (Nat × Nat)) :
    totalCols (ss ++ ts) = totalCols ss + totalCols ts := by
  simp [totalCols]

theorem length_outputs (n : RelNode) : n.outputs.length = totalCols n.tNumCols := by
  induction n with
  | scan i fields | derived i fields input ih | compound i cols input ih => simp [outputs, tNumCols]
  | through i input ih => simpa [outputs, tNumCols] using ih
  | join i lhs rhs ihl ihr =>
    simp [outputs, tNumCols, totalCols_append, ihl, ihr]

theorem tables_join (i : Nat) (lhs rhs : RelNode) :
    (RelNode.join i lhs rhs).tables = lhs.tables ++ rhs.tables := by
  simp [tables, tNumCols]

-- ======== plain tables

/-- No compound of the push-down is visible over the table `s`. -/
def PlainTable (s : Nat) : RelNode → Prop
  | .scan _ _ => True
  | .derived _ _ _ => True
  | .compound _ _ input => input.findBaseTableId ≠ s
  | .through _ input => input.PlainTable s
  | .join _ lhs rhs => lhs.PlainTable s ∧ rhs.PlainTable s

variable {s : Nat} {n : RelNode} {fields : List String}

theorem plainTable_of_not_mem (h : s ∉ n.tables) :
    n.PlainTable s := by
  induction n with
  | scan i fields | derived i fields input ih => trivial
  | compound i cols input ih =>
    intro heq
    exact h (by simp [tables, tNumCols, heq])
  | through i input ih => exact ih h
  | join i lhs rhs ihl ihr =>
    rw [tables_join, mem_append, not_or] at h
    exact ⟨ihl h.1, ihr h.2⟩

theorem mem_tables_of_find? (h : n.find? s = some (.scan s fields)) : s ∈ n.tables := by
  induction n with
  | scan i fs =>
    unfold find? at h
    split at h
    · injection h with h
      injection h with hi _
      simp [tables, tNumCols, hi]
    · cases h
  | derived i fs input ih | compound i cols input ih =>
    unfold find? at h
    split at h
    · injection h with h
      cases h
    · cases h
  | through i input ih =>
    unfold find? at h
    split at h
    · injection h with h
      cases h
    · exact ih h
  | join i lhs rhs ihl ihr =>
    unfold find? at h
    rw [tables_join, mem_append]
    split at h
    · injection h with h
      cases h
    · simp only [or_eq_some_iff] at h
      rcases h with h | ⟨-, h⟩
      · exact .inl (ihl h)
      · exact .inr (ihr h)

/-- Induction along the way from a node down to a visible scan: at a
join the scan is in one input, and its table is not one of the other. -/
theorem scan_induct {Q : RelNode → Prop} (scan : Q (.scan s fields))
    (through : ∀ i input, input.tables.Nodup → input.find? s = some (.scan s fields) →
      Q input → Q (.through i input))
    (joinL : ∀ i lhs rhs, lhs.tables.Nodup → rhs.tables.Nodup →
      lhs.find? s = some (.scan s fields) → s ∉ rhs.tables → Q lhs →
      Q (.join i lhs rhs))
    (joinR : ∀ i lhs rhs, lhs.tables.Nodup → rhs.tables.Nodup →
      rhs.find? s = some (.scan s fields) → s ∉ lhs.tables → Q rhs →
      Q (.join i lhs rhs)) (hd : n.tables.Nodup) (h : n.find? s = some (.scan s fields)) :
    Q n := by
  induction n with
  | scan i fs =>
    unfold find? at h
    split at h
    · injection h with h
      rw [h]
      exact scan
    · cases h
  | derived i fs input ih | compound i cols input ih =>
    unfold find? at h
    split at h
    · injection h with h
      cases h
    · cases h
  | through i input ih =>
    unfold find? at h
    split at h
    · injection h with h
      cases h
    · exact through i input hd h (ih hd h)
  | join i lhs rhs ihl ihr =>
    rw [tables_join, nodup_append] at hd
    obtain ⟨hl, hr, hdisj⟩ := hd
    unfold find? at h
    split at h
    · injection h with h
      cases h
    · simp only [or_eq_some_iff] at h
      rcases h with h | ⟨-, h⟩
      · refine joinL i lhs rhs hl hr h (fun hs => ?_) (ihl hl h)
        exact hdisj s (mem_tables_of_find? h) s hs rfl
      · refine joinR i lhs rhs hl hr h (fun hs => ?_) (ihr hr h)
        exact hdisj s hs s (mem_tables_of_find? h) rfl

/-- A table that is visible as a scan has no compound over it. -/
theorem plainTable_of_find? (hn : n.tables.Nodup) (h : n.find? s = some (.scan s fields)) :
    n.PlainTable s := by
  refine scan_induct (Q := fun n => n.PlainTable s) trivial ?_ ?_ ?_ hn h
  · intro i input _ _ ih
    exact ih
  · intro i lhs rhs _ _ _ hr ih
    exact ⟨ih, plainTable_of_not_mem hr⟩
  · intro i lhs rhs _ _ _ hl ih
    exact ⟨plainTable_of_not_mem hl, ih⟩

variable {i : Nat} {m : RelNode}

/-- What holds of a node and passes from a node to its visible inputs
holds of every node found in it. -/
theorem find?_induct {Q : RelNode → Prop} (through : ∀ i input, Q (.through i input) → Q input)
    (joinL : ∀ i lhs rhs, Q (.join i lhs rhs) → Q lhs)
    (joinR : ∀ i lhs rhs, Q (.join i lhs rhs) → Q rhs) (hn : Q n) (h : n.find? i = some m) :
    Q m := by
  induction n with
  | scan j fields | derived j fields input ih | compound j cols input ih =>
    unfold find? at h
    split at h
    · injection h with h
      exact h ▸ hn
    · cases h
  | through j input ih =>
    unfold find? at h
    split at h
    · injection h with h
      exact h ▸ hn
    · exact ih (through j input hn) h
  | join j lhs rhs ihl ihr =>
    unfold find? at h
    split at h
    · injection h with h
      exact h ▸ hn
    · simp only [or_eq_some_iff] at h
      rcases h with h | ⟨-, h⟩
      · exact ihl (joinL j lhs rhs hn) h
      · exact ihr (joinR j lhs rhs hn) h

theorem plainTable_found (hn : n.PlainTable s) (h : n.find? i = some m) : m.PlainTable s :=
  find?_induct (fun _ _ h => h) (fun _ _ _ h => h.1) (fun _ _ _ h => h.2) hn h

theorem nodup_found (hn : n.tables.Nodup) (h : n.find? i = some m) : m.tables.Nodup := by
  refine find?_induct (Q := fun n => n.tables.Nodup) ?_ ?_ ?_ hn h
  · intro j input h
    exact h
  · intro j lhs rhs h
    rw [tables_join] at h
    exact h.of_append_left
  · intro j lhs rhs h
    rw [tables_join] at h
    exact h.of_append_right

-- ======== the lookups

theorem locateInScan_append (cId s : Nat) (ss ts : List (Nat × Nat)) (off : Nat) :
    locateInScan cId s (ss ++ ts) off
      = if s ∈ ss.map fst then locateInScan cId s ss off
        else locateInScan cId s ts (off + totalCols ss) := by
  induction ss generalizing off with
  | nil => simp
  | cons x ss ih =>
    obtain ⟨t, w⟩ := x
    by_cases ht : t = s
    · simp [locateInScan, ht]
    · have hmem : s ∈ ((t, w) :: ss).map fst ↔ s ∈ ss.map fst := by
        simp only [map_cons, mem_cons, or_iff_right_iff_imp]
        intro h
        exact absurd h.symm ht
      simp only [cons_append, locateInScan, ht, if_false, ih, totalCols_cons,
        add_assoc, if_congr hmem rfl rfl]

variable {cId : Nat}

theorem locateInScan_none {ts : List (Nat × Nat)} {off : Nat} (h : s ∉ ts.map fst) :
    locateInScan cId s ts off = none := by
  induction ts generalizing off with
  | nil => rfl
  | cons x ts ih =>
    simp only [map_cons, mem_cons, not_or] at h
    simp only [locateInScan, Ne.symm h.1, if_false, ih h.2]

theorem findColumnByIndex_append (off : Nat) (h : off ≤ cId) (ss ts : List (Nat × Nat)) :
    findColumnByIndex cId (ss ++ ts) off
      = if cId < off + totalCols ss then findColumnByIndex cId ss off
        else findColumnByIndex cId ts (off + totalCols ss) := by
  induction ss generalizing off with
  | nil =>
    have : ¬ cId < off := by omega
    simp [this]
  | cons x ss ih =>
    obtain ⟨t, w⟩ := x
    by_cases hw : cId < off + w
    · have : cId < off + (w + totalCols ss) := by omega
      simp [findColumnByIndex, hw, this]
    · have := ih (off + w) (by omega)
      simp only [cons_append, findColumnByIndex, hw, if_false, this, totalCols_cons, add_assoc]

/-- An index found in the table `s` is an output column of that table. -/
theorem outputs_of_located {c : Nat} (hn : n.PlainTable s) {off : Nat}
    (h : locateInScan cId s n.tNumCols off = some c) :
    off ≤ cId ∧ n.outputs[cId - off]? = some (s, c) := by
  induction n generalizing off with
  | scan i fields | derived i fields input ih =>
    simp only [tNumCols, locateInScan] at h
    split at h
    · next hi =>
        split at h
        · next hc =>
            cases h
            refine ⟨hc.2, ?_⟩
            have : cId - off < fields.length := by omega
            simp [outputs, this, hi]
        · cases h
    · cases h
  | compound i cols input ih =>
    have : ¬ input.findBaseTableId = s := hn
    simp [tNumCols, locateInScan, this] at h
  | through i input ih => exact ih hn h
  | join i lhs rhs ihl ihr =>
    rw [tNumCols, locateInScan_append] at h
    split at h
    · obtain ⟨hoff, hget⟩ := ihl hn.1 h
      refine ⟨hoff, ?_⟩
      have hlt := (List.getElem?_eq_some_iff.mp hget).1
      rw [outputs, getElem?_append_left hlt]
      exact hget
    · obtain ⟨hoff, hget⟩ := ihr hn.2 h
      refine ⟨by omega, ?_⟩
      rw [outputs, getElem?_append_right (by rw [length_outputs]; omega),
        length_outputs, Nat.sub_sub]
      exact hget

/-- And conversely, where the tables are distinct. -/
theorem located_of_outputs {c : Nat} (hn : n.PlainTable s) (hd : n.tables.Nodup) (off : Nat)
    (hoff : off ≤ cId) (h : n.outputs[cId - off]? = some (s, c)) :
    locateInScan cId s n.tNumCols off = some c := by
  induction n generalizing off with
  | scan i fields | derived i fields input ih =>
    simp only [outputs, getElem?_map, map_eq_some_iff] at h
    obtain ⟨x, hx, hxc⟩ := h
    obtain ⟨hlt, hx⟩ := List.getElem?_eq_some_iff.mp hx
    rw [length_range] at hlt
    rw [getElem_range] at hx
    injection hxc with hi hc
    have hin : cId < off + fields.length ∧ off ≤ cId := by omega
    simp [tNumCols, locateInScan, hi, hin]
    omega
  | compound i cols input ih =>
    simp only [outputs, getElem?_map, map_eq_some_iff] at h
    obtain ⟨x, hx, hxc⟩ := h
    injection hxc with hi hc
    exact absurd hi hn
  | through i input ih => exact ih hn hd off hoff h
  | join i lhs rhs ihl ihr =>
    rw [tables_join, nodup_append] at hd
    obtain ⟨hl, hr, hdisj⟩ := hd
    rw [outputs] at h
    rw [tNumCols, locateInScan_append]
    by_cases hlt : cId - off < lhs.outputs.length
    · rw [getElem?_append_left hlt] at h
      have hloc := ihl hn.1 hl off hoff h
      split
      · exact hloc
      · next hmem => rw [locateInScan_none hmem] at hloc; cases hloc
    · rw [getElem?_append_right (by omega), Nat.sub_sub] at h
      have hloc := ihr hn.2 hr (off + lhs.outputs.length) (by omega) h
      split
      · next hmem =>
          have hmemr : s ∈ rhs.tables := by
            by_contra hno
            rw [locateInScan_none hno] at hloc
            cases hloc
          exact absurd rfl (hdisj s hmem s hmemr)
      · rw [length_outputs] at hloc
        exact hloc

/-- The table id of an index is the table of its output column. -/
theorem findColumnByIndex_outputs {col : Nat × Nat} (off : Nat) (hoff : off ≤ cId)
    (h : n.outputs[cId - off]? = some col) : (findColumnByIndex cId n.tNumCols off).1 = col.1 := by
  induction n generalizing off with
  | scan i fields | derived i fields input ih =>
    simp only [outputs, getElem?_map, map_eq_some_iff] at h
    obtain ⟨x, hx, rfl⟩ := h
    have hlt := (List.getElem?_eq_some_iff.mp hx).1
    rw [length_range] at hlt
    have hin : cId < off + fields.length := by omega
    simp [tNumCols, findColumnByIndex, hin]
  | compound i cols input ih =>
    simp only [outputs, getElem?_map, map_eq_some_iff] at h
    obtain ⟨x, hx, rfl⟩ := h
    have hlt := (List.getElem?_eq_some_iff.mp hx).1
    have hin : cId < off + cols.length := by omega
    simp [tNumCols, findColumnByIndex, hin]
  | through i input ih => exact ih off hoff h
  | join i lhs rhs ihl ihr =>
    rw [outputs] at h
    rw [tNumCols, findColumnByIndex_append off hoff]
    by_cases hlt : cId - off < lhs.outputs.length
    · rw [getElem?_append_left hlt] at h
      rw [length_outputs] at hlt
      rw [if_pos (by omega)]
      exact ihl off hoff h
    · rw [getElem?_append_right (by omega), Nat.sub_sub] at h
      have := ihr (off + lhs.outputs.length) (by omega) h
      rw [length_outputs] at hlt this
      rw [if_neg (by omega)]
      exact this

-- ======== the columns of a scan

theorem table_of_mem_outputs {col : Nat × Nat} (h : col ∈ n.outputs) : col.1 ∈ n.tables := by
  induction n with
  | scan i fields | derived i fields input ih | compound i cols input ih =>
    simp only [outputs, List.mem_map] at h
    obtain ⟨x, -, rfl⟩ := h
    simp [tables, tNumCols]
  | through i input ih => exact ih h
  | join i lhs rhs ihl ihr =>
    rw [tables_join, mem_append]
    rw [outputs, mem_append] at h
    exact h.imp ihl ihr

/-- The columns of a visible scan are those it has. -/
theorem column_lt_of_find? {c : Nat} (hd : n.tables.Nodup) (h : n.find? s = some (.scan s fields))
    (hc : (s, c) ∈ n.outputs) : c < fields.length := by
  revert hc
  refine scan_induct (Q := fun n => (s, c) ∈ n.outputs → c < fields.length)
    ?_ ?_ ?_ ?_ hd h
  · intro hc
    simp only [outputs, List.mem_map, mem_range] at hc
    obtain ⟨x, hx, hxc⟩ := hc
    injection hxc with _ hxc
    exact hxc ▸ hx
  · intro i input _ _ ih
    exact ih
  · intro i lhs rhs _ _ _ hr ih hc
    rcases mem_append.mp hc with hc | hc
    · exact ih hc
    · exact absurd (table_of_mem_outputs hc) hr
  · intro i lhs rhs _ _ _ hl ih hc
    rcases mem_append.mp hc with hc | hc
    · exact absurd (table_of_mem_outputs hc) hl
    · exact ih hc

theorem outputs_found (h : n.find? i = some m) : ∀ col ∈ m.outputs, col ∈ n.outputs := by
  refine find?_induct (Q := fun m => ∀ col ∈ m.outputs, col ∈ n.outputs)
    ?_ ?_ ?_ (fun _ h => h) h
  · intro j input hq
    exact hq
  · intro j lhs rhs hq col hcol
    exact hq col (mem_append_left _ hcol)
  · intro j lhs rhs hq col hcol
    exact hq col (mem_append_right _ hcol)

end RelNode

-- ======== plans

namespace Plan

variable {P : Plan} {s : Nat}

/-- The node of this id is a scan that the filter can be pushed to. -/
def IsScan (P : Plan) (s : Nat) : Prop :=
  ∃ fields, P.root.find? s = some (.scan s fields)

variable {source cId : Nat}

theorem columnOf_eq_some {col : Nat × Nat} : P.columnOf source cId = some col
      ↔ ∃ n, P.root.find? source = some n ∧ n.outputs[cId]? = some col := by
  simp [columnOf, bind_eq_some_iff]

/-- A column that `getColumnInfoFromScan` finds is that column of the
scan. -/
theorem columnOf_of_located (hs : P.IsScan s) (h : (P.getColumnInfoFromScan source cId s).2 ≠ "") :
    P.columnOf source cId = some (s, (P.getColumnInfoFromScan source cId s).1) := by
  obtain ⟨fields, hs⟩ := hs
  unfold getColumnInfoFromScan at h ⊢
  split at h
  · next c hc =>
      unfold tNumColsOf at hc
      split at hc
      · next n hn =>
          have hplain := RelNode.plainTable_found
            (RelNode.plainTable_of_find? P.tables_nodup hs) hn
          have hout := (RelNode.outputs_of_located hplain hc).2
          exact columnOf_eq_some.mpr ⟨n, hn, hout⟩
      · cases hc
  · exact absurd rfl h

/-- The scan itself puts out its columns as they are. -/
theorem columnOf_scan (hs : P.IsScan s) {c : Nat} (h : P.columnOf source cId = some (s, c)) :
    P.columnOf s c = some (s, c) := by
  obtain ⟨fields, hs⟩ := hs
  obtain ⟨n, hn, hout⟩ := columnOf_eq_some.mp h
  have hmem := RelNode.outputs_found hn _ (mem_of_getElem? hout)
  have hlt := RelNode.column_lt_of_find? P.tables_nodup hs hmem
  refine columnOf_eq_some.mpr ⟨_, hs, ?_⟩
  simp [RelNode.outputs, hlt]

/-- The table id of an input is the table of its column. -/
theorem tableOf_eq {col : Nat × Nat} (h : P.columnOf source cId = some col) :
    P.tableOf source cId = col.1 := by
  obtain ⟨n, hn, hout⟩ := columnOf_eq_some.mp h
  simp only [tableOf, tNumColsOf, hn]
  exact RelNode.findColumnByIndex_outputs 0 (zero_le _) hout

end Plan

end Compass.PushDown

namespace Compass.PushDown

variable {D : Type}

-- ======== evaluation

@[simp] theorem evalsWith_eq_map (I : Interp D) (col : Nat → Nat → Value D)
    (es : List (Rex D)) : Rex.evalsWith I col es = es.map (·.evalWith I col) := by
  induction es with
  | nil => rfl
  | cons e es ih => simp [Rex.evalsWith, ih]

@[simp] theorem evalBranches_eq_map (I : Interp D) (col : Nat → Nat → Value D)
    (bs : List (Rex D × Rex D)) :
    Rex.evalBranches I col bs
      = bs.map fun b => (b.1.evalWith I col, b.2.evalWith I col) := by
  induction bs with
  | nil => rfl
  | cons b bs ih => simp [Rex.evalBranches, ih]

namespace Rex

variable (I : Interp D) (col : Nat → Nat → Value D)

variable (ti : SQLTypeInfo)

theorem truth_and (es : List (Rex D)) : ((Rex.oper .kAND es ti).evalWith I col).truth
      = Truth.all (es.map fun e => (e.evalWith I col).truth) := by
  simp only [evalWith, evalsWith_eq_map, Interp.operValue, Value.truth_ofTruth, List.map_map]
  rfl

theorem truth_or (es : List (Rex D)) : ((Rex.oper .kOR es ti).evalWith I col).truth
      = Truth.any (es.map fun e => (e.evalWith I col).truth) := by
  simp only [evalWith, evalsWith_eq_map, Interp.operValue, Value.truth_ofTruth, List.map_map]
  rfl

theorem truth_not (e : Rex D) :
    ((Rex.oper .kNOT [e] ti).evalWith I col).truth = (e.evalWith I col).truth.neg := by
  simp only [evalWith, evalsWith_eq_map, Interp.operValue, List.map_cons,
    List.map_nil, Value.truth_ofTruth]

end Rex

-- ======== rebuilding

/-- The operator over what is left, or what is left of it alone. -/
theorem rebuildOper_cases {op : SQLOps} {ti : SQLTypeInfo} {rs : List (Rex D)}
    {r : Rex D} (h : rebuildOper op ti rs = some r) :
    (rs = [r] ∧ keepsSingle op = false ∧ r.isOperOrCase = true)
      ∨ ((2 ≤ rs.length ∨ keepsSingle op = true) ∧ r = .oper op rs ti) := by
  unfold rebuildOper at h
  split at h
  · cases h
  · next e =>
      split at h
      · next hk =>
          injection h with h
          exact .inr ⟨.inr hk, h.symm⟩
      · next hk =>
          split at h
          · next he =>
              cases h
              exact .inl ⟨rfl, by simpa using hk, he⟩
          · cases h
  · injection h with h
    exact .inr ⟨.inl (by simp), h.symm⟩

section

variable (I : Interp D) (col : Nat → Nat → Value D)

theorem rebuildOper_truth_and {ti : SQLTypeInfo} {rs : List (Rex D)} {r : Rex D}
    (h : rebuildOper .kAND ti rs = some r) :
    (r.evalWith I col).truth = Truth.all (rs.map fun e => (e.evalWith I col).truth) := by
  rcases rebuildOper_cases h with ⟨rfl, -, -⟩ | ⟨-, rfl⟩
  · simp
  · exact Rex.truth_and I col ti rs

theorem rebuildOper_truth_or {ti : SQLTypeInfo} {rs : List (Rex D)} {r : Rex D}
    (h : rebuildOper .kOR ti rs = some r) :
    (r.evalWith I col).truth = Truth.any (rs.map fun e => (e.evalWith I col).truth) := by
  rcases rebuildOper_cases h with ⟨rfl, -, -⟩ | ⟨-, rfl⟩
  · simp
  · exact Rex.truth_or I col ti rs

end

end Compass.PushDown
