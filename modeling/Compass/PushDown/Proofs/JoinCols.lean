/-
When the extraction of join columns records the join equalities and
nothing else.

The search adds the column pairs it meets one after the other
(`extract_eq`), whatever operator they stand under; each of them gives one
join column at each of its two ends (`addPairs_columns`). So the edges
are exact when every pair that is met is equated by a top-level conjunct,
and every top-level equality is met (`exactEdges_iff`). That the edges
have both ends with mirrored columns needs no condition.
-/
import Compass.PushDown.JoinCols
import Compass.PushDown.Proofs.Plan
import Compass.JoinOrder.Proofs.Estimate

namespace Compass.PushDown

open List
open JoinInfo

open Compass.JoinOrder (ScanId JoinCol JoinCols Graph)

variable {D : Type} {P : Plan} {scans : List ScanId}

-- ======== the scans

theorem findScan_spec {col : Nat × Nat} (h : ∃ scan ∈ scans, scan.nodeId = (col.1 : Int)) :
    ∃ x, findScan scans col = some x ∧ x.columnId = col.2 ∧ x.scan ∈ scans
      ∧ x.scan.nodeId = (col.1 : Int) ∧ scans[x.tOrder]? = some x.scan
      ∧ scans.findIdx? (fun scan => scan.nodeId = (col.1 : Int)) = some x.tOrder := by
  obtain ⟨scan, hmem, hid⟩ := h
  cases hidx : scans.findIdx? fun scan => scan.nodeId = (col.1 : Int) with
  | none =>
    rw [findIdx?_eq_none_iff] at hidx
    exact absurd (hidx scan hmem) (by simp [hid])
  | some k =>
    obtain ⟨hk, hkid, -⟩ := findIdx?_eq_some_iff_getElem.mp hidx
    have hget : scans[k]? = some scans[k] := getElem?_eq_getElem hk
    refine ⟨⟨scans[k], k, col.2⟩, ?_, rfl, getElem_mem hk, by simpa using hkid, hget, rfl⟩
    unfold findScan
    rw [hidx]
    simp [hget]

theorem findScan_tOrder_eq_iff {col col' : Nat × Nat} {x y : ScanCol}
    (hx : scans[x.tOrder]? = some x.scan) (hy : scans[y.tOrder]? = some y.scan)
    (hxid : x.scan.nodeId = (col.1 : Int)) (hyid : y.scan.nodeId = (col'.1 : Int))
    (hxi : scans.findIdx? (fun scan => scan.nodeId = (col.1 : Int)) = some x.tOrder)
    (hyi : scans.findIdx? (fun scan => scan.nodeId = (col'.1 : Int)) = some y.tOrder) :
    x.tOrder = y.tOrder ↔ col.1 = col'.1 := by
  constructor
  · intro h
    rw [h, hy, Option.some.injEq] at hx
    rw [← hx, hyid] at hxid
    exact_mod_cast hxid.symm
  · intro h
    rw [h, hyi, Option.some.injEq] at hxi
    exact hxi.symm

-- ======== the search as a list of pairs

/-- The edge of a pair of columns. -/
def addPair (scans : List ScanId) (info : JoinInfo) (p : (Nat × Nat) × (Nat × Nat)) :
    Option JoinInfo := do
  let x ← findScan scans p.1
  let y ← findScan scans p.2
  addJoin x y info

/-- The table of every input is one of the scans. -/
def ScansOf (P : Plan) (scans : List ScanId) (inputs : List (Nat × Nat)) : Prop :=
  ∀ x ∈ inputs, ∃ scan ∈ scans, scan.nodeId = ((inputColumn P x).1 : Int)

variable {es : List (Rex D)}

theorem mem_columnPair_inputs {lhs rhs : Nat × Nat} (h : columnPair es = some (lhs, rhs)) :
    lhs ∈ Rex.inputsAll es ∧ rhs ∈ Rex.inputsAll es := by
  unfold columnPair at h
  split at h
  · cases h
    simp [Rex.inputsAll, Rex.inputs]
  · cases h

theorem joinOf_spec (hes : ScansOf P scans (Rex.inputsAll es)) :
    (∀ p, tablePair P es = some p → ∃ x y, joinOf P scans es = some (some (x, y))
      ∧ findScan scans p.1 = some x ∧ findScan scans p.2 = some y)
    ∧ (tablePair P es = none → joinOf P scans es = some none) := by
  unfold tablePair joinOf
  cases hpair : columnPair es with
  | none => exact ⟨fun p h => absurd h (by simp), fun _ => rfl⟩
  | some lr =>
    obtain ⟨lhs, rhs⟩ := lr
    have hin := mem_columnPair_inputs hpair
    obtain ⟨x, hx, -, -, hxid, hxget, hxi⟩ := findScan_spec (hes lhs hin.1)
    obtain ⟨y, hy, -, -, hyid, hyget, hyi⟩ := findScan_spec (hes rhs hin.2)
    have horder := findScan_tOrder_eq_iff hxget hyget hxid hyid hxi hyi
    simp only [hx, hy, Option.bind_eq_bind, Option.bind_some]
    by_cases hne : (inputColumn P lhs).1 = (inputColumn P rhs).1
    · have hord := horder.mpr hne
      simp [hne, hord]
    · have hord := mt horder.mp hne
      simp only [ne_eq, hne, not_false_eq_true, if_true, hord]
      refine ⟨fun p hp => ?_, fun h => by cases h⟩
      cases hp
      exact ⟨x, y, rfl, hx, hy⟩

theorem inputsAll_mem {e : Rex D} (he : e ∈ es) :
    ∀ x ∈ e.inputs, x ∈ Rex.inputsAll es := by
  induction es with
  | nil => cases he
  | cons e' es ih =>
    intro x hx
    rw [Rex.inputsAll, mem_append]
    rcases mem_cons.1 he with rfl | he
    · exact Or.inl hx
    · exact Or.inr (ih he x hx)

/-- One expression adds the pairs that the search meets in it. -/
def AddsPairs (P : Plan) (scans : List ScanId) (e : Rex D) : Prop :=
  ScansOf P scans e.inputs → ∀ info, extractHashJoinCol P scans e info
      = ((tablePairs P e).1.foldlM (addPair scans) info).map fun i => (i, (tablePairs P e).2)

theorem extractFromOperands_eq (ih : ∀ e ∈ es, AddsPairs P scans e)
    (hes : ScansOf P scans (Rex.inputsAll es)) (info : JoinInfo) :
    extractFromOperands P scans es info
      = ((tablePairsOf P es).1.foldlM (addPair scans) info).map
          fun i => (i, (tablePairsOf P es).2) := by
  induction es generalizing info with
  | nil => rfl
  | cons e es ihs =>
    have he := ih e (by simp) (fun x hx => hes x (inputsAll_mem (by simp) x hx))
    have hrest := ihs (fun e' he' => ih e' (by simp [he']))
      (fun x hx => hes x (by rw [Rex.inputsAll]; simp [hx]))
    rw [extractFromOperands, he info, tablePairsOf]
    cases hret : (tablePairs P e).2 with
    | true =>
      rw [if_pos rfl, foldlM_append]
      cases (tablePairs P e).1.foldlM (addPair scans) info with
      | none => rfl
      | some i =>
        exact hrest i
    | false =>
      rw [if_neg (by simp)]
      cases (tablePairs P e).1.foldlM (addPair scans) info with
      | none | some i => rfl

/-- An operator of either class. -/
theorem extractOperator_eq (ih : ∀ e ∈ es, AddsPairs P scans e)
    (hes : ScansOf P scans (Rex.inputsAll es)) (info : JoinInfo) :
    (joinOf P scans es).bind (fun join =>
      match join with
      | some (x, y) => (addJoin x y info).bind fun info => some (info, true)
      | none => extractFromOperands P scans es info)
      = ((match tablePair P es with
          | some p => ([p], true)
          | none => tablePairsOf P es).1.foldlM (addPair scans) info).map
            fun i => (i, (match tablePair P es with
              | some p => ([p], true)
              | none => tablePairsOf P es).2) := by
  obtain ⟨hsome, hnone⟩ := joinOf_spec hes
  cases hpair : tablePair P es with
  | none =>
    rw [hnone hpair]
    exact extractFromOperands_eq ih hes info
  | some p =>
    obtain ⟨x, y, hjoin, hx, hy⟩ := hsome p hpair
    rw [hjoin]
    simp only [Option.bind_some, foldlM_cons, foldlM_nil, addPair, hx, hy, Option.bind_eq_bind]
    cases addJoin x y info with
    | none | some i => rfl

/-- The extraction adds the pairs it meets, in order. -/
theorem extract_eq (e : Rex D) : AddsPairs P scans e := by
  induction e using Rex.operand_induction with
  | oper op es ti ih | func name es ti ih =>
    intro hes info
    exact extractOperator_eq ih hes info
  | input s i | literal v | case bs els _ _ | ref i | subQuery q =>
    intro _ info
    simp [extractHashJoinCol, tablePairs]

-- ======== what the maps contain

namespace JoinInfo

/-- A node that is not in the graph has no entries. -/
def Synced (info : JoinInfo) : Prop :=
  ∀ node ∉ info.joinGraph.nodes, info.joinGraph.adj node = ∅ ∧ info.nodeJoinColumns node = []

theorem empty_synced : empty.Synced :=
  fun _ _ => ⟨rfl, rfl⟩

variable {info : JoinInfo}

theorem mem_addEnd_columns (h : info.Synced) (node : Nat) (j : JoinCol) (k : Nat) (j' : JoinCol) :
    j' ∈ (info.addEnd node j).nodeJoinColumns k
      ↔ j' ∈ info.nodeJoinColumns k ∨ k = node ∧ j' = j := by
  unfold addEnd
  by_cases hk : k = node
  · subst hk
    by_cases hnew : k ∉ info.joinGraph.nodes
    · simp [hnew, (h k hnew).2]
    · simp [hnew]
  · simp [hk]

theorem mem_addEnd_adj (h : info.Synced) (node : Nat) (j : JoinCol) (k m : Nat) :
    m ∈ (info.addEnd node j).joinGraph.adj k
      ↔ m ∈ info.joinGraph.adj k ∨ k = node ∧ m = j.otherNode := by
  unfold addEnd
  by_cases hk : k = node
  · subst hk
    by_cases hnew : k ∉ info.joinGraph.nodes
    · simp [hnew, (h k hnew).1]
    · simp [hnew, or_comm]
  · simp [hk]

theorem addEnd_synced (h : info.Synced) (node : Nat) (j : JoinCol) :
    (info.addEnd node j).Synced := by
  intro k hk
  have hk' : k ≠ node ∧ k ∉ info.joinGraph.nodes := by
    simpa [addEnd, not_or] using hk
  obtain ⟨hadj, hcols⟩ := h k hk'.2
  constructor
  · apply Finset.eq_empty_of_forall_notMem
    intro m hm
    rw [mem_addEnd_adj h, hadj] at hm
    simp [hk'.1] at hm
  · apply eq_nil_iff_forall_not_mem.mpr
    intro j' hj'
    rw [mem_addEnd_columns h, hcols] at hj'
    simp [hk'.1] at hj'

@[simp]
theorem addTableIndex_joinGraph (node tableId tOrder : Nat) :
    (info.addTableIndex node tableId tOrder).joinGraph = info.joinGraph := by
  unfold addTableIndex
  split
  · rfl
  · rfl

@[simp]
theorem addTableIndex_nodeJoinColumns (node tableId tOrder : Nat) :
    (info.addTableIndex node tableId tOrder).nodeJoinColumns = info.nodeJoinColumns := by
  unfold addTableIndex
  split
  · rfl
  · rfl

end JoinInfo

/-- The pair of columns gives the join column `j` at the node `k`. -/
def Contributes (scans : List ScanId) (p : (Nat × Nat) × (Nat × Nat)) (k : Nat)
    (j : JoinCol) : Prop :=
  ∃ sx ∈ scans, ∃ sy ∈ scans, sx.nodeId = (p.1.1 : Int) ∧ sy.nodeId = (p.2.1 : Int)
    ∧ (k = sx.keyValue
        ∧ j = ⟨sx.tableId.toNat, p.1.2, sy.keyValue, sy.tableId.toNat, p.2.2⟩
      ∨ k = sy.keyValue
        ∧ j = ⟨sy.tableId.toNat, p.2.2, sx.keyValue, sx.tableId.toNat, p.1.2⟩)

/-- The keys of the scans of the pair are within `int`. -/
def KeysFit (scans : List ScanId) (p : (Nat × Nat) × (Nat × Nat)) : Prop :=
  ∀ scan ∈ scans, scan.nodeId = (p.1.1 : Int) ∨ scan.nodeId = (p.2.1 : Int) →
    scan.KeyFits

/-- Both tables of the pair are among the scans. -/
def Scanned (scans : List ScanId) (p : (Nat × Nat) × (Nat × Nat)) : Prop :=
  (∃ scan ∈ scans, scan.nodeId = (p.1.1 : Int))
    ∧ ∃ scan ∈ scans, scan.nodeId = (p.2.1 : Int)

theorem scan_unique (hnodup : (scans.map ScanId.nodeId).Nodup) {s t : ScanId}
    (hs : s ∈ scans) (ht : t ∈ scans) (h : s.nodeId = t.nodeId) : s = t :=
  inj_on_of_nodup_map hnodup hs ht h

theorem node_eq_some_iff {x : ScanCol} {k : Nat} :
    x.node = some k ↔ x.scan.KeyFits ∧ k = x.scan.keyValue := by
  unfold ScanCol.node
  cases hkey : x.scan.key with
  | error e =>
    have hno : ¬ x.scan.KeyFits := by
      intro hfits
      rw [(x.scan.key_ok_iff _).mpr ⟨hfits, rfl⟩] at hkey
      cases hkey
    simp [Except.toOption, hno]
  | ok v =>
    obtain ⟨hfits, rfl⟩ := (x.scan.key_ok_iff v).mp hkey
    simp [Except.toOption, hfits, eq_comm]

/-- What the maps are after the pairs of `ps`, from what they were. -/
structure Adds (scans : List ScanId) (ps : List ((Nat × Nat) × (Nat × Nat)))
    (info info' : JoinInfo) : Prop where
  synced : info'.Synced
  columns : ∀ k j, j ∈ info'.nodeJoinColumns k ↔
    j ∈ info.nodeJoinColumns k ∨ ∃ p ∈ ps, Contributes scans p k j
  adj : ∀ k m, m ∈ info'.joinGraph.adj k ↔
    m ∈ info.joinGraph.adj k ∨ ∃ p ∈ ps, ∃ j, Contributes scans p k j ∧ j.otherNode = m

theorem addPair_spec (hnodup : (scans.map ScanId.nodeId).Nodup)
    {p : (Nat × Nat) × (Nat × Nat)} (hp : Scanned scans p) {info : JoinInfo} (hsync : info.Synced) :
    (KeysFit scans p → ∃ info', addPair scans info p = some info'
      ∧ Adds scans [p] info info')
    ∧ (∀ info', addPair scans info p = some info' → KeysFit scans p) := by
  obtain ⟨x, hx, hxc, hxm, hxid, -, -⟩ := findScan_spec hp.1
  obtain ⟨y, hy, hyc, hym, hyid, -, -⟩ := findScan_spec hp.2
  have hfits : KeysFit scans p ↔ x.scan.KeyFits ∧ y.scan.KeyFits := by
    constructor
    · intro h
      exact ⟨h _ hxm (Or.inl hxid), h _ hym (Or.inr hyid)⟩
    · intro h scan hscan hid
      rcases hid with hid | hid
      · rw [scan_unique hnodup hscan hxm (hid.trans hxid.symm)]
        exact h.1
      · rw [scan_unique hnodup hscan hym (hid.trans hyid.symm)]
        exact h.2
  have hcontr : ∀ k j, Contributes scans p k j ↔
      (k = x.scan.keyValue ∧ j = x.joinCol y y.scan.keyValue
        ∨ k = y.scan.keyValue ∧ j = y.joinCol x x.scan.keyValue) := by
    intro k j
    unfold Contributes ScanCol.joinCol
    rw [hxc, hyc]
    constructor
    · intro h
      obtain ⟨sx, hsx, sy, hsy, hsxid, hsyid, h⟩ := h
      rw [scan_unique hnodup hsx hxm (hsxid.trans hxid.symm),
        scan_unique hnodup hsy hym (hsyid.trans hyid.symm)] at h
      exact h
    · intro h
      exact ⟨_, hxm, _, hym, hxid, hyid, h⟩
  unfold addPair
  rw [hx, hy]
  simp only [Option.bind_eq_bind, Option.bind_some, addJoin]
  constructor
  · intro hfit
    obtain ⟨hfx, hfy⟩ := hfits.mp hfit
    rw [node_eq_some_iff.mpr ⟨hfx, rfl⟩, node_eq_some_iff.mpr ⟨hfy, rfl⟩]
    refine ⟨_, rfl, ?_, ?_, ?_⟩
    · have hs := addEnd_synced (addEnd_synced hsync
        x.scan.keyValue (x.joinCol y y.scan.keyValue))
        y.scan.keyValue (y.joinCol x x.scan.keyValue)
      simpa [Synced] using hs
    · intro k j
      rw [addTableIndex_nodeJoinColumns, addTableIndex_nodeJoinColumns,
        mem_addEnd_columns (addEnd_synced hsync _ _),
        mem_addEnd_columns hsync, or_assoc, ← hcontr]
      simp
    · intro k m
      rw [addTableIndex_joinGraph, addTableIndex_joinGraph,
        mem_addEnd_adj (addEnd_synced hsync _ _),
        mem_addEnd_adj hsync, or_assoc]
      apply or_congr_right
      constructor
      · intro h
        rcases h with ⟨hk, hm⟩ | ⟨hk, hm⟩
        · exact ⟨p, by simp, _, (hcontr k _).mpr (Or.inl ⟨hk, rfl⟩), hm.symm⟩
        · exact ⟨p, by simp, _, (hcontr k _).mpr (Or.inr ⟨hk, rfl⟩), hm.symm⟩
      · intro h
        obtain ⟨q, hq, j, hj, rfl⟩ := h
        rw [mem_singleton] at hq
        subst hq
        rcases (hcontr k j).mp hj with ⟨hk, rfl⟩ | ⟨hk, rfl⟩
        · exact Or.inl ⟨hk, rfl⟩
        · exact Or.inr ⟨hk, rfl⟩
  · intro info' h
    simp only [Option.bind_eq_some_iff] at h
    obtain ⟨kx, hkx, ky, hky, -⟩ := h
    exact hfits.mpr ⟨(node_eq_some_iff.mp hkx).1, (node_eq_some_iff.mp hky).1⟩

theorem Adds.trans {ps qs : List ((Nat × Nat) × (Nat × Nat))}
    {info info₁ info₂ : JoinInfo} (h₁ : Adds scans ps info info₁)
    (h₂ : Adds scans qs info₁ info₂) : Adds scans (ps ++ qs) info info₂ where
  synced := h₂.synced
  columns k j := by
    rw [h₂.columns, h₁.columns]
    simp only [mem_append, or_assoc, or_and_right, exists_or]
  adj k m := by
    rw [h₂.adj, h₁.adj]
    simp only [mem_append, or_assoc, or_and_right, exists_or]

/-- All pairs are added when the keys fit, and none of the maps is
reached otherwise. -/
theorem addPairs_spec (hnodup : (scans.map ScanId.nodeId).Nodup)
    (ps : List ((Nat × Nat) × (Nat × Nat))) (hps : ∀ p ∈ ps, Scanned scans p) :
    ∀ info : JoinInfo, info.Synced →
      ((∀ p ∈ ps, KeysFit scans p) → ∃ info', ps.foldlM (addPair scans) info = some info'
        ∧ Adds scans ps info info')
      ∧ (∀ info', ps.foldlM (addPair scans) info = some info' →
        ∀ p ∈ ps, KeysFit scans p) := by
  induction ps with
  | nil =>
    intro info hsync
    exact ⟨fun _ => ⟨info, rfl, hsync, by simp, by simp⟩, by simp⟩
  | cons p ps ih =>
    intro info hsync
    obtain ⟨hadd, hfit⟩ := addPair_spec hnodup (hps p (by simp)) hsync
    have hrest := ih (fun q hq => hps q (by simp [hq]))
    constructor
    · intro hfits
      obtain ⟨info₁, hstep, h₁⟩ := hadd (hfits p (by simp))
      obtain ⟨info₂, hfold, h₂⟩ :=
        (hrest info₁ h₁.synced).1 (fun q hq => hfits q (by simp [hq]))
      refine ⟨info₂, ?_, h₁.trans h₂⟩
      rw [foldlM_cons, hstep]
      exact hfold
    · intro info' hfold
      rw [foldlM_cons, Option.bind_eq_bind, Option.bind_eq_some_iff] at hfold
      obtain ⟨info₁, hstep, hfold⟩ := hfold
      obtain ⟨info₂, hstep₂, h₁⟩ := hadd (hfit info₁ hstep)
      rw [hstep, Option.some.injEq] at hstep₂
      subst hstep₂
      intro q hq
      rcases mem_cons.1 hq with rfl | hq
      · exact hfit info₁ hstep
      · exact (hrest info₁ h₁.synced).2 info' hfold q hq

-- ======== the conditions

namespace JoinCondition

variable (c : JoinCondition D)

/-- The pairs the search meets. -/
def met : List ((Nat × Nat) × (Nat × Nat)) :=
  (tablePairs c.plan c.condition).1

theorem scansOf_inputs : ScansOf c.plan c.scans c.condition.inputs := by
  intro x hx
  obtain ⟨col, hcol⟩ := Option.isSome_iff_exists.mp (c.inputs_bound x hx)
  obtain ⟨n, hn, hout⟩ := Plan.columnOf_eq_some.mp hcol
  have htable : (inputColumn c.plan x).1 = col.1 := Plan.tableOf_eq hcol
  rw [htable]
  apply c.tables_scanned
  exact RelNode.table_of_mem_outputs (RelNode.outputs_found hn _ (mem_of_getElem? hout))

end JoinCondition

/-- The pairs of an expression are over scanned, different tables. -/
def PairsOk (P : Plan) (scans : List ScanId) (e : Rex D) : Prop :=
  ScansOf P scans e.inputs → ∀ p ∈ (tablePairs P e).1, Scanned scans p ∧ p.1.1 ≠ p.2.1

theorem tablePair_ok (hes : ScansOf P scans (Rex.inputsAll es)) {p : (Nat × Nat) × (Nat × Nat)}
    (h : tablePair P es = some p) :
    Scanned scans p ∧ p.1.1 ≠ p.2.1 := by
  unfold tablePair at h
  split at h
  · next lhs rhs hpair =>
      split at h
      · next hne =>
          cases h
          obtain ⟨hl, hr⟩ := mem_columnPair_inputs hpair
          exact ⟨⟨hes lhs hl, hes rhs hr⟩, hne⟩
      · cases h
  · cases h

theorem tablePairsOf_ok (ih : ∀ e ∈ es, PairsOk P scans e)
    (hes : ScansOf P scans (Rex.inputsAll es)) :
    ∀ p ∈ (tablePairsOf P es).1, Scanned scans p ∧ p.1.1 ≠ p.2.1 := by
  induction es with
  | nil => simp [tablePairsOf]
  | cons e es ihs =>
    have he := ih e (by simp) (fun x hx => hes x (inputsAll_mem (by simp) x hx))
    intro p hp
    rw [tablePairsOf] at hp
    split at hp
    · rcases mem_append.1 hp with hp | hp
      · exact he p hp
      · exact ihs (fun e' he' => ih e' (by simp [he']))
          (fun x hx => hes x (by rw [Rex.inputsAll]; simp [hx])) p hp
    · exact he p hp

theorem tablePairsOperator_ok (ih : ∀ e ∈ es, PairsOk P scans e)
    (hes : ScansOf P scans (Rex.inputsAll es)) :
    ∀ p ∈ (match tablePair P es with
      | some p => ([p], true)
      | none => tablePairsOf P es).1, Scanned scans p ∧ p.1.1 ≠ p.2.1 := by
  intro p hp
  split at hp
  · next q hq =>
      rw [mem_singleton] at hp
      subst hp
      exact tablePair_ok hes hq
  · exact tablePairsOf_ok ih hes p hp

theorem tablePairs_ok (e : Rex D) : PairsOk P scans e := by
  induction e using Rex.operand_induction with
  | oper op es ti ih | func name es ti ih =>
    intro hes
    exact tablePairsOperator_ok ih hes
  | input s i | literal v | case bs els _ _ | ref i | subQuery q => simp [PairsOk, tablePairs]

namespace JoinCondition

variable {c : JoinCondition D}

theorem met_ok : ∀ p ∈ c.met, Scanned c.scans p ∧ p.1.1 ≠ p.2.1 :=
  tablePairs_ok c.condition c.scansOf_inputs

/-- The keys of one scan and the table id tell the scan. -/
theorem scan_eq_of_key {s t : ScanId} (hkey : s.keyValue = t.keyValue)
    (htable : s.tableId.toNat = t.tableId.toNat) : s = t := by
  have heq : s.tableId = t.tableId := by
    have ht := t.table_pos
    omega
  rcases (ScanId.keyValue_eq_iff s t).mp hkey with h | h | h
  · exact h
  · exact absurd (by rw [heq]) h.left_ne
  · exact absurd (by rw [heq]) h.left_ne

/-- With the keys in range the maps record the pairs that are met. -/
theorem records_iff {info : JoinInfo} (hfit : ∀ p ∈ c.met, KeysFit c.scans p)
    (hadds : Adds c.scans c.met .empty info) (x y : Nat × Nat) :
    c.Records info x y ↔ (x, y) ∈ c.met ∨ (y, x) ∈ c.met := by
  constructor
  · intro h
    obtain ⟨sx, hsx, sy, hsy, hxid, hyid, kx, ky, hkx, hky, hmem⟩ := h
    obtain ⟨-, rfl⟩ := (sx.key_ok_iff kx).mp hkx
    obtain ⟨-, rfl⟩ := (sy.key_ok_iff ky).mp hky
    rw [hadds.columns, Int.toNat_natCast, Int.toNat_natCast] at hmem
    rcases hmem with hmem | ⟨p, hp, s₁, hs₁, s₂, hs₂, h₁, h₂, hcase⟩
    · cases hmem
    · rcases hcase with ⟨hk, hj⟩ | ⟨hk, hj⟩
      · simp only [JoinCol.mk.injEq] at hj
        obtain ⟨htx, hcx, hk₂, hty, hcy⟩ := hj
        rw [scan_eq_of_key hk htx, h₁] at hxid
        rw [scan_eq_of_key hk₂ hty, h₂] at hyid
        left
        have hpxy : p = (x, y) := Prod.ext
          (Prod.ext (by exact_mod_cast hxid) hcx.symm)
          (Prod.ext (by exact_mod_cast hyid) hcy.symm)
        rw [← hpxy]
        exact hp
      · simp only [JoinCol.mk.injEq] at hj
        obtain ⟨htx, hcx, hk₂, hty, hcy⟩ := hj
        rw [scan_eq_of_key hk htx, h₂] at hxid
        rw [scan_eq_of_key hk₂ hty, h₁] at hyid
        right
        have hpyx : p = (y, x) := Prod.ext
          (Prod.ext (by exact_mod_cast hyid) hcy.symm)
          (Prod.ext (by exact_mod_cast hxid) hcx.symm)
        rw [← hpyx]
        exact hp
  · intro h
    have hends : ∀ p ∈ c.met, c.Records info p.1 p.2 ∧ c.Records info p.2 p.1 := by
      intro p hp
      obtain ⟨⟨⟨s₁, hs₁, h₁⟩, s₂, hs₂, h₂⟩, -⟩ := met_ok p hp
      have hk₁ := (s₁.key_ok_iff _).mpr ⟨hfit p hp s₁ hs₁ (Or.inl h₁), rfl⟩
      have hk₂ := (s₂.key_ok_iff _).mpr ⟨hfit p hp s₂ hs₂ (Or.inr h₂), rfl⟩
      constructor
      · refine ⟨s₁, hs₁, s₂, hs₂, h₁, h₂, _, _, hk₁, hk₂, ?_⟩
        rw [hadds.columns]
        exact Or.inr ⟨p, hp, s₁, hs₁, s₂, hs₂, h₁, h₂, Or.inl ⟨rfl, rfl⟩⟩
      · refine ⟨s₂, hs₂, s₁, hs₁, h₂, h₁, _, _, hk₂, hk₁, ?_⟩
        rw [hadds.columns]
        exact Or.inr ⟨p, hp, s₁, hs₁, s₂, hs₂, h₁, h₂, Or.inr ⟨rfl, rfl⟩⟩
    rcases h with h | h
    · exact (hends _ h).1
    · exact (hends _ h).2

/-- The edges have both ends, whatever was met. -/
theorem mirrored_of_adds {ps : List ((Nat × Nat) × (Nat × Nat))} {info : JoinInfo}
    (h : Adds scans ps .empty info) : info.Mirrored := by
  constructor
  · intro node j hj
    rw [h.columns] at hj ⊢
    rcases hj with hj | ⟨p, hp, s₁, hs₁, s₂, hs₂, h₁, h₂, ⟨rfl, rfl⟩ | ⟨rfl, rfl⟩⟩
    · cases hj
    · exact Or.inr ⟨p, hp, s₁, hs₁, s₂, hs₂, h₁, h₂, Or.inr ⟨rfl, rfl⟩⟩
    · exact Or.inr ⟨p, hp, s₁, hs₁, s₂, hs₂, h₁, h₂, Or.inl ⟨rfl, rfl⟩⟩
  · intro node other
    rw [h.adj]
    simp only [h.columns, empty, Finset.notMem_empty, not_mem_nil, false_or]
    constructor
    · intro hm
      obtain ⟨p, hp, j, hj, hother⟩ := hm
      exact ⟨j, ⟨p, hp, hj⟩, hother⟩
    · intro hm
      obtain ⟨j, ⟨p, hp, hj⟩, hother⟩ := hm
      exact ⟨p, hp, j, hj, hother⟩

/-- What the edges need to be exact: the keys of the scans that are met
are within `int`, every pair that is met, under whatever operator, is one
that a top-level conjunct equates, and no top-level equality is behind a
subquery. -/
structure MeetsEqualities (c : JoinCondition D) : Prop where
  keys : ∀ p ∈ c.met, KeysFit c.scans p
  equated : ∀ p ∈ c.met, JoinEquality c.plan c.condition p.1 p.2
  reached : ∀ x y, JoinEquality c.plan c.condition x y → (x, y) ∈ c.met ∨ (y, x) ∈ c.met

theorem meetsEqualities_of_exact (h : c.ExactEdges) : c.MeetsEqualities := by
  have hextract := extract_eq c.condition c.scansOf_inputs .empty
  obtain ⟨hadd, hfit⟩ := addPairs_spec c.scans_nodup c.met (fun p hp => (met_ok p hp).1)
    .empty empty_synced
  obtain ⟨info, ret, hrun, hrecords, -⟩ := h
  rw [hextract, Option.map_eq_some_iff] at hrun
  obtain ⟨info', hfold, heq⟩ := hrun
  simp only [Prod.mk.injEq] at heq
  obtain ⟨rfl, -⟩ := heq
  have hkeys := hfit info' hfold
  obtain ⟨info₂, hfold₂, hadds⟩ := hadd hkeys
  have heq : info₂ = info' := Option.some.inj (hfold₂.symm.trans hfold)
  subst heq
  refine ⟨hkeys, fun p hp => ?_, fun x y hxy => ?_⟩
  · exact (hrecords p.1 p.2).mp ((records_iff hkeys hadds p.1 p.2).mpr (Or.inl hp))
  · exact (records_iff hkeys hadds x y).mp ((hrecords x y).mpr hxy)

theorem exact_of_meetsEqualities (h : c.MeetsEqualities) : c.ExactEdges := by
  have hextract := extract_eq c.condition c.scansOf_inputs .empty
  obtain ⟨hadd, -⟩ := addPairs_spec c.scans_nodup c.met (fun p hp => (met_ok p hp).1)
    .empty empty_synced
  obtain ⟨info, hfold, hadds⟩ := hadd h.keys
  refine ⟨info, (tablePairs c.plan c.condition).2, ?_, fun x y => ?_, mirrored_of_adds hadds⟩
  · rw [hextract]
    exact congrArg (Option.map fun i => (i, (tablePairs c.plan c.condition).2)) hfold
  · rw [records_iff h.keys hadds]
    constructor
    · intro hmet
      rcases hmet with hmet | hmet
      · exact h.equated _ hmet
      · obtain ⟨hne, d, hd, heq⟩ := h.equated _ hmet
        exact ⟨hne.symm, d, hd, heq.symm⟩
    · exact h.reached x y

/-- The recorded edges are exact under this condition and no other. -/
theorem exactEdges_iff (c : JoinCondition D) : c.ExactEdges ↔ c.MeetsEqualities :=
  ⟨meetsEqualities_of_exact, exact_of_meetsEqualities⟩

/-- The comparison of `t1.x` and `t2.y` over the join of two tables. -/
def comparison (op : SQLOps) : JoinCondition Unit where
  plan :=
    { root := .join 3 (.scan 1 ["x"]) (.scan 2 ["y"])
      tables_nodup := by decide
      tables_pos := by decide }
  scans :=
    [⟨1, 1, Int.one_pos, by decide, Int.one_pos, by decide⟩,
      ⟨2, 2, by decide, by decide, by decide, by decide⟩]
  condition := .oper op [.input 1 0, .input 2 0] ⟨.kBOOLEAN, false, 1⟩
  scans_nodup := by decide
  tables_scanned := by decide
  inputs_bound := by
    intro x hx
    simp only [Rex.inputs, Rex.inputsAll, List.mem_append, List.mem_singleton,
      List.not_mem_nil, or_false] at hx
    rcases hx with rfl | rfl <;> decide

theorem less_not_exact : ¬ (comparison .kLT).ExactEdges := by
  intro h
  have hmet : ((1, 0), (2, 0)) ∈ (comparison .kLT).met := by decide
  obtain ⟨-, d, hd, heq⟩ := (meetsEqualities_of_exact h).equated _ hmet
  have hd' : d = (comparison .kLT).condition := by
    simpa [comparison, Rex.conjuncts] using hd
  subst hd'
  rcases heq with ⟨s, i, s', i', ti, hform, -⟩ | ⟨s, i, s', i', ti, hform, -⟩
  · simp [comparison] at hform
  · simp [comparison] at hform

end JoinCondition

end Compass.PushDown
