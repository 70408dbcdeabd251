/-
Where the references go when the schemas are not all from before.

On a schema that is kept a reference goes to its column, as in
`columnOf_buildNewInput`. Elsewhere the tables of the source are those of
the plan with the compound, so nothing is moved (`newInput_late`): a
reference stays with its column before those of the scan, and behind them
only if there are as many as before. An expression that is built anew has
the new references of the old one, all of them in a projection
(`newRefs_project`), some of them in the condition (`newRefs_filter`).
-/
import Mathlib.Data.List.TakeWhile
import Compass.PushDown.Proofs.Extract
import Compass.PushDown.Proofs.Narrowed
import Compass.RelAlg.Proofs.Eval

namespace Compass.PushDown

open List Option Prod
open RelNode Plan Rex

variable {D : Type}

-- ======== the index

open RelNode (totalCols)

variable {s k₀ : Nat} {K : List ColInfo} {ts : List (Nat × Nat)}

/-- Among other tables an index moves by what has gone before. -/
theorem remapIndex_others {cId off : Nat} {m : Int} {r : Bool × Nat}
    (hs : s ∉ ts.map fst) (h : remapIndex s cId K ts off m = some r) :
    r = (false, ((cId : Int) - m).toNat) := by
  induction ts generalizing off with
  | nil => cases h
  | cons x ts ih =>
    obtain ⟨t, w⟩ := x
    simp only [map_cons, mem_cons, not_or] at hs
    have ht : ¬ t = s := fun heq => hs.1 heq.symm
    unfold remapIndex at h
    split at h
    · exact (some.inj h).symm
    · exact ih hs.2 h

/-- On the tables of the plan with the compound nothing is moved. -/
theorem remapIndex_narrowed {cId : Nat} {ts₁ ts₂ : List (Nat × Nat)} {r : Bool × Nat}
    (h₁ : s ∉ ts₁.map fst) (h₂ : s ∉ ts₂.map fst)
    (h : remapIndex s cId K (ts₁ ++ (s, K.length) :: ts₂) 0 0 = some r) :
    (r = (false, cId) ∧ (cId < totalCols ts₁ ∨ totalCols ts₁ + K.length ≤ cId)) ∨
      ∃ k x, r = (true, k + totalCols ts₁) ∧ K[k]? = some x ∧
        totalCols ts₁ + x.1 = cId ∧ cId < totalCols ts₁ + K.length := by
  rw [remapIndex_append 0 (Nat.zero_le cId), Nat.zero_add, passModifier_of_not_mem h₁] at h
  split at h
  · next hlt => exact .inl ⟨by simpa using remapIndex_others h₁ h, .inl hlt⟩
  · next hge =>
      rw [remapIndex, if_pos rfl, if_pos rfl] at h
      split at h
      · next hlt =>
          obtain ⟨k, hk, rfl⟩ := map_eq_some_iff.1 h
          obtain ⟨hkl, hp, -⟩ := findIdx?_eq_some_iff_getElem.1 hk
          refine .inr ⟨k, K[k], rfl, getElem?_eq_getElem hkl, ?_, hlt⟩
          have := of_decide_eq_true hp
          omega
      · next hle => exact .inl ⟨by simpa using remapIndex_others h₂ h, .inr (by omega)⟩

-- ======== one reference

variable {P : Plan} {m m' : SchemaMap} {kept : List Nat} {r r' col : Nat × Nat}

theorem buildNewInput_eq (source cId : Nat) :
    (buildNewInput P s k₀ K source cId : Option (Rex D))
      = (newInput P.schemas P s k₀ K source cId).map fun r => .input r.1 r.2 := by
  unfold buildNewInput newInput
  simp only [schemas]
  split
  · rfl
  · rcases remapIndex s cId K (P.tNumColsOf source) 0 0 with _ | ⟨_ | _, cIdNew⟩ <;> rfl

/-- With the schema from before. -/
theorem sameColumn_of_schemas (hs : P.IsScan s) (hk : k₀ ∉ P.root.ids)
    (hcol : P.columnOf r.1 r.2 = some col)
    (h : newInput P.schemas P s k₀ K r.1 r.2 = some r') : SameColumn P s k₀ K r r' := by
  have hnew : (buildNewInput P s k₀ K r.1 r.2 : Option (Rex Int)) = some (.input r'.1 r'.2) := by
    rw [buildNewInput_eq, h, map_some]
  obtain ⟨hgoes, hdrop⟩ := columnOf_buildNewInput (D := Int) (K := K) hs hk hcol
  by_cases hkeep : col.1 ≠ s ∨ Projects K col.2
  · obtain ⟨source, cId, heq, hcol'⟩ := hgoes hkeep
    rw [hnew] at heq
    injection heq with heq
    injection heq with hsource hcId
    rw [SameColumn, hsource, hcId, hcol, hcol']
  · rw [not_or, not_not] at hkeep
    rw [hdrop hkeep.1 hkeep.2] at hnew
    cases hnew

theorem newInput_congr {source : Nat} (h : m source = m' source) (cId : Nat) :
    newInput m P s k₀ K source cId = newInput m' P s k₀ K source cId := by
  unfold newInput
  rw [h]

theorem totalCols_takeWhile {w : Nat} {ts₁ ts₂ : List (Nat × Nat)} (h : s ∉ ts₁.map fst) :
    totalCols ((ts₁ ++ (s, w) :: ts₂).takeWhile fun x => x.1 ≠ s) = totalCols ts₁ := by
  have hall : ∀ x ∈ ts₁, decide (x.1 ≠ s) = true := fun x hx =>
    decide_eq_true fun heq => h (heq ▸ mem_map_of_mem hx)
  rw [takeWhile_append_of_pos hall, takeWhile_cons_of_neg (by simp), append_nil]

/-- A source without the scan is as before. -/
theorem late_without_scan (K : List ColInfo) (kept : List Nat) {n : RelNode} (hk : k₀ ∉ P.root.ids)
    (hscan : P.IsScan s) (hn : P.root.find? r.1 = some n) (hmem : s ∉ n.tables)
    (hcol : P.columnOf r.1 r.2 = some col) :
    keptSchemas P s k₀ K kept r.1 = P.schemas r.1 ∧ r.2 < colsBefore P s r.1 := by
  obtain ⟨fields, hscan⟩ := hscan
  have hnew := find?_newSource (K := K) hscan hk hn
  have hss : ¬ s = r.1 := by
    intro heq
    rw [← heq, hscan] at hn
    cases hn
    exact hmem (by simp [tables, tNumCols])
  rw [if_neg hss, insertCompound_of_not_mem hmem] at hnew
  constructor
  · unfold keptSchemas
    split
    · rfl
    · simp only [schemas, tNumColsOf, schemaOf, hn, hnew]
  · obtain ⟨n', hn', hout⟩ := columnOf_eq_some.1 hcol
    rw [hn] at hn'
    cases hn'
    have hall : n.tNumCols.takeWhile (fun x => x.1 ≠ s) = n.tNumCols := by
      rw [takeWhile_eq_self_iff]
      exact fun x hx => decide_eq_true fun heq => hmem (heq ▸ List.mem_map_of_mem hx)
    have hlt := (List.getElem?_eq_some_iff.1 hout).1
    rw [length_outputs, ← hall] at hlt
    unfold colsBefore tNumColsOf
    rw [hn]
    exact hlt

theorem newInput_connected (hconn : isConnected P s k₀ K r.1 = true) (hss : ¬ s = r.1)
    (h : newInput m P s k₀ K r.1 r.2 = some r') :
    ∃ b, remapIndex s r.2 K (m r.1).1 0 0 = some (b, r'.2) ∧ r'.1 = r.1 := by
  simp only [newInput, hconn, Bool.not_true, Bool.false_eq_true, if_false, hss] at h
  rcases hremap : remapIndex s r.2 K (m r.1).1 0 0 with _ | ⟨_ | _, cIdNew⟩ <;>
    rw [hremap] at h <;> cases h
  · exact ⟨false, rfl, rfl⟩
  · exact ⟨true, rfl, rfl⟩

theorem nodup_outputs_found {i : Nat} {n : RelNode} (hd : P.root.outputs.Nodup)
    (h : P.root.find? i = some n) : n.outputs.Nodup := by
  refine find?_induct (Q := fun n => n.outputs.Nodup) ?_ ?_ ?_ hd h
  · exact fun _ _ h => h
  · exact fun _ _ _ h => (nodup_append.1 h).1
  · exact fun _ _ _ h => (nodup_append.1 h).2.1

/-- With the schema of the plan with the compound. -/
theorem late_with_scan {fields : List String} {n : RelNode}
    (hscan : P.root.find? s = some (.scan s fields)) (hk : k₀ ∉ P.root.ids)
    (hd : P.root.outputs.Nodup) (hnot : r.1 ∉ kept) (hss : ¬ s = r.1)
    (hn : P.root.find? r.1 = some n) (hmem : s ∈ n.tables) (hcol : P.columnOf r.1 r.2 = some col)
    (h : newInput (keptSchemas P s k₀ K kept) P s k₀ K r.1 r.2 = some r') :
    SameColumn P s k₀ K r r' ↔ Stays P s K kept r := by
  have hfind := find?_scan_found P.tables_nodup hscan hn hmem
  obtain ⟨ts₁, ts₂, pre, post, ha⟩ := exists_around k₀ K
    (nodup_found P.tables_nodup hn) hfind
  have hnew := find?_newSource (K := K) hscan hk hn
  rw [if_neg hss] at hnew
  have hschema : (keptSchemas P s k₀ K kept r.1).1 = ts₁ ++ (s, K.length) :: ts₂ := by
    unfold keptSchemas
    rw [if_neg (not_or.2 ⟨hnot, fun heq => hss heq.symm⟩)]
    simp only [schemas, tNumColsOf, hnew, ha.narrowed]
  obtain ⟨b, hremap, hsource⟩ :=
    newInput_connected (isConnected_of_mem hscan hk hn hfind) hss h
  rw [hschema] at hremap
  -- both references by the columns of the node
  have hbefore : colsBefore P s r.1 = pre.length := by
    unfold colsBefore tNumColsOf
    rw [hn, ha.before]
    show totalCols (n.tNumCols.takeWhile _) = _
    rw [ha.tNumCols, totalCols_takeWhile ha.not_before]
  have hwidth : (P.schemaOf s).length = fields.length := by
    unfold schemaOf
    rw [hscan]
    rfl
  have hold : n.outputs[r.2]? = some col := by
    obtain ⟨n', hn', hout⟩ := columnOf_eq_some.1 hcol
    rw [hn] at hn'
    cases hn'
    exact hout
  have hsame : SameColumn P s k₀ K r r'
      ↔ (n.insertCompound s k₀ K).outputs[r'.2]? = some col := by
    unfold SameColumn columnOf
    rw [hsource, show (P.insertCompound s k₀ K).root.find? r.1 = _ from hnew, hn,
      bind_some, bind_some, hold]
  have hnodup : post.Nodup := by
    have := nodup_outputs_found hd hn
    rw [ha.outputs] at this
    exact (nodup_append.1 (nodup_append.1 this).2.1).2.1
  rw [hsame]
  unfold Stays
  rw [hbefore, hwidth, ha.projected]
  simp only [hnot, false_or, show ¬ r.1 = s from fun heq => hss heq.symm]
  rw [ha.outputs] at hold
  rcases remapIndex_narrowed ha.not_before ha.not_behind hremap with
    ⟨hr, hplace⟩ | ⟨k, x, hr, hx, hindex, hlt⟩
  · obtain ⟨-, hr⟩ := mk.inj hr
    rw [hr]
    rw [← ha.before] at hplace
    rcases hplace with hplace | hplace
    · -- before the scan
      rw [getElem?_append_left hplace] at hold ⊢
      exact ⟨fun _ => .inl hplace, fun _ => hold⟩
    · rw [getElem?_behind (by simpa using hplace), length_map]
      by_cases hin : r.2 < pre.length + fields.length
      · -- a column of the scan has become one of another table
        rw [getElem?_middle (by omega) (by simpa using hin)] at hold
        have hs : col.1 = s := by
          obtain ⟨c, -, hc⟩ := List.mem_map.1 (mem_of_getElem? hold)
          exact congrArg fst hc.symm
        exact ⟨fun hout => absurd hs (ha.others col (mem_of_getElem? hout)), fun hstays => by omega⟩
      · rw [getElem?_behind (by simpa using hin), length_map, length_range] at hold
        constructor
        · intro hout
          have hlt := (List.getElem?_eq_some_iff.1 hout).1
          have hindex := (getElem?_inj hlt hnodup).1 (hout.trans hold.symm)
          omega
        · intro hstays
          rw [show K.length = fields.length by omega]
          exact hold
  · obtain ⟨-, hr⟩ := mk.inj hr
    rw [← ha.before] at hr hindex hlt
    have hkl := (List.getElem?_eq_some_iff.1 hx).1
    rw [hr, getElem?_middle (by omega) (by rw [length_map]; omega), Nat.add_sub_cancel,
      getElem?_map, hx, map_some]
    by_cases hin : r.2 < pre.length + fields.length
    · rw [getElem?_middle (by omega) (by simpa using hin), getElem?_map,
        getElem?_range (by omega), map_some,
        show r.2 - pre.length = x.1 by omega] at hold
      exact ⟨fun _ => .inr (.inl ⟨hin, hlt⟩), fun _ => hold⟩
    · rw [getElem?_behind (by simpa using hin)] at hold
      have hs := ha.others col (mem_of_getElem? hold)
      exact ⟨fun hout => absurd (congrArg fst (Option.some.inj hout)).symm hs,
        fun hstays => by omega⟩

/-- A reference of the condition is rewritten to the same column if and only if
it stays. -/
theorem sameColumn_iff_stays (hs : P.IsScan s) (hk : k₀ ∉ P.root.ids)
    (hd : P.root.outputs.Nodup) (hcol : P.columnOf r.1 r.2 = some col)
    (h : newInput (keptSchemas P s k₀ K kept) P s k₀ K r.1 r.2 = some r') :
    SameColumn P s k₀ K r r' ↔ Stays P s K kept r := by
  by_cases hkept : r.1 ∈ kept ∨ r.1 = s
  · have hschema : keptSchemas P s k₀ K kept r.1 = P.schemas r.1 := by
      unfold keptSchemas
      rw [if_pos hkept]
    rw [newInput_congr hschema] at h
    exact ⟨fun _ => hkept.elim .inl fun heq => .inr (.inl heq),
      fun _ => sameColumn_of_schemas hs hk hcol h⟩
  · rw [not_or] at hkept
    obtain ⟨n, hn, -⟩ := columnOf_eq_some.1 hcol
    by_cases hmem : s ∈ n.tables
    · obtain ⟨fields, hscan⟩ := hs
      exact late_with_scan hscan hk hd hkept.1 (fun heq => hkept.2 heq.symm) hn hmem hcol h
    · obtain ⟨hschema, hlt⟩ := late_without_scan K kept hk hs hn hmem hcol
      rw [newInput_congr hschema] at h
      exact ⟨fun _ => .inr (.inr (.inl hlt)), fun _ => sameColumn_of_schemas hs hk hcol h⟩

-- ======== the projections

/-- What is put in the place of an input. -/
def visitNew (m : SchemaMap) (P : Plan) (s k₀ : Nat) (K : List ColInfo) (source cId : Nat) :
    Option (Rex D) :=
  (newInput m P s k₀ K source cId).map fun r => .input r.1 r.2

variable {es : List (Rex D)}

theorem buildNewProjectOperands_forall₂ {es' : List (Rex D)}
    (h : buildNewProjectOperands m P s k₀ K es = some es') :
    Forall₂ (fun e e' => buildNewProjectExpr m P s k₀ K e = some e') es es' := by
  induction es generalizing es' with
  | nil =>
    cases h
    exact .nil
  | cons e es ih =>
    simp only [buildNewProjectOperands, bind_eq_bind, bind_eq_some_iff, some.injEq] at h
    obtain ⟨e', he', rest, hrest, rfl⟩ := h
    exact .cons he' (ih hrest)

theorem deepCopyAll_project {es' : List (Rex D)}
    (ih : ∀ e ∈ es, ∀ e', buildNewProjectExpr m P s k₀ K e = some e' →
      Rex.deepCopy (visitNew m P s k₀ K) e = some e')
    (h : buildNewProjectOperands m P s k₀ K es = some es') :
    Rex.deepCopyAll (visitNew m P s k₀ K) es = some es' := by
  induction es generalizing es' with
  | nil => exact h
  | cons e es ihs =>
    simp only [buildNewProjectOperands, bind_eq_bind, bind_eq_some_iff, some.injEq] at h
    obtain ⟨e', he', rest, hrest, rfl⟩ := h
    rw [forall_mem_cons] at ih
    rw [deepCopyAll, ih.1 e' he', ihs ih.2 hrest]
    rfl

theorem deepCopyBranches_project {bs bs' : List (Rex D × Rex D)}
    (ih : ∀ b ∈ bs, (∀ e', buildNewProjectExpr m P s k₀ K b.1 = some e' →
        Rex.deepCopy (visitNew m P s k₀ K) b.1 = some e')
      ∧ ∀ e', buildNewProjectExpr m P s k₀ K b.2 = some e' →
        Rex.deepCopy (visitNew m P s k₀ K) b.2 = some e')
    (h : buildNewProjectBranches m P s k₀ K bs = some bs') :
    Rex.deepCopyBranches (visitNew m P s k₀ K) bs = some bs' := by
  induction bs generalizing bs' with
  | nil => exact h
  | cons b bs ihs =>
    simp only [buildNewProjectBranches, bind_eq_bind, bind_eq_some_iff, some.injEq] at h
    obtain ⟨w', hw', t', ht', rest, hrest, rfl⟩ := h
    rw [forall_mem_cons] at ih
    rw [deepCopyBranches, ih.1.1 w' hw', ih.1.2 t' ht', ihs ih.2 hrest]
    rfl

section

variable {e e' : Rex D} (h : buildNewProjectExpr m P s k₀ K e = some e')
include h

/-- A projection that is built anew is a copy with the new references. -/
theorem deepCopy_project : Rex.deepCopy (visitNew m P s k₀ K) e = some e' := by
  induction e using operand_induction generalizing e' with
  | input source index => exact h
  | func name es ti ih | oper op es ti ih =>
    simp only [buildNewProjectExpr, bind_eq_bind, bind_eq_some_iff, some.injEq] at h
    obtain ⟨es', hes', rfl⟩ := h
    rw [deepCopy, deepCopyAll_project (fun e he e' => ih e he) hes', map_some]
  | case bs els ihb ihe =>
    simp only [buildNewProjectExpr, bind_eq_bind, bind_eq_some_iff, some.injEq] at h
    obtain ⟨bs', hbs', els', hels', rfl⟩ := h
    rw [deepCopy, deepCopyBranches_project
      (fun b hb => ⟨fun e' => (ihb b hb).1, fun e' => (ihb b hb).2⟩) hbs', ihe hels']
    rfl
  | literal v | ref i => exact h
  | subQuery q => cases h

/-- All references of a projection are rewritten, in their order. -/
theorem newRefs_project :
    Forall₂ (fun r r' => newInput m P s k₀ K r.1 r.2 = some r') e.inputs e'.inputs := by
  obtain ⟨rs, hrs, heq⟩ := copiedInputs (deepCopy_project h)
  have hall := OptionFold.forall₂_of_mapM hrs
  rw [heq]
  clear hrs heq h
  generalize e.inputs = refs at hall ⊢
  induction hall with
  | nil => exact .nil
  | @cons r d l ds hd _ ih =>
    obtain ⟨r', hr', rfl⟩ := map_eq_some_iff.1 hd
    exact .cons hr' ih

end

-- ======== the condition

theorem sublistForall₂_append {α β : Type} {R : α → β → Prop} {a a' : List α} {b b' : List β}
    (h : SublistForall₂ R a b) (h' : SublistForall₂ R a' b') :
    SublistForall₂ R (a ++ a') (b ++ b') := by
  induction h with
  | @nil l =>
    induction l with
    | nil => exact h'
    | cons _ _ ih => exact .cons_right ih
  | cons hab _ ih => exact .cons hab ih
  | cons_right _ ih => exact .cons_right ih

theorem inputsAll_append (es es' : List (Rex D)) :
    Rex.inputsAll (es ++ es') = Rex.inputsAll es ++ Rex.inputsAll es' := by
  induction es with
  | nil => rfl
  | cons e es ih => rw [cons_append, inputsAll, inputsAll, ih, append_assoc]

/-- The references are new ones of some of the old. -/
def NewRefs (m : SchemaMap) (P : Plan) (s k₀ : Nat) (K : List ColInfo)
    (refs' refs : List (Nat × Nat)) : Prop :=
  List.SublistForall₂ (fun r' r => newInput m P s k₀ K r.1 r.2 = some r') refs' refs

theorem newRefs_operands {rs : List (Rex D)}
    (ih : ∀ e ∈ es, ∀ e', buildFilterExprFrom m P s k₀ K e = some (some e') →
      NewRefs m P s k₀ K e'.inputs e.inputs) (h : buildFilterOperandsFrom m P s k₀ K es = some rs) :
    NewRefs m P s k₀ K (Rex.inputsAll rs) (Rex.inputsAll es) := by
  induction es generalizing rs with
  | nil =>
    cases h
    exact .nil
  | cons e es ihs =>
    simp only [buildFilterOperandsFrom, bind_eq_bind, bind_eq_some_iff, some.injEq] at h
    obtain ⟨o, ho, rest, hrest, rfl⟩ := h
    rw [forall_mem_cons] at ih
    rw [inputsAll_append]
    refine sublistForall₂_append ?_ (ihs ih.2 hrest)
    cases o with
    | none => exact .nil
    | some e' =>
      rw [toList_some, inputsAll, inputsAll, append_nil]
      exact ih.1 e' ho

theorem newRefs_branches {bs bs' : List (Rex D × Rex D)}
    (ih : ∀ b ∈ bs, (∀ e', buildFilterExprFrom m P s k₀ K b.1 = some (some e') →
        NewRefs m P s k₀ K e'.inputs b.1.inputs)
      ∧ ∀ e', buildFilterExprFrom m P s k₀ K b.2 = some (some e') →
        NewRefs m P s k₀ K e'.inputs b.2.inputs)
    (h : buildFilterBranchesFrom m P s k₀ K bs = some bs') :
    NewRefs m P s k₀ K (Rex.inputsBranches bs') (Rex.inputsBranches bs) := by
  induction bs generalizing bs' with
  | nil =>
    cases h
    exact .nil
  | cons b bs ihs =>
    simp only [buildFilterBranchesFrom, bind_eq_bind, bind_eq_some_iff] at h
    obtain ⟨w, hw, t, ht, rest, hrest, h⟩ := h
    rw [forall_mem_cons] at ih
    cases w with
    | none => cases h
    | some w' =>
      cases t with
      | none => cases h
      | some t' =>
        obtain rfl := some.inj h
        exact sublistForall₂_append
          (sublistForall₂_append (ih.1.1 w' hw) (ih.1.2 t' ht)) (ihs ih.2 hrest)

theorem newRefs_rebuildOper {op : SQLOps} {ti : SQLTypeInfo} {rs : List (Rex D)} {e' : Rex D}
    (h : rebuildOper op ti rs = some e') : e'.inputs = Rex.inputsAll rs := by
  rcases rebuildOper_cases h with ⟨rfl, -, -⟩ | ⟨-, rfl⟩
  · rw [inputsAll, inputsAll, append_nil]
  · rfl

/-- What is left of the condition has some of its references, in their order. -/
theorem newRefs_filter {e e' : Rex D} (h : buildFilterExprFrom m P s k₀ K e = some (some e')) :
    NewRefs m P s k₀ K e'.inputs e.inputs := by
  induction e using operand_induction generalizing e' with
  | input source index =>
    obtain ⟨r', hr', rfl⟩ := map_eq_some_iff.1 (some.inj h)
    exact .cons hr' .nil
  | func name es ti ih =>
    simp only [buildFilterExprFrom, bind_eq_bind, bind_eq_some_iff] at h
    obtain ⟨rs, hrs, h⟩ := h
    split at h
    · obtain rfl := some.inj (some.inj h)
      exact newRefs_operands (fun e he e' => ih e he) hrs
    · cases h
  | oper op es ti ih =>
    unfold buildFilterExprFrom at h
    split at h
    · cases h
    · simp only [bind_eq_bind, bind_eq_some_iff, some.injEq] at h
      obtain ⟨rs, hrs, h⟩ := h
      rw [newRefs_rebuildOper h]
      exact newRefs_operands (fun e he e' => ih e he) hrs
  | case bs els ihb ihe =>
    simp only [buildFilterExprFrom, bind_eq_bind, bind_eq_some_iff] at h
    obtain ⟨bs', hbs', o, ho, h⟩ := h
    cases o with
    | none => cases h
    | some els' =>
      obtain rfl := some.inj (some.inj h)
      exact sublistForall₂_append (newRefs_branches
        (fun b hb => ⟨fun e' => (ihb b hb).1, fun e' => (ihb b hb).2⟩) hbs') (ihe ho)
  | literal v | ref i =>
    obtain rfl := some.inj (some.inj h)
    exact .nil
  | subQuery q => cases h

-- ======== the expressions

theorem rewritten_of_newInput (hs : P.IsScan s) (hk : k₀ ∉ P.root.ids) (hd : P.root.outputs.Nodup)
    (h : newInput (keptSchemas P s k₀ K kept) P s k₀ K r.1 r.2 = some r') :
    Rewritten P s k₀ K kept (Stays P s K kept r) r r' :=
  ⟨h, fun _ hcol => sameColumn_iff_stays hs hk hd hcol h⟩

/-- After a push-down every reference of a projection is rewritten to the same
column, and a reference of the condition, if it is left, to the same column if
and only if it stays. -/
theorem updatePostJoinExprs_refs {known : List Nat} {projects projects' : List (Rex D)}
    {cond : Rex D} {cond' : Option (Rex D)} (hP : Narrowed D P) (hs : P.IsScan s)
    (hk : k₀ ∉ P.root.ids)
    (h : updatePostJoinExprs P s k₀ K known projects cond = some (projects', cond')) :
    UpdatedRefs P s k₀ K (sourcesKept P s known projects cond) projects projects' cond
      cond' := by
  have hd := hP.nodup
  unfold updatePostJoinExprs at h
  simp only [bind_eq_bind, bind_eq_some_iff, Option.some.injEq] at h
  obtain ⟨es', hes', o, ho, h⟩ := h
  obtain ⟨rfl, rfl⟩ := Prod.mk.inj h
  constructor
  · -- the sources of the projections are all kept
    have hkept : ∀ e ∈ projects, ∀ r ∈ e.inputs, r.1 ∈ sourcesKept P s known projects cond := by
      intro e he r hr
      have hmem := List.mem_map_of_mem (f := Prod.fst) (mem_inputsAll.2 ⟨e, he, hr⟩)
      exact mem_append_left _ (mem_append_right _ hmem)
    refine ((forall₂_and_left _ _).2
      ⟨hkept, buildNewProjectOperands_forall₂ hes'⟩).imp ?_
    rintro e e' ⟨hsources, he'⟩
    refine ((forall₂_and_left _ _).2 ⟨hsources, newRefs_project he'⟩).imp ?_
    rintro r r' ⟨hsource, hr'⟩
    have hrew := rewritten_of_newInput hs hk hd hr'
    exact ⟨hrew.new, fun col hcol => (hrew.same col hcol).trans (iff_true_intro (.inl hsource))⟩
  · rintro e' rfl
    obtain ⟨refs, hrefs, hsub⟩ := sublistForall₂_iff.1 (newRefs_filter ho)
    exact sublistForall₂_iff.2
      ⟨refs, hrefs.imp fun _ _ hr' => rewritten_of_newInput hs hk hd hr', hsub⟩

-- ======== three tables

/-- A filter over the join of three tables. -/
def threeTables : Plan where
  root := .through 6 (.join 5 (.join 4 (.scan 1 ["x", "y"]) (.scan 2 ["k", "u"]))
    (.scan 3 ["z"]))
  tables_nodup := by decide
  tables_pos := by decide

/-- With a compound over the second one. -/
def secondNarrowed : Plan := threeTables.insertCompound 2 7 [(0, "k")]

/-- `NOW() > v` -/
def nowAfter (v : Int) : Rex Int :=
  .oper .kGT [.func "NOW" [] ⟨.kTIMESTAMP, true, 8⟩, .literal (.scalar v)] boolType

/-- `NOW() > 0 AND CASE WHEN NOW() > 0 THEN z ELSE y END = 5`, for the index of
`y` in the join of the first two. -/
def caseCondition (index : Nat) : Rex Int :=
  .oper .kAND [nowAfter 0,
    .oper .kEQ [.case [(nowAfter 0, .input 3 0)] (.input 4 index), .literal (.scalar 5)]
      boolType] boolType

/-- `SELECT y, k` -/
def selectYK : List (Rex Int) := [.input 6 1, .input 6 2]

theorem secondNarrowed_narrowed : Narrowed Int secondNarrowed :=
  have hcols : findFilterAndProject threeTables 2 selectYK (caseCondition 1)
      = some (some (nowAfter 0), [(0, "k")]) := rfl
  .step (.start ⟨⟨trivial, trivial⟩, trivial⟩) ⟨["k", "u"], rfl⟩ (by decide) hcols

theorem isScan_secondNarrowed : secondNarrowed.IsScan 1 :=
  ⟨["x", "y"], rfl⟩

/-- The join of the first two has been looked up before. -/
theorem updatePostJoinExprs_refs_known :
    UpdatedRefs secondNarrowed 1 8 [(1, "y")]
      (sourcesKept secondNarrowed 1 [4] selectYK (caseCondition 1)) selectYK
      [.input 6 0, .input 6 1] (caseCondition 1) (some (caseCondition 0)) :=
  updatePostJoinExprs_refs secondNarrowed_narrowed isScan_secondNarrowed (by decide) rfl

/-- When it has not, `y` is read as `k`. -/
theorem updatePostJoinExprs_off :
    Narrowed Int secondNarrowed ∧
    (∃ filter, findFilterAndProject secondNarrowed 1 selectYK (caseCondition 1)
      = some (some filter, [(1, "y")])) ∧
    updatePostJoinExprs secondNarrowed 1 8 [(1, "y")] [] selectYK (caseCondition 1)
      = some ([.input 6 0, .input 6 1], some (caseCondition 1)) ∧
    secondNarrowed.columnOf 4 1 = some (1, 1) ∧
    (secondNarrowed.insertCompound 1 8 [(1, "y")]).columnOf 4 1 = some (2, 0) ∧
    ¬ SameColumn secondNarrowed 1 8 [(1, "y")] (4, 1) (4, 1) :=
  ⟨secondNarrowed_narrowed, ⟨nowAfter 0, rfl⟩, rfl, rfl, rfl, by unfold SameColumn; decide⟩

end Compass.PushDown
