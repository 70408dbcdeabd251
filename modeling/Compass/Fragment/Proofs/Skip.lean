/-
When skipping a fragment loses no row.

A skip is decided on the range of the bare column, while the row function
compares the value of the cast. The two readings agree as long as the
chunk metadata is there and the cast returns the column's value; then a
range on the wrong side of the constant has no row on the right one
(`not_rangeFails_of_read`). A qualifier is misread in a row when this
breaks: a column without chunk metadata that is not the rowid, a cast
that changes the value, row ids beyond `int64_t`. The fragment is then
lost exactly when a misread qualifier is the one that decides.
-/
import Compass.Fragment.Skip
import Mathlib.Data.List.GetD
import Mathlib.Data.List.Induction

namespace Compass.Fragment

open List Option
open Table

-- ======== conditions

/-- The parts of a qualifier that is decided on a chunk range: its
comparison and left side, the type and id of the column, the constant. -/
structure QualOn (q : Expr) (op : SQLOps) (lhs : Expr) (ti : SQLTypeInfo)
    (colId rhsVal : Int) : Prop where
  shape : ∃ bti cti n d, q = .binOper bti op .kONE lhs (.constant cti n d)
      ∧ codegenIntConst cti n d = some rhsVal
  column : qualColumn lhs = some (some (ti, colId))
  typed : (lhs.typeInfo.isInteger || lhs.typeInfo.isTime) = true

/-- Every value of the range is on the wrong side of the constant. -/
def RangeFails (op : SQLOps) (range : ChunkRange) (rhsVal : Int) : Prop :=
  match op with
  | .kGE => range.chunkMax < rhsVal
  | .kGT => range.chunkMax ≤ rhsVal
  | .kLE => rhsVal < range.chunkMin
  | .kLT => rhsVal ≤ range.chunkMin
  | .kEQ => rhsVal < range.chunkMin ∨ range.chunkMax < rhsVal
  | _ => False

namespace Table

variable (T : Table) (frag : FragmentInfo) (fragIdx : Nat)

/-- The loop goes no further than this qualifier: an equality on the
rowid with a key of this fragment, or a column that the catalog does not
describe. -/
def Ends (q : Expr) : Prop :=
  ∃ op lhs ti colId rhsVal, QualOn q op lhs ti colId rhsVal
    ∧ (T.chunkRange frag fragIdx ti colId = none
      ∨ ∃ range, T.chunkRange frag fragIdx ti colId = some range
          ∧ range.isRowid = true ∧ op = .kEQ
          ∧ range.chunkMin ≤ rhsVal ∧ rhsVal ≤ range.chunkMax)

/-- The chunk metadata of the qualifiers' columns bounds their non-null
values. -/
def ChunksBound (quals : List Expr) : Prop :=
  ∀ q ∈ quals, ∀ op lhs ti colId rhsVal, QualOn q op lhs ti colId rhsVal →
    ∀ stats lo hi, frag.chunkMetadataMap colId = some stats →
      extractMinStat stats ti = some lo → extractMaxStat stats ti = some hi →
      ∀ pos < frag.getNumTuples, isNullVal ti (T.outerValue frag fragIdx pos colId) = false →
        lo ≤ T.outerValue frag fragIdx pos colId
          ∧ T.outerValue frag fragIdx pos colId ≤ hi

/-- The row ids of the fragment run past the range of `int64_t`. -/
def RowIdsOverflow : Prop :=
  2 ^ 63 < T.getFragOffsets.getD (fragIdx + 1) 0 + T.startRowid

end Table

/-- What decides the qualifier is not what the row compares: the column
has no chunk metadata and is not the rowid, or its row ids overflow, or
the cast does not return the column's non-null value. -/
def Cursor.Misread (c : Cursor) (lhs : Expr) (ti : SQLTypeInfo) (colId : Int) :
    Prop :=
  (c.frag.chunkMetadataMap colId = none
      ∧ (c.table.isVirtual colId = false ∨ c.table.RowIdsOverflow c.fragIdx))
    ∨ isNullVal ti (c.outerValue colId) = true
    ∨ c.operandValue lhs ≠ some (c.outerValue colId)

/-- No qualifier that the loop reaches is misread in this row and has the
whole range on the wrong side of its constant. -/
def Cursor.NotMisled (c : Cursor) (quals : List Expr) : Prop :=
  ∀ pre q post, quals = pre ++ q :: post →
    (∀ p ∈ pre, ¬ c.table.Ends c.frag c.fragIdx p) →
    ∀ op lhs ti colId rhsVal range, QualOn q op lhs ti colId rhsVal →
      c.table.chunkRange c.frag c.fragIdx ti colId = some range →
      c.Misread lhs ti colId → ¬ RangeFails op range rhsVal

-- ======== normalisation

/-- The left side of a simple qualifier. -/
inductive SimpleSide : Expr → Prop
  | column (ti : SQLTypeInfo) (tableId colId rte : Int) :
      SimpleSide (.columnVar ti tableId colId rte)
  | cast (ti cti : SQLTypeInfo) (tableId colId rte : Int)
      (simple : ((ti.isTime && cti.isTime)
        || (ti.isInteger && cti.isInteger)) = true) :
      SimpleSide (.uoper ti .kCAST (.columnVar cti tableId colId rte))

theorem simpleCast_cases {l r : Expr} (h : simplePredicateHasSimpleCast l r = true) :
    SimpleSide l ∧ ∃ cti n d, r = .constant cti n d := by
  unfold simplePredicateHasSimpleCast at h
  split at h
  · next ti cti tableId colId rte rti n d =>
      exact ⟨.cast ti cti tableId colId rte h, rti, n, d, rfl⟩
  · cases h

variable {e q : Expr} {rte : Int}

/-- A normalised predicate has its column on the left and its constant on
the right, and is the predicate itself or the one turned around. -/
theorem normalize_cases (h : normalizeSimplePredicate e = some (q, rte)) :
    ∃ bti op l cti n d, q = .binOper bti op .kONE l (.constant cti n d)
      ∧ SimpleSide l
      ∧ (e = q ∨ ∃ op', op'.isComparison = true ∧ op = op'.commuteComparison
          ∧ e = .binOper bti op' .kONE (.constant cti n d) l) := by
  unfold normalizeSimplePredicate at h
  split at h
  case h_2 => cases h
  case h_1 bti op qualifier left right =>
    split at h
    case isTrue => cases h
    case isFalse hop =>
      have hop' : op.isComparison = true ∧ qualifier = .kONE := by
        simpa using hop
      obtain ⟨hcmp, rfl⟩ := hop'
      split at h
      · split at h
        · next hs =>
            obtain ⟨hside, cti, n, d, rfl⟩ := simpleCast_cases hs
            injection h with h
            injection h with hq hrte
            exact ⟨bti, op, _, cti, n, d, hq.symm, hside, .inl hq⟩
        · cases h
      · split at h
        · next hs =>
            obtain ⟨hside, cti, n, d, rfl⟩ := simpleCast_cases hs
            injection h with h
            injection h with hq hrte
            exact ⟨bti, _, _, cti, n, d, hq.symm, hside, .inr ⟨op, hcmp, rfl, rfl⟩⟩
        · cases h
      · injection h with h
        injection h with hq hrte
        exact ⟨bti, op, _, _, _, _, hq.symm, .column _ _ _ _, .inl hq⟩
      · injection h with h
        injection h with hq hrte
        exact ⟨bti, _, _, _, _, _, hq.symm, .column _ _ _ _, .inr ⟨op, hcmp, rfl, rfl⟩⟩
      · cases h

theorem icmp_commute (op : SQLOps) (l r : Int) :
    icmp op.commuteComparison r l = icmp op l r := by
  cases op with
  | kEQ => exact BEq.comm
  | kNE => exact bne_comm
  | _ => rfl

theorem codegenCmp_commute (op : SQLOps) (lti rti : SQLTypeInfo) (l r : Int) :
    codegenCmp op.commuteComparison rti lti r l = codegenCmp op lti rti l r := by
  have hbw : op.commuteComparison = .kBW_EQ ↔ op = .kBW_EQ := by
    cases op <;> simp [SQLOps.commuteComparison]
  have heq : icmp .kEQ r l = icmp .kEQ l r := icmp_commute .kEQ l r
  simp only [codegenCmp, hbw, icmp_commute, heq, Bool.and_comm (isNullVal rti r),
    Bool.or_comm (isNullVal rti r)]

variable {c : Cursor} {frag : FragmentInfo} {preds : List SimplePredicate}

-- ======== a row that satisfies

variable {op : SQLOps}

/-- What a row that satisfies a predicate on machine integers has
compared. -/
theorem holds_normalized {l : Expr} {bti cti : SQLTypeInfo} {n : Bool} {d : Datum}
    (hn : normalizeSimplePredicate e = some (q, rte))
    (hq : q = .binOper bti op .kONE l (.constant cti n d))
    (ht : (l.typeInfo.isInteger || l.typeInfo.isTime) = true) (hh : c.holds e = true) :
    ∃ w v, c.operandValue l = some w ∧ codegenIntConst cti n d = some v
      ∧ codegenCmp op l.typeInfo cti w v = some true := by
  obtain ⟨bti', op', l', cti', n', d', hq', hside, he⟩ := normalize_cases hn
  rw [hq] at hq'
  injection hq' with hb ho _ hl hr
  injection hr with hc hn' hd
  subst hb ho hl hc hn' hd
  rcases he with rfl | ⟨op₀, hcmp, rfl, rfl⟩
  · subst hq
    have hint : Cursor.isIntCmp l (.constant cti n d) = true := by
      simp only [Cursor.isIntCmp, ht, Bool.true_or]
    simp only [Cursor.holds, hint, if_true] at hh
    split at hh
    · next w v hw hv =>
        have hh := (Bool.and_eq_true_iff.mp hh).2
        exact ⟨w, v, hw, hv, by simpa [Expr.typeInfo] using hh⟩
    · cases hh
  · have hint : Cursor.isIntCmp (.constant cti n d) l = true := by
      simp only [Cursor.isIntCmp, Bool.or_assoc, ht, Bool.or_true]
    simp only [Cursor.holds, hint, if_true] at hh
    split at hh
    · next v w hv hw =>
        have hh := (Bool.and_eq_true_iff.mp hh).2
        refine ⟨w, v, hw, hv, ?_⟩
        rw [codegenCmp_commute]
        simpa [Expr.typeInfo] using hh
    · cases hh

/-- A comparison that skips can be TRUE on two non-null values only. -/
theorem icmp_of_codegenCmp {lti rti : SQLTypeInfo} {l r : Int}
    (h : codegenCmp op lti rti l r = some true) (hop : op ≠ .kBW_EQ) :
    icmp op l r = true ∧ isNullVal lti l = false := by
  simp only [codegenCmp, hop, if_false] at h
  split at h
  · cases h
  · next hnull =>
      injection h with h
      simp only [Bool.or_eq_true, not_or, Bool.not_eq_true] at hnull
      exact ⟨h, hnull.1⟩

variable {range : ChunkRange}

/-- A value of the range that compares TRUE keeps the range from failing. -/
theorem not_rangeFails {w v : Int} (hlo : range.chunkMin ≤ w) (hhi : w ≤ range.chunkMax)
    (hcmp : icmp op w v = true) : ¬ RangeFails op range v := by
  intro hf
  cases op <;> simp only [RangeFails, icmp, decide_eq_true_eq, beq_iff_eq] at hf hcmp
    <;> omega

-- ======== the verdicts

theorem rangeVerdict_skip_iff {v s : Int} :
    rangeVerdict op range v s = .skip ↔ RangeFails op range v := by
  cases op with
  | kGE | kGT | kLE | kLT =>
    simp only [rangeVerdict, RangeFails]
    split <;> simp_all
  | kEQ =>
    simp only [rangeVerdict, RangeFails, Bool.or_eq_true, decide_eq_true_eq]
    split
    · simp_all
    · split <;> simp_all
  | _ => simp [rangeVerdict, RangeFails]

/-- Only an equality on the rowid stops the loop. -/
theorem rangeVerdict_stop {v s key : Int} (h : rangeVerdict op range v s = .stop key) :
    op = .kEQ ∧ range.isRowid = true
      ∧ range.chunkMin ≤ v ∧ v ≤ range.chunkMax := by
  cases op with
  | kGE | kGT | kLE | kLT =>
    simp only [rangeVerdict] at h
    split at h <;> cases h
  | kEQ =>
    simp only [rangeVerdict, Bool.or_eq_true, decide_eq_true_eq] at h
    split at h
    · cases h
    · next hin =>
        split at h
        · next hrow => exact ⟨rfl, hrow, by omega, by omega⟩
        · cases h
  | _ => simp [rangeVerdict] at h

section Loop

variable {T : Table} {frag : FragmentInfo} {fragIdx : Nat}

theorem qualVerdict_of_qualOn {q lhs : Expr} {op : SQLOps} {ti : SQLTypeInfo}
    {colId v : Int} (h : QualOn q op lhs ti colId v) :
    T.qualVerdict frag fragIdx q
      = (T.chunkRange frag fragIdx ti colId).map
          fun range => rangeVerdict op range v T.startRowid := by
  obtain ⟨bti, cti, n, d, rfl, hv⟩ := h.shape
  have ht : (!lhs.typeInfo.isInteger && !lhs.typeInfo.isTime) = false := by
    have := h.typed
    cases hi : lhs.typeInfo.isInteger <;> simp_all
  simp only [qualVerdict, h.column, ht, Bool.false_eq_true, if_false, hv]
  cases T.chunkRange frag fragIdx ti colId <;> rfl

/-- A qualifier of the normalised form is passed over, or decided on a
range, or has a constant that is no integer. -/
theorem qualVerdict_cases {l : Expr} (hside : SimpleSide l) (bti : SQLTypeInfo)
    (op : SQLOps) (cti : SQLTypeInfo) (n : Bool) (d : Datum) :
    T.qualVerdict frag fragIdx (.binOper bti op .kONE l (.constant cti n d))
        = some .next
      ∨ ((l.typeInfo.isInteger || l.typeInfo.isTime) = true
        ∧ ∃ ti colId, qualColumn l = some (some (ti, colId))) := by
  have hcol : ∃ r, qualColumn l = some r := by
    cases hside with
    | column ti tableId colId rte =>
      simp only [qualColumn]
      split <;> exact ⟨_, rfl⟩
    | cast ti cti tableId colId rte hs =>
      exact ⟨_, by simp [qualColumn, asOuterColumn]; rfl⟩
  obtain ⟨r, hr⟩ := hcol
  cases r with
  | none => exact .inl (by simp only [qualVerdict, hr])
  | some c =>
    by_cases ht : (l.typeInfo.isInteger || l.typeInfo.isTime) = true
    · exact .inr ⟨ht, c.1, c.2, hr⟩
    · have ht' : (!l.typeInfo.isInteger && !l.typeInfo.isTime) = true := by
        simpa using ht
      exact .inl (by simp only [qualVerdict, hr, ht', if_true])

theorem skipLoop_true {quals : List Expr} {key : Int}
    (h : T.skipLoop frag fragIdx quals = some (true, key)) :
    ∃ pre q post, quals = pre ++ q :: post
      ∧ (∀ p ∈ pre, T.qualVerdict frag fragIdx p = some .next)
      ∧ T.qualVerdict frag fragIdx q = some .skip := by
  induction quals with
  | nil => simp [skipLoop] at h
  | cons q quals ih =>
    simp only [skipLoop] at h
    split at h
    · cases h
    · next hq => exact ⟨[], q, quals, rfl, by simp, hq⟩
    · cases h
    · next hq =>
        obtain ⟨pre, q', post, rfl, hpre, hq'⟩ := ih h
        refine ⟨q :: pre, q', post, rfl, ?_, hq'⟩
        intro p hp
        cases hp with
        | head => exact hq
        | tail _ hp => exact hpre p hp

theorem skipLoop_of_skip {pre post : List Expr} {q : Expr}
    (hpre : ∀ p ∈ pre, T.qualVerdict frag fragIdx p = some .skip
      ∨ T.qualVerdict frag fragIdx p = some .next)
    (hq : T.qualVerdict frag fragIdx q = some .skip) :
    T.skipLoop frag fragIdx (pre ++ q :: post) = some (true, -1) := by
  induction pre with
  | nil => simp [skipLoop, hq]
  | cons p pre ih =>
    have ih' := ih fun x hx => hpre x (mem_cons_of_mem _ hx)
    rcases hpre p mem_cons_self with hp | hp
    · simp [skipLoop, hp]
    · simp [skipLoop, hp, ih']

end Loop

-- ======== the row ids

/-- The offset of a fragment counts the tuples before it. -/
theorem getFragOffsets_spec (T : Table) :
    T.getFragOffsets.length = T.fragments.length + 1
      ∧ ∀ i ≤ T.fragments.length, T.getFragOffsets.getD i 0
          = ((T.fragments.take i).map FragmentInfo.getNumTuples).sum := by
  unfold getFragOffsets
  -- the loop appends one offset per fragment, so the induction is from the right
  induction T.fragments using reverseRecOn with
  | nil => simp
  | append_singleton frags frag ih =>
    rw [foldl_append, foldl_cons, foldl_nil]
    obtain ⟨hlen, hget⟩ := ih
    set offsets := frags.foldl
      (fun offsets frag => offsets ++ [offsets.getLastD 0 + frag.getNumTuples]) [0]
      with hoff
    refine ⟨by simp [hlen], ?_⟩
    intro i hi
    rw [length_append, length_singleton] at hi
    by_cases hlast : i = frags.length + 1
    · subst hlast
      have hl : offsets.getLastD 0 = (frags.map FragmentInfo.getNumTuples).sum := by
        have h := hget frags.length (Nat.le_refl _)
        rw [take_length] at h
        rw [← h, getLastD_eq_getLast?, getLast?_eq_getElem?, hlen,
          Nat.add_sub_cancel, getD_eq_getElem?_getD]
      rw [getD_append_right _ _ _ _ (by omega), hlen, Nat.sub_self,
        take_of_length_le (by simp), map_append, sum_append, hl]
      simp
    · rw [getD_append _ _ _ _ (by omega), hget i (by omega), take_append_of_le_length (by omega)]

variable {fragIdx : Nat} {T : Table}

theorem getFragOffsets_succ (h : T.fragments[fragIdx]? = some frag) :
    T.getFragOffsets.getD (fragIdx + 1) 0
      = T.getFragOffsets.getD fragIdx 0 + frag.getNumTuples := by
  obtain ⟨hlt, hfrag⟩ := List.getElem?_eq_some_iff.mp h
  have hspec := (getFragOffsets_spec T).2
  rw [hspec _ hlt, hspec _ (by omega), take_add_one, h, map_append, sum_append]
  simp

theorem toInt64_of_lt {n : Int} (h0 : 0 ≤ n) (h : n < 2 ^ 63) : toInt64 n = n := by
  apply Int.bmod_eq_of_le <;> omega

/-- The row ids of a fragment lie in the range the loop takes for them. -/
theorem rowId_in_range {pos : Nat} (hfrag : T.fragments[fragIdx]? = some frag)
    (hpos : pos < frag.getNumTuples) (hfit : ¬ T.RowIdsOverflow fragIdx) :
    (T.rowidRange fragIdx).chunkMin ≤ T.rowId fragIdx pos
      ∧ T.rowId fragIdx pos ≤ (T.rowidRange fragIdx).chunkMax := by
  have hsucc := getFragOffsets_succ hfrag
  unfold RowIdsOverflow at hfit
  simp only [rowidRange, rowId]
  rw [toInt64_of_lt (by omega) (by omega), toInt64_of_lt (by omega) (by omega),
    toInt64_of_lt (by omega) (by omega)]
  omega

-- ======== soundness

section Sound

variable {c : Cursor}

variable (hfrag : c.table.fragments[c.fragIdx]? = some c.frag)
include hfrag

/-- The range that decides a qualifier which is not misread contains the
value that the row compares. -/
theorem outerValue_in_range {quals : List Expr} {q lhs : Expr} {op : SQLOps}
    {ti : SQLTypeInfo} {colId v : Int} {range : ChunkRange} (hpos : c.pos < c.frag.getNumTuples)
    (hbound : c.table.ChunksBound c.frag c.fragIdx quals) (hmem : q ∈ quals)
    (hq : QualOn q op lhs ti colId v)
    (hrange : c.table.chunkRange c.frag c.fragIdx ti colId = some range)
    (hread : ¬ c.Misread lhs ti colId) :
    range.chunkMin ≤ c.outerValue colId ∧ c.outerValue colId ≤ range.chunkMax := by
  simp only [Cursor.Misread, not_or, not_and, Bool.not_eq_true] at hread
  obtain ⟨hmeta, hnull, -⟩ := hread
  unfold chunkRange at hrange
  split at hrange
  · next hnone =>
      obtain ⟨hvirt, hfit⟩ := hmeta hnone
      have hvirt' : c.table.isVirtual colId = true := by simpa using hvirt
      cases hcd : c.table.getColumnDescriptor colId with
      | none => simp [isVirtual, hcd] at hvirt'
      | some cd =>
        have hcv : cd.isVirtualCol = true := by
          simpa [isVirtual, hcd] using hvirt'
        simp only [hcd, bind_eq_bind, bind_some, hcv, if_true]
          at hrange
        split at hrange
        · injection hrange with hrange
          subst hrange
          simp only [Cursor.outerValue, outerValue, hvirt', if_true]
          exact rowId_in_range hfrag hpos hfit
        · cases hrange
  · next stats hstats =>
      simp only [bind_eq_bind, bind_eq_some_iff] at hrange
      obtain ⟨lo, hlo, hi, hhi, hr⟩ := hrange
      cases hr
      exact hbound q hmem op lhs ti colId v hq stats lo hi hstats hlo hhi
        c.pos hpos hnull

/-- A qualifier that is not misread in a row that satisfies it does not
have its range on the wrong side. -/
theorem not_rangeFails_of_read {quals : List Expr} {e q lhs : Expr} {op : SQLOps}
    {ti : SQLTypeInfo} {colId v rte : Int} {range : ChunkRange} (hpos : c.pos < c.frag.getNumTuples)
    (hbound : c.table.ChunksBound c.frag c.fragIdx quals) (hmem : q ∈ quals)
    (hn : normalizeSimplePredicate e = some (q, rte)) (hh : c.holds e = true)
    (hq : QualOn q op lhs ti colId v)
    (hrange : c.table.chunkRange c.frag c.fragIdx ti colId = some range)
    (hread : ¬ c.Misread lhs ti colId) : ¬ RangeFails op range v := by
  obtain ⟨hlo, hhi⟩ :=
    outerValue_in_range hfrag hpos hbound hmem hq hrange hread
  obtain ⟨bti, cti, n, d, hshape, hv⟩ := hq.shape
  obtain ⟨w, v', hw, hv', hcmp⟩ := holds_normalized hn hshape hq.typed hh
  have hvv : v' = v := by
    rw [hv] at hv'
    injection hv' with hv'
    exact hv'.symm
  have hwc : w = c.outerValue colId := by
    have hsame : c.operandValue lhs = some (c.outerValue colId) := by
      by_contra hne
      exact hread (.inr (.inr hne))
    rw [hw] at hsame
    injection hsame
  subst hvv hwc
  by_cases hop : op = .kBW_EQ
  · subst hop
    simp [RangeFails]
  · exact not_rangeFails hlo hhi (icmp_of_codegenCmp hcmp hop).1

end Sound

theorem mem_simpleQuals (h : q ∈ simpleQuals preds) :
    ∃ p ∈ preds, ∃ rte, normalizeSimplePredicate p.expr = some (q, rte) := by
  obtain ⟨p, hp, rfl⟩ := mem_map.mp h
  refine ⟨p, hp, ((normalizeSimplePredicate p.expr).get p.accepted).2, ?_⟩
  exact (some_get p.accepted).symm

section

variable (hn : normalizeSimplePredicate e = some (q, rte))
include hn

/-- A qualifier that a row satisfies lets the loop go on or skips, unless
the loop ends there. -/
theorem qualVerdict_of_holds (hh : c.holds e = true) (hends : ¬ c.table.Ends c.frag c.fragIdx q) :
    c.table.qualVerdict c.frag c.fragIdx q = some .skip
      ∨ c.table.qualVerdict c.frag c.fragIdx q = some .next := by
  obtain ⟨bti, op, l, cti, n, d, hq, hside, -⟩ := normalize_cases hn
  rcases qualVerdict_cases hside bti op cti n d with hnext | ⟨ht, ti, colId, hcol⟩
  · right
    rw [hq]
    exact hnext
  · obtain ⟨w, v, -, hv, -⟩ := holds_normalized hn hq ht hh
    have hon : QualOn q op l ti colId v := ⟨⟨bti, cti, n, d, hq, hv⟩, hcol, ht⟩
    rw [qualVerdict_of_qualOn hon]
    cases hrange : c.table.chunkRange c.frag c.fragIdx ti colId with
    | none => exact absurd ⟨op, l, ti, colId, v, hon, .inl hrange⟩ hends
    | some range =>
      cases hverd : rangeVerdict op range v c.table.startRowid with
      | skip | next => simp [hverd]
      | stop key =>
        obtain ⟨hop, hrow, hlo, hhi⟩ := rangeVerdict_stop hverd
        exact absurd ⟨op, l, ti, colId, v, hon, .inr ⟨range, hrange, hrow, hop, hlo, hhi⟩⟩ hends

/-- A qualifier that skips was decided on a range on the wrong side. -/
theorem qualOn_of_skip (hskip : T.qualVerdict frag fragIdx q = some .skip) :
    ∃ op lhs ti colId v range, QualOn q op lhs ti colId v
      ∧ T.chunkRange frag fragIdx ti colId = some range
      ∧ RangeFails op range v := by
  obtain ⟨bti, op, l, cti, n, d, hq, hside, -⟩ := normalize_cases hn
  rcases qualVerdict_cases hside bti op cti n d with hnext | ⟨ht, ti, colId, hcol⟩
  · rw [hq, hnext] at hskip
    cases hskip
  · cases hv : codegenIntConst cti n d with
    | none =>
      have ht' : (!l.typeInfo.isInteger && !l.typeInfo.isTime) = false := by
        cases hi : l.typeInfo.isInteger <;> simp_all
      rw [hq] at hskip
      simp only [qualVerdict, hcol, ht', Bool.false_eq_true, if_false, hv]
        at hskip
      cases hr : T.chunkRange frag fragIdx ti colId <;> simp [hr] at hskip
    | some v =>
      have hon : QualOn q op l ti colId v := ⟨⟨bti, cti, n, d, hq, hv⟩, hcol, ht⟩
      rw [qualVerdict_of_qualOn hon, map_eq_some_iff] at hskip
      obtain ⟨range, hrange, hverd⟩ := hskip
      exact ⟨op, l, ti, colId, v, range, hon, hrange, rangeVerdict_skip_iff.mp hverd⟩

end

/-- A qualifier that the loop passes does not end it. -/
theorem not_ends_of_next (h : T.qualVerdict frag fragIdx q = some .next) :
    ¬ T.Ends frag fragIdx q := by
  intro h
  obtain ⟨op, lhs, ti, colId, v, hon, hend⟩ := h
  rw [qualVerdict_of_qualOn hon] at h
  rcases hend with hnone | ⟨range, hrange, hrow, rfl, hlo, hhi⟩
  · simp [hnone] at h
  · have hin : ¬ (range.chunkMin > v ∨ range.chunkMax < v) := by omega
    simp [hrange, rangeVerdict, hin, hrow] at h

/-- A row that no qualifier misleads is not lost by a skip. -/
theorem not_holdsAll_of_skip {key : Int} (hfrag : c.table.fragments[c.fragIdx]? = some c.frag)
    (hpos : c.pos < c.frag.getNumTuples)
    (hbound : c.table.ChunksBound c.frag c.fragIdx (simpleQuals preds))
    (hskip : c.table.skipFragment c.frag (simpleQuals preds) c.fragIdx = some (true, key))
    (hcond : c.HoldsAll preds → c.NotMisled (simpleQuals preds)) :
    ¬ c.HoldsAll preds := by
  intro hall
  unfold skipFragment at hskip
  split at hskip
  · cases hskip
  · obtain ⟨pre, q, post, hquals, hpre, hq⟩ := skipLoop_true hskip
    have hmem : q ∈ simpleQuals preds := by
      rw [hquals]
      simp
    obtain ⟨pred, hpred, rte, hn⟩ := mem_simpleQuals hmem
    obtain ⟨op, lhs, ti, colId, v, range, hon, hrange, hfails⟩ := qualOn_of_skip hn hq
    by_cases hmis : c.Misread lhs ti colId
    · have hnot := hcond hall pre q post hquals
        fun p hp => not_ends_of_next (hpre p hp)
      exact hnot op lhs ti colId v range hon hrange hmis hfails
    · exact not_rangeFails_of_read hfrag hpos hbound hmem hn (hall pred hpred)
        hon hrange hmis hfails

/-- For every fragment whose metadata bounds the columns' non-null values
and every list of simple predicates: a skip loses no row exactly when no
row that satisfies all of them is misled by a qualifier the loop
reaches. -/
theorem skipFragment_sound_iff (T : Table) (frag : FragmentInfo) (fragIdx : Nat)
    (hfrag : T.fragments[fragIdx]? = some frag) (preds : List SimplePredicate)
    (hbound : T.ChunksBound frag fragIdx (simpleQuals preds))
    (inner : Int → Int → Int) (otherHolds : Expr → Bool) :
    ((∃ key, T.skipFragment frag (simpleQuals preds) fragIdx = some (true, key)) →
        ∀ pos < frag.getNumTuples, ¬ (Cursor.mk T frag fragIdx pos inner otherHolds).HoldsAll preds)
      ↔ (T.iterTab = false →
        ∀ pos < frag.getNumTuples, (Cursor.mk T frag fragIdx pos inner otherHolds).HoldsAll preds →
          (Cursor.mk T frag fragIdx pos inner otherHolds).NotMisled
            (simpleQuals preds)) := by
  constructor
  · intro hsound hiter pos hpos hall pre q post hquals hpre op lhs ti colId v range
      hon hrange _ hfails
    have hsub : ∀ p ∈ pre, p ∈ simpleQuals preds := by
      intro p hp
      rw [hquals]
      exact mem_append_left _ hp
    refine hsound ⟨-1, ?_⟩ pos hpos hall
    simp only [skipFragment, hiter, Bool.false_eq_true, if_false, hquals]
    apply skipLoop_of_skip
    · intro p hp
      obtain ⟨pred, hpred, rte, hn⟩ := mem_simpleQuals (hsub p hp)
      exact qualVerdict_of_holds hn (hall pred hpred) (hpre p hp)
    · rw [qualVerdict_of_qualOn hon, hrange, map_some, rangeVerdict_skip_iff.mpr hfails]
  · intro hcond hskip pos hpos hall
    obtain ⟨key, hskip⟩ := hskip
    have hiter : T.iterTab = false := by
      cases hi : T.iterTab with
      | false => rfl
      | true => simp [skipFragment, hi] at hskip
    exact not_holdsAll_of_skip hfrag hpos hbound hskip
      (hcond hiter pos hpos) hall

-- ======== two cases

/-- A table of one fragment with one stored column. -/
def rowsOf (vs : List Int) (stats : Option ChunkStats) : Table where
  tableId := 1
  iterTab := false
  column colId := if colId = 1 then some ⟨"x", false⟩ else none
  startRowid := 0
  fragments := [⟨vs.map fun v _ => v, fun colId => if colId = 1 then stats else none⟩]

/-- The fragment of `rowsOf`. -/
def fragmentOf (vs : List Int) (stats : Option ChunkStats) : FragmentInfo :=
  ⟨vs.map fun v _ => v, fun colId => if colId = 1 then stats else none⟩

/-- The row function at a row of `rowsOf`. -/
def cursorOf (vs : List Int) (stats : Option ChunkStats) (pos : Nat) : Cursor :=
  ⟨rowsOf vs stats, fragmentOf vs stats, 0, pos, fun _ _ => 0, fun _ => false⟩

/-- A comparison of the column of `rowsOf`, bare or below a cast. -/
def compareColumn (op : SQLOps) (colType castType : SQLTypes) (rhs : Datum) : Expr :=
  .binOper ⟨.kBOOLEAN, false, 1⟩ op .kONE
    (if colType = castType then .columnVar ⟨colType, false, 8⟩ 1 1 0
      else .uoper ⟨castType, false, 8⟩ .kCAST (.columnVar ⟨colType, false, 8⟩ 1 1 0))
    (.constant ⟨castType, true, 8⟩ false rhs)

/-- Chunk metadata between which all values lie bounds the rows. -/
theorem rowsOf_bound {vs : List Int} {d₁ d₂ : Datum} (v₁ v₂ : Int) (colType : SQLTypes)
    (ps : List (SQLOps × SQLTypes × Datum))
    (h₁ : extractFromDatum d₁ ⟨colType, false, 8⟩ = some v₁)
    (h₂ : extractFromDatum d₂ ⟨colType, false, 8⟩ = some v₂)
    (hvs : ∀ v ∈ vs, v₁ ≤ v ∧ v ≤ v₂) :
    (rowsOf vs (some ⟨d₁, d₂⟩)).ChunksBound (fragmentOf vs (some ⟨d₁, d₂⟩)) 0
      (ps.map fun p => compareColumn p.1 colType p.2.1 p.2.2) := by
  intro q hq op' lhs ti colId rhsVal hon stats lo hi hstats hlo hhi pos hpos _
  obtain ⟨⟨op, castType, rhs⟩, -, rfl⟩ := mem_map.1 hq
  obtain ⟨bti, cti, n, c, hshape, -⟩ := hon.shape
  injection hshape with _ _ _ hl _
  have hcol : ti = ⟨colType, false, 8⟩ ∧ colId = 1 := by
    have h := hon.column
    rw [← hl] at h
    split at h <;> simp [qualColumn, asOuterColumn] at h <;> exact ⟨h.1.symm, h.2.symm⟩
  obtain ⟨rfl, rfl⟩ := hcol
  have hst : stats = ⟨d₁, d₂⟩ := by
    simpa [fragmentOf, eq_comm] using hstats
  subst hst
  rw [extractMinStat, h₁] at hlo
  rw [extractMaxStat, h₂] at hhi
  injection hlo with hlo
  injection hhi with hhi
  subst hlo hhi
  have hlt : pos < vs.length := by
    simpa [fragmentOf, FragmentInfo.getNumTuples] using hpos
  have hval : (rowsOf vs (some ⟨d₁, d₂⟩)).outerValue (fragmentOf vs (some ⟨d₁, d₂⟩)) 0 pos 1
      = vs[pos] := by
    simp [outerValue, isVirtual, getColumnDescriptor, rowsOf, fragmentOf, hlt]
  rw [hval]
  exact hvs _ (getElem_mem hlt)

theorem holdsAll_singleton {p : SimplePredicate} (h : c.holds p.expr = true) : c.HoldsAll [p] := by
  intro p' hp
  rw [mem_singleton] at hp
  subst hp
  exact h

/-- The metadata bounds the one row, which satisfies the comparison, and
yet the fragment is skipped. -/
def LosesRow (v : Int) (stats : Option ChunkStats) (op : SQLOps)
    (colType castType : SQLTypes) (rhs : Datum) : Prop :=
  ∃ p : SimplePredicate, p.expr = compareColumn op colType castType rhs
    ∧ (rowsOf [v] stats).ChunksBound (fragmentOf [v] stats) 0 (simpleQuals [p])
    ∧ (rowsOf [v] stats).skipFragment (fragmentOf [v] stats) (simpleQuals [p]) 0
        = some (true, -1)
    ∧ (cursorOf [v] stats 0).HoldsAll [p]

/-- A timestamp of one o'clock on the second of January 1970, cast to
DATE and compared with that day; the value 2^32 of a BIGINT cast to INT
and compared with 0; the value 7 of a column without metadata, compared
with 5. -/
theorem skipFragment_loses_rows :
    LosesRow 90000 (some ⟨90000, 90000⟩) .kEQ .kTIMESTAMP .kDATE 86400
      ∧ LosesRow (2 ^ 32) (some ⟨4294967296, 4294967296⟩) .kEQ .kBIGINT .kINT 0
      ∧ LosesRow 7 none .kGT .kINT .kINT 5 := by
  refine ⟨⟨⟨_, by rfl⟩, rfl, rowsOf_bound 90000 90000 .kTIMESTAMP
      [(.kEQ, .kDATE, 86400)] rfl rfl (by decide), by decide, ?_⟩,
    ⟨⟨_, by rfl⟩, rfl, rowsOf_bound (2 ^ 32) (2 ^ 32) .kBIGINT
      [(.kEQ, .kINT, 0)] rfl rfl (by decide), by decide, ?_⟩,
    ⟨⟨_, by rfl⟩, rfl, ?_, by decide, ?_⟩⟩
  · exact holdsAll_singleton (by decide)
  · exact holdsAll_singleton (by decide)
  · intro q _ op lhs ti colId rhsVal _ stats lo hi hstats
    simp [fragmentOf] at hstats
  · exact holdsAll_singleton (by decide)

/-- `x > 2` and `CAST(x AS INT) > 25`. -/
def greaterTwice : List SimplePredicate :=
  [⟨compareColumn .kGT .kSMALLINT .kSMALLINT 2, rfl⟩, ⟨compareColumn .kGT .kSMALLINT .kINT 25, rfl⟩]

theorem skipFragment_sound_iff_smallint :
    (∃ key, (rowsOf [3, 20] (some ⟨3, 20⟩)).skipFragment (fragmentOf [3, 20] (some ⟨3, 20⟩))
        (simpleQuals greaterTwice) 0 = some (true, key))
      ∧ ∀ pos < 2, ¬(cursorOf [3, 20] (some ⟨3, 20⟩) pos).HoldsAll greaterTwice := by
  refine ⟨⟨-1, by decide⟩, (skipFragment_sound_iff (rowsOf [3, 20] _) _ 0 rfl greaterTwice
    (rowsOf_bound 3 20 .kSMALLINT [(.kGT, .kSMALLINT, 2), (.kGT, .kINT, 25)] rfl rfl
      (by decide)) _ _).2 ?_ ⟨-1, by decide⟩⟩
  intro _ pos hpos hall
  have hgreater := hall _ (mem_cons_of_mem _ (mem_singleton_self _))
  have hpos : pos = 0 ∨ pos = 1 := by
    change pos < 2 at hpos
    omega
  rcases hpos with rfl | rfl
  · exact absurd hgreater (by decide)
  · exact absurd hgreater (by decide)

end Compass.Fragment
