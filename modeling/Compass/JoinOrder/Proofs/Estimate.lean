/-
When the composite node keys of a query are defined and distinct.

The text of a key has no leading zero, so equal keys are equal texts
(`keyValue_eq_iff`), and a text with the doubled digit 8 as its separator can
be cut at several places: the table id of one scan may go on with the
separator and the node id of the other (`Clash`). Together with the range
of `std::stoi` this decides the question for a whole query.

What the memoised join-size estimate depends on.

The memo is keyed by the set of nodes, so the estimate ought to be a
function of that set. The product over the merged sketches is one: it
commutes, and so does the sum over buckets. The merging of a node's
columns is not: `Choose_Sketch_Min_Val` keeps the earlier of two cell
values of equal magnitude, and the columns come in the order of the
traversal. Two columns that tie with opposite signs therefore leave the
sign to the order (`SignTie`).

The chain is: the merged cell is a fold of `chooseMin` over the cell's
values (`mergeChosen_elem`), the fold returns a value of least magnitude
(`foldl_chooseMin_spec`), without a tie there is only one such value
(`mergeCell_congr`), and what remains is a product over the nodes
(`sizeOfJoins_eq`).
-/
import Mathlib.Tactic.Linarith
import Mathlib.Tactic.Ring
import Compass.JoinOrder.Estimate

namespace Compass.JoinOrder

open Decimal Nat

-- ======== conditions

/-- The number of decimal digits of the node id. -/
def ScanId.nodeDigits (s : ScanId) : Nat :=
  (toDecimal s.nodeId).length

/-- The digits of table id, separator and node id stay within `int`. -/
def ScanId.KeyFits (s : ScanId) : Prop :=
  (s.tableId * 100 + 88) * 10 ^ s.nodeDigits + s.nodeId ≤ intMax

/-- The decimals of the two scans overlap around the separator: either
the table id of `t` is that of `s` with one more 8 and the node id of `s`
is that of `t` behind an 8, or the table id of `t` goes on behind that of
`s` with 88 and some digits, and the node id of `s` starts with these
digits and 88 before the node id of `t`. -/
def Clash (s t : ScanId) : Prop :=
  Recut '8' (toDecimal s.tableId) (toDecimal s.nodeId)
    (toDecimal t.tableId) (toDecimal t.nodeId)

-- ======== text and value

namespace ScanId

variable (s t : ScanId)

/-- The text handed to `std::stoi`. -/
def keyText : List Char :=
  toDecimal s.tableId ++ '8' :: '8' :: toDecimal s.nodeId

/-- The number the text denotes. -/
def keyValue : Nat :=
  Nat.ofDigitChars 10 s.keyText 0

theorem tableText : toDecimal s.tableId = Nat.toDigits 10 s.tableId.natAbs :=
  toDecimal_of_nonneg (Int.le_of_lt s.table_pos)

theorem nodeText : toDecimal s.nodeId = Nat.toDigits 10 s.nodeId.natAbs :=
  toDecimal_of_nonneg (Int.le_of_lt s.node_pos)

theorem tail_allDigits : AllDigits ('8' :: '8' :: toDecimal s.nodeId) := by
  intro c hc
  rw [nodeText] at hc
  simp only [List.mem_cons] at hc
  rcases hc with rfl | rfl | hc
  · decide
  · decide
  · exact allDigits_toDigits _ c hc

theorem keyText_eq_toDigits : s.keyText = Nat.toDigits 10 s.keyValue := by
  have hpos : 0 < s.tableId.natAbs := by
    have := s.table_pos
    omega
  have h := toDigits_append_digits s.tail_allDigits hpos
  have hval : s.keyValue = ofDigitChars 10
      ('8' :: '8' :: toDecimal s.nodeId) s.tableId.natAbs := by
    unfold keyValue keyText
    rw [ofDigitChars_append, tableText, ofDigitChars_ten_toDigits]
  unfold keyText
  rw [hval, ← h, tableText]

theorem keyValue_eq : (s.keyValue : Int)
    = (s.tableId * 100 + 88) * 10 ^ s.nodeDigits + s.nodeId := by
  have hnode : ofDigitChars 10 (toDecimal s.nodeId) 0
      = s.nodeId.natAbs := by
    rw [nodeText, ofDigitChars_ten_toDigits]
  have hnodeInt : (s.nodeId.natAbs : Int) = s.nodeId :=
    Int.natAbs_of_nonneg (Int.le_of_lt s.node_pos)
  have hval : s.keyValue
      = 10 ^ s.nodeDigits * (10 * (10 * s.tableId.natAbs + 8) + 8)
        + s.nodeId.natAbs := by
    unfold keyValue keyText nodeDigits
    rw [ofDigitChars_append, tableText, ofDigitChars_ten_toDigits,
      ofDigitChars_cons, ofDigitChars_cons,
      ofDigitChars_eq_ofDigitChars_zero, hnode]
    rfl
  rw [hval, cast_add, cast_mul, hnodeInt]
  push_cast
  rw [abs_of_pos s.table_pos]
  ring

/-- The key is the value of its text, when that is an `int`. -/
theorem key_eq : s.key = if intMax < (s.keyValue : Int)
    then .error .outOfRange else .ok (s.keyValue : Int) := by
  have hdig : AllDigits s.keyText := by
    rw [keyText_eq_toDigits]
    exact allDigits_toDigits _
  exact stoi_digits (by simp) hdig

theorem key_ok_iff (k : Int) :
    s.key = .ok k ↔ s.KeyFits ∧ k = s.keyValue := by
  have hfits : s.KeyFits ↔ ¬ (intMax < (s.keyValue : Int)) := by
    rw [keyValue_eq, not_lt]
    rfl
  rw [key_eq, hfits]
  split
  · next h => simp [h]
  · next h => simp [h, eq_comm]

/-- Two scans have the same key value exactly when they are the same
scan or their decimals overlap around the separator. -/
theorem keyValue_eq_iff :
    s.keyValue = t.keyValue ↔ s = t ∨ Clash s t ∨ Clash t s := by
  have htext : s.keyValue = t.keyValue ↔ s.keyText = t.keyText := by
    constructor
    · intro h
      rw [keyText_eq_toDigits, keyText_eq_toDigits, h]
    · exact congrArg fun text => ofDigitChars 10 text 0
  have hparts : (toDecimal s.tableId = toDecimal t.tableId
      ∧ toDecimal s.nodeId = toDecimal t.nodeId) ↔ s = t := by
    constructor
    · intro h
      obtain ⟨htab, hnode⟩ := h
      rw [tableText, tableText] at htab
      rw [nodeText, nodeText] at hnode
      have htab' := congrArg (fun text => ofDigitChars 10 text 0) htab
      have hnode' := congrArg (fun text => ofDigitChars 10 text 0) hnode
      simp only [ofDigitChars_ten_toDigits] at htab' hnode'
      obtain ⟨stab, snode, _, _, _, _⟩ := s
      obtain ⟨ttab, tnode, _, _, _, _⟩ := t
      simp only [mk.injEq]
      dsimp only at *
      omega
    · intro heq
      subst heq
      exact ⟨rfl, rfl⟩
  rw [htext]
  unfold keyText
  rw [twinSep_append_eq_iff, hparts]
  rfl

end ScanId

theorem not_clash_self (s : ScanId) : ¬ Clash s s :=
  fun h => h.left_ne rfl

-- ======== the query

theorem keysOfQuery_ok_iff (scans : List ScanId) (keys : List Int) :
    keysOfQuery scans = .ok keys ↔ (∀ s ∈ scans, s.KeyFits)
      ∧ keys = scans.map fun s => (s.keyValue : Int) := by
  unfold keysOfQuery
  induction scans generalizing keys with
  | nil => simp [pure, Except.pure, eq_comm]
  | cons s scans ih =>
    rw [List.mapM_cons]
    cases hkey : s.key with
    | error e =>
      have hnot : ¬ s.KeyFits := by
        intro hfits
        rw [(s.key_ok_iff _).mpr ⟨hfits, rfl⟩] at hkey
        cases hkey
      simp [bind, Except.bind, hnot]
    | ok k =>
      obtain ⟨hfits, rfl⟩ := (s.key_ok_iff k).mp hkey
      cases hrest : scans.mapM ScanId.key with
      | error e =>
        have hnot : ¬ ∀ t ∈ scans, t.KeyFits := by
          intro h
          rw [(ih _).mpr ⟨h, rfl⟩] at hrest
          cases hrest
        simp [bind, Except.bind, hfits, hnot]
      | ok rest =>
        obtain ⟨hall, rfl⟩ := (ih rest).mp hrest
        have hfit : ∀ t ∈ s :: scans, t.KeyFits :=
          List.forall_mem_cons.mpr ⟨hfits, hall⟩
        constructor
        · intro h
          exact ⟨hfit, (Except.ok.inj h).symm⟩
        · intro h
          obtain ⟨-, rfl⟩ := h
          rfl

/-- The keys of a query's scans are all defined and pairwise different
exactly when every text stays within `int` and no two scans overlap
around the separator. -/
theorem node_keys_collision_free_iff (scans : List ScanId) (hnd : scans.Nodup) :
    (∃ keys, keysOfQuery scans = .ok keys ∧ keys.Nodup)
      ↔ (∀ s ∈ scans, s.KeyFits)
        ∧ ∀ s ∈ scans, ∀ t ∈ scans, ¬ Clash s t := by
  have hdistinct : (scans.map fun s => (s.keyValue : Int)).Nodup
      ↔ ∀ s ∈ scans, ∀ t ∈ scans, ¬ Clash s t := by
    rw [List.nodup_map_iff_inj_on hnd]
    constructor
    · intro hinj s hs t ht hclash
      have hval := (s.keyValue_eq_iff t).mpr (.inr (.inl hclash))
      have heq := hinj s hs t ht (by rw [hval])
      exact not_clash_self t (heq ▸ hclash)
    · intro hno s hs t ht hval
      rcases (s.keyValue_eq_iff t).mp (by exact_mod_cast hval) with
        heq | hclash | hclash
      · exact heq
      · exact absurd hclash (hno s hs t ht)
      · exact absurd hclash (hno t ht s hs)
  constructor
  · intro h
    obtain ⟨keys, hkeys, hknd⟩ := h
    obtain ⟨hfits, rfl⟩ := (keysOfQuery_ok_iff scans keys).mp hkeys
    exact ⟨hfits, hdistinct.mp hknd⟩
  · intro h
    obtain ⟨hfits, hno⟩ := h
    exact ⟨_, (keysOfQuery_ok_iff scans _).mpr ⟨hfits, rfl⟩, hdistinct.mpr hno⟩

def scan (tableId nodeId : Int)
    (h : (0 < tableId ∧ tableId ≤ intMax) ∧ 0 < nodeId ∧ nodeId ≤ intMax) :
    ScanId :=
  ⟨tableId, nodeId, h.1.1, h.1.2, h.2.1, h.2.2⟩

theorem node_keys_collision_free_two_scans :
    ∃ keys, keysOfQuery [scan 3 1 (by decide), scan 7 2 (by decide)]
      = .ok keys ∧ keys.Nodup := by
  refine (node_keys_collision_free_iff _ (by decide)).mpr ⟨?_, ?_⟩
  · unfold ScanId.KeyFits ScanId.nodeDigits
    decide
  · intro s hs t ht hclash
    have hval := (s.keyValue_eq_iff t).mpr (.inr (.inl hclash))
    have hsame : s = t := by
      clear hclash
      revert s t
      decide
    exact not_clash_self t (hsame ▸ hclash)

/-- Table 1 scanned as node 81 and table 18 scanned as node 1 share the
key 18881, and table 3000000 scanned as node 1 has no key. -/
theorem node_keys_collide :
    scan 1 81 (by decide) ≠ scan 18 1 (by decide)
      ∧ keysOfQuery [scan 1 81 (by decide), scan 18 1 (by decide)]
        = .ok [18881, 18881]
      ∧ ¬ [(18881 : Int), 18881].Nodup
      ∧ (scan 3000000 1 (by decide)).key = .error .outOfRange :=
  ⟨by decide, rfl, by decide, rfl⟩

end Compass.JoinOrder

namespace Compass.JoinOrder

open Compass.Sketch Compass.Sketch.FagmsSketch List Function

-- ======== the fold of one cell

/-- The fold keeps its start, or ends in a non-zero value of smaller
magnitude; either way nothing non-zero in the list is smaller. -/
theorem foldl_chooseMin_spec (vs : List ℚ) (c : ℚ) :
    (vs.foldl chooseMin c = c ∧ ∀ v ∈ vs, v ≠ 0 → |c| ≤ |v|)
      ∨ (vs.foldl chooseMin c ∈ vs ∧ vs.foldl chooseMin c ≠ 0
        ∧ |vs.foldl chooseMin c| < |c|
        ∧ ∀ v ∈ vs, v ≠ 0 → |vs.foldl chooseMin c| ≤ |v|) := by
  induction vs generalizing c with
  | nil => simp
  | cons v vs ih =>
    rw [foldl_cons]
    by_cases hv : v ≠ 0 ∧ |c| > |v|
    · rw [chooseMin, if_pos hv]
      rcases ih v with ⟨heq, hmin⟩ | ⟨hmem, hne, hlt, hmin⟩
      · rw [heq]
        refine .inr ⟨by simp, hv.1, hv.2, ?_⟩
        intro w hw hw0
        rcases mem_cons.1 hw with rfl | hw
        · exact le_refl _
        · exact hmin w hw hw0
      · refine .inr ⟨mem_cons_of_mem _ hmem, hne, hlt.trans hv.2, ?_⟩
        intro w hw hw0
        rcases mem_cons.1 hw with rfl | hw
        · exact hlt.le
        · exact hmin w hw hw0
    · rw [chooseMin, if_neg hv]
      have hcv : v ≠ 0 → |c| ≤ |v| := by
        intro hv0
        exact not_lt.mp fun h => hv ⟨hv0, h⟩
      rcases ih c with ⟨heq, hmin⟩ | ⟨hmem, hne, hlt, hmin⟩
      · refine .inl ⟨heq, ?_⟩
        intro w hw hw0
        rcases mem_cons.1 hw with rfl | hw
        · exact hcv hw0
        · exact hmin w hw hw0
      · refine .inr ⟨mem_cons_of_mem _ hmem, hne, hlt, ?_⟩
        intro w hw hw0
        rcases mem_cons.1 hw with rfl | hw
        · exact hlt.le.trans (hcv hw0)
        · exact hmin w hw hw0

/-- `x` is a value of least magnitude among the non-zero ones, below the
sentinel. -/
def Least (vs : List ℚ) (x : ℚ) : Prop :=
  x ∈ vs ∧ x ≠ 0 ∧ |x| < |unsignedMax|
    ∧ ∀ v ∈ vs, v ≠ 0 → |x| ≤ |v|

/-- The cell that `Set_Sketch_With_Max`, the choices and `Merge_Zero`
leave. -/
def mergeCell (vs : List ℚ) : ℚ :=
  let m := vs.foldl chooseMin unsignedMax
  if m = unsignedMax then 0 else m

theorem foldl_chooseMin_least (vs : List ℚ) :
    (vs.foldl chooseMin unsignedMax = unsignedMax ∧ ∀ x, ¬ Least vs x)
      ∨ Least vs (vs.foldl chooseMin unsignedMax) := by
  rcases foldl_chooseMin_spec vs unsignedMax with
    ⟨heq, hmin⟩ | ⟨hmem, hne, hlt, hmin⟩
  · refine .inl ⟨heq, ?_⟩
    intro x hmin
    obtain ⟨hx, hx0, hxlt, -⟩ := hmin
    exact absurd hxlt (not_lt.mpr (hmin x hx hx0))
  · exact .inr ⟨hmem, hne, hlt, hmin⟩

variable {vs : List ℚ}

section

variable {ws : List ℚ} (hmem : ∀ v, v ∈ vs ↔ v ∈ ws)
include hmem

theorem least_congr (x : ℚ) : Least vs x ↔ Least ws x := by
  unfold Least
  simp only [hmem]

/-- Without a tie of signs the merged cell depends on the set of values
only. -/
theorem mergeCell_congr (hties : ∀ x, Least vs x → -x ∉ vs) : mergeCell vs = mergeCell ws := by
  have hfold : vs.foldl chooseMin unsignedMax
      = ws.foldl chooseMin unsignedMax := by
    rcases foldl_chooseMin_least vs with ⟨heq, hno⟩ | hleast
    · rcases foldl_chooseMin_least ws with ⟨heq', -⟩ | hleast'
      · rw [heq, heq']
      · exact absurd ((least_congr hmem _).mpr hleast') (hno _)
    · rcases foldl_chooseMin_least ws with ⟨-, hno'⟩ | hleast'
      · exact absurd ((least_congr hmem _).mp hleast) (hno' _)
      · -- two values of least magnitude agree up to sign
        generalize vs.foldl chooseMin unsignedMax = x at hleast ⊢
        generalize ws.foldl chooseMin unsignedMax = y at hleast' ⊢
        have hy := (least_congr hmem _).mpr hleast'
        have habs : |x| = |y| :=
          le_antisymm (hleast.2.2.2 y hy.1 hy.2.1)
            (hy.2.2.2 x hleast.1 hleast.2.1)
        rcases abs_eq_abs.mp habs with heq | hneg
        · exact heq
        · exact absurd (hneg ▸ hleast.1) (hties y hy)
  unfold mergeCell
  rw [hfold]

end

/-- A value of least magnitude that comes first is the merged cell. -/
theorem mergeCell_head {v : ℚ} (h : Least (v :: vs) v) : mergeCell (v :: vs) = v := by
  obtain ⟨-, hv0, hlt, hmin⟩ := h
  have hstart : chooseMin unsignedMax v = v := if_pos ⟨hv0, hlt⟩
  have hfold : (v :: vs).foldl chooseMin unsignedMax = v := by
    rw [foldl_cons, hstart]
    rcases foldl_chooseMin_spec vs v with ⟨heq, -⟩ | ⟨hmem, hne, hlt', -⟩
    · exact heq
    · have := hmin _ (mem_cons_of_mem _ hmem) hne
      exact absurd hlt' (not_lt.mpr this)
  have hnot : v ≠ unsignedMax := by
    intro heq
    rw [heq] at hlt
    exact lt_irrefl _ hlt
  unfold mergeCell
  rw [hfold]
  exact if_neg hnot

-- ======== a list of columns

theorem foldl_chooseSketchMinVal (dims : FagmsDims) (cols : List Nat) (s : FagmsSketch) (i : Nat) :
    (cols.foldl (fun s idx => s.chooseSketchMinVal dims idx) s).sketchElem i
      = if i < dims.cells then
          (cols.map fun idx => s.separateSketchElem idx i).foldl chooseMin (s.sketchElem i)
        else s.sketchElem i := by
  induction cols generalizing s with
  | nil => simp
  | cons idx cols ih =>
    rw [foldl_cons, ih]
    by_cases hi : i < dims.cells
    · simp [hi, chooseSketchMinVal, setCells]
    · simp [hi, chooseSketchMinVal, setCells]

variable {i : Nat}

theorem mergeChosen_elem {dims : FagmsDims} (cols : List Nat) (s : FagmsSketch)
    (hi : i < dims.cells) : (mergeChosen dims cols s).sketchElem i
      = mergeCell (cols.map fun idx => s.separateSketchElem idx i) := by
  unfold mergeChosen mergeZero
  simp only [setCells, hi, if_true]
  rw [foldl_chooseSketchMinVal]
  simp only [hi, if_true, setSketchWithMax, setCells]
  rfl

/-- Where all values are below the sentinel, the merged cell is zero when
they all are, and otherwise one of least magnitude among the others. -/
theorem mergeCell_spec (hsmall : ∀ v ∈ vs, |v| < unsignedMax) :
    ((∀ v ∈ vs, v = 0) ∧ mergeCell vs = 0) ∨ Least vs (mergeCell vs) := by
  unfold mergeCell
  rcases foldl_chooseMin_least vs with ⟨heq, hno⟩ | hleast
  · rw [heq]
    refine .inl ⟨?_, if_pos rfl⟩
    rcases foldl_chooseMin_spec vs unsignedMax with ⟨-, hmin⟩ | ⟨-, -, hlt, -⟩
    · intro v hv
      by_contra hv0
      have hle := hmin v hv hv0
      have habs : unsignedMax ≤ |unsignedMax| := le_abs_self _
      exact absurd (hsmall v hv) (not_lt.mpr (habs.trans hle))
    · rw [heq] at hlt
      exact absurd hlt (lt_irrefl _)
  · have hnot : vs.foldl chooseMin unsignedMax ≠ unsignedMax := by
      intro heq
      have hlt := hleast.2.2.1
      rw [heq] at hlt
      exact lt_irrefl _ hlt
    rw [if_neg hnot]
    exact .inr hleast

/-- Every cell of the merged sketch is zero when all columns are zero
there, and otherwise one of their non-zero values of least magnitude. The
sentinel is never left. -/
theorem mergeChosen_spec (dims : FagmsDims) (s : FagmsSketch) (cols : List Nat)
    (hsmall : ∀ idx ∈ cols, ∀ i < dims.cells, |s.separateSketchElem idx i| < unsignedMax)
    (i : Nat) (hi : i < dims.cells) :
    ((∀ idx ∈ cols, s.separateSketchElem idx i = 0) → (mergeChosen dims cols s).sketchElem i = 0)
      ∧ ((∃ idx ∈ cols, s.separateSketchElem idx i ≠ 0) →
          ∃ idx ∈ cols, (mergeChosen dims cols s).sketchElem i = s.separateSketchElem idx i
            ∧ s.separateSketchElem idx i ≠ 0
            ∧ ∀ other ∈ cols, s.separateSketchElem other i ≠ 0 →
                |s.separateSketchElem idx i| ≤ |s.separateSketchElem other i|)
      ∧ (mergeChosen dims cols s).sketchElem i ≠ unsignedMax := by
  rw [mergeChosen_elem cols s hi]
  have hvalues : ∀ v ∈ cols.map fun idx => s.separateSketchElem idx i, |v| < unsignedMax := by
    intro v hv
    obtain ⟨idx, hidx, rfl⟩ := mem_map.mp hv
    exact hsmall idx hidx i hi
  have hpos : (0 : ℚ) ≠ unsignedMax := by
    unfold unsignedMax
    norm_num
  rcases mergeCell_spec hvalues with ⟨hzero, heq⟩ | hleast
  · rw [heq]
    refine ⟨fun _ => rfl, ?_, hpos⟩
    rintro ⟨idx, hidx, hne⟩
    exact absurd (hzero _ (mem_map_of_mem hidx)) hne
  · obtain ⟨hmem, hne, hlt, hmin⟩ := hleast
    obtain ⟨idx, hidx, heq⟩ := mem_map.mp hmem
    rw [← heq] at hne hlt hmin ⊢
    refine ⟨fun hzero => hzero idx hidx, fun _ => ⟨idx, hidx, rfl, hne, ?_⟩, ?_⟩
    · intro other hother hne'
      exact hmin _ (mem_map_of_mem hother) hne'
    · intro hmax
      rw [hmax] at hlt
      exact lt_irrefl _ hlt

/-- Three columns of one bucket: the zero is passed over, and the sign of
the smaller value is kept. -/
theorem mergeChosen_three :
    ∃ idx ∈ [0, 1, 2],
      (mergeChosen ⟨1, 1⟩ [0, 1, 2] ⟨3, fun _ => 0, fun c _ => [0, -3, 5].getD c 0⟩).sketchElem 0
        = [(0 : ℚ), -3, 5].getD idx 0 := by
  have h := mergeChosen_spec ⟨1, 1⟩ ⟨3, fun _ => 0, fun c _ => [0, -3, 5].getD c 0⟩ [0, 1, 2]
    (by decide +kernel) 0 (by decide)
  obtain ⟨idx, hidx, heq, -⟩ := h.2.1 ⟨1, by decide, by decide +kernel⟩
  exact ⟨idx, hidx, heq⟩

-- ======== one node's columns

variable (dims : FagmsDims) (joinCols : JoinCols)
variable (sketches : Nat → FagmsSketch)

/-- The values in one cell of the columns that join `node` to the nodes
of the traversal. -/
def joinValues (traversal : List Nat) (node i : Nat) : List ℚ :=
  (traversal.filterMap (joinIdx (joinCols node))).map fun idx =>
    (sketches node).separateSketchElem idx i

variable {dims joinCols sketches}

/-- The columns of the nodes of the traversal, merged as any list of
columns is. -/
theorem mergeColumns_eq (traversal : List Nat) (node : Nat) (s : FagmsSketch) :
    mergeColumns dims joinCols traversal node s
      = mergeChosen dims (traversal.filterMap (joinIdx (joinCols node))) s := by
  have hloop : ∀ s : FagmsSketch, traversal.foldl (chooseJoinColumn dims joinCols node) s
        = (traversal.filterMap (joinIdx (joinCols node))).foldl
            (fun s idx => s.chooseSketchMinVal dims idx) s := by
    induction traversal with
    | nil => exact fun _ => rfl
    | cons other traversal ih =>
      intro s
      rw [foldl_cons, ih]
      cases hidx : joinIdx (joinCols node) other with
      | none => simp only [chooseJoinColumn, hidx, filterMap_cons_none]
      | some idx =>
        simp only [chooseJoinColumn, hidx, filterMap_cons_some hidx, foldl_cons]
  unfold mergeColumns mergeChosen
  rw [hloop]

theorem mergeColumns_elem (traversal : List Nat) (node : Nat) (hi : i < dims.cells) :
    (mergeColumns dims joinCols traversal node (sketches node)).sketchElem i
      = mergeCell (joinValues joinCols sketches traversal node i) := by
  rw [mergeColumns_eq, mergeChosen_elem _ _ hi]
  rfl

theorem mergeNodeSketches_mem {traversal : List Nat} (hnd : traversal.Nodup)
    {node : Nat} (hnode : node ∈ traversal) :
    mergeNodeSketches dims joinCols traversal sketches node
      = mergeColumns dims joinCols traversal node (sketches node) := by
  -- generalise the list the loop still has to visit
  have hloop : ∀ (todo : List Nat) (sk : Nat → FagmsSketch), todo.Nodup →
      (todo.foldl (fun sk node => setSketch sk node
        (mergeColumns dims joinCols traversal node (sk node))) sk) node
        = if node ∈ todo then
            mergeColumns dims joinCols traversal node (sk node)
          else sk node := by
    intro todo
    induction todo with
    | nil => simp
    | cons n todo ih =>
      intro sk hnd
      obtain ⟨hn, hnd⟩ := nodup_cons.1 hnd
      rw [foldl_cons, ih _ hnd]
      by_cases heq : node = n
      · subst heq
        simp [hn, setSketch]
      · simp [heq, setSketch]
  rw [mergeNodeSketches, hloop traversal sketches hnd, if_pos hnode]

-- ======== the product

/-- The estimate from the working arrays of all joined nodes. -/
def joinSize (dims : FagmsDims) (elems : List (Nat → ℚ)) : ℚ :=
  median ((List.range dims.rowsNo).map fun i =>
    |(List.range dims.bucketsNo).foldl (fun est j =>
      est + (elems.map fun e =>
        nonZero (e (i * dims.bucketsNo + j))).prod) 0|)

theorem foldl_mul_eq {α : Type _} (f : α → ℚ) (l : List α) (b : ℚ) :
    l.foldl (fun bp t => bp * f t) b = b * (l.map f).prod := by
  induction l generalizing b with
  | nil => simp
  | cons a l ih => rw [foldl_cons, ih, map_cons, prod_cons, mul_assoc]

theorem sizeOfJoins_eq (s : FagmsSketch) (s1 : List FagmsSketch) :
    s.sizeOfJoins dims s1
      = joinSize dims ((s :: s1).map FagmsSketch.sketchElem) := by
  unfold sizeOfJoins joinSize
  simp only [foldl_mul_eq, map_cons, prod_cons, map_map]
  rfl

theorem sizeOfJoin_eq (s s1 : FagmsSketch) :
    s.sizeOfJoin dims s1 = joinSize dims [s.sketchElem, s1.sketchElem] := by
  unfold sizeOfJoin joinSize
  simp only [map_cons, map_nil, prod_cons, prod_nil, mul_one]

theorem joinSize_perm {es fs : List (Nat → ℚ)} (h : es.Perm fs) :
    joinSize dims es = joinSize dims fs := by
  unfold joinSize
  have hprod : ∀ cell, (es.map fun e => nonZero (e cell)).prod
      = (fs.map fun e => nonZero (e cell)).prod :=
    fun cell => (h.map _).prod_eq
  simp only [hprod]

/-- Only the cells of the sketches matter. -/
theorem joinSize_congr {l : List Nat} {e f : Nat → Nat → ℚ}
    (h : ∀ n ∈ l, ∀ i < dims.cells, e n i = f n i) :
    joinSize dims (l.map e) = joinSize dims (l.map f) := by
  unfold joinSize
  congr 1
  refine map_congr_left fun i hi => ?_
  congr 1
  refine foldl_ext _ _ _ fun est j hj => ?_
  have hcell : i * dims.bucketsNo + j < dims.cells := by
    have hi := mem_range.mp hi
    have hj := mem_range.mp hj
    calc i * dims.bucketsNo + j < (i + 1) * dims.bucketsNo := by
          rw [Nat.add_mul]
          omega
      _ ≤ dims.rowsNo * dims.bucketsNo := Nat.mul_le_mul_right _ hi
      _ = dims.bucketsNo * dims.rowsNo := Nat.mul_comm _ _
  rw [map_map, map_map]
  congr 2
  refine map_congr_left fun n hn => ?_
  simp only [comp_apply, h n hn _ hcell]

-- ======== the estimate

variable (dims joinCols sketches)

/-- The estimate of an order, with an empty memo. -/
def freshEstimate (order : List Nat) : ℚ :=
  (estimateJoinSize dims joinCols order ⟨fun _ => none, sketches⟩).1

/-- The sketches the estimate of an order leaves, with an empty memo. -/
def sketchesAfter (order : List Nat) : Nat → FagmsSketch :=
  (estimateJoinSize dims joinCols order
    ⟨fun _ => none, sketches⟩).2.fagmsSketches

/-- Some cell of a node's join columns into `nodes` holds its least
non-zero magnitude with both signs. -/
def SignTie (nodes : List Nat) : Prop :=
  ∃ u ∈ nodes, ∃ i < dims.cells, ∃ x, Least (joinValues joinCols sketches nodes u i) x
      ∧ -x ∈ joinValues joinCols sketches nodes u i

variable {dims joinCols sketches}
variable {nodes : List Nat}

theorem mem_joinValues {u : Nat} {x : ℚ} :
    x ∈ joinValues joinCols sketches nodes u i ↔ ∃ v ∈ nodes, ∃ idx,
      joinIdx (joinCols u) v = some idx
        ∧ (sketches u).separateSketchElem idx i = x := by
  simp only [joinValues, mem_map, mem_filterMap]
  constructor
  · intro h
    obtain ⟨idx, ⟨v, hv, hidx⟩, hx⟩ := h
    exact ⟨v, hv, idx, hidx, hx⟩
  · intro h
    obtain ⟨v, hv, idx, hidx, hx⟩ := h
    exact ⟨idx, ⟨v, hv, hidx⟩, hx⟩

theorem joinValues_perm {l₁ l₂ : List Nat} (h : l₁.Perm l₂) (u i : Nat) :
    (joinValues joinCols sketches l₁ u i).Perm
      (joinValues joinCols sketches l₂ u i) :=
  (h.filterMap _).map _

section

variable {base n m : Nat} {rest : List Nat} (hnd : (base :: n :: m :: rest).Nodup)
include hnd

/-- More than two nodes are estimated from their merged sketches. -/
theorem estimate_merged : freshEstimate dims joinCols sketches (base :: n :: m :: rest)
      = joinSize dims ((base :: n :: m :: rest).map fun u i => mergeCell
          (joinValues joinCols sketches (base :: n :: m :: rest) u i)) := by
  have hest : freshEstimate dims joinCols sketches (base :: n :: m :: rest)
      = joinSize dims ((base :: n :: m :: rest).map fun u =>
          (mergeNodeSketches dims joinCols (base :: n :: m :: rest)
            sketches u).sketchElem) := by
    unfold freshEstimate estimateJoinSize
    simp only [sizeOfJoins_eq, map_cons, map_map]
    rfl
  rw [hest]
  refine joinSize_congr fun u hu i hi => ?_
  rw [mergeNodeSketches_mem hnd hu, mergeColumns_elem _ _ hi]

omit hnd in
/-- Two nodes are estimated from one column each, whichever comes
first. -/
theorem estimate_pair_comm {a b : Nat} (hne : a ≠ b) :
    freshEstimate dims joinCols sketches [a, b]
      = freshEstimate dims joinCols sketches [b, a] := by
  have hcomm : addJoinColumn dims joinCols
      (addJoinColumn dims joinCols sketches a b) b a
        = addJoinColumn dims joinCols
            (addJoinColumn dims joinCols sketches b a) a b := by
    unfold addJoinColumn
    cases joinIdx (joinCols a) b with
    | none => cases joinIdx (joinCols b) a <;> rfl
    | some p =>
      cases joinIdx (joinCols b) a with
      | none => rfl
      | some q =>
        simp only [setSketch, update_of_ne hne, update_of_ne hne.symm]
        exact update_comm hne _ _ _
  unfold freshEstimate estimateJoinSize
  simp only [sizeOfJoin_eq, hcomm]
  exact joinSize_perm (Perm.swap _ _ _)

theorem sketchesAfter_merged {u : Nat} (hu : u ∈ base :: n :: m :: rest)
    (hi : i < dims.cells) : (sketchesAfter dims joinCols sketches
        (base :: n :: m :: rest) u).sketchElem i
      = mergeCell (joinValues joinCols sketches
          (base :: n :: m :: rest) u i) := by
  have hafter : sketchesAfter dims joinCols sketches (base :: n :: m :: rest)
      = mergeNodeSketches dims joinCols (base :: n :: m :: rest) sketches :=
    rfl
  rw [hafter, mergeNodeSketches_mem hnd hu, mergeColumns_elem _ _ hi]

end

theorem estimate_perm_of_no_tie {order : List Nat} (hnd : nodes.Nodup) (h2 : 2 ≤ nodes.length)
    (hties : ¬ SignTie dims joinCols sketches nodes) (hperm : order.Perm nodes) :
    freshEstimate dims joinCols sketches order
      = freshEstimate dims joinCols sketches nodes := by
  match nodes, order, hperm.length_eq with
  | [a, b], [c, d], _ =>
    have hab : a ≠ b := by simpa using hnd
    have hc : c = a ∨ c = b := by simpa using hperm.mem_iff.mp (by simp)
    rcases hc with rfl | rfl
    · have hd := (perm_cons c).mp hperm
      rw [singleton_perm_singleton.mp hd]
    · have hd := (perm_cons c).mp (hperm.trans (Perm.swap c a []))
      rw [singleton_perm_singleton.mp hd]
      exact (estimate_pair_comm hab).symm
  | a :: b :: c :: nodes, x :: y :: z :: order, _ =>
    have hnd' := hperm.nodup_iff.mpr hnd
    rw [estimate_merged hnd, estimate_merged hnd']
    -- the merged cells agree node by node, then the product commutes
    have hcell : ∀ u ∈ x :: y :: z :: order, ∀ i < dims.cells,
        mergeCell (joinValues joinCols sketches (x :: y :: z :: order) u i)
          = mergeCell (joinValues joinCols sketches
              (a :: b :: c :: nodes) u i) := by
      intro u hu i hi
      refine (mergeCell_congr (fun v =>
        (joinValues_perm hperm.symm u i).mem_iff) ?_).symm
      intro v hleast hneg
      exact hties ⟨u, hperm.mem_iff.mp hu, i, hi, v, hleast, hneg⟩
    rw [joinSize_congr hcell]
    exact joinSize_perm (hperm.map _)

/-- A tie puts the sign of a merged cell at the mercy of the order: the
node whose column comes first wins. -/
theorem exists_orders_of_tie (hnd : nodes.Nodup) (h3 : 3 ≤ nodes.length)
    (htie : SignTie dims joinCols sketches nodes) :
    ∃ l₁ l₂, l₁.Perm nodes ∧ l₂.Perm nodes ∧ ∃ u ∈ nodes, ∃ i < dims.cells,
        (sketchesAfter dims joinCols sketches l₁ u).sketchElem i
          ≠ (sketchesAfter dims joinCols sketches l₂ u).sketchElem i := by
  obtain ⟨u, hu, i, hi, x, hleast, hneg⟩ := htie
  obtain ⟨v, hv, p, hp, hpx⟩ := mem_joinValues.mp hleast.1
  obtain ⟨w, hw, q, hq, hqx⟩ := mem_joinValues.mp hneg
  have hvw : v ≠ w := by
    intro heq
    subst heq
    have hpq : p = q := Option.some.inj (hp.symm.trans hq)
    have hzero : x = -x := by
      rw [← hpq] at hqx
      exact hpx.symm.trans hqx
    exact hleast.2.1 (by linarith)
  obtain ⟨rest, hrest⟩ : ∃ rest, (v :: w :: rest).Perm nodes := by
    have hw' : w ∈ nodes.erase v := (mem_erase_of_ne hvw.symm).mpr hw
    exact ⟨(nodes.erase v).erase w, ((perm_cons_erase hw').symm.cons v).trans
        (perm_cons_erase hv).symm⟩
  have hswap := (Perm.swap v w rest).trans hrest
  refine ⟨v :: w :: rest, w :: v :: rest, hrest, hswap, u, hu, i, hi, ?_⟩
  -- in each order the first of the two tied columns decides the cell
  have hcell : ∀ (a b : Nat) (idx : Nat) (y : ℚ),
      (a :: b :: rest).Perm nodes → joinIdx (joinCols u) a = some idx →
      (sketches u).separateSketchElem idx i = y →
      Least (joinValues joinCols sketches nodes u i) y →
      (sketchesAfter dims joinCols sketches (a :: b :: rest) u).sketchElem i
        = y := by
    intro a b idx y hab hidx hy hlst
    cases rest with
    | nil =>
      have := hab.length_eq
      simp only [length_cons, length_nil] at this
      omega
    | cons c rest =>
      have hhead : joinValues joinCols sketches (a :: b :: c :: rest) u i
          = y :: joinValues joinCols sketches (b :: c :: rest) u i := by
        simp only [joinValues, filterMap_cons_some hidx, map_cons, hy]
      rw [sketchesAfter_merged (hab.nodup_iff.mpr hnd)
        (hab.mem_iff.mpr hu) hi, hhead]
      refine mergeCell_head ?_
      rw [← hhead]
      exact (least_congr (fun v => (joinValues_perm hab u i).mem_iff)
        y).mpr hlst
  have hleast' : Least (joinValues joinCols sketches nodes u i) (-x) := by
    refine ⟨hneg, neg_ne_zero.mpr hleast.2.1, ?_, ?_⟩
    · rw [abs_neg]
      exact hleast.2.2.1
    · rw [abs_neg]
      exact hleast.2.2.2
  rw [hcell v w p x hrest hp hpx hleast, hcell w v q (-x) hswap hq hqx hleast']
  intro heq
  exact hleast.2.1 (by linarith)

/-- The estimate of a set of nodes is the same for all its orders if no
cell ties with opposite signs; where one does, two orders of three or
more nodes multiply different merged sketches. -/
theorem estimate_order_independent (nodes : List Nat) (hnd : nodes.Nodup) (h2 : 2 ≤ nodes.length) :
    (¬ SignTie dims joinCols sketches nodes → ∀ l₁ l₂ : List Nat, l₁.Perm nodes → l₂.Perm nodes →
        freshEstimate dims joinCols sketches l₁
          = freshEstimate dims joinCols sketches l₂)
      ∧ (SignTie dims joinCols sketches nodes → 3 ≤ nodes.length →
        ∃ l₁ l₂, l₁.Perm nodes ∧ l₂.Perm nodes ∧ ∃ u ∈ nodes, ∃ i < dims.cells,
            (sketchesAfter dims joinCols sketches l₁ u).sketchElem i
              ≠ (sketchesAfter dims joinCols sketches l₂ u).sketchElem i) := by
  constructor
  · intro hties l₁ l₂ h₁ h₂
    rw [estimate_perm_of_no_tie hnd h2 hties h₁, estimate_perm_of_no_tie hnd h2 hties h₂]
  · intro htie h3
    exact exists_orders_of_tie hnd h3 htie

-- ======== a star of three nodes

def starDims : FagmsDims := ⟨2, 1⟩

/-- Node 0 joins node 1 over its column 0 and node 2 over its column 1. -/
def starCols : JoinCols
  | 0 => [⟨1, 0, 1, 2, 0⟩, ⟨1, 1, 2, 3, 0⟩]
  | 1 => [⟨2, 0, 0, 1, 0⟩]
  | 2 => [⟨3, 0, 0, 1, 1⟩]
  | _ => []

/-- All cells are 1, except that column 1 of node 0 has `cell` in its
first bucket. -/
def starSketches (cell : ℚ) (node : Nat) : FagmsSketch :=
  { keysNo := if node = 0 then 2 else 1
    sketchElem := fun _ => 0
    separateSketchElem := fun col i =>
      if node = 0 ∧ col = 1 ∧ i = 0 then cell else 1 }

theorem estimate_order_independent_star :
    freshEstimate starDims starCols (starSketches 3) [0, 1, 2]
      = freshEstimate starDims starCols (starSketches 3) [2, 0, 1] := by
  refine (estimate_order_independent [0, 1, 2] (by decide) (by decide)).1 ?_
    _ _ (List.Perm.refl _) (by decide)
  intro h
  obtain ⟨u, hu, i, hi, x, hleast, hneg⟩ := h
  have hpos : ∀ col, 0 < (starSketches 3 u).separateSketchElem col i := by
    intro col
    simp only [starSketches]
    split <;> norm_num
  obtain ⟨-, -, p, -, hp⟩ := mem_joinValues.mp hleast.1
  obtain ⟨-, -, q, -, hq⟩ := mem_joinValues.mp hneg
  have hx := hpos p
  have hx' := hpos q
  linarith

/-- With a tie of signs in one cell the order decides: 2 against 0. -/
theorem estimate_order_dependent :
    [0, 1, 2].Perm [0, 2, 1]
      ∧ freshEstimate starDims starCols (starSketches (-1)) [0, 1, 2] = 2
      ∧ freshEstimate starDims starCols (starSketches (-1)) [0, 2, 1] = 0 := by
  refine ⟨by decide, ?_, ?_⟩
  · decide +kernel
  · decide +kernel

end Compass.JoinOrder
