/-
BETWEEN compares at the type that the argument and the lower bound have in
common, the upper bound too.

Of the exact numeric types only the kind and the scale matter. The common
type has the larger kind and the larger scale, and it stays what it is when
one of the two types has already become it (`analyze_exact`). A number that
fits keeps its value in the cast (`addCast_exact`).
-/
import Compass.Analyzer.Between
import Compass.Lib.Results
import Mathlib.Tactic.Ring

namespace Compass.Analyzer

open BinOper FixedPoint Option Function Int Prod

variable (conversions : Conversions) {A L T C C' : SQLTypeInfo} {row : Expr → Option Int}
  {e : Expr} {n : Int}

-- ======== types

/-- What the casts see of an exact numeric type. -/
structure Exact (ti : SQLTypeInfo) : Prop where
  compression : ti.compression = .kENCODING_NONE
  kind : ti.isInteger ∧ ti.scale = 0 ∨ ti.isDecimal ∧ 0 ≤ ti.scale

theorem ExactNumeric.exact (h : ExactNumeric T) : Exact T :=
  ⟨h.compression, h.kind.imp id fun h => ⟨h.1, h.2.1⟩⟩

/-- The kinds by their names. -/
theorem Exact.type_cases (h : Exact T) :
    ((T.type = .kINT ∨ T.type = .kSMALLINT) ∨ T.type = .kBIGINT) ∧ T.scale = 0
      ∨ (T.type = .kDECIMAL ∨ T.type = .kNUMERIC) ∧ 0 ≤ T.scale := by
  simpa only [SQLTypeInfo.isInteger, SQLTypeInfo.isDecimal, Bool.or_eq_true, beq_iff_eq]
    using h.kind

def rank : SQLTypes → Nat
  | .kSMALLINT => 0
  | .kINT => 1
  | .kBIGINT => 2
  | _ => 3

/-- Kind and scale. -/
def shape (ti : SQLTypeInfo) : Nat × Int :=
  (rank ti.type, ti.scale)

/-- The type that two types have in common. -/
structure Common (A L C : SQLTypeInfo) : Prop where
  exact : Exact C
  shape_eq : shape C = shape A ⊔ shape L

theorem commonNumericType_exact (hA : Exact A) (hL : Exact L) :
    ∃ C, BinOper.commonNumericType A L = .ok C ∧ Common A L C := by
  obtain ⟨hnoneA, hA⟩ := hA
  obtain ⟨hnoneL, hL⟩ := hL
  simp only [SQLTypeInfo.isInteger, SQLTypeInfo.isDecimal, Bool.or_eq_true, beq_iff_eq] at hA hL
  by_cases heq : A.type = L.type
  · refine ⟨.scaled A.type (max A.dimension L.dimension) (max A.scale L.scale)
      (A.notnull && L.notnull), ?_, ?_, ?_⟩
    · rw [commonNumericType, if_pos heq, if_pos]
      rcases hA with ⟨(hA | hA) | hA, -⟩ | ⟨hA | hA, -⟩ <;>
        simp [SQLTypeInfo.isNumber, ← heq, hA]
    · refine ⟨rfl, ?_⟩
      simp only [SQLTypeInfo.isInteger, SQLTypeInfo.isDecimal, SQLTypeInfo.scaled, SQLTypeInfo.make,
        Bool.or_eq_true, beq_iff_eq]
      rcases hA with ⟨hA, hsA⟩ | ⟨hA, hsA⟩
      · rcases hL with ⟨-, hsL⟩ | ⟨hL, -⟩
        · exact .inl ⟨hA, by omega⟩
        · rw [← heq] at hL
          rcases hA with (hA | hA) | hA <;> rcases hL with hL | hL <;>
            exact absurd (hA.symm.trans hL) (by decide)
      · exact .inr ⟨hA, by omega⟩
    · simp [shape, SQLTypeInfo.scaled, SQLTypeInfo.make, heq]
  · rw [commonNumericType, if_neg heq]
    rcases hA with ⟨(hA | hA) | hA, hsA⟩ | ⟨hA | hA, hsA⟩ <;>
      rcases hL with ⟨(hL | hL) | hL, hsL⟩ | ⟨hL | hL, hsL⟩ <;>
        first
        | exact absurd (hA.trans hL.symm) heq
        | refine ⟨_, by
            simp only [commonOfKinds, SQLTypeInfo.isTimeinterval, SQLTypeInfo.isNumber, hA, hL]
            rfl, ⟨rfl, ?_⟩, ?_⟩
    all_goals
      simp [SQLTypeInfo.isInteger, SQLTypeInfo.isDecimal, SQLTypeInfo.setFixedSize,
        SQLTypeInfo.plain, SQLTypeInfo.scaled, SQLTypeInfo.make, shape, rank, hA, hL]
    all_goals omega

theorem Exact.isNumber (h : Exact T) : T.isNumber = true := by
  rcases h.type_cases with ⟨(h | h) | h, -⟩ | ⟨h | h, -⟩ <;> simp [SQLTypeInfo.isNumber, h]

theorem Exact.isString (h : Exact T) : T.isString = false := by
  rcases h.type_cases with ⟨(h | h) | h, -⟩ | ⟨h | h, -⟩ <;> simp [SQLTypeInfo.isString, h]

/-- Both operands are to be cast to the common type. -/
theorem analyze_exact {op : SQLOps} (hop : op = .kGE ∨ op = .kLE) (hA : Exact A) (hL : Exact L) :
    ∃ types, BinOper.analyzeTypeInfo op A L = .ok types ∧
      Common A L types.newLeftType ∧ Common A L types.newRightType := by
  have hcompare : ∃ C C', compareTypes A L = .ok (C, C') ∧ Common A L C ∧
      Common A L C' := by
    by_cases hne : A.operatorNe L = true
    · obtain ⟨C, hC, hcommon⟩ := commonNumericType_exact hA hL
      refine ⟨{ C with notnull := A.notnull }, { C with notnull := L.notnull }, ?_,
        ⟨⟨hcommon.exact.1, hcommon.exact.2⟩, hcommon.shape_eq⟩,
        ⟨⟨hcommon.exact.1, hcommon.exact.2⟩, hcommon.shape_eq⟩⟩
      simp [compareTypes, hne, hA.isNumber, hL.isNumber, hC, bind, Except.bind, pure, Except.pure]
    · have hshape : shape L = shape A := by
        simp only [SQLTypeInfo.operatorNe, Bool.or_eq_true, bne_iff_ne, not_or, not_not] at hne
        rw [shape, shape, hne.1.1.1.1.1.1, hne.1.1.1.2]
      refine ⟨A, L, by rw [compareTypes, if_neg hne], ⟨hA, ?_⟩, hL, ?_⟩
      · rw [hshape, sup_idem]
      · rw [hshape, sup_idem]
  obtain ⟨C, C', hC, hcommon, hcommon'⟩ := hcompare
  have hlogic : isLogic op = false := by rcases hop with rfl | rfl <;> rfl
  have hcomparison : op.isComparison = true := by rcases hop with rfl | rfl <;> rfl
  refine ⟨⟨{ SQLTypeInfo.plain .kBOOLEAN false with notnull := A.notnull && L.notnull }, C, C'⟩,
    ?_, hcommon, hcommon'⟩
  simp [analyzeTypeInfo, operTypes, hlogic, hcomparison, hC, bind, Except.bind, pure, Except.pure]

/-- The common type is the same when a type has become it. -/
theorem Common.again {A' L' : SQLTypeInfo} (h : Common A' L' C') (hA : shape A' = shape A ∨
    shape A' = shape A ⊔ shape L) (hL : shape L' = shape L ∨ shape L' = shape A ⊔ shape L) :
    Common A L C' := by
  refine ⟨h.exact, h.shape_eq.trans ?_⟩
  rcases hA with hA | hA <;> rcases hL with hL | hL <;> simp [hA, hL]

-- ======== casts

/-- The number of digits that a cast puts behind the point. -/
def more (T C : SQLTypeInfo) : Nat :=
  (C.scale - T.scale).toNat

/-- The largest integer that a type is stored in. -/
def storageMax (ti : SQLTypeInfo) : Int :=
  2 ^ (bitWidth ti.type - 1) - 1

theorem bitWidth_pos (t : SQLTypes) : 16 ≤ bitWidth t ∧ bitWidth t ≤ 64 := by
  cases t <;> decide

theorem bmod_of_le (h : |n| ≤ storageMax T) : n.bmod (2 ^ bitWidth T.type) = n := by
  obtain ⟨hpos, -⟩ := bitWidth_pos T.type
  obtain ⟨w, hw⟩ : ∃ w, bitWidth T.type = w + 1 := ⟨bitWidth T.type - 1, by omega⟩
  rw [storageMax, hw, Nat.add_sub_cancel] at h
  have hle := abs_le.1 h
  refine bmod_eq_of_le_mul_two ?_ ?_ <;> rw [hw, pow_succ] <;> push_cast <;> omega

theorem truncate_ofInt {w : Nat} (hw : w ≤ 64) (n : Int) :
    ((BitVec.ofInt 64 n).truncate w).toInt = n.bmod (2 ^ w) := by
  have hdvd : ((2 : Int) ^ w) ∣ 2 ^ 64 := pow_dvd_pow 2 hw
  rw [BitVec.truncate_eq_setWidth, BitVec.toInt_setWidth, ← emod_bmod]
  have hnat : ((BitVec.ofInt 64 n).toNat : Int) = n % 2 ^ 64 := by
    rw [BitVec.toNat_ofInt, toNat_of_nonneg (emod_nonneg _ (by decide))]
    rfl
  rw [hnat, Nat.cast_pow, Nat.cast_ofNat, emod_emod_of_dvd n hdvd]
  exact_mod_cast emod_bmod n (2 ^ w)

/-- Of an integer a type keeps the bits that it has. -/
theorem number_ofInt (T : SQLTypeInfo) (n : Int) :
    (Datum.ofInt n).number T = n.bmod (2 ^ bitWidth T.type) := by
  unfold Datum.number bitWidth
  split
  · exact truncate_ofInt (by decide) n
  · exact truncate_ofInt (by decide) n
  · exact BitVec.toInt_ofInt n

theorem Exact.storageMax_of_decimal (hC : C.isDecimal = true) : storageMax C = 2 ^ 63 - 1 := by
  simp only [SQLTypeInfo.isDecimal, Bool.or_eq_true, beq_iff_eq] at hC
  rcases hC with hC | hC <;> simp [storageMax, bitWidth, hC]

theorem Exact.isDecimal_of_integer (hC : C.isInteger = true) : C.isDecimal = false := by
  simp only [SQLTypeInfo.isInteger, Bool.or_eq_true, beq_iff_eq] at hC
  rcases hC with (hC | hC) | hC <;> simp [SQLTypeInfo.isDecimal, hC]

section

variable (hT : Exact T)
include hT

theorem Exact.scale_nonneg : 0 ≤ T.scale := by
  rcases hT.kind with h | h
  · exact h.2.ge
  · exact h.2

/-- What fits in an integer type has no digits behind the point. -/
theorem Exact.scale_zero (hC : Exact C) (hscale : T.scale ≤ C.scale)
    (hint : C.isDecimal = false) : C.scale = 0 ∧ T.scale = 0 := by
  have hnonneg := hT.scale_nonneg
  rcases hC.kind with ⟨-, hzero⟩ | ⟨hdecimal, -⟩
  · omega
  · rw [hint] at hdecimal
    cases hdecimal

/-- The cast of a column keeps a number that fits. -/
theorem codegenCast_exact (hC : Exact C) (hscale : T.scale ≤ C.scale)
    (hfits : |n| * 10 ^ more T C ≤ storageMax C) :
    codegenCast T C n = some (n * 10 ^ more T C) := by
  have hbmod : (n * 10 ^ more T C).bmod (2 ^ bitWidth C.type) = n * 10 ^ more T C := by
    refine bmod_of_le ?_
    rwa [abs_mul, abs_of_nonneg (by positivity : (0 : Int) ≤ 10 ^ more T C)]
  unfold codegenCast
  by_cases hdecimal : C.isDecimal = true
  · rw [if_pos hdecimal, if_neg (by omega)]
    split
    · have hmax := Exact.storageMax_of_decimal hdecimal
      have hwidth : bitWidth C.type = 64 := by
        simp only [SQLTypeInfo.isDecimal, Bool.or_eq_true, beq_iff_eq] at hdecimal
        rcases hdecimal with h | h <;> simp [bitWidth, h]
      rw [hwidth] at hbmod
      have hle : n ≤ (2 ^ 63 - 1 : Int).tdiv (10 ^ (C.scale - T.scale).toNat) := by
        rw [Int.tdiv_eq_ediv_of_nonneg (by decide), Int.le_ediv_iff_mul_le (by positivity), ← hmax]
        exact (mul_le_mul_of_nonneg_right (le_abs_self n) (by positivity)).trans hfits
      rw [if_neg (not_lt.2 hle)]
      exact congrArg some hbmod
    · have hzero : more T C = 0 := by
        unfold more
        omega
      rw [hzero, pow_zero, mul_one]
  · rw [Bool.not_eq_true] at hdecimal
    obtain ⟨hC0, hT0⟩ := hT.scale_zero hC hscale hdecimal
    have hzero : more T C = 0 := by
      unfold more
      omega
    rw [hzero, pow_zero, mul_one] at hbmod ⊢
    simp [hdecimal, hT0, hbmod]

omit hT in
/-- An integer is cast by its number. -/
theorem castInteger_exact (hC : Exact C) (hT : T.scale = 0) (d : Datum) (n : Int) :
    Constant.castInteger conversions T C d n = .ok (.ofInt (n * 10 ^ more T C)) := by
  rcases hC.type_cases with ⟨h, hs⟩ | ⟨h, -⟩
  · rcases h with (h | h) | h <;> simp [Constant.castInteger, more, h, hs, hT]
  · rcases h with h | h <;> simp [Constant.castInteger, more, h, hT]

/-- A decimal is cast by its number where no digit is lost. -/
theorem castDecimal_exact (hC : Exact C) (hscale : T.scale ≤ C.scale) (d : Datum) :
    Constant.castDecimal conversions T C d = .ok (.ofInt (d.bigintval * 10 ^ more T C)) := by
  have hnonneg := hT.scale_nonneg
  have hconvert : convertDecimalValueToScale d.bigintval T C = d.bigintval * 10 ^ more T C := by
    unfold convertDecimalValueToScale more
    split
    · rfl
    · rw [show (C.scale - T.scale).toNat = 0 by omega, show (T.scale - C.scale).toNat = 0 by omega,
        iterate_zero, id, pow_zero, mul_one]
  rcases hC.type_cases with ⟨h, hs⟩ | ⟨h, -⟩
  · have hzero : T.scale = 0 := by omega
    rcases h with (h | h) | h <;> simp [Constant.castDecimal, more, h, hs, hzero]
  · rcases h with h | h <;> simp only [Constant.castDecimal, h, hconvert]

omit hT in
/-- A literal is cast by its number where no digit is lost. -/
theorem castNumber_exact {d : Datum} (hd : d.number T = n) (hT : Exact T) (hC : Exact C)
    (hscale : T.scale ≤ C.scale) :
    Constant.castNumber conversions T C d = .ok (.ofInt (n * 10 ^ more T C)) := by
  rcases hT.type_cases with ⟨h, hs⟩ | ⟨h, -⟩
  · rcases h with (h | h) | h <;> simpa [Constant.castNumber, h, ← hd, Datum.number] using
      castInteger_exact conversions hC hs d _
  · rcases h with h | h <;> simpa [Constant.castNumber, h, ← hd, Datum.number] using
      castDecimal_exact conversions hT hC hscale d

theorem Exact.more_eq : C.scale - (if T.isDecimal then T.scale else 0) = C.scale - T.scale := by
  rcases hT.kind with ⟨hint, hs⟩ | ⟨hdecimal, -⟩
  · simp [Exact.isDecimal_of_integer hint, hs]
  · simp [hdecimal]

/-- A cast to a decimal that loses no digit is defined if the product fits. -/
theorem castDefined_iff (hscale : T.scale ≤ C.scale) (hdecimal : C.isDecimal = true) :
    Constant.castDefined T C n = true ↔ fitsInt64 (n * 10 ^ more T C) = true := by
  have hnonneg : 0 ≤ C.scale - T.scale := by omega
  simp only [Constant.castDefined, hT.more_eq, hdecimal, hnonneg, Bool.not_true, if_true, more,
    Bool.false_eq_true, if_false]

theorem castDefined_of_fits (hscale : T.scale ≤ C.scale)
    (hfits : |n| * 10 ^ more T C ≤ storageMax C) : Constant.castDefined T C n = true := by
  by_cases hdecimal : C.isDecimal = true
  · rw [castDefined_iff hT hscale hdecimal]
    rw [Exact.storageMax_of_decimal hdecimal,
      ← abs_of_nonneg (by positivity : (0 : Int) ≤ 10 ^ more T C), ← abs_mul, abs_le] at hfits
    simp only [fitsInt64, decide_eq_true_eq]
    omega
  · simp [Constant.castDefined, hdecimal]

theorem Exact.isExact : T.isExact = true := by
  rcases hT.kind with ⟨h, -⟩ | ⟨h, -⟩ <;> simp [SQLTypeInfo.isExact, h]

omit hT in
theorem shape_of_operatorEq (h : T.operatorEq C = true) : shape T = shape C := by
  simp only [SQLTypeInfo.operatorEq, Bool.and_eq_true, beq_iff_eq] at h
  rw [shape, shape, h.1.1.1.1.1.1, h.1.1.1.2]

/-- A literal is cast by `cast_number` where that is defined. -/
theorem addCast_literal (hC : Exact C) (hne : T.operatorEq C = false) {d d' : Datum}
    (hdefined : Constant.castDefined T C (d.number T) = true)
    (hcast : Constant.castNumber conversions T C d = .ok d') :
    addCast conversions (.constant T false d) C = .ok (.constant C false d') := by
  have hcomp : ¬ (C.compression ≠ T.compression) := by
    rw [hT.compression, hC.compression, ne_eq, not_not]
  simp [addCast, constantAddCast, hdefined, Constant.addCast, hcomp, Constant.doCast, hne,
    hT.isNumber, hC.isNumber, hcast, bind, Except.bind, pure, Except.pure, Except.mapError]

theorem addCast_literal_same (hC : Exact C) (heq : T.operatorEq C = true)
    (d : Datum) : addCast conversions (.constant T false d) C = .ok (.constant T false d) := by
  have hcomp : ¬ (C.compression ≠ T.compression) := by
    rw [hT.compression, hC.compression, ne_eq, not_not]
  simp [addCast, constantAddCast, Constant.addCast, hcomp, Constant.doCast, heq, bind, Except.bind,
    pure, Except.pure, Except.mapError]

/-- A literal whose product does not fit has no cast. -/
theorem addCast_overflow (hC : Exact C) (hne : T.operatorEq C = false) {d : Datum}
    (hdefined : Constant.castDefined T C (d.number T) = false) :
    addCast conversions (.constant T false d) C = .error .overflow := by
  simp [addCast, constantAddCast, hdefined, hne, hT.isExact, hC.isExact]

/-- A column is cast on the row, or is of the type already. -/
theorem addCast_column (hC : Exact C) (tableId columnId rteIdx : Int) :
    addCast conversions (.columnVar T tableId columnId rteIdx) C =
      .ok (if C.operatorEq T then .columnVar T tableId columnId rteIdx
        else .uoper C false .kCAST (.columnVar T tableId columnId rteIdx)) := by
  have hcastable : T.isCastable C = true := by
    simp [SQLTypeInfo.isCastable, hT.isNumber, hC.isNumber]
  have hstring := hC.isString
  by_cases heq : C.operatorEq T = true
  · simp [addCast, Expr.addCast, Expr.typeInfo, heq, Except.mapError]
  · simp [addCast, Expr.addCast, Expr.typeInfo, heq, hcastable, hstring, Expr.getContainsAgg,
      Except.mapError]

theorem decompress_of_exact (h : e.typeInfo = T) : decompress e = e :=
  if_pos (h ▸ hT.compression)

end

section

variable (h : Operand row T n e)
include h

theorem Operand.number_eq : number row e = some n := by
  cases h with
  | literal d hd => rw [number, if_neg Bool.false_ne_true, hd]
  | column tableId columnId rteIdx hrow => simp [number, hrow]

/-- What an operand that fits is cast to, and what is left of it where it
stood. -/
theorem addCast_exact (hT : Exact T) (hC : Exact C)
    (hscale : T.scale ≤ C.scale) (hfits : |n| * 10 ^ more T C ≤ storageMax C) :
    ∃ result, addCast conversions e C = .ok result ∧
      number row (decompress result) = some (n * 10 ^ more T C) ∧
      ∃ T', Operand row T' (n * 10 ^ more T T') (afterCast result e) ∧ Exact T' ∧
        (shape T' = shape T ∨ shape T' = shape C) := by
  cases h with
  | literal d hd =>
    by_cases heq : T.operatorEq C = true
    · have hshape := shape_of_operatorEq heq
      have hzero : more T C = 0 := by rw [more, (mk.inj hshape).2, sub_self, toNat_zero]
      have hself : more T T = 0 := by rw [more, sub_self, toNat_zero]
      refine ⟨_, addCast_literal_same conversions hT hC heq d, ?_, T, ?_, hT, .inl rfl⟩
      · rw [decompress_of_exact hT rfl, number, if_neg Bool.false_ne_true, hd, hzero, pow_zero,
          mul_one]
      · rw [hself, pow_zero, mul_one]
        exact .literal d hd
    · have hnumber : (Datum.ofInt (n * 10 ^ more T C)).number C = n * 10 ^ more T C := by
        rw [number_ofInt, bmod_of_le]
        rwa [abs_mul, abs_of_nonneg (by positivity : (0 : Int) ≤ 10 ^ more T C)]
      refine ⟨_, addCast_literal conversions hT hC (Bool.eq_false_iff.2 heq)
        (hd ▸ castDefined_of_fits hT hscale hfits)
        (castNumber_exact conversions hd hT hC hscale), ?_, C, .literal _ hnumber, hC, .inr rfl⟩
      rw [decompress_of_exact hC rfl, number, if_neg Bool.false_ne_true, hnumber]
  | column tableId columnId rteIdx hrow =>
    have hnumber := (Operand.column tableId columnId rteIdx hrow).number_eq
    refine ⟨_, addCast_column conversions hT hC tableId columnId rteIdx, ?_, T, ?_, hT, .inl rfl⟩
    · split
      · rename_i heq
        have hzero : more T C = 0 := by
          have hshape := shape_of_operatorEq heq
          rw [more, (mk.inj hshape).2, sub_self, toNat_zero]
        rw [decompress_of_exact hT rfl, hnumber, hzero, pow_zero, mul_one]
      · rw [decompress_of_exact hC rfl, number, if_pos rfl, hnumber, bind_some]
        exact codegenCast_exact hT hC hscale hfits
    · have hzero : more T T = 0 := by rw [more, sub_self, toNat_zero]
      rw [hzero, pow_zero, mul_one]
      exact .column tableId columnId rteIdx hrow

-- ======== BETWEEN

theorem Operand.typeInfo : e.typeInfo = T := by
  cases h with
  | literal | column => rfl

theorem Operand.deepCopy (hT : Exact T) (alloc : Addr → Addr) : e.deepCopy alloc = .ok e := by
  cases h with
  | literal d hd => simp [Expr.deepCopy, Expr.deepCopyConstant, hT.isString]
  | column => simp [Expr.deepCopy]

end

theorem bitWidth_eq (t : SQLTypes) :
    bitWidth t = if rank t = 0 then 16 else if rank t = 1 then 32 else 64 := by
  cases t <;> rfl

theorem storageMax_of_shape (h : shape C = shape C') : storageMax C = storageMax C' := by
  rw [storageMax, storageMax, bitWidth_eq, bitWidth_eq, (mk.inj h).1]

theorem Common.scale_eq (h : Common A L C) : C.scale = max A.scale L.scale :=
  (mk.inj h.shape_eq).2

/-- A number that has been cast part of the way. -/
theorem mul_more (hscale : T.scale ≤ C.scale) (hscale' : C.scale ≤ C'.scale) (n : Int) :
    n * 10 ^ more T C * 10 ^ more C C' = n * 10 ^ more T C' := by
  rw [mul_assoc, ← pow_add]
  congr 2
  unfold more
  omega

/-- What the first comparison leaves of an operand is cast like the operand. -/
theorem addCast_again {a : Int} {arg : Expr} {A' : SQLTypeInfo}
    (h : Operand row A' (a * 10 ^ more A A') arg) (hA' : Exact A') (hC : Exact C')
    (hscale : A.scale ≤ A'.scale) (hscale' : A'.scale ≤ C'.scale)
    (hfits : |a| * 10 ^ more A C' ≤ storageMax C') :
    ∃ result, addCast conversions arg C' = .ok result ∧
      number row (decompress result) = some (a * 10 ^ more A C') := by
  have habs : |a * 10 ^ more A A'| * 10 ^ more A' C' = |a| * 10 ^ more A C' := by
    rw [abs_mul, abs_of_nonneg (by positivity : (0 : Int) ≤ 10 ^ more A A'),
      mul_more hscale hscale']
  obtain ⟨result, hcast, hnumber, -⟩ :=
    addCast_exact conversions h hA' hC hscale' (habs ▸ hfits)
  exact ⟨result, hcast, by rw [hnumber, mul_more hscale hscale']⟩

/-- The condition of BETWEEN, of the four operands that are compared. -/
def betweenOf (argCast lowerCast copyCast upperCast : Expr) : Expr :=
  makeBinOper .kBOOLEAN .kAND .kONE
    (makeBinOper .kBOOLEAN .kGE .kONE (decompress argCast) (decompress lowerCast))
    (makeBinOper .kBOOLEAN .kLE .kONE (decompress copyCast) (decompress upperCast))

/-- BETWEEN of an argument and a lower bound that fit: the upper bound is cast
to the type that they have in common. -/
theorem betweenAnalyze_eq {arg lower : Expr} {a l : Int} (alloc : Addr → Addr)
    (harg : Operand row A a arg) (hlower : Operand row L l lower) (hA : Exact A) (hL : Exact L)
    (hC : Common A L C) (hfitsA : |a| * 10 ^ more A C ≤ storageMax C)
    (hfitsL : |l| * 10 ^ more L C ≤ storageMax C) (upper : Expr) :
    ∃ C' argCast lowerCast copyCast, Common A L C' ∧
      betweenAnalyze conversions alloc arg lower upper false =
        (addCast conversions upper C').map (betweenOf argCast lowerCast copyCast) ∧
      ∀ upperCast u, number row (decompress upperCast) = some u →
        holds row (betweenOf argCast lowerCast copyCast upperCast) =
          some (decide (l * 10 ^ more L C ≤ a * 10 ^ more A C ∧ a * 10 ^ more A C ≤ u)) := by
  -- every common type is as good as `C`
  have hmore (T : SQLTypeInfo) {C' : SQLTypeInfo} (h : Common A L C') : more T C' = more T C := by
    rw [more, more, h.scale_eq, hC.scale_eq]
  have hmax {C' : SQLTypeInfo} (h : Common A L C') : storageMax C' = storageMax C :=
    storageMax_of_shape (h.shape_eq.trans hC.shape_eq.symm)
  obtain ⟨types, htypes, hleft, hright⟩ := analyze_exact (.inl rfl) hA hL
  obtain ⟨argCast, hargCast, hargNumber, A', harg', hA', hshapeA⟩ :=
    addCast_exact conversions harg hA hleft.exact
      (hleft.scale_eq ▸ le_max_left _ _) (by rwa [hmore A hleft, hmax hleft])
  obtain ⟨lowerCast, hlowerCast, hlowerNumber, L', hlower', hL', hshapeL⟩ :=
    addCast_exact conversions hlower hL hright.exact
      (hright.scale_eq ▸ le_max_right _ _) (by rwa [hmore L hright, hmax hright])
  -- the second comparison
  obtain ⟨types', htypes', hleft', hright'⟩ := analyze_exact (.inr rfl) hA' hL'
  replace hleft' : Common A L types'.newLeftType := hleft'.again
    (hshapeA.imp id fun h => h.trans hleft.shape_eq)
    (hshapeL.imp id fun h => h.trans hright.shape_eq)
  replace hright' : Common A L types'.newRightType := hright'.again
    (hshapeA.imp id fun h => h.trans hleft.shape_eq)
    (hshapeL.imp id fun h => h.trans hright.shape_eq)
  have hscaleA : A.scale ≤ A'.scale ∧ A'.scale ≤ types'.newLeftType.scale := by
    rw [hleft'.scale_eq]
    rcases hshapeA with h | h
    · rw [(mk.inj h).2]
      exact ⟨le_rfl, le_max_left _ _⟩
    · rw [(mk.inj h).2, hleft.scale_eq]
      exact ⟨le_max_left _ _, le_rfl⟩
  obtain ⟨copyCast, hcopyCast, hcopyNumber⟩ :=
    addCast_again conversions harg' hA' hleft'.exact hscaleA.1 hscaleA.2
      (by rwa [hmore A hleft', hmax hleft'])
  refine ⟨_, argCast, lowerCast, copyCast, hright', ?_, fun upperCast u hupper => ?_⟩
  · simp only [betweenAnalyze, harg.typeInfo, hlower.typeInfo, htypes, hargCast, hlowerCast,
      harg'.typeInfo, hlower'.typeInfo, htypes', harg'.deepCopy hA', hcopyCast,
      Except.mapError, bind, Except.bind, pure, Except.pure]
    cases addCast conversions upper types'.newRightType <;> rfl
  · rw [hmore A hleft] at hargNumber
    rw [hmore L hright] at hlowerNumber
    rw [hmore A hleft'] at hcopyNumber
    simp [betweenOf, makeBinOper, holds, hargNumber, hlowerNumber, hcopyNumber, hupper,
      compareNumbers]

-- ======== what fits

theorem Exact.isDecimal_iff (hT : Exact T) : T.isDecimal = true ↔ rank T.type = 3 := by
  rcases hT.type_cases with ⟨(h | h) | h, -⟩ | ⟨h | h, -⟩ <;> simp [SQLTypeInfo.isDecimal, h, rank]

theorem rank_le (t : SQLTypes) : rank t ≤ 3 := by
  cases t <;> decide

theorem Common.isDecimal_iff (hC : Common A L C) (hA : Exact A) (hL : Exact L) :
    C.isDecimal = true ↔ A.isDecimal = true ∨ L.isDecimal = true := by
  have hrank : rank C.type = max (rank A.type) (rank L.type) := (mk.inj hC.shape_eq).1
  have hleA := rank_le A.type
  have hleL := rank_le L.type
  rw [hC.exact.isDecimal_iff, hA.isDecimal_iff, hL.isDecimal_iff, hrank]
  omega

theorem Common.isDecimal_eq (hC : Common A L C) (hC' : Common A L C') :
    C'.isDecimal = C.isDecimal := by
  rw [Bool.eq_iff_iff, hC'.exact.isDecimal_iff, hC.exact.isDecimal_iff,
    (mk.inj (hC'.shape_eq.trans hC.shape_eq.symm)).1]

/-- What is too large for a common type is too large for the other. -/
theorem Common.over (hC : Common A L C) (hC' : Common A L C')
    (h : storageMax C < n * 10 ^ more T C) : storageMax C' < n * 10 ^ more T C' := by
  rwa [storageMax_of_shape (hC'.shape_eq.trans hC.shape_eq.symm), more, hC'.scale_eq,
    ← hC.scale_eq, ← more]

/-- An integer type holds all that it can store but the number for NULL. -/
theorem maxNumber_of_integer (hT : T.isDecimal = false) : maxNumber T = storageMax T := by
  simp [maxNumber, storageMax, hT]

theorem storageMax_pos (T : SQLTypeInfo) : 0 < storageMax T := by
  rw [storageMax, bitWidth_eq]
  split
  · norm_num
  · split <;> norm_num

theorem maxNumber_le (T : SQLTypeInfo) : maxNumber T ≤ storageMax T := by
  by_cases hdecimal : T.isDecimal = true
  · rw [Exact.storageMax_of_decimal hdecimal, maxNumber, if_pos hdecimal]
    exact min_le_right _ _
  · exact (maxNumber_of_integer (Bool.eq_false_iff.2 hdecimal)).le

theorem ExactNumeric.one_le_maxNumber (hT : ExactNumeric T) : 1 ≤ maxNumber T := by
  by_cases hdecimal : T.isDecimal = true
  · rw [maxNumber, if_pos hdecimal]
    rcases hT.kind with ⟨hint, -⟩ | ⟨-, hscale, hdim, -⟩
    · rw [Exact.isDecimal_of_integer hint] at hdecimal
      cases hdecimal
    · have hpow : (10 : Int) ^ 1 ≤ 10 ^ T.dimension.toNat :=
        pow_le_pow_right₀ (by norm_num) (by omega)
      refine le_min ?_ (by norm_num)
      omega
  · rw [maxNumber_of_integer (Bool.eq_false_iff.2 hdecimal), storageMax, bitWidth_eq]
    split
    · norm_num
    · split <;> norm_num

/-- What the largest of two integer types can store is what their common type
can. -/
theorem commonMax_eq (hA : ExactNumeric A) (hL : ExactNumeric L) (hC : Common A L C) :
    (if A.isDecimal ∨ L.isDecimal then 2 ^ 63 - 1 else max (maxNumber A) (maxNumber L)) =
      storageMax C := by
  split
  · rename_i hdecimal
    rw [Exact.storageMax_of_decimal ((hC.isDecimal_iff hA.exact hL.exact).2 hdecimal)]
  · rename_i hint
    rw [not_or] at hint
    have hrank : rank C.type = max (rank A.type) (rank L.type) := (mk.inj hC.shape_eq).1
    rw [maxNumber_of_integer (Bool.eq_false_iff.2 hint.1),
      maxNumber_of_integer (Bool.eq_false_iff.2 hint.2)]
    simp only [storageMax, bitWidth_eq, hrank]
    have hleA := rank_le A.type
    have hleL := rank_le L.type
    interval_cases rank A.type <;> interval_cases rank L.type <;> norm_num

theorem fitsCommon_iff (hA : ExactNumeric A) (hL : ExactNumeric L) (hC : Common A L C) :
    FitsCommon A L T ↔ T.scale ≤ C.scale ∧ maxNumber T * 10 ^ more T C ≤ storageMax C := by
  rw [← commonMax_eq hA hL hC, more, hC.scale_eq]
  exact ⟨fun h => ⟨h.1, h.2⟩, fun h => ⟨h.1, h.2⟩⟩

theorem mul_pow_le {k : Nat} (hn : |n| ≤ maxNumber T) (h : maxNumber T * 10 ^ k ≤ storageMax C) :
    |n| * 10 ^ k ≤ storageMax C :=
  (mul_le_mul_of_nonneg_right hn (by positivity)).trans h

variable {U : SQLTypeInfo}

/-- Two numbers at a common scale. -/
theorem exactNumber_le_iff {m : Int} (hT : 0 ≤ T.scale) (hU : 0 ≤ U.scale)
    (hscale : T.scale ≤ C.scale) (hscale' : U.scale ≤ C.scale) :
    exactNumber T m ≤ exactNumber U n ↔ m * 10 ^ more T C ≤ n * 10 ^ more U C := by
  refine value_le_value_of_add ?_
  unfold more
  omega

theorem between_of_fits (hA : ExactNumeric A) (hL : ExactNumeric L) (hU : ExactNumeric U)
    (hfitsA : FitsCommon A L A) (hfitsL : FitsCommon A L L) (hfitsU : FitsCommon A L U) :
    BetweenExact conversions A L U := by
  intro alloc row arg lower upper a l u harg hlower hupper ha hl hu
  obtain ⟨types, -, hC, -⟩ := analyze_exact (.inl rfl) hA.exact hL.exact
  have hfits := fun T => @fitsCommon_iff A L T _ hA hL hC
  obtain ⟨C', argCast, lowerCast, copyCast, hC', hanalyze, hholds⟩ :=
    betweenAnalyze_eq conversions alloc harg hlower hA.exact hL.exact hC
      (mul_pow_le ha ((hfits A).1 hfitsA).2) (mul_pow_le hl ((hfits L).1 hfitsL).2) upper
  obtain ⟨hscaleU, hmaxU⟩ := (@fitsCommon_iff A L U _ hA hL hC').1 hfitsU
  obtain ⟨upperCast, hcast, hnumber, -⟩ :=
    addCast_exact conversions hupper hU.exact hC'.exact hscaleU (mul_pow_le hu hmaxU)
  have hmore : more U C' = more U types.newLeftType := by
    rw [more, more, hC'.scale_eq, hC.scale_eq]
  refine ⟨_, by rw [hanalyze, hcast]; rfl, ?_⟩
  rw [hholds upperCast _ hnumber, hmore, some_inj, decide_eq_decide,
    exactNumber_le_iff hL.exact.scale_nonneg hA.exact.scale_nonneg ((hfits L).1 hfitsL).1
      ((hfits A).1 hfitsA).1,
    exactNumber_le_iff hA.exact.scale_nonneg hU.exact.scale_nonneg ((hfits A).1 hfitsA).1
      ((hfits U).1 hfitsU).1]

-- ======== what does not fit

/-- The literals of a type. -/
theorem operand_literal (row : Expr → Option Int) (hn : |n| ≤ maxNumber T) :
    Operand row T n (.constant T false (.ofInt n)) :=
  .literal _ ((number_ofInt T n).trans (bmod_of_le (hn.trans (maxNumber_le T))))

theorem abs_zero_le (hT : ExactNumeric T) : |(0 : Int)| ≤ maxNumber T := by
  have := hT.one_le_maxNumber
  simp only [abs_zero]
  omega

theorem abs_maxNumber (hT : ExactNumeric T) : |maxNumber T| ≤ maxNumber T := by
  have := hT.one_le_maxNumber
  rw [abs_of_nonneg (by omega)]

/-- The cast of the largest number overflows. -/
theorem addCast_maxNumber (hT : ExactNumeric T) (hC : Exact C) (hdecimal : C.isDecimal = true)
    (hscale : T.scale ≤ C.scale) (hover : storageMax C < maxNumber T * 10 ^ more T C) :
    addCast conversions (.constant T false (.ofInt (maxNumber T))) C = .error .overflow := by
  have hmax := maxNumber_le T
  have hnumber : (Datum.ofInt (maxNumber T)).number T = maxNumber T :=
    (number_ofInt T _).trans (bmod_of_le ((abs_maxNumber hT).trans hmax))
  refine addCast_overflow conversions hT.exact hC (Bool.eq_false_iff.2 fun heq => ?_)
    (Bool.eq_false_iff.2 fun hdefined => ?_)
  · have hshape := shape_of_operatorEq heq
    rw [more, (mk.inj hshape).2, sub_self, toNat_zero, pow_zero, mul_one,
      ← storageMax_of_shape hshape] at hover
    omega
  · rw [hnumber, castDefined_iff hT.exact hscale hdecimal] at hdefined
    simp only [fitsInt64, decide_eq_true_eq] at hdefined
    rw [Exact.storageMax_of_decimal hdecimal] at hover
    omega

/-- Among integer types the argument and the lower bound fit. -/
theorem fits_of_integer (hA : ExactNumeric A) (hL : ExactNumeric L) (hC : Common A L C)
    (hint : C.isDecimal = false) (hT : T = A ∨ T = L) :
    maxNumber T * 10 ^ more T C ≤ storageMax C := by
  have hnot : ¬ (A.isDecimal = true ∨ L.isDecimal = true) := by
    rw [← hC.isDecimal_iff hA.exact hL.exact, hint]
    exact Bool.false_ne_true
  have hmax := commonMax_eq hA hL hC
  rw [if_neg hnot] at hmax
  rcases hT with rfl | rfl
  · obtain ⟨hC0, hT0⟩ := hA.exact.scale_zero hC.exact (hC.scale_eq ▸ le_max_left _ _) hint
    rw [more, hC0, hT0, sub_self, toNat_zero, pow_zero, mul_one, ← hmax]
    exact le_max_left _ _
  · obtain ⟨hC0, hT0⟩ := hL.exact.scale_zero hC.exact (hC.scale_eq ▸ le_max_right _ _) hint
    rw [more, hC0, hT0, sub_self, toNat_zero, pow_zero, mul_one, ← hmax]
    exact le_max_right _ _

/-- So do those of which all numbers are compared as they are. -/
theorem fits_of_exact (hA : ExactNumeric A) (hL : ExactNumeric L) (hU : ExactNumeric U)
    (h : BetweenExact conversions A L U) (hT : T = A ∨ T = L) : FitsCommon A L T := by
  obtain ⟨types, htypes, hC, hC'⟩ := analyze_exact (.inl rfl) hA.exact hL.exact
  have hscale : T.scale ≤ types.newLeftType.scale := by
    rw [hC.scale_eq]
    rcases hT with rfl | rfl
    · exact le_max_left _ _
    · exact le_max_right _ _
  refine (fitsCommon_iff hA hL hC).2 ⟨hscale, not_lt.1 fun hover => ?_⟩
  by_cases hdecimal : types.newLeftType.isDecimal = true
  · rcases hT with rfl | rfl
    · obtain ⟨e, he, -⟩ := h id (fun _ => none) _ _ _ _ _ _ (operand_literal _ (abs_maxNumber hA))
        (operand_literal _ (abs_zero_le hL)) (operand_literal _ (abs_zero_le hU))
        (abs_maxNumber hA) (abs_zero_le hL) (abs_zero_le hU)
      have hcast := addCast_maxNumber conversions hA hC.exact hdecimal hscale hover
      simp [betweenAnalyze, Expr.typeInfo, htypes, hcast, Except.mapError, bind, Except.bind] at he
    · obtain ⟨e, he, -⟩ := h id (fun _ => none) _ _ _ _ _ _ (operand_literal _ (abs_zero_le hA))
        (operand_literal _ (abs_maxNumber hL)) (operand_literal _ (abs_zero_le hU))
        (abs_zero_le hA) (abs_maxNumber hL) (abs_zero_le hU)
      have hcast := addCast_maxNumber conversions hL hC'.exact
        ((hC.isDecimal_eq hC').trans hdecimal) (hC'.scale_eq ▸ le_max_right _ _) (hC.over hC' hover)
      cases harg : addCast conversions (.constant A false (.ofInt 0)) types.newLeftType <;>
        simp [betweenAnalyze, Expr.typeInfo, htypes, harg, hcast, Except.mapError, bind,
          Except.bind] at he
  · have hfits := fits_of_integer hA hL hC (Bool.eq_false_iff.2 hdecimal) hT
    omega

/-- An upper bound that is cast to another number is compared as that one. -/
theorem not_exact_of_upper (a l u v : Int) (hA : ExactNumeric A) (hL : ExactNumeric L)
    (hfitsA : FitsCommon A L A) (hfitsL : FitsCommon A L L) (ha : |a| ≤ maxNumber A)
    (hl : |l| ≤ maxNumber L) (hu : |u| ≤ maxNumber U) (hcast : ∀ C, Common A L C → ∃ upperCast,
      addCast conversions (.constant U false (.ofInt u)) C = .ok upperCast ∧
        number (fun _ => none) (decompress upperCast) = some v)
    (hwrong : ∀ C, Common A L C →
      ¬ (l * 10 ^ more L C ≤ a * 10 ^ more A C ∧ a * 10 ^ more A C ≤ v ↔
        exactNumber L l ≤ exactNumber A a ∧ exactNumber A a ≤ exactNumber U u)) :
    ¬ BetweenExact conversions A L U := by
  intro h
  obtain ⟨types, -, hC, -⟩ := analyze_exact (.inl rfl) hA.exact hL.exact
  obtain ⟨C', argCast, lowerCast, copyCast, hC', hanalyze, hholds⟩ :=
    betweenAnalyze_eq conversions id (operand_literal (fun _ => none) ha) (operand_literal _ hl)
      hA.exact hL.exact hC (mul_pow_le ha ((fitsCommon_iff hA hL hC).1 hfitsA).2)
      (mul_pow_le hl ((fitsCommon_iff hA hL hC).1 hfitsL).2) (.constant U false (.ofInt u))
  obtain ⟨upperCast, hupper, hnumber⟩ := hcast C' hC'
  obtain ⟨e, he, hexact⟩ := h id _ _ _ _ _ _ _ (operand_literal _ ha) (operand_literal _ hl)
    (operand_literal _ hu) ha hl hu
  rw [hanalyze, hupper] at he
  cases he
  rw [hholds upperCast _ hnumber, some_inj, decide_eq_decide] at hexact
  exact hwrong _ hC hexact

theorem not_exact_of_overflow (hA : ExactNumeric A) (hL : ExactNumeric L) (hU : ExactNumeric U)
    (hfitsA : FitsCommon A L A) (hfitsL : FitsCommon A L L) (hC : Common A L C)
    (hdecimal : C.isDecimal = true) (hscale : U.scale ≤ C.scale)
    (hover : storageMax C < maxNumber U * 10 ^ more U C) : ¬ BetweenExact conversions A L U := by
  intro h
  obtain ⟨C', argCast, lowerCast, copyCast, hC', hanalyze, -⟩ :=
    betweenAnalyze_eq conversions id (operand_literal (fun _ => none) (abs_zero_le hA))
      (operand_literal _ (abs_zero_le hL)) hA.exact hL.exact hC
      (mul_pow_le (abs_zero_le hA) ((fitsCommon_iff hA hL hC).1 hfitsA).2)
      (mul_pow_le (abs_zero_le hL) ((fitsCommon_iff hA hL hC).1 hfitsL).2)
      (.constant U false (.ofInt (maxNumber U)))
  have hshape : shape C' = shape C := hC'.shape_eq.trans hC.shape_eq.symm
  have hcast := addCast_maxNumber conversions hU hC'.exact ((hC.isDecimal_eq hC').trans hdecimal)
    ((mk.inj hshape).2 ▸ hscale) (hC.over hC' hover)
  obtain ⟨e, he, -⟩ := h id (fun _ => none) _ _ _ _ _ _ (operand_literal _ (abs_zero_le hA))
    (operand_literal _ (abs_zero_le hL)) (operand_literal _ (abs_maxNumber hU)) (abs_zero_le hA)
    (abs_zero_le hL) (abs_maxNumber hU)
  rw [hanalyze, hcast] at he
  cases he

/-- One more than a type can store is its smallest number. -/
theorem bmod_storageMax (C : SQLTypeInfo) :
    (storageMax C + 1).bmod (2 ^ bitWidth C.type) = -storageMax C - 1 := by
  rw [storageMax, bitWidth_eq]
  split
  · decide
  · split <;> decide

theorem number_constant (hC : Exact C) (d : Datum) :
    number row (decompress (.constant C false d)) = some (d.number C) := by
  rw [decompress_of_exact hC rfl, number, if_neg Bool.false_ne_true]

/-- An upper bound that is larger than the common type becomes negative. -/
theorem not_exact_of_wrap (hA : ExactNumeric A) (hL : ExactNumeric L) (hU : ExactNumeric U)
    (hfitsA : FitsCommon A L A) (hfitsL : FitsCommon A L L) (hC : Common A L C)
    (hint : C.isDecimal = false) (hscale : U.scale ≤ C.scale)
    (hover : storageMax C < maxNumber U * 10 ^ more U C) : ¬ BetweenExact conversions A L U := by
  have hpos := storageMax_pos C
  obtain ⟨hC0, hU0⟩ := hU.exact.scale_zero hC.exact hscale hint
  have hzero {C' : SQLTypeInfo} (h : Common A L C') : more U C' = 0 := by
    rw [more, h.scale_eq, ← hC.scale_eq, hC0, hU0, sub_self, toNat_zero]
  rw [hzero hC, pow_zero, mul_one] at hover
  have hu : |storageMax C + 1| ≤ maxNumber U := by
    rw [abs_of_nonneg (by omega)]
    omega
  refine not_exact_of_upper conversions 0 0 (storageMax C + 1) (-storageMax C - 1) hA hL hfitsA
    hfitsL (abs_zero_le hA) (abs_zero_le hL) hu (fun C' hC' => ?_) (fun C' hC' hiff => ?_)
  · have hshape : shape C' = shape C := hC'.shape_eq.trans hC.shape_eq.symm
    have hint' : C'.isDecimal = false := (hC.isDecimal_eq hC').trans hint
    have hne : U.operatorEq C' = false := Bool.eq_false_iff.2 fun heq => by
      have hmax := storageMax_of_shape ((shape_of_operatorEq heq).trans hshape)
      have := maxNumber_le U
      omega
    have hcast := castNumber_exact conversions
      ((number_ofInt U (storageMax C + 1)).trans (bmod_of_le (hu.trans (maxNumber_le U))))
      hU.exact hC'.exact (hC'.scale_eq ▸ hC.scale_eq ▸ hscale)
    refine ⟨_, addCast_literal conversions hU.exact hC'.exact hne
      (by simp [Constant.castDefined, hint']) hcast, ?_⟩
    rw [number_constant hC'.exact, number_ofInt, hzero hC', pow_zero, mul_one,
      ← storageMax_of_shape hshape, bmod_storageMax]
  · have hlower : exactNumber L 0 ≤ exactNumber A 0 := by simp [exactNumber, value]
    have hupper : exactNumber A 0 ≤ exactNumber U (storageMax C + 1) := by
      rw [exactNumber, value, cast_zero, zero_div, exactNumber, value]
      positivity
    have hle := (hiff.2 ⟨hlower, hupper⟩).2
    omega

theorem castNumber_of_scale (hU : Exact U) (hpos : 0 < U.scale) (d : Datum) :
    Constant.castNumber conversions U C d = Constant.castDecimal conversions U C d := by
  rcases hU.type_cases with ⟨-, hzero⟩ | ⟨h | h, -⟩
  · omega
  · simp [Constant.castNumber, h]
  · simp [Constant.castNumber, h]

/-- `cast_number` to an integer cuts off the digits behind the point. -/
theorem castNumber_truncate (hU : Exact U) (hC : Exact C) (hint : C.isDecimal = false)
    (hscale : C.scale < U.scale) :
    Constant.castNumber conversions U C (.ofInt (-1)) = .ok (.ofInt 0) := by
  have hnonneg := hC.scale_nonneg
  have htdiv : (-1 : Int).tdiv (10 ^ U.scale.toNat) = 0 := by
    rw [Int.neg_tdiv, Int.tdiv_eq_zero_of_lt (by decide), neg_zero]
    exact one_lt_pow₀ (by norm_num) (by omega)
  have hbig : (Datum.ofInt (-1)).bigintval = -1 := by decide
  rw [castNumber_of_scale conversions hU (by omega)]
  rcases hC.type_cases with ⟨h, -⟩ | ⟨h, -⟩
  · rcases h with (h | h) | h <;> simp [Constant.castDecimal, h, hbig, htdiv]
  · rcases h with h | h <;> simp [SQLTypeInfo.isDecimal, h] at hint

/-- An upper bound with digits behind the point becomes an integer: -0.1 is
cut off to 0. -/
theorem not_exact_of_truncation (hA : ExactNumeric A) (hL : ExactNumeric L) (hU : ExactNumeric U)
    (hfitsA : FitsCommon A L A) (hfitsL : FitsCommon A L L) (hC : Common A L C)
    (hint : C.isDecimal = false) (hscale : C.scale < U.scale) :
    ¬ BetweenExact conversions A L U := by
  have hu : |(-1 : Int)| ≤ maxNumber U := hU.one_le_maxNumber
  refine not_exact_of_upper conversions 0 0 (-1) 0 hA hL hfitsA hfitsL (abs_zero_le hA)
    (abs_zero_le hL) hu (fun C' hC' => ?_) (fun C' hC' hiff => ?_)
  · have hint' : C'.isDecimal = false := (hC.isDecimal_eq hC').trans hint
    have hscale' : C'.scale < U.scale := hC'.scale_eq ▸ hC.scale_eq ▸ hscale
    have hne : U.operatorEq C' = false := Bool.eq_false_iff.2 fun heq => by
      have := (mk.inj (shape_of_operatorEq heq)).2
      omega
    have hcast := castNumber_truncate conversions hU.exact hC'.exact hint' hscale'
    refine ⟨_, addCast_literal conversions hU.exact hC'.exact hne
      (by simp [Constant.castDefined, hint']) hcast, ?_⟩
    rw [number_constant hC'.exact, number_ofInt, zero_bmod]
  · have hlt : exactNumber U (-1) < 0 := by
      rw [exactNumber, value, cast_neg, cast_one, neg_div, neg_lt_zero]
      positivity
    have hle := (hiff.1 ⟨by rw [zero_mul, zero_mul], by rw [zero_mul]⟩).2
    rw [exactNumber, value, cast_zero, zero_div] at hle
    exact absurd hlt (not_lt.2 hle)

/-- The rounding of half a unit below a number with `k + 1` more digits. -/
theorem roundTenth_iterate (g : Int) (hg : 0 < g) (k : Nat) :
    roundTenth^[k + 1] (g * 10 ^ (k + 1) - 5 * 10 ^ k) = g := by
  induction k with
  | zero =>
    rw [zero_add, iterate_one, roundTenth, if_pos (by omega),
      tdiv_eq_ediv_of_nonneg (by omega)]
    omega
  | succ k ih =>
    have hpow : (0 : Int) < 10 ^ k := by positivity
    have hle : 10 ^ k ≤ g * 10 ^ k := le_mul_of_one_le_left hpow.le hg
    have hround : roundTenth (g * 10 ^ (k + 2) - 5 * 10 ^ (k + 1)) =
        g * 10 ^ (k + 1) - 5 * 10 ^ k := by
      rw [show g * 10 ^ (k + 2) = 100 * (g * 10 ^ k) by ring,
        show (5 : Int) * 10 ^ (k + 1) = 50 * 10 ^ k by ring,
        show g * 10 ^ (k + 1) = 10 * (g * 10 ^ k) by ring]
      rw [roundTenth, if_pos (by omega), tdiv_eq_ediv_of_nonneg (by omega)]
      omega
    rw [iterate_succ_apply, hround, ih]

/-- `cast_number` to a smaller scale rounds. -/
theorem castNumber_round (hU : Exact U) (hC : Exact C) (hdecimal : C.isDecimal = true)
    (hscale : C.scale < U.scale) {u : Int} (hu : |u| < 2 ^ 63) :
    Constant.castNumber conversions U C (.ofInt u) =
      .ok (.ofInt (roundTenth^[(U.scale - C.scale).toNat] u)) := by
  have hnonneg := hC.scale_nonneg
  have hbig : (Datum.ofInt u).bigintval = u := by
    have hle := abs_lt.1 hu
    exact (BitVec.toInt_ofInt u).trans (bmod_eq_of_le (by omega) (by omega))
  have hconvert : convertDecimalValueToScale u U C =
      roundTenth^[(U.scale - C.scale).toNat] u := if_neg (by omega)
  rw [castNumber_of_scale conversions hU (by omega)]
  simp only [SQLTypeInfo.isDecimal, Bool.or_eq_true, beq_iff_eq] at hdecimal
  rcases hdecimal with h | h <;> simp [Constant.castDecimal, h, hbig, hconvert]

/-- A decimal holds every number below one. -/
theorem pow_le_maxNumber (hU : ExactNumeric U) (hpos : 0 < U.scale) {m : Nat}
    (hm : (m : Int) ≤ U.scale) : (10 : Int) ^ m ≤ maxNumber U ∧ (10 : Int) ^ m ≤ 10 ^ 18 := by
  rcases hU.kind with ⟨-, hzero⟩ | ⟨hdecimal, -, hdim, hmax⟩
  · omega
  · have hsmall : (10 : Int) ^ m ≤ 10 ^ 18 := pow_le_pow_right₀ (by norm_num) (by omega)
    refine ⟨?_, hsmall⟩
    rw [maxNumber, if_pos hdecimal]
    refine le_min ?_ (hsmall.trans (by norm_num))
    have hlt : (10 : Int) ^ m < 10 ^ U.dimension.toNat :=
      pow_lt_pow_right₀ (by norm_num) (by omega)
    omega

/-- An upper bound with more digits behind the point than the common type is
rounded up to the argument. -/
theorem not_exact_of_rounding (hA : ExactNumeric A) (hL : ExactNumeric L) (hU : ExactNumeric U)
    (hfitsA : FitsCommon A L A) (hfitsL : FitsCommon A L L) (hC : Common A L C)
    (hdecimal : C.isDecimal = true) (hscale : C.scale < U.scale) :
    ¬ BetweenExact conversions A L U := by
  have hscaleA : A.scale ≤ C.scale := hC.scale_eq ▸ le_max_left _ _
  have hnonneg := hA.exact.scale_nonneg
  obtain ⟨k, hk⟩ : ∃ k : Nat, (U.scale - C.scale).toNat = k + 1 :=
    ⟨(U.scale - C.scale).toNat - 1, by omega⟩
  obtain ⟨m, hm⟩ : ∃ m : Nat, m = (U.scale - A.scale).toNat := ⟨_, rfl⟩
  obtain ⟨g, hg⟩ : ∃ g : Int, g = 10 ^ more A C := ⟨_, rfl⟩
  obtain ⟨u, hu⟩ : ∃ u, u = g * 10 ^ (k + 1) - 5 * 10 ^ k := ⟨_, rfl⟩
  -- the upper bound is just below the argument 1, which is `g` at the common scale
  have hgm : g * 10 ^ (k + 1) = 10 ^ m := by
    rw [hg, ← pow_add]
    congr 1
    unfold more
    omega
  have hgpos : 0 < g := by
    rw [hg]
    positivity
  have hbounds : 0 < u ∧ u < 10 ^ m ∧ g ≤ 10 ^ m := by
    have hpow : (0 : Int) < 10 ^ k := by positivity
    have hge : 10 ^ k ≤ g * 10 ^ k := le_mul_of_one_le_left hpow.le hgpos
    have hgle : g ≤ g * 10 ^ (k + 1) :=
      le_mul_of_one_le_right hgpos.le (one_le_pow₀ (by norm_num))
    have hten : g * 10 ^ (k + 1) = 10 * (g * 10 ^ k) := by ring
    omega
  obtain ⟨hmaxU, hmsmall⟩ := pow_le_maxNumber hU (by omega) (show (m : Int) ≤ U.scale by omega)
  have huabs : |u| = u := abs_of_nonneg hbounds.1.le
  refine not_exact_of_upper conversions 1 0 u g hA hL hfitsA hfitsL
    (by rw [abs_one]; exact hA.one_le_maxNumber) (abs_zero_le hL) (by rw [huabs]; omega)
    (fun C' hC' => ?_) (fun C' hC' hiff => ?_)
  · have hdecimal' : C'.isDecimal = true := (hC.isDecimal_eq hC').trans hdecimal
    have hsame : C'.scale = C.scale := hC'.scale_eq.trans hC.scale_eq.symm
    have hne : U.operatorEq C' = false := Bool.eq_false_iff.2 fun heq => by
      have := (mk.inj (shape_of_operatorEq heq)).2
      omega
    have hnumber : (Datum.ofInt u).number U = u :=
      (number_ofInt U u).trans (bmod_of_le (by
        have := maxNumber_le U
        omega))
    have hdefined : Constant.castDefined U C' u = true := by
      have hneg : ¬ U.scale ≤ C'.scale := by omega
      have hfits : fitsInt64 (u + 5) = true := by
        simp only [fitsInt64, decide_eq_true_eq]
        omega
      simp [Constant.castDefined, hdecimal', hU.exact.more_eq, hneg, hbounds.1, hfits]
    have hcast := castNumber_round conversions hU.exact hC'.exact hdecimal' (hsame ▸ hscale)
      (show |u| < 2 ^ 63 by omega)
    rw [hsame, hk, hu, roundTenth_iterate g hgpos k, ← hu] at hcast
    refine ⟨_, addCast_literal conversions hU.exact hC'.exact hne (by rwa [hnumber]) hcast, ?_⟩
    rw [number_constant hC'.exact, number_ofInt, bmod_of_le]
    rw [Exact.storageMax_of_decimal hdecimal', abs_of_nonneg hgpos.le]
    omega
  · have hmore : more A C' = more A C := by rw [more, more, hC'.scale_eq, hC.scale_eq]
    have hle := (hiff.1 ⟨by rw [zero_mul, one_mul]; positivity, by rw [one_mul, hmore, hg]⟩).2
    have hvalue : (1 : Int) * 10 ^ m ≤ u * 10 ^ 0 :=
      (value_le_value_of_add (by omega)).1 hle
    omega

theorem fits_upper_of_exact (hA : ExactNumeric A) (hL : ExactNumeric L) (hU : ExactNumeric U)
    (hfitsA : FitsCommon A L A) (hfitsL : FitsCommon A L L) (h : BetweenExact conversions A L U) :
    FitsCommon A L U := by
  obtain ⟨types, -, hC, -⟩ := analyze_exact (.inl rfl) hA.exact hL.exact
  rw [fitsCommon_iff hA hL hC]
  by_contra hnot
  by_cases hscale : U.scale ≤ types.newLeftType.scale
  · have hover := lt_of_not_ge fun hle => hnot ⟨hscale, hle⟩
    by_cases hdecimal : types.newLeftType.isDecimal = true
    · exact not_exact_of_overflow conversions hA hL hU hfitsA hfitsL hC hdecimal hscale hover h
    · exact not_exact_of_wrap conversions hA hL hU hfitsA hfitsL hC
        (Bool.eq_false_iff.2 hdecimal) hscale hover h
  · rw [not_le] at hscale
    by_cases hdecimal : types.newLeftType.isDecimal = true
    · exact not_exact_of_rounding conversions hA hL hU hfitsA hfitsL hC hdecimal hscale h
    · exact not_exact_of_truncation conversions hA hL hU hfitsA hfitsL hC
        (Bool.eq_false_iff.2 hdecimal) hscale h

/-- BETWEEN means what it says for all numbers of three types if and only if
the three fit in what the first two have in common. -/
theorem between_exact_iff {U : SQLTypeInfo} (hA : ExactNumeric A) (hL : ExactNumeric L)
    (hU : ExactNumeric U) :
    BetweenExact conversions A L U ↔
      FitsCommon A L A ∧ FitsCommon A L L ∧ FitsCommon A L U := by
  constructor
  · intro h
    have hfitsA := fits_of_exact conversions hA hL hU h (.inl rfl)
    have hfitsL := fits_of_exact conversions hA hL hU h (.inr rfl)
    exact ⟨hfitsA, hfitsL, fits_upper_of_exact conversions hA hL hU hfitsA hfitsL h⟩
  · rintro ⟨hfitsA, hfitsL, hfitsU⟩
    exact between_of_fits conversions hA hL hU hfitsA hfitsL hfitsU

/-- Exact numbers are cast without any of them. -/
def exactOnly : Conversions where
  castFp := fun _ _ _ => .error .check
  stringToDatum := fun _ _ => .error .check
  datumToString := fun _ _ => .error .check

theorem exactNumeric_integer {t : SQLTypes} (notnull : Bool)
    (ht : (SQLTypeInfo.plain t notnull).isInteger = true) :
    ExactNumeric (.plain t notnull) :=
  ⟨rfl, .inl ⟨ht, rfl⟩⟩

theorem exactNumber_plain (t : SQLTypes) (notnull : Bool) (n : Int) :
    exactNumber (.plain t notnull) n = n := by
  simp [exactNumber, value, SQLTypeInfo.plain, SQLTypeInfo.scaled, SQLTypeInfo.make]

/-- The bounds the other way round: the wider type is seen first. -/
theorem between_exact_smallint :
    (ExactNumeric (.plain .kSMALLINT false) ∧ ExactNumeric (.plain .kINT true) ∧
      ExactNumeric (.plain .kSMALLINT true)) ∧
    BetweenExact exactOnly (.plain .kSMALLINT false) (.plain .kINT true)
      (.plain .kSMALLINT true) :=
  have hA := exactNumeric_integer false (t := .kSMALLINT) rfl
  have hL := exactNumeric_integer true (t := .kINT) rfl
  have hU := exactNumeric_integer true (t := .kSMALLINT) rfl
  ⟨⟨hA, hL, hU⟩, (between_exact_iff exactOnly hA hL hU).2
    ⟨⟨by decide, by decide⟩, ⟨by decide, by decide⟩, ⟨by decide, by decide⟩⟩⟩

/-- `5 BETWEEN 1 AND 100000` of a SMALLINT column: the upper bound becomes a
SMALLINT as the lower one is. -/
theorem between_narrows_upper :
    ¬ BetweenExact exactOnly (.plain .kSMALLINT false) (.plain .kSMALLINT true)
      (.plain .kINT true) := by
  intro h
  obtain ⟨e, he, hvalue⟩ := h id (fun _ => some 5) (.columnVar (.plain .kSMALLINT false) 1 1 0)
    (.constant (.plain .kSMALLINT true) false (.ofInt 1))
    (.constant (.plain .kINT true) false (.ofInt 100000)) 5 1 100000
    (.column 1 1 0 rfl) (.literal _ (by decide)) (.literal _ (by decide))
    (by decide) (by decide) (by decide)
  rw [exactNumber_plain, exactNumber_plain, exactNumber_plain, decide_eq_true (by norm_num)]
    at hvalue
  obtain rfl := Except.ok.inj ((by rfl : betweenAnalyze _ _ _ _ _ _ = .ok _).symm.trans he)
  exact absurd hvalue (by decide)

end Compass.Analyzer
