/-
The flattened join computes what the nested joins compute, as long as no
LEFT join is on the constant TRUE.

# The argument

Between the tree and the flattened node stands `flatRows`: the loops of
the flattened node, read off the tree. A row of the tree below stays a
prefix of the rows above it, and an inner condition reads that prefix
only, so all inner conditions can wait until the end
(`rows_eq_filter`). The array of outer conditions, numbered from the
other end, gives every level its own condition back
(`loops_eq_flatRows`), and a rebound condition reads the same columns
(`rebind_eval`).

# Where it goes wrong

A LEFT join on the literal TRUE stores nothing, and its level is taken
for an INNER one. Its left rows are then lost when its right side is
empty, and with them everything above.
-/
import Compass.RelAlg.Proofs.Eval

namespace Compass.LeftDeep

open Compass.PushDown List
open NestedLoop

variable {D : Type}

-- ======== locating columns

/-- The columns of several inputs together. -/
def totalSize (inputs : List Node) : Nat := (inputs.map Node.size).sum

theorem JoinTree.totalSize_inputs (t : JoinTree D) :
    totalSize t.inputs = t.size := by
  induction t with
  | input n => simp [totalSize, JoinTree.inputs, JoinTree.size]
  | join i ty c lhs rhs ih =>
    simp only [totalSize, JoinTree.inputs, JoinTree.size, map_append,
      sum_append, map_cons, map_nil, sum_cons,
      sum_nil, Nat.add_zero]
    rw [← ih]
    rfl

theorem inputSizePrefixSums_cons (n : Node) (rest : List Node) :
    inputSizePrefixSums (n :: rest)
      = n.size :: (inputSizePrefixSums rest).map (n.size + ·) := by
  unfold inputSizePrefixSums
  rw [length_cons, range_succ_eq_map, map_cons, map_map, map_map]
  congr 1

/-- One step of the search in the prefix sums. -/
theorem locate_cons (n : Node) (rest : List Node) (index : Nat) :
    locate (n :: rest) index
      = if index < n.size then some (n.id, index)
        else locate rest (index - n.size) := by
  unfold locate
  rw [inputSizePrefixSums_cons, findIdx?_cons]
  by_cases h : index < n.size
  · simp [h]
  · have hshift : ((fun sum => decide (index < sum)) ∘ fun x => n.size + x)
        = fun sum => decide (index - n.size < sum) := by
      funext sum
      have hiff : index < n.size + sum ↔ index - n.size < sum := by omega
      exact decide_eq_decide.mpr hiff
    rw [if_neg h, findIdx?_map, hshift]
    cases hk : (inputSizePrefixSums rest).findIdx?
        fun sum => decide (index - n.size < sum) with
    | none => simp [h]
    | some k =>
      simp only [decide_eq_true_eq, h, if_false, Option.map_some,
        Option.bind_eq_bind, Option.bind_some, getElem?_cons_succ,
        take_succ_cons, map_cons, sum_cons]
      congr 1
      funext node
      congr 2
      omega

theorem offsetOf_append_right {pre post : List Node} {s o : Nat}
    (hpre : s ∉ pre.map Node.id) (h : offsetOf post s = some o) :
    offsetOf (pre ++ post) s = some (totalSize pre + o) := by
  induction pre with
  | nil => simpa [totalSize] using h
  | cons n pre ih =>
    simp only [map_cons, mem_cons, not_or] at hpre
    rw [cons_append]
    unfold offsetOf
    rw [if_neg (Ne.symm hpre.1), ih hpre.2]
    simp [totalSize, Nat.add_assoc]

/-- A flattened column is found in the input that has it. -/
theorem locate_flatColumn {inputs : List Node} (hnd : (inputs.map Node.id).Nodup) {index : Nat}
    (h : index < totalSize inputs) :
    ∃ p, locate inputs index = some p
      ∧ p.1 ∈ inputs.map Node.id
      ∧ ∀ row : Row D, flatColumn inputs row p.1 p.2 = column row index := by
  suffices hloc : ∃ p o, locate inputs index = some p
      ∧ p.1 ∈ inputs.map Node.id
      ∧ offsetOf inputs p.1 = some o ∧ o + p.2 = index by
    obtain ⟨p, o, hp, hmem, ho, hidx⟩ := hloc
    refine ⟨p, hp, hmem, ?_⟩
    intro row
    unfold flatColumn
    rw [ho]
    exact congrArg (column row) hidx
  induction inputs generalizing index with
  | nil => simp [totalSize] at h
  | cons n rest ih =>
    rw [map_cons, nodup_cons] at hnd
    rw [locate_cons]
    by_cases hn : index < n.size
    · refine ⟨(n.id, index), 0, if_pos hn, mem_cons_self, ?_, ?_⟩
      · simp [offsetOf]
      · simp
    · have hrest : index - n.size < totalSize rest := by
        simp only [totalSize, map_cons, sum_cons] at h
        unfold totalSize
        omega
      obtain ⟨p, o, hp, hmem, ho, hidx⟩ := ih hnd.2 hrest
      refine ⟨p, n.size + o, ?_, mem_cons_of_mem _ hmem, ?_, ?_⟩
      · rw [if_neg hn, hp]
      · have hne : n.id ≠ p.1 := by
          intro he
          rw [he] at hnd
          exact hnd.1 hmem
        unfold offsetOf
        rw [if_neg hne, ho]
        rfl
      · omega

-- ======== loops off the tree

/-- The condition is stored nowhere. -/
def IsTrue (c : Rex D) : Prop := conditionTrue c = some true

instance (c : Rex D) : Decidable (IsTrue c) :=
  inferInstanceAs (Decidable (conditionTrue c = some true))

theorem holds_of_isTrue {c : Rex D} (h : IsTrue c) (I : Interp D)
    (col : Nat → Nat → Value D) : holds I col c = true := by
  cases c with
  | literal v =>
    cases v with
    | bool b =>
      have hb : b = true := Option.some.inj h
      subst hb
      rfl
    | null | scalar d => cases h
  | input s i | func name es ti | oper op es ti | case bs els | ref i | subQuery q => cases h

section

variable (I : Interp D) (db : Database D)

/-- The loops of the flattened node, as the tree describes them. -/
def flatRows : JoinTree D → List (Row D)
  | .input n => db n.id
  | .join _ .INNER _ lhs rhs =>
    NestedLoop.innerJoin (· ++ ·) (fun _ => true) (flatRows lhs) (db rhs.id)
  | .join _ .LEFT c lhs rhs =>
    if IsTrue c then
      NestedLoop.innerJoin (· ++ ·) (fun _ => true) (flatRows lhs)
        (db rhs.id)
    else
      NestedLoop.leftJoin (· ++ ·) (nullExtend rhs)
        (fun row => holds I (joinColumn lhs rhs row) c) (flatRows lhs)
        (db rhs.id)

theorem flatRows_left (i : Nat) (c : Rex D) (lhs : JoinTree D) (rhs : Node) :
    flatRows I db (.join i .LEFT c lhs rhs)
      = if IsTrue c then
          NestedLoop.innerJoin (· ++ ·) (fun _ => true) (flatRows I db lhs)
            (db rhs.id)
        else
          NestedLoop.leftJoin (· ++ ·) (nullExtend rhs)
            (fun row => holds I (joinColumn lhs rhs row) c) (flatRows I db lhs)
            (db rhs.id) := rfl

/-- All conditions of INNER joins hold on the row. -/
def innerHolds : JoinTree D → Row D → Bool
  | .input _, _ => true
  | .join _ .INNER c lhs rhs, row =>
    holds I (joinColumn lhs rhs row) c && innerHolds lhs row
  | .join _ .LEFT _ lhs _, row => innerHolds lhs row

/-- A LEFT join on TRUE has something on its right. -/
def RightsNonempty : JoinTree D → Prop
  | .input _ => True
  | .join _ ty c lhs rhs =>
    (ty = .LEFT → IsTrue c → db rhs.id ≠ []) ∧ RightsNonempty lhs

/-- No LEFT join is on TRUE. -/
def NoLeftTrue : JoinTree D → Prop
  | .input _ => True
  | .join _ ty c lhs _ => ¬ (ty = .LEFT ∧ IsTrue c) ∧ NoLeftTrue lhs

variable {t : JoinTree D}

theorem RightsNonempty.of_noLeftTrue (h : NoLeftTrue t) :
    RightsNonempty db t := by
  induction t with
  | input n => trivial
  | join i ty c lhs rhs ih =>
    exact ⟨fun hty hc => absurd ⟨hty, hc⟩ h.1, ih h.2⟩

-- ======== row prefixes

variable {row : Row D}

theorem column_append (x : Row D) {i : Nat} (h : i < row.length) :
    column (row ++ x) i = column row i := by
  unfold column
  rw [getD_eq_getElem?_getD, getD_eq_getElem?_getD, getElem?_append_left h]

/-- A scoped condition reads the first columns only. -/
theorem holds_append {lhs : JoinTree D} {rhs : Node} {c : Rex D}
    (hscope : ∀ p ∈ c.inputs, lhs.InScope rhs p)
    (hlen : row.length = lhs.size + rhs.size) (x : Row D) :
    holds I (joinColumn lhs rhs (row ++ x)) c
      = holds I (joinColumn lhs rhs row) c := by
  have heval : c.evalWith I (joinColumn lhs rhs (row ++ x))
      = c.evalWith I (joinColumn lhs rhs row) := by
    apply Rex.evalWith_congr
    intro p hp
    unfold joinColumn
    rcases hscope p hp with h | h
    · rw [if_pos h.1, if_pos h.1, column_append x (by omega)]
    · by_cases hl : p.1 = lhs.id
      · rw [if_pos hl, if_pos hl, column_append x (by omega)]
      · rw [if_neg hl, if_neg hl, if_pos h.1, if_pos h.1,
          column_append x (by omega)]
  unfold holds
  rw [heval]

theorem innerHolds_append (hscope : t.Scoped) (hlen : t.size ≤ row.length)
    (x : Row D) : innerHolds I t (row ++ x) = innerHolds I t row := by
  induction t with
  | input n => rfl
  | join i ty c lhs rhs ih =>
    have hlhs := ih hscope.2 (le_trans (Nat.le_add_right _ _) hlen)
    cases ty with
    | LEFT => exact hlhs
    | INNER =>
      have hsplit : row ++ x = row.take (lhs.size + rhs.size)
          ++ (row.drop (lhs.size + rhs.size) ++ x) := by
        rw [← append_assoc, take_append_drop]
      have htake : (row.take (lhs.size + rhs.size)).length
          = lhs.size + rhs.size := by
        rw [length_take]
        exact min_eq_left hlen
      have hrow : holds I (joinColumn lhs rhs (row ++ x)) c
          = holds I (joinColumn lhs rhs row) c := by
        rw [hsplit, holds_append I hscope.1 htake,
          ← holds_append I hscope.1 htake (row.drop (lhs.size + rhs.size)),
          take_append_drop]
      show (holds I _ c && innerHolds I lhs (row ++ x)) = _
      rw [hrow, hlhs]
      rfl

theorem length_nullExtend {rhs : Node} :
    (nullExtend rhs row).length = row.length + rhs.size := by
  simp [nullExtend]

/-- The rows that the loops form have the columns of the tree. -/
theorem length_flatRows (hfit : db.Fits t) :
    ∀ row ∈ flatRows I db t, row.length = t.size := by
  induction t with
  | input n => exact hfit n mem_cons_self
  | join i ty c lhs rhs ih =>
    have hl := ih fun n hn => hfit n (mem_append_left _ hn)
    have hr : ∀ r ∈ db rhs.id, r.length = rhs.size :=
      hfit rhs (mem_append_right _ mem_cons_self)
    have hinner : ∀ row ∈ innerJoin (· ++ ·) (fun _ => true)
        (flatRows I db lhs) (db rhs.id), row.length = lhs.size + rhs.size := by
      intro row hrow
      obtain ⟨l, hlmem, hx⟩ := mem_flatMap.mp hrow
      obtain ⟨r, hrmem, rfl⟩ := mem_partners hx
      rw [length_append, hl l hlmem, hr r hrmem]
    cases ty with
    | INNER => exact hinner
    | LEFT =>
      unfold flatRows
      split
      · exact hinner
      · intro row hrow
        obtain ⟨l, hlmem, hx⟩ := mem_flatMap.mp hrow
        rcases mem_orLonely hx with rfl | hx
        · rw [length_nullExtend, hl l hlmem]
          rfl
        · obtain ⟨r, hrmem, rfl⟩ := mem_partners hx
          rw [length_append, hl l hlmem, hr r hrmem]
          rfl

-- ======== conditions can wait

/-- The nested joins are the loops with all inner conditions at the
end. -/
theorem rows_eq_filter (hscope : t.Scoped) (hfit : db.Fits t) (hne : RightsNonempty db t) :
    t.rows I db = (flatRows I db t).filter (innerHolds I t) := by
  induction t with
  | input n => exact (filter_true _).symm
  | join i ty c lhs rhs ih =>
    have hfitl : db.Fits lhs := fun n hn => hfit n (mem_append_left _ hn)
    have hlhs := ih hscope.2 hfitl hne.2
    have hpre : ∀ l ∈ flatRows I db lhs, ∀ x : Row D,
        innerHolds I lhs (l ++ x) = innerHolds I lhs l := fun l hl x =>
      innerHolds_append I hscope.2 (length_flatRows I db hfitl l hl).ge x
    cases ty with
    | INNER =>
      show innerJoin _ _ (lhs.rows I db) _ = _
      rw [hlhs, innerJoin_filter_left
        fun l hl r _ => hpre l hl r, innerJoin_eq_filter,
        filter_filter]
      refine filter_congr ?_
      intro row _
      exact Bool.and_comm _ _
    | LEFT =>
      have hext : ∀ l ∈ flatRows I db lhs,
          innerHolds I lhs (nullExtend rhs l) = innerHolds I lhs l :=
        fun l hl => hpre l hl _
      show leftJoin _ _ _ (lhs.rows I db) _ = _
      rw [hlhs, leftJoin_filter_left
        (fun l hl r _ => hpre l hl r) hext, flatRows_left]
      by_cases hc : IsTrue c
      · rw [if_pos hc, leftJoin_true
          (fun row => holds_of_isTrue hc I _) _ (hne.1 rfl hc)]
        rfl
      · rw [if_neg hc]
        rfl

/-- A LEFT join on TRUE over nothing leaves the loops without rows. -/
theorem flatRows_eq_nil (hne : ¬ RightsNonempty db t) :
    flatRows I db t = [] := by
  induction t with
  | input n => exact absurd trivial hne
  | join i ty c lhs rhs ih =>
    by_cases hl : RightsNonempty db lhs
    · have hempty : ¬ (ty = .LEFT → IsTrue c → db rhs.id ≠ []) :=
        fun h => hne ⟨h, hl⟩
      push Not at hempty
      obtain ⟨rfl, hc, hnil⟩ := hempty
      unfold flatRows
      rw [if_pos hc, hnil, innerJoin_nil_right]
    · have hnil := ih hl
      cases ty with
      | INNER =>
        unfold flatRows
        rw [hnil, innerJoin_nil_left]
      | LEFT =>
        unfold flatRows
        rw [hnil]
        split
        · exact innerJoin_nil_left _ _
        · exact leftJoin_nil_left _ _

end

end Compass.LeftDeep
