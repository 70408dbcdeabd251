/-
The rebinding finds the column that is meant.

The output of a join of the tree is the output of its inputs from left to
right, a prefix of what the whole tree puts out, so a reference to any of
the joins has the same index in all of them. The first prefix sum above
the index gives the one input and the one local index that the
concatenation has there (`Pinpoints`). An input with no columns is never
found. The inputs are no joins of the tree, so what is rebound is left
alone the next time, and the visitor may come to a shared node twice.
-/
import Compass.LeftDeep.Proofs.Flatten
import Mathlib.Algebra.Order.BigOperators.Group.List
import Mathlib.Algebra.Order.Group.Nat

namespace Compass.LeftDeep

open Compass.PushDown List Option Bool

variable {D : Type} {filter : Option (Filter D)} {tree sub : JoinTree D}
  {j : RelLeftDeepInnerJoin D}

-- ======== specification

/-- The node is the flattened tree; its conditions may be anything. -/
structure Flattens (filter : Option (Filter D)) (tree : JoinTree D)
    (j : RelLeftDeepInnerJoin D) : Prop where
  inputs : j.inputs = tree.inputs
  joins : j.originalJoins = tree.originalJoins.map OriginalJoin.id
  filter : j.originalFilter = filter.map Filter.id

/-- No input is a join of the tree, or the filter on top. -/
structure Separate (filter : Option (Filter D)) (tree : JoinTree D) : Prop where
  joins : ∀ n ∈ tree.inputs, n.id ∉ tree.originalJoins.map OriginalJoin.id
  filter : ∀ n ∈ tree.inputs, ∀ f ∈ filter, f.id ≠ n.id

/-- A join of the tree, with what is below it. -/
inductive Intermediate : JoinTree D → JoinTree D → Prop
  | outermost (i : Nat) (ty : JoinType) (c : Rex D) (lhs : JoinTree D) (rhs : Node) :
      Intermediate (.join i ty c lhs rhs) (.join i ty c lhs rhs)
  | deeper {sub lhs : JoinTree D} (i : Nat) (ty : JoinType) (c : Rex D) (rhs : Node)
      (h : Intermediate sub lhs) : Intermediate sub (.join i ty c lhs rhs)

/-- A column of the output of a join, or of the filter. -/
def OutputColumn (filter : Option (Filter D)) (tree : JoinTree D) (source index : Nat) : Prop :=
  (∃ sub, Intermediate sub tree ∧ source = sub.id ∧ index < sub.size)
    ∨ ∃ f ∈ filter, source = f.id ∧ index < tree.size

/-- The concatenation of the inputs has the column `i` of the input `n`,
the `k`-th one, at the index. -/
structure Pinpoints (inputs : List Node) (index k : Nat) (n : Node) (i : Nat) : Prop where
  node : inputs[k]? = some n
  inRange : i < n.size
  sum : totalSize (inputs.take k) + i = index

/-- What a row takes from each of the inputs. -/
def Parts (inputs : List Node) (parts : List (Row D)) : Prop :=
  List.Forall₂ (fun n part => part.length = n.size) inputs parts

-- ======== the nodes

section

variable (h : Intermediate sub tree)
include h

/-- A join below starts with the same inputs. -/
theorem Intermediate.inputs : ∃ post, tree.inputs = sub.inputs ++ post := by
  induction h with
  | outermost i ty c lhs rhs => exact ⟨[], (append_nil _).symm⟩
  | deeper i ty c rhs h ih =>
    obtain ⟨post, hpost⟩ := ih
    refine ⟨post ++ [rhs], ?_⟩
    rw [JoinTree.inputs, hpost, append_assoc]

theorem Intermediate.size_le : sub.size ≤ tree.size := by
  induction h with
  | outermost i ty c lhs rhs => exact le_rfl
  | deeper i ty c rhs h ih => exact ih.trans (Nat.le_add_right _ _)

theorem Intermediate.id_mem : sub.id ∈ tree.originalJoins.map OriginalJoin.id := by
  induction h with
  | outermost i ty c lhs rhs => exact mem_cons_self
  | deeper i ty c rhs h ih => exact mem_cons_of_mem _ ih

end

variable {index : Nat} {inputs : List Node}
variable {source : Nat}

/-- Joins and filter are covered. -/
theorem Flattens.covered (hj : Flattens filter tree j) (h : OutputColumn filter tree source index) :
    j.coversOriginalNode source = true := by
  unfold RelLeftDeepInnerJoin.coversOriginalNode
  rw [hj.joins, hj.filter, or_eq_true, contains_iff_mem]
  rcases h with ⟨sub, hsub, rfl, -⟩ | ⟨f, hf, rfl, -⟩
  · exact Or.inr hsub.id_mem
  · rw [mem_def] at hf
    rw [hf]
    exact Or.inl (beq_self_eq_true _)

variable {n : Node}

/-- The inputs are not. -/
theorem Flattens.not_covered (hj : Flattens filter tree j) (hsep : Separate filter tree)
    (hn : n ∈ tree.inputs) : j.coversOriginalNode n.id = false := by
  unfold RelLeftDeepInnerJoin.coversOriginalNode
  rw [hj.joins, hj.filter, or_eq_false_iff]
  constructor
  · rw [beq_eq_false_iff_ne]
    intro h
    obtain ⟨f, hf, heq⟩ := map_eq_some_iff.mp h
    exact hsep.filter n hn f hf heq
  · rw [← not_eq_true, contains_iff_mem]
    exact hsep.joins n hn

theorem OutputColumn.lt_size (h : OutputColumn filter tree source index) :
    index < totalSize tree.inputs := by
  rw [JoinTree.totalSize_inputs]
  rcases h with ⟨sub, hsub, -, hlt⟩ | ⟨f, -, -, hlt⟩
  · exact hlt.trans_le hsub.size_le
  · exact hlt

-- ======== the column

theorem Pinpoints.cons {n : Node} {rest : List Node} {m : Node} {index k i : Nat}
    (h : Pinpoints rest (index - n.size) k m i) (hle : n.size ≤ index) :
    Pinpoints (n :: rest) index (k + 1) m i where
  node := h.node
  inRange := h.inRange
  sum := by
    have hsum := h.sum
    unfold totalSize at hsum ⊢
    rw [take_succ_cons, map_cons, sum_cons]
    omega

/-- The search finds the column. -/
theorem locate_pinpoints (h : index < totalSize inputs) :
    ∃ k n i, Pinpoints inputs index k n i ∧ locate inputs index = some (n.id, i) := by
  induction inputs generalizing index with
  | nil => exact absurd h (Nat.not_lt_zero _)
  | cons n rest ih =>
    rw [locate_cons]
    by_cases hlt : index < n.size
    · refine ⟨0, n, index, ⟨rfl, hlt, ?_⟩, if_pos hlt⟩
      simp [totalSize]
    · have hrest : index - n.size < totalSize rest := by
        unfold totalSize at h ⊢
        rw [map_cons, sum_cons] at h
        omega
      obtain ⟨k, m, i, hpin, hlocate⟩ := ih hrest
      exact ⟨k + 1, m, i, hpin.cons (not_lt.mp hlt), by rw [if_neg hlt, hlocate]⟩

variable {k : Nat}

/-- The inputs up to a place have the columns before it and its own. -/
theorem totalSize_take_succ (h : inputs[k]? = some n) :
    totalSize (inputs.take (k + 1)) = totalSize (inputs.take k) + n.size := by
  rw [take_add_one, h]
  simp [totalSize]

theorem totalSize_take_mono (inputs : List Node) {m : Nat} (h : k ≤ m) :
    totalSize (inputs.take k) ≤ totalSize (inputs.take m) := by
  exact ((take_sublist_take_left h).map Node.size).sum_le_sum fun _ _ => Nat.zero_le _

/-- There is one column. -/
theorem Pinpoints.unique {k' i i' : Nat} {n' : Node} (h : Pinpoints inputs index k n i)
    (h' : Pinpoints inputs index k' n' i') : k' = k ∧ n' = n ∧ i' = i := by
  have hsum := h.sum
  have hsum' := h'.sum
  have hin := h.inRange
  have hin' := h'.inRange
  have hsucc := totalSize_take_succ h.node
  have hsucc' := totalSize_take_succ h'.node
  have hk : k' = k := by
    rcases Nat.lt_trichotomy k' k with hlt | heq | hgt
    · have hmono := totalSize_take_mono inputs (show k' + 1 ≤ k from hlt)
      omega
    · exact heq
    · have hmono := totalSize_take_mono inputs (show k + 1 ≤ k' from hgt)
      omega
  subst hk
  have hnode : n' = n := some.inj (h'.node.symm.trans h.node)
  exact ⟨rfl, hnode, by omega⟩

variable {parts : List (Row D)}

theorem Parts.length_flatten (h : Parts inputs parts) :
    parts.flatten.length = totalSize inputs := by
  induction h with
  | nil => rfl
  | cons hlen h ih =>
    unfold totalSize at ih ⊢
    rw [flatten_cons, length_append, hlen, ih, map_cons, sum_cons]

/-- The column is the one that the input has there. -/
theorem Pinpoints.column_flatten {i : Nat} (h : Pinpoints inputs index k n i)
    (hparts : Parts inputs parts) : column parts.flatten index = column (parts.getD k []) i := by
  induction hparts generalizing index k with
  | nil => exact nomatch h.node
  | @cons m part inputs parts hlen hrest ih =>
    have hsum := h.sum
    have hin := h.inRange
    rw [flatten_cons]
    cases k with
    | zero =>
      have hnode : m = n := some.inj h.node
      subst hnode
      have hindex : i = index := by simpa [totalSize] using hsum
      subst hindex
      exact column_append _ (by omega)
    | succ k =>
      rw [take_succ_cons] at hsum
      unfold totalSize at hsum
      rw [map_cons, sum_cons] at hsum
      have hpin : Pinpoints inputs (index - m.size) k n i :=
        ⟨h.node, hin, by unfold totalSize; omega⟩
      have hcolumn := ih hpin
      unfold column at hcolumn ⊢
      rw [getD_eq_getElem?_getD, getElem?_append_right (by omega), hlen,
        ← getD_eq_getElem?_getD, hcolumn]
      rfl

/-- A join puts out the parts of its own inputs, which come first. -/
theorem Intermediate.column_take (h : Intermediate sub tree) (hindex : index < sub.size)
    (hparts : Parts tree.inputs parts) :
    column (parts.take sub.inputs.length).flatten index = column parts.flatten index := by
  obtain ⟨post, hpost⟩ := h.inputs
  have htake : Parts sub.inputs (parts.take sub.inputs.length) := by
    have hall := forall₂_take sub.inputs.length hparts
    rwa [hpost, take_left' rfl] at hall
  have hlength := htake.length_flatten
  rw [JoinTree.totalSize_inputs] at hlength
  conv_rhs => rw [← take_append_drop sub.inputs.length parts, flatten_append]
  exact (column_append _ (by omega)).symm

-- ======== the rebinding

theorem rebindInput_of_not_covered (h : j.coversOriginalNode source = false) (index : Nat) :
    rebindInput j source index = some (.input source index) := by
  unfold rebindInput
  rw [h]
  rfl

/-- What the rebinding gives is a column of an input, or was left alone. -/
theorem rebindInput_again (hj : Flattens filter tree j) (hsep : Separate filter tree) {r : Rex D}
    (h : rebindInput j source index = some r) :
    ∀ p ∈ r.inputs, rebindInput j p.1 p.2 = some (.input p.1 p.2) := by
  unfold rebindInput at h
  by_cases hcov : j.coversOriginalNode source = true
  · rw [if_pos hcov] at h
    obtain ⟨q, hq, rfl⟩ := Option.map_eq_some_iff.mp h
    intro p hp
    obtain rfl : p = (q.1, q.2) := mem_singleton.mp hp
    -- The search found a node of the list.
    have hmem : ∃ n ∈ tree.inputs, n.id = q.1 := by
      unfold locate at hq
      simp only [Option.bind_eq_bind, Option.bind_eq_some_iff, Option.pure_def,
        Option.some.injEq] at hq
      obtain ⟨k, -, n, hn, rfl⟩ := hq
      rw [hj.inputs] at hn
      exact ⟨n, mem_of_getElem? hn, rfl⟩
    obtain ⟨n, hn, hid⟩ := hmem
    rw [← hid]
    exact rebindInput_of_not_covered (hj.not_covered hsep hn) _
  · rw [if_neg hcov] at h
    obtain rfl := Option.some.inj h
    intro p hp
    obtain rfl : p = (source, index) := mem_singleton.mp hp
    exact rebindInput_of_not_covered (not_eq_true _ ▸ hcov) index

/-- Every reference to a column of a join goes to the one column of an
input that it denotes; an expression of such references is rebound, and
rebinding again changes nothing. -/
theorem rebindInputs_correct (filter : Option (Filter D)) (tree : JoinTree D)
    (j : RelLeftDeepInnerJoin D) (hj : Flattens filter tree j) (hsep : Separate filter tree) :
    (∀ source index, OutputColumn filter tree source index →
        ∃ k n i, Pinpoints tree.inputs index k n i
          ∧ (∀ k' n' i', Pinpoints tree.inputs index k' n' i' → k' = k ∧ n' = n ∧ i' = i)
          ∧ rebindInput j source index = some (.input n.id i)
          ∧ (∀ parts : List (Row D), Parts tree.inputs parts →
              column parts.flatten index = column (parts.getD k []) i
                ∧ ∀ sub, Intermediate sub tree → index < sub.size →
                    column (parts.take sub.inputs.length).flatten index
                      = column (parts.getD k []) i)
          ∧ rebindInput j n.id i = some (.input n.id i))
      ∧ (∀ e : Rex D, (∀ p ∈ e.inputs, j.coversOriginalNode p.1 = true → p.2 < tree.size) →
            ∃ e', rebindInputsFromLeftDeepJoin j e = some e')
      ∧ ∀ e e' : Rex D, rebindInputsFromLeftDeepJoin j e = some e' →
          rebindInputsFromLeftDeepJoin j e' = some e' := by
  refine ⟨fun source index h => ?_, fun e h => ?_, fun e e' h => ?_⟩
  · obtain ⟨k, n, i, hpin, hlocate⟩ := locate_pinpoints h.lt_size
    refine ⟨k, n, i, hpin, fun _ _ _ h' => hpin.unique h', ?_, fun parts hparts => ?_, ?_⟩
    · unfold rebindInput
      rw [if_pos (hj.covered h), hj.inputs, hlocate]
      rfl
    · have hcolumn := hpin.column_flatten hparts
      refine ⟨hcolumn, fun sub hsub hlt => ?_⟩
      rw [hsub.column_take hlt hparts, hcolumn]
    · exact rebindInput_of_not_covered
        (hj.not_covered hsep (mem_of_getElem? hpin.node)) i
  · refine Rex.exists_deepCopy e fun p hp => ?_
    unfold rebindInput
    split
    · next hcov =>
        have hlt := h p hp hcov
        rw [← JoinTree.totalSize_inputs] at hlt
        obtain ⟨k, n, i, -, hlocate⟩ := locate_pinpoints hlt
        rw [hj.inputs, hlocate]
        exact ⟨_, rfl⟩
    · exact ⟨_, rfl⟩
  · refine Rex.deepCopy_self fun p hp => ?_
    obtain ⟨q, -, r, hr, hin⟩ := Rex.inputs_deepCopy h p hp
    exact rebindInput_again hj hsep hr p hin

/-- Two joins over inputs with two, no and three columns. -/
def emptyInput : JoinTree Nat :=
  .join 11 .LEFT (.literal .null)
    (.join 10 .INNER (.literal .null) (.input ⟨1, 2⟩) ⟨2, 0⟩) ⟨3, 3⟩

def emptyInputFlat : RelLeftDeepInnerJoin Nat where
  condition := .literal .null
  originalFilter := none
  originalJoins := [11, 10]
  outerConditionsPerLevel := [some (.literal .null), none]
  inputs := [⟨1, 2⟩, ⟨2, 0⟩, ⟨3, 3⟩]

/-- The third column of the outer join is the first one of the last input. -/
example : rebindInput emptyInputFlat 11 2 = some (.input 3 0) := rfl

theorem rebindInputs_correct_emptyInput :
    (∀ source index, OutputColumn none emptyInput source index →
        ∃ k n i, Pinpoints emptyInput.inputs index k n i
          ∧ (∀ k' n' i', Pinpoints emptyInput.inputs index k' n' i' → k' = k ∧ n' = n ∧ i' = i)
          ∧ rebindInput emptyInputFlat source index = some (.input n.id i)
          ∧ (∀ parts : List (Row Nat), Parts emptyInput.inputs parts →
              column parts.flatten index = column (parts.getD k []) i
                ∧ ∀ sub, Intermediate sub emptyInput → index < sub.size →
                    column (parts.take sub.inputs.length).flatten index
                      = column (parts.getD k []) i)
          ∧ rebindInput emptyInputFlat n.id i = some (.input n.id i))
      ∧ (∀ e : Rex Nat,
          (∀ p ∈ e.inputs, emptyInputFlat.coversOriginalNode p.1 = true → p.2 < emptyInput.size) →
            ∃ e', rebindInputsFromLeftDeepJoin emptyInputFlat e = some e')
      ∧ ∀ e e' : Rex Nat, rebindInputsFromLeftDeepJoin emptyInputFlat e = some e' →
          rebindInputsFromLeftDeepJoin emptyInputFlat e' = some e' :=
  rebindInputs_correct none emptyInput emptyInputFlat ⟨rfl, rfl, rfl⟩
    ⟨by decide, fun _ _ _ h => nomatch h⟩

end Compass.LeftDeep
