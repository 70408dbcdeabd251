/-
`simplify_sort` keeps the rows of every node when all it drops is
redundant, and over a scan only then.

A redundant sort is undone by sorting again, so the rows of the second
sort are those of a sort of the first one's input, and the old rows
satisfy the equations of the new plan (`Linked.rows_setSortInput`).

Over a scan the rows are arbitrary, so every OFFSET that is skipped twice
and every permutation shows in some database (`Linked.offset_eq_zero`,
`Linked.exprs_eq`).
-/
import Compass.Optimizer.Proofs.NodeVector
import Compass.Optimizer.Proofs.Sorting

namespace Compass.Optimizer

open Compass.PushDown List Option Function
open Compass.RelAlg
open Compass.LeftDeep (Row Database column)

variable {D : Type} {P : Plan D}

-- ======== one node

/-- The node with its input replaced, if it is the sort. -/
def resetSortInput (id input : Nat) (n : RelAlgNode D) : RelAlgNode D :=
  match n.body with
  | .sort _ fields limit offset =>
    if n.id = id then ⟨n.id, .sort input fields limit offset⟩ else n
  | _ => n

section

variable {k x : Nat} {n : RelAlgNode D}

theorem resetSortInput_cases (k x : Nat) (n : RelAlgNode D) :
    (n.id ≠ k ∨ ∀ input fields limit offset, n.body ≠ .sort input fields limit offset)
        ∧ resetSortInput k x n = n
      ∨ (n.id = k ∧ ∃ input fields limit offset, n = ⟨k, .sort input fields limit offset⟩
          ∧ resetSortInput k x n = ⟨k, .sort x fields limit offset⟩) := by
  obtain ⟨id, body⟩ := n
  cases body with
  | sort input fields limit offset =>
    by_cases hid : id = k
    · subst hid
      exact .inr ⟨rfl, input, fields, limit, offset, rfl, if_pos rfl⟩
    · exact .inl ⟨.inl hid, if_neg hid⟩
  | _ => exact .inl ⟨.inr (by simp), rfl⟩

@[simp] theorem resetSortInput_id : (resetSortInput k x n).id = n.id := by
  rcases resetSortInput_cases k x n with ⟨-, h⟩ | ⟨hid, _, _, _, _, -, h⟩
  · rw [h]
  · rw [h, hid]

end

variable {k x : Nat}

theorem setSortInput_eq_map : setSortInput P k x = P.map (resetSortInput k x) := rfl

theorem mem_setSortInput {n : RelAlgNode D} :
    n ∈ setSortInput P k x ↔ ∃ m ∈ P, resetSortInput k x m = n :=
  mem_map

theorem setSortInput_node? (i : Nat) :
    (setSortInput P k x).node? i = (P.node? i).map (resetSortInput k x) := by
  unfold Plan.node?
  rw [setSortInput_eq_map, find?_map]
  simp only [comp_def, resetSortInput_id]

theorem resetSortInput_sidesOf (n : RelAlgNode D) :
    (resetSortInput k x n).sidesOf = n.sidesOf := by
  rcases resetSortInput_cases k x n with ⟨-, h⟩ | ⟨-, _, _, _, _, rfl, h⟩
  · rw [h]
  · rw [h]
    rfl

-- ======== one step

/-- A sort, a project with as many columns and a sort, each the input of
the next. -/
structure Linked (P : Plan D) (i j k x : Nat) (fields fields' : List SortField)
    (limit limit' offset offset' : Nat) (exprs : List (Rex D)) (names : List String) : Prop where
  first : ⟨i, .sort x fields limit offset⟩ ∈ P
  project : ⟨j, .project i exprs names⟩ ∈ P
  second : ⟨k, .sort j fields' limit' offset'⟩ ∈ P
  size : P.sizes i = exprs.length

namespace Linked

variable {i j : Nat} {fields fields' : List SortField} {limit limit' offset offset' : Nat}
variable {exprs : List (Rex D)} {names : List String}
variable (L : Linked P i j k x fields fields' limit limit' offset offset' exprs names)
include L

variable (hord : P.Ordered)
include hord

theorem sizes_eq : P.sizes x = P.sizes k ∧ P.sizes i = P.sizes k := by
  have hi : P.sizes i = P.sizes x := Plan.sizes_eq hord L.first
  have hj : P.sizes j = exprs.length := Plan.sizes_eq hord L.project
  have hk : P.sizes k = P.sizes j := Plan.sizes_eq hord L.second
  have hsize := L.size
  omega

theorem ordered : (setSortInput P k x).Ordered := by
  refine Tabulate.Ordered.map hord (g := resetSortInput k x) (fun n => resetSortInput_id) ?_
  intro pre n post hP l hl
  have hn : n ∈ P := by simp [hP]
  rcases resetSortInput_cases k x n with ⟨-, h⟩ | ⟨hid, _, _, _, _, -, h⟩
  · rw [h] at hl
    exact hord.mem_before hP hl
  · -- `x` is read by `i`, `i` by `j` and `j` by `k`
    rw [h] at hl
    obtain rfl := mem_singleton.mp hl
    have hk := hord.eq_of_key hn L.second hid
    subst hk
    obtain ⟨m, hm, hmj⟩ := hord.mem_before hP (mem_singleton.mpr rfl)
    have hmem : ∀ y ∈ pre, y ∈ P := fun y hy => by simp [hP, hy]
    obtain rfl := hord.eq_of_key (hmem m hm) L.project hmj
    obtain ⟨m', hm', hmi⟩ := hord.mem_initial hP hm (mem_singleton.mpr rfl)
    obtain rfl := hord.eq_of_key (hmem m' hm') L.first hmi
    exact hord.mem_initial hP hm' (mem_singleton.mpr rfl)

theorem sizes_setSortInput : (setSortInput P k x).sizes = P.sizes := by
  refine Tabulate.tabulate_unique (L.ordered hord) size_local ?_ ?_
  · intro l hl
    refine Tabulate.tabulate_of_ne ?_
    intro n hn
    have := hl _ (mem_setSortInput.mpr ⟨n, hn, rfl⟩)
    rwa [resetSortInput_id] at this
  · intro n hn
    obtain ⟨m, hm, rfl⟩ := mem_setSortInput.mp hn
    rcases resetSortInput_cases k x m with ⟨-, h⟩ | ⟨hid, _, _, _, _, -, h⟩
    · rw [h]
      exact Plan.sizes_eq hord hm
    · rw [h]
      exact (L.sizes_eq hord).1.symm

theorem sameShape : P.SameShape (setSortInput P k x) :=
  .of_map (L.sizes_setSortInput hord) setSortInput_node? resetSortInput_sidesOf

omit hord in
theorem wellFormed (hwf : P.WellFormed) : (setSortInput P k x).WellFormed := by
  have hshape := L.sameShape hwf.ordered
  refine ⟨L.ordered hwf.ordered, ?_, ?_⟩
  · intro n hn
    obtain ⟨m, hm, rfl⟩ := mem_setSortInput.mp hn
    refine hshape.scoped ?_
    have hscope := hwf.inScope m hm
    rcases resetSortInput_cases k x m with ⟨-, h⟩ | ⟨hid, _, _, _, _, rfl, h⟩
    · rwa [h]
    · rw [h]
      have heq := hwf.ordered.eq_of_key hm L.second rfl
      injection heq with _ hbody
      injection hbody with hinput hfields
      intro f hf
      have hlt : f.field < _ := hscope f hf
      have hsizes := (L.sizes_eq hwf.ordered).1
      have hj : P.sizes k = P.sizes j := Plan.sizes_eq hwf.ordered L.second
      rw [hinput] at hlt
      show f.field < P.sizes x
      omega
  · intro n hn
    obtain ⟨m, hm, rfl⟩ := mem_setSortInput.mp hn
    rw [resetSortInput_id, hshape.sizes]
    exact hwf.nonempty m hm

theorem fits {db : Database D} (hfits : P.Fits db) : (setSortInput P k x).Fits db := by
  intro n hn hleaf
  obtain ⟨m, hm, rfl⟩ := mem_setSortInput.mp hn
  rw [resetSortInput_id, L.sizes_setSortInput hord]
  rcases resetSortInput_cases k x m with ⟨-, h⟩ | ⟨hid, _, _, _, _, rfl, h⟩
  · rw [h] at hleaf
    exact hfits m hm hleaf
  · rw [h] at hleaf
    cases hleaf

theorem rows_second [DecidableEq D] {E : Engine D} {db : Database D} :
    P.rows E db k = sortRows E fields' limit' offset'
      ((sortRows E fields limit offset (P.rows E db x)).map fun row =>
        exprs.map (·.evalWith E.toInterp (inputColumn P i row))) := by
  have hi : P.rows E db i = sortRows E fields limit offset (P.rows E db x) :=
    Plan.rows_eq E db hord L.first
  have hj : P.rows E db j = (P.rows E db i).map fun row =>
      exprs.map (·.evalWith E.toInterp (inputColumn P i row)) :=
    Plan.rows_eq E db hord L.project
  have hk : P.rows E db k = sortRows E fields' limit' offset' (P.rows E db j) :=
    Plan.rows_eq E db hord L.second
  rw [hk, hj, hi]

/-- The old rows are those of the new plan when the second sort has those
of a sort of the first one's input. -/
theorem rows_setSortInput [DecidableEq D] {E : Engine D} {db : Database D}
    (hsecond : P.rows E db k = sortRows E fields' limit' offset' (P.rows E db x)) :
    (setSortInput P k x).rows E db = P.rows E db := by
  refine Tabulate.tabulate_unique (L.ordered hord) (nodeRows_local _ E db) ?_ ?_
  · intro l hl
    refine Tabulate.tabulate_of_ne ?_
    intro n hn
    have := hl _ (mem_setSortInput.mpr ⟨n, hn, rfl⟩)
    rwa [resetSortInput_id] at this
  · intro n hn
    obtain ⟨m, hm, rfl⟩ := mem_setSortInput.mp hn
    rw [(L.sameShape hord).nodeRows_eq]
    rcases resetSortInput_cases k x m with ⟨-, h⟩ | ⟨hid, _, _, _, _, rfl, h⟩
    · rw [h]
      exact Plan.rows_eq E db hord hm
    · rw [h]
      have heq := hord.eq_of_key hm L.second rfl
      injection heq with _ hbody
      injection hbody with _ hfields hlimit hoffset
      subst hfields hlimit hoffset
      exact hsecond

end Linked

/-- A project of all columns changes nothing. -/
theorem map_identityExprs [DecidableEq D] {E : Engine D} {db : Database D} (hwf : P.WellFormed)
    (hfits : P.Fits db) {i y limit offset : Nat} {fields : List SortField}
    (hnode : ⟨i, .sort y fields limit offset⟩ ∈ P) :
    ((P.rows E db i).map fun row =>
        (identityExprs i (P.sizes i)).map (·.evalWith E.toInterp (inputColumn P i row)))
      = P.rows E db i := by
  have hsides : P.sides i = none := by
    unfold Plan.sides
    rw [Plan.node?_of_mem hwf.ordered hnode]
  refine (map_congr_left ?_).trans (map_id _)
  intro row hrow
  have hlen : row.length = P.sizes i := Plan.rows_length hwf hfits _ hnode row hrow
  unfold identityExprs
  refine ext_getElem (by simp [hlen]) ?_
  intro c hc (hc' : c < row.length)
  show _ = row[c]
  simp only [getElem_map, getElem_range, Rex.evalWith]
  rw [inputColumn_self hsides, column, getD_eq_getElem?_getD, getElem?_eq_getElem hc', getD_some]

/-- The nodes of a redundant pair. -/
theorem Redundant.linked {i j k : Nat} (h : Redundant P i j k) :
    ∃ x fields fields' limit names, Linked P i j k x fields fields' limit limit 0 0
        (identityExprs i (P.sizes i)) names ∧ SameFields P x fields fields' := by
  obtain ⟨x, fields, fields', limit, names, hfirst, hproject, hsecond, hsame⟩ := h
  exact ⟨x, fields, fields', limit, names, ⟨hfirst, hproject, hsecond, by simp [identityExprs]⟩,
    hsame⟩

/-- What is redundant can be dropped. -/
theorem Linked.rows_of_redundant [DecidableEq D] {E : Engine D} {db : Database D} (hE : Orders E)
    (hwf : P.WellFormed) (hfits : P.Fits db) {i j k x limit : Nat}
    {fields fields' : List SortField} {names : List String}
    (L : Linked P i j k x fields fields' limit limit 0 0 (identityExprs i (P.sizes i)) names)
    (hsame : SameFields P x fields fields') :
    (setSortInput P k x).rows E db = P.rows E db := by
  refine L.rows_setSortInput hwf.ordered ?_
  have hi : P.rows E db i = sortRows E fields limit 0 (P.rows E db x) :=
    Plan.rows_eq E db hwf.ordered L.first
  rw [L.rows_second hwf.ordered, ← hi, map_identityExprs hwf hfits L.first, hi]
  refine sortRows_sortRows hE ?_
  intro row hrow
  refine hsame.imp ?_
  rintro f f' ⟨hdir, hpos, hcol⟩
  exact ⟨hdir, hpos, hcol.column_eq hwf hfits row hrow⟩

-- ======== the pass

/-- What the loop has seen when it drops two nodes. -/
theorem simplifiable_cases {i j k x : Nat} (h : simplifiable P i j k = some (some x)) :
    ∃ fields fields' limit offset source second exprs names,
      ⟨i, .sort x fields limit offset⟩ ∈ P ∧ ⟨j, .project source exprs names⟩ ∈ P
        ∧ ⟨k, .sort second fields' limit offset⟩ ∈ P ∧ isIdentity P source exprs = true
        ∧ hasEquivCollationOf P i k fields fields' = some true := by
  unfold simplifiable at h
  split at h
  · next x' fields limit offset source exprs names second fields' limit' offset' hi hj hk =>
      obtain ⟨⟨_, _⟩, hni, rfl⟩ := map_eq_some_iff.mp hi
      obtain ⟨⟨_, _⟩, hnj, rfl⟩ := map_eq_some_iff.mp hj
      obtain ⟨⟨_, _⟩, hnk, rfl⟩ := map_eq_some_iff.mp hk
      obtain ⟨hmi, rfl⟩ := Plan.mem_of_node? hni
      obtain ⟨hmj, rfl⟩ := Plan.mem_of_node? hnj
      obtain ⟨hmk, rfl⟩ := Plan.mem_of_node? hnk
      split at h
      · next hcond =>
          obtain ⟨hid, rfl, rfl⟩ := hcond
          obtain ⟨b, hb, h⟩ := bind_eq_some_iff.mp h
          cases b with
          | false => cases h
          | true =>
            obtain rfl := some.inj (some.inj h)
            exact ⟨fields, fields', limit, offset, source, second, exprs, names, hmi, hmj, hmk,
              hid, hb⟩
      · cases h
  · cases h

/-- The loop, over the nodes that are left. It ends with the last node it
started with. -/
theorem simplifySortLoop_rows [DecidableEq D] {ids : List Nat} (hwf : P.WellFormed)
    (h : DropsRedundant P ids) :
    ∃ P' kept, simplifySortLoop P ids = some (P', kept) ∧ kept.getLast? = ids.getLast?
      ∧ ∀ E db, Orders E → P.Fits db → P'.rows E db = P.rows E db := by
  induction P, ids using simplifySortLoop.induct with
  | case1 P i j k ids ih₁ ih₂ =>
    rw [DropsRedundant] at h
    rw [simplifySortLoop]
    cases hfound : simplifiable P i j k with
    | none =>
      rw [hfound] at h
      exact h.elim
    | some found =>
      rw [hfound] at h
      cases found with
      | some x =>
        obtain ⟨hred, hrest⟩ := h
        obtain ⟨x', fields, fields', limit, names, L, hsame⟩ := hred.linked
        obtain ⟨_, _, _, _, _, _, _, _, hi, -⟩ := simplifiable_cases hfound
        have hx : x' = x := by
          have heq := hwf.ordered.eq_of_key L.first hi rfl
          injection heq with _ hbody
          injection hbody
        subst hx
        obtain ⟨P', kept, hloop, hlast, hrows⟩ := ih₁ x' (L.wellFormed hwf) hrest
        refine ⟨P', k :: kept, ?_, ?_, ?_⟩
        · simp only [bind_eq_bind, bind_some, hloop]
          rfl
        · rw [getLast?_cons, hlast]
          simp only [getLast?_cons, getD_some]
        · intro E db hE hfits
          rw [hrows E db hE (L.fits hwf.ordered hfits), L.rows_of_redundant hE hwf hfits hsame]
      | none =>
        obtain ⟨P', kept, hloop, hlast, hrows⟩ := ih₂ hwf h
        refine ⟨P', i :: kept, ?_, ?_, hrows⟩
        · simp only [bind_eq_bind, bind_some, hloop]
          rfl
        · rw [getLast?_cons, hlast]
          simp only [getLast?_cons, getD_some]
  | case2 P ids hshort =>
    refine ⟨P, ids, ?_, rfl, fun _ _ _ _ => rfl⟩
    rw [simplifySortLoop]
    exact hshort

-- ======== over a scan

/-- An engine for which all values are equal. -/
def indifferent : Engine D where
  apply _ _ _ := .null
  func _ _ _ := .null
  ref _ := .null
  subQuery _ := .null
  aggregate _ _ _ _ := .null
  precedes _ _ _ _ := false

theorem orders_indifferent : Orders (indifferent (D := D)) :=
  ⟨fun h => absurd h Bool.false_ne_true, fun h => absurd h Bool.false_ne_true⟩

theorem sortRows_indifferent (fields : List SortField) (limit offset : Nat) (rows : List (Row D)) :
    sortRows indifferent fields limit offset rows
      = if limit = 0 then rows.drop offset else (rows.drop offset).take limit := by
  have hequal : ∀ r s : Row D, sortsBefore indifferent fields r s = false := by
    intro r s
    induction fields with
    | nil => rfl
    | cons f fields ih =>
      exact ih
  have hsort : rows.mergeSort (fun r s => !sortsBefore indifferent fields s r) = rows := by
    refine mergeSort_of_pairwise (pairwise_of_forall ?_)
    intro r s
    rw [hequal, Bool.not_false]
  unfold sortRows
  rw [hsort]

theorem sortRows_one (fields : List SortField) (limit : Nat) (row : Row D) :
    sortRows indifferent fields limit 0 [row] = [row] := by
  rw [sortRows_indifferent]
  split
  · rfl
  · next hlimit => exact take_of_length_le (Nat.one_le_iff_ne_zero.mpr hlimit)

/-- A database with these rows in one table and none in the others. -/
def only (x : Nat) (rows : List (Row D)) : Database D :=
  fun id => if id = x then rows else []

theorem fits_only {x : Nat} {rows : List (Row D)} (hrows : ∀ row ∈ rows, row.length = P.sizes x) :
    P.Fits (only x rows) := by
  intro n _ _ row hrow
  unfold only at hrow
  split at hrow
  · next hid =>
      rw [hid]
      exact hrows row hrow
  · cases hrow

section Scan

variable [DecidableEq D] {i j size limit offset : Nat} {fields fields' : List SortField}
variable {exprs : List (Rex D)} {names : List String}
variable (hwf : P.WellFormed) (hscan : ⟨x, .scan size⟩ ∈ P)
variable (L : Linked P i j k x fields fields' limit limit offset offset exprs names)

include hwf hscan L in
/-- The rows of the second sort before and after, from those of the scan. -/
theorem Linked.rows_scan (rows : List (Row D)) :
    P.rows indifferent (only x rows) k = sortRows indifferent fields' limit offset
        ((sortRows indifferent fields limit offset rows).map fun row =>
          exprs.map (·.evalWith indifferent.toInterp (inputColumn P i row)))
      ∧ (setSortInput P k x).rows indifferent (only x rows) k
        = sortRows indifferent fields' limit offset rows := by
  have hx : P.rows indifferent (only x rows) x = rows := by
    rw [Plan.rows_eq _ _ hwf.ordered hscan]
    exact if_pos rfl
  have hord := L.ordered hwf.ordered
  have hscan' : ⟨x, .scan size⟩ ∈ setSortInput P k x := mem_setSortInput.mpr ⟨_, hscan, rfl⟩
  have hx' : (setSortInput P k x).rows indifferent (only x rows) x = rows := by
    rw [Plan.rows_eq _ _ hord hscan']
    exact if_pos rfl
  have hk' : ⟨k, .sort x fields' limit offset⟩ ∈ setSortInput P k x :=
    mem_setSortInput.mpr ⟨_, L.second, if_pos rfl⟩
  constructor
  · rw [L.rows_second hwf.ordered, hx]
  · rw [Plan.rows_eq _ _ hord hk']
    show sortRows _ _ _ _ ((setSortInput P k x).rows _ _ x) = _
    rw [hx']

variable (hout : ∀ (E : Engine D) db, Orders E → P.Fits db →
  SameOutput fields' (P.rows E db k) ((setSortInput P k x).rows E db k))

include hwf hscan L hout in
/-- An OFFSET is skipped twice, and one row more than it has shows that. -/
theorem Linked.offset_eq_zero : offset = 0 := by
  by_contra hoffset
  let rows : List (Row D) := replicate (offset + 1) (replicate (P.sizes x) .null)
  have hfits : P.Fits (only x rows) := by
    refine fits_only ?_
    intro row hrow
    rw [eq_of_mem_replicate hrow, length_replicate]
  obtain ⟨hbefore, hafter⟩ := L.rows_scan hwf hscan rows
  have hlen := (hout indifferent (only x rows) orders_indifferent hfits).1.length_eq
  rw [hbefore, hafter, sortRows_indifferent, sortRows_indifferent, sortRows_indifferent] at hlen
  by_cases hlimit : limit = 0
  · simp only [if_pos hlimit, length_drop, length_map, rows, length_replicate] at hlen
    omega
  · simp only [if_neg hlimit, length_drop, length_map, length_take, rows, length_replicate] at hlen
    omega

include hwf hscan L hout in
/-- One row with one value other than NULL shows where a column goes. -/
theorem Linked.exprs_eq (hsimple : isSimple exprs = true) :
    exprs = identityExprs i (P.sizes i) := by
  obtain rfl := L.offset_eq_zero hwf hscan hout
  have hsides : P.sides i = none := by
    unfold Plan.sides
    rw [Plan.node?_of_mem hwf.ordered L.first]
  have hscope := hwf.inScope _ L.project
  have hinput : ∀ e ∈ exprs, ∃ q < P.sizes i, e = .input i q := by
    intro e he
    have hin := all_eq_true.mp hsimple e he
    cases e with
    | input s q =>
      have hp := hscope _ he (s, q) (mem_singleton.mpr rfl)
      unfold Plan.InScope at hp
      rw [hsides] at hp
      obtain ⟨rfl, hq⟩ := hp
      exact ⟨q, hq, rfl⟩
    | _ => cases hin
  refine ext_getElem (by simp [identityExprs, L.size]) ?_
  intro c hc hc'
  obtain ⟨q, hq, heq⟩ := hinput exprs[c] (getElem_mem hc)
  simp only [identityExprs, getElem_map, getElem_range]
  rw [heq]
  by_contra hne
  have hqc : q ≠ c := fun h => hne (by rw [h])
  have hsizes := L.sizes_eq hwf.ordered
  let row : Row D := (range (P.sizes x)).map fun a => if a = c then .bool true else .null
  have hread : ∀ a < P.sizes x, column row a = if a = c then .bool true else .null := by
    intro a ha
    unfold column
    rw [getD_eq_getElem?_getD, getElem?_map, getElem?_range ha]
    rfl
  have hfits : P.Fits (only x [row]) := by
    refine fits_only ?_
    intro r hr
    rw [mem_singleton.mp hr, length_map, length_range]
  obtain ⟨hbefore, hafter⟩ := L.rows_scan hwf hscan [row]
  have hperm := (hout indifferent (only x [row]) orders_indifferent hfits).1
  rw [hbefore, hafter, sortRows_one, map_singleton, sortRows_one, sortRows_one,
    singleton_perm_singleton] at hperm
  have hcolumn : column _ c = column row c := congrArg (column · c) hperm
  have hexpr : exprs[c]? = some (.input i q) := by rw [getElem?_eq_getElem hc, heq]
  have hlen := L.size
  rw [column_map hexpr, Rex.evalWith, inputColumn_self hsides, hread q (by omega),
    hread c (by omega), if_neg hqc, if_pos rfl] at hcolumn
  cases hcolumn

omit [DecidableEq D] in
/-- The columns that a column of a sort comes from. -/
theorem getEquivCols_sort (hord : P.Ordered) {node input fuel col : Nat}
    {collation : List SortField} {l o : Nat} (hnode : ⟨node, .sort input collation l o⟩ ∈ P)
    {keys : List (Nat × Nat)} (h : getEquivCols P fuel node col = some keys) :
    ∃ fuel' rest, getEquivCols P fuel' input col = some rest ∧ keys = (node, col) :: rest := by
  cases fuel with
  | zero => cases h
  | succ fuel =>
    rw [getEquivCols, Plan.node?_of_mem hord hnode] at h
    obtain ⟨rest, hrest, h⟩ := bind_eq_some_iff.mp h
    exact ⟨fuel, rest, hrest, (some.inj h).symm⟩

omit [DecidableEq D] in
theorem getEquivCols_scan (hord : P.Ordered) (hscan : ⟨x, .scan size⟩ ∈ P) {fuel col : Nat}
    {keys : List (Nat × Nat)} (h : getEquivCols P fuel x col = some keys) :
    keys = [(x, col)] := by
  cases fuel with
  | zero => cases h
  | succ fuel =>
    rw [getEquivCols, Plan.node?_of_mem hord hscan] at h
    exact (some.inj h).symm

omit [DecidableEq D] in
/-- A column of the identity comes from the same column. -/
theorem getEquivCols_identity (hord : P.Ordered)
    (hnode : ⟨j, .project i (identityExprs i size) names⟩ ∈ P) {fuel col : Nat}
    {keys : List (Nat × Nat)} (h : getEquivCols P fuel j col = some keys) :
    ∃ fuel' rest, getEquivCols P fuel' i col = some rest ∧ keys = (j, col) :: rest := by
  cases fuel with
  | zero => cases h
  | succ fuel =>
    rw [getEquivCols, Plan.node?_of_mem hord hnode] at h
    simp only [map_some] at h
    by_cases hcol : col < size
    · have hexpr : (identityExprs i size : List (Rex D))[col]? = some (.input i col) := by
        unfold identityExprs
        rw [getElem?_map, getElem?_range hcol]
        rfl
      rw [hexpr] at h
      obtain ⟨rest, hrest, h⟩ := bind_eq_some_iff.mp h
      exact ⟨fuel, rest, hrest, (some.inj h).symm⟩
    · have hexpr : (identityExprs i size : List (Rex D))[col]? = none := by
        unfold identityExprs
        rw [getElem?_eq_none_iff, length_map, length_range]
        omega
      rw [hexpr] at h
      cases h

include hwf hscan L in
omit [DecidableEq D] in
/-- Over the identity of a scan, fields that are found equal are. -/
theorem Linked.sameField (hid : exprs = identityExprs i (P.sizes i)) {f f' : SortField}
    (h : equivField P i k f f' = some true) :
    f.sortDir = f'.sortDir ∧ f.nullsPosition = f'.nullsPosition
      ∧ SameColumn P x f.field f'.field := by
  have hord := hwf.ordered
  have hne : ∀ {m n : RelAlgNode D}, m ∈ P → n ∈ P → m.body ≠ n.body → m.id ≠ n.id := by
    intro m n hm hn hbody hkey
    exact hbody (by rw [hord.eq_of_key hm hn hkey])
  subst hid
  unfold equivField at h
  split at h
  · cases h
  next hsame =>
  obtain ⟨thisKeys, hthis, h⟩ := bind_eq_some_iff.mp h
  obtain ⟨thatKeys, hthat, h⟩ := bind_eq_some_iff.mp h
  obtain ⟨_, _, hscanned, rfl⟩ := getEquivCols_sort hord L.first hthis
  obtain rfl := getEquivCols_scan hord hscan hscanned
  obtain ⟨_, _, hproject, rfl⟩ := getEquivCols_sort hord L.second hthat
  obtain ⟨_, _, hfirst, rfl⟩ := getEquivCols_identity hord L.project hproject
  obtain ⟨_, _, hscanned', rfl⟩ := getEquivCols_sort hord L.first hfirst
  obtain rfl := getEquivCols_scan hord hscan hscanned'
  have hxi : x ≠ i := hne hscan L.first (by simp)
  have hxj : x ≠ j := hne hscan L.project (by simp)
  have hxk : x ≠ k := hne hscan L.second (by simp)
  have hij : i ≠ j := hne L.first L.project (by simp)
  have hik : i ≠ k := by
    intro heq
    subst heq
    have hself := hord.eq_of_key L.first L.second rfl
    injection hself with _ hbody
    injection hbody with hinput
    exact hxj hinput
  have hfield : f.field = f'.field := by
    have hany := some.inj h
    simp only [any_cons, any_nil, contains_cons, contains_nil,
      Bool.or_eq_true, beq_iff_eq, Prod.mk.injEq] at hany
    grind
  rw [hfield]
  push Not at hsame
  exact ⟨hsame.1, hsame.2, .refl _ _⟩

include hwf hscan L in
omit [DecidableEq D] in
theorem Linked.sameFields (hid : exprs = identityExprs i (P.sizes i))
    (h : hasEquivCollationOf P i k fields fields' = some true) : SameFields P x fields fields' := by
  have hsteps : ∀ {fs fs' : List SortField}, hasEquivCollationOf P i k fs fs' = some true →
      SameFields P x fs fs' := by
    intro fs fs' hfs
    induction fs generalizing fs' with
    | nil =>
      cases fs' with
      | nil => exact .nil
      | cons => cases hfs
    | cons f fs ih =>
      cases fs' with
      | nil => cases hfs
      | cons f' fs' =>
        rw [hasEquivCollationOf] at hfs
        obtain ⟨b, hb, hfs⟩ := bind_eq_some_iff.mp hfs
        cases b with
        | false => cases hfs
        | true => exact .cons (L.sameField hwf hscan hid hb) (ih hfs)
  exact hsteps h

end Scan

-- ======== results

/-- When all that the pass drops is redundant, every node keeps its rows,
and the last one stays the last. Over a scan the second sort keeps its
output, in every database, only when what is dropped is redundant. -/
theorem simplifySort_keeps_output [DecidableEq D] (hwf : P.WellFormed) :
    (DropsRedundant P (P.map RelAlgNode.id) →
      ∃ P' kept, simplifySortLoop P (P.map RelAlgNode.id) = some (P', kept)
        ∧ simplifySort P = some (P'.filter fun n => n.id ∈ kept)
        ∧ kept.getLast? = (P.map RelAlgNode.id).getLast?
        ∧ ∀ E db, Orders E → P.Fits db → P'.rows E db = P.rows E db)
    ∧ ∀ i j k x size fields fields' limit offset exprs names,
        ⟨x, .scan size⟩ ∈ P → ⟨i, .sort x fields limit offset⟩ ∈ P →
        ⟨j, .project i exprs names⟩ ∈ P → ⟨k, .sort j fields' limit offset⟩ ∈ P →
        simplifiable P i j k = some (some x) →
        ((∀ E db, Orders E → P.Fits db →
            SameOutput fields' (P.rows E db k) ((setSortInput P k x).rows E db k))
          ↔ Redundant P i j k) := by
  constructor
  · intro h
    obtain ⟨P', kept, hloop, hlast, hrows⟩ := simplifySortLoop_rows hwf h
    refine ⟨P', kept, hloop, ?_, hlast, hrows⟩
    unfold simplifySort
    rw [hloop]
    rfl
  · intro i j k x size fields fields' limit offset exprs names hscan hfirst hproject hsecond
      hfound
    obtain ⟨_, _, _, _, _, _, _, _, hi, hj, hk, hident, hequiv⟩ := simplifiable_cases hfound
    cases hwf.ordered.eq_of_key hi hfirst rfl
    cases hwf.ordered.eq_of_key hj hproject rfl
    cases hwf.ordered.eq_of_key hk hsecond rfl
    simp only [isIdentity, Bool.and_eq_true, decide_eq_true_eq] at hident
    have L : Linked P i j k x fields fields' limit limit offset offset exprs names :=
      ⟨hfirst, hproject, hsecond, hident.2⟩
    constructor
    · intro hout
      obtain rfl := L.offset_eq_zero hwf hscan hout
      obtain rfl := L.exprs_eq hwf hscan hout hident.1.1
      exact ⟨x, fields, fields', limit, names, hfirst, hproject, hsecond,
        L.sameFields hwf hscan rfl hequiv⟩
    · intro hred E db hE hfits
      obtain ⟨x', _, _, _, _, L', hsame⟩ := hred.linked
      cases hwf.ordered.eq_of_key L'.first hfirst rfl
      rw [L'.rows_of_redundant hE hwf hfits hsame]
      exact ⟨List.Perm.refl _, rfl⟩

/-- A table of two columns that is sorted twice, with a project between. -/
def sortTwice (offset : Nat) (cols : List Nat) (field : Nat) : Plan Nat :=
  [⟨0, .scan 2⟩, ⟨1, .sort 0 [⟨0, .Ascending, .Last⟩] 0 offset⟩,
    ⟨2, .project 1 (cols.map (.input 1)) ["a", "b"]⟩,
    ⟨3, .sort 2 [⟨field, .Ascending, .Last⟩] 0 offset⟩]

theorem sortTwice_wellFormed {offset field : Nat} {cols : List Nat} (hlen : cols.length = 2)
    (hcols : ∀ c ∈ cols, c < 2) (hfield : field < 2) :
    (sortTwice offset cols field).WellFormed := by
  have hsizes : ∀ n < 4, (sortTwice offset cols field).sizes n = 2 := by
    intro n hn
    interval_cases n <;>
      simp [Plan.sizes, Tabulate.tabulate, sortTwice, RelAlgNode.size, update, hlen]
  refine ⟨⟨?_, ?_, ?_⟩, ?_, ?_⟩
  · simp [sortTwice, RelAlgNode.inputs]
  · simp [sortTwice, RelAlgNode.inputs]
  · simp [sortTwice, RelAlgNode.inputs]
  · intro n hn
    simp only [sortTwice, mem_cons, not_mem_nil, or_false] at hn
    rcases hn with rfl | rfl | rfl | rfl
    · trivial
    · intro f hf
      rw [mem_singleton.mp hf, hsizes 0 (by decide)]
      decide
    · intro e he p hp
      obtain ⟨c, hc, rfl⟩ := mem_map.mp he
      rw [mem_singleton.mp hp]
      exact ⟨rfl, by rw [hsizes 1 (by decide)]; exact hcols c hc⟩
    · intro f hf
      rw [mem_singleton.mp hf, hsizes 2 (by decide)]
      exact hfield
  · intro n hn
    have hid : n.id < 4 := by
      simp only [sortTwice, mem_cons, not_mem_nil, or_false] at hn
      rcases hn with rfl | rfl | rfl | rfl <;> simp
    rw [hsizes n.id hid]
    decide

/-- The three nodes of the plan that the pass looks at. -/
theorem sortTwice_linked {offset field : Nat} {cols : List Nat} (hlen : cols.length = 2) :
    ⟨0, .scan 2⟩ ∈ sortTwice offset cols field
      ∧ Linked (sortTwice offset cols field) 1 2 3 0 [⟨0, .Ascending, .Last⟩]
          [⟨field, .Ascending, .Last⟩] 0 0 offset offset (cols.map (.input 1)) ["a", "b"] := by
  refine ⟨by simp [sortTwice], by simp [sortTwice], by simp [sortTwice], by simp [sortTwice], ?_⟩
  simp [Plan.sizes, Tabulate.tabulate, sortTwice, RelAlgNode.size, hlen]

/-- `ORDER BY a` twice with all columns between: one sort is left, and
the rows are the same. -/
theorem simplifySort_identity :
    ∃ P' kept, simplifySortLoop (sortTwice 0 [0, 1] 0) [0, 1, 2, 3] = some (P', kept)
      ∧ kept.getLast? = some 3
      ∧ ∀ E db, Orders E → (sortTwice 0 [0, 1] 0).Fits db →
          P'.rows E db = (sortTwice 0 [0, 1] 0).rows E db := by
  have hwf : (sortTwice 0 [0, 1] 0).WellFormed := sortTwice_wellFormed rfl (by decide) (by decide)
  have hid : (identityExprs 1 ((sortTwice 0 [0, 1] 0).sizes 1) : List (Rex Nat))
      = [0, 1].map (.input 1) := rfl
  have hred : Redundant (sortTwice 0 [0, 1] 0) 1 2 3 := by
    refine ⟨0, [⟨0, .Ascending, .Last⟩], [⟨0, .Ascending, .Last⟩], 0, ["a", "b"], ?_, ?_, ?_,
      .cons ⟨rfl, rfl, .refl _ _⟩ .nil⟩
    · simp [sortTwice]
    · rw [hid]
      simp [sortTwice]
    · simp [sortTwice]
  obtain ⟨P', kept, hloop, -, hlast, hrows⟩ :=
    (simplifySort_keeps_output hwf).1 ⟨hred, trivial⟩
  exact ⟨P', kept, hloop, hlast, hrows⟩

/-- With `OFFSET 1`, and with the columns exchanged between, the pass also
drops the first sort and the project, and some output changes. -/
theorem simplifySort_changes_output :
    (simplifySortLoop (sortTwice 1 [0, 1] 0) [0, 1, 2, 3]
        = some (setSortInput (sortTwice 1 [0, 1] 0) 3 0, [0, 3])
      ∧ ¬ ∀ E db, Orders E → (sortTwice 1 [0, 1] 0).Fits db →
          SameOutput [⟨0, .Ascending, .Last⟩] ((sortTwice 1 [0, 1] 0).rows E db 3)
            ((setSortInput (sortTwice 1 [0, 1] 0) 3 0).rows E db 3))
    ∧ simplifySortLoop (sortTwice 0 [1, 0] 1) [0, 1, 2, 3]
        = some (setSortInput (sortTwice 0 [1, 0] 1) 3 0, [0, 3])
      ∧ ¬ ∀ E db, Orders E → (sortTwice 0 [1, 0] 1).Fits db →
          SameOutput [⟨1, .Ascending, .Last⟩] ((sortTwice 0 [1, 0] 1).rows E db 3)
            ((setSortInput (sortTwice 0 [1, 0] 1) 3 0).rows E db 3) := by
  refine ⟨⟨rfl, ?_⟩, rfl, ?_⟩
  · intro hout
    obtain ⟨hscan, L⟩ := @sortTwice_linked 1 0 [0, 1] rfl
    have hwf : (sortTwice 1 [0, 1] 0).WellFormed :=
      sortTwice_wellFormed rfl (by decide) (by decide)
    exact absurd (L.offset_eq_zero hwf hscan hout) (by decide)
  · intro hout
    obtain ⟨hscan, L⟩ := @sortTwice_linked 0 1 [1, 0] rfl
    have hwf : (sortTwice 0 [1, 0] 1).WellFormed :=
      sortTwice_wellFormed rfl (by decide) (by decide)
    have hexprs := L.exprs_eq hwf hscan hout rfl
    cases hexprs

end Compass.Optimizer
