/-
Where a scan is in the vector of nodes, and when its two keys agree.

Ids never change and are never given twice, and every step moves a node by
the nodes it drops or inserts in front of it, so a scan is at its index in
the query plus its drift (`Placed`). Its position is one less than its id
just when the drift makes up for the ids that were skipped.
-/
import Compass.Optimizer.NodeVector
import Compass.JoinOrder.Proofs.Estimate

namespace Compass.Optimizer

open Compass.PushDown List Nat
open Compass.RelAlg
open Compass.JoinOrder (nodeKey)
open Decimal

variable {D : Type}

-- ======== the key

/-- The key, when there is one, is the number with the digits of the node
id behind those of the table and the separator. -/
theorem nodeKey_ok {tableId nodeId : Nat} {key : Int} (h : nodeKey tableId nodeId = .ok key) :
    key = Nat.ofDigitChars 10 (Nat.toDigits 10 nodeId) (tableId * 100 + 88) := by
  have htable : toDecimal (tableId : Int) = toDigits 10 tableId :=
    toDecimal_of_nonneg (Int.natCast_nonneg _)
  have hnode : toDecimal (nodeId : Int) = toDigits 10 nodeId :=
    toDecimal_of_nonneg (Int.natCast_nonneg _)
  unfold nodeKey at h
  rw [htable, hnode] at h
  have hdigits : AllDigits (toDigits 10 tableId ++ '8' :: '8' :: toDigits 10 nodeId) := by
    refine (allDigits_toDigits _).append fun c hc => ?_
    simp only [mem_cons] at hc
    rcases hc with rfl | rfl | hc
    · decide
    · decide
    · exact allDigits_toDigits _ c hc
  rw [stoi_digits (by simp) hdigits] at h
  split at h
  · cases h
  · rw [Except.ok.injEq] at h
    rw [← h, ofDigitChars_append, ofDigitChars_ten_toDigits, ofDigitChars_cons, ofDigitChars_cons]
    congr 2
    show 10 * (10 * tableId + 8) + 8 = _
    omega

theorem nodeKey_inj {tableId a b : Nat} {key : Int} (ha : nodeKey tableId a = .ok key)
    (hb : nodeKey tableId b = .ok key) : a = b := by
  have hpos : 0 < tableId * 100 + 88 := by omega
  have hvalue := (nodeKey_ok ha).symm.trans (nodeKey_ok hb)
  rw [Nat.cast_inj] at hvalue
  have htext := toDigits_append_digits (allDigits_toDigits a) hpos
  rw [hvalue, ← toDigits_append_digits (allDigits_toDigits b) hpos] at htext
  have hdigits := congrArg (fun text => Nat.ofDigitChars 10 text 0) (append_cancel_left htext)
  simpa [Nat.ofDigitChars_ten_toDigits] using hdigits

-- ======== positions

variable {P : Plan D}

theorem countBefore_eq {i : Nat} {n : RelAlgNode D} (hnd : (P.map RelAlgNode.id).Nodup)
    (hn : P[i]? = some n) (p : RelAlgNode D → Bool) :
    countBefore p P n.id = (P.take i).countP p := by
  unfold countBefore
  congr 1
  induction P generalizing i with
  | nil => cases hn
  | cons m P ih =>
    rw [map_cons, nodup_cons] at hnd
    cases i with
    | zero =>
      rw [getElem?_cons_zero, Option.some.injEq] at hn
      rw [hn]
      simp
    | succ i =>
      have hne : m.id ≠ n.id := by
        intro heq
        exact hnd.1 (heq ▸ mem_map_of_mem (mem_of_getElem? hn))
      rw [takeWhile_cons_of_pos (by simpa using hne), ih hnd.2 hn]
      rfl

/-- A node of a filtered list, and the place it was at. -/
theorem getElem?_filter {β : Type} (dead : β → Bool) {l : List β} :
    ∀ {i : Nat} {b : β}, (l.filter fun b => !dead b)[i]? = some b →
      ∃ j, l[j]? = some b ∧ j = i + (l.take j).countP dead := by
  induction l with
  | nil =>
    intro i b h
    cases h
  | cons a l ih =>
    intro i b h
    by_cases ha : dead a = true
    · rw [filter_cons_of_neg (by simp [ha])] at h
      obtain ⟨j, hj, hcount⟩ := ih h
      refine ⟨j + 1, hj, ?_⟩
      rw [take_succ_cons, countP_cons_of_pos ha]
      omega
    · rw [filter_cons_of_pos (by simp [ha])] at h
      cases i with
      | zero => exact ⟨0, h, rfl⟩
      | succ i =>
        obtain ⟨j, hj, hcount⟩ := ih h
        refine ⟨j + 1, hj, ?_⟩
        rw [take_succ_cons, countP_cons_of_neg ha]
        omega

section

variable (proj : RelAlgNode D → Option (List (Rex D) × List String))

theorem insertProjects_cons (n : RelAlgNode D) (nodes : Plan D) (crtId : Nat) :
    (getsProject proj n = true ∧ ∃ body, body.isScan = false ∧ body.id = crtId
        ∧ insertProjects proj (n :: nodes) crtId
          = (n :: body :: (insertProjects proj nodes (crtId + 1)).1,
            (insertProjects proj nodes (crtId + 1)).2))
      ∨ (getsProject proj n = false ∧ insertProjects proj (n :: nodes) crtId
        = (n :: (insertProjects proj nodes crtId).1, (insertProjects proj nodes crtId).2)) := by
  cases hgets : getsProject proj n with
  | true =>
    unfold getsProject at hgets
    split at hgets
    · rename_i val hbody hproj
      refine .inl ⟨rfl, ⟨crtId, .project n.id val.1 val.2⟩, rfl, rfl, ?_⟩
      rw [insertProjects, hbody, hproj]
    · cases hgets
  | false =>
    refine .inr ⟨rfl, ?_⟩
    rw [insertProjects]
    split
    · rename_i hbody hproj
      unfold getsProject at hgets
      rw [hbody, hproj] at hgets
      cases hgets
    · rfl

/-- A scan behind the inserted projects, and the place it was at. -/
theorem getElem?_insertProjects {nodes : Plan D} : ∀ {crtId i : Nat} {n : RelAlgNode D},
      (insertProjects proj nodes crtId).1[i]? = some n → n.isScan = true →
      ∃ j, nodes[j]? = some n ∧ i = j + (nodes.take j).countP (getsProject proj) := by
  induction nodes with
  | nil =>
    intro crtId i n h
    cases h
  | cons m nodes ih =>
    intro crtId i n h hscan
    rcases insertProjects_cons proj m nodes crtId with
      ⟨hgets, body, hbody, -, heq⟩ | ⟨hgets, heq⟩
    · rw [heq] at h
      match i, h with
      | 0, h => exact ⟨0, h, rfl⟩
      | 1, h =>
        rw [getElem?_cons_succ, getElem?_cons_zero, Option.some.injEq] at h
        rw [← h, hbody] at hscan
        cases hscan
      | i + 2, h =>
        obtain ⟨j, hj, hcount⟩ := ih h hscan
        refine ⟨j + 1, hj, ?_⟩
        rw [take_succ_cons, countP_cons_of_pos hgets]
        omega
    · rw [heq] at h
      match i, h with
      | 0, h => exact ⟨0, h, rfl⟩
      | i + 1, h =>
        obtain ⟨j, hj, hcount⟩ := ih h hscan
        refine ⟨j + 1, hj, ?_⟩
        rw [take_succ_cons, countP_cons_of_neg (by simp [hgets])]
        omega

end

-- ======== ids

/-- Ids are given once. -/
structure Fresh (P : Plan D) (crtId : Nat) : Prop where
  nodup : (P.map RelAlgNode.id).Nodup
  below : ∀ id ∈ P.map RelAlgNode.id, id < crtId

theorem dispatchNodes_fresh (rels : List (Rel D)) : ∀ (crtId : Nat) (ids : List Nat),
    Fresh (dispatchNodes crtId ids rels).1 (dispatchNodes crtId ids rels).2
      ∧ (∀ id ∈ (dispatchNodes crtId ids rels).1.map RelAlgNode.id, crtId ≤ id)
      ∧ crtId ≤ (dispatchNodes crtId ids rels).2 := by
  induction rels with
  | nil =>
    intro crtId ids
    exact ⟨⟨nodup_nil, by simp [dispatchNodes]⟩, by simp [dispatchNodes], le_refl _⟩
  | cons rel rels ih =>
    intro crtId ids
    obtain ⟨⟨hnd, hbelow⟩, habove, hle⟩ :=
      ih (crtId + rel.subqueryNodes + 1) (ids ++ [crtId + rel.subqueryNodes])
    rw [dispatchNodes]
    dsimp only
    refine ⟨⟨?_, ?_⟩, ?_, by omega⟩
    · rw [map_cons, nodup_cons]
      refine ⟨fun hmem => ?_, hnd⟩
      have := habove _ hmem
      dsimp only at this
      omega
    · intro id hid
      rw [map_cons, mem_cons] at hid
      rcases hid with rfl | hid
      · dsimp only
        omega
      · exact hbelow id hid
    · intro id hid
      rw [map_cons, mem_cons] at hid
      rcases hid with rfl | hid
      · dsimp only
        omega
      · have := habove id hid
        omega

theorem insertProjects_fresh (proj : RelAlgNode D → Option (List (Rex D) × List String))
    {nodes : Plan D} : ∀ {crtId : Nat}, Fresh nodes crtId →
      Fresh (insertProjects proj nodes crtId).1 (insertProjects proj nodes crtId).2
        ∧ (∀ id ∈ (insertProjects proj nodes crtId).1.map RelAlgNode.id,
            id ∈ nodes.map RelAlgNode.id ∨ crtId ≤ id)
        ∧ crtId ≤ (insertProjects proj nodes crtId).2 := by
  induction nodes with
  | nil =>
    intro crtId h
    exact ⟨⟨nodup_nil, by simp [insertProjects]⟩, by simp [insertProjects], le_refl _⟩
  | cons n nodes ih =>
    intro crtId h
    have hnd := h.nodup
    rw [map_cons, nodup_cons] at hnd
    have hn : n.id < crtId := h.below _ (by simp)
    have hrest : Fresh nodes crtId := ⟨hnd.2, fun id hid => h.below id (by simp [hid])⟩
    rcases insertProjects_cons proj n nodes crtId with
      ⟨-, body, -, hid, heq⟩ | ⟨-, heq⟩
    · obtain ⟨⟨hnd', hbelow⟩, habove, hle⟩ := @ih (crtId + 1)
        ⟨hrest.nodup, fun id hid => lt_succ_of_lt (hrest.below id hid)⟩
      rw [heq]
      refine ⟨⟨?_, ?_⟩, ?_, by omega⟩
      · rw [map_cons, map_cons, nodup_cons, nodup_cons, hid]
        refine ⟨fun hmem => ?_, fun hmem => ?_, hnd'⟩
        · rcases mem_cons.mp hmem with heq' | hmem
          · omega
          · rcases habove _ hmem with hold | hnew
            · exact hnd.1 hold
            · omega
        · rcases habove _ hmem with hold | hnew
          · have := hrest.below _ hold
            omega
          · omega
      · intro id hmem
        rcases mem_cons.mp hmem with rfl | hmem
        · omega
        · rcases mem_cons.mp hmem with rfl | hmem
          · omega
          · exact hbelow id hmem
      · intro id hmem
        rw [map_cons, map_cons, hid] at hmem
        rcases mem_cons.mp hmem with rfl | hmem
        · exact .inl (by simp)
        · rcases mem_cons.mp hmem with rfl | hmem
          · exact .inr (le_refl _)
          · rcases habove id hmem with hold | hnew
            · exact .inl (by simp [hold])
            · exact .inr (by omega)
    · obtain ⟨⟨hnd', hbelow⟩, habove, hle⟩ := ih hrest
      rw [heq]
      refine ⟨⟨?_, ?_⟩, ?_, hle⟩
      · rw [map_cons, nodup_cons]
        refine ⟨fun hmem => ?_, hnd'⟩
        rcases habove _ hmem with hold | hnew
        · exact hnd.1 hold
        · omega
      · intro id hmem
        rcases mem_cons.mp hmem with rfl | hmem
        · omega
        · exact hbelow id hmem
      · intro id hmem
        rcases mem_cons.mp hmem with rfl | hmem
        · exact .inl (by simp)
        · rcases habove id hmem with hold | hnew
          · exact .inl (by simp [hold])
          · exact .inr hnew

-- ======== runs

/-- Every scan is at its index in the query plus its drift. -/
structure Placed (firstId : Nat) (rels : List (Rel D)) (P : Plan D) (crtId : Nat)
    (drift : Nat → Int) : Prop where
  fresh : Fresh P crtId
  place : ∀ (i : Nat) (n : RelAlgNode D), P[i]? = some n → n.isScan = true →
    (i : Int) = countBefore (fun _ => true) (dispatchNodes firstId [] rels).1 n.id + drift n.id

section

variable {firstId : Nat} {rels : List (Rel D)} {crtId : Nat} {drift : Nat → Int}
  (h : Run firstId rels P crtId drift)
include h

theorem Run.placed : Placed firstId rels P crtId drift := by
  induction h with
  | dispatch =>
    have hfresh := (dispatchNodes_fresh rels firstId []).1
    refine ⟨hfresh, fun i n hn _ => ?_⟩
    rw [countBefore_eq hfresh.nodup hn, countP_true, length_take]
    have hlt := (List.getElem?_eq_some_iff.mp hn).1
    omega
  | rewrite hrun htags hle ih =>
    rename_i P P' crtId crtId' drift
    have hids : P'.map RelAlgNode.id = P.map RelAlgNode.id := by
      have := congrArg (List.map Prod.fst) htags
      rw [map_map, map_map] at this
      exact this
    refine ⟨⟨hids ▸ ih.fresh.nodup, fun id hid => ?_⟩, fun i n hn hscan => ?_⟩
    · rw [hids] at hid
      exact lt_of_lt_of_le (ih.fresh.below id hid) hle
    · have htag : (P.map tag)[i]? = some (tag n) := by
        rw [← htags, getElem?_map, hn]
        rfl
      rw [getElem?_map, Option.map_eq_some_iff] at htag
      obtain ⟨m, hm, htag⟩ := htag
      have hid : m.id = n.id := congrArg Prod.fst htag
      have hmscan : m.isScan = true := (congrArg Prod.snd htag).trans hscan
      have hplace := ih.place i m hm hmscan
      rw [hid] at hplace
      exact hplace
  | erase dead hrun ih =>
    refine ⟨⟨?_, fun id hid => ?_⟩, fun i n hn hscan => ?_⟩
    · exact ih.fresh.nodup.sublist (filter_sublist.map _)
    · exact ih.fresh.below id ((filter_sublist.map _).subset hid)
    · obtain ⟨j, hj, hcount⟩ := getElem?_filter dead hn
      have hplace := ih.place j n hj hscan
      rw [countBefore_eq ih.fresh.nodup hj dead]
      omega
  | insert proj hrun ih =>
    refine ⟨(insertProjects_fresh proj ih.fresh).1, fun i n hn hscan => ?_⟩
    obtain ⟨j, hj, hcount⟩ := getElem?_insertProjects proj hn hscan
    have hplace := ih.place j n hj hscan
    rw [countBefore_eq ih.fresh.nodup hj (getsProject proj)]
    omega

omit h in
/-- The keys agree just when for every scan the nodes that came in front of
it make up for the ids that were skipped and the nodes that went, or
`std::stoi` takes one of the texts only. -/
theorem keysAgree_iff {firstId : Nat} {rels : List (Rel D)} {P : Plan D} {crtId : Nat}
    {drift : Nat → Int} (h : Run firstId rels P crtId drift) (tableId : Nat → Nat) :
    KeysAgree tableId P ↔ ∀ n ∈ P, n.isScan = true →
      drift n.id = skippedIds firstId rels n.id
        ∨ ¬ HasKey (tableId n.id) n.id
        ∨ ¬ HasKey (tableId n.id) (n.id + (drift n.id - skippedIds firstId rels n.id)) := by
  have hplaced := h.placed
  -- the position, from the id
  have hposition : ∀ (i : Nat) (n : RelAlgNode D), P[i]? = some n → n.isScan = true →
      ((i : Int) + 1) = n.id + (drift n.id - skippedIds firstId rels n.id) := by
    intro i n hn hscan
    have := hplaced.place i n hn hscan
    unfold skippedIds
    omega
  constructor
  · intro hagree n hmem hscan
    obtain ⟨i, hi⟩ := mem_iff_getElem?.mp hmem
    by_cases hid : HasKey (tableId n.id) n.id
    · by_cases hpos : HasKey (tableId n.id) (n.id + (drift n.id - skippedIds firstId rels n.id))
      · obtain ⟨key', hkey'⟩ := hid
        obtain ⟨key, hkey⟩ := hpos
        rw [← hposition i n hi hscan] at hkey
        have heq := hagree i n key key' hi hscan hkey hkey'
        subst heq
        have hsame : i + 1 = n.id := nodeKey_inj (by exact_mod_cast hkey) hkey'
        have := hposition i n hi hscan
        exact .inl (by omega)
      · exact .inr (.inr hpos)
    · exact .inr (.inl hid)
  · intro hcond i n key key' hi hscan hkey hkey'
    rcases hcond n (mem_of_getElem? hi) hscan with hdrift | hnot | hnot
    · have hsame : ((i : Int) + 1) = n.id := by
        have := hposition i n hi hscan
        omega
      unfold positionKey at hkey
      rw [hsame] at hkey
      exact Except.ok.inj (hkey.symm.trans hkey')
    · exact absurd ⟨key', hkey'⟩ hnot
    · rw [← hposition i n hi hscan] at hnot
      exact absurd ⟨key, hkey⟩ hnot

omit h in
/-- A node above the join is dropped, and one is inserted for the join. -/
theorem joinedTables_agree :
    KeysAgree (fun _ => 7) (insertProjects
      (fun n => if n.id = 3 then some ([], []) else none)
      ((dispatchNodes 1 [] [⟨0, fun _ => .scan 2⟩, ⟨0, fun _ => .scan 2⟩,
        ⟨0, fun _ => .join .INNER 1 2 (.ref 0)⟩, ⟨0, fun _ => .project 3 [] []⟩] :
          Plan Unit × Nat).1.filter fun n => !decide (n.id = 4)) 5).1 := by
  refine (keysAgree_iff (.insert _ (.erase (fun n => decide (n.id = 4)) .dispatch)) _).mpr
    fun n hn hscan => .inl ?_
  revert n
  decide +kernel

-- ======== simplify_sort

omit h in
theorem map_tag_setSortInput (P : Plan D) (id input : Nat) :
    (setSortInput P id input).map tag = P.map tag := by
  unfold setSortInput
  rw [map_map]
  refine map_congr_left fun n _ => ?_
  unfold tag RelAlgNode.isScan
  dsimp only [Function.comp_apply]
  split
  · split
    · rename_i hbody _
      rw [hbody]
    · rfl
  · rfl

omit h in
theorem simplifySortLoop_tags {ids : List Nat} :
    ∀ {P' : Plan D} {kept : List Nat}, simplifySortLoop P ids = some (P', kept) →
      P'.map tag = P.map tag := by
  induction P, ids using simplifySortLoop.induct with
  | case1 P i j k ids ih₁ ih₂ =>
    intro P' kept h
    rw [simplifySortLoop] at h
    simp only [Option.bind_eq_bind, Option.bind_eq_some_iff] at h
    obtain ⟨found, -, h⟩ := h
    cases found with
    | some input =>
      obtain ⟨r, hr, h⟩ := Option.bind_eq_some_iff.mp h
      cases h
      exact (ih₁ input hr).trans (map_tag_setSortInput P k input)
    | none =>
      obtain ⟨r, hr, h⟩ := Option.bind_eq_some_iff.mp h
      cases h
      exact ih₂ hr
  | case2 P ids hshort =>
    intro P' kept h
    rw [simplifySortLoop] at h
    · cases h
      rfl
    · exact hshort

/-- `simplify_sort` is one of the passes: it rewrites and drops. -/
theorem Run.simplifySort {P' : Plan D} (hsimplify : Optimizer.simplifySort P = some P') :
    ∃ drift', Run firstId rels P' crtId drift' := by
  obtain ⟨⟨P₁, kept⟩, hloop, hsimplify⟩ := Option.bind_eq_some_iff.mp hsimplify
  cases hsimplify
  have hrewrite := h.rewrite (simplifySortLoop_tags hloop) (le_refl crtId)
  have herase := hrewrite.erase fun n => !decide (n.id ∈ kept)
  simp only [Bool.not_not] at herase
  exact ⟨_, herase⟩

end

/-- A sorted table, sorted once more by the subquery it is in, is joined
with another table. -/
def sortedJoin : List (Rel Unit) :=
  let fields : List SortField := [⟨0, .Ascending, .First⟩]
  [⟨0, fun _ => .scan 1⟩, ⟨0, fun ids => .sort (ids.getD 0 0) fields 10 0⟩,
    ⟨0, fun ids => .project (ids.getD 1 0) [.input (ids.getD 1 0) 0] ["x"]⟩,
    ⟨0, fun ids => .sort (ids.getD 2 0) fields 10 0⟩,
    ⟨0, fun _ => .scan 1⟩,
    ⟨0, fun ids => .join .INNER (ids.getD 3 0) (ids.getD 4 0) (.literal (.bool true))⟩,
    ⟨0, fun ids => .filter (ids.getD 5 0)
      (.oper .kEQ [.input (ids.getD 3 0) 0, .input (ids.getD 4 0) 0] ⟨.kBOOLEAN, true, 1⟩)⟩]

/-- The second sort takes the place of the first three nodes behind the
scan: the other table is the third node, and its id is `5`. -/
theorem sortedJoin_not_agree :
    ∃ P drift, Optimizer.simplifySort (dispatchNodes 1 [] sortedJoin).1 = some P
      ∧ Run 1 sortedJoin P (dispatchNodes 1 [] sortedJoin).2 drift
      ∧ ¬ KeysAgree (fun _ => 7) P := by
  have hsimplify : ∃ P, Optimizer.simplifySort (dispatchNodes 1 [] sortedJoin).1 = some P
      ∧ P[2]? = some ⟨5, .scan 1⟩ := ⟨_, rfl, rfl⟩
  obtain ⟨P, hsimplify, hscan⟩ := hsimplify
  obtain ⟨drift, hrun⟩ := Run.simplifySort .dispatch hsimplify
  refine ⟨P, drift, hsimplify, hrun, fun hagree => ?_⟩
  have hkey : positionKey 7 2 = .ok 7883 := by decide +kernel
  have hkey' : idKey 7 (⟨5, .scan 1⟩ : RelAlgNode Unit) = .ok 7885 := by decide +kernel
  have heq := hagree 2 _ _ _ hscan rfl hkey hkey'
  omega

end Compass.Optimizer
