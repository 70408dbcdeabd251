/-
What `find_hoistable_conditions` returns, and what is left of the filter.

On a clean condition the visitor returns the pieces
(`findHoistableConditions_eq_pieces`), which read columns of the range
only. Taking what it returns out of the condition loses nothing, clean or
not: a row passes the condition exactly when it passes what is left and
everything that was taken out (`removeSubConditions_yes_iff`). That part
is an induction over the condition with the pointers into it: those into
an operand are those of the whole list whose paths go through it.
-/
import Compass.Optimizer.Hoist
import Compass.RelAlg.Proofs.Eval

namespace Compass.Optimizer

open Compass.PushDown List
open Compass.RelAlg

variable {D : Type}

section

attribute [local simp] whole wholeAll pieces piecesAll clean cleanAll findHoistableConditions
  findInOper findInOperands wellTyped wellTypedAll removeSubConditions removeInOperands

end

-- ======== lists

section

variable (source first last : Nat)

section

variable (es : List (Rex D))

theorem wholeAll_eq_all : wholeAll source first last es = es.all (whole source first last) := by
  induction es with
  | nil => rfl
  | cons e es ih => rw [wholeAll, ih, all_cons]

theorem piecesAll_eq_flatMap :
    piecesAll source first last es = es.flatMap (pieces source first last) := by
  induction es with
  | nil => rfl
  | cons e es ih => rw [piecesAll, ih, flatMap_cons]

theorem cleanAll_eq_all : cleanAll source first last es = es.all (clean source first last) := by
  induction es with
  | nil => rfl
  | cons e es ih => rw [cleanAll, ih, all_cons]

end

theorem findInOperands_eq_map (path : List Nat) (k : Nat) (es : List (Rex D)) :
    findInOperands source first last path k es
      = (es.zipIdx k).map fun x =>
          findHoistableConditions source first last (path ++ [x.2]) x.1 := by
  induction es generalizing k with
  | nil => rfl
  | cons e es ih => rw [findInOperands, ih, zipIdx_cons, map_cons]

end

theorem wellTypedAll_eq_all (es : List (Rex D)) :
    wellTypedAll es = es.all wellTyped := by
  induction es with
  | nil => rfl
  | cons e es ih => rw [wellTypedAll, ih, all_cons]

theorem removeInOperands_eq_map (conds : List (List Nat)) (path : List Nat) (k : Nat)
    (es : List (Rex D)) :
    removeInOperands conds path k es
      = (es.zipIdx k).map fun x => removeSubConditions conds (path ++ [x.2]) x.1 := by
  induction es generalizing k with
  | nil => rfl
  | cons e es ih => rw [removeInOperands, ih, zipIdx_cons, map_cons]

theorem fst_mem_of_zipIdx {α : Type} {xs : List α} {k : Nat} {x : α × Nat}
    (h : x ∈ xs.zipIdx k) : x.1 ∈ xs := by
  have hmap := mem_map_of_mem (f := Prod.fst) h
  rwa [zipIdx_map_fst] at hmap

/-- One operand stands at one place. -/
theorem zipIdx_functional {α : Type} {xs : List α} {k : Nat} {x y : α × Nat}
    (hx : x ∈ xs.zipIdx k) (hy : y ∈ xs.zipIdx k) (h : x.2 = y.2) : x = y := by
  have hx' := (mem_zipIdx_iff_le_and_getElem?_sub.mp hx).2
  have hy' := (mem_zipIdx_iff_le_and_getElem?_sub.mp hy).2
  rw [h, hy'] at hx'
  injection hx' with hfst
  exact Prod.ext hfst.symm h

/-- Every operand has its place. -/
theorem exists_zipIdx {α : Type} {xs : List α} (k : Nat) {x : α} (h : x ∈ xs) :
    ∃ i, (x, i) ∈ xs.zipIdx k := by
  rw [← zipIdx_map_fst k xs] at h
  obtain ⟨y, hy, rfl⟩ := mem_map.mp h
  exact ⟨y.2, hy⟩

-- ======== whole conditions

section

variable {source first last : Nat}

variable {e : Rex D}

theorem inRange_cases (h : inRange source first last e = true) :
    ∃ i, e = .input source i ∧ first ≤ i ∧ i ≤ last := by
  cases e with
  | input s i =>
    simp only [inRange, Bool.and_eq_true, decide_eq_true_eq] at h
    obtain ⟨⟨rfl, hf⟩, hl⟩ := h
    exact ⟨i, rfl, hf, hl⟩
  | _ => cases h

theorem whole_eq (op : SQLOps) (es : List (Rex D)) (ti : SQLTypeInfo)
    (h : whole source first last (.oper op es ti) = true) :
    (op = .kAND ∧ es.all (whole source first last) = true)
      ∨ ∃ l r, op = .kEQ ∧ es = [l, r] ∧ inRange source first last l = true
        ∧ inRange source first last r = true := by
  unfold whole at h
  split at h
  · next heq =>
      injection heq with hop hes _
      subst hop hes
      exact Or.inl ⟨rfl, by rwa [wholeAll_eq_all] at h⟩
  · next l r _ heq =>
      injection heq with hop hes _
      subst hop hes
      rw [Bool.and_eq_true] at h
      exact Or.inr ⟨l, r, rfl, rfl, h.1, h.2⟩
  · next heq => cases heq
  · cases h

/-- A whole condition reads columns of the range only. -/
theorem inputs_of_whole (h : whole source first last e = true) :
    ∀ p ∈ e.inputs, p.1 = source ∧ first ≤ p.2 ∧ p.2 ≤ last := by
  have hcol : ∀ x : Rex D, inRange source first last x = true →
      ∀ p ∈ x.inputs, p.1 = source ∧ first ≤ p.2 ∧ p.2 ≤ last := by
    intro x hx p hp
    obtain ⟨i, rfl, hf, hl⟩ := inRange_cases hx
    obtain rfl := mem_singleton.mp hp
    exact ⟨rfl, hf, hl⟩
  induction e using Rex.operand_induction with
  | input s i => exact hcol _ (by rwa [whole] at h)
  | oper op es ti ih =>
    intro p hp
    obtain ⟨e, he, hpe⟩ := Rex.mem_inputsAll.mp hp
    rcases whole_eq op es ti h with ⟨-, hall⟩ | ⟨l, r, -, rfl, hl, hr⟩
    · exact ih e he (all_eq_true.mp hall e he) p hpe
    · simp only [mem_cons, not_mem_nil, or_false] at he
      rcases he with rfl | rfl
      · exact hcol _ hl p hpe
      · exact hcol _ hr p hpe
  | _ => simp [whole] at h

theorem whole_of_mem_pieces {r : Rex D} (h : r ∈ pieces source first last e) :
    whole source first last r = true := by
  have hsingle : ∀ x : Rex D, r ∈ (if whole source first last x then [x] else []) →
        whole source first last r = true := by
    intro x hx
    split at hx
    · next hw => rwa [mem_singleton.mp hx]
    · cases hx
  induction e using Rex.operand_induction with
  | oper op es ti ih =>
    by_cases hop : op = .kAND
    · subst hop
      rw [pieces] at h
      split at h
      · next hw =>
          obtain rfl := mem_singleton.mp h
          rwa [whole]
      · rw [piecesAll_eq_flatMap] at h
        obtain ⟨e, he, hr⟩ := mem_flatMap.mp h
        exact ih e he hr
    · rw [pieces] at h
      · exact hsingle _ h
      · intro es' ti' heq
        injection heq with hop' _ _
        exact hop hop'
  | _ =>
    rw [pieces] at h
    · exact hsingle _ h
    · intro es' ti' heq
      cases heq

-- ======== the visitor's result

variable {path : List Nat}

section

variable (es : List (Rex D))

theorem findInOper_and (ti : SQLTypeInfo) :
    findHoistableConditions source first last path (.oper .kAND es ti)
      = if (findInOperands source first last path 0 es).countP
            (fun cs => cs.length == 1) = es.length then
          [some ⟨path, .oper .kAND es ti⟩]
        else (findInOperands source first last path 0 es).flatten := by
  rw [findHoistableConditions, findInOper]

/-- All operands of an AND gave one condition. -/
theorem countP_eq_length_iff :
    (findInOperands source first last path 0 es).countP (fun cs => cs.length == 1)
        = es.length
      ↔ ∀ x ∈ es.zipIdx,
          (findHoistableConditions source first last (path ++ [x.2]) x.1).length = 1 := by
  have hlen : es.length = (findInOperands source first last path 0 es).length := by
    rw [findInOperands_eq_map, length_map, length_zipIdx]
  rw [hlen, countP_eq_length, findInOperands_eq_map]
  simp only [mem_map, forall_exists_index, and_imp, forall_apply_eq_imp_iff₂, beq_iff_eq]

theorem findInOper_eq (l r : Rex D) (ti : SQLTypeInfo) :
    findHoistableConditions source first last path (.oper .kEQ [l, r] ti)
      = if isLoneInput (findHoistableConditions source first last (path ++ [0]) l)
          && isLoneInput (findHoistableConditions source first last (path ++ [1]) r) then
          [some ⟨path, .oper .kEQ [l, r] ti⟩]
        else [] := by
  rfl

/-- Other operators give nothing. -/
theorem findInOper_other {op : SQLOps} (ti : SQLTypeInfo) (hand : op ≠ .kAND) (heq : op ≠ .kEQ) :
    findHoistableConditions source first last path (.oper op es ti) = [] := by
  cases op <;> first | rfl | exact absurd rfl hand | exact absurd rfl heq

theorem find_of_inRange (h : inRange source first last e = true) :
    findHoistableConditions source first last path e = [some ⟨path, e⟩] := by
  obtain ⟨i, rfl, hf, hl⟩ := inRange_cases h
  rw [findHoistableConditions, if_pos rfl, if_pos ⟨hf, hl⟩]

/-- An operator gives nothing, itself, or what its operands give. -/
theorem find_oper_cases (path : List Nat) (op : SQLOps) (es : List (Rex D)) (ti : SQLTypeInfo) :
    findHoistableConditions source first last path (.oper op es ti) = []
      ∨ findHoistableConditions source first last path (.oper op es ti)
          = [some ⟨path, .oper op es ti⟩]
      ∨ (op = .kAND ∧ findHoistableConditions source first last path (.oper op es ti)
          = (findInOperands source first last path 0 es).flatten) := by
  rw [findHoistableConditions]
  unfold findInOper
  split
  · split
    · exact Or.inr (Or.inl rfl)
    · exact Or.inr (Or.inr ⟨rfl, rfl⟩)
  · split
    · exact Or.inr (Or.inl rfl)
    · exact Or.inl rfl
  · exact Or.inl rfl

/-- A whole condition is returned itself. -/
theorem find_of_whole (h : whole source first last e = true) :
    findHoistableConditions source first last path e = [some ⟨path, e⟩] := by
  induction e using Rex.operand_induction generalizing path with
  | input s i => exact find_of_inRange (by rwa [whole] at h)
  | oper op es ti ih =>
    rcases whole_eq op es ti h with ⟨rfl, hall⟩ | ⟨l, r, rfl, rfl, hl, hr⟩
    · rw [findInOper_and, if_pos]
      rw [countP_eq_length_iff]
      intro x hx
      have hmem := fst_mem_of_zipIdx hx
      rw [ih x.1 hmem (all_eq_true.mp hall x.1 hmem)]
      rfl
    · rw [findInOper_eq, find_of_inRange hl, find_of_inRange hr]
      obtain ⟨i, rfl, -⟩ := inRange_cases hl
      obtain ⟨j, rfl, -⟩ := inRange_cases hr
      rfl
  | _ => simp [whole] at h

/-- A condition that is no AND is a piece or has none. -/
theorem pieces_of_not_and (h : ∀ es ti, e ≠ .oper .kAND es ti) :
    pieces source first last e = if whole source first last e then [e] else [] := by
  rw [pieces]
  exact h

theorem pieces_of_whole (h : whole source first last e = true) :
    pieces source first last e = [e] := by
  unfold pieces
  split
  · rw [if_pos (by rwa [whole] at h)]
  · rw [if_pos h]

theorem flatMap_pieces_zipIdx : es.zipIdx.flatMap (fun x => pieces source first last x.1)
      = es.flatMap (pieces source first last) := by
  rw [← flatMap_map, zipIdx_map_fst]

end

/-- One list is made of nothing but one element, and another follows it
part by part. -/
theorem flatMap_eq_singleton {α β γ : Type} {f : α → List β} {g : α → List γ}
    {xs : List α} {a : β} {b : γ} (hnil : ∀ x ∈ xs, f x = [] → g x = [])
    (hone : ∀ x ∈ xs, f x = [a] → g x = [b]) (h : xs.flatMap f = [a]) :
    xs.flatMap g = [b] := by
  induction xs with
  | nil => cases h
  | cons x xs ih =>
    rw [flatMap_cons, append_eq_singleton_iff] at h
    rw [flatMap_cons]
    rcases h with ⟨hx, hrest⟩ | ⟨hx, hrest⟩
    · rw [hnil x mem_cons_self hx, nil_append]
      exact ih (fun y hy => hnil y (mem_cons_of_mem _ hy))
        (fun y hy => hone y (mem_cons_of_mem _ hy)) hrest
    · have hempty : xs.flatMap g = [] := by
        rw [flatMap_eq_nil_iff] at hrest ⊢
        exact fun y hy => hnil y (mem_cons_of_mem _ hy) (hrest y hy)
      rw [hone x mem_cons_self hx, hempty, append_nil]

section

variable (ht : wellTyped e = true)
include ht

/-- Where the visitor returns nothing, or a single column, that is what
the pieces are, clean or not. -/
theorem pieces_of_find : (findHoistableConditions source first last path e = [] →
        pieces source first last e = [])
      ∧ ∀ c, findHoistableConditions source first last path e = [some c] →
          isInput c.rex = true → pieces source first last e = [c.rex] := by
  induction e using Rex.operand_induction generalizing path with
  | input s i =>
    rw [pieces_of_not_and (by simp), whole]
    by_cases hr : inRange source first last (.input s i : Rex D) = true
    · rw [find_of_inRange hr, if_pos hr]
      refine ⟨nofun, fun c hc _ => ?_⟩
      injection hc with hc
      injection hc with hc
      rw [← hc]
    · rw [if_neg hr]
      refine ⟨fun _ => rfl, fun c hc _ => ?_⟩
      rw [findHoistableConditions] at hc
      split at hc
      · next hs =>
          have hout : ¬ (first ≤ i ∧ i ≤ last) := by
            simpa [inRange, hs] using hr
          rw [if_neg hout] at hc
          simp at hc
      · cases hc
  | oper op es ti ih =>
    by_cases hand : op = .kAND
    · subst hand
      have hts : ∀ x ∈ es, wellTyped x = true := by
        rw [wellTyped, wellTypedAll_eq_all, Bool.and_eq_true] at ht
        exact all_eq_true.mp ht.2
      by_cases hw : whole source first last (.oper .kAND es ti) = true
      · rw [find_of_whole hw]
        refine ⟨nofun, fun c hc hin => ?_⟩
        injection hc with hc
        injection hc with hc
        rw [← hc] at hin
        cases hin
      · rw [pieces, if_neg (by rwa [whole] at hw), piecesAll_eq_flatMap,
          ← flatMap_pieces_zipIdx, findInOper_and]
        have hparts := fun (x : Rex D × Nat) (hx : x ∈ es.zipIdx) =>
          @ih x.1 (fst_mem_of_zipIdx hx) (path ++ [x.2])
            (hts x.1 (fst_mem_of_zipIdx hx))
        split
        · refine ⟨nofun, fun c hc hin => ?_⟩
          injection hc with hc
          injection hc with hc
          rw [← hc] at hin
          cases hin
        · rw [findInOperands_eq_map, ← flatMap_def]
          refine ⟨fun hnil => ?_, fun c hc hin => ?_⟩
          · rw [flatMap_eq_nil_iff] at hnil ⊢
            exact fun x hx => (hparts x hx).1 (hnil x hx)
          · exact flatMap_eq_singleton (fun x hx => (hparts x hx).1)
              (fun x hx h => (hparts x hx).2 c h hin) hc
    · rw [pieces_of_not_and (by simp [hand])]
      refine ⟨fun hnil => ?_, fun c hc hin => ?_⟩
      · rw [if_neg]
        intro hw
        rw [find_of_whole hw] at hnil
        cases hnil
      · by_cases heq : op = .kEQ
        · subst heq
          rw [findHoistableConditions, findInOper] at hc
          split at hc
          · injection hc with hc
            injection hc with hc
            rw [← hc] at hin
            cases hin
          · cases hc
        · rw [findInOper_other es ti hand heq] at hc
          cases hc
  | _ =>
    refine ⟨fun _ => ?_, nofun⟩
    rw [pieces_of_not_and (by simp)]
    simp [whole]

omit ht in
/-- What is a column itself and gives a single condition is in range. -/
theorem inRange_of_isLoneInput (hin : isInput e = true)
    (h : isLoneInput (findHoistableConditions source first last path e) = true) :
    inRange source first last e = true := by
  cases e with
  | input s i =>
    rw [findHoistableConditions] at h
    split at h
    · next hs =>
        split at h
        · next hr => simp [inRange, hs, hr.1, hr.2]
        · cases h
    · cases h
  | _ => cases hin

theorem isLoneColumn_of_find
    (h : isLoneInput (findHoistableConditions source first last path e) = true) :
    isLoneColumn (pieces source first last e) = true := by
  unfold isLoneInput at h
  split at h
  · next c hc => rwa [(pieces_of_find ht).2 c hc h]
  · cases h

omit ht in
/-- On a clean condition the visitor returns the pieces. -/
theorem findHoistableConditions_eq_pieces {e : Rex D} (ht : wellTyped e = true)
    (hc : clean source first last e = true) :
    (findHoistableConditions source first last path e).map (Option.map CondPtr.rex)
      = (pieces source first last e).map some := by
  by_cases hw : whole source first last e = true
  · rw [find_of_whole hw, pieces_of_whole hw]
    rfl
  induction e using Rex.operand_induction generalizing path with
  | input s i =>
    rw [pieces_of_not_and (by simp), if_neg hw]
    have hs : s ≠ source := by
      intro hs
      rw [clean, whole] at *
      simp [hs] at hc hw
      simp [hc] at hw
    rw [findHoistableConditions, if_neg hs]
    rfl
  | oper op es ti ih =>
    by_cases hand : op = .kAND
    · subst hand
      rw [clean, Bool.and_eq_true, cleanAll_eq_all] at hc
      rw [wellTyped, wellTypedAll_eq_all, Bool.and_eq_true] at ht
      rw [whole] at hw
      have hparts : ∀ x ∈ es.zipIdx,
          (findHoistableConditions source first last (path ++ [x.2]) x.1).map
              (Option.map CondPtr.rex)
            = (pieces source first last x.1).map some := by
        intro x hx
        have hmem := fst_mem_of_zipIdx hx
        by_cases hwx : whole source first last x.1 = true
        · rw [find_of_whole hwx, pieces_of_whole hwx]
          rfl
        · exact ih x.1 hmem (all_eq_true.mp ht.2 x.1 hmem)
            (all_eq_true.mp hc.1 x.1 hmem) hwx
      rw [pieces, if_neg hw, piecesAll_eq_flatMap, ← flatMap_pieces_zipIdx,
        findInOper_and, if_neg, findInOperands_eq_map, map_flatten, map_map,
        ← flatMap_def, map_flatMap]
      · rw [flatMap_def, flatMap_def]
        congr 1
        exact map_congr_left hparts
      · rw [countP_eq_length_iff]
        intro hone
        have hall : es.all (fun e => (pieces source first last e).length == 1)
            = true := by
          rw [all_eq_true]
          intro e he
          obtain ⟨i, hi⟩ := exists_zipIdx 0 he
          have hlen := congrArg length (hparts _ hi)
          rw [length_map, length_map, hone _ hi] at hlen
          simp [← hlen]
        have hcount := hc.2
        rw [hall] at hcount
        simp [hw] at hcount
    · rw [pieces_of_not_and (by simp [hand]), if_neg hw]
      by_cases heq : op = .kEQ
      · subst heq
        rw [wellTyped, wellTypedAll_eq_all] at ht
        simp only [Bool.and_eq_true, decide_eq_true_eq] at ht
        obtain ⟨l, r, rfl⟩ := length_eq_two.mp ht.1.2
        have htl : wellTyped l = true := all_eq_true.mp ht.2 l (by simp)
        have htr : wellTyped r = true := all_eq_true.mp ht.2 r (by simp)
        rw [findInOper_eq, if_neg]
        · rfl
        intro hlone
        rw [Bool.and_eq_true] at hlone
        -- the sides give single columns, so they are columns
        have hsides : isInput l = true ∧ isInput r = true := by
          rw [clean, isLoneColumn_of_find htl hlone.1, isLoneColumn_of_find htr hlone.2] at hc
          simpa using hc
        apply hw
        rw [whole, inRange_of_isLoneInput hsides.1 hlone.1, inRange_of_isLoneInput hsides.2 hlone.2]
        rfl
      · rw [findInOper_other es ti hand heq]
        rfl
  | _ =>
    rfl

variable (hc : clean source first last e = true)
include hc

variable {c : Option (CondPtr D)} (h : c ∈ findHoistableConditions source first last path e)
include h

/-- The returned conditions are pieces. -/
theorem mem_pieces_of_find : ∃ ptr, c = some ptr ∧ ptr.rex ∈ pieces source first last e := by
  have hmem := mem_map_of_mem (f := Option.map CondPtr.rex) h
  rw [findHoistableConditions_eq_pieces ht hc] at hmem
  obtain ⟨r, hr, heq⟩ := mem_map.mp hmem
  cases c with
  | none => cases heq
  | some ptr =>
    injection heq with heq
    exact ⟨ptr, rfl, heq ▸ hr⟩

theorem readsRange_of_find : ReadsRange source first last c := by
  obtain ⟨ptr, rfl, hptr⟩ := mem_pieces_of_find ht hc h
  exact ⟨ptr, rfl, inputs_of_whole (whole_of_mem_pieces hptr)⟩

end

-- ======== the paths

/-- Pointers go down from where the visitor is. -/
theorem path_of_find {ptr : CondPtr D}
    (h : some ptr ∈ findHoistableConditions source first last path e) :
    ∃ q, ptr.path = path ++ q := by
  induction e using Rex.operand_induction generalizing path with
  | input s i =>
    rw [findHoistableConditions] at h
    split at h
    · rw [mem_singleton] at h
      split at h
      · injection h with h
        exact ⟨[], by rw [h, append_nil]⟩
      · cases h
    · cases h
  | oper op es ti ih =>
    rcases find_oper_cases path op es ti with hfind | hfind | ⟨rfl, hfind⟩
    · rw [hfind] at h
      cases h
    · rw [hfind] at h
      injection mem_singleton.mp h with h
      exact ⟨[], by rw [h, append_nil]⟩
    · rw [hfind, findInOperands_eq_map] at h
      obtain ⟨cs, hcs, hptr⟩ := mem_flatten.mp h
      obtain ⟨x, hx, rfl⟩ := mem_map.mp hcs
      obtain ⟨q, hq⟩ := ih x.1 (fst_mem_of_zipIdx hx) hptr
      exact ⟨[x.2] ++ q, by rw [hq, append_assoc]⟩
  | _ => cases h

end

-- ======== the remover

section

variable {conds : List (List Nat)} {path : List Nat}

theorem not_contains_of_free (h : ∀ q, path ++ q ∉ conds) :
    conds.contains path ≠ true := by
  intro hc
  apply h []
  rw [append_nil]
  exact contains_iff_mem.mp hc

theorem free_below (h : ∀ q, path ++ q ∉ conds) (k : Nat) :
    ∀ q, (path ++ [k]) ++ q ∉ conds := by
  intro q hq
  rw [append_assoc] at hq
  exact h _ hq

theorem removeInOperands_self {es : List (Rex D)}
    (h : ∀ e ∈ es, ∀ k, removeSubConditions conds (path ++ [k]) e = e) (k : Nat) :
    removeInOperands conds path k es = es := by
  induction es generalizing k with
  | nil => rfl
  | cons e es ih =>
    rw [removeInOperands, h e mem_cons_self k, ih fun x hx => h x (mem_cons_of_mem _ hx)]

theorem removeInBranches_self {bs : List (Rex D × Rex D)}
    (h : ∀ b ∈ bs, ∀ k, removeSubConditions conds (path ++ [k]) b.1 = b.1
      ∧ removeSubConditions conds (path ++ [k]) b.2 = b.2) (k : Nat) :
    removeInBranches conds path k bs = bs := by
  induction bs generalizing k with
  | nil => rfl
  | cons b bs ih =>
    rw [removeInBranches, (h b mem_cons_self k).1, (h b mem_cons_self (k + 1)).2,
      ih fun x hx => h x (mem_cons_of_mem _ hx)]

/-- Where nothing is to be removed, the copy is the condition. -/
theorem removeSubConditions_self {e : Rex D} (h : ∀ q, path ++ q ∉ conds) :
    removeSubConditions conds path e = e := by
  induction e using Rex.operand_induction generalizing path with
  | func name es ti ih | oper op es ti ih =>
    rw [removeSubConditions, if_neg (not_contains_of_free h), removeInOperands_self]
    exact fun e he k => ih e he (free_below h k)
  | case bs els ihb ihe =>
    rw [removeSubConditions, ihe (free_below h _), removeInBranches_self]
    exact fun b hb k => ⟨(ihb b hb).1 (free_below h k), (ihb b hb).2 (free_below h k)⟩
  | _ => rw [removeSubConditions]

/-- The inputs that are left were there before. -/
theorem inputs_removeSubConditions {e : Rex D} :
    ∀ p ∈ (removeSubConditions conds path e).inputs, p ∈ e.inputs := by
  have hlist : ∀ (es : List (Rex D)) (path : List Nat) (k : Nat),
      (∀ e ∈ es, ∀ path : List Nat, ∀ p ∈ (removeSubConditions conds path e).inputs, p ∈ e.inputs) →
      ∀ p ∈ Rex.inputsAll (removeInOperands conds path k es), p ∈ Rex.inputsAll es := by
    intro es path k h p hp
    rw [removeInOperands_eq_map] at hp
    obtain ⟨e', he', hp⟩ := Rex.mem_inputsAll.mp hp
    obtain ⟨x, hx, rfl⟩ := mem_map.mp he'
    have hmem := fst_mem_of_zipIdx hx
    exact Rex.mem_inputsAll.mpr ⟨x.1, hmem, h x.1 hmem _ p hp⟩
  have hbranches : ∀ (bs : List (Rex D × Rex D)) (path : List Nat) (k : Nat),
      (∀ b ∈ bs, ∀ path : List Nat,
        (∀ p ∈ (removeSubConditions conds path b.1).inputs, p ∈ b.1.inputs)
          ∧ ∀ p ∈ (removeSubConditions conds path b.2).inputs, p ∈ b.2.inputs) →
      ∀ p ∈ Rex.inputsBranches (removeInBranches conds path k bs),
        p ∈ Rex.inputsBranches bs := by
    intro bs
    induction bs with
    | nil => exact fun path k _ p hp => hp
    | cons b bs ih =>
      intro path k h p hp
      have hb := h b mem_cons_self
      have hrest := ih path (k + 2) fun x hx => h x (mem_cons_of_mem _ hx)
      rw [removeInBranches, Rex.inputsBranches, mem_append, mem_append] at hp
      rw [Rex.inputsBranches, mem_append, mem_append]
      rcases hp with (hp | hp) | hp
      · exact Or.inl (Or.inl ((hb _).1 p hp))
      · exact Or.inl (Or.inr ((hb _).2 p hp))
      · exact Or.inr (hrest p hp)
  induction e using Rex.operand_induction generalizing path with
  | func name es ti ih | oper op es ti ih =>
    intro p hp
    rw [removeSubConditions] at hp
    split at hp
    · cases hp
    · exact hlist es path 0 (fun e he _ => ih e he) p hp
  | case bs els ihb ihe =>
    intro p hp
    rw [removeSubConditions, Rex.inputs, mem_append] at hp
    rw [Rex.inputs, mem_append]
    rcases hp with hp | hp
    · exact Or.inl (hbranches bs path 0 (fun b hb _ => ⟨(ihb b hb).1, (ihb b hb).2⟩) p hp)
    · exact Or.inr (ihe p hp)
  | _ =>
    intro p hp
    rwa [removeSubConditions] at hp

theorem wellTyped_removeSubConditions {e : Rex D} (h : wellTyped e = true) :
    wellTyped (removeSubConditions conds path e) = true := by
  induction e using Rex.operand_induction generalizing path with
  | oper op es ti ih =>
    have hlen : (removeInOperands conds path 0 es).length = es.length := by
      rw [removeInOperands_eq_map, length_map, length_zipIdx]
    have hall : es.all wellTyped = true →
        (removeInOperands conds path 0 es).all wellTyped = true := by
      intro hes
      rw [removeInOperands_eq_map, all_map, all_eq_true]
      intro x hx
      have hmem := fst_mem_of_zipIdx hx
      exact ih x.1 hmem (all_eq_true.mp hes x.1 hmem)
    rw [removeSubConditions]
    split
    · rfl
    · by_cases hand : op = .kAND
      · subst hand
        rw [wellTyped, wellTypedAll_eq_all, Bool.and_eq_true] at h ⊢
        exact ⟨h.1, hall h.2⟩
      · by_cases heq : op = .kEQ
        · subst heq
          rw [wellTyped, wellTypedAll_eq_all, Bool.and_eq_true, Bool.and_eq_true] at h ⊢
          rw [hlen]
          exact ⟨h.1, hall h.2⟩
        · unfold wellTyped
          split
          · next h' => exact absurd (by injection h') hand
          · next h' => exact absurd (by injection h') heq
          · rfl
  | func name es ti ih =>
    rw [removeSubConditions]
    split <;> rfl
  | _ =>
    rfl

end

section

variable {source first last : Nat} {conds : List (List Nat)} {path : List Nat}
  (I : Interp D) (col : Nat → Nat → Value D)

variable {es : List (Rex D)}

/-- The paths of an operand's conditions are those that go through it. -/
theorem paths_of_operand {x : Rex D × Nat} (hx : x ∈ es.zipIdx) (h : ∀ q, path ++ q ∈ conds ↔ ∃ ptr,
      some ptr ∈ (findInOperands source first last path 0 es).flatten
        ∧ ptr.path = path ++ q) (q : List Nat) : (path ++ [x.2]) ++ q ∈ conds ↔ ∃ ptr,
      some ptr ∈ findHoistableConditions source first last (path ++ [x.2]) x.1
        ∧ ptr.path = (path ++ [x.2]) ++ q := by
  rw [append_assoc, h, findInOperands_eq_map]
  constructor
  · intro hptr
    obtain ⟨ptr, hmem, hpath⟩ := hptr
    obtain ⟨cs, hcs, hin⟩ := mem_flatten.mp hmem
    obtain ⟨y, hy, rfl⟩ := mem_map.mp hcs
    obtain ⟨q', hq'⟩ := path_of_find hin
    have htail : [y.2] ++ q' = [x.2] ++ q := by
      rwa [hq', append_assoc, append_right_inj] at hpath
    have hidx : y.2 = x.2 := (cons.inj htail).1
    have hxy := zipIdx_functional hx hy hidx.symm
    subst hxy
    exact ⟨ptr, hin, hpath⟩
  · intro hptr
    obtain ⟨ptr, hin, hpath⟩ := hptr
    exact ⟨ptr, mem_flatten.mpr ⟨_, mem_map.mpr ⟨x, hx, rfl⟩, hin⟩, hpath⟩

/-- The paths to remove are those the visitor returned from here. -/
def PathsOf (source first last : Nat) (conds : List (List Nat)) (path : List Nat)
    (e : Rex D) : Prop :=
  ∀ q, path ++ q ∈ conds ↔ ∃ ptr,
    some ptr ∈ findHoistableConditions source first last path e ∧ ptr.path = path ++ q

/-- What returns nothing is kept as it is. -/
theorem removeSubConditions_of_find_nil {e : Rex D}
    (hfind : findHoistableConditions source first last path e = [])
    (h : PathsOf source first last conds path e) :
    removeSubConditions conds path e = e := by
  apply removeSubConditions_self
  intro q hq
  obtain ⟨ptr, hptr, -⟩ := (h q).mp hq
  rw [hfind] at hptr
  cases hptr

/-- What returns itself is replaced by TRUE. -/
theorem removeSubConditions_of_find_self {op : SQLOps} {ti : SQLTypeInfo}
    (hfind : findHoistableConditions source first last path (.oper op es ti)
      = [some ⟨path, .oper op es ti⟩]) (h : PathsOf source first last conds path (.oper op es ti)) :
    removeSubConditions conds path (.oper op es ti) = .literal (.bool true) := by
  have hhere : conds.contains path = true := by
    rw [contains_iff_mem, ← append_nil path, h [], hfind]
    exact ⟨_, mem_singleton.mpr rfl, (append_nil _).symm⟩
  rw [removeSubConditions, if_pos hhere]

/-- An AND that is not returned itself is not removed itself. -/
theorem not_contains_of_operands (h : ∀ q, path ++ q ∈ conds ↔ ∃ ptr,
      some ptr ∈ (findInOperands source first last path 0 es).flatten
        ∧ ptr.path = path ++ q) : conds.contains path ≠ true := by
  intro hc
  rw [contains_iff_mem, ← append_nil path, h [], findInOperands_eq_map] at hc
  obtain ⟨ptr, hmem, hpath⟩ := hc
  obtain ⟨cs, hcs, hin⟩ := mem_flatten.mp hmem
  obtain ⟨x, -, rfl⟩ := mem_map.mp hcs
  obtain ⟨q, hq⟩ := path_of_find hin
  rw [hq, append_assoc, append_right_inj] at hpath
  cases hpath

/-- A row passes the condition when it passes what is left of it and all
that was taken out. -/
theorem removeSubConditions_yes_iff {e : Rex D} (h : PathsOf source first last conds path e) :
    (e.evalWith I col).truth = .yes ↔
      ((removeSubConditions conds path e).evalWith I col).truth = .yes
        ∧ ∀ ptr, some ptr ∈ findHoistableConditions source first last path e →
          (ptr.rex.evalWith I col).truth = .yes := by
  induction e using Rex.operand_induction generalizing path with
  | input s i =>
    constructor
    · intro hyes
      refine ⟨hyes, ?_⟩
      intro ptr hptr
      rw [findHoistableConditions] at hptr
      split at hptr
      · rw [mem_singleton] at hptr
        split at hptr
        · injection hptr with hptr
          rwa [hptr]
        · cases hptr
      · cases hptr
    · exact fun hyes => hyes.1
  | oper op es ti ih =>
    rcases find_oper_cases path op es ti with hfind | hfind | ⟨rfl, hfind⟩
    · rw [removeSubConditions_of_find_nil hfind h, hfind]
      exact ⟨fun hyes => ⟨hyes, nofun⟩, fun hyes => hyes.1⟩
    · rw [removeSubConditions_of_find_self hfind h, hfind]
      constructor
      · intro hyes
        refine ⟨rfl, ?_⟩
        intro ptr hptr
        injection mem_singleton.mp hptr with hptr
        rwa [hptr]
      · intro hyes
        exact hyes.2 _ (mem_singleton.mpr rfl)
    · have hpaths : ∀ q, path ++ q ∈ conds ↔ ∃ ptr,
          some ptr ∈ (findInOperands source first last path 0 es).flatten
            ∧ ptr.path = path ++ q := by
        intro q
        rw [h q, hfind]
      have hparts := fun (x : Rex D × Nat) (hx : x ∈ es.zipIdx) =>
        @ih x.1 (fst_mem_of_zipIdx hx) (path ++ [x.2]) (paths_of_operand hx hpaths)
      rw [removeSubConditions, if_neg (not_contains_of_operands hpaths), hfind,
        Rex.truth_and, Rex.truth_and, Truth.all_eq_yes_iff, Truth.all_eq_yes_iff,
        removeInOperands_eq_map, findInOperands_eq_map]
      constructor
      · intro hall
        have hparts' := fun x hx =>
          (hparts x hx).mp (hall _ (mem_map_of_mem (fst_mem_of_zipIdx hx)))
        constructor
        · intro t ht
          obtain ⟨e', he', rfl⟩ := mem_map.mp ht
          obtain ⟨x, hx, rfl⟩ := mem_map.mp he'
          exact (hparts' x hx).1
        · intro ptr hptr
          obtain ⟨cs, hcs, hin⟩ := mem_flatten.mp hptr
          obtain ⟨x, hx, rfl⟩ := mem_map.mp hcs
          exact (hparts' x hx).2 ptr hin
      · intro hyes t ht
        obtain ⟨e, he, rfl⟩ := mem_map.mp ht
        obtain ⟨k, hk⟩ := exists_zipIdx 0 he
        refine (hparts (e, k) hk).mpr ⟨?_, ?_⟩
        · exact hyes.1 _ (mem_map_of_mem (mem_map_of_mem hk))
        · intro ptr hptr
          exact hyes.2 ptr
            (mem_flatten.mpr ⟨_, mem_map_of_mem hk, hptr⟩)
  | _ =>
    rw [removeSubConditions_of_find_nil rfl h]
    exact ⟨fun hyes => ⟨hyes, nofun⟩, fun hyes => hyes.1⟩

end

end Compass.Optimizer
