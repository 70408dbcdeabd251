/-
Hoisting keeps what the filter lets through.

A step moves conditions from a filter into a cross join below it. The
join then selects its rows by them, the selection travels up the way to
the filter, and there it and what is left of the filter's condition make
up the condition as it was (`rows_hoisted`). The other nodes do not see
the difference. A run is a sequence of such steps; what a step needs of
the plan it leaves behind again (`Hoisted`).
-/
import Compass.Optimizer.Proofs.Conditions
import Compass.Optimizer.Proofs.Split

namespace Compass.Optimizer

open Compass.PushDown List
open Compass.RelAlg
open Compass.LeftDeep (JoinType Row Database column holds)

variable {D : Type} {P P' : Plan D}

-- ======== columns

theorem column_drop (row : Row D) (o i : Nat) :
    column (row.drop o) i = column row (o + i) := by
  unfold column
  rw [getD_eq_getElem?_getD, getD_eq_getElem?_getD, getElem?_drop]

theorem column_append_left {l x : Row D} {i : Nat} (h : i < l.length) :
    column (l ++ x) i = column l i := by
  unfold column
  rw [getD_eq_getElem?_getD, getD_eq_getElem?_getD, getElem?_append_left h]

theorem holds_true_iff {I : Interp D} {col : Nat → Nat → Value D} {e : Rex D} :
    holds I col e = true ↔ (e.evalWith I col).truth = .yes := by
  unfold holds
  rw [decide_eq_true_eq]

/-- The condition of the join, on a row that has its columns from some
place on. -/
def holdsAt (E : Engine D) (sizes : Nat → Nat) (lhs rhs : Nat) (c : Rex D) (o : Nat)
    (row : Row D) : Bool :=
  holds E.toInterp (sideColumn sizes lhs rhs (row.drop o)) c

section

variable {E : Engine D} {sizes : Nat → Nat} {lhs rhs : Nat} {c : Rex D}

/-- What follows the columns of the join does not matter. -/
theorem holdsAt_append (hscope : ∀ p ∈ c.inputs, SideScope sizes lhs rhs p)
    {o : Nat} (l x : Row D) (hlen : o + (sizes lhs + sizes rhs) ≤ l.length) :
    holdsAt E sizes lhs rhs c o (l ++ x) = holdsAt E sizes lhs rhs c o l := by
  unfold holdsAt holds
  have hcol : c.evalWith E.toInterp (sideColumn sizes lhs rhs ((l ++ x).drop o))
      = c.evalWith E.toInterp (sideColumn sizes lhs rhs (l.drop o)) := by
    apply Rex.evalWith_congr
    intro p hp
    unfold sideColumn
    rw [column_drop, column_drop, column_drop, column_drop]
    rcases hscope p hp with ⟨hs, hi⟩ | ⟨hs, hi⟩
    · rw [if_pos hs, if_pos hs, column_append_left (by omega)]
    · rw [column_append_left (by omega : o + (sizes lhs + p.2) < l.length)]
      by_cases hl : p.1 = lhs
      · have hlr : sizes lhs = sizes rhs := by rw [← hl, hs]
        rw [if_pos hl, if_pos hl, column_append_left (by omega)]
      · rw [if_neg hl, if_neg hl]
  rw [hcol]

/-- What precedes them is skipped. -/
theorem holdsAt_skip {k : Nat} {l : Row D} (hl : l.length = k) (r : Row D) :
    holdsAt E sizes lhs rhs c k (l ++ r) = holdsAt E sizes lhs rhs c 0 r := by
  unfold holdsAt
  rw [← hl, drop_left, drop_zero]

end

-- ======== the step

/-- Where the columns of the join start in the last join of the way. -/
def wayOffset (P : Plan D) (join : Nat) : List Nat → Nat
  | [] => 0
  | u :: _ => sideOffset P join u

/-- The joins above let the rows of the join through as they are, and
keep its columns where the pass looks for them. -/
def WayOpen (P : Plan D) (join : Nat) : List Nat → Prop
  | [] => True
  | u :: us => keepsRows P join u = true ∧ onTheLeft P u us = true

section

variable [DecidableEq D] {E : Engine D} {db : Database D} {rank : Nat → Nat}
  {j filter lhs rhs src : Nat} {way : List Nat} {H R cond : Rex D}

/-- The rows of the join are those that its new condition lets through. -/
theorem Travels.rows_join (T : Travels P P' E db rank filter j way)
    (hplan : ∀ n t, nodeRows P' E db n t = nodeRows P E db n t)
    (hj : ⟨j, .join .INNER lhs rhs (.literal (.bool true))⟩ ∈ P)
    (hj' : ⟨j, .join .INNER lhs rhs H⟩ ∈ P') :
    P'.rows E db j = (P.rows E db j).filter (holdsAt E P.sizes lhs rhs H 0) := by
  have hside : ∀ i ∈ (⟨j, .join .INNER lhs rhs (.literal (.bool true))⟩ :
      RelAlgNode D).inputs, P'.rows E db i = P.rows E db i := by
    intro i hi
    obtain ⟨m, hm, rfl⟩ := Plan.exists_input T.wellFormed.ordered hj hi
    have hlt := T.ranked _ hj m.id hi
    have hbelow := rank_lt_filter T.ranked T.single j mem_cons_self
    exact T.outside m hm (input_not_mem T.ranked hj T.single hi)
      (Nat.lt_trans hlt hbelow)
  have hrows := Plan.rows_eq E db T.wellFormed.ordered hj
  have hrows' := Plan.rows_eq E db T.ordered' hj'
  rw [hplan] at hrows'
  rw [hrows, hrows']
  simp only [nodeRows]
  rw [hside lhs (by simp [RelAlgNode.inputs]), hside rhs (by simp [RelAlgNode.inputs]),
    NestedLoop.innerJoin_eq_filter]
  rfl

/-- At the upper end of the way the selection is by the new condition,
read where the columns of the join are. -/
theorem Travels.rows_top (T : Travels P P' E db rank filter j way)
    (hplan : ∀ n t, nodeRows P' E db n t = nodeRows P E db n t) (hopen : WayOpen P j way)
    (hj : ⟨j, .join .INNER lhs rhs (.literal (.bool true))⟩ ∈ P)
    (hj' : ⟨j, .join .INNER lhs rhs H⟩ ∈ P')
    (hscope : ∀ p ∈ H.inputs, SideScope P.sizes lhs rhs p) :
    P'.rows E db (way.getLastD j) = (P.rows E db (way.getLastD j)).filter
      (holdsAt E P.sizes lhs rhs H (wayOffset P j way)) := by
  have hbase := T.rows_join hplan hj hj'
  have hsize : P.sizes j = P.sizes lhs + P.sizes rhs :=
    Plan.sizes_eq T.wellFormed.ordered hj
  cases way with
  | nil => exact hbase
  | cons u us =>
    have hsingle := T.single
    obtain ⟨hu, hrest⟩ := hsingle
    have hkeeps := hopen.1
    unfold keepsRows at hkeeps
    split at hkeeps
    · next id ty l r c hnode =>
        obtain ⟨hn, rfl⟩ := Plan.mem_of_node? hnode
        rw [decide_eq_true_eq] at hkeeps
        have hsides := Plan.sides_of_join T.wellFormed.ordered hn
        have hne : l ≠ r := (T.wellFormed.inScope _ hn).1
        have hsizeu : P.sizes id = P.sizes l + P.sizes r :=
          Plan.sizes_eq T.wellFormed.ordered hn
        obtain ⟨⟨hn', hsame⟩, hother⟩ := T.link hn mem_cons_self hu
          (mem_cons_of_mem _ mem_cons_self)
        -- the join is one of the two sides
        have hside : j = l ∨ j = r := by
          have hmem : id ∈ P.users j := by simp [hu]
          obtain ⟨m, hm, hin, hid⟩ := Plan.mem_users.mp hmem
          rw [T.wellFormed.ordered.eq_of_key hm hn hid] at hin
          simpa [RelAlgNode.inputs] using hin
        have hfirst : P'.rows E db id = (P.rows E db id).filter
            (holdsAt E P.sizes lhs rhs H (sideOffset P j id)) := by
          unfold sideOffset
          rw [hsides]
          dsimp only
          rcases hside with rfl | rfl
          · rw [if_neg (Ne.symm hne)]
            apply rows_linkLeft T.wellFormed.ordered T.ordered' hn hn' hsame hbase
            · exact hother r (by simp [RelAlgNode.inputs]) (Ne.symm hne)
            · intro x hx y
              apply holdsAt_append hscope
              have hlen := T.lengths _ hj x hx
              dsimp only at hlen
              omega
          · rw [if_pos rfl]
            obtain rfl := hkeeps rfl
            apply rows_linkRight T.wellFormed.ordered T.ordered' hn hn' hsame ?_ hbase
            · intro x hx y
              obtain ⟨m, hm, hml⟩ := Plan.exists_input T.wellFormed.ordered hn
                (show l ∈ _ from mem_cons_self)
              have hlen := T.lengths m hm
              rw [hml] at hlen
              exact holdsAt_skip (hlen x hx) y
            · exact hother l (by simp [RelAlgNode.inputs]) hne
        rw [getLastD_cons]
        have hbound : sideOffset P j id + (P.sizes lhs + P.sizes rhs) ≤ P.sizes id := by
          unfold sideOffset
          rw [hsides]
          dsimp only
          rcases hside with rfl | rfl
          · rw [if_neg (Ne.symm hne)]
            omega
          · rw [if_pos rfl]
            omega
        exact T.rows_onTheLeft hrest (fun a ha => mem_cons_of_mem _ ha) hopen.2
          hbound (fun x y hxy => holdsAt_append hscope x y hxy) hfirst
    · cases hkeeps

/-- A step keeps the rows of every node outside the way. -/
theorem rows_hoisted (hwf : P.WellFormed) (hfits : P.Fits db) (hP' : P'.Ordered)
    (hplan : ∀ n t, nodeRows P' E db n t = nodeRows P E db n t)
    (hkept : ∀ n ∈ P, n.id ≠ j → n.id ≠ filter → n ∈ P')
    (hsingle : SingleUsers P filter j way) (hopen : WayOpen P j way)
    (hj : ⟨j, .join .INNER lhs rhs (.literal (.bool true))⟩ ∈ P)
    (hj' : ⟨j, .join .INNER lhs rhs H⟩ ∈ P') (hf : ⟨filter, .filter (way.getLastD j) cond⟩ ∈ P)
    (hf' : ⟨filter, .filter (way.getLastD j) R⟩ ∈ P')
    (hscope : ∀ p ∈ H.inputs, SideScope P.sizes lhs rhs p)
    (hsplit : ∀ row ∈ P.rows E db (way.getLastD j),
      (holdsAt E P.sizes lhs rhs H (wayOffset P j way) row
          && holds E.toInterp (inputColumn P (way.getLastD j) row) R)
        = holds E.toInterp (inputColumn P (way.getLastD j) row) cond) :
    ∀ n ∈ P, n.id ∉ j :: way → P'.rows E db n.id = P.rows E db n.id := by
  obtain ⟨rank, hrank⟩ := hwf.ordered.exists_rank
  apply rows_outside hrank hwf.ordered hP' hsingle
  · exact fun n hn hnj hnf => ⟨hkept n hn hnj hnf, hplan n⟩
  · intro hout
    have T : Travels P P' E db rank filter j way :=
      { wellFormed := hwf
        ordered' := hP'
        ranked := hrank
        single := hsingle
        same := fun n hn hnj hnf => ⟨hkept n hn hnj hnf, hplan n⟩
        outside := hout
        lengths := Plan.rows_length hwf hfits }
    have htop := T.rows_top hplan hopen hj hj' hscope
    have hrows := Plan.rows_eq E db hwf.ordered hf
    have hrows' := Plan.rows_eq E db hP' hf'
    rw [hplan] at hrows'
    rw [hrows, hrows']
    simp only [nodeRows]
    rw [htop, filter_filter]
    refine filter_congr ?_
    intro row hrow
    rw [Bool.and_comm]
    exact hsplit row hrow

end

-- ======== the walk

theorem sideOffset_of_join {j u l r : Nat} (h : P.sides u = some (l, r)) :
    sideOffset P j u = if r = j then P.sizes l else 0 := by
  unfold sideOffset
  rw [h]

/-- What `chainUp` finds. -/
theorem chainUp_spec (hord : P.Ordered) {fuel c f : Nat} {us : List Nat}
    (h : chainUp P fuel c = some (us, f)) :
    SingleUsers P f c us ∧ (∀ u ∈ us, ∃ l r, P.sides u = some (l, r))
      ∧ ∃ cond, ⟨f, .filter (us.getLastD c) cond⟩ ∈ P := by
  induction fuel generalizing c us with
  | zero => cases h
  | succ fuel ih =>
    rw [chainUp] at h
    split at h
    · next u hu =>
        split at h
        · next hnode =>
            rw [Option.map_eq_some_iff] at h
            obtain ⟨⟨us', f'⟩, hrest, heq⟩ := h
            injection heq with hus hf
            subst hus hf
            obtain ⟨hsingle, hjoins, hfilter⟩ := ih hrest
            refine ⟨⟨hu, hsingle⟩, ?_, by rwa [getLastD_cons]⟩
            intro x hx
            rcases mem_cons.mp hx with rfl | hx
            · exact ⟨_, _, by unfold Plan.sides; rw [hnode]⟩
            · exact hjoins x hx
        · next id input cond hnode =>
            injection h with h
            injection h with hus hf
            subst hus hf
            obtain ⟨hn, rfl⟩ := Plan.mem_of_node? hnode
            have hmem : id ∈ P.users c := by simp [hu]
            obtain ⟨m, hm, hin, hid⟩ := Plan.mem_users.mp hmem
            rw [hord.eq_of_key hm hn hid] at hin
            obtain rfl := mem_singleton.mp hin
            exact ⟨hu, nofun, cond, hn⟩
        · cases h
    · cases h

/-- The walk of the pass finds what `chainUp` finds. -/
theorem walkUp_of_chainUp {j fuel c first f : Nat} {seq us : List Nat}
    (h : chainUp P fuel c = some (us, f)) :
    walkUp P j fuel c first seq
      = some (some f, seq ++ us, first + (us.map (sideOffset P j)).sum) := by
  induction fuel generalizing c us first seq with
  | zero => cases h
  | succ fuel ih =>
    rw [chainUp] at h
    split at h
    · next u hu =>
        split at h
        · next id ty l r cond hnode =>
            rw [Option.map_eq_some_iff] at h
            obtain ⟨⟨us', f'⟩, hrest, heq⟩ := h
            injection heq with hus hf
            subst hus hf
            have hsides : P.sides u = some (l, r) := by unfold Plan.sides; rw [hnode]
            rw [walkUp, hu]
            dsimp only
            rw [hnode]
            dsimp only
            rw [ih hrest, append_assoc, map_cons, sum_cons, sideOffset_of_join hsides]
            simp only [eq_comm (a := j)]
            split <;> simp [Nat.add_assoc]
        · next hnode =>
            injection h with h
            injection h with hus hf
            subst hus hf
            rw [walkUp, hu]
            dsimp only
            rw [hnode]
            simp
        · cases h
    · cases h

/-- Where `chainUp` finds no filter, the walk ends without one. -/
theorem walkUp_of_chainUp_none {j fuel c first : Nat} {seq : List Nat}
    (h : chainUp P fuel c = none) :
    walkUp P j fuel c first seq = none
      ∨ ∃ seq' first', walkUp P j fuel c first seq = some (none, seq', first') := by
  induction fuel generalizing c first seq with
  | zero => exact Or.inl rfl
  | succ fuel ih =>
    rw [chainUp] at h
    split at h
    · next u hu =>
        split at h
        · next hnode =>
            rw [Option.map_eq_none_iff] at h
            rw [walkUp, hu]
            dsimp only
            rw [hnode]
            exact ih h
        · cases h
        · next hnojoin hnofilter =>
            refine Or.inr ⟨seq, first, ?_⟩
            rw [walkUp, hu]
            dsimp only
            cases hnode : P.node? u with
            | none => rfl
            | some n =>
              obtain ⟨id, body⟩ := n
              cases body with
              | join ty l r cond => exact absurd hnode (hnojoin _ _ _ _ _)
              | filter x cond => exact absurd hnode (hnofilter _ _ _)
              | _ => rfl
    · next hno =>
        refine Or.inr ⟨seq, first, ?_⟩
        rcases hus : P.users c with _ | ⟨u, _ | ⟨v, vs⟩⟩
        · rw [walkUp, hus]
        · exact absurd hus (hno u)
        · rw [walkUp, hus]

/-- The fuel lasts: users come after what they use. -/
theorem walkUp_isSome (hord : P.Ordered) {j fuel first : Nat} {seq : List Nat}
    {pre post : Plan D} {n : RelAlgNode D} (hsplit : P = pre ++ n :: post)
    (hfuel : post.length < fuel) : walkUp P j fuel n.id first seq ≠ none := by
  induction fuel generalizing n first seq pre post with
  | zero => exact absurd hfuel (Nat.not_lt_zero _)
  | succ fuel ih =>
    rw [walkUp]
    split
    · next u hu =>
        split
        · next id ty l r c hnode =>
            obtain ⟨hm, rfl⟩ := Plan.mem_of_node? hnode
            have hmem : id ∈ P.users n.id := by simp [hu]
            obtain ⟨m, hm', hin, hid⟩ := Plan.mem_users.mp hmem
            obtain rfl := hord.eq_of_key hm' hm hid
            have hpost := hord.mem_after hsplit hm hin
            obtain ⟨mid, post', rfl⟩ := append_of_mem hpost
            have hsplit' : P = (pre ++ n :: mid) ++ ⟨id, .join ty l r c⟩ :: post' := by
              rw [hsplit, append_assoc]
              rfl
            refine ih hsplit' ?_
            rw [length_append, length_cons] at hfuel
            omega
        · nofun
        · nofun
    · nofun

end Compass.Optimizer
