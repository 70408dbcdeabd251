/-
A plan with a condition replaced.

The nodes stay, with their inputs, sizes and users, and the plan stays
well formed when the new condition reads what the old one could. What
changes is the rows of the one node and of what lies above it: the others
have the equations they had (`nodeRows_setCondition`).

A way up through single users, and what a selection at its lower end
does to the plan.

The joins of the way have one user each, so nothing beside them sees
their rows: if the filter at the upper end computes the same rows as
before, so does every node outside the way (`rows_outside`). On the way
itself the selection travels along: a join above keeps the rows that the
selection keeps, read where the columns of the lower end stand in it
(`rows_linkLeft`, `rows_linkRight`, `rows_onTheLeft`).

The order of the plan enters through a ranking of the nodes in which
inputs come first; it excludes that the way meets itself.
-/
import Compass.Optimizer.Hoist
import Compass.RelAlg.Proofs.Eval

namespace Compass.Optimizer

open Compass.PushDown Option Nat
open Compass.RelAlg
open Compass.LeftDeep (JoinType Row Database column holds)

variable {D : Type}

-- ======== one node

/-- The node with its condition replaced, if it is the one. -/
def resetCondition (i : Nat) (condition : Rex D) (n : RelAlgNode D) : RelAlgNode D :=
  if n.id = i then
    match n.body with
    | .filter input _ => { n with body := .filter input condition }
    | .join ty lhs rhs _ => { n with body := .join ty lhs rhs condition }
    | _ => n
  else n

section

variable {i : Nat} {c : Rex D} {n : RelAlgNode D}

theorem resetCondition_of_ne (h : n.id ≠ i) : resetCondition i c n = n :=
  if_neg h

@[simp] theorem resetCondition_filter {input : Nat} {c' : Rex D} :
    resetCondition i c ⟨i, .filter input c'⟩ = ⟨i, .filter input c⟩ :=
  if_pos rfl

@[simp] theorem resetCondition_join {ty : JoinType} {lhs rhs : Nat} {c' : Rex D} :
    resetCondition i c ⟨i, .join ty lhs rhs c'⟩ = ⟨i, .join ty lhs rhs c⟩ :=
  if_pos rfl

/-- A replaced node is the same filter or the same join otherwise. -/
theorem resetCondition_cases (i : Nat) (c : Rex D) (n : RelAlgNode D) :
    resetCondition i c n = n
      ∨ (n.id = i ∧ ∃ input c', n.body = .filter input c'
          ∧ resetCondition i c n = ⟨n.id, .filter input c⟩)
      ∨ (n.id = i ∧ ∃ ty lhs rhs c', n.body = .join ty lhs rhs c'
          ∧ resetCondition i c n = ⟨n.id, .join ty lhs rhs c⟩) := by
  by_cases hi : n.id = i
  · obtain ⟨id, body⟩ := n
    cases body with
    | filter input c' =>
      exact Or.inr (Or.inl ⟨hi, input, c', rfl, if_pos hi⟩)
    | join ty lhs rhs c' =>
      exact Or.inr (Or.inr ⟨hi, ty, lhs, rhs, c', rfl, if_pos hi⟩)
    | _ => exact Or.inl (if_pos hi)
  · exact Or.inl (resetCondition_of_ne hi)

@[simp] theorem resetCondition_id : (resetCondition i c n).id = n.id := by
  rcases resetCondition_cases i c n with h | ⟨-, _, _, -, h⟩ | ⟨-, _, _, _, _, -, h⟩ <;>
    rw [h]

@[simp] theorem resetCondition_inputs : (resetCondition i c n).inputs = n.inputs := by
  rcases resetCondition_cases i c n with h | ⟨-, _, _, hb, h⟩ | ⟨-, _, _, _, _, hb, h⟩ <;>
    simp [RelAlgNode.inputs, *]

@[simp] theorem resetCondition_size (s : Nat → Nat) :
    (resetCondition i c n).size s = n.size s := by
  rcases resetCondition_cases i c n with h | ⟨-, _, _, hb, h⟩ | ⟨-, _, _, _, _, hb, h⟩ <;>
    simp [RelAlgNode.size, *]

theorem resetCondition_sidesOf : (resetCondition i c n).sidesOf = n.sidesOf := by
  obtain ⟨id, body⟩ := n
  rcases resetCondition_cases i c ⟨id, body⟩ with h | ⟨-, _, _, rfl, h⟩ |
    ⟨-, ty, _, _, _, rfl, h⟩
  · rw [h]
  · rw [h]
    rfl
  · rw [h]
    cases ty <;> rfl

@[simp] theorem resetCondition_isJoin :
    (resetCondition i c n).isJoin = n.isJoin := by
  rcases resetCondition_cases i c n with h | ⟨-, _, _, hb, h⟩ | ⟨-, _, _, _, _, hb, h⟩ <;>
    simp [RelAlgNode.isJoin, *]

end

-- ======== the plan

variable {P : Plan D} {i : Nat} {c : Rex D}

theorem setCondition_eq_map : setCondition P i c = P.map (resetCondition i c) := rfl

theorem mem_setCondition {n : RelAlgNode D} :
    n ∈ setCondition P i c ↔ ∃ m ∈ P, resetCondition i c m = n :=
  List.mem_map

@[simp] theorem setCondition_sizes : (setCondition P i c).sizes = P.sizes := by
  unfold Plan.sizes Tabulate.tabulate
  rw [setCondition_eq_map, List.foldl_map]
  simp only [resetCondition_id, resetCondition_size]

theorem setCondition_node? (k : Nat) :
    (setCondition P i c).node? k = (P.node? k).map (resetCondition i c) := by
  unfold Plan.node?
  rw [setCondition_eq_map, List.find?_map]
  simp only [Function.comp_def, resetCondition_id]

theorem setCondition_ordered (h : P.Ordered) : (setCondition P i c).Ordered := by
  constructor
  · rw [setCondition_eq_map, List.pairwise_map]
    refine h.after.imp ?_
    intro m n hmn
    rwa [resetCondition_id, resetCondition_id, resetCondition_inputs]
  · intro n hn k hk
    obtain ⟨m, hm, rfl⟩ := mem_setCondition.mp hn
    rw [resetCondition_inputs] at hk
    obtain ⟨m', hm', rfl⟩ := h.defined m hm k hk
    exact ⟨_, mem_setCondition.mpr ⟨m', hm', rfl⟩, resetCondition_id⟩
  · intro n hn
    obtain ⟨m, hm, rfl⟩ := mem_setCondition.mp hn
    rw [resetCondition_id, resetCondition_inputs]
    exact h.irrefl m hm

theorem setCondition_sameShape : P.SameShape (setCondition P i c) :=
  .of_map setCondition_sizes setCondition_node? fun _ => resetCondition_sidesOf

theorem setCondition_inScope {input : Nat} {p : Nat × Nat} :
    (setCondition P i c).InScope input p ↔ P.InScope input p := by
  unfold Plan.InScope
  rw [setCondition_sameShape.sides, setCondition_sizes]

/-- What a condition at a node may read. -/
def ConditionScope (P : Plan D) (i : Nat) (c : Rex D) : Prop :=
  (∀ input c', ⟨i, .filter input c'⟩ ∈ P → ∀ p ∈ c.inputs, P.InScope input p)
    ∧ ∀ ty lhs rhs c', ⟨i, .join ty lhs rhs c'⟩ ∈ P → ∀ p ∈ c.inputs, P.InScope i p

theorem setCondition_wellFormed (h : P.WellFormed) (hc : ConditionScope P i c) :
    (setCondition P i c).WellFormed := by
  have hkeep : ∀ n : RelAlgNode D, n.Scoped P → n.Scoped (setCondition P i c) :=
    fun n => setCondition_sameShape.scoped
  refine ⟨setCondition_ordered h.ordered, ?_, ?_⟩
  · intro n hn
    obtain ⟨m, hm, rfl⟩ := mem_setCondition.mp hn
    have hscope := h.inScope m hm
    obtain ⟨id, body⟩ := m
    rcases resetCondition_cases i c ⟨id, body⟩ with heq | ⟨hid, input, c', hb, heq⟩ |
      ⟨hid, ty, lhs, rhs, c', hb, heq⟩
    · rw [heq]
      exact hkeep _ hscope
    · dsimp only at hid hb
      subst hid hb
      rw [heq]
      exact hkeep ⟨id, .filter input c⟩ (hc.1 input c' hm)
    · dsimp only at hid hb
      subst hid hb
      rw [heq]
      exact hkeep ⟨id, .join ty lhs rhs c⟩ ⟨hscope.1, hc.2 ty lhs rhs c' hm⟩
  · intro n hn
    obtain ⟨m, hm, rfl⟩ := mem_setCondition.mp hn
    rw [resetCondition_id, setCondition_sizes]
    exact h.nonempty m hm

theorem setCondition_fits {db : Database D} (h : P.Fits db) :
    (setCondition P i c).Fits db := by
  intro n hn hleaf
  obtain ⟨m, hm, rfl⟩ := mem_setCondition.mp hn
  rw [resetCondition_inputs] at hleaf
  rw [resetCondition_id, setCondition_sizes]
  exact h m hm hleaf

/-- Where a join of the new plan comes from. -/
theorem mem_setCondition_join {k : Nat} {ty : JoinType} {lhs rhs : Nat} {c' : Rex D}
    (h : ⟨k, .join ty lhs rhs c'⟩ ∈ setCondition P i c) :
    ⟨k, .join ty lhs rhs c'⟩ ∈ P ∨ (k = i ∧ ∃ c₀, ⟨i, .join ty lhs rhs c₀⟩ ∈ P) := by
  obtain ⟨⟨id, body⟩, hm, heq⟩ := mem_setCondition.mp h
  rcases resetCondition_cases i c ⟨id, body⟩ with hr | ⟨-, _, _, -, hr⟩ |
    ⟨hid, _, _, _, c₀, hb, hr⟩
  · rw [hr] at heq
    exact Or.inl (heq ▸ hm)
  · rw [hr] at heq
    injection heq with _ hbody
    cases hbody
  · rw [hr] at heq
    subst hid hb
    injection heq with hk hbody
    injection hbody with h₁ h₂ h₃ _
    subst h₁ h₂ h₃
    exact Or.inr ⟨hk.symm, c₀, hm⟩

/-- Where a filter of the new plan comes from. -/
theorem mem_setCondition_filter {k input : Nat} {c' : Rex D}
    (h : ⟨k, .filter input c'⟩ ∈ setCondition P i c) :
    ⟨k, .filter input c'⟩ ∈ P ∨ (k = i ∧ c' = c ∧ ∃ c₀, ⟨i, .filter input c₀⟩ ∈ P) := by
  obtain ⟨⟨id, body⟩, hm, heq⟩ := mem_setCondition.mp h
  rcases resetCondition_cases i c ⟨id, body⟩ with hr | ⟨hid, _, c₀, hb, hr⟩ |
    ⟨-, _, _, _, _, -, hr⟩
  · rw [hr] at heq
    exact Or.inl (heq ▸ hm)
  · rw [hr] at heq
    subst hid hb
    injection heq with hk hbody
    injection hbody with h₁ h₂
    subst h₁
    exact Or.inr ⟨hk.symm, h₂.symm, c₀, hm⟩
  · rw [hr] at heq
    injection heq with _ hbody
    cases hbody

theorem mem_setCondition_of_ne {n : RelAlgNode D} (hn : n ∈ P) (hne : n.id ≠ i) :
    n ∈ setCondition P i c :=
  mem_setCondition.mpr ⟨n, hn, resetCondition_of_ne hne⟩

/-- Conditions of different nodes can be replaced in any order. -/
theorem setCondition_comm {k : Nat} {d : Rex D} (hne : i ≠ k) :
    setCondition (setCondition P i c) k d = setCondition (setCondition P k d) i c := by
  rw [setCondition_eq_map, setCondition_eq_map, setCondition_eq_map, setCondition_eq_map,
    List.map_map, List.map_map]
  refine List.map_congr_left ?_
  intro n _
  show resetCondition k d (resetCondition i c n) = resetCondition i c (resetCondition k d n)
  by_cases hi : n.id = i
  · have hk : n.id ≠ k := fun h => hne (hi.symm.trans h)
    rw [resetCondition_of_ne hk, resetCondition_of_ne (by rwa [resetCondition_id])]
  · rw [resetCondition_of_ne hi,
      resetCondition_of_ne (n := resetCondition k d n) (by rwa [resetCondition_id])]

-- ======== rows

theorem nodeRows_setCondition [DecidableEq D] (E : Engine D) (db : Database D)
    (n : RelAlgNode D) (t : Nat → List (Row D)) :
    nodeRows (setCondition P i c) E db n t = nodeRows P E db n t :=
  setCondition_sameShape.nodeRows_eq E db n t

end Compass.Optimizer

namespace Compass.Optimizer

open Compass.PushDown List
open Compass.RelAlg
open Compass.LeftDeep (JoinType Row Database column holds)

variable {D : Type} {P : Plan D} {filter : Nat}

-- ======== the way

/-- Each join has the next one as its only user, and the last one the
filter. -/
def SingleUsers (P : Plan D) (filter : Nat) : Nat → List Nat → Prop
  | c, [] => P.users c = [filter]
  | c, u :: us => P.users c = [u] ∧ SingleUsers P filter u us

theorem user_of_singleUsers {c : Nat} {us : List Nat} (h : SingleUsers P filter c us)
    {a : Nat} (ha : a ∈ c :: us) : ∃ u, P.users a = [u] ∧ (u = filter ∨ u ∈ us) := by
  induction us generalizing c with
  | nil =>
    obtain rfl := mem_singleton.mp ha
    exact ⟨filter, h, Or.inl rfl⟩
  | cons u us ih =>
    rcases mem_cons.mp ha with rfl | ha
    · exact ⟨u, h.1, Or.inr mem_cons_self⟩
    · obtain ⟨v, hv, hmem⟩ := ih h.2 ha
      exact ⟨v, hv, hmem.imp_right (mem_cons_of_mem _)⟩

section

variable {rank : Nat → Nat} (hrank : ∀ n ∈ P, ∀ i ∈ n.inputs, rank i < rank n.id)

include hrank

theorem rank_lt_user {a u : Nat} (h : P.users a = [u]) : rank a < rank u := by
  have hu : u ∈ P.users a := by simp [h]
  obtain ⟨n, hn, hin, rfl⟩ := Plan.mem_users.mp hu
  exact hrank n hn a hin

variable {us : List Nat}
variable {c : Nat}

section

variable (h : SingleUsers P filter c us)
include h

theorem rank_head_le : ∀ a ∈ c :: us, rank c ≤ rank a := by
  induction us generalizing c with
  | nil =>
    intro a ha
    rw [mem_singleton.mp ha]
  | cons u us ih =>
    intro a ha
    rcases mem_cons.mp ha with rfl | ha
    · exact le_refl _
    · exact le_trans (le_of_lt (rank_lt_user hrank h.1)) (ih h.2 a ha)

theorem rank_lt_filter : ∀ a ∈ c :: us, rank a < rank filter := by
  induction us generalizing c with
  | nil =>
    intro a ha
    rw [mem_singleton.mp ha]
    exact rank_lt_user hrank h
  | cons u us ih =>
    intro a ha
    rcases mem_cons.mp ha with rfl | ha
    · exact lt_trans (rank_lt_user hrank h.1) (ih h.2 u mem_cons_self)
    · exact ih h.2 a ha

/-- Two joins of the way with one user are one join. -/
theorem eq_of_users {a b u : Nat} (ha : a ∈ c :: us)
    (hb : b ∈ c :: us) (hua : P.users a = [u]) (hub : P.users b = [u]) : a = b := by
  induction us generalizing c with
  | nil => rw [mem_singleton.mp ha, mem_singleton.mp hb]
  | cons v us ih =>
    -- the user of the first join comes right after it
    have hfirst : ∀ x ∈ v :: us, P.users c = [u] → P.users x ≠ [u] := by
      intro x hx hcu hxu
      obtain rfl : v = u := by
        have heq := h.1.symm.trans hcu
        injection heq
      have hle := rank_head_le hrank h.2 x hx
      have hlt := rank_lt_user hrank hxu
      omega
    rcases mem_cons.mp ha with rfl | ha'
    · rcases mem_cons.mp hb with rfl | hb'
      · rfl
      · exact absurd hub (hfirst b hb' hua)
    · rcases mem_cons.mp hb with rfl | hb'
      · exact absurd hua (hfirst a ha' hub)
      · exact ih h.2 ha' hb'

/-- The other side of a join of the way is not on the way. -/
theorem other_not_mem {a b : Nat} {n : RelAlgNode D} (hn : n ∈ P)
    (ha : a ∈ c :: us) (hua : P.users a = [n.id]) (hb : b ∈ n.inputs) (hne : b ≠ a) :
    b ∉ c :: us := by
  intro hmem
  obtain ⟨u, hu, -⟩ := user_of_singleUsers h hmem
  have hn' : n.id ∈ P.users b := Plan.mem_users.mpr ⟨n, hn, hb, rfl⟩
  rw [hu, mem_singleton] at hn'
  exact hne (eq_of_users hrank h hmem ha (hn' ▸ hu) hua)

end

/-- What the lower end reads is not on the way. -/
theorem input_not_mem {n : RelAlgNode D} (hn : n ∈ P) (h : SingleUsers P filter n.id us) {i : Nat}
    (hi : i ∈ n.inputs) :
    i ∉ n.id :: us := by
  intro hmem
  have hle := rank_head_le hrank h i hmem
  have hlt := hrank n hn i hi
  omega

-- ======== frame

variable [DecidableEq D] {E : Engine D} {db : Database D} {P' : Plan D}

/-- Nodes outside the way keep their rows, if the filter does. -/
theorem rows_outside (hP : P.Ordered) (hP' : P'.Ordered) (h : SingleUsers P filter c us)
    (hsame : ∀ n ∈ P, n.id ≠ c → n.id ≠ filter →
      n ∈ P' ∧ ∀ t, nodeRows P' E db n t = nodeRows P E db n t)
    (hfilter : (∀ m ∈ P, m.id ∉ c :: us → rank m.id < rank filter →
        P'.rows E db m.id = P.rows E db m.id) →
      P'.rows E db filter = P.rows E db filter) :
    ∀ n ∈ P, n.id ∉ c :: us → P'.rows E db n.id = P.rows E db n.id := by
  have hall : ∀ k, ∀ n ∈ P, rank n.id < k → n.id ∉ c :: us →
      P'.rows E db n.id = P.rows E db n.id := by
    intro k
    induction k with
    | zero => exact fun n _ hk => absurd hk (Nat.not_lt_zero _)
    | succ k ih =>
      intro n hn hk hout
      by_cases hf : n.id = filter
      · rw [hf]
        apply hfilter
        intro m hm hmout hlt
        rw [← hf] at hlt
        exact ih m hm (by omega) hmout
      · have hne : n.id ≠ c := fun heq => hout (heq ▸ mem_cons_self)
        obtain ⟨hn', hrows⟩ := hsame n hn hne hf
        rw [Plan.rows_eq E db hP' hn', Plan.rows_eq E db hP hn, hrows]
        apply nodeRows_local P E db n
        intro i hi
        obtain ⟨m, hm, rfl⟩ := Plan.exists_input hP hn hi
        have hlt := hrank n hn m.id hi
        refine ih m hm (by omega) ?_
        -- the only user of a join of the way is on the way, or the filter
        intro hmem
        obtain ⟨u, hu, huser⟩ := user_of_singleUsers h hmem
        have hnu : n.id ∈ P.users m.id := Plan.mem_users.mpr ⟨n, hn, hi, rfl⟩
        rw [hu, mem_singleton] at hnu
        rcases huser with rfl | huser
        · exact hf hnu
        · exact hout (hnu ▸ mem_cons_of_mem _ huser)
  exact fun n hn hout => hall (rank n.id + 1) n hn (Nat.lt_succ_self _) hout

end

-- ======== selections

section

variable [DecidableEq D] {E : Engine D} {db : Database D} {P' : Plan D}
  (hP : P.Ordered) (hP' : P'.Ordered) {u lhs rhs : Nat} {ty : JoinType} {c : Rex D}

include hP hP'

/-- A selection on the left side of a join is one on the join. -/
theorem rows_linkLeft {q q' : Row D → Bool}
    (hu : ⟨u, .join ty lhs rhs c⟩ ∈ P) (hu' : ⟨u, .join ty lhs rhs c⟩ ∈ P')
    (hsame : ∀ t, nodeRows P' E db ⟨u, .join ty lhs rhs c⟩ t
      = nodeRows P E db ⟨u, .join ty lhs rhs c⟩ t)
    (hl : P'.rows E db lhs = (P.rows E db lhs).filter q)
    (hr : P'.rows E db rhs = P.rows E db rhs)
    (hq : ∀ l ∈ P.rows E db lhs, ∀ x, q' (l ++ x) = q l) :
    P'.rows E db u = (P.rows E db u).filter q' := by
  have hrows := Plan.rows_eq E db hP hu
  have hrows' := Plan.rows_eq E db hP' hu'
  rw [hsame] at hrows'
  rw [hrows, hrows']
  cases ty with
  | INNER =>
    simp only [nodeRows, hl, hr]
    exact NestedLoop.innerJoin_filter_left fun l hl' r _ => hq l hl' r
  | LEFT =>
    simp only [nodeRows, hl, hr]
    exact NestedLoop.leftJoin_filter_left (fun l hl' r _ => hq l hl' r)
      fun l hl' => hq l hl' _

/-- A selection on the right side of an inner join is one on the join. -/
theorem rows_linkRight {q q' : Row D → Bool}
    (hu : ⟨u, .join .INNER lhs rhs c⟩ ∈ P) (hu' : ⟨u, .join .INNER lhs rhs c⟩ ∈ P')
    (hsame : ∀ t, nodeRows P' E db ⟨u, .join .INNER lhs rhs c⟩ t
      = nodeRows P E db ⟨u, .join .INNER lhs rhs c⟩ t)
    (hl : P'.rows E db lhs = P.rows E db lhs)
    (hr : P'.rows E db rhs = (P.rows E db rhs).filter q)
    (hq : ∀ l ∈ P.rows E db lhs, ∀ r, q' (l ++ r) = q r) :
    P'.rows E db u = (P.rows E db u).filter q' := by
  have hrows := Plan.rows_eq E db hP hu
  have hrows' := Plan.rows_eq E db hP' hu'
  rw [hsame] at hrows'
  rw [hrows, hrows']
  simp only [nodeRows, hl, hr]
  exact NestedLoop.innerJoin_filter_right fun l hl' r _ => hq l hl' r

end

theorem join_of_sides {u lhs rhs : Nat} (h : P.sides u = some (lhs, rhs)) :
    ∃ ty c, ⟨u, .join ty lhs rhs c⟩ ∈ P := by
  unfold Plan.sides at h
  split at h
  · next heq =>
      obtain ⟨hmem, rfl⟩ := Plan.mem_of_node? heq
      injection h with h
      injection h with hl hr
      subst hl hr
      exact ⟨_, _, hmem⟩
  · cases h

theorem join_of_onTheLeft {c u : Nat} {us : List Nat} (h : onTheLeft P c (u :: us) = true) :
    (∃ ty rhs cond, ⟨u, .join ty c rhs cond⟩ ∈ P) ∧ onTheLeft P u us = true := by
  rw [onTheLeft, Bool.and_eq_true, decide_eq_true_eq, Option.map_eq_some_iff] at h
  obtain ⟨⟨⟨lhs, rhs⟩, hsides, rfl⟩, hrest⟩ := h
  obtain ⟨ty, cond, hmem⟩ := join_of_sides hsides
  exact ⟨⟨ty, rhs, cond, hmem⟩, hrest⟩

section

variable [DecidableEq D] {E : Engine D} {db : Database D} {P' : Plan D}
  {rank : Nat → Nat} {j : Nat} {way : List Nat}

/-- What holds of the two plans while a selection travels up the way. -/
structure Travels (P P' : Plan D) (E : Engine D) (db : Database D) (rank : Nat → Nat)
    (filter j : Nat) (way : List Nat) : Prop where
  wellFormed : P.WellFormed
  ordered' : P'.Ordered
  ranked : ∀ n ∈ P, ∀ i ∈ n.inputs, rank i < rank n.id
  single : SingleUsers P filter j way
  same : ∀ n ∈ P, n.id ≠ j → n.id ≠ filter →
    n ∈ P' ∧ ∀ t, nodeRows P' E db n t = nodeRows P E db n t
  outside : ∀ m ∈ P, m.id ∉ j :: way → rank m.id < rank filter →
    P'.rows E db m.id = P.rows E db m.id
  lengths : ∀ n ∈ P, ∀ row ∈ P.rows E db n.id, row.length = P.sizes n.id

namespace Travels

variable (T : Travels P P' E db rank filter j way)

include T

/-- A join above another one of the way is in both plans, and its other
side keeps its rows. -/
theorem link {c : Nat} {n : RelAlgNode D} (hn : n ∈ P) (hc : c ∈ j :: way)
    (hu : P.users c = [n.id]) (hmem : n.id ∈ j :: way) :
    (n ∈ P' ∧ ∀ t, nodeRows P' E db n t = nodeRows P E db n t)
      ∧ ∀ i ∈ n.inputs, i ≠ c → P'.rows E db i = P.rows E db i := by
  have hlt := rank_lt_user T.ranked hu
  have hle := rank_head_le T.ranked T.single c hc
  have hbelow := rank_lt_filter T.ranked T.single n.id hmem
  have hnj : n.id ≠ j := fun h => by rw [h] at hlt; omega
  have hnf : n.id ≠ filter := fun h => by rw [h] at hbelow; omega
  refine ⟨T.same n hn hnj hnf, ?_⟩
  intro i hi hne
  obtain ⟨m, hm, rfl⟩ := Plan.exists_input T.wellFormed.ordered hn hi
  have hrm := T.ranked n hn m.id hi
  exact T.outside m hm (other_not_mem T.ranked T.single hn hc hu hi hne) (by omega)

/-- Up a way that stays on the left, the selection stays as it is. -/
theorem rows_onTheLeft {c : Nat} {us : List Nat} {q : Row D → Bool} {bound : Nat}
    (hsingle : SingleUsers P filter c us) (hmem : ∀ a ∈ c :: us, a ∈ j :: way)
    (hleft : onTheLeft P c us = true) (hbound : bound ≤ P.sizes c)
    (hq : ∀ l x, bound ≤ l.length → q (l ++ x) = q l)
    (hc : P'.rows E db c = (P.rows E db c).filter q) :
    P'.rows E db (us.getLastD c) = (P.rows E db (us.getLastD c)).filter q := by
  induction us generalizing c with
  | nil => exact hc
  | cons u us ih =>
    obtain ⟨⟨ty, rhs, cond, hu⟩, hrest⟩ := join_of_onTheLeft hleft
    have hcmem := hmem c mem_cons_self
    have humem := hmem u (mem_cons_of_mem _ mem_cons_self)
    obtain ⟨⟨hu', hsame⟩, hother⟩ := T.link hu hcmem hsingle.1 humem
    have hne : c ≠ rhs := (T.wellFormed.inScope _ hu).1
    have hsize : P.sizes u = P.sizes c + P.sizes rhs :=
      Plan.sizes_eq T.wellFormed.ordered hu
    obtain ⟨m, hm, hmc⟩ := Plan.exists_input T.wellFormed.ordered hu
      (show c ∈ _ from mem_cons_self)
    have hlen := T.lengths m hm
    rw [hmc] at hlen
    rw [getLastD_cons]
    apply ih hsingle.2 (fun a ha => hmem a (mem_cons_of_mem _ ha)) hrest
      (by omega)
    apply rows_linkLeft T.wellFormed.ordered T.ordered' hu hu' hsame hc
    · exact hother rhs (by simp [RelAlgNode.inputs]) (Ne.symm hne)
    · intro l hl x
      exact hq l x (by rw [hlen l hl]; exact hbound)

end Travels

end

end Compass.Optimizer
