/-
Trees of nodes with any number of children, some of which may be missing.

A leaf and a node with a label get values: a tree has one if no child is
missing and every leaf has one. To replace leaves by trees is to evaluate in
the trees themselves, and then the value of what results is the value of the
tree whose leaves have the values of what they are replaced by
(`eval_subst`). So two trees have one value for every meaning of the labels
only if they are one tree after the replacement (`agree_iff`).
-/
import Mathlib.Data.List.Basic

inductive NodeTree (L H : Type) where
  | leaf (l : L)
  | node (h : H) (children : List (Option (NodeTree L H)))

namespace NodeTree

open List
open Option

variable {L K H V : Type}

mutual

def eval (leafValue : L → Option V) (nodeValue : H → List V → V) : NodeTree L H → Option V
  | leaf l => leafValue l
  | node h children => (evalList leafValue nodeValue children).map (nodeValue h)

def evalList (leafValue : L → Option V) (nodeValue : H → List V → V) :
    List (Option (NodeTree L H)) → Option (List V)
  | [] => some []
  | none :: _ => none
  | some t :: ts => do
      let v ← eval leafValue nodeValue t
      let vs ← evalList leafValue nodeValue ts
      return v :: vs

end

mutual

/-- Trees with the same labels, no child of which is missing. -/
def SameStructure (same : L → L → Prop) : NodeTree L H → NodeTree L H → Prop
  | leaf l, leaf l' => same l l'
  | node h children, node h' children' => h = h' ∧ SameStructures same children children'
  | _, _ => False

def SameStructures (same : L → L → Prop) :
    List (Option (NodeTree L H)) → List (Option (NodeTree L H)) → Prop
  | [], [] => True
  | some t :: ts, some t' :: ts' => SameStructure same t t' ∧ SameStructures same ts ts'
  | _, _ => False

end

mutual

/-- No child is missing, and every leaf has a property. -/
def All (p : L → Prop) : NodeTree L H → Prop
  | leaf l => p l
  | node _ children => AllList p children

def AllList (p : L → Prop) : List (Option (NodeTree L H)) → Prop
  | [] => True
  | none :: _ => False
  | some t :: ts => All p t ∧ AllList p ts

end

mutual

theorem all_mono {p q : L → Prop} (hpq : ∀ l, p l → q l) :
    ∀ {t : NodeTree L H}, t.All p → t.All q
  | leaf l, h => hpq l h
  | node _ _, h => allList_mono hpq h

theorem allList_mono {p q : L → Prop} (hpq : ∀ l, p l → q l) :
    ∀ {ts : List (Option (NodeTree L H))}, AllList p ts → AllList q ts
  | [], _ => trivial
  | some _ :: _, h => ⟨all_mono hpq h.1, allList_mono hpq h.2⟩

end

theorem allList_append {p : L → Prop} {us : List (Option (NodeTree L H))} :
    ∀ {ts : List (Option (NodeTree L H))}, AllList p (ts ++ us) ↔ AllList p ts ∧ AllList p us
  | [] | none :: ts => by simp [AllList]
  | some t :: ts => by
      rw [cons_append, AllList, AllList, allList_append, and_assoc]

-- ======== replacement

/-- A node over trees. -/
def ofTrees (h : H) (ts : List (NodeTree K H)) : NodeTree K H :=
  node h (ts.map some)

def subst (f : L → Option (NodeTree K H)) : NodeTree L H → Option (NodeTree K H) :=
  eval f ofTrees

def substList (f : L → Option (NodeTree K H)) :
    List (Option (NodeTree L H)) → Option (List (NodeTree K H)) :=
  evalList f ofTrees

theorem evalList_map_some {leafValue : K → Option V} {nodeValue : H → List V → V} :
    ∀ {ts : List (NodeTree K H)},
      evalList leafValue nodeValue (ts.map some) = ts.mapM (eval leafValue nodeValue)
  | [] => rfl
  | t :: ts => by
      rw [map_cons, evalList, mapM_cons, evalList_map_some]

section

variable (f : L → Option (NodeTree K H)) (leafValue : K → Option V)
  (nodeValue : H → List V → V)

mutual

theorem eval_subst : ∀ t : NodeTree L H,
    eval (fun l => (f l).bind (eval leafValue nodeValue)) nodeValue t =
      (subst f t).bind (eval leafValue nodeValue)
  | leaf l => rfl
  | node h children => by
      rw [eval, evalList_subst children, subst, eval, ← substList]
      cases substList f children with
      | none => rfl
      | some ts =>
        rw [map_some, bind_some, bind_some, ofTrees, eval, evalList_map_some]

theorem evalList_subst : ∀ ts : List (Option (NodeTree L H)),
    evalList (fun l => (f l).bind (eval leafValue nodeValue)) nodeValue ts =
      (substList f ts).bind (mapM (eval leafValue nodeValue))
  | [] | none :: _ => rfl
  | some t :: ts => by
      rw [evalList, eval_subst t, evalList_subst ts, substList, evalList, ← substList, ← subst]
      cases subst f t with
      | none => rfl
      | some t' =>
        cases substList f ts with
        | none =>
          cases h : eval leafValue nodeValue t' <;> simp [h]
        | some ts' =>
          simp only [bind_eq_bind, bind_some]
          exact (mapM_cons (m := Option)).symm

end

end

-- ======== agreement

section agreement

variable {same : L → L → Prop} {above below : L → Option (NodeTree K H)}

mutual

/-- A tree of which no child is missing becomes a tree if each leaf does. -/
theorem subst_isSome (hbelow : ∀ l, (below l).isSome = true) :
    ∀ {t t' : NodeTree L H}, t.SameStructure same t' → (subst below t).isSome = true
  | leaf l, _, _ => hbelow l
  | node h ts, node h' ts', hsame => by
      rw [subst, eval, isSome_map]
      exact substList_isSome hbelow hsame.2

theorem substList_isSome (hbelow : ∀ l, (below l).isSome = true) :
    ∀ {ts ts' : List (Option (NodeTree L H))}, SameStructures same ts ts' →
      (substList below ts).isSome = true
  | [], [], _ => rfl
  | some t :: ts, some t' :: ts', hsame => by
      obtain ⟨u, hu⟩ := isSome_iff_exists.1 (subst_isSome hbelow hsame.1)
      obtain ⟨us, hus⟩ := isSome_iff_exists.1 (substList_isSome hbelow hsame.2)
      rw [subst] at hu
      rw [substList] at hus
      rw [substList, evalList, hu, hus]
      rfl

end

/-- Trees of one structure that are one tree after a replacement in each. -/
def Agree (same : L → L → Prop) (above below : L → Option (NodeTree K H))
    (t t' : NodeTree L H) : Prop :=
  t.SameStructure same t' ∧ subst above t' = subst below t

def AgreeAll (same : L → L → Prop) (above below : L → Option (NodeTree K H))
    (ts ts' : List (Option (NodeTree L H))) : Prop :=
  SameStructures same ts ts' ∧ substList above ts' = substList below ts

theorem agree_node (hbelow : ∀ l, (below l).isSome = true) {h h' : H}
    {ts ts' : List (Option (NodeTree L H))} :
    Agree same above below (node h ts) (node h' ts') ↔
      h = h' ∧ AgreeAll same above below ts ts' := by
  constructor
  · rintro ⟨⟨rfl, hsame⟩, heq⟩
    refine ⟨rfl, hsame, ?_⟩
    obtain ⟨us, hus⟩ := isSome_iff_exists.1 (substList_isSome hbelow hsame)
    rw [subst, eval, ← substList, subst, eval, ← substList, hus, map_some, map_eq_some_iff] at heq
    obtain ⟨us', hus', heq⟩ := heq
    rw [hus', hus, map_injective_iff.2 (fun _ _ => some.inj) (node.inj heq).2]
  · rintro ⟨rfl, hsame, heq⟩
    refine ⟨⟨rfl, hsame⟩, ?_⟩
    rw [subst, eval, ← substList, subst, eval, ← substList, heq]

theorem substList_cons {f : L → Option (NodeTree K H)} {t : NodeTree L H}
    {ts : List (Option (NodeTree L H))} :
    substList f (some t :: ts) =
      (subst f t).bind fun u => (substList f ts).map fun us => u :: us := by
  rw [substList, evalList, ← subst, ← substList]
  cases subst f t with
  | none => rfl
  | some u => cases substList f ts <;> rfl

theorem agreeAll_nil : AgreeAll same above below ([] : List (Option (NodeTree L H))) [] :=
  ⟨trivial, rfl⟩

theorem agreeAll_cons (hbelow : ∀ l, (below l).isSome = true) {t t' : NodeTree L H}
    {ts ts' : List (Option (NodeTree L H))} :
    AgreeAll same above below (some t :: ts) (some t' :: ts') ↔
      Agree same above below t t' ∧ AgreeAll same above below ts ts' := by
  constructor
  · rintro ⟨⟨hsame, hsames⟩, heq⟩
    obtain ⟨u, hu⟩ := isSome_iff_exists.1 (subst_isSome hbelow hsame)
    obtain ⟨us, hus⟩ := isSome_iff_exists.1 (substList_isSome hbelow hsames)
    rw [substList_cons, substList_cons, hu, hus, bind_some, map_some, bind_eq_some_iff] at heq
    obtain ⟨u', hu', heq⟩ := heq
    obtain ⟨us', hus', heq⟩ := map_eq_some_iff.1 heq
    obtain ⟨rfl, rfl⟩ := cons.inj heq
    exact ⟨⟨hsame, hu'.trans hu.symm⟩, hsames, hus'.trans hus.symm⟩
  · rintro ⟨⟨hsame, heq⟩, hsames, heqs⟩
    refine ⟨⟨hsame, hsames⟩, ?_⟩
    rw [substList_cons, substList_cons, heq, heqs]

theorem agreeAll_append (hbelow : ∀ l, (below l).isSome = true)
    {us us' : List (Option (NodeTree L H))} :
    ∀ {ts ts' : List (Option (NodeTree L H))}, ts.length = ts'.length →
      (AgreeAll same above below (ts ++ us) (ts' ++ us') ↔
        AgreeAll same above below ts ts' ∧ AgreeAll same above below us us')
  | [], [], _ => by simp [agreeAll_nil]
  | [], _ :: _, h => absurd h (by simp)
  | _ :: _, [], h => absurd h (by simp)
  | some t :: ts, some t' :: ts', h => by
      rw [cons_append, cons_append, agreeAll_cons hbelow, agreeAll_cons hbelow,
        agreeAll_append hbelow (Nat.succ.inj h), and_assoc]
  | none :: ts, _ :: ts', _ => by
      simp [AgreeAll, SameStructures]
  | some t :: ts, none :: ts', _ => by
      simp [AgreeAll, SameStructures]

mutual

/-- A tree agrees with itself leaf by leaf. -/
theorem agree_self (hbelow : ∀ l, (below l).isSome = true) : ∀ {t : NodeTree L H},
    Agree same above below t t ↔ t.All fun l => same l l ∧ above l = below l
  | leaf l => Iff.rfl
  | node h ts => by
      rw [agree_node hbelow, agreeAll_self hbelow, All]
      exact and_iff_right rfl

theorem agreeAll_self (hbelow : ∀ l, (below l).isSome = true) :
    ∀ {ts : List (Option (NodeTree L H))},
      AgreeAll same above below ts ts ↔ AllList (fun l => same l l ∧ above l = below l) ts
  | [] => ⟨fun _ => trivial, fun _ => agreeAll_nil⟩
  | none :: ts => ⟨fun h => h.1.elim, fun h => h.elim⟩
  | some t :: ts => by
      rw [agreeAll_cons hbelow, agree_self hbelow, agreeAll_self hbelow, AllList]

end

/-- What leaves are replaced by has no missing child. -/
def Whole (f : L → Option (NodeTree K H)) : Prop :=
  ∀ l, (f l).bind (subst fun k => some (leaf k)) = f l

theorem whole_leaf (f : L → Option K) : Whole (H := H) fun l => (f l).map leaf := by
  intro l
  cases h : f l <;> simp [h, subst, eval]

theorem whole_subst {f : L → Option (NodeTree K H)} (hf : Whole f) (t : NodeTree L H) :
    (subst f t).bind (subst fun k => some (leaf k)) = subst f t := by
  have h := eval_subst f (fun k => some (leaf k)) ofTrees t
  rw [show (fun l => (f l).bind (eval (fun k => some (leaf k)) ofTrees)) = f from funext hf] at h
  exact h.symm

/-- Two trees have the same value, whatever the labels mean and what stands
behind the leaves, if and only if they agree. -/
theorem agree_iff (habove : Whole above) (hbelow : Whole below) {t t' : NodeTree L H} :
    Agree same above below t t' ↔ t.SameStructure same t' ∧
      ∀ (V : Type) (leafValue : K → Option V) (nodeValue : H → List V → V),
        eval (fun l => (above l).bind (eval leafValue nodeValue)) nodeValue t' =
          eval (fun l => (below l).bind (eval leafValue nodeValue)) nodeValue t := by
  refine and_congr_right fun _ => ⟨fun heq V leafValue nodeValue => ?_, fun h => ?_⟩
  · rw [eval_subst, eval_subst, heq]
  · -- the trees are a meaning, in which a tree without a missing child is its own value
    have heq := h (NodeTree K H) (fun k => some (leaf k)) ofTrees
    rwa [show (fun l => (above l).bind (eval (fun k => some (leaf k)) ofTrees)) = above from
        funext habove,
      show (fun l => (below l).bind (eval (fun k => some (leaf k)) ofTrees)) = below from
        funext hbelow] at heq

end agreement

end NodeTree
