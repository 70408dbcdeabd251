/-
Nested-loop joins of lists.

An inner join pairs every left row with every right row and keeps the
pairs that satisfy a predicate; a left join also keeps each left row that
found no partner, extended by itself. How two rows are combined and how
a lonely one is extended are parameters.

The facts here say when a selection may be moved through a join: a test
on the left rows that the combined rows still answer can be made before
the join or after it (`innerJoin_filter_left`, `leftJoin_filter_left`).
-/
import Mathlib.Data.List.Basic

namespace NestedLoop

open List

variable {α β γ : Type}

-- ======== joins

/-- The partners of a left row. -/
def partners (mk : α → β → γ) (p : γ → Bool) (l : α) (rs : List β) : List γ :=
  (rs.map (mk l)).filter p

def innerJoin (mk : α → β → γ) (p : γ → Bool) (ls : List α) (rs : List β) :
    List γ :=
  ls.flatMap fun l => partners mk p l rs

/-- The rows a left row contributes to a left join. -/
def orLonely (ext : γ) (found : List γ) : List γ :=
  if found.isEmpty then [ext] else found

def leftJoin (mk : α → β → γ) (ext : α → γ) (p : γ → Bool) (ls : List α) (rs : List β) : List γ :=
  ls.flatMap fun l => orLonely (ext l) (partners mk p l rs)

variable {mk : α → β → γ} {ext : α → γ}

section

variable (p : γ → Bool)

@[simp] theorem innerJoin_nil_left (rs : List β) : innerJoin mk p [] rs = []:= rfl

@[simp] theorem innerJoin_nil_right (ls : List α) : innerJoin mk p ls [] = [] := by
  simp [innerJoin, partners]

@[simp] theorem leftJoin_nil_left (rs : List β) : leftJoin mk ext p [] rs = []:= rfl

-- ======== moving a selection

/-- An inner join is a selection from the product. -/
theorem innerJoin_eq_filter (ls : List α) (rs : List β) :
    innerJoin mk p ls rs = (innerJoin mk (fun _ => true) ls rs).filter p := by
  unfold innerJoin partners
  rw [filter_flatMap]
  simp only [filter_true]

end

variable {ls : List α} {p : γ → Bool} {rs : List β}
variable {q' : γ → Bool}

/-- A selection on left rows that share one answer with all their
contributions commutes with `flatMap`. -/
theorem flatMap_filter {f : α → List γ} {q : α → Bool} (h : ∀ l ∈ ls, ∀ x ∈ f l, q' x = q l) :
    (ls.filter q).flatMap f = (ls.flatMap f).filter q' := by
  induction ls with
  | nil => rfl
  | cons l ls ih =>
    have hrest := ih fun l' hl' => h l' (mem_cons_of_mem _ hl')
    have hl := h l mem_cons_self
    rw [flatMap_cons, filter_append, ← hrest]
    cases hq : q l with
    | true =>
      rw [filter_cons_of_pos hq, flatMap_cons]
      congr 1
      exact (filter_eq_self.mpr fun x hx => (hl x hx).trans hq).symm
    | false =>
      have hnone : (f l).filter q' = [] := by
        rw [filter_eq_nil_iff]
        intro x hx
        rw [hl x hx, hq]
        decide
      rw [filter_cons_of_neg (by simp [hq]), hnone, nil_append]

theorem mem_partners {l : α} {x : γ} (h : x ∈ partners mk p l rs) : ∃ r ∈ rs, mk l r = x :=
  mem_map.mp (mem_filter.mp h).1

theorem mem_orLonely {e x : γ} {found : List γ} (h : x ∈ orLonely e found) :
    x = e ∨ x ∈ found := by
  unfold orLonely at h
  split at h
  · exact Or.inl (mem_singleton.mp h)
  · exact Or.inr h

section

variable {q : α → Bool} (h : ∀ l ∈ ls, ∀ r ∈ rs, q' (mk l r) = q l)
include h

/-- A selection on the left rows can be made after an inner join. -/
theorem innerJoin_filter_left :
    innerJoin mk p (ls.filter q) rs = (innerJoin mk p ls rs).filter q' := by
  apply flatMap_filter
  intro l hl x hx
  obtain ⟨r, hr, rfl⟩ := mem_partners hx
  exact h l hl r hr

omit h in
/-- A selection on the right rows can be made after an inner join. -/
theorem innerJoin_filter_right {q : β → Bool} (h : ∀ l ∈ ls, ∀ r ∈ rs, q' (mk l r) = q r) :
    innerJoin mk p ls (rs.filter q) = (innerJoin mk p ls rs).filter q' := by
  unfold innerJoin
  rw [filter_flatMap, flatMap_def, flatMap_def]
  congr 1
  refine map_congr_left ?_
  intro l hl
  have hmap : (rs.filter q).map (mk l) = (rs.map (mk l)).filter q' := by
    rw [filter_map]
    congr 1
    exact filter_congr fun r hr => (h l hl r hr).symm
  unfold partners
  rw [hmap, filter_filter, filter_filter]
  exact filter_congr fun x _ => Bool.and_comm _ _

/-- A selection on the left rows can be made after a left join. -/
theorem leftJoin_filter_left
    (hext : ∀ l ∈ ls, q' (ext l) = q l) : leftJoin mk ext p (ls.filter q) rs
      = (leftJoin mk ext p ls rs).filter q' := by
  apply flatMap_filter
  intro l hl x hx
  rcases mem_orLonely hx with rfl | hx
  · exact hext l hl
  · obtain ⟨r, hr, rfl⟩ := mem_partners hx
    exact h l hl r hr

end

/-- A left join on a condition that always holds is the product, unless
the right side is empty. -/
theorem leftJoin_true (hp : ∀ x, p x = true) (ls : List α) (hne : rs ≠ []) :
    leftJoin mk ext p ls rs = innerJoin mk (fun _ => true) ls rs := by
  have hpart : ∀ l, partners mk p l rs = partners mk (fun _ => true) l rs := by
    intro l
    exact filter_congr fun x _ => hp x
  have hfull : ∀ l, partners mk (fun _ => true) l rs ≠ [] := by
    intro l
    unfold partners
    rw [filter_true, ne_eq, map_eq_nil_iff]
    exact hne
  unfold leftJoin innerJoin
  congr 1
  funext l
  rw [hpart l, orLonely, if_neg]
  rw [List.isEmpty_iff]
  exact hfull l

theorem leftJoin_congr {p' : γ → Bool} (h : ∀ l ∈ ls, ∀ r ∈ rs, p (mk l r) = p' (mk l r)) :
    leftJoin mk ext p ls rs = leftJoin mk ext p' ls rs := by
  unfold leftJoin
  rw [flatMap_def, flatMap_def]
  congr 1
  refine map_congr_left ?_
  intro l hl
  have hpart : partners mk p l rs = partners mk p' l rs := by
    refine filter_congr ?_
    intro x hx
    obtain ⟨r, hr, rfl⟩ := mem_map.mp hx
    exact h l hl r hr
  rw [hpart]

end NestedLoop
