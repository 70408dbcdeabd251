/-
Lists that are kept without duplicates, where a comparison may fail.

`add` compares a new element with those there, in order, until one is equal,
and puts it behind them if none is. Where no comparison fails, `addAll`
leaves the list that `keep` describes. If a failure is a matter of the two
elements and not of which of two equal ones is compared, the loop succeeds
only if every two elements can be compared (`comparable_of_addAll`).
-/
import Mathlib.Data.List.Basic

namespace Distinct

open List

variable {α ε : Type} (eq : α → α → Except ε Bool)

def add (x : α) : List α → Except ε (List α)
  | [] => .ok [x]
  | y :: ys => do
      if ← eq y x then return y :: ys
      let ys ← add x ys
      return y :: ys

def addAll (D : List α) : List α → Except ε (List α)
  | [] => .ok D
  | x :: l => do
      let D ← add eq x D
      addAll D l

def same (x y : α) : Bool :=
  match eq x y with
  | .ok b => b
  | .error _ => false

def Comparable (x y : α) : Prop :=
  ∃ b, eq x y = .ok b

/-- What is left of a list behind the elements there are. -/
def keep (D : List α) : List α → List α
  | [] => D
  | x :: l => keep (if D.any (same eq · x) then D else D ++ [x]) l

variable {eq}

theorem same_iff {x y : α} : same eq x y = true ↔ eq x y = .ok true := by
  unfold same
  cases eq x y <;> simp

theorem add_eq {x : α} :
    ∀ {D : List α}, (∀ y ∈ D, Comparable eq y x) →
      add eq x D = .ok (if D.any (same eq · x) then D else D ++ [x])
  | [], _ => rfl
  | y :: ys, h => by
      have ih := add_eq fun z hz => h z (mem_cons_of_mem y hz)
      obtain ⟨b, hb⟩ := h y mem_cons_self
      have hsame : same eq y x = b := by rw [same, hb]
      cases b with
      | true => simp [add, hb, hsame, bind, Except.bind, pure, Except.pure]
      | false =>
        simp only [add, hb, ih, hsame, bind, Except.bind, pure, Except.pure, any_cons,
          Bool.false_or, Bool.false_eq_true, if_false, cons_append]
        split <;> rfl

variable {l : List α}

theorem addAll_eq :
    ∀ {D : List α}, (∀ y ∈ D, ∀ x ∈ l, Comparable eq y x) → l.Pairwise (Comparable eq) →
      addAll eq D l = .ok (keep eq D l) := by
  induction l with
  | nil => exact fun _ _ => rfl
  | cons x l ih =>
    intro D hD hl
    obtain ⟨hx, hl⟩ := pairwise_cons.1 hl
    rw [addAll, add_eq fun y hy => hD y hy x mem_cons_self, keep]
    refine ih (fun y hy z hz => ?_) hl
    have hold : ∀ y ∈ D, Comparable eq y z := fun y hy =>
      hD y hy z (mem_cons_of_mem x hz)
    split at hy
    · exact hold y hy
    · rcases mem_append.1 hy with hy | hy
      · exact hold y hy
      · exact mem_singleton.1 hy ▸ hx z hz

theorem addAll_append {k D : List α} :
    addAll eq D (l ++ k) = addAll eq D l >>= fun D => addAll eq D k := by
  induction l generalizing D with
  | nil => rfl
  | cons x l ih =>
    simp only [cons_append, addAll, bind_assoc]
    exact congrArg _ (funext fun D => ih)

-- ======== what is in the list

theorem subset_keep : ∀ {D : List α}, ∀ y ∈ D, y ∈ keep eq D l := by
  induction l with
  | nil => exact fun y hy => hy
  | cons x l ih =>
    intro D y hy
    refine ih y ?_
    split
    · exact hy
    · exact mem_append_left _ hy

theorem mem_of_mem_keep :
    ∀ {D : List α} {y : α}, y ∈ keep eq D l → y ∈ D ∨ y ∈ l := by
  induction l with
  | nil => exact fun h => .inl h
  | cons x l ih =>
    intro D y h
    rcases ih h with hy | hy
    · split at hy
      · exact .inl hy
      · rcases mem_append.1 hy with hy | hy
        · exact .inl hy
        · exact .inr (mem_singleton.1 hy ▸ mem_cons_self)
    · exact .inr (mem_cons_of_mem x hy)

/-- Of an element that is not there an equal one is. -/
theorem exists_mem_keep :
    ∀ {D : List α} {x : α}, x ∈ l → x ∈ keep eq D l ∨ ∃ y ∈ keep eq D l, same eq y x = true := by
  induction l with
  | nil => exact fun h => absurd h not_mem_nil
  | cons z l ih =>
    intro D x h
    rcases mem_cons.1 h with rfl | h
    · rw [keep]
      split
      case isTrue hany =>
        obtain ⟨y, hy, hsame⟩ := any_eq_true.1 hany
        exact .inr ⟨y, subset_keep y hy, hsame⟩
      case isFalse =>
        exact .inl (subset_keep x (mem_append_right D (mem_singleton.2 rfl)))
    · exact ih h

/-- An element is kept, or an earlier one is that is equal. -/
theorem exists_mem_keep_append {D k : List α} {x : α} :
    ∃ y ∈ keep eq D (l ++ x :: k), y = x ∨ (y ∈ D ∨ y ∈ l) ∧ same eq y x = true := by
  have hsplit : ∀ D : List α, keep eq D (l ++ x :: k) = keep eq (keep eq D l) (x :: k) := by
    induction l with
    | nil => exact fun _ => rfl
    | cons z l ih => exact fun D => ih _
  rw [hsplit, keep]
  split
  case isTrue hany =>
    obtain ⟨y, hy, hsame⟩ := any_eq_true.1 hany
    exact ⟨y, subset_keep y hy, .inr ⟨mem_of_mem_keep hy, hsame⟩⟩
  case isFalse =>
    exact ⟨x, subset_keep x (mem_append_right _ (mem_singleton.2 rfl)), .inl rfl⟩

theorem keep_eq_nil {D : List α} : keep eq D l = [] ↔ D = [] ∧ l = [] := by
  constructor
  · intro h
    have hD : D = [] := eq_nil_iff_forall_not_mem.2 fun y hy =>
      eq_nil_iff_forall_not_mem.1 h y (subset_keep y hy)
    refine ⟨hD, eq_nil_iff_forall_not_mem.2 fun x hx => ?_⟩
    rcases exists_mem_keep (D := D) hx with hmem | ⟨y, hmem, -⟩
    · exact eq_nil_iff_forall_not_mem.1 h x hmem
    · exact eq_nil_iff_forall_not_mem.1 h y hmem
  · rintro ⟨rfl, rfl⟩
    rfl

theorem add_ne_nil {x : α} {D D' : List α} (h : add eq x D = .ok D') : D' ≠ [] := by
  cases D with
  | nil =>
    cases h
    exact cons_ne_nil _ _
  | cons y ys =>
    rw [add] at h
    cases hb : eq y x with
    | error f => simp [hb, bind, Except.bind] at h
    | ok b =>
      cases b with
      | true =>
        simp only [hb, bind, Except.bind, if_true, pure, Except.pure, Except.ok.injEq] at h
        exact h ▸ cons_ne_nil _ _
      | false =>
        cases hys : add eq x ys with
        | error f => simp [hb, hys, bind, Except.bind] at h
        | ok zs =>
          simp only [hb, hys, bind, Except.bind, Bool.false_eq_true, if_false, pure,
            Except.pure, Except.ok.injEq] at h
          exact h ▸ cons_ne_nil _ _

theorem addAll_isEmpty :
    ∀ {D D' : List α}, addAll eq D l = .ok D' → D'.isEmpty = (D.isEmpty && l.isEmpty) := by
  induction l with
  | nil =>
    intro D D' h
    cases h
    simp
  | cons x l ih =>
    intro D D' h
    rw [addAll] at h
    cases hadd : add eq x D with
    | error f => simp [hadd, bind, Except.bind] at h
    | ok D₁ =>
      rw [ih (by simpa [hadd, bind, Except.bind] using h)]
      simp [add_ne_nil hadd]

-- ======== when none is missing

section

-- the elements that failures are a matter of
variable {P : α → Prop}
  (hleft : ∀ {z x w}, P z → P x → P w → same eq z x = true → Comparable eq z w → Comparable eq x w)
  (hright : ∀ {z x y}, P z → P x → P y → same eq z x = true → Comparable eq z y →
    Comparable eq y x)

include hright in
theorem comparable_of_add {x : α} (hx : P x) :
    ∀ {D D' : List α}, (∀ y ∈ D, P y) → D.Pairwise (Comparable eq) → add eq x D = .ok D' →
      ∀ y ∈ D, Comparable eq y x
  | [], _, _, _, _ => fun _ h => absurd h not_mem_nil
  | z :: D, D', hP, hD, h => by
      obtain ⟨hz, hD⟩ := pairwise_cons.1 hD
      have hPD : ∀ y ∈ D, P y := fun y hy => hP y (mem_cons_of_mem z hy)
      rw [add] at h
      cases hb : eq z x with
      | error f => simp [hb, bind, Except.bind] at h
      | ok b =>
        intro y hy
        rcases mem_cons.1 hy with rfl | hy
        · exact ⟨b, hb⟩
        cases b with
        | true =>
          exact hright (hP z mem_cons_self) hx (hPD y hy) (same_iff.2 hb) (hz y hy)
        | false =>
          cases hadd : add eq x D with
          | error f => simp [hb, hadd, bind, Except.bind] at h
          | ok D₁ => exact comparable_of_add hx hPD hD hadd y hy

include hleft hright in
theorem comparable_of_addAll {l : List α} :
    ∀ {D D' : List α}, (∀ y ∈ D, P y) → (∀ x ∈ l, P x) → D.Pairwise (Comparable eq) →
      addAll eq D l = .ok D' →
      (∀ y ∈ D, ∀ x ∈ l, Comparable eq y x) ∧ l.Pairwise (Comparable eq) := by
  induction l with
  | nil => exact fun _ _ _ _ => ⟨fun _ _ _ h => absurd h not_mem_nil, .nil⟩
  | cons x l ih =>
    intro D D' hPD hPl hD h
    have hPx : P x := hPl x mem_cons_self
    have hPl : ∀ w ∈ l, P w := fun w hw => hPl w (mem_cons_of_mem x hw)
    rw [addAll] at h
    cases hadd : add eq x D with
    | error f => simp [hadd, bind, Except.bind] at h
    | ok D₁ =>
      replace h : addAll eq D₁ l = .ok D' := by simpa [hadd, bind, Except.bind] using h
      have hx := comparable_of_add hright hPx hPD hD hadd
      obtain rfl := Except.ok.inj ((add_eq hx).symm.trans hadd)
      by_cases hany : D.any (same eq · x) = true
      · -- an equal one is there, and has been compared with the rest
        rw [if_pos hany] at h
        obtain ⟨z, hz, hsame⟩ := any_eq_true.1 hany
        obtain ⟨hDl, hl⟩ := ih hPD hPl hD h
        refine ⟨fun y hy w hw => ?_, pairwise_cons.2 ⟨fun w hw => ?_, hl⟩⟩
        · rcases mem_cons.1 hw with rfl | hw
          · exact hx y hy
          · exact hDl y hy w hw
        · exact hleft (hPD z hz) hPx (hPl w hw) hsame (hDl z hz w hw)
      · rw [if_neg hany] at h
        obtain ⟨hDl, hl⟩ := ih
          (fun y hy => (mem_append.1 hy).elim (hPD y) fun hy =>
            mem_singleton.1 hy ▸ hPx) hPl
          (pairwise_append.2 ⟨hD, pairwise_singleton _ _, fun y hy z hz =>
            mem_singleton.1 hz ▸ hx y hy⟩) h
        refine ⟨fun y hy w hw => ?_, pairwise_cons.2 ⟨fun w hw => ?_, hl⟩⟩
        · rcases mem_cons.1 hw with rfl | hw
          · exact hx y hy
          · exact hDl y (mem_append_left _ hy) w hw
        · exact hDl x (mem_append_right D (mem_singleton.2 rfl)) w hw

end

end Distinct
