/-
Threads that share memory, as interleaved programs.

A thread is the list of the atomic actions it takes, in its own order. A
run of several threads takes, one after another, the next action of any of
them until all are done. What every run of the same threads has in common:
it takes each action of each thread once, and the actions of one thread in
the order of that thread.

A strided loop gives thread `t` of `n` the indices `t`, `t + n`, ...; the
threads together get every index once.
-/
import Mathlib.Data.List.Nodup
import Mathlib.Data.List.Range
import Mathlib.Data.List.Perm.Basic
import Mathlib.Data.List.Flatten

namespace Interleave

open List Nat

variable {α : Type*}

/-- `Interleaves programs run`: `run` is one way to interleave `programs`. -/
inductive Interleaves : List (List α) → List α → Prop
  | done {programs : List (List α)} (hdone : ∀ p ∈ programs, p = []) :
      Interleaves programs []
  | step {before after : List (List α)} {a : α} {p run : List α}
      (hrest : Interleaves (before ++ p :: after) run) :
      Interleaves (before ++ (a :: p) :: after) (a :: run)

namespace Interleaves

variable {programs : List (List α)} {run : List α}

section

variable (h : Interleaves programs run)
include h

/-- A run takes each action of each thread once. -/
theorem perm_flatten : run.Perm programs.flatten := by
  induction h with
  | done hdone =>
    rw [flatten_eq_nil_iff.2 hdone]
  | @step before after a p run _ ih =>
    have hmove : (a :: (before ++ p :: after).flatten).Perm
        (before ++ (a :: p) :: after).flatten := by
      simp only [flatten_append, flatten_cons, cons_append]
      exact perm_middle.symm
    exact (ih.cons a).trans hmove

/-- A run keeps the order of each thread. -/
theorem sublist {p : List α} (hp : p ∈ programs) : p.Sublist run := by
  induction h generalizing p with
  | done hdone =>
    rw [hdone p hp]
  | @step before after a q run _ ih =>
    rcases mem_append.1 hp with hbefore | hrest
    · exact (ih (mem_append_left _ hbefore)).cons a
    · rcases mem_cons.1 hrest with hself | hafter
      · subst hself
        exact (ih (mem_append_right _ mem_cons_self)).cons_cons a
      · exact (ih (mem_append_right _
          (mem_cons_of_mem _ hafter))).cons a

theorem nil_cons : Interleaves ([] :: programs) run := by
  induction h with
  | done hdone =>
    apply Interleaves.done
    intro q hq
    rcases mem_cons.1 hq with hnil | hrest
    · exact hnil
    · exact hdone q hrest
  | @step before after a p run _ ih =>
    exact @Interleaves.step _ ([] :: before) after a p run ih

end

theorem cons_program (p : List α) (h : Interleaves programs run) :
    Interleaves (p :: programs) (p ++ run) := by
  induction p with
  | nil => exact h.nil_cons
  | cons a p ih => exact @Interleaves.step _ [] programs a p (p ++ run) ih

end Interleaves

/-- One run lets the threads go one after another. -/
theorem interleaves_flatten (programs : List (List α)) :
    Interleaves programs programs.flatten := by
  induction programs with
  | nil =>
    apply Interleaves.done
    intro p hp
    cases hp
  | cons p programs ih => exact ih.cons_program p

/-- In a run that takes no action twice, an action comes after the ones
that its thread takes before it. -/
theorem mem_of_pair_sublist {a c : α} {run l rest : List α}
    (hpair : [a, c].Sublist run) (hnodup : run.Nodup) (hrun : l ++ rest = run)
    (hc : c ∈ l) : a ∈ l := by
  subst hrun
  have hdisjoint := disjoint_of_nodup_append hnodup
  obtain ⟨l₁, l₂, hsplit, hl₁, hl₂⟩ := sublist_append_iff.1 hpair
  cases l₁ with
  | nil =>
    have hmem : c ∈ l₂ := by
      rw [← nil_append l₂, ← hsplit]
      simp
    exact absurd (hl₂.subset hmem) (hdisjoint hc)
  | cons x l₁ =>
    have hx : a = x := by
      simp only [cons_append, cons.injEq] at hsplit
      exact hsplit.1
    rw [hx]
    exact hl₁.subset mem_cons_self

-- ======== strided loops

/-- The indices of `for (i = start; i < bound; i += step)`. A step of zero
would never end; there are as many threads as the step, so it is not one
of the cases. -/
def strided (step bound : Nat) (start : Nat) : List Nat :=
  if start < bound ∧ 0 < step then
    start :: strided step bound (start + step)
  else []
termination_by bound - start

variable {step bound : Nat}

theorem mem_strided {start i : Nat} (hstep : 0 < step) :
    i ∈ strided step bound start
      ↔ i < bound ∧ ∃ k, i = start + k * step := by
  fun_induction strided step bound start with
  | case1 start hgo ih =>
    rw [mem_cons, ih]
    constructor
    · intro h
      rcases h with hi | ⟨hi, k, hk⟩
      · exact ⟨hi ▸ hgo.1, 0, by omega⟩
      · exact ⟨hi, k + 1, by rw [hk, succ_mul]; omega⟩
    · intro h
      obtain ⟨hi, k, hk⟩ := h
      cases k with
      | zero => exact Or.inl (by omega)
      | succ k =>
        rw [succ_mul] at hk
        exact Or.inr ⟨hi, k, by omega⟩
  | case2 start hstop =>
    constructor
    · intro h
      cases h
    · intro h
      omega

theorem le_of_mem_strided {start i : Nat} (hi : i ∈ strided step bound start) : start ≤ i := by
  fun_induction strided step bound start with
  | case1 start hgo ih =>
    rcases mem_cons.1 hi with hhead | htail
    · omega
    · have := ih htail
      omega
  | case2 start hstop => cases hi

theorem nodup_strided (start : Nat) : (strided step bound start).Nodup := by
  fun_induction strided step bound start with
  | case1 start hgo ih =>
    apply nodup_cons.2
    refine ⟨?_, ih⟩
    intro hmem
    have := le_of_mem_strided hmem
    omega
  | case2 start hstop => exact nodup_nil

/-- Below the step, the loops of two threads share no index. -/
theorem mem_strided_mod {start i : Nat} (hstart : start < step) :
    i ∈ strided step bound start ↔ i < bound ∧ i % step = start := by
  rw [mem_strided (by omega)]
  apply and_congr_right
  intro _
  constructor
  · intro h
    obtain ⟨k, rfl⟩ := h
    rw [Nat.add_mul_mod_self_right, Nat.mod_eq_of_lt hstart]
  · intro h
    refine ⟨i / step, ?_⟩
    rw [← h, Nat.mul_comm]
    exact (Nat.mod_add_div i step).symm

/-- The threads together take every index once. -/
theorem flatMap_strided_perm (hstep : 0 < step) :
    ((range step).flatMap (strided step bound)).Perm
      (range bound) := by
  apply (perm_ext_iff_of_nodup ?_ nodup_range).2
  · intro i
    rw [mem_flatMap, mem_range]
    constructor
    · intro h
      obtain ⟨t, _, hi⟩ := h
      exact ((mem_strided hstep).1 hi).1
    · intro hi
      have hmod : i % step < step := mod_lt i hstep
      exact ⟨i % step, mem_range.2 hmod, (mem_strided_mod hmod).2 ⟨hi, rfl⟩⟩
  · apply nodup_flatMap.2
    refine ⟨fun t _ => nodup_strided t, ?_⟩
    apply Pairwise.imp_of_mem ?_ nodup_range
    intro t t' ht ht' hne i hi hi'
    have h := ((mem_strided_mod (mem_range.1 ht)).1 hi).2
    have h' := ((mem_strided_mod (mem_range.1 ht')).1 hi').2
    exact hne (h.symm.trans h')

end Interleave
