/-
What `inclusive_scan` leaves in the memory.

In a run the blocks are at different stages (`Scanned`), and a turn only
touches its own block: what it writes is read by no other. So each block
ends as if it had been scanned alone (`scan_run`), the second loop gives
every element of a block the sum of the blocks in front of it (`add_run`),
and the two together are the running sum (`accumulate_eq`).
-/
import Mathlib.Algebra.BigOperators.Intervals
import Compass.HashTable.InclusiveScan

namespace Compass.HashTable

open Interleave OneToMany List Function Nat Prod

variable {M : Type} [AddCommMonoid M]

-- ======== runs of turns

/-- The first action of a run is the first of one thread. -/
theorem interleaves_cons {n : Nat} {f : Nat → List (Nat × Nat)} {a : Nat × Nat}
    {run : List (Nat × Nat)} (h : Interleaves ((range n).map f) (a :: run)) :
    ∃ t < n, ∃ p, f t = a :: p
      ∧ Interleaves ((range n).map (update f t p)) run := by
  generalize hprograms : (range n).map f = programs at h
  cases h with
  | @step before after _ p _ hrest =>
    have hlen := congrArg length hprograms
    have hat := congrArg (·[before.length]?) hprograms
    have hset := congrArg (·.set before.length p) hprograms
    simp only [length_map, length_range, length_append, length_cons] at hlen
    have ht : before.length < n := by omega
    refine ⟨before.length, ht, p, ?_, ?_⟩
    · simpa [ht] using hat
    · convert hrest using 1
      rw [show before ++ p :: after = ((range n).map f).set before.length p by
        simpa using hset.symm]
      refine ext_getElem? fun i => ?_
      rw [getElem?_set]
      by_cases hi : before.length = i
      · simp [← hi, ht]
      · rw [if_neg hi, getElem?_map, getElem?_map]
        by_cases hin : i < n
        · simp [hin, update_of_ne (Ne.symm hi)]
        · simp [hin]

/-- What every turn keeps holds after a run, with all threads at their
ends. -/
theorem turns_run {σ : Type} {f : σ → Nat × Nat → σ} {n : Nat} {stop : Nat → Nat}
    {Inv : (Nat → Nat) → σ → Prop} (hstep : ∀ s st t, t < n → s t < stop t → Inv s st →
      Inv (update s t (s t + 1)) (f st (t, s t)))
    {run : List (Nat × Nat)} : ∀ {s : Nat → Nat} {st : σ}, Inv s st →
      Interleaves ((range n).map fun t => turns t (s t) (stop t)) run →
      ∃ s', (∀ t < n, stop t ≤ s' t) ∧ Inv s' (run.foldl f st) := by
  induction run with
  | nil =>
    intro s st hinv hrun
    have hnil := flatten_eq_nil_iff.1 (nil_perm.1 hrun.perm_flatten)
    refine ⟨s, fun t ht => ?_, hinv⟩
    have := hnil _ (mem_map_of_mem (mem_range.2 ht))
    simpa [turns, Nat.sub_eq_zero_iff_le] using this
  | cons a run ih =>
    intro s st hinv hrun
    obtain ⟨t, ht, p, hp, hrest⟩ := interleaves_cons hrun
    obtain ⟨hlt, rfl, rfl⟩ : s t < stop t ∧ a = (t, s t) ∧ p = turns t (s t + 1) (stop t) := by
      have hlt : s t < stop t := by
        by_contra hge
        rw [turns, Nat.sub_eq_zero_of_le (by omega)] at hp
        cases hp
      rw [turns, ← Nat.succ_pred_eq_of_pos (Nat.sub_pos_of_lt hlt), range'_succ] at hp
      obtain ⟨ha, hp⟩ := cons.inj hp
      exact ⟨hlt, ha.symm, by rw [← hp, turns, ← Nat.sub_sub]; rfl⟩
    refine ih (hstep s st t ht hlt hinv) ?_
    convert hrest using 3 with t'
    by_cases h : t' = t
    · subst h
      simp
    · simp [h]

-- ======== the blocks

/-- Blocks of offsets, one for each thread. -/
structure Blocks (n : Nat) (start stop : Nat → Nat) : Prop where
  le : ∀ t < n, start t ≤ stop t
  disjoint : ∀ t < n, ∀ t' < n, ∀ j, start t ≤ j → j < stop t → start t' ≤ j → j < stop t' → t = t'

/-- Elements and sums are in one place or in places apart. -/
def Apart (first out elemCount : Nat) : Prop :=
  first = out ∨ first + elemCount ≤ out ∨ out + elemCount ≤ first

section

variable {first out n elemCount : Nat} {mem : Nat → M} {start stop s : Nat → Nat}

/-- Each thread is at an offset of its block: it has put out the sums
before, and not yet read what is from there on. -/
structure Scanned (first out n : Nat) (mem : Nat → M) (start stop s : Nat → Nat)
    (st : ScanState M) : Prop where
  within : ∀ t < n, start t ≤ s t ∧ s t ≤ stop t
  sums : ∀ t < n, st.2 t = ∑ j ∈ Finset.Ico (start t) (s t), mem (first + j)
  done : ∀ t < n, ∀ j, start t ≤ j → j < s t →
    st.1 (out + j) = ∑ k ∈ Finset.Ico (start t) (j + 1), mem (first + k)
  todo : ∀ t < n, ∀ j, s t ≤ j → j < stop t → st.1 (first + j) = mem (first + j)
  other : ∀ a, (∀ t < n, ∀ j, start t ≤ j → j < stop t → a ≠ out + j) → st.1 a = mem a

theorem Scanned.step (hb : Blocks n start stop) (hin : ∀ t < n, stop t ≤ elemCount)
    (hapart : Apart first out elemCount) {st : ScanState M} {t : Nat} (ht : t < n)
    (hlt : s t < stop t) (h : Scanned first out n mem start stop s st) :
    Scanned first out n mem start stop (update s t (s t + 1))
      (scanStep first out st (t, s t)) := by
  have hat := h.within t ht
  have hsum : st.2 t + st.1 (first + s t)
      = ∑ j ∈ Finset.Ico (start t) (s t + 1), mem (first + j) := by
    rw [h.sums t ht, h.todo t ht _ (le_refl _) hlt, Finset.sum_Ico_succ_top hat.1]
  refine ⟨fun t' ht' => ?_, fun t' ht' => ?_, fun t' ht' j hj hjs => ?_,
    fun t' ht' j hj hjs => ?_, fun a ha => ?_⟩
  · by_cases heq : t' = t
    · subst heq
      simp only [update_self]
      omega
    · rw [update_of_ne heq]
      exact h.within t' ht'
  · by_cases heq : t' = t
    · subst heq
      simpa only [scanStep, update_self] using hsum
    · simpa only [scanStep, update_of_ne heq] using h.sums t' ht'
  · by_cases heq : j = s t
    · subst heq
      obtain rfl : t' = t := by
        by_contra hne
        rw [update_of_ne hne] at hjs
        exact hne (hb.disjoint t' ht' t ht _ hj (by have := h.within t' ht'; omega) hat.1 hlt)
      simpa only [scanStep, update_self] using hsum
    · have hjs' : j < s t' := by
        by_cases hne : t' = t
        · subst hne
          rw [update_self] at hjs
          omega
        · rwa [update_of_ne hne] at hjs
      have hput : out + j ≠ out + s t := by omega
      simpa only [scanStep, update_of_ne hput] using h.done t' ht' j hj hjs'
  · have hj' : s t' ≤ j ∧ j ≠ s t := by
      by_cases hne : t' = t
      · subst hne
        rw [update_self] at hj
        omega
      · rw [update_of_ne hne] at hj
        refine ⟨hj, fun heq => hne ?_⟩
        subst heq
        exact hb.disjoint t' ht' t ht _ (by have := h.within t' ht'; omega) hjs hat.1 hlt
    have hput : first + j ≠ out + s t := by
      have := hin t ht
      have := hin t' ht'
      unfold Apart at hapart
      omega
    simpa only [scanStep, update_of_ne hput] using h.todo t' ht' j hj'.1 hjs
  · simpa only [scanStep, update_of_ne (ha t ht _ hat.1 hlt)] using h.other a ha

variable (mem) in
/-- The blocks scanned, in any order. -/
theorem scan_run (hb : Blocks n start stop) (hin : ∀ t < n, stop t ≤ elemCount)
    (hapart : Apart first out elemCount) {run : List (Nat × Nat)}
    (hrun : Interleaves ((range n).map fun t => turns t (start t) (stop t)) run) :
    ∃ s, (∀ t < n, s t = stop t)
      ∧ Scanned first out n mem start stop s (run.foldl (scanStep first out) (mem, 0)) := by
  have hinit : Scanned first out n mem start stop start (mem, 0) :=
    ⟨fun t ht => ⟨le_refl _, hb.le t ht⟩, fun t _ => by simp, fun t _ j hj hjs => by omega,
      fun _ _ _ _ _ => rfl, fun _ _ => rfl⟩
  obtain ⟨s, hs, h⟩ := turns_run (fun s st t ht hlt h => h.step hb hin hapart ht hlt) hinit hrun
  exact ⟨s, fun t ht => le_antisymm (h.within t ht).2 (hs t ht), h⟩

variable (out) in
/-- Every offset of a run, once each, has the sum of its thread added. -/
theorem add_run {p : Nat → M} {run : List (Nat × Nat)} (hnd : (run.map snd).Nodup) (mem : Nat → M) :
    (∀ a ∈ run, run.foldl (addStep out p) mem (out + a.2) = mem (out + a.2) + p a.1)
      ∧ ∀ x, (∀ a ∈ run, x ≠ out + a.2) → run.foldl (addStep out p) mem x = mem x := by
  induction run generalizing mem with
  | nil => exact ⟨nofun, fun _ _ => rfl⟩
  | cons b run ih =>
    rw [map_cons, nodup_cons] at hnd
    obtain ⟨hadded, hother⟩ := ih hnd.2 (addStep out p mem b)
    have hne : ∀ a ∈ run, out + a.2 ≠ out + b.2 := fun a ha heq =>
      hnd.1 (by rw [← add_left_cancel heq]; exact mem_map_of_mem ha)
    simp only [foldl_cons, forall_mem_cons]
    refine ⟨⟨?_, fun a ha => ?_⟩, fun x hx => ?_⟩
    · rw [hother _ fun a ha => (hne a ha).symm]
      exact update_self _ _ _
    · rw [hadded a ha, addStep, update_of_ne (hne a ha)]
    · rw [hother x hx.2, addStep, update_of_ne hx.1]

theorem mem_turns {t a b : Nat} {x : Nat × Nat} :
    x ∈ turns t a b ↔ x.1 = t ∧ a ≤ x.2 ∧ x.2 < b := by
  obtain ⟨t', j⟩ := x
  simp only [turns, mem_map, mem_range'_1, mk.injEq]
  constructor
  · rintro ⟨j', hj, rfl, rfl⟩
    omega
  · rintro ⟨rfl, hj⟩
    exact ⟨j, by omega, rfl, rfl⟩

theorem mem_run {run : List (Nat × Nat)}
    (hrun : Interleaves ((range n).map fun t => turns t (start t) (stop t)) run)
    {x : Nat × Nat} : x ∈ run ↔ x.1 < n ∧ start x.1 ≤ x.2 ∧ x.2 < stop x.1 := by
  rw [hrun.perm_flatten.mem_iff, ← flatMap_def, mem_flatMap]
  simp only [mem_range, mem_turns]
  exact ⟨fun ⟨t, ht, heq, h⟩ => heq ▸ ⟨ht, h⟩, fun h => ⟨x.1, h.1, rfl, h.2⟩⟩

theorem nodup_run (hb : Blocks n start stop) {run : List (Nat × Nat)}
    (hrun : Interleaves ((range n).map fun t => turns t (start t) (stop t)) run) :
    (run.map snd).Nodup := by
  rw [(hrun.perm_flatten.map snd).nodup_iff, ← flatMap_def, map_flatMap, nodup_flatMap]
  refine ⟨fun t _ => ?_, nodup_range.imp_of_mem fun ht ht' hne j hj hj' => ?_⟩
  · simp [turns, nodup_range', comp_def]
  · simp only [mem_map, mem_turns] at hj hj'
    obtain ⟨x, ⟨-, hx⟩, rfl⟩ := hj
    obtain ⟨y, ⟨-, hy⟩, heq⟩ := hj'
    rw [heq] at hy
    exact hne (hb.disjoint _ (mem_range.1 ht) _ (mem_range.1 ht') _ hx.1 hx.2 hy.1 hy.2)

end

-- ======== the scan

theorem startOff_mono {elemCount step t t' : Nat} (h : t ≤ t') :
    startOff elemCount step t ≤ startOff elemCount step t' := by
  simp only [startOff_eq]
  exact min_le_min_right _ (mul_le_mul_right _ h)

theorem blocks_startOff (elemCount step n k : Nat) : Blocks n
    (fun t => startOff elemCount step (t + k)) fun t => startOff elemCount step (t + k + 1) := by
  refine ⟨fun t _ => startOff_mono (le_succ _), fun t _ t' _ j h₁ h₂ h₃ h₄ => ?_⟩
  by_contra hne
  rcases lt_or_gt_of_ne hne with hlt | hlt
  · exact absurd (@startOff_mono elemCount step (t + k + 1) (t' + k) (by omega)) (by omega)
  · exact absurd (@startOff_mono elemCount step (t' + k + 1) (t + k) (by omega)) (by omega)

/-- The partial sums become the sums of all blocks up to each one. -/
theorem accumulate_eq (sums : Nat → M) {x : Nat → M} {b : Nat → Nat} (h0 : b 0 = 0)
    (hb : ∀ t, b t ≤ b (t + 1)) {n : Nat}
    (hsums : ∀ t < n, sums t = ∑ j ∈ Finset.Ico (b t) (b (t + 1)), x j) :
    ∀ t < n, accumulate sums t = ∑ j ∈ Finset.range (b (t + 1)), x j
  | 0, ht => by
      rw [accumulate, add_zero, hsums 0 ht, h0, Finset.range_eq_Ico]
  | t + 1, ht => by
      rw [accumulate, hsums _ ht, accumulate_eq sums h0 hb hsums t (Nat.lt_of_succ_lt ht), add_comm]
      exact Finset.sum_range_add_sum_Ico x (hb _)

/-- Every offset is in the block of a thread. -/
theorem exists_block {elemCount threadCount i : Nat} (ht : 0 < threadCount) (hi : i < elemCount) :
    ∃ t < threadCount, startOff elemCount ((elemCount + threadCount - 1) / threadCount) t ≤ i
        ∧ i < startOff elemCount ((elemCount + threadCount - 1) / threadCount) (t + 1) := by
  set step := (elemCount + threadCount - 1) / threadCount with hstep
  have hcover := Nat.lt_mul_div_succ (elemCount + threadCount - 1) ht
  rw [← hstep, Nat.mul_succ] at hcover
  have hpos : 0 < step := by
    rcases Nat.eq_zero_or_pos step with h | h
    · rw [h] at hcover
      omega
    · exact h
  refine ⟨i / step, (Nat.div_lt_iff_lt_mul hpos).2 (by omega), ?_, ?_⟩
  · rw [startOff_eq]
    have := Nat.div_mul_le_self i step
    omega
  · have := Nat.lt_mul_div_succ i hpos
    rw [startOff_eq, Nat.mul_comm]
    omega

/-- Some memory comes out of every scan, and whatever comes out has the
sum of the elements up to each one, and is as it was elsewhere. -/
theorem inclusiveScan_writes {first out elemCount : Nat} (hapart : Apart first out elemCount)
    (threadCount : Nat) (mem : Nat → M) :
    (∃ mem', InclusiveScan first out elemCount threadCount mem mem')
      ∧ ∀ mem', InclusiveScan first out elemCount threadCount mem mem' →
        (∀ i < elemCount, mem' (out + i) = ∑ j ∈ Finset.range (i + 1), mem (first + j))
          ∧ ∀ a, (∀ i < elemCount, a ≠ out + i) → mem' a = mem a := by
  refine ⟨?_, fun mem' h => ?_⟩
  · by_cases h : elemCount < 10000 ∨ threadCount ≤ 1
    · exact ⟨_, .sequential h⟩
    · exact ⟨_, .threads h rfl (interleaves_flatten _) rfl (interleaves_flatten _)⟩
  · cases h with
    | sequential _ =>
      have hone : Blocks 1 (fun _ => 0) fun _ => elemCount :=
        ⟨fun _ _ => Nat.zero_le _, fun t _ t' _ => by omega⟩
      obtain ⟨s, hs, h⟩ := scan_run mem hone (fun _ _ => le_refl _) hapart
        (by simpa using interleaves_flatten [turns 0 0 elemCount])
      refine ⟨fun i hi => ?_, fun a ha => h.other a fun t _ j _ hj => ha j hj⟩
      rw [Finset.range_eq_Ico]
      exact h.done 0 Nat.one_pos i (Nat.zero_le _) (by rw [hs 0 Nat.one_pos]; exact hi)
    | @threads step scans adds st hpar hstep hscans hst hadds =>
      have hin : ∀ t, startOff elemCount step t ≤ elemCount := fun t => by
        rw [startOff_eq]
        exact Nat.min_le_right _ _
      obtain ⟨s, hs, h⟩ := scan_run mem (blocks_startOff elemCount step threadCount 0)
        (fun t _ => hin (t + 1)) hapart hscans
      rw [← hst] at h
      have hacc := accumulate_eq st.2 (x := fun j => mem (first + j))
        (b := startOff elemCount step) rfl (fun t => startOff_mono (Nat.le_succ t))
        fun t ht => by rw [h.sums t ht, hs t ht]; rfl
      obtain ⟨hadded, hother⟩ := add_run out (p := accumulate st.2)
        (nodup_run (blocks_startOff elemCount step _ 1) hadds) st.1
      refine ⟨fun i hi => ?_, fun a ha => ?_⟩
      · obtain ⟨t, ht, hlo, hhi⟩ := exists_block (by omega : 0 < threadCount) hi
        rw [← hstep] at hlo hhi
        have hdone := h.done t ht i hlo (by rw [hs t ht]; exact hhi)
        cases t with
        | zero =>
          have hfirst : ∀ a ∈ adds, out + i ≠ out + a.2 := by
            intro a ha heq
            have hblock := ((mem_run hadds).1 ha).2.1
            have hmono := @startOff_mono elemCount step (0 + 1) (a.1 + 1) (by omega)
            omega
          rw [hother _ hfirst, hdone, Finset.range_eq_Ico]
          rfl
        | succ t =>
          have hmem : (t, i) ∈ adds := (mem_run hadds).2 ⟨by omega, hlo, hhi⟩
          rw [hadded _ hmem, hdone, hacc t (by omega), add_comm]
          exact Finset.sum_range_add_sum_Ico _ (by omega)
      · rw [hother a fun x hx => ha _ ?_, h.other a fun t _ j _ hj => ha j ?_]
        · exact Nat.lt_of_lt_of_le hj (hin _)
        · exact Nat.lt_of_lt_of_le ((mem_run hadds).1 hx).2.2 (hin _)

/-- The addresses themselves, from 8 on, summed in place by three threads. -/
theorem inclusiveScan_inPlace :
    ∃ mem', InclusiveScan 8 8 10000 3 (fun a => (a : Int)) mem' ∧ mem' 9 = 17 := by
  obtain ⟨⟨mem', h⟩, hwrites⟩ :=
    inclusiveScan_writes (.inl rfl : Apart 8 8 10000) 3 fun a => (a : Int)
  exact ⟨mem', h, (hwrites mem' h).1 1 (by decide)⟩

end Compass.HashTable
