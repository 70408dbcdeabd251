/-
When the two ends of every join edge get the same seeds.

All joins of all scans, in the order in which they are visited, are one
list of keys, and a column depends on the keys in front of it only
(`seedsAt_run`). Of a key and its reverse at most one ever gets new seeds,
the one that is met first (`after_exclusive`); each further join under that
key makes new seeds again, and the joins under the other one copy the last
ones made. So a key that belongs to two joins goes wrong in some order of
the scans (`disagree_again`, `disagree_before`), and one that belongs to a
single join is right in every order (`agree_of_unique`).

To tell seeds apart that were made by different calls, the run is also
looked at with the numbers of the calls for seeds (`seedsFor_origin`).
-/
import Compass.PushDown.Seeds

namespace Compass.PushDown

open List Function Nat
open SeedPool JoinKey

open Compass.JoinOrder (JoinCol JoinCols)

@[simp]
theorem JoinKey.other_other (k : JoinKey) : k.other.other = k := rfl

section

variable {σ : Type} (templates : JoinKey → Option (SketchTemplate σ)) (generate : Nat → σ)

-- ======== the list of the keys

/-- The seeds of the column for `key`. -/
def seedsFor (pool : SeedPool σ) (key : JoinKey) : σ :=
  (pool.column templates generate false key).1.seeds

/-- The pool after the column for `key`. -/
def advance (pool : SeedPool σ) (key : JoinKey) : SeedPool σ :=
  (pool.column templates generate false key).2

/-- The pool after the columns for `keys`. -/
def after (pool : SeedPool σ) (keys : List JoinKey) : SeedPool σ :=
  keys.foldl (advance templates generate) pool

variable {templates generate}

theorem column_seeds (b : Bool) (pool : SeedPool σ) (key : JoinKey) :
    (pool.column templates generate b key).1.seeds = seedsFor templates generate pool key := by
  unfold seedsFor column
  split
  · rfl
  · split
    · rfl
    · rfl

theorem column_pool (b : Bool) (pool : SeedPool σ) (key : JoinKey) :
    (pool.column templates generate b key).2 = advance templates generate pool key := by
  unfold advance column
  split
  · rfl
  · split
    · rfl
    · rfl

theorem columns_pool (b : Bool) (keys : List JoinKey) : ∀ pool : SeedPool σ,
    (pool.columns templates generate b keys).2 = after templates generate pool keys := by
  induction keys with
  | nil => exact fun _ => rfl
  | cons key keys ih =>
    intro pool
    rw [columns]
    simp only [ih, column_pool]
    rfl

theorem columns_seeds (b : Bool) (l r : List JoinKey) (key : JoinKey) :
    ∀ pool : SeedPool σ, ((pool.columns templates generate b (l ++ key :: r)).1[l.length]?).map
        SketchColumn.seeds
      = some (seedsFor templates generate (after templates generate pool l) key) := by
  induction l with
  | nil =>
    intro pool
    simp [columns, after, column_seeds]
  | cons key' l ih =>
    intro pool
    rw [cons_append, columns]
    simp only [column_pool, length_cons, getElem?_cons_succ]
    exact ih _

theorem after_append (pool : SeedPool σ) (l r : List JoinKey) :
    after templates generate pool (l ++ r)
      = after templates generate (after templates generate pool l) r :=
  foldl_append

theorem after_cons (pool : SeedPool σ) (key : JoinKey) (keys : List JoinKey) :
    after templates generate pool (key :: keys)
      = after templates generate (advance templates generate pool key) keys := rfl

-- ======== one column

variable (templates generate) in
/-- What the column for a key is, by where its seeds come from. -/
theorem column_cases (pool : SeedPool σ) (key : JoinKey) :
    (∃ t, templates key = some t ∧ seedsFor templates generate pool key = t.seeds
      ∧ advance templates generate pool key = pool)
    ∨ (∃ s, templates key = none ∧ pool.newSeeds key.other = some s
      ∧ seedsFor templates generate pool key = s
      ∧ advance templates generate pool key = pool)
    ∨ (templates key = none ∧ pool.newSeeds key.other = none
      ∧ seedsFor templates generate pool key = generate pool.calls
      ∧ advance templates generate pool key
        = ⟨update pool.newSeeds key (some (generate pool.calls)),
            pool.calls + 1⟩) := by
  unfold seedsFor advance column
  cases ht : templates key with
  | some t => exact Or.inl ⟨t, rfl, rfl, rfl⟩
  | none =>
    right
    cases hs : pool.newSeeds key.other with
    | some s => exact Or.inl ⟨s, rfl, rfl, rfl, rfl⟩
    | none => exact Or.inr ⟨rfl, rfl, rfl, rfl⟩

variable {k : JoinKey}

/-- Seeds change under their own key only. -/
theorem advance_newSeeds_of_ne (pool : SeedPool σ) {key : JoinKey} (h : k ≠ key) :
    (advance templates generate pool key).newSeeds k = pool.newSeeds k := by
  rcases column_cases templates generate pool key with
    ⟨t, -, -, hadv⟩ | ⟨s, -, -, -, hadv⟩ | ⟨-, -, -, hadv⟩
  · rw [hadv]
  · rw [hadv]
  · rw [hadv]
    exact update_of_ne h _ _

theorem after_newSeeds_of_notMem {keys : List JoinKey} (h : k ∉ keys) : ∀ pool : SeedPool σ,
      (after templates generate pool keys).newSeeds k = pool.newSeeds k := by
  induction keys with
  | nil => exact fun _ => rfl
  | cons key keys ih =>
    intro pool
    simp only [mem_cons, not_or] at h
    rw [after_cons, ih h.2]
    exact advance_newSeeds_of_ne pool h.1

-- ======== what is in the pool

/-- Before the first scan. -/
def SeedPool.start : SeedPool σ := ⟨fun _ => none, 0⟩

/-- Of a key and its reverse, one has no new seeds. -/
def SeedPool.Exclusive (pool : SeedPool σ) : Prop :=
  ∀ k : JoinKey, k ≠ k.other → pool.newSeeds k = none ∨ pool.newSeeds k.other = none

theorem advance_exclusive {pool : SeedPool σ} (h : pool.Exclusive) (key : JoinKey) :
    (advance templates generate pool key).Exclusive := by
  rcases column_cases templates generate pool key with
    ⟨t, -, -, hadv⟩ | ⟨s, -, -, -, hadv⟩ | ⟨-, hother, -, hadv⟩
  · rw [hadv]
    exact h
  · rw [hadv]
    exact h
  · intro k hk
    rw [hadv]
    dsimp only
    by_cases hkey : k = key
    · subst hkey
      right
      rw [update_of_ne hk.symm]
      exact hother
    · by_cases hkey' : k.other = key
      · left
        have hko : key.other = k := by rw [← hkey', other_other]
        rw [update_of_ne hkey, ← hko]
        exact hother
      · rw [update_of_ne hkey, update_of_ne hkey']
        exact h k hk

theorem after_exclusive (keys : List JoinKey) : ∀ {pool : SeedPool σ}, pool.Exclusive →
    (after templates generate pool keys).Exclusive := by
  induction keys with
  | nil => exact fun h => h
  | cons key keys ih => exact fun h => ih (advance_exclusive h key)

theorem start_exclusive : (SeedPool.start : SeedPool σ).Exclusive :=
  fun _ _ => Or.inl rfl

/-- New seeds are under the keys of joins without a template. -/
theorem mem_of_newSeeds (keys : List JoinKey) : ∀ {k : JoinKey},
    (after templates generate SeedPool.start keys).newSeeds k ≠ none →
      k ∈ keys ∧ templates k = none := by
  induction keys using reverseRecOn with
  | nil => exact fun h => absurd rfl h
  | append_singleton keys key ih =>
    intro k h
    rw [after_append, after_cons] at h
    by_cases hk : k = key
    · subst hk
      refine ⟨by simp, ?_⟩
      rcases column_cases templates generate
          (after templates generate start keys) k with
        ⟨t, -, -, hadv⟩ | ⟨s, ht, -, -, -⟩ | ⟨ht, -, -, -⟩
      · rw [hadv] at h
        exact (ih h).2
      · exact ht
      · exact ht
    · have h' : (after templates generate start keys).newSeeds k ≠ none := by
        rw [← advance_newSeeds_of_ne _ hk]
        exact h
      exact ⟨mem_append_left _ (ih h').1, (ih h').2⟩

/-- A key that is its own reverse keeps its first seeds. -/
theorem after_newSeeds_self (hk : k = k.other) (keys : List JoinKey) :
    ∀ {pool : SeedPool σ} {s : σ}, pool.newSeeds k = some s →
      (after templates generate pool keys).newSeeds k = some s := by
  induction keys with
  | nil => exact fun h => h
  | cons key keys ih =>
    intro pool s h
    apply ih
    by_cases hkey : k = key
    · subst hkey
      rcases column_cases templates generate pool k with
        ⟨t, -, -, hadv⟩ | ⟨s', -, -, -, hadv⟩ | ⟨-, hnone, -, -⟩
      · rw [hadv]
        exact h
      · rw [hadv]
        exact h
      · rw [← hk, h] at hnone
        cases hnone
    · rw [advance_newSeeds_of_ne pool hkey]
      exact h

-- ======== agreement

/-- The seeds of a join without a template stay in the pool, under its key
or the reverse, when no other join has its keys. -/
theorem seedsFor_mem_pool {l r : List JoinKey} {k : JoinKey} (ht : templates k = none)
    (hself : k = k.other ∨ k ∉ r ∧ (k.other ∈ l → k.other ∉ r)) :
    (after templates generate SeedPool.start (l ++ k :: r)).newSeeds k
        = some (seedsFor templates generate (after templates generate SeedPool.start l) k)
      ∨ (after templates generate SeedPool.start (l ++ k :: r)).newSeeds k.other
        = some (seedsFor templates generate (after templates generate SeedPool.start l) k) := by
  rw [after_append, after_cons]
  have hmem := @mem_of_newSeeds σ templates generate l k.other
  revert hmem
  generalize after templates generate start l = pool
  intro hmem
  rcases column_cases templates generate pool k with
    ⟨t, hsome, -, -⟩ | ⟨s, -, hs, hseeds, hadv⟩ | ⟨-, hnone, hseeds, hadv⟩
  · rw [ht] at hsome
    cases hsome
  · right
    rw [hseeds, hadv]
    rcases hself with hself | ⟨-, hother⟩
    · rw [← hself] at hs ⊢
      exact after_newSeeds_self hself r hs
    · have hl : k.other ∈ l := (hmem (by rw [hs]; simp)).1
      rw [after_newSeeds_of_notMem (hother hl)]
      exact hs
  · left
    have hnew : (advance templates generate pool k).newSeeds k
        = some (generate pool.calls) := by
      rw [hadv]
      exact update_self _ _ _
    rw [hseeds]
    rcases hself with hself | ⟨hr, -⟩
    · exact after_newSeeds_self hself r hnew
    · rw [after_newSeeds_of_notMem hr]
      exact hnew

/-- A join that has its keys for itself: the two ends agree. -/
theorem agree_of_unique {keys l r l' r' : List JoinKey} (h : keys = l ++ k :: r)
    (h' : keys = l' ++ k.other :: r') (ht : (templates k).map SketchTemplate.seeds
      = (templates k.other).map SketchTemplate.seeds) (hone : templates k = none → k = k.other
      ∨ (k ∉ l ∧ k ∉ r) ∧ k.other ∉ l' ∧ k.other ∉ r') :
    seedsFor templates generate (after templates generate SeedPool.start l) k
      = seedsFor templates generate (after templates generate SeedPool.start l')
          k.other := by
  cases hk : templates k with
  | some t =>
    rw [hk] at ht
    obtain ⟨t', ht', hseeds⟩ := Option.map_eq_some_iff.mp ht.symm
    rw [seedsFor, seedsFor, column, column, hk, ht']
    exact hseeds.symm
  | none =>
    have hk' : templates k.other = none := by
      rw [hk] at ht
      exact Option.map_eq_none_iff.mp ht.symm
    -- with the key to itself, neither end comes again behind the other
    have hends : (k = k.other ∨ k ∉ r ∧ (k.other ∈ l → k.other ∉ r))
        ∧ (k.other = k.other.other ∨ k.other ∉ r'
          ∧ (k.other.other ∈ l' → k.other.other ∉ r')) := by
      rcases hone hk with hself | ⟨⟨hkl, hkr⟩, hol, hor⟩
      · exact ⟨Or.inl hself, Or.inl hself.symm⟩
      · by_cases hself : k = k.other
        · exact ⟨Or.inl hself, Or.inl hself.symm⟩
        · constructor
          · refine Or.inr ⟨hkr, fun hl hr => ?_⟩
            have hcount : 2 ≤ keys.count k.other := by
              rw [h, count_append, count_cons_of_ne hself]
              have h₁ := count_pos_iff.mpr hl
              have h₂ := count_pos_iff.mpr hr
              omega
            rw [h', count_append, count_cons_self, count_eq_zero_of_not_mem hol,
              count_eq_zero_of_not_mem hor] at hcount
            omega
          · refine Or.inr ⟨hor, fun hl hr => ?_⟩
            rw [other_other] at hl hr
            have hcount : 2 ≤ keys.count k := by
              rw [h', count_append, count_cons_of_ne (Ne.symm hself)]
              have h₁ := count_pos_iff.mpr hl
              have h₂ := count_pos_iff.mpr hr
              omega
            rw [h, count_append, count_cons_self, count_eq_zero_of_not_mem hkl,
              count_eq_zero_of_not_mem hkr] at hcount
            omega
    have hpool := @seedsFor_mem_pool σ templates generate l r k hk hends.1
    have hpool' := @seedsFor_mem_pool σ templates generate l' r' k.other hk' hends.2
    rw [← h] at hpool
    rw [← h', other_other] at hpool'
    by_cases hself : k = k.other
    · rw [← hself] at hpool hpool' ⊢
      rw [or_self] at hpool hpool'
      exact Option.some.inj (hpool.symm.trans hpool')
    · rcases @after_exclusive σ templates generate keys _ start_exclusive k hself with
        hnone | hnone
      · rw [hnone] at hpool hpool'
        have hp := hpool.resolve_left (by simp)
        have hp' := hpool'.resolve_right (by simp)
        exact Option.some.inj (hp.symm.trans hp')
      · rw [hnone] at hpool hpool'
        have hp := hpool.resolve_right (by simp)
        have hp' := hpool'.resolve_left (by simp)
        exact Option.some.inj (hp.symm.trans hp')

end

-- ======== disagreement

/- The seeds are the numbers of the calls that made them. -/
section Calls

variable {τ : Type} {templates : JoinKey → Option (SketchTemplate (Nat ⊕ τ))}

/-- The calls of the seeds in the pool have been made. -/
def SeedPool.Bounded (pool : SeedPool (Nat ⊕ τ)) : Prop :=
  ∀ k s, pool.newSeeds k = some s → ∃ c, s = .inl c ∧ c < pool.calls

theorem advance_bounded {pool : SeedPool (Nat ⊕ τ)} (h : pool.Bounded) (key : JoinKey) :
    (advance templates Sum.inl pool key).Bounded
      ∧ pool.calls ≤ (advance templates Sum.inl pool key).calls := by
  rcases column_cases templates Sum.inl pool key with
    ⟨t, -, -, hadv⟩ | ⟨s, -, -, -, hadv⟩ | ⟨-, -, -, hadv⟩
  · rw [hadv]
    exact ⟨h, le_refl _⟩
  · rw [hadv]
    exact ⟨h, le_refl _⟩
  · rw [hadv]
    refine ⟨fun k s hs => ?_, le_succ _⟩
    dsimp only at hs ⊢
    by_cases hk : k = key
    · subst hk
      rw [update_self, Option.some.injEq] at hs
      exact ⟨pool.calls, hs.symm, lt_succ_self _⟩
    · rw [update_of_ne hk] at hs
      obtain ⟨c, hc, hlt⟩ := h k s hs
      exact ⟨c, hc, lt_succ_of_lt hlt⟩

theorem after_bounded (keys : List JoinKey) : ∀ {pool : SeedPool (Nat ⊕ τ)}, pool.Bounded →
    (after templates Sum.inl pool keys).Bounded
      ∧ pool.calls ≤ (after templates Sum.inl pool keys).calls := by
  induction keys with
  | nil => exact fun h => ⟨h, le_refl _⟩
  | cons key keys ih =>
    intro pool h
    obtain ⟨h₁, hle⟩ := @advance_bounded τ templates pool h key
    obtain ⟨h₂, hle₂⟩ := ih h₁
    exact ⟨h₂, hle.trans hle₂⟩

theorem start_bounded : (SeedPool.start : SeedPool (Nat ⊕ τ)).Bounded :=
  fun _ _ h => by cases h

variable {k : JoinKey}

/-- A key with new seeds gets newer ones each time it comes again. -/
theorem after_newer (hk : k ≠ k.other) (ht : templates k = none) (keys : List JoinKey) :
    ∀ {pool : SeedPool (Nat ⊕ τ)} {c : Nat}, pool.Exclusive → pool.Bounded →
      pool.newSeeds k = some (.inl c) →
      ∃ c', (after templates Sum.inl pool keys).newSeeds k = some (.inl c') ∧ c ≤ c'
        ∧ (k ∈ keys → pool.calls ≤ c') := by
  induction keys with
  | nil =>
    intro pool c _ _ h
    exact ⟨c, h, le_refl _, by simp⟩
  | cons key keys ih =>
    intro pool c hexcl hbound h
    obtain ⟨hbound₁, hcalls⟩ := @advance_bounded τ templates pool hbound key
    have hexcl₁ := @advance_exclusive _ templates Sum.inl pool hexcl key
    by_cases hkey : k = key
    · subst hkey
      obtain ⟨c₀, hc₀, hlt⟩ := hbound k _ h
      have hc : c < pool.calls := by
        rw [Sum.inl.injEq] at hc₀
        omega
      have hother : pool.newSeeds k.other = none :=
        (hexcl k hk).resolve_left (by rw [h]; simp)
      rcases column_cases templates Sum.inl pool k with
        ⟨t, hsome, -, -⟩ | ⟨s, -, hs, -, -⟩ | ⟨-, -, -, hadv⟩
      · rw [ht] at hsome
        cases hsome
      · rw [hother] at hs
        cases hs
      · have hnew : (advance templates Sum.inl pool k).newSeeds k
            = some (.inl pool.calls) := by
          rw [hadv]
          exact update_self _ _ _
        obtain ⟨c', hc', hle, -⟩ := ih hexcl₁ hbound₁ hnew
        exact ⟨c', hc', by omega, fun _ => hle⟩
    · have hsame : (advance templates Sum.inl pool key).newSeeds k = some (.inl c) := by
        rw [advance_newSeeds_of_ne pool hkey]
        exact h
      obtain ⟨c', hc', hle, hmem⟩ := ih hexcl₁ hbound₁ hsame
      refine ⟨c', hc', hle, fun hin => ?_⟩
      rcases mem_cons.1 hin with heq | hin
      · exact absurd heq hkey
      · exact hcalls.trans (hmem hin)

variable {l : List JoinKey}

/-- The first join under a key makes the seeds. -/
theorem first_new (ht : templates k = none) (hl : k.other ∉ l) :
    seedsFor templates Sum.inl (after templates Sum.inl SeedPool.start l) k
        = .inl (after templates Sum.inl SeedPool.start l).calls
      ∧ (after templates Sum.inl SeedPool.start (l ++ [k])).newSeeds k
        = some (.inl (after templates Sum.inl SeedPool.start l).calls)
      ∧ (after templates Sum.inl SeedPool.start (l ++ [k])).calls
        = (after templates Sum.inl SeedPool.start l).calls + 1 := by
  rw [after_append, after_cons]
  have hmem := @mem_of_newSeeds _ templates Sum.inl l k.other
  rcases column_cases templates Sum.inl (after templates Sum.inl start l) k with
    ⟨t, hsome, -, -⟩ | ⟨s, -, hs, -, -⟩ | ⟨-, -, hseeds, hadv⟩
  · rw [ht] at hsome
    cases hsome
  · exact absurd (hmem (by rw [hs]; simp)).1 hl
  · refine ⟨hseeds, ?_, ?_⟩
    · rw [hadv]
      exact update_self _ _ _
    · rw [hadv]
      rfl

/-- The key again, before the other end of its first join. -/
theorem disagree_again {m m' : List JoinKey} (hk : k ≠ k.other) (ht : templates k = none)
    (ht' : templates k.other = none) (hl : k.other ∉ l) :
    seedsFor templates Sum.inl (after templates Sum.inl SeedPool.start l) k
      ≠ seedsFor templates Sum.inl
          (after templates Sum.inl SeedPool.start (l ++ k :: m ++ k :: m')) k.other := by
  obtain ⟨hfirst, hnew, hcalls⟩ := first_new ht hl
  have happ : l ++ k :: m ++ k :: m' = (l ++ [k]) ++ (m ++ k :: m') := by simp
  rw [happ, after_append]
  obtain ⟨c', hc', -, hle⟩ := after_newer hk ht (m ++ k :: m')
    (after_exclusive (l ++ [k]) start_exclusive)
    (after_bounded (l ++ [k]) start_bounded).1 hnew
  have hlater := hle (by simp)
  rw [hfirst]
  rcases column_cases templates Sum.inl
      (after templates Sum.inl (after templates Sum.inl start (l ++ [k]))
        (m ++ k :: m')) k.other with
    ⟨t, hsome, -, -⟩ | ⟨s, -, hs, hseeds, -⟩ | ⟨-, hnone, -, -⟩
  · rw [ht'] at hsome
    cases hsome
  · rw [other_other, hc', Option.some.injEq] at hs
    rw [hseeds, ← hs]
    intro heq
    rw [Sum.inl.injEq] at heq
    omega
  · rw [other_other, hc'] at hnone
    cases hnone

/-- The other end of a join before it, when the key has seeds already. -/
theorem disagree_before {m m' : List JoinKey} (hk : k ≠ k.other) (ht : templates k = none)
    (ht' : templates k.other = none) (hl : k.other ∉ l) :
    seedsFor templates Sum.inl (after templates Sum.inl SeedPool.start (l ++ k :: m)) k.other
      ≠ seedsFor templates Sum.inl
          (after templates Sum.inl SeedPool.start (l ++ k :: m ++ m')) k := by
  obtain ⟨-, hnew, -⟩ := first_new ht hl
  have happ : l ++ k :: m = (l ++ [k]) ++ m := by simp
  have hexcl := @after_exclusive _ templates Sum.inl (l ++ [k]) _ start_exclusive
  have hbound := @after_bounded τ templates (l ++ [k]) _ start_bounded
  obtain ⟨c₁, hc₁, -, -⟩ := after_newer hk ht m hexcl hbound.1 hnew
  obtain ⟨c₂, hc₂, -, -⟩ := after_newer hk ht (m ++ m') hexcl hbound.1 hnew
  rw [← after_append, ← happ] at hc₁
  rw [← after_append, ← append_assoc, ← happ] at hc₂
  have hb₁ := @after_bounded τ templates (l ++ k :: m) _ start_bounded
  have hb₂ := @after_bounded τ templates m' _ hb₁.1
  rw [← after_append] at hb₂
  obtain ⟨c, hc, hlt⟩ := hb₁.1 k _ hc₁
  rw [Sum.inl.injEq] at hc
  subst hc
  have hexcl₂ := @after_exclusive _ templates Sum.inl (l ++ k :: m ++ m') _ start_exclusive
  have hother := (hexcl₂ k hk).resolve_left (by rw [hc₂]; simp)
  have hcopy : seedsFor templates Sum.inl
      (after templates Sum.inl start (l ++ k :: m)) k.other = .inl c₁ := by
    rcases column_cases templates Sum.inl
        (after templates Sum.inl start (l ++ k :: m)) k.other with
      ⟨t, hsome, -, -⟩ | ⟨s, -, hs, hseeds, -⟩ | ⟨-, hnone, -, -⟩
    · rw [ht'] at hsome
      cases hsome
    · rw [other_other, hc₁, Option.some.injEq] at hs
      rw [hseeds, ← hs]
    · rw [other_other, hc₁] at hnone
      cases hnone
  have hmake : seedsFor templates Sum.inl
      (after templates Sum.inl start (l ++ k :: m ++ m')) k
        = .inl (after templates Sum.inl start (l ++ k :: m ++ m')).calls := by
    rcases column_cases templates Sum.inl
        (after templates Sum.inl start (l ++ k :: m ++ m')) k with
      ⟨t, hsome, -, -⟩ | ⟨s, -, hs, -, -⟩ | ⟨-, -, hseeds, -⟩
    · rw [ht] at hsome
      cases hsome
    · rw [hother] at hs
      cases hs
    · exact hseeds
  rw [hcopy, hmake]
  intro heq
  rw [Sum.inl.injEq] at heq
  omega

/-- A template at one end only. -/
theorem disagree_template {l' : List JoinKey} {t : SketchTemplate (Nat ⊕ τ)} {s : τ}
    (ht : templates k = some t) (hs : t.seeds = .inr s) (ht' : templates k.other = none) :
    seedsFor templates Sum.inl (after templates Sum.inl SeedPool.start l) k
      ≠ seedsFor templates Sum.inl (after templates Sum.inl SeedPool.start l') k.other := by
  have hmem := @mem_of_newSeeds _ templates Sum.inl l' k
  have hleft : seedsFor templates Sum.inl (after templates Sum.inl start l) k
      = .inr s := by
    rw [seedsFor, column, ht]
    exact hs
  rcases column_cases templates Sum.inl (after templates Sum.inl start l') k.other with
    ⟨t, hsome, -, -⟩ | ⟨s, -, hs, -, -⟩ | ⟨-, -, hseeds, -⟩
  · rw [ht'] at hsome
    cases hsome
  · rw [other_other] at hs
    have hnone := (hmem (by rw [hs]; simp)).2
    rw [ht] at hnone
    cases hnone
  · rw [hleft, hseeds]
    simp

end Calls

-- ======== the calls and the seeds

section

variable {σ τ : Type} (f : σ → τ)

def SketchTemplate.map (t : SketchTemplate σ) : SketchTemplate τ :=
  ⟨f t.seeds, t.sketchElem⟩

def SeedPool.map (pool : SeedPool σ) : SeedPool τ :=
  ⟨fun k => (pool.newSeeds k).map f, pool.calls⟩

variable {f} {templates : JoinKey → Option (SketchTemplate σ)} {generate : Nat → σ}

theorem column_map (pool : SeedPool σ) (key : JoinKey) :
    seedsFor (fun k => (templates k).map (SketchTemplate.map f)) (f ∘ generate)
        (pool.map f) key = f (seedsFor templates generate pool key)
      ∧ advance (fun k => (templates k).map (SketchTemplate.map f)) (f ∘ generate)
        (pool.map f) key = (advance templates generate pool key).map f := by
  cases ht : templates key with
  | some t => simp [seedsFor, advance, column, ht, SketchTemplate.map]
  | none =>
    cases hs : pool.newSeeds key.other with
    | some s => simp [seedsFor, advance, column, SeedPool.map, ht, hs]
    | none =>
      simp only [seedsFor, advance, column, SeedPool.map, ht, hs,
        Option.map_none, comp_apply, true_and, SeedPool.mk.injEq, and_true]
      funext k
      by_cases hk : k = key
      · subst hk
        simp
      · simp [update_of_ne hk]

theorem after_map (keys : List JoinKey) : ∀ pool : SeedPool σ,
    after (fun k => (templates k).map (SketchTemplate.map f)) (f ∘ generate)
      (pool.map f) keys = (after templates generate pool keys).map f := by
  induction keys with
  | nil => exact fun _ => rfl
  | cons key keys ih =>
    intro pool
    rw [after_cons, after_cons, (column_map pool key).2]
    exact ih _

theorem seedsFor_map (keys : List JoinKey) (key : JoinKey) :
    seedsFor (fun k => (templates k).map (SketchTemplate.map f)) (f ∘ generate)
      (after (fun k => (templates k).map (SketchTemplate.map f)) (f ∘ generate)
        SeedPool.start keys) key
    = f (seedsFor templates generate (after templates generate SeedPool.start keys) key) := by
  have hstart : (start : SeedPool τ) = (start : SeedPool σ).map f := rfl
  rw [hstart, after_map, (column_map _ key).1]

end

theorem generateSeeds_first (rows : Nat) (bucketSize : UInt32) (random : Nat → UInt32) (c : Nat) :
    ((generateSeeds (rows + 1) bucketSize random c).xiBucket.head?).map (fun xi => xi.seeds)
      = some (xiSeeds (random (4 * (c * (rows + 1)))) (random (4 * (c * (rows + 1)) + 1))) := by
  simp [generateSeeds, range_succ_eq_map]

/-- One random number tells a call from every other. -/
theorem generateSeeds_ne {rowNo : Nat} (hrow : 0 < rowNo) (bucketSize : UInt32) (c : Nat) :
    ∃ random, (∀ c', c' ≠ c →
        generateSeeds rowNo bucketSize random c ≠ generateSeeds rowNo bucketSize random c')
      ∧ generateSeeds rowNo bucketSize random c
        ≠ generateSeeds rowNo bucketSize (fun _ => 0) c := by
  obtain ⟨rows, rfl⟩ := exists_eq_add_one_of_ne_zero hrow.ne'
  have hseeds : xiSeeds 1 0 ≠ xiSeeds 0 0 := by decide
  refine ⟨fun k => if k = 4 * (c * (rows + 1)) then 1 else 0, fun c' hc' h => ?_, fun h => ?_⟩
  · have hmul : c' * (rows + 1) ≠ c * (rows + 1) :=
      fun h => hc' (eq_of_mul_eq_mul_right (succ_pos rows) h)
    have hb := congrArg (fun s => (s.xiBucket.head?).map fun xi => xi.seeds) h
    simp only [generateSeeds_first] at hb
    rw [if_pos trivial, if_neg (by omega), if_neg (by omega), if_neg (by omega),
      Option.some.injEq] at hb
    exact hseeds hb
  · have hb := congrArg (fun s => (s.xiBucket.head?).map fun xi => xi.seeds) h
    simp only [generateSeeds_first] at hb
    rw [if_pos trivial, if_neg (by omega), Option.some.injEq] at hb
    exact hseeds hb

/-- Seeds of different origin are different for some random numbers. -/
theorem exists_random_ne {rowNo : Nat} (hrow : 0 < rowNo) (bucketSize : UInt32)
    {x y : Nat ⊕ Seeds} (h : x ≠ y) :
    ∃ random, Sum.elim (generateSeeds rowNo bucketSize random) id x
      ≠ Sum.elim (generateSeeds rowNo bucketSize random) id y := by
  -- one of two random sequences misses given seeds
  have hmiss : ∀ c s, ∃ random, generateSeeds rowNo bucketSize random c ≠ s := by
    intro c s
    obtain ⟨random, hrandom⟩ := generateSeeds_ne hrow bucketSize c
    by_contra hall
    simp only [not_exists, not_not] at hall
    exact hrandom.2 ((hall random).trans (hall _).symm)
  rcases x with c | s
  · rcases y with c' | s'
    · obtain ⟨random, hrandom⟩ := generateSeeds_ne hrow bucketSize c
      refine ⟨random, hrandom.1 c' fun hc => h ?_⟩
      rw [hc]
    · obtain ⟨random, hrandom⟩ := hmiss c s'
      exact ⟨random, hrandom⟩
  · rcases y with c' | s'
    · obtain ⟨random, hrandom⟩ := hmiss c' s
      exact ⟨random, hrandom.symm⟩
    · refine ⟨fun _ => 0, fun hs => h ?_⟩
      exact congrArg Sum.inr hs

-- ======== the run

namespace SketchInput

variable (q : SketchInput)

/-- The keys of the joins of a scan. -/
def keysOf (n : Nat) : List JoinKey := (q.joins n).map (joinKey (q.tableId n))

/-- The keys of all joins, as they are visited. -/
def visited (order : List Nat) : List JoinKey := order.flatMap q.keysOf

variable {q}

theorem run_append (random : Nat → UInt32) (o : List Nat) (n : Nat) :
    q.run random (o ++ [n])
      = findSketchFromTemplates q.templates (generateSeeds q.rowNo q.bucketSize random)
          q.joins n (q.tableId n) (q.noSelection n) (q.run random o) := by
  rw [run, foldl_append]
  rfl

theorem run_pool (random : Nat → UInt32) (order : List Nat) :
    (q.run random order).pool
      = after q.templates (generateSeeds q.rowNo q.bucketSize random) SeedPool.start
          (q.visited order) := by
  induction order using reverseRecOn with
  | nil => rfl
  | append_singleton order n ih =>
    rw [run_append, visited, flatMap_append, flatMap_singleton, after_append, ← visited, ← ih]
    exact columns_pool _ _ _

variable {n : Nat} {k : JoinKey}
variable {o₁ o₂ : List Nat}

/-- A scan keeps its columns while other scans are visited. -/
theorem run_instances_of_notMem (random : Nat → UInt32) (h : n ∉ o₂) :
    (q.run random (o₁ ++ o₂)).sketchInstances n = (q.run random o₁).sketchInstances n := by
  induction o₂ using reverseRecOn with
  | nil => rw [append_nil]
  | append_singleton o₂ m ih =>
    simp only [mem_append, mem_singleton, not_or] at h
    rw [← append_assoc, run_append, ← ih h.1]
    exact update_of_ne h.2 _ _

variable {l r : List JoinKey}

/-- The seeds of a column, from the joins visited before it. -/
theorem seedsAt_run (random : Nat → UInt32) (hn : n ∉ o₂) (hk : q.keysOf n = l ++ k :: r) :
    seedsAt (q.run random (o₁ ++ n :: o₂)) n l.length
      = some (seedsFor q.templates (generateSeeds q.rowNo q.bucketSize random)
          (after q.templates (generateSeeds q.rowNo q.bucketSize random) SeedPool.start
            (q.visited o₁ ++ l)) k) := by
  have happ : o₁ ++ n :: o₂ = (o₁ ++ [n]) ++ o₂ := by simp
  rw [seedsAt, happ, run_instances_of_notMem random hn, run_append, after_append, ← run_pool]
  have hself : (findSketchFromTemplates q.templates
      (generateSeeds q.rowNo q.bucketSize random) q.joins n (q.tableId n) (q.noSelection n)
      (q.run random o₁)).sketchInstances n
      = ((q.run random o₁).pool.columns q.templates
          (generateSeeds q.rowNo q.bucketSize random) (q.noSelection n) (q.keysOf n)).1 :=
    update_self _ _ _
  rw [hself, hk]
  exact columns_seeds _ _ _ _ _

variable (q) in
/-- The templates of the session, as seeds that no call has made. -/
def origins (k : JoinKey) : Option (SketchTemplate (Nat ⊕ Seeds)) :=
  (q.templates k).map (SketchTemplate.map Sum.inr)

variable (q) in
/-- Where the seeds for `key` come from, after the joins `keys`. -/
def origin (keys : List JoinKey) (key : JoinKey) : Nat ⊕ Seeds :=
  seedsFor q.origins Sum.inl (after q.origins Sum.inl SeedPool.start keys) key

theorem seedsFor_origin (random : Nat → UInt32) (keys : List JoinKey) (key : JoinKey) :
    seedsFor q.templates (generateSeeds q.rowNo q.bucketSize random)
      (after q.templates (generateSeeds q.rowNo q.bucketSize random) SeedPool.start keys) key
    = Sum.elim (generateSeeds q.rowNo q.bucketSize random) id (q.origin keys key) := by
  have htemplates : (fun k => (q.origins k).map
      (SketchTemplate.map (Sum.elim (generateSeeds q.rowNo q.bucketSize random) id)))
      = q.templates := by
    funext k
    rw [origins]
    cases q.templates k with
    | none | some t => rfl
  have hmap := @seedsFor_map _ _ (Sum.elim (generateSeeds q.rowNo q.bucketSize random) id)
    q.origins Sum.inl keys key
  rw [htemplates, Sum.elim_comp_inl] at hmap
  exact hmap

theorem origins_eq_none (h : q.templates k = none) : q.origins k = none := by
  rw [origins, h]
  rfl

/-- Ends of an edge that have seeds of different origin in some order. -/
theorem not_agree {o₁ o₂ p₁ p₂ : List Nat} {n m : Nat} {l r l' r' : List JoinKey}
    {k k' : JoinKey} (hnodup : (o₁ ++ n :: o₂).Nodup) (hmem : ∀ x, x ∈ o₁ ++ n :: o₂ ↔ x ∈ q.nodes)
    (horder : o₁ ++ n :: o₂ = p₁ ++ m :: p₂)
    (hn : q.keysOf n = l ++ k :: r) (hm : q.keysOf m = l' ++ k' :: r')
    (hedge : q.IsEdge n l.length m l'.length)
    (hne : q.origin (q.visited o₁ ++ l) k ≠ q.origin (q.visited p₁ ++ l') k') :
    ¬ q.SeedsAgree := by
  intro hagree
  obtain ⟨random, hrandom⟩ := exists_random_ne q.rowNo_pos q.bucketSize hne
  obtain ⟨seeds, h₁, h₂⟩ := hagree _ hnodup hmem random n _ m _ hedge
  have hn₂ : n ∉ o₂ := (nodup_cons.1 (nodup_append.1 hnodup).2.1).1
  have hm₂ : m ∉ p₂ := by
    rw [horder] at hnodup
    exact (nodup_cons.1 (nodup_append.1 hnodup).2.1).1
  rw [seedsAt_run random hn₂ hn, seedsFor_origin] at h₁
  rw [horder, seedsAt_run random hm₂ hm, seedsFor_origin] at h₂
  exact hrandom (Option.some.inj (h₁.trans h₂.symm))

-- ======== the joins of a query

variable {i : Nat}

theorem keysOf_getElem? (h : (q.keysOf n)[i]? = some k) :
    ∃ j, (q.joins n)[i]? = some j ∧ joinKey (q.tableId n) j = k := by
  rw [keysOf, getElem?_map, Option.map_eq_some_iff] at h
  exact h

/-- The list of keys around one of them. -/
theorem keysOf_split (h : (q.keysOf n)[i]? = some k) :
    ∃ l r, q.keysOf n = l ++ k :: r ∧ l.length = i := by
  obtain ⟨hlt, hk⟩ := List.getElem?_eq_some_iff.mp h
  refine ⟨(q.keysOf n).take i, (q.keysOf n).drop (i + 1), ?_, ?_⟩
  · rw [← hk, getElem_cons_drop hlt, take_append_drop]
  · rw [length_take]
    omega

/-- The other end of a join. -/
theorem exists_edge {n i : Nat} (hn : n ∈ q.nodes) {k : JoinKey} (h : (q.keysOf n)[i]? = some k) :
    ∃ m i', m ∈ q.nodes ∧ m ≠ n ∧ q.IsEdge n i m i' ∧ (q.keysOf m)[i']? = some k.other := by
  obtain ⟨j, hj, rfl⟩ := keysOf_getElem? h
  obtain ⟨hm, hne, htable, hback⟩ := q.joined n hn j (mem_of_getElem? hj)
  obtain ⟨i', hi'⟩ := mem_iff_getElem?.mp hback
  refine ⟨j.otherNode, i', hm, hne, ⟨hn, j, hj, rfl, hi'⟩, ?_⟩
  rw [keysOf, getElem?_map, hi', ← htable]
  rfl

theorem edge_keys {m i' : Nat} (h : q.IsEdge n i m i') :
    ∃ k, n ∈ q.nodes ∧ m ∈ q.nodes ∧ (q.keysOf n)[i]? = some k
      ∧ (q.keysOf m)[i']? = some k.other := by
  obtain ⟨hn, j, hj, rfl, hj'⟩ := h
  obtain ⟨hm, -, htable, -⟩ := q.joined n hn j (mem_of_getElem? hj)
  refine ⟨joinKey (q.tableId n) j, hn, hm, ?_, ?_⟩
  · rw [keysOf, getElem?_map, hj]
    rfl
  · rw [keysOf, getElem?_map, hj', ← htable]
    rfl

/-- The scans can be visited with some of them first. -/
theorem exists_order {o : List Nat} (ho : o.Nodup) (hsub : ∀ x ∈ o, x ∈ q.nodes) :
    ∃ rest, (o ++ rest).Nodup ∧ ∀ x, x ∈ o ++ rest ↔ x ∈ q.nodes := by
  refine ⟨(q.nodes \ o.toFinset).toList, ?_, fun x => ?_⟩
  · refine nodup_append.mpr ⟨ho, Finset.nodup_toList _, fun a ha b hb hab => ?_⟩
    subst hab
    rw [Finset.mem_toList, Finset.mem_sdiff, mem_toFinset] at hb
    exact hb.2 ha
  · rw [mem_append, Finset.mem_toList, Finset.mem_sdiff, mem_toFinset]
    constructor
    · rintro (hx | hx)
      · exact hsub x hx
      · exact hx.1
    · intro hx
      by_cases hxo : x ∈ o
      · exact Or.inl hxo
      · exact Or.inr ⟨hx, hxo⟩

theorem visited_split (hk : q.keysOf n = l ++ k :: r) :
    q.visited (o₁ ++ n :: o₂) = (q.visited o₁ ++ l) ++ k :: (r ++ q.visited o₂) := by
  simp [visited, hk]

theorem mem_visited {o : List Nat} :
    k ∈ q.visited o ↔ ∃ n ∈ o, k ∈ q.keysOf n := by
  simp [visited]

/-- A key of one join only is visited once. -/
theorem visited_once (hnodup : (o₁ ++ n :: o₂).Nodup) (hmem : ∀ x, x ∈ o₁ ++ n :: o₂ ↔ x ∈ q.nodes)
    (hk : q.keysOf n = l ++ k :: r)
    (hone : ∀ n' ∈ q.nodes, ∀ i', (q.keysOf n')[i']? = some k → n' = n ∧ i' = l.length) :
    k ∉ q.visited o₁ ++ l ∧ k ∉ r ++ q.visited o₂ := by
  have hsplit := nodup_append.1 hnodup
  have hothers : ∀ o, (∀ x ∈ o, x ∈ q.nodes ∧ x ≠ n) → k ∉ q.visited o := by
    intro o ho hin
    obtain ⟨n', hn', hin'⟩ := mem_visited.mp hin
    obtain ⟨i', hi'⟩ := mem_iff_getElem?.mp hin'
    exact (ho n' hn').2 (hone n' (ho n' hn').1 i' hi').1
  have hn : n ∈ q.nodes := (hmem n).mp (by simp)
  have h₁ : k ∉ q.visited o₁ := hothers o₁ fun x hx =>
    ⟨(hmem x).mp (mem_append_left _ hx), hsplit.2.2 x hx n (by simp)⟩
  have h₂ : k ∉ q.visited o₂ := hothers o₂ fun x hx =>
    ⟨(hmem x).mp (by simp [hx]), fun hxn => (nodup_cons.1 hsplit.2.1).1 (hxn ▸ hx)⟩
  constructor
  · rw [mem_append, not_or]
    refine ⟨h₁, fun hl => ?_⟩
    obtain ⟨i, hi⟩ := mem_iff_getElem?.mp hl
    have hlt : i < l.length := (List.getElem?_eq_some_iff.mp hi).1
    have hi' := (hone n hn i (by rw [hk, getElem?_append_left hlt]; exact hi)).2
    omega
  · rw [mem_append, not_or]
    refine ⟨fun hr => ?_, h₂⟩
    obtain ⟨i, hi⟩ := mem_iff_getElem?.mp hr
    have hi' := (hone n hn (l.length + (i + 1)) (by
      rw [hk, getElem?_append_right (by omega), Nat.add_sub_cancel_left, getElem?_cons_succ]
      exact hi)).2
    omega

theorem UniqueKeys.agree (h : q.UniqueKeys) : q.SeedsAgree := by
  intro order hnodup hmem random n i m i' hedge
  obtain ⟨k, hn, hm, hki, hki'⟩ := edge_keys hedge
  obtain ⟨l, r, hk, rfl⟩ := keysOf_split hki
  obtain ⟨l', r', hk', rfl⟩ := keysOf_split hki'
  obtain ⟨o₁, o₂, horder⟩ := append_of_mem ((hmem n).mpr hn)
  obtain ⟨p₁, p₂, horder'⟩ := append_of_mem ((hmem m).mpr hm)
  have hn₂ : n ∉ o₂ := by
    rw [horder] at hnodup
    exact (nodup_cons.1 (nodup_append.1 hnodup).2.1).1
  have hm₂ : m ∉ p₂ := by
    rw [horder'] at hnodup
    exact (nodup_cons.1 (nodup_append.1 hnodup).2.1).1
  obtain ⟨j, hj, hjk⟩ := keysOf_getElem? hki
  obtain ⟨j', hj', hjk'⟩ := keysOf_getElem? hki'
  have hsame : (q.templates k).map SketchTemplate.seeds
      = (q.templates k.other).map SketchTemplate.seeds := by
    by_cases hself : k = k.other
    · rw [← hself]
    · exact (h n hn _ j k hj hjk hself).1
  refine ⟨_, by rw [horder]; exact seedsAt_run random hn₂ hk, ?_⟩
  rw [horder', seedsAt_run random hm₂ hk', Option.some.injEq]
  symm
  refine agree_of_unique ((congrArg q.visited horder).trans (visited_split hk))
    ((congrArg q.visited horder').trans (visited_split hk')) hsame fun hnone => ?_
  by_cases hself : k = k.other
  · exact Or.inl hself
  · right
    have hnone' : q.templates k.other = none := by
      rw [hnone] at hsame
      exact Option.map_eq_none_iff.mp hsame.symm
    constructor
    · rw [horder] at hnodup hmem
      refine visited_once hnodup hmem hk fun n' hn' i' hi' => ?_
      obtain ⟨j₀, hj₀, hjk₀⟩ := keysOf_getElem? hi'
      exact (h n hn _ j k hj hjk hself).2 hnone n' hn' i' j₀ hj₀ hjk₀
    · rw [horder'] at hnodup hmem
      refine visited_once hnodup hmem hk' fun n' hn' i' hi' => ?_
      obtain ⟨j₀, hj₀, hjk₀⟩ := keysOf_getElem? hi'
      exact (h m hm _ j' k.other hj' hjk' (Ne.symm hself)).2 hnone' n' hn' i' j₀ hj₀ hjk₀

/-- The seeds of the templates are not the same from both sides. -/
theorem not_agree_of_templates (hn : n ∈ q.nodes) (hki : (q.keysOf n)[i]? = some k)
    (hne : (q.templates k).map SketchTemplate.seeds
      ≠ (q.templates k.other).map SketchTemplate.seeds) : ¬ q.SeedsAgree := by
  obtain ⟨m, i', hm, -, hedge, hki'⟩ := exists_edge hn hki
  obtain ⟨l, r, hk, rfl⟩ := keysOf_split hki
  obtain ⟨l', r', hk', rfl⟩ := keysOf_split hki'
  obtain ⟨order, hnodup, hmem⟩ := @exists_order q [] nodup_nil (by simp)
  obtain ⟨o₁, o₂, horder⟩ := append_of_mem ((hmem n).mpr hn)
  obtain ⟨p₁, p₂, horder'⟩ := append_of_mem ((hmem m).mpr hm)
  rw [horder] at hnodup hmem
  refine not_agree hnodup hmem (horder.symm.trans horder') hk hk' hedge ?_
  cases ht : q.templates k with
  | none =>
    cases ht' : q.templates k.other with
    | none =>
      rw [ht, ht'] at hne
      exact absurd rfl hne
    | some t' =>
      have horigin : q.origins k.other = some (t'.map Sum.inr) := by
        rw [origins, ht']
        rfl
      exact (disagree_template horigin rfl (origins_eq_none ht)).symm
  | some t =>
    have horigin : q.origins k = some (t.map Sum.inr) := by
      rw [origins, ht]
      rfl
    cases ht' : q.templates k.other with
    | none => exact disagree_template horigin rfl (origins_eq_none ht')
    | some t' =>
      have horigin' : q.origins k.other = some (t'.map Sum.inr) := by
        rw [origins, ht']
        rfl
      rw [origin, origin, seedsFor, seedsFor, column, column, horigin, horigin']
      intro heq
      apply hne
      rw [ht, ht', Option.map_some, Option.map_some]
      exact congrArg some (Sum.inr.inj heq)

/-- Two joins of one scan have the key, in one direction or the other:
this scan first. -/
theorem not_agree_of_twice {k' : JoinKey} {m : List JoinKey} (hn : n ∈ q.nodes)
    (hkeys : q.keysOf n = l ++ k :: (m ++ k' :: r)) (hself : k ≠ k.other)
    (ht : q.templates k = none) (ht' : q.templates k.other = none) (hl : k.other ∉ l)
    (hk' : k' = k ∨ k' = k.other) : ¬ q.SeedsAgree := by
  obtain ⟨rest, hnodup, hmem⟩ := @exists_order q [n] (nodup_singleton n) (by simpa using hn)
  rcases hk' with rfl | rfl
  · -- the first of the two joins is left behind
    obtain ⟨p, i', hp, hpn, hedge, hki'⟩ := @exists_edge q n l.length hn k' (by simp [hkeys])
    obtain ⟨lp, rp, hkp, rfl⟩ := keysOf_split hki'
    obtain ⟨r₁, r₂, rfl⟩ := append_of_mem (show p ∈ rest by
      simpa [hpn] using (hmem p).mpr hp)
    refine @not_agree q [] (r₁ ++ p :: r₂) (n :: r₁) r₂ n p _ _ _ _ _ _ hnodup hmem rfl hkeys
      hkp hedge ?_
    have hvisited : q.visited (n :: r₁) ++ lp
        = l ++ k' :: m ++ k' :: (r ++ q.visited r₁ ++ lp) := by
      simp [visited, hkeys]
    rw [hvisited]
    exact disagree_again hself (origins_eq_none ht) (origins_eq_none ht') hl
  · -- the second one has copied before its own other end makes new seeds
    obtain ⟨p, i', hp, hpn, hedge, hki'⟩ :=
      @exists_edge q n (l ++ k :: m).length hn k.other (by simp [hkeys])
    obtain ⟨lp, rp, hkp, rfl⟩ := keysOf_split hki'
    obtain ⟨r₁, r₂, rfl⟩ := append_of_mem (show p ∈ rest by
      simpa [hpn] using (hmem p).mpr hp)
    have hkeys' : q.keysOf n = (l ++ k :: m) ++ k.other :: r := by
      rw [hkeys, append_assoc, cons_append]
    refine @not_agree q [] (r₁ ++ p :: r₂) (n :: r₁) r₂ n p _ _ _ _ _ _ hnodup hmem rfl hkeys'
      hkp hedge ?_
    have hvisited : q.visited (n :: r₁) ++ lp
        = l ++ k :: m ++ (k.other :: (r ++ q.visited r₁ ++ lp)) := by
      simp [visited, hkeys]
    rw [hvisited]
    exact disagree_before hself (origins_eq_none ht) (origins_eq_none ht') hl

/-- Joins of two scans have the key: these two first. -/
theorem not_agree_of_two {n n' : Nat} {k : JoinKey} {l r l' r' : List JoinKey}
    (hn : n ∈ q.nodes) (hn' : n' ∈ q.nodes) (hne : n ≠ n')
    (hkeys : q.keysOf n = l ++ k :: r) (hkeys' : q.keysOf n' = l' ++ k :: r')
    (hself : k ≠ k.other) (ht : q.templates k = none) (ht' : q.templates k.other = none)
    (hl : k.other ∉ l) (hl' : k.other ∉ q.keysOf n') : ¬ q.SeedsAgree := by
  obtain ⟨rest, hnodup, hmem⟩ := @exists_order q [n, n'] (by simpa using hne)
    (by simpa using ⟨hn, hn'⟩)
  obtain ⟨p, i', hp, hpn, hedge, hki'⟩ := @exists_edge q n l.length hn k (by simp [hkeys])
  have hpn' : p ≠ n' := fun h => hl' (h ▸ mem_of_getElem? hki')
  obtain ⟨lp, rp, hkp, rfl⟩ := keysOf_split hki'
  obtain ⟨r₁, r₂, rfl⟩ := append_of_mem (show p ∈ rest by
    simpa [hpn, hpn'] using (hmem p).mpr hp)
  refine @not_agree q [] (n' :: (r₁ ++ p :: r₂)) (n :: n' :: r₁) r₂ n p _ _ _ _ _ _ hnodup hmem
    rfl hkeys hkp hedge ?_
  have hvisited : q.visited (n :: n' :: r₁) ++ lp
      = l ++ k :: (r ++ l') ++ k :: (r' ++ q.visited r₁ ++ lp) := by
    simp [visited, hkeys, hkeys']
  rw [hvisited]
  exact disagree_again hself (origins_eq_none ht) (origins_eq_none ht') hl

/-- The first join of a scan with a key or its reverse. -/
theorem exists_first (h : k ∈ q.keysOf n) :
    ∃ l k₁ r, q.keysOf n = l ++ k₁ :: r ∧ (k₁ = k ∨ k₁ = k.other) ∧ k ∉ l ∧ k.other ∉ l := by
  cases hfind : (q.keysOf n).find? (fun x => x = k ∨ x = k.other) with
  | none =>
    rw [find?_eq_none] at hfind
    exact absurd (hfind k h) (by simp)
  | some k₁ =>
    obtain ⟨hk₁, l, r, hkeys, hl⟩ := find?_eq_some_iff_append.mp hfind
    refine ⟨l, k₁, r, hkeys, by simpa using hk₁, fun hin => ?_, fun hin => ?_⟩
    · simpa using hl k hin
    · simpa using hl k.other hin

/-- When the ends agree, a scan has a key at most once, and not its reverse. -/
theorem split_of_agree (h : q.SeedsAgree) (hn : n ∈ q.nodes) (hk : k ∈ q.keysOf n)
    (hself : k ≠ k.other) (ht : q.templates k = none) (ht' : q.templates k.other = none) :
    ∃ l r, q.keysOf n = l ++ k :: r ∧ (k ∉ l ∧ k.other ∉ l) ∧ k ∉ r ∧ k.other ∉ r := by
  obtain ⟨l, k₁, r, hkeys, hk₁, hl, hl'⟩ := exists_first hk
  have hr : ∀ k', k' = k ∨ k' = k.other → k' ∉ r := by
    intro k' hk' hin
    obtain ⟨m, r', rfl⟩ := append_of_mem hin
    rcases hk₁ with rfl | rfl
    · exact not_agree_of_twice hn hkeys hself ht ht' hl' hk' h
    · exact not_agree_of_twice hn hkeys (Ne.symm hself) ht' ht hl hk'.symm h
  have hkr := hr k (Or.inl rfl)
  have hkr' := hr k.other (Or.inr rfl)
  rcases hk₁ with rfl | rfl
  · exact ⟨l, r, hkeys, ⟨hl, hl'⟩, hkr, hkr'⟩
  · rw [hkeys] at hk
    simp [hl, hkr, hself] at hk

/-- The two ends of every edge agree, whatever the order, exactly when the
joins have their keys for themselves. -/
theorem seedsAgree_iff : q.SeedsAgree ↔ q.UniqueKeys := by
  refine ⟨fun h n hn i j k hj hjk hself => ?_, UniqueKeys.agree⟩
  have hki : (q.keysOf n)[i]? = some k := by
    rw [keysOf, getElem?_map, hj, ← hjk]
    rfl
  have hsame : (q.templates k).map SketchTemplate.seeds
      = (q.templates k.other).map SketchTemplate.seeds := by
    by_contra hne
    exact not_agree_of_templates hn hki hne h
  refine ⟨hsame, fun ht n' hn' i' j' hj' hjk' => ?_⟩
  have ht' : q.templates k.other = none := by
    rw [ht] at hsame
    exact Option.map_eq_none_iff.mp hsame.symm
  have hki' : (q.keysOf n')[i']? = some k := by
    rw [keysOf, getElem?_map, hj', ← hjk']
    rfl
  obtain ⟨l, r, hkeys, ⟨hl, hlo⟩, hr, -⟩ :=
    split_of_agree h hn (mem_of_getElem? hki) hself ht ht'
  obtain ⟨l', r', hkeys', ⟨hl', hlo'⟩, hr', hro'⟩ :=
    split_of_agree h hn' (mem_of_getElem? hki') hself ht ht'
  have hother : k.other ∉ q.keysOf n' := by
    rw [hkeys']
    simp [hlo', hro', Ne.symm hself]
  have hnn : n = n' := by
    by_contra hne
    exact not_agree_of_two hn hn' hne hkeys hkeys' hself ht ht' hlo hother h
  subst hnn
  -- the key is in the list once only
  have hindex : ∀ i, (q.keysOf n)[i]? = some k → i = l.length := by
    intro i hi
    rw [hkeys] at hi
    rcases Nat.lt_trichotomy i l.length with hlt | heq | hgt
    · rw [getElem?_append_left hlt] at hi
      exact absurd (mem_of_getElem? hi) hl
    · exact heq
    · rw [getElem?_append_right (by omega)] at hi
      obtain ⟨d, hd⟩ := Nat.exists_eq_add_of_lt hgt
      rw [show i - l.length = d + 1 by omega, getElem?_cons_succ] at hi
      exact absurd (mem_of_getElem? hi) hr
  exact ⟨rfl, (hindex i' hki').trans (hindex i hki).symm⟩

/-- Two aliases of a table, each joined with one of another table on the
same columns, and no templates. -/
def twoAliases : SketchInput where
  nodes := {1, 2, 3}
  joins
    | 1 => [⟨5, 0, 3, 6, 1⟩]
    | 2 => [⟨5, 0, 3, 6, 1⟩]
    | 3 => [⟨6, 1, 1, 5, 0⟩, ⟨6, 1, 2, 5, 0⟩]
    | _ => []
  tableId n := if n = 3 then 6 else 5
  noSelection _ := true
  templates _ := none
  rowNo := 1
  bucketSize := 16
  rowNo_pos := Nat.one_pos
  joined := by decide

/-- With the two aliases first, the second one makes new seeds again, and
the other table copies these for both edges. -/
theorem twoAliases_not_agree : ¬ ∀ q : SketchInput, q.SeedsAgree := by
  intro h
  have hkey : twoAliases.keysOf 1 = [] ++ (⟨5, 0, 6, 1⟩ : JoinKey) :: [] := by decide
  have hkey' : twoAliases.keysOf 2 = [] ++ (⟨5, 0, 6, 1⟩ : JoinKey) :: [] := by decide
  exact @not_agree_of_two twoAliases 1 2 _ _ _ _ _ (by decide) (by decide)
    (by decide) hkey hkey' (by decide) rfl rfl (by simp) (by decide) (h twoAliases)

end SketchInput

end Compass.PushDown
