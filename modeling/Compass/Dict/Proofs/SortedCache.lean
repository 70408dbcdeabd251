/-
The sorted cache over the life of a dictionary (`buildSortedCache`).

The cache is extended by the ids from its own size on, so all that it
relies on is that it holds the ids below that size (`CacheKept`). That
holds after any calls, and nothing is lost or put in twice. The order also
needs `string_lt` to be a strict weak order among the strings: a string
compares as equal to every string that it starts with a zero byte behind
it, and these need not be equal to each other.
-/
import Compass.Dict.Proofs.GetCompare

namespace Compass.Dict

open SearchState List

variable {m : Matching} {g : Nat} {s s' : SearchState} {strings : List Str} {ids : List Nat}

/-- `lt` is a strict weak order on these ids. -/
structure WeaklyOrders (lt : Nat → Nat → Bool) (ids : List Nat) : Prop where
  asymm : ∀ a ∈ ids, ∀ b ∈ ids, lt a b = true → lt b a = false
  between : ∀ a ∈ ids, ∀ b ∈ ids, ∀ c ∈ ids, lt a c = true → lt a b = true ∨ lt b c = true

theorem WeaklyOrders.mono {lt : Nat → Nat → Bool} {ids' : List Nat} (h : WeaklyOrders lt ids)
    (hsub : ids' ⊆ ids) : WeaklyOrders lt ids' :=
  ⟨fun a ha b hb => h.asymm a (hsub ha) b (hsub hb),
    fun a ha b hb c hc => h.between a (hsub ha) b (hsub hb) c (hsub hc)⟩

/-- What `std::sort` promises. -/
def Matching.SortsWeakly (m : Matching) : Prop :=
  ∀ lt ids, WeaklyOrders lt ids → (m.sort lt ids).Pairwise fun a b => lt b a = false

/-- `string_lt` is a strict weak order on the strings. -/
def StrictWeak (strings : List Str) : Prop :=
  ∀ a ∈ strings, ∀ b ∈ strings, ∀ c ∈ strings,
    stringLt a c = true → stringLt a b = true ∨ stringLt b c = true

/-- No id comes after one of a string that is above its own. -/
def OrderedByLt (strings : List Str) (ids : List Nat) : Prop :=
  ids.Pairwise fun a b => idLt strings b a = false

theorem stringCompare_swap (a b : Str) : stringCompare b a = -stringCompare a b := by
  induction a generalizing b with
  | nil => cases b <;> simp [stringCompare]
  | cons x a ih =>
    cases b with
    | nil => simp [stringCompare]
    | cons y b =>
      simp only [stringCompare]
      by_cases h : x = y
      · rw [if_pos h, if_pos h.symm, ih]
      · rw [if_neg h, if_neg (Ne.symm h)]
        omega

theorem StrictWeak.weaklyOrders (h : StrictWeak strings)
    (hids : ∀ id ∈ ids, id < strings.length) : WeaklyOrders (idLt strings) ids := by
  refine ⟨fun a _ b _ hab => ?_, fun a ha b hb c hc => ?_⟩
  · unfold idLt stringLt at hab ⊢
    rw [stringCompare_swap]
    simp only [decide_eq_true_eq, decide_eq_false_iff_not] at hab ⊢
    omega
  · exact h _ (keyOf_mem (hids a ha)) _ (keyOf_mem (hids b hb)) _ (keyOf_mem (hids c hc))

theorem WeaklyOrders.not_lt_trans {lt : Nat → Nat → Bool} (h : WeaklyOrders lt ids) {a b c : Nat}
    (ha : a ∈ ids) (hb : b ∈ ids) (hc : c ∈ ids) (hba : lt b a = false) (hcb : lt c b = false) :
    lt c a = false := by
  rw [Bool.eq_false_iff]
  intro hca
  rcases h.between c hc b hb a ha hca with hlt | hlt
  · rw [hcb] at hlt
    cases hlt
  · rw [hba] at hlt
    cases hlt

/-- The merge of two lists in order is in order. -/
theorem mergeSortedCache_ordered (ts ss : List Nat) :
    WeaklyOrders (idLt strings) (ts ++ ss) → OrderedByLt strings ts → OrderedByLt strings ss →
      OrderedByLt strings (mergeSortedCache strings ts ss) := by
  induction ts, ss using mergeSortedCache.induct strings with
  | case1 ss =>
    intro _ _ hss
    rwa [mergeSortedCache]
  | case2 ts hts =>
    intro _ hts' _
    rwa [mergeSortedCache]
    exact hts
  | case3 t ts s ss hlt ih =>
    intro hweak hts hss
    rw [mergeSortedCache, if_pos hlt]
    have hts' := pairwise_cons.1 hts
    have hst := hweak.asymm t (by simp) s (by simp) hlt
    refine pairwise_cons.2 ⟨fun id hid => ?_, ih (hweak.mono (by simp)) hts'.2 hss⟩
    rw [(mergeSortedCache_perm ts (s :: ss)).mem_iff, mem_append, mem_cons] at hid
    obtain hid | rfl | hid := hid
    · exact hts'.1 id hid
    · exact hst
    · exact hweak.not_lt_trans (by simp) (by simp) (by simp [hid]) hst
        ((pairwise_cons.1 hss).1 id hid)
  | case4 t ts s ss hlt ih =>
    intro hweak hts hss
    rw [mergeSortedCache, if_neg hlt]
    have hss' := pairwise_cons.1 hss
    have hts' := Bool.eq_false_iff.2 hlt
    refine pairwise_cons.2 ⟨fun id hid => ?_, ih (hweak.mono ?_) hts hss'.2⟩
    · rw [(mergeSortedCache_perm (t :: ts) ss).mem_iff, mem_append, mem_cons] at hid
      obtain (rfl | hid) | hid := hid
      · exact hts'
      · exact hweak.not_lt_trans (by simp) (by simp) (by simp [hid]) hts'
          ((pairwise_cons.1 hts).1 id hid)
      · exact hss'.1 id hid
    · exact append_subset.2 ⟨subset_append_left _ _, fun id hid => by simp [hid]⟩

-- ======== the calls

/-- The strings and the sorted cache of a state. -/
def sortedOf (s : SearchState) : List Str × List Nat :=
  (s.strings, s.sortedCache)

theorem sortedOf_compareSorted {p : Str} {op : CompOperator}
    (h : s.compareSorted p op = .ok (s', ids)) : sortedOf s' = sortedOf s := by
  obtain rfl | ⟨v, -, rfl⟩ := compareSorted_cases h <;> rfl

/-- A call leaves the sorted cache alone, for the same strings or with one
more, or builds it. -/
theorem run_sortedCache {c : SearchCall} {a : SearchAnswer} (h : c.run m s = .ok (s', a)) :
    sortedOf s' = sortedOf s ∨ (∃ str, sortedOf s' = (s.strings ++ [str], s.sortedCache))
      ∨ s.sortedCache.length < s.strings.length
        ∧ sortedOf s' = sortedOf (buildSortedCache m s) := by
  cases c with
  | getOrAdd str =>
    obtain ⟨⟨s₁, id⟩, hcall, heq⟩ := map_eq_ok h
    cases heq
    obtain rfl | ⟨-, rfl⟩ := getOrAdd_cases hcall
    · exact .inl rfl
    · exact .inr (.inl ⟨str, rfl⟩)
  | getLike key generation | getRegexpLike key generation =>
    obtain ⟨⟨s₁, ids⟩, hcall, heq⟩ := map_eq_ok h
    cases heq
    first | unfold SearchState.getLike at hcall | unfold SearchState.getRegexpLike at hcall
    split at hcall
    · cases hcall
      exact .inl rfl
    · split at hcall <;> cases hcall
      exact .inl rfl
  | getCompare pattern op generation =>
    obtain ⟨⟨s₁, ids⟩, hcall, heq⟩ := map_eq_ok h
    cases heq
    obtain rfl | hequals | ⟨hless, hsorted⟩ | ⟨-, hsorted⟩ := getCompare_cases hcall
    · exact .inl rfl
    · obtain rfl | ⟨id, -, -, rfl⟩ := getEquals_cases hequals <;> exact .inl rfl
    · exact .inr (.inr ⟨hless, sortedOf_compareSorted hsorted⟩)
    · exact .inl (sortedOf_compareSorted hsorted)
  | copyStrings =>
    cases h
    unfold SearchState.copyStrings
    split <;> exact .inl rfl

/-- What holds of the sorted cache after any calls. -/
structure CacheKept (strings : List Str) (ids : List Nat) : Prop where
  perm : ids.Perm (List.range ids.length)
  short : ids.length ≤ strings.length
  ordered : StrictWeak strings → OrderedByLt strings ids

theorem CacheKept.lt (h : CacheKept strings ids) : ∀ id ∈ ids, id < strings.length :=
  fun _ hid => Nat.lt_of_lt_of_le (mem_range.1 (h.perm.mem_iff.1 hid)) h.short

theorem CacheKept.append (h : CacheKept strings ids) (str : Str) :
    CacheKept (strings ++ [str]) ids := by
  refine ⟨h.perm, ?_, fun hweak => ?_⟩
  · rw [length_append]
    exact Nat.le_add_right_of_le h.short
  · have hmem : ∀ a ∈ strings, a ∈ strings ++ [str] := fun a => mem_append_left _
    refine (h.ordered fun a ha b hb c hc =>
      hweak a (hmem a ha) b (hmem b hb) c (hmem c hc)).imp_of_mem fun ha hb hab => ?_
    have hkey : ∀ id ∈ ids, keyOf (strings ++ [str]) id = keyOf strings id := fun id hid =>
      keyOf_append (h.lt id hid) str
    unfold idLt at hab ⊢
    rw [← keyOf, ← keyOf, hkey _ ha, hkey _ hb]
    exact hab

/-- The new ids, sorted and merged. -/
theorem CacheKept.build (h : CacheKept s.strings s.sortedCache) (hm : m.SortsWeakly) :
    (buildSortedCache m s).sortedCache.Perm (range s.strings.length)
      ∧ (StrictWeak s.strings → OrderedByLt s.strings (buildSortedCache m s).sortedCache) := by
  have hperm := @buildSortedCache_perm m s h.perm h.short
  refine ⟨hperm, fun hweak => ?_⟩
  have hall : WeaklyOrders (idLt s.strings) (buildSortedCache m s).sortedCache :=
    hweak.weaklyOrders fun id hid => mem_range.1 (hperm.mem_iff.1 hid)
  have hmerged := @mergeSortedCache_perm s.strings
    (m.sort (idLt s.strings) (range' s.sortedCache.length
      (s.strings.length - s.sortedCache.length))) s.sortedCache
  refine mergeSortedCache_ordered _ _ (hall.mono hmerged.symm.subset) (hm _ _ (hall.mono ?_))
    (h.ordered hweak)
  exact fun id hid => hmerged.symm.subset
    (mem_append_left _ ((m.sort_perm _ _).symm.subset hid))

theorem Consulted.cacheKept (h : Consulted m s) (hm : m.SortsWeakly) :
    CacheKept s.strings s.sortedCache := by
  induction h with
  | start hnodup => exact ⟨.refl _, Nat.zero_le _, fun _ => Pairwise.nil⟩
  | call _ hrun ih =>
    obtain hsame | ⟨str, hadded⟩ | ⟨hless, hbuilt⟩ := run_sortedCache hrun
    · obtain ⟨hstrings, hcache⟩ := Prod.mk.inj hsame
      rwa [hstrings, hcache]
    · obtain ⟨hstrings, hcache⟩ := Prod.mk.inj hadded
      rw [hstrings, hcache]
      exact ih.append str
    · obtain ⟨hstrings, hcache⟩ := Prod.mk.inj hbuilt
      obtain ⟨hperm, hordered⟩ := ih.build hm
      rw [hstrings, hcache]
      have hlen := hperm.length_eq
      rw [length_range] at hlen
      exact ⟨by rwa [hlen], hlen.le, hordered⟩

/-- Built after any calls, the sorted cache holds each id once, in the
order of `string_lt` if that is a strict weak order on the strings. A
merge loses nothing and puts in nothing twice. -/
theorem buildSortedCache_sorted (hm : m.SortsWeakly) (h : Consulted m s) :
    (∀ ts ss, (mergeSortedCache s.strings ts ss).Perm (ts ++ ss))
      ∧ (buildSortedCache m s).sortedCache.Perm (List.range s.strings.length)
      ∧ (StrictWeak s.strings →
        OrderedByLt s.strings (buildSortedCache m s).sortedCache) :=
  ⟨mergeSortedCache_perm, (h.cacheKept hm).build hm⟩

theorem plain_sortsWeakly : plain.SortsWeakly := by
  intro lt ids h
  -- the ids have to be in order among each other only
  let le : Nat → Nat → Prop := fun a b => a ∉ ids ∨ b ∈ ids ∧ lt b a = false
  have : Std.Total le := ⟨fun a b => by
    by_cases ha : a ∈ ids
    · by_cases hb : b ∈ ids
      · cases hlt : lt b a
        · exact .inl (.inr ⟨hb, hlt⟩)
        · exact .inr (.inr ⟨ha, h.asymm b hb a ha hlt⟩)
      · exact .inr (.inl hb)
    · exact .inl (.inl ha)⟩
  have : IsTrans Nat le := ⟨fun a b c hab hbc => by
    by_cases ha : a ∈ ids
    · obtain ⟨hb, hba⟩ := hab.resolve_left (not_not_intro ha)
      obtain ⟨hc, hcb⟩ := hbc.resolve_left (not_not_intro hb)
      exact .inr ⟨hc, h.not_lt_trans ha hb hc hba hcb⟩
    · exact .inl ha⟩
  have hsame := map_insertionSort (fun a b => lt b a = false) le id ids
    fun a ha b hb => by simp [le, ha, hb]
  have hsorted := pairwise_insertionSort le (ids.map id)
  rw [← hsame, map_id] at hsorted
  refine hsorted.imp_of_mem fun ha _ hab => ?_
  exact (hab.resolve_left (not_not_intro ((plain.sort_perm lt ids).mem_iff.1 ha))).2

/-- Several calls. -/
def runAll (m : Matching) (calls : List SearchCall) (s : SearchState) : Except Fault SearchState :=
  calls.foldlM (fun s c => (c.run m s).map Prod.fst) s

theorem Consulted.runAll {calls : List SearchCall} (h : Consulted m s)
    (hrun : runAll m calls s = .ok s') : Consulted m s' := by
  induction calls generalizing s with
  | nil =>
    cases hrun
    exact h
  | cons c calls ih =>
    unfold Dict.runAll at hrun
    rw [foldlM_cons] at hrun
    cases hc : c.run m s with
    | error e =>
      rw [hc] at hrun
      cases hrun
    | ok r =>
      rw [hc] at hrun
      exact ih (h.call hc) hrun

/-- `b` is sorted, and then `a` and `c` are merged into it. -/
theorem buildSortedCache_merged :
    ∃ s, Consulted plain s ∧ s.strings = [[98], [97], [99]] ∧ s.sortedCache = [0]
      ∧ OrderedByLt s.strings (buildSortedCache plain s).sortedCache := by
  have hbuilt : (runAll plain [.getOrAdd [98], .getCompare [98] .lt 1, .getOrAdd [97],
      .getOrAdd [99]] (.ofStrings [])).map (fun s => (s.strings, s.sortedCache))
      = .ok ([[98], [97], [99]], [0]) := by decide +kernel
  obtain ⟨s, hrun, heq⟩ := map_eq_ok hbuilt
  obtain ⟨hstrings, hcache⟩ := Prod.mk.inj heq
  have hs : Consulted plain s := (Consulted.start nodup_nil).runAll hrun
  refine ⟨s, hs, hstrings, hcache, (buildSortedCache_sorted plain_sortsWeakly hs).2.2 ?_⟩
  rw [hstrings]
  unfold StrictWeak
  decide

/-- The string `a` compares as equal to `a`, zero byte, `b` and to `a`, zero
byte, `c`, and keeps them apart in the wrong order. -/
theorem buildSortedCache_unordered :
    ∃ s, Consulted plain s ∧ ¬ OrderedByLt s.strings (buildSortedCache plain s).sortedCache := by
  have hbuilt : (runAll plain [.getOrAdd [97, 0, 99], .getCompare [98] .lt 1, .getOrAdd [97],
      .getOrAdd [97, 0, 98]] (.ofStrings [])).map
        (fun s => (s.strings, (buildSortedCache plain s).sortedCache))
      = .ok ([[97, 0, 99], [97], [97, 0, 98]], [0, 1, 2]) := by decide +kernel
  obtain ⟨s, hrun, heq⟩ := map_eq_ok hbuilt
  obtain ⟨hstrings, hcache⟩ := Prod.mk.inj heq
  refine ⟨s, (Consulted.start nodup_nil).runAll hrun, ?_⟩
  rw [hstrings, hcache, OrderedByLt]
  decide

end Compass.Dict
