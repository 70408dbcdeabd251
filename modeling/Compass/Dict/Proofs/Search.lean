/-
The caches of the dictionary's searches change no answer, in runs whose
calls are `Harmless`.

`Cached` is the invariant: what a pattern search remembers is what it finds
with the generation of some call since the last new string, an id in
`equal_cache_` is that of its string, a place in `compare_cache_` is what
the search over the sorted ids finds, these are complete as long as any
place is remembered, and `strings_cache_` is the beginning of the strings.
-/
import Compass.Dict.Search
import Compass.Dict.Proofs.Dictionary

namespace Compass.Dict

open SearchState Intern List Option Except Nat Prod Function

-- ======== workers

/-- One more generation. -/
theorem workerIds_succ {count w : Nat} (hw : w < count) (g : Nat) :
    workerIds count (g + 1) w = workerIds count g w ++ if g % count = w then [g] else [] := by
  have hdiv := div_add_mod g count
  have hmod := mod_lt g (by omega : 0 < count)
  unfold workerIds
  -- the number of ids, by the place of `g` among the workers
  have hcount : ∀ a, a < count → (count * (g / count) + a) / count = g / count := by
    intro a ha
    rw [mul_add_div (by omega), div_eq_of_lt ha, add_zero]
  have hcount' : ∀ a, a < count → (count * (g / count) + count + a) / count = g / count + 1 := by
    intro a ha
    rw [add_assoc, mul_add_div (by omega), add_div_left _ (by omega), div_eq_of_lt ha]
  rcases lt_trichotomy (g % count) w with hlt | heq | hgt
  · rw [if_neg (by omega), append_nil,
      show g + 1 + count - 1 - w = count * (g / count) + (count + g % count - w) by omega,
      show g + count - 1 - w = count * (g / count) + (count + g % count - w - 1) by omega,
      hcount _ (by omega), hcount _ (by omega)]
  · rw [if_pos heq, show g + 1 + count - 1 - w = count * (g / count) + count + 0 by omega,
      show g + count - 1 - w = count * (g / count) + (count - 1) by omega,
      hcount _ (by omega), hcount' _ (by omega), range'_concat]
    congr 2
    omega
  · rw [if_neg (by omega), append_nil,
      show g + 1 + count - 1 - w = count * (g / count) + count + (g % count - w) by omega,
      show g + count - 1 - w = count * (g / count) + count + (g % count - w - 1) by omega,
      hcount' _ (by omega), hcount' _ (by omega)]

/-- A worker visits every `count`-th id. -/
theorem workerIds_eq {count w : Nat} (hw : w < count) (g : Nat) :
    workerIds count g w = (range g).filter (· % count = w) := by
  induction g with
  | zero =>
    unfold workerIds
    rw [div_eq_of_lt (by omega)]
    rfl
  | succ g ih =>
    rw [workerIds_succ hw, ih, range_succ, filter_append]
    congr 1
    by_cases h : g % count = w
    · simp [h]
    · simp [h]

/-- The ids that are found by all workers. -/
def found (count : Nat) (strings : List Str) (isMatch : Str → Bool) (g : Nat) : List Nat :=
  (List.range count).flatMap fun w =>
    (workerIds count g w).filter fun id => strings[id]?.any isMatch

variable {m : Matching} {s : SearchState} {isMatch : Str → Bool} {g g' count : Nat}

theorem search_eq (h : g ≤ s.strings.length) :
    search count s.strings isMatch g = .ok (found count s.strings isMatch g) := by
  unfold search
  rw [if_neg (not_lt.mpr h)]
  rfl

theorem mem_found (hcount : 0 < count) {id : Nat} :
    id ∈ found count s.strings isMatch g ↔ id < g ∧ s.strings[id]?.any isMatch = true := by
  unfold found
  rw [mem_flatMap]
  constructor
  · intro h
    obtain ⟨w, hw, hin⟩ := h
    rw [workerIds_eq (mem_range.mp hw), mem_filter, mem_filter] at hin
    exact ⟨mem_range.mp hin.1.1, hin.2⟩
  · intro h
    have hlt := mod_lt id hcount
    refine ⟨id % count, mem_range.mpr hlt, ?_⟩
    rw [workerIds_eq hlt, mem_filter, mem_filter]
    exact ⟨⟨mem_range.mpr h.1, by simp⟩, h.2⟩

theorem nodup_found : (found count s.strings isMatch g).Nodup := by
  unfold found
  rw [nodup_flatMap]
  constructor
  · intro w hw
    rw [workerIds_eq (mem_range.mp hw)]
    exact (nodup_range.filter _).filter _
  · refine nodup_range.imp_of_mem ?_
    intro v w hv hw hne id hin hin'
    dsimp only at hin hin'
    rw [workerIds_eq (mem_range.mp hv), mem_filter, mem_filter] at hin
    rw [workerIds_eq (mem_range.mp hw), mem_filter, mem_filter] at hin'
    have hv' := of_decide_eq_true hin.1.2
    have hw' := of_decide_eq_true hin'.1.2
    exact hne (hv'.symm.trans hw')

theorem exactly_found (hcount : 0 < count) :
    Exactly s isMatch g (found count s.strings isMatch g) :=
  ⟨nodup_found, fun _ => mem_found hcount⟩

/-- A larger generation with no more matches. -/
theorem found_of_le (hle : g ≤ g')
    (h : ∀ id, g ≤ id → id < g' → s.strings[id]?.any isMatch = false) :
    found count s.strings isMatch g' = found count s.strings isMatch g := by
  obtain ⟨k, rfl⟩ := Nat.exists_eq_add_of_le hle
  refine flatMap_congr ?_
  intro w hw
  rw [workerIds_eq (mem_range.mp hw), workerIds_eq (mem_range.mp hw),
    range_add, filter_append, filter_append]
  have hnone : (((range k).map (g + ·)).filter (· % count = w)).filter
      (fun id => s.strings[id]?.any isMatch) = [] := by
    rw [filter_eq_nil_iff]
    intro id hid
    obtain ⟨i, hi, rfl⟩ := mem_map.mp (mem_of_mem_filter hid)
    have hi' := mem_range.mp hi
    rw [h (g + i) (by omega) (by omega)]
    exact Bool.false_ne_true
  rw [hnone, append_nil]

theorem SameMatches.found_eq (h : SameMatches s isMatch g g') :
    found count s.strings isMatch g = found count s.strings isMatch g' := by
  rcases le_total g g' with hle | hle
  · refine (found_of_le hle fun id h₁ h₂ => h id ?_ ?_).symm
    · rwa [min_eq_left hle]
    · rwa [max_eq_right hle]
  · refine found_of_le hle fun id h₁ h₂ => h id ?_ ?_
    · rwa [min_eq_right hle]
    · rwa [max_eq_left hle]

variable {p : Str}

/-- The search for a string that is there. -/
theorem found_string (hcount : 0 < count) (hnodup : s.strings.Nodup) {id : Nat}
    (hid : s.strings[id]? = some p) :
    found count s.strings (· = p) g = if id < g then [id] else [] := by
  have hmem : ∀ i, i ∈ found count s.strings (· = p) g ↔ i < g ∧ i = id := by
    intro i
    rw [mem_found hcount]
    refine and_congr_right fun _ => ?_
    constructor
    · intro h
      obtain ⟨str, hstr, heq⟩ := (any_eq_true _ _).mp h
      rw [of_decide_eq_true heq] at hstr
      obtain ⟨hi, hi'⟩ := List.getElem?_eq_some_iff.mp hstr
      obtain ⟨hj, hj'⟩ := List.getElem?_eq_some_iff.mp hid
      exact (Nodup.getElem_inj_iff hnodup).mp (hi'.trans hj'.symm)
    · intro h
      rw [h, hid]
      simp
  split
  · next hlt =>
      refine perm_singleton.mp ?_
      refine (perm_ext_iff_of_nodup nodup_found (nodup_singleton id)).mpr ?_
      intro i
      rw [hmem, mem_singleton]
      exact ⟨fun h => h.2, fun h => ⟨h ▸ hlt, h⟩⟩
  · next hge =>
      refine eq_nil_iff_forall_not_mem.mpr ?_
      intro i hi
      obtain ⟨hlt, heq⟩ := (hmem i).mp hi
      exact hge (heq ▸ hlt)

-- ======== sorted ids

theorem mergeSortedCache_perm {strings : List Str} (ts ss : List Nat) :
    (mergeSortedCache strings ts ss).Perm (ts ++ ss) := by
  induction ts, ss using mergeSortedCache.induct strings with
  | case1 ss =>
    rw [mergeSortedCache]
    exact .refl _
  | case2 ts hts =>
    rw [mergeSortedCache, append_nil]
    exact hts
  | case3 t ts s ss hlt ih =>
    rw [mergeSortedCache, if_pos hlt]
    exact ih.cons t
  | case4 t ts s ss hlt ih =>
    rw [mergeSortedCache, if_neg hlt]
    refine (ih.cons s).trans ?_
    exact perm_middle.symm

/-- The sorted ids are complete after they are built. -/
theorem length_buildSortedCache (h : s.sortedCache.length < s.strings.length) :
    ((buildSortedCache m s).sortedCache).length = s.strings.length := by
  unfold buildSortedCache
  rw [(mergeSortedCache_perm _ _).length_eq, length_append, (m.sort_perm _ _).length_eq,
    length_range']
  omega

-- ======== the invariant

structure Cached (m : Matching) (s : SearchState) (asked : List SearchCall) : Prop where
  nodup : s.strings.Nodup
  like : ∀ key ids, s.likeCache key = some ids →
    ∃ g, .getLike key g ∈ asked ∧ ids = found m.cpuThreads s.strings (m.isLike · key) g
  regex : ∀ key ids, s.regexCache key = some ids →
    ∃ g, .getRegexpLike key g ∈ asked
      ∧ ids = found m.cpuThreads s.strings (m.isRegexpLike · key) g
  equal : ∀ p id, s.equalCache p = some id → s.strings[id]? = some p
  compare : ∀ p v, s.compareCache p = some v →
    s.strings.length ≤ s.sortedCache.length
      ∧ binarySearchCache s.strings s.sortedCache p = .ok v
  copied : ∀ strs, s.stringsCache = some strs → strs <+: s.strings

theorem cached_ofStrings {ss : List Str} (h : ss.Nodup) : Cached m (ofStrings ss) [] :=
  ⟨h, nofun, nofun, nofun, nofun, nofun⟩

variable {asked : List SearchCall}

/-- One more call on the same strings. -/
theorem Cached.cons (h : Cached m s asked) (c : SearchCall) : Cached m s (c :: asked) := by
  refine ⟨h.nodup, ?_, ?_, h.equal, h.compare, h.copied⟩
  · intro key ids hids
    obtain ⟨g, hg, heq⟩ := h.like key ids hids
    exact ⟨g, mem_cons_of_mem _ hg, heq⟩
  · intro key ids hids
    obtain ⟨g, hg, heq⟩ := h.regex key ids hids
    exact ⟨g, mem_cons_of_mem _ hg, heq⟩

/-- An entry of a cache after another is put in. -/
theorem update_eq_some {κ β : Type} [DecidableEq κ] {cache : κ → Option β} {k k' : κ} {v v' : β}
    (h : update cache k (some v) k' = some v') :
    (k' = k ∧ v' = v) ∨ cache k' = some v' := by
  by_cases hk : k' = k
  · subst hk
    rw [update_self] at h
    exact Or.inl ⟨rfl, (some.inj h).symm⟩
  · rw [update_of_ne hk] at h
    exact Or.inr h

-- ======== calls

variable {s' : SearchState} {ids : List Nat} {op : CompOperator}

theorem getOrAdd_cases {str : Str} {id : Int} (h : s.getOrAdd str = .ok (s', id)) :
    s' = s ∨ str ∉ s.strings
      ∧ s' = invalidateInvertedIndex { s with strings := s.strings ++ [str] } := by
  unfold SearchState.getOrAdd at h
  split at h
  · exact .inl (mk.inj (ok.inj h)).1.symm
  · split at h
    · cases h
    · split at h
      · exact .inl (mk.inj (ok.inj h)).1.symm
      · next hnew => exact .inr ⟨hnew, (mk.inj (ok.inj h)).1.symm⟩

/-- At most the id of the string is remembered. -/
theorem getEquals_cases (h : s.getEquals m p op g = .ok (s', ids)) :
    s' = s ∨ ∃ id < g, s.strings[id]? = some p
      ∧ s' = { s with equalCache := update s.equalCache p (some id) } := by
  unfold getEquals at h
  split at h
  · left
    split at h <;> exact (mk.inj (ok.inj h)).1.symm
  · split at h
    · cases h
    · next hsearch =>
        obtain ⟨rfl, -⟩ := mk.inj (ok.inj h)
        split
        · exact .inl rfl
        · next id rest =>
            have hg : g ≤ s.strings.length := not_lt.1 fun hlt => by
              rw [search, if_pos hlt] at hsearch
              cases hsearch
            rw [search_eq hg] at hsearch
            have hin := (mem_found m.cpuThreads_pos).mp
              (by rw [ok.inj hsearch]; exact mem_cons_self : id ∈ found _ s.strings _ g)
            obtain ⟨str, hstr, heq⟩ := (any_eq_true _ _).mp hin.2
            rw [of_decide_eq_true heq] at hstr
            exact .inr ⟨id, hin.1, hstr, rfl⟩

/-- At most the place of the string is remembered. -/
theorem compareSorted_cases (h : s.compareSorted p op = .ok (s', ids)) :
    s' = s ∨ ∃ v, binarySearchCache s.strings s.sortedCache p = .ok v
      ∧ s' = { s with compareCache := update s.compareCache p (some v) } := by
  unfold compareSorted at h
  split at h
  · exact .inl (mk.inj (ok.inj h)).1.symm
  · split at h
    · cases h
    · next v hsearch => exact .inr ⟨v, hsearch, (mk.inj (ok.inj h)).1.symm⟩

theorem getCompare_cases (h : s.getCompare m p op g = .ok (s', ids)) :
    s' = s ∨ s.getEquals m p op g = .ok (s', ids)
      ∨ (∃ _ : s.sortedCache.length < s.strings.length,
        (buildSortedCache m s).compareSorted p op = .ok (s', ids))
      ∨ s.strings.length ≤ s.sortedCache.length ∧ s.compareSorted p op = .ok (s', ids) := by
  unfold getCompare at h
  split at h
  · exact .inl (mk.inj (ok.inj h)).1.symm
  · split at h
    · next hless =>
        split at h
        · exact .inr (.inl h)
        · exact .inr (.inr (.inl ⟨hless, h⟩))
    · next hmore => exact .inr (.inr (.inr ⟨not_lt.1 hmore, h⟩))

/-- A new string empties the caches that depend on it. -/
theorem Cached.getOrAdd (h : Cached m s asked) {str : Str} {id : Int}
    (hrun : s.getOrAdd str = .ok (s', id)) :
    s' = s ∨ (s'.strings.length = s.strings.length + 1 ∧ Cached m s' []) := by
  obtain rfl | ⟨hnew, rfl⟩ := getOrAdd_cases hrun
  · exact .inl rfl
  · refine .inr ⟨by simp [invalidateInvertedIndex], ?_, nofun, nofun, nofun, nofun, ?_⟩
    · show (s.strings ++ [str]).Nodup
      rw [← intern_of_not_mem hnew]
      exact nodup_intern h.nodup
    · intro strs hstrs
      exact (h.copied strs hstrs).trans (prefix_append _ _)

/-- Whether or not the cache has the pattern, the same ids are found. -/
theorem Cached.getLike (h : Cached m s asked) {key : LikeKey} (hg : g ≤ s.strings.length)
    (hsame : SearchCall.Harmless m s asked (.getLike key g)) :
    ∃ s', s.getLike m key g = .ok (s', found m.cpuThreads s.strings (m.isLike · key) g)
      ∧ s'.strings = s.strings ∧ Cached m s' (.getLike key g :: asked) := by
  unfold SearchState.getLike
  cases hcache : s.likeCache key with
  | some ids =>
    obtain ⟨g', hg', heq⟩ := h.like key ids hcache
    have hfound : ids = found m.cpuThreads s.strings (m.isLike · key) g :=
      heq.trans (hsame g' hg').found_eq.symm
    exact ⟨s, by rw [hfound], rfl, h.cons _⟩
  | none =>
    rw [search_eq hg]
    refine ⟨_, rfl, rfl, h.nodup, ?_, (h.cons _).regex, h.equal, h.compare, h.copied⟩
    intro key' ids hids
    rcases update_eq_some hids with ⟨rfl, rfl⟩ | hold
    · exact ⟨g, mem_cons_self, rfl⟩
    · exact (h.cons _).like key' ids hold

theorem Cached.getRegexpLike (h : Cached m s asked) {key : RegexKey} (hg : g ≤ s.strings.length)
    (hsame : SearchCall.Harmless m s asked (.getRegexpLike key g)) :
    ∃ s', s.getRegexpLike m key g
        = .ok (s', found m.cpuThreads s.strings (m.isRegexpLike · key) g)
      ∧ s'.strings = s.strings ∧ Cached m s' (.getRegexpLike key g :: asked) := by
  unfold SearchState.getRegexpLike
  cases hcache : s.regexCache key with
  | some ids =>
    obtain ⟨g', hg', heq⟩ := h.regex key ids hcache
    have hfound : ids = found m.cpuThreads s.strings (m.isRegexpLike · key) g :=
      heq.trans (hsame g' hg').found_eq.symm
    exact ⟨s, by rw [hfound], rfl, h.cons _⟩
  | none =>
    rw [search_eq hg]
    refine ⟨_, rfl, rfl, h.nodup, (h.cons _).like, ?_, h.equal, h.compare, h.copied⟩
    intro key' ids hids
    rcases update_eq_some hids with ⟨rfl, rfl⟩ | hold
    · exact ⟨g, mem_cons_self, rfl⟩
    · exact (h.cons _).regex key' ids hold

/-- The answer of `getEquals` without its cache. -/
def equalIds (m : Matching) (s : SearchState) (p : Str) (op : CompOperator) (g : Nat) :
    List Nat :=
  let ids := found m.cpuThreads s.strings (· = p) g
  if op = .ne then ids ++ otherIds s.strings.length (ids.head?.getD (maxStrlen + 1)) else ids

theorem Cached.getEquals_ok (h : Cached m s asked) (hrun : s.getEquals m p op g = .ok (s', ids)) :
    s'.strings = s.strings ∧ Cached m s' asked := by
  obtain rfl | ⟨id, -, hstr, rfl⟩ := getEquals_cases hrun
  · exact ⟨rfl, h⟩
  · refine ⟨rfl, h.nodup, h.like, h.regex, fun p' id' hid' => ?_, h.compare, h.copied⟩
    rcases update_eq_some hid' with ⟨rfl, rfl⟩ | hold
    · exact hstr
    · exact h.equal p' id' hold

theorem Cached.getEquals (h : Cached m s asked) (hop : op = .eq ∨ op = .ne)
    (hg : g ≤ s.strings.length) (hsame : ∀ eqId, s.equalCache p = some eqId →
      (op = .eq → eqId < g) ∧ (op = .ne → eqId = maxStrlen + 1 ∧ g ≤ eqId)) :
    ∃ s', s.getEquals m p op g = .ok (s', equalIds m s p op g) := by
  unfold SearchState.getEquals equalIds
  cases hcache : s.equalCache p with
  | some eqId =>
    obtain ⟨heq, hne⟩ := hsame eqId hcache
    have hfound := found_string (g := g) m.cpuThreads_pos h.nodup (h.equal p eqId hcache)
    refine ⟨s, ?_⟩
    dsimp only
    rcases hop with rfl | rfl
    · rw [if_pos rfl, hfound, if_pos (heq rfl), if_neg nofun]
    · obtain ⟨hnone, hge⟩ := hne rfl
      rw [if_neg nofun, hfound, if_neg (not_lt.mpr hge), if_pos rfl, hnone]
      rfl
  | none =>
    rw [search_eq hg]
    exact ⟨_, rfl⟩

/-- Nothing is remembered of the sorted ids while they are incomplete. -/
theorem Cached.buildSortedCache (h : Cached m s asked)
    (hless : s.sortedCache.length < s.strings.length) :
    Cached m (SearchState.buildSortedCache m s) asked := by
  refine ⟨h.nodup, h.like, h.regex, h.equal, ?_, h.copied⟩
  intro p v hv
  have := (h.compare p v hv).1
  omega

/-- The answer over the sorted ids without the cache. -/
def sortedIds (strings : List Str) (sortedCache : List Nat) (p : Str) (op : CompOperator) :
    Except Fault (List Nat) :=
  (binarySearchCache strings sortedCache p).map (compareIds sortedCache op)

theorem Cached.compareSorted (h : Cached m s asked) (p : Str) (op : CompOperator) :
    (s.compareSorted p op).map snd = sortedIds s.strings s.sortedCache p op := by
  unfold SearchState.compareSorted sortedIds
  cases hcache : s.compareCache p with
  | some v =>
    rw [(h.compare p v hcache).2]
    rfl
  | none =>
    cases binarySearchCache s.strings s.sortedCache p <;> rfl

theorem Cached.compareSorted_ok (h : Cached m s asked)
    (hall : s.strings.length ≤ s.sortedCache.length)
    (hrun : s.compareSorted p op = .ok (s', ids)) : s'.strings = s.strings ∧ Cached m s' asked := by
  obtain rfl | ⟨v, hsearch, rfl⟩ := compareSorted_cases hrun
  · exact ⟨rfl, h⟩
  · refine ⟨rfl, h.nodup, h.like, h.regex, h.equal, fun p' v' hv' => ?_, h.copied⟩
    rcases update_eq_some hv' with ⟨rfl, rfl⟩ | hold
    · exact ⟨hall, hsearch⟩
    · exact h.compare p' v' hold

/-- The answer of `getCompare` without its caches. -/
def comparedIds (m : Matching) (s : SearchState) (p : Str) (op : CompOperator) (g : Nat) :
    Except Fault (List Nat) :=
  if s.strings.length = 0 then .ok []
  else if s.sortedCache.length < s.strings.length then
    if op = .eq ∨ op = .ne then .ok (equalIds m s p op g)
    else sortedIds s.strings (buildSortedCache m s).sortedCache p op
  else sortedIds s.strings s.sortedCache p op

section

variable (h : Cached m s asked)
include h

theorem Cached.getCompare {p : Str} {op : CompOperator} (hg : g ≤ s.strings.length)
    (hsame : SearchCall.Harmless m s asked (.getCompare p op g)) :
    (s.getCompare m p op g).map snd = comparedIds m s p op g := by
  unfold SearchState.getCompare comparedIds
  split
  · rfl
  · split
    · next hless =>
        split
        · next hop =>
            obtain ⟨s', hrun⟩ := h.getEquals hop hg (hsame hless)
            rw [hrun]
            rfl
        · exact (h.buildSortedCache hless).compareSorted p op
    · exact h.compareSorted p op

theorem Cached.getCompare_ok (hrun : s.getCompare m p op g = .ok (s', ids)) :
    s'.strings = s.strings ∧ Cached m s' asked := by
  obtain rfl | hequals | ⟨hless, hsorted⟩ | ⟨hall, hsorted⟩ := getCompare_cases hrun
  · exact ⟨rfl, h⟩
  · exact h.getEquals_ok hequals
  · exact (h.buildSortedCache hless).compareSorted_ok
      (le_of_eq (length_buildSortedCache hless).symm) hsorted
  · exact h.compareSorted_ok hall hsorted

theorem Cached.copyStrings (hsame : SearchCall.Harmless m s asked .copyStrings) :
    s.copyStrings.2 = s.strings ∧ s.copyStrings.1.strings = s.strings
      ∧ Cached m s.copyStrings.1 asked := by
  unfold SearchState.copyStrings
  cases hcache : s.stringsCache with
  | some strs =>
    have heq : strs = s.strings := (h.copied strs hcache).eq_of_length (hsame strs hcache)
    exact ⟨heq, rfl, h⟩
  | none =>
    refine ⟨rfl, rfl, h.nodup, h.like, h.regex, h.equal, h.compare, ?_⟩
    intro strs hstrs
    exact (some.inj hstrs) ▸ prefix_rfl

-- ======== runs

/-- A dictionary with empty caches. -/
theorem Cached.clear : Cached m s.clear [] :=
  ⟨h.nodup, nofun, nofun, nofun, nofun, nofun⟩

theorem Cached.faithful {c : SearchCall} (hvalid : c.Valid s)
    (hsame : c.Harmless m s asked) : Faithful m s c := by
  cases c with
  | getOrAdd str =>
    refine ⟨?_, nofun, nofun, nofun⟩
    show ((s.getOrAdd str).map _).map _ = ((s.clear.getOrAdd str).map _).map _
    unfold SearchState.getOrAdd
    show _ = (Except.map _ (if str.length = 0 then _ else if str.length > maxStrlen then _
      else if str ∈ s.strings then _ else _)).map _
    split_ifs <;> rfl
  | getLike key g =>
    obtain ⟨s₁, hrun, -, -⟩ := h.getLike hvalid hsame
    obtain ⟨s₂, hrun', -, -⟩ := @Cached.getLike m s.clear g [] h.clear key hvalid nofun
    refine ⟨?_, ?_, nofun, nofun⟩
    · show ((s.getLike m key g).map _).map _ = ((s.clear.getLike m key g).map _).map _
      rw [hrun, hrun']
      rfl
    · intro key' g' heq
      obtain ⟨rfl, rfl⟩ := SearchCall.getLike.inj heq
      refine ⟨s₁, _, ?_, exactly_found m.cpuThreads_pos⟩
      show (s.getLike m key g).map _ = _
      rw [hrun]
      rfl
  | getRegexpLike key g =>
    obtain ⟨s₁, hrun, -, -⟩ := h.getRegexpLike hvalid hsame
    obtain ⟨s₂, hrun', -, -⟩ := @Cached.getRegexpLike m s.clear g [] h.clear key hvalid nofun
    refine ⟨?_, nofun, ?_, nofun⟩
    · show ((s.getRegexpLike m key g).map _).map _
        = ((s.clear.getRegexpLike m key g).map _).map _
      rw [hrun, hrun']
      rfl
    · intro key' g' heq
      obtain ⟨rfl, rfl⟩ := SearchCall.getRegexpLike.inj heq
      refine ⟨s₁, _, ?_, exactly_found m.cpuThreads_pos⟩
      show (s.getRegexpLike m key g).map _ = _
      rw [hrun]
      rfl
  | getCompare p op g =>
    refine ⟨?_, nofun, nofun, nofun⟩
    have hcompare := h.getCompare hvalid hsame
    have hclear := @Cached.getCompare m s.clear g [] h.clear p op hvalid (fun _ => nofun)
    have hanswer : (s.getCompare m p op g).map snd
        = (s.clear.getCompare m p op g).map snd := hcompare.trans hclear.symm
    show ((s.getCompare m p op g).map _).map _ = ((s.clear.getCompare m p op g).map _).map _
    cases hs : s.getCompare m p op g <;> cases hc : s.clear.getCompare m p op g
    · rw [hs, hc] at hanswer
      exact congrArg Except.error (Except.error.inj hanswer)
    · rw [hs, hc] at hanswer
      cases hanswer
    · rw [hs, hc] at hanswer
      cases hanswer
    · rw [hs, hc] at hanswer
      have := Except.ok.inj hanswer
      exact congrArg (Except.ok ∘ SearchAnswer.ids) this
  | copyStrings =>
    obtain ⟨hcopy, -, -⟩ := h.copyStrings hsame
    refine ⟨?_, nofun, nofun, fun _ => ⟨s.copyStrings.1, ?_⟩⟩
    · show Except.ok (SearchAnswer.strings s.copyStrings.2) = Except.ok (.strings s.strings)
      rw [hcopy]
    · show Except.ok (s.copyStrings.1, SearchAnswer.strings s.copyStrings.2) = _
      rw [hcopy]

end

/-- A call keeps the invariant. -/
theorem SearchStep.cached {a b : SearchState × List SearchCall} (hstep : SearchStep m a b)
    (h : Cached m a.1 a.2) : Cached m b.1 b.2 := by
  cases hstep with
  | @call s s' asked c answer hvalid hsame hrun =>
    -- every other call leaves the strings as they are
    have hkeep : ∀ {s₁}, s₁.strings = s.strings → Cached m s₁ (c :: asked) →
        Cached m s₁ (if s₁.strings.length = s.strings.length then c :: asked else []) := by
      intro s₁ hstrings hcached
      rw [hstrings, if_pos rfl]
      exact hcached
    dsimp only at h ⊢
    cases c with
    | getOrAdd str =>
      cases hadd : s.getOrAdd str with
      | error e =>
        rw [SearchCall.run, hadd] at hrun
        cases hrun
      | ok r =>
        rw [SearchCall.run, hadd] at hrun
        obtain ⟨rfl, -⟩ := mk.inj (ok.inj hrun)
        rcases h.getOrAdd hadd with hsame | ⟨hlen, hcached⟩
        · rw [hsame]
          exact hkeep rfl (h.cons _)
        · rw [if_neg (by omega)]
          exact hcached
    | getLike key g =>
      obtain ⟨s₁, hlike, hstrings, hcached⟩ := h.getLike hvalid hsame
      rw [SearchCall.run, hlike] at hrun
      obtain ⟨rfl, -⟩ := mk.inj (ok.inj hrun)
      exact hkeep hstrings hcached
    | getRegexpLike key g =>
      obtain ⟨s₁, hlike, hstrings, hcached⟩ := h.getRegexpLike hvalid hsame
      rw [SearchCall.run, hlike] at hrun
      obtain ⟨rfl, -⟩ := mk.inj (ok.inj hrun)
      exact hkeep hstrings hcached
    | getCompare p op g =>
      cases hcompare : s.getCompare m p op g with
      | error e =>
        rw [SearchCall.run, hcompare] at hrun
        cases hrun
      | ok r =>
        rw [SearchCall.run, hcompare] at hrun
        obtain ⟨rfl, -⟩ := mk.inj (ok.inj hrun)
        obtain ⟨hstrings, hcached⟩ := h.getCompare_ok hcompare
        exact hkeep hstrings (hcached.cons _)
    | copyStrings =>
      obtain ⟨-, hstrings, hcached⟩ := h.copyStrings hsame
      obtain ⟨rfl, -⟩ := mk.inj (ok.inj hrun)
      exact hkeep hstrings (hcached.cons _)

theorem run_cached {a b : SearchState × List SearchCall}
    (hrun : Relation.ReflTransGen (SearchStep m) a b) (h : Cached m a.1 a.2) :
    Cached m b.1 b.2 := by
  induction hrun with
  | refl => exact h
  | tail _ hstep ih => exact hstep.cached ih

/-- In a run of such calls the caches change no answer. -/
theorem caches_faithful {ss : List Str} (hss : ss.Nodup) {s : SearchState} {asked : List SearchCall}
    (hrun : Relation.ReflTransGen (SearchStep m) (ofStrings ss, []) (s, asked))
    (c : SearchCall) (hvalid : c.Valid s) (hsame : c.Harmless m s asked) : Faithful m s c :=
  (run_cached hrun (cached_ofStrings hss)).faithful hvalid hsame

/-- Patterns without wildcards, and two threads. -/
def plain : Matching where
  isLike str key := str = key.pattern
  isRegexpLike str key := str = key.pattern
  sort lt ids := ids.insertionSort fun a b => lt b a = false
  sort_perm _ _ := List.perm_insertionSort _ _
  cpuThreads := 2
  cpuThreads_pos := by decide

/-- The key of a pattern that is one letter. -/
def letter (c : UInt8) : LikeKey := ⟨[c], false, true, 92⟩

theorem plain_faithful :
    ∃ s asked, Relation.ReflTransGen (SearchStep plain) (ofStrings [], []) (s, asked)
      ∧ s.strings = [[97]] ∧ s.likeCache (letter 97) = some [0]
      ∧ Faithful plain s (.getLike (letter 97) 1) := by
  have h₁ : SearchStep plain (ofStrings [], []) (ofStrings [[97]], []) :=
    SearchStep.call (c := .getOrAdd [97]) trivial trivial rfl
  have h₂ : SearchStep plain (ofStrings [[97]], [])
      ({ ofStrings [[97]] with
          likeCache := Function.update (fun _ => none) (letter 97) (some [0]) },
        [.getLike (letter 97) 1]) :=
    SearchStep.call (c := .getLike (letter 97) 1) (Nat.le_refl 1) nofun rfl
  have hrun := (Relation.ReflTransGen.single h₁).tail h₂
  refine ⟨_, _, hrun, rfl, rfl, ?_⟩
  refine caches_faithful nodup_nil hrun _ (Nat.le_refl 1) ?_
  intro g' hg'
  obtain ⟨-, rfl⟩ := SearchCall.getLike.inj (mem_singleton.mp hg')
  intro id h₁ h₂
  omega

/-- A copy from before the second string, and a search with an earlier
generation, are answered again. -/
theorem plain_stale :
    ∃ s₁ s₂ s₃ s₄, SearchCall.run plain (ofStrings []) (.getOrAdd [97]) = .ok (s₁, .id 0)
      ∧ SearchCall.run plain s₁ .copyStrings = .ok (s₂, .strings [[97]])
      ∧ SearchCall.run plain s₂ (.getOrAdd [98]) = .ok (s₃, .id 1)
      ∧ (SearchCall.run plain s₃ .copyStrings).map Prod.snd = .ok (.strings [[97]])
      ∧ ¬ Faithful plain s₃ .copyStrings
      ∧ SearchCall.run plain s₃ (.getLike (letter 98) 1) = .ok (s₄, .ids [])
      ∧ (SearchCall.run plain s₄ (.getLike (letter 98) 2)).map Prod.snd = .ok (.ids [])
      ∧ ¬ Faithful plain s₄ (.getLike (letter 98) 2) := by
  refine ⟨_, _, _, _, rfl, rfl, rfl, rfl, ?_, rfl, rfl, ?_⟩
  · intro h
    have hsame := h.same
    revert hsame
    decide
  · intro h
    have hsame := h.same
    revert hsame
    decide

end Compass.Dict
