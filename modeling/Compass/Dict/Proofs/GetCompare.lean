/-
When `getCompare` returns exactly the ids it should.

The caches are consistent after any calls (`Kept`): `equal_cache_` knows
ids of strings, `compare_cache_` knows what the search over the complete
sorted cache would find, and the sorted cache is in order if the strings
have no twins. Then each path is followed to its end.
-/
import Compass.Dict.Proofs.Proxy

namespace Compass.Dict

open Intern SearchState List Option Except Nat Prod

variable {m : Matching} {g : Nat} {s s' : SearchState}

-- ======== the invariant

/-- What holds after any calls. -/
structure Kept (m : Matching) (s : SearchState) : Prop where
  nodup : s.strings.Nodup
  equal : ∀ p id, s.equalCache p = some id → s.strings[id]? = some p
  compare : ∀ p v, s.compareCache p = some v → s.strings.length ≤ s.sortedCache.length ∧
    binarySearchCache s.strings s.sortedCache p = .ok v
  perm : s.sortedCache.Perm (List.range s.sortedCache.length)
  short : s.sortedCache.length ≤ s.strings.length
  inOrder : NoTwins s.strings → InOrder s.strings s.sortedCache

theorem kept_ofStrings {strings : List Str} (h : strings.Nodup) : Kept m (ofStrings strings) :=
  ⟨h, nofun, nofun, .refl _, zero_le _, fun _ => Pairwise.nil⟩

theorem NoTwins.sublist {strs strs' : List Str} (h : NoTwins strs') (hsub : strs ⊆ strs') :
    NoTwins strs :=
  fun a ha b hb => h a (hsub ha) b (hsub hb)

theorem Kept.getOrAdd (h : Kept m s) {str : Str} {id : Int}
    (hrun : s.getOrAdd str = .ok (s', id)) : Kept m s' := by
  obtain rfl | ⟨hnew, rfl⟩ := getOrAdd_cases hrun
  · exact h
  · have hlt : ∀ id ∈ s.sortedCache, id < s.strings.length := fun id hid =>
      lt_of_lt_of_le (mem_range.mp (h.perm.mem_iff.mp hid)) h.short
    refine ⟨?_, nofun, nofun, h.perm, ?_, fun htwins => ?_⟩
    · show (s.strings ++ [str]).Nodup
      rw [← intern_of_not_mem hnew]
      exact nodup_intern h.nodup
    · show s.sortedCache.length ≤ (s.strings ++ [str]).length
      rw [length_append]
      exact le_add_right_of_le h.short
    · exact (h.inOrder (htwins.sublist (subset_append_left _ _))).append hlt str

variable {ids : List Nat}

section

variable (h : Kept m s)
include h

theorem Kept.getEquals {p : Str} {op : CompOperator}
    (hrun : s.getEquals m p op g = .ok (s', ids)) : Kept m s' := by
  obtain rfl | ⟨id, -, hstr, rfl⟩ := getEquals_cases hrun
  · exact h
  · refine { h with equal := fun p' id' hid' => ?_ }
    rcases update_eq_some hid' with ⟨rfl, rfl⟩ | hold
    · exact hstr
    · exact h.equal p' id' hold

theorem Kept.buildSortedCache (hm : m.Sorts) (hless : s.sortedCache.length < s.strings.length) :
    Kept m (SearchState.buildSortedCache m s) := by
  have hall := @buildSortedCache_perm m s h.perm hless.le
  have hlen : (SearchState.buildSortedCache m s).sortedCache.length = s.strings.length := by
    rw [hall.length_eq, length_range]
  refine ⟨h.nodup, h.equal, fun p v hv => ?_, hlen ▸ hall, le_of_eq hlen, fun htwins => ?_⟩
  · have := (h.compare p v hv).1
    omega
  · exact (sortedAll_buildSortedCache hm h.nodup htwins h.perm (h.inOrder htwins) hless).inOrder

theorem Kept.compareSorted (hall : s.strings.length ≤ s.sortedCache.length) {p : Str}
    {op : CompOperator} (hrun : s.compareSorted p op = .ok (s', ids)) : Kept m s' := by
  obtain rfl | ⟨v, hsearch, rfl⟩ := compareSorted_cases hrun
  · exact h
  · refine { h with compare := fun p' v' hv' => ?_ }
    rcases update_eq_some hv' with ⟨rfl, rfl⟩ | hold
    · exact ⟨hall, hsearch⟩
    · exact h.compare p' v' hold

theorem Kept.getCompare (hm : m.Sorts) {p : Str} {op : CompOperator}
    {ids : List Nat} (hrun : s.getCompare m p op g = .ok (s', ids)) : Kept m s' := by
  obtain rfl | hequals | ⟨hless, hsorted⟩ | ⟨hall, hsorted⟩ := getCompare_cases hrun
  · exact h
  · exact h.getEquals hequals
  · exact (h.buildSortedCache hm hless).compareSorted (length_buildSortedCache hless).ge hsorted
  · exact h.compareSorted hall hsorted

/-- The searches by patterns only fill their own caches. -/
theorem Kept.getLike {key : LikeKey} {ids : List Nat}
    (hrun : s.getLike m key g = .ok (s', ids)) : Kept m s' := by
  unfold SearchState.getLike at hrun
  split at hrun
  · obtain ⟨rfl, -⟩ := mk.inj (ok.inj hrun)
    exact h
  · split at hrun
    · cases hrun
    · obtain ⟨rfl, -⟩ := mk.inj (ok.inj hrun)
      exact ⟨h.nodup, h.equal, h.compare, h.perm, h.short, h.inOrder⟩

theorem Kept.getRegexpLike {key : RegexKey} {ids : List Nat}
    (hrun : s.getRegexpLike m key g = .ok (s', ids)) : Kept m s' := by
  unfold SearchState.getRegexpLike at hrun
  split at hrun
  · obtain ⟨rfl, -⟩ := mk.inj (ok.inj hrun)
    exact h
  · split at hrun
    · cases hrun
    · obtain ⟨rfl, -⟩ := mk.inj (ok.inj hrun)
      exact ⟨h.nodup, h.equal, h.compare, h.perm, h.short, h.inOrder⟩

theorem Kept.copyStrings : Kept m s.copyStrings.1 := by
  unfold SearchState.copyStrings
  split
  · exact h
  · exact ⟨h.nodup, h.equal, h.compare, h.perm, h.short, h.inOrder⟩

omit h in
/-- What an answer was made of. -/
theorem map_eq_ok {ε α β : Type} {x : Except ε α} {f : α → β} {b : β} (h : x.map f = .ok b) :
    ∃ a, x = .ok a ∧ f a = b := by
  cases x with
  | error e => cases h
  | ok a => exact ⟨a, rfl, ok.inj h⟩

theorem Kept.run (hm : m.Sorts) {c : SearchCall} {a : SearchAnswer}
    (hrun : c.run m s = .ok (s', a)) : Kept m s' := by
  cases c with
  | getOrAdd str =>
    obtain ⟨⟨s₁, id⟩, hcall, heq⟩ := map_eq_ok hrun
    cases heq
    exact h.getOrAdd hcall
  | getLike key generation =>
    obtain ⟨⟨s₁, ids⟩, hcall, heq⟩ := map_eq_ok hrun
    cases heq
    exact h.getLike hcall
  | getRegexpLike key generation =>
    obtain ⟨⟨s₁, ids⟩, hcall, heq⟩ := map_eq_ok hrun
    cases heq
    exact h.getRegexpLike hcall
  | getCompare pattern op generation =>
    obtain ⟨⟨s₁, ids⟩, hcall, heq⟩ := map_eq_ok hrun
    cases heq
    exact h.getCompare hm hcall
  | copyStrings =>
    cases hrun
    exact h.copyStrings

end

theorem Consulted.kept (h : Consulted m s) (hm : m.Sorts) : Kept m s := by
  induction h with
  | start hnodup => exact kept_ofStrings hnodup
  | call _ hrun ih => exact ih.run hm hrun

-- ======== one by one

variable {pattern : Str} {op : CompOperator}

section Sorted

variable {strings : List Str} {ids : List Nat} {v : CompareCacheValue}

variable (h : SortedAll strings ids)
include h

/-- The strings that the sorted ids lead to. -/
theorem SortedAll.exists_keyAt {str : Str} (hstr : str ∈ strings) :
    ∃ i < strings.length, keyAt strings ids i = str := by
  obtain ⟨id, hid⟩ := mem_iff_getElem?.mp hstr
  have hlen := (List.getElem?_eq_some_iff.mp hid).1
  obtain ⟨i, hget⟩ := mem_iff_getElem?.mp (h.perm.mem_iff.mpr (mem_range.mpr hlen))
  refine ⟨i, h.length_eq ▸ (List.getElem?_eq_some_iff.mp hget).1, ?_⟩
  unfold keyAt keyOf
  rw [hget, getD_some, hid]
  rfl

omit h in
/-- The pattern is a string if the search ends at it. -/
theorem Located.mem_iff (hv : Located strings ids pattern v) (h : SortedAll strings ids) :
    pattern ∈ strings ↔ v.diff = 0 := by
  constructor
  · intro hmem
    obtain ⟨i, hi, hkey⟩ := h.exists_keyAt hmem
    rcases hv with ⟨hdiff, -⟩ | ⟨-, -, hbelow, habove⟩ | ⟨-, -, habove⟩
    · exact hdiff
    · rcases lt_or_ge v.index i with hlt | hle
      · exact absurd (hkey ▸ habove i hlt hi) (List.lt_irrefl _)
      · exact absurd (hkey ▸ hbelow i hle) (List.lt_irrefl _)
    · exact absurd (hkey ▸ habove i hi) (List.lt_irrefl _)
  · intro hdiff
    rcases hv with ⟨-, hlen, hkey⟩ | ⟨hdiff', -⟩ | ⟨hdiff', -⟩
    · exact hkey ▸ h.keyAt_mem hlen
    · omega
    · omega

end Sorted

end Compass.Dict
