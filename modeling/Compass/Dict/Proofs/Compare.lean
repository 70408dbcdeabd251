/-
Comparisons over the sorted ids of a dictionary.

Among strings without zero twins `StringCompare` is the lexicographic order
(`stringCompare_lt`, `stringCompare_eq`). Then the merged ids are in that
order, the binary search ends at the pattern or at the last string below
it (`Located`), and each operator takes the side of the ids that it should,
but for `<=` with a pattern below all strings.
-/
import Compass.Dict.Proxy
import Compass.Dict.Proofs.Search

namespace Compass.Dict

open SearchState List Option Nat

-- ======== the order

theorem zeroTwins_cons {a : UInt8} {as bs : Str} (h : ZeroTwins as bs) :
    ZeroTwins (a :: as) (a :: bs) := by
  obtain ⟨rest, rfl | rfl⟩ := h
  · exact ⟨rest, .inl rfl⟩
  · exact ⟨rest, .inr rfl⟩

theorem toNat_pos {c : UInt8} (h : c ≠ 0) : 0 < c.toNat := by
  rcases Nat.eq_zero_or_pos c.toNat with hzero | hpos
  · exact absurd (UInt8.toNat.inj hzero) h
  · exact hpos

/-- Without twins the comparison tells the strings apart, in their order. -/
theorem stringCompare_sign (as : Str) : ∀ {bs : Str}, ¬ ZeroTwins as bs →
    (stringCompare as bs < 0 ↔ as < bs) ∧ (stringCompare as bs = 0 ↔ as = bs) := by
  induction as with
  | nil =>
    intro bs h
    cases bs with
    | nil => simp [stringCompare]
    | cons b bs =>
      have hb : b ≠ 0 := by
        intro hb
        exact h ⟨bs, .inr (by rw [hb]; rfl)⟩
      have hpos := toNat_pos hb
      have hlt : ([] : Str) < b :: bs := nil_lt_cons b bs
      simp only [stringCompare, hlt, iff_true]
      refine ⟨by omega, ⟨fun hzero => by omega, nofun⟩⟩
  | cons a as ih =>
    intro bs h
    cases bs with
    | nil =>
      have ha : a ≠ 0 := by
        intro ha
        exact h ⟨as, .inl (by rw [ha]; rfl)⟩
      have hpos := toNat_pos ha
      simp only [stringCompare, not_lt_nil, iff_false]
      refine ⟨by omega, ⟨fun hzero => by omega, nofun⟩⟩
    | cons b bs =>
      rw [cons_lt_cons_iff, cons.injEq, stringCompare]
      by_cases hab : a = b
      · subst hab
        obtain ⟨hlt, heq⟩ := ih fun htwins => h (zeroTwins_cons htwins)
        rw [if_pos rfl, hlt, heq]
        simp
      · rw [if_neg hab]
        have hne : a.toNat ≠ b.toNat := fun heq => hab (UInt8.toNat.inj heq)
        simp only [hab, false_and, or_false, iff_false, UInt8.lt_iff_toNat_lt]
        omega

section Strings

variable {strings : List Str} {pattern : Str}

/-- The string with an id. -/
def keyOf (strings : List Str) (id : Nat) : Str :=
  strings[id]?.getD []

theorem keyOf_mem {id : Nat} (h : id < strings.length) : keyOf strings id ∈ strings := by
  unfold keyOf
  rw [getElem?_eq_getElem h]
  exact getElem_mem h

theorem keyOf_inj (hnd : strings.Nodup) {a b : Nat} (ha : a < strings.length)
    (hb : b < strings.length) (h : keyOf strings a = keyOf strings b) : a = b := by
  unfold keyOf at h
  rw [getElem?_eq_getElem ha, getElem?_eq_getElem hb] at h
  exact (Nodup.getElem_inj_iff hnd).mp h

theorem idLt_iff (htwins : NoTwins strings) {a b : Nat} (ha : a < strings.length)
    (hb : b < strings.length) :
    idLt strings a b = true ↔ keyOf strings a < keyOf strings b := by
  have hsign := (stringCompare_sign _ (htwins _ (keyOf_mem ha) _ (keyOf_mem hb))).1
  rw [← hsign]
  unfold idLt stringLt keyOf
  simp

/-- Ids in the order of their strings. -/
def InOrder (strings : List Str) (ids : List Nat) : Prop :=
  ids.Pairwise fun a b => keyOf strings a < keyOf strings b

theorem mergeSortedCache_inOrder (hnd : strings.Nodup) (htwins : NoTwins strings)
    (ts ss : List Nat) : InOrder strings ts → InOrder strings ss →
      (∀ id ∈ ts ++ ss, id < strings.length) → (ts ++ ss).Nodup →
      InOrder strings (mergeSortedCache strings ts ss) := by
  induction ts, ss using mergeSortedCache.induct strings with
  | case1 ss =>
    intro _ hss _ _
    rw [mergeSortedCache]
    exact hss
  | case2 ts hts =>
    intro hts' _ _ _
    rw [mergeSortedCache]
    · exact hts'
    · exact hts
  | case3 t ts s ss hlt ih =>
    intro hts hss hlen hnodup
    rw [mergeSortedCache, if_pos hlt]
    have hts' := pairwise_cons.mp hts
    refine pairwise_cons.mpr ⟨fun id hid => ?_, ih hts'.2 hss
      (fun id hid => hlen id (by simp_all)) (nodup_cons.mp hnodup).2⟩
    rw [(mergeSortedCache_perm ts (s :: ss)).mem_iff, mem_append] at hid
    rcases hid with hid | hid
    · exact hts'.1 id hid
    · have hts_lt := (idLt_iff htwins (hlen t (by simp)) (hlen s (by simp))).mp hlt
      rcases mem_cons.mp hid with rfl | hid
      · exact hts_lt
      · exact List.lt_trans hts_lt ((pairwise_cons.mp hss).1 id hid)
  | case4 t ts s ss hlt ih =>
    intro hts hss hlen hnodup
    rw [mergeSortedCache, if_neg hlt]
    have hss' := pairwise_cons.mp hss
    have hsub : ∀ id ∈ t :: ts ++ ss, id ∈ t :: ts ++ s :: ss := by
      intro id hid
      simp only [cons_append, mem_cons, mem_append] at hid ⊢
      tauto
    have hnodup' : (t :: ts ++ ss).Nodup :=
      hnodup.sublist (Sublist.append_left (sublist_cons_self s ss) _)
    refine pairwise_cons.mpr ⟨fun id hid => ?_, ih hts hss'.2
      (fun id hid => hlen id (hsub id hid)) hnodup'⟩
    -- the first of the old ids is below the first of the new ones
    have hst : keyOf strings s < keyOf strings t := by
      have hs := hlen s (by simp)
      have ht := hlen t (by simp)
      rw [idLt_iff htwins ht hs] at hlt
      by_contra hnot
      have heq := keyOf_inj hnd hs ht
        (List.le_antisymm (List.not_lt.mp hlt) (List.not_lt.mp hnot))
      subst heq
      exact absurd hnodup (by simp)
    rw [(mergeSortedCache_perm (t :: ts) ss).mem_iff, mem_append] at hid
    rcases hid with hid | hid
    · rcases mem_cons.mp hid with rfl | hid
      · exact hst
      · exact List.lt_trans hst ((pairwise_cons.mp hts).1 id hid)
    · exact hss'.1 id hid

-- ======== the sorted ids

/-- The ids, all of them, in the order of their strings. -/
structure SortedAll (strings : List Str) (ids : List Nat) : Prop where
  nodup : strings.Nodup
  perm : ids.Perm (List.range strings.length)
  inOrder : InOrder strings ids

/-- New ids, sorted and merged with the old ones, are all of them. -/
theorem buildSortedCache_perm {m : Matching} {s : SearchState}
    (hperm : s.sortedCache.Perm (range s.sortedCache.length))
    (hle : s.sortedCache.length ≤ s.strings.length) :
    (SearchState.buildSortedCache m s).sortedCache.Perm (range s.strings.length) := by
  set new := range' s.sortedCache.length (s.strings.length - s.sortedCache.length) with hnew
  have hrange : range s.strings.length = range s.sortedCache.length ++ new := by
    have happend := @range'_append_1 0 s.sortedCache.length
      (s.strings.length - s.sortedCache.length)
    rw [zero_add, add_sub_of_le hle] at happend
    rw [range_eq_range', range_eq_range', ← happend]
  have happend : (m.sort (idLt s.strings) new ++ s.sortedCache).Perm
      (range s.strings.length) := by
    rw [hrange]
    exact perm_append_comm.trans (hperm.append (m.sort_perm (idLt s.strings) new))
  exact (mergeSortedCache_perm _ _).trans happend

/-- Among strings without twins they are in order. -/
theorem sortedAll_buildSortedCache {m : Matching} {s : SearchState} (hm : m.Sorts)
    (hnodup : s.strings.Nodup) (htwins : NoTwins s.strings)
    (hperm : s.sortedCache.Perm (List.range s.sortedCache.length))
    (hinOrder : InOrder s.strings s.sortedCache) (hless : s.sortedCache.length < s.strings.length) :
    SortedAll s.strings (SearchState.buildSortedCache m s).sortedCache := by
  have hall := @buildSortedCache_perm m s hperm hless.le
  refine ⟨hnodup, hall, ?_⟩
  set new := List.range' s.sortedCache.length (s.strings.length - s.sortedCache.length) with hnew
  have hnew_lt : ∀ id ∈ new, id < s.strings.length := by
    intro id hid
    have := mem_range'_1.mp hid
    omega
  have hnewPerm := m.sort_perm (idLt s.strings) new
  have hsorted : InOrder s.strings (m.sort (idLt s.strings) new) := by
    have hle := hm (keyOf s.strings) (idLt s.strings) new fun a ha b hb =>
      idLt_iff htwins (hnew_lt a ha) (hnew_lt b hb)
    have hnodup' : (m.sort (idLt s.strings) new).Nodup :=
      hnewPerm.nodup_iff.mpr nodup_range'
    refine (hle.and hnodup').imp_of_mem fun ha hb hab => ?_
    by_contra hnot
    exact hab.2 (keyOf_inj hnodup (hnew_lt _ (hnewPerm.mem_iff.mp ha))
      (hnew_lt _ (hnewPerm.mem_iff.mp hb)) (List.le_antisymm hab.1 (List.not_lt.mp hnot)))
  have happend : (m.sort (idLt s.strings) new ++ s.sortedCache).Perm
      (List.range s.strings.length) := (mergeSortedCache_perm _ _).symm.trans hall
  exact mergeSortedCache_inOrder hnodup htwins _ _ hsorted hinOrder
    (fun id hid => mem_range.mp (happend.mem_iff.mp hid))
    (happend.nodup_iff.mpr nodup_range)

-- ======== the binary search

/-- The string at a place of the sorted ids. -/
def keyAt (strings : List Str) (ids : List Nat) (i : Nat) : Str :=
  keyOf strings (ids[i]?.getD 0)

variable {ids : List Nat}

section

variable (h : SortedAll strings ids)
include h

theorem SortedAll.length_eq : ids.length = strings.length := by
  rw [h.perm.length_eq, length_range]

theorem SortedAll.lt_length {id : Nat} (hid : id ∈ ids) : id < strings.length :=
  mem_range.mp (h.perm.mem_iff.mp hid)

theorem SortedAll.keyAt_mem {i : Nat} (hi : i < strings.length) :
    keyAt strings ids i ∈ strings := by
  have hlt : i < ids.length := h.length_eq ▸ hi
  unfold keyAt
  rw [getElem?_eq_getElem hlt]
  exact keyOf_mem (h.lt_length (getElem_mem hlt))

theorem SortedAll.keyAt_lt {i j : Nat} (hij : i < j)
    (hj : j < strings.length) : keyAt strings ids i < keyAt strings ids j := by
  have hj' : j < ids.length := h.length_eq ▸ hj
  have hi' : i < ids.length := lt_trans hij hj'
  unfold keyAt
  rw [getElem?_eq_getElem hi', getElem?_eq_getElem hj']
  exact pairwise_iff_getElem.mp h.inOrder i j hi' hj' hij

theorem SortedAll.compareAt_eq {i : Nat} (hi : i < strings.length) :
    compareAt strings ids pattern i = .ok (stringCompare (keyAt strings ids i) pattern) := by
  have hlt : i < ids.length := h.length_eq ▸ hi
  have hid := h.lt_length (getElem_mem hlt)
  unfold compareAt keyAt keyOf
  rw [getElem?_eq_getElem hlt]
  simp only [bind_some, getD_some]
  rw [getElem?_eq_getElem hid]
  rfl

end

/-- The strings before a place are below the pattern, those after it
above. -/
structure Between (strings : List Str) (ids : List Nat) (pattern : Str) (start stop : Int) :
    Prop where
  below : ∀ i : Nat, (i : Int) < start → keyAt strings ids i < pattern
  above : ∀ i : Nat, stop < i → i < strings.length → pattern < keyAt strings ids i

theorem binarySearch_spec (h : SortedAll strings ids) (htwins : NoTwins (pattern :: strings))
    (fuel : Nat) : ∀ {start stop : Int}, Between strings ids pattern start stop → 0 ≤ start →
      start ≤ stop + 1 → start < strings.length → stop < strings.length → stop + 1 - start < fuel →
      ∃ found last, binarySearch strings ids pattern fuel start stop = .ok (found, last)
        ∧ ((∃ mid, found = some mid ∧ mid < strings.length ∧ keyAt strings ids mid = pattern)
          ∨ (found = none ∧ 0 ≤ last ∧ last < strings.length
            ∧ Between strings ids pattern last last)) := by
  induction fuel with
  | zero =>
    intro start stop _ _ hle _ _ hfuel
    omega
  | succ fuel ih =>
    intro start stop hbetween hstart hle hlt hstop hfuel
    rw [binarySearch]
    split
    · rename_i hrun
      set mid := start + (stop - start) / 2 with hmid
      have hmid_lo : start ≤ mid := by omega
      have hmid_hi : mid < stop := by omega
      have hmid_len : mid.toNat < strings.length := by omega
      have hsign := stringCompare_sign (keyAt strings ids mid.toNat)
        (htwins _ (mem_cons_of_mem _ (h.keyAt_mem hmid_len)) pattern mem_cons_self)
      dsimp only
      rw [h.compareAt_eq hmid_len]
      dsimp only
      split
      · rename_i hzero
        exact ⟨_, _, rfl, .inl ⟨_, rfl, hmid_len, hsign.2.mp hzero⟩⟩
      · rename_i hne
        split
        · rename_i hneg
          have hlow := hsign.1.mp hneg
          refine ih ⟨fun i hi => ?_, hbetween.above⟩ (by omega) (by omega) (by omega) hstop
            (by omega)
          rcases lt_or_ge i mid.toNat with hlt' | hge
          · exact List.lt_trans (h.keyAt_lt hlt' hmid_len) hlow
          · have heq : i = mid.toNat := by omega
            exact heq ▸ hlow
        · rename_i hnonneg
          have hhigh : pattern < keyAt strings ids mid.toNat := by
            by_contra hnot
            have hle' := List.not_lt.mp (fun hlt' => hnonneg (hsign.1.mpr hlt'))
            exact hne (hsign.2.mpr (List.le_antisymm (List.not_lt.mp hnot) hle'))
          refine ih ⟨hbetween.below, fun i hi hi' => ?_⟩ hstart (by omega) hlt (by omega)
            (by omega)
          rcases lt_or_ge mid.toNat i with hlt' | hge
          · exact List.lt_trans hhigh (h.keyAt_lt hlt' hi')
          · have heq : i = mid.toNat := by omega
            exact heq ▸ hhigh
    · rename_i hend
      refine ⟨none, start, rfl, .inr ⟨rfl, hstart, hlt, hbetween.below, fun i hi hi' => ?_⟩⟩
      exact hbetween.above i (by omega) hi'

/-- The search ends at the pattern, at the last string below it, or at the
first string, which is above it. -/
def Located (strings : List Str) (ids : List Nat) (pattern : Str) (v : CompareCacheValue) : Prop :=
  (v.diff = 0 ∧ v.index < strings.length ∧ keyAt strings ids v.index = pattern)
    ∨ (v.diff < 0 ∧ v.index < strings.length
      ∧ (∀ i ≤ v.index, keyAt strings ids i < pattern)
      ∧ ∀ i, v.index < i → i < strings.length → pattern < keyAt strings ids i)
    ∨ (0 < v.diff ∧ v.index = 0 ∧ ∀ i < strings.length, pattern < keyAt strings ids i)

theorem binarySearchCache_spec (h : SortedAll strings ids)
    (htwins : NoTwins (pattern :: strings)) (hpos : 0 < strings.length) :
    ∃ v, binarySearchCache strings ids pattern = .ok v ∧ Located strings ids pattern v := by
  have hstart : Between strings ids pattern 0 (strings.length - 1) :=
    ⟨fun i hi => by omega, fun i hi hi' => by omega⟩
  obtain ⟨found, last, hrun, hspec⟩ := binarySearch_spec h htwins (strings.length + 1) hstart
    (le_refl 0) (by omega) (by omega) (by omega) (by omega)
  unfold binarySearchCache
  rw [hrun]
  rcases hspec with ⟨mid, rfl, hmid, hkey⟩ | ⟨rfl, hlast, hlen, hbelow, habove⟩
  · exact ⟨⟨mid, 0⟩, rfl, .inl ⟨rfl, hmid, hkey⟩⟩
  · have hlen' : last.toNat < strings.length := by omega
    have hsign := stringCompare_sign (keyAt strings ids last.toNat)
      (htwins _ (mem_cons_of_mem _ (h.keyAt_mem hlen')) pattern mem_cons_self)
    have habove' : ∀ i, last.toNat < i → i < strings.length → pattern < keyAt strings ids i :=
      fun i hi hi' => habove i (by omega) hi'
    dsimp only [bind, Except.bind]
    rw [h.compareAt_eq hlen']
    dsimp only
    split
    · -- the string before is below, as all of them are
      rename_i hcond
      have hprev : last.toNat - 1 < strings.length := by omega
      have hlow : keyAt strings ids (last.toNat - 1) < pattern := hbelow _ (by omega)
      have hneg := (stringCompare_sign (keyAt strings ids (last.toNat - 1))
        (htwins _ (mem_cons_of_mem _ (h.keyAt_mem hprev)) pattern
          mem_cons_self)).1.mpr hlow
      rw [h.compareAt_eq hprev]
      dsimp only
      rw [if_pos hneg]
      refine ⟨_, rfl, .inr (.inl ⟨hneg, hprev, fun i hi => hbelow i (by dsimp only at hi; omega),
        fun i hi hi' => ?_⟩)⟩
      dsimp only at hi
      rcases Nat.lt_or_ge last.toNat i with hlt | hge
      · exact habove' i hlt hi'
      · have heq : i = last.toNat := by omega
        rw [heq]
        by_contra hnot
        have hnonneg : ¬ keyAt strings ids last.toNat < pattern := fun hlt => by
          have := hsign.1.mpr hlt
          omega
        have hzero := hsign.2.mpr (List.le_antisymm (List.not_lt.mp hnot) (List.not_lt.mp hnonneg))
        omega
    · rename_i hcond
      refine ⟨_, rfl, ?_⟩
      rcases lt_trichotomy (stringCompare (keyAt strings ids last.toNat) pattern) 0 with
        hneg | hzero | hpos'
      · refine .inr (.inl ⟨hneg, hlen', fun i hi => ?_, habove'⟩)
        dsimp only at hi
        rcases Nat.lt_or_ge i last.toNat with hlt | hge
        · exact hbelow i (by omega)
        · have heq : i = last.toNat := by omega
          exact heq ▸ hsign.1.mp hneg
      · exact .inl ⟨hzero, hlen', hsign.2.mp hzero⟩
      · have hzero : last = 0 := by omega
        subst hzero
        refine .inr (.inr ⟨hpos', rfl, fun i hi => ?_⟩)
        rcases Nat.eq_zero_or_pos i with rfl | hi'
        · by_contra hnot
          have hnonneg : ¬ keyAt strings ids 0 < pattern := fun hlt => by
            have := hsign.1.mpr hlt
            omega
          have heq := hsign.2.mpr
            (List.le_antisymm (List.not_lt.mp hnot) (List.not_lt.mp hnonneg))
          omega
        · exact habove' i hi' hi

-- ======== the operators

/-- A part of the sorted ids is what a property of the strings says. -/
theorem SortedAll.mem_iff (h : SortedAll strings ids) {P : Str → Prop} {part : List Nat}
    {at_ : Nat → Prop} (hpart : ∀ id, id ∈ part ↔ ∃ i, at_ i ∧ ids[i]? = some id)
    (hat : ∀ i < strings.length, at_ i ↔ P (keyAt strings ids i)) (id : Nat) :
    id ∈ part ↔ id < strings.length ∧ P (keyOf strings id) := by
  have hkey : ∀ i, ids[i]? = some id → keyAt strings ids i = keyOf strings id := by
    intro i hi
    unfold keyAt
    rw [hi]
    rfl
  rw [hpart]
  constructor
  · rintro ⟨i, hi, hget⟩
    have hlt : i < strings.length := h.length_eq ▸ (List.getElem?_eq_some_iff.mp hget).1
    refine ⟨h.lt_length (mem_of_getElem? hget), ?_⟩
    rw [← hkey i hget]
    exact (hat i hlt).mp hi
  · rintro ⟨hid, hP⟩
    have hmem : id ∈ ids := h.perm.mem_iff.mpr (mem_range.mpr hid)
    obtain ⟨i, hget⟩ := mem_iff_getElem?.mp hmem
    have hlt : i < strings.length := h.length_eq ▸ (List.getElem?_eq_some_iff.mp hget).1
    rw [← hkey i hget] at hP
    exact ⟨i, (hat i hlt).mpr hP, hget⟩

theorem mem_take_iff (k id : Nat) : id ∈ ids.take k ↔ ∃ i, i < k ∧ ids[i]? = some id := by
  rw [mem_iff_getElem?]
  constructor
  · rintro ⟨i, hi⟩
    rw [getElem?_take] at hi
    split at hi
    · exact ⟨i, ‹_›, hi⟩
    · cases hi
  · rintro ⟨i, hlt, hi⟩
    exact ⟨i, by rw [getElem?_take, if_pos hlt, hi]⟩

theorem mem_drop_iff (k id : Nat) : id ∈ ids.drop k ↔ ∃ i, k ≤ i ∧ ids[i]? = some id := by
  rw [mem_iff_getElem?]
  constructor
  · rintro ⟨i, hi⟩
    rw [getElem?_drop] at hi
    exact ⟨k + i, by omega, hi⟩
  · rintro ⟨i, hle, hi⟩
    exact ⟨i - k, by rw [getElem?_drop, add_sub_of_le hle, hi]⟩

/-- The places of the strings below, at and above the pattern. -/
structure Cut (strings : List Str) (ids : List Nat) (pattern : Str) (lo hi : Nat) : Prop where
  le : lo ≤ hi
  below : ∀ i < lo, keyAt strings ids i < pattern
  same : ∀ i, lo ≤ i → i < hi → keyAt strings ids i = pattern
  above : ∀ i, hi ≤ i → i < strings.length → pattern < keyAt strings ids i

section

variable {lo hi i : Nat} (h : Cut strings ids pattern lo hi)
include h

theorem Cut.lt_iff (hi' : i < strings.length) : i < lo ↔ keyAt strings ids i < pattern := by
  constructor
  · exact h.below i
  · intro hlt
    by_contra hnot
    rcases lt_or_ge i hi with hsame | habove
    · rw [h.same i (by omega) hsame] at hlt
      exact List.lt_irrefl _ hlt
    · exact List.lt_asymm hlt (h.above i habove hi')

theorem Cut.gt_iff (hi' : i < strings.length) : hi ≤ i ↔ pattern < keyAt strings ids i := by
  constructor
  · exact fun hle => h.above i hle hi'
  · intro hlt
    by_contra hnot
    rcases lt_or_ge i lo with hbelow | hsame
    · exact List.lt_asymm hlt (h.below i hbelow)
    · rw [h.same i hsame (by omega)] at hlt
      exact List.lt_irrefl _ hlt

omit h in
/-- Where the search ended, as a cut. -/
theorem Located.cut {v : CompareCacheValue} (h : Located strings ids pattern v)
    (hs : SortedAll strings ids) :
    Cut strings ids pattern (if v.diff = 0 then v.index else if v.index = 0 ∧ v.diff > 0
        then v.index else v.index + 1)
      (if v.index = 0 ∧ v.diff > 0 then v.index else v.index + 1) := by
  rcases h with ⟨hdiff, hlen, hkey⟩ | ⟨hdiff, hlen, hbelow, habove⟩ | ⟨hdiff, hzero, habove⟩
  · rw [if_pos hdiff, if_neg (by omega)]
    refine ⟨by omega, fun i hi => ?_, fun i hle hi => ?_, fun i hi hi' => ?_⟩
    · exact hkey ▸ hs.keyAt_lt hi hlen
    · have heq : i = v.index := by omega
      exact heq ▸ hkey
    · exact hkey ▸ hs.keyAt_lt (by omega : v.index < i) hi'
  · rw [if_neg (by omega), if_neg (by omega)]
    exact ⟨le_refl _, fun i hi => hbelow i (by omega), fun i hle hi => by omega,
      fun i hi hi' => habove i (by omega) hi'⟩
  · rw [if_neg (by omega), if_pos ⟨hzero, hdiff⟩]
    exact ⟨le_refl _, fun i hi => by omega, fun i hle hi => by omega, fun i _ hi' => habove i hi'⟩

theorem Cut.eq_iff (hi' : i < strings.length) :
    (lo ≤ i ∧ i < hi) ↔ keyAt strings ids i = pattern := by
  constructor
  · exact fun hat => h.same i hat.1 hat.2
  · intro heq
    have hlt := h.lt_iff hi'
    have hgt := h.gt_iff hi'
    rw [heq] at hlt hgt
    have hirrefl := List.lt_irrefl pattern
    exact ⟨not_lt.mp fun hlo => hirrefl (hlt.mp hlo), not_le.mp fun hge => hirrefl (hgt.mp hge)⟩

end

theorem mem_compareIds (h : SortedAll strings ids) {v : CompareCacheValue}
    (hv : Located strings ids pattern v) {op : CompOperator} (hop : op ≠ .unsupported)
    (hle : op = .le → ∃ str ∈ strings, str ≤ pattern) (id : Nat) :
    id ∈ compareIds ids op v ↔ id < strings.length
      ∧ doCompare (keyOf strings id) pattern op = .ok true := by
  have hcut := hv.cut h
  set lo := if v.diff = 0 then v.index else if v.index = 0 ∧ v.diff > 0 then v.index
    else v.index + 1 with hlo
  set hi := if v.index = 0 ∧ v.diff > 0 then v.index else v.index + 1 with hhi
  unfold compareIds doCompare
  rw [← hlo, ← hhi]
  cases op with
  | lt =>
    rw [h.mem_iff (P := fun s => s < pattern) (mem_take_iff lo) fun i hi' => hcut.lt_iff hi']
    simp
  | gt =>
    rw [h.mem_iff (P := fun s => pattern < s) (mem_drop_iff hi) fun i hi' => hcut.gt_iff hi']
    simp
  | ge =>
    rw [h.mem_iff (P := fun s => pattern ≤ s) (mem_drop_iff lo) fun i hi' => by
      rw [← List.not_lt, ← hcut.lt_iff hi', not_lt]]
    simp
  | le =>
    -- the pattern is not below all strings
    have hnot : ¬ (v.index = 0 ∧ v.diff > 0) := by
      intro hfirst
      obtain ⟨str, hmem, hstr⟩ := hle rfl
      obtain ⟨n, hn⟩ := mem_iff_getElem?.mp hmem
      have hlen := (List.getElem?_eq_some_iff.mp hn).1
      obtain ⟨i, hget⟩ := mem_iff_getElem?.mp
        (h.perm.mem_iff.mpr (mem_range.mpr hlen))
      have hkey : keyAt strings ids i = str := by
        unfold keyAt keyOf
        rw [hget, getD_some, hn]
        rfl
      have hi' : i < strings.length := h.length_eq ▸ (List.getElem?_eq_some_iff.mp hget).1
      have habove := (hcut.gt_iff hi').mp (by rw [hhi, if_pos hfirst]; omega)
      exact List.not_lt.mpr hstr (hkey ▸ habove)
    rw [h.mem_iff (P := fun s => s ≤ pattern) (mem_take_iff (v.index + 1)) fun i hi' => by
      rw [← List.not_lt, ← hcut.gt_iff hi', hhi, if_neg hnot, not_le]]
    simp
  | eq =>
    have hpart : ∀ id, id ∈ (if v.diff = 0 then [ids[v.index]?.getD 0] else [])
        ↔ ∃ i, (lo ≤ i ∧ i < hi) ∧ ids[i]? = some id := by
      intro id
      by_cases hdiff : v.diff = 0
      · have hlen : v.index < ids.length := by
          rw [h.length_eq]
          rcases hv with hv | hv | hv <;> omega
        have hlo' : lo = v.index := if_pos hdiff
        have hhi' : hi = v.index + 1 := if_neg (by omega)
        rw [if_pos hdiff, mem_singleton, getElem?_eq_getElem hlen, getD_some]
        constructor
        · rintro rfl
          exact ⟨v.index, by omega, getElem?_eq_getElem hlen⟩
        · rintro ⟨i, hat, hget⟩
          have heq : i = v.index := by omega
          rw [heq, getElem?_eq_getElem hlen, some.injEq] at hget
          exact hget.symm
      · have hsame : lo = hi := if_neg hdiff
        rw [if_neg hdiff]
        refine ⟨nofun, ?_⟩
        rintro ⟨i, hat, -⟩
        omega
    rw [h.mem_iff (P := fun s => s = pattern) hpart fun i hi' => hcut.eq_iff hi']
    simp
  | ne =>
    have hpart : ∀ id, id ∈ (if v.diff = 0 then ids.take v.index ++ ids.drop (v.index + 1)
          else (List.replicate ids.length ids).flatten)
        ↔ ∃ i, ¬ (lo ≤ i ∧ i < hi) ∧ ids[i]? = some id := by
      intro id
      by_cases hdiff : v.diff = 0
      · have hlo' : lo = v.index := if_pos hdiff
        have hhi' : hi = v.index + 1 := if_neg (by omega)
        rw [if_pos hdiff, mem_append, mem_take_iff, mem_drop_iff, ← exists_or]
        refine exists_congr fun i => ?_
        rw [← or_and_right, hlo', hhi']
        refine and_congr_left fun _ => ?_
        omega
      · have hsame : lo = hi := if_neg hdiff
        rw [if_neg hdiff, mem_flatten, hsame]
        constructor
        · rintro ⟨l, hl, hmem⟩
          rw [eq_of_mem_replicate hl] at hmem
          obtain ⟨i, hget⟩ := mem_iff_getElem?.mp hmem
          exact ⟨i, by omega, hget⟩
        · rintro ⟨i, -, hget⟩
          have hmem := mem_of_getElem? hget
          have hpos : ids.length ≠ 0 := fun hzero => by
            rw [length_eq_zero_iff.mp hzero] at hmem
            cases hmem
          exact ⟨ids, mem_replicate.mpr ⟨hpos, rfl⟩, hmem⟩
    rw [h.mem_iff (P := fun s => ¬ s = pattern) hpart fun i hi' =>
      not_congr (hcut.eq_iff hi')]
    simp
  | unsupported => exact absurd rfl hop

end Strings

end Compass.Dict
