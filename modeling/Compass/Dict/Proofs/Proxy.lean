/-
Transient ids through whole runs.

The searches of a dictionary that all come from one proxy are made with one
generation, so the caches hold what a search would find again
(`OneGeneration`). A string has its persistent id for ever, since the
dictionary only grows behind the generation, and a transient string never
gets one; the two maps of the proxy mirror each other (`ProxyInv`).
-/
import Compass.Dict.Proofs.Compare

namespace Compass.Dict

open Intern SearchState List Except Prod

variable {m : Matching} {g : Nat} {s : SearchState}

-- ======== the dictionary

/-- All searches so far were made with the generation `g`. -/
structure OneGeneration (m : Matching) (g : Nat) (s : SearchState) : Prop where
  nodup : s.strings.Nodup
  gen : g ≤ s.strings.length
  like : ∀ key ids, s.likeCache key = some ids →
    ids = found m.cpuThreads s.strings (m.isLike · key) g
  equal : ∀ p id, s.equalCache p = some id → s.strings[id]? = some p ∧ id < g
  compare : ∀ p v, s.compareCache p = some v → s.strings.length ≤ s.sortedCache.length
    ∧ binarySearchCache s.strings s.sortedCache p = .ok v
  perm : s.sortedCache.Perm (List.range s.sortedCache.length)
  short : s.sortedCache.length ≤ s.strings.length
  inOrder : InOrder s.strings s.sortedCache

theorem oneGeneration_ofStrings {ss : List Str} (h : ss.Nodup) (hg : g ≤ ss.length) :
    OneGeneration m g (ofStrings ss) :=
  ⟨h, hg, nofun, nofun, nofun, .refl _, Nat.zero_le _, Pairwise.nil⟩

theorem keyOf_append {strings : List Str} {id : Nat} (h : id < strings.length) (str : Str) :
    keyOf (strings ++ [str]) id = keyOf strings id := by
  unfold keyOf
  rw [getElem?_append_left h]

theorem InOrder.append {strings : List Str} {ids : List Nat} (h : InOrder strings ids)
    (hlt : ∀ id ∈ ids, id < strings.length) (str : Str) : InOrder (strings ++ [str]) ids := by
  refine h.imp_of_mem fun ha hb hab => ?_
  rw [keyOf_append (hlt _ ha), keyOf_append (hlt _ hb)]
  exact hab

section

variable (h : OneGeneration m g s)
include h

theorem OneGeneration.getOrAdd {str : Str} {s' : SearchState} {id : Int}
    (hrun : s.getOrAdd str = .ok (s', id)) :
    OneGeneration m g s' ∧ s.strings <+: s'.strings := by
  obtain rfl | ⟨hnew, rfl⟩ := getOrAdd_cases hrun
  · exact ⟨h, prefix_refl _⟩
  · have hlt : ∀ id ∈ s.sortedCache, id < s.strings.length := fun id hid =>
      Nat.lt_of_lt_of_le (mem_range.mp (h.perm.mem_iff.mp hid)) h.short
    refine ⟨⟨?_, ?_, nofun, nofun, nofun, h.perm, ?_, h.inOrder.append hlt str⟩, prefix_append _ _⟩
    · show (s.strings ++ [str]).Nodup
      rw [← intern_of_not_mem hnew]
      exact nodup_intern h.nodup
    · show g ≤ (s.strings ++ [str]).length
      rw [length_append]
      exact Nat.le_add_right_of_le h.gen
    · show s.sortedCache.length ≤ (s.strings ++ [str]).length
      rw [length_append]
      exact Nat.le_add_right_of_le h.short

theorem OneGeneration.getLike (key : LikeKey) :
    ∃ s', s.getLike m key g = .ok (s', found m.cpuThreads s.strings (m.isLike · key) g)
      ∧ OneGeneration m g s' ∧ s'.strings = s.strings := by
  unfold SearchState.getLike
  cases hcache : s.likeCache key with
  | some ids =>
    rw [h.like key ids hcache]
    exact ⟨s, rfl, h, rfl⟩
  | none =>
    rw [search_eq h.gen]
    refine ⟨_, rfl, { h with like := ?_ }, rfl⟩
    intro key' ids hids
    rcases update_eq_some hids with ⟨rfl, rfl⟩ | hold
    · rfl
    · exact h.like key' ids hold

theorem OneGeneration.getEquals_ok {p : Str} {op : CompOperator}
    {s' : SearchState} {ids : List Nat} (hrun : s.getEquals m p op g = .ok (s', ids)) :
    OneGeneration m g s' ∧ s'.strings = s.strings := by
  obtain rfl | ⟨id, hlt, hstr, rfl⟩ := getEquals_cases hrun
  · exact ⟨h, rfl⟩
  · refine ⟨{ h with equal := fun p' id' hid' => ?_ }, rfl⟩
    rcases update_eq_some hid' with ⟨rfl, rfl⟩ | hold
    · exact ⟨hstr, hlt⟩
    · exact h.equal p' id' hold

/-- Equality, while the sorted ids are incomplete. -/
theorem OneGeneration.getEquals (p : Str) :
    ∃ s', s.getEquals m p .eq g = .ok (s', found m.cpuThreads s.strings (· = p) g) := by
  unfold SearchState.getEquals
  cases hcache : s.equalCache p with
  | some eqId =>
    obtain ⟨hstr, hlt⟩ := h.equal p eqId hcache
    have hfound := found_string (g := g) m.cpuThreads_pos h.nodup hstr
    rw [if_pos hlt] at hfound
    dsimp only
    rw [if_pos rfl, hfound]
    exact ⟨s, rfl⟩
  | none =>
    rw [search_eq h.gen]
    exact ⟨_, rfl⟩

-- ======== the sorted ids

/-- New ids, sorted and merged with the old ones. -/
theorem OneGeneration.buildSortedCache (hm : m.Sorts)
    (htwins : NoTwins s.strings) (hless : s.sortedCache.length < s.strings.length) :
    OneGeneration m g (SearchState.buildSortedCache m s)
      ∧ SortedAll s.strings (SearchState.buildSortedCache m s).sortedCache := by
  have hall := sortedAll_buildSortedCache hm h.nodup htwins h.perm h.inOrder hless
  refine ⟨?_, hall⟩
  have hlen := hall.length_eq
  refine ⟨h.nodup, h.gen, h.like, h.equal, ?_, ?_, ?_, hall.inOrder⟩
  · intro p v hv
    have := (h.compare p v hv).1
    omega
  · rw [hlen]
    exact hall.perm
  · rw [hlen]
    exact le_refl _

end

variable {op : CompOperator}

/-- What a comparison over all the sorted ids finds. -/
theorem OneGeneration.compareSorted (h : OneGeneration m g s)
    (hall : SortedAll s.strings s.sortedCache) {p : Str} (htwins : NoTwins (p :: s.strings))
    (hpos : 0 < s.strings.length) (hop : op ≠ .unsupported)
    (hle : op = .le → ∃ str ∈ s.strings, str ≤ p) :
    ∃ s' ids, s.compareSorted p op = .ok (s', ids) ∧ OneGeneration m g s'
      ∧ s'.strings = s.strings
      ∧ ∀ id, id ∈ ids ↔ id < s.strings.length
        ∧ doCompare (keyOf s.strings id) p op = .ok true := by
  obtain ⟨v, hsearch, hv⟩ := binarySearchCache_spec hall htwins hpos
  unfold SearchState.compareSorted
  cases hcache : s.compareCache p with
  | some v' =>
    have heq : v' = v := ok.inj ((h.compare p v' hcache).2.symm.trans hsearch)
    subst heq
    exact ⟨s, _, rfl, h, rfl, mem_compareIds hall hv hop hle⟩
  | none =>
    rw [hsearch]
    refine ⟨_, _, rfl, { h with compare := ?_ }, rfl, mem_compareIds hall hv hop hle⟩
    intro p' v' hv'
    rcases update_eq_some hv' with ⟨rfl, rfl⟩ | hold
    · exact ⟨hall.length_eq.symm.le, hsearch⟩
    · exact h.compare p' v' hold

-- ======== comparisons

/-- The strings of a dictionary that a comparison is true of. -/
def Compared (g : Nat) (s : SearchState) (p : Str) (op : CompOperator) (ids : List Nat) : Prop :=
  ∀ id, id ∈ ids ↔ id < g ∧ ∃ str, s.strings[id]? = some str ∧ doCompare str p op = .ok true

/-- All ids that a comparison is true of are below the generation. -/
theorem compared_of_sorted (hg : g ≤ s.strings.length) {p : Str} {ids : List Nat}
    (hbelow : ∀ id str, s.strings[id]? = some str → doCompare str p op = .ok true → id < g)
    (hids : ∀ id, id ∈ ids ↔ id < s.strings.length
      ∧ doCompare (keyOf s.strings id) p op = .ok true) : Compared g s p op ids := by
  intro id
  rw [hids]
  constructor
  · rintro ⟨hlt, hcompare⟩
    unfold keyOf at hcompare
    rw [getElem?_eq_getElem hlt] at hcompare
    have hget := getElem?_eq_getElem hlt
    exact ⟨hbelow id _ hget hcompare, _, hget, hcompare⟩
  · rintro ⟨hlt, str, hget, hcompare⟩
    refine ⟨by omega, ?_⟩
    unfold keyOf
    rw [hget]
    exact hcompare

theorem OneGeneration.getCompare (h : OneGeneration m g s) (hm : m.Sorts) {p : Str}
    {op : CompOperator} (hop : op ≠ .unsupported)
    (hsafe : s.strings = [] ∨ (op = .eq ∧ s.sortedCache.length < s.strings.length)
      ∨ (¬ (op = .ne ∧ s.sortedCache.length < s.strings.length) ∧ NoTwins (p :: s.strings)
        ∧ (∀ id str, s.strings[id]? = some str → doCompare str p op = .ok true → id < g)
        ∧ (op = .le → ∃ str ∈ s.strings, str ≤ p))) :
    ∃ s' ids, s.getCompare m p op g = .ok (s', ids) ∧ OneGeneration m g s'
      ∧ s'.strings = s.strings ∧ Compared g s p op ids := by
  unfold SearchState.getCompare
  by_cases hempty : s.strings = []
  · rw [if_pos (by rw [hempty]; rfl)]
    refine ⟨s, [], rfl, h, rfl, fun id => ?_⟩
    rw [hempty]
    simp
  · have hpos : 0 < s.strings.length := length_pos_iff.mpr hempty
    rw [if_neg (by omega)]
    -- equality, searched for one by one
    have hequals : op = .eq → s.sortedCache.length < s.strings.length →
        ∃ s' ids, s.getEquals m p op g = .ok (s', ids) ∧ OneGeneration m g s'
          ∧ s'.strings = s.strings ∧ Compared g s p op ids := by
      rintro rfl -
      obtain ⟨s', hrun⟩ := h.getEquals p
      obtain ⟨hs', hstrings⟩ := h.getEquals_ok hrun
      refine ⟨s', _, hrun, hs', hstrings, fun id => ?_⟩
      rw [mem_found m.cpuThreads_pos, Option.any_eq_true]
      simp [doCompare]
    by_cases hless : s.sortedCache.length < s.strings.length
    · rw [if_pos hless]
      by_cases heq : op = .eq
      · rw [if_pos (.inl heq)]
        exact hequals heq hless
      · rcases hsafe with hnil | ⟨heq', -⟩ | ⟨hne, htwins, hbelow, hle⟩
        · exact absurd hnil hempty
        · exact absurd heq' heq
        · have hnot : ¬ (op = .eq ∨ op = .ne) := by
            rintro (heq' | hne')
            · exact heq heq'
            · exact hne ⟨hne', hless⟩
          rw [if_neg hnot]
          have htwins' : NoTwins s.strings := fun a ha b hb =>
            htwins a (mem_cons_of_mem _ ha) b (mem_cons_of_mem _ hb)
          obtain ⟨hbuilt, hall⟩ := h.buildSortedCache hm htwins' hless
          obtain ⟨s', ids, hrun, hs', hstrings, hids⟩ :=
            hbuilt.compareSorted hall htwins hpos hop hle
          exact ⟨s', ids, hrun, hs', hstrings, compared_of_sorted h.gen hbelow hids⟩
    · rw [if_neg hless]
      have hlen : s.sortedCache.length = s.strings.length := by
        have := h.short
        omega
      have hall : SortedAll s.strings s.sortedCache := ⟨h.nodup, hlen ▸ h.perm, h.inOrder⟩
      rcases hsafe with hnil | ⟨-, hless'⟩ | ⟨-, htwins, hbelow, hle⟩
      · exact absurd hnil hempty
      · exact absurd hless' hless
      · obtain ⟨s', ids, hrun, hs', hstrings, hids⟩ :=
          h.compareSorted hall htwins hpos hop hle
        exact ⟨s', ids, hrun, hs', hstrings, compared_of_sorted h.gen hbelow hids⟩

-- ======== the proxy

/-- The two maps say the same, about strings that the dictionary does not
have below the generation, with the ids from `-2` down. -/
structure ProxyInv (m : Matching) (p : StringDictionaryProxy) : Prop where
  dict : OneGeneration m p.generation p.stringDict
  strKeys : (p.transientStrToInt.map Prod.fst).Nodup
  intKeys : (p.transientIntToStr.map Prod.fst).Nodup
  mirror : ∀ str id, (str, id) ∈ p.transientStrToInt ↔ (id, str) ∈ p.transientIntToStr
  ids : ∀ str id, (str, id) ∈ p.transientStrToInt →
    id ≤ -2 ∧ -(p.transientStrToInt.length + 1) ≤ id
  absent : ∀ str id, (str, id) ∈ p.transientStrToInt → p.persistentId str = invalidStrId

section Persistent

variable {p p' : StringDictionaryProxy}

theorem persistentId_of_getElem? (hnd : p.stringDict.strings.Nodup) {str : Str} {n : Nat}
    (hlt : n < p.generation) (hn : p.stringDict.strings[n]? = some str) :
    p.persistentId str = n := by
  obtain ⟨hlen, hget⟩ := List.getElem?_eq_some_iff.mp hn
  have hidx : p.stringDict.strings.idxOf str = n := by
    rw [← hget]
    exact hnd.idxOf_getElem n hlen
  unfold StringDictionaryProxy.persistentId SearchState.getIdOfString truncateToGeneration
  rw [if_pos (contains_iff_mem.2 (mem_of_getElem? hn)), hidx,
    if_neg (by unfold invalidStrId; omega), if_neg (by simpa using hlt)]

theorem persistentId_ne_invalid {str : Str} (h : p.persistentId str ≠ invalidStrId) :
    ∃ n, n < p.generation ∧ p.stringDict.strings[n]? = some str ∧ p.persistentId str = n := by
  unfold StringDictionaryProxy.persistentId SearchState.getIdOfString truncateToGeneration at h ⊢
  by_cases hmem : p.stringDict.strings.contains str
  · rw [if_pos hmem] at h ⊢
    have hne : ((p.stringDict.strings.idxOf str : Nat) : Int) ≠ invalidStrId := by
      omega
    rw [if_neg hne] at h ⊢
    split at h
    · exact absurd rfl h
    · rename_i hlt
      rw [if_neg hlt]
      have hlen := idxOf_lt_length_iff.mpr (contains_iff_mem.1 hmem)
      refine ⟨_, by simpa using hlt, ?_, rfl⟩
      rw [getElem?_eq_getElem hlen, getElem_idxOf hlen]
  · rw [if_neg hmem, if_pos rfl] at h
    exact absurd rfl h

/-- The dictionary grows behind the generation. -/
theorem persistentId_grows (hnd : p.stringDict.strings.Nodup)
    (hnd' : p'.stringDict.strings.Nodup) (hgen : p'.generation = p.generation)
    (hle : p.generation ≤ p.stringDict.strings.length)
    (hgrows : p.stringDict.strings <+: p'.stringDict.strings) (str : Str) :
    p'.persistentId str = p.persistentId str := by
  obtain ⟨more, hmore⟩ := hgrows
  have hsame : ∀ n, n < p.generation →
      p'.stringDict.strings[n]? = p.stringDict.strings[n]? := by
    intro n hn
    rw [← hmore, getElem?_append_left (by omega)]
  by_cases hvalid : p.persistentId str = invalidStrId
  · by_contra hne
    obtain ⟨n, hlt, hn, -⟩ := @persistentId_ne_invalid p' str
      (fun heq => hne (heq.trans hvalid.symm))
    rw [hgen] at hlt
    rw [hsame n hlt] at hn
    rw [persistentId_of_getElem? hnd hlt hn] at hvalid
    unfold invalidStrId at hvalid
    omega
  · obtain ⟨n, hlt, hn, heq⟩ := persistentId_ne_invalid hvalid
    rw [heq]
    exact persistentId_of_getElem? hnd' (hgen.symm ▸ hlt) (by rw [hsame n hlt, hn])

end Persistent

-- ======== ids

section Ids

variable {p : StringDictionaryProxy}

variable {str : Str}
variable {id : Int}

/-- A string with an id is persistent or transient. -/
theorem id_cases (hid : p.getIdOfString str = id) (hne : id ≠ invalidStrId) :
    (∃ n : Nat, id = n ∧ n < p.generation ∧ p.stringDict.strings[n]? = some str
        ∧ p.persistentId str = id)
      ∨ ((str, id) ∈ p.transientStrToInt ∧ p.persistentId str = invalidStrId) := by
  unfold StringDictionaryProxy.getIdOfString at hid
  by_cases hvalid : p.persistentId str = invalidStrId
  · rw [if_neg (by simpa using hvalid)] at hid
    right
    cases hfind : StdMap.find? p.transientStrToInt str with
    | none =>
      rw [hfind] at hid
      exact absurd hid.symm hne
    | some id' =>
      rw [hfind, Option.getD_some] at hid
      rw [← hid]
      exact ⟨StdMap.find?_eq_some hfind, hvalid⟩
  · rw [if_pos hvalid] at hid
    obtain ⟨n, hlt, hn, heq⟩ := persistentId_ne_invalid hvalid
    exact .inl ⟨n, hid.symm.trans heq, hlt, hn, hid⟩

variable (h : ProxyInv m p)
include h

theorem ProxyInv.getString_transient (hmem : (str, id) ∈ p.transientStrToInt) :
    p.getString id = .ok str := by
  unfold StringDictionaryProxy.getString
  rw [if_neg (by have := h.ids str id hmem; omega),
    StdMap.find?_of_mem h.intKeys ((h.mirror str id).mp hmem)]

section

variable (hid : p.getIdOfString str = id)
include hid

variable (hne : id ≠ invalidStrId)
include hne

theorem ProxyInv.getString_id : p.getString id = .ok str := by
  rcases id_cases hid hne with ⟨n, rfl, -, hn, -⟩ | ⟨hmem, -⟩
  · unfold StringDictionaryProxy.getString
    rw [if_pos (by omega), Int.toNat_natCast, hn]
  · exact h.getString_transient hmem

theorem ProxyInv.getOrAddTransient_id : p.getOrAddTransient str = .ok (p, id) := by
  unfold StringDictionaryProxy.getOrAddTransient
  rcases id_cases hid hne with ⟨n, -, -, -, heq⟩ | ⟨hmem, hinvalid⟩
  · rw [if_pos (by rw [heq]; exact hne), heq]
  · rw [if_neg (by simpa using hinvalid), StdMap.find?_of_mem h.strKeys hmem]

theorem ProxyInv.range : (0 ≤ id ∧ id < p.generation) ∨ id < -1 := by
  rcases id_cases hid hne with ⟨n, rfl, hlt, -⟩ | ⟨hmem, -⟩
  · exact .inl ⟨by omega, by omega⟩
  · have := h.ids str id hmem
    exact .inr (by omega)

end

omit h in
theorem getIdOfString_of_mem (hkeys : (p.transientStrToInt.map fst).Nodup)
    (hinvalid : p.persistentId str = invalidStrId) (hmem : (str, id) ∈ p.transientStrToInt) :
    p.getIdOfString str = id := by
  unfold StringDictionaryProxy.getIdOfString
  rw [if_neg (by simpa using hinvalid), StdMap.find?_of_mem hkeys hmem]
  rfl

/-- A string gets the id it has, or the next one. -/
theorem ProxyInv.getOrAddTransient (hfits : p.transientStrToInt.length + 2 ≤ 2 ^ 31) (str : Str) :
    ∃ p' id, p.getOrAddTransient str = .ok (p', id) ∧ ProxyInv m p'
      ∧ p'.getIdOfString str = id ∧ id ≠ invalidStrId
      ∧ ∀ str' id', p.getIdOfString str' = id' → id' ≠ invalidStrId →
        p'.getIdOfString str' = id' := by
  by_cases hknown : p.getIdOfString str = invalidStrId
  · have hinvalid : p.persistentId str = invalidStrId := by
      by_contra hvalid
      unfold StringDictionaryProxy.getIdOfString at hknown
      rw [if_pos hvalid] at hknown
      exact hvalid hknown
    have hnew : StdMap.find? p.transientStrToInt str = none := by
      cases hfind : StdMap.find? p.transientStrToInt str with
      | none => rfl
      | some id =>
        have hmem := StdMap.find?_eq_some hfind
        rw [getIdOfString_of_mem h.strKeys hinvalid hmem] at hknown
        have := h.ids str id hmem
        unfold invalidStrId at hknown
        omega
    set id : Int := -(p.transientStrToInt.length + 2) with hid
    have hid32 : toInt32 (-(p.transientStrToInt.length + 2)) = id := by
      apply Int.bmod_eq_of_le <;> omega
    have hfree : StdMap.find? p.transientIntToStr id = none := by
      cases hfind : StdMap.find? p.transientIntToStr id with
      | none => rfl
      | some str' =>
        have := h.ids str' id ((h.mirror str' id).mpr (StdMap.find?_eq_some hfind))
        omega
    set p' : StringDictionaryProxy := { p with
      transientStrToInt := StdMap.set p.transientStrToInt str id
      transientIntToStr := StdMap.set p.transientIntToStr id str } with hp'
    have hrun : p.getOrAddTransient str = .ok (p', id) := by
      unfold StringDictionaryProxy.getOrAddTransient
      rw [if_neg (by simpa using hinvalid), hnew]
      dsimp only
      rw [hid32, hfree]
    have hmem : ∀ str' id', (str', id') ∈ p'.transientStrToInt
        ↔ str' = str ∧ id' = id ∨ str' ≠ str ∧ (str', id') ∈ p.transientStrToInt :=
      fun str' id' => StdMap.mem_set
    have hlen : p'.transientStrToInt.length = p.transientStrToInt.length + 1 :=
      StdMap.length_set (StdMap.find?_eq_none hnew) id
    have hinv : ProxyInv m p' := by
      refine ⟨h.dict, StdMap.nodup_set h.strKeys _ _, StdMap.nodup_set h.intKeys _ _, ?_, ?_, ?_⟩
      · intro str' id'
        rw [hmem]
        show _ ↔ (id', str') ∈ StdMap.set p.transientIntToStr id str
        rw [StdMap.mem_set, h.mirror]
        -- neither the string nor the id was there before
        have hstr : (id', str') ∈ p.transientIntToStr → str' ≠ str ∧ id' ≠ id := by
          intro hin
          refine ⟨fun heq => ?_, fun heq => ?_⟩
          · exact StdMap.find?_eq_none hnew
              (heq ▸ mem_map_of_mem ((h.mirror str' id').mpr hin))
          · exact StdMap.find?_eq_none hfree (heq ▸ mem_map_of_mem hin)
        constructor
        · rintro (⟨hs, hi⟩ | ⟨-, hin⟩)
          · exact .inl ⟨hi, hs⟩
          · exact .inr ⟨(hstr hin).2, hin⟩
        · rintro (⟨hi, hs⟩ | ⟨-, hin⟩)
          · exact .inl ⟨hs, hi⟩
          · exact .inr ⟨(hstr hin).1, hin⟩
      · intro str' id' hin
        rcases (hmem str' id').mp hin with ⟨-, rfl⟩ | ⟨-, hold⟩
        · omega
        · have := h.ids str' id' hold
          omega
      · intro str' id' hin
        rcases (hmem str' id').mp hin with ⟨rfl, -⟩ | ⟨-, hold⟩
        · exact hinvalid
        · exact h.absent str' id' hold
    refine ⟨p', id, hrun, hinv, ?_, by unfold invalidStrId; omega, ?_⟩
    · exact getIdOfString_of_mem hinv.strKeys hinvalid ((hmem str id).mpr (.inl ⟨rfl, rfl⟩))
    · intro str' id' hid' hne'
      rcases id_cases hid' hne' with ⟨n, -, -, -, heq⟩ | ⟨hold, hinvalid'⟩
      · unfold StringDictionaryProxy.getIdOfString
        have hsame : p'.persistentId str' = id' := heq
        rw [hsame, if_pos hne']
      · refine getIdOfString_of_mem hinv.strKeys hinvalid' ((hmem str' id').mpr (.inr ⟨?_, hold⟩))
        intro heq
        subst heq
        exact hne' (hid'.symm.trans hknown)
  · exact ⟨p, _, h.getOrAddTransient_id rfl hknown, h, rfl, hknown, fun _ _ hid _ => hid⟩

/-- The dictionary has grown, or has other caches. -/
theorem ProxyInv.setDict {s : SearchState}
    (hs : OneGeneration m p.generation s) (hgrows : p.stringDict.strings <+: s.strings) :
    ProxyInv m { p with stringDict := s }
      ∧ ∀ str, StringDictionaryProxy.getIdOfString { p with stringDict := s } str
        = p.getIdOfString str := by
  have hpersistent : ∀ str, StringDictionaryProxy.persistentId { p with stringDict := s } str
      = p.persistentId str :=
    persistentId_grows h.dict.nodup hs.nodup rfl h.dict.gen hgrows
  refine ⟨⟨hs, h.strKeys, h.intKeys, h.mirror, h.ids, fun str id hmem => ?_⟩, fun str => ?_⟩
  · rw [hpersistent]
    exact h.absent str id hmem
  · unfold StringDictionaryProxy.getIdOfString
    rw [hpersistent]

end Ids

-- ======== searches

theorem transientIds_spec {isMatch : Str → Except ProxyFault Bool}
    (htotal : ∀ str, ∃ b, isMatch str = .ok b) (kvs : List (Int × Str)) :
    ∃ ids, StringDictionaryProxy.transientIds isMatch kvs = .ok ids
      ∧ ∀ id, id ∈ ids ↔ ∃ str, (id, str) ∈ kvs ∧ isMatch str = .ok true := by
  induction kvs with
  | nil => exact ⟨[], rfl, by simp⟩
  | cons kv kvs ih =>
    obtain ⟨ids, hids, hmem⟩ := ih
    obtain ⟨b, hb⟩ := htotal kv.2
    rw [StringDictionaryProxy.transientIds, hb, hids]
    refine ⟨_, rfl, fun id => ?_⟩
    cases b with
    | true =>
      rw [if_pos rfl, mem_cons, hmem]
      constructor
      · rintro (rfl | ⟨str, hstr, hmatch⟩)
        · exact ⟨kv.2, mem_cons_self, hb⟩
        · exact ⟨str, mem_cons_of_mem _ hstr, hmatch⟩
      · rintro ⟨str, hstr, hmatch⟩
        rcases mem_cons.mp hstr with heq | hstr
        · exact .inl (congrArg fst heq)
        · exact .inr ⟨str, hstr, hmatch⟩
    | false =>
      rw [if_neg (by simp), hmem]
      refine exists_congr fun str => ?_
      rw [mem_cons]
      constructor
      · exact fun hold => ⟨.inr hold.1, hold.2⟩
      · rintro ⟨heq | hstr, hmatch⟩
        · rw [← heq] at hb
          rw [hb] at hmatch
          cases hmatch
        · exact ⟨hstr, hmatch⟩

variable {p : StringDictionaryProxy}

/-- A search that is right in the dictionary is right in the proxy. -/
theorem searchBoth_spec {s : SearchState} {found : List Nat}
    {isMatch : Str → Except ProxyFault Bool} (htotal : ∀ str, ∃ b, isMatch str = .ok b)
    (hfound : ∀ n, n ∈ found ↔ n < p.generation
      ∧ ∃ str, p.stringDict.strings[n]? = some str ∧ isMatch str = .ok true) :
    ∃ ids, p.searchBoth (.ok (s, found)) isMatch = .ok ({ p with stringDict := s }, ids)
      ∧ p.Matched (fun str => isMatch str = .ok true) ids := by
  obtain ⟨ids, hids, hmem⟩ := transientIds_spec htotal p.transientIntToStr
  unfold StringDictionaryProxy.searchBoth
  rw [hids]
  refine ⟨_, rfl, fun id => ?_⟩
  rw [mem_append, mem_map, hmem]
  constructor
  · rintro (⟨n, hn, rfl⟩ | ⟨str, hstr, hmatch⟩)
    · obtain ⟨hlt, str, hget, hmatch⟩ := (hfound n).mp hn
      exact ⟨str, .inl ⟨n, rfl, hlt, hget⟩, hmatch⟩
    · exact ⟨str, .inr hstr, hmatch⟩
  · rintro ⟨str, ⟨n, rfl, hlt, hget⟩ | hstr, hmatch⟩
    · exact .inl ⟨n, (hfound n).mpr ⟨hlt, str, hget, hmatch⟩, rfl⟩
    · exact .inr ⟨str, hstr, hmatch⟩

theorem ProxyInv.getLike {p : StringDictionaryProxy} (h : ProxyInv m p) (key : LikeKey) :
    ∃ s ids, p.getLike m key = .ok ({ p with stringDict := s }, ids)
      ∧ OneGeneration m p.generation s ∧ s.strings = p.stringDict.strings
      ∧ p.Matched (fun str => m.isLike str key = true) ids := by
  obtain ⟨s, hrun, hs, hstrings⟩ := h.dict.getLike key
  unfold StringDictionaryProxy.getLike
  rw [hrun]
  have hfound : ∀ n, n ∈ found m.cpuThreads p.stringDict.strings (m.isLike · key) p.generation
      ↔ n < p.generation ∧ ∃ str, p.stringDict.strings[n]? = some str
        ∧ (ok (m.isLike str key) : Except ProxyFault Bool) = .ok true := by
    intro n
    rw [mem_found m.cpuThreads_pos, Option.any_eq_true]
    simp
  obtain ⟨ids, hids, hmatched⟩ := searchBoth_spec (s := s) (fun str => ⟨_, rfl⟩) hfound
  refine ⟨s, ids, hids, hs, hstrings, ?_⟩
  simpa using hmatched

theorem doCompare_total (hop : op ≠ .unsupported) (str pattern : Str) :
    ∃ b, doCompare str pattern op = .ok b := by
  cases op with
  | unsupported => exact absurd rfl hop
  | _ => exact ⟨_, rfl⟩

theorem ProxyInv.getCompare {p : StringDictionaryProxy} (h : ProxyInv m p) (hm : m.Sorts)
    {pattern : Str} {op : CompOperator} (hop : op ≠ .unsupported)
    (hsafe : CompareSafe p pattern op) :
    ∃ s ids, p.getCompare m pattern op = .ok ({ p with stringDict := s }, ids)
      ∧ OneGeneration m p.generation s ∧ s.strings = p.stringDict.strings
      ∧ p.Matched (fun str => doCompare str pattern op = .ok true) ids := by
  obtain ⟨s, found, hrun, hs, hstrings, hfound⟩ := h.dict.getCompare hm hop hsafe
  unfold StringDictionaryProxy.getCompare
  rw [hrun]
  obtain ⟨ids, hids, hmatched⟩ :=
    searchBoth_spec (s := s) (fun str => doCompare_total hop str pattern) hfound
  exact ⟨s, ids, hids, hs, hstrings, hmatched⟩

-- ======== runs

/-- Whatever is called, the ids that strings have stay. -/
theorem ProxyInv.run {p' : StringDictionaryProxy} (h : ProxyInv m p) (hm : m.Sorts) {c : ProxyCall}
    {a : ProxyAnswer} (hsafe : c.Safe p) (hrun : c.run m p = .ok (p', a)) : ProxyInv m p'
      ∧ (∀ str id, p.getIdOfString str = id → id ≠ invalidStrId → p'.getIdOfString str = id)
      ∧ ∀ x ∈ c.received a, p'.getIdOfString x.1 = x.2 ∧ x.2 ≠ invalidStrId := by
  -- a call that only changes the dictionary behind the generation
  have hdict : ∀ {s : SearchState}, OneGeneration m p.generation s →
      p.stringDict.strings <+: s.strings → p' = { p with stringDict := s } →
      c.received a = [] → ProxyInv m p'
        ∧ (∀ str id, p.getIdOfString str = id → id ≠ invalidStrId → p'.getIdOfString str = id)
        ∧ ∀ x ∈ c.received a, p'.getIdOfString x.1 = x.2 ∧ x.2 ≠ invalidStrId := by
    rintro s hs hgrows rfl hnone
    obtain ⟨hinv, hsame⟩ := h.setDict hs hgrows
    rw [hnone]
    exact ⟨hinv, fun str id hid _ => (hsame str).trans hid, by simp⟩
  cases c with
  | addString str =>
    rw [ProxyCall.run] at hrun
    split at hrun
    · rename_i s id hadd
      obtain ⟨rfl, rfl⟩ := mk.inj (ok.inj hrun)
      obtain ⟨hs, hgrows⟩ := h.dict.getOrAdd hadd
      exact hdict hs hgrows rfl rfl
    · cases hrun
  | getOrAddTransient str =>
    obtain ⟨p₁, id, hadd, hinv, hid, hne, hkeep⟩ := h.getOrAddTransient hsafe str
    rw [ProxyCall.run] at hrun
    rw [hadd] at hrun
    obtain ⟨rfl, rfl⟩ := mk.inj (ok.inj hrun)
    refine ⟨hinv, hkeep, fun x hx => ?_⟩
    rw [mem_singleton.mp hx]
    exact ⟨hid, hne⟩
  | getIdOfString str =>
    obtain ⟨rfl, rfl⟩ := mk.inj (ok.inj hrun)
    refine ⟨h, fun _ _ hid _ => hid, fun x hx => ?_⟩
    unfold ProxyCall.received at hx
    dsimp only at hx
    split at hx
    · cases hx
    · rename_i hne
      rw [mem_singleton.mp hx]
      exact ⟨rfl, hne⟩
  | getString id =>
    rw [ProxyCall.run] at hrun
    cases hget : p.getString id with
    | error f =>
      rw [hget] at hrun
      cases hrun
    | ok str =>
      rw [hget] at hrun
      obtain ⟨rfl, rfl⟩ := mk.inj (ok.inj hrun)
      exact hdict h.dict (prefix_refl _) rfl rfl
  | getLike key =>
    obtain ⟨s, ids, hlike, hs, hstrings, -⟩ := h.getLike key
    rw [ProxyCall.run] at hrun
    rw [hlike] at hrun
    obtain ⟨rfl, rfl⟩ := mk.inj (ok.inj hrun)
    exact hdict hs (by rw [hstrings]) rfl rfl
  | getCompare pattern op =>
    obtain ⟨s, ids, hcompare, hs, hstrings, -⟩ := h.getCompare hm hsafe.1 hsafe.2
    rw [ProxyCall.run] at hrun
    rw [hcompare] at hrun
    obtain ⟨rfl, rfl⟩ := mk.inj (ok.inj hrun)
    exact hdict hs (by rw [hstrings]) rfl rfl

theorem ProxyReached.inv {start : StringDictionaryProxy} {given : List (Str × Int)}
    (h : ProxyReached m start p given) (hm : m.Sorts) (hstart : ProxyInv m start) :
    ProxyInv m p ∧ ∀ x ∈ given, p.getIdOfString x.1 = x.2 ∧ x.2 ≠ invalidStrId := by
  induction h with
  | start => exact ⟨hstart, by simp⟩
  | call _ hsafe hrun ih =>
    obtain ⟨hinv, hgiven⟩ := ih
    obtain ⟨hinv', hkeep, hnew⟩ := hinv.run hm hsafe hrun
    refine ⟨hinv', fun x hx => ?_⟩
    rcases mem_append.mp hx with hx | hx
    · exact hnew x hx
    · exact ⟨hkeep x.1 x.2 (hgiven x hx).1 (hgiven x hx).2, (hgiven x hx).2⟩

/-- In every run of such calls on a proxy, and of additions to its
dictionary, the ids are consistent, and the searches find what they
should. -/
theorem proxy_consistent (hm : m.Sorts) {strs : List Str} (hstrs : strs.Nodup)
    (hg : g ≤ strs.length) {p : StringDictionaryProxy} {given : List (Str × Int)}
    (h : ProxyReached m (.ofDictionary (ofStrings strs) g) p given) :
    TransientConsistent m p given := by
  have hstart : ProxyInv m (.ofDictionary (ofStrings strs) g) :=
    ⟨oneGeneration_ofStrings hstrs hg, nodup_nil, nodup_nil,
      fun _ _ => ⟨nofun, nofun⟩, nofun, nofun⟩
  obtain ⟨hinv, hgiven⟩ := h.inv hm hstart
  have hstring : ∀ x ∈ given, p.getString x.2 = .ok x.1 := fun x hx =>
    hinv.getString_id (hgiven x hx).1 (hgiven x hx).2
  refine ⟨fun x hx y hy => ⟨fun heq => ?_, fun heq => ?_⟩, fun x hx => ?_, hstring, ?_, ?_, ?_, ?_⟩
  · rw [← (hgiven x hx).1, ← (hgiven y hy).1, heq]
  · have hsame := hstring x hx
    rw [heq, hstring y hy] at hsame
    exact (Except.ok.inj hsame).symm
  · exact ⟨(hgiven x hx).1, hinv.getOrAddTransient_id (hgiven x hx).1 (hgiven x hx).2⟩
  · intro str hfits
    obtain ⟨p', id, hadd, hinv', hid, hne, -⟩ := hinv.getOrAddTransient hfits str
    exact ⟨p', id, hadd, hinv'.getString_id hid hne⟩
  · exact fun x hx => hinv.range (hgiven x hx).1 (hgiven x hx).2
  · intro key
    obtain ⟨s, ids, hlike, -, -, hmatched⟩ := hinv.getLike key
    exact ⟨_, ids, hlike, hmatched⟩
  · intro pattern op hop hsafe
    obtain ⟨s, ids, hcompare, -, -, hmatched⟩ := hinv.getCompare hm hop hsafe
    exact ⟨_, ids, hcompare, hmatched⟩

-- ======== examples

theorem plain_sorts : plain.Sorts := by
  intro key lt ids hlt
  have hmap : ((plain.sort lt ids).map key) = (ids.map key).insertionSort fun a b => a ≤ b := by
    refine map_insertionSort _ _ key ids fun a ha b hb => ?_
    rw [← List.not_lt, ← hlt b hb a ha]
    simp
  have hsorted := pairwise_insertionSort (fun a b : Str => a ≤ b) (ids.map key)
  rw [← hmap, pairwise_map] at hsorted
  exact hsorted

/-- The string `b` is transient, also after it was added. -/
theorem proxy_consistent_b :
    ∃ p, ProxyReached plain (.ofDictionary (ofStrings [[97]]) 1) p [([98], -2), ([98], -2)]
      ∧ p.stringDict.strings = [[97], [98]]
      ∧ TransientConsistent plain p [([98], -2), ([98], -2)] := by
  have hfits : (ProxyCall.getOrAddTransient [98]).Safe
      (.ofDictionary (ofStrings [[97]]) 1) := by
    simp [ProxyCall.Safe, StringDictionaryProxy.ofDictionary]
  have hrun : ProxyCall.run plain (.ofDictionary (ofStrings [[97]]) 1) (.getOrAddTransient [98])
      = .ok (⟨ofStrings [[97]], 1, [(-2, [98])], [([98], -2)]⟩, .id (-2)) := by
    have hid : toInt32 (-2) = -2 := by decide +kernel
    simp [ProxyCall.run, StringDictionaryProxy.ofDictionary,
      StringDictionaryProxy.getOrAddTransient, StringDictionaryProxy.persistentId,
      SearchState.getIdOfString, truncateToGeneration, ofStrings, StdMap.find?, StdMap.set,
      StdMap.lowerBound, hid, Except.map]
  have h₁ := ProxyReached.call .start hfits hrun
  have h₂ := @ProxyReached.call _ _ _ _ _ (.addString [98]) (.id 1) h₁ True.intro rfl
  have h₃ := @ProxyReached.call _ _ _ _ _ (.getIdOfString [98]) (.id (-2)) h₂ True.intro rfl
  exact ⟨_, h₃, rfl, proxy_consistent plain_sorts (by decide) (by decide) h₃⟩

/-- After `b` was added above the generation, `> 'a'` finds it; and `> 'a'`
does not find `a` followed by a zero byte. -/
theorem compare_not_matched :
    (∃ p, ProxyCall.run plain (.ofDictionary (ofStrings [[97]]) 1) (.addString [98])
          = .ok (p, .id 1)
        ∧ (p.getCompare plain [97] .gt).map Prod.snd = .ok [1]
        ∧ ¬ p.Matched (fun str => doCompare str [97] .gt = .ok true) [1])
      ∧ (StringDictionaryProxy.getCompare plain (.ofDictionary (ofStrings [[97, 0]]) 1) [97]
          .gt).map Prod.snd = .ok []
      ∧ ¬ StringDictionaryProxy.Matched (.ofDictionary (ofStrings [[97, 0]]) 1)
          (fun str => doCompare str [97] .gt = .ok true) [] := by
  refine ⟨⟨_, rfl, by decide +kernel, fun h => ?_⟩, by decide +kernel, fun h => ?_⟩
  · obtain ⟨str, ⟨n, hn, hlt, -⟩ | hmem, -⟩ := (h 1).mp (by simp)
    · have hlt' : n < 1 := hlt
      omega
    · cases hmem
  · have hin := (h 0).mpr ⟨[97, 0], .inl ⟨0, rfl, by decide, rfl⟩, by decide⟩
    cases hin

end Compass.Dict
