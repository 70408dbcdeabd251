/-
The dictionary over whole runs of calls.

`Represents` is the invariant: the storage and the table both hold the
list of distinct strings seen so far, and the table is at most half full.
`getOrAddImpl` keeps it and interns its string (`getOrAddImpl_spec`), so a
run of calls interns all its strings (`runCalls_spec`).

The half is kept because the table is doubled, before a string is added,
when it is half full already. With one slot this comes too late: the slot
is taken while the table counts as empty, and the next probe finds no
vacant slot and never ends (`computeBucket_full`). With more than `2^31`
slots there are buckets that an `int32_t` cannot name.

Consistency of the dictionary over whole runs.

A run of calls from a new dictionary with at least 2 and at most `2^31`
slots interns the strings of its calls, and all that the specification
asks for follows from what interning is. The two other sizes fail: with
one slot the second string is looked for without end, and with more than
`2^31` slots a lookup can index the table by a negative bucket.
-/
import Compass.Lib.Intern
import Compass.Dict.Proofs.Table

namespace Compass.Dict

open Intern List Nat

-- ======== the invariant

/-- The dictionary holds these strings, by id. -/
structure Represents (pageSize : Nat) (d : StringDictionary) (ss : List Str) : Prop where
  nodup : ss.Nodup
  count : d.strCount = ss.length
  stored : Stored pageSize d ss
  holds : Holds d.strIds ss
  addressable : d.strIds.length ≤ 2 ^ 31
  several : 2 ≤ d.strIds.length
  load : 2 * ss.length ≤ d.strIds.length

variable {pageSize : Nat} {d : StringDictionary} {ss : List Str} {s : Str}

section

variable (h : Represents pageSize d ss)
include h

theorem Represents.roomy : Roomy d.strIds ss :=
  ⟨h.holds, h.addressable, by have := h.several; have := h.load; omega⟩

-- ======== lookups

omit h in
theorem Roomy.lookup_stored (h : Roomy d.strIds ss) (hst : Stored pageSize d ss)
    (hnodup : ss.Nodup) (hs : s ∈ ss) :
    ∃ b, computeBucket d (rkHash s) s d.strIds false = .ok b
      ∧ at32 d.strIds b = .ok (ss.idxOf s : Int) := by
  obtain ⟨p, hp, hps, hb⟩ := h.computeBucket_stored hst hs
  exact ⟨p, hb, at32_natCast (h.toHolds.id_of_slot hnodup hp hps)⟩

omit h in
theorem Roomy.lookup_new (h : Roomy d.strIds ss) (hst : Stored pageSize d ss) (hs : s ∉ ss) :
    ∃ p : Nat, computeBucket d (rkHash s) s d.strIds false = .ok (p : Int)
      ∧ at32 d.strIds p = .ok invalidStrId ∧ Vacant d.strIds ss s p := by
  obtain ⟨p, hb, hv⟩ := h.computeBucket_new hst hs
  exact ⟨p, hb, at32_natCast hv.2.1, hv⟩

theorem Represents.getIdOfString_eq (s : Str) :
    getIdOfString d s = .ok (if s ∈ ss then (ss.idxOf s : Int) else invalidStrId) := by
  unfold getIdOfString
  by_cases hs : s ∈ ss
  · obtain ⟨b, hb, hat⟩ := h.roomy.lookup_stored h.stored h.nodup hs
    rw [hb, ok_bind, hat, if_pos hs]
  · obtain ⟨p, hb, hat, -⟩ := h.roomy.lookup_new h.stored hs
    rw [hb, ok_bind, hat, if_neg hs]

theorem Represents.getString_eq {i : Nat} (hi : i < ss.length) : getString d i = .ok ss[i] := by
  have haddr := h.addressable
  have hload := h.load
  unfold getString
  rw [h.count, toInt32_natCast (by omega), if_pos (by omega), h.stored.getStringChecked_eq hi]

-- ======== rehashing

omit h in
/-- No string stands among those before it. -/
theorem nodup_take_succ {i : Nat} (hnodup : ss.Nodup) (hi : i < ss.length) : ss[i] ∉ ss.take i := by
  rw [← take_append_drop i ss, drop_eq_getElem_cons hi] at hnodup
  intro hmem
  exact (nodup_append.mp hnodup).2.2 _ hmem _ mem_cons_self rfl

omit h in
/-- The strings rehashed so far are held by the new table. -/
theorem rehash_spec (hst : Stored pageSize d ss) (hnodup : ss.Nodup) {n k : Nat}
    (hn : n = 2 ^ k) (haddr : n ≤ 2 ^ 31) (hroom : ss.length < n) (i : Nat) (hi : i ≤ ss.length) :
    ∃ ids, (range i).foldlM (rehashString d) (replicate n invalidStrId) = .ok ids
      ∧ ids.length = n ∧ Holds ids (ss.take i) := by
  induction i with
  | zero => exact ⟨_, rfl, length_replicate, holds_replicate hn⟩
  | succ i ih =>
    obtain ⟨ids, hids, hlen, hholds⟩ := ih (by omega)
    have hi' : i < ss.length := by omega
    have htake : (ss.take i).length = i := by
      rw [length_take]
      omega
    have hroomy : Roomy ids (ss.take i) := ⟨hholds, by omega, by omega⟩
    obtain ⟨p, hb, hlt, -, hfill⟩ :=
      hroomy.computeBucket_unique d (nodup_take_succ hnodup hi')
    refine ⟨ids.set p i, ?_, by rw [length_set, hlen], ?_⟩
    · rw [range_succ, foldlM_append, hids, ok_bind, foldlM_cons]
      unfold rehashString
      rw [hst.getStringChecked_eq hi', ok_bind, hb, ok_bind, set32_natCast _ hlt]
      rfl
    · rw [htake] at hfill
      rwa [take_succ_eq_append_getElem hi']

theorem increaseCapacity_spec (hfew : ss.length < maxStrcount) (hsize : d.strIds.length ≤ 2 ^ 30) :
    ∃ ids, increaseCapacity d = .ok { d with strIds := ids } ∧ Holds ids ss
      ∧ ids.length = d.strIds.length * 2 := by
  obtain ⟨k, hk⟩ := h.holds.size
  have hseveral := h.several
  have hload := h.load
  obtain ⟨ids, hids, hlen, hholds⟩ := rehash_spec h.stored h.nodup
    (show d.strIds.length * 2 = 2 ^ (k + 1) by rw [hk, pow_succ]) (by omega) (by omega)
    ss.length (le_refl _)
  rw [take_length] at hholds
  refine ⟨ids, ?_, hholds, hlen⟩
  unfold increaseCapacity
  rw [h.count, if_neg (by omega)]
  dsimp only
  rw [hids]
  rfl

end

-- ======== adding

variable (hpage : 4096 ≤ pageSize)
include hpage

/-- Adding a string at a vacant slot that its probe has found. -/
theorem insertString_spec (hst : Stored pageSize d ss)
    (hcount : d.strCount = ss.length) (hlen : s.length ≤ maxStrlen)
    (hfew : ss.length < maxStrcount) {p : Nat} (hv : Vacant d.strIds ss s p) :
    ∃ d', insertString pageSize d s p = .ok (d', (ss.length : Int))
      ∧ Stored pageSize d' (ss ++ [s]) ∧ Holds d'.strIds (ss ++ [s])
      ∧ d'.strCount = ss.length + 1 ∧ d'.strIds.length = d.strIds.length := by
  obtain ⟨d1, happ, hst1, hids1, hcount1⟩ := hst.appendToStorage_spec hpage hcount hlen hfew
  obtain ⟨hlt, -, hholds⟩ := hv
  have hread : (d.strIds.set p (ss.length : Int))[p]? = some (ss.length : Int) := by
    rw [getElem?_set_self hlt]
  unfold maxStrcount at hfew
  refine ⟨{ d1 with strIds := d.strIds.set p ss.length, strCount := ss.length + 1 },
    ?_, hst1.congr rfl rfl rfl, hholds, rfl, length_set⟩
  unfold insertString
  rw [happ, ok_bind, hids1, hcount1, hcount, toInt32_natCast (by omega), set32_natCast _ hlt,
    ok_bind, at32_natCast hread]
  rfl

/-- A new string, where the table need not grow. -/
theorem getOrAddImpl_new_low (hst : Stored pageSize d ss)
    (hcount : d.strCount = ss.length) (hroomy : Roomy d.strIds ss)
    (hlow : ss.length * 2 < d.strIds.length) (hpos : 0 < s.length)
    (hlen : s.length ≤ maxStrlen) (hfew : ss.length < maxStrcount) (hs : s ∉ ss) :
    ∃ d', getOrAddImpl pageSize d s = .ok (d', (ss.length : Int))
      ∧ Stored pageSize d' (ss ++ [s]) ∧ Holds d'.strIds (ss ++ [s])
      ∧ d'.strCount = ss.length + 1 ∧ d'.strIds.length = d.strIds.length := by
  obtain ⟨p, hb, hat, hv⟩ := hroomy.lookup_new hst hs
  obtain ⟨d', hadd, hrest⟩ := insertString_spec hpage hst hcount hlen hfew hv
  refine ⟨d', ?_, hrest⟩
  have hfill : fillRateIsHigh d = false := by
    unfold fillRateIsHigh
    rw [hcount, decide_eq_false_iff_not]
    omega
  unfold getOrAddImpl
  rw [if_neg (by omega), if_neg (by omega), hb, ok_bind, hat, ok_bind, if_neg (by simp)]
  unfold addString
  rw [hb, ok_bind, hat, ok_bind, if_pos rfl, hfill, if_neg (by simp)]
  exact hadd

/-- A new string, where the table grows first. -/
theorem getOrAddImpl_new_high (h : Represents pageSize d ss)
    (hhigh : d.strIds.length ≤ ss.length * 2) (hpos : 0 < s.length)
    (hlen : s.length ≤ maxStrlen) (hfew : ss.length < maxStrcount)
    (hsize : d.strIds.length ≤ 2 ^ 30) (hs : s ∉ ss) :
    ∃ d', getOrAddImpl pageSize d s = .ok (d', (ss.length : Int))
      ∧ Stored pageSize d' (ss ++ [s]) ∧ Holds d'.strIds (ss ++ [s])
      ∧ d'.strCount = ss.length + 1 ∧ d'.strIds.length = d.strIds.length * 2 := by
  have hseveral := h.several
  have hload := h.load
  obtain ⟨ids, hgrow, hholds, hids⟩ := increaseCapacity_spec h hfew hsize
  have hst' : Stored pageSize { d with strIds := ids } ss := h.stored.congr rfl rfl rfl
  have hroomy : Roomy ids ss := ⟨hholds, by omega, by omega⟩
  obtain ⟨p, hb, hat, -⟩ := h.roomy.lookup_new h.stored hs
  obtain ⟨q, hb', -, hv⟩ := Roomy.lookup_new (d := { d with strIds := ids }) hroomy hst' hs
  obtain ⟨d', hadd, hrest⟩ := insertString_spec hpage hst' h.count hlen hfew hv
  refine ⟨d', ?_, by rw [← hids]; exact hrest⟩
  have hfill : fillRateIsHigh d = true := by
    unfold fillRateIsHigh
    rw [h.count, decide_eq_true_iff]
    exact hhigh
  unfold getOrAddImpl
  rw [if_neg (by omega), if_neg (by omega), hb, ok_bind, hat, ok_bind, if_neg (by simp)]
  unfold addString
  rw [hb, ok_bind, hat, ok_bind, if_pos rfl, hfill, if_pos rfl, hgrow, ok_bind, hb', ok_bind]
  exact hadd

omit hpage in
/-- A string that is there already. -/
theorem getOrAddImpl_stored (h : Represents pageSize d ss) (hpos : 0 < s.length)
    (hlen : s.length ≤ maxStrlen) (hs : s ∈ ss) :
    getOrAddImpl pageSize d s = .ok (d, (ss.idxOf s : Int)) := by
  obtain ⟨b, hb, hat⟩ := h.roomy.lookup_stored h.stored h.nodup hs
  unfold getOrAddImpl
  rw [if_neg (by omega), if_neg (by omega), hb, ok_bind, hat, ok_bind, if_pos]
  · rfl
  · unfold invalidStrId
    omega

/-- `getOrAddImpl` interns its string. -/
theorem getOrAddImpl_spec (h : Represents pageSize d ss)
    (hpos : 0 < s.length) (hlen : s.length ≤ maxStrlen)
    (hfew : (intern ss s).length ≤ maxStrcount) :
    ∃ d', getOrAddImpl pageSize d s = .ok (d', ((intern ss s).idxOf s : Int))
      ∧ Represents pageSize d' (intern ss s) := by
  by_cases hs : s ∈ ss
  · rw [intern_of_mem hs]
    exact ⟨d, getOrAddImpl_stored h hpos hlen hs, h⟩
  · have hnodup : (intern ss s).Nodup := nodup_intern h.nodup
    rw [intern_of_not_mem hs] at hfew hnodup ⊢
    have hidx : (ss ++ [s]).idxOf s = ss.length := by
      rw [idxOf_append_of_notMem hs, idxOf_cons_self, Nat.add_zero]
    have hlength : (ss ++ [s]).length = ss.length + 1 := by simp
    have hseveral := h.several
    have hload := h.load
    have haddr := h.addressable
    obtain ⟨k, hk⟩ := h.holds.size
    rw [hidx]
    by_cases hlow : ss.length * 2 < d.strIds.length
    · obtain ⟨d', hadd, hst, hholds, hcount, hids⟩ := getOrAddImpl_new_low hpage h.stored h.count
        h.roomy hlow hpos hlen (by omega) hs
      -- the number of slots is even, so there was room for one more half
      have heven : d.strIds.length % 2 = 0 := by
        rw [hk] at hseveral ⊢
        cases k with
        | zero => omega
        | succ k => rw [Nat.pow_succ, Nat.mul_mod_left]
      exact ⟨d', hadd, hnodup, by rw [hcount, hlength], hst, hholds, by omega, by omega, by omega⟩
    · unfold maxStrcount at hfew
      have hsize : d.strIds.length ≤ 2 ^ 30 := by
        rw [hk] at hlow ⊢
        have hlt : 2 ^ k < 2 ^ 31 := by omega
        exact Nat.pow_le_pow_right (by omega)
          (Nat.lt_succ_iff.mp ((Nat.pow_lt_pow_iff_right (by omega)).mp hlt))
      obtain ⟨d', hadd, hst, hholds, hcount, hids⟩ := getOrAddImpl_new_high hpage h (by omega)
        hpos hlen (by unfold maxStrcount; omega) hsize hs
      exact ⟨d', hadd, hnodup, by rw [hcount, hlength], hst, hholds, by omega, by omega, by omega⟩

end Compass.Dict

namespace Compass.Dict

open Intern List

variable {pageSize : Nat} {d : StringDictionary} {ss : List Str} {s : Str}

-- ======== runs

section

variable (hpage : 4096 ≤ pageSize)
include hpage

theorem getOrAddBulk_spec (t : EncodedType) {strs : List Str}
    (h : Represents pageSize d ss) (hlens : ∀ s ∈ strs, 0 < s.length ∧ s.length ≤ maxStrlen)
    (hfew : (internAll ss strs).length ≤ maxStrcount) :
    ∃ d', getOrAddBulk pageSize t d strs
        = .ok (d', strs.map fun s => encodeStringId t ((internAll ss strs).idxOf s : Int))
      ∧ Represents pageSize d' (internAll ss strs) := by
  induction strs generalizing d ss with
  | nil => exact ⟨d, rfl, h⟩
  | cons s strs ih =>
    obtain ⟨hpos, hlen⟩ := hlens s mem_cons_self
    have hfirst : (intern ss s).length ≤ maxStrcount :=
      le_trans length_le_internAll hfew
    obtain ⟨d1, hadd, h1⟩ := getOrAddImpl_spec hpage h hpos hlen hfirst
    obtain ⟨d2, hbulk, h2⟩ := ih h1 (fun t ht => hlens t (mem_cons_of_mem _ ht)) hfew
    refine ⟨d2, ?_, h2⟩
    have hid : (internAll (intern ss s) strs).idxOf s = (intern ss s).idxOf s :=
      idxOf_internAll_of_mem (mem_intern.mpr (.inr rfl))
    unfold getOrAddBulk
    rw [hadd, ok_bind]
    dsimp only
    rw [hbulk, ok_bind, internAll_cons, map_cons, hid]
    rfl

/-- One call interns its strings, and answers with their ids. -/
theorem Call.exec_spec (h : Represents pageSize d ss) (call : Call)
    (hlens : ∀ s ∈ call.strings, 0 < s.length ∧ s.length ≤ maxStrlen)
    (hfew : (internAll ss call.strings).length ≤ maxStrcount) :
    ∃ d', call.exec pageSize d
        = .ok (d', call.answer fun s => ((internAll ss call.strings).idxOf s : Int))
      ∧ Represents pageSize d' (internAll ss call.strings) := by
  cases call with
  | getOrAdd s =>
    obtain ⟨hpos, hlen⟩ := hlens s (mem_singleton_self s)
    obtain ⟨d', hadd, h'⟩ := getOrAddImpl_spec hpage h hpos hlen hfew
    refine ⟨d', ?_, h'⟩
    show Except.bind (getOrAddImpl pageSize d s) _ = _
    rw [hadd]
    rfl
  | getOrAddBulk t strs => exact getOrAddBulk_spec hpage t h hlens hfew

omit hpage in
/-- Only the ids of a call's own strings matter for its answer. -/
theorem Call.answer_congr {f g : Str → Int} (call : Call) (h : ∀ s ∈ call.strings, f s = g s) :
    call.answer f = call.answer g := by
  cases call with
  | getOrAdd s =>
    show [f s] = [g s]
    rw [h s (mem_singleton_self s)]
  | getOrAddBulk t strs =>
    refine map_congr_left fun s hs => ?_
    rw [h s hs]

/-- A run interns the strings of all its calls. -/
theorem runCalls_spec {calls : List Call} (h : Represents pageSize d ss)
    (hlens : ∀ s ∈ callStrings calls, 0 < s.length ∧ s.length ≤ maxStrlen)
    (hfew : (internAll ss (callStrings calls)).length ≤ maxStrcount) :
    ∃ d', runCalls pageSize d calls
        = .ok (d', calls.map (Call.answer
            fun s => ((internAll ss (callStrings calls)).idxOf s : Int)))
      ∧ Represents pageSize d' (internAll ss (callStrings calls)) := by
  induction calls generalizing d ss with
  | nil => exact ⟨d, rfl, h⟩
  | cons call calls ih =>
    have hsplit : callStrings (call :: calls) = call.strings ++ callStrings calls :=
      flatMap_cons
    rw [hsplit, internAll_append] at hfew ⊢
    obtain ⟨d1, hexec, h1⟩ := call.exec_spec hpage h
      (fun s hs => hlens s (mem_append_left _ hs))
      (le_trans length_le_internAll hfew)
    obtain ⟨d2, hrun, h2⟩ := ih h1 (fun s hs => hlens s (mem_append_right _ hs)) hfew
    refine ⟨d2, ?_, h2⟩
    -- the ids that the call answered with are still those at the end
    have hstay : call.answer (fun s => ((internAll ss call.strings).idxOf s : Int))
        = call.answer fun s =>
          ((internAll (internAll ss call.strings) (callStrings calls)).idxOf s : Int) := by
      refine call.answer_congr fun s hs => ?_
      rw [idxOf_internAll_of_mem (mem_internAll.mpr (.inr hs))]
    unfold runCalls
    rw [hexec, ok_bind]
    dsimp only
    rw [hrun, ok_bind, map_cons, hstay]
    rfl

-- ======== the new dictionary

omit hpage in
theorem construct_new (pageSize threadCount : Nat) (files : DictFiles) (isTemp : Bool) (k : Nat) :
    construct pageSize threadCount files isTemp false (2 ^ k)
      = .ok (initialDictionary pageSize .empty (2 ^ k)) := by
  unfold construct
  rw [if_neg (by rw [Nat.and_two_pow_sub_one_eq_mod, Nat.mod_self]; simp)]
  cases isTemp <;> rfl

omit hpage in
theorem initialDictionary_strIds (pageSize cap : Nat) :
    (initialDictionary pageSize .empty cap).strIds = replicate cap invalidStrId := rfl

/-- A new dictionary stores nothing. -/
theorem initialDictionary_stored (cap : Nat) :
    Stored pageSize (initialDictionary pageSize .empty cap) [] := by
  refine ⟨⟨nofun, Nat.zero_le _, ⟨canaryBuffSize pageSize, rfl⟩, ?_⟩, rfl⟩
  refine ⟨128 * pageSize, by omega, Nat.le_refl _, ?_⟩
  show [] ++ replicate _ canaryEntry = [] ++ replicate _ canaryEntry
  rw [canaryBuffSize_div]

/-- A new dictionary of at least 2 and at most `2^31` slots holds no
string. -/
theorem initialDictionary_represents {k : Nat} (h1 : 2 ≤ 2 ^ k) (h31 : 2 ^ k ≤ 2 ^ 31) :
    Represents pageSize (initialDictionary pageSize .empty (2 ^ k)) [] := by
  have hlen : (initialDictionary pageSize .empty (2 ^ k)).strIds.length = 2 ^ k := by
    rw [initialDictionary_strIds, length_replicate]
  refine ⟨nodup_nil, rfl, initialDictionary_stored hpage _, holds_replicate rfl, ?_, ?_, ?_⟩
  · rwa [hlen]
  · rwa [hlen]
  · rw [hlen, length_nil]
    omega

-- ======== consistency

omit hpage in
/-- A dictionary that holds the strings of its calls is consistent with
them. -/
theorem Represents.consistent {calls : List Call} (h : Represents pageSize d
      (internAll [] (callStrings calls))) :
    Consistent calls d (calls.map (Call.answer
      fun s => ((internAll [] (callStrings calls)).idxOf s : Int))) := by
  have hid : ∀ s ∈ callStrings calls,
      (internAll [] (callStrings calls)).idxOf s = firstId (callStrings calls) s :=
    fun s hs => idxOf_internAll_nil hs
  have hmem : ∀ s, s ∈ internAll [] (callStrings calls) ↔ s ∈ callStrings calls := by
    intro s
    simp [mem_internAll]
  constructor
  case inOrder =>
    refine map_congr_left fun call hcall => ?_
    refine call.answer_congr fun s hs => ?_
    rw [hid s (mem_flatMap.mpr ⟨call, hcall, hs⟩)]
  case numbers =>
    intro i
    rw [← length_internAll_nil]
    constructor
    · rintro ⟨s, hs, hi⟩
      rw [← hi, ← hid s hs]
      exact idxOf_lt_length_iff.mpr ((hmem s).mpr hs)
    · intro hi
      have hs := (hmem _).mp (getElem_mem hi)
      exact ⟨_, hs, by rw [← hid _ hs, h.nodup.idxOf_getElem i hi]⟩
  case injective =>
    intro s hs t ht
    rw [← hid s hs, ← hid t ht]
    exact idxOf_inj ((hmem s).mpr hs)
  case getString =>
    intro s hs
    have hlt := idxOf_lt_length_iff.mpr ((hmem s).mpr hs)
    rw [← hid s hs, h.getString_eq hlt, getElem_idxOf hlt]
  case getIdOfString =>
    intro s
    rw [h.getIdOfString_eq s]
    by_cases hs : s ∈ callStrings calls
    · rw [if_pos ((hmem s).mpr hs), if_pos hs, hid s hs]
    · rw [if_neg (fun hm => hs ((hmem s).mp hm)), if_neg hs]
  case probes => exact fun hash s unique => h.roomy.computeBucket_returns h.stored hash s unique

-- ======== failures

omit hpage in
/-- In a full table the probe for a string that is not there never
ends, however long it is run. -/
theorem probe_full {data : List Int} (hst : Stored pageSize d ss) (h : Holds data ss)
    (hfull : ∀ q < data.length, slotString data ss q ≠ none) (hs : s ∉ ss) (fuel : Nat)
    {b : Nat} (hb : b < data.length) :
    probe data (sameString d s) fuel b = .error .endless := by
  have hnone : Probing.search data.length
      (fun q => slotString data ss q = none ∨ slotString data ss q = some s) fuel b = none := by
    cases hp : Probing.search data.length
        (fun q => slotString data ss q = none ∨ slotString data ss q = some s) fuel b with
    | none => rfl
    | some p =>
      obtain ⟨i, -, hip, hstop, -⟩ := (Probing.search_eq_some_iff fuel hb).mp hp
      have hlt : p < data.length := by
        rw [← hip]
        exact Nat.mod_lt _ (by omega)
      rcases hstop with hv | hv
      · exact absurd hv (hfull p hlt)
      · rcases h.slot_cases hlt with ⟨-, hn⟩ | ⟨j, hj, -, hn⟩
        · exact absurd hn (hfull p hlt)
        · rw [hn] at hv
          exact absurd (Option.some.inj hv ▸ getElem_mem hj) hs
  rw [probe_sameString hst h s fuel hb, hnone]

omit hpage in
theorem computeBucket_full {data : List Int} (hst : Stored pageSize d ss) (h : Holds data ss)
    (hfull : ∀ q < data.length, slotString data ss q ≠ none) (hs : s ∉ ss) :
    computeBucket d (rkHash s) s data false = .error .endless := by
  obtain ⟨k, hk⟩ := h.size
  unfold computeBucket
  rw [if_neg (by simp)]
  dsimp only
  rw [probe_full hst h hfull hs _ (homeBucket_lt _ hk)]
  rfl

/-- The first string of a dictionary with one slot takes it. -/
theorem one_slot_first (hpos : 0 < s.length) (hlen : s.length ≤ maxStrlen) :
    ∃ d, getOrAdd pageSize (initialDictionary pageSize .empty 1) s = .ok (d, 0)
      ∧ Stored pageSize d [s] ∧ Holds d.strIds [s] ∧ d.strIds.length = 1
      ∧ ∀ q < d.strIds.length, slotString d.strIds [s] q ≠ none := by
  have hroomy : Roomy (initialDictionary pageSize .empty 1).strIds [] :=
    ⟨holds_replicate (show 1 = 2 ^ 0 from rfl), by simp [initialDictionary_strIds],
      by simp [initialDictionary_strIds]⟩
  obtain ⟨d, hadd, hst, hholds, -, hlen1⟩ := getOrAddImpl_new_low hpage
    (initialDictionary_stored hpage 1) rfl hroomy (by simp [initialDictionary_strIds]) hpos hlen
    (by unfold maxStrcount; simp) (not_mem_nil)
  rw [nil_append] at hst hholds
  have hone : d.strIds.length = 1 := by simpa [initialDictionary_strIds] using hlen1
  refine ⟨d, hadd, hst, hholds, hone, ?_⟩
  intro q hq
  obtain ⟨p, hp, hps⟩ := hholds.complete s (mem_singleton_self s)
  have hqp : q = p := by omega
  rw [hqp, hps]
  exact Option.some_ne_none s

/-- Its second string is looked for without end. -/
theorem one_slot_second {t : Str} (hs : 0 < s.length)
    (hs' : s.length ≤ maxStrlen) (ht : 0 < t.length) (ht' : t.length ≤ maxStrlen) (hne : t ≠ s) :
    runCalls pageSize (initialDictionary pageSize .empty 1) [.getOrAdd s, .getOrAdd t]
      = .error .endless := by
  obtain ⟨d, hadd, hst, hholds, -, hfull⟩ := one_slot_first hpage hs hs'
  have hsecond : getOrAdd pageSize d t = .error .endless := by
    unfold getOrAdd getOrAddImpl
    rw [if_neg (by omega), if_neg (by omega),
      computeBucket_full hst hholds hfull (by rwa [mem_singleton])]
    rfl
  simp only [runCalls, Call.exec, hadd, hsecond, ok_bind, error_bind, pure_ok]

end

/-- In a table of vacant slots every string has its first bucket. -/
theorem computeBucket_replicate (d : StringDictionary) (hash : UInt64) (s : Str) (unique : Bool)
    {n k : Nat} (hn : n = 2 ^ k) :
    computeBucket d hash s (replicate n invalidStrId) unique
      = .ok (toInt32 (homeBucket hash n)) := by
  have hlt := homeBucket_lt hash hn
  obtain ⟨m, hm⟩ : ∃ m, n = m + 1 := ⟨n - 1, by omega⟩
  unfold computeBucket
  rw [length_replicate]
  generalize homeBucket hash n = b at hlt
  have hread : (replicate n invalidStrId)[b]? = some invalidStrId := by
    rw [getElem?_replicate, if_pos hlt]
  rw [hm] at hread ⊢
  unfold probe
  rw [hread]
  rfl

/-- Where the lower half of a bucket has its sign bit set, it is
negative as an `int32_t`. -/
theorem toInt32_neg {b : Nat} (h : 2 ^ 31 ≤ b % 2 ^ 32) : toInt32 b < 0 := by
  unfold toInt32 Int.bmod
  dsimp only
  split <;> omega

/-- With more than `2^31` slots there is a string that is looked for at
a negative bucket. -/
theorem many_slots_lookup {k : Nat} (hk : 32 ≤ k) :
    getIdOfString (initialDictionary pageSize .empty (2 ^ k)) [102, 105, 122, 122]
      = .error .bounds := by
  have hhash : (rkHash [102, 105, 122, 122]).toNat = 1089243136028 := by decide
  have hdvd : 2 ^ 32 ∣ 2 ^ k := Nat.pow_dvd_pow 2 hk
  have hneg : toInt32 (homeBucket (rkHash [102, 105, 122, 122]) (2 ^ k)) < 0 := by
    apply toInt32_neg
    rw [homeBucket_two_pow, hhash, Nat.mod_mod_of_dvd _ hdvd]
    decide
  unfold getIdOfString
  rw [initialDictionary_strIds, computeBucket_replicate _ _ _ _ rfl, ok_bind]
  unfold at32
  rw [if_pos hneg]

-- ======== the results

/-- Two calls with one string each are meant. -/
theorem validCalls_pair {t : Str} (hs : 0 < s.length ∧ s.length ≤ maxStrlen)
    (ht : 0 < t.length ∧ t.length ≤ maxStrlen) :
    ValidCalls [.getOrAdd s, .getOrAdd t] := by
  constructor
  · intro u hu
    have hmem : u = s ∨ u = t := by simpa [callStrings, Call.strings] using hu
    rcases hmem with rfl | rfl
    · exact hs
    · exact ht
  · calc (callStrings [.getOrAdd s, .getOrAdd t]).toFinset.card
        ≤ (callStrings [.getOrAdd s, .getOrAdd t]).length := toFinset_card_le _
      _ = 2 := rfl
      _ < maxStrcount := by unfold maxStrcount; omega

/-- The dictionary is consistent over all runs exactly when it starts
with at least 2 and at most `2^31` slots. -/
theorem consistentRuns_iff (pageSize threadCount : Nat) (files : DictFiles) (isTemp : Bool)
    (initialCapacity : Nat) (hpage : 4096 ≤ pageSize) (hpow : initialCapacity.isPowerOfTwo) :
    ConsistentRuns pageSize threadCount files isTemp initialCapacity
      ↔ 2 ≤ initialCapacity ∧ initialCapacity ≤ 2 ^ 31 := by
  obtain ⟨k, rfl⟩ := hpow
  unfold ConsistentRuns
  rw [construct_new]
  constructor
  · intro h
    constructor
    · by_contra hsmall
      have hk : k = 0 := by
        by_contra hne
        have := Nat.pow_le_pow_right (show 0 < 2 by omega) (show 1 ≤ k by omega)
        omega
      obtain ⟨d, answers, hrun, -⟩ := h [.getOrAdd [97], .getOrAdd [98]]
        (validCalls_pair (by decide) (by decide))
      rw [hk, ok_bind, Nat.pow_zero,
        one_slot_second hpage (by decide) (by decide) (by decide) (by decide) (by decide)] at hrun
      cases hrun
    · by_contra hlarge
      have hk : 32 ≤ k := by
        by_contra hlt
        have := Nat.pow_le_pow_right (show 0 < 2 by omega) (show k ≤ 31 by omega)
        omega
      obtain ⟨d, answers, hrun, hcons⟩ := h [] ⟨nofun, by decide⟩
      obtain ⟨rfl, -⟩ := Prod.mk.inj (Except.ok.inj hrun)
      have hid := hcons.getIdOfString [102, 105, 122, 122]
      rw [many_slots_lookup hk] at hid
      cases hid
  · intro ⟨h2, h31⟩ calls hvalid
    have hfew : (internAll [] (callStrings calls)).length ≤ maxStrcount := by
      rw [length_internAll_nil]
      exact Nat.le_of_lt hvalid.few
    obtain ⟨d, hrun, hd⟩ := runCalls_spec hpage (initialDictionary_represents hpage h2 h31)
      hvalid.lengths hfew
    exact ⟨d, _, hrun, hd.consistent⟩

/-- The catalog's dictionaries, with 256 slots and pages of 4096 bytes. -/
theorem consistentRuns_catalog :
    ConsistentRuns 4096 8 .empty false 256 ∧ (2 ≤ 256 ∧ 256 ≤ 2 ^ 31) :=
  have hiff := consistentRuns_iff 4096 8 .empty false 256 (by decide) ⟨8, rfl⟩
  ⟨hiff.mpr (by decide), by decide⟩

/-- With one slot, "a" is added and then "b" is looked for without end:
no number of rounds of the probe suffices. -/
theorem one_slot_endless :
    ¬ ConsistentRuns 4096 8 .empty false 1
      ∧ (∃ d, getOrAdd 4096 (initialDictionary 4096 .empty 1) [97] = .ok (d, 0)
        ∧ ∀ fuel, probe d.strIds (sameString d [98]) fuel
            (homeBucket (rkHash [98]) d.strIds.length) = .error .endless)
      ∧ (do
          let d ← construct 4096 8 .empty false false 1
          runCalls 4096 d [.getOrAdd [97], .getOrAdd [98]]) = .error .endless := by
  have hrun : (do
      let d ← construct 4096 8 .empty false false 1
      runCalls 4096 d [.getOrAdd [97], .getOrAdd [98]]) = .error .endless := by
    rw [show (1 : Nat) = 2 ^ 0 from rfl, construct_new, ok_bind]
    exact one_slot_second (by decide) (by decide) (by decide) (by decide) (by decide) (by decide)
  refine ⟨?_, ?_, hrun⟩
  · intro h
    obtain ⟨d, answers, hok, -⟩ := h [.getOrAdd [97], .getOrAdd [98]]
      (validCalls_pair (by decide) (by decide))
    rw [hrun] at hok
    cases hok
  · obtain ⟨d, hadd, hst, hholds, hone, hfull⟩ :=
      one_slot_first (s := [97]) (show 4096 ≤ 4096 by decide) (by decide) (by decide)
    refine ⟨d, hadd, fun fuel => probe_full hst hholds hfull (by decide) fuel ?_⟩
    exact homeBucket_lt _ (show d.strIds.length = 2 ^ 0 from hone)

end Compass.Dict
