/-
What the storage of a dictionary holds.

`Stored` says that the two mappings hold a list of strings: the payload
is the strings one after the other, the offsets one record for each, and
canaries follow in both. Reading by id gives the string back, reading
after the last string finds the canary, and appending adds a string at
the end, whatever capacity has to be added first.

The records' fields are 48 and 16 bits wide. Neither wraps, nor is a size
ever the canary's, since a string has at most `MAX_STRLEN` bytes and there
are at most `MAX_STRCOUNT` strings.

The table of ids and the probes of it.

`Holds` says that a table holds a list of strings: every slot is vacant
or has the id of one of them, and the strings lie as linear probing needs
(`Probing.Layout`). A probe of such a table is the library's `search`,
whether it compares strings (`probe_sameString`) or not
(`probe_unique`). So it ends at the string's slot where the string is
held, and otherwise at a vacant slot that may be filled with the next id.
-/
import Mathlib.Algebra.Order.BigOperators.Group.List
import Mathlib.Tactic.Ring
import Compass.Dict.Construct

namespace Compass.Dict

open List Nat Int

variable {α : Type}

@[simp] theorem ok_bind {β : Type} (a : α) (f : α → Except Fault β) :
    (Except.ok a >>= f) = f a := rfl

@[simp] theorem error_bind {β : Type} (e : Fault) (f : α → Except Fault β) :
    ((Except.error e : Except Fault α) >>= f) = .error e := rfl

@[simp] theorem pure_ok (a : α) : (pure a : Except Fault α) = .ok a := rfl

-- ======== records

/-- The records of strings that stand from an offset on. -/
def entriesFrom (off : Nat) : List Str → List StringIdxEntry
  | [] => []
  | s :: ss => ⟨BitVec.ofNat 48 off, BitVec.ofNat 16 s.length⟩ :: entriesFrom (off + s.length) ss

@[simp] theorem length_entriesFrom (off : Nat) (ss : List Str) :
    (entriesFrom off ss).length = ss.length := by
  induction ss generalizing off with
  | nil => rfl
  | cons s ss ih => simp [entriesFrom, ih]

theorem entriesFrom_concat (off : Nat) (ss : List Str) (s : Str) :
    entriesFrom off (ss ++ [s])
      = entriesFrom off ss
        ++ [⟨BitVec.ofNat 48 (off + ss.flatten.length), BitVec.ofNat 16 s.length⟩] := by
  induction ss generalizing off with
  | nil => simp [entriesFrom]
  | cons t ss ih => simp [entriesFrom, ih, add_assoc]

variable {ss : List Str} {i : Nat}

theorem getElem_entriesFrom (off : Nat) (hi : i < ss.length) : (entriesFrom off ss)[i]?
      = some ⟨BitVec.ofNat 48 (off + (ss.take i).flatten.length),
          BitVec.ofNat 16 ss[i].length⟩ := by
  induction ss generalizing off i with
  | nil => simp at hi
  | cons s ss ih =>
    cases i with
    | zero => simp [entriesFrom]
    | succ i =>
      have hi' : i < ss.length := by simpa using hi
      simp [entriesFrom, ih _ hi', add_assoc]

/-- Where a string stands among the strings one after the other. -/
theorem flatten_take_drop (hi : i < ss.length) :
    ss.flatten = (ss.take i).flatten ++ (ss[i] ++ (ss.drop (i + 1)).flatten) := by
  conv_lhs => rw [← take_append_drop i ss, drop_eq_getElem_cons hi]
  rw [flatten_append, flatten_cons]

/-- Strings within the length limit take little room. -/
theorem length_flatten_le (h : ∀ s ∈ ss, s.length ≤ maxStrlen) :
    ss.flatten.length ≤ ss.length * maxStrlen := by
  induction ss with
  | nil => simp
  | cons s ss ih =>
    have hs := h s mem_cons_self
    have hss := ih fun t ht => h t (mem_cons_of_mem _ ht)
    rw [flatten_cons, length_append, length_cons, add_mul, one_mul]
    omega

-- ======== the copy

theorem memcpy_at_end (xs src pad : List α) (h : src.length ≤ pad.length) :
    memcpy (xs ++ pad) xs.length src = .ok (xs ++ src ++ pad.drop src.length) := by
  unfold memcpy
  rw [if_pos (by rw [length_append]; omega), take_left, drop_append,
    Nat.add_sub_cancel_left, drop_eq_nil_of_le (by omega), nil_append]

-- ======== the content

/-- The mappings hold these strings, with canaries after them. There is
always a canary left in the offsets, and never more than an increment of
them. -/
structure Mapped (pageSize : Nat) (d : StringDictionary) (ss : List Str) : Prop where
  short : ∀ s ∈ ss, s.length ≤ maxStrlen
  few : ss.length ≤ maxStrcount
  payload : ∃ k, d.payloadMap = ss.flatten ++ List.replicate k canaryByte
  offsets : ∃ k, 1 ≤ k ∧ k ≤ 128 * pageSize
    ∧ d.offsetMap = entriesFrom 0 ss ++ List.replicate k canaryEntry

/-- The next string goes behind them. -/
structure Stored (pageSize : Nat) (d : StringDictionary) (ss : List Str) : Prop
    extends Mapped pageSize d ss where
  off : d.payloadFileOff = ss.flatten.length

variable {pageSize : Nat} {d : StringDictionary} {ss : List Str}

theorem canaryBuffSize_div :
    canaryBuffSize pageSize / sizeofStringIdxEntry = 128 * pageSize := by
  unfold canaryBuffSize sizeofStringIdxEntry
  omega

section

variable (h : Mapped pageSize d ss)
include h

/-- Only the mappings matter. -/
theorem Mapped.congr {d' : StringDictionary}
    (hpay : d'.payloadMap = d.payloadMap) (hoffs : d'.offsetMap = d.offsetMap) :
    Mapped pageSize d' ss :=
  ⟨h.short, h.few, hpay ▸ h.payload, hoffs ▸ h.offsets⟩

omit h in
/-- The storage does not depend on the table and the count. -/
theorem Stored.congr {d' : StringDictionary} (h : Stored pageSize d ss)
    (hoff : d'.payloadFileOff = d.payloadFileOff) (hpay : d'.payloadMap = d.payloadMap)
    (hoffs : d'.offsetMap = d.offsetMap) : Stored pageSize d' ss :=
  ⟨h.toMapped.congr hpay hoffs, hoff.trans h.off⟩

/-- Reading by id gives the string back. -/
theorem Mapped.getStringFromStorage_eq (hi : i < ss.length) :
    getStringFromStorage d i = .ok (some ss[i]) := by
  obtain ⟨k, hpay⟩ := h.payload
  obtain ⟨m, -, -, hoffs⟩ := h.offsets
  have hshort := h.short ss[i] (getElem_mem hi)
  have hlen := length_flatten_le h.short
  have hfew := h.few
  have hflat := flatten_take_drop hi
  have hroom := congrArg length hflat
  simp only [length_append] at hroom
  have hbound : ss.length * maxStrlen ≤ 2 ^ 30 * (2 ^ 15 - 1) := mul_le_mul_right _ hfew
  unfold maxStrlen at hshort
  have hentry : d.offsetMap[i]?
      = some ⟨BitVec.ofNat 48 (ss.take i).flatten.length, BitVec.ofNat 16 ss[i].length⟩ := by
    rw [hoffs, getElem?_append_left (by simpa using hi), getElem_entriesFrom 0 hi, zero_add]
  have hoff : (BitVec.ofNat 48 (ss.take i).flatten.length).toNat
      = (ss.take i).flatten.length := by
    rw [BitVec.toNat_ofNat, mod_eq_of_lt (by omega)]
  have hsize : (BitVec.ofNat 16 ss[i].length).toNat = ss[i].length := by
    rw [BitVec.toNat_ofNat, mod_eq_of_lt (by omega)]
  have hcanary : ¬ BitVec.ofNat 16 ss[i].length = 0xffff#16 := by
    intro hc
    have := congrArg BitVec.toNat hc
    simp at this
    omega
  unfold getStringFromStorage
  rw [if_neg (by omega), toNat_natCast, hentry]
  dsimp only
  rw [if_neg hcanary, hoff, hsize, if_pos (by rw [hpay, length_append]; omega), hpay, hflat,
    append_assoc, drop_left, append_assoc, take_left]

theorem Mapped.getStringChecked_eq (hi : i < ss.length) : getStringChecked d i = .ok ss[i] := by
  unfold getStringChecked
  rw [h.getStringFromStorage_eq hi]

/-- After the last string the canary is read. -/
theorem Mapped.getStringFromStorage_canary (hi : ss.length ≤ i)
    (hlt : i < d.offsetMap.length) : getStringFromStorage d i = .ok none := by
  obtain ⟨m, -, -, hoffs⟩ := h.offsets
  have hentry : d.offsetMap[i]? = some canaryEntry := by
    rw [hoffs, length_append, length_entriesFrom, length_replicate] at hlt
    rw [hoffs, getElem?_append_right (by simpa using hi), getElem?_replicate,
      length_entriesFrom, if_pos (by omega)]
  unfold getStringFromStorage
  rw [if_neg (by omega), toNat_natCast, hentry]
  rfl

end

-- ======== appending

/-- A string within the limit can be written after the strings there are,
for which capacity is added where the payload has no room. -/
private theorem payload_room (hpage : 4096 ≤ pageSize) (h : Stored pageSize d ss) {s : Str}
    (hs : s.length ≤ maxStrlen) :
    ∃ k, s.length ≤ k
      ∧ (if d.payloadFileOff + s.length > d.payloadFileSize then
          addPayloadCapacity pageSize d else d)
        = { d with payloadMap := ss.flatten ++ replicate k canaryByte } := by
  obtain ⟨k, hpay⟩ := h.payload
  have hoff := h.off
  have hlen : d.payloadFileSize = ss.flatten.length + k := by
    unfold StringDictionary.payloadFileSize
    rw [hpay, length_append, length_replicate]
  unfold maxStrlen at hs
  split
  case isTrue hfull =>
    refine ⟨k + canaryBuffSize pageSize, ?_, ?_⟩
    · unfold canaryBuffSize
      omega
    · unfold addPayloadCapacity
      rw [hpay, append_assoc, replicate_append_replicate]
  case isFalse hroom =>
    refine ⟨k, by omega, ?_⟩
    rw [← hpay]

/-- Likewise a record, of which one more than needed is kept. -/
private theorem offset_room {k : Nat} (hk1 : 1 ≤ k)
    (hk : k ≤ 128 * pageSize) (hcount : d.strCount = ss.length)
    (hoffs : d.offsetMap = entriesFrom 0 ss ++ replicate k canaryEntry) :
    ∃ m, 2 ≤ m ∧ m ≤ 128 * pageSize + 1
      ∧ (if d.strCount * sizeofStringIdxEntry + sizeofStringIdxEntry ≥ d.offsetFileSize then
          addOffsetCapacity pageSize d else d)
        = { d with offsetMap := entriesFrom 0 ss ++ replicate m canaryEntry } := by
  have hlen : d.offsetFileSize = 8 * (ss.length + k) := by
    unfold StringDictionary.offsetFileSize sizeofStringIdxEntry
    rw [hoffs, length_append, length_entriesFrom, length_replicate]
  unfold sizeofStringIdxEntry
  split
  case isTrue hfull =>
    refine ⟨k + 128 * pageSize, by omega, by omega, ?_⟩
    unfold addOffsetCapacity
    rw [hoffs, canaryBuffSize_div, append_assoc, replicate_append_replicate]
  case isFalse hroom =>
    refine ⟨k, by omega, by omega, ?_⟩
    rw [← hoffs]

/-- Appending writes the string behind the others, and changes neither
the table nor the count. -/
theorem Stored.appendToStorage_spec (hpage : 4096 ≤ pageSize) (h : Stored pageSize d ss)
    (hcount : d.strCount = ss.length) {s : Str} (hs : s.length ≤ maxStrlen)
    (hfew : ss.length < maxStrcount) :
    ∃ d', appendToStorage pageSize d s = .ok d' ∧ Stored pageSize d' (ss ++ [s])
      ∧ d'.strIds = d.strIds ∧ d'.strCount = d.strCount := by
  obtain ⟨k, hk, hpay⟩ := payload_room hpage h hs
  obtain ⟨m, hm1, hm, hoffs⟩ := h.offsets
  have hcopy := memcpy_at_end ss.flatten s (replicate k canaryByte)
    (by rwa [length_replicate])
  rw [drop_replicate] at hcopy
  -- the state between the two writes
  obtain ⟨n, hn2, hn, hroom⟩ := offset_room (d := ⟨d.strCount, d.strIds, d.offsetMap,
    ss.flatten ++ s ++ replicate (k - s.length) canaryByte,
    ss.flatten.length + s.length⟩) hm1 hm hcount hoffs
  have hrecord := memcpy_at_end (entriesFrom 0 ss)
    [⟨BitVec.ofNat 48 ss.flatten.length, BitVec.ofNat 16 s.length⟩]
    (replicate n canaryEntry) (by simp; omega)
  rw [length_entriesFrom, length_singleton, drop_replicate] at hrecord
  refine ⟨⟨d.strCount, d.strIds,
    entriesFrom 0 ss ++ [⟨BitVec.ofNat 48 ss.flatten.length, BitVec.ofNat 16 s.length⟩]
      ++ replicate (n - 1) canaryEntry,
    ss.flatten ++ s ++ replicate (k - s.length) canaryByte,
    ss.flatten.length + s.length⟩, ?_, ?_, rfl, rfl⟩
  · unfold appendToStorage
    rw [hpay]
    simp only [h.off, hcopy, ok_bind, pure_ok]
    rw [hroom]
    simp only [hcount, hrecord, ok_bind]
  · refine ⟨⟨?_, ?_, ?_, ?_⟩, ?_⟩
    · intro t ht
      rcases mem_append.mp ht with ht | ht
      · exact h.short t ht
      · rw [mem_singleton.mp ht]
        exact hs
    · rw [length_append, length_singleton]
      exact hfew
    · exact ⟨k - s.length, by simp⟩
    · refine ⟨n - 1, by omega, by omega, ?_⟩
      rw [entriesFrom_concat, zero_add]
    · simp

end Compass.Dict

namespace Compass.Dict

open List Function

-- ======== int32 access

theorem toInt32_natCast {n : Nat} (h : n < 2 ^ 31) : toInt32 n = n := by
  unfold toInt32
  rw [Int.bmod_eq_of_le] <;> omega

theorem at32_natCast {α : Type} {data : List α} {i : Nat} {x : α} (h : data[i]? = some x) :
    at32 data i = .ok x := by
  unfold at32
  rw [if_neg (by omega), Int.toNat_natCast, h]

theorem set32_natCast {α : Type} {data : List α} {i : Nat} (x : α) (h : i < data.length) :
    set32 data i x = .ok (data.set i x) := by
  unfold set32
  rw [if_neg (by rw [Int.toNat_natCast]; omega), Int.toNat_natCast]

theorem homeBucket_two_pow (hash : UInt64) (k : Nat) :
    homeBucket hash (2 ^ k) = hash.toNat % 2 ^ k := by
  unfold homeBucket
  rw [Nat.and_two_pow_sub_one_eq_mod]

theorem homeBucket_lt (hash : UInt64) {n k : Nat} (hn : n = 2 ^ k) : homeBucket hash n < n := by
  rw [hn, homeBucket_two_pow]
  exact Nat.mod_lt _ (Nat.two_pow_pos k)

-- ======== slots

/-- The string of a slot, among these strings. -/
def slotString (data : List Int) (ss : List Str) (p : Nat) : Option Str :=
  match data[p]? with
  | none => none
  | some id => if id = invalidStrId then none else ss[id.toNat]?

/-- A table of a power of two slots that holds these strings. -/
structure Holds (data : List Int) (ss : List Str) : Prop where
  size : ∃ k, data.length = 2 ^ k
  ids : ∀ id ∈ data, id = invalidStrId ∨ ∃ i < ss.length, id = (i : Int)
  layout : Probing.Layout data.length (slotString data ss)
    fun s => homeBucket (rkHash s) data.length
  complete : ∀ s ∈ ss, ∃ p < data.length, slotString data ss p = some s

variable {data : List Int} {ss : List Str} {s : Str} {p : Nat}

section

variable (h : Holds data ss)
include h

/-- What a slot can be. -/
theorem Holds.slot_cases (hp : p < data.length) :
    (data[p]? = some invalidStrId ∧ slotString data ss p = none)
      ∨ ∃ i, ∃ hi : i < ss.length, data[p]? = some (i : Int)
          ∧ slotString data ss p = some ss[i] := by
  have hget : data[p]? = some data[p] := getElem?_eq_getElem hp
  unfold slotString
  rw [hget]
  rcases h.ids data[p] (getElem_mem hp) with hid | ⟨i, hi, hid⟩
  · exact .inl ⟨by rw [hid], by simp [hid]⟩
  · refine .inr ⟨i, hi, by rw [hid], ?_⟩
    have hne : ¬ (i : Int) = invalidStrId := by
      unfold invalidStrId
      omega
    simp [hid, hne, hi]

/-- The slot of a string has its id. -/
theorem Holds.id_of_slot (hnodup : ss.Nodup) (hp : p < data.length)
    (hs : slotString data ss p = some s) : data[p]? = some (ss.idxOf s : Int) := by
  rcases h.slot_cases hp with ⟨-, hnone⟩ | ⟨i, hi, hid, hsome⟩
  · rw [hnone] at hs
    cases hs
  · rw [hsome] at hs
    rw [hid, ← Option.some.inj hs, hnodup.idxOf_getElem i hi]

omit h in
/-- A table of vacant slots holds nothing. -/
theorem holds_replicate {n k : Nat} (hn : n = 2 ^ k) :
    Holds (replicate n invalidStrId) [] := by
  have hslot : ∀ q, slotString (replicate n invalidStrId) [] q = none := by
    intro q
    unfold slotString
    split <;> simp
  refine ⟨⟨k, by rw [length_replicate, hn]⟩, ?_, ?_, ?_⟩
  · intro id hid
    exact .inl (mem_replicate.mp hid).2
  · exact Probing.layout_vacant.congr fun q _ => hslot q
  · intro s hs
    cases hs

/-- More strings than the ids of the table name change no slot. -/
theorem Holds.slotString_append (ts : List Str) (hp : p < data.length) :
    slotString data (ss ++ ts) p = slotString data ss p := by
  rcases h.slot_cases hp with ⟨hid, hnone⟩ | ⟨i, hi, hid, hsome⟩
  · rw [hnone]
    unfold slotString
    simp [hid]
  · rw [hsome]
    have hne : ¬ (i : Int) = invalidStrId := by
      unfold invalidStrId
      omega
    unfold slotString
    simp [hid, hne, getElem?_append_left hi, hi]

/-- The next id in a vacant slot that a new string's probe reaches. -/
theorem Holds.fill (hnew : s ∉ ss) (hp : p < data.length) (hnone : slotString data ss p = none)
    (hreach : Probing.Reached data.length (slotString data ss)
      (homeBucket (rkHash s) data.length) p) :
    Holds (data.set p ss.length) (ss ++ [s]) := by
  have hother : ∀ q < data.length, slotString data ss q ≠ some s := by
    intro q hq hqs
    rcases h.slot_cases hq with ⟨-, hv⟩ | ⟨i, hi, -, hv⟩
    · rw [hv] at hqs
      cases hqs
    · rw [hv] at hqs
      exact hnew (Option.some.inj hqs ▸ getElem_mem hi)
  have hslot : ∀ q < data.length, slotString (data.set p ss.length) (ss ++ [s]) q
      = update (slotString data ss) p (some s) q := by
    intro q hq
    by_cases hqp : q = p
    · have hne : ¬ (ss.length : Int) = invalidStrId := by
        unfold invalidStrId
        omega
      rw [hqp, update_self]
      unfold slotString
      simp [hp, hne]
    · rw [update_of_ne hqp, ← h.slotString_append [s] hq]
      unfold slotString
      rw [getElem?_set_ne fun e => hqp e.symm]
  refine ⟨by simpa using h.size, ?_, ?_, ?_⟩
  · intro id hid
    rcases mem_or_eq_of_mem_set hid with hid | rfl
    · rcases h.ids id hid with hv | ⟨i, hi, hv⟩
      · exact .inl hv
      · exact .inr ⟨i, by rw [length_append]; omega, hv⟩
    · exact .inr ⟨ss.length, by simp, rfl⟩
  · rw [length_set]
    exact (h.layout.fill hreach hother).congr hslot
  · intro t ht
    rw [length_set]
    rcases mem_append.mp ht with ht | ht
    · obtain ⟨q, hq, hqt⟩ := h.complete t ht
      have hqp : q ≠ p := by
        intro e
        rw [e, hnone] at hqt
        cases hqt
      refine ⟨q, hq, ?_⟩
      rw [hslot q hq, update_of_ne hqp, hqt]
    · refine ⟨p, hp, ?_⟩
      rw [hslot p hp, update_self, mem_singleton.mp ht]

/-- A table with more slots than strings has a vacant slot. -/
theorem Holds.exists_vacant (hlt : ss.length < data.length) :
    ∃ q < data.length, slotString data ss q = none := by
  refine h.layout.exists_vacant ss ?_ hlt
  intro q hq k hk
  rcases h.slot_cases hq with ⟨-, hv⟩ | ⟨i, hi, -, hv⟩
  · rw [hv] at hk
    cases hk
  · rw [hv] at hk
    exact Option.some.inj hk ▸ getElem_mem hi

end

-- ======== probes

/-- A probe that can always tell whether an id is the same is the
library's walk. -/
theorem probe_eq_search {same : Int → Except Fault Bool} {stop : Nat → Prop} [DecidablePred stop]
    (hsame : ∀ q < data.length, ∃ id, data[q]? = some id
      ∧ ((id = invalidStrId ∧ stop q)
        ∨ (id ≠ invalidStrId ∧ same id = .ok (decide (stop q)))))
    (fuel : Nat) {b : Nat} (hb : b < data.length) :
    probe data same fuel b
      = match Probing.search data.length stop fuel b with
        | some q => .ok q
        | none => .error .endless := by
  induction fuel generalizing b with
  | zero => rfl
  | succ fuel ih =>
    unfold probe Probing.search
    obtain ⟨id, hid, hv⟩ := hsame b hb
    rw [hid]
    dsimp only
    rcases hv with ⟨hinv, hstop⟩ | ⟨hinv, hsm⟩
    · rw [if_pos hinv, if_pos hstop]
    · rw [if_neg hinv, hsm]
      by_cases hstop : stop b
      · simp [hstop]
      · simp [hstop, ih (Probing.next_lt hb)]

/-- The probe that compares strings, over what the storage holds. -/
theorem probe_sameString {pageSize : Nat} {d : StringDictionary} (hst : Stored pageSize d ss)
    (h : Holds data ss) (s : Str) (fuel : Nat) {b : Nat} (hb : b < data.length) :
    probe data (sameString d s) fuel b
      = match Probing.search data.length
          (fun q => slotString data ss q = none ∨ slotString data ss q = some s) fuel b with
        | some q => .ok q
        | none => .error .endless := by
  refine probe_eq_search (fun q hq => ?_) fuel hb
  rcases h.slot_cases hq with ⟨hid, hnone⟩ | ⟨i, hi, hid, hsome⟩
  · exact ⟨_, hid, .inl ⟨rfl, .inl hnone⟩⟩
  · refine ⟨_, hid, .inr ⟨?_, ?_⟩⟩
    · unfold invalidStrId
      omega
    · unfold sameString
      rw [hst.getStringChecked_eq hi, hsome]
      simp [eq_comm]

/-- The probe that does not. -/
theorem probe_unique (h : Holds data ss) (fuel : Nat) {b : Nat} (hb : b < data.length) :
    probe data (fun _ => .ok false) fuel b
      = match Probing.search data.length (fun q => slotString data ss q = none) fuel b with
        | some q => .ok q
        | none => .error .endless := by
  refine probe_eq_search (fun q hq => ?_) fuel hb
  rcases h.slot_cases hq with ⟨hid, hnone⟩ | ⟨i, hi, hid, hsome⟩
  · exact ⟨_, hid, .inl ⟨rfl, hnone⟩⟩
  · refine ⟨_, hid, .inr ⟨?_, ?_⟩⟩
    · unfold invalidStrId
      omega
    · simp [hsome]

-- ======== buckets

/-- A table that int32 buckets can address and that is not full. -/
structure Roomy (data : List Int) (ss : List Str) : Prop extends Holds data ss where
  addressable : data.length ≤ 2 ^ 31
  room : ss.length < data.length

theorem Roomy.homeBucket_lt (h : Roomy data ss) (hash : UInt64) :
    homeBucket hash data.length < data.length := by
  obtain ⟨k, hk⟩ := h.size
  exact Dict.homeBucket_lt hash hk

variable {pageSize : Nat} {d : StringDictionary}

/-- Every probe of a table that is not full ends, whatever the hash. -/
theorem Roomy.computeBucket_returns (h : Roomy data ss) (hst : Stored pageSize d ss)
    (hash : UInt64) (s : Str) (unique : Bool) :
    ∃ b, computeBucket d hash s data unique = .ok b := by
  obtain ⟨q, hq, hnone⟩ := h.toHolds.exists_vacant h.room
  unfold computeBucket
  cases unique with
  | true =>
    have hex : ∃ e, Probing.search data.length (fun q => slotString data ss q = none)
        data.length (homeBucket hash data.length) = some e :=
      Probing.exists_search (h.homeBucket_lt hash) hq hnone
    obtain ⟨e, he⟩ := hex
    simp [probe_unique h.toHolds _ (h.homeBucket_lt hash), he]
  | false =>
    have hex : ∃ e, Probing.search data.length
        (fun q => slotString data ss q = none ∨ slotString data ss q = some s)
        data.length (homeBucket hash data.length) = some e :=
      Probing.exists_search (h.homeBucket_lt hash) hq (.inl hnone)
    obtain ⟨e, he⟩ := hex
    simp [probe_sameString hst h.toHolds s _ (h.homeBucket_lt hash), he]

/-- The bucket of a string that the table holds. -/
theorem Roomy.computeBucket_stored (h : Roomy data ss) (hst : Stored pageSize d ss) (hs : s ∈ ss) :
    ∃ p < data.length, slotString data ss p = some s
      ∧ computeBucket d (rkHash s) s data false = .ok (p : Int) := by
  obtain ⟨p, hp, hps⟩ := h.complete s hs
  have hsearch : Probing.search data.length
      (fun q => slotString data ss q = none ∨ slotString data ss q = some s)
      data.length (homeBucket (rkHash s) data.length) = some p :=
    h.layout.search_stored (fun _ _ => Iff.rfl) (h.homeBucket_lt (rkHash s)) hp hps
  refine ⟨p, hp, hps, ?_⟩
  have haddr := h.addressable
  unfold computeBucket
  simp only [Bool.false_eq_true, if_false,
    probe_sameString hst h.toHolds s _ (h.homeBucket_lt (rkHash s)), hsearch, ok_bind, pure_ok,
    toInt32_natCast (show p < 2 ^ 31 by omega)]

/-- A slot for a string that the table does not hold, where it may be
put. -/
def Vacant (data : List Int) (ss : List Str) (s : Str) (p : Nat) : Prop :=
  p < data.length ∧ data[p]? = some invalidStrId
    ∧ Holds (data.set p ss.length) (ss ++ [s])

variable (h : Roomy data ss)
include h

theorem Roomy.search_new (hs : s ∉ ss) {stop : Nat → Prop}
    [DecidablePred stop] (hstop : ∀ q < data.length, stop q ↔ slotString data ss q = none) :
    ∃ p, Probing.search data.length stop data.length (homeBucket (rkHash s) data.length) = some p
      ∧ Vacant data ss s p := by
  obtain ⟨q, hq, hnone⟩ := h.toHolds.exists_vacant h.room
  obtain ⟨p, hp, hlt, hpnone, hreach⟩ :=
    Probing.search_vacant hstop (h.homeBucket_lt (rkHash s)) hq hnone
  refine ⟨p, hp, hlt, ?_, h.toHolds.fill hs hlt hpnone hreach⟩
  rcases h.slot_cases hlt with ⟨hid, -⟩ | ⟨i, hi, -, hsome⟩
  · exact hid
  · rw [hpnone] at hsome
    cases hsome

/-- The bucket of a new string, without comparison. -/
theorem Roomy.computeBucket_unique (d : StringDictionary) (hs : s ∉ ss) :
    ∃ p : Nat, computeBucket d (rkHash s) s data true = .ok (p : Int) ∧ Vacant data ss s p := by
  have haddr := h.addressable
  obtain ⟨p, hp, hv⟩ := h.search_new hs fun _ _ => Iff.rfl
  have hlt := hv.1
  refine ⟨p, ?_, hv⟩
  unfold computeBucket
  simp only [if_true, probe_unique h.toHolds _ (h.homeBucket_lt (rkHash s)), hp, ok_bind,
    pure_ok, toInt32_natCast (show p < 2 ^ 31 by omega)]

/-- The bucket of a new string, with comparison. -/
theorem Roomy.computeBucket_new (hst : Stored pageSize d ss) (hs : s ∉ ss) :
    ∃ p : Nat, computeBucket d (rkHash s) s data false = .ok (p : Int)
      ∧ Vacant data ss s p := by
  have haddr := h.addressable
  have hstop : ∀ q < data.length, (slotString data ss q = none ∨ slotString data ss q = some s)
      ↔ slotString data ss q = none := by
    intro q hq
    refine ⟨fun hv => ?_, .inl⟩
    rcases hv with hv | hv
    · exact hv
    · rcases h.slot_cases hq with ⟨-, hn⟩ | ⟨i, hi, -, hn⟩
      · exact hn
      · rw [hn] at hv
        exact absurd (Option.some.inj hv ▸ getElem_mem hi) hs
  obtain ⟨p, hp, hv⟩ := h.search_new hs hstop
  have hlt := hv.1
  refine ⟨p, ?_, hv⟩
  unfold computeBucket
  simp only [Bool.false_eq_true, if_false,
    probe_sameString hst h.toHolds s _ (h.homeBucket_lt (rkHash s)), hp, ok_bind, pure_ok,
    toInt32_natCast (show p < 2 ^ 31 by omega)]

end Compass.Dict
