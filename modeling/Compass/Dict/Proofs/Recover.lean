/-
Recovery of a dictionary from its files.

Two dictionaries that represent the same strings cannot be told apart by
later calls (`Represents.same`), so it suffices that recovery ends in one
that represents the strings of the files (`recoverStrings_spec`). The
loop's invariant is that the table holds a first part of the strings, and
that the futures not yet gathered hold the entries of the strings after
them that have been read (`RecoveryAt`). How many strings that are
depends on the number of threads, what comes out at the end does not.

The table has room for all strings: its size is rounded up from twice the
number of records, and where this wraps around, the `2^31` slots it gets
are still twice the greatest number of strings.
-/
import Compass.Dict.Proofs.Dictionary
import Compass.Lib.Binary

namespace Compass.Dict

open Nat Prod
open Intern List Except UInt32

variable {pageSize : Nat} {d : StringDictionary} {ss : List Str} {s : Str}

-- ======== the size of the table

theorem smeared_toNat (v : UInt32) :
    let v1 := v ||| (v >>> 1)
    let v2 := v1 ||| (v1 >>> 2)
    let v3 := v2 ||| (v2 >>> 4)
    let v4 := v3 ||| (v3 >>> 8)
    (v4 ||| (v4 >>> 16)).toNat = 2 ^ v.toNat.size - 1 := by
  intro v1 v2 v3 v4
  have h1 : Smear.Reaches v.toBitVec v1.toBitVec 2 := by
    exact (Smear.reaches_self v.toBitVec).smear
  have h2 : Smear.Reaches v.toBitVec v2.toBitVec 4 := by
    exact h1.smear
  have h3 : Smear.Reaches v.toBitVec v3.toBitVec 8 := by
    exact h2.smear
  have h4 : Smear.Reaches v.toBitVec v4.toBitVec 16 := by
    exact h3.smear
  have h5 : Smear.Reaches v.toBitVec (v4 ||| (v4 >>> 16)).toBitVec 32 := by
    exact h4.smear
  exact h5.toNat_eq

/-- `round_up_p2`, up to the wrap-around. -/
theorem roundUpP2_toNat {num : Nat} (hpos : 1 ≤ num) (hlt : num < 2 ^ 32) :
    (roundUpP2 num).toNat = 2 ^ min (num - 1).size 31 := by
  have hnum : (UInt32.ofNat num).toNat = num := UInt32.toNat_ofNat_of_lt' hlt
  have hy : (UInt32.ofNat num - 1).toNat = num - 1 := by
    rw [UInt32.toNat_sub_of_le, hnum]
    · rfl
    · rw [UInt32.le_iff_toNat_le, hnum]
      exact hpos
  have hsize : (num - 1).size ≤ 32 := Nat.size_le.mpr (by omega)
  have hsmeared := smeared_toNat (UInt32.ofNat num - 1)
  rw [hy] at hsmeared
  unfold roundUpP2
  dsimp only at hsmeared ⊢
  generalize hv : (_ ||| _ : UInt32) = v at hsmeared ⊢
  by_cases h32 : (num - 1).size = 32
  · rw [h32] at hsmeared ⊢
    have hzero : v + 1 = 0 := by
      rw [← UInt32.toNat_inj, UInt32.toNat_add, hsmeared]
      rfl
    rw [if_pos hzero]
    rfl
  · have hpow : 2 ^ (num - 1).size ≤ 2 ^ 31 := Nat.pow_le_pow_right (by omega) (by omega)
    have hone : 1 ≤ 2 ^ (num - 1).size := Nat.one_le_two_pow
    have hsucc : (v + 1).toNat = 2 ^ (num - 1).size := by
      rw [UInt32.toNat_add, hsmeared]
      show (2 ^ (num - 1).size - 1 + 1) % 2 ^ 32 = _
      rw [Nat.sub_add_cancel hone, Nat.mod_eq_of_lt (by omega)]
    have hne : ¬ v + 1 = 0 := by
      intro h0
      rw [h0] at hsucc
      have : (0 : UInt32).toNat = 0 := rfl
      omega
    rw [if_neg hne, hsucc, Nat.min_eq_left (by omega)]

-- ======== the recovered strings

/-- What is kept of a string between reading it and gathering it. -/
def hashEntry (s : Str) : HashEntry :=
  ((rkHash s).toUInt32, UInt32.ofNat s.length)

/-- The strings read by one future, as far as there are any. -/
theorem recoverBatch_spec (h : Mapped pageSize d ss) (n i : Nat) (hn : i + n ≤ d.offsetMap.length) :
    recoverBatch d n i = .ok (((ss.drop i).take n).map hashEntry) := by
  induction n generalizing i with
  | zero => rfl
  | succ n ih =>
    unfold recoverBatch
    by_cases hi : i < ss.length
    · rw [h.getStringFromStorage_eq hi, ok_bind]
      rw [ih (i + 1) (by omega), drop_eq_getElem_cons hi]
      rfl
    · rw [h.getStringFromStorage_canary (by omega) (by omega), drop_eq_nil_of_le (by omega)]
      rfl

/-- The lower 32 bits of a hash name the same first bucket. -/
theorem homeBucket_truncate (hash : UInt64) {n k : Nat} (hn : n = 2 ^ k) (h31 : n ≤ 2 ^ 31) :
    homeBucket hash.toUInt32.toUInt64 n = homeBucket hash n := by
  have hk : k ≤ 31 := (Nat.pow_le_pow_iff_right (by omega)).mp (hn ▸ h31)
  rw [hn, homeBucket_two_pow, homeBucket_two_pow, toNat_toUInt64, UInt64.toNat_toUInt32,
    Nat.mod_mod_of_dvd _ (Nat.pow_dvd_pow 2 (by omega))]

/-- The bucket search of recovery is the one of rehashing. -/
theorem computeUniqueBucketWithHash_eq {data : List Int} (hdata : ∃ k, data.length = 2 ^ k)
    (h31 : data.length ≤ 2 ^ 31) (d : StringDictionary) (s : Str) :
    computeUniqueBucketWithHash (rkHash s).toUInt32.toUInt64 data
      = computeBucket d (rkHash s) s data true := by
  obtain ⟨k, hk⟩ := hdata
  unfold computeUniqueBucketWithHash computeBucket
  rw [homeBucket_truncate _ hk h31, if_pos rfl]

-- ======== the gathering

/-- The first `i` strings of the files have been gathered. -/
structure Gathered (pageSize strCount n : Nat) (ss : List Str) (i : Nat)
    (d : StringDictionary) : Prop where
  mapped : Mapped pageSize d ss
  records : d.offsetMap.length = strCount
  upTo : i ≤ ss.length
  count : d.strCount = i
  off : d.payloadFileOff = (ss.take i).flatten.length
  holds : Holds d.strIds (ss.take i)
  size : d.strIds.length = n

variable {strCount n i : Nat}

/-- Gathering the next string. -/
theorem Gathered.recoverString_spec (h : Gathered pageSize strCount n ss i d) (hnodup : ss.Nodup)
    (h31 : n ≤ 2 ^ 31) (hroom : ss.length < n) (hi : i < ss.length) :
    ∃ d', recoverString d (hashEntry ss[i]) = .ok d' ∧
      Gathered pageSize strCount n ss (i + 1) d' := by
  have hsize := h.size
  have htake : (ss.take i).length = i := by
    rw [length_take]
    omega
  have hroomy : Roomy d.strIds (ss.take i) := ⟨h.holds, by omega, by omega⟩
  obtain ⟨p, hb, hlt, -, hfill⟩ := hroomy.computeBucket_unique d (nodup_take_succ hnodup hi)
  rw [htake] at hfill
  have hshort := h.mapped.short ss[i] (getElem_mem hi)
  unfold maxStrlen at hshort
  have hword : (ofNat ss[i].length).toNat = ss[i].length :=
    toNat_ofNat_of_lt' (show ss[i].length < 2 ^ 32 by omega)
  refine ⟨{ d with
    strIds := d.strIds.set p i
    payloadFileOff := d.payloadFileOff + ss[i].length
    strCount := i + 1 }, ?_, ?_⟩
  · unfold recoverString hashEntry
    rw [computeUniqueBucketWithHash_eq h.holds.size (by omega) d ss[i], hb, ok_bind, h.count,
      toInt32_natCast (by omega), set32_natCast _ hlt, hword]
    rfl
  · refine ⟨h.mapped.congr rfl rfl, h.records, hi, rfl, ?_, ?_, ?_⟩
    · show d.payloadFileOff + ss[i].length = _
      rw [h.off, take_succ_eq_append_getElem hi, flatten_append, length_append, flatten_singleton]
    · rwa [take_succ_eq_append_getElem hi]
    · rwa [length_set]

/-- The strings from one id up to another. -/
def segment (ss : List Str) (i e : Nat) : List Str :=
  (ss.drop i).take (e - i)

theorem segment_append {e e' : Nat} (hi : i ≤ e) (he : e ≤ e') :
    segment ss i e ++ segment ss e e' = segment ss i e' := by
  unfold segment
  rw [show e' - i = e - i + (e' - e) by omega, take_add, drop_drop, show i + (e - i) = e by omega]

/-- Gathering a segment of strings. -/
theorem Gathered.foldlM_spec {e : Nat} (h : Gathered pageSize strCount n ss i d) (hnodup : ss.Nodup)
    (h31 : n ≤ 2 ^ 31) (hroom : ss.length < n) (hie : i ≤ e) (he : e ≤ ss.length) :
    ∃ d', ((segment ss i e).map hashEntry).foldlM recoverString d = .ok d'
      ∧ Gathered pageSize strCount n ss e d' := by
  obtain ⟨j, rfl⟩ := Nat.exists_eq_add_of_le hie
  unfold segment
  rw [Nat.add_sub_cancel_left]
  induction j generalizing i d with
  | zero => exact ⟨d, rfl, h⟩
  | succ j ih =>
    obtain ⟨d1, hstep, h1⟩ := h.recoverString_spec hnodup h31 hroom (by omega)
    obtain ⟨d2, hrest, h2⟩ := ih h1 (by omega) (by omega)
    refine ⟨d2, ?_, ?_⟩
    · rw [drop_eq_getElem_cons (by omega), take_succ_cons, map_cons,
        foldlM_cons, hstep, ok_bind, hrest]
    · rwa [show i + (j + 1) = i + 1 + j by omega]

theorem processDictionaryFutures_eq (d : StringDictionary) (futures : List (List HashEntry)) :
    processDictionaryFutures d futures = futures.flatten.foldlM recoverString d := by
  unfold processDictionaryFutures
  induction futures generalizing d with
  | nil => rfl
  | cons f futures ih =>
    rw [foldlM_cons, flatten_cons, foldlM_append]
    cases f.foldlM recoverString d with
    | error e => rfl
    | ok d' => exact ih d'

-- ======== the rounds

/-- The first `i` strings have been gathered, and the futures hold what is
kept of those from there up to `e`. -/
structure RecoveryAt (pageSize strCount n : Nat) (ss : List Str) (i e : Nat) (r : Recovery) :
    Prop where
  gathered : Gathered pageSize strCount n ss i r.dict
  ordered : i ≤ e
  upTo : e ≤ ss.length
  pending : r.dictionaryFutures.flatten = (segment ss i e).map hashEntry

variable {e : Nat} {r : Recovery}

/-- Gathering all that is pending. -/
theorem RecoveryAt.process_spec (h : RecoveryAt pageSize strCount n ss i e r) (hnodup : ss.Nodup)
    (h31 : n ≤ 2 ^ 31) (hroom : ss.length < n) :
    ∃ d', processDictionaryFutures r.dict r.dictionaryFutures = .ok d'
      ∧ Gathered pageSize strCount n ss e d' := by
  rw [processDictionaryFutures_eq, h.pending]
  exact h.gathered.foldlM_spec hnodup h31 hroom h.ordered h.upTo

/-- The strings of one batch. -/
theorem batch_segment (m : Nat) (hcount : ss.length ≤ strCount) :
    (ss.drop m).take (min itemsPerThread (strCount - m))
      = segment ss (min m ss.length) (min (m + itemsPerThread) ss.length) := by
  unfold segment
  by_cases hm : m < ss.length
  · rw [Nat.min_eq_left (Nat.le_of_lt hm), take_eq_take_iff, length_drop]
    omega
  · rw [Nat.min_eq_right (show ss.length ≤ m by omega),
      Nat.min_eq_right (show ss.length ≤ m + itemsPerThread by omega), Nat.sub_self,
      drop_eq_nil_of_le (by omega), take_nil, take_zero]

variable {threadCount : Nat}

/-- One round reads one batch more, and may gather what was read. -/
theorem RecoveryAt.recoverRound_spec {m : Nat}
    (h : RecoveryAt pageSize strCount n ss i (min m ss.length) r) (hnodup : ss.Nodup)
    (h31 : n ≤ 2 ^ 31) (hroom : ss.length < n) (hthreads : 0 < threadCount)
    (hcount : ss.length ≤ strCount) (hm : m ≤ strCount) :
    ∃ r' i', recoverRound threadCount strCount r m = .ok r'
      ∧ RecoveryAt pageSize strCount n ss i' (min (m + itemsPerThread) ss.length) r' := by
  have hordered := h.ordered
  have hbatch := recoverBatch_spec h.gathered.mapped (min itemsPerThread (strCount - m)) m
    (by rw [h.gathered.records]; omega)
  rw [batch_segment m hcount] at hbatch
  -- the state with the new future, before it is decided whether to gather
  have hread : RecoveryAt pageSize strCount n ss i (min (m + itemsPerThread) ss.length)
      ⟨r.dict, r.dictionaryFutures
        ++ [(segment ss (min m ss.length) (min (m + itemsPerThread) ss.length)).map hashEntry],
        r.threadInits + 1⟩ := by
    refine ⟨h.gathered, by omega, by omega, ?_⟩
    rw [flatten_append, flatten_singleton, h.pending, ← map_append,
      segment_append h.ordered (by omega)]
  unfold recoverRound
  rw [hbatch, ok_bind, if_neg (by omega)]
  split
  case isTrue =>
    obtain ⟨d', hprocess, hgathered⟩ := hread.process_spec hnodup h31 hroom
    refine ⟨⟨d', [], r.threadInits + 1⟩, min (m + itemsPerThread) ss.length, ?_, hgathered,
      Nat.le_refl _, by omega, ?_⟩
    · dsimp only at hprocess ⊢
      rw [hprocess]
      rfl
    · unfold segment
      rw [Nat.sub_self]
      rfl
  case isFalse => exact ⟨_, i, rfl, hread⟩

/-- All rounds: every record has been read. -/
theorem recoverRounds_spec (hg : Gathered pageSize strCount n ss 0 d) (hnodup : ss.Nodup)
    (h31 : n ≤ 2 ^ 31) (hroom : ss.length < n) (hthreads : 0 < threadCount)
    (hcount : ss.length ≤ strCount) :
    ∃ r i, (batchStarts strCount).foldlM (recoverRound threadCount strCount) ⟨d, [], 0⟩ = .ok r
      ∧ RecoveryAt pageSize strCount n ss i ss.length r := by
  have hrounds : ∀ j ≤ (strCount + itemsPerThread - 1) / itemsPerThread, ∃ r i,
      ((range j).map (· * itemsPerThread)).foldlM (recoverRound threadCount strCount)
          ⟨d, [], 0⟩ = .ok r
        ∧ RecoveryAt pageSize strCount n ss i (min (j * itemsPerThread) ss.length) r := by
    intro j hj
    induction j with
    | zero => exact ⟨_, 0, rfl, hg, zero_le _, zero_le _, rfl⟩
    | succ j ih =>
      obtain ⟨r, i, hrun, h⟩ := ih (by omega)
      have hm : j * itemsPerThread ≤ strCount := by
        unfold itemsPerThread at hj ⊢
        omega
      obtain ⟨r', i', hround, h'⟩ := h.recoverRound_spec hnodup h31 hroom hthreads hcount hm
      refine ⟨r', i', ?_, ?_⟩
      · rw [range_succ, map_append, foldlM_append, hrun, ok_bind, map_cons,
          map_nil, foldlM_cons, hround]
        rfl
      · rwa [succ_mul]
  obtain ⟨r, i, hrun, h⟩ := hrounds _ (le_refl _)
  refine ⟨r, i, hrun, ?_⟩
  have hall : ss.length ≤ (strCount + itemsPerThread - 1) / itemsPerThread * itemsPerThread := by
    unfold itemsPerThread
    omega
  rwa [min_eq_right hall] at h

-- ======== the dictionary

/-- The table that recovery makes for so many records. -/
theorem tableSize_spec {count : Nat} (hpos : 1 ≤ count) (hlt : count < 2 ^ 31) :
    ∃ k, (roundUpP2 ((count * 2 + 1) % 2 ^ 32)).toNat = 2 ^ k ∧ 2 ≤ 2 ^ k ∧ 2 ^ k ≤ 2 ^ 31
      ∧ ∀ m < count, m ≤ maxStrcount → 2 * m ≤ 2 ^ k := by
  rw [Nat.mod_eq_of_lt (by omega), roundUpP2_toNat (by omega) (by omega), Nat.add_sub_cancel]
  have hsize : 2 ≤ (count * 2).size := Nat.lt_size.mpr (by omega)
  refine ⟨_, rfl, ?_, ?_, ?_⟩
  · exact Nat.pow_le_pow_right (show 0 < 2 by omega) (show 1 ≤ min (count * 2).size 31 by omega)
  · exact Nat.pow_le_pow_right (by omega) (Nat.min_le_right _ _)
  · intro m hm hmax
    unfold maxStrcount at hmax
    by_cases h31 : (count * 2).size ≤ 31
    · rw [Nat.min_eq_left h31]
      have := Nat.lt_size_self (count * 2)
      omega
    · rw [Nat.min_eq_right (by omega)]
      omega

/-- The records counted in the offsets file. -/
theorem offsetRecords_eq (h : Mapped pageSize d ss) (hpage : pageSize ≤ 2 ^ 20) :
    d.offsetFileSize / sizeofStringIdxEntry % 2 ^ 32 = d.offsetMap.length := by
  obtain ⟨c, -, hc, hoffs⟩ := h.offsets
  have hlen : d.offsetMap.length = ss.length + c := by
    rw [hoffs, length_append, length_entriesFrom, length_replicate]
  have hfew := h.few
  unfold maxStrcount at hfew
  unfold StringDictionary.offsetFileSize sizeofStringIdxEntry
  rw [Nat.mul_div_cancel_left _ (by omega), Nat.mod_eq_of_lt (by omega)]

/-- Recovery represents the strings of the files. -/
theorem recoverStrings_spec (h : Mapped pageSize d ss) (hstart : d.strCount = 0)
    (hoff : d.payloadFileOff = 0) (hnodup : ss.Nodup) (hpage : pageSize ≤ 2 ^ 20)
    (hthreads : 0 < threadCount) :
    ∃ d', recoverStrings threadCount d = .ok d' ∧ Represents pageSize d' ss := by
  obtain ⟨c, hc1, hc, hoffs⟩ := h.offsets
  have hlen : d.offsetMap.length = ss.length + c := by
    rw [hoffs, length_append, length_entriesFrom, length_replicate]
  have hfew := h.few
  unfold maxStrcount at hfew
  obtain ⟨k, hk, hk2, hk31, hroom⟩ :=
    tableSize_spec (show 1 ≤ d.offsetMap.length by omega) (by omega)
  have hload := hroom ss.length (by omega) h.few
  have hg : Gathered pageSize d.offsetMap.length (2 ^ k) ss 0
      { d with strIds := replicate (2 ^ k) invalidStrId } :=
    ⟨h.congr rfl rfl, rfl, zero_le _, hstart, hoff, holds_replicate rfl, length_replicate⟩
  obtain ⟨r, i, hrun, hr⟩ := recoverRounds_spec hg hnodup hk31 (by omega) hthreads (by omega)
  obtain ⟨d', hprocess, hall⟩ := hr.process_spec hnodup hk31 (by omega)
  refine ⟨d', ?_, hnodup, hall.count, ⟨hall.mapped, ?_⟩, ?_, ?_, ?_, ?_⟩
  · unfold recoverStrings
    rw [offsetRecords_eq h hpage]
    dsimp only
    rw [hk, hrun, ok_bind]
    split
    case isTrue => exact hprocess
    case isFalse hnone =>
      -- nothing is pending, so gathering it again changes nothing
      have hnil : r.dictionaryFutures = [] := length_eq_zero_iff.mp (by omega)
      rw [hnil] at hprocess
      exact hprocess
  · rw [hall.off, take_length]
  · have := hall.holds
    rwa [take_length] at this
  · rw [hall.size]
    exact hk31
  · rw [hall.size]
    exact hk2
  · rw [hall.size]
    exact hload

/-- Over the files of a dictionary, the constructor recovers from
mappings that hold the same strings. -/
theorem construct_checkpoint (threadCount k : Nat) (h : Stored pageSize d ss) :
    ∃ d0, construct pageSize threadCount (checkpoint d) false true (2 ^ k)
        = recoverStrings threadCount d0
      ∧ Mapped pageSize d0 ss ∧ d0.strCount = 0 ∧ d0.payloadFileOff = 0 := by
  obtain ⟨p, hpay⟩ := h.payload
  obtain ⟨c, hc1, hc, hoffs⟩ := h.offsets
  refine ⟨initialDictionary pageSize (checkpoint d) (2 ^ k), ?_, ?_⟩
  · unfold construct
    rw [if_neg (by rw [and_two_pow_sub_one_eq_mod, mod_self]; simp)]
    rfl
  have hrecords : ¬ sizeofStringIdxEntry * d.offsetMap.length = 0 := by
    rw [hoffs, length_append, length_replicate]
    unfold sizeofStringIdxEntry
    omega
  unfold initialDictionary checkpoint StringDictionary.payloadFileSize
    StringDictionary.offsetFileSize addPayloadCapacity
  by_cases hempty : d.payloadMap.length = 0
  · simp only [hempty, if_true, hrecords, if_false]
    refine ⟨⟨h.short, h.few, ⟨p + canaryBuffSize pageSize, ?_⟩, h.offsets⟩, trivial, trivial⟩
    rw [hpay, append_assoc, replicate_append_replicate]
  · simp only [hempty, if_false, hrecords]
    exact ⟨⟨h.short, h.few, h.payload, h.offsets⟩, trivial, trivial⟩

/-- A dictionary made over the files of another represents the same
strings. -/
theorem construct_recover_spec {k : Nat} (h : Stored pageSize d ss) (hnodup : ss.Nodup)
    (hpage : pageSize ≤ 2 ^ 20) (hthreads : 0 < threadCount) :
    ∃ d', construct pageSize threadCount (checkpoint d) false true (2 ^ k) = .ok d'
      ∧ Represents pageSize d' ss := by
  obtain ⟨d0, hconstruct, hmapped, hstart, hoff⟩ := construct_checkpoint threadCount k h
  rw [hconstruct]
  exact recoverStrings_spec hmapped hstart hoff hnodup hpage hthreads

/-- Where the number of threads is not known, recovery divides by zero in
its first round. -/
theorem recoverStrings_no_threads (h : Mapped pageSize d ss) (hpage : pageSize ≤ 2 ^ 20) :
    recoverStrings 0 d = .error .divide := by
  obtain ⟨c, hc1, hc, hoffs⟩ := h.offsets
  have hlen : d.offsetMap.length = ss.length + c := by
    rw [hoffs, length_append, length_entriesFrom, length_replicate]
  unfold recoverStrings
  rw [offsetRecords_eq h hpage]
  dsimp only
  generalize replicate _ invalidStrId = ids
  obtain ⟨m, hm⟩ : ∃ m, (d.offsetMap.length + itemsPerThread - 1) / itemsPerThread = m + 1 := by
    refine ⟨(d.offsetMap.length + itemsPerThread - 1) / itemsPerThread - 1, ?_⟩
    unfold itemsPerThread
    omega
  have hbatch := recoverBatch_spec (d := { d with strIds := ids }) (h.congr rfl rfl)
    (min itemsPerThread (d.offsetMap.length - 0 * itemsPerThread)) (0 * itemsPerThread)
    (by show _ ≤ d.offsetMap.length; omega)
  unfold batchStarts
  rw [hm, range_succ_eq_map, map_cons, foldlM_cons]
  unfold recoverRound
  rw [hbatch, ok_bind, if_pos rfl]
  rfl

-- ======== indistinguishable

/-- At the limit a new string aborts. -/
theorem getOrAddImpl_limit (h : Represents pageSize d ss) (hpos : 0 < s.length)
    (hlen : s.length ≤ maxStrlen) (hfull : maxStrcount ≤ ss.length) (hs : s ∉ ss) :
    getOrAddImpl pageSize d s = .error .check := by
  obtain ⟨p, hb, hat, -⟩ := h.roomy.lookup_new h.stored hs
  have haddr := h.addressable
  have hgrow : increaseCapacity d = .error .check := by
    unfold increaseCapacity
    rw [h.count, if_pos hfull]
  have hfill : fillRateIsHigh d = true := by
    unfold maxStrcount at hfull
    unfold fillRateIsHigh
    rw [h.count, decide_eq_true_iff]
    omega
  unfold getOrAddImpl
  rw [if_neg (by omega), if_neg (by omega), hb, ok_bind, hat, ok_bind, if_neg (by simp)]
  unfold addString
  rw [hb, ok_bind, hat, ok_bind, if_pos rfl, hfill, if_pos rfl, hgrow]
  rfl

variable {d' : StringDictionary}

section

variable (hpage : 4096 ≤ pageSize)
include hpage

section

variable (h : Represents pageSize d ss)
include h

/-- A call returns the same on both dictionaries, and leaves two that
again represent the same strings, or fails alike on both. -/
theorem Represents.getOrAdd_same (h' : Represents pageSize d' ss) (s : Str) :
    (∃ e, getOrAdd pageSize d s = .error e ∧ getOrAdd pageSize d' s = .error e)
      ∨ ∃ d1 d1' id ss1, getOrAdd pageSize d s = .ok (d1, id)
        ∧ getOrAdd pageSize d' s = .ok (d1', id)
        ∧ Represents pageSize d1 ss1 ∧ Represents pageSize d1' ss1 := by
  unfold getOrAdd
  by_cases hpos : s.length = 0
  · refine .inr ⟨d, d', nullStrId, ss, ?_, ?_, h, h'⟩
    · unfold getOrAddImpl
      rw [if_pos hpos]
      rfl
    · unfold getOrAddImpl
      rw [if_pos hpos]
      rfl
  by_cases hlen : s.length ≤ maxStrlen
  · by_cases hfew : (intern ss s).length ≤ maxStrcount
    · obtain ⟨d1, hadd, h1⟩ := getOrAddImpl_spec hpage h (by omega) hlen hfew
      obtain ⟨d1', hadd', h1'⟩ := getOrAddImpl_spec hpage h' (by omega) hlen hfew
      exact .inr ⟨d1, d1', _, _, hadd, hadd', h1, h1'⟩
    · have hs : s ∉ ss := by
        intro hs
        rw [intern_of_mem hs] at hfew
        exact hfew h.stored.few
      rw [intern_of_not_mem hs, length_append, length_singleton] at hfew
      exact .inl ⟨.check, getOrAddImpl_limit h (by omega) hlen (by omega) hs,
        getOrAddImpl_limit h' (by omega) hlen (by omega) hs⟩
  · refine .inl ⟨.check, ?_, ?_⟩
    · unfold getOrAddImpl
      rw [if_neg hpos, if_pos (by omega)]
    · unfold getOrAddImpl
      rw [if_neg hpos, if_pos (by omega)]

omit h in
/-- Likewise a sequence of calls. -/
theorem Represents.getOrAddAll_same (strs : List Str)
    (h : Represents pageSize d ss) (h' : Represents pageSize d' ss) :
    (getOrAddAll pageSize d' strs).map snd = (getOrAddAll pageSize d strs).map snd := by
  induction strs generalizing d d' ss with
  | nil => rfl
  | cons s strs ih =>
    unfold getOrAddAll
    rcases h.getOrAdd_same hpage h' s with
      ⟨e, hadd, hadd'⟩ | ⟨d1, d1', id, ss1, hadd, hadd', h1, h1'⟩
    · rw [hadd, hadd']
    · rw [hadd, hadd', ok_bind, ok_bind]
      have hrest := ih h1 h1'
      dsimp only
      generalize getOrAddAll pageSize d1' strs = out' at hrest ⊢
      generalize getOrAddAll pageSize d1 strs = out at hrest ⊢
      cases out' with
      | error e' =>
        cases out with
        | error e => exact hrest
        | ok out => cases hrest
      | ok out' =>
        cases out with
        | error e => cases hrest
        | ok out =>
          have hids : out'.2 = out.2 := ok.inj hrest
          show ok (id :: out'.2) = ok (id :: out.2)
          rw [hids]

/-- Two dictionaries that represent the same strings do the same. -/
theorem Represents.same (h' : Represents pageSize d' ss) : SameDictionary pageSize d d' := by
  refine ⟨?_, ?_, ?_, fun strs => h.getOrAddAll_same hpage strs h'⟩
  · rw [h.count, h'.count]
  · rw [h.stored.off, h'.stored.off]
  · intro s
    rw [h.getIdOfString_eq s, h'.getIdOfString_eq s]

/-- Calls lead from a dictionary that represents strings to another
one. -/
theorem Represents.getOrAddAll_represents {strs : List Str} {ids : List Int}
    (hrun : getOrAddAll pageSize d strs = .ok (d', ids)) :
    ∃ ss', Represents pageSize d' ss' := by
  induction strs generalizing d ss ids with
  | nil =>
    obtain ⟨rfl, -⟩ := mk.inj (ok.inj hrun)
    exact ⟨ss, h⟩
  | cons s strs ih =>
    unfold getOrAddAll at hrun
    rcases h.getOrAdd_same hpage h s with ⟨e, hadd, -⟩ | ⟨d1, -, id, ss1, hadd, -, h1, -⟩
    · rw [hadd] at hrun
      cases hrun
    · rw [hadd, ok_bind] at hrun
      dsimp only at hrun
      cases hrest : getOrAddAll pageSize d1 strs with
      | error e =>
        rw [hrest] at hrun
        cases hrun
      | ok out =>
        rw [hrest, ok_bind] at hrun
        obtain ⟨rfl, -⟩ := mk.inj (ok.inj hrun)
        exact ih h1 hrest

end

-- ======== the results

/-- A dictionary with one slot and a string in it hangs on the next
string, the recovered one does not. -/
theorem one_slot_recovered (hpage' : pageSize ≤ 2 ^ 20) (hthreads : 0 < threadCount) (k : Nat) :
    ∃ d d', getOrAddAll pageSize (initialDictionary pageSize .empty 1) [[97]] = .ok (d, [0])
      ∧ construct pageSize threadCount (checkpoint d) false true (2 ^ k) = .ok d'
      ∧ getOrAddAll pageSize d [[98]] = .error .endless
      ∧ (getOrAddAll pageSize d' [[98]]).map snd = .ok [1] := by
  obtain ⟨d, hadd, hst, hholds, -, hfull⟩ :=
    one_slot_first (s := [97]) hpage (by decide) (by decide)
  obtain ⟨d', hrec, hd'⟩ := construct_recover_spec (k := k) hst (nodup_singleton _) hpage'
    hthreads
  obtain ⟨d2, hnext, -⟩ := getOrAddImpl_spec (s := [98]) hpage hd' (by decide) (by decide)
    (by decide)
  refine ⟨d, d', ?_, hrec, ?_, ?_⟩
  · unfold getOrAddAll
    rw [hadd]
    rfl
  · have hhang : getOrAdd pageSize d [98] = .error .endless := by
      unfold getOrAdd getOrAddImpl
      rw [if_neg (by decide), if_neg (by decide), computeBucket_full hst hholds hfull (by decide)]
      rfl
    unfold getOrAddAll
    rw [hhang]
    rfl
  · have hone : getOrAdd pageSize d' [98] = .ok (d2, 1) := hnext
    unfold getOrAddAll
    rw [hone]
    rfl

end

/-- Recovery is exact exactly when the dictionary started with at least 2
and at most `2^31` slots and the number of threads is known. -/
theorem recoversExactly_iff (pageSize threadCount : Nat) (files : DictFiles)
    (initialCapacity newCapacity : Nat) (hpage : 4096 ≤ pageSize) (hpage' : pageSize ≤ 2 ^ 20)
    (hpow : initialCapacity.isPowerOfTwo) (hnew : newCapacity.isPowerOfTwo) :
    RecoversExactly pageSize threadCount files initialCapacity newCapacity
      ↔ (2 ≤ initialCapacity ∧ initialCapacity ≤ 2 ^ 31) ∧ 0 < threadCount := by
  obtain ⟨k, rfl⟩ := hpow
  obtain ⟨l, rfl⟩ := hnew
  unfold RecoversExactly
  rw [construct_new]
  constructor
  · intro h
    have hstored := initialDictionary_stored hpage (2 ^ k)
    obtain ⟨d0, hrec0, hsame0⟩ := h [] (initialDictionary pageSize .empty (2 ^ k)) [] rfl
    have hthreads : 0 < threadCount := by
      by_contra hzero
      obtain rfl : threadCount = 0 := by omega
      obtain ⟨d1, hconstruct, hmapped, -⟩ := construct_checkpoint 0 l hstored
      rw [hconstruct, recoverStrings_no_threads hmapped hpage'] at hrec0
      cases hrec0
    refine ⟨⟨?_, ?_⟩, hthreads⟩
    · by_contra hsmall
      have hk : k = 0 := by
        by_contra hne
        have := Nat.pow_le_pow_right (show 0 < 2 by omega) (show 1 ≤ k by omega)
        omega
      rw [hk, Nat.pow_zero] at h
      obtain ⟨d, d', hrun, hrec, hlive, hnext⟩ := one_slot_recovered hpage hpage' hthreads l
      obtain ⟨d'', hrec', hsame⟩ := h [[97]] d [0] hrun
      obtain rfl : d' = d'' := Except.ok.inj (hrec.symm.trans hrec')
      have hlater := hsame.later [[98]]
      rw [hlive, hnext] at hlater
      cases hlater
    · by_contra hlarge
      have hk : 32 ≤ k := by
        by_contra hlt
        have := Nat.pow_le_pow_right (show 0 < 2 by omega) (show k ≤ 31 by omega)
        omega
      obtain ⟨d', hrec, hd'⟩ := construct_recover_spec (k := l) hstored nodup_nil hpage'
        hthreads
      obtain rfl : d' = d0 := Except.ok.inj (hrec.symm.trans hrec0)
      have hid := hsame0.ids [102, 105, 122, 122]
      rw [many_slots_lookup hk, hd'.getIdOfString_eq] at hid
      cases hid
  · intro ⟨⟨h2, h31⟩, hthreads⟩ strs d ids hrun
    obtain ⟨ss, hd⟩ :=
      (initialDictionary_represents hpage h2 h31).getOrAddAll_represents hpage hrun
    obtain ⟨d', hrec, hd'⟩ := construct_recover_spec (k := l) hd.stored hd.nodup hpage' hthreads
    exact ⟨d', hrec, hd.same hpage hd'⟩

/-- The catalog's dictionaries, with 256 slots, pages of 4096 bytes and 8
threads. -/
theorem recoversExactly_catalog :
    RecoversExactly 4096 8 .empty 256 256 ∧ ((2 ≤ 256 ∧ 256 ≤ 2 ^ 31) ∧ 0 < 8) :=
  have hiff := recoversExactly_iff 4096 8 .empty 256 256 (by decide) (by decide) ⟨8, rfl⟩ ⟨8, rfl⟩
  ⟨hiff.mpr (by decide), by decide⟩

/-- With one slot the live dictionary hangs on the string "b" after "a",
and the one recovered from its files gives it the id 1. -/
theorem one_slot_recovery_differs :
    ¬ RecoversExactly 4096 8 .empty 1 256
      ∧ ∃ d d', getOrAddAll 4096 (initialDictionary 4096 .empty 1) [[97]] = .ok (d, [0])
        ∧ construct 4096 8 (checkpoint d) false true 256 = .ok d'
        ∧ getOrAddAll 4096 d [[98]] = .error .endless
        ∧ (getOrAddAll 4096 d' [[98]]).map Prod.snd = .ok [1] := by
  obtain ⟨d, d', hrun, hrec, hlive, hnext⟩ :=
    one_slot_recovered (show 4096 ≤ 4096 by decide) (by decide) (show 0 < 8 by decide) 8
  refine ⟨?_, d, d', hrun, hrec, hlive, hnext⟩
  intro h
  have hnew : construct 4096 8 .empty false false 1 = .ok (initialDictionary 4096 .empty 1) :=
    construct_new 4096 8 .empty false 0
  obtain ⟨d'', hrec', hsame⟩ := h [[97]] d [0] (by rw [hnew, ok_bind, hrun])
  obtain rfl : d' = d'' := Except.ok.inj (hrec.symm.trans hrec')
  have hlater := hsame.later [[98]]
  rw [hlive, hnext] at hlater
  cases hlater

end Compass.Dict
