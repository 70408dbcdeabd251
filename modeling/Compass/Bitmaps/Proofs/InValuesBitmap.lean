/-
A bitmap answers as its list does, unless the list has both a null and a
value.

`Scanned` is what the loop for the bounds knows of the entries so far. From
it every bit that is written lies between the bounds, so the construction
never leaves the bitmap, and `lookup_eq` reads the emitted lookup as
membership among the values. What SQL answers is `sqlIn_value`; the two
part where no entry is the needle and one is null.
-/
import Compass.Bitmaps.InValuesBitmap
import Compass.Lib.Results

namespace Compass.Bitmaps

open List Option Function
open Int64

-- ======== int64_t indices

/-- The index of a value that is not below the least one. -/
theorem int64Sub_index {x y : Int64} (hle : y.toInt ≤ x.toInt) (hlt : x.toInt - y.toInt < 2 ^ 63) :
    ∃ d, int64Sub x y = some d ∧ d.toUInt64.toNat = (x.toInt - y.toInt).toNat := by
  refine ⟨x - y, by rw [int64Sub, if_pos (by omega)], ?_⟩
  have hsub : (x - y).toInt = x.toInt - y.toInt := by
    rw [toInt_sub]
    exact Int.bmod_eq_of_le (by omega) (by omega)
  have hpos : (0 : Int64) ≤ x - y := by
    rw [le_iff_toInt_le, hsub]
    exact Int.sub_nonneg_of_le hle
  rw [toNat_toUInt64_of_le hpos, toNatClampNeg, hsub]

variable {minVal : Int64}

theorem aggCountDistinctBitmap_eq {v : Int64} (bitset : List Bitmap.Byte)
    (hle : minVal.toInt ≤ v.toInt) (hlt : v.toInt - minVal.toInt < 2 ^ 63) :
    aggCountDistinctBitmap bitset v minVal
      = Bitmap.insert bitset (v.toInt - minVal.toInt).toNat := by
  obtain ⟨d, hsub, hd⟩ := int64Sub_index hle hlt
  simp only [aggCountDistinctBitmap, hsub, bind_eq_bind, bind_some, hd]

-- ======== bounds

/-- What is known after the entries `vs`. -/
structure Scanned (nullVal : Int64) (vs : List Int64) (s : Scan) : Prop where
  null : s.rhsHasNull = true ↔ nullVal ∈ vs
  inside : ∀ v ∈ vs, v ≠ nullVal → s.minVal.toInt ≤ v.toInt ∧ v.toInt ≤ s.maxVal.toInt
  none : (∀ v ∈ vs, v = nullVal) → s.minVal = Int64.maxValue ∧ s.maxVal = Int64.minValue

variable {nullVal : Int64} {values vs : List Int64} {b : InValuesBitmap}

theorem Scanned.init : Scanned nullVal [] Scan.init :=
  ⟨by simp [Scan.init], by simp, fun _ => ⟨rfl, rfl⟩⟩

theorem Scanned.step {s : Scan} (h : Scanned nullVal vs s) (value : Int64) :
    Scanned nullVal (vs ++ [value]) (s.step nullVal value) := by
  by_cases hvalue : value = nullVal
  · rw [Scan.step, if_pos hvalue]
    refine ⟨by simp [hvalue], ?_, fun hall => h.none fun v hv => ?_⟩
    swap
    · exact hall v (mem_append_left _ hv)
    intro v hv hne
    rcases mem_append.mp hv with hv | hv
    · exact h.inside v hv hne
    · exact absurd ((mem_singleton.mp hv).trans hvalue) hne
  · rw [Scan.step, if_neg hvalue]
    have hmin : (if value < s.minVal then value else s.minVal).toInt
        = min value.toInt s.minVal.toInt := by
      split <;> rename_i hlt <;> rw [lt_iff_toInt_lt] at hlt <;> omega
    have hmax : (if value > s.maxVal then value else s.maxVal).toInt
        = max value.toInt s.maxVal.toInt := by
      split <;> rename_i hlt <;> rw [gt_iff_lt, lt_iff_toInt_lt] at hlt <;> omega
    refine ⟨?_, ?_, fun hall => absurd (hall value (by simp)) hvalue⟩
    · rw [mem_append, mem_singleton]
      exact h.null.trans ⟨Or.inl, fun hor => hor.resolve_right fun heq => hvalue heq.symm⟩
    · intro v hv hne
      rw [hmin, hmax]
      rcases mem_append.mp hv with hv | hv
      · have := h.inside v hv hne
        omega
      · rw [mem_singleton.mp hv]
        omega

theorem scanned (nullVal : Int64) (vs : List Int64) :
    Scanned nullVal vs (vs.foldl (Scan.step nullVal) Scan.init) := by
  induction vs using reverseRecOn with
  | nil => exact Scanned.init
  | append_singleton vs value ih =>
    rw [foldl_append]
    exact ih.step value

-- ======== the bits

/-- The values among the entries. -/
def nonNull (nullVal : Int64) (vs : List Int64) : List Int64 :=
  vs.filter (· ≠ nullVal)

theorem mem_nonNull {v : Int64} : v ∈ nonNull nullVal vs ↔ v ∈ vs ∧ v ≠ nullVal := by
  simp [nonNull]

/-- Filling sets the bits of the values, in any memory. -/
theorem foldlM_fill (bitset : List Bitmap.Byte)
    (h : ∀ v ∈ vs, v ≠ nullVal → minVal.toInt ≤ v.toInt ∧ v.toInt - minVal.toInt < 2 ^ 63) :
    vs.foldlM
        (fun bitset value =>
          if value = nullVal then some bitset else aggCountDistinctBitmap bitset value minVal)
        bitset
      = ((nonNull nullVal vs).map fun v => (v.toInt - minVal.toInt).toNat).foldlM
          Bitmap.insert bitset := by
  induction vs generalizing bitset with
  | nil => rfl
  | cons v vs ih =>
    have hrest := fun b => ih b fun v hv => h v (mem_cons_of_mem _ hv)
    rw [foldlM_cons, nonNull, filter_cons]
    by_cases hv : v = nullVal
    · rw [if_pos hv, if_neg (by simp [hv])]
      exact hrest bitset
    · obtain ⟨hle, hlt⟩ := h v mem_cons_self hv
      rw [if_neg hv, if_pos (by simp [hv]), map_cons, foldlM_cons,
        aggCountDistinctBitmap_eq bitset hle hlt]
      exact congrArg _ (funext hrest)

theorem fillBitset_cases {maxVal : Int64} {bytes : ℕ}
    (hsize : maxVal.toInt - minVal.toInt < 8 * bytes) (hlt : maxVal.toInt - minVal.toInt < 2 ^ 63)
    (h : ∀ v ∈ values, v ≠ nullVal → minVal.toInt ≤ v.toInt ∧ v.toInt ≤ maxVal.toInt) :
    ∃ bitset, fillBitset values nullVal minVal bytes = some bitset ∧ bitset.length = bytes
      ∧ ∀ i, Bitmap.get bitset i = true
          ↔ ∃ v ∈ values, v ≠ nullVal ∧ (v.toInt - minVal.toInt).toNat = i := by
  have hin : ∀ i ∈ (nonNull nullVal values).map fun v => (v.toInt - minVal.toInt).toNat,
      i < 8 * (List.replicate bytes (0 : Bitmap.Byte)).length := by
    intro i hi
    obtain ⟨v, hv, rfl⟩ := List.mem_map.mp hi
    obtain ⟨hmem, hne⟩ := mem_nonNull.mp hv
    have := h v hmem hne
    rw [length_replicate]
    omega
  obtain ⟨bitset, hfold, hlen, hget⟩ := Bitmap.foldlM_insert hin
  refine ⟨bitset, ?_, by rw [hlen, length_replicate], fun i => ?_⟩
  · rw [fillBitset, foldlM_fill _ fun v hv hne => ⟨(h v hv hne).1, ?_⟩]
    · exact hfold
    · have := h v hv hne
      omega
  · rw [hget, Bitmap.get_replicate_zero, Bool.or_false, decide_eq_true_eq, List.mem_map]
    exact ⟨fun ⟨v, hv, hi⟩ => ⟨v, (mem_nonNull.mp hv).1, (mem_nonNull.mp hv).2, hi⟩,
      fun ⟨v, hv, hne, hi⟩ => ⟨v, mem_nonNull.mpr ⟨hv, hne⟩, hi⟩⟩

-- ======== construction

theorem checkedInt64_ok {n m : Int} (h : checkedInt64 n = .ok m) : m = n := by
  unfold checkedInt64 at h
  split_ifs at h
  cases h
  rfl

theorem checkedToInt64_ok {n m : Int} (h : checkedToInt64 n = .ok m) : m = n := by
  unfold checkedToInt64 at h
  split_ifs at h
  cases h
  rfl

/-- The size is the number of values between the bounds: it is computed
without overflow, or not at all. -/
theorem bitmapSzBits_ok {maxVal : Int64} {bits : Int} (h : bitmapSzBits minVal maxVal = .ok bits) :
    bits = maxVal.toInt - minVal.toInt + 1 ∧ bits ≤ maxBitmapBits := by
  obtain ⟨diff, hd, h⟩ := Results.bind_eq_ok.mp h
  obtain ⟨size, hn, h⟩ := Results.bind_eq_ok.mp h
  obtain ⟨m, hm, h⟩ := Results.bind_eq_ok.mp h
  have hdiff := checkedInt64_ok hd
  have hsize := checkedInt64_ok hn
  have hbits := checkedToInt64_ok hm
  by_cases hlarge : m > maxBitmapBits
  · rw [if_pos hlarge] at h
    cases h
  · rw [if_neg hlarge] at h
    cases h
    exact ⟨by omega, not_lt.mp hlarge⟩

/-- A bitmap over bounds: it has the bits of the values, and only those. -/
structure Spans (values : List Int64) (b : InValuesBitmap) (bitset : List Bitmap.Byte) : Prop where
  le : b.minVal.toInt ≤ b.maxVal.toInt
  narrow : b.maxVal.toInt - b.minVal.toInt + 1 ≤ maxBitmapBits
  length : bitset.length = bitmapBitsToBytes (b.maxVal.toInt - b.minVal.toInt + 1).toNat
  inside : ∀ v ∈ values, v ≠ b.nullVal → b.minVal.toInt ≤ v.toInt ∧ v.toInt ≤ b.maxVal.toInt
  get : ∀ i, Bitmap.get bitset i = true
    ↔ ∃ v ∈ values, v ≠ b.nullVal ∧ (v.toInt - b.minVal.toInt).toNat = i

theorem le_bitmapBitsToBytes (n : ℕ) : n ≤ 8 * bitmapBitsToBytes n := by
  unfold bitmapBitsToBytes
  split <;> omega

/-- The construction is defined on every list, and what it makes is either
a flag or a bitmap of the values. -/
theorem make_cases (uninit : Int64) (callocs : ℕ → Bool) (values : List Int64) (nullVal : Int64) :
    ∃ r, InValuesBitmap.make uninit callocs values nullVal = some r
      ∧ ∀ b, r = .ok b → b.nullVal = nullVal
        ∧ ((b.bitset = none ∧ (∀ v ∈ values, v = nullVal)
              ∧ (b.rhsHasNull = true ↔ nullVal ∈ values))
          ∨ (∃ bitset, b.bitset = some bitset ∧ (∃ v ∈ values, v ≠ nullVal)
              ∧ Spans values b bitset)) := by
  unfold InValuesBitmap.make
  by_cases hnil : values.isEmpty = true
  · rw [if_pos hnil]
    refine ⟨_, rfl, fun b hb => ?_⟩
    cases hb
    rw [List.isEmpty_iff] at hnil
    subst hnil
    exact ⟨rfl, .inl ⟨rfl, by simp, by simp⟩⟩
  rw [if_neg hnil]
  have hs := scanned nullVal values
  generalize values.foldl (Scan.step nullVal) Scan.init = s at hs ⊢
  by_cases hall : ∀ v ∈ values, v = nullVal
  · -- only nulls: the bounds are as they were initialised
    obtain ⟨hmin, hmax⟩ := hs.none hall
    have hnull : nullVal ∈ values := by
      obtain ⟨v, hv⟩ := exists_mem_of_ne_nil values (by simpa using hnil)
      exact hall v hv ▸ hv
    rw [if_pos (by rw [hmin, hmax]; decide), if_pos ⟨hmin, hmax, hs.null.mpr hnull⟩]
    refine ⟨_, rfl, fun b hb => ?_⟩
    cases hb
    exact ⟨rfl, .inl ⟨rfl, hall, hs.null⟩⟩
  · push Not at hall
    obtain ⟨v, hv, hne⟩ := hall
    have hle : s.minVal.toInt ≤ s.maxVal.toInt :=
      (hs.inside v hv hne).1.trans (hs.inside v hv hne).2
    rw [if_neg (by rw [lt_iff_toInt_lt]; omega)]
    cases hbits : bitmapSzBits s.minVal s.maxVal with
    | error e => exact ⟨_, rfl, fun b hb => by cases hb⟩
    | ok bits =>
      obtain ⟨hsize, hnarrow⟩ := bitmapSzBits_ok hbits
      have hmax : maxBitmapBits < 2 ^ 63 := by decide
      have hroom := le_bitmapBitsToBytes bits.toNat
      have hsz : s.maxVal.toInt - s.minVal.toInt < 8 * bitmapBitsToBytes bits.toNat := by
        omega
      obtain ⟨bitset, hfill, hlen, hget⟩ := fillBitset_cases hsz (by omega) hs.inside
      dsimp only
      split_ifs with hcalloc
      · rw [hfill]
        refine ⟨_, rfl, fun b hb => ?_⟩
        cases hb
        refine ⟨rfl, .inr ⟨bitset, rfl, ⟨v, hv, hne⟩, hle, ?_, ?_, hs.inside, hget⟩⟩
        · exact hsize ▸ hnarrow
        · rw [hlen, hsize]
      · exact ⟨_, rfl, fun b hb => by cases hb⟩

-- ======== lookups

variable {bitset : List Bitmap.Byte}

theorem Spans.lookup (h : Spans values b bitset) (hb : b.bitset = some bitset) (needle : Int64) :
    b.lookup needle
      = some (if needle = b.nullVal then nullBool else if needle ∈ values then 1 else 0) := by
  rw [InValuesBitmap.lookup, hb]
  dsimp only
  rw [bitIsSet]
  by_cases hnull : needle = b.nullVal
  · rw [if_pos hnull, if_pos hnull]
  rw [if_neg hnull, if_neg hnull]
  have hout_iff : (needle < b.minVal ∨ needle > b.maxVal)
      ↔ needle.toInt < b.minVal.toInt ∨ b.maxVal.toInt < needle.toInt :=
    or_congr lt_iff_toInt_lt lt_iff_toInt_lt
  by_cases hout : needle < b.minVal ∨ needle > b.maxVal
  · have hmem : needle ∉ values := fun hmem => by
      have := h.inside needle hmem hnull
      have := hout_iff.mp hout
      omega
    rw [if_pos hout, if_neg hmem]
  · have hbounds := mt hout_iff.mpr hout
    have hmax : maxBitmapBits < 2 ^ 63 := by decide
    have hnarrow := h.narrow
    obtain ⟨d, hsub, hd⟩ := int64Sub_index (x := needle) (y := b.minVal) (by omega) (by omega)
    have hroom := le_bitmapBitsToBytes (b.maxVal.toInt - b.minVal.toInt + 1).toNat
    have htest : Bitmap.test bitset d.toUInt64.toNat = some (decide (needle ∈ values)) := by
      rw [Bitmap.test_eq (by rw [h.length, hd]; omega), hd, some_inj, Bool.eq_iff_iff,
        h.get, decide_eq_true_eq]
      constructor
      · rintro ⟨v, hv, hne, hi⟩
        -- two values above the least one with one index are one value
        have hle := (h.inside v hv hne).1
        have hint : v.toInt = needle.toInt := by omega
        exact Int64.toInt_inj.mp hint ▸ hv
      · exact fun hmem => ⟨needle, hmem, hnull, rfl⟩
    rw [if_neg hout, hsub]
    simp only [bind_eq_bind, bind_some, htest, decide_eq_true_eq]
    rfl

theorem truthOf_bool (p : Prop) [Decidable p] :
    truthOf (if p then 1 else 0) = if p then .yes else .no := by
  split <;> rfl

-- ======== membership

theorem sqlIn_null {list : List (Option Int64)} (hne : list ≠ []) :
    sqlIn none list = .unknown := by
  have hunknown : ∀ t ∈ list.map (sqlEq none), t = .unknown := by
    intro t ht
    obtain ⟨x, -, rfl⟩ := mem_map.mp ht
    rfl
  obtain ⟨x, hx⟩ := exists_mem_of_ne_nil list hne
  refine le_antisymm (Truth.any_le_iff.mpr fun t ht => (hunknown t ht).le) ?_
  exact Truth.le_any_of_mem (mem_map.mpr ⟨x, hx, rfl⟩)

/-- Membership of a value: an entry that is the value, or else a null. -/
theorem sqlIn_value {x : Int64} (hx : x ≠ nullVal) :
    sqlIn (some x) (values.map (decode nullVal))
      = if x ∈ values then .yes else if nullVal ∈ values then .unknown else .no := by
  have hentry (v : Int64) : sqlEq (some x) (decode nullVal v)
      = if v = nullVal then .unknown else if x = v then .yes else .no := by
    unfold decode
    split <;> rfl
  unfold sqlIn
  rw [List.map_map]
  split_ifs with hmem hnull
  · refine top_le_iff.mp (Truth.le_any_of_mem (List.mem_map.mpr ⟨x, hmem, ?_⟩))
    rw [comp_apply, hentry, if_neg hx, if_pos rfl]
    rfl
  · refine le_antisymm (Truth.any_le_iff.mpr fun t ht => ?_)
      (Truth.le_any_of_mem (List.mem_map.mpr ⟨nullVal, hnull, ?_⟩))
    · obtain ⟨v, hv, rfl⟩ := List.mem_map.mp ht
      rw [comp_apply, hentry]
      split_ifs with h₁ h₂
      · exact le_refl _
      · exact absurd (h₂ ▸ hv) hmem
      · decide
    · rw [comp_apply, hentry, if_pos rfl]
  · refine bot_unique (Truth.any_le_iff.mpr fun t ht => ?_)
    obtain ⟨v, hv, rfl⟩ := List.mem_map.mp ht
    have hv₁ : v ≠ nullVal := fun h => hnull (h ▸ hv)
    have hv₂ : x ≠ v := fun h => hmem (h ▸ hv)
    rw [comp_apply, hentry, if_neg hv₁, if_neg hv₂]
    exact le_refl _

-- ======== exactly

/-- Some value that is not null lies outside a narrow range. -/
theorem exists_outside {lo hi : Int64} (h : hi.toInt - lo.toInt < 2 ^ 63) (nullVal : Int64) :
    ∃ x : Int64, x ≠ nullVal ∧ (x.toInt < lo.toInt ∨ hi.toInt < x.toInt) := by
  -- two candidates on one side, of which the sentinel is at most one
  obtain ⟨n, hn⟩ : ∃ n : Int, -2 ^ 63 ≤ n ∧ n + 1 < 2 ^ 63
      ∧ (n + 1 < lo.toInt ∨ hi.toInt < n) := by
    by_cases hhigh : hi.toInt < 2 ^ 63 - 2
    · exact ⟨2 ^ 63 - 2, by omega⟩
    · exact ⟨-2 ^ 63, by omega⟩
  have hint {m : Int} (h₁ : -2 ^ 63 ≤ m) (h₂ : m < 2 ^ 63) : (ofInt m).toInt = m :=
    toInt_ofInt_of_le (by omega) (by omega)
  by_cases heq : ofInt n = nullVal
  · refine ⟨ofInt (n + 1), fun heq' => ?_, ?_⟩
    · have := congrArg toInt (heq.trans heq'.symm)
      rw [hint (by omega) (by omega), hint (by omega) (by omega)] at this
      omega
    · rw [hint (by omega) (by omega)]
      omega
  · refine ⟨ofInt n, heq, ?_⟩
    rw [hint (by omega) (by omega)]
    omega

/-- A list that holds a null and a value is answered wrongly for a needle
that is outside the bounds. -/
theorem Spans.not_answersAs (h : Spans values b bitset) (hb : b.bitset = some bitset)
    (hnull : b.nullVal ∈ values) : ¬ b.AnswersAs values b.nullVal := by
  intro hanswers
  have hmax : maxBitmapBits < 2 ^ 63 := by decide
  have hnarrow := h.narrow
  obtain ⟨x, hx, hout⟩ := @exists_outside b.minVal b.maxVal (by omega) b.nullVal
  have hmem : x ∉ values := fun hmem => by
    have := h.inside x hmem hx
    omega
  obtain ⟨r, hr, htruth⟩ := hanswers x
  rw [h.lookup hb, if_neg hx, if_neg hmem, some_inj] at hr
  rw [← hr, decode, if_neg hx, sqlIn_value hx, if_neg hmem, if_pos hnull] at htruth
  cases htruth

theorem Spans.answersAs (h : Spans values b bitset) (hb : b.bitset = some bitset)
    (hnull : b.nullVal ∉ values) (hvalue : ∃ v ∈ values, v ≠ b.nullVal) :
    b.AnswersAs values b.nullVal := by
  intro needle
  refine ⟨_, h.lookup hb needle, ?_⟩
  by_cases hneedle : needle = b.nullVal
  · obtain ⟨v, hv, -⟩ := hvalue
    rw [if_pos hneedle, decode, if_pos hneedle, sqlIn_null (by simpa using ne_nil_of_mem hv)]
    rfl
  · rw [if_neg hneedle, decode, if_neg hneedle, sqlIn_value hneedle, if_neg hnull, truthOf_bool]

/-- Without a bitmap the answer is null if there is an entry, and false if
there is none. -/
theorem answersAs_constant (hb : b.bitset = none) (hall : ∀ v ∈ values, v = b.nullVal)
    (hflag : b.rhsHasNull = true ↔ b.nullVal ∈ values) : b.AnswersAs values b.nullVal := by
  intro needle
  refine ⟨if b.rhsHasNull then nullBool else 0, by rw [InValuesBitmap.lookup, hb], ?_⟩
  by_cases hnil : values = []
  · subst hnil
    rw [if_neg (by simp [hflag])]
    rfl
  · obtain ⟨v, hv⟩ := exists_mem_of_ne_nil values hnil
    have hnull : b.nullVal ∈ values := hall v hv ▸ hv
    rw [if_pos (hflag.mpr hnull)]
    by_cases hneedle : needle = b.nullVal
    · rw [decode, if_pos hneedle, sqlIn_null (by simpa using hnil)]
      rfl
    · have hmem : needle ∉ values := fun h => hneedle (hall needle h)
      rw [decode, if_neg hneedle, sqlIn_value hneedle, if_neg hmem, if_pos hnull]
      rfl

/-- Whatever list it is made of, a bitmap that is made answers as the list
does, within bounds and with a size that is exact, unless the list has
both a null and a value. -/
theorem make_answers_iff (uninit : Int64) (callocs : ℕ → Bool) (values : List Int64)
    (nullVal : Int64) :
    ∃ r, InValuesBitmap.make uninit callocs values nullVal = some r
      ∧ ∀ b, r = .ok b →
        (b.AnswersAs values nullVal ∧ b.SizeExact
          ↔ ¬ (nullVal ∈ values ∧ ∃ v ∈ values, v ≠ nullVal)) := by
  obtain ⟨r, hr, hcases⟩ := make_cases uninit callocs values nullVal
  refine ⟨r, hr, fun b hb => ?_⟩
  obtain ⟨rfl, ⟨hnone, hall, hflag⟩ | ⟨bitset, hsome, hvalue, hspans⟩⟩ := hcases b hb
  · refine iff_of_true ⟨answersAs_constant hnone hall hflag, ?_⟩ ?_
    · intro bitset hbitset
      rw [hnone] at hbitset
      cases hbitset
    · rintro ⟨-, v, hv, hne⟩
      exact hne (hall v hv)
  · constructor
    · rintro ⟨hanswers, -⟩ ⟨hnull, -⟩
      exact hspans.not_answersAs hsome hnull hanswers
    · intro hmixed
      have hnull : b.nullVal ∉ values := fun hnull => hmixed ⟨hnull, hvalue⟩
      refine ⟨hspans.answersAs hsome hnull hvalue, fun bitset' hbitset => ?_⟩
      cases hsome.symm.trans hbitset
      exact ⟨hspans.length, Int64.le_iff_toInt_le.mpr hspans.le⟩

/-- A list of three values, none of them null. -/
theorem make_answers_three :
    ∃ b, InValuesBitmap.make 0 (fun _ => true) [-3, 5, 9] Int64.minValue = some (.ok b)
      ∧ b.AnswersAs [-3, 5, 9] Int64.minValue := by
  obtain ⟨r, hr, h⟩ := make_answers_iff 0 (fun _ => true) [-3, 5, 9] minValue
  have hmake : InValuesBitmap.make 0 (fun _ => true) [-3, 5, 9] minValue
      = some (.ok ⟨some [1#8, 17#8], false, -3, 9, minValue⟩) := by decide
  rw [hmake, some_inj] at hr
  exact ⟨_, hmake, ((h _ hr.symm).mpr (by decide)).1⟩

/-- 8 IN (5, 6, 7, NULL) is null, and the bitmap says that it is false. -/
theorem make_null_wrong :
    ∃ b, InValuesBitmap.make 0 (fun _ => true) [5, 6, 7, Int64.minValue] Int64.minValue
        = some (.ok b)
      ∧ b.lookup 8 = some 0
      ∧ sqlIn (some 8) [some 5, some 6, some 7, none] = .unknown
      ∧ ¬ b.AnswersAs [5, 6, 7, Int64.minValue] Int64.minValue := by
  refine ⟨⟨some [7#8], true, 5, 7, minValue⟩, by decide, by decide, by decide, ?_⟩
  intro h
  obtain ⟨r, hr, htruth⟩ := h 8
  have hlookup : (⟨some [7#8], true, 5, 7, minValue⟩ : InValuesBitmap).lookup 8
      = some 0 := by decide
  cases hlookup.symm.trans hr
  exact absurd htruth (by decide)

end Compass.Bitmaps
