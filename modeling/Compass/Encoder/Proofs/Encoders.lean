/-
The statistics of a fixed-length chunk.

A value that does not fit the encoding is left out of the statistics, but
what the cast makes of it is stored all the same. So the statistics bound
what is stored exactly where each such remnant happens to be covered by the
values that do fit (`run_sound_iff`). Nulls and bounds are those of the
fitting values in any order, which is why they can be reduced.

What a chunk of strings holds after any calls of `appendData`.

`rest srcData end_ left` are the strings that a loop still has to append.
Each loop splits a prefix off them, the batch: the index gets the batch's
ends, the buffer and the staged bytes together get its bytes. No call
leaves anything staged, so after a run the buffer is the concatenation.

The leading zero is written by every call that finds no element yet. A
call without strings leaves it so: the next one writes a zero again, and
every string is then found one place too late (`run_stored_iff`).
-/
import Mathlib.Data.List.Induction
import Compass.Encoder.Encoders

namespace Compass.Encoder

open List
open LittleEndian

namespace IntType

@[simp]
theorem cast_min (V : IntType) : V.cast V.min = V.min := by
  cases V <;> decide

theorem signed_encode_cast (V : IntType) (v : Int) :
    LittleEndian.signed (LittleEndian.encode V.size (V.cast v)) = V.cast v := by
  have h := Int.bmod_bmod (x := v) (m := 256 ^ V.size)
  rw [signed_encode]
  exact_mod_cast h

theorem max_lt_min {T : IntType} {y : Int} (h : T.max ≤ y) (h' : y ≤ T.min) : False := by
  have hlt : T.min < T.max := by cases T <;> decide
  omega

end IntType

namespace FixedLengthEncoder

variable {T V : IntType}

-- ======== specification

/-- The value enters the bounds: it survives the cast and is not null. -/
def Counted (V : IntType) (v : Int) : Prop := V.cast v = v ∧ v ≠ V.min

/-- What the cast makes of `v` is within the statistics of the values. -/
def Covered (V : IntType) (values : List Int) (v : Int) : Prop :=
  (V.cast v = V.min ∧ V.min ∈ values) ∨
    (∃ a ∈ values, Counted V a ∧ a ≤ V.cast v) ∧ (∃ b ∈ values, Counted V b ∧ V.cast v ≤ b)

/-- Every stored element is the null sentinel, and nulls are flagged, or it
lies within the bounds. -/
def Sound (e : FixedLengthEncoder T V) : Prop :=
  ∀ i < e.numElems, ∃ v, fixedWidthIntDecode e.buffer.data V.size i = some v ∧
    ((v = V.min ∧ e.hasNulls = true) ∨ (e.dataMin ≤ v ∧ v ≤ e.dataMax))

def chunkStats (e : FixedLengthEncoder T V) : ChunkStats := ⟨e.dataMin, e.dataMax, e.hasNulls⟩

/-- All values of a sequence of calls. -/
def values (calls : List (List T.Value)) : List Int := calls.flatten.map Subtype.val

-- ======== one element

section

variable (e : FixedLengthEncoder T V)

theorem count_buffer (v : Int) : (e.count v).buffer = e.buffer := by
  unfold count
  split_ifs <;> rfl

theorem count_numElems (v : Int) : (e.count v).numElems = e.numElems := by
  unfold count
  split_ifs <;> rfl

theorem count_hasNulls (v : Int) : (e.count v).hasNulls = true ↔ e.hasNulls = true ∨ v = V.min := by
  unfold count
  split_ifs with hfit hnull
  · have hne : v ≠ V.min := fun h => hfit (by rw [h, IntType.cast_min])
    simp [hne]
  · simp [hnull]
  · simp [hnull]

theorem count_dataMin_le (v y : Int) :
    (e.count v).dataMin ≤ y ↔ e.dataMin ≤ y ∨ (Counted V v ∧ v ≤ y) := by
  unfold count Counted
  split_ifs with hfit hnull
  · simp [Ne.symm hfit]
  · simp [hnull]
  · have hfit' : V.cast v = v := (not_not.mp hfit).symm
    simp [hfit', hnull]

theorem count_le_dataMax (v y : Int) :
    y ≤ (e.count v).dataMax ↔ y ≤ e.dataMax ∨ (Counted V v ∧ y ≤ v) := by
  unfold count Counted
  split_ifs with hfit hnull
  · simp [Ne.symm hfit]
  · simp [hnull]
  · have hfit' : V.cast v = v := (not_not.mp hfit).symm
    simp [hfit', hnull]

end

-- ======== one call

section

variable (vs : List Int)

variable (e : FixedLengthEncoder T V)

theorem foldl_count_buffer : (vs.foldl count e).buffer = e.buffer := by
  induction vs generalizing e with
  | nil => rfl
  | cons v vs ih => rw [foldl_cons, ih, count_buffer]

theorem foldl_count_numElems : (vs.foldl count e).numElems = e.numElems := by
  induction vs generalizing e with
  | nil => rfl
  | cons v vs ih => rw [foldl_cons, ih, count_numElems]

theorem foldl_count_hasNulls :
    (vs.foldl count e).hasNulls = true ↔ e.hasNulls = true ∨ V.min ∈ vs := by
  induction vs generalizing e with
  | nil => simp
  | cons v vs ih =>
    rw [foldl_cons, ih, count_hasNulls, mem_cons, or_assoc, eq_comm (a := v)]

theorem foldl_count_dataMin_le (y : Int) : (vs.foldl count e).dataMin ≤ y ↔
      e.dataMin ≤ y ∨ ∃ v ∈ vs, Counted V v ∧ v ≤ y := by
  induction vs generalizing e with
  | nil => simp
  | cons v vs ih => rw [foldl_cons, ih, count_dataMin_le, exists_mem_cons_iff, or_assoc]

theorem foldl_count_le_dataMax (y : Int) : y ≤ (vs.foldl count e).dataMax ↔
      y ≤ e.dataMax ∨ ∃ v ∈ vs, Counted V v ∧ y ≤ v := by
  induction vs generalizing e with
  | nil => simp
  | cons v vs ih => rw [foldl_cons, ih, count_le_dataMax, exists_mem_cons_iff, or_assoc]

end

-- ======== all calls

/-- What the calls made of a new encoder, in terms of the values given. -/
structure Reflects (values : List Int) (e : FixedLengthEncoder T V) : Prop where
  inRange : ∀ v ∈ values, T.min ≤ v ∧ v ≤ T.max
  numElems : e.numElems = values.length
  data : e.buffer.data = LittleEndian.encodeAll V.size (values.map V.cast)
  hasNulls : e.hasNulls = true ↔ V.min ∈ values
  dataMin_le : ∀ y, e.dataMin ≤ y ↔ T.max ≤ y ∨ ∃ a ∈ values, Counted V a ∧ a ≤ y
  le_dataMax : ∀ y, y ≤ e.dataMax ↔ y ≤ T.min ∨ ∃ b ∈ values, Counted V b ∧ y ≤ b

theorem reflects_new : Reflects [] (new : FixedLengthEncoder T V) where
  inRange := by simp
  numElems := rfl
  data := rfl
  hasNulls := by simp [new]
  dataMin_le := by simp [new]
  le_dataMax := by simp [new]

variable {e : FixedLengthEncoder T V}

theorem Reflects.appendData {values : List Int} (h : Reflects values e) (vs : List T.Value) :
    Reflects (values ++ vs.map Subtype.val) (e.appendData vs) where
  inRange v hv := by
    rcases mem_append.mp hv with hv | hv
    · exact h.inRange v hv
    · obtain ⟨u, -, rfl⟩ := mem_map.mp hv
      exact u.property
  numElems := by
    rw [length_append, ← h.numElems]
    exact congrArg (· + _) (foldl_count_numElems _ e)
  data := by
    rw [map_append, encodeAll_append, ← h.data]
    exact congrArg (fun b => b.data ++ _) (foldl_count_buffer _ e)
  hasNulls := by
    rw [mem_append, ← h.hasNulls]
    exact foldl_count_hasNulls _ e
  dataMin_le y := by
    refine (foldl_count_dataMin_le _ e y).trans ?_
    simp only [h.dataMin_le, mem_append, or_and_right, exists_or, or_assoc]
  le_dataMax y := by
    refine (foldl_count_le_dataMax _ e y).trans ?_
    simp only [h.le_dataMax, mem_append, or_and_right, exists_or, or_assoc]

theorem run_reflects (calls : List (List T.Value)) :
    Reflects (values calls) (run calls : FixedLengthEncoder T V) := by
  induction calls using reverseRecOn with
  | nil => exact reflects_new
  | append_singleton calls vs ih =>
    have hstep := ih.appendData vs
    simpa [run, values] using hstep

-- ======== what it means

/-- Reading an element back gives what the cast made of its value. -/
theorem Reflects.decode {values : List Int} (h : Reflects values e) {i : Nat} {v : Int}
    (hv : values[i]? = some v) : fixedWidthIntDecode e.buffer.data V.size i = some (V.cast v) := by
  have hcast : (values.map V.cast)[i]? = some (V.cast v) := by rw [getElem?_map, hv]; rfl
  have hread : (elementAt V.size e.buffer.data i).map signed
      = some (V.cast v) := by
    rw [h.data, elementAt_encodeAll V.size hcast, Option.map_some, IntType.signed_encode_cast]
  cases V <;> exact hread

theorem Reflects.covered_iff {values : List Int} (h : Reflects values e) (v : Int) :
    ((V.cast v = V.min ∧ e.hasNulls = true) ∨ (e.dataMin ≤ V.cast v ∧ V.cast v ≤ e.dataMax)) ↔
      Covered V values v := by
  rw [h.hasNulls, h.dataMin_le, h.le_dataMax, Covered]
  constructor
  · rintro (hnull | ⟨hle | hle, hge | hge⟩)
    · exact .inl hnull
    -- the bounds of an empty chunk are the wrong way round
    · exact (IntType.max_lt_min hle hge).elim
    · obtain ⟨b, hb, hcount, hvb⟩ := hge
      exact .inr ⟨⟨b, hb, hcount, (h.inRange b hb).2.trans hle⟩, b, hb, hcount, hvb⟩
    · obtain ⟨a, ha, hcount, hav⟩ := hle
      exact .inr ⟨⟨a, ha, hcount, hav⟩, a, ha, hcount, hge.trans (h.inRange a ha).1⟩
    · exact .inr ⟨hle, hge⟩
  · rintro (hnull | ⟨hle, hge⟩)
    · exact .inl hnull
    · exact .inr ⟨.inr hle, .inr hge⟩

theorem Reflects.sound_iff {values : List Int} (h : Reflects values e) :
    Sound e ↔ ∀ v ∈ values, Covered V values v := by
  constructor
  · intro hsound v hv
    obtain ⟨i, hi, hvi⟩ := mem_iff_getElem.mp hv
    have hread := h.decode (List.getElem?_eq_some_iff.mpr ⟨hi, hvi⟩)
    obtain ⟨u, hu, hin⟩ := hsound i (h.numElems ▸ hi)
    obtain rfl : V.cast v = u := Option.some.inj (hread.symm.trans hu)
    exact (h.covered_iff v).mp hin
  · intro hcov i hi
    rw [h.numElems] at hi
    refine ⟨V.cast values[i], h.decode (getElem?_eq_getElem hi), ?_⟩
    exact (h.covered_iff _).mpr (hcov _ (getElem_mem hi))

/-- A value that survives the cast is covered by itself. -/
theorem covered_of_fits {values : List Int} {v : Int} (hv : v ∈ values) (hfit : V.cast v = v) :
    Covered V values v := by
  by_cases hnull : v = V.min
  · exact .inl ⟨hfit.trans hnull, hnull ▸ hv⟩
  · have hcount : Counted V v := ⟨hfit, hnull⟩
    exact .inr ⟨⟨v, hv, hcount, hfit.ge⟩, v, hv, hcount, hfit.le⟩

/-- The statistics of two chunks reduce to those of their concatenation. -/
theorem Reflects.reduceStats {xs ys : List Int} {that both : FixedLengthEncoder T V}
    (h : Reflects xs e) (h' : Reflects ys that) (hboth : Reflects (xs ++ ys) both) :
    (e.reduceStats that).chunkStats = both.chunkStats := by
  have hmin : min e.dataMin that.dataMin = both.dataMin := by
    refine eq_of_forall_ge_iff fun y => ?_
    simp only [min_le_iff, h.dataMin_le, h'.dataMin_le, hboth.dataMin_le, mem_append,
      or_and_right, exists_or]
    exact or_or_distrib_left.symm
  have hmax : max e.dataMax that.dataMax = both.dataMax := by
    refine eq_of_forall_le_iff fun y => ?_
    simp only [le_max_iff, h.le_dataMax, h'.le_dataMax, hboth.le_dataMax, mem_append,
      or_and_right, exists_or]
    exact or_or_distrib_left.symm
  have hnull : (if that.hasNulls then true else e.hasNulls) = both.hasNulls := by
    rw [Bool.eq_iff_iff, hboth.hasNulls, mem_append, ← h.hasNulls, ← h'.hasNulls]
    cases that.hasNulls <;> simp
  rw [chunkStats, chunkStats, ← hmin, ← hmax, ← hnull]
  rfl

/-- The chunk that a sequence of calls makes has sound statistics, and they
reduce with those of any other chunk, if and only if each value that does
not fit is covered, once cast, by values that do. -/
theorem run_sound_iff (calls calls' : List (List T.Value)) :
    (Sound (run calls : FixedLengthEncoder T V) ∧
      ((run calls).reduceStats (run calls' : FixedLengthEncoder T V)).chunkStats =
        (run (calls ++ calls') : FixedLengthEncoder T V).chunkStats) ↔
    ∀ v ∈ values calls, V.cast v ≠ v → Covered V (values calls) v := by
  have hboth := run_reflects (V := V) (calls ++ calls')
  rw [values, flatten_append, map_append] at hboth
  have hreduce := (run_reflects (V := V) calls).reduceStats (run_reflects calls') hboth
  rw [and_iff_left hreduce, (run_reflects calls).sound_iff]
  constructor
  · exact fun h v hv _ => h v hv
  · intro h v hv
    by_cases hfit : V.cast v = v
    · exact covered_of_fits hv hfit
    · exact h v hv hfit

/-- 300 in an `INT ENCODING FIXED(8)` column is stored as 44, outside the
statistics of the chunk. -/
theorem run_not_sound :
    ¬ Sound (run [[⟨300, by decide⟩, ⟨5, by decide⟩]] : FixedLengthEncoder .int32 .int8) := by
  intro h
  obtain ⟨v, hv, hin⟩ := h 0 (by decide)
  obtain rfl : 44 = v := Option.some.inj hv
  revert hin
  decide

end FixedLengthEncoder


namespace StringNoneEncoder

-- ======== specification

/-- The ends of strings that begin at an offset. -/
def ends : Int → List Bytes → List Int
  | _, [] => []
  | offset, s :: ss => (offset + s.length) :: ends (offset + s.length) ss

/-- The strings a call appends. -/
def Call.strings (c : Call) : List Bytes := (c.srcData.drop c.startIdx).take c.numAppendElems

/-- The strings are there, and `int` reaches their indices. -/
def Call.Valid (c : Call) : Prop :=
  c.startIdx + c.numAppendElems ≤ c.srcData.length ∧ c.startIdx + c.numAppendElems < 2 ^ 31

instance (c : Call) : Decidable c.Valid := by unfold Call.Valid; infer_instance

/-- All strings of a sequence of calls. -/
def strings (calls : List Call) : List Bytes := calls.flatMap Call.strings

/-- The chunk holds the strings, and gives them back. -/
structure Stored (ss : List Bytes) (e : StringNoneEncoder) : Prop where
  data : e.buffer.data = ss.flatten
  index : e.indexBuf.data = LittleEndian.encodeAll offsetSize (0 :: ends 0 ss)
  stringAt : ∀ n < ss.length, e.stringAt n = ss[n]?
  hasNulls : e.hasNulls = true ↔ [] ∈ ss

-- ======== what is left

/-- The last `left` strings before index `end_`. -/
def rest (srcData : List Bytes) (end_ left : Nat) : List Bytes :=
  (srcData.drop (end_ - left)).take left

@[simp]
theorem rest_zero (srcData : List Bytes) (end_ : Nat) : rest srcData end_ 0 = [] := by
  simp [rest]

/-- The next string, and the rest behind it. -/
theorem rest_succ {srcData : List Bytes} {end_ left : Nat} (hend : end_ ≤ srcData.length)
    (hleft : left + 1 ≤ end_) :
    ∃ s, srcData[end_ - (left + 1)]? = some s ∧
      rest srcData end_ (left + 1) = s :: rest srcData end_ left := by
  have hlt : end_ - (left + 1) < srcData.length := by omega
  refine ⟨srcData[end_ - (left + 1)], getElem?_eq_getElem hlt, ?_⟩
  have hnext : end_ - (left + 1) + 1 = end_ - left := by omega
  rw [rest, drop_eq_getElem_cons hlt, take_succ_cons, hnext, rest]

theorem Call.rest_strings (c : Call) :
    rest c.srcData (c.startIdx + c.numAppendElems) c.numAppendElems = c.strings := by
  rw [rest, Nat.add_sub_cancel, strings]

theorem Call.Valid.length_strings {c : Call} (h : c.Valid) :
    c.strings.length = c.numAppendElems := by
  have hlen := h.1
  rw [strings, length_take, length_drop]
  omega

theorem stringOffset_of_fits {x : Int} (h : 0 ≤ x) (h' : x < 2 ^ 31) : stringOffset x = x := by
  have hpow : ((256 ^ offsetSize : Nat) : Int) = 2 ^ 32 := by decide
  refine Int.bmod_eq_of_le ?_ ?_ <;> omega

theorem ends_append (offset : Int) (ss ts : List Bytes) :
    ends offset (ss ++ ts) = ends offset ss ++ ends (offset + ss.flatten.length) ts := by
  induction ss generalizing offset with
  | nil => simp [ends]
  | cons s ss ih =>
    rw [cons_append, ends, ih, ends, cons_append, flatten_cons,
      length_append, Nat.cast_add, add_assoc]

theorem length_ends (offset : Int) (ss : List Bytes) : (ends offset ss).length = ss.length := by
  induction ss generalizing offset with
  | nil => rfl
  | cons s ss ih => rw [ends, length_cons, ih, length_cons]

-- ======== the index

section Loops

variable {srcData : List Bytes} {end_ : Nat} (hend : end_ ≤ srcData.length)

include hend

/-- One batch of offsets: it is not empty where there is room for it. -/
theorem fillOffsets_spec (room left : Nat) (lastOffset : Int) (hleft : left ≤ end_)
    (hpos : 0 ≤ lastOffset)
    (hfits : lastOffset + (rest srcData end_ left).flatten.length < 2 ^ 31) :
    ∃ batch left', rest srcData end_ left = batch ++ rest srcData end_ left' ∧ left' ≤ left ∧
      (0 < room → 0 < left → left' < left) ∧
      fillOffsets srcData end_ room left lastOffset =
        some (ends lastOffset batch, left', lastOffset + batch.flatten.length) := by
  induction room generalizing left lastOffset with
  | zero => exact ⟨[], left, by simp, le_rfl, by simp, by simp [fillOffsets, ends]⟩
  | succ room ih =>
    cases left with
    | zero => exact ⟨[], 0, by simp, le_rfl, by simp, by simp [fillOffsets, ends]⟩
    | succ left =>
      obtain ⟨s, hs, hrest⟩ := rest_succ hend hleft
      rw [hrest, flatten_cons, length_append] at hfits
      push_cast at hfits
      have hp : stringOffset (lastOffset + s.length) = lastOffset + s.length :=
        stringOffset_of_fits (by omega) (by omega)
      obtain ⟨batch, left', hsplit, hle, -, hrun⟩ :=
        ih left (lastOffset + s.length) (by omega) (by omega) (by omega)
      refine ⟨s :: batch, left', by rw [hrest, hsplit]; rfl, by omega, by omega, ?_⟩
      simp [fillOffsets, hs, hp, hrun, ends, add_assoc]

theorem appendOffsets_spec {inbufSize : Nat} (fuel left : Nat) (lastOffset : Int)
    (indexBuf : AbstractBuffer) (hleft : left ≤ end_) (hfuel : left ≤ fuel)
    (hsize : 0 < left → offsetSize ≤ inbufSize) (hpos : 0 ≤ lastOffset)
    (hfits : lastOffset + (rest srcData end_ left).flatten.length < 2 ^ 31) :
    ∃ indexBuf', appendOffsets srcData end_ inbufSize fuel left lastOffset indexBuf =
        some (lastOffset + (rest srcData end_ left).flatten.length, indexBuf') ∧
      indexBuf'.data = indexBuf.data ++
        LittleEndian.encodeAll offsetSize (ends lastOffset (rest srcData end_ left)) := by
  induction fuel generalizing left lastOffset indexBuf with
  | zero =>
    obtain rfl : left = 0 := by omega
    exact ⟨indexBuf, by simp [appendOffsets], by simp [ends, encodeAll]⟩
  | succ fuel ih =>
    cases left with
    | zero => exact ⟨indexBuf, by simp [appendOffsets], by simp [ends, encodeAll]⟩
    | succ left =>
      have hroom : 0 < inbufSize / offsetSize :=
        Nat.div_pos (hsize (Nat.succ_pos left)) (by decide)
      obtain ⟨batch, left', hsplit, hle, hlt, hfill⟩ :=
        fillOffsets_spec hend (inbufSize / offsetSize) (left + 1) lastOffset hleft hpos hfits
      rw [hsplit, flatten_append, length_append] at hfits ⊢
      push_cast at hfits ⊢
      obtain ⟨indexBuf', hrun, hdata⟩ := ih left' (lastOffset + batch.flatten.length)
        (indexBuf.append (encodeAll offsetSize (ends lastOffset batch)))
        (by omega) (by omega) (fun _ => hsize (Nat.succ_pos left)) (by omega) (by omega)
      refine ⟨indexBuf', ?_, ?_⟩
      · simp only [appendOffsets, hfill, Option.bind_eq_bind, Option.bind_some, hrun, add_assoc]
      · rw [hdata, AbstractBuffer.data_append, append_assoc, ← encodeAll_append, ends_append]

-- ======== the data

omit hend in
theorem data_flush (buffer : AbstractBuffer) (inbuf : Bytes) :
    (flush buffer inbuf).data = buffer.data ++ inbuf := by
  unfold flush
  split_ifs with h
  · rfl
  · have hnil : inbuf = [] := length_eq_zero_iff.mp (by omega)
    rw [hnil, append_nil]

/-- One batch of data: its bytes are appended or staged. -/
theorem stage_spec (inbufSize left : Nat) (inbuf : Bytes) (buffer : AbstractBuffer)
    (hasNulls : Bool) (hleft : left ≤ end_) :
    ∃ batch st, stage srcData end_ inbufSize left inbuf buffer hasNulls = some st ∧
      rest srcData end_ left = batch ++ rest srcData end_ st.left ∧ st.left ≤ left ∧
      (0 < left → inbuf = [] → 0 < inbufSize → st.left < left) ∧
      st.buffer.data ++ st.inbuf = buffer.data ++ inbuf ++ batch.flatten ∧
      (st.hasNulls = true ↔ hasNulls = true ∨ [] ∈ batch) := by
  induction left generalizing inbuf hasNulls with
  | zero => exact ⟨[], _, rfl, by simp, le_rfl, by simp, by simp, by simp⟩
  | succ left ih =>
    obtain ⟨s, hs, hrest⟩ := rest_succ hend hleft
    rw [hrest]
    by_cases hroom : inbuf.length < inbufSize
    swap
    · refine ⟨[], ⟨left + 1, inbuf, buffer, hasNulls⟩, by simp [stage, hroom], hrest.symm, le_rfl,
        ?_, by simp, by simp⟩
      rintro - rfl hsize
      exact (hroom hsize).elim
    by_cases hlarge : inbufSize < s.length
    · have hne : [] ≠ s := by rintro rfl; simp at hlarge
      exact ⟨[s], ⟨left, [], (flush buffer inbuf).append s, hasNulls⟩,
        by simp [stage, hroom, hs, hlarge], rfl, by simp, by simp,
        by simp [data_flush], by simp [hne]⟩
    by_cases hover : inbufSize < inbuf.length + s.length
    · refine ⟨[], ⟨left + 1, inbuf, buffer, hasNulls⟩, by simp [stage, hroom, hs, hlarge, hover],
        hrest.symm, le_rfl, ?_, by simp, by simp⟩
      rintro - rfl -
      exact (hlarge (by simpa using hover)).elim
    by_cases hempty : 0 < s.length
    · have hne : [] ≠ s := by rintro rfl; simp at hempty
      obtain ⟨batch, st, hrun, hsplit, hle, -, hdata, hnull⟩ :=
        ih (inbuf ++ s) hasNulls (by omega)
      refine ⟨s :: batch, st, by simp [stage, hroom, hs, hlarge, hover, hempty, hrun],
        by rw [hsplit]; rfl, by omega, by omega, by simp [hdata], by simp [hnull, hne]⟩
    · obtain rfl : s = [] := length_eq_zero_iff.mp (by omega)
      obtain ⟨batch, st, hrun, hsplit, hle, -, hdata, hnull⟩ := ih inbuf true (by omega)
      refine ⟨[] :: batch, st, by simp_all [stage], by rw [hsplit]; rfl, by omega, by omega,
        by simp [hdata], by simp [hnull]⟩

theorem appendStrings_spec {inbufSize : Nat} (fuel left : Nat) (buffer : AbstractBuffer)
    (hasNulls : Bool) (hleft : left ≤ end_) (hfuel : left ≤ fuel)
    (hsize : 0 < left → 0 < inbufSize) :
    ∃ buffer' hasNulls', appendStrings srcData end_ inbufSize fuel left buffer hasNulls =
        some (buffer', hasNulls') ∧
      buffer'.data = buffer.data ++ (rest srcData end_ left).flatten ∧
      (hasNulls' = true ↔ hasNulls = true ∨ [] ∈ rest srcData end_ left) := by
  induction fuel generalizing left buffer hasNulls with
  | zero =>
    obtain rfl : left = 0 := by omega
    exact ⟨buffer, hasNulls, rfl, by simp, by simp⟩
  | succ fuel ih =>
    cases left with
    | zero => exact ⟨buffer, hasNulls, rfl, by simp, by simp⟩
    | succ left =>
      have hsize := hsize (Nat.succ_pos left)
      obtain ⟨batch, st, hstage, hsplit, hle, hlt, hdata, hnull⟩ :=
        stage_spec hend inbufSize (left + 1) [] buffer hasNulls hleft
      have hlt := hlt (Nat.succ_pos left) rfl hsize
      obtain ⟨buffer', hasNulls', hrun, hdata', hnull'⟩ :=
        ih st.left (flush st.buffer st.inbuf) st.hasNulls (by omega) (by omega)
          (fun _ => hsize)
      refine ⟨buffer', hasNulls', by simp [appendStrings, hstage, hrun], ?_, ?_⟩
      · rw [hdata', data_flush, hdata, hsplit, flatten_append, append_nil, append_assoc]
      · rw [hnull', hnull, hsplit, mem_append, or_assoc]

end Loops

-- ======== one call

/-- What the chunk holds, with the leading zeros written so far. -/
structure Holds (zeros : Nat) (ss : List Bytes) (e : StringNoneEncoder) : Prop where
  data : e.buffer.data = ss.flatten
  index : e.indexBuf.data =
    LittleEndian.encodeAll offsetSize (List.replicate zeros 0 ++ ends 0 ss)
  numElems : e.numElems = ss.length
  lastOffset : ss ≠ [] → e.lastOffset = ss.flatten.length
  hasNulls : e.hasNulls = true ↔ [] ∈ ss

theorem holds_new : Holds 0 [] new where
  data := rfl
  index := rfl
  numElems := rfl
  lastOffset h := (h rfl).elim
  hasNulls := by simp [new]

/-- The zeros there are once a call has opened the index. -/
def opened (zeros : Nat) (ss : List Bytes) : Nat := if ss = [] then zeros + 1 else zeros

variable {ss : List Bytes} {zeros : Nat} {e : StringNoneEncoder}

theorem Holds.openIndex (h : Holds zeros ss e) :
    e.openIndex.1 = ss.flatten.length ∧ e.openIndex.2.data =
      LittleEndian.encodeAll offsetSize (replicate (opened zeros ss) 0 ++ ends 0 ss) := by
  unfold StringNoneEncoder.openIndex opened
  by_cases hss : ss = []
  · subst hss
    have hzero : e.numElems = 0 := h.numElems
    rw [if_pos hzero, if_pos rfl, replicate_succ', AbstractBuffer.data_append, h.index,
      ends, append_nil, append_nil, encodeAll_append]
    exact ⟨rfl, rfl⟩
  · have hne : e.numElems ≠ 0 := by rw [h.numElems, Ne, length_eq_zero_iff]; exact hss
    rw [if_neg hne, if_neg hss, h.lastOffset hss, if_neg (by omega)]
    exact ⟨rfl, h.index⟩

/-- The staging buffer takes an offset of any call with strings to append. -/
theorem offsetSize_le_inbufSize (e : StringNoneEncoder)
    (numAppendElems dataSize : Nat) (h : 0 < numAppendElems) :
    offsetSize ≤ min (max (e.indexSize numAppendElems) dataSize) maxInputBufSize := by
  have hmul : 1 * offsetSize ≤ numAppendElems * offsetSize := Nat.mul_le_mul_right _ h
  have hmax : offsetSize ≤ maxInputBufSize := by decide
  unfold indexSize
  omega

theorem Holds.appendData {fuel : Nat} {c : Call} (h : Holds zeros ss e) (hc : c.Valid)
    (hfuel : c.numAppendElems ≤ fuel) (hfits : (ss ++ c.strings).flatten.length < 2 ^ 31) :
    ∃ e', e.appendData fuel c.srcData c.startIdx c.numAppendElems = some e' ∧
      Holds (opened zeros ss) (ss ++ c.strings) e' := by
  obtain ⟨hopen, hindex⟩ := h.openIndex
  have hroom {n : Nat} (hn : 0 < n) := offsetSize_le_inbufSize e n
    (dataSize c.srcData c.startIdx c.numAppendElems) hn
  have hfits' : (ss.flatten.length : Int) + c.strings.flatten.length < 2 ^ 31 := by
    rw [flatten_append, length_append] at hfits
    omega
  obtain ⟨indexBuf', hoffsets, hindex'⟩ := appendOffsets_spec hc.1 fuel c.numAppendElems
    e.openIndex.1 e.openIndex.2 (Nat.le_add_left _ _) hfuel hroom (by omega)
    (by rw [c.rest_strings, hopen]; exact hfits')
  obtain ⟨buffer', hasNulls', hstrings, hdata, hnull⟩ := appendStrings_spec hc.1 fuel
    c.numAppendElems e.buffer e.hasNulls (Nat.le_add_left _ _) hfuel
    (fun hn => (by decide : 0 < offsetSize).trans_le (hroom hn))
  rw [c.rest_strings, hopen] at hindex' hoffsets
  rw [c.rest_strings] at hdata hnull
  refine ⟨⟨buffer'.setDirty, indexBuf', e.numElems + c.numAppendElems,
    ss.flatten.length + c.strings.flatten.length, hasNulls'⟩, ?_, ?_⟩
  · rw [StringNoneEncoder.appendData, hopen]
    simp only [hoffsets, hstrings, Option.bind_eq_bind, Option.bind_some]
  · constructor
    case data => rw [AbstractBuffer.data_setDirty, hdata, h.data, flatten_append]
    case index => rw [hindex', hindex, ← encodeAll_append, ends_append, zero_add, append_assoc]
    case numElems => rw [length_append, hc.length_strings, h.numElems]
    case lastOffset => intro _; rw [flatten_append, length_append, Nat.cast_add]
    case hasNulls => rw [hnull, h.hasNulls, mem_append]

-- ======== all calls

/-- The calls that find the chunk without elements. -/
def openings : List Call → Nat
  | [] => 0
  | c :: cs => if c.strings = [] then openings cs + 1 else 1

section

variable {calls : List Call} (hvalid : ∀ c ∈ calls, c.Valid)
include hvalid

theorem openings_eq_one_iff :
    openings calls = 1 ↔ ∃ c cs, calls = c :: cs ∧ (0 < c.numAppendElems ∨ cs = []) := by
  cases calls with
  | nil => simp [openings]
  | cons c cs =>
    have hlen := (hvalid c mem_cons_self).length_strings
    have hzero : openings cs = 0 ↔ cs = [] := by
      cases cs with
      | nil => simp [openings]
      | cons c' cs => simp only [openings]; split_ifs <;> simp
    have hempty : c.strings = [] ↔ ¬ 0 < c.numAppendElems := by
      rw [← length_eq_zero_iff, hlen]
      omega
    have hcons : (∃ c' cs', c :: cs = c' :: cs' ∧ (0 < c'.numAppendElems ∨ cs' = [])) ↔
        0 < c.numAppendElems ∨ cs = [] :=
      ⟨fun ⟨_, _, heq, h⟩ => by cases heq; exact h, fun h => ⟨c, cs, rfl, h⟩⟩
    rw [hcons, openings, ← hzero]
    split_ifs with h
    · have hnot := hempty.mp h
      omega
    · exact iff_of_true rfl (.inl (not_not.mp (mt hempty.mpr h)))

theorem Holds.run {fuel : Nat}
    (hfuel : ∀ c ∈ calls, c.numAppendElems ≤ fuel) {zeros : Nat} {ss : List Bytes}
    {e : StringNoneEncoder} (h : Holds zeros ss e)
    (hfits : (ss ++ strings calls).flatten.length < 2 ^ 31) :
    ∃ e', run fuel e calls = some e' ∧
      Holds (if ss = [] then zeros + openings calls else zeros) (ss ++ strings calls) e' := by
  induction calls generalizing zeros ss e with
  | nil => exact ⟨e, rfl, by simpa [strings, openings] using h⟩
  | cons c cs ih =>
    have hsplit : ss ++ strings (c :: cs) = (ss ++ c.strings) ++ strings cs := by
      rw [strings, flatMap_cons, ← strings, append_assoc]
    rw [hsplit] at hfits ⊢
    have hfirst : (ss ++ c.strings).flatten.length < 2 ^ 31 := by
      rw [flatten_append, length_append] at hfits
      omega
    obtain ⟨e₁, hcall, h₁⟩ := h.appendData (hvalid c mem_cons_self)
      (hfuel c mem_cons_self) hfirst
    obtain ⟨e₂, hrun, h₂⟩ := ih (fun c' hc' => hvalid c' (mem_cons_of_mem _ hc'))
      (fun c' hc' => hfuel c' (mem_cons_of_mem _ hc')) h₁ hfits
    have hzeros : (if ss ++ c.strings = [] then opened zeros ss + openings cs
        else opened zeros ss) = if ss = [] then zeros + openings (c :: cs) else zeros := by
      by_cases hss : ss = []
      · by_cases hc : c.strings = []
        · simp only [hss, hc, append_nil, if_true, opened, openings]
          omega
        · simp [hss, hc, opened, openings]
      · simp [hss, opened]
    refine ⟨e₂, ?_, hzeros ▸ h₂⟩
    rw [StringNoneEncoder.run, foldlM_cons, hcall]
    exact hrun

end

-- ======== reading back

/-- Offset `n` of the index is the length of the strings before it. -/
theorem getElem?_ends (offset : Int) {n : Nat} (hn : n ≤ ss.length) :
    (offset :: ends offset ss)[n]? = some (offset + (ss.take n).flatten.length) := by
  induction n generalizing offset ss with
  | zero => simp
  | succ n ih =>
    cases ss with
    | nil => simp at hn
    | cons s ss =>
      rw [getElem?_cons_succ, ends, ih _ (Nat.le_of_succ_le_succ hn), take_succ_cons,
        flatten_cons, length_append, Nat.cast_add, add_assoc]

theorem signed_encode_offset {k : Nat} (hk : k < 2 ^ 31) :
    LittleEndian.signed (LittleEndian.encode offsetSize k) = k := by
  rw [signed_encode]
  exact stringOffset_of_fits (by omega) (by omega)

theorem stringAt_of_index (hdata : e.buffer.data = ss.flatten)
    (hindex : e.indexBuf.data = LittleEndian.encodeAll offsetSize (0 :: ends 0 ss))
    (hfits : ss.flatten.length < 2 ^ 31) {n : Nat} (hn : n < ss.length) :
    e.stringAt n = ss[n]? := by
  have hsplit : ss.flatten = (ss.take n).flatten ++ (ss[n] ++ (ss.drop (n + 1)).flatten) := by
    rw [← flatten_cons, ← drop_eq_getElem_cons, ← flatten_append, take_append_drop]
  have hnext : (ss.take (n + 1)).flatten.length = (ss.take n).flatten.length + ss[n].length := by
    rw [take_add_one, getElem?_eq_getElem hn, Option.toList_some, flatten_append,
      length_append, flatten_singleton]
  have hbound := congrArg length hsplit
  rw [length_append, length_append] at hbound
  have hoffset (k : Nat) (hk : k ≤ ss.length) (hlt : (ss.take k).flatten.length < 2 ^ 31) :
      (elementAt offsetSize e.indexBuf.data k).map signed =
        some ((ss.take k).flatten.length : Int) := by
    have hk := getElem?_ends 0 hk
    rw [zero_add] at hk
    rw [hindex, elementAt_encodeAll _ hk, Option.map_some, signed_encode_offset hlt]
  have hsize : (((ss.take n).flatten.length + ss[n].length : Nat) -
      ((ss.take n).flatten.length : Nat) : Int).toNat = ss[n].length := by omega
  rw [stringAt, hoffset n hn.le (by omega), hoffset (n + 1) hn (by omega), hnext, hdata, hsplit,
    getElem?_eq_getElem hn, Option.bind_eq_bind, Option.bind_some, Option.bind_some,
    hsize, Int.toNat_natCast, drop_left, take_left]

-- ======== the result

theorem Holds.stored (h : Holds 1 ss e) (hfits : ss.flatten.length < 2 ^ 31) : Stored ss e where
  data := h.data
  index := h.index
  stringAt _ hn := stringAt_of_index h.data h.index hfits hn
  hasNulls := h.hasNulls

/-- One zero is what the length of the index says. -/
theorem Holds.zeros_of_stored (h : Holds zeros ss e) (hstored : Stored ss e) : zeros = 1 := by
  have hlen := congrArg length (h.index.symm.trans hstored.index)
  rw [length_encodeAll, length_encodeAll, length_append,
    length_replicate, length_cons, length_ends] at hlen
  have hcancel := Nat.eq_of_mul_eq_mul_right (by decide) hlen
  omega

/-- Any calls return, with the data and the null flag of the strings they
were given. The index has its one leading zero, and the chunk gives the
strings back, if and only if the first call has strings or is the only one. -/
theorem run_stored_iff (fuel : Nat) (calls : List Call) (hvalid : ∀ c ∈ calls, c.Valid)
    (hfuel : ∀ c ∈ calls, c.numAppendElems ≤ fuel)
    (hfits : (strings calls).flatten.length < 2 ^ 31) :
    ∃ e, run fuel new calls = some e ∧ e.buffer.data = (strings calls).flatten ∧
      (e.hasNulls = true ↔ [] ∈ strings calls) ∧
      (Stored (strings calls) e ↔
        ∃ c cs, calls = c :: cs ∧ (0 < c.numAppendElems ∨ cs = [])) := by
  obtain ⟨e, hrun, h⟩ := holds_new.run hvalid hfuel hfits
  rw [if_pos rfl, zero_add, nil_append] at h
  refine ⟨e, hrun, h.data, h.hasNulls, ?_⟩
  rw [← openings_eq_one_iff hvalid]
  constructor
  · exact h.zeros_of_stored
  · intro hone
    rw [hone] at h
    exact h.stored hfits

/-- Two calls, with an empty string and one that `[1, 2]` follows. -/
theorem run_stored_two :
    ∃ e, run 2 new [⟨[[7], []], 0, 2⟩, ⟨[[9], [1, 2]], 1, 1⟩] = some e ∧
      e.buffer.data = [7, 1, 2] ∧ (e.hasNulls = true ↔ [] ∈ [[7], [], [1, 2]]) ∧
      (Stored [[7], [], [1, 2]] e ↔
        ∃ c cs, [⟨[[7], []], 0, 2⟩, ⟨[[9], [1, 2]], 1, 1⟩] = c :: cs ∧
          (0 < Call.numAppendElems c ∨ cs = [])) :=
  run_stored_iff 2 [⟨[[7], []], 0, 2⟩, ⟨[[9], [1, 2]], 1, 1⟩] (by decide) (by decide) (by decide)

/-- After a call without strings, `[1, 2]` is not what the chunk gives back
first. -/
theorem run_not_stored :
    ¬ ∃ e, run 1 new [⟨[], 0, 0⟩, ⟨[[1, 2]], 0, 1⟩] = some e ∧ Stored [[1, 2]] e := by
  rintro ⟨e, hrun, hstored⟩
  have hfirst := hstored.stringAt 0 (by decide)
  obtain rfl := Option.some.inj hrun
  revert hfirst
  decide

end StringNoneEncoder

end Compass.Encoder
