/-
When the import and the join agree on the shard of a row.

The ids of the dictionary do not change: what is numbered once to choose
the shards has the same ids when the shards are stored (`storedChunk_string`).
So the chunk of a shard holds the keys that the shards were chosen by, each
in the bytes of the column. The join decodes the same key again when its
bytes are enough for it, and takes it for the same shard, both by one
formula (`fill_of_keys`).

Two things go wrong. A dictionary-encoded column with ids of 1 or 2 bytes
is read with elements of 4, and its last row is outside of the vector
(`not_agrees_narrow`). A key that a FIXED encoding has no room for is
stored as another one, which for some number of shards is in another shard
(`shardOf_stored`).
-/
import Compass.Dict.Proofs.Dictionary
import Compass.Import.Proofs.Distribute

namespace Compass.Import

open Intern List
open Compass.Dict (Str StringDictionary Call runCalls Represents callStrings encodeStringId
  nullStrId maxStrlen maxStrcount getOrAddBulk EncodedType)
open TypedImportBuffer LittleEndian

-- ======== the dictionary

/-- The id of a string, where an empty one is null. -/
def idIn (ss : List Str) (s : Str) : Int :=
  if s.length = 0 then nullStrId else (ss.idxOf s : Int)

/-- The strings that are not null. -/
def named (strs : List Str) : List Str := strs.filter (0 < ·.length)

section

variable {pageSize : Nat} (hpage : 4096 ≤ pageSize)
include hpage

theorem getOrAddBulk_ids (t : EncodedType)
    {strs : List Str} : ∀ {d : StringDictionary} {ss : List Str}, Represents pageSize d ss →
    (∀ s ∈ strs, s.length ≤ maxStrlen) → (internAll ss (named strs)).length ≤ maxStrcount →
    ∃ d', getOrAddBulk pageSize t d strs
        = .ok (d', strs.map fun s => encodeStringId t (idIn (internAll ss (named strs)) s))
      ∧ Represents pageSize d' (internAll ss (named strs)) := by
  induction strs with
  | nil => exact fun h _ _ => ⟨_, rfl, h⟩
  | cons s strs ih =>
    intro d ss h hlens hfew
    have hrest : ∀ s ∈ strs, s.length ≤ maxStrlen :=
      fun s hs => hlens s (mem_cons_of_mem _ hs)
    by_cases hs : s.length = 0
    · -- a null does not reach the table
      have hnamed : named (s :: strs) = named strs := by
        simp [named, hs]
      rw [hnamed] at hfew ⊢
      obtain ⟨d', hbulk, h'⟩ := ih h hrest hfew
      refine ⟨d', ?_, h'⟩
      have himpl : Dict.getOrAddImpl pageSize d s = .ok (d, nullStrId) := by
        unfold Dict.getOrAddImpl
        rw [if_pos hs]
        rfl
      unfold getOrAddBulk
      rw [himpl, Dict.ok_bind]
      dsimp only
      rw [hbulk, Dict.ok_bind, map_cons, idIn, if_pos hs]
      rfl
    · have hnamed : named (s :: strs) = s :: named strs := by
        simp [named, Nat.pos_of_ne_zero hs]
      rw [hnamed] at hfew ⊢
      obtain ⟨d₁, hadd, h₁⟩ := Dict.getOrAddImpl_spec hpage h (Nat.pos_of_ne_zero hs)
        (hlens s mem_cons_self) (Nat.le_trans length_le_internAll hfew)
      obtain ⟨d₂, hbulk, h₂⟩ := ih h₁ hrest hfew
      refine ⟨d₂, ?_, h₂⟩
      have hid : (internAll (intern ss s) (named strs)).idxOf s = (intern ss s).idxOf s :=
        idxOf_internAll_of_mem (mem_intern.mpr (.inr rfl))
      unfold getOrAddBulk
      rw [hadd, Dict.ok_bind]
      dsimp only
      rw [hbulk, Dict.ok_bind, internAll_cons, map_cons, idIn, if_neg hs, hid]
      rfl

/-- The ids of a column by the strings of the dictionary. -/
theorem addDictEncodedString_spec
    {b : TypedImportBuffer} {d : StringDictionary} {ss : List Str} {t : EncodedType}
    (h : Represents pageSize d ss) (ht : b.encodedType = some t)
    (hlens : ∀ s ∈ b.getStringBuffer, s.length ≤ maxStrlen)
    (hfew : (internAll ss (named b.getStringBuffer)).length ≤ maxStrcount) :
    ∃ d', b.addDictEncodedString pageSize d
        = some ({ b with stringDict := b.getStringBuffer.map fun s =>
            encodeStringId t (idIn (internAll ss (named b.getStringBuffer)) s) }, d')
      ∧ Represents pageSize d' (internAll ss (named b.getStringBuffer)) := by
  obtain ⟨d', hbulk, h'⟩ := getOrAddBulk_ids hpage t h hlens hfew
  refine ⟨d', ?_, h'⟩
  unfold addDictEncodedString
  rw [if_neg (by
    rintro ⟨s, hs, hlt⟩
    exact absurd (hlens s hs) (Nat.not_le.mpr hlt)), ht, Option.bind_eq_bind,
    Option.bind_some, hbulk]
  rfl

/-- A dictionary that calls led to holds their strings. -/
theorem ShardedImport.DictReached.represents
    {calls : List Call} {d : StringDictionary} (h : DictReached pageSize calls d)
    (hfew : (callStrings calls).toFinset.card ≤ maxStrcount) :
    Represents pageSize d (internAll [] (callStrings calls)) := by
  obtain ⟨answers, hrun⟩ := h.run
  obtain ⟨d', hrun', h'⟩ := Dict.runCalls_spec hpage
    (Dict.initialDictionary_represents hpage (k := 8) (by decide) (by decide)) h.lengths
    (by rw [length_internAll_nil]; exact hfew)
  have heq := hrun.symm.trans hrun'
  rw [Except.ok.injEq, Prod.mk.injEq] at heq
  rw [heq.1]
  exact h'

end

-- ======== the join

/-- An element as the join decodes it. -/
def decoded (info : JoinColumnTypeInfo) (e : Int) : Int :=
  if info.isUnsigned ∧ info.elemSz ≠ 8 then
    LittleEndian.unsigned (LittleEndian.encode info.elemSz e)
  else LittleEndian.signed (LittleEndian.encode info.elemSz e)

section

variable {info : JoinColumnTypeInfo}
  (hsz : info.elemSz = 1 ∨ info.elemSz = 2 ∨ info.elemSz = 4 ∨ info.elemSz = 8)
include hsz

theorem fixedWidthDecode_encodeAll {es : List Int} {p : Nat} {e : Int} (he : es[p]? = some e) :
    fixedWidthDecode info (LittleEndian.encodeAll info.elemSz es) p = some (decoded info e) := by
  rw [fixedWidthDecode, if_pos hsz, elementAt_encodeAll _ he]
  rfl

/-- A chunk whose elements are all in one shard. -/
theorem fill_of_keys {es : List Int} {shardCount shard : Nat}
    (hshard : ∀ e ∈ es, shardOf shardCount (decoded info e) = shard) (s : Nat) :
    fillHashJoinBuffSharded info s shardCount (LittleEndian.encodeAll info.elemSz es) es.length
      = if s = shard then
          fillHashJoinBuff info (LittleEndian.encodeAll info.elemSz es) es.length
        else [] := by
  have hdecode : ∀ p ∈ range es.length, ∃ e ∈ es,
      fixedWidthDecode info (encodeAll info.elemSz es) p = some (decoded info e) := by
    intro p hp
    have hlt := mem_range.mp hp
    exact ⟨es[p], getElem_mem hlt, fixedWidthDecode_encodeAll hsz (getElem?_eq_getElem hlt)⟩
  unfold fillHashJoinBuffSharded fillHashJoinBuff
  by_cases hs : s = shard
  · rw [if_pos hs]
    apply filterMap_congr
    intro p hp
    obtain ⟨e, he, hdec⟩ := hdecode p hp
    rw [hdec, Option.bind_eq_bind, Option.bind_some, hshard e he, if_neg (by simp [hs])]
    rfl
  · rw [if_neg hs, filterMap_eq_nil_iff]
    intro p hp
    obtain ⟨e, he, hdec⟩ := hdecode p hp
    rw [hdec, Option.bind_eq_bind, Option.bind_some, hshard e he, if_pos (Ne.symm hs)]

/-- An element that the join takes for its shard. -/
theorem mem_fill_sharded {es : List Int} {shardCount s p : Nat} {e : Int}
    (he : es[p]? = some e) {k : Int} (h : (p, k) ∈ fillHashJoinBuffSharded info s shardCount
      (LittleEndian.encodeAll info.elemSz es) es.length) :
    shardOf shardCount (decoded info e) = s := by
  obtain ⟨p', -, hp'⟩ := mem_filterMap.mp h
  by_cases heq : p' = p
  · subst heq
    rw [fixedWidthDecode_encodeAll hsz he, Option.bind_eq_bind, Option.bind_some] at hp'
    by_contra hne
    rw [if_pos hne] at hp'
    cases hp'
  · exfalso
    cases hdec : fixedWidthDecode info (encodeAll info.elemSz es) p' with
    | none =>
      rw [hdec] at hp'
      cases hp'
    | some e' =>
      rw [hdec, Option.bind_eq_bind, Option.bind_some] at hp'
      split at hp'
      · cases hp'
      · cases hkey : joinKey info e' with
        | none =>
          rw [hkey] at hp'
          cases hp'
        | some k' =>
          rw [hkey] at hp'
          have hpair : (p', k') = (p, k) := Option.some.inj hp'
          exact heq (congrArg Prod.fst hpair)

end

-- ======== the agreement

namespace ShardedImport

variable {q : ShardedImport}

theorem shardBuffer_mem : q.shardBuffer ∈ q.importBuffers :=
  mem_of_getElem? q.sharded.2

variable {i shardCount : Nat}

theorem getElem?_values (hi : i < q.rowCount) :
    ∃ c, q.shardBuffer.values[i]? = some c := by
  have hlen := (q.filled _ shardBuffer_mem).length
  exact ⟨_, getElem?_eq_getElem (by omega)⟩

/-- The shard column with its ids, and the dictionary then. -/
def keyBuffer (q : ShardedImport) (d : StringDictionary) :
    Option (TypedImportBuffer × StringDictionary) :=
  if isString q.shardBuffer.columnType.type then
    q.shardBuffer.addDictEncodedString q.pageSize d
  else some (q.shardBuffer, d)

theorem distributeToShards_eq (d : StringDictionary) (shardCount : Nat) :
    distributeToShards q.pageSize d q.shardedColumnId q.importBuffers q.rowCount shardCount
      = (q.keyBuffer d).bind fun r =>
          ((range q.rowCount).foldlM (distributeRow r.1 q.importBuffers shardCount)
            (emptyShards q.importBuffers shardCount)).bind fun shards => some (shards, r.2) := by
  have hpos : q.shardedColumnId ≠ 0 := Nat.pos_iff_ne_zero.mp q.sharded.1
  rw [distributeToShards, if_neg hpos, q.sharded.2, Option.bind_eq_bind, Option.bind_some,
    if_pos q.shardable, keyBuffer]
  by_cases hs : isString q.shardBuffer.columnType.type = true
  · rw [if_pos hs, if_pos hs]
    rfl
  · rw [if_neg hs, if_neg hs]
    rfl

/-- Keys that are read for the shards, stored and decoded again. -/
theorem agrees_of_keys {shardCount : Nat} (hpos : 0 < shardCount) {d d' : StringDictionary}
    {keyed : TypedImportBuffer} {keys : Nat → Int} (hkeyed : q.keyBuffer d = some (keyed, d'))
    (hread : ∀ i < q.rowCount, intValueAt keyed i = some (keys i)) :
    ∃ shards, distributeToShards q.pageSize d q.shardedColumnId q.importBuffers q.rowCount
        shardCount = some (shards, d')
      ∧ Distributed q shardCount (fun i => shardOf shardCount (keys i)) shards := by
  refine ⟨shardsAfter q.importBuffers shardCount (fun i => shardOf shardCount (keys i))
    q.rowCount, ?_, ⟨fun i _ => Nat.mod_lt _ hpos, rfl, rfl⟩⟩
  rw [distributeToShards_eq, hkeyed, Option.bind_some,
    distribute_spec hpos q.admitted q.filled hread (fun _ _ => rfl) q.rowCount le_rfl]
  rfl

theorem mem_rowsOf {n shard i : Nat} {f : Nat → Nat} :
    i ∈ rowsOf n f shard ↔ i < n ∧ f i = shard := by
  simp [rowsOf]

/-- The join takes the chunk of a shard for this shard alone. -/
theorem fill_of_rows {shard : Nat} {keys : Nat → Int} {info : JoinColumnTypeInfo}
    (hsz : info.elemSz = 1 ∨ info.elemSz = 2 ∨ info.elemSz = 4 ∨ info.elemSz = 8)
    (hdec : ∀ i < q.rowCount, decoded info (keys i) = keys i) (s : Nat) :
    let rows := rowsOf q.rowCount (fun i => shardOf shardCount (keys i)) shard
    fillHashJoinBuffSharded info s shardCount
        (encodeAll info.elemSz (rows.map keys)) rows.length
      = if s = shard then
          fillHashJoinBuff info (encodeAll info.elemSz (rows.map keys)) rows.length
        else [] := by
  intro rows
  have hfill := @fill_of_keys info hsz (rows.map keys) shardCount shard (fun e he => by
    obtain ⟨i, hi, rfl⟩ := mem_map.mp he
    rw [hdec i (mem_rowsOf.mp hi).1]
    exact (mem_rowsOf.mp hi).2) s
  rw [length_map] at hfill
  exact hfill

-- ======== integer columns

theorem isInteger_of_not_string (h : isString q.shardBuffer.columnType.type = false) :
    isInteger q.shardBuffer.columnType.type = true := by
  have hs := q.shardable
  rw [ColumnType.shardable, h] at hs
  simpa using hs

/-- The widths of an integer column: of its vector and of its chunk. -/
theorem integer_widths {ti : ColumnType} (h : ti.admitted = true)
    (hint : isInteger ti.type = true) :
    ∃ w, vectorType ti = some (.ints w)
      ∧ (ti.compression = .kENCODING_NONE ∧ ti.size = w
        ∨ ti.compression = .kENCODING_FIXED ∧ 256 ^ ti.size = 2 ^ ti.compParam
          ∧ 0 < ti.compParam ∧ 2 ^ ti.compParam ≤ 2 ^ 32 ∧ 256 ∣ 2 ^ ti.compParam)
      ∧ (ti.size = 1 ∨ ti.size = 2 ∨ ti.size = 4 ∨ ti.size = 8)
      ∧ isUnsignedType ti = false := by
  obtain ⟨type, subtype, compression, compParam, size⟩ := ti
  cases type <;> cases compression <;>
    simp_all [isInteger, ColumnType.admitted, vectorType, noneSize, isUnsignedType]
  case kINT.kENCODING_FIXED =>
    obtain ⟨rfl | rfl, -⟩ := h
    · norm_num
    · norm_num
  case kBIGINT.kENCODING_FIXED =>
    obtain ⟨(rfl | rfl) | rfl, -⟩ := h
    · norm_num
    · norm_num
    · norm_num

/-- The key of a row of an integer column. -/
def intKey (q : ShardedImport) (i : Nat) : Int :=
  ((q.shardBuffer.values[i]?).getD (.int 0)).toInt

theorem intKey_of_getElem? {c : Cell} (h : q.shardBuffer.values[i]? = some c) :
    q.intKey i = c.toInt := by
  rw [intKey, h]
  rfl

/-- A key is a value of the vector. -/
theorem intKey_mem (hi : i < q.rowCount) :
    ∃ c ∈ q.shardBuffer.values, q.intKey i = c.toInt := by
  obtain ⟨c, hc⟩ := getElem?_values hi
  exact ⟨c, mem_of_getElem? hc, intKey_of_getElem? hc⟩

section

variable {w : Nat} (hw : vectorType q.shardBuffer.columnType = some (.ints w))
include hw

theorem intKey_holds (hi : i < q.rowCount) : (q.intKey i).bmod (256 ^ w) = q.intKey i := by
  obtain ⟨c, hmem, hc⟩ := intKey_mem hi
  obtain ⟨vt, hvt, hall⟩ := (q.filled _ shardBuffer_mem).holds
  rw [hw, Option.some.injEq] at hvt
  subst hvt
  have hholds := hall c hmem
  rw [hc]
  cases c with
  | int v => exact hholds
  | _ => exact hholds.elim

theorem intKey_read (hi : i < q.rowCount) : intValueAt q.shardBuffer i = some (q.intKey i) := by
  obtain ⟨c, hc⟩ := getElem?_values hi
  obtain ⟨vt, hvt, hall⟩ := (q.filled _ shardBuffer_mem).holds
  rw [hw, Option.some.injEq] at hvt
  subst hvt
  rw [intKey_of_getElem? hc]
  exact intValueAt_of_ints (q.admitted _ shardBuffer_mem) hw hc
    (hall c (mem_of_getElem? hc))

end

variable {rows : List Nat}

section

variable (hs : isString q.shardBuffer.columnType.type = false)
include hs

theorem storedChunk_integer (d : StringDictionary) (hrows : ∀ i ∈ rows, i < q.rowCount) :
    storedChunk q.pageSize d (q.shardBuffer.select rows)
      = some (LittleEndian.encodeAll q.shardBuffer.columnType.size (rows.map q.intKey)) := by
  have hkeys : (q.shardBuffer.select rows).values.map Cell.toInt = rows.map q.intKey := by
    induction rows with
    | nil => rfl
    | cons i rows ih =>
      obtain ⟨c, hc⟩ := getElem?_values (hrows i mem_cons_self)
      have hrest := ih fun i hi => hrows i (mem_cons_of_mem _ hi)
      rw [select] at hrest ⊢
      rw [filterMap_cons_some hc, map_cons, map_cons, hrest, intKey_of_getElem? hc]
  have hs' : isString (q.shardBuffer.select rows).columnType.type = false := hs
  rw [storedChunk, hs', if_neg (by simp), hkeys]
  rfl

theorem keyBuffer_integer (d : StringDictionary) : q.keyBuffer d = some (q.shardBuffer, d) := by
  rw [keyBuffer, hs, if_neg (by simp)]

theorem agrees_integer (hfit : q.KeysFit) (hpos : 0 < shardCount) : q.Agrees shardCount := by
  intro calls d _ _
  obtain ⟨w, hw, hsize, hsz, hunsigned⟩ :=
    integer_widths (q.admitted _ shardBuffer_mem) (isInteger_of_not_string hs)
  obtain ⟨shards, hrun, hdist⟩ := agrees_of_keys hpos (keyBuffer_integer hs d)
    (fun i hi => intKey_read hw hi)
  refine ⟨shards, d, _, hrun, hdist, fun later dLater _ _ _ shard _ => ⟨_,
    storedChunk_integer hs dLater (fun i hi => (mem_rowsOf.mp hi).1), fun info hinfo s _ => ?_⟩⟩
  rw [← hinfo.1]
  refine fill_of_rows (by rw [hinfo.1]; exact hsz) (fun i hi => ?_) s
  rw [decoded, hinfo.2, hunsigned, if_neg (by simp), signed_encode, hinfo.1]
  rcases hsize with ⟨-, hnone⟩ | ⟨hfixed, hpow, hcp, -, -⟩
  · rw [hnone]
    exact intKey_holds hw hi
  · -- the key fits into the bits of the encoding
    rcases hfit with hrow | ⟨-, hkeys⟩
    · omega
    · obtain ⟨c, hmem, hc⟩ := intKey_mem hi
      have hrange := hkeys hfixed c hmem
      rw [hpow, hc]
      have htwo : (2 : Int) ^ q.shardBuffer.columnType.compParam
          = 2 * 2 ^ (q.shardBuffer.columnType.compParam - 1) := by
        rw [← pow_succ', Nat.sub_add_cancel hcp]
      refine Int.bmod_eq_of_le_mul_two ?_ ?_
      · push_cast
        omega
      · push_cast
        omega

end

-- ======== string columns

theorem dict_of_string (hs : isString q.shardBuffer.columnType.type = true) :
    q.shardBuffer.columnType.compression = .kENCODING_DICT := by
  have h := q.shardable
  have hint : isInteger q.shardBuffer.columnType.type = false := by
    revert hs
    cases q.shardBuffer.columnType.type <;> simp [isString, isInteger]
  rw [ColumnType.shardable, hint, hs] at h
  simpa using h

/-- The string of a row. -/
def strKey (q : ShardedImport) (i : Nat) : Str :=
  ((q.shardBuffer.values[i]?).getD (.int 0)).toStr

theorem getStringBuffer_select (hrows : ∀ i ∈ rows, i < q.rowCount) :
    (q.shardBuffer.select rows).getStringBuffer = rows.map q.strKey := by
  induction rows with
  | nil => rfl
  | cons i rows ih =>
    obtain ⟨c, hc⟩ := getElem?_values (hrows i mem_cons_self)
    have hrest := ih fun i hi => hrows i (mem_cons_of_mem _ hi)
    rw [getStringBuffer, select] at hrest ⊢
    rw [filterMap_cons_some hc, map_cons, map_cons, hrest, strKey, hc]
    rfl

theorem getStringBuffer_getElem? (hi : i < q.rowCount) :
    q.shardBuffer.getStringBuffer[i]? = some (q.strKey i) := by
  obtain ⟨c, hc⟩ := getElem?_values hi
  rw [getStringBuffer, getElem?_map, hc, strKey, hc]
  rfl

theorem dict_size {ti : ColumnType} (h : ti.admitted = true) (hs : isString ti.type = true)
    (hdict : ti.compression = .kENCODING_DICT) : ti.size = 1 ∨ ti.size = 2 ∨ ti.size = 4 := by
  obtain ⟨type, subtype, compression, compParam, size⟩ := ti
  subst hdict
  cases type <;> simp_all [isString, ColumnType.admitted, or_assoc]

theorem encodeStringId_int32 (id : Int) :
    (encodeStringId .int32 id).bmod (256 ^ 4) = encodeStringId .int32 id := by
  have hpow : 256 ^ 4 = 2 ^ 32 := by norm_num
  have hcast : ∀ n, (EncodedType.int32.cast n).bmod (2 ^ 32) = EncodedType.int32.cast n :=
    fun n => Int.bmod_bmod (x := n)
  rw [hpow, encodeStringId]
  split
  · exact hcast _
  · exact hcast _

section

variable (hs : isString q.shardBuffer.columnType.type = true)
include hs

theorem keyStrings_eq : keyStrings q.shardBuffer = named q.shardBuffer.getStringBuffer := by
  rw [keyStrings, if_pos hs]
  rfl

/-- The ids that the shards are chosen by. -/
theorem keyBuffer_string
    {calls : List Call} {d : StringDictionary} (hd : DictReached q.pageSize calls d)
    (hfew : Few calls (keyStrings q.shardBuffer)) {t : EncodedType}
    (ht : q.shardBuffer.encodedType = some t) :
    ∃ d', q.keyBuffer d = some ({ q.shardBuffer with
        stringDict := q.shardBuffer.getStringBuffer.map fun s => encodeStringId t
          (idIn (internAll [] (callStrings calls ++ keyStrings q.shardBuffer)) s) }, d')
      ∧ Represents q.pageSize d'
          (internAll [] (callStrings calls ++ keyStrings q.shardBuffer)) := by
  have hsub : (callStrings calls).toFinset.card ≤ maxStrcount := by
    refine le_trans (Finset.card_le_card ?_) hfew
    intro x hx
    rw [mem_toFinset, mem_append]
    exact Or.inl (mem_toFinset.mp hx)
  have hrep := hd.represents q.page hsub
  rw [keyBuffer, if_pos hs, internAll_append, keyStrings_eq hs]
  refine addDictEncodedString_spec q.page hrep ht (q.strlen _ shardBuffer_mem) ?_
  rw [← internAll_append, length_internAll_nil, ← keyStrings_eq hs]
  exact hfew

/-- The strings are numbered alike when a shard is stored. -/
theorem storedChunk_string
    (hsize : q.shardBuffer.columnType.size = 4) {ss : List Str} {d' dLater : StringDictionary}
    {later : List Call} (h : Represents q.pageSize d' ss)
    (hnamed : ∀ i < q.rowCount, 0 < (q.strKey i).length → q.strKey i ∈ ss)
    (hrun : ∃ answers, runCalls q.pageSize d' later = .ok (dLater, answers))
    (hlens : ∀ s ∈ later.flatMap Call.strings, 0 < s.length ∧ s.length ≤ maxStrlen)
    (hfew : (internAll ss (callStrings later)).length ≤ maxStrcount)
    (hrows : ∀ i ∈ rows, i < q.rowCount) : storedChunk q.pageSize dLater (q.shardBuffer.select rows)
      = some (LittleEndian.encodeAll 4
          (rows.map fun i => encodeStringId .int32 (idIn ss (q.strKey i)))) := by
  obtain ⟨d₁, hrun₁, h₁⟩ := Dict.runCalls_spec q.page h hlens hfew
  obtain ⟨answers, hrun⟩ := hrun
  have heq := hrun.symm.trans hrun₁
  rw [Except.ok.injEq, Prod.mk.injEq] at heq
  rw [← heq.1] at h₁
  have hstrs := getStringBuffer_select hrows
  -- no string of the shard is new
  have hold : internAll (internAll ss (callStrings later)) (named (rows.map q.strKey))
      = internAll ss (callStrings later) := by
    refine internAll_of_subset fun s hin => ?_
    obtain ⟨hin, hpos⟩ := mem_filter.mp hin
    obtain ⟨i, hi, rfl⟩ := mem_map.mp hin
    exact mem_internAll.mpr (Or.inl (hnamed i (hrows i hi) (of_decide_eq_true hpos)))
  have hlen : ∀ s ∈ (q.shardBuffer.select rows).getStringBuffer, s.length ≤ maxStrlen := by
    intro s hin
    rw [hstrs] at hin
    obtain ⟨i, hi, rfl⟩ := mem_map.mp hin
    exact q.strlen _ shardBuffer_mem _
      (mem_of_getElem? (getStringBuffer_getElem? (hrows i hi)))
  have hsize' : (q.shardBuffer.select rows).columnType.size = 4 := hsize
  obtain ⟨d₂, hadd, -⟩ := @addDictEncodedString_spec q.pageSize q.page
    (q.shardBuffer.select rows) dLater _ .int32 h₁
    (by simp [encodedType, hsize']) hlen
    (by rw [hstrs, hold]; exact hfew)
  have hs' : isString (q.shardBuffer.select rows).columnType.type = true := hs
  rw [storedChunk, if_pos hs', hadd, Option.bind_eq_bind, Option.bind_some]
  dsimp only
  rw [getStringDictBuffer, hsize', if_pos (by decide), hstrs, hold, map_map]
  congr 2
  apply map_congr_left
  intro i hi
  -- a number, once given, stays
  show encodeStringId .int32 (idIn (internAll ss (callStrings later)) (q.strKey i)) = _
  by_cases hz : (q.strKey i).length = 0
  · rw [idIn, idIn, if_pos hz, if_pos hz]
  · rw [idIn, idIn, if_neg hz, if_neg hz,
      idxOf_internAll_of_mem (hnamed i (hrows i hi) (Nat.pos_of_ne_zero hz))]

theorem agrees_string (hsize : q.shardBuffer.columnType.size = 4) (hpos : 0 < shardCount) :
    q.Agrees shardCount := by
  intro calls d hd hfew
  have hdict := dict_of_string hs
  obtain ⟨d', hkeyed, hrep⟩ := keyBuffer_string hs hd hfew
    (by simp [encodedType, hsize] : _ = some .int32)
  set ss := internAll [] (callStrings calls ++ keyStrings q.shardBuffer) with hss
  have hread : ∀ i < q.rowCount, intValueAt { q.shardBuffer with
      stringDict := q.shardBuffer.getStringBuffer.map fun s =>
        encodeStringId .int32 (idIn ss s) } i
      = some (encodeStringId .int32 (idIn ss (q.strKey i))) := by
    intro i hi
    have helem : (q.shardBuffer.getStringBuffer.map fun s => encodeStringId .int32 (idIn ss s))[i]?
        = some (encodeStringId .int32 (idIn ss (q.strKey i))) := by
      rw [getElem?_map, getStringBuffer_getElem? hi]
      rfl
    have hback : signed (encode 4
        (encodeStringId .int32 (idIn ss (q.strKey i))))
        = encodeStringId .int32 (idIn ss (q.strKey i)) := by
      rw [signed_encode, encodeStringId_int32]
    simp only [intValueAt, hs, hdict, getStringDictBuffer, hsize, ColumnType.getLogicalSize]
    simp [elementAt_encodeAll 4 helem, hback]
  obtain ⟨shards, hrun, hdist⟩ := agrees_of_keys hpos hkeyed hread
  refine ⟨shards, d', _, hrun, hdist, fun later dLater hlater hlens hfew' shard _ => ⟨_,
    storedChunk_string hs hsize hrep ?_ hlater hlens ?_ (fun i hi => (mem_rowsOf.mp hi).1),
    fun info hinfo s _ => ?_⟩⟩
  · intro i hi hlen
    rw [hss, mem_internAll, mem_append, keyStrings_eq hs]
    exact Or.inr (Or.inr (mem_filter.mpr
      ⟨mem_of_getElem? (getStringBuffer_getElem? hi), decide_eq_true hlen⟩))
  · rw [hss, ← internAll_append, length_internAll_nil]
    refine le_trans (Finset.card_le_card ?_) hfew'
    intro x hx
    simp only [mem_toFinset, mem_append, flatMap_append, callStrings] at hx ⊢
    tauto
  · have hinfo₁ : info.elemSz = 4 := hinfo.1.trans hsize
    have hunsigned : info.isUnsigned = false := by
      rw [hinfo.2, isUnsignedType, ColumnType.getLogicalSize, hdict, hsize]
      rfl
    rw [← hinfo₁]
    refine fill_of_rows (by rw [hinfo₁]; decide) (fun i _ => ?_) s
    rw [decoded, hunsigned, if_neg (by simp), signed_encode, hinfo₁, encodeStringId_int32]

-- ======== disagreement

omit hs in
/-- A new dictionary. -/
theorem new_reached (q : ShardedImport) :
    DictReached q.pageSize [] (Dict.initialDictionary q.pageSize .empty 256) :=
  ⟨⟨[], rfl⟩, by simp⟩

omit hs in
theorem few_new (q : ShardedImport) : Few [] (keyStrings q.shardBuffer) := q.few

omit hs in
/-- A run over the rows has read the key of each. -/
theorem reads_of_foldlM {shardBuffer : TypedImportBuffer} {importBuffers : OneShardBuffers} :
    ∀ {shards shards' : Shards},
      rows.foldlM (distributeRow shardBuffer importBuffers shardCount) shards = some shards' →
      ∀ i ∈ rows, intValueAt shardBuffer i ≠ none := by
  induction rows with
  | nil => exact fun _ _ hi => absurd hi not_mem_nil
  | cons k rows ih =>
    intro shards shards' h i hi
    rw [foldlM_cons, Option.bind_eq_bind, Option.bind_eq_some_iff] at h
    obtain ⟨shards₁, hstep, hrest⟩ := h
    rcases mem_cons.mp hi with rfl | hi
    · intro hnone
      rw [distributeRow, hnone] at hstep
      cases hstep
    · exact ih hrest i hi

/-- Ids of 1 or 2 bytes are read as if they had 4. -/
theorem not_agrees_narrow
    (hsize : q.shardBuffer.columnType.size ≠ 4) (hrow : q.rowCount ≠ 0) (shardCount : Nat) :
    ¬ q.Agrees shardCount := by
  intro hagree
  obtain ⟨shards, d', -, hrun, -⟩ := hagree [] _ (new_reached q) (few_new q)
  have hdict := dict_of_string hs
  have hok := dict_size (q.admitted _ shardBuffer_mem) hs hdict
  have hsizes : q.shardBuffer.columnType.size = 1 ∨ q.shardBuffer.columnType.size = 2 := by
    omega
  obtain ⟨t, ht⟩ : ∃ t, q.shardBuffer.encodedType = some t := by
    rcases hsizes with h | h
    · exact ⟨.uint8, by simp [encodedType, h]⟩
    · exact ⟨.uint16, by simp [encodedType, h]⟩
  obtain ⟨d₁, hkeyed, -⟩ := keyBuffer_string hs (new_reached q) (few_new q) ht
  rw [distributeToShards_eq, hkeyed, Option.bind_some, Option.bind_eq_some_iff] at hrun
  obtain ⟨shards', hfold, -⟩ := hrun
  refine reads_of_foldlM hfold (q.rowCount - 1) (mem_range.mpr (by omega)) ?_
  -- the vector of ids is as long as the column
  have hlen : q.shardBuffer.getStringBuffer.length = q.rowCount := by
    rw [getStringBuffer, length_map]
    exact (q.filled _ shardBuffer_mem).length
  have hlast := @elementAt_last q.shardBuffer.columnType.size 4
    (by rcases hsizes with h | h <;> omega)
    (q.shardBuffer.getStringBuffer.map fun s => encodeStringId t
      (idIn (internAll [] (callStrings [] ++ keyStrings q.shardBuffer)) s))
    (by
      rw [ne_eq, map_eq_nil_iff]
      intro hnil
      rw [hnil] at hlen
      exact hrow hlen.symm)
  rw [length_map, hlen] at hlast
  simp only [intValueAt, hs, hdict, getStringDictBuffer, if_pos hok,
    ColumnType.getLogicalSize, if_true]
  simp only [Option.bind_eq_bind, Option.bind_some, hlast]
  rfl

end

/-- Two numbers in the same shard for every number of shards are equal. -/
theorem exists_shardCount {u v : Nat} (hu : u < 2 ^ 64) (hv : v < 2 ^ 64)
    (h : ∀ n, 0 < n → n < 2 ^ 31 → u % n = v % n) : u = v := by
  have hab : Nat.Coprime (2 ^ 31 - 1) (2 ^ 31 - 2) := by decide
  have habc : Nat.Coprime ((2 ^ 31 - 1) * (2 ^ 31 - 2)) (2 ^ 31 - 3) := by decide
  have h₁ : u ≡ v [MOD 2 ^ 31 - 1] := h _ (by norm_num) (by norm_num)
  have h₂ : u ≡ v [MOD 2 ^ 31 - 2] := h _ (by norm_num) (by norm_num)
  have h₃ : u ≡ v [MOD 2 ^ 31 - 3] := h _ (by norm_num) (by norm_num)
  have h₁₂ := (Nat.modEq_and_modEq_iff_modEq_mul hab).mp ⟨h₁, h₂⟩
  have hall := (Nat.modEq_and_modEq_iff_modEq_mul habc).mp ⟨h₁₂, h₃⟩
  have hbig : 2 ^ 64 ≤ (2 ^ 31 - 1) * (2 ^ 31 - 2) * (2 ^ 31 - 3) := by norm_num
  have hmod : u % ((2 ^ 31 - 1) * (2 ^ 31 - 2) * (2 ^ 31 - 3))
      = v % ((2 ^ 31 - 1) * (2 ^ 31 - 2) * (2 ^ 31 - 3)) := hall
  rwa [Nat.mod_eq_of_lt (lt_of_lt_of_le hu hbig), Nat.mod_eq_of_lt (lt_of_lt_of_le hv hbig)]
    at hmod

/-- In whatever way the rows are told apart, the shards hold the same
columns. -/
theorem distributed_unique {shard : Nat} {f g : Nat → Nat} {shards : Shards}
    (hf : Distributed q shardCount f shards) (hg : Distributed q shardCount g shards)
    (hshard : shard < shardCount) :
    q.shardBuffer.select (rowsOf q.rowCount f shard)
        = q.shardBuffer.select (rowsOf q.rowCount g shard)
      ∧ (rowsOf q.rowCount f shard).length = (rowsOf q.rowCount g shard).length := by
  constructor
  · have h := congrArg (fun bs : List OneShardBuffers =>
      (bs[shard]?).bind (·[q.shardedColumnId - 1]?)) (hf.buffers.symm.trans hg.buffers)
    simpa [hshard, q.sharded.2] using h
  · have h := congrArg (fun ns : List Nat => ns[shard]?) (hf.rowCounts.symm.trans hg.rowCounts)
    simpa [hshard] using h

/-- A key is stored as one of the same shard. -/
theorem shardOf_stored (hs : isString q.shardBuffer.columnType.type = false) (hpos : 0 < shardCount)
    (hi : i < q.rowCount) (hagree : q.Agrees shardCount) :
    shardOf shardCount ((q.intKey i).bmod (256 ^ q.shardBuffer.columnType.size))
      = shardOf shardCount (q.intKey i) := by
  obtain ⟨w, hw, -, hsz, hunsigned⟩ :=
    integer_widths (q.admitted _ shardBuffer_mem) (isInteger_of_not_string hs)
  obtain ⟨shards, d', f, hrun, hdist, hlater⟩ := hagree [] _ (new_reached q) (few_new q)
  obtain ⟨shards₁, hrun₁, hdist₁⟩ := agrees_of_keys hpos (keyBuffer_integer hs _)
    (fun i hi => intKey_read hw hi)
  rw [hrun₁, Option.some.injEq, Prod.mk.injEq] at hrun
  rw [hrun.1] at hdist₁
  have hshard := hdist₁.lt i hi
  obtain ⟨hselect, hlen⟩ := distributed_unique hdist hdist₁ hshard
  obtain ⟨bytes, hbytes, hfill⟩ := hlater [] d' ⟨[], rfl⟩ (by simp) (by
    exact few_new q) _ hshard
  rw [hselect, storedChunk_integer hs d' (fun i hi => (mem_rowsOf.mp hi).1),
    Option.some.injEq] at hbytes
  obtain ⟨p, hp⟩ := mem_iff_getElem?.mp
    (mem_rowsOf.mpr ⟨hi, rfl⟩ : i ∈ rowsOf q.rowCount
      (fun i => shardOf shardCount (q.intKey i)) (shardOf shardCount (q.intKey i)))
  -- a join for which this key is neither null nor another dictionary's
  let info : JoinColumnTypeInfo :=
    ⟨q.shardBuffer.columnType.size,
      (q.intKey i).bmod (256 ^ q.shardBuffer.columnType.size) + 1, false, 0, false, none⟩
  have hdec : decoded info (q.intKey i)
      = (q.intKey i).bmod (256 ^ q.shardBuffer.columnType.size) := by
    rw [decoded, if_neg (by simp [info]), signed_encode]
  have hsame := hfill info ⟨rfl, hunsigned.symm⟩ _ hshard
  rw [if_pos rfl, hlen, ← hbytes] at hsame
  have helem : ((rowsOf q.rowCount (fun i => shardOf shardCount (q.intKey i))
      (shardOf shardCount (q.intKey i))).map q.intKey)[p]? = some (q.intKey i) := by
    rw [getElem?_map, hp]
    rfl
  have hlt : p < (rowsOf q.rowCount (fun i => shardOf shardCount (q.intKey i))
      (shardOf shardCount (q.intKey i))).length := (List.getElem?_eq_some_iff.mp hp).1
  have hmem : (p, decoded info (q.intKey i)) ∈ fillHashJoinBuff info
      (encodeAll q.shardBuffer.columnType.size
        ((rowsOf q.rowCount (fun i => shardOf shardCount (q.intKey i))
          (shardOf shardCount (q.intKey i))).map q.intKey))
      (rowsOf q.rowCount (fun i => shardOf shardCount (q.intKey i))
        (shardOf shardCount (q.intKey i))).length := by
    refine mem_filterMap.mpr ⟨p, mem_range.mpr hlt, ?_⟩
    rw [show q.shardBuffer.columnType.size = info.elemSz from rfl,
      fixedWidthDecode_encodeAll hsz helem, Option.bind_eq_bind, Option.bind_some, joinKey,
      if_neg (by rw [hdec]; simp [info])]
    rfl
  rw [← hsame] at hmem
  have hkept := @mem_fill_sharded info hsz _ shardCount _ p _ helem _ (by
    rw [length_map]
    exact hmem)
  rw [hdec] at hkept
  exact hkept

theorem bmod_range {m : Nat} (hpos : 0 < m) (hle : m ≤ 2 ^ 64) (e : Int) :
    -2 ^ 63 ≤ e.bmod m ∧ e.bmod m < 2 ^ 63 := by
  have h₁ := @Int.le_bmod e m hpos
  have h₂ := @Int.bmod_lt e m hpos
  omega

/-- A key of a FIXED column that all numbers of shards agree on fits into
its bits. -/
theorem fits_of_agrees (hs : isString q.shardBuffer.columnType.type = false)
    (hfixed : q.shardBuffer.columnType.compression = .kENCODING_FIXED)
    (hagree : ∀ shardCount, 0 < shardCount → shardCount < 2 ^ 31 → q.Agrees shardCount)
    (hi : i < q.rowCount) :
    -2 ^ (q.shardBuffer.columnType.compParam - 1) ≤ q.intKey i
      ∧ q.intKey i < 2 ^ (q.shardBuffer.columnType.compParam - 1) := by
  obtain ⟨w, hw, hsize, -, -⟩ :=
    integer_widths (q.admitted _ shardBuffer_mem) (isInteger_of_not_string hs)
  obtain ⟨-, -, hw8⟩ := logicalSize_of_ints (q.admitted _ shardBuffer_mem) hw
  obtain ⟨hpow, hcp, hle, -⟩ := hsize.resolve_left (by
    rw [hfixed]
    simp) |>.2
  have hstored := fun n hn hn' => shardOf_stored hs hn hi (hagree n hn hn')
  have hkey := bmod_range (show 0 < 256 ^ w by positivity)
    (by rcases hw8 with rfl | rfl | rfl | rfl <;> norm_num) (q.intKey i)
  rw [intKey_holds hw hi] at hkey
  rw [hpow] at hstored
  have hpos : 0 < 2 ^ q.shardBuffer.columnType.compParam := by positivity
  have hcut := bmod_range hpos (le_trans hle (by norm_num)) (q.intKey i)
  have hsame := exists_shardCount
    (by omega) (by omega) hstored
  have hbmod : (q.intKey i).bmod (2 ^ q.shardBuffer.columnType.compParam) = q.intKey i := by
    omega
  have hlow := @Int.le_bmod (q.intKey i) _ hpos
  have hhigh := @Int.bmod_lt (q.intKey i) _ hpos
  have htwo : (2 : Int) ^ q.shardBuffer.columnType.compParam
      = 2 * 2 ^ (q.shardBuffer.columnType.compParam - 1) := by
    rw [← pow_succ', Nat.sub_add_cancel hcp]
  push_cast at hlow hhigh
  omega

/-- Without rows there is nothing to read. -/
theorem agrees_empty (hs : isString q.shardBuffer.columnType.type = true) (hrow : q.rowCount = 0)
    (hpos : 0 < shardCount) :
    q.Agrees shardCount := by
  intro calls d hd hfew
  have hok := dict_size (q.admitted _ shardBuffer_mem) hs (dict_of_string hs)
  obtain ⟨t, ht⟩ : ∃ t, q.shardBuffer.encodedType = some t := by
    rcases hok with h | h | h
    · exact ⟨.uint8, by simp [encodedType, h]⟩
    · exact ⟨.uint16, by simp [encodedType, h]⟩
    · exact ⟨.int32, by simp [encodedType, h]⟩
  obtain ⟨d', hkeyed, -⟩ := keyBuffer_string hs hd hfew ht
  obtain ⟨shards, hrun, hdist⟩ := @agrees_of_keys q _ hpos _ _ _ (fun _ => 0) hkeyed
    (fun i hi => by omega)
  refine ⟨shards, d', _, hrun, hdist, fun later dLater _ _ _ shard _ => ⟨[], ?_,
    fun info _ s _ => ?_⟩⟩
  · have hs' : isString (q.shardBuffer.select []).columnType.type = true := hs
    have ht' : (q.shardBuffer.select []).encodedType = some t := ht
    have hok' : (q.shardBuffer.select []).columnType.size = 1
      ∨ (q.shardBuffer.select []).columnType.size = 2
      ∨ (q.shardBuffer.select []).columnType.size = 4 := hok
    rw [hrow, show rowsOf 0 _ shard = [] from rfl, storedChunk, if_pos hs',
      addDictEncodedString, if_neg (by rintro ⟨s, hs, -⟩; cases hs), ht']
    show getStringDictBuffer { q.shardBuffer.select [] with stringDict := [] }
      = some []
    rw [getStringDictBuffer, if_pos hok']
    rfl
  · rw [hrow, show rowsOf 0 _ shard = [] from rfl]
    split
    · rfl
    · rfl

/- 300 in a column of one byte is stored as 44. -/
example : shardOf 3 300 = 0 ∧ shardOf 3 ((300 : Int).bmod (256 ^ 1)) = 2 := by decide

/-- Over every number of shards, the import and the join agree exactly when
the stored keys are those that the shards were chosen by. -/
theorem agrees_iff (q : ShardedImport) :
    (∀ shardCount, 0 < shardCount → shardCount < 2 ^ 31 → q.Agrees shardCount) ↔ q.KeysFit := by
  constructor
  · intro hagree
    by_cases hrow : q.rowCount = 0
    · exact Or.inl hrow
    right
    constructor
    · intro hs
      by_contra hsize
      exact not_agrees_narrow hs hsize hrow 1 (hagree 1 (by norm_num) (by norm_num))
    · intro hfixed c hc
      have hs : isString q.shardBuffer.columnType.type = false := by
        by_contra hs
        rw [Bool.not_eq_false] at hs
        rw [dict_of_string hs] at hfixed
        cases hfixed
      obtain ⟨i, hi⟩ := mem_iff_getElem?.mp hc
      have hlt : i < q.rowCount := by
        rw [← (q.filled _ shardBuffer_mem).length]
        exact (List.getElem?_eq_some_iff.mp hi).1
      rw [← intKey_of_getElem? hi]
      exact fits_of_agrees hs hfixed hagree hlt
  · intro hfit shardCount hpos _
    cases hs : isString q.shardBuffer.columnType.type with
    | false => exact agrees_integer hs hfit hpos
    | true =>
      rcases hfit with hrow | ⟨hsize, -⟩
      · exact agrees_empty hs hrow hpos
      · exact agrees_string hs (hsize hs) hpos

/-- A table of one text column with ids of one byte, sharded by it, and
one row. -/
def narrowIds : ShardedImport where
  pageSize := 4096
  page := le_rfl
  importBuffers := [⟨⟨.kTEXT, .kNULLT, .kENCODING_DICT, 0, 1⟩, [.string [97]], []⟩]
  rowCount := 1
  shardedColumnId := 1
  admitted := by decide
  filled := by
    intro b hb
    rw [List.mem_singleton.mp hb]
    refine ⟨rfl, .strings, rfl, fun c hc => ?_⟩
    rw [List.mem_singleton.mp hc]
    exact True.intro
  shardBuffer := ⟨⟨.kTEXT, .kNULLT, .kENCODING_DICT, 0, 1⟩, [.string [97]], []⟩
  sharded := ⟨by decide, rfl⟩
  shardable := by decide
  strlen := by decide
  few := by decide

/-- The id of its row is read from four bytes, of which the vector has one. -/
theorem narrowIds_disagree :
    ¬ ∀ q : ShardedImport, ∀ shardCount, 0 < shardCount → shardCount < 2 ^ 31 →
      q.Agrees shardCount := by
  intro h
  exact @not_agrees_narrow narrowIds (by decide) (by decide) (by decide) 2
    (h narrowIds 2 (by norm_num) (by norm_num))

end ShardedImport

end Compass.Import
