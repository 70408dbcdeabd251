/-
What `distributeToShards` makes of the rows.

A number is read back as it was put into its vector when the logical size
of the column is the width of the vector, which it is for every column
but the dictionary-encoded ones (`intValueAt_of_ints`). So the copy of a
row takes over all its values (`copyRow_spec`), and after `k` rows each
shard has those of the first `k` that are its own (`distribute_spec`).
-/
import Compass.Import.Loader

namespace Compass.Import

open List Option

-- ======== reading a value

/-- A vector of integers has elements of the logical size of its column. -/
theorem logicalSize_of_ints {ti : ColumnType} {w : Nat} (h : ti.admitted = true)
    (hv : vectorType ti = some (.ints w)) :
    isString ti.type = false ∧ ti.getLogicalSize = some w
      ∧ (w = 1 ∨ w = 2 ∨ w = 4 ∨ w = 8) := by
  obtain ⟨type, subtype, compression, compParam, size⟩ := ti
  cases type <;> cases compression <;>
    simp_all [ColumnType.admitted, vectorType, isString, ColumnType.getLogicalSize, noneSize]

variable {c : Cell} {i : Nat}

theorem intValueAt_of_ints {b : TypedImportBuffer} {w : Nat} (h : b.columnType.admitted = true)
    (hv : vectorType b.columnType = some (.ints w)) (hc : b.values[i]? = some c)
    (hholds : (VectorType.ints w).Holds c) : intValueAt b i = some c.toInt := by
  obtain ⟨hstring, hsize, hw⟩ := logicalSize_of_ints h hv
  have helem : (b.values.map Cell.toInt)[i]? = some c.toInt := by
    rw [getElem?_map, hc]
    rfl
  have hback : LittleEndian.signed (LittleEndian.encode w c.toInt) = c.toInt := by
    rw [LittleEndian.signed_encode]
    cases c <;> first | exact hholds | exact hholds.elim
  simp only [intValueAt, hstring, TypedImportBuffer.getAsBytes, hv, hsize]
  simp [hw, LittleEndian.elementAt_encodeAll w helem, hback]

-- ======== copying a row

variable {input output : TypedImportBuffer}

theorem number_spec {w : Nat} (h : input.columnType.admitted = true)
    (hv : vectorType input.columnType = some (.ints w)) (hc : input.values[i]? = some c)
    (hholds : (VectorType.ints w).Holds c) (hout : output.columnType = input.columnType) :
    (do output.addNumber w (← intValueAt input i))
      = some { output with values := output.values ++ [c] } := by
  rw [intValueAt_of_ints h hv hc hholds, bind_eq_bind, bind_some,
    TypedImportBuffer.addNumber, hout, if_pos hv]
  cases c with
  | int v =>
    have hv : v.bmod (256 ^ w) = v := hholds
    rw [Cell.toInt, hv]
  | _ => exact hholds.elim

theorem cell_spec {vt : VectorType} (hv : vectorType input.columnType = some vt)
    (hc : input.values[i]? = some c) (hout : output.columnType = input.columnType) :
    (do output.addCell vt (← valueAt vt input i))
      = some { output with values := output.values ++ [c] } := by
  rw [valueAt, if_pos hv, hc, bind_eq_bind, bind_some, TypedImportBuffer.addCell, hout, if_pos hv]

theorem decimal_size {ti : ColumnType} (h : ti.admitted = true)
    (hd : ti.type = .kDECIMAL ∨ ti.type = .kNUMERIC) : ti.size = 8 := by
  obtain ⟨type, subtype, compression, compParam, size⟩ := ti
  cases compression <;> rcases hd with rfl | rfl <;>
    simp_all [ColumnType.admitted, noneSize]

variable {n : Nat}

/-- A column of a row is taken over. -/
theorem copyValue_spec (h : input.columnType.admitted = true) (hfill : input.Filled n)
    (hc : input.values[i]? = some c) (hout : output.columnType = input.columnType) :
    copyValue i input output = some { output with values := output.values ++ [c] } := by
  obtain ⟨vt, hvt, hall⟩ := hfill.holds
  have hholds := hall c (mem_of_getElem? hc)
  have hnumber : ∀ w, vectorType input.columnType = some (.ints w) →
      (do output.addNumber w (← intValueAt input i))
        = some { output with values := output.values ++ [c] } := by
    intro w hw
    rw [hw, some.injEq] at hvt
    subst hvt
    exact number_spec h hw hc hholds hout
  have hcell : ∀ vt', vectorType input.columnType = some vt' →
      (do output.addCell vt' (← valueAt vt' input i))
        = some { output with values := output.values ++ [c] } :=
    fun vt' hvt' => cell_spec hvt' hc hout
  unfold copyValue
  by_cases hdec : input.columnType.type = .kDECIMAL ∨ input.columnType.type = .kNUMERIC
  · -- a decimal is copied as the integer of its size
    have hvec : vectorType input.columnType = some (.ints 8) := by
      rcases hdec with htype | htype
      · rw [vectorType, htype]
      · rw [vectorType, htype]
    simp only [if_pos hdec, SQLTypeInfo.decimalToIntType, decimal_size h hdec,
      bind_eq_bind, bind_some]
    exact hnumber 8 hvec
  · simp only [if_neg hdec, bind_eq_bind, bind_some]
    cases htype : input.columnType.type with
    | kARRAY =>
      by_cases hsub : isString input.columnType.subtype = true
      · simp only [hsub, if_true]
        exact hcell _ (by rw [vectorType, htype]; simp [hsub])
      · simp only [hsub, if_false, Bool.false_eq_true]
        exact hcell _ (by rw [vectorType, htype]; simp [hsub])
    | kNULLT | kINTERVAL_DAY_TIME | kINTERVAL_YEAR_MONTH =>
      rw [vectorType, htype] at hvt
      cases hvt
    | kDECIMAL => exact absurd (Or.inl htype) hdec
    | kNUMERIC => exact absurd (Or.inr htype) hdec
    | kBOOLEAN => exact hnumber 1 (by rw [vectorType, htype])
    | kSMALLINT => exact hnumber 2 (by rw [vectorType, htype])
    | kINT => exact hnumber 4 (by rw [vectorType, htype])
    | kBIGINT | kTIME | kTIMESTAMP | kDATE => exact hnumber 8 (by rw [vectorType, htype])
    | kFLOAT | kDOUBLE | kTEXT | kVARCHAR | kCHAR =>
      exact hcell _ (by rw [vectorType, htype])

theorem copyRow_spec (hi : i < n) (rows : List Nat) :
    ∀ {inputs : OneShardBuffers}, (∀ b ∈ inputs, b.columnType.admitted = true) →
      (∀ b ∈ inputs, b.Filled n) →
      copyRow i inputs (inputs.map fun b => b.select rows)
        = some (inputs.map fun b => b.select (rows ++ [i])) := by
  intro inputs
  induction inputs with
  | nil => exact fun _ _ => rfl
  | cons b inputs ih =>
    intro hadm hfill
    have hlt : i < b.values.length := by
      rw [(hfill b mem_cons_self).length]
      exact hi
    have hc : b.values[i]? = some b.values[i] := getElem?_eq_getElem hlt
    have hcopy := copyValue_spec (hadm b mem_cons_self) (hfill b mem_cons_self) hc
      (show (b.select rows).columnType = b.columnType from rfl)
    have hrest := ih (fun b hb => hadm b (mem_cons_of_mem _ hb))
      (fun b hb => hfill b (mem_cons_of_mem _ hb))
    have hselect : b.select (rows ++ [i])
        = { b.select rows with values := (b.select rows).values ++ [b.values[i]] } := by
      simp [TypedImportBuffer.select, hc]
    rw [map_cons, map_cons, copyRow, hcopy, hrest, hselect]
    rfl

-- ======== all the rows

theorem rowsOf_succ (k : Nat) (f : Nat → Nat) (shard : Nat) :
    rowsOf (k + 1) f shard = rowsOf k f shard ++ if f k = shard then [k] else [] := by
  rw [rowsOf, range_succ, filter_append, ← rowsOf]
  by_cases h : f k = shard
  · simp [h]
  · simp [h]

/-- The shards after `k` rows, for a choice of shards. -/
def shardsAfter (importBuffers : OneShardBuffers) (shardCount : Nat) (f : Nat → Nat) (k : Nat) :
    Shards where
  buffers := (List.range shardCount).map fun shard =>
    importBuffers.map fun b => b.select (rowsOf k f shard)
  rowCounts := (List.range shardCount).map fun shard => (rowsOf k f shard).length

theorem shardsAfter_zero (importBuffers : OneShardBuffers) (shardCount : Nat) (f : Nat → Nat) :
    shardsAfter importBuffers shardCount f 0 = emptyShards importBuffers shardCount := by
  rw [shardsAfter, emptyShards]
  congr 1
  · rw [eq_replicate_iff]
    constructor
    · simp
    · intro bs hbs
      obtain ⟨s, -, rfl⟩ := mem_map.mp hbs
      rfl
  · rw [eq_replicate_iff]
    constructor
    · simp
    · intro n hn
      obtain ⟨s, -, rfl⟩ := mem_map.mp hn
      rfl

/-- A table of all shards with one entry changed. -/
theorem range_map_set {α : Type} (n s : Nat) {f g : Nat → α} (hne : ∀ s' ≠ s, g s' = f s') :
    ((range n).map f).set s (g s) = (range n).map g := by
  apply ext_getElem
  · simp
  · intro k hk hk'
    rw [getElem_set]
    by_cases h : s = k
    · subst h
      simp
    · rw [if_neg h]
      simp [hne k (Ne.symm h)]

/-- One row more. -/
theorem distributeRow_spec {shardBuffer : TypedImportBuffer} {importBuffers : OneShardBuffers}
    {shardCount k : Nat} {f : Nat → Nat} {v : Int} (hpos : 0 < shardCount) (hk : k < n)
    (hadm : ∀ b ∈ importBuffers, b.columnType.admitted = true)
    (hfill : ∀ b ∈ importBuffers, b.Filled n) (hv : intValueAt shardBuffer k = some v)
    (hf : f k = shardOf shardCount v) : distributeRow shardBuffer importBuffers shardCount
        (shardsAfter importBuffers shardCount f k) k
      = some (shardsAfter importBuffers shardCount f (k + 1)) := by
  have hlt : f k < shardCount := by
    rw [hf]
    exact Nat.mod_lt _ hpos
  have hrows : rowsOf (k + 1) f (f k) = rowsOf k f (f k) ++ [k] := by
    rw [rowsOf_succ, if_pos rfl]
  have hother : ∀ s ≠ f k, rowsOf (k + 1) f s = rowsOf k f s := by
    intro s hs
    rw [rowsOf_succ, if_neg (Ne.symm hs), append_nil]
  rw [distributeRow, hv, bind_eq_bind, bind_some, ← hf]
  have hout : (shardsAfter importBuffers shardCount f k).buffers[f k]?
      = some (importBuffers.map fun b => b.select (rowsOf k f (f k))) := by
    simp [shardsAfter, hlt]
  have hcount : (shardsAfter importBuffers shardCount f k).rowCounts[f k]?
      = some (rowsOf k f (f k)).length := by
    simp [shardsAfter, hlt]
  dsimp only
  rw [hout, bind_eq_bind, bind_some, copyRow_spec hk _ hadm hfill,
    bind_some, hcount, bind_eq_bind, bind_some]
  have hbuffers := range_map_set shardCount (f k)
    (f := fun s => importBuffers.map fun b => b.select (rowsOf k f s))
    (g := fun s => importBuffers.map fun b => b.select (rowsOf (k + 1) f s))
    (fun s hs => by rw [hother s hs])
  have hcounts := range_map_set shardCount (f k) (f := fun s => (rowsOf k f s).length)
    (g := fun s => (rowsOf (k + 1) f s).length)
    (fun s hs => by rw [hother s hs])
  rw [hrows] at hbuffers hcounts
  rw [length_append, length_singleton] at hcounts
  exact congrArg some (congrArg₂ Shards.mk hbuffers hcounts)

/-- All rows. -/
theorem distribute_spec {shardBuffer : TypedImportBuffer} {importBuffers : OneShardBuffers}
    {shardCount : Nat} {f : Nat → Nat} {keys : Nat → Int} (hpos : 0 < shardCount)
    (hadm : ∀ b ∈ importBuffers, b.columnType.admitted = true)
    (hfill : ∀ b ∈ importBuffers, b.Filled n)
    (hv : ∀ i < n, intValueAt shardBuffer i = some (keys i))
    (hf : ∀ i < n, f i = shardOf shardCount (keys i)) :
    ∀ k ≤ n, (range k).foldlM (distributeRow shardBuffer importBuffers shardCount)
        (emptyShards importBuffers shardCount)
      = some (shardsAfter importBuffers shardCount f k) := by
  intro k
  induction k with
  | zero =>
    intro _
    rw [shardsAfter_zero]
    rfl
  | succ k ih =>
    intro hk
    rw [range_succ, foldlM_append, ih (by omega), bind_eq_bind, bind_some, foldlM_cons,
      distributeRow_spec hpos hk hadm hfill (hv k hk) (hf k hk)]
    rfl

end Compass.Import
