/-
A join table finds its rows, when no offset is cut off and no key begins
with a value that the table uses itself.

`Filled` is the invariant of filling: the table is one of linear probing,
entries hold the rows written so far, and free entries are as they were
initialised. A row that begins with the empty key still finds a free
entry, but leaves it free: it is found if it is the last, and a row with
the same home that is written after it takes the entry and finds an id in
it.
-/
import Compass.HashTable.BaselineJoin
import Compass.HashTable.Proofs.GroupBy

namespace Compass.HashTable

open Probing List Function Option Nat Prod

namespace JoinTable

variable (t : JoinTable)

-- ======== addresses

theorem searched_separate : t.searched.Separate t.entryCount := by
  refine ⟨t.keyComponentCount_pos, ?_, ?_⟩
  · intro p _ q _ i hi j hj heq
    have hi' : i < t.keyComponentCount := hi
    have hj' : j < t.keyComponentCount := hj
    exact GroupBuffer.mul_add_inj (by omega) (by omega) heq
  · intro p _ q _ i hi hin
    have hi' : i < t.keyComponentCount := hi
    have heq : q * (t.keyComponentCount + 1) + i
        = p * (t.keyComponentCount + 1) + t.keyComponentCount := mem_singleton.mp hin
    have := (GroupBuffer.mul_add_inj (by omega) (by omega) heq).2
    omega

variable {p : ℕ} {r : ℕ × List Int} {rows : List (ℕ × List Int)}
variable {q : ℕ}

theorem slot_notMem (hp : p < t.entryCount) (hq : q < t.entryCount) :
    t.searched.slot p ∉ t.searched.keyCells q := by
  intro hin
  obtain ⟨i, hi, heq⟩ := mem_keyCells.mp hin
  exact t.searched_separate.aggs p hp q hq i hi (mem_singleton.mpr heq)

theorem slot_inj (h : t.searched.slot p = t.searched.slot q) : p = q := by
  have h' : p * (t.keyComponentCount + 1) + t.keyComponentCount
      = q * (t.keyComponentCount + 1) + t.keyComponentCount := h
  exact (GroupBuffer.mul_add_inj (by omega) (by omega) h').1

theorem size_pos : 0 < t.keyWidth.size := by
  cases t.keyWidth <;> decide

/-- The cells that 32 bits of bytes address. -/
def addressed : ℕ := 2 ^ 32 / t.keyWidth.size

theorem addressed_mul : t.addressed * t.keyWidth.size = 2 ^ 32 := by
  unfold addressed
  cases t.keyWidth <;> decide

theorem addressed_ge : 2 ^ 29 ≤ t.addressed := by
  unfold addressed
  cases t.keyWidth <;> decide

/-- Where a row is written. -/
theorem filled_start (h : ℕ) :
    h * (t.keyComponentCount + 1) * t.keyWidth.size % 2 ^ 32 / t.keyWidth.size
      = h * (t.keyComponentCount + 1) % t.addressed := by
  rw [← t.addressed_mul, Nat.mul_mod_mul_right, Nat.mul_div_cancel _ t.size_pos]

/-- The offsets are those that are searched. -/
def Addressed : Prop :=
  (t.entryCount - 1) * (t.keyComponentCount + 1) * t.keyWidth.size < 2 ^ 32

section

variable (h : t.Addressed)
include h

variable (hp : p < t.entryCount)
include hp

theorem start_eq : p * (t.keyComponentCount + 1) * t.keyWidth.size % 2 ^ 32 / t.keyWidth.size
      = p * (t.keyComponentCount + 1) := by
  have hle : p * (t.keyComponentCount + 1)
      ≤ (t.entryCount - 1) * (t.keyComponentCount + 1) :=
    Nat.mul_le_mul_right _ (by omega)
  unfold Addressed at h
  rw [← t.addressed_mul] at h
  rw [t.filled_start]
  exact Nat.mod_eq_of_lt (Nat.lt_of_le_of_lt hle (Nat.lt_of_mul_lt_mul_right h))

theorem filled_cell (i : ℕ) : t.filled.cell p i = t.searched.cell p i :=
  congrArg (· + i) (t.start_eq h hp)

theorem filled_slot : t.filled.slot p = t.searched.slot p :=
  congrArg (· + t.keyComponentCount) (t.start_eq h hp)

theorem filled_keyCells : t.filled.keyCells p = t.searched.keyCells p :=
  map_congr_left fun i _ => t.filled_cell h hp i

end

/-- The offset in bytes is that of the cell where the row is written. -/
theorem initOffset_eq (h : ℕ) : t.initOffset true h = t.filled.cell h 0 * t.keyWidth.size := by
  have hcell : t.filled.cell h 0 = h * (t.keyComponentCount + 1) % t.addressed :=
    t.filled_start h
  rw [hcell, initOffset, rowComponents, if_pos rfl, mod_mod_of_dvd _ (by decide),
    ← t.addressed_mul, mul_mod_mul_right]

/-- An offset of a search is not cut off. -/
theorem readOffset_eq {h : ℕ} (hh : h < t.entryCount) :
    t.readOffset h = t.searched.cell h 0 * t.keyWidth.size := by
  have hsize : t.keyWidth.size ≤ 8 := by
    cases t.keyWidth <;> decide
  have hfit : h * (t.keyComponentCount + 1) * t.keyWidth.size < 2 ^ 64 := by
    have hrow : (t.keyComponentCount + 1) * t.keyWidth.size ≤ 9 * 8 :=
      Nat.mul_le_mul (by have := t.keyComponentCount_le; omega) hsize
    have hlt := t.entryCount_lt
    calc h * (t.keyComponentCount + 1) * t.keyWidth.size
        = h * ((t.keyComponentCount + 1) * t.keyWidth.size) := Nat.mul_assoc ..
      _ ≤ 2 ^ 31 * (9 * 8) := Nat.mul_le_mul (by omega) hrow
      _ < 2 ^ 64 := by decide
  have hprod : h * (t.keyBytes + t.keyWidth.size)
      = h * (t.keyComponentCount + 1) * t.keyWidth.size := by
    unfold keyBytes
    ring
  rw [readOffset, hprod, Nat.mod_eq_of_lt hfit]
  rfl

theorem disjoint_rowBytes (hp : p < t.entryCount) (hq : q < t.entryCount) (hne : p ≠ q) :
    Disjoint (t.rowBytes (t.readOffset p)) (t.rowBytes (t.readOffset q)) := by
  have hstart {h : ℕ} (hh : h < t.entryCount) :
      t.readOffset h = h * (t.rowComponents true * t.keyWidth.size) := by
    rw [t.readOffset_eq hh, ← Nat.mul_assoc]
    rfl
  refine Finset.disjoint_left.mpr fun a hpa hqa => ?_
  rw [rowBytes, Finset.mem_Ico, hstart hp] at hpa
  rw [rowBytes, Finset.mem_Ico, hstart hq] at hqa
  -- a byte determines its row: the row's number is a quotient
  have hrow {h : ℕ} (hlo : h * (t.rowComponents true * t.keyWidth.size) ≤ a)
      (hhi : a < h * (t.rowComponents true * t.keyWidth.size)
        + t.rowComponents true * t.keyWidth.size) :
      a / (t.rowComponents true * t.keyWidth.size) = h := by
    refine Nat.div_eq_of_lt_le hlo ?_
    rw [Nat.add_mul, Nat.one_mul]
    exact hhi
  exact hne ((hrow hpa.1 hpa.2).symm.trans (hrow hqa.1 hqa.2))

-- ======== one row

variable {t} {hash : List Int → ℕ} {buff : Memory} {key : List Int} {val : Int}

/-- The home of a key. -/
abbrev home (t : JoinTable) (hash : List Int → ℕ) : List Int → ℕ :=
  homeOf hash t.entryCount

/-- The table that the buffer is. -/
abbrev table (t : JoinTable) (buff : Memory) : ℕ → Option (List Int) :=
  t.searched.slotOf t.emptyKey buff

/-- A key that the table can tell from its own values. -/
def Clean (t : JoinTable) (key : List Int) : Prop :=
  Admissible t.searched t.emptyKey key ∧ key.head? ≠ some t.writePending

/-- Writing is a call for the key and a write of the id. -/
theorem write_eq (h : t.Addressed) (hkey : key.head? ≠ some t.writePending) :
    t.writeBaselineHashSlot hash buff val key
      = match t.searched.getValue t.emptyKey t.entryCount hash buff key with
        | none => none
        | some none => some (.error (-2))
        | some (some (b, slot)) =>
          if b slot = invalidSlotVal then some (.ok (update b slot val))
          else some (.error (-1)) := by
  have hattempt : t.getMatchingBaselineHashSlotAt buff key
      = t.filled.getMatching t.emptyKey buff key := by
    funext p
    unfold getMatchingBaselineHashSlotAt
    rw [if_neg hkey]
  have hcall : t.filled.getValue t.emptyKey t.entryCount hash
      = t.searched.getValue t.emptyKey t.entryCount hash :=
    getValue_congr t.entryCount_pos rfl (fun p hp i _ => t.filled_cell h hp i)
      fun p hp => t.filled_slot h hp
  unfold writeBaselineHashSlot
  rw [hattempt, ← hcall]
  rfl

/-- A free entry as it was initialised. -/
def FreeRow (t : JoinTable) (buff : Memory) (p : ℕ) : Prop :=
  (t.searched.keyCells p).map buff = List.replicate t.keyComponentCount t.emptyKey
    ∧ buff (t.searched.slot p) = invalidSlotVal

/-- An entry with a row. -/
def HasRow (t : JoinTable) (buff : Memory) (p : ℕ) (r : ℕ × List Int) : Prop :=
  (t.searched.keyCells p).map buff = r.2 ∧ buff (t.searched.slot p) = (r.1 : Int)

/-- What stands in the cells of an entry. -/
theorem row_congr {buff' : Memory} (hkey : ∀ a ∈ t.searched.keyCells p, buff' a = buff a)
    (hslot : buff' (t.searched.slot p) = buff (t.searched.slot p)) :
    (t.FreeRow buff' p ↔ t.FreeRow buff p)
      ∧ ∀ r, t.HasRow buff' p r ↔ t.HasRow buff p r := by
  unfold FreeRow HasRow
  rw [map_congr_left hkey, hslot]
  exact ⟨Iff.rfl, fun _ => Iff.rfl⟩

/-- The buffer after a row is written to an entry. -/
def written (t : JoinTable) (buff : Memory) (p : ℕ) (r : ℕ × List Int) : Memory :=
  Function.update (Cells.store buff (t.searched.keyCells p) r.2) (t.searched.slot p) r.1

theorem written_hasRow {p : ℕ} (hp : p < t.entryCount) {r : ℕ × List Int}
    (hlen : r.2.length = t.keyComponentCount) : t.HasRow (t.written buff p r) p r := by
  refine ⟨?_, update_self _ _ _⟩
  have hkeep : ∀ a ∈ t.searched.keyCells p, t.written buff p r a
      = Cells.store buff (t.searched.keyCells p) r.2 a := by
    intro a ha
    refine update_of_ne ?_ _ _
    intro heq
    exact t.slot_notMem hp hp (heq ▸ ha)
  rw [map_congr_left hkeep]
  exact Cells.load_store (nodup_keyCells t.searched_separate hp)
    (by rw [length_keyCells]; exact hlen.symm)

theorem written_of_ne {p q : ℕ} (hp : p < t.entryCount) (hq : q < t.entryCount)
    (hne : q ≠ p) (r : ℕ × List Int) :
    (∀ a ∈ t.searched.keyCells q, t.written buff p r a = buff a)
      ∧ t.written buff p r (t.searched.slot q) = buff (t.searched.slot q) := by
  constructor
  · intro a ha
    have hslot : a ≠ t.searched.slot p := by
      intro heq
      exact t.slot_notMem hp hq (heq ▸ ha)
    unfold written
    rw [update_of_ne hslot, Cells.store_of_notMem
      (disjoint_keyCells t.searched_separate hp hq (Ne.symm hne) a ha)]
  · have hslot : t.searched.slot q ≠ t.searched.slot p := fun heq => hne (t.slot_inj heq)
    unfold written
    rw [update_of_ne hslot, Cells.store_of_notMem (t.slot_notMem hq hp)]

/-- The table after a clean row is written to a free entry. -/
theorem table_written (hp : p < t.entryCount) (hq : q < t.entryCount)
    (hkey : Admissible t.searched t.emptyKey r.2) :
    t.table (t.written buff p r) q = update (t.table buff) p (some r.2) q := by
  rw [← slotOf_store t.searched_separate hkey hp hq]
  refine slotOf_congr t.searched_separate ?_
  intro a ha
  refine update_of_ne ?_ _ _
  intro heq
  exact t.slot_notMem hp hq (heq ▸ ha)

/-- A key goes to the first entry on its walk that is free, unless its own entry
comes before; an id that is there already is an error. -/
theorem write_at (h : t.Addressed) (hkey : key.head? ≠ some t.writePending) {id : ℕ}
    (hplace : place t.entryCount (t.home hash) (t.table buff) key = some p)
    (hfree : t.table buff p = none) : t.writeBaselineHashSlot hash buff id key
      = if buff (t.searched.slot p) = invalidSlotVal then some (.ok (t.written buff p (id, key)))
        else some (.error (-1)) := by
  have hp : p < t.entryCount := place_lt (homeOf_lt t.entryCount_pos) hplace
  rw [write_eq h hkey, getValue_eq t.entryCount_pos fun _ _ => rfl, hplace]
  have hslotOf : t.searched.slotOf t.emptyKey buff p = none := hfree
  dsimp only [bind_some]
  rw [getMatching_eq, hslotOf]
  dsimp only
  rw [Cells.store_of_notMem (t.slot_notMem hp hp)]
  rfl

-- ======== filling

/-- The rows written so far, all of them clean. -/
structure Filled (t : JoinTable) (hash : List Int → ℕ) (buff : Memory)
    (rows : List (ℕ × List Int)) : Prop where
  layout : Layout t.entryCount (t.table buff) (t.home hash)
  stored : ∀ p < t.entryCount, ∀ k, t.table buff p = some k →
    ∃ r ∈ rows, r.2 = k ∧ t.HasRow buff p r
  found : ∀ r ∈ rows, ∃ p < t.entryCount, t.table buff p = some r.2
  free : ∀ p < t.entryCount, t.table buff p = none → t.FreeRow buff p

theorem Filled.exists_free (h : t.Filled hash buff rows) (hlen : rows.length < t.entryCount) :
    ∃ q < t.entryCount, t.table buff q = none := by
  refine h.layout.exists_vacant (rows.map snd) ?_ (by rwa [length_map])
  intro p hp k hk
  obtain ⟨r, hr, rfl, -⟩ := h.stored p hp k hk
  exact mem_map_of_mem hr

/-- One more clean row. -/
theorem Filled.write (hA : t.Addressed) (h : t.Filled hash buff rows) (hkey : t.Clean r.2)
    (hnew : r.2 ∉ rows.map snd) (hlen : rows.length < t.entryCount) :
    ∃ buff', t.writeBaselineHashSlot hash buff r.1 r.2 = some (.ok buff')
      ∧ t.Filled hash buff' (rows ++ [r]) := by
  have hhome : t.home hash r.2 < t.entryCount := homeOf_lt t.entryCount_pos
  rcases place_cases h.layout hhome with
    ⟨p, hp, -, hk⟩ | ⟨p, hp, hplace, hnone, hreach, hother⟩ | ⟨-, hfull⟩
  · obtain ⟨r', hr', heq, -⟩ := h.stored p hp r.2 hk
    exact absurd (heq ▸ mem_map_of_mem hr') hnew
  · have hfree := h.free p hp hnone
    refine ⟨_, (write_at hA hkey.2 hplace hnone).trans (if_pos hfree.2), ?_⟩
    have htable : ∀ q < t.entryCount, t.table (t.written buff p (r.1, r.2)) q
        = update (t.table buff) p (some r.2) q := fun q hq =>
      table_written hp hq hkey.1
    have hsame : ∀ q < t.entryCount, q ≠ p →
        t.table (t.written buff p (r.1, r.2)) q = t.table buff q := by
      intro q hq hne
      rw [htable q hq, update_of_ne hne]
    refine ⟨(h.layout.fill hreach hother).congr htable, ?_, ?_, ?_⟩
    · intro q hq k hk
      by_cases hqp : q = p
      · subst hqp
        rw [htable q hq, update_self] at hk
        refine ⟨r, mem_append_right _ (mem_singleton.mpr rfl), some.inj hk, ?_⟩
        exact written_hasRow hq hkey.1.1
      · rw [hsame q hq hqp] at hk
        obtain ⟨r', hr', heq, hrow⟩ := h.stored q hq k hk
        obtain ⟨hk', hs'⟩ := @written_of_ne t buff _ _ hp hq hqp (r.1, r.2)
        exact ⟨r', mem_append_left _ hr', heq, ((row_congr hk' hs').2 r').mpr hrow⟩
    · intro r' hr'
      rcases mem_append.mp hr' with hr' | hr'
      · obtain ⟨q, hq, hk⟩ := h.found r' hr'
        refine ⟨q, hq, ?_⟩
        rw [hsame q hq, hk]
        rintro rfl
        rw [hnone] at hk
        cases hk
      · refine ⟨p, hp, ?_⟩
        rw [htable p hp, update_self, mem_singleton.mp hr']
    · intro q hq hq'
      have hne : q ≠ p := by
        rintro rfl
        rw [htable q hq, update_self] at hq'
        cases hq'
      rw [hsame q hq hne] at hq'
      obtain ⟨hk', hs'⟩ := @written_of_ne t buff _ _ hp hq hne (r.1, r.2)
      exact (row_congr hk' hs').1.mpr (h.free q hq hq')
  · obtain ⟨q, hq, hnone⟩ := h.exists_free hlen
    obtain ⟨k, -, hk⟩ := hfull q hq
    rw [hnone] at hk
    cases hk

/-- All rows, when all are clean. -/
theorem Filled.fill (hA : t.Addressed) {done : List (ℕ × List Int)}
    (h : t.Filled hash buff done) (rows : List (ℕ × List Int)) (hclean : ∀ r ∈ rows, t.Clean r.2)
    (hnodup : ((done ++ rows).map snd).Nodup) (hlen : (done ++ rows).length < t.entryCount) :
    ∃ buff', t.fillBaselineHashJoinBuff hash buff rows = some (.ok buff')
      ∧ t.Filled hash buff' (done ++ rows) := by
  induction rows generalizing buff done with
  | nil =>
    rw [append_nil]
    exact ⟨buff, rfl, h⟩
  | cons r rows ih =>
    have hnew : r.2 ∉ done.map snd := by
      rw [map_append, nodup_append] at hnodup
      intro hin
      exact hnodup.2.2 r.2 hin r.2 (mem_map_of_mem mem_cons_self) rfl
    rw [length_append, length_cons] at hlen
    obtain ⟨buff₁, hwrite, hfilled⟩ := h.write hA (hclean r mem_cons_self) hnew (by omega)
    have hassoc : done ++ [r] ++ rows = done ++ r :: rows := by simp
    obtain ⟨buff', hfill, hend⟩ := ih hfilled
      (fun x hx => hclean x (mem_cons_of_mem _ hx)) (by rw [hassoc]; exact hnodup)
      (by rw [hassoc, length_append, length_cons]; omega)
    refine ⟨buff', ?_, by rw [← hassoc]; exact hend⟩
    rw [fillBaselineHashJoinBuff, hwrite]
    exact hfill

-- ======== initialising

/-- The cells of a row. -/
def rowCells (t : JoinTable) (p : ℕ) : List ℕ :=
  t.searched.keyCells p ++ [t.searched.slot p]

theorem nodup_rowCells (hp : p < t.entryCount) : (t.rowCells p).Nodup := by
  refine nodup_append.mpr
    ⟨nodup_keyCells t.searched_separate hp, nodup_singleton _, ?_⟩
  intro a ha b hb hab
  rw [hab, mem_singleton.mp hb] at ha
  exact t.slot_notMem hp hp ha

theorem disjoint_rowCells (hp : p < t.entryCount) (hq : q < t.entryCount) (hne : p ≠ q) :
    ∀ a ∈ t.rowCells q, a ∉ t.rowCells p := by
  intro a ha ha'
  rcases mem_append.mp ha with ha | ha <;> rcases mem_append.mp ha' with ha' | ha'
  · exact disjoint_keyCells t.searched_separate hp hq hne a ha ha'
  · rw [mem_singleton.mp ha'] at ha
    exact t.slot_notMem hp hq ha
  · rw [mem_singleton.mp ha] at ha'
    exact t.slot_notMem hq hp ha'
  · rw [mem_singleton.mp ha] at ha'
    exact hne (t.slot_inj (mem_singleton.mp ha')).symm

theorem freeRow_of_load
    (h : (t.rowCells p).map buff
      = replicate t.keyComponentCount t.emptyKey ++ [invalidSlotVal]) :
    t.FreeRow buff p := by
  rw [rowCells, map_append] at h
  obtain ⟨hkey, hslot⟩ := append_inj h (by
    rw [length_map, length_keyCells, length_replicate]
    rfl)
  exact ⟨hkey, (cons.inj hslot).1⟩

/-- Every entry is free after initialising. -/
theorem init_free (hA : t.Addressed) (allocated : Memory) :
    ∀ p < t.entryCount, t.FreeRow (t.initBaselineHashJoinBuff allocated) p := by
  have hupto : ∀ m ≤ t.entryCount, ∀ p < m, (t.rowCells p).map ((range m).foldl
        (fun buff h => Cells.store buff (t.filled.keyCells h ++ [t.filled.slot h])
          (replicate t.keyComponentCount t.emptyKey ++ [invalidSlotVal])) allocated)
        = replicate t.keyComponentCount t.emptyKey ++ [invalidSlotVal] := by
    intro m
    induction m with
    | zero => exact fun _ p hp => absurd hp (not_lt_zero p)
    | succ m ih =>
      intro hm p hp
      have hlt : m < t.entryCount := by omega
      rw [range_succ, foldl_append, foldl_cons, foldl_nil,
        t.filled_keyCells hA hlt, t.filled_slot hA hlt]
      by_cases hpm : p = m
      · subst hpm
        refine Cells.load_store (nodup_rowCells hlt) ?_
        rw [length_append, length_keyCells, length_append, length_replicate]
        rfl
      · have hother := disjoint_rowCells hlt (by omega : p < t.entryCount) fun h => hpm h.symm
        exact (Cells.load_store_of_disjoint hother).trans (ih (by omega) p (by omega))
  intro p hp
  exact freeRow_of_load (hupto t.entryCount (le_refl _) p hp)

/-- The first component of a free entry. -/
theorem FreeRow.table_eq (h : t.FreeRow buff p) : t.table buff p = none := by
  have hhead := head_load t.searched_separate buff p
  obtain ⟨m, hm⟩ := exists_eq_succ_of_ne_zero
    (pos_iff_ne_zero.mp t.keyComponentCount_pos)
  rw [h.1, hm, replicate_succ] at hhead
  exact if_pos (some.inj hhead).symm

theorem filled_init (hA : t.Addressed) (allocated : Memory) :
    t.Filled hash (t.initBaselineHashJoinBuff allocated) [] := by
  have hfree := init_free hA allocated
  have hnone : ∀ p < t.entryCount,
      t.table (t.initBaselineHashJoinBuff allocated) p = none := fun p hp =>
    (hfree p hp).table_eq
  refine ⟨layout_vacant.congr hnone, ?_, nofun, fun p hp _ => hfree p hp⟩
  intro p hp k hk
  rw [hnone p hp] at hk
  cases hk

-- ======== searching

/-- A filled table, for the search: every entry has a row or is free, and
the walk to a row passes entries of other rows only. -/
structure Searchable (t : JoinTable) (hash : List Int → ℕ) (buff : Memory)
    (rows : List (ℕ × List Int)) : Prop where
  entry : ∀ p < t.entryCount, (∃ r ∈ rows, t.HasRow buff p r) ∨ t.FreeRow buff p
  reached : ∀ r ∈ rows, ∃ i < t.entryCount, t.HasRow buff ((t.home hash r.2 + i) % t.entryCount) r
      ∧ ∀ j < i, buff (t.searched.cell ((t.home hash r.2 + j) % t.entryCount) 0) ≠ t.emptyKey
        ∧ (t.searched.keyCells ((t.home hash r.2 + j) % t.entryCount)).map buff ≠ r.2

/-- The search ends at the first entry that is not passed. -/
theorem idx_eq (hash : List Int → ℕ) (buff : Memory) (key : List Int) :
    t.baselineHashJoinIdx hash buff key
      = some (((search t.entryCount (fun p => t.getMatchingSlot buff key p ≠ kNoMatch)
          t.entryCount (t.home hash key)).map (t.getMatchingSlot buff key)).getD kNoMatch) := by
  have hhome : t.home hash key < t.entryCount := homeOf_lt t.entryCount_pos
  have hsearch : search t.entryCount (fun p => (if t.getMatchingSlot buff key p ≠ kNoMatch then
        some (t.getMatchingSlot buff key p) else none).isSome = true) t.entryCount
        (t.home hash key)
      = search t.entryCount (fun p => t.getMatchingSlot buff key p ≠ kNoMatch) t.entryCount
        (t.home hash key) := by
    refine search_congr hhome ?_ t.entryCount
    intro q _
    by_cases hq : t.getMatchingSlot buff key q ≠ kNoMatch
    · simp [hq]
    · simp [hq]
  unfold baselineHashJoinIdx
  rw [show hash key % t.entryCount = t.home hash key from rfl, probe_eq hhome, hsearch]
  cases hs : search t.entryCount (fun p => t.getMatchingSlot buff key p ≠ kNoMatch)
      t.entryCount (t.home hash key) with
  | none => rfl
  | some p =>
    obtain ⟨i, -, -, hp, -⟩ := (search_eq_some_iff t.entryCount hhome).mp hs
    simp [hp]

theorem Searchable.idx_row (h : t.Searchable hash buff rows) (hr : r ∈ rows) :
    t.baselineHashJoinIdx hash buff r.2 = some (r.1 : Int) := by
  have hhome : t.home hash r.2 < t.entryCount := homeOf_lt t.entryCount_pos
  obtain ⟨i, hi, hrow, hbefore⟩ := h.reached r hr
  have hmatch : t.getMatchingSlot buff r.2 ((t.home hash r.2 + i) % t.entryCount)
      = (r.1 : Int) := by
    unfold getMatchingSlot
    rw [if_pos hrow.1]
    exact hrow.2
  have hs : search t.entryCount (fun p => t.getMatchingSlot buff r.2 p ≠ kNoMatch)
      t.entryCount (t.home hash r.2) = some ((t.home hash r.2 + i) % t.entryCount) := by
    rw [search_eq_some_iff t.entryCount hhome]
    refine ⟨i, hi, rfl, ?_, ?_⟩
    · rw [hmatch]
      unfold kNoMatch
      omega
    · intro j hj hstop
      refine hstop ?_
      unfold getMatchingSlot
      rw [if_neg (hbefore j hj).2, if_neg (hbefore j hj).1]
  rw [idx_eq, hs, map_some, getD_some, hmatch]

/-- A key that no row has is not found: an entry stops the search as
not present, or lets it pass. -/
theorem Searchable.idx_other (h : t.Searchable hash buff rows) (hkey : key ∉ rows.map snd) :
    ∃ i < 0, t.baselineHashJoinIdx hash buff key = some i := by
  have hneg : ∀ p < t.entryCount, t.getMatchingSlot buff key p < 0 := by
    intro p hp
    unfold getMatchingSlot
    rcases h.entry p hp with ⟨r, hr, hrow⟩ | hfree
    · have hne : (t.searched.keyCells p).map buff ≠ key := by
        rw [hrow.1]
        rintro rfl
        exact hkey (mem_map_of_mem hr)
      rw [if_neg hne]
      split <;> decide
    · split
      · rw [hfree.2]
        decide
      · split <;> decide
  have hhome : t.home hash key < t.entryCount := homeOf_lt t.entryCount_pos
  rw [idx_eq]
  cases hs : search t.entryCount (fun p => t.getMatchingSlot buff key p ≠ kNoMatch)
      t.entryCount (t.home hash key) with
  | none => exact ⟨kNoMatch, by decide, rfl⟩
  | some p =>
    obtain ⟨i, -, rfl, -, -⟩ := (search_eq_some_iff t.entryCount hhome).mp hs
    exact ⟨_, hneg _ (mod_lt _ t.entryCount_pos), rfl⟩

/-- An entry of the table and its cells. -/
theorem table_eq_some {k : List Int} (h : t.table buff p = some k) :
    buff (t.searched.cell p 0) ≠ t.emptyKey ∧ (t.searched.keyCells p).map buff = k := by
  unfold table Addressing.slotOf at h
  split at h
  · cases h
  · next hne => exact ⟨hne, some.inj h⟩

theorem table_ne_none (h : t.table buff p ≠ none) :
    buff (t.searched.cell p 0) ≠ t.emptyKey := by
  obtain ⟨k, hk⟩ := ne_none_iff_exists'.mp h
  exact (table_eq_some hk).1

section

variable (h : t.Filled hash buff rows)
include h

theorem Filled.hasRow (hnodup : (rows.map snd).Nodup)
    (hr : r ∈ rows) (hp : p < t.entryCount) (hk : t.table buff p = some r.2) :
    t.HasRow buff p r := by
  obtain ⟨r', hr', heq, hrow⟩ := h.stored p hp r.2 hk
  rwa [inj_on_of_nodup_map hnodup hr' hr heq] at hrow

/-- The walk to a clean row. -/
theorem Filled.walk (hr : r ∈ rows) :
    ∃ i < t.entryCount, t.table buff ((t.home hash r.2 + i) % t.entryCount) = some r.2
      ∧ ∀ j < i, t.table buff ((t.home hash r.2 + j) % t.entryCount) ≠ none
        ∧ t.table buff ((t.home hash r.2 + j) % t.entryCount) ≠ some r.2 := by
  obtain ⟨p, hp, hk⟩ := h.found r hr
  obtain ⟨i, hi, rfl, hbefore⟩ := h.layout.reached p hp r.2 hk
  refine ⟨i, hi, hk, fun j hj => ⟨hbefore j hj, ?_⟩⟩
  intro hsame
  have hlt : (t.home hash r.2 + j) % t.entryCount < t.entryCount :=
    mod_lt _ t.entryCount_pos
  have := steps_inj (by omega) hi (h.layout.once _ hlt _ hp r.2 hsame hk)
  omega

theorem Filled.searchable (hnodup : (rows.map snd).Nodup) : t.Searchable hash buff rows := by
  constructor
  · intro p hp
    cases hk : t.table buff p with
    | none => exact Or.inr (h.free p hp hk)
    | some k =>
      obtain ⟨r, hr, -, hrow⟩ := h.stored p hp k hk
      exact Or.inl ⟨r, hr, hrow⟩
  · intro r hr
    obtain ⟨i, hi, hk, hbefore⟩ := h.walk hr
    refine ⟨i, hi, h.hasRow hnodup hr (mod_lt _ t.entryCount_pos) hk, fun j hj => ?_⟩
    obtain ⟨hne, hother⟩ := hbefore j hj
    obtain ⟨k, hk'⟩ := ne_none_iff_exists'.mp hne
    obtain ⟨hfirst, hload⟩ := table_eq_some hk'
    refine ⟨hfirst, ?_⟩
    rw [hload]
    rintro rfl
    exact hother hk'

-- ======== a row that begins with the empty key

/-- Such a row goes to the first free entry on its walk. -/
theorem Filled.place_empty (hlen : rows.length < t.entryCount)
    (hhead : key.head? = some t.emptyKey) :
    ∃ p < t.entryCount, place t.entryCount (t.home hash) (t.table buff) key = some p
      ∧ t.table buff p = none ∧ Reached t.entryCount (t.table buff) (t.home hash key) p := by
  have hother : ∀ q < t.entryCount, t.table buff q ≠ some key := by
    intro q _ hk
    obtain ⟨hfirst, hload⟩ := table_eq_some hk
    have hq := head_load t.searched_separate buff q
    rw [hload, hhead] at hq
    exact hfirst (some.inj hq).symm
  obtain ⟨q, hq, hnone⟩ := h.exists_free hlen
  have hstop : ∀ q < t.entryCount,
      (t.table buff q = none ∨ t.table buff q = some key) ↔ t.table buff q = none :=
    fun q hq => ⟨fun hs => hs.resolve_right (hother q hq), Or.inl⟩
  obtain ⟨e, he, hlt, hnone', hreach⟩ :=
    search_vacant hstop (homeOf_lt t.entryCount_pos) hq hnone
  exact ⟨e, hlt, he, hnone', hreach⟩

end

/-- Written last, it is found, and so are the others. -/
theorem Filled.write_empty (hA : t.Addressed) (h : t.Filled hash buff rows)
    (hnodup : (rows.map snd).Nodup) (hlen : rows.length < t.entryCount)
    (hsize : r.2.length = t.keyComponentCount) (hhead : r.2.head? = some t.emptyKey) :
    ∃ buff', t.writeBaselineHashSlot hash buff r.1 r.2 = some (.ok buff')
      ∧ t.Searchable hash buff' (rows ++ [r]) := by
  have hpend : r.2.head? ≠ some t.writePending := by
    rw [hhead]
    intro heq
    have := some.inj heq
    unfold writePending at this
    omega
  obtain ⟨e, he, hplace, hnone, i, hi, hie, hbefore⟩ := h.place_empty hlen hhead
  refine ⟨_, (write_at hA hpend hplace hnone).trans (if_pos (h.free e he hnone).2), ?_⟩
  have hkeep : ∀ q < t.entryCount, q ≠ e →
      (∀ a ∈ t.searched.keyCells q, t.written buff e (r.1, r.2) a = buff a)
        ∧ t.written buff e (r.1, r.2) (t.searched.slot q) = buff (t.searched.slot q) :=
    fun q hq hne => written_of_ne he hq hne (r.1, r.2)
  -- an entry that is not free is another one, and stays as it was
  have hsame : ∀ q < t.entryCount, t.table buff q ≠ none →
      t.written buff e (r.1, r.2) (t.searched.cell q 0) = buff (t.searched.cell q 0)
        ∧ (t.searched.keyCells q).map (t.written buff e (r.1, r.2))
          = (t.searched.keyCells q).map buff
        ∧ ∀ r', t.HasRow (t.written buff e (r.1, r.2)) q r' ↔ t.HasRow buff q r' := by
    intro q hq hne
    have hqe : q ≠ e := by
      rintro rfl
      exact hne hnone
    obtain ⟨hkey, hslot⟩ := hkeep q hq hqe
    exact ⟨hkey _ (first_mem t.searched_separate q), map_congr_left hkey, (row_congr hkey hslot).2⟩
  have hs := h.searchable hnodup
  constructor
  · intro p hp
    by_cases hpe : p = e
    · rw [hpe]
      exact Or.inl ⟨r, mem_append_right _ (mem_singleton.mpr rfl), written_hasRow he hsize⟩
    · obtain ⟨hkey, hslot⟩ := hkeep p hp hpe
      rcases hs.entry p hp with ⟨r', hr', hrow⟩ | hfree
      · exact Or.inl ⟨r', mem_append_left _ hr', ((row_congr hkey hslot).2 r').mpr hrow⟩
      · exact Or.inr ((row_congr hkey hslot).1.mpr hfree)
  · intro r' hr'
    rcases mem_append.mp hr' with hr' | hr'
    · obtain ⟨i', hi', hk, hwalk⟩ := h.walk hr'
      have hlt : ∀ j, (t.home hash r'.2 + j) % t.entryCount < t.entryCount :=
        fun j => mod_lt _ t.entryCount_pos
      have hrow := h.hasRow hnodup hr' (hlt i') hk
      refine ⟨i', hi', ((hsame _ (hlt i') (by rw [hk]; nofun)).2.2 r').mpr hrow, ?_⟩
      intro j hj
      obtain ⟨hne, hother⟩ := hwalk j hj
      obtain ⟨k, hk'⟩ := ne_none_iff_exists'.mp hne
      obtain ⟨hfirst, hload⟩ := table_eq_some hk'
      obtain ⟨hcell, hkeys, -⟩ := hsame _ (hlt j) hne
      rw [hcell, hkeys, hload]
      refine ⟨hfirst, ?_⟩
      rintro rfl
      exact hother hk'
    · rw [mem_singleton.mp hr']
      refine ⟨i, hi, by rw [hie]; exact written_hasRow he hsize, ?_⟩
      intro j hj
      have hlt : (t.home hash r.2 + j) % t.entryCount < t.entryCount :=
        mod_lt _ t.entryCount_pos
      have hfirst := table_ne_none (hbefore j hj)
      obtain ⟨hcell, hkeys, -⟩ := hsame _ hlt (hbefore j hj)
      rw [hcell, hkeys]
      refine ⟨hfirst, ?_⟩
      intro heq
      have hq := head_load t.searched_separate buff ((t.home hash r.2 + j) % t.entryCount)
      rw [heq, hhead] at hq
      exact hfirst (some.inj hq).symm

end JoinTable

end Compass.HashTable
