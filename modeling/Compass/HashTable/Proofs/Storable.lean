/-
Exactly which rows a join table can store.

One way is the run of `Filled` over the rows, with a row that begins with
the empty key at most at its end. The other way takes each condition in
turn: a table whose last offset is cut off is never written there, so that
a search reads whatever the memory held; a key that begins with the
write-pending value is refused at every entry; and after a row that begins
with the empty key, the next row that has the same home takes the entry
again.
-/
import Compass.HashTable.Proofs.BaselineJoin

namespace Compass.HashTable

open Probing List Option Nat Prod Function

namespace JoinTable

variable {t : JoinTable} {hash : List Int → ℕ} {buff : Memory} {rows : List (ℕ × List Int)}

-- ======== storable is enough

/-- Filling with the rows of two lists. -/
theorem fill_append (rows' : List (ℕ × List Int)) :
    t.fillBaselineHashJoinBuff hash buff (rows ++ rows')
      = match t.fillBaselineHashJoinBuff hash buff rows with
        | some (.ok b) => t.fillBaselineHashJoinBuff hash b rows'
        | r => r := by
  induction rows generalizing buff with
  | nil => rfl
  | cons r rows ih =>
    rw [cons_append, fillBaselineHashJoinBuff, fillBaselineHashJoinBuff]
    cases t.writeBaselineHashSlot hash buff r.1 r.2 with
    | none => rfl
    | some e =>
      cases e with
      | error c => rfl
      | ok b => exact ih

theorem Searchable.findsEveryRow {allocated : Memory}
    (hfill : t.fillBaselineHashJoinBuff hash (t.initBaselineHashJoinBuff allocated) rows
      = some (.ok buff)) (h : t.Searchable hash buff rows) :
    t.FindsEveryRow hash allocated rows :=
  ⟨buff, hfill, fun _ hr => h.idx_row hr, fun _ _ hkey => h.idx_other hkey⟩

variable {r : ℕ × List Int}

theorem InnerRows.clean (h : t.InnerRows rows) (hr : r ∈ rows)
    (hempty : r.2.head? ≠ some t.emptyKey) (hpend : r.2.head? ≠ some t.writePending) :
    t.Clean r.2 :=
  ⟨⟨(h.valid r hr).1, hempty⟩, hpend⟩

theorem findsEveryRow_of_storable (h : t.InnerRows rows) (hs : t.Storable rows)
    (allocated : Memory) : t.FindsEveryRow hash allocated rows := by
  obtain ⟨hA, hpend, hempty⟩ := hs
  have hinit := @filled_init t hash hA allocated
  by_cases hrows : rows = []
  · subst hrows
    exact Searchable.findsEveryRow rfl (hinit.searchable nodup_nil)
  obtain ⟨front, r, rfl⟩ : ∃ front r, rows = front ++ [r] :=
    ⟨rows.dropLast, rows.getLast hrows, (dropLast_append_getLast hrows).symm⟩
  rw [dropLast_concat] at hempty
  have hlen := h.length_lt
  rw [length_append] at hlen
  have hnodup : (front.map snd).Nodup := by
    have hall := h.nodup
    rw [map_append] at hall
    exact (nodup_append.mp hall).1
  have hmem : ∀ x ∈ front, x ∈ front ++ [r] := fun x hx => mem_append_left _ hx
  have hlast : r ∈ front ++ [r] := mem_append_right _ (mem_singleton.mpr rfl)
  obtain ⟨b, hfill, hfilled⟩ := hinit.fill hA front
    (fun x hx => h.clean (hmem x hx) (hempty x hx) (hpend x (hmem x hx)))
    (by rwa [nil_append]) (by rw [nil_append]; omega)
  rw [nil_append] at hfilled
  -- the last row may begin with the empty key
  have hwrite : ∃ b', t.writeBaselineHashSlot hash b r.1 r.2 = some (.ok b')
      ∧ t.Searchable hash b' (front ++ [r]) := by
    by_cases hhead : r.2.head? = some t.emptyKey
    · exact hfilled.write_empty hA hnodup (by omega) (h.valid r hlast).1 hhead
    · have hnew : r.2 ∉ front.map snd := by
        have hall := h.nodup
        rw [map_append, nodup_append] at hall
        intro hin
        exact hall.2.2 r.2 hin r.2 (mem_singleton.mpr rfl) rfl
      obtain ⟨b', hb', hend⟩ := hfilled.write hA
        (h.clean hlast hhead (hpend r hlast)) hnew (by omega)
      exact ⟨b', hb', hend.searchable h.nodup⟩
  obtain ⟨b', hb', hsearch⟩ := hwrite
  refine Searchable.findsEveryRow ?_ hsearch
  rw [fill_append, hfill]
  dsimp only
  rw [fillBaselineHashJoinBuff, hb']
  rfl

-- ======== what is written

/-- The cells of the entries of a table that is filled. -/
def Written (t : JoinTable) (a : ℕ) : Prop :=
  ∃ p < t.entryCount, a ∈ t.filled.keyCells p ++ [t.filled.slot p]

theorem init_of_not_written {a : ℕ} (h : ¬ t.Written a) (allocated : Memory) :
    t.initBaselineHashJoinBuff allocated a = allocated a := by
  have hupto : ∀ m ≤ t.entryCount, (range m).foldl
      (fun buff h => Cells.store buff (t.filled.keyCells h ++ [t.filled.slot h])
        (replicate t.keyComponentCount t.emptyKey ++ [invalidSlotVal])) allocated a
      = allocated a := by
    intro m
    induction m with
    | zero => exact fun _ => rfl
    | succ m ih =>
      intro hm
      rw [range_succ, foldl_append, foldl_cons, foldl_nil]
      have hnot : a ∉ t.filled.keyCells m ++ [t.filled.slot m] :=
        fun ha => h ⟨m, by omega, ha⟩
      exact (Cells.store_of_notMem hnot).trans (ih (by omega))
  exact hupto t.entryCount (le_refl _)

variable {key : List Int}
variable {b : Memory}

/-- An attempt that succeeds is at a key that is not pending. -/
theorem attempt_some {p : ℕ} {slot : ℕ}
    (h : t.getMatchingBaselineHashSlotAt buff key p = some (b, slot)) :
    key.head? ≠ some t.writePending ∧ slot = t.filled.slot p
      ∧ ∀ a ∉ t.filled.keyCells p, b a = buff a := by
  unfold getMatchingBaselineHashSlotAt at h
  split at h
  · cases h
  · next hpend =>
      unfold Addressing.getMatching at h
      refine ⟨hpend, ?_⟩
      split at h
      · obtain ⟨rfl, rfl⟩ := Prod.mk.inj (some.inj h)
        exact ⟨rfl, fun a ha => Cells.store_of_notMem ha⟩
      · split at h
        · obtain ⟨rfl, rfl⟩ := Prod.mk.inj (some.inj h)
          exact ⟨rfl, fun a _ => rfl⟩
        · cases h

/-- What a row that is written changes. -/
theorem write_ok {val : Int} (h : t.writeBaselineHashSlot hash buff val key = some (.ok b)) :
    key.head? ≠ some t.writePending ∧ ∀ a, ¬ t.Written a → b a = buff a := by
  have hhome : hash key % t.entryCount < t.entryCount := mod_lt _ t.entryCount_pos
  unfold writeBaselineHashSlot at h
  rw [probe_eq hhome] at h
  cases hs : search t.entryCount
      (fun p => (t.getMatchingBaselineHashSlotAt buff key p).isSome = true) t.entryCount
      (hash key % t.entryCount) with
  | none =>
    rw [hs] at h
    cases h
  | some p =>
    obtain ⟨i, -, hip, hsome, -⟩ := (search_eq_some_iff t.entryCount hhome).mp hs
    have hp : p < t.entryCount := by
      rw [← hip]
      exact mod_lt _ t.entryCount_pos
    obtain ⟨⟨b', slot⟩, hb'⟩ := isSome_iff_exists.mp hsome
    rw [hs, bind_some, hb'] at h
    dsimp only at h
    obtain ⟨hpend, rfl, hkeep⟩ := attempt_some hb'
    refine ⟨hpend, ?_⟩
    split at h
    · have hb : update b' (t.filled.slot p) val = b := by
        injection h with h
        injection h
      intro a ha
      have hslot : a ≠ t.filled.slot p := fun heq =>
        ha ⟨p, hp, mem_append_right _ (mem_singleton.mpr heq)⟩
      rw [← hb, update_of_ne hslot]
      exact hkeep a fun hin => ha ⟨p, hp, mem_append_left _ hin⟩
    · cases h

theorem fill_cons_ok (h : t.fillBaselineHashJoinBuff hash buff (r :: rows) = some (.ok b)) :
    ∃ b', t.writeBaselineHashSlot hash buff r.1 r.2 = some (.ok b')
      ∧ t.fillBaselineHashJoinBuff hash b' rows = some (.ok b) := by
  rw [fillBaselineHashJoinBuff] at h
  cases hw : t.writeBaselineHashSlot hash buff r.1 r.2 with
  | none =>
    rw [hw] at h
    cases h
  | some e =>
    rw [hw] at h
    cases e with
    | error c => cases h
    | ok b' => exact ⟨b', rfl, h⟩

/-- What filling changes, and which rows it takes. -/
theorem fill_ok (h : t.fillBaselineHashJoinBuff hash buff rows = some (.ok b)) :
    (∀ r ∈ rows, r.2.head? ≠ some t.writePending) ∧ ∀ a, ¬ t.Written a → b a = buff a := by
  induction rows generalizing buff with
  | nil =>
    have hb : buff = b := by
      injection h with h
      injection h
    subst hb
    exact ⟨nofun, fun _ _ => rfl⟩
  | cons r rows ih =>
    obtain ⟨b', hwrite, hrest⟩ := fill_cons_ok h
    obtain ⟨hpend, hkeep⟩ := write_ok hwrite
    obtain ⟨hrows, hkeep'⟩ := ih hrest
    refine ⟨forall_mem_cons.mpr ⟨hpend, hrows⟩, fun a ha => ?_⟩
    rw [hkeep' a ha, hkeep a ha]

-- ======== offsets that are cut off

/-- The cell where the last entry begins. -/
def lastCell (t : JoinTable) : ℕ :=
  (t.entryCount - 1) * (t.keyComponentCount + 1)

/-- If the last offset is cut off, the last entry is not written. -/
theorem not_written (hA : ¬ t.Addressed) {a : ℕ} (ha : t.lastCell ≤ a) : ¬ t.Written a := by
  have hcut : t.addressed ≤ t.lastCell := by
    unfold Addressed at hA
    rw [← t.addressed_mul, not_lt] at hA
    exact le_of_mul_le_mul_right hA t.size_pos
  have hroom := t.addressed_ge
  have hcount := t.keyComponentCount_le
  -- an entry before the last, or one that is moved to the front
  have hstart : ∀ p < t.entryCount,
      p * (t.keyComponentCount + 1) % t.addressed + (t.keyComponentCount + 1)
        ≤ t.lastCell := by
    intro p hp
    have hle : p * (t.keyComponentCount + 1) ≤ t.lastCell :=
      mul_le_mul_right _ (by omega)
    by_cases hlt : p * (t.keyComponentCount + 1) < t.addressed
    · have hne : p ≠ t.entryCount - 1 := by
        intro heq
        rw [heq] at hlt
        unfold lastCell at hcut
        omega
      rw [mod_eq_of_lt hlt, ← succ_mul]
      exact mul_le_mul_right _ (by omega)
    · have hmod : p * (t.keyComponentCount + 1) % t.addressed
          ≤ p * (t.keyComponentCount + 1) - t.addressed := by
        rw [mod_eq_sub_mod (by omega)]
        exact mod_le _ _
      omega
  intro hw
  obtain ⟨p, hp, hin⟩ := hw
  have hend := hstart p hp
  rcases mem_append.mp hin with hin | hin
  · obtain ⟨i, hi, heq⟩ := mem_keyCells.mp hin
    have hi' : i < t.keyComponentCount := hi
    have heq' : p * (t.keyComponentCount + 1) * t.keyWidth.size % 2 ^ 32 / t.keyWidth.size + i
        = a := heq
    rw [t.filled_start] at heq'
    omega
  · have heq : a = p * (t.keyComponentCount + 1) * t.keyWidth.size % 2 ^ 32 / t.keyWidth.size
        + t.keyComponentCount := mem_singleton.mp hin
    rw [t.filled_start] at heq
    omega

/-- A key that begins with a small number. -/
def smallKey (t : JoinTable) (c : ℕ) : List Int :=
  (c : Int) :: List.replicate (t.keyComponentCount - 1) 0

theorem smallKey_valid {c : ℕ} (hc : c < 2 ^ 31) : t.ValidKey (t.smallKey c) := by
  have hpos := t.keyComponentCount_pos
  have hbound : t.keyWidth.minKey ≤ 0 ∧ (2 : Int) ^ 31 - 1 ≤ t.keyWidth.emptyKey := by
    cases t.keyWidth <;> decide
  refine ⟨?_, ?_⟩
  · unfold smallKey
    rw [length_cons, length_replicate]
    omega
  · intro x hx
    rcases mem_cons.mp hx with hx | hx
    · omega
    · have := eq_of_mem_replicate hx
      omega

/-- Some key is not that of a row. -/
theorem InnerRows.exists_other (h : t.InnerRows rows) :
    ∃ key, t.ValidKey key ∧ key ∉ rows.map snd := by
  have hcard : (rows.map snd).toFinset.card
      < ((Finset.range (rows.length + 1)).image t.smallKey).card := by
    rw [Finset.card_image_of_injective _ (by
      intro c d hcd
      exact Int.ofNat.inj (cons.inj hcd).1), Finset.card_range]
    have hle := toFinset_card_le (rows.map snd)
    rw [length_map] at hle
    omega
  obtain ⟨key, hkey, hnot⟩ := Finset.exists_mem_notMem_of_card_lt_card hcard
  obtain ⟨c, hc, rfl⟩ := Finset.mem_image.mp hkey
  have hlen := h.length_lt
  have hlt := t.entryCount_lt
  rw [Finset.mem_range] at hc
  exact ⟨t.smallKey c, smallKey_valid (by omega), fun hin => hnot (mem_toFinset.mpr hin)⟩

/-- Memory that holds a key, and an id after it. -/
def holding (key : List Int) (start : ℕ) : Memory := fun a =>
  (key ++ [0])[a - start]?.getD 0

theorem load_holding (hlen : key.length = t.keyComponentCount) :
    (t.searched.keyCells (t.entryCount - 1)).map (holding key t.lastCell) = key := by
  unfold Addressing.keyCells
  refine ext_getElem ?_ ?_
  · rw [length_map, length_map, length_range]
    exact hlen.symm
  · intro i h₁ h₂
    rw [getElem_map, getElem_map, getElem_range]
    show holding key t.lastCell (t.lastCell + i) = key[i]
    unfold holding
    rw [Nat.add_sub_cancel_left, getElem?_append_left h₂, getElem?_eq_getElem h₂]
    rfl

theorem slot_holding (hlen : key.length = t.keyComponentCount) :
    holding key t.lastCell (t.searched.slot (t.entryCount - 1)) = 0 := by
  have hslot : t.searched.slot (t.entryCount - 1) = t.lastCell + t.keyComponentCount := rfl
  rw [hslot]
  unfold holding
  rw [Nat.add_sub_cancel_left, ← hlen]
  simp

/-- A search that ends at the home of its key. -/
theorem idx_of_home (h : t.getMatchingSlot buff key (t.home hash key) ≠ kNoMatch) :
    t.baselineHashJoinIdx hash buff key
      = some (t.getMatchingSlot buff key (t.home hash key)) := by
  have hhome : t.home hash key < t.entryCount := homeOf_lt t.entryCount_pos
  have hs : search t.entryCount (fun p => t.getMatchingSlot buff key p ≠ kNoMatch)
      t.entryCount (t.home hash key) = some (t.home hash key) := by
    rw [search_eq_some_iff t.entryCount hhome]
    refine ⟨0, t.entryCount_pos, ?_, h, fun j hj => absurd hj (not_lt_zero j)⟩
    rw [add_zero, mod_eq_of_lt hhome]
  rw [idx_eq, hs]
  rfl

/-- A key that memory holds by chance is found. -/
theorem addressed_of_finds (h : t.InnerRows rows)
    (hfinds : ∀ hash allocated, t.FindsEveryRow hash allocated rows) : t.Addressed := by
  by_contra hA
  obtain ⟨key, hvalid, hnot⟩ := h.exists_other
  obtain ⟨b, hfill, -, hother⟩ :=
    hfinds (fun _ => t.entryCount - 1) (holding key t.lastCell)
  obtain ⟨i, hi, hidx⟩ := hother key hvalid hnot
  have hkeep : ∀ a, t.lastCell ≤ a → b a = holding key t.lastCell a := by
    intro a ha
    rw [(fill_ok hfill).2 a (not_written hA ha), init_of_not_written (not_written hA ha)]
  have hhome : t.home (fun _ => t.entryCount - 1) key = t.entryCount - 1 :=
    mod_eq_of_lt (sub_lt t.entryCount_pos one_pos)
  have hload : (t.searched.keyCells (t.entryCount - 1)).map b = key := by
    refine (map_congr_left ?_).trans (load_holding hvalid.1)
    intro a ha
    obtain ⟨j, -, rfl⟩ := mem_keyCells.mp ha
    exact hkeep _ (le_add_right _ _)
  have hmatch : t.getMatchingSlot b key (t.home (fun _ => t.entryCount - 1) key) = 0 := by
    unfold getMatchingSlot
    rw [hhome, if_pos hload]
    exact (hkeep _ (le_add_right _ _)).trans (slot_holding hvalid.1)
  rw [idx_of_home (by rw [hmatch]; decide), hmatch] at hidx
  have := some.inj hidx
  omega

-- ======== an entry that is taken again

/-- The first row with a property, when it is not the last. -/
theorem exists_first {α : Type} {P : α → Prop} {xs : List α} (h : ∃ x ∈ xs.dropLast, P x) :
    ∃ front x y back, xs = front ++ x :: y :: back ∧ P x ∧ ∀ z ∈ front, ¬ P z := by
  induction xs with
  | nil =>
    obtain ⟨x, hx, -⟩ := h
    cases hx
  | cons a as ih =>
    cases as with
    | nil =>
      obtain ⟨x, hx, -⟩ := h
      cases hx
    | cons b bs =>
      by_cases ha : P a
      · exact ⟨[], a, b, bs, rfl, ha, nofun⟩
      · have htail : ∃ x ∈ (b :: bs).dropLast, P x := by
          obtain ⟨x, hx, hP⟩ := h
          rcases mem_cons.mp hx with heq | hx
          · exact absurd (heq ▸ hP) ha
          · exact ⟨x, hx, hP⟩
        obtain ⟨front, x, y, back, heq, hP, hfront⟩ := ih htail
        refine ⟨a :: front, x, y, back, by rw [heq]; rfl, hP, ?_⟩
        exact forall_mem_cons.mpr ⟨ha, hfront⟩

/-- A new key goes to the first free entry. -/
theorem Filled.place_new (h : t.Filled hash buff rows) (hnew : key ∉ rows.map snd) :
    place t.entryCount (t.home hash) (t.table buff) key
      = search t.entryCount (fun p => t.table buff p = none) t.entryCount
          (t.home hash key) := by
  refine search_congr (homeOf_lt t.entryCount_pos) ?_ t.entryCount
  intro q hq
  refine ⟨fun hstop => hstop.resolve_right ?_, Or.inl⟩
  intro hk
  obtain ⟨r, hr, heq, -⟩ := h.stored q hq key hk
  exact hnew (heq ▸ mem_map_of_mem hr)

/-- A row that begins with the empty key leaves its entry free. -/
theorem table_written_empty {p : ℕ} (hp : p < t.entryCount) (hfree : t.table buff p = none)
    (hlen : r.2.length = t.keyComponentCount) (hhead : r.2.head? = some t.emptyKey) :
    ∀ q < t.entryCount, t.table (t.written buff p r) q = t.table buff q := by
  intro q hq
  by_cases hqp : q = p
  · subst hqp
    rw [hfree]
    have hfirst := head_load t.searched_separate (t.written buff q r) q
    rw [(written_hasRow hp hlen).1, hhead] at hfirst
    exact if_pos (some.inj hfirst).symm
  · exact slotOf_congr t.searched_separate (written_of_ne hp hq hqp r).1

theorem last_of_finds (h : t.InnerRows rows) (hA : t.Addressed)
    (hpend : ∀ r ∈ rows, r.2.head? ≠ some t.writePending)
    (hfinds : ∀ hash allocated, t.FindsEveryRow hash allocated rows) :
    ∀ r ∈ rows.dropLast, r.2.head? ≠ some t.emptyKey := by
  by_contra hbad
  push Not at hbad
  obtain ⟨front, r₀, r₁, back, rfl, hhead, hfront⟩ := exists_first hbad
  have hnodup := h.nodup
  rw [map_append, nodup_append] at hnodup
  obtain ⟨hnodup, hrest, hdisj⟩ := hnodup
  have hlen := h.length_lt
  rw [length_append, length_cons, length_cons] at hlen
  have hin₀ : r₀ ∈ front ++ r₀ :: r₁ :: back := by simp
  have hin₁ : r₁ ∈ front ++ r₀ :: r₁ :: back := by simp
  have hnew₀ : r₀.2 ∉ front.map snd := fun hin =>
    hdisj r₀.2 hin r₀.2 (by simp) rfl
  have hnew₁ : r₁.2 ∉ front.map snd := fun hin =>
    hdisj r₁.2 hin r₁.2 (by simp) rfl
  -- all keys have the same home
  obtain ⟨b, hfill, -, -⟩ := hfinds (fun _ => 0) fun _ => 0
  obtain ⟨b₀, hfill₀, hfilled⟩ := (@filled_init t (fun _ => 0) hA fun _ => 0).fill hA front
    (fun x hx => h.clean (mem_append_left _ hx) (hfront x hx)
      (hpend x (mem_append_left _ hx)))
    (by rwa [nil_append]) (by rw [nil_append]; omega)
  rw [nil_append] at hfilled
  rw [fill_append, hfill₀] at hfill
  obtain ⟨e, he, hplace, hnone, -⟩ := hfilled.place_empty (by omega) hhead
  have hwrite : t.writeBaselineHashSlot (fun _ => 0) b₀ r₀.1 r₀.2
      = some (.ok (t.written b₀ e (r₀.1, r₀.2))) :=
    (write_at hA (hpend r₀ hin₀) hplace hnone).trans (if_pos (hfilled.free e he hnone).2)
  obtain ⟨b₁, hwrite', hfill₁⟩ := fill_cons_ok hfill
  rw [hwrite] at hwrite'
  have hb₁ : t.written b₀ e (r₀.1, r₀.2) = b₁ := by
    injection hwrite' with hwrite'
    injection hwrite'
  have htable := table_written_empty he hnone (h.valid r₀ hin₀).1 hhead
  have hplace₁ : place t.entryCount (t.home fun _ => 0)
      (t.table (t.written b₀ e (r₀.1, r₀.2))) r₁.2 = some e := by
    rw [place_congr (homeOf_lt t.entryCount_pos) htable, hfilled.place_new hnew₁]
    rw [hfilled.place_new hnew₀] at hplace
    exact hplace
  have hslot : t.written b₀ e (r₀.1, r₀.2) (t.searched.slot e) ≠ invalidSlotVal := by
    rw [(@written_hasRow t b₀ e he (r₀.1, r₀.2) (h.valid r₀ hin₀).1).2]
    unfold invalidSlotVal
    omega
  obtain ⟨b₂, hwrite₁, -⟩ := fill_cons_ok hfill₁
  rw [← hb₁, write_at hA (hpend r₁ hin₁) hplace₁ (by rw [htable e he, hnone]), if_neg hslot]
    at hwrite₁
  cases hwrite₁

-- ======== exactly

/-- Whatever the hash and the memory, the table finds every row exactly
if the rows can be stored. -/
theorem findsEveryRow_iff (h : t.InnerRows rows) :
    (∀ hash allocated, t.FindsEveryRow hash allocated rows) ↔ t.Storable rows := by
  refine ⟨fun hfinds => ?_, fun hs hash allocated => findsEveryRow_of_storable h hs allocated⟩
  have hA := addressed_of_finds h hfinds
  obtain ⟨b, hfill, -⟩ := hfinds (fun _ => 0) fun _ => 0
  have hpend := (fill_ok hfill).1
  exact ⟨hA, hpend, last_of_finds h hA hpend hfinds⟩

/-- A table for keys of two 64-bit columns. -/
def pairs : JoinTable where
  entryCount := 4
  keyComponentCount := 2
  keyWidth := .w8
  entryCount_pos := by decide
  entryCount_lt := by decide
  keyComponentCount_pos := Nat.two_pos
  keyComponentCount_le := by decide

theorem pairs_findsEveryRow :
    pairs.InnerRows [(0, [1, 2]), (1, [-1, 2]), (2, [2 ^ 63 - 1, 0])]
    ∧ ∀ hash allocated,
        pairs.FindsEveryRow hash allocated [(0, [1, 2]), (1, [-1, 2]), (2, [2 ^ 63 - 1, 0])] := by
  have hrows : pairs.InnerRows [(0, [1, 2]), (1, [-1, 2]), (2, [2 ^ 63 - 1, 0])] := by
    refine ⟨?_, by decide, by decide, by decide⟩
    intro r hr
    unfold ValidKey
    revert r
    decide
  refine ⟨hrows, (findsEveryRow_iff hrows).mpr ?_⟩
  unfold Storable
  decide

/-- The entry of a key that begins with 2^63 - 1 looks free, and the next
key that comes to it is refused. -/
theorem pairs_empty_refused :
    pairs.InnerRows [(0, [2 ^ 63 - 1, 0]), (1, [4, 0])]
    ∧ pairs.fillBaselineHashJoinBuff (keyHash .w8)
        (pairs.initBaselineHashJoinBuff fun _ => 0) [(0, [2 ^ 63 - 1, 0]), (1, [4, 0])]
      = some (.error (-1))
    ∧ ¬ pairs.FindsEveryRow (keyHash .w8) (fun _ => 0) [(0, [2 ^ 63 - 1, 0]), (1, [4, 0])] := by
  have hfill : pairs.fillBaselineHashJoinBuff (keyHash .w8)
      (pairs.initBaselineHashJoinBuff fun _ => 0) [(0, [2 ^ 63 - 1, 0]), (1, [4, 0])]
      = some (.error (-1)) := rfl
  refine ⟨⟨?_, by decide, by decide, by decide⟩, hfill, ?_⟩
  · intro r hr
    unfold ValidKey
    revert r
    decide
  · intro h
    obtain ⟨b, hfilled, -⟩ := h
    rw [hfill] at hfilled
    cases hfilled

-- ======== offsets

/-- Those who fill a table and those who search it agree on where its
slots are exactly if the offset of the last slot is not cut off. -/
theorem slotsConsistent_iff (t : JoinTable) :
    t.SlotsConsistent
      ↔ (t.entryCount - 1) * (t.keyComponentCount + 1) * t.keyWidth.size < 2 ^ 32 := by
  constructor
  · intro h
    have hlast : t.entryCount - 1 < t.entryCount := Nat.sub_lt t.entryCount_pos Nat.one_pos
    have heq := h.init_eq _ hlast
    rw [t.readOffset_eq hlast] at heq
    calc (t.entryCount - 1) * (t.keyComponentCount + 1) * t.keyWidth.size
        = t.initOffset true (t.entryCount - 1) := heq.symm
      _ < 2 ^ 32 := Nat.mod_lt _ (by decide)
  · intro hA
    have hagree (h : ℕ) (hh : h < t.entryCount) : t.initOffset true h = t.readOffset h := by
      rw [t.initOffset_eq, t.readOffset_eq hh, t.filled_cell hA hh]
    exact ⟨hagree, hagree, fun p hp q hq hne => t.disjoint_rowBytes hp hq hne⟩

/-- A table of more than 2^32 bytes. -/
def large : JoinTable where
  entryCount := 178956972
  keyComponentCount := 2
  keyWidth := .w8
  entryCount_pos := by decide
  entryCount_lt := by decide
  keyComponentCount_pos := Nat.two_pos
  keyComponentCount_le := by decide

theorem large_not_consistent : ¬ ∀ t : JoinTable, t.SlotsConsistent := by
  intro h
  have heq := (h large).init_eq 178956971 (by decide)
  exact absurd heq (by decide)

end JoinTable

end Compass.HashTable
