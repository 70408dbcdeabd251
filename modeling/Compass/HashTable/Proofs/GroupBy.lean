/-
Group-by hashing gives each key its own entry, in buffers whose offsets
fit 32 bits.

Where entries do not share cells, the buffer is a table of keys with
linear probing (`slotOf`), a call is an `enter` of its key
(`getValue_eq`), and a run gives out the entries of `enterAll` whatever
the layout (`serve_eq`). Conversely, a run over as many keys as there are
entries uses the last entry, whose address must therefore be one that the
functions can compute.
-/
import Compass.HashTable.GroupBy
import Mathlib.Data.List.Range
import Mathlib.Tactic.Linarith
import Mathlib.Tactic.Ring

namespace Compass.HashTable

open Probing List Function Nat

-- ======== buffers as tables

/-- The key of an entry that is not free. -/
def Addressing.slotOf (A : Addressing) (emptyKey : Int) (buffer : Memory) (p : ℕ) :
    Option (List Int) :=
  if buffer (A.cell p 0) = emptyKey then none else some ((A.keyCells p).map buffer)

/-- Entries have their own cells, apart from all aggregates. -/
structure Addressing.Separate (A : Addressing) (n : ℕ) : Prop where
  keyCount_pos : 0 < A.keyCount
  inj : ∀ p < n, ∀ q < n, ∀ i < A.keyCount, ∀ j < A.keyCount,
    A.cell p i = A.cell q j → p = q ∧ i = j
  aggs : ∀ p < n, ∀ q < n, ∀ i < A.keyCount, A.cell q i ∉ A.aggs (A.slot p)

variable {A : Addressing} {n : ℕ} {emptyKey : Int} {hash : List Int → ℕ}
  {buffer : Memory} {key : List Int}

theorem mem_keyCells {h a : ℕ} : a ∈ A.keyCells h ↔ ∃ i < A.keyCount, A.cell h i = a := by
  unfold Addressing.keyCells
  simp only [mem_map, mem_range]

theorem nodup_keyCells (hsep : A.Separate n) {p : ℕ} (hp : p < n) :
    (A.keyCells p).Nodup := by
  refine Nodup.map_on ?_ nodup_range
  intro i hi j hj heq
  exact (hsep.inj p hp p hp i (mem_range.mp hi) j (mem_range.mp hj) heq).2

theorem disjoint_keyCells (hsep : A.Separate n) {p q : ℕ} (hp : p < n) (hq : q < n)
    (hne : p ≠ q) : ∀ a ∈ A.keyCells q, a ∉ A.keyCells p := by
  intro a ha ha'
  obtain ⟨i, hi, rfl⟩ := mem_keyCells.mp ha
  obtain ⟨j, hj, heq⟩ := mem_keyCells.mp ha'
  exact hne (hsep.inj p hp q hq j hj i hi heq).1

theorem first_mem (hsep : A.Separate n) (p : ℕ) : A.cell p 0 ∈ A.keyCells p :=
  mem_keyCells.mpr ⟨0, hsep.keyCount_pos, rfl⟩

/-- A key that an entry can hold. -/
def Admissible (A : Addressing) (emptyKey : Int) (key : List Int) : Prop :=
  key.length = A.keyCount ∧ key.head? ≠ some emptyKey

/-- The first component of an entry's key. -/
theorem head_load (hsep : A.Separate n) (mem : Memory) (p : ℕ) :
    ((A.keyCells p).map mem).head? = some (mem (A.cell p 0)) := by
  unfold Addressing.keyCells
  obtain ⟨m, hm⟩ := exists_eq_succ_of_ne_zero (pos_iff_ne_zero.mp hsep.keyCount_pos)
  rw [hm, range_succ_eq_map]
  rfl

theorem length_keyCells (p : ℕ) : (A.keyCells p).length = A.keyCount := by
  unfold Addressing.keyCells
  rw [length_map, length_range]

/-- Entries that are not written to hold what they held. -/
theorem slotOf_congr (hsep : A.Separate n) {buffer' : Memory} {p : ℕ}
    (h : ∀ a ∈ A.keyCells p, buffer' a = buffer a) :
    A.slotOf emptyKey buffer' p = A.slotOf emptyKey buffer p := by
  unfold Addressing.slotOf
  rw [h _ (first_mem hsep p), map_congr_left h]

/-- A free entry that takes a key holds it, and no other entry changes. -/
theorem slotOf_store (hsep : A.Separate n) (hkey : Admissible A emptyKey key)
    {p : ℕ} (hp : p < n) {q : ℕ} (hq : q < n) :
    A.slotOf emptyKey (Cells.store buffer (A.keyCells p) key) q
      = update (A.slotOf emptyKey buffer) p (some key) q := by
  by_cases hqp : q = p
  · subst hqp
    have hload : (A.keyCells q).map (Cells.store buffer (A.keyCells q) key) = key :=
      Cells.load_store (nodup_keyCells hsep hq) (by rw [length_keyCells, hkey.1])
    have hhead := head_load hsep (Cells.store buffer (A.keyCells q) key) q
    rw [hload] at hhead
    rw [update_self, Addressing.slotOf, hload, if_neg]
    intro hempty
    rw [hempty] at hhead
    exact hkey.2 hhead
  · rw [update_of_ne hqp]
    refine slotOf_congr hsep ?_
    intro a ha
    exact Cells.store_of_notMem (disjoint_keyCells hsep hp hq (Ne.symm hqp) a ha)

-- ======== one call

/-- An attempt, by what the entry holds. -/
theorem getMatching_eq (p : ℕ) :
    A.getMatching emptyKey buffer key p
      = match A.slotOf emptyKey buffer p with
        | none => some (Cells.store buffer (A.keyCells p) key, A.slot p)
        | some k => if k = key then some (buffer, A.slot p) else none := by
  unfold Addressing.getMatching Addressing.slotOf
  by_cases hempty : buffer (A.cell p 0) = emptyKey
  · rw [if_pos hempty, if_pos hempty]
  · rw [if_neg hempty, if_neg hempty]

theorem getMatching_isSome (p : ℕ) :
    (A.getMatching emptyKey buffer key p).isSome = true
      ↔ A.slotOf emptyKey buffer p = none ∨ A.slotOf emptyKey buffer p = some key := by
  rw [getMatching_eq]
  cases hp : A.slotOf emptyKey buffer p with
  | none => simp
  | some k => by_cases hk : k = key <;> simp [hk]

/-- The place of a key depends on the entries of the buffer only. -/
theorem place_congr {κ : Type} [DecidableEq κ] {home : κ → ℕ} {table table' : ℕ → Option κ}
    {k : κ} (hhome : home k < n) (h : ∀ p < n, table p = table' p) :
    place n home table k = place n home table' k := by
  refine search_congr hhome ?_ n
  intro q hq
  rw [h q hq]

theorem place_lt {κ : Type} [DecidableEq κ] {home : κ → ℕ} {table : ℕ → Option κ} {k : κ}
    {p : ℕ} (hhome : home k < n) (h : place n home table k = some p) : p < n := by
  obtain ⟨i, -, rfl, -, -⟩ := (search_eq_some_iff n hhome).mp h
  exact mod_lt _ (by omega)

/-- The home of a key. -/
def homeOf (hash : List Int → ℕ) (n : ℕ) (key : List Int) : ℕ :=
  hash key % n

theorem homeOf_lt (hn : 0 < n) : homeOf hash n key < n :=
  mod_lt _ hn

/-- A call tries entries until the place of its key. -/
theorem getValue_eq (hn : 0 < n) {table : ℕ → Option (List Int)}
    (htable : ∀ p < n, A.slotOf emptyKey buffer p = table p) :
    A.getValue emptyKey n hash buffer key
      = some ((place n (homeOf hash n) table key).bind
          (A.getMatching emptyKey buffer key)) := by
  have hhome : homeOf hash n key < n := homeOf_lt hn
  have hsearch : search n (fun p => (A.getMatching emptyKey buffer key p).isSome = true) n
      (homeOf hash n key) = place n (homeOf hash n) table key := by
    refine search_congr hhome ?_ n
    intro q hq
    rw [getMatching_isSome, htable q hq]
  rw [← hsearch]
  exact probe_eq hhome

variable (hash) in
/-- What a call does: the key is admitted to the table. -/
theorem getValue_enter (hn : 0 < n) (hsep : A.Separate n)
    (hkey : Admissible A emptyKey key) {table : ℕ → Option (List Int)}
    (htable : ∀ p < n, A.slotOf emptyKey buffer p = table p) :
    (∃ p < n, ∃ buffer', (enter n (homeOf hash n) table key).2 = some p
        ∧ A.getValue emptyKey n hash buffer key = some (some (buffer', A.slot p))
        ∧ (∀ a, (a ∈ A.keyCells p → table p ≠ none) → buffer' a = buffer a)
        ∧ ∀ q < n, A.slotOf emptyKey buffer' q = (enter n (homeOf hash n) table key).1 q)
      ∨ ((enter n (homeOf hash n) table key).2 = none
        ∧ A.getValue emptyKey n hash buffer key = some none
        ∧ (enter n (homeOf hash n) table key).1 = table) := by
  have hhome : homeOf hash n key < n := homeOf_lt hn
  rw [getValue_eq hn htable]
  cases hplace : place n (homeOf hash n) table key with
  | none =>
    rw [enter_of_place_none hplace]
    exact Or.inr ⟨rfl, rfl, rfl⟩
  | some p =>
    left
    have hp := place_lt hhome hplace
    obtain ⟨i, -, -, hstop, -⟩ := (search_eq_some_iff n hhome).mp hplace
    rw [enter_of_place hplace]
    dsimp only [Option.bind_some]
    rcases hstop with hfree | hstored
    · refine ⟨p, hp, Cells.store buffer (A.keyCells p) key, rfl, ?_, ?_, ?_⟩
      · rw [getMatching_eq, htable p hp, hfree]
      · intro a ha
        exact Cells.store_of_notMem fun hin => ha hin hfree
      · intro q hq
        rw [slotOf_store hsep hkey hp hq]
        by_cases hqp : q = p
        · rw [hqp, update_self, update_self]
        · rw [update_of_ne hqp, update_of_ne hqp, htable q hq]
    · refine ⟨p, hp, buffer, rfl, ?_, fun _ _ => rfl, ?_⟩
      · rw [getMatching_eq, htable p hp, hstored]
        simp
      · intro q hq
        rw [← hstored, update_eq_self]
        exact htable q hq

-- ======== runs

/-- What the query writes to aggregates leaves the keys alone. -/
theorem slotOf_aggs (hsep : A.Separate n) {p : ℕ} (hp : p < n) (aggs : List Int) :
    ∀ q < n, A.slotOf emptyKey (Cells.store buffer (A.aggs (A.slot p)) aggs) q
      = A.slotOf emptyKey buffer q := by
  intro q hq
  refine slotOf_congr hsep ?_
  intro a ha
  obtain ⟨i, hi, rfl⟩ := mem_keyCells.mp ha
  exact Cells.store_of_notMem (hsep.aggs p hp q hq i hi)

variable (hash) in
/-- A run gives out the entries that the table gives out. -/
theorem serve_eq (hn : 0 < n) (hsep : A.Separate n) (rows : List Input)
    (hrows : ∀ row ∈ rows, Admissible A emptyKey row.key) {table : ℕ → Option (List Int)}
    (htable : ∀ p < n, A.slotOf emptyKey buffer p = table p) :
    ∃ buffer', serve (A.getValue emptyKey n hash) A.aggs buffer rows
        = some (buffer', (enterAll n (homeOf hash n) table (rows.map Input.key)).2.map
            fun x => x.2.map A.slot)
      ∧ ∀ p < n, A.slotOf emptyKey buffer' p
          = (enterAll n (homeOf hash n) table (rows.map Input.key)).1 p := by
  induction rows generalizing buffer table with
  | nil => exact ⟨buffer, rfl, htable⟩
  | cons row rows ih =>
    have hrest : ∀ r ∈ rows, Admissible A emptyKey r.key := fun r hr =>
      hrows r (mem_cons_of_mem _ hr)
    rcases getValue_enter hash hn hsep (hrows row mem_cons_self) htable with
      ⟨p, hp, buffer', hgiven, hcall, -, hslots⟩ | ⟨hgiven, hcall, hsame⟩
    · obtain ⟨buffer'', hserve, hend⟩ :=
        @ih (Cells.store buffer' (A.aggs (A.slot p)) row.aggs) hrest
          (enter n (homeOf hash n) table row.key).1
          fun q hq => (slotOf_aggs hsep hp row.aggs q hq).trans (hslots q hq)
      refine ⟨buffer'', ?_, hend⟩
      rw [serve, hcall]
      dsimp only
      rw [hserve, map_cons, enterAll]
      dsimp only [map_cons, Option.map_some]
      rw [hgiven]
      rfl
    · have htable' : ∀ p < n, A.slotOf emptyKey buffer p
          = (enter n (homeOf hash n) table row.key).1 p := by
        rw [hsame]
        exact htable
      obtain ⟨buffer'', hserve, hend⟩ := ih hrest htable'
      refine ⟨buffer'', ?_, hend⟩
      rw [serve, hcall]
      dsimp only
      rw [hserve, map_cons, enterAll]
      dsimp only [map_cons, Option.map_some]
      rw [hgiven]
      rfl

/-- Functions that compute the addresses of the entries do the same. -/
theorem getValue_congr (hn : 0 < n) {E : Addressing} (hcount : A.keyCount = E.keyCount)
    (hcell : ∀ p < n, ∀ i ≤ E.keyCount, A.cell p i = E.cell p i)
    (hslot : ∀ p < n, A.slot p = E.slot p) :
    A.getValue emptyKey n hash = E.getValue emptyKey n hash := by
  funext buffer key
  have hhome : homeOf hash n key < n := homeOf_lt hn
  have hcells : ∀ p < n, A.keyCells p = E.keyCells p := by
    intro p hp
    unfold Addressing.keyCells
    rw [hcount]
    refine map_congr_left ?_
    intro i hi
    exact hcell p hp i (mem_range.mp hi).le
  have hattempt : ∀ p < n, A.getMatching emptyKey buffer key p
      = E.getMatching emptyKey buffer key p := by
    intro p hp
    unfold Addressing.getMatching
    rw [hcell p hp 0 (zero_le _), hcells p hp, hslot p hp]
  have hsearch : search n (fun p => (A.getMatching emptyKey buffer key p).isSome = true) n
        (homeOf hash n key)
      = search n (fun p => (E.getMatching emptyKey buffer key p).isSome = true) n
        (homeOf hash n key) := by
    refine search_congr hhome ?_ n
    intro q hq
    rw [hattempt q hq]
  show probe n _ (homeOf hash n key) = probe n _ (homeOf hash n key)
  rw [probe_eq hhome, probe_eq hhome, hsearch]
  cases hs : search n (fun p => (E.getMatching emptyKey buffer key p).isSome = true) n
      (homeOf hash n key) with
  | none => rfl
  | some p =>
    obtain ⟨i, -, rfl, -, -⟩ := (search_eq_some_iff n hhome).mp hs
    exact congrArg some (hattempt _ (mod_lt _ hn))

/-- A buffer whose entries are separate serves every run, with the entries
of the table. -/
theorem serves_of_separate (hn : 0 < n) (hsep : A.Separate n)
    {validKey : List Int → Prop} (hvalid : ∀ k, validKey k → Admissible A emptyKey k)
    (hfresh : Fresh A emptyKey n buffer) (rows : List Input)
    (hrows : ∀ row ∈ rows, validKey row.key) :
    Serves (A.getValue emptyKey n hash) A validKey buffer rows
      (enterAll n (homeOf hash n) (fun _ => none) (rows.map Input.key)).2 := by
  have htable : ∀ p < n, A.slotOf emptyKey buffer p = none := by
    intro p hp
    unfold Addressing.slotOf
    rw [if_pos (hfresh p hp)]
  obtain ⟨buffer', hserve, hend⟩ := serve_eq hash hn hsep rows
    (fun row hrow => hvalid _ (hrows row hrow)) htable
  refine ⟨buffer', hserve, ?_⟩
  intro key hkey buffer'' s hcall k p hgiven a ha
  have hhomes : ∀ k ∈ rows.map Input.key, homeOf hash n k < n := fun k _ => homeOf_lt hn
  have hrec := ((@records_vacant _ n (homeOf hash n)).enterAll
    (fun pre x post h => by simp at h) (rows.map Input.key) hhomes).1
  have hp := hrec.lt k p hgiven
  have hstored := (hrec.mem_iff p hp k).mpr hgiven
  -- the call writes to the cells of a free entry only
  rcases getValue_enter hash hn hsep (hvalid key hkey) hend with
    ⟨q, hq, b, -, hcall', hkept, -⟩ | ⟨-, hcall', -⟩
  · rw [hcall'] at hcall
    obtain ⟨rfl, -⟩ := Prod.mk.inj (Option.some.inj (Option.some.inj hcall))
    refine hkept a ?_
    intro hin hfree
    have hne : q ≠ p := by
      intro heq
      rw [heq, hstored] at hfree
      cases hfree
    rcases mem_append.mp ha with ha | ha
    · exact disjoint_keyCells hsep hq hp hne a ha hin
    · obtain ⟨i, hi, rfl⟩ := mem_keyCells.mp hin
      exact hsep.aggs p hp q hq i hi ha
  · rw [hcall'] at hcall
    cases Option.some.inj hcall

-- ======== the layouts

namespace GroupBuffer

variable (g : GroupBuffer)

/-- A place in a row is told by the row and the place. -/
theorem mul_add_inj {R p q a b : ℕ} (ha : a < R) (hb : b < R)
    (h : p * R + a = q * R + b) : p = q ∧ a = b := by
  have hR : 0 < R := by omega
  have hmod : (p * R + a) % R = (q * R + b) % R := by rw [h]
  rw [mul_add_mod_self_right, mul_add_mod_self_right, mod_eq_of_lt ha, mod_eq_of_lt hb] at hmod
  subst hmod
  exact ⟨eq_of_mul_eq_mul_right hR (by omega), rfl⟩

/-- The components of a key fit its quads. -/
theorem keyCount_le : g.keyCount ≤ g.keyQuads * g.keyWidth.cellsPerQuad := by
  unfold keyQuads
  cases g.keyWidth with
  | w4 =>
    show g.keyCount ≤ (g.keyCount + 2 - 1) / 2 * 2
    omega
  | w8 =>
    show g.keyCount ≤ (g.keyCount + 1 - 1) / 1 * 1
    omega

theorem rowEntries_separate : g.rowEntries.Separate g.entryCount := by
  have hkey := g.keyCount_le
  have hrow : g.keyQuads * g.keyWidth.cellsPerQuad
      ≤ g.rowSizeQuad * g.keyWidth.cellsPerQuad :=
    Nat.mul_le_mul_right _ g.holdsKey
  have hcell : ∀ p i, g.rowEntries.cell p i
      = p * (g.rowSizeQuad * g.keyWidth.cellsPerQuad) + i := by
    intro p i
    show p * g.rowSizeQuad * g.keyWidth.cellsPerQuad + i = _
    rw [Nat.mul_assoc]
  refine ⟨g.keyCount_pos, ?_, ?_⟩
  · intro p _ q _ i hi j hj heq
    rw [hcell, hcell] at heq
    have hi' : i < g.keyCount := hi
    have hj' : j < g.keyCount := hj
    exact mul_add_inj (by omega) (by omega) heq
  · intro p _ q _ i hi hin
    have hi' : i < g.keyCount := hi
    obtain ⟨j, hj, heq⟩ := mem_map.mp hin
    rw [mem_range, Nat.sub_mul] at hj
    have hagg : (p * g.rowSizeQuad + g.keyQuads) * g.keyWidth.cellsPerQuad + j
        = p * (g.rowSizeQuad * g.keyWidth.cellsPerQuad)
          + (g.keyQuads * g.keyWidth.cellsPerQuad + j) := by
      rw [Nat.add_mul, Nat.mul_assoc, Nat.add_assoc]
    have heq' : (p * g.rowSizeQuad + g.keyQuads) * g.keyWidth.cellsPerQuad + j
        = g.rowEntries.cell q i := heq
    rw [hcell, hagg] at heq'
    have := (mul_add_inj (by omega) (by omega) heq').2
    omega

theorem columnEntries_separate : g.columnEntries.Separate g.entryCount := by
  have hcell : ∀ p i, g.columnEntries.cell p i = i * g.entryCount + p := by
    intro p i
    exact add_comm _ _
  refine ⟨g.keyCount_pos, ?_, ?_⟩
  · intro p hp q hq i _ j _ heq
    rw [hcell, hcell] at heq
    exact (mul_add_inj hp hq heq).symm
  · intro p hp q hq i hi hin
    have hi' : i < g.keyCount := hi
    obtain ⟨j, -, heq⟩ := mem_map.mp hin
    have hagg : p + g.keyCount * g.entryCount + j * g.entryCount
        = (g.keyCount + j) * g.entryCount + p := by ring
    have heq' : p + g.keyCount * g.entryCount + j * g.entryCount
        = g.columnEntries.cell q i := heq
    rw [hcell, hagg] at heq'
    have := (mul_add_inj hp hq heq').1
    omega

/-- Without a cut-off the functions compute the addresses of the entries. -/
theorem getGroupValue_eq (hash : List Int → ℕ) (h : (g.entryCount - 1) * g.rowSizeQuad < 2 ^ 32) :
    g.getGroupValue hash
      = g.rowEntries.getValue g.keyWidth.emptyKey g.entryCount hash := by
  have hoff : ∀ p < g.entryCount, p * g.rowSizeQuad % 2 ^ 32 = p * g.rowSizeQuad := by
    intro p hp
    refine mod_eq_of_lt (lt_of_le_of_lt ?_ h)
    exact mul_le_mul_right _ (by omega)
  refine getValue_congr g.entryCount_pos rfl ?_ ?_
  · intro p hp i _
    show p * g.rowSizeQuad % 2 ^ 32 * _ + i = p * g.rowSizeQuad * _ + i
    rw [hoff p hp]
  · intro p hp
    show p * g.rowSizeQuad % 2 ^ 32 + _ = p * g.rowSizeQuad + _
    rw [hoff p hp]

theorem getGroupValueColumnar_eq (hash : List Int → ℕ)
    (h : (g.keyCount + 1) * g.entryCount ≤ 2 ^ 32) :
    g.getGroupValueColumnar hash
      = g.columnEntries.getValue KeyWidth.w8.emptyKey g.entryCount hash := by
  have hoff : ∀ p < g.entryCount, ∀ i ≤ g.keyCount,
      (p + i * g.entryCount) % 2 ^ 32 = p + i * g.entryCount := by
    intro p hp i hi
    refine mod_eq_of_lt (lt_of_lt_of_le ?_ h)
    have : i * g.entryCount ≤ g.keyCount * g.entryCount := mul_le_mul_right _ hi
    rw [add_mul]
    omega
  refine getValue_congr g.entryCount_pos rfl ?_ ?_
  · intro p hp i hi
    exact hoff p hp i hi
  · intro p hp
    exact hoff p hp g.keyCount (le_refl _)

end GroupBuffer

-- ======== necessity

/-- The address that a call returns is that of an entry it tried. -/
theorem getValue_slot (hn : 0 < n) {buffer' : Memory} {s : ℕ}
    (h : A.getValue emptyKey n hash buffer key = some (some (buffer', s))) :
    ∃ p, s = A.slot p := by
  unfold Addressing.getValue at h
  rw [probe_eq (mod_lt _ hn)] at h
  obtain ⟨p, -, hp⟩ := Option.bind_eq_some_iff.mp (Option.some.inj h)
  refine ⟨p, ?_⟩
  rw [getMatching_eq] at hp
  split at hp
  · exact (Prod.mk.inj (Option.some.inj hp)).2.symm
  · split at hp
    · exact (Prod.mk.inj (Option.some.inj hp)).2.symm
    · cases hp

theorem serve_slot (hn : 0 < n) {aggs : ℕ → List ℕ} {rows : List Input}
    {buffer' : Memory} {results : List (Option ℕ)}
    (h : serve (A.getValue emptyKey n hash) aggs buffer rows = some (buffer', results))
    {s : ℕ} (hs : some s ∈ results) : ∃ p, s = A.slot p := by
  induction rows generalizing buffer buffer' results with
  | nil =>
    obtain ⟨-, rfl⟩ := Prod.mk.inj (Option.some.inj h)
    cases hs
  | cons row rows ih =>
    rw [serve] at h
    split at h
    · cases h
    · obtain ⟨r, hr, heq⟩ := Option.map_eq_some_iff.mp h
      obtain ⟨rfl, rfl⟩ := Prod.mk.inj heq
      rcases mem_cons.mp hs with hs | hs
      · cases hs
      · exact ih hr hs
    · next buffer₁ s₁ hcall =>
      obtain ⟨r, hr, heq⟩ := Option.map_eq_some_iff.mp h
      obtain ⟨rfl, rfl⟩ := Prod.mk.inj heq
      rcases mem_cons.mp hs with hs | hs
      · rw [Option.some.inj hs]
        exact getValue_slot hn hcall
      · exact ih hr hs

namespace GroupBuffer

variable (g : GroupBuffer)

/-- The keys that begin with the smallest numbers of 32 bits. -/
def countingKey (j : ℕ) : List Int :=
  ((j : Int) - 2 ^ 31) :: List.replicate (g.keyCount - 1) 0

theorem countingKey_valid {j : ℕ} (hj : j < g.entryCount) : g.ValidKey (g.countingKey j) := by
  have hlt := g.entryCount_lt
  have hpos := g.keyCount_pos
  have hmin : g.keyWidth.minKey ≤ -2 ^ 31 := by cases g.keyWidth <;> decide
  have hmax : (2 : Int) ^ 31 - 1 ≤ g.keyWidth.emptyKey := by cases g.keyWidth <;> decide
  refine ⟨?_, ?_, ?_⟩
  · unfold countingKey
    rw [length_cons, length_replicate]
    omega
  · intro c hc
    rcases mem_cons.mp hc with rfl | hc
    · omega
    · rw [eq_of_mem_replicate hc]
      omega
  · intro hhead
    have : ((j : Int) - 2 ^ 31) = g.keyWidth.emptyKey := Option.some.inj hhead
    omega

/-- If each key gets its own entry, the last entry has an address that
the functions return. -/
theorem last_address {getValue : Memory → List Int → Option (Option (Memory × ℕ))}
    {entries : Addressing} {given : List (List Int × Option ℕ)} {rows : List Input}
    {code : Addressing} {w : KeyWidth} (hash : List Int → ℕ) {buffer : Memory}
    (hget : getValue = code.getValue w.emptyKey g.entryCount hash)
    (hrows : rows = (range g.entryCount).map fun j => ⟨g.countingKey j, []⟩)
    (hkeys : given.map Prod.fst = rows.map Input.key) (hassigns : Assigns g.entryCount given)
    (hserves : Serves getValue entries g.ValidKey buffer rows given) :
    ∃ p, entries.slot (g.entryCount - 1) = code.slot p := by
  have hmap : given.map Prod.fst = (range g.entryCount).map g.countingKey := by
    rw [hkeys, hrows, map_map]
    rfl
  have hlen : given.length = g.entryCount := by
    have := congrArg length hmap
    simpa using this
  have hnodup : (given.map Prod.fst).Nodup := by
    rw [hmap]
    refine Nodup.map_on ?_ nodup_range
    intro i _ j _ heq
    have := (cons.inj heq).1
    omega
  have hpos := g.entryCount_pos
  obtain ⟨k, hk⟩ := hassigns.exists_given hnodup hlen (p := g.entryCount - 1) (by omega)
  obtain ⟨buffer', hserve, -⟩ := hserves
  rw [hget] at hserve
  refine serve_slot hpos hserve ?_
  exact mem_map.mpr ⟨_, hk, rfl⟩

/-- Each key gets one entry of its own, in both layouts, exactly when no
offset of an entry needs more than 32 bits. -/
theorem oneSlotPerKey_iff (keyHash : List Int → ℕ) :
    g.OneSlotPerKey keyHash ↔ g.Addressable := by
  have hpos := g.entryCount_pos
  constructor
  · intro h
    obtain ⟨given, hkeys, hassigns, hrow, hcol⟩ :=
      h ((List.range g.entryCount).map fun j => ⟨g.countingKey j, []⟩) (by
        intro row hrow
        obtain ⟨j, hj, rfl⟩ := mem_map.mp hrow
        exact g.countingKey_valid (mem_range.mp hj))
    constructor
    · obtain ⟨p, hp⟩ := g.last_address keyHash rfl rfl hkeys hassigns
        (hrow (fun _ => g.keyWidth.emptyKey) fun _ _ => rfl)
      have heq : (g.entryCount - 1) * g.rowSizeQuad + g.keyQuads
          = p * g.rowSizeQuad % 2 ^ 32 + g.keyQuads := hp
      omega
    · intro hw
      obtain ⟨p, hp⟩ := g.last_address keyHash (w := .w8) rfl rfl hkeys hassigns
        (hcol hw (fun _ => g.keyWidth.emptyKey) fun _ _ => rfl)
      have heq : g.entryCount - 1 + g.keyCount * g.entryCount
          = (p + g.keyCount * g.entryCount) % 2 ^ 32 := hp
      rw [Nat.add_mul]
      omega
  · intro haddr rows hrows
    refine ⟨(enterAll g.entryCount (homeOf keyHash g.entryCount) (fun _ => none)
      (rows.map Input.key)).2, enterAll_keys _, assigns_enterAll _ fun k _ => homeOf_lt hpos,
      ?_, ?_⟩
    · intro buffer hfresh
      rw [g.getGroupValue_eq keyHash haddr.1]
      exact serves_of_separate hpos g.rowEntries_separate (fun k hk => ⟨hk.1, hk.2.2⟩)
        hfresh rows hrows
    · intro hw buffer hfresh
      rw [g.getGroupValueColumnar_eq keyHash (haddr.2 hw)]
      rw [hw] at hfresh
      refine serves_of_separate hpos g.columnEntries_separate ?_ hfresh rows hrows
      intro k hk
      refine ⟨hk.1, ?_⟩
      rw [← hw]
      exact hk.2.2

-- ======== a large buffer

/-- Two aggregates for up to 2^31 groups. -/
def large : GroupBuffer where
  entryCount := 2 ^ 31
  rowSizeQuad := 3
  keyCount := 1
  keyWidth := .w8
  aggColCount := 2
  entryCount_pos := by decide
  entryCount_lt := by decide
  keyCount_pos := by decide
  holdsKey := by decide

/-- The entry of the first key wraps around into the aggregates of the
second, so that the first key is lost with their next value. -/
theorem large_key_lost :
    (serve (large.getGroupValue (keyHash .w8)) large.rowEntries.aggs
        (fun _ => KeyWidth.w8.emptyKey)
        [⟨[45657], [1, 1]⟩, ⟨[12906], [0, 0]⟩, ⟨[45657], [2, 2]⟩]).map Prod.snd
      = some [some 250191345, some 250191343, some 250191348]
    ∧ ¬ large.OneSlotPerKey (keyHash .w8) := by
  have hrun : (serve (large.getGroupValue (keyHash .w8)) large.rowEntries.aggs
        (fun _ => KeyWidth.w8.emptyKey)
        [⟨[45657], [1, 1]⟩, ⟨[12906], [0, 0]⟩, ⟨[45657], [2, 2]⟩]).map Prod.snd
      = some [some 250191345, some 250191343, some 250191348] := by decide +kernel
  refine ⟨hrun, ?_⟩
  intro h
  obtain ⟨given, hkeys, hassigns, hrow, -⟩ :=
    h [⟨[45657], [1, 1]⟩, ⟨[12906], [0, 0]⟩, ⟨[45657], [2, 2]⟩] (by
      intro row hrow
      simp only [mem_cons, not_mem_nil, or_false] at hrow
      rcases hrow with rfl | rfl | rfl
      all_goals exact ⟨rfl, by decide, by decide⟩)
  obtain ⟨buffer', hserve, -⟩ := hrow (fun _ => KeyWidth.w8.emptyKey) fun _ _ => rfl
  have hserve' : serve (large.getGroupValue (keyHash .w8)) large.rowEntries.aggs
      (fun _ => KeyWidth.w8.emptyKey)
      [⟨[45657], [1, 1]⟩, ⟨[12906], [0, 0]⟩, ⟨[45657], [2, 2]⟩] = _ := hserve
  rw [hserve'] at hrun
  have hgiven := Option.some.inj hrun
  -- the address is that of no entry
  match given with
  | [] => cases hgiven
  | (k, r) :: rest =>
    obtain ⟨p, -, hp⟩ := Option.map_eq_some_iff.mp (List.cons.inj hgiven).1
    have hslot : p * 3 + 1 = 250191345 := hp
    omega

end GroupBuffer

end Compass.HashTable
