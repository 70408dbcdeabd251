/-
The one-to-many table is exact under every schedule.

Every phase is followed through an arbitrary interleaving. Counting only
depends on how often a slot occurs, so it gives the number of rows of the
slot; the running sums of these numbers give every slot a segment of its
own. In the last phase the places of a slot are taken in some order, and
the invariant says which row has taken which place: a row that has not
stored yet holds a place that no other row stores to.

The only step that can go wrong is the counter of the position loops,
which goes past the end of an `int` when the number of slots and the
number of threads are too large together.
-/
import Compass.HashTable.OneToMany
import Mathlib.Algebra.Order.BigOperators.Group.List
import Mathlib.Data.Int.ModEq

namespace Compass.HashTable.OneToMany

open Interleave List Option Function

-- ======== the key of a row

namespace Build

variable {b : Build}

theorem Covered.rowKey_eq (hb : b.Covered) (i : Nat) :
    b.rowKey i = (b.elems[i]?).bind b.joinKey := by
  unfold rowKey
  cases helem : b.elems[i]? with
  | none => rfl
  | some elem =>
    have hmem : elem ∈ b.elems := mem_of_getElem? helem
    simp only [bind_some, translateNull, joinKey]
    by_cases hnull : elem = b.nullVal
    · simp only [if_pos hnull]
      by_cases hbw : b.usesBwEq
      · simp only [if_pos hbw, bind_some, translateId]
        cases b.proxies with
        | none => rfl
        | some p => simp [hbw]
      · simp only [if_neg hbw, bind_none]
    · simp only [if_neg hnull, bind_some, translateId]
      cases b.proxies with
      | none => rfl
      | some p =>
        -- a value of the column is not the one that stands for null
        have hle := (hb.values elem hmem hnull).2
        have hne : elem ≠ b.translatedNullVal := by
          unfold translatedNullVal
          omega
        simp [hne]

/-- The key of a row is a slot of the table. -/
theorem Covered.slot (hb : b.Covered) {i : Nat} {key : Int} (hkey : b.rowKey i = some key) :
    ∃ s < b.hashEntryCount, key = b.minVal + s := by
  rw [hb.rowKey_eq, bind_eq_some_iff] at hkey
  obtain ⟨elem, helem, hjoin⟩ := hkey
  have hmem : elem ∈ b.elems := mem_of_getElem? helem
  have hrange := hb.range
  have hvalue : ∀ x, b.minVal ≤ x ∧ x ≤ b.maxVal →
      ∃ s < b.hashEntryCount, x = b.minVal + s := by
    intro x hx
    refine ⟨(x - b.minVal).toNat, ?_, by omega⟩
    unfold hashEntryCount
    omega
  simp only [joinKey] at hjoin
  split at hjoin
  · split at hjoin
    · rename_i hbw
      refine ⟨(b.maxVal + 1 - b.minVal).toNat, ?_, ?_⟩
      · unfold hashEntryCount
        simp only [hbw, if_true]
        omega
      · have := some.inj hjoin
        unfold translatedNullVal at this
        omega
    · cases hjoin
  · rename_i hnull
    split at hjoin
    · rw [← some.inj hjoin]
      exact hvalue elem (hb.values elem hmem hnull)
    · rename_i p hp
      split at hjoin
      · cases hjoin
      · rename_i hvalid
        rw [← some.inj hjoin]
        exact hvalue _ (hb.outerIds p hp elem hmem hnull hvalid)

/-- The slot of a row, as both loops compute it. -/
def slotOf (b : Build) (i : Nat) : Option Int := (b.rowKey i).map b.getHashSlot

theorem Covered.slotOf_range (hb : b.Covered) {i : Nat} {slot : Int}
    (hslot : b.slotOf i = some slot) :
    ∃ s < b.hashEntryCount, slot = s := by
  unfold slotOf at hslot
  rw [map_eq_some_iff] at hslot
  obtain ⟨key, hkey, rfl⟩ := hslot
  obtain ⟨s, hs, rfl⟩ := hb.slot hkey
  refine ⟨s, hs, ?_⟩
  unfold getHashSlot
  omega

theorem Covered.mem_rowsOf (hb : b.Covered) {i s : Nat} :
    i ∈ b.rowsOf s ↔ i < b.numElems ∧ b.slotOf i = some (s : Int) := by
  unfold rowsOf slotOf
  rw [mem_filter, mem_range, hb.rowKey_eq, decide_eq_true_iff]
  apply and_congr_right
  intro _
  rw [map_eq_some_iff]
  constructor
  · intro h
    refine ⟨_, h, ?_⟩
    unfold getHashSlot
    omega
  · intro h
    obtain ⟨key, hkey, hslot⟩ := h
    rw [hkey]
    unfold getHashSlot at hslot
    congr 1
    omega

theorem nodup_rowsOf (s : Nat) : (b.rowsOf s).Nodup :=
  nodup_range.filter _

/-- The number of rows of a slot. -/
def total (b : Build) (s : Nat) : Nat := (b.rowsOf s).length

/-- The place where the segment of a slot starts. -/
def offset (b : Build) (s : Nat) : Nat := ((List.range s).map b.total).sum

theorem offset_succ (s : Nat) : b.offset (s + 1) = b.offset s + b.total s := by
  unfold offset
  rw [range_succ, map_append, sum_append]
  simp

theorem offset_add_total_le {s s' : Nat} (h : s < s') :
    b.offset s + b.total s ≤ b.offset s' := by
  induction s', h using Nat.le_induction with
  | base => exact (offset_succ s).ge
  | succ s' _ ih =>
    rw [offset_succ]
    omega

/-- Segments of different slots have no place in common. -/
theorem place_inj {s s' k k' : Nat} (hk : k < b.total s)
    (hk' : k' < b.total s') (h : b.offset s + k = b.offset s' + k') :
    s = s' ∧ k = k' := by
  rcases Nat.lt_trichotomy s s' with hlt | heq | hgt
  · have := @offset_add_total_le b s s' hlt
    omega
  · subst heq
    exact ⟨rfl, by omega⟩
  · have := @offset_add_total_le b s' s hgt
    omega

/-- All segments together fit into `id_buff`. -/
theorem Covered.offset_le (hb : b.Covered) (n : Nat) :
    b.offset n ≤ b.numElems := by
  have hlen : b.offset n = ((List.range n).flatMap b.rowsOf).length := by
    rw [length_flatMap]
    rfl
  have hnodup : ((List.range n).flatMap b.rowsOf).Nodup := by
    apply nodup_flatMap.2
    refine ⟨fun s _ => nodup_rowsOf s, ?_⟩
    apply nodup_range.imp
    intro s s' hne i hi hi'
    have h := (hb.mem_rowsOf.1 hi).2.symm.trans (hb.mem_rowsOf.1 hi').2
    have := Option.some.inj h
    omega
  have hsub : (List.range n).flatMap b.rowsOf ⊆ List.range b.numElems := by
    intro i hi
    obtain ⟨s, _, his⟩ := mem_flatMap.1 hi
    exact mem_range.2 (hb.mem_rowsOf.1 his).1
  calc b.offset n = ((List.range n).flatMap b.rowsOf).length := hlen
    _ ≤ (List.range b.numElems).length := (subperm_of_subset hnodup hsub).length_le
    _ = b.numElems := length_range

-- ======== the counts

theorem index_natCast {n s : Nat} (h : s < n) : index n (s : Int) = some s := by
  unfold index
  rw [if_pos (by omega), Int.toNat_natCast]

theorem foldlM_mapdAdd (run : List Int) (count : Nat → Nat)
    (hrun : ∀ slot ∈ run, ∃ s < b.hashEntryCount, slot = (s : Int)) :
    run.foldlM b.mapdAdd count = some fun s => count s + run.count (s : Int) := by
  induction run generalizing count with
  | nil => rfl
  | cons slot run ih =>
    obtain ⟨s, hs, rfl⟩ := hrun slot mem_cons_self
    have hstep : b.mapdAdd count (s : Int)
        = some (update count s (count s + 1)) := by
      unfold mapdAdd
      rw [index_natCast hs]
      rfl
    rw [foldlM_cons, hstep, bind_eq_bind, bind_some,
      ih _ fun slot hslot => hrun slot (mem_cons_of_mem _ hslot)]
    congr 1
    funext s'
    by_cases heq : s' = s
    · subst heq
      rw [update_self, count_cons_self]
      omega
    · rw [update_of_ne heq, count_cons_of_ne]
      omega

/-- The threads together count every row once. -/
theorem countMatches_perm (hthreads : 0 < b.cpuThreadCount) :
    ((range b.cpuThreadCount).map b.countMatches).flatten.Perm
      ((range b.numElems).filterMap b.slotOf) := by
  have hflat : ((range b.cpuThreadCount).map b.countMatches).flatten
      = ((range b.cpuThreadCount).flatMap
          (strided b.cpuThreadCount b.numElems)).filterMap b.slotOf := by
    rw [filterMap_flatMap, flatMap_def]
    rfl
  rw [hflat]
  exact (flatMap_strided_perm hthreads).filterMap _

theorem Covered.count_slots (hb : b.Covered) (s : Nat) :
    ((List.range b.numElems).filterMap b.slotOf).count (s : Int) = b.total s := by
  rw [count_filterMap, countP_eq_length_filter]
  congr 1
  apply filter_congr
  intro i hi
  have hmem := @Covered.mem_rowsOf b hb i s
  unfold rowsOf at hmem
  rw [mem_filter] at hmem
  have hlt := mem_range.1 hi
  rw [Bool.eq_iff_iff]
  simp only [beq_iff_eq]
  constructor
  · intro h
    exact (hmem.2 ⟨hlt, h⟩).2
  · intro h
    exact (hmem.1 ⟨hi, h⟩).2

/-- Whatever the order of the increments, every slot counts its rows. -/
theorem Covered.runCounts_eq (hb : b.Covered) {counting : List Int}
    (h : Interleaves ((List.range b.cpuThreadCount).map b.countMatches)
      counting) :
    b.runCounts counting = some b.total := by
  have hperm := h.perm_flatten.trans (countMatches_perm hb.threads.1)
  have hrange : ∀ slot ∈ counting, ∃ s < b.hashEntryCount,
      slot = (s : Int) := by
    intro slot hslot
    obtain ⟨i, _, hi⟩ := mem_filterMap.1 (hperm.mem_iff.1 hslot)
    exact hb.slotOf_range hi
  unfold runCounts
  rw [foldlM_mapdAdd counting _ hrange]
  congr 1
  funext s
  rw [Nat.zero_add, hperm.count_eq, hb.count_slots]

end Build

-- ======== the running sums

theorem scanFrom_append (sum : Nat) (xs ys : List Nat) :
    scanFrom sum (xs ++ ys) = scanFrom sum xs ++ scanFrom (sum + xs.sum) ys := by
  induction xs generalizing sum with
  | nil => simp [scanFrom]
  | cons x xs ih =>
    simp only [cons_append, scanFrom, ih, sum_cons, Nat.add_assoc]

theorem map_add_scanFrom (prevSum sum : Nat) (xs : List Nat) :
    (scanFrom sum xs).map (prevSum + ·) = scanFrom (prevSum + sum) xs := by
  induction xs generalizing sum with
  | nil => rfl
  | cons x xs ih =>
    simp only [scanFrom, map_cons, ih, Nat.add_assoc]

theorem getElem?_scanFrom (sum : Nat) (xs : List Nat) (i : Nat) (hi : i < xs.length) :
    (scanFrom sum xs)[i]? = some (sum + (xs.take (i + 1)).sum) := by
  induction xs generalizing sum i with
  | nil => cases hi
  | cons x xs ih =>
    cases i with
    | zero => simp [scanFrom]
    | succ i =>
      have hi' : i < xs.length := by
        simpa using hi
      rw [scanFrom, getElem?_cons_succ, ih _ _ hi', take_succ_cons, sum_cons, Nat.add_assoc]

/-- The chunks, each with the sums of the chunks before it, are the scan of
them all. -/
theorem flatten_scan_chunks (sum : Nat) (c : List Nat) (chunks : List (List Nat)) :
    scanFrom sum c ++ (List.zipWith (fun prevSum ys => ys.map (prevSum + ·))
        (scanFrom sum ((c :: chunks).map List.sum))
        (chunks.map (scanFrom 0))).flatten
      = scanFrom sum (c :: chunks).flatten := by
  induction chunks generalizing sum c with
  | nil => simp
  | cons c' chunks ih =>
    have hrest := ih (sum + c.sum) c'
    rw [flatten_cons, scanFrom_append, ← hrest]
    simp only [map_cons, scanFrom, zipWith_cons_cons, flatten_cons, map_add_scanFrom, Nat.add_zero]

theorem startOff_eq (n step t : Nat) : startOff n step t = min (t * step) n := by
  induction t with
  | zero => simp [startOff]
  | succ t ih =>
    rw [startOff, ih, Nat.succ_mul]
    omega

/-- The chunks of the first threads are the start of the list. -/
theorem flatten_chunks (xs : List Nat) (step t : Nat) :
    ((range t).map (chunk xs step)).flatten
      = xs.take (startOff xs.length step t) := by
  induction t with
  | zero => simp [startOff]
  | succ t ih =>
    rw [range_succ, map_append, flatten_append, ih]
    simp only [map_cons, map_nil, flatten_cons, flatten_nil, append_nil, chunk, startOff]
    have hle : startOff xs.length step t ≤ xs.length := by
      rw [startOff_eq]
      exact Nat.min_le_right _ _
    rw [← take_add]
    congr 1
    omega

/-- The scan of several threads is the scan of one. -/
theorem inclusiveScan_eq (xs : List Nat) (threadCount : Nat) :
    inclusiveScan xs threadCount = scanFrom 0 xs := by
  unfold inclusiveScan
  split
  · rfl
  · rename_i hpar
    obtain ⟨m, rfl⟩ : ∃ m, threadCount = m + 1 := ⟨threadCount - 1, by omega⟩
    simp only
    generalize hstep : (xs.length + (m + 1) - 1) / (m + 1) = step
    have hcover : xs.length ≤ (m + 1) * step := by
      have hlt : xs.length + (m + 1) - 1
          < (m + 1) * ((xs.length + (m + 1) - 1) / (m + 1) + 1) :=
        Nat.lt_mul_div_succ _ (by omega)
      rw [hstep, Nat.mul_succ] at hlt
      omega
    have hchunks := flatten_chunks xs step (m + 1)
    rw [startOff_eq, Nat.min_eq_right hcover, take_length] at hchunks
    rw [range_succ_eq_map, map_cons] at hchunks ⊢
    rw [@map_cons _ _ (scanFrom 0), take_succ_cons, take_zero,
      drop_succ_cons, drop_zero, cons_append,
      nil_append, flatten_cons, flatten_scan_chunks, hchunks]

namespace Build

variable {b : Build}

theorem length_countCopy (hpos : 0 < b.hashEntryCount) (count : Nat → Nat) :
    (b.countCopy count).length = b.hashEntryCount := by
  unfold countCopy
  rw [length_cons, length_map, length_range]
  omega

variable {s : Nat}

/-- The shifted scan gives the start of every segment. -/
theorem scan_countCopy (hs : s < b.hashEntryCount) (threads : Nat) :
    (inclusiveScan (b.countCopy b.total) threads).getD s 0 = b.offset s := by
  have hlen : s < (b.countCopy b.total).length := by
    rw [length_countCopy (by omega)]
    exact hs
  rw [inclusiveScan_eq, getD_eq_getElem?_getD,
    getElem?_scanFrom 0 _ s hlen, getD_some, Nat.zero_add]
  unfold countCopy offset
  rw [take_succ_cons, sum_cons, Nat.zero_add, ← map_take, take_range, Nat.min_eq_left (by omega)]

-- ======== the positions

theorem runPositions_apply (count : Nat → Nat) (scan : List Nat)
    (pos : Nat → Int) (run : List Nat) (s : Nat) :
    runPositions count scan pos run s
      = if s ∈ run ∧ count s ≠ 0 then ((scan.getD s 0 : Nat) : Int) else pos s := by
  unfold runPositions
  induction run generalizing pos with
  | nil => simp
  | cons i run ih =>
    rw [foldl_cons, ih]
    by_cases hrun : s ∈ run ∧ count s ≠ 0
    · rw [if_pos hrun, if_pos ⟨mem_cons_of_mem _ hrun.1, hrun.2⟩]
    · rw [if_neg hrun]
      unfold setPos
      by_cases hi : s = i
      · subst hi
        by_cases hcount : count s = 0
        · rw [if_pos hcount, if_neg fun h => h.2 hcount]
        · rw [if_neg hcount, update_self, if_pos ⟨mem_cons_self, hcount⟩]
      · have hnot : ¬(s ∈ i :: run ∧ count s ≠ 0) := by
          intro h
          rcases mem_cons.1 h.1 with hhead | htail
          · exact hi hhead
          · exact hrun ⟨htail, h.2⟩
        split
        · rfl
        · rw [update_of_ne hi]

variable {i : Nat}

/-- A loop whose counter fits takes the strided indices. -/
theorem intLoop_eq_some {step bound : Nat} (hfit : bound + step ≤ intMax + 1) :
    intLoop step bound i = some (strided step bound i) := by
  fun_induction intLoop step bound i with
  | case1 i hgo hle ih =>
    rw [ih, map_some, strided.eq_def step bound i, if_pos hgo]
  | case2 i hgo hgt => omega
  | case3 i hstop => rw [strided.eq_def, if_neg hstop]

/-- The loop that takes the last slot goes on from there. -/
theorem intLoop_eq_none {step bound : Nat} (hover : intMax + 1 < bound + step) (hi : i < bound)
    (hlast : (bound - 1) % step = i % step) (hstep : 0 < step) : intLoop step bound i = none := by
  fun_induction intLoop step bound i with
  | case1 i hgo hle ih =>
    have hnext : i + step < bound := by
      by_contra hge
      have hdiff : bound - 1 - i < step := by omega
      have hdvd : step ∣ bound - 1 - i :=
        (Nat.modEq_iff_dvd' (by omega : i ≤ bound - 1)).1 hlast.symm
      have hzero := Nat.eq_zero_of_dvd_of_lt hdvd hdiff
      omega
    rw [ih hnext (by rw [hlast, Nat.add_mod_right]), map_none]
  | case2 i hgo hgt => rfl
  | case3 i hstop => exact absurd ⟨hi, hstep⟩ hstop

theorem posLoops_eq_some (hfit : b.LoopsFit) :
    b.posLoops = some ((range b.cpuThreadCount).map
      (strided b.cpuThreadCount b.hashEntryCount)) := by
  have hle : b.hashEntryCount + b.cpuThreadCount ≤ intMax + 1 := hfit
  unfold posLoops
  induction range b.cpuThreadCount with
  | nil => rfl
  | cons t ts ih =>
    rw [mapM_cons, intLoop_eq_some hle, ih]
    rfl

theorem mapM_eq_none {α β : Type*} {f : α → Option β} {xs : List α} {x : α}
    (hx : x ∈ xs) (hf : f x = none) : xs.mapM f = none := by
  induction xs with
  | nil => cases hx
  | cons y ys ih =>
    rw [mapM_cons]
    rcases mem_cons.1 hx with hhead | htail
    · rw [← hhead, hf]
      rfl
    · rw [ih htail]
      cases f y <;> rfl

theorem Covered.posLoops_eq_none (hb : b.Covered) (hfit : ¬b.LoopsFit) :
    b.posLoops = none := by
  have hpos := hb.entries.1
  have hthreads := hb.threads.1
  have hover : intMax + 1 < b.hashEntryCount + b.cpuThreadCount :=
    Nat.lt_of_not_le hfit
  have hlt := Nat.mod_lt (b.hashEntryCount - 1) hthreads
  have hle := Nat.mod_le (b.hashEntryCount - 1) b.cpuThreadCount
  apply mapM_eq_none (mem_range.2 hlt)
  apply intLoop_eq_none hover
  · omega
  · rw [Nat.mod_mod]
  · exact hthreads

/-- The positions of the table, once every slot has been visited. -/
def finalPos (b : Build) (s : Nat) : Int :=
  if b.total s = 0 then invalidSlotVal else b.offset s

theorem Covered.runPositions_eq (hb : b.Covered) {positioning : List Nat}
    (h : Interleaves ((List.range b.cpuThreadCount).map
      (strided b.cpuThreadCount b.hashEntryCount)) positioning) (hs : s < b.hashEntryCount) :
    runPositions b.total
        (inclusiveScan (b.countCopy b.total) b.cpuThreadCount)
        Buff.init.pos positioning s
      = b.finalPos s := by
  have hmem : s ∈ positioning := by
    rw [h.perm_flatten.mem_iff, ← flatMap_def, (flatMap_strided_perm hb.threads.1).mem_iff]
    exact mem_range.2 hs
  rw [runPositions_apply, scan_countCopy hs]
  unfold finalPos
  by_cases htotal : b.total s = 0
  · rw [if_pos htotal, if_neg fun h => h.2 htotal]
    rfl
  · rw [if_neg htotal, if_pos ⟨hmem, htotal⟩]

-- ======== the row ids

/-- What is known of a run of the last phase: it takes the actions of each
row once, and in their order. -/
structure Complete (b : Build) (run : List RowAction) : Prop where
  perm : run.Perm ((List.range b.numElems).flatMap b.rowActions)
  order : ∀ i < b.numElems, (b.rowActions i).Sublist run

theorem rowActions_eq_of_slot {slot : Int} (h : b.slotOf i = some slot) :
    b.rowActions i = [.take i slot, .store i] := by
  obtain ⟨key, hkey, rfl⟩ := map_eq_some_iff.1 h
  unfold rowActions
  rw [hkey]

theorem rowActions_eq_nil (h : b.slotOf i = none) : b.rowActions i = [] := by
  unfold rowActions
  rw [map_eq_none_iff.1 h]

theorem take_mem_rowActions {j : Nat} {slot : Int} :
    .take j slot ∈ b.rowActions i ↔ j = i ∧ b.slotOf i = some slot := by
  cases hslot : b.slotOf i with
  | none => simp [rowActions_eq_nil hslot]
  | some slot' =>
    rw [rowActions_eq_of_slot hslot]
    simp [eq_comm]

theorem store_mem_rowActions {j : Nat} :
    .store j ∈ b.rowActions i ↔ j = i ∧ ∃ slot, b.slotOf i = some slot := by
  cases hslot : b.slotOf i with
  | none => simp [rowActions_eq_nil hslot]
  | some slot' =>
    rw [rowActions_eq_of_slot hslot]
    simp

theorem nodup_rowActions (b : Build) (n : Nat) :
    ((range n).flatMap b.rowActions).Nodup := by
  apply nodup_flatMap.2
  constructor
  · intro i _
    cases hslot : b.slotOf i with
    | none => rw [rowActions_eq_nil hslot]; exact nodup_nil
    | some slot => rw [rowActions_eq_of_slot hslot]; simp
  · apply nodup_range.imp
    intro i j hne a hi hj
    cases a with
    | take r slot =>
      exact hne ((take_mem_rowActions.1 hi).1.symm.trans
        (take_mem_rowActions.1 hj).1)
    | store r =>
      exact hne ((store_mem_rowActions.1 hi).1.symm.trans
        (store_mem_rowActions.1 hj).1)

theorem Covered.complete (hb : b.Covered) {scattering : List RowAction}
    (h : Interleaves ((List.range b.cpuThreadCount).map b.fillRowIds)
      scattering) : b.Complete scattering where
  perm := by
    have hflat : ((List.range b.cpuThreadCount).map b.fillRowIds).flatten
        = ((List.range b.cpuThreadCount).flatMap
            (strided b.cpuThreadCount b.numElems)).flatMap b.rowActions := by
      rw [flatMap_assoc, flatMap_def]
      rfl
    apply h.perm_flatten.trans
    rw [hflat]
    exact (flatMap_strided_perm hb.threads.1).flatMap_right _
  order := by
    intro i hi
    have hmod := Nat.mod_lt i hb.threads.1
    have hmem : b.fillRowIds (i % b.cpuThreadCount)
        ∈ (List.range b.cpuThreadCount).map b.fillRowIds :=
      List.mem_map_of_mem (mem_range.2 hmod)
    have hrow : i ∈ strided b.cpuThreadCount b.numElems (i % b.cpuThreadCount) :=
      (mem_strided_mod hmod).2 ⟨hi, rfl⟩
    have hactions : (b.rowActions i).Sublist
        (b.fillRowIds (i % b.cpuThreadCount)) := by
      exact sublist_flatten_of_mem (List.mem_map_of_mem hrow)
    exact hactions.trans (h.sublist hmem)

/-- The rows that have taken a place of slot `s`, in the order they did. -/
def granted (actions : List RowAction) (s : Nat) : List Nat :=
  actions.filterMap fun
    | .take i slot => if slot = s then some i else none
    | .store _ => none

theorem mem_granted {actions : List RowAction} :
    i ∈ granted actions s ↔ .take i (s : Int) ∈ actions := by
  unfold granted
  rw [mem_filterMap]
  constructor
  · intro h
    obtain ⟨a, ha, hsome⟩ := h
    cases a with
    | take j slot =>
      simp only [ite_none_right_eq_some, some.injEq] at hsome
      rw [← hsome.1, ← hsome.2]
      exact ha
    | store j => cases hsome
  · intro h
    exact ⟨_, h, by simp⟩

namespace Complete

variable {run : List RowAction}

section

variable (h : b.Complete run)
include h

theorem nodup : run.Nodup :=
  h.perm.nodup_iff.2 (nodup_rowActions b _)

theorem take_mem {i : Nat} {slot : Int} :
    .take i slot ∈ run ↔ i < b.numElems ∧ b.slotOf i = some slot := by
  rw [h.perm.mem_iff, mem_flatMap]
  constructor
  · intro hmem
    obtain ⟨j, hj, hi⟩ := hmem
    obtain ⟨rfl, hslot⟩ := take_mem_rowActions.1 hi
    exact ⟨mem_range.1 hj, hslot⟩
  · intro hi
    exact ⟨i, mem_range.2 hi.1, take_mem_rowActions.2 ⟨rfl, hi.2⟩⟩

theorem store_mem {i : Nat} : .store i ∈ run ↔ i < b.numElems ∧ ∃ slot, b.slotOf i = some slot := by
  rw [h.perm.mem_iff, mem_flatMap]
  constructor
  · intro hmem
    obtain ⟨j, hj, hi⟩ := hmem
    obtain ⟨rfl, hslot⟩ := store_mem_rowActions.1 hi
    exact ⟨mem_range.1 hj, hslot⟩
  · intro hi
    exact ⟨i, mem_range.2 hi.1, store_mem_rowActions.2 ⟨rfl, hi.2⟩⟩

/-- The rows that take a place of a slot are the rows of the slot. -/
theorem granted_perm (hb : b.Covered) (s : Nat) : (granted run s).Perm (b.rowsOf s) := by
  have hnodup : (granted run s).Nodup := by
    apply h.nodup.filterMap
    intro a a' i ha ha'
    cases a with
    | take j slot =>
      cases a' with
      | take j' slot' =>
        simp only [mem_def, ite_none_right_eq_some, some.injEq] at ha ha'
        rw [ha.1, ha.2, ha'.1, ha'.2]
      | store j' => cases ha'
    | store j => cases ha
  apply (perm_ext_iff_of_nodup hnodup (nodup_rowsOf s)).2
  intro i
  rw [mem_granted, h.take_mem, hb.mem_rowsOf]

end

variable {l rest : List RowAction}

theorem length_granted_le (h : b.Complete run) (hb : b.Covered) (hrun : l ++ rest = run) (s : Nat) :
    (granted l s).length ≤ b.total s := by
  have hsub : (granted l s).Sublist (granted run s) := by
    rw [← hrun]
    exact (sublist_append_left l rest).filterMap _
  calc (granted l s).length ≤ (granted run s).length := hsub.length_le
    _ = b.total s := (h.granted_perm hb s).length_eq

/-- A row that stores has taken its place before. -/
theorem taken_of_stored (h : b.Complete run) (hrun : l ++ rest = run) {i : Nat}
    (hi : .store i ∈ l) : ∃ slot, b.slotOf i = some slot ∧ .take i slot ∈ l := by
  have hmem : .store i ∈ run := hrun ▸ mem_append_left rest hi
  obtain ⟨hlt, slot, hslot⟩ := h.store_mem.1 hmem
  have hpair := h.order i hlt
  rw [rowActions_eq_of_slot hslot] at hpair
  exact ⟨slot, hslot, mem_of_pair_sublist hpair h.nodup hrun hi⟩

end Complete

theorem granted_take (l : List RowAction) (i s s' : Nat) :
    granted (l ++ [.take i (s : Int)]) s'
      = if s' = s then granted l s' ++ [i] else granted l s' := by
  unfold granted
  by_cases h : s' = s
  · subst h
    simp
  · have hne : ¬((s : Int) = (s' : Int)) := by omega
    simp [h, hne]

/-- A place that is taken after `i` took one was taken before, or is the
one that `i` took. -/
theorem granted_take_cases {l : List RowAction} {s' k j : Nat}
    (h : (granted (l ++ [.take i (s : Int)]) s')[k]? = some j) : (granted l s')[k]? = some j
      ∨ s' = s ∧ k = (granted l s).length ∧ j = i := by
  rw [granted_take] at h
  split at h
  · rename_i heq
    subst heq
    rcases Nat.lt_or_ge k (granted l s').length with hk | hk
    · rw [getElem?_append_left hk] at h
      exact Or.inl h
    · rw [getElem?_append_right hk, getElem?_singleton] at h
      split at h
      · exact Or.inr ⟨rfl, by omega, (some.inj h).symm⟩
      · cases h
  · exact Or.inl h

theorem granted_store (l : List RowAction) (i s : Nat) :
    granted (l ++ [.store i]) s = granted l s := by
  unfold granted
  simp

/-- What the buffer is once `l` of the actions are taken: the counts are
the places taken, a row holds the place it took, and a row that has stored
is found there. -/
structure Progress (b : Build) (l : List RowAction) (st : RowState) : Prop where
  pos : ∀ s < b.hashEntryCount, st.buff.pos s = b.finalPos s
  count : ∀ s, st.buff.count s = (granted l s).length
  held : ∀ s k i, (granted l s)[k]? = some i →
    st.idBuffIdx i = some ((b.offset s + k : Nat) : Int)
  stored : ∀ s k i, (granted l s)[k]? = some i → .store i ∈ l →
    st.buff.ids (b.offset s + k) = i

section Steps

variable {run l rest : List RowAction} {st : RowState}

theorem rowStep_take {s : Nat} (i : Nat) (hs : s < b.hashEntryCount)
    (hvalid : st.buff.pos s ≠ invalidSlotVal) :
    b.rowStep st (.take i (s : Int)) = some {
      buff := { st.buff with
        count := update st.buff.count s (st.buff.count s + 1) }
      idBuffIdx := update st.idBuffIdx i
        (some (st.buff.count s + st.buff.pos s)) } := by
  simp [rowStep, index_natCast hs, hvalid]

theorem rowStep_store {i q : Nat} (hidx : st.idBuffIdx i = some (q : Int)) (hq : q < b.numElems) :
    b.rowStep st (.store i) = some { st with
      buff := { st.buff with ids := update st.buff.ids q i } } := by
  simp [rowStep, hidx, index_natCast hq]

theorem Progress.take (hp : b.Progress l st) (hb : b.Covered)
    (hc : b.Complete run) {i : Nat} {slot : Int} (hrun : l ++ .take i slot :: rest = run) :
    ∃ st', b.rowStep st (.take i slot) = some st'
      ∧ b.Progress (l ++ [.take i slot]) st' := by
  have hmem : .take i slot ∈ run := by
    rw [← hrun]
    exact mem_append_right l mem_cons_self
  obtain ⟨hlt, hslot⟩ := hc.take_mem.1 hmem
  obtain ⟨s, hs, rfl⟩ := hb.slotOf_range hslot
  have htotal : b.total s ≠ 0 := by
    apply Nat.ne_of_gt
    exact length_pos_of_mem (hb.mem_rowsOf.2 ⟨hlt, hslot⟩)
  have hpos : st.buff.pos s = (b.offset s : Int) := by
    rw [hp.pos s hs, finalPos, if_neg htotal]
  have hvalid : st.buff.pos s ≠ invalidSlotVal := by
    unfold invalidSlotVal
    omega
  -- the row has not taken a place before
  have hnodup := hc.nodup
  rw [← hrun] at hnodup
  have hfresh : RowAction.take i (s : Int) ∉ l := fun h =>
    disjoint_of_nodup_append hnodup h mem_cons_self
  have hother : ∀ s' k j : Nat, (granted l s')[k]? = some j → j ≠ i := by
    intro s' k j hj hji
    subst hji
    have htake := mem_granted.1 (mem_of_getElem? hj)
    have hrun' : RowAction.take j (s' : Int) ∈ run :=
      hrun ▸ mem_append_left _ htake
    have := (hc.take_mem.1 hrun').2.symm.trans hslot
    exact hfresh (some.inj this ▸ htake)
  refine ⟨_, rowStep_take i hs hvalid, ?_⟩
  constructor
  · exact hp.pos
  · intro s'
    simp only
    rw [granted_take]
    by_cases heq : s' = s
    · subst heq
      rw [update_self, if_pos rfl, length_append, hp.count]
      rfl
    · rw [update_of_ne heq, if_neg heq]
      exact hp.count s'
  · intro s' k j hj
    simp only
    rcases granted_take_cases hj with hold | ⟨rfl, rfl, rfl⟩
    · rw [update_of_ne (hother _ _ _ hold)]
      exact hp.held s' k j hold
    · rw [update_self, hpos, hp.count]
      congr 1
      omega
  · intro s' k j hj hstored
    have hstored' : RowAction.store j ∈ l := by
      rcases mem_append.1 hstored with h | h
      · exact h
      · simp at h
    rcases granted_take_cases hj with hold | ⟨rfl, rfl, rfl⟩
    · exact hp.stored s' k j hold hstored'
    · -- a row that has stored is not the one that takes its place now
      obtain ⟨slot', hslot', htake⟩ := hc.taken_of_stored hrun hstored'
      exact absurd (some.inj (hslot.symm.trans hslot') ▸ htake) hfresh

theorem Progress.store (hp : b.Progress l st) (hb : b.Covered)
    (hc : b.Complete run) {i : Nat} (hrun : l ++ .store i :: rest = run) :
    ∃ st', b.rowStep st (.store i) = some st'
      ∧ b.Progress (l ++ [.store i]) st' := by
  have hrun' : (l ++ [.store i]) ++ rest = run := by
    rw [append_assoc]
    exact hrun
  obtain ⟨slot, hslot, htake⟩ := hc.taken_of_stored hrun'
    (mem_append_right l mem_cons_self)
  obtain ⟨s, hs, rfl⟩ := hb.slotOf_range hslot
  have htaken : RowAction.take i (s : Int) ∈ l := by
    rcases mem_append.1 htake with h | h
    · exact h
    · simp at h
  obtain ⟨k, hk⟩ := getElem?_of_mem (mem_granted.2 htaken)
  have hbound : ∀ s' k' j, (granted l s')[k']? = some j → k' < b.total s' := by
    intro s' k' j hj
    exact Nat.lt_of_lt_of_le (List.getElem?_eq_some_iff.1 hj).1
      (hc.length_granted_le hb hrun s')
  have hplace : b.offset s + k < b.numElems := by
    have hlt := hbound s k i hk
    have hle := hb.offset_le (s + 1)
    rw [offset_succ] at hle
    omega
  refine ⟨_, rowStep_store (hp.held s k i hk) hplace, ?_⟩
  constructor
  · exact hp.pos
  · intro s'
    rw [granted_store]
    exact hp.count s'
  · intro s' k' j hj
    rw [granted_store] at hj
    exact hp.held s' k' j hj
  · intro s' k' j hj hstored
    rw [granted_store] at hj
    simp only
    by_cases hsame : b.offset s' + k' = b.offset s + k
    · obtain ⟨rfl, rfl⟩ := place_inj (hbound s' k' j hj) (hbound s k i hk) hsame
      rw [update_self]
      exact Option.some.inj (hk.symm.trans hj)
    · rw [update_of_ne hsame]
      apply hp.stored s' k' j hj
      rcases mem_append.1 hstored with h | h
      · exact h
      · -- the row that stores now holds one place only
        simp only [mem_singleton, RowAction.store.injEq] at h
        subst h
        have := Option.some.inj
          ((hp.held s' k' j hj).symm.trans (hp.held s k j hk))
        omega

end Steps

variable {run : List RowAction} {buff : Buff}

/-- Whatever the order of the actions, no step fails and the buffer is
what the actions taken so far say. -/
theorem runRows_progress (hb : b.Covered) (hc : b.Complete run)
    (hpos : ∀ s < b.hashEntryCount, buff.pos s = b.finalPos s)
    (hcount : ∀ s, buff.count s = 0) (l rest : List RowAction) (hrun : l ++ rest = run) :
    ∃ st, b.runRows buff l = some st ∧ b.Progress l st := by
  induction l using reverseRecOn generalizing rest with
  | nil =>
    refine ⟨_, rfl, hpos, hcount, ?_, ?_⟩
    · intro s k i hi
      cases hi
    · intro s k i hi
      cases hi
  | append_singleton l a ih =>
    have hrun' : l ++ a :: rest = run := by
      rw [← hrun, append_assoc]
      rfl
    obtain ⟨st, hst, hp⟩ := ih (a :: rest) hrun'
    have hstep : ∃ st', b.rowStep st a = some st'
        ∧ b.Progress (l ++ [a]) st' := by
      cases a with
      | take i slot => exact hp.take hb hc hrun'
      | store i => exact hp.store hb hc hrun'
    obtain ⟨st', hst', hp'⟩ := hstep
    refine ⟨st', ?_, hp'⟩
    unfold runRows at hst ⊢
    rw [foldlM_append, hst]
    simp [hst']

-- ======== the table

/-- Once every action is taken, the table is exact. -/
theorem Progress.exact {st : RowState} (hp : b.Progress run st)
    (hb : b.Covered) (hc : b.Complete run) : b.Exact st.buff := by
  have hcount : ∀ s, st.buff.count s = b.total s := by
    intro s
    rw [hp.count]
    exact (hc.granted_perm hb s).length_eq
  have hpos : ∀ s < b.hashEntryCount, ∀ k < st.buff.count s,
      st.buff.pos s = (b.offset s : Int) := by
    intro s hs k hk
    rw [hcount] at hk
    rw [hp.pos s hs, finalPos, if_neg (by omega)]
  have hsegment : ∀ s < b.hashEntryCount,
      segment st.buff s = granted run s := by
    intro s hs
    unfold segment
    apply ext_getElem
    · rw [length_map, length_range, hp.count]
    · intro k hk hk'
      rw [length_map, length_range] at hk
      rw [getElem_map, getElem_range, hpos s hs k hk]
      have hget : (granted run s)[k]? = some (granted run s)[k] :=
        getElem?_eq_getElem hk'
      have htake := mem_granted.1 (mem_of_getElem? hget)
      obtain ⟨hlt, hslot⟩ := hc.take_mem.1 htake
      exact hp.stored s k _ hget (hc.store_mem.2 ⟨hlt, _, hslot⟩)
  constructor
  · intro s hs
    rw [hsegment s hs]
    exact hc.granted_perm hb s
  · intro s hs k hk
    have hle := hb.offset_le (s + 1)
    rw [offset_succ] at hle
    rw [hpos s hs k hk]
    rw [hcount] at hk
    omega
  · intro s hs s' hs' hne k hk k' hk' h
    rw [hpos s hs k hk, hpos s' hs' k' hk'] at h
    rw [hcount] at hk hk'
    exact hne (place_inj hk hk' (by omega)).1
  · intro s hs hempty
    rw [hp.pos s hs, finalPos, if_pos]
    unfold total
    rw [hempty]
    rfl

theorem Covered.fill_exact (hb : b.Covered) {counting : List Int}
    {positioning : List Nat} {scattering : List RowAction} (hcounting : Interleaves
      ((List.range b.cpuThreadCount).map b.countMatches) counting)
    (hpositioning : Interleaves ((List.range b.cpuThreadCount).map
      (strided b.cpuThreadCount b.hashEntryCount)) positioning)
    (hscattering : Interleaves
      ((List.range b.cpuThreadCount).map b.fillRowIds) scattering) :
    ∃ buff, b.fill counting positioning scattering = some buff
      ∧ b.Exact buff := by
  have hc := hb.complete hscattering
  have hpos : ∀ s < b.hashEntryCount, _ = b.finalPos s :=
    fun s hs => hb.runPositions_eq hpositioning hs
  unfold fill
  rw [hb.runCounts_eq hcounting, bind_eq_bind, bind_some]
  simp only
  generalize runPositions b.total _ Buff.init.pos positioning = pos at hpos ⊢
  obtain ⟨st, hst, hp⟩ := @runRows_progress b scattering
    ⟨pos, Buff.init.count, Buff.init.ids⟩ hb hc hpos (fun _ => rfl) scattering
    [] (append_nil _)
  exact ⟨st.buff, by rw [hst]; rfl, hp.exact hb hc⟩

/-- A counter past its end is undefined, under every schedule. -/
theorem Covered.not_fillsExactly (hb : b.Covered) (hfit : ¬b.LoopsFit) :
    ¬b.FillsExactly := by
  intro h
  obtain ⟨buff, hbuff, _⟩ := h.2 none (.overflow (hb.posLoops_eq_none hfit))
  cases hbuff

/-- The fill ends with an exact table under every schedule just when no
counter of the position loops goes past the end of an `int`. -/
theorem fillsExactly_iff (b : Build) (hb : b.Covered) :
    b.FillsExactly ↔ b.LoopsFit := by
  constructor
  · intro h
    by_contra hfit
    exact hb.not_fillsExactly hfit h
  · intro hfit
    have hloops := posLoops_eq_some hfit
    constructor
    · exact ⟨_, .run hloops (interleaves_flatten _) (interleaves_flatten _)
        (interleaves_flatten _)⟩
    · intro outcome houtcome
      cases houtcome with
      | overflow hnone =>
        rw [hloops] at hnone
        cases hnone
      | run hloops' hcounting hpositioning hscattering =>
        rw [hloops] at hloops'
        obtain rfl := Option.some.inj hloops'
        exact hb.fill_exact hcounting hpositioning hscattering

/-- Five rows of strings, one of them null, in a null-safe join: the outer
dictionary has the strings the other way round, and one not at all. -/
def strings : Build where
  elems := [0, 1, -128, 0, 2]
  nullVal := -128
  usesBwEq := true
  proxies := some {
    getString := fun id => if id = 0 then "a" else if id = 1 then "b" else "c"
    getIdOfString := fun s => if s = "b" then 0 else if s = "a" then 1 else -1 }
  minVal := 0
  maxVal := 2
  cpuThreadCount := 2

theorem strings_covered : strings.Covered where
  values := by simp [strings]
  outerIds := by
    intro p hp
    obtain rfl := some.inj hp
    simp [strings, invalidStrId]
  range := by simp [strings]
  entries := by decide
  rows := by decide
  threads := by decide

theorem strings_fillsExactly :
    strings.Covered ∧ (strings.FillsExactly ↔ strings.LoopsFit)
      ∧ strings.LoopsFit :=
  ⟨strings_covered, fillsExactly_iff strings strings_covered, by decide⟩

/-- Two rows, at the ends of the largest range that the callers let pass. -/
def wide : Build where
  elems := [0, 2147483646]
  nullVal := -2147483648
  usesBwEq := false
  proxies := none
  minVal := 0
  maxVal := 2147483646
  cpuThreadCount := 2

theorem wide_covered : wide.Covered where
  values := by simp [wide]
  outerIds := by
    intro p hp
    cases hp
  range := by simp [wide]
  entries := by decide
  rows := by decide
  threads := by decide

/-- The thread of the last slot goes past the end of its counter. -/
theorem wide_overflows : wide.Covered ∧ ¬wide.FillsExactly :=
  ⟨wide_covered, wide_covered.not_fillsExactly (by decide)⟩

end Build

end Compass.HashTable.OneToMany
