/-
The streaming top-k heap holds the k best keys of its thread.

# Plan

A sift only exchanges elements of the heap, so it changes no key and permutes
the row numbers (`Sifted`); that it ends with the heap in order is an
induction over its steps, on the order around the hole.

A call keeps `Kept`: the heap is a permutation of the rows in use, in order,
and their keys are best ones of the keys so far. The run is an induction from
the last call back.
-/
import Compass.TopN.TopKRuntime
import Mathlib.Data.List.Induction
import Mathlib.Tactic.Ring

namespace Compass.TopN

open HeapOrder List
open Memory Layout

-- ======== comparison

namespace KeyComparator

variable {K : Type} [LinearOrder K] {c : KeyComparator K} {x y z : K}

theorem AtMost.refl (x : K) : c.AtMost x x := by
  obtain ⟨order, nulls, nullKey, placement⟩ := c
  cases order <;> cases nulls <;> cases placement <;> simp [AtMost] <;> tauto

theorem AtMost.trans (hxy : c.AtMost x y) (hyz : c.AtMost y z) : c.AtMost x z := by
  obtain ⟨order, nulls, nullKey, placement⟩ := c
  cases order <;> cases nulls <;> cases placement <;> simp only [AtMost] at * <;> grind

theorem AtMost.of_compare (h : c.compare x y = true) : c.AtMost x y := by
  obtain ⟨order, nulls, nullKey, placement⟩ := c
  cases order <;> cases nulls <;> cases placement <;> simp only [AtMost, compare] at * <;> grind

theorem AtMost.of_not_compare (h : ¬ c.compare x y = true) : c.AtMost y x := by
  obtain ⟨order, nulls, nullKey, placement⟩ := c
  cases order <;> cases nulls <;> cases placement <;> simp only [AtMost, compare] at * <;> grind

end KeyComparator

-- ======== sifts

section

variable {K : Type} {mem mem' mem'' : Memory K} {heap n : Nat}

/-- Elements of the heap have changed places, and nothing else has changed. -/
structure Sifted (heap n : Nat) (mem mem' : Memory K) : Prop where
  key : mem'.key = mem.key
  frame : ∀ a, (∀ i < n, a ≠ heap + i) → mem'.quad a = mem.quad a
  perm : ((List.range n).map fun i => mem'.quad (heap + i)).Perm
    ((List.range n).map fun i => mem.quad (heap + i))

theorem Sifted.refl : Sifted heap n mem mem :=
  ⟨rfl, fun _ _ => rfl, .refl _⟩

theorem Sifted.trans (h : Sifted heap n mem mem') (h' : Sifted heap n mem' mem'') :
    Sifted heap n mem mem'' where
  key := h'.key.trans h.key
  frame a ha := (h'.frame a ha).trans (h.frame a ha)
  perm := h'.perm.trans h.perm

theorem exchangeNodes_quad (mem : Memory K) (i j : Nat) :
    (fun x => (exchangeNodes heap mem i j).quad (heap + x))
      = exchange (fun x => mem.quad (heap + x)) i j := by
  funext x
  by_cases hj : x = j
  · subst hj
    simp [exchangeNodes, setQuad]
  by_cases hi : x = i
  · subst hi
    simp [exchangeNodes, setQuad, hj]
  · simp [exchangeNodes, setQuad, hi, hj, exchange_of_ne hi hj]

theorem exchangeNodes_sifted (mem : Memory K) {i j : Nat} (hi : i < n) (hj : j < n) :
    Sifted heap n mem (exchangeNodes heap mem i j) where
  key := rfl
  frame a ha := by simp [exchangeNodes, setQuad, ha i hi, ha j hj]
  perm := by
    rw [exchangeNodes_quad]
    exact exchange_perm _ hi hj

variable (accessor : KeyAccessor)

/-- The key of an element of the heap. -/
def element (heap : Nat) (mem : Memory K) (i : Nat) : K :=
  accessor.get mem (mem.quad (heap + i))

theorem element_exchangeNodes (mem : Memory K) (i j : Nat) :
    element accessor heap (exchangeNodes heap mem i j)
      = exchange (element accessor heap mem) i j := by
  funext x
  have hquad : (exchangeNodes heap mem i j).quad (heap + x)
      = exchange (fun x => mem.quad (heap + x)) i j x :=
    congrFun (exchangeNodes_quad mem i j) x
  simp only [element, hquad]
  rfl

variable {accessor} {compare : K → K → Bool} {le : K → K → Prop}

theorem siftUp_spec (compare : K → K → Bool) (htrans : ∀ x y z, le x y → le y z → le x z)
    (htrue : ∀ x y, compare x y = true → le x y)
    (hfalse : ∀ x y, ¬ compare x y = true → le y x) (mem : Memory K) (i : Nat) (hin : i < n)
    (h : UpOrdered le (element accessor heap mem) n i) :
    Sifted heap n mem (siftUp compare accessor heap mem i)
      ∧ Ordered le (element accessor heap (siftUp compare accessor heap mem i)) n := by
  fun_induction siftUp compare accessor heap mem i with
  | case1 mem i hpos parent currKey parentKey hcompare =>
    exact ⟨.refl, h.finish fun _ => htrue _ _ hcompare⟩
  | case2 mem i hpos parent currKey parentKey hcompare ih =>
    have hparent : parent < n := lt_trans (parent_lt hpos) hin
    have hswap := h.swap htrans hpos hin (hfalse _ _ hcompare)
    rw [← element_exchangeNodes] at hswap
    obtain ⟨hsifted, hordered⟩ := ih hparent hswap
    exact ⟨(exchangeNodes_sifted mem hin hparent).trans hsifted, hordered⟩
  | case3 mem i hpos =>
    exact ⟨.refl, h.finish fun h => absurd h hpos⟩

/-- The candidate is a child whose key no child's key is below. -/
theorem candidateIdx_spec (hrefl : ∀ x, le x x) (htrue : ∀ x y, compare x y = true → le x y)
    (hfalse : ∀ x y, ¬ compare x y = true → le y x) {mem : Memory K} {i c : Nat}
    (hc : candidateIdx compare accessor heap mem n i = c) (hlt : c < n) :
    0 < c ∧ parent c = i ∧ ∀ c', 0 < c' → c' < n → parent c' = i →
      le (element accessor heap mem c) (element accessor heap mem c') := by
  subst hc
  have hsides : ∀ c', 0 < c' → parent c' = i → c' = 2 * i + 1 ∨ c' = 2 * i + 2 := by
    unfold parent
    omega
  simp only [candidateIdx] at hlt ⊢
  split_ifs at hlt ⊢ with hleft hright hcompare
  · rw [min_eq_left (by omega)] at hcompare ⊢
    rw [min_eq_left (by omega)] at hcompare
    refine ⟨by omega, by unfold parent; omega, fun c' hpos hn hup => ?_⟩
    rcases hsides c' hpos hup with rfl | rfl
    · exact hrefl _
    · exact htrue _ _ hcompare
  · rw [min_eq_left (by omega), min_eq_left (by omega)] at hcompare
    rw [min_eq_left (by omega)]
    refine ⟨by omega, by unfold parent; omega, fun c' hpos hn hup => ?_⟩
    rcases hsides c' hpos hup with rfl | rfl
    · exact hfalse _ _ hcompare
    · exact hrefl _
  · rw [min_eq_left (by omega)]
    refine ⟨by omega, by unfold parent; omega, fun c' hpos hn hup => ?_⟩
    rcases hsides c' hpos hup with rfl | rfl
    · exact hrefl _
    · omega
  · omega

theorem candidateIdx_eq_last {mem : Memory K} {i : Nat}
    (h : ¬ candidateIdx compare accessor heap mem n i < n) (c : Nat) (hpos : 0 < c) (hn : c < n) :
    parent c ≠ i := by
  intro hup
  refine h ?_
  have hsides : c = 2 * i + 1 ∨ c = 2 * i + 2 := by
    unfold parent at hup
    omega
  simp only [candidateIdx]
  split_ifs <;> omega

theorem siftDown_spec (compare : K → K → Bool) (hrefl : ∀ x, le x x)
    (htrans : ∀ x y z, le x y → le y z → le x z) (htrue : ∀ x y, compare x y = true → le x y)
    (hfalse : ∀ x y, ¬ compare x y = true → le y x) (mem : Memory K) (i : Nat)
    (h : DownOrdered le (element accessor heap mem) n i) :
    Sifted heap n mem (siftDown compare accessor heap mem n i)
      ∧ Ordered le (element accessor heap (siftDown compare accessor heap mem n i)) n := by
  fun_induction siftDown compare accessor heap mem n i with
  | case1 mem i hin candidate hcandidate currKey candidateKey hcompare =>
    obtain ⟨-, -, hmin⟩ := candidateIdx_spec hrefl htrue hfalse rfl hcandidate
    refine ⟨.refl, h.finish fun c hpos hn hup => ?_⟩
    exact htrans _ _ _ (htrue _ _ hcompare) (hmin c hpos hn hup)
  | case2 mem i hin candidate hcandidate currKey candidateKey hcompare ih =>
    obtain ⟨hpos, hup, hmin⟩ := candidateIdx_spec hrefl htrue hfalse rfl hcandidate
    have hswap := h.swap hpos hcandidate hup (hfalse _ _ hcompare) hmin
    rw [← element_exchangeNodes] at hswap
    obtain ⟨hsifted, hordered⟩ := ih hswap
    exact ⟨(exchangeNodes_sifted mem hin hcandidate).trans hsifted, hordered⟩
  | case3 mem i hin candidate hcandidate =>
    refine ⟨.refl, h.finish fun c hpos hn hup => ?_⟩
    exact absurd hup (candidateIdx_eq_last hcandidate c hpos hn)
  | case4 mem i hin =>
    refine ⟨.refl, h.finish fun c hpos hn hup => ?_⟩
    have hlt := hup ▸ parent_lt hpos
    omega

end

-- ======== layout

namespace Layout

variable {K : Type} (L : Layout) {mem mem' : Memory K}

theorem heap_before : L.threadGlobalIndex * L.k + L.k ≤ L.threadCount * L.k := by
  rw [← Nat.succ_mul]
  exact Nat.mul_le_mul_right _ L.index_lt

theorem heapPtr_eq : L.heapPtr = L.threadCount + L.threadGlobalIndex * L.k := by
  have hbefore := L.heap_before
  have hfit := L.heaps_fit
  rw [heapPtr, Nat.mod_eq_of_lt (by omega)]

theorem count_ne_heap (i : Nat) : L.threadGlobalIndex ≠ L.heapPtr + i := by
  have hlt := L.index_lt
  have hptr := L.heapPtr_eq
  omega

theorem row_ne_count (a : Nat) : L.rowsPtr + a ≠ L.threadGlobalIndex := by
  have hlt := L.index_lt
  unfold rowsPtr
  omega

theorem row_ne_heap (a : Nat) {i : Nat} (hi : i < L.k) : L.rowsPtr + a ≠ L.heapPtr + i := by
  have hbefore := L.heap_before
  have hptr := L.heapPtr_eq
  have hfit := Nat.mod_eq_of_lt L.heaps_fit
  unfold rowsPtr
  omega

theorem count_setRow (mem : Memory K) (bin value : Nat) :
    L.count (mem.setQuad (L.rowsPtr + bin * L.rowSizeQuad) value) = L.count mem :=
  if_neg (L.row_ne_count _).symm

theorem rowSizeQuad_pos : 0 < L.rowSizeQuad := by
  have hbehind := L.key_behind
  have hinside := L.key_inside
  omega

/-- The accessor and `push_heap` agree about where the key of a row is. -/
theorem accessor_get (bin : Nat) : L.accessor.get mem bin = L.rowKey mem bin := by
  have hkey : L.keySize * (L.keyOffset / L.keySize) = L.keyOffset :=
    Nat.mul_div_cancel' L.key_aligned
  have haddr : 8 * L.rowsPtr + L.rowSizeQuad * 8 * bin + L.keyOffset
      = 8 * (L.rowsPtr + bin * L.rowSizeQuad) + L.keyOffset := by ring
  simp only [KeyAccessor.get, accessor, hkey, haddr, rowKey]

theorem element_eq (i : Nat) :
    element L.accessor L.heapPtr mem i = L.rowKey mem (L.node mem i) :=
  L.accessor_get _

theorem rowKey_setKey (mem : Memory K) (bin b : Nat) (x : K) :
    L.rowKey (mem.setKey (8 * (L.rowsPtr + bin * L.rowSizeQuad) + L.keyOffset) x) b
      = if b = bin then x else L.rowKey mem b := by
  have hpos := L.rowSizeQuad_pos
  have haddr : 8 * (L.rowsPtr + b * L.rowSizeQuad) + L.keyOffset
      = 8 * (L.rowsPtr + bin * L.rowSizeQuad) + L.keyOffset ↔ b = bin := by
    constructor
    · intro h
      exact Nat.eq_of_mul_eq_mul_right hpos (by omega)
    · rintro rfl
      rfl
  simp only [rowKey, setKey, haddr]

variable {n : Nat} (h : Sifted L.heapPtr n mem mem')
include h

/-- A sift changes no key and not the count, and permutes the nodes. -/
theorem sifted_count : L.count mem' = L.count mem :=
  h.frame _ fun i _ => L.count_ne_heap i

theorem sifted_rowKey (bin : Nat) : L.rowKey mem' bin = L.rowKey mem bin := by
  simp only [rowKey, h.key]

end Layout

-- ======== before the sifts

section

variable {K : Type} (L : Layout) (mem : Memory K) (x : K)

/-- The memory in which `push_heap` sifts. -/
def pushed : Memory K :=
  ((mem.setQuad L.threadGlobalIndex (L.count mem + 1)).setQuad (L.heapPtr + L.count mem)
    (L.count mem)).setKey (8 * (L.rowsPtr + L.count mem * L.rowSizeQuad) + L.keyOffset) x

theorem pushHeap_eq (compare : K → K → Bool) :
    pushHeap compare L.accessor L.heapPtr L.threadGlobalIndex L.rowsPtr L.rowSizeQuad L.keyOffset
      mem x = siftUp compare L.accessor L.heapPtr (pushed L mem x) (L.count mem) :=
  rfl

theorem count_pushed :
    L.count (pushed L mem x) = L.count mem + 1 := by
  simp [pushed, Layout.count, setQuad, setKey, L.count_ne_heap]

theorem node_pushed_last :
    L.node (pushed L mem x) (L.count mem) = L.count mem := by
  simp [pushed, Layout.node, setQuad, setKey]

theorem node_pushed {i : Nat} (hi : i < L.count mem) :
    L.node (pushed L mem x) i = L.node mem i := by
  have hne := (L.count_ne_heap i).symm
  simp [pushed, Layout.node, setQuad, setKey, hne, ne_of_lt hi]

theorem rowKey_pushed (bin : Nat) :
    L.rowKey (pushed L mem x) bin = if bin = L.count mem then x else L.rowKey mem bin :=
  L.rowKey_setKey _ _ _ _

theorem keptKeys_pushed :
    (L.keptKeys (pushed L mem x) : Multiset K) = x ::ₘ (L.keptKeys mem : Multiset K) := by
  have hmap : (range (L.count mem)).map (L.rowKey (pushed L mem x)) = L.keptKeys mem := by
    refine map_congr_left fun bin hbin => ?_
    rw [rowKey_pushed, if_neg (ne_of_lt (mem_range.1 hbin))]
  rw [keptKeys, count_pushed, range_succ, map_append, hmap, map_singleton,
    rowKey_pushed, if_pos rfl, Multiset.cons_coe, Multiset.coe_eq_coe]
  exact perm_append_singleton x _

/-- The memory in which `pop_and_push_heap` sifts. -/
def replaced : Memory K :=
  mem.setKey (8 * (L.rowsPtr + L.node mem 0 * L.rowSizeQuad) + L.keyOffset) x

theorem popAndPushHeap_eq (compare : K → K → Bool) :
    popAndPushHeap compare L.accessor L.heapPtr (L.count mem) L.rowsPtr L.rowSizeQuad L.keyOffset
      mem x = if compare x (L.rowKey mem (L.node mem 0)) then (mem, false)
        else (siftDown compare L.accessor L.heapPtr (replaced L mem x) (L.count mem) 0, true) :=
  rfl

theorem rowKey_replaced (bin : Nat) :
    L.rowKey (replaced L mem x) bin = if bin = L.node mem 0 then x else L.rowKey mem bin :=
  L.rowKey_setKey _ _ _ _

end

-- ======== invariant

section

variable {K : Type} [LinearOrder K] (L : Layout) (c : KeyComparator K)

/-- What holds between the calls, of the keys so far. -/
structure Kept (seen : Multiset K) (mem : Memory K) : Prop where
  permutation : ((List.range (L.count mem)).map (L.node mem)).Perm (List.range (L.count mem))
  ordered : Ordered c.AtMost (element L.accessor L.heapPtr mem) (L.count mem)
  best : Best c.AtMost L.k seen (L.keptKeys mem)

variable {L c} {seen : Multiset K} {mem mem' : Memory K} {x : K}

section

variable (h : Kept L c seen mem)
include h

theorem Kept.count_eq : L.count mem = min L.k seen.card := by
  obtain ⟨rest, -, hcard, -⟩ := h.best
  simpa [keptKeys] using hcard

theorem Kept.node_lt {i : Nat} (hi : i < L.count mem) : L.node mem i < L.count mem := by
  have hmem := h.permutation.mem_iff (a := L.node mem i)
  rw [mem_range] at hmem
  exact hmem.1 (mem_map.2 ⟨i, mem_range.2 hi, rfl⟩)

theorem Kept.node_surjective {bin : Nat} (hbin : bin < L.count mem) :
    ∃ i < L.count mem, L.node mem i = bin := by
  have hmem := h.permutation.mem_iff.2 (mem_range.2 hbin)
  simpa using hmem

theorem Kept.node_injective {i j : Nat} (hi : i < L.count mem)
    (hj : j < L.count mem) (hij : L.node mem i = L.node mem j) : i = j := by
  have hnodup := h.permutation.nodup_iff.2 nodup_range
  exact inj_on_of_nodup_map hnodup (mem_range.2 hi) (mem_range.2 hj) hij

/-- The root is a worst row. -/
theorem Kept.root_worst {bin : Nat} (hbin : bin < L.count mem) :
    c.AtMost (L.rowKey mem (L.node mem 0)) (L.rowKey mem bin) := by
  obtain ⟨i, hi, rfl⟩ := h.node_surjective hbin
  have hroot := h.ordered.root_le .refl (fun _ _ _ => .trans) i hi
  rwa [L.element_eq, L.element_eq] at hroot

/-- The kept keys in the order of the heap. -/
theorem Kept.keptKeys_perm (key : Nat → K) :
    ((range (L.count mem)).map fun i => key (L.node mem i)).Perm
      ((range (L.count mem)).map key) := by
  have hmap := h.permutation.map key
  rwa [map_map] at hmap

omit h in
theorem Kept.init (hcount : L.count mem = 0) : Kept L c 0 mem where
  permutation := by simp [hcount]
  ordered i hpos hlt := by omega
  best := by
    rw [keptKeys, hcount]
    exact .zero

/-- The first quadword of a row is no part of this. -/
theorem Kept.setRow (bin value : Nat) :
    Kept L c seen (mem.setQuad (L.rowsPtr + bin * L.rowSizeQuad) value) := by
  have hcount := L.count_setRow mem bin value
  have hnode : ∀ i < L.count mem,
      L.node (mem.setQuad (L.rowsPtr + bin * L.rowSizeQuad) value) i = L.node mem i := by
    intro i hi
    have hk : i < L.k := by
      rw [h.count_eq] at hi
      omega
    exact if_neg (L.row_ne_heap _ hk).symm
  constructor
  · rw [hcount]
    have hmap := map_congr_left fun i hi => hnode i (mem_range.1 hi)
    rw [hmap]
    exact h.permutation
  · intro i hpos hlt
    rw [hcount] at hlt
    have hparent := parent_lt hpos
    have horder := h.ordered i hpos hlt
    rw [L.element_eq, L.element_eq] at horder ⊢
    rw [hnode i hlt, hnode _ (by omega)]
    exact horder
  · rw [keptKeys, hcount]
    exact h.best

omit h in
/-- A sift that ends in order, after a change that the claim of `best` is for. -/
theorem Kept.of_sifted (hsifted : Sifted L.heapPtr (L.count mem) mem mem')
    (hpermutation : ((range (L.count mem)).map (L.node mem)).Perm
      (range (L.count mem)))
    (hordered : Ordered c.AtMost (element L.accessor L.heapPtr mem') (L.count mem))
    (hbest : Best c.AtMost L.k seen (L.keptKeys mem)) : Kept L c seen mem' := by
  have hcount := L.sifted_count hsifted
  have hkeys : L.keptKeys mem' = L.keptKeys mem := by
    rw [keptKeys, keptKeys, hcount]
    exact map_congr_left fun bin _ => L.sifted_rowKey hsifted bin
  constructor
  · rw [hcount]
    exact hsifted.perm.trans hpermutation
  · rwa [hcount]
  · rwa [hkeys]

-- ======== a call

theorem pushHeap_kept (hroom : L.count mem < L.k) (x : K)
    (hpushed : pushHeap c.compare L.accessor L.heapPtr L.threadGlobalIndex L.rowsPtr
      L.rowSizeQuad L.keyOffset mem x = mem') :
    Kept L c (x ::ₘ seen) mem' ∧ L.count mem' = L.count mem + 1
      ∧ L.rowKey mem' (L.count mem) = x := by
  rw [pushHeap_eq] at hpushed
  have hsame : ∀ i < L.count mem, element L.accessor L.heapPtr (pushed L mem x) i
      = element L.accessor L.heapPtr mem i := by
    intro i hi
    rw [L.element_eq, L.element_eq, node_pushed L mem x hi, rowKey_pushed,
      if_neg (ne_of_lt (h.node_lt hi))]
  obtain ⟨hsifted, hordered⟩ := siftUp_spec c.compare (fun _ _ _ => .trans)
    (fun _ _ => .of_compare) (fun _ _ => .of_not_compare) (pushed L mem x) (L.count mem)
    (Nat.lt_add_one _) (h.ordered.push hsame)
  rw [hpushed, ← count_pushed L mem x] at hsifted hordered
  refine ⟨.of_sifted hsifted ?_ hordered ?_, ?_, ?_⟩
  · rw [count_pushed, range_succ, map_append, map_singleton, node_pushed_last]
    have hmap := map_congr_left fun i hi => node_pushed L mem x (mem_range.1 hi)
    rw [hmap]
    exact h.permutation.append_right _
  · rw [keptKeys_pushed]
    refine h.best.push ?_
    simpa [keptKeys] using hroom
  · rw [L.sifted_count hsifted, count_pushed]
  · rw [L.sifted_rowKey hsifted, rowKey_pushed, if_pos rfl]

/-- The keys of the root and of the rest of the heap. -/
theorem Kept.keptKeys_eq (mem' : Memory K) {n : Nat}
    (hcount : L.count mem = n + 1) (hsame : L.count mem' = L.count mem) :
    (L.keptKeys mem' : Multiset K) = L.rowKey mem' (L.node mem 0)
      ::ₘ (((range n).map fun i => L.rowKey mem' (L.node mem (i + 1))) : Multiset K) := by
  have hperm := h.keptKeys_perm (L.rowKey mem')
  rw [hcount] at hperm
  rw [Multiset.cons_coe, Multiset.coe_eq_coe, keptKeys, hsame, hcount]
  refine hperm.symm.trans ?_
  rw [range_succ_eq_map, map_cons, map_map]
  exact .refl _

theorem popAndPushHeap_kept (hfull : L.count mem = L.k) (x : K)
    (haccept : ¬ c.compare x (L.rowKey mem (L.node mem 0)) = true)
    (hpushed : siftDown c.compare L.accessor L.heapPtr (replaced L mem x) (L.count mem) 0 = mem') :
    Kept L c (x ::ₘ seen) mem' ∧ L.count mem' = L.count mem
      ∧ L.rowKey mem' (L.node mem 0) = x := by
  obtain ⟨n, hn⟩ : ∃ n, L.count mem = n + 1 := ⟨L.count mem - 1, by have := L.k_pos; omega⟩
  have hother : ∀ i < n, L.rowKey (replaced L mem x) (L.node mem (i + 1))
      = L.rowKey mem (L.node mem (i + 1)) := by
    intro i hi
    rw [rowKey_replaced, if_neg]
    intro hroot
    have hzero := h.node_injective (by omega) (by omega) hroot
    omega
  have hsame : ∀ i, 0 < i → i < L.count mem →
      element L.accessor L.heapPtr (replaced L mem x) i
        = element L.accessor L.heapPtr mem i := by
    intro i hpos hi
    obtain ⟨j, rfl⟩ : ∃ j, i = j + 1 := ⟨i - 1, by omega⟩
    rw [L.element_eq, L.element_eq]
    exact hother j (by omega)
  obtain ⟨hsifted, hordered⟩ := siftDown_spec c.compare .refl (fun _ _ _ => .trans)
    (fun _ _ => .of_compare) (fun _ _ => .of_not_compare) (replaced L mem x) 0
    (h.ordered.replace hsame)
  have hcount : L.count (replaced L mem x) = L.count mem := rfl
  rw [hpushed, ← hcount] at hsifted hordered
  refine ⟨.of_sifted hsifted h.permutation hordered ?_, ?_, ?_⟩
  · have hrest := map_congr_left fun i hi => hother i (mem_range.1 hi)
    have hbest := h.best
    rw [h.keptKeys_eq mem hn rfl] at hbest
    have hkeys := h.keptKeys_eq (replaced L mem x) hn rfl
    rw [rowKey_replaced, if_pos rfl, hrest] at hkeys
    rw [hkeys]
    refine hbest.accept (fun _ _ _ => .trans) ?_ ?_ (.of_not_compare haccept)
    · rw [Multiset.coe_card, length_map, length_range]
      omega
    · intro z hz
      obtain ⟨i, hi, rfl⟩ := mem_map.1 (Multiset.mem_coe.1 hz)
      exact h.root_worst (h.node_lt (by have := mem_range.1 hi; omega))
  · exact (L.sifted_count hsifted).trans hcount
  · rw [L.sifted_rowKey hsifted, rowKey_replaced, if_pos rfl]

end

/-- A call when there is no room. -/
theorem getBinFromKHeap_full {minHeap hasNull nullsFirst : Bool} {nullKey : K}
    (hroom : ¬ L.count mem < L.k) :
    getBinFromKHeap L minHeap hasNull nullsFirst nullKey mem x
      = if (comparator minHeap hasNull nullsFirst nullKey).compare x
          (L.rowKey mem (L.node mem 0)) then (mem, none)
        else ((siftDown (comparator minHeap hasNull nullsFirst nullKey).compare L.accessor
            L.heapPtr (replaced L mem x) (L.count mem) 0).setQuad
              (L.rowsPtr + L.node mem 0 * L.rowSizeQuad) (L.node mem 0),
          some (L.rowsPtr + L.node mem 0 * L.rowSizeQuad + 1)) := by
  have hpop := popAndPushHeap_eq L mem x (comparator minHeap hasNull nullsFirst nullKey).compare
  change ¬ mem.quad L.threadGlobalIndex < L.k at hroom
  simp only [Layout.count] at hpop
  simp only [getBinFromKHeap, if_neg hroom, hpop]
  split
  · rfl
  · rfl

section

variable {minHeap hasNull nullsFirst : Bool} {nullKey : K}
  (hc : comparator minHeap hasNull nullsFirst nullKey = c)
include hc

/-- What one call does for the key that it is called with: nothing, or the key
is in the row that it returns. -/
theorem getBinFromKHeap_kept (h : Kept L c seen mem) (x : K) :
    Kept L c (x ::ₘ seen) (getBinFromKHeap L minHeap hasNull nullsFirst nullKey mem x).1
      ∧ L.Stored x mem (getBinFromKHeap L minHeap hasNull nullsFirst nullKey mem x).1
        (getBinFromKHeap L minHeap hasNull nullsFirst nullKey mem x).2 := by
  subst hc
  have hcount := h.count_eq
  by_cases hroom : L.count mem < L.k
  · generalize hpushed : pushHeap (comparator minHeap hasNull nullsFirst nullKey).compare
      L.accessor L.heapPtr L.threadGlobalIndex L.rowsPtr L.rowSizeQuad L.keyOffset mem x = mem'
    obtain ⟨hkept, hsame, hkey⟩ := pushHeap_kept h hroom x hpushed
    have hlast : mem'.quad L.threadGlobalIndex - 1 = L.count mem := by
      rw [show mem'.quad L.threadGlobalIndex = L.count mem + 1 from hsame]
      rfl
    have hcall : getBinFromKHeap L minHeap hasNull nullsFirst nullKey mem x
        = (mem'.setQuad (L.rowsPtr + L.count mem * L.rowSizeQuad) (L.count mem),
          some (L.rowsPtr + L.count mem * L.rowSizeQuad + 1)) := by
      rw [getBinFromKHeap]
      simp only [hpushed, hlast]
      exact if_pos hroom
    rw [hcall]
    refine ⟨hkept.setRow _ _, L.count mem, ?_, rfl, hkey, ?_⟩
    · rw [L.count_setRow, hsame]
      exact Nat.lt_add_one _
    · exact if_pos rfl
  have hfull : L.count mem = L.k := by omega
  by_cases hreject : (comparator minHeap hasNull nullsFirst nullKey).compare x
      (L.rowKey mem (L.node mem 0)) = true
  · have hcall : getBinFromKHeap L minHeap hasNull nullsFirst nullKey mem x = (mem, none) := by
      rw [getBinFromKHeap_full hroom, if_pos hreject]
    rw [hcall]
    refine ⟨⟨h.permutation, h.ordered, h.best.reject ?_ ?_⟩, rfl⟩
    · simpa [keptKeys] using hfull
    · intro y hy
      obtain ⟨bin, hbin, rfl⟩ := mem_map.1 (Multiset.mem_coe.1 hy)
      exact .trans (.of_compare hreject) (h.root_worst (mem_range.1 hbin))
  · generalize hpushed : siftDown (comparator minHeap hasNull nullsFirst nullKey).compare
      L.accessor L.heapPtr (replaced L mem x) (L.count mem) 0 = mem'
    obtain ⟨hkept, hsame, hkey⟩ := popAndPushHeap_kept h hfull x hreject hpushed
    have hcall : getBinFromKHeap L minHeap hasNull nullsFirst nullKey mem x
        = (mem'.setQuad (L.rowsPtr + L.node mem 0 * L.rowSizeQuad) (L.node mem 0),
          some (L.rowsPtr + L.node mem 0 * L.rowSizeQuad + 1)) := by
      rw [getBinFromKHeap_full hroom, if_neg hreject, hpushed]
    rw [hcall]
    refine ⟨hkept.setRow _ _, L.node mem 0, ?_, rfl, hkey, ?_⟩
    · rw [L.count_setRow, hsame]
      exact h.node_lt (by have := L.k_pos; omega)
    · exact if_pos rfl

-- ======== a run

omit hc in
theorem run_concat (L : Layout) (minHeap hasNull nullsFirst : Bool) (nullKey : K)
    (mem : Memory K) (keys : List K) (x : K) :
    run L minHeap hasNull nullsFirst nullKey mem (keys ++ [x])
      = (getBinFromKHeap L minHeap hasNull nullsFirst nullKey
          (run L minHeap hasNull nullsFirst nullKey mem keys) x).1 := by
  rw [run, foldl_append]
  rfl

theorem run_kept (hempty : L.count mem = 0) (keys : List K) :
    Kept L c keys (run L minHeap hasNull nullsFirst nullKey mem keys) := by
  induction keys using reverseRecOn with
  | nil => exact .init hempty
  | append_singleton keys x ih =>
    rw [run_concat]
    have hkept := (getBinFromKHeap_kept hc ih x).1
    rw [Multiset.cons_coe, ← Multiset.coe_eq_coe.2 (perm_append_singleton x keys)] at hkept
    exact hkept

end

/-- After any keys the heap holds the rows in use with a worst one on top, and
their keys are k best ones; every call put its key into the row that it
returned, or returned none and changed nothing. -/
theorem getBinFromKHeap_keeps_best (L : Layout) (minHeap hasNull nullsFirst : Bool)
    (nullKey : K) (mem : Memory K) (hempty : L.count mem = 0) (keys : List K) :
    L.KeepsBest (comparator minHeap hasNull nullsFirst nullKey) keys
        (run L minHeap hasNull nullsFirst nullKey mem keys)
      ∧ ∀ before x after, keys = before ++ x :: after →
        L.Stored x (run L minHeap hasNull nullsFirst nullKey mem before)
          (getBinFromKHeap L minHeap hasNull nullsFirst nullKey
            (run L minHeap hasNull nullsFirst nullKey mem before) x).1
          (getBinFromKHeap L minHeap hasNull nullsFirst nullKey
            (run L minHeap hasNull nullsFirst nullKey mem before) x).2 := by
  have hruns := @run_kept K _ L _ mem minHeap hasNull nullsFirst nullKey rfl hempty
  have hkept := hruns keys
  constructor
  · exact ⟨hkept.count_eq, hkept.permutation, fun bin => hkept.root_worst, hkept.best⟩
  · intro before x after _
    exact (getBinFromKHeap_kept rfl (hruns before) x).2

/-- The host, with rows of a number and a key. -/
def hostLayout : Layout where
  threadGlobalIndex := 0
  threadCount := 1
  k := 2
  rowSizeQuad := 2
  keyOffset := 8
  keySize := 8
  index_lt := Nat.one_pos
  k_pos := by decide
  heaps_fit := by decide
  rows_fit := by decide
  keySize_pos := by decide
  key_aligned := by decide
  key_behind := by decide
  key_inside := by decide

theorem getBinFromKHeap_keeps_two :
    hostLayout.KeepsBest (comparator true true false (-1)) [3, -1, 4, 4, 1]
        (run hostLayout true true false (-1 : Int) ⟨fun _ => 0, fun _ => 0⟩ [3, -1, 4, 4, 1]) :=
  (getBinFromKHeap_keeps_best hostLayout true true false (-1) ⟨fun _ => 0, fun _ => 0⟩ rfl
    [3, -1, 4, 4, 1]).1

end

end Compass.TopN
