/-
The runtime sketch is a linear summary of its rows.

# The argument

One call visits every (row, column) of the sketch once, in an order
rotated by the thread id (`visits`). The cell it picks lies in that
pair's own block of `num_buckets` cells (`bucketIdx_eq`), and the blocks
tile the buffer, so a call touches pairwise distinct cells
(`cellWrites_nodup`) and never leaves the buffer (`bucketIdx_lt`). By
`Counters.run_exact` the call then adds its `contrib` to every cell,
provided the double addition is exact there; since a call moves a cell
by at most one, that holds for the first `2 ^ 53` calls on a buffer
(`feed_exact`). The sum of contributions does not see thread ids, order
or partition, which gives the order independence.

# Where it stops

The bound is not an artifact of the proof. A cell is an `int64_t`, but
it is updated through a `double`: at magnitude `2 ^ 53` adding one more
sign of the same kind is rounded away, so `2 ^ 53 + 1` rows with one key
fed to one buffer and the same rows split over two buffers give
different sums.
-/
import Mathlib.Data.List.Range
import Mathlib.Data.Nat.ModEq
import Mathlib.Tactic.Ring
import Compass.Lib.Cells
import Compass.Sketch.Runtime

namespace Compass.Sketch

open List Nat

variable (d : SketchDims) (xi : Seeds)

-- ======== the cells visited

/-- The sketch rows in the order a call visits them. -/
def rowOrder (first : Nat) : List Nat :=
  (List.range d.numRows).map fun i => (first + i) % d.numRows

/-- The (row, column) pairs a call visits, in order. -/
def visits (first : Nat) : List (Nat × Nat) :=
  (rowOrder d first).flatMap fun r =>
    (List.range d.numCols).map fun j => (r, j)

section

variable (first : Nat)

/-- The double loop is a fold over the visited pairs. -/
theorem forRowsAndCols_eq_foldl {σ : Type} (body : σ → Nat → Nat → σ) (init : σ) :
    forRowsAndCols d first body init
      = (visits d first).foldl (fun st p => body st p.1 p.2) init := by
  unfold forRowsAndCols visits rowOrder
  simp only [foldl_flatMap, foldl_map]

/-- Rotation only permutes the rows. -/
theorem rowOrder_perm : (rowOrder d first).Perm (range d.numRows) := by
  have hpos := d.rows_pos
  have hnd : (rowOrder d first).Nodup := by
    refine Nodup.map_on ?_ nodup_range
    intro x hx y hy hxy
    rw [mem_range] at hx hy
    have hmod : Nat.ModEq d.numRows x y := Nat.ModEq.add_left_cancel' first hxy
    rwa [Nat.ModEq, mod_eq_of_lt hx, mod_eq_of_lt hy] at hmod
  have hsub : rowOrder d first ⊆ range d.numRows := by
    intro r hr
    obtain ⟨i, -, rfl⟩ := mem_map.mp hr
    exact mem_range.mpr (mod_lt _ hpos)
  refine (subperm_of_subset hnd hsub).perm_of_length_le ?_
  simp [rowOrder]

/-- Thread ids only permute the visited pairs. -/
theorem visits_perm : (visits d first).Perm (visits d 0) :=
  ((rowOrder_perm d first).trans (rowOrder_perm d 0).symm).flatMap_right _

theorem mem_visits {first : Nat} {p : Nat × Nat} :
    p ∈ visits d first ↔ p.1 < d.numRows ∧ p.2 < d.numCols := by
  unfold visits
  simp only [mem_flatMap, (rowOrder_perm d first).mem_iff, mem_range, mem_map]
  constructor
  · intro h
    obtain ⟨r, hr, j, hj, rfl⟩ := h
    exact ⟨hr, hj⟩
  · intro h
    obtain ⟨hr, hj⟩ := h
    exact ⟨p.1, hr, p.2, hj, rfl⟩

theorem visits_nodup : (visits d first).Nodup := by
  refine nodup_flatMap.mpr ⟨fun r _ => ?_, ?_⟩
  · exact nodup_range.map fun _ _ h => (Prod.mk.inj h).2
  · refine ((rowOrder_perm d first).nodup_iff.mpr nodup_range).imp ?_
    intro r r' hne p hp hp'
    obtain ⟨_, -, rfl⟩ := mem_map.mp hp
    obtain ⟨_, -, he⟩ := mem_map.mp hp'
    exact hne (Prod.mk.inj he).1.symm

end

-- ======== the index arithmetic

/-- A bucket is below the bucket count: the `uint16_t` count is never the
modulus that `CW2B` treats specially. -/
theorem bucketOf_lt (keys : Keys) (r j : Nat) :
    bucketOf d xi keys r j < d.numBuckets := by
  have hB := d.buckets_u16
  have hpos := d.buckets_pos
  have hm : (UInt32.ofNat d.numBuckets).toNat = d.numBuckets :=
    UInt32.toNat_ofNat_of_lt' (by simp only [UInt32.size]; omega)
  have hne : UInt32.ofNat d.numBuckets ≠ UInt32.ofNat randomGenSchemeMod := by
    intro he
    have := congrArg UInt32.toNat he
    rw [hm] at this
    rw [this] at hB
    exact absurd hB (by decide)
  unfold bucketOf cw2b
  rw [if_neg hne, UInt32.toNat_mod, hm]
  exact mod_lt _ hpos

/-- The block of cells that (row, column) owns. -/
def blockStart (r j : Nat) : Nat := j * d.sketchSize + r * d.numBuckets

variable {r : Nat}

/-- A row's cells stay inside its column's sketch. -/
theorem row_end_le (hr : r < d.numRows) :
    r * d.numBuckets + d.numBuckets ≤ d.sketchSize := by
  have h := mul_le_mul_right d.numBuckets (succ_le_of_lt hr)
  rw [succ_mul] at h
  exact h.trans_eq (mul_comm _ _)

variable {j : Nat}

/-- A column's sketch stays inside the buffer. -/
theorem col_end_le (hj : j < d.numCols) :
    j * d.sketchSize + d.sketchSize ≤ d.totalSize := by
  have h := mul_le_mul_right d.sketchSize (succ_le_of_lt hj)
  rwa [succ_mul] at h

/-- Inside the dimensions the 32-bit truncations do nothing: the cell is
the bucket's place in the pair's own block. -/
theorem bucketIdx_eq (keys : Keys) (hr : r < d.numRows) (hj : j < d.numCols) :
    bucketIdx d xi keys r j = blockStart d r j + bucketOf d xi keys r j := by
  have hb := bucketOf_lt d xi keys r j
  have hrow := row_end_le d hr
  have hcol := col_end_le d hj
  have htot : d.totalSize < 2 ^ 32 := d.total_u32
  unfold bucketIdx blockStart
  rw [mod_eq_of_lt (a := r * d.numBuckets) (by omega)]
  exact mod_eq_of_lt (by omega)

/-- Every cell a call writes lies inside the buffer. -/
theorem bucketIdx_lt (keys : Keys) (hr : r < d.numRows) (hj : j < d.numCols) :
    bucketIdx d xi keys r j < d.totalSize := by
  have hb := bucketOf_lt d xi keys r j
  have hrow := row_end_le d hr
  have hcol := col_end_le d hj
  rw [bucketIdx_eq d xi keys hr hj]
  unfold blockStart
  omega

/-- The blocks tile the buffer: a cell names its (row, column). -/
theorem block_inj {r' j' b b' : Nat} (hr : r < d.numRows) (hr' : r' < d.numRows)
    (hb : b < d.numBuckets) (hb' : b' < d.numBuckets)
    (h : blockStart d r j + b = blockStart d r' j' + b') : r = r' ∧ j = j' := by
  have hrow := row_end_le d hr
  have hrow' := row_end_le d hr'
  have hS : 0 < d.sketchSize := mul_pos d.buckets_pos d.rows_pos
  have hdiv : ∀ {s k x : Nat}, s * d.numBuckets + d.numBuckets ≤ d.sketchSize →
      x < d.numBuckets → (blockStart d s k + x) / d.sketchSize = k := by
    intro s k x hs hx
    unfold blockStart
    rw [add_assoc, mul_comm k, mul_add_div hS,
      div_eq_of_lt (by omega), add_zero]
  have hj : j = j' := by rw [← hdiv (k := j) hrow hb, h, hdiv hrow' hb']
  subst hj
  have hin : r * d.numBuckets + b = r' * d.numBuckets + b' := by
    unfold blockStart at h
    omega
  have hdiv' : ∀ {s x : Nat}, x < d.numBuckets →
      (s * d.numBuckets + x) / d.numBuckets = s := by
    intro s x hx
    rw [mul_comm, mul_add_div d.buckets_pos, div_eq_of_lt hx, add_zero]
  exact ⟨by rw [← hdiv' (s := r) hb, hin, hdiv' hb'], rfl⟩

-- ======== one call

/-- The writes of one call: the cell and the sign for each visited
pair. -/
def cellWrites (first : Nat) (keys : Keys) : List (Nat × Int) :=
  (visits d first).map fun p =>
    (bucketIdx d xi keys p.1 p.2, signOf d xi keys p.1 p.2)

/-- The buffer after a call is the batch of its writes. -/
theorem aggCountAndUpdateSketch_eq (tid : Nat) (keys : Keys) (st : AggState) :
    (aggCountAndUpdateSketch d xi tid keys st).sketchData
        = Counters.run addSign st.sketchData
            (cellWrites d xi (tid % d.numRows) keys)
      ∧ (aggCountAndUpdateSketch d xi tid keys st).counter
        = st.counter + 1 := by
  unfold aggCountAndUpdateSketch cellWrites Counters.run
  rw [forRowsAndCols_eq_foldl, foldl_map]
  -- the loop body changes the buffer only, one `Counters.bump` a step
  have key : ∀ (ps : List (Nat × Nat)) (st : AggState),
      (ps.foldl (fun st p => st.addTo (bucketIdx d xi keys p.1 p.2)
          (signOf d xi keys p.1 p.2)) st).sketchData
        = ps.foldl (fun m p => Counters.bump addSign m
            (bucketIdx d xi keys p.1 p.2, signOf d xi keys p.1 p.2))
          st.sketchData
      ∧ (ps.foldl (fun st p => st.addTo (bucketIdx d xi keys p.1 p.2)
          (signOf d xi keys p.1 p.2)) st).counter = st.counter := by
    intro ps
    induction ps with
    | nil => intro st; exact ⟨rfl, rfl⟩
    | cons p ps ih => intro st; exact ih _
  exact ⟨(key _ _).1, congrArg (· + 1) (key _ _).2⟩

/-- A call never writes one cell twice. -/
theorem cellWrites_nodup (first : Nat) (keys : Keys) :
    ((cellWrites d xi first keys).map Prod.fst).Nodup := by
  unfold cellWrites
  rw [map_map]
  refine Nodup.map_on ?_ (visits_nodup d first)
  intro p hp q hq he
  obtain ⟨hp1, hp2⟩ := (mem_visits d).mp hp
  obtain ⟨hq1, hq2⟩ := (mem_visits d).mp hq
  have he' : bucketIdx d xi keys p.1 p.2 = bucketIdx d xi keys q.1 q.2 := he
  rw [bucketIdx_eq d xi keys hp1 hp2, bucketIdx_eq d xi keys hq1 hq2] at he'
  obtain ⟨h1, h2⟩ := block_inj d hp1 hq1 (bucketOf_lt ..) (bucketOf_lt ..) he'
  exact Prod.ext h1 h2

/-- The amount a row adds to each cell of an exact sketch. -/
def contrib (keys : Keys) (c : Nat) : Int :=
  Counters.delta (cellWrites d xi 0 keys) c

/-- Thread ids do not show in the amounts. -/
theorem delta_cellWrites (first : Nat) (keys : Keys) (c : Nat) :
    Counters.delta (cellWrites d xi first keys) c = contrib d xi keys c :=
  Counters.delta_perm ((visits_perm d first).map _) c

theorem eh3_eq (i0 i1 j : UInt32) : eh3 i0 i1 j = 1 ∨ eh3 i0 i1 j = -1 := by
  unfold eh3
  dsimp only
  split
  · exact Or.inl rfl
  · exact Or.inr rfl

/-- A visited cell gets the sign of its pair. -/
theorem contrib_bucketIdx (keys : Keys) (hr : r < d.numRows) (hj : j < d.numCols) :
    contrib d xi keys (bucketIdx d xi keys r j) = signOf d xi keys r j := by
  have hmem : (bucketIdx d xi keys r j, signOf d xi keys r j)
      ∈ cellWrites d xi 0 keys :=
    mem_map.mpr ⟨(r, j), (mem_visits d).mpr ⟨hr, hj⟩, rfl⟩
  exact Counters.delta_of_mem (cellWrites_nodup d xi 0 keys) hmem

/-- A cell no pair picks gets nothing. -/
theorem contrib_of_ne (keys : Keys) {c : Nat} (h : ∀ r j, r < d.numRows → j < d.numCols →
      bucketIdx d xi keys r j ≠ c) :
    contrib d xi keys c = 0 := by
  refine Counters.delta_of_not_mem fun hc => ?_
  unfold cellWrites at hc
  rw [map_map, mem_map] at hc
  obtain ⟨p, hp, rfl⟩ := hc
  obtain ⟨h1, h2⟩ := (mem_visits d).mp hp
  exact h p.1 p.2 h1 h2 rfl

/-- One row moves a cell by at most one. -/
theorem contrib_natAbs_le (keys : Keys) (c : Nat) :
    (contrib d xi keys c).natAbs ≤ 1 := by
  by_cases h : ∃ r j, r < d.numRows ∧ j < d.numCols
      ∧ bucketIdx d xi keys r j = c
  · obtain ⟨r, j, hr, hj, rfl⟩ := h
    rw [contrib_bucketIdx d xi keys hr hj]
    rcases eh3_eq (xi.xiPm1 (firstSeedIdx d r j))
      (xi.xiPm1 (firstSeedIdx d r j + 1))
      (keys j).toUInt64.toUInt32 with hs | hs <;> simp [signOf, hs]
  · rw [contrib_of_ne d xi keys fun r j hr hj he => h ⟨r, j, hr, hj, he⟩]
    decide

/-- Adding a sign is exact below magnitude `2 ^ 53`. -/
theorem addSign_exact {x s : Int} (hx : x.natAbs < 2 ^ 53)
    (hs : s.natAbs ≤ 1) : addSign x s = x + s := by
  unfold addSign
  rw [IntDouble.ofInt_of_le hx.le]
  exact IntDouble.add_of_le (by omega)

/-- One call on a buffer whose cells are below `2 ^ 53` adds the row's
contribution to every cell. -/
theorem agg_exact (tid : Nat) (keys : Keys) {st : AggState}
    (hst : ∀ c, (st.sketchData c).natAbs < 2 ^ 53) (c : Nat) :
    (aggCountAndUpdateSketch d xi tid keys st).sketchData c
      = st.sketchData c + contrib d xi keys c := by
  rw [(aggCountAndUpdateSketch_eq d xi tid keys st).1,
    Counters.run_exact addSign _ (cellWrites_nodup d xi _ keys) ?_ c,
    delta_cellWrites]
  intro u hu
  obtain ⟨p, -, rfl⟩ := mem_map.mp hu
  refine addSign_exact (hst _) ?_
  rcases eh3_eq (xi.xiPm1 (firstSeedIdx d p.1 p.2))
    (xi.xiPm1 (firstSeedIdx d p.1 p.2 + 1))
    (keys p.2).toUInt64.toUInt32 with hs | hs <;> simp [signOf, hs]

-- ======== whole runs

/-- The sketch of a list of rows in exact arithmetic: the sum of their
contributions. -/
def exactSketch (rows : List Keys) (c : Nat) : Int :=
  (rows.map fun keys => contrib d xi keys c).sum

theorem exactSketch_append (rows rows' : List Keys) (c : Nat) :
    exactSketch d xi (rows ++ rows') c
      = exactSketch d xi rows c + exactSketch d xi rows' c := by
  simp [exactSketch]

/-- The exact sketch does not see the order of the rows. -/
theorem exactSketch_perm {rows rows' : List Keys} (h : rows.Perm rows')
    (c : Nat) : exactSketch d xi rows c = exactSketch d xi rows' c :=
  (h.map _).sum_eq

theorem rowsOf_append (calls calls' : List Call) :
    rowsOf (calls ++ calls') = rowsOf calls ++ rowsOf calls' :=
  map_append

/-- Up to `2 ^ 53` calls on one buffer are exact, and each cell stays
within the number of calls made. -/
theorem feed_exact (calls : List Call) :
    ∀ (n : Nat) (st : AggState), (∀ c, (st.sketchData c).natAbs ≤ n) →
      n + calls.length ≤ 2 ^ 53 → ∀ c, (feed d xi st calls).sketchData c
            = st.sketchData c + exactSketch d xi (rowsOf calls) c
          ∧ ((feed d xi st calls).sketchData c).natAbs
            ≤ n + calls.length := by
  induction calls with
  | nil =>
    intro n st hst _ c
    exact ⟨(add_zero _).symm, hst c⟩
  | cons call calls ih =>
    intro n st hst hlen c
    rw [length_cons] at hlen
    have hcall := agg_exact d xi call.threadId call.keys
      (fun c => lt_of_le_of_lt (hst c) (by omega))
    have hst' : ∀ c, ((aggCountAndUpdateSketch d xi call.threadId call.keys
        st).sketchData c).natAbs ≤ n + 1 := by
      intro c
      rw [hcall c]
      have h1 := hst c
      have h2 := contrib_natAbs_le d xi call.keys c
      omega
    obtain ⟨heq, hle⟩ := ih (n + 1) _ hst' (by omega) c
    refine ⟨?_, hle.trans (by rw [length_cons]; omega)⟩
    show (feed d xi (aggCountAndUpdateSketch d xi call.threadId call.keys st)
      calls).sketchData c = _
    rw [heq, hcall c]
    simp only [exactSketch, rowsOf, map_cons, sum_cons]
    ring

/-- The counter counts the calls. -/
theorem feed_counter (calls : List Call) (st : AggState) :
    (feed d xi st calls).counter = st.counter + calls.length := by
  induction calls generalizing st with
  | nil => exact (add_zero _).symm
  | cons call calls ih =>
    show (feed d xi (aggCountAndUpdateSketch d xi call.threadId call.keys st)
      calls).counter = _
    rw [ih, (aggCountAndUpdateSketch_eq d xi _ _ st).2]
    push_cast [length_cons]
    ring

/-- A zeroed buffer fed at most `2 ^ 53` rows holds their exact
sketch. -/
theorem sketchOf_eq {calls : List Call} (h : calls.length ≤ 2 ^ 53) (c : Nat) :
    sketchOf d xi calls c = exactSketch d xi (rowsOf calls) c := by
  have := (feed_exact d xi calls 0 AggState.zero (fun _ => le_refl _)
    (by omega) c).1
  rw [sketchOf, this]
  exact zero_add _

-- ======== order and partition

/-- Merging the buffers of several threads or fragments gives the exact
sketch of all their rows. -/
theorem mergeSketches_eq (parts : List (List Call)) (h : parts.flatten.length ≤ 2 ^ 53) (c : Nat) :
    mergeSketches (parts.map (sketchOf d xi)) c
      = exactSketch d xi (rowsOf parts.flatten) c := by
  induction parts with
  | nil => rfl
  | cons part parts ih =>
    rw [flatten_cons, length_append] at h
    have hlen : part.length ≤ 2 ^ 53 := by omega
    have hpart := sketchOf_eq d xi hlen c
    have hrest := ih (by omega)
    unfold mergeSketches at hrest ⊢
    rw [map_cons, map_cons, sum_cons, hrest, hpart, flatten_cons, rowsOf_append, exactSketch_append]

/-- The runtime sketch is a linear summary.

For every two ways of making at most `2 ^ 53` calls on the same multiset
of rows (any thread ids, any order, any partition over buffers that are
then added cell by cell) the merged sketch is the same. Each of those
calls changes exactly one cell of every (row, column) block, by plus or
minus one. And for every key and every seed the cells written lie inside
the `num_cols * num_rows * num_buckets` cells of the buffer. -/
theorem runtime_sketch_linear :
    (∀ parts parts' : List (List Call), (rowsOf parts.flatten).Perm (rowsOf parts'.flatten) →
      parts.flatten.length ≤ 2 ^ 53 → ∀ c, mergeSketches (parts.map (sketchOf d xi)) c
          = mergeSketches (parts'.map (sketchOf d xi)) c)
    ∧ (∀ (calls : List Call) (call : Call), calls.length < 2 ^ 53 →
        ∀ r < d.numRows, ∀ j < d.numCols, ∃ b < d.numBuckets,
          (sketchOf d xi (calls ++ [call]) (blockStart d r j + b)
              = sketchOf d xi calls (blockStart d r j + b) + 1
            ∨ sketchOf d xi (calls ++ [call]) (blockStart d r j + b)
              = sketchOf d xi calls (blockStart d r j + b) - 1)
          ∧ ∀ b' < d.numBuckets, b' ≠ b →
              sketchOf d xi (calls ++ [call]) (blockStart d r j + b')
                = sketchOf d xi calls (blockStart d r j + b'))
    ∧ ∀ (keys : Keys) (r j : Nat), r < d.numRows → j < d.numCols →
        bucketIdx d xi keys r j
          < d.numCols * d.numRows * d.numBuckets := by
  refine ⟨?_, ?_, ?_⟩
  · intro parts parts' hperm hlen c
    have hlen' : parts'.flatten.length ≤ 2 ^ 53 := by
      have := hperm.length_eq
      simp only [rowsOf, length_map] at this
      omega
    rw [mergeSketches_eq d xi parts hlen, mergeSketches_eq d xi parts' hlen',
      exactSketch_perm d xi hperm]
  · intro calls call hlen r hr j hj
    -- the last call adds its contribution to every cell
    have hstep : ∀ c, sketchOf d xi (calls ++ [call]) c
        = sketchOf d xi calls c + contrib d xi call.keys c := by
      intro c
      rw [sketchOf_eq d xi (by simp; omega), sketchOf_eq d xi hlen.le]
      simp [rowsOf, exactSketch]
    refine ⟨bucketOf d xi call.keys r j, bucketOf_lt .., ?_, ?_⟩
    · rw [hstep, ← bucketIdx_eq d xi call.keys hr hj, contrib_bucketIdx d xi call.keys hr hj]
      rcases eh3_eq (xi.xiPm1 (firstSeedIdx d r j))
        (xi.xiPm1 (firstSeedIdx d r j + 1))
        (call.keys j).toUInt64.toUInt32 with hs | hs
      · exact Or.inl (by rw [signOf, hs])
      · exact Or.inr (by rw [signOf, hs]; rfl)
    · intro b' hb' hne
      rw [hstep, contrib_of_ne d xi call.keys ?_, add_zero]
      intro r' j' hr' hj' he
      rw [bucketIdx_eq d xi call.keys hr' hj'] at he
      obtain ⟨rfl, rfl⟩ :=
        block_inj d hr' hr (bucketOf_lt ..) hb' he
      exact hne (Nat.add_left_cancel he).symm
  · intro keys r j hr hj
    have h := bucketIdx_lt d xi keys hr hj
    rwa [SketchDims.totalSize, SketchDims.sketchSize,
      Nat.mul_comm d.numBuckets, ← Nat.mul_assoc] at h

/-- A row whose keys are all zero. -/
def zeroCall : Call := { threadId := 0, keys := fun _ => 0 }

/-- All seeds zero. -/
def zeroSeeds : Seeds := { xiBucket := fun _ => 0, xiPm1 := fun _ => 0 }

/-- The catalog's dimensions for one join column. -/
def oneColDims : SketchDims := catSketchDims 1 (by decide)

/-- The linear summary at the catalog's dimensions: two rows fed to one
thread, or one each to two. -/
theorem runtime_sketch_linear_two_threads :
    ∀ c, mergeSketches ([[zeroCall, zeroCall]].map
        (sketchOf oneColDims zeroSeeds)) c
      = mergeSketches ([[zeroCall], [zeroCall]].map
        (sketchOf oneColDims zeroSeeds)) c :=
  (runtime_sketch_linear _ _).1 [[zeroCall, zeroCall]]
    [[zeroCall], [zeroCall]] (List.Perm.refl _) (by decide)

-- ======== where exactness ends

/-- The zero row adds minus one to cell zero. -/
theorem contrib_zeroCall :
    contrib oneColDims zeroSeeds zeroCall.keys 0 = -1 := by
  have h := contrib_bucketIdx oneColDims zeroSeeds zeroCall.keys
    (r := 0) (j := 0) (by decide) (by decide)
  have hidx : bucketIdx oneColDims zeroSeeds zeroCall.keys 0 0 = 0 := by
    decide
  have hsign : signOf oneColDims zeroSeeds zeroCall.keys 0 0 = -1 := by
    decide
  rwa [hidx, hsign] at h

/-- Up to the limit, `n` zero rows put `-n` in cell zero. -/
theorem sketchOf_zeroCalls {n : Nat} (h : n ≤ 2 ^ 53) :
    sketchOf oneColDims zeroSeeds (replicate n zeroCall) 0 = -n := by
  rw [sketchOf_eq _ _ (by simpa using h)]
  simp [rowsOf, exactSketch, contrib_zeroCall]

/-- At the limit one more zero row is rounded away. The limit is a
variable so that no tactic unfolds a list of that length. -/
theorem sketchOf_zeroCalls_limit {n : Nat} (hn : n = 2 ^ 53) :
    sketchOf oneColDims zeroSeeds (replicate n zeroCall ++ [zeroCall]) 0
      = -n := by
  have hmem : (bucketIdx oneColDims zeroSeeds zeroCall.keys 0 0,
      signOf oneColDims zeroSeeds zeroCall.keys 0 0)
      ∈ cellWrites oneColDims zeroSeeds (0 % oneColDims.numRows)
          zeroCall.keys :=
    mem_map.mpr ⟨(0, 0), (mem_visits _).mpr (by decide), rfl⟩
  have hidx : bucketIdx oneColDims zeroSeeds zeroCall.keys 0 0 = 0 := by
    decide
  have hsign : signOf oneColDims zeroSeeds zeroCall.keys 0 0 = -1 := by
    decide
  rw [hidx, hsign] at hmem
  have hbefore := sketchOf_zeroCalls (n := n) hn.le
  unfold sketchOf feed at hbefore ⊢
  rw [foldl_append, foldl_cons, foldl_nil, (aggCountAndUpdateSketch_eq _ _ _ _ _).1]
  have hrun := Counters.run_of_mem addSign
    (foldl (fun st c => aggCountAndUpdateSketch oneColDims zeroSeeds
      c.threadId c.keys st) AggState.zero
      (replicate n zeroCall)).sketchData
    (cellWrites_nodup oneColDims zeroSeeds _ zeroCall.keys) hmem
  rw [hbefore] at hrun
  refine hrun.trans ?_
  rw [hn]
  decide

/-- The rows of one buffer past the limit, and the same rows split over
two buffers: the sums differ. -/
theorem sketchOf_split_ne {n : Nat} (hn : n = 2 ^ 53) :
    mergeSketches ([replicate n zeroCall ++ [zeroCall]].map
        (sketchOf oneColDims zeroSeeds)) 0
      ≠ mergeSketches ([replicate n zeroCall, [zeroCall]].map
        (sketchOf oneColDims zeroSeeds)) 0 := by
  have h1 := sketchOf_zeroCalls (n := n) hn.le
  have h2 : sketchOf oneColDims zeroSeeds [zeroCall] 0 = -1 :=
    sketchOf_zeroCalls (n := 1) (by decide)
  unfold mergeSketches
  simp only [map_cons, map_nil, sum_cons, sum_nil]
  rw [sketchOf_zeroCalls_limit hn, h1, h2]
  omega

/-- Without the bound the sketch depends on the partition: `2 ^ 53 + 1`
rows of one key, fed to one buffer or to two. -/
theorem runtime_sketch_saturates :
    (rowsOf [List.replicate (2 ^ 53) zeroCall ++ [zeroCall]].flatten).Perm
        (rowsOf [List.replicate (2 ^ 53) zeroCall, [zeroCall]].flatten)
      ∧ mergeSketches ([List.replicate (2 ^ 53) zeroCall ++ [zeroCall]].map
          (sketchOf oneColDims zeroSeeds)) 0
        ≠ mergeSketches ([List.replicate (2 ^ 53) zeroCall, [zeroCall]].map
          (sketchOf oneColDims zeroSeeds)) 0 := by
  have hsplit : ∀ l : List Call, (rowsOf [l ++ [zeroCall]].flatten).Perm
      (rowsOf [l, [zeroCall]].flatten) := fun l => by simp [rowsOf]
  exact ⟨hsplit _, sketchOf_split_ne rfl⟩

end Compass.Sketch
