/-
The GPU sketch path refines the CPU one.

# The simulation

As long as the launch's buffer size fits the 32-bit product in which it
is computed (`Fits`), the device's, the allocator's and the host's idea
of a region agree: region `b` starts at `stride * b` and the regions
tile the buffer. A device call then touches the counter of its thread
and cells of its own block's sketch only, and seen through that sketch
(`sketchCell`) it is exactly a CPU call with `threadIdx` for the thread
id. So a block's sketch after any interleaving is the CPU sketch of the
calls that block made (`runLaunch_sketch`), the counters add up to the
number of calls (`hostRowCount_runLaunch`), and summing the blocks gives
the exact sketch of all rows.

# Two limits

Both bounds of the main theorem are real. `data_alloc_size` is an
`unsigned` product stored in a `uint64_t`, so a large enough grid gets a
buffer smaller than its regions. And past `2 ^ 53` rows the CPU's single
buffer loses increments (Proofs/Runtime.lean) which two blocks together
still count.

What the kernels of a multi-fragment table leave in
`separate_sketch_elements`.

A kernel's own sketch is exact (Proofs/Runtime.lean, Proofs/Gpu.lean),
so everything hangs on the copy-out. It overwrites: after any number of
kernels the columns are those of the kernel that finished last
(`runKernels_elements`), and the rows of the other kernels are gone from
the sketch. By linearity the surviving sketch is the sketch
of the table exactly when the lost rows cancel in every cell, which is
the equivalence proved here for every partition, device type, schedule
and finishing order.
-/
import Compass.Sketch.Gpu
import Compass.Sketch.Proofs.Runtime

namespace Compass.Sketch

open List Function Nat

variable (d : SketchDims) (xi : Seeds) (shape : LaunchShape)

-- ======== the layout

/-- The cells of one block's region. -/
def stride : Nat := shape.blockSize + d.totalSize

/-- The buffer size fits the `unsigned` product that computes it. -/
def Fits : Prop := shape.gridSize * stride d shape < 2 ^ 32

instance : Decidable (Fits d shape) :=
  inferInstanceAs (Decidable (shape.gridSize * stride d shape < 2 ^ 32))

/-- A call of a thread that the launch has. -/
def ValidCall (call : DeviceCall) : Prop :=
  call.blockIdx < shape.gridSize ∧ call.threadIdx < shape.blockSize

instance : DecidablePred (ValidCall shape) := fun call =>
  inferInstanceAs (Decidable (call.blockIdx < shape.gridSize
    ∧ call.threadIdx < shape.blockSize))

variable {d xi shape}

theorem totalSize_eq :
    d.numRows * d.numBuckets * d.numCols = d.totalSize := by
  unfold SketchDims.totalSize SketchDims.sketchSize
  rw [mul_comm d.numRows, mul_comm]

/-- Region `b` ends where region `b + 1` starts. -/
theorem region_end {b : Nat} (hb : b < shape.gridSize) :
    stride d shape * b + stride d shape
      ≤ shape.gridSize * stride d shape := by
  have h := mul_le_mul_right (stride d shape) (succ_le_of_lt hb)
  rw [succ_mul] at h
  rwa [mul_comm (stride d shape) b]

theorem dataAllocSize_eq (hfit : Fits d shape) :
    dataAllocSize d shape = shape.gridSize * stride d shape := by
  unfold dataAllocSize
  rw [totalSize_eq, mod_eq_of_lt (a := d.totalSize) d.total_u32]
  exact mod_eq_of_lt hfit

theorem blockSet_eq (hfit : Fits d shape) {b : Nat}
    (hb : b < shape.gridSize) : blockSet d shape b = stride d shape * b := by
  have hend := region_end (d := d) hb
  have hlt : shape.gridSize * stride d shape < 2 ^ 32 := hfit
  have hstride : d.sketchSize * d.numCols + shape.blockSize
      = stride d shape := by
    unfold stride SketchDims.totalSize
    rw [mul_comm d.sketchSize, add_comm]
  unfold blockSet
  rw [hstride]
  exact mod_eq_of_lt (by omega)

/-- The host walks the buffer with the device's stride. -/
theorem counterSketchSize_eq (hfit : Fits d shape) (hg : 0 < shape.gridSize) :
    counterSketchSize d shape = stride d shape := by
  unfold counterSketchSize hostSketchSize
  rw [dataAllocSize_eq hfit, Nat.mul_div_cancel_left _ hg]
  unfold stride
  omega

/-- The cell of block `b` that holds cell `c` of its sketch. -/
def sketchCell (d : SketchDims) (shape : LaunchShape) (b c : Nat) : Nat :=
  stride d shape * b + shape.blockSize + c

theorem sketchCell_inj (b : Nat) :
    Injective (sketchCell d shape b) := fun _ _ h =>
  add_left_cancel h

/-- Cells of different regions differ. -/
theorem region_ne {b b' x y : Nat} (hx : x < stride d shape)
    (hy : y < stride d shape) (hne : b ≠ b') :
    stride d shape * b + x ≠ stride d shape * b' + y := by
  intro he
  have hpos : 0 < stride d shape := lt_of_le_of_lt (zero_le _) hx
  have hdiv := congrArg (· / stride d shape) he
  simp only [mul_add_div hpos, div_eq_of_lt hx, div_eq_of_lt hy, add_zero] at hdiv
  exact hne hdiv

variable {call : DeviceCall}

-- ======== one device call

section

variable (hfit : Fits d shape)
include hfit

/-- The buffer after a device call: one counter step, then the CPU
call's writes placed in the block's sketch. The device copies of the
hash and the sign are the host's functions by definition. -/
theorem aggCountAndUpdateSketchGpu_eq (hcall : ValidCall shape call) (mem : Nat → Int) :
    aggCountAndUpdateSketchGpu d xi shape call mem
      = Counters.run addSign
          (update mem
            (stride d shape * call.blockIdx + call.threadIdx)
            (mem (stride d shape * call.blockIdx + call.threadIdx) + 1))
          ((cellWrites d xi (call.threadIdx % d.numRows) call.keys).map
            (Prod.map (sketchCell d shape call.blockIdx) id)) := by
  unfold aggCountAndUpdateSketchGpu sketchStartPoint
  rw [blockSet_eq hfit hcall.1, forRowsAndCols_eq_foldl]
  unfold Counters.run cellWrites
  rw [map_map, foldl_map]
  rfl

omit hfit in
/-- A sketch write of a call lands in the sketch part of its region. -/
theorem mem_sketchWrites {first i : Nat} (hi : i ∈ ((cellWrites d xi first call.keys).map
      (Prod.map (sketchCell d shape call.blockIdx) id)).map Prod.fst) :
    ∃ c < d.totalSize, i = sketchCell d shape call.blockIdx c := by
  simp only [map_map, mem_map, cellWrites] at hi
  obtain ⟨p, hp, rfl⟩ := hi
  obtain ⟨h1, h2⟩ := (mem_visits d).mp hp
  exact ⟨_, bucketIdx_lt d xi call.keys h1 h2, rfl⟩

variable (hcall : ValidCall shape call)
include hcall

variable (mem : Nat → Int)

/-- Through its own block's sketch, a device call is a CPU call. -/
theorem gpuCall_sketch_same (c : Nat) : aggCountAndUpdateSketchGpu d xi shape call mem
        (sketchCell d shape call.blockIdx c)
      = Counters.run addSign
          (fun c => mem (sketchCell d shape call.blockIdx c))
          (cellWrites d xi (call.threadIdx % d.numRows) call.keys) c := by
  rw [aggCountAndUpdateSketchGpu_eq hfit hcall,
    Counters.run_embed addSign (sketchCell_inj call.blockIdx)]
  refine Counters.run_congr addSign _ (update_of_ne ?_ ..)
  have := hcall.2
  unfold sketchCell
  omega

/-- A device call leaves the other blocks' sketches alone. -/
theorem gpuCall_sketch_other {b c : Nat} (hb : b ≠ call.blockIdx) (hc : c < d.totalSize) :
    aggCountAndUpdateSketchGpu d xi shape call mem (sketchCell d shape b c)
      = mem (sketchCell d shape b c) := by
  have hin : ∀ {x : Nat}, x < d.totalSize →
      shape.blockSize + x < stride d shape := fun hx =>
    Nat.add_lt_add_left hx _
  rw [aggCountAndUpdateSketchGpu_eq hfit hcall, Counters.run_of_not_mem]
  · refine update_of_ne ?_ ..
    unfold sketchCell
    rw [Nat.add_assoc]
    have ht : call.threadIdx < stride d shape := by
      have := hcall.2
      unfold stride
      omega
    exact region_ne (hin hc) ht hb
  · intro hi
    obtain ⟨x, hx, he⟩ := mem_sketchWrites hi
    unfold sketchCell at he
    rw [Nat.add_assoc, Nat.add_assoc] at he
    exact region_ne (hin hc) (hin hx) hb he

/-- A device call increments the counter of its thread and no other. -/
theorem gpuCall_counter {b t : Nat} (ht : t < shape.blockSize) :
    aggCountAndUpdateSketchGpu d xi shape call mem (stride d shape * b + t)
      = update mem
          (stride d shape * call.blockIdx + call.threadIdx)
          (mem (stride d shape * call.blockIdx + call.threadIdx) + 1)
          (stride d shape * b + t) := by
  rw [aggCountAndUpdateSketchGpu_eq hfit hcall, Counters.run_of_not_mem]
  intro hi
  obtain ⟨x, hx, he⟩ := mem_sketchWrites hi
  unfold sketchCell at he
  by_cases hb : b = call.blockIdx
  · subst hb
    omega
  · rw [Nat.add_assoc] at he
    have ht' : t < stride d shape := by
      unfold stride
      omega
    exact region_ne ht' (Nat.add_lt_add_left hx _) hb he

end

-- ======== whole launches

/-- The CPU calls that a block's device calls amount to. -/
def blockCalls (b : Nat) (calls : List DeviceCall) : List Call :=
  (calls.filter fun call => call.blockIdx = b).map fun call =>
    { threadId := call.threadIdx, keys := call.keys }

/-- After any interleaving, a block's sketch is the CPU sketch of the
calls that block made. -/
theorem runLaunch_sketch (hfit : Fits d shape) (calls : List DeviceCall)
    (hcalls : ∀ call ∈ calls, ValidCall shape call) {b c : Nat} (hc : c < d.totalSize) :
    runLaunch d xi shape calls (sketchCell d shape b c)
      = sketchOf d xi (blockCalls b calls) c := by
  induction calls using reverseRecOn generalizing c with
  | nil => rfl
  | append_singleton calls call ih =>
    have hcall := hcalls call (by simp)
    have ih' : ∀ {c : Nat}, c < d.totalSize →
        runLaunch d xi shape calls (sketchCell d shape b c)
          = sketchOf d xi (blockCalls b calls) c := fun hc =>
      ih (fun x hx => hcalls x (mem_append_left _ hx)) hc
    unfold runLaunch at ih' ⊢
    rw [foldl_append, foldl_cons, foldl_nil]
    by_cases hb : b = call.blockIdx
    · subst hb
      rw [gpuCall_sketch_same hfit hcall]
      have hfilter : blockCalls call.blockIdx (calls ++ [call])
          = blockCalls call.blockIdx calls
            ++ [{ threadId := call.threadIdx, keys := call.keys }] := by
        simp [blockCalls]
      rw [hfilter, sketchOf, feed, foldl_append, foldl_cons,
        foldl_nil, (aggCountAndUpdateSketch_eq d xi _ _ _).1]
      exact Counters.run_congr addSign _ (ih' hc)
    · rw [gpuCall_sketch_other hfit hcall _ hb hc, ih' hc]
      have hfilter : blockCalls b (calls ++ [call])
          = blockCalls b calls := by
        simp [blockCalls, Ne.symm hb]
      rw [hfilter]

/-- The addresses of all thread counters, in the host's order. -/
def counterCells (d : SketchDims) (shape : LaunchShape) : List Nat :=
  (List.range shape.gridSize).flatMap fun b =>
    (List.range shape.blockSize).map fun t => stride d shape * b + t

theorem counterCells_nodup : (counterCells d shape).Nodup := by
  refine nodup_flatMap.mpr ⟨fun b _ => ?_, ?_⟩
  · exact nodup_range.map fun _ _ h => add_left_cancel h
  · refine Pairwise.imp ?_ nodup_range
    intro b b' hne i hi hi'
    obtain ⟨t, ht, rfl⟩ := mem_map.mp hi
    obtain ⟨t', ht', he⟩ := mem_map.mp hi'
    rw [mem_range] at ht ht'
    have hlt : ∀ {x : Nat}, x < shape.blockSize → x < stride d shape := by
      intro x hx
      unfold stride
      omega
    exact region_ne (hlt ht') (hlt ht) (Ne.symm hne) he

section

variable (hfit : Fits d shape)
include hfit

theorem hostRowCount_eq (mem : Nat → Int) :
    hostRowCount d shape mem = ((counterCells d shape).map mem).sum := by
  unfold hostRowCount hostCounts counterCells
  rcases Nat.eq_zero_or_pos shape.gridSize with hg | hg
  · rw [hg]
    rfl
  · rw [counterSketchSize_eq hfit hg, map_flatMap]
    simp only [map_map]
    rfl

/-- The counters count the calls. -/
theorem hostRowCount_runLaunch (calls : List DeviceCall)
    (hcalls : ∀ call ∈ calls, ValidCall shape call) :
    hostRowCount d shape (runLaunch d xi shape calls) = calls.length := by
  rw [hostRowCount_eq hfit]
  induction calls using reverseRecOn with
  | nil =>
    refine sum_eq_zero ?_
    intro x hx
    obtain ⟨-, -, rfl⟩ := mem_map.mp hx
    rfl
  | append_singleton calls call ih =>
    have hcall := hcalls call (by simp)
    have ih' := ih fun x hx => hcalls x (mem_append_left _ hx)
    unfold runLaunch at ih' ⊢
    rw [foldl_append, foldl_cons, foldl_nil]
    have hmem : stride d shape * call.blockIdx + call.threadIdx
        ∈ counterCells d shape :=
      mem_flatMap.mpr ⟨_, mem_range.mpr hcall.1, mem_map.mpr ⟨_, mem_range.mpr hcall.2, rfl⟩⟩
    have hmap := map_congr_left
      (l := counterCells d shape)
      (f := aggCountAndUpdateSketchGpu d xi shape call
        (calls.foldl (fun mem call =>
          aggCountAndUpdateSketchGpu d xi shape call mem) fun _ => 0))
      (g := _) (fun i hi => by
        obtain ⟨b, -, hi'⟩ := mem_flatMap.mp hi
        obtain ⟨t, ht, rfl⟩ := mem_map.mp hi'
        exact gpuCall_counter hfit hcall _ (mem_range.mp ht))
    rw [hmap, Counters.sum_update counterCells_nodup hmem, ih']
    push_cast [length_append, length_singleton]
    ring

omit hfit in
/-- Splitting rows by block loses none. -/
theorem sum_blockCalls {g : Nat} (calls : List DeviceCall)
    (hcalls : ∀ call ∈ calls, call.blockIdx < g) (c : Nat) :
    ((range g).map fun b =>
        exactSketch d xi (rowsOf (blockCalls b calls)) c).sum
      = exactSketch d xi (deviceRows calls) c := by
  induction calls with
  | nil =>
    refine sum_eq_zero fun x hx => ?_
    obtain ⟨-, -, rfl⟩ := mem_map.mp hx
    rfl
  | cons call calls ih =>
    have hb := hcalls call (mem_cons_self ..)
    have ih' := ih fun x hx => hcalls x (mem_cons_of_mem _ hx)
    have hsplit : ∀ b, exactSketch d xi
        (rowsOf (blockCalls b (call :: calls))) c
          = (if b = call.blockIdx then contrib d xi call.keys c else 0)
            + exactSketch d xi (rowsOf (blockCalls b calls)) c := by
      intro b
      by_cases h : b = call.blockIdx
      · subst h
        simp [blockCalls, rowsOf, exactSketch]
      · simp [blockCalls, h, Ne.symm h]
    -- the row is counted in its own block and nowhere else
    have hone : ((range g).map fun b =>
        if b = call.blockIdx then contrib d xi call.keys c else 0).sum
          = contrib d xi call.keys c := by
      have hnd : (((range g).map fun b =>
          (b, contrib d xi call.keys c)).map Prod.fst).Nodup := by
        simpa [map_map, comp_def] using nodup_range
      have hd := Counters.delta_of_mem hnd
        (u := (call.blockIdx, contrib d xi call.keys c))
        (mem_map.mpr ⟨_, mem_range.mpr hb, rfl⟩)
      simpa [Counters.delta, map_map, comp_def] using hd
    simp only [hsplit, sum_map_add, hone, ih']
    simp [deviceRows, exactSketch]

/-- The host's reduction is the exact sketch of the rows fed to the
launch. -/
theorem updatedSketch_runLaunch (calls : List DeviceCall)
    (hcalls : ∀ call ∈ calls, ValidCall shape call)
    (hlen : calls.length ≤ 2 ^ 53) {c : Nat} (hc : c < d.totalSize) :
    updatedSketch d shape (runLaunch d xi shape calls) c
      = exactSketch d xi (deviceRows calls) c := by
  have hblock : ∀ b, sketchOf d xi (blockCalls b calls) c
      = exactSketch d xi (rowsOf (blockCalls b calls)) c := by
    intro b
    refine sketchOf_eq d xi ?_ c
    unfold blockCalls
    rw [length_map]
    exact (length_filter_le ..).trans hlen
  rw [← sum_blockCalls calls (fun call h => (hcalls call h).1) c]
  refine congrArg sum (map_congr_left fun b hb => ?_)
  have hg := lt_of_le_of_lt (zero_le b) (mem_range.mp hb)
  rw [counterSketchSize_eq hfit hg, ← hblock b]
  exact runLaunch_sketch hfit calls hcalls hc

-- ======== GPU against CPU

/-- Every cell a device call writes lies in its block's region. -/
theorem deviceWrites_region (hcall : ValidCall shape call) {i : Nat}
    (hi : i ∈ deviceWrites d xi shape call) :
    stride d shape * call.blockIdx ≤ i
      ∧ i < stride d shape * call.blockIdx + stride d shape := by
  have ht := hcall.2
  unfold deviceWrites sketchStartPoint at hi
  rw [blockSet_eq hfit hcall.1, mem_cons, mem_flatMap] at hi
  have hstride : stride d shape = shape.blockSize + d.totalSize := rfl
  rcases hi with rfl | ⟨r, hr, hi⟩
  · omega
  · obtain ⟨j, hj, rfl⟩ := mem_map.mp hi
    have hlt : deviceBucketIdx d xi call.keys r j < d.totalSize :=
      bucketIdx_lt d xi call.keys (mem_range.mp hr)
        (mem_range.mp hj)
    omega

end

/-- The GPU path equals the CPU path.

For every launch shape whose buffer size fits the `unsigned` product
that computes it, every distribution of at most `2 ^ 53` rows over the
(block, thread) pairs and every order of the calls: the cells a block's
calls write lie in that block's region, the regions are disjoint and
inside the allocated buffer, and the host's reduction gives the row
count and, cell by cell, the sketch that the CPU aggregate computes from
the same rows in any order. -/
theorem gpu_sketch_eq_cpu (d : SketchDims) (xi : Seeds)
    (shape : LaunchShape) (hfit : Fits d shape) (calls : List DeviceCall)
    (hcalls : ∀ call ∈ calls, ValidCall shape call) (hlen : calls.length ≤ 2 ^ 53) :
    (∀ call ∈ calls, ∀ i ∈ deviceWrites d xi shape call, blockSet d shape call.blockIdx ≤ i
        ∧ i < blockSet d shape call.blockIdx + stride d shape)
    ∧ (∀ b < shape.gridSize, ∀ b' < shape.gridSize, b < b' →
        blockSet d shape b + stride d shape ≤ blockSet d shape b')
    ∧ (∀ b < shape.gridSize, blockSet d shape b + stride d shape ≤ dataAllocSize d shape)
    ∧ ∀ cpuCalls : List Call, (rowsOf cpuCalls).Perm (deviceRows calls) →
        hostRowCount d shape (runLaunch d xi shape calls)
            = (feed d xi AggState.zero cpuCalls).counter
        ∧ ∀ c < d.totalSize, updatedSketch d shape (runLaunch d xi shape calls) c
              = sketchOf d xi cpuCalls c := by
  refine ⟨?_, ?_, ?_, ?_⟩
  · intro call hmem i hi
    rw [blockSet_eq hfit (hcalls call hmem).1]
    exact deviceWrites_region hfit (hcalls call hmem) hi
  · intro b hb b' hb' hlt
    rw [blockSet_eq hfit hb, blockSet_eq hfit hb']
    have h := Nat.mul_le_mul_left (stride d shape) (Nat.succ_le_of_lt hlt)
    rwa [Nat.mul_succ] at h
  · intro b hb
    rw [blockSet_eq hfit hb, dataAllocSize_eq hfit]
    exact region_end hb
  · intro cpuCalls hperm
    have hlen' : cpuCalls.length = calls.length := by
      simpa [rowsOf, deviceRows] using hperm.length_eq
    constructor
    · rw [hostRowCount_runLaunch hfit calls hcalls, feed_counter, hlen']
      exact (zero_add _).symm
    · intro c hc
      rw [updatedSketch_runLaunch hfit calls hcalls hlen hc,
        sketchOf_eq d xi (by omega), exactSketch_perm d xi hperm]

/-- The launch shape `SessionInfo` configures. -/
def sessionShape : LaunchShape := { gridSize := 26, blockSize := 1024 }

/-- Two zero rows on two blocks of the configured shape. -/
theorem gpu_sketch_eq_cpu_two_blocks :
    Fits oneColDims sessionShape
      ∧ ∀ c < oneColDims.totalSize, updatedSketch oneColDims sessionShape
            (runLaunch oneColDims zeroSeeds sessionShape
              [⟨0, 0, zeroCall.keys⟩, ⟨25, 1023, zeroCall.keys⟩]) c
          = sketchOf oneColDims zeroSeeds [zeroCall, zeroCall] c := by
  have hfit : Fits oneColDims sessionShape := by decide
  refine ⟨hfit, ?_⟩
  exact ((gpu_sketch_eq_cpu oneColDims zeroSeeds sessionShape hfit
    [⟨0, 0, zeroCall.keys⟩, ⟨25, 1023, zeroCall.keys⟩] (by decide)
    (by decide)).2.2.2 [zeroCall, zeroCall] (List.Perm.refl _)).2

-- ======== the two limits

/-- A grid whose buffer size no longer fits an `unsigned`. -/
def wideShape : LaunchShape := { gridSize := 350467, blockSize := 1024 }

/-- Two one-thread blocks. -/
def twoBlocks : LaunchShape := { gridSize := 2, blockSize := 1 }

/-- Past the limit of one buffer, two blocks together still count what
the CPU loses. -/
theorem two_blocks_ne_cpu {n : Nat} (hn : n = 2 ^ 53) :
    updatedSketch oneColDims twoBlocks
        (runLaunch oneColDims zeroSeeds twoBlocks
          (replicate n ⟨0, 0, zeroCall.keys⟩
            ++ [⟨1, 0, zeroCall.keys⟩])) 0
      ≠ sketchOf oneColDims zeroSeeds
          (replicate n zeroCall ++ [zeroCall]) 0 := by
  have hfit : Fits oneColDims twoBlocks := by decide
  have hvalid : ∀ call ∈ replicate n (⟨0, 0, zeroCall.keys⟩ : DeviceCall)
      ++ [⟨1, 0, zeroCall.keys⟩], ValidCall twoBlocks call := by
    intro call hcall
    rcases mem_append.mp hcall with h | h
    · obtain ⟨-, rfl⟩ := mem_replicate.mp h
      decide
    · rw [mem_singleton] at h
      subst h
      decide
  have hcell : ∀ b, runLaunch oneColDims zeroSeeds twoBlocks
      (replicate n ⟨0, 0, zeroCall.keys⟩ ++ [⟨1, 0, zeroCall.keys⟩])
      (counterSketchSize oneColDims twoBlocks * b + twoBlocks.blockSize + 0)
        = sketchOf oneColDims zeroSeeds (blockCalls b
          (replicate n ⟨0, 0, zeroCall.keys⟩
            ++ [⟨1, 0, zeroCall.keys⟩])) 0 := fun b =>
    runLaunch_sketch hfit _ hvalid (by decide)
  have h0 : blockCalls 0 (replicate n ⟨0, 0, zeroCall.keys⟩
      ++ [⟨1, 0, zeroCall.keys⟩]) = replicate n zeroCall := by
    simp [blockCalls, zeroCall]
  have h1 : blockCalls 1 (replicate n ⟨0, 0, zeroCall.keys⟩
      ++ [⟨1, 0, zeroCall.keys⟩]) = replicate 1 zeroCall := by
    simp [blockCalls, zeroCall]
  show ([0, 1].map fun b => runLaunch oneColDims zeroSeeds twoBlocks _
    (counterSketchSize oneColDims twoBlocks * b + twoBlocks.blockSize
      + 0)).sum ≠ _
  simp only [map_cons, map_nil, sum_cons, sum_nil]
  rw [hcell 0, hcell 1, h0, h1, sketchOf_zeroCalls hn.le,
    sketchOf_zeroCalls (by decide), sketchOf_zeroCalls_limit hn]
  omega

/-- Neither bound can be dropped: at a wide grid a block writes past the
allocated buffer, and `2 ^ 53 + 1` rows on two blocks give another
sketch than on the CPU. -/
theorem gpu_sketch_limits :
    (ValidCall wideShape ⟨350466, 0, zeroCall.keys⟩
      ∧ ∃ i ∈ deviceWrites oneColDims zeroSeeds wideShape
          ⟨350466, 0, zeroCall.keys⟩,
        dataAllocSize oneColDims wideShape ≤ i)
    ∧ updatedSketch oneColDims twoBlocks
          (runLaunch oneColDims zeroSeeds twoBlocks
            (List.replicate (2 ^ 53) ⟨0, 0, zeroCall.keys⟩
              ++ [⟨1, 0, zeroCall.keys⟩])) 0
        ≠ sketchOf oneColDims zeroSeeds
            (List.replicate (2 ^ 53) zeroCall ++ [zeroCall]) 0 := by
  refine ⟨⟨by decide, _, mem_cons_self .., by decide⟩, ?_⟩
  exact two_blocks_ne_cpu rfl

end Compass.Sketch

namespace Compass.Sketch

open List

variable (d : SketchDims) (xi : Seeds)

-- ======== kernel executions

/-- A kernel execution within the limits of its buffer: the launch fits
its allocation, the calls come from threads it has, and there are at
most `2 ^ 53` of them. -/
def KernelRun.Ok : KernelRun → Prop
  | .cpu calls => calls.length ≤ 2 ^ 53
  | .gpu shape calls => Fits d shape
      ∧ (∀ call ∈ calls, ValidCall shape call) ∧ calls.length ≤ 2 ^ 53

def KernelRun.OnDevice : ExecutorDeviceType → KernelRun → Prop
  | .cpu, .cpu _ => True
  | .gpu, .gpu _ _ => True
  | _, _ => False

/-- The executions, in finishing order, are those of the kernels that
`dispatchFragments` starts: each scans the rows of its fragments, in
whatever order its threads take them. -/
def IsDispatch (dev : ExecutorDeviceType) (frags : List Fragment) (runs : List KernelRun) : Prop :=
  ∃ kernels : List (List Fragment), kernels.Perm (dispatchFragments dev frags)
      ∧ List.Forall₂ (fun (run : KernelRun) ks => run.OnDevice dev
          ∧ run.rows.Perm (ks.flatMap Fragment.rows)) runs kernels

variable {d xi}

theorem KernelRun.sketch_eq {run : KernelRun} (hok : run.Ok d) {c : Nat} (hc : c < d.totalSize) :
    run.sketch d xi c = exactSketch d xi run.rows c := by
  cases run with
  | cpu calls => exact sketchOf_eq d xi hok c
  | gpu shape calls =>
    obtain ⟨hfit, hvalid, hlen⟩ := hok
    exact updatedSketch_runLaunch hfit calls hvalid hlen hc

-- ======== the fragments

/-- Grouping by device loses no fragment. -/
theorem flatten_group_perm {α : Type _} (key : α → Nat) :
    ∀ (ks : List Nat) (l : List α), ks.Nodup → (∀ a ∈ l, key a ∈ ks) →
      (ks.map fun k => l.filter fun a => key a = k).flatten.Perm l := by
  intro ks
  induction ks with
  | nil =>
    intro l _ hl
    cases l with
    | nil => exact List.Perm.refl _
    | cons a l => exact absurd (hl a (mem_cons_self ..)) (by simp)
  | cons k ks ih =>
    intro l hnd hl
    rw [nodup_cons] at hnd
    -- the other groups are the groups of the elements that are not `k`'s
    have hrest : (ks.map fun k' => l.filter fun a => key a = k')
        = ks.map fun k' => (l.filter fun a => ¬ key a = k).filter
            fun a => key a = k' := by
      refine map_congr_left fun k' hk' => ?_
      rw [filter_filter]
      refine filter_congr fun a _ => ?_
      by_cases ha : key a = k'
      · have hne : key a ≠ k := by
          intro heq
          subst heq
          exact hnd.1 (ha ▸ hk')
        simp [ha, ha ▸ hne]
      · simp [ha]
    rw [map_cons, flatten_cons, hrest]
    have hmem : ∀ a ∈ l.filter (fun a => ¬ key a = k), key a ∈ ks := by
      intro a ha
      obtain ⟨hal, hne⟩ := mem_filter.mp ha
      rcases mem_cons.mp (hl a hal) with h | h
      · exact absurd h (by simpa using hne)
      · exact h
    refine ((ih _ hnd.2 hmem).append_left _).trans ?_
    simpa using filter_append_perm (fun a => decide (key a = k)) l

/-- The kernels together scan every fragment once. -/
theorem dispatchFragments_flatten (dev : ExecutorDeviceType) (frags : List Fragment) :
    (dispatchFragments dev frags).flatten.Perm frags := by
  cases dev with
  | cpu =>
    show (frags.map fun f => [f]).flatten.Perm frags
    rw [show (frags.map fun f => [f]).flatten = frags by
      induction frags with
      | nil => rfl
      | cons f frags ih => simp [ih]]
  | gpu =>
    refine flatten_group_perm Fragment.deviceId _ frags
      (nodup_dedup _) fun f hf => ?_
    exact mem_dedup.mpr (mem_map_of_mem hf)

/-- The executions of a dispatch are fed the rows of the table. -/
theorem IsDispatch.rows_perm {dev : ExecutorDeviceType}
    {frags : List Fragment} {runs : List KernelRun} (h : IsDispatch dev frags runs) :
    (runs.flatMap KernelRun.rows).Perm (frags.flatMap Fragment.rows) := by
  obtain ⟨kernels, hperm, hrel⟩ := h
  have hruns : (runs.flatMap KernelRun.rows).Perm
      (kernels.flatten.flatMap Fragment.rows) := by
    clear hperm
    induction hrel with
    | nil => exact List.Perm.refl _
    | cons hhead _ ih =>
      rw [flatMap_cons, flatten_cons, flatMap_append]
      exact hhead.2.append ih
  refine hruns.trans (Perm.flatMap_right _ ?_)
  exact hperm.flatten.trans (dispatchFragments_flatten dev frags)

-- ======== the copy-out

/-- One kernel replaces every column by its own. -/
theorem executePlan_elements (st : DispatchState) (run : KernelRun) {i : Nat} (hi : i < d.numCols) :
    (executePlanWithoutGroupBy d xi st run).separateSketchElements i
      = fun j => run.sketch d xi (i * d.sketchSize + j) := by
  show (range d.numCols).foldl _ st.separateSketchElements i = _
  have hmem : i ∈ range d.numCols := mem_range.mpr hi
  generalize range d.numCols = cols at hmem
  induction cols using reverseRecOn with
  | nil => cases hmem
  | append_singleton cols k ih =>
    rw [foldl_append, foldl_cons, foldl_nil]
    by_cases hk : i = k
    · subst hk
      exact Function.update_self ..
    · rw [Function.update_of_ne hk]
      refine ih ?_
      rcases mem_append.mp hmem with h | h
      · exact h
      · exact absurd (mem_singleton.mp h) hk

/-- After all kernels, the columns are those of the last to finish. -/
theorem runKernels_elements (runs : List KernelRun) (last : KernelRun)
    {i : Nat} (hi : i < d.numCols) (j : Nat) :
    (runKernels d xi (runs ++ [last])).separateSketchElements i j
      = last.sketch d xi (i * d.sketchSize + j) := by
  unfold runKernels
  rw [foldl_append, foldl_cons, foldl_nil, executePlan_elements _ _ hi]

/-- A (column, cell) pair as a cell of the flat buffer. -/
theorem flatCell_lt {i j : Nat} (hi : i < d.numCols)
    (hj : j < d.sketchSize) : i * d.sketchSize + j < d.totalSize := by
  have := col_end_le d hi
  omega

theorem exists_flatCell {c : Nat} (hc : c < d.totalSize) :
    ∃ i < d.numCols, ∃ j < d.sketchSize, c = i * d.sketchSize + j := by
  have hS : 0 < d.sketchSize := Nat.mul_pos d.buckets_pos d.rows_pos
  refine ⟨c / d.sketchSize, ?_, c % d.sketchSize, Nat.mod_lt _ hS, ?_⟩
  · exact (Nat.div_lt_iff_lt_mul hS).mpr hc
  · rw [Nat.mul_comm]
    exact (Nat.div_add_mod c _).symm

-- ======== merged or overwritten

/-- When the sketch left behind is the sketch of the table.

For every table cut into fragments in any way, on the CPU or the GPU,
for every schedule inside the kernels and every order in which they
finish: the columns left in `separate_sketch_elements` equal, cell by
cell, the sketch of all rows of the table if and only if in every cell
the signs of the rows scanned by the kernels other than the last one to
finish add up to zero. -/
theorem separate_sketch_merged_iff (d : SketchDims) (xi : Seeds)
    (dev : ExecutorDeviceType) (frags : List Fragment)
    (runs : List KernelRun) (hdisp : IsDispatch dev frags runs) (hok : ∀ run ∈ runs, run.Ok d) :
    (∀ i < d.numCols, ∀ j < d.sketchSize, (runKernels d xi runs).separateSketchElements i j
          = exactSketch d xi (frags.flatMap Fragment.rows)
              (i * d.sketchSize + j))
      ↔ ∀ c < d.totalSize, exactSketch d xi (runs.dropLast.flatMap KernelRun.rows) c
            = 0 := by
  have hrows := hdisp.rows_perm
  rcases eq_nil_or_concat runs with rfl | ⟨init, last, rfl⟩
  · -- no kernel at all: the columns are still zero, and so is the table
    constructor
    · intro _ c _
      rfl
    · intro _ i _ j _
      rw [← exactSketch_perm d xi hrows]
      rfl
  · rw [concat_eq_append] at hrows hok ⊢
    rw [dropLast_concat]
    have hlast : last.Ok d := hok last (by simp)
    have hsplit : ∀ c, exactSketch d xi (frags.flatMap Fragment.rows) c
        = exactSketch d xi (init.flatMap KernelRun.rows) c
          + exactSketch d xi last.rows c := by
      intro c
      rw [← exactSketch_perm d xi hrows, flatMap_append, exactSketch_append]
      simp
    constructor
    · intro h c hc
      obtain ⟨i, hi, j, hj, rfl⟩ := exists_flatCell hc
      have := h i hi j hj
      rw [runKernels_elements init last hi, last.sketch_eq hlast hc, hsplit] at this
      omega
    · intro h i hi j hj
      have hc := flatCell_lt hi hj
      rw [runKernels_elements init last hi, last.sketch_eq hlast hc, hsplit, h _ hc, zero_add]

/-- A fragment holding the one zero row. -/
def zeroFragment : Fragment := { deviceId := 0, rows := [zeroCall.keys] }

/-- The CPU kernel that scans it. -/
def zeroRun : KernelRun := .cpu [zeroCall]

/-- All seeds of signs one: the sign of a key is that of its last bit. -/
def signSeeds : Seeds := { xiBucket := fun _ => 0, xiPm1 := fun _ => 1 }

def oneCall : Call := { threadId := 0, keys := fun _ => 1 }

/-- The rows 0 and 1 go to the same cells with opposite signs. -/
theorem contrib_cancel (c : Nat) :
    contrib oneColDims signSeeds zeroCall.keys c
      + contrib oneColDims signSeeds oneCall.keys c = 0 := by
  have hidx : ∀ r j, bucketIdx oneColDims signSeeds oneCall.keys r j
      = bucketIdx oneColDims signSeeds zeroCall.keys r j := by
    intro r j
    have hbucket : cw2b 0 0 (1 : Int64).toUInt64 1021 = cw2b 0 0 (0 : Int64).toUInt64 1021 := by
      decide
    exact congrArg (fun b => (j * oneColDims.sketchSize
      + r * oneColDims.numBuckets % 2 ^ 32 + UInt32.toNat b) % 2 ^ 32) hbucket
  have hsign : eh3 1 1 (0 : Int64).toUInt64.toUInt32
      + eh3 1 1 (1 : Int64).toUInt64.toUInt32 = 0 := by decide
  by_cases h : ∃ r j, r < oneColDims.numRows ∧ j < oneColDims.numCols
      ∧ bucketIdx oneColDims signSeeds zeroCall.keys r j = c
  · obtain ⟨r, j, hr, hj, rfl⟩ := h
    rw [contrib_bucketIdx oneColDims signSeeds zeroCall.keys hr hj, ← hidx,
      contrib_bucketIdx oneColDims signSeeds oneCall.keys hr hj]
    exact hsign
  · rw [contrib_of_ne oneColDims signSeeds zeroCall.keys fun r j hr hj hc => h ⟨r, j, hr, hj, hc⟩,
      contrib_of_ne oneColDims signSeeds oneCall.keys fun r j hr hj hc =>
        h ⟨r, j, hr, hj, (hidx r j).symm.trans hc⟩, zero_add]

/-- A fragment whose rows cancel, and one whose kernel ends last. -/
theorem separate_sketch_merged_cancelling :
    IsDispatch .cpu [⟨0, [zeroCall.keys, oneCall.keys]⟩, ⟨0, [zeroCall.keys]⟩]
        [.cpu [zeroCall, oneCall], .cpu [zeroCall]]
      ∧ ∀ i < oneColDims.numCols, ∀ j < oneColDims.sketchSize, (runKernels oneColDims signSeeds
            [.cpu [zeroCall, oneCall], .cpu [zeroCall]]).separateSketchElements i j
          = exactSketch oneColDims signSeeds
              [zeroCall.keys, oneCall.keys, zeroCall.keys] (i * oneColDims.sketchSize + j) := by
  have hdispatch : IsDispatch .cpu [⟨0, [zeroCall.keys, oneCall.keys]⟩, ⟨0, [zeroCall.keys]⟩]
      [.cpu [zeroCall, oneCall], .cpu [zeroCall]] :=
    ⟨[[⟨0, [zeroCall.keys, oneCall.keys]⟩], [⟨0, [zeroCall.keys]⟩]], .refl _,
      .cons ⟨trivial, .refl _⟩ (.cons ⟨trivial, .refl _⟩ .nil)⟩
  have hok : ∀ run ∈ [KernelRun.cpu [zeroCall, oneCall], .cpu [zeroCall]], run.Ok oneColDims :=
    forall_mem_cons.2 ⟨show 2 ≤ 2 ^ 53 by decide,
      forall_mem_singleton.2 (show 1 ≤ 2 ^ 53 by decide)⟩
  refine ⟨hdispatch, (separate_sketch_merged_iff oneColDims signSeeds .cpu _ _ hdispatch hok).mpr ?_⟩
  intro c _
  show contrib _ _ _ c + (contrib _ _ _ c + 0) = 0
  rw [add_zero]
  exact contrib_cancel c

/-- Two fragments of one row each: the second kernel overwrites the
first one's contribution. -/
theorem separate_sketch_overwritten :
    IsDispatch .cpu [zeroFragment, zeroFragment] [zeroRun, zeroRun]
      ∧ (runKernels oneColDims zeroSeeds
          [zeroRun, zeroRun]).separateSketchElements 0 0
        ≠ exactSketch oneColDims zeroSeeds
            ([zeroFragment, zeroFragment].flatMap Fragment.rows) 0 := by
  refine ⟨⟨[[zeroFragment], [zeroFragment]], List.Perm.refl _, .cons ⟨trivial, List.Perm.refl _⟩
      (.cons ⟨trivial, List.Perm.refl _⟩ .nil)⟩, ?_⟩
  have hfinal : (runKernels oneColDims zeroSeeds
      [zeroRun, zeroRun]).separateSketchElements 0 0 = -1 := by
    have hsk : zeroRun.sketch oneColDims zeroSeeds 0 = -1 :=
      sketchOf_zeroCalls (n := 1) (by decide)
    exact (runKernels_elements [zeroRun] zeroRun (by decide) 0).trans hsk
  have htable : exactSketch oneColDims zeroSeeds
      ([zeroFragment, zeroFragment].flatMap Fragment.rows) 0 = -2 := by
    show contrib _ _ zeroCall.keys 0 + (contrib _ _ zeroCall.keys 0 + 0) = _
    rfl
  rw [hfinal, htable]
  decide

end Compass.Sketch
