/-
`hash31` against the linear hash modulo `2 ^ 31 - 1`.

Since `2 ^ 31` is one modulo the prime, a number is congruent to the sum
of its upper part and its lower 31 bits. The fold computes that sum and
then masks it to 31 bits. What the mask drops is a carry that counts for
one modulo the prime, and the sum is at most twice `2 ^ 31`, so the result
is right exactly when there is no carry.

The runtime sketch of a column is the library's sketch of its keys, as
long as the keys are the library's.

# The argument

Both halves write one cell per sketch row. The library writes cell
`i * buckets_no + bucket`; the runtime writes the same place of the
column's block (`bucketIdx_eq`). The generating schemes are the same
functions in both files, and the flattened arrays hold the generators' own
seeds (`words_of_seeds`). What differs is what the hash receives: the
library has already dropped the upper half of the key. So the library's
sketch of any keys is the runtime's sketch of their lower halves
(`host_eq_runtime_low`), and the two agree where the lower half is the key.

No bound on the number of rows is needed here. Both sides round the same
sums: a library cell is a `double`, and the runtime converts a cell that
is already one (`IntDouble.ofInt_add`), so past `2 ^ 53` they stop
counting together.
-/
import Mathlib.Data.Int.ModEq
import Compass.Sketch.Host
import Compass.Sketch.Proofs.Runtime

namespace Compass.Sketch

open Nat

/-- With operands of that size the product does not wrap, and the fold is
the upper part plus the lower part, masked. -/
theorem hash31_toNat {a b x : UInt64} (ha : a.toNat < 2 ^ 31) (hb : b.toNat < 2 ^ 31)
    (hx : x.toNat < 2 ^ 32) :
    (hash31 a b x).toNat
      = ((a.toNat * x.toNat + b.toNat) / 2 ^ 31 + (a.toNat * x.toNat + b.toNat)) % 2 ^ 31 := by
  have hbound : a.toNat * x.toNat ≤ (2 ^ 31 - 1) * (2 ^ 32 - 1) :=
    Nat.mul_le_mul (by omega) (by omega)
  have hresult : (a * x + b).toNat = a.toNat * x.toNat + b.toNat := by
    rw [UInt64.toNat_add, UInt64.toNat_mul, Nat.mod_eq_of_lt (a := a.toNat * x.toNat) (by omega),
      Nat.mod_eq_of_lt (by omega)]
  have hupper : ((a * x + b) >>> 31).toNat = (a.toNat * x.toNat + b.toNat) / 2 ^ 31 := by
    rw [UInt64.toNat_shiftRight, hresult, Nat.shiftRight_eq_div_pow]
    rfl
  have hfold : (((a * x + b) >>> 31 + (a * x + b)) &&& UInt64.ofNat randomGenSchemeMod).toNat
      = ((a.toNat * x.toNat + b.toNat) / 2 ^ 31 + (a.toNat * x.toNat + b.toNat)) % 2 ^ 31 := by
    rw [UInt64.toNat_and, UInt64.toNat_add, hupper, hresult, Nat.mod_eq_of_lt (by omega)]
    exact Nat.and_two_pow_sub_one_eq_mod _ 31
  unfold hash31
  rw [UInt64.toNat_toUInt32, hfold]
  omega

/-- A masked sum is congruent to the number exactly when the mask drops
nothing. -/
theorem fold_modEq_iff {r : Nat} (hr : r < 2 ^ 63) :
    (r / 2 ^ 31 + r) % 2 ^ 31 ≡ r [MOD randomGenSchemeMod]
      ↔ r / 2 ^ 31 + r % 2 ^ 31 < 2 ^ 31 := by
  have hp : randomGenSchemeMod = 2 ^ 31 - 1 := rfl
  -- the carry, and the number as the masked sum plus the carry
  obtain ⟨c, hc⟩ : ∃ c, c = (r / 2 ^ 31 + r % 2 ^ 31) / 2 ^ 31 := ⟨_, rfl⟩
  obtain ⟨m, hm⟩ : ∃ m, m = (r / 2 ^ 31 + r) % 2 ^ 31 := ⟨_, rfl⟩
  have hsplit : r = m + c + (c + r / 2 ^ 31) * randomGenSchemeMod := by
    rw [hp]
    omega
  have hcarry : r ≡ m + c [MOD randomGenSchemeMod] := by
    conv_lhs => rw [hsplit]
    exact add_mul_modulus_modEq_iff.mpr rfl
  rw [← hm]
  constructor
  · intro heq
    have hdvd : randomGenSchemeMod ∣ c :=
      add_modEq_left_iff.mp (hcarry.symm.trans heq.symm)
    have hzero : c = 0 := eq_zero_of_dvd_of_lt hdvd (by rw [hp]; omega)
    omega
  · intro hlt
    have hzero : c = 0 := by omega
    rw [hzero, add_zero] at hcarry
    exact hcarry.symm

/-- The hash is the linear one, in the library and in the runtime, exactly
for the operands whose fold has no carry. -/
theorem hash31_modEq_iff {a b x : UInt64} (ha : a.toNat < 2 ^ 31) (hb : b.toNat < 2 ^ 31)
    (hx : x.toNat < 2 ^ 32) :
    ((Host.hash31 a b x).toNat ≡ a.toNat * x.toNat + b.toNat [MOD randomGenSchemeMod]
        ∧ (hash31 a b x).toNat ≡ a.toNat * x.toNat + b.toNat [MOD randomGenSchemeMod])
      ↔ (a.toNat * x.toNat + b.toNat) / 2 ^ 31 + (a.toNat * x.toNat + b.toNat) % 2 ^ 31
          < 2 ^ 31 := by
  have hbound : a.toNat * x.toNat ≤ (2 ^ 31 - 1) * (2 ^ 32 - 1) :=
    Nat.mul_le_mul (by omega) (by omega)
  have hsame : Host.hash31 a b x = hash31 a b x := rfl
  rw [hsame, and_self, hash31_toNat ha hb hx]
  exact fold_modEq_iff (by omega)

theorem hash31_modEq_small :
    ((Host.hash31 5 7 4000000000).toNat ≡ 5 * 4000000000 + 7 [MOD randomGenSchemeMod]
      ∧ (hash31 5 7 4000000000).toNat ≡ 5 * 4000000000 + 7 [MOD randomGenSchemeMod]) :=
  (hash31_modEq_iff (a := 5) (b := 7) (x := 4000000000) (by decide) (by decide)
    (by decide)).mpr (by decide)

/-- The identity hash of the largest key, `2 * (2 ^ 31 - 1) + 1`, is zero
and not one. -/
theorem hash31_carry :
    (Host.hash31 1 0 4294967295).toNat = 0 ∧ (hash31 1 0 4294967295).toNat = 0
      ∧ ¬ 0 ≡ 1 * 4294967295 + 0 [MOD randomGenSchemeMod] := by
  decide +kernel

end Compass.Sketch

namespace Compass.Sketch

variable (d : SketchDims) (gens : Generators d)

-- ======== the schemes are the same

theorem Host.cw2b_eq (a b : UInt32) (x : UInt64) (m : UInt32) :
    Host.cw2b a.toUInt64 b.toUInt64 x m = Sketch.cw2b a b x m := rfl

theorem Host.eh3_eq (i0 i1 j : UInt32) : Host.eh3 i0 i1 j = Sketch.eh3 i0 i1 j :=
  rfl

variable {j : Nat}
variable {r : Nat}

/-- Word `2 * (num_cols * r + j)` is the first of (row, column). -/
theorem firstSeedIdx_div (hj : j < d.numCols) : firstSeedIdx d r j / 2 / d.numCols = r
      ∧ firstSeedIdx d r j / 2 % d.numCols = j := by
  have hpos : 0 < d.numCols := by omega
  unfold firstSeedIdx
  rw [Nat.mul_div_cancel_left _ (by decide : 0 < 2), Nat.mul_add_div hpos,
    Nat.div_eq_of_lt hj, Nat.mul_add_mod, Nat.mod_eq_of_lt hj]
  exact ⟨Nat.add_zero r, rfl⟩

/-- Of the words stored in turn, the two of (row, column) are its seeds. -/
theorem words_of_seeds (seeds : Nat → Nat → UInt32 × UInt32) (r : Nat) (hj : j < d.numCols) :
    let word n := if n % 2 = 0 then (seeds (n / 2 % d.numCols) (n / 2 / d.numCols)).1
      else (seeds (n / 2 % d.numCols) (n / 2 / d.numCols)).2
    word (firstSeedIdx d r j) = (seeds j r).1 ∧ word (firstSeedIdx d r j + 1) = (seeds j r).2 := by
  obtain ⟨hdiv, hmod⟩ := firstSeedIdx_div d (r := r) hj
  have heven : firstSeedIdx d r j % 2 = 0 := Nat.mul_mod_right 2 _
  have hodd : (firstSeedIdx d r j + 1) % 2 ≠ 0 := by omega
  have hhalf : (firstSeedIdx d r j + 1) / 2 = firstSeedIdx d r j / 2 := by omega
  dsimp only
  rw [if_pos heven, if_neg hodd, hhalf, hdiv, hmod]
  exact ⟨rfl, rfl⟩

-- ======== lower halves

/-- The key that keeps only the lower half. -/
def lowKey (key : Int64) : Int64 := key.toUInt64.toUInt32.toUInt64.toInt64

/-- A row of keys, each cut to its lower half. -/
def lowCall (call : Call) : Call :=
  { call with keys := fun j => lowKey (call.keys j) }

theorem toUInt64_lowKey (key : Int64) :
    (lowKey key).toUInt64 = (libraryKey key).toUInt64 := rfl

/-- Cutting twice is cutting once. -/
theorem libraryKey_lowKey (key : Int64) :
    libraryKey (lowKey key) = libraryKey key := by
  show (lowKey key).toUInt64.toUInt32 = libraryKey key
  rw [toUInt64_lowKey, UInt32.toUInt32_toUInt64]

variable {key : Int64}

/-- A key of the library's type is its own lower half. -/
theorem lowKey_of_range (h0 : 0 ≤ key.toInt) (h1 : key.toInt < 2 ^ 32) : lowKey key = key := by
  have hle : 0 ≤ key := Int64.le_iff_toInt_le.mpr h0
  have hn : key.toUInt64.toNat = key.toInt.toNat :=
    Int64.toNat_toUInt64_of_le hle
  have hlow : (libraryKey key).toUInt64 = key.toUInt64 := by
    apply UInt64.toNat_inj.mp
    show key.toUInt64.toNat % 2 ^ 32 = key.toUInt64.toNat
    omega
  show ((libraryKey key).toUInt64).toInt64 = key
  rw [hlow, Int64.toInt64_toUInt64]

-- ======== one row, one cell

/-- The runtime's bucket of a lower half is the library's bucket. -/
theorem bucketOf_low {keys : Keys} (r : Nat) (hj : j < d.numCols) (hkey : keys j = lowKey key) :
    bucketOf d (flattenSeeds d gens) keys r j
      = (((gens.column j).xiBucket r).element (libraryKey key)).toNat := by
  obtain ⟨h1, h2⟩ : (flattenSeeds d gens).xiBucket (firstSeedIdx d r j) = _
      ∧ (flattenSeeds d gens).xiBucket (firstSeedIdx d r j + 1) = _ :=
    words_of_seeds d (fun j r => ((gens.column j).xiBucket r).seeds) r hj
  unfold bucketOf XiCW2B.element
  rw [h1, h2, gens.buckets_no, Host.cw2b_eq, hkey, toUInt64_lowKey]

/-- The runtime's sign of a key is the library's sign, whatever the
key's upper half. -/
theorem signOf_flattenSeeds (keys : Keys) (r : Nat) (hj : j < d.numCols) :
    signOf d (flattenSeeds d gens) keys r j
      = ((gens.column j).xiPm1 r).element (libraryKey (keys j)) := by
  obtain ⟨h1, h2⟩ : (flattenSeeds d gens).xiPm1 (firstSeedIdx d r j) = _
      ∧ (flattenSeeds d gens).xiPm1 (firstSeedIdx d r j + 1) = _ :=
    words_of_seeds d (fun j r => ((gens.column j).xiPm1 r).seeds) r hj
  unfold signOf XiEH3.element
  rw [h1, h2, Host.eh3_eq]
  rfl

/-- What one runtime call does to a cell of a (row, column) block. -/
theorem agg_cell (xi : Seeds) (tid : Nat) (keys : Keys) (st : AggState) {b : Nat}
    (hr : r < d.numRows) (hj : j < d.numCols) (hb : b < d.numBuckets) :
    (aggCountAndUpdateSketch d xi tid keys st).sketchData
        (blockStart d r j + b)
      = if b = bucketOf d xi keys r j then
          addSign (st.sketchData (blockStart d r j + b))
            (signOf d xi keys r j)
        else st.sketchData (blockStart d r j + b) := by
  rw [(aggCountAndUpdateSketch_eq d xi tid keys st).1]
  by_cases h : b = bucketOf d xi keys r j
  · rw [if_pos h]
    have hmem : (bucketIdx d xi keys r j, signOf d xi keys r j)
        ∈ cellWrites d xi (tid % d.numRows) keys :=
      List.mem_map.mpr ⟨(r, j), (mem_visits d).mpr ⟨hr, hj⟩, rfl⟩
    have hrun := Counters.run_of_mem addSign st.sketchData
      (cellWrites_nodup d xi _ keys) hmem
    rwa [bucketIdx_eq d xi keys hr hj, ← h] at hrun
  · rw [if_neg h]
    refine Counters.run_of_not_mem addSign _ ?_
    intro hc
    obtain ⟨u, hu, hcell⟩ := List.mem_map.mp hc
    obtain ⟨p, hp, rfl⟩ := List.mem_map.mp hu
    obtain ⟨hp1, hp2⟩ := (mem_visits d).mp hp
    have hidx : bucketIdx d xi keys p.1 p.2 = blockStart d r j + b := hcell
    rw [bucketIdx_eq d xi keys hp1 hp2] at hidx
    obtain ⟨h1, h2⟩ := block_inj d hp1 hr (bucketOf_lt ..) hb hidx
    rw [h1, h2] at hidx
    exact h (add_left_cancel hidx).symm

/-- The writes of one `Update_Sketch`. -/
def hostWrites (bucketsNo rowsNo : Nat) (xi : ColumnXi) (key : UInt32) :
    List (Nat × Int) :=
  (List.range rowsNo).map fun i =>
    (i * bucketsNo + ((xi.xiBucket i).element key).toNat, (xi.xiPm1 i).element key)

theorem XiEH3.element_eq (xi : XiEH3) (key : UInt32) :
    xi.element key = 1 ∨ xi.element key = -1 :=
  Sketch.eh3_eq xi.seeds.1 xi.seeds.2 key

/-- Counting a key once is a batch of double additions. -/
theorem updateSketch_eq (bucketsNo rowsNo : Nat) (xi : ColumnXi)
    (key : UInt32) (cells : Nat → Int) :
    updateSketch bucketsNo rowsNo xi key 1 cells
      = Counters.run IntDouble.add cells
          (hostWrites bucketsNo rowsNo xi key) := by
  have hone : ∀ i, IntDouble.ofInt ((xi.xiPm1 i).element key * 1)
      = (xi.xiPm1 i).element key := by
    intro i
    rw [mul_one]
    apply IntDouble.ofInt_of_le
    rcases (xi.xiPm1 i).element_eq key with h | h <;> rw [h] <;> decide
  unfold updateSketch hostWrites Counters.run
  rw [List.foldl_map]
  simp only [hone]
  rfl

/-- The rows of a library sketch are disjoint blocks of buckets. -/
theorem hostWrites_nodup {bucketsNo : Nat} (rowsNo : Nat) {xi : ColumnXi} {key : UInt32}
    (hlt : ∀ i, ((xi.xiBucket i).element key).toNat < bucketsNo) :
    ((hostWrites bucketsNo rowsNo xi key).map Prod.fst).Nodup := by
  unfold hostWrites
  rw [List.map_map]
  refine List.Nodup.map_on ?_ List.nodup_range
  intro i _ i' _ he
  have hpos : 0 < bucketsNo := lt_of_le_of_lt (Nat.zero_le _) (hlt 0)
  have hdiv : ∀ {k : Nat}, (k * bucketsNo
      + ((xi.xiBucket k).element key).toNat) / bucketsNo = k := by
    intro k
    rw [Nat.mul_comm, Nat.mul_add_div hpos, Nat.div_eq_of_lt (hlt k), Nat.add_zero]
  calc i = (i * bucketsNo + ((xi.xiBucket i).element key).toNat)
        / bucketsNo := hdiv.symm
    _ = (i' * bucketsNo + ((xi.xiBucket i').element key).toNat)
        / bucketsNo := congrArg (· / bucketsNo) he
    _ = i' := hdiv

/-- What one `Update_Sketch` does to a cell. -/
theorem updateSketch_cell {bucketsNo rowsNo : Nat} {xi : ColumnXi} {key : UInt32}
    (cells : Nat → Int) (hlt : ∀ i, ((xi.xiBucket i).element key).toNat < bucketsNo) {b : Nat}
    (hr : r < rowsNo) (hb : b < bucketsNo) :
    updateSketch bucketsNo rowsNo xi key 1 cells (r * bucketsNo + b)
      = if b = ((xi.xiBucket r).element key).toNat then
          IntDouble.add (cells (r * bucketsNo + b))
            ((xi.xiPm1 r).element key)
        else cells (r * bucketsNo + b) := by
  rw [updateSketch_eq]
  by_cases h : b = ((xi.xiBucket r).element key).toNat
  · rw [if_pos h]
    have hmem : (r * bucketsNo + b, (xi.xiPm1 r).element key)
        ∈ hostWrites bucketsNo rowsNo xi key :=
      List.mem_map.mpr ⟨r, List.mem_range.mpr hr, by rw [h]⟩
    exact Counters.run_of_mem IntDouble.add cells
      (hostWrites_nodup rowsNo hlt) hmem
  · rw [if_neg h]
    refine Counters.run_of_not_mem IntDouble.add _ ?_
    intro hc
    obtain ⟨u, hu, hcell⟩ := List.mem_map.mp hc
    obtain ⟨i, _, rfl⟩ := List.mem_map.mp hu
    have hidx : i * bucketsNo + ((xi.xiBucket i).element key).toNat
        = r * bucketsNo + b := hcell
    have hpos : 0 < bucketsNo := by omega
    have hi : i = r := by
      have hquot := congrArg (· / bucketsNo) hidx
      simp only [Nat.mul_comm _ bucketsNo, Nat.mul_add_div hpos,
        Nat.div_eq_of_lt (hlt i), Nat.div_eq_of_lt hb, Nat.add_zero] at hquot
      exact hquot
    rw [hi] at hidx
    exact h (Nat.add_left_cancel hidx).symm

-- ======== whole runs

/-- The runtime's block of a column and the library's sketch hold the
same doubles. -/
def Agree (j : Nat) (st : AggState) (cells : Nat → Int) : Prop :=
  ∀ r < d.numRows, ∀ b < d.numBuckets,
    st.sketchData (blockStart d r j + b) = cells (r * d.numBuckets + b)
      ∧ IntDouble.ofInt (cells (r * d.numBuckets + b))
        = cells (r * d.numBuckets + b)

/-- One row keeps the two sketches equal, if the runtime gets the lower
half of the library's key. -/
theorem agree_step (hj : j < d.numCols) {call : Call} (hkey : call.keys j = lowKey key)
    {st : AggState} {cells : Nat → Int} (h : Agree d j st cells) : Agree d j
      (aggCountAndUpdateSketch d (flattenSeeds d gens) call.threadId
        call.keys st)
      (updateSketch d.numBuckets d.numRows (gens.column j) (libraryKey key) 1
        cells) := by
  have hlt : ∀ i, (((gens.column j).xiBucket i).element
      (libraryKey key)).toNat < d.numBuckets := by
    intro i
    rw [← bucketOf_low d gens i hj hkey]
    exact bucketOf_lt ..
  intro r hr b hb
  obtain ⟨heq, hdouble⟩ := h r hr b hb
  rw [agg_cell d _ _ _ _ hr hj hb, updateSketch_cell _ hlt hr hb,
    bucketOf_low d gens r hj hkey, signOf_flattenSeeds d gens _ r hj, hkey,
    libraryKey_lowKey]
  split
  · refine ⟨?_, IntDouble.ofInt_add _ _⟩
    unfold addSign
    rw [heq, hdouble]
  · exact ⟨heq, hdouble⟩

/-- The invariant over a whole run. -/
theorem agree_feed (hj : j < d.numCols) {calls : List Call} {keys : List Int64}
    (hkeys : List.Forall₂ (fun call key => call.keys j = lowKey key) calls keys) :
    ∀ (st : AggState) (cells : Nat → Int), Agree d j st cells →
      Agree d j (feed d (flattenSeeds d gens) st calls)
        (keys.foldl
          (fun cells key => updateSketch d.numBuckets d.numRows
            (gens.column j) (libraryKey key) 1 cells) cells) := by
  induction hkeys with
  | nil =>
    intro st cells h
    exact h
  | cons hkey _ ih =>
    intro st cells h
    exact ih _ _ (agree_step d gens hj hkey h)

/-- A run on lower halves fills a column's block with the library's
sketch. -/
theorem runtime_eq_host (hj : j < d.numCols) {calls : List Call} {keys : List Int64}
    (hkeys : List.Forall₂ (fun call key => call.keys j = lowKey key) calls keys) {b : Nat}
    (hr : r < d.numRows) (hb : b < d.numBuckets) :
    sketchOf d (flattenSeeds d gens) calls (blockStart d r j + b)
      = hostSketch d.numBuckets d.numRows (gens.column j) keys
          (r * d.numBuckets + b) := by
  have hdouble : IntDouble.ofInt 0 = 0 := by decide
  have hzero : Agree d j AggState.zero (fun _ => 0) :=
    fun _ _ _ _ => ⟨rfl, hdouble⟩
  exact (agree_feed d gens hj hkeys _ _ hzero r hr b hb).1

/-- The keys of one column, as the calls bring them. -/
def columnKeys (calls : List Call) (j : Nat) : List Int64 :=
  calls.map fun call => call.keys j

/-- The two sketches of a join column.

For every dimensions, generators, calls and column: the library's sketch
of the column's 64-bit keys is the runtime's sketch of their lower 32
bits, and when every key already fits the library's `unsigned int`
parameter the runtime's sketch of the keys themselves is the library's,
cell by cell. The sign of a key is the same on both sides for all keys. -/
theorem host_runtime_sketch_agree (calls : List Call) :
    (∀ j < d.numCols, ∀ r < d.numRows, ∀ b < d.numBuckets,
      sketchOf d (flattenSeeds d gens) (calls.map lowCall)
          (blockStart d r j + b)
        = hostSketch d.numBuckets d.numRows (gens.column j)
            (columnKeys calls j) (r * d.numBuckets + b))
    ∧ (∀ j < d.numCols, (∀ key ∈ columnKeys calls j, 0 ≤ key.toInt ∧ key.toInt < 2 ^ 32) →
        ∀ r < d.numRows, ∀ b < d.numBuckets,
          sketchOf d (flattenSeeds d gens) calls (blockStart d r j + b)
            = hostSketch d.numBuckets d.numRows (gens.column j)
                (columnKeys calls j) (r * d.numBuckets + b))
    ∧ ∀ (keys : Keys) (r j : Nat), j < d.numCols →
        signOf d (flattenSeeds d gens) keys r j
          = ((gens.column j).xiPm1 r).element (libraryKey (keys j)) := by
  refine ⟨?_, ?_, ?_⟩
  · intro j hj r hr b hb
    refine runtime_eq_host d gens hj ?_ hr hb
    unfold columnKeys
    rw [List.forall₂_map_left_iff, List.forall₂_map_right_iff]
    exact List.forall₂_same.mpr fun _ _ => rfl
  · intro j hj hrange r hr b hb
    refine runtime_eq_host d gens hj ?_ hr hb
    unfold columnKeys
    rw [List.forall₂_map_right_iff]
    refine List.forall₂_same.mpr ?_
    intro call hcall
    obtain ⟨h0, h1⟩ := hrange _ (List.mem_map_of_mem hcall)
    exact (lowKey_of_range h0 h1).symm
  · intro keys r j hj
    exact signOf_flattenSeeds d gens keys r hj

/-- Generators with bucket seeds one and zero. -/
def oneZeroGenerators : Generators oneColDims where
  column := fun _ =>
    { xiBucket := fun _ => { seeds := (1, 0), bucketsNo := 1021 }
      xiPm1 := fun _ => { seeds := (0, 0) } }
  buckets_no := fun _ _ => rfl

/-- A row whose keys are all minus one. -/
def minusOneCall : Call := { threadId := 0, keys := fun _ => -1 }

/-- A row whose keys are all the largest the library takes. -/
def maxKeyCall : Call := { threadId := 0, keys := fun _ => 4294967295 }

/-- The agreement at the largest 32-bit key. -/
theorem host_runtime_sketch_agree_max :
    (∀ key ∈ columnKeys [maxKeyCall] 0, 0 ≤ key.toInt ∧ key.toInt < 2 ^ 32)
      ∧ sketchOf oneColDims (flattenSeeds oneColDims oneZeroGenerators)
          [maxKeyCall] (blockStart oneColDims 0 0 + 0)
        = hostSketch 1021 11 (oneZeroGenerators.column 0)
            (columnKeys [maxKeyCall] 0) (0 * 1021 + 0) := by
  have hrange : ∀ key ∈ columnKeys [maxKeyCall] 0,
      0 ≤ key.toInt ∧ key.toInt < 2 ^ 32 := by
    intro key hkey
    obtain rfl := List.mem_singleton.mp hkey
    have hint : (4294967295 : BitVec 64).toInt = 4294967295 := by decide
    show 0 ≤ (4294967295 : BitVec 64).toInt ∧ (4294967295 : BitVec 64).toInt < 2 ^ 32
    rw [hint]
    norm_num
  exact ⟨hrange, (host_runtime_sketch_agree oneColDims oneZeroGenerators
    [maxKeyCall]).2.1 0 (by decide) hrange 0 (by decide) 0 (by decide)⟩

/-- At the key minus one the library hashes `2 ^ 32 - 1` and the runtime
`2 ^ 64 - 1`: the library's count lands in the first bucket of a row, the
runtime's does not. -/
theorem host_runtime_sketch_differ :
    ¬ ∀ (d : SketchDims) (gens : Generators d) (calls : List Call),
      ∀ j < d.numCols, ∀ r < d.numRows, ∀ b < d.numBuckets,
        sketchOf d (flattenSeeds d gens) calls (blockStart d r j + b)
          = hostSketch d.numBuckets d.numRows (gens.column j)
              (columnKeys calls j) (r * d.numBuckets + b) := by
  intro h
  have hcell := h oneColDims oneZeroGenerators [minusOneCall] 0 (by decide)
    0 (by decide) 0 (by decide)
  have hruntime : sketchOf oneColDims
      (flattenSeeds oneColDims oneZeroGenerators) [minusOneCall]
      (blockStart oneColDims 0 0 + 0) = 0 := by
    show (aggCountAndUpdateSketch oneColDims _ minusOneCall.threadId
      minusOneCall.keys AggState.zero).sketchData _ = 0
    rfl
  have hhost : hostSketch 1021 11 (oneZeroGenerators.column 0)
      (columnKeys [minusOneCall] 0) (0 * 1021 + 0) ≠ 0 := by
    show updateSketch 1021 11 (oneZeroGenerators.column 0) (libraryKey (-1)) 1
      (fun _ => 0) (0 * 1021 + 0) ≠ 0
    decide
  exact hhost (hcell.symm.trans hruntime)

end Compass.Sketch
