/-
The library half of the Fast-AGMS sketch: the generating schemes of
Sketch/RandomGenScheme.h, the two generators `Xi_CW2B` and `Xi_EH3` of
Sketch/XIS.h, and `FAGMS_Sketch::Update_Sketch` of Sketch/Sketches.h.

# Widths

The library was written for 32-bit integers: a key is an `unsigned int`
in `element` and in `Update_Sketch`, and only the hash is widened, to
`unsigned long long` after the key has already lost its upper half. A
64-bit join key passed to `Update_Sketch` is converted first;
`libraryKey` is that conversion. The runtime makes the same conversion
for the sign and no conversion for the bucket.

# Cells

The cells are `double`s that only ever hold integers, so they are kept
as `Int` with the rounding of `IntDouble`.

The codegen copies the seeds of every generator into the two flat arrays
the runtime reads (GroupByAndAggregate.cpp): `flattenSeeds`.

# Range sums

The range sums of Sketch/RandomRangeSum.h: the sum of the variables of an
interval of keys, without visiting the keys.

`BCH3Interval` and `EH3Interval` sum the variables of all keys below
`gamma`. They take the lowest digit of `gamma` off, base two or base
four, and add one term for each block of keys that the digit stands for.
`BCH3_Range` and `EH3_Range` subtract two such sums, and take the second
bound plus one in `unsigned int`.

The dyadic range cuts the interval into blocks of keys whose sizes are
powers of two and adds one variable for each block, under an id that
encodes the level and the offset of the block; `element` of a dyadic
generator adds the variables of all the blocks that hold a key.

The sums are kept in a `double`. They are integers of magnitude at most
`2 ^ 32`, so they are integers here. The terms are `int`s, shifted left
as such.
-/
import Compass.Sketch.Runtime

namespace Compass.Sketch

-- ======== generating schemes

/-- The library's `hash31`. -/
def Host.hash31 (a b x : UInt64) : UInt32 :=
  let result := a * x + b
  let folded := ((result >>> 31) + result) &&& UInt64.ofNat randomGenSchemeMod
  folded.toUInt32

/-- The library's `CW2B`, with `unsigned long` seeds and key. -/
def Host.cw2b (a b x : UInt64) (m : UInt32) : UInt32 :=
  let pRes := Host.hash31 a b x
  if m = UInt32.ofNat randomGenSchemeMod then pRes else pRes % m

/-- The library's `seq_xor`. -/
def Host.seqXor (x : UInt32) : UInt32 :=
  let x := x ^^^ (x >>> 16)
  let x := x ^^^ (x >>> 8)
  let x := x ^^^ (x >>> 4)
  let x := x ^^^ (x >>> 2)
  let x := x ^^^ (x >>> 1)
  x &&& 1

/-- The library's `EH3`. -/
def Host.eh3 (i0 i1 j : UInt32) : Int :=
  let pRes := (i1 &&& j) ^^^ (j &&& (j <<< 1) &&& 0xAAAAAAAA)
  if (i0 ^^^ Host.seqXor pRes) &&& 1 ≠ 0 then 1 else -1

-- ======== generators

/-- `Xi_CW2B`: the bucket generator of one sketch row. -/
structure XiCW2B where
  seeds : UInt32 × UInt32
  bucketsNo : UInt32

/-- `Xi_CW2B::element`. The `double` it returns is a 32-bit integer. -/
def XiCW2B.element (xi : XiCW2B) (j : UInt32) : UInt32 :=
  Host.cw2b xi.seeds.1.toUInt64 xi.seeds.2.toUInt64 j.toUInt64 xi.bucketsNo

/-- `Xi_EH3`: the sign generator of one sketch row. -/
structure XiEH3 where
  seeds : UInt32 × UInt32

/-- `Xi_EH3::element`. -/
def XiEH3.element (xi : XiEH3) (j : UInt32) : Int :=
  Host.eh3 xi.seeds.1 xi.seeds.2 j

/-- The generators of one join column: one pair for every sketch row. -/
structure ColumnXi where
  xiBucket : Nat → XiCW2B
  xiPm1 : Nat → XiEH3

-- ======== update

/-- The implicit conversion of an `int64_t` key to the `unsigned int`
parameter of `Update_Sketch`. -/
def libraryKey (key : Int64) : UInt32 := key.toUInt64.toUInt32

/-- `Update_Sketch(unsigned int _key, double _func)` on the cells of a
sketch with `rowsNo` rows of `bucketsNo` buckets. -/
def updateSketch (bucketsNo rowsNo : Nat) (xi : ColumnXi) (key : UInt32)
    (func : Int) (sketchElem : Nat → Int) : Nat → Int :=
  (List.range rowsNo).foldl
    (fun cells i =>
      let bucket := ((xi.xiBucket i).element key).toNat
      let idx := i * bucketsNo + bucket
      Function.update cells idx
        (IntDouble.add (cells idx)
          (IntDouble.ofInt ((xi.xiPm1 i).element key * func))))
    sketchElem

/-- The cells of a cleared sketch after a list of keys, each counted
once. -/
def hostSketch (bucketsNo rowsNo : Nat) (xi : ColumnXi) (keys : List Int64) :
    Nat → Int :=
  keys.foldl
    (fun cells key => updateSketch bucketsNo rowsNo xi (libraryKey key) 1 cells)
    (fun _ => 0)

-- ======== the same seeds, twice

/-- The generators of a join template: one set per column, all of them
over the buckets of the sketch (`Xi_CW2B tb(I1, I2, getBucketSize())`). -/
structure Generators (d : SketchDims) where
  column : Nat → ColumnXi
  buckets_no : ∀ j i, ((column j).xiBucket i).bucketsNo
    = UInt32.ofNat d.numBuckets

/-- The seed arrays the codegen builds: words `2 * (num_cols * i + j)`
and the next one hold the two seeds of row `i` and column `j`. -/
def flattenSeeds (d : SketchDims) (gens : Generators d) : Seeds where
  xiBucket n :=
    let s := ((gens.column (n / 2 % d.numCols)).xiBucket
      (n / 2 / d.numCols)).seeds
    if n % 2 = 0 then s.1 else s.2
  xiPm1 n :=
    let s := ((gens.column (n / 2 % d.numCols)).xiPm1
      (n / 2 / d.numCols)).seeds
    if n % 2 = 0 then s.1 else s.2


namespace Host

/-- The library's `BCH3`. -/
def bch3 (i0 i1 j : UInt32) : Int :=
  if (i0 ^^^ seqXor (i1 &&& j)) &&& 1 ≠ 0 then 1 else -1

/-- A left shift of an `int`. -/
def shl32 (v : Int) (n : Nat) : Int :=
  (v * 2 ^ n).bmod (2 ^ 32)

-- ======== BCH3

/-- The loop of `BCH3Interval`, over the bits that are left. -/
def bch3IntervalLoop (s0 i1 : UInt32) : List Nat → UInt32 → Int → Int
  | [], _, sum => sum
  | i :: is, gamma, sum =>
    if gamma = 0 then sum
    else if (i1 >>> UInt32.ofNat (i - 1)) &&& 1 ≠ 0 then sum
    else if (gamma >>> UInt32.ofNat i) &&& 1 ≠ 0 then
      let gamma := gamma ^^^ (1 <<< UInt32.ofNat i)
      bch3IntervalLoop s0 i1 is gamma (sum + shl32 (bch3 s0 i1 gamma) i)
    else bch3IntervalLoop s0 i1 is gamma sum

/-- `BCH3Interval`. -/
def bch3Interval (gamma i1 s0 : UInt32) : Int :=
  if gamma &&& 1 ≠ 0 then
    bch3IntervalLoop s0 i1 (List.range' 1 31) (gamma - 1) (bch3 s0 i1 (gamma - 1))
  else bch3IntervalLoop s0 i1 (List.range' 1 31) gamma 0

/-- `BCH3_Range`. -/
def bch3Range (alpha beta i1 s0 : UInt32) : Int :=
  bch3Interval (beta + 1) i1 s0 - bch3Interval alpha i1 s0

-- ------------------------------------------- where the sums are exact

/-- The seed has no bit below the highest, and the sign is plus. -/
def Overflows (i1 s0 : UInt32) : Prop :=
  i1.toNat % 2 ^ 31 = 0 ∧ s0.toNat % 2 = 1

instance (i1 s0 : UInt32) : Decidable (Overflows i1 s0) :=
  inferInstanceAs (Decidable (_ ∧ _))

/-- The ranges that come out right: before the last key, those whose two
bounds lose the same; up to the last key, those of a seed other than zero
that lose nothing, and those of the seed zero where the loss is the sum
over all keys. -/
def RangeExact (alpha beta i1 s0 : UInt32) : Prop :=
  if beta.toNat ≠ 2 ^ 32 - 1 then
    ¬ (Overflows i1 s0 ∧ alpha.toNat < 2 ^ 31 ∧ 2 ^ 31 ≤ beta.toNat + 1)
  else if i1 ≠ 0 then ¬ (Overflows i1 s0 ∧ 2 ^ 31 ≤ alpha.toNat)
  else s0.toNat % 2 = 1 ∧ 2 ^ 31 ≤ alpha.toNat

instance (alpha beta i1 s0 : UInt32) : Decidable (RangeExact alpha beta i1 s0) := by
  unfold RangeExact
  infer_instance

-- ======== EH3

/-- The terms of one digit: the blocks at `gamma`, and at the places
after it that the digit `tBits` stands for. -/
def eh3Digit (s0 i1 gamma tBits : UInt32) (i : Nat) (sign : Int → Int) : Int :=
  let term (j : UInt32) := sign (shl32 (eh3 s0 i1 j) (i >>> 1))
  if tBits = 1 then term gamma
  else if tBits = 2 then term gamma + term (gamma + (1 <<< UInt32.ofNat i))
  else if tBits = 3 then
    term gamma + term (gamma + (1 <<< UInt32.ofNat i))
      + term (gamma + (1 <<< UInt32.ofNat (i + 1)))
  else 0

/-- The loop of `EH3Interval`, over the digits that are left. `sBitsOne`
counts the digits of the seed, below the current one, that are three. -/
def eh3IntervalLoop (s0 i1 : UInt32) : List Nat → UInt32 → Nat → Int → Int
  | [], _, _, sum => sum
  | i :: is, gamma, sBitsOne, sum =>
    if gamma = 0 then sum
    else
      let tBits := (gamma >>> UInt32.ofNat i) &&& 3
      let gamma := gamma ^^^ (tBits <<< UInt32.ofNat i)
      let sign (v : Int) := if sBitsOne % 2 = 1 then -v else v
      let sum := sum + eh3Digit s0 i1 gamma tBits i sign
      let sBits := (i1 >>> UInt32.ofNat i) &&& 3
      eh3IntervalLoop s0 i1 is gamma (if sBits = 3 then sBitsOne + 1 else sBitsOne) sum

/-- `EH3Interval`. -/
def eh3Interval (gamma i1 s0 : UInt32) : Int :=
  let sBitsOne := if i1 &&& 3 = 3 then 1 else 0
  let tBits := gamma &&& 3
  let gamma := gamma - tBits
  let sum :=
    if tBits = 1 then eh3 s0 i1 gamma
    else if tBits = 2 then eh3 s0 i1 gamma + eh3 s0 i1 (gamma + 1)
    else if tBits = 3 then
      eh3 s0 i1 gamma + eh3 s0 i1 (gamma + 1) + eh3 s0 i1 (gamma + 2)
    else 0
  eh3IntervalLoop s0 i1 (List.range' 2 15 2) gamma sBitsOne sum

/-- `EH3_Range`. -/
def eh3Range (alpha beta i1 s0 : UInt32) : Int :=
  eh3Interval (beta + 1) i1 s0 - eh3Interval alpha i1 s0

-- ======== dyadic

/-- An `int` after an assignment. -/
def wrap32 (v : Int) : Int :=
  v.bmod (2 ^ 32)

/-- The ids of `Dyadic_Range_EH3`, in the order in which their variables
are added. `none` is a loop that has not ended after `fuel` rounds. -/
def dyadicRangeIds (domSize : Nat) : Nat → UInt32 → Nat → Int → Int → Option (List UInt32)
  | 0, _, _, _, _ => none
  | fuel + 1, frontMask, pw, alpha, beta =>
    if alpha > beta then some []
    else
      let odd := (alpha >>> pw) % 2 = 1
      let front := if odd then [frontMask ^^^ UInt32.ofInt (alpha >>> pw)] else []
      let alpha := if odd then wrap32 (alpha + shl32 1 pw) else alpha
      if alpha > beta then some front
      else
        let even := (beta >>> pw) % 2 = 0
        let back :=
          if even then
            [frontMask ^^^ UInt32.ofInt (wrap32 (wrap32 (beta - shl32 1 pw) + 1) >>> pw)]
          else []
        let beta := if even then wrap32 (beta - shl32 1 pw) else beta
        (dyadicRangeIds domSize fuel ((frontMask >>> 1) ^^^ (1 <<< UInt32.ofNat domSize)) (pw + 1)
          alpha beta).map fun ids => front ++ back ++ ids

/-- The ids of the blocks that hold a point, as the loop of
`Xi_Dyadic_Map_EH3::element` visits them. -/
def dyadicPointIds (domSize : Nat) : Nat → UInt32 → Nat → UInt32 → List UInt32
  | 0, frontMask, _, _ => [frontMask]
  | n + 1, frontMask, k, j =>
    (frontMask ^^^ (j >>> UInt32.ofNat k))
      :: dyadicPointIds domSize n ((frontMask >>> 1) ^^^ (1 <<< UInt32.ofNat domSize)) (k + 1)
        (if (j >>> UInt32.ofNat k) &&& 1 ≠ 0 then j ^^^ (1 <<< UInt32.ofNat k) else j)

end Host

/-- `Xi_Dyadic_Map_EH3`. -/
structure XiDyadicMapEH3 where
  seeds : UInt32 × UInt32
  domSize : Nat

namespace XiDyadicMapEH3

variable (xi : XiDyadicMapEH3)

/-- The cover of a range, from the state in which the loop starts. The
bounds are converted to `int`. -/
def cover (fuel : Nat) (a b : UInt32) : Option (List UInt32) :=
  Host.dyadicRangeIds xi.domSize fuel 0 0 (Host.wrap32 a.toNat) (Host.wrap32 b.toNat)

/-- The ids of the blocks of a point. -/
def pointIds (j : UInt32) : List UInt32 :=
  Host.dyadicPointIds xi.domSize xi.domSize 0 0 j

end XiDyadicMapEH3

/-- `Xi_EH3::interval_sum`. -/
def XiEH3.intervalSum (xi : XiEH3) (alpha beta : UInt32) : Int :=
  Host.eh3Range alpha beta xi.seeds.2 xi.seeds.1

end Compass.Sketch
