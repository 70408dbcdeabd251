/-
The running sums of a range of memory (HashJoinRuntime.cpp,
`inclusive_scan`).

A memory gives each address a value. The iterators `first` and `out` are
addresses, and they may be one: then the sums take the place of the
elements. Several threads scan one block each, and after them all but the
first block get the sum of the blocks before it added by other threads.
An action of a thread is one turn of its loop, over one element; the turns
of the threads interleave in any way.
-/
import Mathlib.Algebra.BigOperators.Intervals
import Compass.HashTable.Proofs.OneToMany

namespace Compass.HashTable

open Interleave OneToMany List Function Nat Prod

variable {M : Type} [AddCommMonoid M]

-- ======== the loops

/-- A memory, and the sum that each thread has so far. -/
abbrev ScanState (M : Type) := (Nat → M) × (Nat → M)

/-- `*out_iter = sum += *in_iter` by a thread, at an offset. -/
def scanStep (first out : Nat) (st : ScanState M) (a : Nat × Nat) : ScanState M :=
  let sum := st.2 a.1 + st.1 (first + a.2)
  (Function.update st.1 (out + a.2) sum, Function.update st.2 a.1 sum)

/-- `*iter += prev_sum`. -/
def addStep (out : Nat) (partialSums : Nat → M) (mem : Nat → M) (a : Nat × Nat) : Nat → M :=
  Function.update mem (out + a.2) (mem (out + a.2) + partialSums a.1)

/-- The turns of a thread from one offset to another. -/
def turns (t start stop : Nat) : List (Nat × Nat) :=
  (List.range' start (stop - start)).map (t, ·)

/-- The loop over `partial_sums`. -/
def accumulate (sums : Nat → M) : Nat → M
  | 0 => sums 0 + 0
  | t + 1 => sums (t + 1) + accumulate sums t

/-- The memory before and after `inclusive_scan` of `elemCount` elements. -/
inductive InclusiveScan (first out elemCount threadCount : Nat) (mem : Nat → M) :
    (Nat → M) → Prop
  | sequential (h : elemCount < 10000 ∨ threadCount ≤ 1) :
      InclusiveScan first out elemCount threadCount mem
        ((turns 0 0 elemCount).foldl (scanStep first out) (mem, 0)).1
  | threads {step : Nat} {scans adds : List (Nat × Nat)} {st : ScanState M}
      (h : ¬ (elemCount < 10000 ∨ threadCount ≤ 1))
      (hstep : step = (elemCount + threadCount - 1) / threadCount)
      (hscans : Interleaves ((List.range threadCount).map fun t =>
        turns t (startOff elemCount step t) (startOff elemCount step (t + 1))) scans)
      (hst : st = scans.foldl (scanStep first out) (mem, 0))
      (hadds : Interleaves ((List.range (threadCount - 1)).map fun t =>
        turns t (startOff elemCount step (t + 1)) (startOff elemCount step (t + 2))) adds) :
      InclusiveScan first out elemCount threadCount mem
        (adds.foldl (addStep out (accumulate st.2)) st.1)

end Compass.HashTable
