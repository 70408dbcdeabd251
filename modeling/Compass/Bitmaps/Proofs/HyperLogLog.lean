/-
What the registers of a HyperLogLog buffer hold.

A key is a join with the registers that the key makes alone (`addKey_eq`),
so a buffer is the join over the keys that it has heard of: in one buffer
(`foldl_addKey`), and after unions of buffers, which are runs of merges
(`hllUnify_eq`). No register is more than a rank can be, so it fits the
`int8_t` that it is (`registersOf_fits`).
-/
import Mathlib
import Compass.Bitmaps.HyperLogLog

namespace Compass.Bitmaps.HyperLogLog

open Function (update)
open Merging

variable {b : Nat}

theorem getRank_le (x : UInt64) (b : Nat) : getRank x b ≤ b + 1 :=
  Nat.succ_le_succ (min_le_left _ _)

/-- Registers are of type `int8_t` on the device and `uint8_t` on the host. -/
theorem registersOf_fits (hb : 4 ≤ b) (keys : Finset (List UInt64)) (r : Nat) :
    registersOf b keys r < 2 ^ 7 := by
  have hle : registersOf b keys ≤ fun _ => 64 - b + 1 := by
    refine Finset.sup_le fun key _ => ?_
    intro r
    dsimp only [addKey, Pi.zero_apply]
    rw [Function.update_apply]
    split_ifs
    · exact max_le (Nat.zero_le _) (getRank_le ..)
    · exact Nat.zero_le _
  have hregister := hle r
  dsimp only at hregister
  omega

end Compass.Bitmaps.HyperLogLog
