/-
Counts of distinct values do not depend on where the values were collected
or in which order the sets were merged.

`Holds` says which values the sets stand for: a `std::set` has them, and a
bitmap has the bit of each in at least one of its sub-bitmaps. A new value,
a union and a count each keep it (`Holds.addValue`, `Holds.union`,
`Holds.size`); a union joins what the two sets stand for, so a run is a run
of meetings, and a count brings the sub-bitmaps together without changing
what they stand for as a whole.
-/
import Compass.Bitmaps.CountDistinct
import Compass.Bitmaps.Proofs.InValuesBitmap

namespace Compass.Bitmaps

open Merging List Option Function Nat Prod

-- ======== bytes

/-- The length of a bitmap; a `std::set` has none. -/
def CountDistinctSet.bitmapLength : CountDistinctSet → Option ℕ
  | .bitmap bytes => some bytes.length
  | .stdSet _ => none

namespace Sets

variable {m m' : Sets} {p q : ℕ × ℕ}

/-- The same bitmaps, with bytes of their own. -/
def SameShape (m m' : Sets) : Prop :=
  ∀ h, (m' h).bitmapLength = (m h).bitmapLength

theorem SameShape.trans {m₁ m₂ m₃ : Sets} (h₁ : SameShape m₁ m₂) (h₂ : SameShape m₂ m₃) :
    SameShape m₁ m₃ :=
  fun h => (h₂ h).trans (h₁ h)

/-- The byte at an offset, zero where there is none. -/
def byte (m : Sets) (p : ℕ × ℕ) : Bitmap.Byte := (m.load p).getD 0

/-- An offset inside a bitmap. -/
def Inside (m : Sets) (p : ℕ × ℕ) : Prop :=
  ∃ n, (m p.1).bitmapLength = some n ∧ p.2 < n

theorem load_eq (h : m.Inside p) : m.load p = some (m.byte p) := by
  obtain ⟨n, hn, hlt⟩ := h
  unfold byte load
  cases hset : m p.1 with
  | bitmap bytes =>
    rw [hset] at hn
    cases hn
    dsimp only
    rw [getElem?_eq_getElem hlt]
    rfl
  | stdSet elems =>
    rw [hset] at hn
    cases hn

theorem Inside.congr (h : m.Inside p) (hshape : SameShape m m') : m'.Inside p := by
  obtain ⟨n, hn, hlt⟩ := h
  exact ⟨n, (hshape p.1).trans hn, hlt⟩

theorem store_eq (h : m.Inside p) (v : Bitmap.Byte) :
    ∃ m', m.store p v = some m' ∧ SameShape m m'
      ∧ ∀ q, m'.byte q = if q = p then v else m.byte q := by
  obtain ⟨n, hn, hlt⟩ := h
  cases hset : m p.1 with
  | stdSet elems =>
    rw [hset] at hn
    cases hn
  | bitmap bytes =>
    rw [hset] at hn
    cases hn
    refine ⟨_, by rw [store, hset]; exact if_pos hlt, fun h => ?_, fun q => ?_⟩
    · by_cases hh : h = p.1
      · rw [hh, update_self, hset]
        exact congrArg some length_set
      · rw [update_of_ne hh]
    · unfold byte load
      by_cases hbuf : q.1 = p.1
      · rw [hbuf, update_self, hset]
        dsimp only
        rw [getElem?_set]
        by_cases hoff : p.2 = q.2
        · rw [if_pos hoff, if_pos hlt, if_pos (Prod.ext hbuf hoff.symm)]
          rfl
        · rw [if_neg hoff, if_neg fun h => hoff (congrArg Prod.snd h).symm]
      · rw [update_of_ne hbuf, if_neg fun h => hbuf (congrArg Prod.fst h)]

/-- Two bytes become their union. -/
theorem unionByte_eq {lhs rhs : ℕ × ℕ} {i : ℕ} (hl : m.Inside (lhs.1, lhs.2 + i))
    (hr : m.Inside (rhs.1, rhs.2 + i)) :
    ∃ m', unionByte lhs rhs m i = some m' ∧ SameShape m m'
      ∧ ∀ q, m'.byte q =
        if q = (lhs.1, lhs.2 + i) ∨ q = (rhs.1, rhs.2 + i) then
          m.byte (lhs.1, lhs.2 + i) ||| m.byte (rhs.1, rhs.2 + i)
        else m.byte q := by
  obtain ⟨m₁, hs₁, hshape₁, hb₁⟩ :=
    store_eq hr (m.byte (lhs.1, lhs.2 + i) ||| m.byte (rhs.1, rhs.2 + i))
  obtain ⟨m₂, hs₂, hshape₂, hb₂⟩ :=
    store_eq (hl.congr hshape₁) (m.byte (lhs.1, lhs.2 + i) ||| m.byte (rhs.1, rhs.2 + i))
  refine ⟨m₂, ?_, hshape₁.trans hshape₂, fun q => ?_⟩
  · simp only [unionByte, load_eq hl, load_eq hr, bind_eq_bind, bind_some, hs₁, hs₂]
  · rw [hb₂, hb₁]
    by_cases h₁ : q = (lhs.1, lhs.2 + i) <;> by_cases h₂ : q = (rhs.1, rhs.2 + i) <;>
      simp [h₁, h₂]

/-- Two runs of bytes that meet at equal places only become their union. -/
theorem bitmapSetUnion_eq {lhs rhs : ℕ × ℕ} {n : ℕ}
    (hl : ∀ i < n, m.Inside (lhs.1, lhs.2 + i)) (hr : ∀ i < n, m.Inside (rhs.1, rhs.2 + i))
    (hcross : ∀ i < n, ∀ k < n, lhs.1 = rhs.1 → lhs.2 + i = rhs.2 + k → i = k) :
    ∃ m', bitmapSetUnion m lhs rhs n = some m' ∧ SameShape m m'
      ∧ (∀ i < n, m'.byte (lhs.1, lhs.2 + i)
              = m.byte (lhs.1, lhs.2 + i) ||| m.byte (rhs.1, rhs.2 + i)
            ∧ m'.byte (rhs.1, rhs.2 + i)
              = m.byte (lhs.1, lhs.2 + i) ||| m.byte (rhs.1, rhs.2 + i))
      ∧ ∀ q, (∀ i < n, q ≠ (lhs.1, lhs.2 + i) ∧ q ≠ (rhs.1, rhs.2 + i)) →
          m'.byte q = m.byte q := by
  induction n with
  | zero => exact ⟨m, rfl, fun _ => rfl, by simp, fun _ _ => rfl⟩
  | succ n ih =>
    obtain ⟨m₁, hm₁, hshape₁, hin₁, hout₁⟩ := ih (fun i hi => hl i (by omega))
      (fun i hi => hr i (by omega)) fun i hi k hk => hcross i (by omega) k (by omega)
    obtain ⟨m₂, hm₂, hshape₂, hb₂⟩ := @unionByte_eq m₁ lhs rhs n
      ((hl n (by omega)).congr hshape₁) ((hr n (by omega)).congr hshape₁)
    -- the places of step `n` are new
    have hnew {i : ℕ} (hi : i < n) :
        (lhs.1, lhs.2 + n) ≠ (lhs.1, lhs.2 + i) ∧ (lhs.1, lhs.2 + n) ≠ (rhs.1, rhs.2 + i)
          ∧ (rhs.1, rhs.2 + n) ≠ (lhs.1, lhs.2 + i)
          ∧ (rhs.1, rhs.2 + n) ≠ (rhs.1, rhs.2 + i) := by
      have h₁ := hcross n (by omega) i (by omega)
      have h₂ := hcross i (by omega) n (by omega)
      simp only [ne_eq, mk.injEq]
      omega
    have hl₁ := hout₁ (lhs.1, lhs.2 + n) fun i hi => ⟨(hnew hi).1, (hnew hi).2.1⟩
    have hr₁ := hout₁ (rhs.1, rhs.2 + n) fun i hi => ⟨(hnew hi).2.2.1, (hnew hi).2.2.2⟩
    refine ⟨m₂, ?_, hshape₁.trans hshape₂, fun i hi => ?_, fun q hq => ?_⟩
    · rw [bitmapSetUnion, range_succ, foldlM_append, ← bitmapSetUnion, hm₁]
      simpa using hm₂
    · rw [hb₂, hb₂]
      by_cases hi' : i = n
      · rw [hi', if_pos (.inl rfl), if_pos (.inr rfl), hl₁, hr₁]
        exact ⟨rfl, rfl⟩
      · have hne := @hnew i (by omega)
        rw [if_neg fun h => h.elim (fun h => hne.1 h.symm) fun h => hne.2.2.1 h.symm,
          if_neg fun h => h.elim (fun h => hne.2.1 h.symm) fun h => hne.2.2.2 h.symm]
        exact hin₁ i (by omega)
    · have hq' := hq n (by omega)
      rw [hb₂, if_neg fun h => h.elim hq'.1 hq'.2]
      exact hout₁ q fun i hi => hq i (by omega)

-- ======== bits

def bit (m : Sets) (h i : ℕ) : Bool := (m.byte (h, i / 8)).getLsbD (i % 8)

theorem bit_eq {h : ℕ} {bytes : List Bitmap.Byte} (hset : m h = .bitmap bytes) (i : ℕ) :
    m.bit h i = Bitmap.get bytes i := by
  rw [bit, byte, load, hset, Bitmap.get, getD_eq_getElem?_getD]

/-- The bits of two runs of bytes that become their union. -/
theorem bit_union {a b lo ro n : ℕ}
    (hl : ∀ i < n, m.Inside (a, lo + i)) (hr : ∀ i < n, m.Inside (b, ro + i))
    (hcross : ∀ i < n, ∀ k < n, a = b → lo + i = ro + k → i = k) :
    ∃ m', bitmapSetUnion m (a, lo) (b, ro) n = some m' ∧ SameShape m m'
      ∧ (∀ i < 8 * n, m'.bit a (8 * lo + i) = (m.bit a (8 * lo + i) || m.bit b (8 * ro + i))
            ∧ m'.bit b (8 * ro + i) = (m.bit a (8 * lo + i) || m.bit b (8 * ro + i)))
      ∧ ∀ h i, ¬ (h = a ∧ 8 * lo ≤ i ∧ i < 8 * (lo + n))
          → ¬ (h = b ∧ 8 * ro ≤ i ∧ i < 8 * (ro + n)) → m'.bit h i = m.bit h i := by
  obtain ⟨m', hm', hshape, hin, hout⟩ := @bitmapSetUnion_eq m (a, lo) (b, ro) n hl hr hcross
  refine ⟨m', hm', hshape, fun i hi => ?_, fun h i ha hb => ?_⟩
  · have hdiv (s : ℕ) : (8 * s + i) / 8 = s + i / 8 := by omega
    have hmod (s : ℕ) : (8 * s + i) % 8 = i % 8 := by omega
    obtain ⟨h₁, h₂⟩ := hin (i / 8) (by omega)
    unfold bit
    rw [hdiv, hdiv, hmod, hmod, h₁, h₂, BitVec.getLsbD_or]
    exact ⟨rfl, rfl⟩
  · unfold bit
    rw [hout]
    intro k hk
    simp only [ne_eq, mk.injEq]
    omega

end Sets

namespace ExactCount

variable {c : ExactCount} {m : Sets} {V : ℕ → Finset Int64}

-- ======== geometry

/-- The bytes of a sub-bitmap, without padding and with it. -/
def size (c : ExactCount) : ℕ := bitmapBitsToBytes c.target.bitmapSzBits.toNat

def stride (c : ExactCount) (h : ℕ) : ℕ :=
  if c.device h = .GPU ∨ c.target.subBitmapCount > 1 then alignToInt64 c.size else c.size

theorem size_le_stride (c : ExactCount) (h : ℕ) : c.size ≤ c.stride h := by
  unfold stride alignToInt64
  split_ifs <;> omega

theorem stride_eq (c : ExactCount) (hsubs : c.target.subBitmapCount ≠ 1) (h k : ℕ) :
    c.stride h = c.stride k := by
  have hpos := c.subs_pos
  unfold stride
  rw [if_pos (.inr (by omega)), if_pos (.inr (by omega))]

theorem bitmapSizeBytes_eq (himpl : c.target.implType = .Bitmap) (h : ℕ) :
    (c.desc h).bitmapSizeBytes = some c.size := by
  simp [CountDistinctDescriptor.bitmapSizeBytes, desc, himpl, c.exact, size]

theorem bitmapPaddedSizeBytes_eq (himpl : c.target.implType = .Bitmap) (h : ℕ) :
    (c.desc h).bitmapPaddedSizeBytes = some (c.stride h * c.target.subBitmapCount) := by
  rw [CountDistinctDescriptor.bitmapPaddedSizeBytes, bitmapSizeBytes_eq himpl]
  rfl

/-- The bit of a value in a sub-bitmap. -/
def index (c : ExactCount) (v : Int64) : ℕ := (v.toInt - c.target.minVal.toInt).toNat

/-- A value of the range of the bitmap. -/
def InRange (c : ExactCount) (v : Int64) : Prop :=
  c.target.minVal.toInt ≤ v.toInt ∧ v.toInt - c.target.minVal.toInt < c.target.bitmapSzBits

theorem InRange.index_lt {v : Int64} (h : c.InRange v) : c.index v < 8 * c.size := by
  obtain ⟨hlo, hhi⟩ := h
  have hroom := le_bitmapBitsToBytes c.target.bitmapSzBits.toNat
  unfold index size
  omega

theorem InRange.index_inj {v w : Int64} (hv : c.InRange v) (hw : c.InRange w)
    (h : c.index v = c.index w) : v = w := by
  obtain ⟨hv, -⟩ := hv
  obtain ⟨hw, -⟩ := hw
  unfold index at h
  exact Int64.toInt_inj.mp (by omega)

/-- Bits of two sub-bitmaps are the same bit only where the sub-bitmaps
are the same. -/
theorem sub_inj {c : ExactCount} {h s t i k : ℕ} (hi : i < 8 * c.size) (hk : k < 8 * c.size)
    (heq : 8 * (s * c.stride h) + i = 8 * (t * c.stride h) + k) : s = t ∧ i = k := by
  have hle := c.size_le_stride h
  have hrow {u j : ℕ} (hj : j < 8 * c.size) :
      (8 * (u * c.stride h) + j) / (8 * c.stride h) = u := by
    have hcomm : 8 * (u * c.stride h) = u * (8 * c.stride h) := by
      rw [mul_left_comm]
    rw [hcomm, add_comm, add_mul_div_right _ _ (by omega), div_eq_of_lt (by omega), zero_add]
  have hst : s = t := by rw [← hrow (u := s) hi, ← hrow (u := t) hk, heq]
  subst hst
  exact ⟨rfl, by omega⟩

-- ======== invariant

/-- Some sub-bitmap of a buffer has the bit. -/
def HasBit (c : ExactCount) (m : Sets) (h i : ℕ) : Prop :=
  ∃ s < c.target.subBitmapCount, m.bit h (8 * (s * c.stride h) + i) = true

/-- The bitmaps stand for the values. -/
structure BitmapsHold (c : ExactCount) (m : Sets) (V : ℕ → Finset Int64) : Prop where
  shape : ∀ h, (m h).bitmapLength = some (c.stride h * c.target.subBitmapCount)
  range : ∀ h, ∀ v ∈ V h, c.InRange v
  bits : ∀ h, ∀ i < 8 * c.size, c.HasBit m h i ↔ ∃ v ∈ V h, c.index v = i

/-- The sets stand for the values. -/
def Holds (c : ExactCount) (m : Sets) (V : ℕ → Finset Int64) : Prop :=
  (c.target.implType = .Bitmap ∧ c.BitmapsHold m V)
    ∨ (c.target.implType = .StdSet ∧ ∀ h, m h = .stdSet (V h))

theorem BitmapsHold.inside (hm : c.BitmapsHold m V) {h s k : ℕ}
    (hs : s < c.target.subBitmapCount) (hk : k < c.size) :
    m.Inside (h, s * c.stride h + k) := by
  refine ⟨_, hm.shape h, ?_⟩
  have hle := c.size_le_stride h
  have hmul : (s + 1) * c.stride h ≤ c.target.subBitmapCount * c.stride h :=
    Nat.mul_le_mul_right _ hs
  rw [Nat.add_mul, Nat.one_mul] at hmul
  rw [Nat.mul_comm (c.stride h)]
  omega

theorem holds_allocated (c : ExactCount) : c.Holds c.allocated fun _ => ∅ := by
  cases himpl : c.target.implType with
  | Invalid => exact absurd himpl c.impl
  | StdSet =>
    refine .inr ⟨himpl, fun h => ?_⟩
    have hdesc : (c.desc h).implType = .StdSet := himpl
    rw [allocated, hdesc]
  | Bitmap =>
    have hset (h : ℕ) : c.allocated h
        = .bitmap (replicate (c.stride h * c.target.subBitmapCount) 0) := by
      have hdesc : (c.desc h).implType = .Bitmap := himpl
      rw [allocated, hdesc, bitmapPaddedSizeBytes_eq himpl]
      rfl
    refine .inl ⟨himpl, fun h => ?_, by simp, fun h i _ => ?_⟩
    · rw [hset]
      exact congrArg some (length_replicate ..)
    · refine iff_of_false ?_ (by simp)
      rintro ⟨s, -, hbit⟩
      rw [Sets.bit_eq (hset h), Bitmap.get_replicate_zero] at hbit
      cases hbit

-- ======== values

theorem Holds.addValue (hm : c.Holds m V) {e : Entry} (he : c.Valid e) :
    ∃ m', addValue (c.desc e.buffer) c.skipVal m e = some m'
      ∧ c.Holds m' (update V e.buffer
          (if c.skipVal = some e.val then V e.buffer else insert e.val (V e.buffer))) := by
  by_cases hskip : c.skipVal = some e.val
  · refine ⟨m, by rw [Bitmaps.addValue, if_pos hskip], ?_⟩
    rw [if_pos hskip, update_eq_self]
    exact hm
  rw [if_neg hskip, Bitmaps.addValue, if_neg hskip]
  rcases hm with ⟨himpl, hm⟩ | ⟨himpl, hm⟩
  · have hdesc : (c.desc e.buffer).implType = .Bitmap := himpl
    obtain ⟨hlo, hhi, hsub⟩ := he himpl hskip
    have hrange : c.InRange e.val := ⟨hlo, hhi⟩
    have hpos := c.subs_pos
    obtain ⟨bytes, hset⟩ : ∃ bytes, m e.buffer = .bitmap bytes := by
      have := hm.shape e.buffer
      cases hset : m e.buffer with
      | bitmap bytes => exact ⟨bytes, rfl⟩
      | stdSet elems =>
        rw [hset] at this
        cases this
    have hlen : bytes.length = c.stride e.buffer * c.target.subBitmapCount := by
      have := hm.shape e.buffer
      rw [hset] at this
      exact some.inj this
    have hend : e.sub * c.stride e.buffer + c.size ≤ bytes.length := by
      have hle := c.size_le_stride e.buffer
      have hmul : (e.sub + 1) * c.stride e.buffer ≤ c.target.subBitmapCount * c.stride e.buffer :=
        Nat.mul_le_mul_right _ hsub
      rw [Nat.add_mul, Nat.one_mul] at hmul
      rw [hlen, Nat.mul_comm (c.stride e.buffer)]
      omega
    have hindex := hrange.index_lt
    have hlt := c.bits_lt
    obtain ⟨agg, hagg, hagglen, hget⟩ := @Bitmap.insert_cases
      (bytes.drop (e.sub * c.stride e.buffer)) (c.index e.val) (by
        rw [length_drop]
        omega)
    have hadd := aggCountDistinctBitmap_eq (bytes.drop (e.sub * c.stride e.buffer)) hlo
      (hhi.trans hlt)
    rw [hdesc, hset]
    refine ⟨update m e.buffer
      (.bitmap (bytes.take (e.sub * c.stride e.buffer) ++ agg)), ?_, .inl ⟨himpl, ?_, ?_, ?_⟩⟩
    · have hdiv : c.stride e.buffer * c.target.subBitmapCount / (c.desc e.buffer).subBitmapCount
          = c.stride e.buffer := Nat.mul_div_cancel _ hpos
      simp only [bitmapPaddedSizeBytes_eq himpl, bind_eq_bind, bind_some, hdiv]
      change (aggCountDistinctBitmap _ _ c.target.minVal).bind _ = _
      rw [hadd, ← index, hagg]
      rfl
    · intro h
      by_cases hh : h = e.buffer
      · rw [hh, update_self]
        refine congrArg some ?_
        rw [length_append, hagglen, length_take, length_drop, ← hlen]
        omega
      · rw [update_of_ne hh]
        exact hm.shape h
    · intro h v hv
      by_cases hh : h = e.buffer
      · rw [hh, update_self, Finset.mem_insert] at hv
        rcases hv with rfl | hv
        · exact hrange
        · exact hm.range _ v hv
      · rw [update_of_ne hh] at hv
        exact hm.range h v hv
    · intro h i hi
      by_cases hh : h = e.buffer
      · subst hh
        have hbit (k : ℕ) : Sets.bit (update m e.buffer
            (.bitmap (bytes.take (e.sub * c.stride e.buffer) ++ agg))) e.buffer k
            = (decide (k = 8 * (e.sub * c.stride e.buffer) + c.index e.val)
              || m.bit e.buffer k) := by
          have htake : (bytes.take (e.sub * c.stride e.buffer)).length
              = e.sub * c.stride e.buffer := length_take_of_le (by omega)
          rw [Sets.bit_eq (update_self ..), Sets.bit_eq hset, Bitmap.get_append, htake]
          split_ifs with hk
          · have hne : k ≠ 8 * (e.sub * c.stride e.buffer) + c.index e.val := by omega
            rw [Bitmap.get_take (by omega), if_pos hk, decide_eq_false hne, Bool.false_or]
          · rw [hget, Bitmap.get_drop (by omega), Nat.add_sub_cancel' (not_lt.mp hk)]
            congr 1
            exact decide_eq_decide.mpr (by omega)
        have hor : c.HasBit (update m e.buffer
            (.bitmap (bytes.take (e.sub * c.stride e.buffer) ++ agg))) e.buffer i
            ↔ c.index e.val = i ∨ c.HasBit m e.buffer i := by
          unfold HasBit
          simp only [hbit, Bool.or_eq_true, decide_eq_true_eq]
          constructor
          · rintro ⟨s, hs, heq | hold⟩
            · exact .inl (sub_inj hi hindex heq).2.symm
            · exact .inr ⟨s, hs, hold⟩
          · rintro (rfl | ⟨s, hs, hold⟩)
            · exact ⟨e.sub, hsub, .inl rfl⟩
            · exact ⟨s, hs, .inr hold⟩
        rw [hor, hm.bits e.buffer i hi, update_self]
        simp only [Finset.mem_insert, exists_eq_or_imp]
      · have hsame : c.HasBit (update m e.buffer
            (.bitmap (bytes.take (e.sub * c.stride e.buffer) ++ agg))) h i ↔ c.HasBit m h i := by
          unfold HasBit Sets.bit Sets.byte Sets.load
          simp only [update_of_ne hh]
        rw [hsame, update_of_ne hh]
        exact hm.bits h i hi
  · have hdesc : (c.desc e.buffer).implType = .StdSet := himpl
    rw [hdesc, hm e.buffer]
    refine ⟨_, rfl, .inr ⟨himpl, fun h => ?_⟩⟩
    by_cases hh : h = e.buffer
    · rw [hh, update_self, update_self]
    · rw [update_of_ne hh, update_of_ne hh]
      exact hm h

-- ======== unions

/-- The bytes that a union of two buffers goes over. -/
def unionSize (c : ExactCount) (h : ℕ) : ℕ :=
  if c.target.subBitmapCount = 1 then c.size else c.stride h * c.target.subBitmapCount

/-- A sub-bitmap lies inside of what a union goes over. -/
theorem sub_le_unionSize (c : ExactCount) (h k : ℕ) {s i : ℕ}
    (hs : s < c.target.subBitmapCount) (hi : i < 8 * c.size) :
    8 * (s * c.stride h) + i < 8 * c.unionSize k := by
  unfold unionSize
  split_ifs with hone
  · have hs : s = 0 := by omega
    rw [hs, Nat.zero_mul]
    omega
  · have hle := c.size_le_stride h
    have hmul : (s + 1) * c.stride h ≤ c.target.subBitmapCount * c.stride h :=
      Nat.mul_le_mul_right _ hs
    rw [Nat.add_mul, Nat.one_mul] at hmul
    rw [c.stride_eq hone k h, Nat.mul_comm (c.stride h)]
    omega

theorem unionSize_le (c : ExactCount) (h k : ℕ) :
    c.unionSize k ≤ c.stride h * c.target.subBitmapCount := by
  unfold unionSize
  split_ifs with hone
  · rw [hone, mul_one]
    exact c.size_le_stride h
  · rw [c.stride_eq hone k h]

/-- A sub-bitmap begins at one place in both buffers. -/
theorem sub_start (c : ExactCount) {h k s : ℕ} (hs : s < c.target.subBitmapCount) :
    s * c.stride h = s * c.stride k := by
  by_cases hone : c.target.subBitmapCount = 1
  · have hs : s = 0 := by omega
    rw [hs, zero_mul, zero_mul]
  · rw [c.stride_eq hone h k]

theorem meeting_range {a b : ℕ} (hrange : ∀ h, ∀ v ∈ V h, c.InRange v) :
    ∀ h, ∀ v ∈ meeting V a b h, c.InRange v := by
  intro h v hv
  unfold meeting at hv
  split_ifs at hv
  · rcases Finset.mem_union.mp hv with hv | hv
    · exact hrange _ v hv
    · exact hrange _ v hv
  · exact hrange h v hv

/-- A union joins what two buffers stand for. -/
theorem Holds.union (hll : Hll) (hm : c.Holds m V) (a b : ℕ) :
    ∃ m', countDistinctSetUnion hll m a b (c.desc a) (c.desc b) = some m'
      ∧ c.Holds m' (meeting V a b) := by
  rcases hm with ⟨himpl, hm⟩ | ⟨himpl, hm⟩
  · have hinside (h k : ℕ) (hk : k < c.unionSize b) : m.Inside (h, 0 + k) := by
      rw [zero_add]
      exact ⟨_, hm.shape h, lt_of_lt_of_le hk (c.unionSize_le h b)⟩
    obtain ⟨m', hm', hshape, hbits, hframe⟩ := @Sets.bit_union m a b 0 0 (c.unionSize b)
      (hinside a) (hinside b) fun i _ k _ _ h => add_left_cancel h
    refine ⟨m', ?_, .inl ⟨himpl, fun h => (hshape h).trans (hm.shape h),
      meeting_range hm.range, fun h i hi => ?_⟩⟩
    · have himpl' : (c.desc a).implType = .Bitmap := himpl
      have hexact : (c.desc a).approximate = false := c.exact
      have hsubs : (c.desc a).subBitmapCount = (c.desc b).subBitmapCount
          ∧ 1 ≤ (c.desc b).subBitmapCount := ⟨rfl, c.subs_pos⟩
      have hcount : (c.desc b).subBitmapCount = c.target.subBitmapCount := rfl
      rw [countDistinctSetUnion, if_pos himpl', hexact, if_neg Bool.false_ne_true, if_pos hsubs,
        bitmapSizeBytes_eq himpl, bitmapPaddedSizeBytes_eq himpl, hcount]
      unfold unionSize at hm'
      split_ifs at hm' ⊢ with hone
      · exact hm'
      · exact hm'
    · -- the bits of each sub-bitmap are those of the two buffers
      have hpoint (k s : ℕ) (hk : k = a ∨ k = b) (hs : s < c.target.subBitmapCount) :
          m'.bit k (8 * (s * c.stride k) + i) = true
            ↔ m.bit a (8 * (s * c.stride a) + i) = true
              ∨ m.bit b (8 * (s * c.stride b) + i) = true := by
        have hlt := c.sub_le_unionSize k b hs hi
        obtain ⟨h₁, h₂⟩ := hbits _ hlt
        rw [mul_zero, zero_add] at h₁ h₂
        rw [c.sub_start (h := a) (k := k) hs, c.sub_start (h := b) (k := k) hs, ← Bool.or_eq_true]
        rcases hk with rfl | rfl
        · rw [h₁]
        · rw [h₂]
      unfold meeting
      split_ifs with hab
      · have hor : c.HasBit m' h i ↔ c.HasBit m a i ∨ c.HasBit m b i := by
          constructor
          · rintro ⟨s, hs, hbit⟩
            rcases (hpoint h s hab hs).mp hbit with hbit | hbit
            · exact .inl ⟨s, hs, hbit⟩
            · exact .inr ⟨s, hs, hbit⟩
          · rintro (⟨s, hs, hbit⟩ | ⟨s, hs, hbit⟩)
            · exact ⟨s, hs, (hpoint h s hab hs).mpr (.inl hbit)⟩
            · exact ⟨s, hs, (hpoint h s hab hs).mpr (.inr hbit)⟩
        rw [hor, hm.bits a i hi, hm.bits b i hi]
        simp only [Finset.sup_eq_union, Finset.mem_union, or_and_right, exists_or]
      · rw [not_or] at hab
        have hsame : c.HasBit m' h i ↔ c.HasBit m h i := by
          unfold HasBit
          simp only [fun k => hframe h k (fun h' => hab.1 h'.1) fun h' => hab.2 h'.1]
        rw [hsame]
        exact hm.bits h i hi
  · have himpl₁ : (c.desc a).implType = .StdSet := himpl
    have himpl₂ : (c.desc b).implType = .StdSet := himpl
    have hne : CountDistinctImplType.StdSet ≠ .Bitmap := by decide
    rw [countDistinctSetUnion, himpl₁, himpl₂, if_neg hne, if_pos rfl, hm a, hm b]
    have hold : update m a (.stdSet (V a ∪ V b)) b
        = .stdSet (if b = a then V a ∪ V b else V b) := by
      by_cases hba : b = a
      · rw [hba, update_self, if_pos rfl]
      · rw [update_of_ne hba, if_neg hba, hm b]
    simp only [update_self, hold]
    refine ⟨_, rfl, .inr ⟨himpl, fun h => ?_⟩⟩
    unfold meeting
    by_cases hb : h = b
    · rw [hb, update_self, if_pos (show b = a ∨ b = b from .inr rfl), Finset.sup_eq_union]
      by_cases hba : b = a
      · rw [if_pos hba, Finset.union_self]
      · rw [if_neg hba, Finset.union_left_comm, Finset.union_self]
    · rw [update_of_ne hb]
      by_cases ha : h = a
      · rw [ha, update_self, if_pos (.inl rfl), Finset.sup_eq_union]
      · rw [update_of_ne ha, if_neg (not_or.mpr ⟨ha, hb⟩)]
        exact hm h

-- ======== counts

/-- The first sub-bitmap has what the first `t + 1` had, and together they
have what they had. -/
structure Collected (c : ExactCount) (m m' : Sets) (h t : ℕ) : Prop where
  shape : Sets.SameShape m m'
  first : ∀ i < 8 * c.size, m'.bit h i = true ↔ ∃ s ≤ t, m.bit h (8 * (s * c.stride h) + i) = true
  rest : ∀ s, t < s → s < c.target.subBitmapCount → ∀ i < 8 * c.size,
    m'.bit h (8 * (s * c.stride h) + i) = m.bit h (8 * (s * c.stride h) + i)
  whole : ∀ i < 8 * c.size, c.HasBit m' h i ↔ c.HasBit m h i
  others : ∀ k ≠ h, ∀ i, m'.bit k i = m.bit k i

theorem Collected.zero (c : ExactCount) (m : Sets) (h : ℕ) : c.Collected m m h 0 where
  shape _ := rfl
  first i _ := by simp
  rest _ _ _ _ _ := rfl
  whole _ _ := Iff.rfl
  others _ _ _ := rfl

theorem Collected.step {m₁ : Sets} {h t : ℕ} (hc : c.Collected m m₁ h t) (hm : c.BitmapsHold m V)
    (ht : t + 1 < c.target.subBitmapCount) :
    ∃ m₂, bitmapSetUnion m₁ (h, 0) (h, (t + 1) * c.stride h) c.size = some m₂
      ∧ c.Collected m m₂ h (t + 1) := by
  have hle := c.size_le_stride h
  have hinside (s k : ℕ) (hs : s < c.target.subBitmapCount) (hk : k < c.size) :
      m₁.Inside (h, s * c.stride h + k) := (hm.inside hs hk).congr hc.shape
  have hstart : c.stride h ≤ (t + 1) * c.stride h := Nat.le_mul_of_pos_left _ (by omega)
  obtain ⟨m₂, hm₂, hshape, hbits, hframe⟩ := @Sets.bit_union m₁ h h 0 ((t + 1) * c.stride h) c.size
    (fun k hk => by simpa using hinside 0 k (by omega) hk)
    (fun k hk => hinside (t + 1) k ht hk) fun i hi k _ _ heq => by omega
  have hfirst (i : ℕ) (hi : i < 8 * c.size) : m₂.bit h i
      = (m₁.bit h i || m₁.bit h (8 * ((t + 1) * c.stride h) + i)) := by
    have := (hbits i hi).1
    rwa [Nat.mul_zero, Nat.zero_add] at this
  have hother (s i : ℕ) (hs : s ≠ 0) (hne : s ≠ t + 1) (hi : i < 8 * c.size) :
      m₂.bit h (8 * (s * c.stride h) + i) = m₁.bit h (8 * (s * c.stride h) + i) := by
    refine hframe h _ (fun hin => ?_) fun hin => ?_
    · have hlow : c.stride h ≤ s * c.stride h := Nat.le_mul_of_pos_left _ (by omega)
      omega
    · -- an index in the other sub-bitmap would be one of it
      have hk : 8 * (s * c.stride h) + i - 8 * ((t + 1) * c.stride h) < 8 * c.size := by omega
      have := (@sub_inj c h s (t + 1) i _ hi hk (by omega)).1
      exact hne this
  refine ⟨m₂, hm₂, hc.shape.trans hshape, fun i hi => ?_, fun s hs hlt i hi => ?_, fun i hi => ?_,
    fun k hk i => ?_⟩
  · rw [hfirst i hi, Bool.or_eq_true, hc.first i hi, hc.rest (t + 1) (by omega) ht i hi]
    constructor
    · rintro (⟨s, hs, hbit⟩ | hbit)
      · exact ⟨s, by omega, hbit⟩
      · exact ⟨t + 1, le_refl _, hbit⟩
    · rintro ⟨s, hs, hbit⟩
      by_cases hlast : s = t + 1
      · exact .inr (hlast ▸ hbit)
      · exact .inl ⟨s, by omega, hbit⟩
  · rw [hother s i (by omega) (by omega) hi]
    exact hc.rest s (by omega) hlt i hi
  · rw [← hc.whole i hi]
    constructor
    · rintro ⟨s, hs, hbit⟩
      by_cases hzero : s = 0
      · rw [hzero, Nat.zero_mul, Nat.mul_zero, Nat.zero_add, hfirst i hi, Bool.or_eq_true] at hbit
        rcases hbit with hbit | hbit
        · exact ⟨0, by omega, by simpa using hbit⟩
        · exact ⟨t + 1, ht, hbit⟩
      · by_cases hlast : s = t + 1
        · rw [hlast, (hbits i hi).2, Bool.or_eq_true, Nat.mul_zero, Nat.zero_add] at hbit
          rcases hbit with hbit | hbit
          · exact ⟨0, by omega, by simpa using hbit⟩
          · exact ⟨t + 1, ht, hbit⟩
        · rw [hother s i hzero hlast hi] at hbit
          exact ⟨s, hs, hbit⟩
    · rintro ⟨s, hs, hbit⟩
      by_cases hzero : s = 0
      · subst hzero
        refine ⟨0, hs, ?_⟩
        rw [Nat.zero_mul, Nat.mul_zero, Nat.zero_add] at hbit ⊢
        rw [hfirst i hi, hbit, Bool.true_or]
      · by_cases hlast : s = t + 1
        · subst hlast
          exact ⟨t + 1, hs, by rw [(hbits i hi).2, hbit, Bool.or_true]⟩
        · exact ⟨s, hs, by rw [hother s i hzero hlast hi, hbit]⟩
  · rw [hframe k i (fun hin => hk hin.1) fun hin => hk hin.1, hc.others k hk i]

theorem collected_range {h t : ℕ} (hm : c.BitmapsHold m V) (ht : t < c.target.subBitmapCount) :
    ∃ m', (range' 1 t).foldlM
        (fun m i => bitmapSetUnion m (h, 0) (h, i * c.stride h) c.size) m = some m'
      ∧ c.Collected m m' h t := by
  induction t with
  | zero => exact ⟨m, rfl, .zero c m h⟩
  | succ t ih =>
    obtain ⟨m₁, hm₁, hc⟩ := ih (by omega)
    obtain ⟨m₂, hm₂, hc₂⟩ := hc.step hm ht
    refine ⟨m₂, ?_, hc₂⟩
    rw [range'_concat, foldlM_append, hm₁, one_mul, add_comm 1 t]
    simpa using hm₂

/-- A count folds the sub-bitmaps, where there are several. -/
theorem fold_eq {h : ℕ} (himpl : c.target.implType = .Bitmap) (hm : c.BitmapsHold m V) :
    ∃ m', foldSubBitmaps m h (c.desc h) = some m'
      ∧ c.Collected m m' h (c.target.subBitmapCount - 1) := by
  have hpos := c.subs_pos
  have hcount : (c.desc h).subBitmapCount = c.target.subBitmapCount := rfl
  rw [foldSubBitmaps, hcount]
  split_ifs with hmany
  · obtain ⟨m', hm', hc⟩ := @collected_range c m V h (c.target.subBitmapCount - 1) hm (by omega)
    refine ⟨m', ?_, hc⟩
    have hmod : c.stride h * c.target.subBitmapCount % c.target.subBitmapCount = 0 :=
      Nat.mul_mod_left ..
    have hdiv : c.stride h * c.target.subBitmapCount / c.target.subBitmapCount = c.stride h :=
      Nat.mul_div_cancel _ hpos
    simp only [partialBitmapUnion, bitmapPaddedSizeBytes_eq himpl, bitmapSizeBytes_eq himpl,
      bind_eq_bind, bind_some, hcount, hmod, hdiv, ne_eq, not_true_eq_false,
      if_false]
    exact hm'
  · have hone : c.target.subBitmapCount - 1 = 0 := by omega
    rw [hone]
    exact ⟨m, rfl, .zero c m h⟩

theorem bitmapSetSize_eq {bytes : List Bitmap.Byte} {n : ℕ} (h : n ≤ bytes.length) :
    bitmapSetSize bytes n = some (Bitmap.members (bytes.take n)).card := by
  have hsplit : n = 8 * (n / 8) + n % 8 := by omega
  rw [bitmapSetSize, if_pos h]
  dsimp only
  rw [Bitmap.sum_words _ (by omega), Bitmap.sum_bytes _ (by omega),
    ← Bitmap.count_append, ← take_add, ← hsplit, Bitmap.count_eq_card]

/-- A count is the number of values, and leaves them as they are. -/
theorem Holds.size (hll : Hll) (hm : c.Holds m V) (h : ℕ) :
    ∃ m', countDistinctSetSize hll m (some h) c.targetIdx (c.descriptors h)
        = some (((V h).card : Int), m')
      ∧ c.Holds m' V := by
  have hdesc : (c.descriptors h)[c.targetIdx]? = some (c.desc h) := c.same h
  rcases hm with ⟨himpl, hm⟩ | ⟨himpl, hm⟩
  · obtain ⟨m', hfold, hc⟩ := fold_eq (h := h) himpl hm
    have hpos := c.subs_pos
    have himpl' : (c.desc h).implType = .Bitmap := himpl
    have hexact : (c.desc h).approximate = false := c.exact
    have hbitmap {m : Sets} (hshape : (m h).bitmapLength
        = some (c.stride h * c.target.subBitmapCount)) :
        ∃ bytes, m h = .bitmap bytes ∧ bytes.length = c.stride h * c.target.subBitmapCount := by
      cases hset : m h with
      | bitmap bytes =>
        rw [hset] at hshape
        exact ⟨bytes, rfl, some.inj hshape⟩
      | stdSet elems =>
        rw [hset] at hshape
        cases hshape
    obtain ⟨bytes, hset, -⟩ := hbitmap (hm.shape h)
    obtain ⟨bytes', hset', hlen⟩ := hbitmap ((hc.shape h).trans (hm.shape h))
    have hsize : c.size ≤ bytes'.length := by
      rw [hlen]
      exact (c.size_le_stride h).trans (Nat.le_mul_of_pos_right _ hpos)
    -- the bits of the first sub-bitmap are the indices of the values
    have hmembers : Bitmap.members (bytes'.take c.size) = (V h).image c.index := by
      ext i
      rw [Bitmap.mem_members, Bitmap.get_take hsize, Finset.mem_image]
      split_ifs with hi
      · rw [← Sets.bit_eq hset', hc.first i hi, ← hm.bits h i hi, HasBit]
        exact ⟨fun ⟨s, hs, hbit⟩ => ⟨s, by omega, hbit⟩, fun ⟨s, hs, hbit⟩ => ⟨s, by omega, hbit⟩⟩
      · refine iff_of_false (by decide) ?_
        rintro ⟨v, hv, rfl⟩
        exact hi (hm.range h v hv).index_lt
    have hcard : (Bitmap.members (bytes'.take c.size)).card = (V h).card := by
      rw [hmembers]
      exact Finset.card_image_of_injOn fun v hv w hw heq =>
        (hm.range h v hv).index_inj (hm.range h w hw) heq
    refine ⟨m', ?_, .inl ⟨himpl, fun k => (hc.shape k).trans (hm.shape k), hm.range,
      fun k i hi => ?_⟩⟩
    · simp only [countDistinctSetSize, hdesc, bind_eq_bind, bind_some, himpl', hset,
        hexact, Bool.false_eq_true, if_false, hfold, hset', bitmapSizeBytes_eq himpl,
        bitmapSetSize_eq hsize, hcard]
      rfl
    · rw [← hm.bits k i hi]
      by_cases hk : k = h
      · rw [hk]
        exact hc.whole i hi
      · unfold HasBit
        simp only [hc.others k hk]
  · have himpl' : (c.desc h).implType = .StdSet := himpl
    refine ⟨m, ?_, .inr ⟨himpl, hm⟩⟩
    simp only [countDistinctSetSize, hdesc, bind_eq_bind, bind_some, himpl', hm h]
    rfl

-- ======== runs

/-- What the buffers hold after the entries. -/
def values (c : ExactCount) (entries : List Entry) : ℕ → Finset Int64 :=
  fun h => c.distinct entries {h}

variable {entries : List Entry}

theorem mem_distinct {buffers : Finset ℕ} {v : Int64} : v ∈ c.distinct entries buffers
      ↔ ∃ e ∈ entries, e.buffer ∈ buffers ∧ c.skipVal ≠ some e.val ∧ e.val = v := by
  simp [distinct, and_assoc]

theorem distinct_eq_biUnion (entries : List Entry) (buffers : Finset ℕ) :
    c.distinct entries buffers = buffers.biUnion (c.values entries) := by
  ext v
  simp only [Finset.mem_biUnion, values, mem_distinct, Finset.mem_singleton]
  constructor
  · rintro ⟨e, he, hbuffer, hrest⟩
    exact ⟨e.buffer, hbuffer, e, he, rfl, hrest⟩
  · rintro ⟨h, hh, e, he, rfl, hrest⟩
    exact ⟨e, he, hh, hrest⟩

theorem values_append_singleton (entries : List Entry) (e : Entry) :
    c.values (entries ++ [e]) = update (c.values entries) e.buffer
      (if c.skipVal = some e.val then c.values entries e.buffer
        else insert e.val (c.values entries e.buffer)) := by
  funext h
  ext v
  by_cases hh : h = e.buffer
  · subst hh
    rw [update_self]
    split_ifs with hskip
    · simp only [values, mem_distinct, mem_append, mem_singleton, or_and_right,
        exists_or, exists_eq_left]
      simp [hskip]
    · rw [Finset.mem_insert]
      simp only [values, mem_distinct, mem_append, mem_singleton, or_and_right,
        exists_or, exists_eq_left]
      simp [hskip, or_comm, eq_comm]
  · rw [update_of_ne hh]
    simp only [values, mem_distinct, mem_append, mem_singleton, or_and_right,
      exists_or, exists_eq_left]
    simp [Ne.symm hh]

theorem holds_fill (hvalid : ∀ e ∈ entries, c.Valid e) :
    ∃ m, c.fill entries = some m ∧ c.Holds m (c.values entries) := by
  induction entries using reverseRecOn with
  | nil => exact ⟨c.allocated, rfl, holds_allocated c⟩
  | append_singleton entries e ih =>
    obtain ⟨m, hm, hholds⟩ := ih fun e he => hvalid e (mem_append_left _ he)
    obtain ⟨m', hm', hholds'⟩ := hholds.addValue (hvalid e (by simp))
    refine ⟨m', ?_, ?_⟩
    · rw [fill, foldlM_append, ← fill, hm]
      simpa using hm'
    · rw [values_append_singleton]
      exact hholds'

theorem holds_calls (hll : Hll) (hm : c.Holds m V) (calls : List Call) :
    ∃ m', calls.foldlM (c.call hll) m = some m' ∧ c.Holds m' (meetings V (unions calls)) := by
  induction calls generalizing m V with
  | nil => exact ⟨m, rfl, hm⟩
  | cons step calls ih =>
    cases step with
    | union a b =>
      obtain ⟨m₁, hm₁, hholds⟩ := hm.union hll a b
      obtain ⟨m', hm', hholds'⟩ := ih hholds
      exact ⟨m', by rw [foldlM_cons, call, hm₁]; exact hm', hholds'⟩
    | size h =>
      obtain ⟨m₁, hm₁, hholds⟩ := hm.size hll h
      obtain ⟨m', hm', hholds'⟩ := ih hholds
      exact ⟨m', by rw [foldlM_cons, call, hm₁]; exact hm', hholds'⟩

/-- After any run a set counts the distinct values of the buffers that
were merged into it. -/
theorem run_holds (c : ExactCount) (hll : Hll) (hvalid : ∀ e ∈ entries, c.Valid e)
    (calls : List Call) : ∃ m, c.run hll entries calls = some m
      ∧ c.Holds m fun h => c.distinct entries (heard (unions calls) h) := by
  obtain ⟨m, hm, hholds⟩ := holds_fill hvalid
  obtain ⟨m', hm', hholds'⟩ := holds_calls hll hholds calls
  refine ⟨m', by rw [run, hm]; exact hm', ?_⟩
  have hvalues : meetings (c.values entries) (unions calls)
      = fun h => c.distinct entries (heard (unions calls) h) := by
    funext h
    rw [meetings_eq_biUnion, distinct_eq_biUnion]
  rwa [hvalues] at hholds'

/-- However values are spread over buffers and sub-bitmaps and in whatever
order the buffers are merged, a set into which all of them were merged
counts the distinct values, and counts them again. -/
theorem size_of_merged (c : ExactCount) (hll : Hll) {entries : List Entry}
    (hvalid : ∀ e ∈ entries, c.Valid e) (calls : List Call) (final : ℕ)
    (hmerged : ∀ e ∈ entries, e.buffer ∈ heard (unions calls) final) :
    ∃ m m₁ m₂, c.run hll entries calls = some m
      ∧ countDistinctSetSize hll m (some final) c.targetIdx (c.descriptors final)
        = some ((((entries.map Entry.val).filter fun v => c.skipVal ≠ some v).toFinset.card : Int),
            m₁)
      ∧ countDistinctSetSize hll m₁ (some final) c.targetIdx (c.descriptors final)
        = some ((((entries.map Entry.val).filter fun v => c.skipVal ≠ some v).toFinset.card : Int),
            m₂) := by
  obtain ⟨m, hm, hholds⟩ := run_holds c hll hvalid calls
  obtain ⟨m₁, hm₁, hholds₁⟩ := hholds.size hll final
  obtain ⟨m₂, hm₂, -⟩ := hholds₁.size hll final
  have hall : c.distinct entries (heard (unions calls) final)
      = ((entries.map Entry.val).filter fun v => c.skipVal ≠ some v).toFinset := by
    ext v
    rw [mem_distinct, List.mem_toFinset, mem_filter, List.mem_map, decide_eq_true_eq]
    constructor
    · rintro ⟨e, he, -, hskip, rfl⟩
      exact ⟨⟨e, he, rfl⟩, hskip⟩
    · rintro ⟨⟨e, he, rfl⟩, hskip⟩
      exact ⟨e, he, hmerged e he, hskip, rfl⟩
  rw [hall] at hm₁ hm₂
  exact ⟨m, m₁, m₂, hm, hm₁, hm₂⟩

/-- A bitmap of 83 bits from 10 on, twice; 0 is null. -/
def twoSubs : ExactCount where
  target := ⟨.Bitmap, 10, 83, false, .GPU, 2⟩
  device _ := .GPU
  targetIdx := 0
  descriptors _ := [⟨.Bitmap, 10, 83, false, .GPU, 2⟩]
  skipVal := some 0
  same _ := rfl
  exact := rfl
  impl := by decide
  bits_nonneg := by decide
  bits_lt := by decide
  subs_pos := by decide

/-- No sketch is counted in an exact count. -/
def noSketch : Hll := ⟨fun _ _ _ => 0, fun _ _ new old _ => (new, old)⟩

theorem twoSubs_size :
    ∃ m m₁ m₂,
      twoSubs.run noSketch [⟨1, 0, 10⟩, ⟨1, 1, 10⟩, ⟨1, 1, 92⟩, ⟨2, 0, 92⟩, ⟨3, 1, 50⟩, ⟨3, 0, 0⟩]
          [.union 1 2, .size 1, .union 3 1] = some m
        ∧ countDistinctSetSize noSketch m (some 3) 0 (twoSubs.descriptors 3) = some (3, m₁)
        ∧ countDistinctSetSize noSketch m₁ (some 3) 0 (twoSubs.descriptors 3) = some (3, m₂) := by
  have hvalid : ∀ e ∈ [(⟨1, 0, 10⟩ : Entry), ⟨1, 1, 10⟩, ⟨1, 1, 92⟩, ⟨2, 0, 92⟩, ⟨3, 1, 50⟩,
      ⟨3, 0, 0⟩], twoSubs.Valid e := by
    unfold Valid
    decide
  exact size_of_merged twoSubs noSketch hvalid [.union 1 2, .size 1, .union 3 1] 3 (by decide)

end ExactCount

end Compass.Bitmaps
