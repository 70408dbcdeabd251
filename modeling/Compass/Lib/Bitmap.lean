/-
Sets of numbers as runs of bits.

Bit `i` of a run of bytes is bit `i % 8` of byte `i / 8`. `insert` sets one
bit, and `members` is the set that the run stands for. `count` counts the set bits of every byte; the
bytes may as well be taken eight at a time, as little-endian words
(`popCount_word`), which is how a bitmap is counted fast.
-/
import Mathlib.Algebra.GroupWithZero.Nat
import Mathlib.Algebra.Ring.Int.Defs
import Mathlib.Data.Finset.Card
import Mathlib.Data.List.GetD

namespace Bitmap

open List Option

abbrev Byte := BitVec 8

-- ======== one bit

def get (b : List Byte) (i : ℕ) : Bool :=
  (b.getD (i / 8) 0).getLsbD (i % 8)

/-- The run with bit `i` set; none where the run has no such byte. -/
def insert (b : List Byte) (i : ℕ) : Option (List Byte) :=
  b[i / 8]?.map fun byte => b.set (i / 8) (byte ||| 1#8 <<< (i % 8))

/-- Whether bit `i` is set; none where the run has no such byte. -/
def test (b : List Byte) (i : ℕ) : Option Bool :=
  b[i / 8]?.map fun byte => byte &&& 1#8 <<< (i % 8) != 0

variable {b : List Byte}
variable {i : ℕ}

theorem get_of_ge (h : 8 * b.length ≤ i) : get b i = false := by
  have hout : b.length ≤ i / 8 := by omega
  rw [get, getD_eq_default _ _ hout]
  exact BitVec.getLsbD_zero

theorem get_append (a b : List Byte) (i : ℕ) :
    get (a ++ b) i = if i < 8 * a.length then get a i else get b (i - 8 * a.length) := by
  unfold get
  split_ifs with h
  · rw [getD_append _ _ _ _ (by omega)]
  · have hdiv : i / 8 - a.length = (i - 8 * a.length) / 8 := by omega
    have hmod : i % 8 = (i - 8 * a.length) % 8 := by omega
    rw [getD_append_right _ _ _ _ (by omega), hdiv, hmod]

theorem get_take {n : ℕ} (h : n ≤ b.length) (i : ℕ) :
    get (b.take n) i = if i < 8 * n then get b i else false := by
  have hlen : (b.take n).length = n := length_take_of_le h
  split_ifs with hi
  · have happ := get_append (b.take n) (b.drop n) i
    rw [take_append_drop, hlen, if_pos hi] at happ
    exact happ.symm
  · exact get_of_ge (by rw [hlen]; omega)

theorem get_drop {n : ℕ} (h : n ≤ b.length) (i : ℕ) :
    get (b.drop n) i = get b (8 * n + i) := by
  have hlen : (b.take n).length = n := length_take_of_le h
  have happ := get_append (b.take n) (b.drop n) (8 * n + i)
  rw [take_append_drop, hlen, if_neg (by omega), Nat.add_sub_cancel_left] at happ
  exact happ.symm

theorem get_replicate_zero (n i : ℕ) : get (replicate n 0) i = false := by
  rw [get, getD_eq_getElem?_getD, getElem?_replicate]
  split_ifs
  · exact BitVec.getLsbD_zero
  · exact BitVec.getLsbD_zero

theorem lt_of_get (h : get b i = true) : i < 8 * b.length := by
  by_contra hge
  rw [get_of_ge (not_lt.mp hge)] at h
  cases h

theorem and_twoPow_ne_zero (x : Byte) (i : ℕ) (hi : i < 8) :
    (x &&& 1#8 <<< i != 0) = x.getLsbD i := by
  rw [← BitVec.twoPow_eq, BitVec.and_twoPow]
  cases x.getLsbD i with
  | false => rfl
  | true =>
    have hne : BitVec.twoPow 8 i ≠ 0 := by
      intro h
      have hbit : (BitVec.twoPow 8 i).getLsbD i = false := by
        rw [h]
        exact BitVec.getLsbD_zero
      simp [hi] at hbit
    simpa using hne

theorem test_eq (h : i < 8 * b.length) : test b i = some (get b i) := by
  have hin : i / 8 < b.length := by omega
  rw [test, get, getElem?_eq_getElem hin, getD_eq_getElem _ _ hin, map_some,
    and_twoPow_ne_zero _ _ (Nat.mod_lt _ (by decide))]

theorem insert_cases {b : List Byte} {i : ℕ} (h : i < 8 * b.length) :
    ∃ b', insert b i = some b' ∧ b'.length = b.length
      ∧ ∀ j, get b' j = (decide (j = i) || get b j) := by
  have hin : i / 8 < b.length := by omega
  refine ⟨_, by rw [insert, getElem?_eq_getElem hin, map_some], by simp, ?_⟩
  intro j
  rw [get, get, getD_eq_getElem?_getD, getD_eq_getElem?_getD, getElem?_set]
  by_cases hbyte : i / 8 = j / 8
  · -- the byte that is written: the bits of it that are not bit `i` stay
    rw [if_pos hbyte, if_pos hin, ← hbyte, getElem?_eq_getElem hin, getD_some,
      getD_some, BitVec.getLsbD_or, ← BitVec.twoPow_eq, BitVec.getLsbD_twoPow, Bool.or_comm]
    have hsame : (i % 8 = j % 8) ↔ (j = i) := by omega
    have hlt : i % 8 < 8 := Nat.mod_lt _ (by decide)
    simp [hlt, hsame]
  · rw [if_neg hbyte]
    have hne : j ≠ i := fun h => hbyte (by rw [h])
    simp [hne]

/-- Bits that all lie in the run are set one after the other. -/
theorem foldlM_insert {is : List ℕ} (h : ∀ i ∈ is, i < 8 * b.length) :
    ∃ b', is.foldlM insert b = some b' ∧ b'.length = b.length
      ∧ ∀ j, get b' j = (decide (j ∈ is) || get b j) := by
  induction is generalizing b with
  | nil => exact ⟨b, rfl, rfl, fun j => by simp⟩
  | cons i is ih =>
    obtain ⟨b₁, hins, hlen, hget⟩ := insert_cases (h i mem_cons_self)
    obtain ⟨b₂, hfold, hlen₂, hget₂⟩ := @ih b₁ fun j hj => by
      rw [hlen]
      exact h j (mem_cons_of_mem _ hj)
    refine ⟨b₂, ?_, hlen₂.trans hlen, fun j => ?_⟩
    · rw [foldlM_cons, hins]
      exact hfold
    · rw [hget₂, hget, ← Bool.or_assoc]
      congr 1
      by_cases hj : j = i <;> by_cases hin : j ∈ is <;> simp [hj, hin]

-- ======== counting

/-- The numbers whose bits are set. -/
def members (b : List Byte) : Finset ℕ :=
  (Finset.range (8 * b.length)).filter fun i => get b i

theorem mem_members : i ∈ members b ↔ get b i = true := by
  rw [members, Finset.mem_filter, Finset.mem_range]
  exact ⟨And.right, fun h => ⟨lt_of_get h, h⟩⟩

/-- The number of set bits. -/
def popCount {w : ℕ} (x : BitVec w) : ℕ :=
  (List.range w).countP x.getLsbD

def count (b : List Byte) : ℕ := (b.map popCount).sum

theorem get_cons (x : Byte) (b : List Byte) (i : ℕ) :
    get (x :: b) i = if i < 8 then x.getLsbD i else get b (i - 8) := by
  by_cases hi : i < 8
  · rw [if_pos hi, get, Nat.div_eq_of_lt hi, Nat.mod_eq_of_lt hi]
    rfl
  · rw [if_neg hi, get, get]
    have hdiv : i / 8 = (i - 8) / 8 + 1 := by omega
    have hmod : i % 8 = (i - 8) % 8 := by omega
    rw [hdiv, hmod, getD_cons_succ]

theorem countP_get (b : List Byte) : (range (8 * b.length)).countP (get b) = count b := by
  induction b with
  | nil => rfl
  | cons x b ih =>
    have hlen : 8 * (x :: b).length = 8 + 8 * b.length := by
      rw [length_cons]
      omega
    rw [hlen, range_add, countP_append, countP_map, count, map_cons,
      sum_cons, ← count, ← ih, popCount]
    have hhigh : get (x :: b) ∘ (8 + ·) = get b := by
      funext i
      rw [Function.comp_apply, get_cons, if_neg (by omega), Nat.add_sub_cancel_left]
    rw [hhigh]
    refine congrArg (· + _) (countP_congr fun i hi => ?_)
    rw [get_cons, if_pos (mem_range.mp hi)]

/-- Counting the bits of the bytes counts the members. -/
theorem count_eq_card (b : List Byte) : count b = (members b).card := by
  have hset : members b = ((range (8 * b.length)).filter (get b)).toFinset := by
    ext i
    rw [mem_members, List.mem_toFinset, mem_filter, mem_range]
    exact ⟨fun h => ⟨lt_of_get h, h⟩, And.right⟩
  rw [hset, toFinset_card_of_nodup (nodup_range.filter _), ← countP_eq_length_filter, countP_get]

theorem count_append (a b : List Byte) : count (a ++ b) = count a + count b := by
  rw [count, map_append, sum_append]
  rfl

-- ======== words

/-- A little-endian word of bytes. -/
def word (w : ℕ) (b : List Byte) : BitVec w :=
  b.foldr (fun byte acc => byte.setWidth w ||| acc <<< 8) 0

theorem getLsbD_word {w : ℕ} (hi : i < w) : (word w b).getLsbD i = get b i := by
  induction b generalizing i with
  | nil => simp [word, get]
  | cons x b ih =>
    rw [word, foldr_cons, ← word, BitVec.getLsbD_or, BitVec.getLsbD_setWidth,
      BitVec.getLsbD_shiftLeft, get_cons]
    by_cases hlow : i < 8
    · simp [hi, hlow]
    · rw [ih (by omega)]
      have hx : x.getLsbD i = false := BitVec.getLsbD_of_ge x i (by omega)
      simp [hi, hlow, hx]

variable (b : List Byte)

/-- The set bits of a word are those of its bytes. -/
theorem popCount_word : popCount (word (8 * b.length) b) = count b := by
  rw [← countP_get, popCount]
  exact countP_congr fun i hi => by rw [getLsbD_word (mem_range.mp hi)]

/-- A run counted by words, eight bytes to a word. -/
theorem sum_words {n : ℕ} (h : 8 * n ≤ b.length) :
    ((range n).map fun i => popCount (word 64 ((b.drop (8 * i)).take 8))).sum
      = count (b.take (8 * n)) := by
  induction n with
  | zero => rfl
  | succ n ih =>
    have hlen : ((b.drop (8 * n)).take 8).length = 8 := by
      rw [length_take, length_drop]
      omega
    have hword := popCount_word ((b.drop (8 * n)).take 8)
    rw [hlen] at hword
    rw [range_succ, map_append, sum_append, ih (by omega), map_singleton,
      sum_singleton, hword, ← count_append, ← take_add, Nat.mul_succ]

/-- A run counted byte by byte. -/
theorem sum_bytes {s n : ℕ} (h : s + n ≤ b.length) :
    ((range n).map fun i => popCount (b.getD (s + i) 0)).sum
      = count ((b.drop s).take n) := by
  induction n with
  | zero => rfl
  | succ n ih =>
    have hlt : n < (b.drop s).length := by
      rw [length_drop]
      omega
    rw [range_succ, map_append, sum_append, ih (by omega), map_singleton,
      sum_singleton, take_add_one, count_append, getElem?_eq_getElem hlt,
      getElem_drop, getD_eq_getElem _ _ (by omega)]
    simp [count]

end Bitmap
