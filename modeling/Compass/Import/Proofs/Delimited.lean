/-
When the loop over the blocks of a file makes progress.

What is left of the file determines the reader (`next_leftOf`). A block that
is cut ends with a line delimiter, so a part of the file that begins in the
block and reaches behind it has a delimiter (`everyWindow_drop`): the loop gets
stuck at a line that does not fit the buffer, and nowhere else.
-/
import Compass.Import.Delimited

namespace Compass.Import

open List

variable {bufferSize : Nat} {lineDelim : UInt8}

-- ======== the cut

theorem findEnd_le (lineDelim : UInt8) (buffer : Text) : findEnd lineDelim buffer ≤ buffer.length :=
  ( rdropWhile_prefix _ buffer).length_le

theorem findEnd_pos {buffer : Text} : 0 < findEnd lineDelim buffer ↔ lineDelim ∈ buffer := by
  rw [findEnd, length_pos_iff, ne_eq, rdropWhile_eq_nil_iff]
  simp

/-- The byte before the cut is a delimiter. -/
theorem getElem?_findEnd {buffer : Text} (h : lineDelim ∈ buffer) :
    buffer[findEnd lineDelim buffer - 1]? = some lineDelim := by
  have hne : buffer.rdropWhile (· ≠ lineDelim) ≠ [] := length_pos_iff.1 (findEnd_pos.2 h)
  have hlast := rdropWhile_last_not (· ≠ lineDelim) buffer hne
  obtain ⟨rest, hrest⟩ := rdropWhile_prefix (· ≠ lineDelim) buffer
  rw [findEnd]
  generalize buffer.rdropWhile (· ≠ lineDelim) = kept at *
  have hpos := length_pos_iff.2 hne
  have hget := getLast?_eq_some_getLast hne
  rw [getLast?_eq_getElem?] at hget
  rw [← hrest, getElem?_append_left (by omega), hget]
  simpa using hlast

-- ======== what is left

namespace Reader

/-- The reader that has this much of the file left. -/
def leftOf (bufferSize : Nat) (left : Text) (eof : Bool) : Reader :=
  ⟨left.take bufferSize, left.drop bufferSize, eof⟩

theorem endPos_le (lineDelim : UInt8) (s : Reader) : s.endPos lineDelim ≤ s.buffer.length := by
  unfold endPos
  split
  · exact le_rfl
  · exact findEnd_le lineDelim _

theorem next_leftOf {left : Text} {eof : Bool} (hpos : 0 < bufferSize)
    (heof : eof = true → left.length < bufferSize) :
    (leftOf bufferSize left eof).next bufferSize lineDelim
      = leftOf bufferSize (left.drop ((leftOf bufferSize left eof).endPos lineDelim))
        (decide ((left.drop ((leftOf bufferSize left eof).endPos lineDelim)).length
          < bufferSize)) := by
  have hle := (leftOf bufferSize left eof).endPos_le lineDelim
  generalize hn : (leftOf bufferSize left eof).endPos lineDelim = n at hle
  have hbuffer : (leftOf bufferSize left eof).buffer = left.take bufferSize := rfl
  rw [hbuffer] at hle
  have hdrop : left.drop n = (left.take bufferSize).drop n ++ left.drop bufferSize := by
    rw [← drop_append_of_le_length hle, take_append_drop]
  have hshort : ((left.take bufferSize).drop n).length ≤ bufferSize := by
    rw [length_drop, length_take]
    omega
  have hbuffer' : (left.take bufferSize).drop n
      ++ (left.drop bufferSize).take (bufferSize - ((left.take bufferSize).drop n).length)
        = (left.drop n).take bufferSize := by
    rw [hdrop, take_append, take_of_length_le hshort]
  simp only [next, hn]
  simp only [leftOf, Reader.mk.injEq, hbuffer']
  refine ⟨trivial, ?_, ?_⟩
  · rw [hdrop, drop_append, drop_of_length_le hshort, nil_append]
  · rw [length_take] at hle
    rw [Bool.eq_iff_iff]
    simp only [Bool.or_eq_true, Bool.and_eq_true, decide_eq_true_eq, length_drop, length_take]
    constructor
    · rintro (rfl | ⟨hlt, -⟩)
      · have hlt := heof rfl
        omega
      · omega
    · intro hlt
      exact .inr ⟨by omega, by omega⟩

-- ======== progress

/-- Every iteration hands out a byte. -/
def Advances (bufferSize : Nat) (lineDelim : UInt8) (s : Reader) : Prop :=
  ∀ n, (∀ i ≤ n, ((next bufferSize lineDelim)^[i] s).buffer ≠ []) →
    0 < ((next bufferSize lineDelim)^[n] s).endPos lineDelim

theorem advances_iff {s : Reader} : Advances bufferSize lineDelim s ↔
    s.buffer = [] ∨ 0 < s.endPos lineDelim
      ∧ Advances bufferSize lineDelim (s.next bufferSize lineDelim) := by
  constructor
  · intro h
    by_cases hempty : s.buffer = []
    · exact .inl hempty
    refine .inr ⟨h 0 fun i hi => ?_, fun n hn => h (n + 1) fun i hi => ?_⟩
    · obtain rfl : i = 0 := by omega
      exact hempty
    · cases i with
      | zero => exact hempty
      | succ i => exact hn i (by omega)
  · rintro (hempty | ⟨hpos, hnext⟩) n hn
    · exact absurd hempty (hn 0 (by omega))
    · cases n with
      | zero => exact hpos
      | succ n => exact hnext n fun i hi => hn (i + 1) (by omega)

theorem advances_nil (eof : Bool) : Advances bufferSize lineDelim (leftOf bufferSize [] eof) :=
  advances_iff.2 (.inl take_nil)

/-- At the end of the file all that is left is handed out. -/
theorem advances_eof {left : Text} (hshort : left.length < bufferSize) :
    Advances bufferSize lineDelim (leftOf bufferSize left true) := by
  rw [advances_iff]
  by_cases hempty : left = []
  · exact .inl (by rw [hempty]; exact take_nil)
  have hend : (leftOf bufferSize left true).endPos lineDelim = left.length := by
    have hlength : (left.take bufferSize).length = left.length := by
      rw [length_take]
      exact min_eq_right hshort.le
    exact hlength
  refine .inr ⟨by rw [hend]; exact length_pos_iff.2 hempty, ?_⟩
  rw [next_leftOf (by omega) fun _ => hshort, hend, drop_length]
  exact advances_nil _

end Reader

/-- A part of the file that begins before the cut has the delimiter there. -/
theorem everyWindow_drop {left : Text} (h : lineDelim ∈ left.take bufferSize) :
    EveryWindow bufferSize lineDelim (left.drop (findEnd lineDelim (left.take bufferSize)))
      ↔ EveryWindow bufferSize lineDelim left := by
  have hcut := getElem?_findEnd h
  have hpos := findEnd_pos.2 h
  have hle := findEnd_le lineDelim (left.take bufferSize)
  generalize findEnd lineDelim (left.take bufferSize) = n at *
  rw [length_take] at hle
  rw [getElem?_take_of_lt (by omega)] at hcut
  constructor
  · rintro hall window ⟨before, after, rfl⟩ hlength
    by_cases hn : n ≤ before.length
    · refine hall window ⟨before.drop n, after, ?_⟩ hlength
      rw [append_assoc, append_assoc, drop_append_of_le_length hn]
    · rw [append_assoc, getElem?_append_right (by omega), getElem?_append_left (by omega)] at hcut
      exact mem_of_getElem? hcut
  · exact fun hall window hpart => hall window (hpart.trans (drop_suffix n left).isInfix)

namespace Reader

theorem advances_iff_everyWindow (hpos : 0 < bufferSize) {left : Text}
    (hlong : bufferSize ≤ left.length) :
    Advances bufferSize lineDelim (leftOf bufferSize left false)
      ↔ EveryWindow bufferSize lineDelim left := by
  induction hn : left.length using Nat.strong_induction_on generalizing left with
  | h n ih =>
    have htake : (left.take bufferSize).length = bufferSize := length_take_of_le hlong
    have hend : (leftOf bufferSize left false).endPos lineDelim
        = findEnd lineDelim (left.take bufferSize) := rfl
    have hfull : (leftOf bufferSize left false).buffer ≠ [] := by
      intro hempty
      have htake' : left.take bufferSize = [] := hempty
      rw [htake', length_nil] at htake
      omega
    have heof : false = true → left.length < bufferSize := nofun
    rw [advances_iff, or_iff_right hfull, hend, findEnd_pos, next_leftOf hpos heof, hend]
    by_cases hmem : lineDelim ∈ left.take bufferSize
    · rw [and_iff_right hmem, ← everyWindow_drop hmem]
      have hcut := findEnd_pos.2 hmem
      generalize findEnd lineDelim (left.take bufferSize) = k at *
      by_cases hshort : (left.drop k).length < bufferSize
      · rw [decide_eq_true hshort]
        refine iff_of_true (advances_eof hshort) fun window hpart hlength => ?_
        have hle := hpart.length_le
        omega
      · rw [decide_eq_false hshort]
        exact ih _ (by rw [← hn, length_drop]; omega) (by omega) rfl
    · refine iff_of_false (fun h => hmem h.1) fun hall => hmem ?_
      exact hall _ ( take_prefix _ left).isInfix htake

theorem advances_short (hpos : 0 < bufferSize) {left : Text} (hshort : left.length < bufferSize) :
    Advances bufferSize lineDelim (leftOf bufferSize left false)
      ↔ left = [] ∨ lineDelim ∈ left := by
  have htake : left.take bufferSize = left := take_of_length_le hshort.le
  have hend : (leftOf bufferSize left false).endPos lineDelim = findEnd lineDelim left := by
    show findEnd lineDelim (left.take bufferSize) = _
    rw [htake]
  have hbuffer : (leftOf bufferSize left false).buffer = left := htake
  rw [advances_iff, hend, findEnd_pos, next_leftOf hpos fun _ => hshort, hend, hbuffer]
  refine or_congr_right (and_iff_left ?_)
  have hdrop : (left.drop (findEnd lineDelim left)).length < bufferSize := by
    rw [length_drop]
    omega
  rw [decide_eq_true hdrop]
  exact advances_eof hdrop

/-- Bytes that are handed out are not read again, so there is a last
iteration. -/
theorem Advances.terminates {s : Reader} (h : Advances bufferSize lineDelim s) :
    ∃ n, ((next bufferSize lineDelim)^[n] s).buffer = [] := by
  induction hn : s.buffer.length + s.rest.length using Nat.strong_induction_on generalizing s with
  | h n ih =>
    rcases advances_iff.1 h with hempty | ⟨hpos, hnext⟩
    · exact ⟨0, hempty⟩
    have hle := s.endPos_le lineDelim
    have hless : (s.next bufferSize lineDelim).buffer.length
        + (s.next bufferSize lineDelim).rest.length < n := by
      simp only [next, length_append, length_drop, length_take]
      omega
    obtain ⟨k, hk⟩ := ih _ hless hnext rfl
    exact ⟨k + 1, hk⟩

end Reader

/-- The loop makes progress if every part of the file that fills the buffer,
and the file itself, has a line delimiter, and only then. -/
theorem importDelimited_progress_iff (hpos : 0 < bufferSize) (lineDelim : UInt8) (file : Text) :
    MakesProgress bufferSize lineDelim file
      ↔ file = [] ∨ lineDelim ∈ file ∧ EveryWindow bufferSize lineDelim file := by
  have hadvances : MakesProgress bufferSize lineDelim file
      ↔ Reader.Advances bufferSize lineDelim (.leftOf bufferSize file false) := by
    constructor
    · intro h n hn
      exact (h.consumes (fun _ => false) n ⟨fun _ _ => rfl, hn⟩).resolve_right
        Bool.false_ne_true
    · intro h
      refine ⟨fun halts n hn => .inl (h n hn.2), fun halts => ?_⟩
      obtain ⟨n, hn⟩ := h.terminates
      exact ⟨n, fun hall => hall.2 n le_rfl hn⟩
  rw [hadvances]
  by_cases hlong : bufferSize ≤ file.length
  · have hne : file ≠ [] := by
      rintro rfl
      rw [length_nil] at hlong
      omega
    rw [Reader.advances_iff_everyWindow hpos hlong, or_iff_right hne, iff_and_self]
    intro hall
    exact mem_of_mem_take (hall _ (List.take_prefix bufferSize file).isInfix
      (length_take_of_le hlong))
  · rw [Reader.advances_short hpos (by omega)]
    refine or_congr_right (iff_self_and.2 fun _ window hpart hlength => ?_)
    have hle := hpart.length_le
    omega

/-- Two lines in a buffer for both. -/
theorem importDelimited_progress_lines : MakesProgress 4 10 [97, 10, 98, 10] := by
  refine (importDelimited_progress_iff (by decide) 10 _).2 (.inr ⟨by decide, ?_⟩)
  intro window hpart hlength
  rw [hpart.eq_of_length hlength]
  decide

/-- A line that is longer than the buffer: the first iteration hands out
nothing, reads nothing and does not stop. -/
theorem importDelimited_stuck : ¬ MakesProgress 2 10 [97, 97, 97] := by
  intro h
  have hstuck := h.consumes (fun _ => false) 0 ⟨fun _ _ => rfl, fun i hi => by
    obtain rfl : i = 0 := by omega
    decide⟩
  revert hstuck
  decide

end Compass.Import
