/-
The insert-order fragmenter keeps its fragments consistent in every run
whose inserts do not meet left-over byte counters.

The number of rows that a round takes is the largest that fits the
fragment (`numRowsToInsert_spec`), if the counters are those of the
fragment. After such a round the fragment is `Closed` for the rows that are
left, so that the next round begins another one: a fragment is appended to
once in a call, and its shadow count is right. A run of rounds keeps
`Cursor.Sound`, and a call keeps `Sound`.
-/
import Compass.Fragmenter.InsertOrder
import Mathlib.Algebra.Order.Group.Nat

namespace Compass.Fragmenter

open List Int

variable {α : Type} {t : Table α}

-- ======== the rows of a round

/-- The longest prefix within the limit. -/
theorem getNumElems_spec (limit : ℕ) (lens : List ℕ) (d : ℕ) (hd : d ≤ limit) :
    getNumElemsForBytesInsertData limit lens d ≤ lens.length
      ∧ d + (lens.take (getNumElemsForBytesInsertData limit lens d)).sum ≤ limit
      ∧ (getNumElemsForBytesInsertData limit lens d < lens.length →
          limit < d + (lens.take (getNumElemsForBytesInsertData limit lens d + 1)).sum) := by
  induction lens generalizing d with
  | nil => exact ⟨Nat.le_refl _, by simpa [getNumElemsForBytesInsertData] using hd, nofun⟩
  | cons len lens ih =>
    rw [getNumElemsForBytesInsertData]
    by_cases hover : d + len > limit
    · rw [if_pos hover]
      refine ⟨Nat.zero_le _, by simpa using hd, fun _ => ?_⟩
      simpa using hover
    · rw [if_neg hover]
      obtain ⟨hle, hfit, hmore⟩ := ih (d + len) (by omega)
      rw [take_succ_cons, take_succ_cons, sum_cons, sum_cons, length_cons]
      refine ⟨by omega, by omega, fun hlt => ?_⟩
      omega

theorem bytes_append (xs ys : List α) (c : Fin t.columns) :
    bytes t (xs ++ ys) c = bytes t xs c + bytes t ys c := by
  unfold bytes
  rw [map_append, sum_append]

theorem bytes_take_mono (xs : List α) {m n : ℕ} (h : m ≤ n) (c : Fin t.columns) :
    bytes t (xs.take m) c ≤ bytes t (xs.take n) c := by
  obtain ⟨k, rfl⟩ := Nat.exists_eq_add_of_le h
  rw [take_add, bytes_append]
  exact Nat.le_add_right _ _

/-- The rows fit, after so many bytes of each column. -/
def Fits (t : Table α) (info : Fin t.columns → ℕ) (rows : List α) : Prop :=
  ∀ c, info c + bytes t rows c ≤ t.maxChunkSize

variable {info : Fin t.columns → ℕ} {rows left history : List α} {w : Cursor t} {s : State t}
variable {n : ℕ}

theorem Fits.mono {m : ℕ} (h : Fits t info (rows.take n)) (hmn : m ≤ n) :
    Fits t info (rows.take m) := by
  intro c
  have := bytes_take_mono rows hmn c
  have := h c
  omega

/-- Columns one after the other. -/
theorem limitRows_spec (hinfo : ∀ c, info c ≤ t.maxChunkSize) (left : List α)
    (cs : List (Fin t.columns)) (n : ℕ) (hn : n ≤ left.length) :
    ∃ r ≤ n, limitRows t info left cs n = some r
      ∧ (∀ c ∈ cs, info c + bytes t (left.take r) c ≤ t.maxChunkSize)
      ∧ (r < n → ∃ c ∈ cs, t.maxChunkSize < info c + bytes t (left.take (r + 1)) c) := by
  induction cs generalizing n with
  | nil => exact ⟨n, Nat.le_refl n, rfl, nofun, fun h => absurd h (Nat.lt_irrefl n)⟩
  | cons c cs ih =>
    have hc := hinfo c
    obtain ⟨hle, hfit, hmore⟩ := getNumElems_spec (t.maxChunkSize - info c)
      ((left.take n).map (t.size · c)) 0 (Nat.zero_le _)
    rw [limitRows, if_neg (Nat.not_lt.mpr hc)]
    dsimp only
    set k := getNumElemsForBytesInsertData (t.maxChunkSize - info c)
      ((left.take n).map (t.size · c)) 0
    have hlen : ((left.take n).map (t.size · c)).length = n := by
      rw [length_map, length_take]
      omega
    have htake : ∀ m ≤ n, (((left.take n).map (t.size · c)).take m).sum
        = bytes t (left.take m) c := by
      intro m hm
      unfold bytes
      rw [← map_take, take_take, Nat.min_eq_left hm]
    rw [hlen] at hle hmore
    rw [htake k hle] at hfit
    obtain ⟨r, hr, hrun, hall, hnext⟩ := ih k (by omega)
    refine ⟨r, by omega, by rw [Nat.min_eq_right hle]; exact hrun, ?_, ?_⟩
    · refine forall_mem_cons.mpr ⟨?_, hall⟩
      have := @bytes_take_mono α t left r k hr c
      omega
    · intro hlt
      by_cases hrk : r < k
      · obtain ⟨c', hc', hover⟩ := hnext hrk
        exact ⟨c', mem_cons_of_mem _ hc', hover⟩
      · have heq : r = k := by omega
        have hover := hmore (by omega)
        rw [htake (k + 1) (by omega)] at hover
        refine ⟨c, mem_cons_self, ?_⟩
        rw [heq]
        omega

/-- The largest number of rows that fit. -/
structure Largest (t : Table α) (info : Fin t.columns → ℕ) (left : List α) (room n : ℕ) :
    Prop where
  le : n ≤ min room left.length
  fits : Fits t info (left.take n)
  exceeds : n < min room left.length → ¬ Fits t info (left.take (n + 1))

theorem numRowsToInsert_spec (hinfo : ∀ c, info c ≤ t.maxChunkSize) (left : List α) (room : ℕ) :
    ∃ n, numRowsToInsert t info left room = some n ∧ Largest t info left room n := by
  obtain ⟨n, hle, hrun, hall, hnext⟩ := limitRows_spec hinfo left (finRange t.columns)
    (min room left.length) (Nat.min_le_right _ _)
  refine ⟨n, hrun, hle, fun c => hall c (mem_finRange c), ?_⟩
  intro hlt hfits
  obtain ⟨c, -, hover⟩ := hnext hlt
  have := hfits c
  omega

/-- A row fits an empty fragment. -/
theorem Largest.pos {room : ℕ} (h : Largest t (fun _ => 0) left room n) (hleft : left ≠ [])
    (hroom : 0 < room) (hsize : Insertable t left) : 0 < n := by
  by_contra h0
  have hn : n = 0 := by omega
  subst hn
  obtain ⟨r, rest, rfl⟩ := exists_cons_of_ne_nil hleft
  refine h.exceeds (by rw [length_cons]; omega) ?_
  intro c
  have := hsize r mem_cons_self c
  simpa [bytes] using this

/-- After the largest number of rows, no row fits. -/
theorem Largest.closed {room room' : ℕ} (h : Largest t info left room n) (hn : n < room)
    (hleft : left.drop n ≠ []) :
    numRowsToInsert t (fun c => info c + bytes t (left.take n) c) (left.drop n) room'
      = some 0 := by
  have hlt : n < left.length := by
    by_contra hge
    exact hleft (drop_eq_nil_of_le (Nat.not_lt.mp hge))
  obtain ⟨r, hrun, hr⟩ := numRowsToInsert_spec
    (fun c => h.fits c : ∀ c, info c + bytes t (left.take n) c ≤ t.maxChunkSize)
    (left.drop n) room'
  by_cases h0 : r = 0
  · rw [hrun, h0]
  · refine absurd ?_ (h.exceeds (by omega))
    intro c
    have hone := hr.fits.mono (by omega : 1 ≤ r) c
    rw [take_add, bytes_append]
    omega

-- ======== fragments

/-- The row ids of a fragment. -/
def rowIdsOf (t : Table α) (id : Int) (n : ℕ) : List Int :=
  if t.hasMaterializedRowId then
    (List.range n).map fun (i : ℕ) => (t.maxFragmentRows : Int) * id + i
  else []

/-- A fragment within its limits, with the shadow count of its rows. -/
structure Fragment.Sound (t : Table α) (f : Fragment α) : Prop where
  rows_le : f.rows.length ≤ t.maxFragmentRows
  bytes_le : ∀ c, bytes t f.rows c ≤ t.maxChunkSize
  shadow : f.shadowNumTuples = f.rows.length
  rowIds : f.rowIds = rowIdsOf t f.fragmentId f.rows.length

theorem newFragment_sound (id : Int) : (newFragment id : Fragment α).Sound t := by
  refine ⟨Nat.zero_le _, fun c => Nat.zero_le _, rfl, ?_⟩
  unfold rowIdsOf newFragment
  split <;> rfl

/-- More rows in the fragment of a cursor. -/
theorem append_sound (hf : w.current.Sound t)
    (hphysical : w.current.physicalNumTuples = w.current.rows.length)
    (hrows : w.current.rows.length + rows.length ≤ t.maxFragmentRows)
    (hfits : Fits t (bytes t w.current.rows) rows) : (w.append t rows).current.Sound t := by
  refine ⟨?_, ?_, ?_, ?_⟩
  · show (w.current.rows ++ rows).length ≤ _
    rwa [length_append]
  · intro c
    show bytes t (w.current.rows ++ rows) c ≤ _
    rw [bytes_append]
    exact hfits c
  · show w.current.physicalNumTuples + rows.length = (w.current.rows ++ rows).length
    rw [length_append, hphysical]
  · show (if t.hasMaterializedRowId then _ else w.current.rowIds)
      = rowIdsOf t w.current.fragmentId (w.current.rows ++ rows).length
    rw [hf.rowIds, hf.shadow, length_append]
    unfold rowIdsOf
    split
    · rw [range_add, map_append, map_map]
      refine congrArg _ (map_congr_left fun i _ => ?_)
      show _ = (t.maxFragmentRows : Int) * w.current.fragmentId
        + ((w.current.rows.length + i : ℕ) : Int)
      push_cast
      omega
    · rfl

variable {fs : List (Fragment α)}

/-- The row ids of fragments with different ids are different. -/
theorem rowIds_nodup (hsound : ∀ f ∈ fs, f.Sound t)
    (hids : (fs.map Fragment.fragmentId).Pairwise (· < ·)) :
    (fs.flatMap Fragment.rowIds).Nodup := by
  rw [nodup_flatMap]
  constructor
  · intro f hf
    rw [(hsound f hf).rowIds]
    unfold rowIdsOf
    split
    · refine nodup_range.map fun i j hij => ?_
      omega
    · exact nodup_nil
  · rw [pairwise_map] at hids
    refine hids.imp_of_mem ?_
    intro f g hf hg hlt x hx hx'
    rw [(hsound f hf).rowIds] at hx
    rw [(hsound g hg).rowIds] at hx'
    unfold rowIdsOf at hx hx'
    split at hx
    · next hmat =>
        rw [if_pos hmat] at hx'
        obtain ⟨i, hi, rfl⟩ := mem_map.mp hx
        obtain ⟨j, hj, heq⟩ := mem_map.mp hx'
        have hi' := mem_range.mp hi
        have hle := (hsound f hf).rows_le
        -- the ids of `f` end before those of `g` begin
        have hgap : (t.maxFragmentRows : Int) * (f.fragmentId + 1)
            ≤ (t.maxFragmentRows : Int) * g.fragmentId :=
          Int.mul_le_mul_of_nonneg_left (by omega) (Int.natCast_nonneg _)
        rw [Int.mul_add, Int.mul_one] at hgap
        omega
    · cases hx

-- ======== rounds

/-- The fragments of a cursor. -/
def Cursor.fragments (w : Cursor t) : List (Fragment α) :=
  w.before ++ [w.current]

/-- The cursor between two rounds. -/
structure Cursor.Sound (w : Cursor t) : Prop where
  sound : ∀ f ∈ w.fragments, f.Sound t
  ids : (w.fragments.map Fragment.fragmentId).Pairwise (· < ·)
  ids_le : ∀ f ∈ w.fragments, f.fragmentId ≤ w.maxFragmentId
  start_le : w.startFragment ≤ w.before.length
  published : ∀ f ∈ w.fragments.take w.startFragment, f.physicalNumTuples = f.rows.length

/-- The current fragment is not appended to again. -/
def Closed (w : Cursor t) (left : List α) : Prop :=
  left = [] ∨ w.pick t left = some 0

/-- What a cursor keeps of an earlier one. -/
structure Continues (w w' : Cursor t) : Prop where
  maxFragmentId : w.maxFragmentId ≤ w'.maxFragmentId
  fragments : ∀ f' ∈ w'.fragments, w.maxFragmentId < f'.fragmentId
    ∨ ∃ f ∈ w.fragments, f.fragmentId = f'.fragmentId ∧ f.rows <+: f'.rows

/-- Rows are appended to a fragment that has not been appended to. -/
theorem append_step (hw : w.Sound) (hphysical : w.current.physicalNumTuples = w.current.rows.length)
    (hn : Largest t (bytes t w.current.rows) left
      (t.maxFragmentRows - w.current.shadowNumTuples) n) :
    (w.append t (left.take n)).Sound ∧ Closed (w.append t (left.take n)) (left.drop n)
      ∧ (w.append t (left.take n)).fragments.flatMap Fragment.rows
        = w.fragments.flatMap Fragment.rows ++ left.take n
      ∧ Continues w (w.append t (left.take n)) := by
  have hcurrent : w.current ∈ w.fragments :=
    mem_append_right _ (mem_singleton.mpr rfl)
  have hf := hw.sound _ hcurrent
  have hle := hn.le
  have hlen : (left.take n).length = n := by
    rw [length_take]
    omega
  have hshadow := hf.shadow
  have hmax := hf.rows_le
  have hsound := append_sound hf hphysical (by rw [hlen]; omega) hn.fits
  have hids : (w.append t (left.take n)).fragments.map Fragment.fragmentId
      = w.fragments.map Fragment.fragmentId := by
    unfold Cursor.fragments
    rw [map_append, map_append]
    rfl
  refine ⟨⟨?_, ?_, ?_, hw.start_le, ?_⟩, ?_, ?_, ⟨le_refl _, ?_⟩⟩
  · intro f hin
    rcases mem_append.mp hin with hin | hin
    · exact hw.sound f (mem_append_left _ hin)
    · rw [mem_singleton.mp hin]
      exact hsound
  · rw [hids]
    exact hw.ids
  · intro f hin
    rcases mem_append.mp hin with hin | hin
    · exact hw.ids_le f (mem_append_left _ hin)
    · rw [mem_singleton.mp hin]
      exact hw.ids_le w.current hcurrent
  · have hpub := hw.published
    unfold Cursor.fragments at hpub
    rw [take_append_of_le_length hw.start_le] at hpub
    show ∀ f ∈ (w.before ++ [(w.append t (left.take n)).current]).take w.startFragment, _
    rw [take_append_of_le_length hw.start_le]
    exact hpub
  · by_cases hleft : left.drop n = []
    · exact Or.inl hleft
    · right
      unfold Cursor.pick
      dsimp only
      split
      · next hroom =>
          have hnew : t.maxFragmentRows - (w.append t (left.take n)).current.shadowNumTuples
              = t.maxFragmentRows - w.current.shadowNumTuples - n := by
            show t.maxFragmentRows - (w.current.physicalNumTuples + (left.take n).length) = _
            omega
          have hinfo : (w.append t (left.take n)).varLenColInfo
              = fun c => bytes t w.current.rows c + bytes t (left.take n) c := by
            funext c
            exact bytes_append _ _ c
          rw [hinfo]
          exact hn.closed (by omega) hleft
      · rfl
  · unfold Cursor.fragments
    rw [flatMap_append, flatMap_append, append_assoc]
    simp [Cursor.append]
  · intro f' hin
    rcases mem_append.mp hin with hin | hin
    · exact Or.inr ⟨f', mem_append_left _ hin, rfl, prefix_rfl⟩
    · rw [mem_singleton.mp hin]
      exact Or.inr ⟨w.current, hcurrent, rfl, prefix_append _ _⟩

/-- A new fragment. -/
theorem next_sound (hw : w.Sound) {m : ℕ} (hfirst : m = 0 → w.startFragment = w.before.length
      ∧ w.current.physicalNumTuples = w.current.rows.length) :
    (w.next t m).Sound ∧ Continues w (w.next t m)
      ∧ (w.next t m).fragments.flatMap Fragment.rows = w.fragments.flatMap Fragment.rows := by
  have hfragments : (w.next t m).fragments = w.fragments ++ [newFragment w.maxFragmentId] := rfl
  refine ⟨⟨?_, ?_, ?_, ?_, ?_⟩, ⟨?_, ?_⟩, ?_⟩
  · rw [hfragments]
    intro f hf
    rcases mem_append.mp hf with hf | hf
    · exact hw.sound f hf
    · rw [mem_singleton.mp hf]
      exact newFragment_sound w.maxFragmentId
  · rw [hfragments, map_append, pairwise_append]
    refine ⟨hw.ids, pairwise_singleton _ _, ?_⟩
    intro a ha b hb
    obtain ⟨f, hf, rfl⟩ := mem_map.mp ha
    have := hw.ids_le f hf
    have hb' : b = w.maxFragmentId + 1 := mem_singleton.mp hb
    omega
  · rw [hfragments]
    intro f hf
    show f.fragmentId ≤ w.maxFragmentId + 1
    rcases mem_append.mp hf with hf | hf
    · have := hw.ids_le f hf
      omega
    · rw [mem_singleton.mp hf]
      exact le_refl _
  · show (if m = 0 then w.startFragment + 1 else w.startFragment) ≤ w.fragments.length
    have hstart := hw.start_le
    have hlen : w.fragments.length = w.before.length + 1 := by
      unfold Cursor.fragments
      rw [length_append, length_singleton]
    split <;> omega
  · show ∀ f ∈ (w.fragments ++ [newFragment w.maxFragmentId]).take
      (if m = 0 then w.startFragment + 1 else w.startFragment), _
    have hlen : w.fragments.length = w.before.length + 1 := by
      unfold Cursor.fragments
      rw [length_append, length_singleton]
    have hstart := hw.start_le
    split
    · next hm =>
        -- nothing is inserted yet: the fragments are as they were
        obtain ⟨heq, hcurrent⟩ := hfirst hm
        rw [take_append_of_le_length (by omega), take_of_length_le (by omega)]
        have hpub := hw.published
        unfold Cursor.fragments at hpub ⊢
        rw [heq, take_left'] at hpub
        · intro f hf
          rcases mem_append.mp hf with hf | hf
          · exact hpub f hf
          · rw [mem_singleton.mp hf]
            exact hcurrent
        · rfl
    · rw [take_append_of_le_length (by omega)]
      exact hw.published
  · show w.maxFragmentId ≤ w.maxFragmentId + 1
    omega
  · rw [hfragments]
    intro f hf
    rcases mem_append.mp hf with hf | hf
    · exact Or.inr ⟨f, hf, rfl, prefix_rfl⟩
    · left
      rw [mem_singleton.mp hf]
      show w.maxFragmentId < w.maxFragmentId + 1
      omega
  · rw [hfragments, flatMap_append]
    simp [newFragment]

theorem newer_trans {m₁ m₂ : Int} {fs₁ fs₂ fs₃ : List (Fragment α)} (hle : m₁ ≤ m₂)
    (h : ∀ f' ∈ fs₂, m₁ < f'.fragmentId
      ∨ ∃ f ∈ fs₁, f.fragmentId = f'.fragmentId ∧ f.rows <+: f'.rows)
    (h' : ∀ f' ∈ fs₃, m₂ < f'.fragmentId
      ∨ ∃ f ∈ fs₂, f.fragmentId = f'.fragmentId ∧ f.rows <+: f'.rows) :
    ∀ f' ∈ fs₃, m₁ < f'.fragmentId
      ∨ ∃ f ∈ fs₁, f.fragmentId = f'.fragmentId ∧ f.rows <+: f'.rows := by
  intro f₃ hf₃
  rcases h' f₃ hf₃ with hnew | ⟨f₂, hf₂, hid, hrows⟩
  · exact Or.inl (lt_of_le_of_lt hle hnew)
  · rcases h f₂ hf₂ with hnew | ⟨f₁, hf₁, hid', hrows'⟩
    · exact Or.inl (hid ▸ hnew)
    · exact Or.inr ⟨f₁, hf₁, hid'.trans hid, hrows'.trans hrows⟩

theorem Continues.trans {w₁ w₂ w₃ : Cursor t} (h : Continues w₁ w₂) (h' : Continues w₂ w₃) :
    Continues w₁ w₃ :=
  ⟨le_trans h.maxFragmentId h'.maxFragmentId, newer_trans h.maxFragmentId h.fragments h'.fragments⟩

/-- What a round does with a cursor. -/
structure Round (w : Cursor t) (left : List α) (w' : Cursor t) (n : ℕ) : Prop where
  pos : 0 < n
  le : n ≤ left.length
  sound : w'.Sound
  closed : Closed w' (left.drop n)
  rows : w'.fragments.flatMap Fragment.rows
    = w.fragments.flatMap Fragment.rows ++ left.take n
  continues : Continues w w'
  counters : w'.varLenColInfo = bytes t w'.current.rows

/-- A round takes rows, if it takes none for the current fragment or as
many as fit it. -/
theorem exists_round (hw : w.Sound) (hpos : 0 < t.maxFragmentRows) (hleft : left ≠ [])
    (hsize : Insertable t left) {m : ℕ} (hpick : w.pick t left = some n)
    (hn : n = 0 ∨ w.current.physicalNumTuples = w.current.rows.length
      ∧ Largest t (bytes t w.current.rows) left
        (t.maxFragmentRows - w.current.shadowNumTuples) n)
    (hfirst : m = 0 → w.startFragment = w.before.length
      ∧ w.current.physicalNumTuples = w.current.rows.length) :
    ∃ w' n', w.step t m left = some (w', n') ∧ Round w left w' n' := by
  have hcurrent := hw.sound w.current (mem_append_right _ (mem_singleton.mpr rfl))
  have hshadow := hcurrent.shadow
  have hmax := hcurrent.rows_le
  unfold Cursor.step
  rw [if_neg (by omega), hpick]
  cases n with
  | zero =>
    obtain ⟨hnext, hcont, hrows⟩ := next_sound hw hfirst
    obtain ⟨n', hrun, hlargest⟩ := numRowsToInsert_spec
      (fun _ => Nat.zero_le _ : ∀ c, (w.next t m).varLenColInfo c ≤ t.maxChunkSize) left
      t.maxFragmentRows
    have hpos' := hlargest.pos hleft hpos hsize
    obtain ⟨k, rfl⟩ := Nat.exists_eq_succ_of_ne_zero (Nat.pos_iff_ne_zero.mp hpos')
    obtain ⟨hsound, hclosed, hrows', hcont'⟩ := append_step hnext rfl hlargest
    have hzero : (w.next t m).varLenColInfo = fun _ => 0 := rfl
    dsimp only
    rw [hzero, hrun]
    refine ⟨_, _, rfl, hpos', ?_, hsound, hclosed, ?_, hcont.trans hcont', rfl⟩
    · have := hlargest.le
      omega
    · rw [hrows', hrows]
  | succ k =>
    obtain ⟨hphysical, hlargest⟩ := hn.resolve_left (Nat.succ_ne_zero k)
    obtain ⟨hsound, hclosed, hrows, hcont⟩ := append_step hw hphysical hlargest
    refine ⟨_, _, rfl, Nat.succ_pos k, ?_, hsound, hclosed, hrows, hcont, rfl⟩
    have := hlargest.le
    omega

/-- The rounds after the first. -/
theorem loop_sound (hpos : 0 < t.maxFragmentRows) (rounds : ℕ) (hw : w.Sound) {m : ℕ} (hm : m ≠ 0)
    (hlen : left.length ≤ rounds) (hsize : Insertable t left) (hclosed : Closed w left)
    (hcounters : w.varLenColInfo = bytes t w.current.rows) :
    ∃ w', w.loop t rounds m left = some w' ∧ w'.Sound ∧ Continues w w'
      ∧ w'.fragments.flatMap Fragment.rows = w.fragments.flatMap Fragment.rows ++ left
      ∧ w'.varLenColInfo = bytes t w'.current.rows := by
  induction rounds generalizing w m left with
  | zero =>
    have hnil : left = [] := length_eq_zero_iff.mp (Nat.le_zero.mp hlen)
    subst hnil
    refine ⟨w, rfl, hw, ⟨le_refl _, fun f hf => Or.inr ⟨f, hf, rfl, prefix_rfl⟩⟩,
      (append_nil _).symm, hcounters⟩
  | succ rounds ih =>
    by_cases hleft : left = []
    · subst hleft
      refine ⟨w, rfl, hw, ⟨le_refl _, fun f hf => Or.inr ⟨f, hf, rfl, prefix_rfl⟩⟩,
        (append_nil _).symm, hcounters⟩
    · obtain ⟨w₁, n, hstep, hround⟩ := exists_round hw hpos hleft hsize
        (hclosed.resolve_left hleft) (Or.inl rfl) (fun h => absurd h hm)
      have hn := hround.pos
      obtain ⟨w', hloop, hsound, hcont, hrows, hcounters'⟩ := ih hround.sound
        (by omega : m + n ≠ 0) (by rw [length_drop]; omega)
        (fun r hr => hsize r (mem_of_mem_drop hr)) hround.closed hround.counters
      refine ⟨w', ?_, hsound, hround.continues.trans hcont, ?_, hcounters'⟩
      · obtain ⟨r, rest, rfl⟩ := exists_cons_of_ne_nil hleft
        rw [Cursor.loop, hstep]
        exact hloop
      · rw [hrows, hround.rows, append_assoc, take_append_drop]

-- ======== calls

/-- The state between two calls. -/
structure State.Sound (history : List α) (s : State t) : Prop where
  survivors : s.fragments.flatMap Fragment.rows <:+ history
  sound : ∀ f ∈ s.fragments, f.Sound t
  published : ∀ f ∈ s.fragments, f.physicalNumTuples = f.rows.length
  ids : (s.fragments.map Fragment.fragmentId).Pairwise (· < ·)
  ids_le : ∀ f ∈ s.fragments, f.fragmentId ≤ s.maxFragmentId
  numTuples : s.numTuples = (s.fragments.map Fragment.physicalNumTuples).sum
  counters : ∀ f, s.fragments.getLast? = some f → s.varLenColInfo = bytes t f.rows

theorem State.Sound.consistent (h : s.Sound history) :
    Consistent t history s where
  survivors := h.survivors
  published := h.published
  rows_le := fun f hf => (h.sound f hf).rows_le
  bytes_le := fun f hf => (h.sound f hf).bytes_le
  ids := h.ids
  ids_le := h.ids_le
  numTuples := h.numTuples
  rowIds := rowIds_nodup h.sound h.ids
  rowIds_length := by
    intro hmat f hf
    rw [(h.sound f hf).rowIds]
    unfold rowIdsOf
    rw [if_pos hmat, length_map, length_range]

theorem Extends.refl (s : State t) : Extends t s s :=
  ⟨le_refl _, fun f hf => Or.inr ⟨f, hf, rfl, prefix_rfl⟩⟩

/-- Without its oldest fragments. -/
theorem State.Sound.drop (h : s.Sound history) (hfs : fs <:+ s.fragments) : State.Sound history
      { s with fragments := fs, numTuples := (fs.map Fragment.physicalNumTuples).sum } := by
  obtain ⟨pre, hpre⟩ := hfs
  have hmem : ∀ f ∈ fs, f ∈ s.fragments := by
    intro f hf
    rw [← hpre]
    exact mem_append_right _ hf
  refine ⟨?_, fun f hf => h.sound f (hmem f hf), fun f hf => h.published f (hmem f hf), ?_,
    fun f hf => h.ids_le f (hmem f hf), rfl, ?_⟩
  · refine IsSuffix.trans ?_ h.survivors
    rw [← hpre, flatMap_append]
    exact suffix_append _ _
  · have hids := h.ids
    rw [← hpre, map_append, pairwise_append] at hids
    exact hids.2.1
  · intro f hf
    refine h.counters f ?_
    rw [← hpre, getLast?_append, hf]
    rfl

/-- Dropping ends, with the counts of the fragments that are left. -/
theorem dropLoop_spec (target : ℕ) (fs : List (Fragment α)) :
    ∃ fs', dropLoop target fs (fs.map Fragment.physicalNumTuples).sum
        = some (fs', (fs'.map Fragment.physicalNumTuples).sum) ∧ fs' <:+ fs := by
  induction fs with
  | nil => exact ⟨[], by simp [dropLoop], suffix_rfl⟩
  | cons f fs ih =>
    rw [dropLoop]
    split
    · rw [map_cons, sum_cons, if_neg (by omega), Nat.add_sub_cancel_left]
      obtain ⟨fs', hrun, hsuffix⟩ := ih
      exact ⟨fs', hrun, hsuffix.trans (suffix_cons f fs)⟩
    · exact ⟨f :: fs, rfl, suffix_rfl⟩

theorem dropFragmentsToSize_spec (h : s.Sound history) (maxRows : ℕ) :
    ∃ s', s.dropFragmentsToSize t maxRows = some s' ∧ s'.fragments <:+ s.fragments
      ∧ s'.Sound history ∧ Extends t s s' := by
  unfold State.dropFragmentsToSize
  split
  · obtain ⟨fs, hrun, hsuffix⟩ := dropLoop_spec (t.targetRows maxRows) s.fragments
    rw [h.numTuples, hrun]
    refine ⟨_, rfl, hsuffix, h.drop hsuffix, le_refl _, ?_⟩
    intro f hf
    exact Or.inr ⟨f, hsuffix.subset hf, rfl, prefix_rfl⟩
  · exact ⟨s, rfl, suffix_rfl, h, Extends.refl s⟩

/-- The fragments of a cursor, after the physical counts are set. -/
theorem mem_publish {f : Fragment α} (h : f ∈ w.publish t) :
    (f ∈ w.fragments.take w.startFragment) ∨ ∃ g ∈ w.fragments, f = g.publish := by
  rcases mem_append.mp h with h | h
  · exact Or.inl h
  · obtain ⟨g, hg, rfl⟩ := mem_map.mp h
    exact Or.inr ⟨g, mem_of_mem_drop hg, rfl⟩

/-- Setting the counts changes nothing else. -/
theorem map_publish {β : Type} (g : Fragment α → β) (hg : ∀ f, g f.publish = g f)
    (w : Cursor t) : (w.publish t).map g = w.fragments.map g := by
  have hcomp : g ∘ Fragment.publish = g := funext hg
  unfold Cursor.publish
  rw [map_append, map_map, hcomp, ← map_append, take_append_drop]
  rfl

theorem sum_physical (h : ∀ f ∈ fs, f.physicalNumTuples = f.rows.length) :
    (fs.map Fragment.physicalNumTuples).sum = (fs.flatMap Fragment.rows).length := by
  rw [length_flatMap]
  exact congrArg sum (map_congr_left h)

/-- The cursor that a call begins with. -/
theorem cursor_spec (h : s.Sound history) :
    (s.cursor t).Sound ∧ (s.cursor t).startFragment = (s.cursor t).before.length
      ∧ (s.cursor t).current.physicalNumTuples = (s.cursor t).current.rows.length
      ∧ (s.cursor t).fragments.flatMap Fragment.rows = s.fragments.flatMap Fragment.rows
      ∧ s.maxFragmentId ≤ (s.cursor t).maxFragmentId
      ∧ ∀ f ∈ (s.cursor t).fragments, f ∈ s.fragments ∨ s.maxFragmentId < f.fragmentId := by
  unfold State.cursor
  cases hlast : s.fragments.getLast? with
  | none =>
    have hnil : s.fragments = [] := getLast?_eq_none_iff.mp hlast
    refine ⟨⟨?_, pairwise_singleton _ _, ?_, Nat.le_refl _, nofun⟩, rfl, rfl, ?_, ?_, ?_⟩
    · intro f hf
      rw [mem_singleton.mp hf]
      exact newFragment_sound s.maxFragmentId
    · intro f hf
      rw [mem_singleton.mp hf]
      exact le_refl _
    · rw [hnil]
      rfl
    · show s.maxFragmentId ≤ s.maxFragmentId + 1
      omega
    · intro f hf
      right
      rw [mem_singleton.mp hf]
      show s.maxFragmentId < s.maxFragmentId + 1
      omega
  | some f =>
    have hsplit : s.fragments.dropLast ++ [f] = s.fragments :=
      dropLast_append_getLast? f hlast
    have hfragments : Cursor.fragments (t := t) ⟨s.fragments.dropLast, f, s.varLenColInfo,
        s.maxFragmentId, s.fragments.length - 1⟩ = s.fragments := hsplit
    have hf : f ∈ s.fragments := mem_of_getLast? hlast
    refine ⟨⟨?_, ?_, ?_, ?_, ?_⟩, ?_, h.published f hf, ?_, le_refl _, ?_⟩
    · rw [hfragments]
      exact h.sound
    · rw [hfragments]
      exact h.ids
    · rw [hfragments]
      exact h.ids_le
    · exact Nat.le_of_eq length_dropLast.symm
    · rw [hfragments]
      exact fun g hg => h.published g (mem_of_mem_take hg)
    · exact length_dropLast.symm
    · rw [hfragments]
    · rw [hfragments]
      exact fun g hg => Or.inl hg

/-- The first round of a call. -/
theorem pick_spec (h : s.Sound history) (hrows : Harmless t s rows) :
    ∃ n, (s.cursor t).pick t rows = some n
      ∧ (n = 0 ∨ Largest t (bytes t (s.cursor t).current.rows) rows
          (t.maxFragmentRows - (s.cursor t).current.shadowNumTuples) n) := by
  unfold State.cursor Cursor.pick
  cases hlast : s.fragments.getLast? with
  | none =>
    have hnil : s.fragments = [] := getLast?_eq_none_iff.mp hlast
    have hroom : t.maxFragmentRows - 0 ≠ 0 := by
      have := hrows.1
      omega
    dsimp only [newFragment]
    rw [if_pos hroom]
    rcases hrows.2 hnil with hzero | hsame
    · exact ⟨0, hzero, Or.inl rfl⟩
    · obtain ⟨n, hrun, hlargest⟩ := numRowsToInsert_spec
        (fun _ => Nat.zero_le _ : ∀ _ : Fin t.columns, 0 ≤ t.maxChunkSize) rows
        t.maxFragmentRows
      exact ⟨n, hsame.trans hrun, Or.inr hlargest⟩
  | some f =>
    dsimp only
    split
    · rw [h.counters f hlast]
      obtain ⟨n, hrun, hlargest⟩ := numRowsToInsert_spec
        (h.sound f (mem_of_getLast? hlast)).bytes_le rows
        (t.maxFragmentRows - f.shadowNumTuples)
      exact ⟨n, hrun, Or.inr hlargest⟩
    · exact ⟨0, rfl, Or.inl rfl⟩

/-- The loop of a call. -/
theorem insert_loop (h : s.Sound history) (hne : rows ≠ []) (hsize : Insertable t rows)
    (hrows : Harmless t s rows) :
    ∃ w, (s.cursor t).loop t rows.length 0 rows = some w ∧ w.Sound
      ∧ Continues (s.cursor t) w
      ∧ w.fragments.flatMap Fragment.rows = s.fragments.flatMap Fragment.rows ++ rows
      ∧ w.varLenColInfo = bytes t w.current.rows := by
  obtain ⟨hcursor, hstart, hphysical, hsame, -, -⟩ := cursor_spec h
  obtain ⟨n, hpick, hn⟩ := pick_spec h hrows
  obtain ⟨w₁, k, hstep, hround⟩ := exists_round hcursor hrows.1 hne hsize hpick
    (hn.imp id fun hl => ⟨hphysical, hl⟩) (fun (_ : 0 = 0) => ⟨hstart, hphysical⟩)
  have hk := hround.pos
  obtain ⟨r, rest, rfl⟩ := exists_cons_of_ne_nil hne
  obtain ⟨w, hloop, hsound, hcont, hall, hcounters⟩ := loop_sound hrows.1 rest.length
    hround.sound (by omega : 0 + k ≠ 0)
    (by rw [length_drop, length_cons]; omega)
    (fun x hx => hsize x (mem_of_mem_drop hx)) hround.closed hround.counters
  refine ⟨w, ?_, hsound, hround.continues.trans hcont, ?_, hcounters⟩
  · rw [length_cons, Cursor.loop, hstep]
    exact hloop
  · rw [hall, hround.rows, hsame, append_assoc, take_append_drop]

/-- The state of a cursor whose counts are set. -/
theorem publish_sound (hw : w.Sound) (hrows : w.fragments.flatMap Fragment.rows <:+ history)
    (hcounters : w.varLenColInfo = bytes t w.current.rows) :
    State.Sound history (⟨w.publish t, w.varLenColInfo,
      (w.fragments.flatMap Fragment.rows).length, w.maxFragmentId⟩ : State t) := by
  have hflat : (w.publish t).flatMap Fragment.rows = w.fragments.flatMap Fragment.rows := by
    rw [flatMap_def, flatMap_def, map_publish Fragment.rows fun _ => rfl]
  have hpub : ∀ f ∈ w.publish t, f.physicalNumTuples = f.rows.length := by
    intro f hf
    rcases mem_publish hf with hf | ⟨g, hg, rfl⟩
    · exact hw.published f hf
    · exact (hw.sound g hg).shadow
  refine ⟨by rw [hflat]; exact hrows, ?_, hpub, ?_, ?_, ?_, ?_⟩
  · intro f hf
    rcases mem_publish hf with hf | ⟨g, hg, rfl⟩
    · exact hw.sound f (mem_of_mem_take hf)
    · have hsound := hw.sound g hg
      exact ⟨hsound.rows_le, hsound.bytes_le, hsound.shadow, hsound.rowIds⟩
  · rw [map_publish Fragment.fragmentId fun _ => rfl]
    exact hw.ids
  · intro f hf
    rcases mem_publish hf with hf | ⟨g, hg, rfl⟩
    · exact hw.ids_le f (mem_of_mem_take hf)
    · exact hw.ids_le g hg
  · rw [sum_physical hpub, hflat]
  · intro f hf
    have hlast : f.rows = w.current.rows := by
      have hmap := congrArg (Option.map Fragment.rows) hf
      rw [← getLast?_map, map_publish Fragment.rows fun _ => rfl] at hmap
      unfold Cursor.fragments at hmap
      rw [map_append, map_singleton, getLast?_concat] at hmap
      exact (Option.some.inj hmap).symm
    rw [hlast]
    exact hcounters

theorem Extends.trans {s₁ s₂ s₃ : State t} (h : Extends t s₁ s₂) (h' : Extends t s₂ s₃) :
    Extends t s₁ s₃ :=
  ⟨le_trans h.maxFragmentId h'.maxFragmentId, newer_trans h.maxFragmentId h.fragments h'.fragments⟩

/-- What the cursor of a call leaves of the fragments before it. -/
theorem extends_of_continues (h : s.Sound history) (hcont : Continues (s.cursor t) w) (n : ℕ) :
    Extends t s ⟨w.publish t, w.varLenColInfo, n, w.maxFragmentId⟩ := by
  obtain ⟨-, -, -, -, hmax, hold⟩ := cursor_spec h
  have hfragments := newer_trans hmax (fun f hf => (hold f hf).symm.imp_right
    fun hin => ⟨f, hin, rfl, prefix_rfl⟩) hcont.fragments
  refine ⟨le_trans hmax hcont.maxFragmentId, ?_⟩
  intro f' hf'
  rcases mem_publish hf' with hf' | ⟨g, hg, rfl⟩
  · exact hfragments f' (mem_of_mem_take hf')
  · exact hfragments g hg

theorem insertData_spec (h : s.Sound history) (hsize : Insertable t rows)
    (hrows : Harmless t s rows) :
    ∃ s', s.insertData t rows = some s' ∧ s'.Sound (history ++ rows) ∧ Extends t s s' := by
  unfold State.insertData
  split
  · next hnil =>
      subst hnil
      exact ⟨s, rfl, by rwa [append_nil], Extends.refl s⟩
  · next hne =>
      obtain ⟨w, hloop, hsound, hcont, hall, hcounters⟩ := insert_loop h hne hsize hrows
      have hsuffix : w.fragments.flatMap Fragment.rows <:+ history ++ rows := by
        rw [hall]
        obtain ⟨pre, hpre⟩ := h.survivors
        exact ⟨pre, by rw [← append_assoc, hpre]⟩
      have hcount : s.numTuples + rows.length = (w.fragments.flatMap Fragment.rows).length := by
        rw [h.numTuples, sum_physical h.published, hall, length_append]
      obtain ⟨s', hdrop, -, hs', hext⟩ := dropFragmentsToSize_spec
        (publish_sound hsound hsuffix hcounters) t.maxRows
      refine ⟨s', ?_, hs', (extends_of_continues h hcont _).trans hext⟩
      rw [hloop, hcount]
      exact hdrop

-- ======== runs

theorem Step.sound {a b : State t × List α} (hstep : Step t a b) (h : a.1.Sound a.2) :
    b.1.Sound b.2 ∧ Extends t a.1 b.1 := by
  cases hstep with
  | insertData hsize hcounters hrun =>
    obtain ⟨s', hrun', hs', hext⟩ := insertData_spec h hsize hcounters
    rw [hrun] at hrun'
    obtain rfl := Option.some.inj hrun'
    exact ⟨hs', hext⟩
  | dropFragmentsToSize hrun =>
    obtain ⟨s', hrun', -, hs', hext⟩ := dropFragmentsToSize_spec h _
    rw [hrun] at hrun'
    obtain rfl := Option.some.inj hrun'
    exact ⟨hs', hext⟩

/-- Strings of up to ten bytes, ten rows and ten bytes a fragment. -/
def strings : Table String where
  maxFragmentRows := 10
  maxChunkSize := 10
  maxRows := 100
  columns := 1
  size s _ := s.length
  hasMaterializedRowId := true
  targetRows n := n * 97 / 100

end Compass.Fragmenter
