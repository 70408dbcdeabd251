/-
Speculative top n is exact or fails when it is `Sound`, and how many
devices and rows make it so.

`answers` is what has to be known of the reduced map: groups without a
mark are exact, no group is better than what is seen of it, and no group
that is missing is better than one that is there. The three ways to be
sound give this in turn. When a query has too many devices or asks for too
many rows, there are counts for which it returns a wrong answer.
-/
import Compass.TopN.Proofs.Speculative
import Mathlib.Algebra.Order.BigOperators.Group.List
import Mathlib.Algebra.Order.Group.Nat

namespace Compass.TopN

open List Int

variable {countFirst desc : Bool} {t n : ℕ} {devices : List Device}

variable {key : Int} {m : TopNMap} {sort : StdSort (Int × Val) (Sorted desc)}

-- ======== the answers

theorem mem_groups :
    key ∈ groups devices ↔ ∃ d ∈ devices, key ∈ d.map Prod.fst := by
  unfold groups
  rw [mem_toFinset, mem_flatMap]

theorem mem_groups_top :
    key ∈ groups (devices.map (·.top t)) ↔ Listed t devices key := by
  rw [mem_groups]
  unfold Listed Device.kept
  simp only [mem_map, exists_exists_and_eq_and]

theorem listed_reverse : Listed t devices.reverse key ↔ Listed t devices key := by
  unfold Listed
  simp only [mem_reverse]

theorem groups_of_listed (h : Listed t devices key) : key ∈ groups devices := by
  obtain ⟨d, hd, hkey⟩ := h
  exact mem_groups.mpr ⟨d, hd, kept_subset hkey⟩

theorem Merged.length_map (h : Merged t devices.reverse m) :
    m.map.length = (groups (devices.map (·.top t))).card := by
  have hset : groups (devices.map (·.top t)) = (m.map.map Prod.fst).toFinset := by
    ext key
    rw [mem_groups_top, mem_toFinset, h.keys, listed_reverse]
  rw [hset, toFinset_card_of_nodup h.nodup, List.length_map]

theorem sum_reverse_seen (key : Int) :
    (devices.reverse.map (·.seen t key)).sum = (devices.map (·.seen t key)).sum := by
  rw [map_reverse, sum_reverse]

section

variable (hm : Merged t devices.reverse m)
include hm

/-- The answers from a map. -/
theorem answers (sort : StdSort (Int × Val) (Sorted desc))
    (hexact : ∀ kv ∈ m.map, kv.2.unknown = false → kv.2.val = total devices kv.1)
    (hkept : ∀ kv ∈ m.map, NotBetter desc (total devices kv.1) kv.2.val)
    (hother : ∀ key ∈ groups devices, ¬ Listed t devices key → ∀ kv ∈ m.map,
      NotBetter desc (total devices key) kv.2.val)
    (henough : n ≤ (groups (devices.map (·.top t))).card
      ∨ groups (devices.map (·.top t)) = groups devices) :
    m.asRows countFirst n desc sort = .error .speculativeTopNFailed
      ∨ ∃ out, m.asRows countFirst n desc sort = .ok out
        ∧ Answers countFirst n desc devices out := by
  have hperm := sort.perm m.map
  have hmem : ∀ kv ∈ (sort.run m.map).take (min n (sort.run m.map).length), kv ∈ m.map :=
    fun kv hkv => hperm.mem_iff.mp (mem_of_mem_take hkv)
  unfold TopNMap.asRows
  by_cases hany : ((sort.run m.map).take (min n (sort.run m.map).length)).any (·.2.unknown)
      = true
  · rw [if_pos hany]
    exact Or.inl rfl
  · rw [if_neg hany]
    refine Or.inr ⟨_, rfl, ?_⟩
    have hclean : ∀ kv ∈ (sort.run m.map).take (min n (sort.run m.map).length),
        kv.2.unknown = false := by
      rw [any_eq_true] at hany
      intro kv hkv
      exact Bool.eq_false_iff.mpr fun htrue => hany ⟨kv, hkv, htrue⟩
    have hcols : ((sort.run m.map).take (min n (sort.run m.map).length)).map
          ((Row.key countFirst) ∘ fun kv => Row.ofGroup countFirst kv.1 kv.2.val)
        = ((sort.run m.map).take (min n (sort.run m.map).length)).map Prod.fst :=
      map_congr_left fun kv _ => key_ofGroup countFirst kv.1 kv.2.val
    refine ⟨?_, ?_, ?_, ?_⟩
    · rw [length_map, length_take, hperm.length_eq, hm.length_map]
      have hsub : groups (devices.map (·.top t)) ⊆ groups devices := fun key hkey =>
        groups_of_listed (mem_groups_top.mp hkey)
      have hle := Finset.card_le_card hsub
      rcases henough with hn | hall
      · omega
      · rw [hall]
        omega
    · rw [map_map, hcols]
      exact ((hperm.map Prod.fst).nodup_iff.mpr hm.nodup).sublist
        ((take_sublist _ _).map Prod.fst)
    · intro row hrow
      obtain ⟨kv, hkv, rfl⟩ := mem_map.mp hrow
      rw [key_ofGroup, hexact kv (hmem kv hkv) (hclean kv hkv)]
      have hl := (hm.keys kv.1).mp (mem_map_of_mem (hmem kv hkv))
      exact ⟨groups_of_listed (listed_reverse.mp hl), rfl⟩
    · intro key hkey hnot row hrow
      obtain ⟨kv, hkv, rfl⟩ := mem_map.mp hrow
      rw [map_map, hcols] at hnot
      rw [val_ofGroup]
      by_cases hl : Listed t devices key
      · -- the group is in the map, behind those that are returned
        obtain ⟨kv', hkv', rfl⟩ := mem_map.mp ((hm.keys key).mpr (listed_reverse.mpr hl))
        refine (hkept kv' hkv').trans ?_
        have hsplit := take_append_drop (min n (sort.run m.map).length) (sort.run m.map)
        have hback : kv' ∈ (sort.run m.map).drop (min n (sort.run m.map).length) := by
          have hin := hperm.mem_iff.mpr hkv'
          rw [← hsplit, mem_append] at hin
          exact hin.resolve_left fun h => hnot (mem_map_of_mem h)
        have hpair := sort.sorted m.map
        rw [← hsplit, pairwise_append] at hpair
        exact hpair.2.2 kv hkv kv' hback
      · exact hother key hkey hl kv (hmem kv hkv)

-- ======== sound

/-- A group without a mark is exact, if a device that has a bound of 0
and does not keep the group does not have it. -/
theorem val_of_not_mark (hclear : ∀ key, ¬ Cleared t devices key)
    (hzero : ∀ d ∈ devices, ∀ key, key ∉ d.kept t → d.bound t = 0 → d.count key = 0) :
    ∀ kv ∈ m.map, kv.2.unknown = false → kv.2.val = total devices kv.1 := by
  intro kv hkv hmark
  rw [hm.entry kv hkv] at hmark ⊢
  have hl := (hm.keys kv.1).mp (mem_map_of_mem hkv)
  have hbound := bound_of_not_mark hmark (by rw [reverse_reverse]; exact hclear kv.1) hl
  dsimp only
  rw [sum_reverse_seen]
  congr 1
  refine map_congr_left ?_
  intro d hd
  unfold Device.seen
  split
  · rfl
  · next hnot =>
      have h0 := hbound d (mem_reverse.mpr hd) hnot
      rw [h0, hzero d hd kv.1 hnot h0]

theorem val_of_not_cut (hcut : ∀ d ∈ devices, d.length ≤ t) :
    ∀ kv ∈ m.map, kv.2.val = total devices kv.1 := by
  intro kv hkv
  rw [hm.entry kv hkv]
  dsimp only
  rw [sum_reverse_seen]
  congr 1
  exact map_congr_left fun d hd => seen_of_not_cut (hcut d hd)

omit hm in
theorem listed_of_not_cut (hcut : ∀ d ∈ devices, d.length ≤ t) (hkey : key ∈ groups devices) :
    Listed t devices key := by
  obtain ⟨d, hd, hin⟩ := mem_groups.mp hkey
  refine ⟨d, hd, ?_⟩
  by_contra hnot
  have := cut_of_not_kept hin hnot
  have := hcut d hd
  omega

/-- In descending order. -/
theorem exactOrFails_desc (hvalid : ∀ d ∈ devices, d.Valid true)
    (hclear : ∀ key, ¬ Cleared t devices key) (sort : StdSort (Int × Val) (Sorted true))
    (henough : n ≤ (groups (devices.map (·.top t))).card
      ∨ groups (devices.map (·.top t)) = groups devices) :
    m.asRows countFirst n true sort = .error .speculativeTopNFailed
      ∨ ∃ out, m.asRows countFirst n true sort = .ok out
        ∧ Answers countFirst n true devices out := by
  have hval : ∀ kv ∈ m.map, kv.2.val = (devices.map (·.seen t kv.1)).sum := by
    intro kv hkv
    rw [hm.entry kv hkv]
    exact sum_reverse_seen kv.1
  refine answers hm sort (val_of_not_mark hm hclear ?_) ?_ ?_ henough
  · intro d hd key hnot h0
    have hle := @count_le_seen t d key (hvalid d hd)
    unfold Device.seen at hle
    rw [if_neg hnot, h0] at hle
    omega
  · intro kv hkv
    rw [hval kv hkv]
    exact sum_le_sum fun d hd => count_le_seen (hvalid d hd)
  · intro key _ hl kv hkv
    rw [hval kv hkv]
    have hseen : total devices key ≤ (devices.map (·.seen t key)).sum :=
      sum_le_sum fun d hd => count_le_seen (hvalid d hd)
    rw [sum_seen_of_not_listed hl] at hseen
    exact Nat.le_trans hseen
      (sum_le_sum fun d hd => bound_le_seen (hvalid d hd))

/-- When devices have no more rows than are kept. -/
theorem exactOrFails_not_cut (hcut : ∀ d ∈ devices, d.length ≤ t)
    (sort : StdSort (Int × Val) (Sorted desc)) :
    m.asRows countFirst n desc sort = .error .speculativeTopNFailed
      ∨ ∃ out, m.asRows countFirst n desc sort = .ok out
        ∧ Answers countFirst n desc devices out := by
  have hval := val_of_not_cut hm hcut
  refine answers hm sort (fun kv hkv _ => hval kv hkv) ?_ ?_ (Or.inr ?_)
  · intro kv hkv
    rw [hval kv hkv]
    exact NotBetter.refl desc _
  · intro key hkey hl
    exact absurd (listed_of_not_cut hcut hkey) hl
  · ext key
    rw [mem_groups_top]
    exact ⟨groups_of_listed, listed_of_not_cut hcut⟩

end

theorem exactOrFails_one {d : Device} (hm : Merged t [d].reverse m) (hvalid : d.Valid desc)
    (sort : StdSort (Int × Val) (Sorted desc))
    (henough : n ≤ (groups ([d].map (·.top t))).card ∨ groups ([d].map (·.top t)) = groups [d]) :
    m.asRows countFirst n desc sort = .error .speculativeTopNFailed
      ∨ ∃ out, m.asRows countFirst n desc sort = .ok out
        ∧ Answers countFirst n desc [d] out := by
  have hkept : ∀ kv ∈ m.map, kv.1 ∈ d.kept t := by
    intro kv hkv
    obtain ⟨e, he, hin⟩ := (hm.keys kv.1).mp (mem_map_of_mem hkv)
    rwa [mem_singleton.mp (mem_reverse.mp he)] at hin
  have htotal : ∀ key, total [d] key = d.count key := fun key => by simp [total]
  have hval : ∀ kv ∈ m.map, kv.2.val = total [d] kv.1 := by
    intro kv hkv
    rw [hm.entry kv hkv, htotal]
    exact if_pos (hkept kv hkv)
  refine answers hm sort (fun kv hkv _ => hval kv hkv) ?_ ?_ henough
  · intro kv hkv
    rw [hval kv hkv]
    exact NotBetter.refl desc _
  · intro key hkey hl kv hkv
    obtain ⟨e, he, hin⟩ := mem_groups.mp hkey
    rw [mem_singleton.mp he] at hin
    have hnot : key ∉ d.kept t := fun h => hl ⟨d, mem_singleton.mpr rfl, h⟩
    rw [hval kv hkv, htotal, htotal]
    exact (count_bound hvalid hin hnot).trans
      (bound_count hvalid (cut_of_not_kept hin hnot) (hkept kv hkv))

theorem exactOrFails_of_sound (hvalid : ∀ d ∈ devices, d.Valid desc)
    (h : Sound t n desc devices) (sort : StdSort (Int × Val) (Sorted desc)) :
    ExactOrFails countFirst t n desc sort devices := by
  obtain ⟨m, hreduce, hm⟩ := (merged_empty t).reduceAll countFirst devices
    fun d hd => (hvalid d hd).1
  rw [append_nil] at hm
  have hrun : speculativeTopN countFirst t n desc sort devices
      = m.asRows countFirst n desc sort := by
    unfold speculativeTopN
    rw [hreduce]
    rfl
  unfold ExactOrFails
  rw [hrun]
  rcases h with hn | ⟨henough, hcut | hone | ⟨hdesc, hclear⟩⟩
  · -- no row is asked for
    subst hn
    refine Or.inr ⟨[], ?_, ?_, nodup_nil, nofun, nofun⟩
    · unfold TopNMap.asRows
      simp
    · simp
  · exact exactOrFails_not_cut hm hcut sort
  · match devices, hone with
    | [], _ => exact exactOrFails_not_cut hm nofun sort
    | [d], _ => exact exactOrFails_one hm (hvalid d (mem_singleton.mpr rfl)) sort henough
  · subst hdesc
    exact exactOrFails_desc hm hvalid hclear sort henough

-- ======== wrong answers

/-- Enough is kept of every device that has more rows. -/
theorem enough_of_le (hnodup : ∀ d ∈ devices, (d.map Prod.fst).Nodup) (hn : n ≤ t) :
    n ≤ (groups (devices.map (·.top t))).card
      ∨ groups (devices.map (·.top t)) = groups devices := by
  by_cases hcut : ∀ d ∈ devices, d.length ≤ t
  · right
    ext key
    rw [mem_groups_top]
    exact ⟨groups_of_listed, listed_of_not_cut hcut⟩
  · left
    push Not at hcut
    obtain ⟨d, hd, hlt⟩ := hcut
    have hkept : (d.kept t).Nodup :=
      (hnodup d hd).sublist ((take_sublist t d).map Prod.fst)
    have hsub : (d.kept t).toFinset ⊆ groups (devices.map (·.top t)) := by
      intro key hkey
      exact mem_groups_top.mpr ⟨d, hd, mem_toFinset.mp hkey⟩
    have hlen : (d.kept t).length = t := by
      unfold Device.kept Device.top
      rw [length_map, length_take]
      omega
    have hcard := Finset.card_le_card hsub
    rw [toFinset_card_of_nodup hkept, hlen] at hcard
    omega

/-- No mark is taken back by two devices. -/
theorem not_cleared_of_two (h : devices.length ≤ 2) (key : Int) : ¬ Cleared t devices key := by
  intro hc
  obtain ⟨pre, d, post, rfl, ⟨e, he, hkept⟩, ⟨e', he', hnot, -⟩, -⟩ := hc
  rw [length_append, length_cons] at h
  match pre, he, he' with
  | [], he, _ => cases he
  | [x], he, he' =>
    rw [mem_singleton] at he he'
    rw [he'] at hnot
    rw [he] at hkept
    exact hnot hkept
  | _ :: _ :: _, _, _ =>
    simp only [length_cons] at h
    omega

/-- What is known of the rows that are returned. -/
theorem asRows_ok {out : List Row} (h : m.asRows countFirst n desc sort = .ok out) :
    out.length = min n m.map.length
      ∧ (∀ row ∈ out, ∃ kv ∈ m.map, row = Row.ofGroup countFirst kv.1 kv.2.val)
      ∧ ∀ kv ∈ m.map, Row.ofGroup countFirst kv.1 kv.2.val ∈ out
        ∨ ∀ row ∈ out, NotBetter desc kv.2.val (row.val countFirst) := by
  have hperm := sort.perm m.map
  unfold TopNMap.asRows at h
  dsimp only at h
  split at h
  · cases h
  · have hout := Except.ok.inj h
    subst hout
    refine ⟨?_, ?_, ?_⟩
    · rw [length_map, length_take, hperm.length_eq]
      omega
    · intro row hrow
      obtain ⟨kv, hkv, rfl⟩ := mem_map.mp hrow
      exact ⟨kv, hperm.mem_iff.mp (mem_of_mem_take hkv), rfl⟩
    · intro kv hkv
      have hsplit := take_append_drop (min n (sort.run m.map).length) (sort.run m.map)
      have hin := hperm.mem_iff.mpr hkv
      rw [← hsplit, mem_append] at hin
      rcases hin with hin | hin
      · exact Or.inl (mem_map.mpr ⟨kv, hin, rfl⟩)
      · right
        intro row hrow
        obtain ⟨kv', hkv', rfl⟩ := mem_map.mp hrow
        have hpair := sort.sorted m.map
        rw [← hsplit, pairwise_append] at hpair
        rw [val_ofGroup]
        exact hpair.2.2 kv' hkv' kv hin

/-- Without marks, the answers are right. -/
theorem answers_of_exactOrFails (hvalid : ∀ d ∈ devices, d.Valid desc)
    (hmark : ∀ key, Listed t devices key → mark t key devices.reverse = false)
    (h : ExactOrFails countFirst t n desc sort devices) :
    ∃ m out, Merged t devices.reverse m ∧ m.asRows countFirst n desc sort = .ok out
      ∧ Answers countFirst n desc devices out := by
  obtain ⟨m, hreduce, hm⟩ := (merged_empty t).reduceAll countFirst devices
    fun d hd => (hvalid d hd).1
  rw [append_nil] at hm
  have hrun : speculativeTopN countFirst t n desc sort devices
      = m.asRows countFirst n desc sort := by
    unfold speculativeTopN
    rw [hreduce]
    rfl
  unfold ExactOrFails at h
  rw [hrun] at h
  rcases h with hfail | ⟨out, hok, hans⟩
  · unfold TopNMap.asRows at hfail
    dsimp only at hfail
    split at hfail
    · next hany =>
        obtain ⟨kv, hkv, hunknown⟩ := any_eq_true.mp hany
        have hin : kv ∈ m.map := (sort.perm m.map).mem_iff.mp (mem_of_mem_take hkv)
        have hl := (hm.keys kv.1).mp (mem_map_of_mem hin)
        rw [hm.entry kv hin, hmark kv.1 (listed_reverse.mp hl)] at hunknown
        cases hunknown
    · cases hfail
  · exact ⟨m, out, hm, hok, hans⟩

theorem exists_row {out : List Row} (hpos : 0 < n) (hm : Merged t devices.reverse m)
    (hok : m.asRows countFirst n desc sort = .ok out) (hl : Listed t devices key) :
    ∃ row, row ∈ out := by
  have hlen := (asRows_ok hok).1
  have hmap := length_pos_of_mem ((hm.keys key).mpr (listed_reverse.mpr hl))
  rw [length_map] at hmap
  exact exists_mem_of_length_pos (by omega)

/-- Groups with equal counts, and one more. -/
def cutAt (t c c' : ℕ) : Device :=
  (List.range t).map (fun i : ℕ => ((i : Int), c)) ++ [((t : Int), c')]

theorem keys_cutAt (t c c' : ℕ) :
    (cutAt t c c').map Prod.fst = (List.range (t + 1)).map ofNat := by
  unfold cutAt
  rw [map_append, map_map, range_succ, map_append]
  rfl

theorem top_cutAt (t c c' : ℕ) :
    (cutAt t c c').top t = (List.range t).map fun i : ℕ => ((i : Int), c) :=
  take_left' (by rw [length_map, length_range])

theorem mem_kept_cutAt {t c c' : ℕ} :
    key ∈ (cutAt t c c').kept t ↔ ∃ i < t, key = (i : Int) := by
  unfold Device.kept
  rw [top_cutAt, map_map]
  simp [eq_comm]

theorem bound_cutAt (t c c' : ℕ) : (cutAt t c c').bound t = c' := by
  unfold Device.bound cutAt
  simp

theorem nodup_cutAt (t c c' : ℕ) : ((cutAt t c c').map Prod.fst).Nodup := by
  rw [keys_cutAt]
  exact nodup_range.map fun _ _ h => ofNat.inj h

theorem valid_cutAt {t c c' : ℕ} (h : NotBetter desc c' c) : (cutAt t c c').Valid desc := by
  refine ⟨nodup_cutAt t c c', pairwise_append.mpr
    ⟨?_, pairwise_singleton _ _, ?_⟩⟩
  · rw [pairwise_map]
    exact pairwise_of_forall fun _ _ => NotBetter.refl desc c
  · intro x hx y hy
    obtain ⟨i, -, rfl⟩ := mem_map.mp hx
    rw [mem_singleton.mp hy]
    exact h

theorem count_cutAt_of_lt {t c c' i : ℕ} (h : i < t) : (cutAt t c c').count i = c := by
  have hmem : ((i : Int), c) ∈ cutAt t c c' :=
    mem_append_left _ (mem_map.mpr ⟨i, mem_range.mpr h, rfl⟩)
  exact count_of_mem (nodup_cutAt t c c') hmem

theorem count_cutAt_last (t c c' : ℕ) : (cutAt t c c').count t = c' := by
  have hmem : ((t : Int), c') ∈ cutAt t c c' :=
    mem_append_right _ (mem_singleton.mpr rfl)
  exact count_of_mem (nodup_cutAt t c c') hmem

/-- Devices without rows change nothing but marks. -/
theorem listed_spare (ds : List Device) (r : ℕ) :
    Listed t (ds ++ replicate r []) key ↔ Listed t ds key := by
  constructor
  · intro h
    obtain ⟨d, hd, hkey⟩ := h
    rcases mem_append.mp hd with hd | hd
    · exact ⟨d, hd, hkey⟩
    · rw [eq_of_mem_replicate hd] at hkey
      unfold Device.kept Device.top at hkey
      simp at hkey
  · intro h
    obtain ⟨d, hd, hkey⟩ := h
    exact ⟨d, mem_append_left _ hd, hkey⟩

theorem total_spare (ds : List Device) (r : ℕ) (key : Int) :
    total (ds ++ replicate r []) key = total ds key := by
  unfold total
  simp [Device.count]

theorem mark_spare (past : List Device) (r : ℕ) (hl : Listed t past key)
    (h : mark t key past = false) :
    mark t key (replicate r [] ++ past) = false := by
  induction r with
  | zero => exact h
  | succ r ih =>
    have hl' : Listed t (replicate r [] ++ past) key := by
      obtain ⟨d, hd, hkey⟩ := hl
      exact ⟨d, mem_append_right _ hd, hkey⟩
    rw [replicate_succ, cons_append, mark, if_pos hl']
    split
    · exact ih
    · simp [Device.bound]

theorem sum_seen_spare (ds : List Device) (r : ℕ) (key : Int) :
    ((ds ++ replicate r ([] : Device)).map fun d => d.seen t key).sum
      = (ds.map fun d => d.seen t key).sum := by
  simp [Device.seen, Device.count, Device.bound]

theorem valid_spare {ds : List Device} (h : ∀ d ∈ ds, d.Valid desc) (r : ℕ) :
    ∀ d ∈ ds ++ replicate r [], d.Valid desc := by
  intro d hd
  rcases mem_append.mp hd with hd | hd
  · exact h d hd
  · rw [eq_of_mem_replicate hd]
    exact ⟨nodup_nil, Pairwise.nil⟩

theorem valid_one (r : ℕ) : ∀ d ∈ [cutAt t 1 1] ++ replicate r [], d.Valid desc := by
  refine valid_spare ?_ r
  intro d hd
  rw [mem_singleton.mp hd]
  exact valid_cutAt (NotBetter.refl desc 1)

theorem valid_asc (r : ℕ) :
    ∀ d ∈ [cutAt t 1 2, (cutAt t 5 5).top t] ++ replicate r [], d.Valid false := by
  have hfirst := @valid_cutAt false t 1 2 (by decide)
  have hv := @valid_cutAt false t 5 5 (Nat.le_refl 5)
  have hsecond : ((cutAt t 5 5).top t).Valid false :=
    ⟨hv.1.sublist ((take_sublist t _).map Prod.fst), hv.2.sublist (take_sublist t _)⟩
  refine valid_spare ?_ r
  simp only [forall_mem_cons]
  exact ⟨hfirst, hsecond, nofun⟩

theorem valid_desc (r : ℕ) :
    ∀ d ∈ [cutAt t 5 4, [((t : Int) + 1, 3)], []] ++ replicate r [], d.Valid true := by
  have hfirst := @valid_cutAt true t 5 4 (by decide)
  refine valid_spare ?_ r
  simp only [forall_mem_cons]
  exact ⟨hfirst, ⟨nodup_singleton _, pairwise_singleton _ _⟩, ⟨nodup_nil, Pairwise.nil⟩, nofun⟩

/-- Asking for more rows than are kept of a device with more groups. -/
theorem not_exact_of_lt (hn : t < n) (r : ℕ) (sort : StdSort (Int × Val) (Sorted desc)) :
    ¬ ExactOrFails countFirst t n desc sort ([cutAt t 1 1] ++ replicate r []) := by
  intro h
  obtain ⟨m, out, hm, hok, hans⟩ := answers_of_exactOrFails (valid_one r) (by
    intro key hl
    rw [reverse_append, reverse_replicate]
    exact mark_spare _ r ((listed_spare _ r).mp hl) rfl) h
  have hgroups : t + 1 ≤ (groups ([cutAt t 1 1] ++ replicate r [])).card := by
    have hsub : ((cutAt t 1 1).map Prod.fst).toFinset
        ⊆ groups ([cutAt t 1 1] ++ replicate r []) := by
      intro key hkey
      exact mem_groups.mpr ⟨_, mem_append_left _ (mem_singleton.mpr rfl), mem_toFinset.mp hkey⟩
    have hcard := Finset.card_le_card hsub
    rw [toFinset_card_of_nodup (nodup_cutAt t 1 1), keys_cutAt, length_map, length_range] at hcard
    exact hcard
  have hkept : m.map.length ≤ t := by
    have hsub : m.map.map Prod.fst ⊆ (List.range t).map ofNat := by
      intro key hkey
      obtain ⟨d, hd, hin⟩ := (listed_spare [cutAt t 1 1] r).mp
        (listed_reverse.mp ((hm.keys key).mp hkey))
      rw [mem_singleton.mp hd] at hin
      obtain ⟨i, hi, rfl⟩ := mem_kept_cutAt.mp hin
      exact mem_map.mpr ⟨i, mem_range.mpr hi, rfl⟩
    have hle := (subperm_of_subset hm.nodup hsub).length_le
    rwa [length_map, length_map, length_range] at hle
  have hlen := (asRows_ok hok).1
  rw [hans.length] at hlen
  omega

/-- In ascending order, a group that only one device has. -/
theorem not_exact_asc (hpos : 0 < n) (hn : n ≤ t) (r : ℕ)
    (sort : StdSort (Int × Val) (Sorted false)) :
    ¬ ExactOrFails countFirst t n false sort
      ([cutAt t 1 2, (cutAt t 5 5).top t] ++ replicate r []) := by
  intro h
  have hsecond : ((cutAt t 5 5).top t).kept t = (cutAt t 5 5).kept t := by
    unfold Device.kept Device.top
    rw [take_take, Nat.min_self]
  have hlisted : ∀ key, Listed t ([cutAt t 1 2, (cutAt t 5 5).top t] ++ replicate r []) key
      ↔ ∃ i < t, key = (i : Int) := by
    intro key
    rw [listed_spare, listed_cons, listed_cons, hsecond, mem_kept_cutAt, mem_kept_cutAt]
    unfold Listed
    simp
  obtain ⟨m, out, hm, hok, hans⟩ := answers_of_exactOrFails (valid_asc r) (by
    intro key hl
    have hl' := (hlisted key).mp hl
    rw [reverse_append, reverse_replicate]
    refine mark_spare _ r (listed_reverse.mpr ((listed_spare _ r).mp hl)) ?_
    have hfirst : Listed t [cutAt t 1 2] key :=
      ⟨_, mem_singleton.mpr rfl, mem_kept_cutAt.mpr hl'⟩
    show mark t key [(cutAt t 5 5).top t, cutAt t 1 2] = false
    rw [mark, if_pos hfirst, hsecond, if_pos (mem_kept_cutAt.mpr hl')]
    rfl) h
  obtain ⟨hlen, hrows, -⟩ := asRows_ok hok
  have hkey : ∀ row ∈ out, ∃ i < t, row.key countFirst = (i : Int) := by
    intro row hrow
    obtain ⟨kv, hkv, rfl⟩ := hrows row hrow
    rw [key_ofGroup]
    exact (hlisted kv.1).mp (listed_reverse.mp ((hm.keys kv.1).mp (mem_map_of_mem hkv)))
  -- a row that is returned
  obtain ⟨row, hrow⟩ := exists_row hpos hm hok ((hlisted 0).mpr ⟨0, by omega, rfl⟩)
  obtain ⟨i, hi, heq⟩ := hkey row hrow
  have hsix : row.val countFirst = 6 := by
    rw [(hans.exact row hrow).2, val_ofGroup, heq, total_spare]
    have hmem : ((i : Int), 5) ∈ (cutAt t 5 5).top t := by
      rw [top_cutAt]
      exact mem_map.mpr ⟨i, mem_range.mpr hi, rfl⟩
    have hcount : ((cutAt t 5 5).top t).count i = 5 := count_of_mem
      ((nodup_cutAt t 5 5).sublist ((take_sublist t _).map Prod.fst)) hmem
    show (cutAt t 1 2).count i + (((cutAt t 5 5).top t).count i + 0) = 6
    rw [hcount, count_cutAt_of_lt hi]
  -- the group that is left out
  have htwo : total ([cutAt t 1 2, (cutAt t 5 5).top t] ++ replicate r []) t = 2 := by
    rw [total_spare]
    have hnot : (t : Int) ∉ ((cutAt t 5 5).top t).map Prod.fst := by
      intro hin
      obtain ⟨j, hj, hjt⟩ := mem_kept_cutAt.mp hin
      omega
    show (cutAt t 1 2).count t + (((cutAt t 5 5).top t).count t + 0) = 2
    rw [count_of_notMem hnot, count_cutAt_last]
  have hbest := hans.best t (mem_groups.mpr ⟨cutAt t 1 2, by simp, by
      rw [keys_cutAt]
      exact mem_map.mpr ⟨t, mem_range.mpr (Nat.lt_succ_self t), rfl⟩⟩) (by
    intro hin
    obtain ⟨row', hrow', heq'⟩ := mem_map.mp hin
    obtain ⟨j, hj, hj'⟩ := hkey row' hrow'
    omega) row hrow
  rw [hsix, htwo] at hbest
  exact absurd hbest (by decide)

/-- In descending order, a mark that a third device takes back. -/
theorem not_exact_desc (hpos : 0 < n) (hn : n ≤ t) (r : ℕ)
    (sort : StdSort (Int × Val) (Sorted true)) :
    ¬ ExactOrFails countFirst t n true sort
      ([cutAt t 5 4, [((t : Int) + 1, 3)], []] ++ replicate r []) := by
  intro h
  have hsecond : Device.kept t [((t : Int) + 1, 3)] = [(t : Int) + 1] := by
    unfold Device.kept Device.top
    rw [take_of_length_le (by rw [length_singleton]; omega)]
    rfl
  have hthird : Device.kept t [] = [] := by
    unfold Device.kept Device.top
    rw [take_nil]
    rfl
  have hlisted : ∀ key, Listed t ([cutAt t 5 4, [((t : Int) + 1, 3)], []] ++ replicate r []) key
        ↔ Listed t [[((t : Int) + 1, 3)], cutAt t 5 4] key := by
    intro key
    rw [listed_spare]
    simp only [listed_cons, hthird]
    tauto
  obtain ⟨m, out, hm, hok, hans⟩ := answers_of_exactOrFails (valid_desc r) (by
    intro key hl
    have hl' := (hlisted key).mp hl
    rw [reverse_append, reverse_replicate]
    refine mark_spare _ r (listed_reverse.mpr ((listed_spare _ r).mp hl)) ?_
    show mark t key [[], [((t : Int) + 1, 3)], cutAt t 5 4] = false
    rw [mark, if_pos hl', hthird]
    rfl) h
  obtain ⟨-, hrows, hfirst⟩ := asRows_ok hok
  have hbound : Device.bound t [((t : Int) + 1, 3)] = 0 :=
    bound_of_not_cut (by rw [length_singleton]; omega)
  have hval : ∀ kv ∈ m.map, kv.2.val = (cutAt t 5 4).seen t kv.1
      + Device.seen t [((t : Int) + 1, 3)] kv.1 := by
    intro kv hkv
    rw [hm.entry kv hkv]
    rw [sum_reverse_seen, sum_seen_spare]
    simp [Device.seen, hthird, Device.bound]
  -- the group of the second device
  have hl : Listed t ([cutAt t 5 4, [((t : Int) + 1, 3)], []] ++ replicate r [])
      ((t : Int) + 1) := by
    rw [hlisted, listed_cons, hsecond]
    exact Or.inl (mem_singleton.mpr rfl)
  have hnot : (t : Int) + 1 ∉ (cutAt t 5 4).kept t := by
    intro hin
    obtain ⟨i, hi, heq⟩ := mem_kept_cutAt.mp hin
    omega
  obtain ⟨kv, hkv, hkey⟩ := mem_map.mp ((hm.keys _).mpr (listed_reverse.mpr hl))
  have hseven : kv.2.val = 7 := by
    rw [hval kv hkv, hkey]
    unfold Device.seen
    rw [if_neg hnot, hsecond, if_pos (mem_singleton.mpr rfl), bound_cutAt]
    simp [Device.count]
  have hin : Row.ofGroup countFirst kv.1 kv.2.val ∈ out := by
    by_contra hno
    obtain ⟨row, hrow⟩ := exists_row hpos hm hok hl
    have hle : kv.2.val ≤ row.val countFirst := (hfirst kv hkv).resolve_left hno row hrow
    obtain ⟨kv', hkv', rfl⟩ := hrows row hrow
    rw [val_ofGroup, hseven] at hle
    have hl' := (hlisted kv'.1).mp (listed_reverse.mp ((hm.keys _).mp (mem_map_of_mem hkv')))
    rw [listed_cons, hsecond] at hl'
    rcases hl' with hl' | ⟨d, hd, hkept⟩
    · have hsame : kv' = kv :=
        inj_on_of_nodup_map hm.nodup hkv' hkv ((mem_singleton.mp hl').trans hkey.symm)
      rw [hsame] at hrow
      exact hno hrow
    · rw [mem_singleton.mp hd] at hkept
      obtain ⟨i, hi, heq⟩ := mem_kept_cutAt.mp hkept
      have hother : kv'.1 ∉ Device.kept t [((t : Int) + 1, 3)] := by
        rw [hsecond, mem_singleton, heq]
        omega
      rw [hval kv' hkv'] at hle
      unfold Device.seen at hle
      rw [if_pos hkept, if_neg hother, hbound, heq, count_cutAt_of_lt hi] at hle
      omega
  have hexact := (hans.exact _ hin).2
  rw [key_ofGroup, hkey, total_spare, hseven] at hexact
  have hthree := congrArg (Row.val countFirst) hexact
  rw [val_ofGroup, val_ofGroup] at hthree
  have hcount : (cutAt t 5 4).count ((t : Int) + 1) = 0 := by
    refine count_of_notMem ?_
    rw [keys_cutAt]
    intro hmem
    obtain ⟨i, hi, heq⟩ := mem_map.mp hmem
    rw [mem_range] at hi
    have heq' : (i : Int) = (t : Int) + 1 := heq
    omega
  have htotal : total [cutAt t 5 4, [((t : Int) + 1, 3)], []] ((t : Int) + 1) = 3 := by
    show (cutAt t 5 4).count ((t : Int) + 1) + _ = 3
    rw [hcount]
    simp [Device.count]
  omega

-- ======== exactly

instance (desc : Bool) : DecidableRel (Sorted desc) :=
  fun x y => inferInstanceAs (Decidable (NotBetter desc y.2.val x.2.val))

instance (desc : Bool) : Std.Total (Sorted desc) := by
  refine ⟨fun x y => ?_⟩
  cases desc with
  | false => exact Nat.le_total x.2.val y.2.val
  | true => exact Nat.le_total y.2.val x.2.val

instance (desc : Bool) : IsTrans (Int × Val) (Sorted desc) :=
  ⟨fun _ _ _ h h' => NotBetter.trans h' h⟩

/-- Every query of so many devices and rows is exact or fails. -/
def AlwaysExact (countFirst : Bool) (t n : ℕ) (desc : Bool) (deviceCount : ℕ) : Prop :=
  ∀ (sort : StdSort (Int × Val) (Sorted desc)) (devices : List Device),
    devices.length = deviceCount → (∀ d ∈ devices, d.Valid desc) →
    ExactOrFails countFirst t n desc sort devices

/-- Speculative top n is exact or fails for sound devices, and for all
devices exactly if no more rows are asked for than are kept, of one device
or in descending order of two. -/
theorem exactOrFails_iff (countFirst : Bool) (t n : ℕ) (desc : Bool) :
    (∀ (sort : StdSort (Int × Val) (Sorted desc)) (devices : List Device),
        (∀ d ∈ devices, d.Valid desc) → Sound t n desc devices →
        ExactOrFails countFirst t n desc sort devices)
      ∧ ∀ deviceCount, AlwaysExact countFirst t n desc deviceCount
          ↔ n = 0 ∨ deviceCount = 0
            ∨ n ≤ t ∧ (deviceCount ≤ 1 ∨ desc = true ∧ deviceCount ≤ 2) := by
  refine ⟨fun sort devices hvalid hs => exactOrFails_of_sound hvalid hs sort, ?_⟩
  intro deviceCount
  constructor
  · intro h
    have hrun := h (StdSort.insertion (Sorted desc))
    by_contra hbad
    push Not at hbad
    obtain ⟨hpos, hcount, hbad⟩ := hbad
    by_cases hn : n ≤ t
    · obtain ⟨hone, htwo⟩ := hbad hn
      cases desc with
      | false =>
        refine not_exact_asc (by omega) hn (deviceCount - 2) _ (hrun _ ?_ (valid_asc _))
        rw [length_append, length_replicate]
        simp only [length_cons, length_nil]
        omega
      | true =>
        have hthree := htwo rfl
        refine not_exact_desc (by omega) hn (deviceCount - 3) _ (hrun _ ?_ (valid_desc _))
        rw [length_append, length_replicate]
        simp only [length_cons, length_nil]
        omega
    · refine not_exact_of_lt (by omega) (deviceCount - 1) _ (hrun _ ?_ (valid_one _))
      rw [length_append, length_replicate]
      simp only [length_cons, length_nil]
      omega
  · intro h sort devices hlen hvalid
    refine exactOrFails_of_sound hvalid ?_ sort
    have hnodup : ∀ d ∈ devices, (d.map Prod.fst).Nodup := fun d hd => (hvalid d hd).1
    rcases h with hn | hnone | ⟨hn, hone | ⟨hdesc, htwo⟩⟩
    · exact Or.inl hn
    · rw [hnone, length_eq_zero_iff] at hlen
      subst hlen
      exact Or.inr ⟨Or.inr rfl, Or.inl nofun⟩
    · exact Or.inr ⟨enough_of_le hnodup hn, Or.inr (Or.inl (by omega))⟩
    · exact Or.inr ⟨enough_of_le hnodup hn, Or.inr (Or.inr ⟨hdesc, not_cleared_of_two (by omega)⟩)⟩

/-- Two groups of which the larger one is asked for, on one device. -/
theorem exactOrFails_iff_one : ExactOrFails true 2 1 true (StdSort.insertion (Sorted true))
    [[(7, 3), (8, 2)]] :=
  (exactOrFails_iff true 2 1 true).1 _ _ (forall_mem_singleton.2 ⟨by decide, by decide⟩)
    (.inr ⟨.inl (by decide), .inr (.inl (by decide))⟩)

/-- Three devices; each keeps one group. -/
theorem marks_taken_back :
    (∀ d ∈ [[((1 : Int), 5), (2, 4)], [(3, 3)], []], Device.Valid true d)
    ∧ speculativeTopN false 1 1 true (StdSort.insertion (Sorted true))
        [[(1, 5), (2, 4)], [(3, 3)], []] = .ok [⟨3, 7⟩]
    ∧ ¬ ExactOrFails false 1 1 true (StdSort.insertion (Sorted true))
        [[(1, 5), (2, 4)], [(3, 3)], []] := by
  have hrun : speculativeTopN false 1 1 true (StdSort.insertion (Sorted true))
      [[(1, 5), (2, 4)], [(3, 3)], []] = .ok [⟨3, 7⟩] := by rfl
  refine ⟨?_, hrun, ?_⟩
  · intro d hd
    unfold Device.Valid
    revert d
    decide
  · intro h
    rcases h with h | ⟨out, hout, hans⟩
    · cases h
    · rw [← Except.ok.inj hout] at hans
      have hexact := (hans.exact _ (mem_singleton.mpr rfl)).2
      revert hexact
      decide

end Compass.TopN
