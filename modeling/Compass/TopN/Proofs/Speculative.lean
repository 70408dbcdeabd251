/-
When speculative top n is exact or fails.

`Merged` says what the reduced map holds: every group that some device
keeps, with the sum of what is `seen` of it on each device, and a `mark`.
A group without a mark is exact if no mark was taken back
(`bound_of_not_mark`). In descending order what is seen is at least the
count, and at least the bound, so no group that is left out is better; in
ascending order bounds say nothing about a group that a device does not
have.
-/
import Compass.TopN.Speculative

namespace Compass.TopN

open List Nat

-- ======== one device

@[simp] theorem key_ofGroup (countFirst : Bool) (key : Int) (val : ℕ) :
    (Row.ofGroup countFirst key val).key countFirst = key := by
  cases countFirst <;> rfl

@[simp] theorem val_ofGroup (countFirst : Bool) (key : Int) (val : ℕ) :
    (Row.ofGroup countFirst key val).val countFirst = val := by
  cases countFirst <;> rfl

/-- The groups that a map keeps of a device. -/
def Device.kept (t : ℕ) (d : Device) : List Int :=
  (d.top t).map Prod.fst

/-- The map of a device. -/
def Device.view (t : ℕ) (d : Device) : TopNMap where
  map := (d.top t).map fun kc => (kc.1, ⟨kc.2, false⟩)
  unknown := d.bound t

variable {t : ℕ}

/-- The loop from row `i` on. -/
theorem build_eq (countFirst : Bool) {i : ℕ} (hi : i ≤ t) (map : List (Int × Val)) (d : Device)
    (hnodup : (d.map Prod.fst).Nodup) (hnew : ∀ kc ∈ d, kc.1 ∉ map.map Prod.fst) :
    TopNMap.build countFirst t i map (d.rows countFirst)
      = .ok ⟨map ++ (d.take (t - i)).map fun kc => (kc.1, ⟨kc.2, false⟩),
          (d[t - i]?.map Prod.snd).getD 0⟩ := by
  induction d generalizing i map with
  | nil => simp [Device.rows, TopNMap.build]
  | cons kc d ih =>
    rw [map_cons, nodup_cons] at hnodup
    obtain ⟨hfirst, hrest⟩ := hnodup
    show TopNMap.build countFirst t i map
      (Row.ofGroup countFirst kc.1 kc.2 :: Device.rows countFirst d) = _
    rw [TopNMap.build, key_ofGroup, val_ofGroup]
    by_cases hlt : i < t
    · have hother : map.any (·.1 = kc.1) = false := by
        rw [any_eq_false]
        intro kv hkv heq
        refine hnew kc mem_cons_self ?_
        rw [← of_decide_eq_true heq]
        exact mem_map_of_mem hkv
      obtain ⟨s, hs⟩ : ∃ s, t - i = s + 1 := ⟨t - i - 1, by omega⟩
      rw [if_pos hlt, hother]
      rw [ih (by omega) _ hrest]
      · rw [show t - (i + 1) = s by omega, hs, take_succ_cons, map_cons,
          append_assoc, getElem?_cons_succ]
        rfl
      · intro x hx hin
        rw [map_append, mem_append] at hin
        rcases hin with hin | hin
        · exact hnew x (mem_cons_of_mem _ hx) hin
        · have heq : x.1 = kc.1 := mem_singleton.mp hin
          exact hfirst (heq ▸ mem_map_of_mem hx)
    · rw [if_neg hlt, show t - i = 0 by omega]
      simp

variable {d : Device}

theorem ofRows_eq (countFirst : Bool) (t : ℕ) (hnodup : (d.map Prod.fst).Nodup) :
    TopNMap.ofRows countFirst (d.rows countFirst) t = .ok (d.view t) := by
  unfold TopNMap.ofRows
  rw [build_eq countFirst (zero_le t) [] d hnodup (by simp)]
  rfl

variable {key : Int}

theorem kept_subset (h : key ∈ d.kept t) : key ∈ d.map Prod.fst := by
  obtain ⟨kc, hkc, rfl⟩ := mem_map.mp h
  exact mem_map_of_mem (mem_of_mem_take hkc)

/-- The row of a group. -/
theorem find?_of_mem {kc : Int × ℕ} (hnodup : (d.map Prod.fst).Nodup) (h : kc ∈ d) :
    (d.find? fun x => x.1 = kc.1) = some kc := by
  induction d with
  | nil => cases h
  | cons x d ih =>
    rw [map_cons, nodup_cons] at hnodup
    rw [find?_cons]
    rcases mem_cons.mp h with heq | hin
    · subst heq
      simp
    · have hne : x.1 ≠ kc.1 := by
        intro heq
        exact hnodup.1 (heq ▸ mem_map_of_mem hin)
      simp only [hne, decide_false]
      exact ih hnodup.2 hin

theorem count_of_mem {kc : Int × ℕ} (hnodup : (d.map Prod.fst).Nodup) (h : kc ∈ d) :
    d.count kc.1 = kc.2 := by
  unfold Device.count
  rw [find?_of_mem hnodup h]
  rfl

theorem count_of_notMem (h : key ∉ d.map Prod.fst) : d.count key = 0 := by
  have hnone : (d.find? fun x => x.1 = key) = none := by
    rw [find?_eq_none]
    intro x hx heq
    exact h (of_decide_eq_true heq ▸ mem_map_of_mem hx)
  unfold Device.count
  rw [hnone]
  rfl

/-- What the map of a device has for a group. -/
theorem find?_view (t : ℕ) (hnodup : (d.map Prod.fst).Nodup) (key : Int) : (d.view t).find? key
      = if key ∈ d.kept t then some ⟨d.count key, false⟩ else none := by
  have hfind : (d.view t).find? key
      = ((d.top t).find? fun x => x.1 = key).map fun kc => ⟨kc.2, false⟩ := by
    show (((d.top t).map _).find? _).map Prod.snd = _
    rw [find?_map, Option.map_map]
    rfl
  rw [hfind]
  by_cases hkey : key ∈ d.kept t
  · obtain ⟨kc, hkc, rfl⟩ := mem_map.mp hkey
    have htop : ((d.top t).map Prod.fst).Nodup :=
      hnodup.sublist ((take_sublist t d).map Prod.fst)
    rw [if_pos hkey, find?_of_mem htop hkc, count_of_mem hnodup (mem_of_mem_take hkc)]
    rfl
  · rw [if_neg hkey]
    have hnone : ((d.top t).find? fun x => x.1 = key) = none := by
      rw [find?_eq_none]
      intro x hx heq
      exact hkey (of_decide_eq_true heq ▸ mem_map_of_mem hx)
    rw [hnone]
    rfl

-- ======== reducing

/-- Some device keeps the group. -/
def Listed (t : ℕ) (past : List Device) (key : Int) : Prop :=
  ∃ d ∈ past, key ∈ d.kept t

instance (t : ℕ) (past : List Device) (key : Int) : Decidable (Listed t past key) :=
  inferInstanceAs (Decidable (∃ d ∈ past, key ∈ d.kept t))

/-- What a map adds to a group. -/
def Device.seen (t : ℕ) (d : Device) (key : Int) : ℕ :=
  if key ∈ d.kept t then d.count key else d.bound t

/-- The mark of a group, after the devices with the last one first. -/
def mark (t : ℕ) (key : Int) : List Device → Bool
  | [] => false
  | d :: past =>
    if Listed t past key then
      if key ∈ d.kept t then mark t key past else decide (d.bound t ≠ 0)
    else decide ((past.map (·.bound t)).sum ≠ 0)

/-- The map after these devices. -/
structure Merged (t : ℕ) (past : List Device) (m : TopNMap) : Prop where
  nodup : (m.map.map Prod.fst).Nodup
  keys : ∀ key, key ∈ m.map.map Prod.fst ↔ Listed t past key
  entry : ∀ kv ∈ m.map, kv.2 = ⟨(past.map (·.seen t kv.1)).sum, mark t kv.1 past⟩
  unknown : m.unknown = (past.map (·.bound t)).sum

theorem merged_empty (t : ℕ) : Merged t [] .empty :=
  ⟨nodup_nil, fun _ => ⟨nofun, nofun⟩, nofun, rfl⟩

theorem find?_isNone (m : TopNMap) (key : Int) :
    (m.find? key).isNone = true ↔ key ∉ m.map.map Prod.fst := by
  unfold TopNMap.find?
  rw [Option.isNone_map, Option.isNone_iff_eq_none, find?_eq_none]
  constructor
  · intro h hin
    obtain ⟨kv, hkv, rfl⟩ := mem_map.mp hin
    exact h kv hkv (by simp)
  · intro h kv hkv heq
    exact h (of_decide_eq_true heq ▸ mem_map_of_mem hkv)

theorem reduceEntry_fst (that : TopNMap) (kv : Int × Val) :
    (that.reduceEntry kv).1 = kv.1 := by
  unfold TopNMap.reduceEntry
  split <;> rfl

theorem map_reduceEntry_fst (that : TopNMap) (l : List (Int × Val)) :
    (l.map that.reduceEntry).map Prod.fst = l.map Prod.fst := by
  rw [map_map]
  exact map_congr_left fun kv _ => reduceEntry_fst that kv

variable {past : List Device}

theorem sum_seen_of_not_listed (h : ¬ Listed t past key) :
    (past.map (·.seen t key)).sum = (past.map (·.bound t)).sum := by
  congr 1
  refine map_congr_left ?_
  intro d hd
  unfold Device.seen
  rw [if_neg fun hin => h ⟨d, hd, hin⟩]

theorem listed_cons : Listed t (d :: past) key ↔ key ∈ d.kept t ∨ Listed t past key := by
  unfold Listed
  simp

/-- One more device. -/
theorem Merged.reduce {m : TopNMap} (h : Merged t past m) (hnodup : (d.map Prod.fst).Nodup) :
    ∃ m', m.reduce (d.view t) = .ok m' ∧ Merged t (d :: past) m' := by
  have hkept : (d.kept t).Nodup := hnodup.sublist ((take_sublist t d).map Prod.fst)
  have hcheck : (m.map.any fun kv => ((d.view t).find? kv.1).any Val.unknown) = false := by
    rw [any_eq_false]
    intro kv _ hany
    rw [find?_view t hnodup] at hany
    split at hany <;> cases hany
  unfold TopNMap.reduce
  rw [hcheck]
  refine ⟨_, rfl, ?_, ?_, ?_, ?_⟩
  all_goals dsimp only
  · rw [map_append, nodup_append]
    refine ⟨?_, ?_, ?_⟩
    · rw [map_reduceEntry_fst]
      exact h.nodup
    · rw [map_map]
      refine Nodup.sublist (List.Sublist.map _ filter_sublist) ?_
      show (((d.top t).map _).map _).Nodup
      rw [map_map]
      exact hkept
    · intro a ha b hb hab
      rw [map_reduceEntry_fst] at ha
      rw [map_map] at hb
      obtain ⟨kv, hkv, rfl⟩ := mem_map.mp hb
      have heq : a = kv.1 := hab
      exact (find?_isNone m kv.1).mp (mem_filter.mp hkv).2 (heq ▸ ha)
  · intro key
    rw [map_append, mem_append, map_reduceEntry_fst, map_map, h.keys, listed_cons]
    by_cases hl : Listed t past key
    · simp [hl]
    · simp only [hl, false_or, or_false]
      constructor
      · intro hin
        obtain ⟨kv, hkv, rfl⟩ := mem_map.mp hin
        obtain ⟨kc, hkc, rfl⟩ := mem_map.mp (mem_filter.mp hkv).1
        exact mem_map_of_mem hkc
      · intro hin
        obtain ⟨kc, hkc, rfl⟩ := mem_map.mp hin
        refine mem_map.mpr ⟨(kc.1, ⟨kc.2, false⟩), mem_filter.mpr ⟨?_, ?_⟩, rfl⟩
        · exact mem_map.mpr ⟨kc, hkc, rfl⟩
        · exact (find?_isNone m kc.1).mpr fun hin => hl ((h.keys kc.1).mp hin)
  · intro kv hkv
    rcases mem_append.mp hkv with hkv | hkv
    · -- a group that was there already
      obtain ⟨kv₀, hkv₀, rfl⟩ := mem_map.mp hkv
      have hl : Listed t past kv₀.1 := (h.keys kv₀.1).mp (mem_map_of_mem hkv₀)
      have hentry := h.entry kv₀ hkv₀
      rw [reduceEntry_fst, map_cons, sum_cons, mark, if_pos hl]
      unfold TopNMap.reduceEntry
      rw [find?_view t hnodup]
      unfold Device.seen
      by_cases hin : kv₀.1 ∈ d.kept t
      · simp only [if_pos hin]
        rw [hentry, add_comm]
        rfl
      · simp only [if_neg hin]
        rw [hentry, add_comm]
        rfl
    · -- a group that the device brings
      obtain ⟨kv₀, hkv₀, rfl⟩ := mem_map.mp hkv
      obtain ⟨hin, hnew⟩ := mem_filter.mp hkv₀
      obtain ⟨kc, hkc, rfl⟩ := mem_map.mp hin
      have hl : ¬ Listed t past kc.1 := fun hl =>
        (find?_isNone m kc.1).mp hnew ((h.keys kc.1).mpr hl)
      have hmem : kc.1 ∈ d.kept t := mem_map_of_mem hkc
      rw [map_cons, sum_cons, mark, if_neg hl, sum_seen_of_not_listed hl, h.unknown]
      unfold Device.seen
      rw [if_pos hmem, count_of_mem hnodup (mem_of_mem_take hkc)]
  · rw [map_cons, sum_cons, h.unknown, add_comm]
    rfl

/-- All devices, one after the other. -/
theorem Merged.reduceAll (countFirst : Bool) {m : TopNMap} (h : Merged t past m)
    (devices : List Device) (hnodup : ∀ d ∈ devices, (d.map Prod.fst).Nodup) :
    ∃ m', TopN.reduceAll countFirst t m devices = .ok m'
      ∧ Merged t (devices.reverse ++ past) m' := by
  induction devices generalizing past m with
  | nil => exact ⟨m, rfl, h⟩
  | cons d ds ih =>
    obtain ⟨m₁, hreduce, hm₁⟩ := h.reduce (hnodup d mem_cons_self)
    obtain ⟨m', hall, hm'⟩ := ih hm₁ fun e he => hnodup e (mem_cons_of_mem _ he)
    refine ⟨m', ?_, ?_⟩
    · rw [TopN.reduceAll, ofRows_eq countFirst t (hnodup d mem_cons_self)]
      show (do let m' ← m.reduce (d.view t); TopN.reduceAll countFirst t m' ds) = _
      rw [hreduce]
      exact hall
    · rw [reverse_cons, append_assoc]
      exact hm'

-- ======== marks

/-- A mark that is taken back before the last device. -/
theorem Cleared.snoc {devices : List Device} (h : Cleared t devices key) (hd : key ∈ d.kept t) :
    Cleared t (devices ++ [d]) key := by
  obtain ⟨pre, e, post, rfl, hlisted, hmissed, hkept, hbound, hpost⟩ := h
  refine ⟨pre, e, post ++ [d], by simp, hlisted, hmissed, hkept, hbound, ?_⟩
  intro x hx
  rcases mem_append.mp hx with hx | hx
  · exact hpost x hx
  · rw [mem_singleton.mp hx]
    exact hd

/-- A group without a mark is kept wherever there is a bound. -/
theorem bound_of_not_mark (hmark : mark t key past = false) (hclear : ¬ Cleared t past.reverse key)
    (hl : Listed t past key) : ∀ d ∈ past, key ∉ d.kept t → d.bound t = 0 := by
  induction past with
  | nil => exact nofun
  | cons d past ih =>
    rw [reverse_cons] at hclear
    rw [mark] at hmark
    by_cases hbefore : Listed t past key
    · rw [if_pos hbefore] at hmark
      by_cases hd : key ∈ d.kept t
      · rw [if_pos hd] at hmark
        have hpast := ih hmark (fun h => hclear (h.snoc hd)) hbefore
        exact forall_mem_cons.mpr ⟨fun hnot => absurd hd hnot, hpast⟩
      · rw [if_neg hd] at hmark
        have hbound : d.bound t = 0 := by simpa using hmark
        refine forall_mem_cons.mpr ⟨fun _ => hbound, ?_⟩
        intro e he hnot
        by_contra hne
        obtain ⟨x, hx, hkept⟩ := hbefore
        exact hclear ⟨past.reverse, d, [], rfl, ⟨x, mem_reverse.mpr hx, hkept⟩,
          ⟨e, mem_reverse.mpr he, hnot, hne⟩, hd, hbound, nofun⟩
    · rw [if_neg hbefore] at hmark
      have hsum : (past.map (·.bound t)).sum = 0 := by simpa using hmark
      refine forall_mem_cons.mpr ⟨?_, ?_⟩
      · intro hnot
        exact absurd ((listed_cons.mp hl).resolve_right hbefore) hnot
      · intro e he _
        exact List.sum_eq_zero_iff_forall_eq_nat.mp hsum _ (mem_map_of_mem he)

-- ======== sorted devices

theorem NotBetter.refl (desc : Bool) (a : ℕ) : NotBetter desc a a := by
  unfold NotBetter
  split <;> exact le_refl a

theorem NotBetter.trans {desc : Bool} {a b c : ℕ} (h : NotBetter desc a b)
    (h' : NotBetter desc b c) : NotBetter desc a c := by
  cases desc with
  | false => exact le_trans (show c ≤ b from h') (show b ≤ a from h)
  | true => exact le_trans (show a ≤ b from h) (show b ≤ c from h')

variable {desc : Bool} {t : ℕ} {d : Device} {key : Int}

/-- A device with a group that is not kept has more rows than are kept. -/
theorem cut_of_not_kept (hkey : key ∈ d.map Prod.fst) (hnot : key ∉ d.kept t) :
    t < d.length := by
  by_contra hle
  refine hnot ?_
  unfold Device.kept Device.top
  rwa [take_of_length_le (not_lt.mp hle)]

theorem bound_of_cut (h : t < d.length) : d.bound t = d[t].2 := by
  unfold Device.bound
  rw [getElem?_eq_getElem h]
  rfl

theorem bound_of_not_cut (h : d.length ≤ t) : d.bound t = 0 := by
  unfold Device.bound
  rw [getElem?_eq_none h]
  rfl

/-- A group that is not kept is not better than the bound. -/
theorem count_bound (hd : d.Valid desc) (hkey : key ∈ d.map Prod.fst)
    (hnot : key ∉ d.kept t) : NotBetter desc (d.count key) (d.bound t) := by
  have hcut := cut_of_not_kept hkey hnot
  obtain ⟨kc, hkc, rfl⟩ := mem_map.mp hkey
  obtain ⟨i, hi, rfl⟩ := getElem_of_mem hkc
  rw [count_of_mem hd.1 hkc, bound_of_cut hcut]
  rcases lt_trichotomy t i with hlt | heq | hlt
  · exact pairwise_iff_getElem.mp hd.2 t i hcut hi hlt
  · subst heq
    exact NotBetter.refl desc _
  · refine absurd (mem_map_of_mem ?_) hnot
    exact mem_take_iff_getElem.mpr ⟨i, by omega, rfl⟩

/-- The bound is not better than a group that is kept. -/
theorem bound_count (hd : d.Valid desc) (hcut : t < d.length) (hkept : key ∈ d.kept t) :
    NotBetter desc (d.bound t) (d.count key) := by
  obtain ⟨kc, hkc, rfl⟩ := mem_map.mp hkept
  rw [count_of_mem hd.1 (mem_of_mem_take hkc), bound_of_cut hcut]
  obtain ⟨i, hi, rfl⟩ := mem_take_iff_getElem.mp hkc
  exact pairwise_iff_getElem.mp hd.2 i t (by omega) hcut (by omega)

/-- In descending order what is seen is an upper bound. -/
theorem count_le_seen (hd : d.Valid true) : d.count key ≤ d.seen t key := by
  unfold Device.seen
  split
  · exact le_refl _
  · next hnot =>
      by_cases hkey : key ∈ d.map Prod.fst
      · exact count_bound hd hkey hnot
      · rw [count_of_notMem hkey]
        exact zero_le _

theorem bound_le_seen (hd : d.Valid true) : d.bound t ≤ d.seen t key := by
  unfold Device.seen
  split
  · next hkept =>
      by_cases hcut : t < d.length
      · exact bound_count hd hcut hkept
      · rw [bound_of_not_cut (not_lt.mp hcut)]
        exact zero_le _
  · exact le_refl _

/-- In a device of which everything is kept what is seen is the count. -/
theorem seen_of_not_cut (h : d.length ≤ t) : d.seen t key = d.count key := by
  unfold Device.seen
  split
  · rfl
  · next hnot =>
      rw [bound_of_not_cut h]
      refine (count_of_notMem fun hkey => ?_).symm
      have := cut_of_not_kept hkey hnot
      omega

end Compass.TopN
