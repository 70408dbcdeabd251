/-
The template files, written and read.

The writer appends the texts of the templates (`saveSketchTemplate_eq`).
Of each text the reader makes the ids and seeds that were written, and the
counters rounded to six digits (`Template.read`). A template whose key
comes again is replaced, so the map has the last one of each key
(`upload_save`).
-/
import Compass.Catalog.SketchTemplates

namespace Compass.Catalog

open Compass.Sketch List Option Function Nat UInt32
open TextStream Decimal

-- ======== texts

/-- The lines of a template in the file of seeds. -/
def seedLines (t : Template) : List (List Char) :=
  [sketchInfo t.1, seedLine t.2.xiBucket, seedLine t.2.xiPm1]

/-- The lines of a template in the file of counters. -/
def counterLines (t : Template) : List (List Char) :=
  [sketchInfo t.1, counterLine t.2.separateSketchElem]

/-- Lines as they are in a file. -/
def text (ls : List (List Char)) : List Char :=
  ls.flatMap fun l => l ++ ['\n']

theorem text_append (ls ls' : List (List Char)) : text (ls ++ ls') = text ls ++ text ls' :=
  flatMap_append

theorem lines_text {ls : List (List Char)} (h : ∀ l ∈ ls, '\n' ∉ l) : lines (text ls) = ls := by
  induction ls with
  | nil => rfl
  | cons l ls ih =>
    rw [forall_mem_cons] at h
    have hcons : text (l :: ls) = l ++ '\n' :: text ls := by
      simp [text]
    rw [hcons, lines_append h.1, ih h.2]

/-- The files have the texts of the templates appended. -/
theorem saveSketchTemplate_eq (joinConnections : Nat → List JoinConnection)
    (sketches : List (Nat × (Nat → ColumnSketch))) (files : TemplateFiles) :
    saveSketchTemplate joinConnections sketches files
      = ⟨files.sketchTemplateData
            ++ text ((templates joinConnections sketches).flatMap counterLines),
          files.sketchTemplateDataSeed
            ++ text ((templates joinConnections sketches).flatMap seedLines)⟩ := by
  have hcolumns : ∀ (f : TemplateFiles → JoinConnection × Nat → TemplateFiles)
      (s : Nat → ColumnSketch), (∀ files j, f files j = saveColumn files j.1 (s j.2)) →
      ∀ (js : List (JoinConnection × Nat)) (files : TemplateFiles), js.foldl f files
        = ⟨files.sketchTemplateData ++ text (js.flatMap fun j => counterLines (j.1, s j.2)),
            files.sketchTemplateDataSeed ++ text (js.flatMap fun j => seedLines (j.1, s j.2))⟩ := by
    intro f s hf js
    induction js with
    | nil => simp [text]
    | cons j js ih =>
      intro files
      rw [foldl_cons, ih, hf]
      simp [saveColumn, text, counterLines, seedLines]
  unfold saveSketchTemplate templates
  induction sketches generalizing files with
  | nil => simp [text]
  | cons it sketches ih =>
    rw [foldl_cons, ih, hcolumns _ it.2 fun _ _ => rfl, flatMap_cons, flatMap_append,
      flatMap_append, text_append, text_append, append_assoc, append_assoc, flatMap_map,
      flatMap_map]

-- ======== no end of line

theorem notMem_toDigits {c : Char} (hc : c.isDigit = false) (n : Nat) :
    c ∉ Nat.toDigits 10 n := by
  intro h
  rw [allDigits_toDigits n c h] at hc
  cases hc

theorem notMem_sketchInfo (j : JoinConnection) : '\n' ∉ sketchInfo j := by
  simp [sketchInfo, notMem_toDigits (show ('\n').isDigit = false by decide)]

theorem notMem_spaced {α : Type} {insert : α → List Char} (h : ∀ x, '\n' ∉ insert x)
    (xs : List α) : '\n' ∉ spaced insert xs := by
  simp [spaced, h]

theorem newline_notMem (t : Template) :
    (∀ l ∈ seedLines t, '\n' ∉ l) ∧ ∀ l ∈ counterLines t, '\n' ∉ l := by
  have hdigits : ∀ n, '\n' ∉ toDigits 10 n := notMem_toDigits (by decide)
  constructor
  · simp only [seedLines, forall_mem_cons, not_mem_nil, false_imp_iff, implies_true, and_true]
    exact ⟨notMem_sketchInfo _, notMem_spaced hdigits _, notMem_spaced hdigits _⟩
  · simp only [counterLines, forall_mem_cons, not_mem_nil, false_imp_iff, implies_true, and_true]
    exact ⟨notMem_sketchInfo _, notMem_spaced newline_notMem_insertDouble _⟩

-- ======== reading

/-- What is read of the counters. -/
def Template.readCounters (t : Template) : List Int :=
  t.counters.map fun v => IntDouble.ofInt (roundedInt v)

/-- What is read of a template. -/
def Template.read (t : Template) : SketchTemplate :=
  { t.sketch with sketchElem := t.readCounters }

theorem readHeader_sketchInfo (t : Template) :
    readHeader (sketchInfo t.1)
      = some ⟨t.key, ofNat catSketchBuckets, ofNat catSketchRows⟩ := by
  have hsize : ∀ x : UInt64, x.toNat ≤ sizeMax := fun x => le_of_lt_succ x.toNat_lt
  have hblank : ∀ s, Stops (' ' :: s) := fun s => stops_cons (by decide)
  have hbuckets : catSketchBuckets ≤ sizeMax := by decide
  have hrows : catSketchRows ≤ sizeMax := by decide
  have hlast : extractUnsigned sizeMax (toDigits 10 catSketchRows)
      = some (catSketchRows, []) := by
    have h := extractUnsigned_toDigits hrows stops_nil
    rwa [append_nil] at h
  unfold readHeader sketchInfo
  simp only [extractUnsigned_toDigits (hsize _) (hblank _), extractUnsigned_blank,
    extractUnsigned_toDigits hbuckets (hblank _), hlast, bind_eq_bind, bind_some]
  rfl

theorem extractMany_seedLine (seeds : Nat → UInt32 × UInt32) :
    ∃ s, extractMany extractSeeds catSketchRows (seedLine seeds)
      = some ((List.range catSketchRows).map seeds, s) := by
  have hmax : ∀ x : UInt32, x.toNat ≤ unsignedMax := fun x => le_of_lt_succ x.toNat_lt
  have hread : ∀ (p : UInt32 × UInt32) s, extractSeeds
      ((toDigits 10 p.1.toNat ++ ' ' :: toDigits 10 p.2.toNat) ++ ' ' :: s)
        = some (p, ' ' :: s) := by
    intro p s
    unfold extractSeeds
    rw [append_assoc, cons_append, extractUnsigned_toDigits (hmax _) (stops_cons (by decide))]
    simp only [bind_eq_bind, bind_some, extractUnsigned_blank,
      extractUnsigned_toDigits (hmax _) (stops_cons (show (' ').isDigit = false by decide)),
      UInt32.ofNat_toNat]
  have hblank : ∀ s, extractSeeds (' ' :: s) = extractSeeds s := by
    intro s
    unfold extractSeeds
    rw [extractUnsigned_blank]
  obtain ⟨s, hs⟩ := extractMany_spaced hread hblank ((List.range catSketchRows).map seeds)
  refine ⟨s, ?_⟩
  rw [length_map, length_range, List.map_id'] at hs
  rw [← hs]
  unfold seedLine spaced
  congr 1
  rw [flatMap_assoc, flatMap_map]
  congr 1
  funext rw
  simp

theorem extractMany_counterLine (t : Template) :
    ∃ s, extractMany extractDouble (catSketchBuckets * catSketchRows)
        (counterLine t.2.separateSketchElem) = some (t.readCounters, s) := by
  have hread : ∀ (v : Int) s, extractDouble (insertDouble v ++ ' ' :: s)
      = some (IntDouble.ofInt (roundedInt v), ' ' :: s) := fun v s =>
    extractDouble_insertDouble v (by simp)
  obtain ⟨s, hs⟩ := extractMany_spaced hread extractDouble_blank t.counters
  refine ⟨s, ?_⟩
  unfold Template.counters at hs
  rw [length_map, length_range] at hs
  exact hs

-- ======== the map

/-- The last template with the key. -/
def lastWith (key : List Char) (ts : List Template) : Option Template :=
  ts.reverse.find? fun t => t.key = key

theorem lastWith_cons (key : List Char) (t : Template) (ts : List Template) :
    lastWith key (t :: ts) = (lastWith key ts).or (if t.key = key then some t else none) := by
  unfold lastWith
  by_cases h : t.key = key <;> simp [h]

variable {t : Template}

theorem lastWith_mem {key : List Char} {ts : List Template} (h : lastWith key ts = some t) :
    t ∈ ts ∧ t.key = key :=
  ⟨mem_reverse.mp (mem_of_find?_eq_some h), by simpa using find?_some h⟩

theorem exists_lastWith {ts : List Template} (ht : t ∈ ts) :
    ∃ t', lastWith t.key ts = some t' := by
  rw [← isSome_iff_exists, lastWith, find?_isSome]
  exact ⟨t, mem_reverse.mpr ht, by simp⟩

/-- A sketch without its counters. -/
def SketchTemplate.seedsOnly (s : SketchTemplate) : SketchTemplate :=
  { s with sketchElem := [] }

/-- The map after the file of seeds, but for the counters. -/
theorem uploadSeeds_eq (ts : List Template) : ∀ m : TemplateMap,
    ∃ m', uploadSeeds (ts.flatMap seedLines) m = some m' ∧ ∀ key,
      (m' key).map SketchTemplate.seedsOnly
        = ((lastWith key ts).map fun t => t.sketch.seedsOnly).or
            ((m key).map SketchTemplate.seedsOnly) := by
  induction ts with
  | nil => exact fun m => ⟨m, rfl, fun key => by simp [lastWith]⟩
  | cons t ts ih =>
    intro m
    obtain ⟨s₁, hs₁⟩ := extractMany_seedLine t.2.xiBucket
    obtain ⟨s₂, hs₂⟩ := extractMany_seedLine t.2.xiPm1
    have hstep : ∃ elem, uploadSeeds ((t :: ts).flatMap seedLines) m
        = uploadSeeds (ts.flatMap seedLines)
            (update m t.key (some { t.sketch with sketchElem := elem })) := by
      rw [flatMap_cons]
      simp only [seedLines, cons_append, nil_append, uploadSeeds,
        readHeader_sketchInfo, hs₁, hs₂, bind_eq_bind, bind_some]
      exact ⟨replicate _ 0, rfl⟩
    obtain ⟨elem, hstep⟩ := hstep
    obtain ⟨m', hm', hkey⟩ := ih (update m t.key
      (some { t.sketch with sketchElem := elem }))
    refine ⟨m', hstep.trans hm', fun key => ?_⟩
    rw [hkey, lastWith_cons]
    cases lastWith key ts with
    | some t' => rfl
    | none =>
      by_cases h : t.key = key
      · subst h
        simp only [update_self, if_true, map_none, none_or,
          map_some, some_or, SketchTemplate.seedsOnly]
      · simp only [update_of_ne (Ne.symm h), if_neg h, or_none]

/-- The map after the file of counters, if it has the keys. -/
theorem uploadCounters_eq (ts : List Template) : ∀ m : TemplateMap, (∀ t ∈ ts, m t.key ≠ none) →
    ∃ m', uploadCounters (ts.flatMap counterLines) m = some m' ∧ ∀ key,
      m' key = match lastWith key ts with
        | some t => (m key).map fun s => { s with sketchElem := t.readCounters }
        | none => m key := by
  induction ts with
  | nil => exact fun m _ => ⟨m, rfl, fun key => rfl⟩
  | cons t ts ih =>
    intro m hm
    rw [forall_mem_cons] at hm
    obtain ⟨s, hs⟩ := extractMany_counterLine t
    obtain ⟨s₀, hs₀⟩ := ne_none_iff_exists'.mp hm.1
    have hstep : uploadCounters ((t :: ts).flatMap counterLines) m
        = uploadCounters (ts.flatMap counterLines)
            (update m t.key (some { s₀ with sketchElem := t.readCounters })) := by
      rw [flatMap_cons]
      simp only [counterLines, cons_append, nil_append, uploadCounters,
        readHeader_sketchInfo, hs, hs₀, bind_eq_bind, bind_some]
    have hkeys : ∀ t' ∈ ts, update m t.key
        (some { s₀ with sketchElem := t.readCounters }) t'.key ≠ none := by
      intro t' ht'
      by_cases h : t'.key = t.key
      · rw [h, update_self]
        exact some_ne_none _
      · rw [update_of_ne h]
        exact hm.2 t' ht'
    obtain ⟨m', hm', hkey⟩ := ih _ hkeys
    refine ⟨m', hstep.trans hm', fun key => ?_⟩
    rw [hkey, lastWith_cons]
    by_cases h : t.key = key
    · subst h
      rw [update_self, hs₀]
      cases lastWith t.key ts <;> simp
    · rw [update_of_ne (Ne.symm h), if_neg h]
      cases lastWith key ts <;> simp

/-- Of the templates that have been saved, the last one with each key is
read. -/
theorem upload_save (joinConnections : Nat → List JoinConnection)
    (sketches : List (Nat × (Nat → ColumnSketch))) :
    ∃ m, uploadSketchTemplates (saveSketchTemplate joinConnections sketches ⟨[], []⟩)
        (fun _ => none) = some m
      ∧ ∀ key, m key = (lastWith key (templates joinConnections sketches)).map Template.read := by
  generalize hts : templates joinConnections sketches = ts
  have hseedLines : lines (text (ts.flatMap seedLines)) = ts.flatMap seedLines :=
    lines_text fun l hl => by
      obtain ⟨t, -, hl⟩ := mem_flatMap.mp hl
      exact (newline_notMem t).1 l hl
  have hcounterLines : lines (text (ts.flatMap counterLines)) = ts.flatMap counterLines :=
    lines_text fun l hl => by
      obtain ⟨t, -, hl⟩ := mem_flatMap.mp hl
      exact (newline_notMem t).2 l hl
  obtain ⟨m₁, hm₁, hkey₁⟩ := uploadSeeds_eq ts fun _ => none
  have hkeys : ∀ t ∈ ts, m₁ t.key ≠ none := by
    intro t ht hnone
    obtain ⟨t', ht'⟩ := exists_lastWith ht
    have h := hkey₁ t.key
    rw [hnone, ht'] at h
    cases h
  obtain ⟨m, hm, hkey⟩ := uploadCounters_eq ts m₁ hkeys
  refine ⟨m, ?_, fun key => ?_⟩
  · rw [saveSketchTemplate_eq, hts]
    unfold uploadSketchTemplates
    simp only [nil_append, hseedLines, hcounterLines, hm₁, hm, bind_eq_bind, bind_some]
  · have h₁ := hkey₁ key
    rw [hkey]
    cases hlast : lastWith key ts with
    | none =>
      rw [hlast] at h₁
      simpa using h₁
    | some t =>
      rw [hlast] at h₁
      obtain ⟨s, hs, hseeds⟩ := map_eq_some_iff.mp (h₁.trans (some_or ..))
      rw [hs]
      show some { s.seedsOnly with sketchElem := t.readCounters } = some t.read
      rw [hseeds]
      rfl

-- ======== round trip

theorem keyValue_injective {a b c d a' b' c' d' : Nat}
    (h : keyValue a b c d = keyValue a' b' c' d') : a = a' ∧ b = b' ∧ c = c' ∧ d = d' := by
  have hdigits : ∀ {m n : Nat}, toDigits 10 m = toDigits 10 n → m = n := by
    intro m n heq
    have hvalue := congrArg (fun s => ofDigitChars 10 s 0) heq
    simpa only [ofDigitChars_ten_toDigits] using hvalue
  have hsplit : ∀ {m n : Nat} {s s' : List Char},
      toDigits 10 m ++ '-' :: '-' :: s = toDigits 10 n ++ '-' :: '-' :: s' →
        m = n ∧ s = s' := by
    intro m n s s' heq
    have hspan := congrArg (span Char.isDigit) heq
    rw [span_digits (allDigits_toDigits m) (stops_cons (by decide)),
      span_digits (allDigits_toDigits n) (stops_cons (by decide)), Prod.mk.injEq] at hspan
    exact ⟨hdigits hspan.1, (cons.inj (cons.inj hspan.2).2).2⟩
  obtain ⟨ha, h⟩ := hsplit h
  obtain ⟨hb, h⟩ := hsplit h
  obtain ⟨hc, h⟩ := hsplit h
  exact ⟨ha, hb, hc, hdigits h⟩

theorem key_eq_iff (t t' : Template) : t.key = t'.key ↔ t.1 = t'.1 := by
  constructor
  · intro h
    obtain ⟨h₁, h₂, h₃, h₄⟩ := keyValue_injective h
    obtain ⟨⟨a, b, c, d⟩, _⟩ := t
    obtain ⟨⟨a', b', c', d'⟩, _⟩ := t'
    simp only [JoinConnection.mk.injEq]
    exact ⟨UInt64.toNat_inj.mp h₁, UInt64.toNat_inj.mp h₂, UInt64.toNat_inj.mp h₃,
      UInt64.toNat_inj.mp h₄⟩
  · intro h
    unfold Template.key
    rw [h]

theorem sketch_eq_iff (t t' : Template) : t.sketch = t'.sketch ↔ t.SameData t' := by
  have hmap : ∀ {α : Type} {f g : Nat → α},
      (range catSketchRows).map f = (range catSketchRows).map g
        ↔ ∀ rw < catSketchRows, f rw = g rw := by
    intro α f g
    rw [map_inj_left]
    simp only [mem_range]
  unfold Template.sketch Template.SameData Template.counters
  rw [SketchTemplate.mk.injEq, hmap, hmap]
  simp only [XiCW2B.mk.injEq, XiEH3.mk.injEq, and_true, true_and, forall_and, and_assoc]

theorem sketch_sketchElem (t : Template) : t.sketch.sketchElem = t.counters := by
  unfold Template.sketch Template.counters
  dsimp only

theorem read_eq_iff (hmag : ∀ v ∈ t.counters, v.natAbs < 2 ^ 53) :
    t.read = t.sketch ↔ ∀ v ∈ t.counters, SixDigits v.natAbs := by
  have hcounters : t.read = t.sketch ↔ t.readCounters = t.counters := by
    unfold Template.read
    rw [← sketch_sketchElem]
    constructor
    · intro h
      rw [← h]
    · intro h
      rw [h]
  have hself : t.readCounters = t.counters
      ↔ ∀ v ∈ t.counters, IntDouble.ofInt (roundedInt v) = v := by
    unfold Template.readCounters
    conv_lhs => rhs; rw [← map_id t.counters]
    rw [map_inj_left]
    rfl
  rw [hcounters, hself]
  exact forall₂_congr fun v hv => roundedInt_eq_iff (hmag v hv)

/-- The templates are restored exactly if no counter has more than six
digits, and those of the same columns have the same seeds and counters. -/
theorem restores_iff (joinConnections : Nat → List JoinConnection)
    (sketches : List (Nat × (Nat → ColumnSketch)))
    (hmag : ∀ t ∈ templates joinConnections sketches, ∀ v ∈ t.counters, v.natAbs < 2 ^ 53) :
    (∃ m, uploadSketchTemplates (saveSketchTemplate joinConnections sketches ⟨[], []⟩)
        (fun _ => none) = some m ∧ Restores m (templates joinConnections sketches))
      ↔ (∀ t ∈ templates joinConnections sketches, ∀ v ∈ t.counters, SixDigits v.natAbs)
        ∧ ∀ t ∈ templates joinConnections sketches,
          ∀ t' ∈ templates joinConnections sketches, t.1 = t'.1 → t.SameData t' := by
  obtain ⟨m, hm, hkey⟩ := upload_save joinConnections sketches
  generalize templates joinConnections sketches = ts at hmag hkey ⊢
  have hlast : ∀ t ∈ ts, ∃ t' ∈ ts, t'.1 = t.1 ∧ m t.key = some t'.read := by
    intro t ht
    obtain ⟨t', ht'⟩ := exists_lastWith ht
    obtain ⟨hmem, heq⟩ := lastWith_mem ht'
    exact ⟨t', hmem, (key_eq_iff t' t).mp heq, by rw [hkey, ht', map_some]⟩
  constructor
  · rintro ⟨m', hm', hrestores, -⟩
    obtain rfl := Option.some.inj (hm.symm.trans hm')
    -- the template that is read for `t` has the data of `t`, and its own
    have hdata : ∀ t ∈ ts, ∃ t' ∈ ts, t'.1 = t.1 ∧ t'.read = t'.sketch ∧ t'.sketch = t.sketch := by
      intro t ht
      obtain ⟨t', hmem, hcols, hread⟩ := hlast t ht
      have h := hrestores t' hmem
      rw [(key_eq_iff t' t).mpr hcols, hread] at h
      have ht := hrestores t ht
      rw [hread] at ht
      have hself := Option.some.inj h
      exact ⟨t', hmem, hcols, hself, hself.symm.trans (Option.some.inj ht)⟩
    constructor
    · intro t ht v hv
      obtain ⟨t', hmem, -, hself, hsame⟩ := hdata t ht
      have hcounters : t'.counters = t.counters := ((sketch_eq_iff t' t).mp hsame).2
      rw [← hcounters] at hv
      exact (read_eq_iff (hmag t' hmem)).mp hself v hv
    · intro t ht t' ht' hcols
      have h := hrestores t ht
      rw [(key_eq_iff t t').mpr hcols, hrestores t' ht'] at h
      exact (sketch_eq_iff t t').mp (Option.some.inj h).symm
  · rintro ⟨hsix, hsame⟩
    refine ⟨m, hm, ?_, ?_⟩
    · intro t ht
      obtain ⟨t', hmem, hcols, hread⟩ := hlast t ht
      rw [hread, (read_eq_iff (hmag t' hmem)).mpr (hsix t' hmem),
        (sketch_eq_iff t' t).mpr (hsame t' hmem t ht hcols)]
    · intro key hne
      rw [hkey] at hne
      cases hlastWith : lastWith key ts with
      | none =>
        rw [hlastWith] at hne
        exact absurd rfl hne
      | some t => exact ⟨t, lastWith_mem hlastWith⟩

-- ======== examples

/-- One join column with the same seeds for all rows and the same value in
all counters. -/
def oneColumn (v : Int) : List (Nat × (Nat → ColumnSketch)) :=
  [(0, fun _ => ⟨fun _ => (1, 2), fun _ => (3, 4), fun _ => v⟩)]

def oneConnection : Nat → List JoinConnection :=
  fun _ => [⟨4, 0, 3, 2⟩]

theorem mem_templates_oneColumn {v : Int} (ht : t ∈ templates oneConnection (oneColumn v)) :
    t = (⟨4, 0, 3, 2⟩, ⟨fun _ => (1, 2), fun _ => (3, 4), fun _ => v⟩) := by
  simpa [templates, oneColumn, oneConnection] using ht

theorem mem_counters_oneColumn {v w : Int} (ht : t ∈ templates oneConnection (oneColumn v))
    (hw : w ∈ t.counters) : w = v := by
  obtain ⟨i, -, rfl⟩ := List.mem_map.mp hw
  rw [mem_templates_oneColumn ht]

/-- `-1200000` in all counters is restored. -/
theorem restores_oneColumn :
    ∃ m, uploadSketchTemplates (saveSketchTemplate oneConnection (oneColumn (-1200000)) ⟨[], []⟩)
        (fun _ => none) = some m
      ∧ Restores m (templates oneConnection (oneColumn (-1200000))) := by
  refine (restores_iff oneConnection (oneColumn (-1200000)) ?_).mpr ⟨?_, ?_⟩
  · intro t ht v hv
    rw [mem_counters_oneColumn ht hv]
    decide
  · intro t ht v hv
    rw [mem_counters_oneColumn ht hv]
    exact ⟨12, 5, by decide, by decide⟩
  · intro t ht t' ht' _
    rw [mem_templates_oneColumn ht, mem_templates_oneColumn ht']
    exact ⟨fun _ _ => ⟨rfl, rfl⟩, rfl⟩

/-- `1234567` is written as `1.23457e+06`. -/
theorem sevenDigits_not_restored :
    ¬ ∃ m, uploadSketchTemplates (saveSketchTemplate oneConnection (oneColumn 1234567) ⟨[], []⟩)
        (fun _ => none) = some m
      ∧ Restores m (templates oneConnection (oneColumn 1234567)) := by
  rintro ⟨m', hm', hrestores, -⟩
  obtain ⟨m, hm, hkey⟩ := upload_save oneConnection (oneColumn 1234567)
  obtain rfl := Option.some.inj (hm.symm.trans hm')
  let t : Template := (⟨4, 0, 3, 2⟩, ⟨fun _ => (1, 2), fun _ => (3, 4), fun _ => 1234567⟩)
  have ht : t ∈ templates oneConnection (oneColumn 1234567) := by
    simp [templates, oneColumn, oneConnection, t]
  obtain ⟨t', ht'⟩ := exists_lastWith ht
  have hread := hrestores t ht
  rw [hkey, ht', mem_templates_oneColumn (lastWith_mem ht').1, map_some] at hread
  have hmag : ∀ v ∈ t.counters, v.natAbs < 2 ^ 53 := by
    intro v hv
    rw [mem_counters_oneColumn ht hv]
    decide
  have hsix := (read_eq_iff hmag).mp (Option.some.inj hread) 1234567
    (List.mem_map.mpr ⟨0, mem_range.mpr (by decide), rfl⟩)
  exact absurd ((rounded_eq_iff 1234567).mpr hsix) (by decide)

end Compass.Catalog
