/-
A file with quoted fields is read as it was written, but for fields of nothing
but quotes.

Quotes are taken in pairs from the left (`scan_encodeField`): the opening quote
goes with the first quote of the field, and the last quote of a run is what
turns quoting on. In a field that is all quotes nothing is left to turn it on.
The second pass finds one quote for each pair and takes one off at either end
(`fieldValue_encodeField`), which is one too many there.
-/
import Compass.Import.GetRow

namespace Compass.Import.CopyParams

open List

variable {params : CopyParams} {isArray : Nat → Bool}

@[simp] theorem doubled_nil : params.doubled [] = [] := rfl

theorem doubled_quote (f : Text) :
    params.doubled (params.quote :: f) = params.quote :: params.quote :: params.doubled f := by
  simp [doubled]

theorem doubled_of_ne {c : UInt8} (h : c ≠ params.quote) (f : Text) :
    params.doubled (c :: f) = c :: params.doubled f := by
  simp [doubled, h]

theorem encodeField_quote (f : Text) : params.encodeField (params.quote :: f)
    = params.quote :: params.quote :: params.encodeField f := by
  rw [encodeField, doubled_quote]
  rfl

/-- A field of quotes only. -/
def AllQuotes (params : CopyParams) (f : Text) : Bool :=
  f.all (· = params.quote)

@[simp] theorem allQuotes_cons (c : UInt8) (f : Text) : params.AllQuotes (c :: f)
    = (decide (c = params.quote) && params.AllQuotes f) := rfl

@[simp] theorem eol_lineDelim : params.isEol params.lineDelim = true := by
  simp [isEol]

theorem encode_ne_nil {row : List Text} (hrow : row ≠ []) (rows : List (List Text)) :
    params.encode (row :: rows) ≠ [] := by
  cases row with
  | nil => exact absurd rfl hrow
  | cons f fs => cases fs <;> exact cons_ne_nil _ _

-- ======== the scanner

section

variable (hcsv : params.Csv isArray)
include hcsv

variable {s : RowScan}

section

variable (hskip : s.skip = false)
include hskip

theorem scan_pair (t : Text) : params.scan isArray s (params.quote :: params.quote :: t)
      = params.scan isArray
        { s with field := s.field ++ [params.quote, params.quote], hasEscape := true } t := by
  simp [scan, step, hskip, hcsv.escape]

theorem scan_toggle {t : Text} (ht : t.head? ≠ some params.quote) :
    params.scan isArray s (params.quote :: t)
      = params.scan isArray { s with
          field := s.field ++ [params.quote]
          inQuote := !s.inQuote
          stripQuotes := s.stripQuotes || !s.inQuote } t := by
  simp [scan, step, hskip, hcsv.quoted, ht]

/-- Within quotes every other byte is part of the field. -/
theorem scan_inside (hquote : s.inQuote = true) {c : UInt8}
    (hc : c ≠ params.quote) (t : Text) : params.scan isArray s (c :: t)
      = params.scan isArray { s with field := s.field ++ [c] } t := by
  simp [scan, step, hskip, hquote, hc, hcsv.escape, hcsv.threads]

/-- From within the quotes to the closing quote. -/
theorem scan_doubled (hquote : s.inQuote = true) {t : Text}
    (ht : t.head? ≠ some params.quote) (f : Text) :
    params.scan isArray s (params.doubled f ++ params.quote :: t)
      = params.scan isArray { s with
          field := s.field ++ (params.doubled f ++ [params.quote])
          inQuote := false
          hasEscape := s.hasEscape || decide (params.quote ∈ f) } t := by
  induction f generalizing s with
  | nil =>
    rw [doubled_nil, nil_append, scan_toggle hcsv hskip ht]
    simp [hquote]
  | cons c f ih =>
    by_cases hc : c = params.quote
    · subst hc
      rw [doubled_quote, cons_append, cons_append, scan_pair hcsv hskip,
        ih (by exact hskip) (by exact hquote)]
      simp
    · rw [doubled_of_ne hc, cons_append, scan_inside hcsv hskip hquote hc,
        ih (by exact hskip) (by exact hquote)]
      simp [Ne.symm hc]

theorem scan_encodeField (hquote : s.inQuote = false) {t : Text}
    (ht : t.head? ≠ some params.quote) (f : Text) :
    params.scan isArray s (params.encodeField f ++ t)
      = params.scan isArray { s with
          field := s.field ++ params.encodeField f
          hasEscape := s.hasEscape || decide (params.quote ∈ f) || params.AllQuotes f
          stripQuotes := s.stripQuotes || !params.AllQuotes f } t := by
  induction f generalizing s with
  | nil =>
    rw [encodeField, doubled_nil, nil_append, cons_append, singleton_append, scan_pair hcsv hskip]
    simp [AllQuotes]
  | cons c f ih =>
    by_cases hc : c = params.quote
    · subst hc
      rw [encodeField_quote, cons_append, cons_append, scan_pair hcsv hskip,
        ih (by exact hskip) (by exact hquote)]
      simp
    · have hhead : (params.doubled (c :: f) ++ params.quote :: t).head?
          ≠ some params.quote := by
        rw [doubled_of_ne hc]
        simpa using hc
      rw [encodeField, cons_append, append_assoc, singleton_append,
        scan_toggle hcsv hskip hhead, scan_doubled hcsv (by exact hskip) (by simp [hquote]) ht]
      simp [hc, hquote]

end

-- ======== the field

theorem unescape_pair (last : UInt8) (cs : Text) :
    params.unescape last (params.quote :: params.quote :: cs)
      = params.quote :: params.unescape last cs := by
  rw [unescape, if_pos ⟨hcsv.escape.symm, rfl⟩]

theorem unescape_of_ne {c : UInt8} (last : UInt8) (hc : c ≠ params.quote) (cs : Text) :
    params.unescape last (c :: cs) = c :: params.unescape last cs := by
  rw [← hcsv.escape] at hc
  cases cs with
  | nil | cons d cs => simp [unescape, hc]

variable {last : UInt8}

theorem unescape_doubled (hlast : last ≠ params.quote) (f : Text) :
    params.unescape last (params.doubled f ++ [params.quote]) = f ++ [params.quote] := by
  induction f with
  | nil => rw [doubled_nil, nil_append, unescape, if_neg fun h => hlast h.2]
  | cons c f ih =>
    by_cases hc : c = params.quote
    · subst hc
      rw [doubled_quote, cons_append, cons_append, unescape_pair hcsv, ih]
      rfl
    · rw [doubled_of_ne hc, cons_append, unescape_of_ne hcsv last hc, ih]
      rfl

theorem unescape_encodeField (hlast : last ≠ params.quote) (f : Text) :
    params.unescape last (params.encodeField f)
      = params.quote :: if params.AllQuotes f then f else f ++ [params.quote] := by
  induction f with
  | nil => simp [encodeField, unescape_pair hcsv, unescape, AllQuotes]
  | cons c f ih =>
    by_cases hc : c = params.quote
    · subst hc
      rw [encodeField_quote, unescape_pair hcsv, ih]
      cases hall : params.AllQuotes f <;> simp [hall]
    · have hdoubled := unescape_doubled hcsv hlast (c :: f)
      rw [doubled_of_ne hc, cons_append] at hdoubled
      rw [encodeField, doubled_of_ne hc, cons_append, unescape, if_neg fun h => hc h.2, hdoubled]
      simp [hc]

/-- Nothing is trimmed off behind a quote. -/
theorem trimSpace_quotes {s : Text} (hhead : s.head? = some params.quote)
    (hlast : s.getLast? = some params.quote) : trimSpace s = s := by
  have hquote : isSpace params.quote = false := by
    have heol := hcsv.quote_eol
    simp only [isEol, Bool.or_eq_false_iff] at heol
    simp [isSpace, hcsv.quote_space, heol.1.2]
  obtain ⟨t, rfl⟩ := head?_eq_some_iff.1 hhead
  rw [trimSpace, dropWhile_cons_of_neg (by simp [hquote])]
  obtain ⟨t', ht'⟩ := getLast?_eq_some_iff.1 hlast
  rw [ht', rdropWhile_concat_neg _ _ _ (by simp [hquote])]

/-- A field of quotes only loses one of them. -/
theorem fieldValue_encodeField (hlast : last ≠ params.quote) (f : Text) (row : List Text) :
    params.fieldValue { RowScan.start with
        field := params.encodeField f
        hasEscape := decide (params.quote ∈ f) || params.AllQuotes f
        stripQuotes := !params.AllQuotes f
        row := row } last
      = if params.AllQuotes f then f.dropLast else f := by
  have hbody : (if decide (params.quote ∈ f) || params.AllQuotes f then
        params.unescape last (params.encodeField f) else params.encodeField f)
      = params.quote :: if params.AllQuotes f then f else f ++ [params.quote] := by
    split
    · exact unescape_encodeField hcsv hlast f
    · next h =>
        simp only [Bool.or_eq_true, decide_eq_true_eq, not_or, Bool.not_eq_true] at h
        have hplain : params.doubled f = f := by
          have hsingle : ∀ c ∈ f, (if c = params.quote then [c, c] else [c]) = [c] :=
            fun c hc => if_neg fun heq => h.1 (by rwa [← heq])
          rw [doubled, flatMap_congr hsingle, flatMap_singleton']
        rw [encodeField, hplain, h.2]
        rfl
  have hends : (params.quote :: if params.AllQuotes f then f else f ++ [params.quote]).getLast?
      = some params.quote := by
    cases hall : params.AllQuotes f with
    | false =>
      rw [if_neg Bool.false_ne_true, ← cons_append]
      exact getLast?_concat
    | true =>
      simp only [AllQuotes, all_eq_true, decide_eq_true_eq] at hall
      rw [if_pos rfl]
      cases hf : f.getLast? with
      | none => simp [getLast?_eq_none_iff.1 hf]
      | some c =>
        rw [getLast?_cons, hf, Option.getD_some, hall c (mem_of_getLast? hf)]
  unfold fieldValue
  rw [if_neg (by cases params.AllQuotes f <;> simp), hbody, trimSpace_quotes hcsv rfl hends,
    hcsv.quoted]
  simp only [head?_cons, Bool.true_and, decide_true, if_true, tail_cons]
  cases hall : params.AllQuotes f with
  | false => simp
  | true =>
    rw [getLast?_cons, hall] at hends
    cases f with
    | nil => rfl
    | cons c f =>
      have hlast' : (c :: f).getLast? = some params.quote := by
        simpa [getLast?_cons] using hends
      simp [hlast']

-- ======== the row

theorem scan_end (hskip : s.skip = false) (hquote : s.inQuote = false) (harray : s.inArray = false)
    {c : UInt8} (hc : c = params.delimiter ∨ c = params.lineDelim) (hne : c ≠ params.quote)
    (t : Text) : params.scan isArray s (c :: t) =
      if params.isEol c then
        ({ RowScan.start with row := s.row ++ [params.fieldValue s c] }, t.dropWhile params.isEol)
      else params.scan isArray
        { RowScan.start with row := s.row ++ [params.fieldValue s c] } t := by
  have hends : c = params.delimiter ∨ params.isEol c = true := by
    refine hc.imp_right ?_
    rintro rfl
    simp [isEol]
  have harrays : ∀ d ∈ [params.arrayBegin, params.arrayEnd],
      ¬ (c = d ∧ isArray s.row.length = true) := by
    rintro d hd ⟨rfl, hi⟩
    obtain ⟨h₁, h₂⟩ := hcsv.arrays _ hi c hd
    exact hc.elim h₁ h₂
  have hstep : params.step isArray s c t.head?
      = ({ RowScan.start with row := s.row ++ [params.fieldValue s c] }, params.isEol c) := by
    unfold step
    simp only [hskip, hcsv.escape, hne, hquote, harray, hends, Bool.false_eq_true, false_and,
      and_false, Bool.not_false, and_self, if_true, if_false,
      harrays params.arrayBegin (by simp), harrays params.arrayEnd (by simp)]
  rw [scan, hstep]
  cases params.isEol c <;> rfl

theorem scan_encodeRow {fs : List Text} (hne : fs ≠ []) (row : List Text) (t : Text) :
    params.scan isArray { RowScan.start with row := row } (params.encodeRow fs ++ t)
      = ({ RowScan.start with
          row := row ++ fs.map fun f => if params.AllQuotes f then f.dropLast else f },
        t.dropWhile params.isEol) := by
  have heol : params.lineDelim ≠ params.quote := by
    intro heq
    have hquote := hcsv.quote_eol
    rw [← heq, eol_lineDelim] at hquote
    cases hquote
  induction fs generalizing row with
  | nil => exact absurd rfl hne
  | cons f fs ih =>
    cases fs with
    | nil =>
      rw [encodeRow, append_assoc, singleton_append,
        scan_encodeField hcsv rfl rfl (by simpa using heol),
        scan_end hcsv (by rfl) (by rfl) (by rfl) (.inr rfl) heol, if_pos eol_lineDelim]
      simp [RowScan.start, ← fieldValue_encodeField hcsv heol f row]
    | cons g fs =>
      rw [encodeRow, append_assoc, cons_append,
        scan_encodeField hcsv rfl rfl (by simpa using hcsv.delimiter_ne),
        scan_end hcsv (by rfl) (by rfl) (by rfl) (.inl rfl) hcsv.delimiter_ne,
        if_neg (by simp [hcsv.delimiter_eol])]
      have hfield := fieldValue_encodeField hcsv hcsv.delimiter_ne f row
      simp only [RowScan.start, nil_append, Bool.false_or] at hfield ih ⊢
      rw [hfield, ih (by simp)]
      simp
      intro h
      cases h

/-- A row starts with a quote, which ends no line. -/
theorem dropWhile_encode {rows : List (List Text)} (hrows : ∀ row ∈ rows, row ≠ []) :
    (params.encode rows).dropWhile params.isEol = params.encode rows := by
  cases rows with
  | nil => rfl
  | cons row rows =>
    obtain ⟨t, ht⟩ : ∃ t, params.encodeRow row = params.quote :: t := by
      cases row with
      | nil => exact absurd rfl (hrows [] (by simp))
      | cons f fs => cases fs <;> exact ⟨_, rfl⟩
    rw [encode, flatMap_cons, ht, cons_append, dropWhile_cons_of_neg (by simp [hcsv.quote_eol])]

theorem getRow_encode {row : List Text} {rows : List (List Text)} (hrow : row ≠ [])
    (hrows : ∀ row ∈ rows, row ≠ []) :
    params.getRow isArray (params.encode (row :: rows))
      = (row.map fun f => if params.AllQuotes f then f.dropLast else f, params.encode rows) := by
  have hscan := scan_encodeRow hcsv hrow [] (params.encode rows)
  rw [dropWhile_encode hcsv hrows] at hscan
  rw [getRow, encode, flatMap_cons, ← encode]
  rw [show RowScan.start = { RowScan.start with row := [] } from rfl, hscan]
  simp

end

-- ======== the round trip

/-- The file is read as it was written if no field is made of quotes only, and
only then. -/
theorem getRow_roundTrips_iff (hcsv : params.Csv isArray) {rows : List (List Text)}
    (hrows : ∀ row ∈ rows, row ≠ []) :
    params.RoundTrips isArray rows
      ↔ ∀ row ∈ rows, ∀ f ∈ row, f ≠ [] → params.AllQuotes f = false := by
  have hfield : ∀ f : Text, (if params.AllQuotes f then f.dropLast else f) = f
      ↔ (f ≠ [] → params.AllQuotes f = false) := by
    intro f
    cases hall : params.AllQuotes f with
    | false => simp
    | true =>
      cases f with
      | nil => simp
      | cons c f =>
        refine iff_of_false (fun h => ?_) fun h => Bool.noConfusion (h (by simp))
        have hlength := congrArg List.length h
        simp at hlength
  constructor
  · intro h row hmem f hf
    obtain ⟨before, after, rfl⟩ := append_of_mem hmem
    simp only [forall_mem_append, forall_mem_cons] at hrows
    have heach := h.each before row after rfl
    rw [getRow_encode hcsv hrows.2.1 hrows.2.2, Prod.mk.injEq] at heach
    exact (hfield f).1 (map_inj_left.1 (heach.1.trans (map_id' row).symm) f hf)
  · intro h
    have hread : ∀ row ∈ rows, (row.map fun f => if params.AllQuotes f then f.dropLast else f)
        = row := by
      intro row hrow
      rw [map_congr_left fun f hf => (hfield f).2 (h row hrow f hf), map_id']
    refine ⟨?_, ?_⟩
    · rintro before row after rfl
      simp only [forall_mem_append, forall_mem_cons] at hrows hread
      rw [getRow_encode hcsv hrows.2.1 hrows.2.2, hread.2.1]
    · clear hfield h
      induction rows with
      | nil => exact .nil
      | cons row rows ih =>
        rw [forall_mem_cons] at hrows hread
        refine .cons (encode_ne_nil hrows.1 rows) ?_ (ih hrows.2 hread.2)
        rw [getRow_encode hcsv hrows.1 hrows.2, hread.1]

def plainCsv : CopyParams := ⟨44, 34, 34, 10, 123, 125, true, 1⟩

theorem plainCsv_csv : plainCsv.Csv fun _ => false where
  quoted := rfl
  threads := rfl
  escape := rfl
  delimiter_ne := by decide
  delimiter_eol := by decide
  quote_eol := by decide
  quote_space := by decide
  arrays := by simp

/-- A quote, a comma and a line end within a field. -/
theorem getRow_roundTrips_mixed :
    plainCsv.RoundTrips (fun _ => false) [[[34, 97], [44, 10]], [[]]] := by
  refine (getRow_roundTrips_iff plainCsv_csv (by decide)).2 ?_
  decide

/-- A field of one quote is written as four, and read as empty. -/
theorem getRow_loses_quote : ¬ plainCsv.RoundTrips (fun _ => false) [[[34]]] := by
  intro h
  have heach := h.each [] [[34]] [] rfl
  revert heach
  decide

end Compass.Import.CopyParams
