/-
The blocks of a file are read into its lines.

A block is cut behind the last line delimiter of the buffer, so it is made of
whole lines (`exists_cut`), and a line is read alike in every block
(`getRow_line`). What is left at the end of the file is a line without a line
delimiter: its last field is not taken, for a field is taken at its end only
(`getRow_last`).
-/
import Compass.Import.Proofs.Delimited
import Compass.Import.Proofs.GetRow

namespace Compass.Import.CopyParams

open List

variable {params : CopyParams} {isArray : Nat → Bool} {bufferSize : Nat}

-- ======== one line

theorem scan_of_not_eol (s : RowScan) {c : UInt8} (hc : params.isEol c = false) (t : Text) :
    params.scan isArray s (c :: t)
      = params.scan isArray (params.step isArray s c t.head?).1 t := by
  have hgoes : (params.step isArray s c t.head?).2 = false := by
    simp only [step, hc, Bool.false_and]
    split_ifs <;> rfl
  rw [scan]
  generalize params.step isArray s c t.head? = r at *
  obtain ⟨s', ends⟩ := r
  subst hgoes
  rfl

theorem ne_of_eol {c e : UInt8} (hc : params.isEol c = false) (he : params.isEol e = true) :
    e ≠ c := by
  rintro rfl
  rw [hc] at he
  cases he

section

variable (hsep : params.SeparatesLines)
include hsep

/-- What is in front of a line end is scanned alike whatever follows. -/
theorem scan_core {core : Text}
    (hcore : ∀ c ∈ core, params.isEol c = false) {e : UInt8} (he : params.isEol e = true)
    (s : RowScan) (t : Text) : params.scan isArray s (core ++ e :: t)
      = params.scan isArray (params.scan isArray s core).1 (e :: t) := by
  induction core generalizing s with
  | nil => rfl
  | cons c core ih =>
    rw [forall_mem_cons] at hcore
    have hnext : params.step isArray s c (core ++ e :: t).head?
        = params.step isArray s c core.head? := by
      cases core with
      | nil => simp [step, ne_of_eol (hsep params.quote (by simp)) he]
      | cons d core => rfl
    rw [cons_append, scan_of_not_eol s hcore.1, scan_of_not_eol s hcore.1, hnext, ih hcore.2]

omit hsep in
/-- No byte in front of a line end is escaped by the one before it. -/
theorem scan_core_skip {core : Text} (hcore : ∀ c ∈ core, params.isEol c = false) {s : RowScan}
    (hs : s.skip = true → core ≠ []) : (params.scan isArray s core).1.skip = false := by
  induction core generalizing s with
  | nil => exact Bool.eq_false_iff.2 fun h => hs h rfl
  | cons c core ih =>
    rw [forall_mem_cons] at hcore
    have hskip : (params.step isArray s c core.head?).1.skip = true → core ≠ [] := by
      rintro hskip rfl
      revert hskip
      simp only [step]
      split_ifs <;> simp_all [RowScan.start]
    rw [scan_of_not_eol s hcore.1]
    exact ih hcore.2 hskip

omit hsep in
theorem scan_core_rest {core : Text} (hcore : ∀ c ∈ core, params.isEol c = false) (s : RowScan) :
    (params.scan isArray s core).2 = [] := by
  induction core generalizing s with
  | nil => rfl
  | cons c core ih =>
    rw [forall_mem_cons] at hcore
    rw [scan_of_not_eol s hcore.1]
    exact ih hcore.2 _

/-- A line end outside of quotes and arrays ends the row. -/
theorem scan_eol {s : RowScan} (hskip : s.skip = false)
    (hquote : s.inQuote = false) (harray : s.inArray = false) {e : UInt8}
    (he : params.isEol e = true) (t : Text) :
    params.scan isArray s (e :: t)
      = ({ RowScan.start with row := s.row ++ [params.fieldValue s e] },
        t.dropWhile params.isEol) := by
  have hspecial : ∀ c ∈ [params.quote, params.escape, params.arrayBegin, params.arrayEnd],
      e ≠ c := fun c hc => ne_of_eol (hsep c hc) he
  simp only [forall_mem_cons] at hspecial
  obtain ⟨h₁, h₂, h₃, h₄, -⟩ := hspecial
  simp [scan, step, hskip, hquote, harray, he, h₁, h₂, h₃, h₄]

omit hsep in
theorem unescape_last {last last' : UInt8} (h : last ≠ params.quote) (h' : last' ≠ params.quote)
    (t : Text) : params.unescape last t = params.unescape last' t := by
  fun_induction params.unescape last t with
  | case1 => rfl
  | case2 c hc => exact absurd hc.2 h
  | case3 c hc => simp [unescape, h']
  | case4 c d cs hc ih => rw [unescape, if_pos hc, ih]
  | case5 c d cs hc ih => rw [unescape, if_neg hc, ih]

section

variable {l : Line} (hl : params.IsLine isArray l)
include hl

/-- A line is read alike whatever follows it. -/
theorem scan_line {e : UInt8} (he : params.isEol e = true) (t : Text) :
    params.scan isArray .start (l.core ++ e :: t)
      = ({ RowScan.start with row := params.lineRow isArray l }, t.dropWhile params.isEol) := by
  have hskip : (params.scan isArray .start l.core).1.skip = false :=
    scan_core_skip hl.core nofun
  have hrow : ∀ e, params.isEol e = true → ∀ t, params.scan isArray .start (l.core ++ e :: t)
      = ({ RowScan.start with row := (params.scan isArray .start l.core).1.row
            ++ [params.fieldValue (params.scan isArray .start l.core).1 e] },
          t.dropWhile params.isEol) := fun e he t => by
    rw [scan_core hsep hl.core he, scan_eol hsep hskip hl.inQuote hl.inArray he]
  have hvalue : ∀ s, params.fieldValue s e = params.fieldValue s params.lineDelim := by
    intro s
    have hquote := hsep params.quote (by simp)
    unfold fieldValue
    rw [unescape_last (ne_of_eol hquote he) (ne_of_eol hquote eol_lineDelim)]
  rw [lineRow, getRow, hrow _ eol_lineDelim, hrow e he, hvalue]

theorem getRow_line {t : Text} (ht : t.dropWhile params.isEol = t) :
    params.getRow isArray (params.lineText l ++ t) = (params.lineRow isArray l, t) := by
  obtain ⟨e, es, hends⟩ : ∃ e es, l.ends ++ [params.lineDelim] = e :: es := by
    cases l.ends <;> exact ⟨_, _, rfl⟩
  have heol : ∀ c ∈ e :: es, params.isEol c = true := by
    rw [← hends]
    simp only [forall_mem_append, forall_mem_singleton]
    exact ⟨fun c hc => (hl.ends c hc).1, eol_lineDelim⟩
  rw [forall_mem_cons] at heol
  rw [lineText, hends, append_assoc, cons_append, getRow, scan_line hsep hl heol.1,
    dropWhile_append_of_pos heol.2, ht]

/-- A line at the end of the file has its last field only if it has a line
end. -/
theorem getRow_last : (params.getRow isArray (l.core ++ l.ends)).2 = []
      ∧ ((params.getRow isArray (l.core ++ l.ends)).1 = params.lineRow isArray l
        ↔ l.ends ≠ []) := by
  cases hends : l.ends with
  | nil =>
    rw [append_nil]
    refine ⟨scan_core_rest hl.core _, iff_of_false (fun h => ?_) fun h => h rfl⟩
    have hskip : (params.scan isArray .start l.core).1.skip = false :=
      scan_core_skip hl.core nofun
    rw [lineRow, getRow, getRow, scan_core hsep hl.core eol_lineDelim,
      scan_eol hsep hskip hl.inQuote hl.inArray eol_lineDelim] at h
    have hlength := congrArg length h
    simp at hlength
  | cons e es =>
    have heol : ∀ c ∈ e :: es, params.isEol c = true := by
      rw [← hends]
      exact fun c hc => (hl.ends c hc).1
    rw [forall_mem_cons] at heol
    rw [getRow, scan_line hsep hl heol.1, dropWhile_eq_nil_iff.2 heol.2]
    exact ⟨rfl, iff_of_true rfl (by simp)⟩

end

-- ======== one block

theorem reads_lines {lines : List Line}
    (hlines : ∀ l ∈ lines, params.IsLine isArray l) {t : Text} {rows : List (List Text)}
    (ht : t.dropWhile params.isEol = t) (hrows : params.Reads isArray t rows) :
    params.Reads isArray (lines.flatMap params.lineText ++ t)
        (lines.map (params.lineRow isArray) ++ rows)
      ∧ (lines.flatMap params.lineText ++ t).dropWhile params.isEol
        = lines.flatMap params.lineText ++ t := by
  induction lines with
  | nil => exact ⟨hrows, ht⟩
  | cons l lines ih =>
    rw [forall_mem_cons] at hlines
    obtain ⟨hreads, hdrop⟩ := ih hlines.2
    obtain ⟨c, core, hcore⟩ := exists_cons_of_ne_nil hlines.1.nonempty
    have heol := hlines.1.core c (by simp [hcore])
    rw [flatMap_cons, append_assoc]
    refine ⟨.cons ?_ (getRow_line hsep hlines.1 hdrop) hreads, ?_⟩
    · simp [lineText]
    · rw [lineText, hcore, cons_append, cons_append,
        dropWhile_cons_of_neg (by simp [heol])]

end

theorem findEnd_append_cons (lineDelim : UInt8) (s t : Text) :
    findEnd lineDelim (s ++ lineDelim :: t) = s.length + 1 + findEnd lineDelim t := by
  simp only [findEnd, List.rdropWhile, reverse_append, reverse_cons, append_assoc,
    List.dropWhile_append, singleton_append, List.isEmpty_iff]
  split_ifs with h
  · rw [h]
    simp
  · simp
    omega

theorem lineDelim_notMem {l : Line} (hl : params.IsLine isArray l) :
    params.lineDelim ∉ l.core ++ l.ends := by
  rw [mem_append]
  rintro (h | h)
  · exact ne_of_eol (hl.core _ h) eol_lineDelim rfl
  · exact (hl.ends _ h).2 rfl

/-- The cut of a buffer is between two lines. -/
theorem exists_cut (size : Nat) {lines : List Line} {rest : Text}
    (hlines : ∀ l ∈ lines, params.IsLine isArray l) (hrest : params.lineDelim ∉ rest) :
    ∃ before after, lines = before ++ after
      ∧ findEnd params.lineDelim ((lines.flatMap params.lineText ++ rest).take size)
        = (before.flatMap params.lineText).length
      ∧ (lines ≠ [] → (∀ l ∈ lines, (params.lineText l).length ≤ size) → before ≠ []) := by
  induction lines generalizing size with
  | nil =>
    refine ⟨[], [], rfl, ?_, fun h _ => h⟩
    exact Nat.eq_zero_of_not_pos fun h => hrest (mem_of_mem_take (findEnd_pos.1 h))
  | cons l lines ih =>
    rw [forall_mem_cons] at hlines
    have hlength : (params.lineText l).length = (l.core ++ l.ends).length + 1 := by
      simp [lineText]
      omega
    by_cases hsize : (params.lineText l).length ≤ size
    · obtain ⟨before, after, rfl, hcut, -⟩ := ih (size - (params.lineText l).length) hlines.2
      refine ⟨l :: before, after, rfl, ?_, fun _ _ => cons_ne_nil _ _⟩
      rw [flatMap_cons, append_assoc, take_append, take_of_length_le hsize,
        flatMap_cons, length_append, ← hcut, hlength, lineText, ← append_assoc,
        append_assoc _ [_], singleton_append, findEnd_append_cons]
    · refine ⟨[], l :: lines, rfl, ?_, fun _ hall => absurd (hall l (by simp)) hsize⟩
      refine Nat.eq_zero_of_not_pos fun h => lineDelim_notMem hlines.1 ?_
      have hmem := findEnd_pos.1 h
      rw [flatMap_cons, append_assoc, take_append_of_le_length (by omega),
        lineText, ← append_assoc, take_append_of_le_length (by omega)] at hmem
      exact mem_of_mem_take hmem

-- ======== the file

theorem imports_nil (eof : Bool) :
    params.Imports isArray bufferSize (.leftOf bufferSize [] eof) [] :=
  .done take_nil

/-- At the end of the file all that is left is one block. -/
theorem imports_eof {left : Text} (hshort : left.length < bufferSize) {rows : List (List Text)}
    (hrows : params.Reads isArray left rows) :
    params.Imports isArray bufferSize (.leftOf bufferSize left true) rows := by
  have htake : left.take bufferSize = left := take_of_length_le hshort.le
  have hbuffer : (Reader.leftOf bufferSize left true).buffer = left := htake
  have hend : (Reader.leftOf bufferSize left true).endPos params.lineDelim = left.length :=
    congrArg length htake
  have hblock : (Reader.leftOf bufferSize left true).block params.lineDelim = left := by
    rw [Reader.block, hend, hbuffer, take_length]
  by_cases hempty : left = []
  · subst hempty
    cases hrows with
    | nil => exact imports_nil true
    | cons hne => exact absurd rfl hne
  · rw [← append_nil rows]
    refine .more (by rwa [hbuffer]) (by rwa [hblock]) ?_
    rw [Reader.next_leftOf (by omega) fun _ => hshort, hend, drop_length]
    exact imports_nil _

theorem imports_lines (hsep : params.SeparatesLines) {t : Text} {rows : List (List Text)}
    (ht : t.dropWhile params.isEol = t) (hrows : params.Reads isArray t rows)
    (hdelim : params.lineDelim ∉ t) (hsize : t.length < bufferSize) {lines : List Line}
    (hlines : ∀ l ∈ lines, params.IsLine isArray l ∧ (params.lineText l).length < bufferSize) :
    params.Imports isArray bufferSize
      (.leftOf bufferSize (lines.flatMap params.lineText ++ t) false)
      (lines.map (params.lineRow isArray) ++ rows) := by
  induction hn : lines.length using Nat.strong_induction_on generalizing lines with
  | h n ih =>
    have hreads := reads_lines hsep (fun l hl => (hlines l hl).1) ht hrows
    obtain ⟨before, after, hcat, hcut, hbefore⟩ := exists_cut bufferSize
      (fun l hl => (hlines l hl).1) hdelim
    have htext : lines.flatMap params.lineText ++ t
        = before.flatMap params.lineText ++ (after.flatMap params.lineText ++ t) := by
      rw [hcat, flatMap_append, append_assoc]
    have hend : (Reader.leftOf bufferSize (lines.flatMap params.lineText ++ t) false).endPos
        params.lineDelim = (before.flatMap params.lineText).length := hcut
    have hlines' : (∀ l ∈ before, params.IsLine isArray l)
        ∧ ∀ l ∈ after, params.IsLine isArray l ∧ (params.lineText l).length < bufferSize := by
      rw [hcat, forall_mem_append] at hlines
      exact ⟨fun l hl => (hlines.1 l hl).1, hlines.2⟩
    by_cases hempty : lines.flatMap params.lineText ++ t = []
    · rw [hempty] at hreads ⊢
      generalize lines.map (params.lineRow isArray) ++ rows = all at hreads
      cases hreads.1 with
      | nil => exact imports_nil false
      | cons hne => exact absurd rfl hne
    have hblock : (Reader.leftOf bufferSize (lines.flatMap params.lineText ++ t) false).block
        params.lineDelim = before.flatMap params.lineText := by
      have hle := (Reader.leftOf bufferSize (lines.flatMap params.lineText ++ t) false).endPos_le
        params.lineDelim
      rw [Reader.block, hend]
      rw [hend] at hle
      simp only [Reader.leftOf, length_take, Nat.le_min] at hle ⊢
      rw [take_take, min_eq_left hle.1, htext, take_left']
      rfl
    have hblockReads := (reads_lines hsep hlines'.1 rfl .nil).1
    rw [append_nil, append_nil] at hblockReads
    rw [hcat, map_append, append_assoc, ← hcat]
    refine .more ?_ (by rwa [hblock]) ?_
    · rw [Reader.leftOf, ne_eq, take_eq_nil_iff]
      rintro (h | h)
      · omega
      · exact hempty h
    have heof : false = true → (lines.flatMap params.lineText ++ t).length < bufferSize :=
      fun h => absurd h Bool.false_ne_true
    rw [Reader.next_leftOf (by omega) heof, hend, htext, drop_left]
    by_cases hshort : (after.flatMap params.lineText ++ t).length < bufferSize
    · rw [decide_eq_true hshort]
      exact imports_eof hshort
        (reads_lines hsep (fun l hl => (hlines'.2 l hl).1) ht hrows).1
    · rw [decide_eq_false hshort]
      refine ih after.length ?_ hlines'.2 rfl
      have hne : lines ≠ [] := by
        rintro rfl
        obtain ⟨-, rfl⟩ := append_eq_nil_iff.1 hcat.symm
        exact hshort hsize
      have hpos := length_pos_iff.2 (hbefore hne fun l hl => (hlines l hl).2.le)
      rw [← hn, hcat, length_append]
      omega

theorem Reads.unique {t : Text} {rows rows' : List (List Text)}
    (h : params.Reads isArray t rows) (h' : params.Reads isArray t rows') : rows = rows' := by
  induction h generalizing rows' with
  | nil =>
    cases h' with
    | nil => rfl
    | cons hne => exact absurd rfl hne
  | cons hne hget _ ih =>
    cases h' with
    | nil => exact absurd rfl hne
    | cons _ hget' hnext' =>
      rw [hget, Prod.mk.injEq] at hget'
      obtain ⟨rfl, rfl⟩ := hget'
      rw [ih hnext']

theorem Imports.unique {s : Reader} {rows rows' : List (List Text)}
    (h : params.Imports isArray bufferSize s rows)
    (h' : params.Imports isArray bufferSize s rows') : rows = rows' := by
  induction h generalizing rows' with
  | done hempty =>
    cases h' with
    | done => rfl
    | more hne => exact absurd hempty hne
  | more hne hrows _ ih =>
    cases h' with
    | done hempty => exact absurd hempty hne
    | more _ hrows' hnext' => rw [hrows.unique hrows', ih hnext']

/-- The blocks of a file are read into the fields of its lines if its last
byte is a line end, and only then. -/
theorem importDelimited_lines_iff (hsep : params.SeparatesLines) {lines : List Line}
    {last : Option Line} (hlines : ∀ l ∈ lines ++ last.toList,
      params.IsLine isArray l ∧ (params.lineText l).length < bufferSize) :
    params.Imports isArray bufferSize (.start bufferSize (params.fileText lines last))
        ((lines ++ last.toList).map (params.lineRow isArray))
      ↔ ∀ l ∈ last, l.ends ≠ [] := by
  rw [forall_mem_append] at hlines
  cases last with
  | none =>
    refine iff_of_true ?_ nofun
    rw [fileText, Option.elim_none, Option.toList_none, append_nil, append_nil]
    cases lines with
    | nil => exact imports_nil false
    | cons l lines =>
      have hpos := Nat.zero_lt_of_lt (hlines.1 l (by simp)).2
      have hall := imports_lines hsep rfl .nil not_mem_nil hpos hlines.1
      rwa [append_nil, append_nil] at hall
  | some l =>
    have hl := hlines.2 l (by simp)
    have hlength : (l.core ++ l.ends).length < (params.lineText l).length := by
      simp [lineText]
    have hdrop : (l.core ++ l.ends).dropWhile params.isEol = l.core ++ l.ends := by
      obtain ⟨c, core, hcore⟩ := exists_cons_of_ne_nil hl.1.nonempty
      rw [hcore, cons_append,
        dropWhile_cons_of_neg (by simp [hl.1.core c (by simp [hcore])])]
    obtain ⟨hrest, hrow⟩ := getRow_last hsep hl.1
    have hreads : params.Reads isArray (l.core ++ l.ends)
        [(params.getRow isArray (l.core ++ l.ends)).1] :=
      .cons (by simp [hl.1.nonempty]) (congrArg (Prod.mk _) hrest) .nil
    have hall := imports_lines hsep hdrop hreads (lineDelim_notMem hl.1)
      (hlength.trans hl.2) hlines.1
    rw [Option.toList_some, map_append, map_singleton]
    have hends : (∀ l' ∈ some l, l'.ends ≠ []) ↔ l.ends ≠ [] := by simp
    rw [hends, ← hrow]
    constructor
    · intro h
      simpa using (h.unique hall).symm
    · intro h
      rw [h] at hall
      exact hall

theorem plainCsv_separatesLines : plainCsv.SeparatesLines := by
  simp only [SeparatesLines, forall_mem_cons]
  exact ⟨rfl, rfl, rfl, rfl, forall_mem_nil _⟩

/-- Two lines in a buffer for less than both. -/
theorem importDelimited_lines_two : plainCsv.Imports (fun _ => false) 3
    (.start 3 [97, 10, 98, 10]) [[[97]], [[98]]] := by
  refine (@importDelimited_lines_iff _ _ _ plainCsv_separatesLines [⟨[97], []⟩, ⟨[98], []⟩] none
    ?_).2 nofun
  refine forall_mem_cons.2 ⟨⟨⟨by decide, forall_mem_singleton.2 rfl, nofun, by decide,
    by decide⟩, by decide⟩, forall_mem_singleton.2
      ⟨⟨by decide, forall_mem_singleton.2 rfl, nofun, by decide, by decide⟩, by decide⟩⟩

/-- The last line has no line end: its only field is lost. -/
theorem importDelimited_last_field : ¬ plainCsv.Imports (fun _ => false) 3
    (.start 3 [97]) [[[97]]] := by
  intro h
  have hreads : plainCsv.Reads (fun _ => false) [97] [[]] := .cons (by decide) rfl .nil
  have hall := h.unique (imports_lines plainCsv_separatesLines rfl hreads (by decide)
    (by decide) (forall_mem_nil _))
  revert hall
  decide

-- ======== files that were written

/-- A row that can be written on one line and read again. -/
structure Writable (params : CopyParams) (bufferSize : Nat) (row : List Text) : Prop where
  nonempty : row ≠ []
  eol : ∀ f ∈ row, ∀ c ∈ f, params.isEol c = false
  quotes : ∀ f ∈ row, f ≠ [] → params.AllQuotes f = false
  short : (params.encodeRow row).length < bufferSize

/-- The text of a row is in front of its line delimiter. -/
theorem exists_core (hcsv : params.Csv isArray) {row : List Text} (hrow : row ≠ [])
    (heol : ∀ f ∈ row, ∀ c ∈ f, params.isEol c = false) :
    ∃ core, core ≠ [] ∧ (∀ c ∈ core, params.isEol c = false)
      ∧ core ++ [params.lineDelim] = params.encodeRow row := by
  have hfield : ∀ f : Text, (∀ c ∈ f, params.isEol c = false) →
      ∀ c ∈ params.encodeField f, params.isEol c = false := by
    intro f hf c hc
    simp only [encodeField, doubled, mem_cons, mem_append, mem_flatMap, not_mem_nil, or_false] at hc
    obtain rfl | ⟨d, hd, hc⟩ | rfl := hc
    · exact hcsv.quote_eol
    · split_ifs at hc <;> simp at hc <;> exact hc ▸ hf d hd
    · exact hcsv.quote_eol
  induction row with
  | nil => exact absurd rfl hrow
  | cons f fs ih =>
    rw [forall_mem_cons] at heol
    cases fs with
    | nil => exact ⟨params.encodeField f, cons_ne_nil _ _, hfield f heol.1, rfl⟩
    | cons g fs =>
      obtain ⟨core, -, hcore, htext⟩ := ih (cons_ne_nil _ _) heol.2
      refine ⟨params.encodeField f ++ params.delimiter :: core, cons_ne_nil _ _, ?_, ?_⟩
      · simp only [forall_mem_append, forall_mem_cons]
        exact ⟨hfield f heol.1, hcsv.delimiter_eol, hcore⟩
      · show _ = params.encodeField f ++ params.delimiter :: params.encodeRow (g :: fs)
        rw [← htext, append_assoc, cons_append]

/-- What is written for a row is a line of it. -/
theorem exists_line (hcsv : params.Csv isArray) (hsep : params.SeparatesLines) {row : List Text}
    (hw : params.Writable bufferSize row) :
    ∃ l, params.IsLine isArray l ∧ params.lineText l = params.encodeRow row
      ∧ params.lineRow isArray l = row := by
  obtain ⟨core, hne, hcore, htext⟩ := exists_core hcsv hw.nonempty hw.eol
  have hscan := scan_encodeRow hcsv hw.nonempty [] []
  have hread : (row.map fun f => if params.AllQuotes f then f.dropLast else f) = row := by
    refine (map_congr_left fun f hf => ?_).trans (map_id' row)
    cases f with
    | nil => exact ite_self _
    | cons c f => rw [hw.quotes _ hf (cons_ne_nil _ _), if_neg Bool.false_ne_true]
  rw [hread, append_nil, ← htext] at hscan
  have hskip : (params.scan isArray .start core).1.skip = false := scan_core_skip hcore fun _ => hne
  -- Within quotes or an array the line delimiter would be part of a field.
  have hends : (params.scan isArray .start core).1.inQuote = false
      ∧ (params.scan isArray .start core).1.inArray = false := by
    have hfield := congrArg (·.1.field) hscan
    rw [show { RowScan.start with row := [] } = RowScan.start from rfl,
      scan_core hsep hcore eol_lineDelim] at hfield
    have hspecial : ∀ c ∈ [params.quote, params.escape, params.arrayBegin, params.arrayEnd],
        params.lineDelim ≠ c := fun c hc => ne_of_eol (hsep c hc) eol_lineDelim
    generalize params.scan isArray .start core = s at hskip hfield ⊢
    by_contra hopen
    simp only [forall_mem_cons] at hspecial
    simp [scan, step, hskip, hspecial, hopen, hcsv.threads, RowScan.start] at hfield
  exact ⟨⟨core, []⟩, ⟨hne, hcore, forall_mem_nil _, hends.1, hends.2⟩, htext,
    congrArg (·.1.row) hscan⟩

/-- A file of quoted fields is imported as it was written, whatever the
buffer. -/
theorem importDelimited_encode (hcsv : params.Csv isArray) (hsep : params.SeparatesLines)
    {rows : List (List Text)} (hrows : ∀ row ∈ rows, params.Writable bufferSize row) :
    params.Imports isArray bufferSize (.start bufferSize (params.encode rows)) rows := by
  obtain ⟨lines, hlines, htext, hread⟩ : ∃ lines : List Line, (∀ l ∈ lines,
      params.IsLine isArray l ∧ (params.lineText l).length < bufferSize)
        ∧ lines.flatMap params.lineText = params.encode rows
        ∧ lines.map (params.lineRow isArray) = rows := by
    induction rows with
    | nil => exact ⟨[], forall_mem_nil _, rfl, rfl⟩
    | cons row rows ih =>
      rw [forall_mem_cons] at hrows
      obtain ⟨l, hl, htext, hread⟩ := exists_line hcsv hsep hrows.1
      obtain ⟨lines, hlines, htexts, hreads⟩ := ih hrows.2
      refine ⟨l :: lines, forall_mem_cons.2 ⟨⟨hl, htext ▸ hrows.1.short⟩, hlines⟩, ?_, ?_⟩
      · rw [flatMap_cons, htext, htexts]
        rfl
      · rw [map_cons, hread, hreads]
  rw [← htext, ← hread]
  cases lines with
  | nil => exact imports_nil false
  | cons l lines =>
    have hall := imports_lines hsep rfl .nil not_mem_nil
      (Nat.zero_lt_of_lt (hlines l mem_cons_self).2) hlines
    rwa [append_nil, append_nil] at hall

/-- A row with a quote and a delimiter, in a buffer for less than two. -/
theorem importDelimited_encode_two : plainCsv.Imports (fun _ => false) 12
    (.start 12 (plainCsv.encode [[[97, 34], [44]], [[97, 34], [44]]]))
    [[[97, 34], [44]], [[97, 34], [44]]] :=
  importDelimited_encode plainCsv_csv plainCsv_separatesLines
    (forall_mem_cons.2 ⟨⟨by decide, by simp; decide, by decide, by decide⟩, forall_mem_singleton.2
      ⟨by decide, by simp; decide, by decide, by decide⟩⟩)

end Compass.Import.CopyParams
