/-
Where the references of accepted dictionary definitions lead.

A definition that is accepted within its table refers to a column in front
of its own (`order_of_validate`), and that stays so while the elements are
seen (`Accepted`). So the references cannot run in a circle, and whatever
the order of the definitions, each hop of `compress_reference_path` leads to
one with fewer definitions in front of it (`rank`): the hops, as many as
there are definitions, are enough.
-/
import Mathlib.Data.List.Count
import Mathlib.Logic.Relation
import Compass.Catalog.SharedDictionary

namespace Compass.Catalog

open List SharedDictFault

-- ======== what is accepted

variable {catalog : String → Option (List ColumnDescriptor)} {table : String}
  {elements : List TableElement} {d : SharedDictionaryDef} {seen seen' : SeenSoFar}

/-- A definition that is accepted refers to a column in front of its own. -/
theorem order_of_validate {columns : List ColumnDescriptor}
    (h : validateSharedDictionaryOrder table d columns = .ok ()) :
    [d.foreignColumn, d.column].Sublist (namesOf columns) := by
  unfold validateSharedDictionaryOrder at h
  dsimp only at h
  split at h
  · cases h
  next hne =>
  split at h
  · cases h
  cases hdrop : columns.reverse.dropWhile (·.columnName ≠ d.column) with
  | nil =>
    rw [hdrop] at h
    cases h
  | cons c rest =>
    have hcol := head?_dropWhile_not (·.columnName ≠ d.column) columns.reverse
    rw [hdrop] at h hcol
    have hname : c.columnName = d.column := by simpa using hcol
    dsimp only at h
    split at h
    · next hany =>
        have hsplit := takeWhile_append_dropWhile (p := (·.columnName ≠ d.column))
          (l := columns.reverse)
        rw [hdrop] at hsplit
        have hfront : d.foreignColumn ∈ namesOf rest.reverse := by
          rw [any_cons, hname, decide_eq_false hne, Bool.false_or] at hany
          simpa [namesOf] using hany
        rw [← columns.reverse_reverse, ← hsplit, reverse_append, reverse_cons,
          append_assoc, namesOf, map_append]
        refine (singleton_sublist.2 hfront).append (singleton_sublist.2 ?_)
        simp [hname]
    · cases h

theorem validate_ok (hfresh : catalog table = none)
    (h : validateSharedDictionary catalog table elements d seen = .ok ()) :
    d.column ∉ seen.2.map SharedDictionaryDef.column ∧
      (d.foreignTable = table → [d.foreignColumn, d.column].Sublist (namesOf seen.1)) := by
  obtain ⟨_, -, h⟩ := Results.bind_eq_ok.1 h
  obtain ⟨_, -, h⟩ := Results.bind_eq_ok.1 h
  obtain ⟨_, hreference, h⟩ := Results.bind_eq_ok.1 h
  split at h
  · cases h
  next hnew =>
  refine ⟨fun hmem => ?_, fun heq => ?_⟩
  · obtain ⟨e, he, hcolumn⟩ := mem_map.1 hmem
    exact hnew (any_eq_true.2 ⟨e, he, decide_eq_true hcolumn⟩)
  · unfold validateReference at hreference
    rw [heq, hfresh] at hreference
    simp only [ne_eq, not_true_eq_false, if_false] at hreference
    obtain ⟨_, -, horder⟩ := Results.bind_eq_ok.1 hreference
    exact order_of_validate horder

/-- What holds of the columns and definitions that were seen. -/
structure Accepted (table : String) (seen : SeenSoFar) : Prop where
  names : (namesOf seen.1).Nodup
  columns : (seen.2.map SharedDictionaryDef.column).Nodup
  before : ∀ d ∈ seen.2, d.foreignTable = table →
    [d.foreignColumn, d.column].Sublist (namesOf seen.1)

theorem Accepted.seeElement (hfresh : catalog table = none) (hseen : Accepted table seen)
    {e : TableElement} (h : seeElement catalog table elements seen e = .ok seen') :
    Accepted table seen' := by
  cases e with
  | sharedDictionary d =>
    obtain ⟨_, hvalid, h⟩ := Results.bind_eq_ok.1 h
    cases h
    obtain ⟨hnew, hbefore⟩ := validate_ok hfresh hvalid
    refine ⟨hseen.names, ?_, fun e he => ?_⟩
    · rw [map_append, nodup_append]
      exact ⟨hseen.columns, pairwise_singleton _ _, fun a ha b hb heq =>
        hnew (mem_singleton.1 hb ▸ heq ▸ ha)⟩
    · rcases mem_append.1 he with he | he
      · exact hseen.before e he
      · exact mem_singleton.1 he ▸ hbefore
  | shardKey =>
    cases h
    exact hseen
  | columnDef cd compression =>
    simp only [Catalog.seeElement] at h
    split at h
    · cases h
    next hnew =>
    cases h
    have hfresh : cd.columnName ∉ namesOf seen.1 := by
      intro hmem
      obtain ⟨c, hc, hname⟩ := mem_map.1 hmem
      exact hnew (any_eq_true.2 ⟨c, hc, decide_eq_true (congrArg _ hname)⟩)
    refine ⟨?_, hseen.columns, fun d hd heq => ?_⟩
    · rw [namesOf, map_append, nodup_append]
      exact ⟨hseen.names, pairwise_singleton _ _, fun a ha b hb heq =>
        hfresh (mem_singleton.1 hb ▸ heq ▸ ha)⟩
    · rw [namesOf, map_append]
      exact (hseen.before d hd heq).trans (sublist_append_left _ _)

theorem accepted_execute (h : executeCreateTable catalog table elements = .ok seen) :
    Accepted table seen := by
  unfold executeCreateTable at h
  split at h
  · cases h
  next hnone =>
  have hfresh : catalog table = none := by simpa using hnone
  suffices hloop : ∀ (es : List TableElement) (s : SeenSoFar), Accepted table s →
      es.foldlM (seeElement catalog table elements) s = .ok seen → Accepted table seen from
    hloop _ ([], []) ⟨nodup_nil, nodup_nil, nofun⟩ h
  intro es
  induction es with
  | nil =>
    intro s hs h
    cases h
    exact hs
  | cons e es ih =>
    intro s hs h
    rw [foldlM_cons] at h
    obtain ⟨s', hstep, h⟩ := Results.bind_eq_ok.1 h
    exact ih s' (hs.seeElement hfresh hstep) h

-- ======== references

/-- The definitions of columns in front of that of a definition. -/
def rank (seen : SeenSoFar) (d : SharedDictionaryDef) : Nat :=
  seen.2.countP fun e => (namesOf seen.1).idxOf e.column < (namesOf seen.1).idxOf d.column

theorem idxOf_lt {names : List String} (h : names.Nodup) {a b : String}
    (hab : [a, b].Sublist names) : names.idxOf a < names.idxOf b := by
  refine List.Pairwise.forall_sublist (R := fun a b => names.idxOf a < names.idxOf b) ?_ hab
  rw [pairwise_iff_getElem]
  intro i j hi hj hij
  rwa [h.idxOf_getElem i hi, h.idxOf_getElem j hj]

theorem Accepted.rank_lt (h : Accepted table seen) {e : SharedDictionaryDef}
    (hde : Refers table seen.2 d e) : rank seen e < rank seen d := by
  obtain ⟨hd, he, htable, hcolumn⟩ := hde
  have hlt := idxOf_lt h.names (hcolumn ▸ h.before d hd htable)
  obtain ⟨l₁, l₂, hsplit⟩ := append_of_mem he
  have hle : ∀ l : List SharedDictionaryDef, (l.countP fun x =>
      (namesOf seen.1).idxOf x.column < (namesOf seen.1).idxOf e.column) ≤ l.countP fun x =>
      (namesOf seen.1).idxOf x.column < (namesOf seen.1).idxOf d.column := fun l =>
    countP_mono_left fun x _ hx => decide_eq_true (Nat.lt_trans (of_decide_eq_true hx) hlt)
  have h₁ := hle l₁
  have h₂ := hle l₂
  unfold rank
  simp only [hsplit, countP_append, countP_cons, Nat.lt_irrefl, decide_false, hlt,
    decide_true, if_true, Bool.false_eq_true, if_false]
  omega

theorem follow_none {defs : List SharedDictionaryDef} (htable : d.foreignTable = table)
    (h : defs.find? (·.column = d.foreignColumn) = none) (hops : Nat) :
    followReferences table defs hops d = d := by
  induction hops with
  | zero => rfl
  | succ hops ih =>
    rw [followReferences, h]
    exact (if_neg (not_not_intro htable)).trans ih

/-- Enough hops lead to the end of the references. -/
theorem Accepted.follow (h : Accepted table seen) (hops : Nat) : ∀ {d : SharedDictionaryDef},
    d ∈ seen.2 → d.foreignTable = table → rank seen d < hops →
      Relation.ReflTransGen (Refers table seen.2) d (followReferences table seen.2 hops d)
        ∧ IsRoot table seen (followReferences table seen.2 hops d) := by
  induction hops with
  | zero => exact fun _ _ h => absurd h (Nat.not_lt_zero _)
  | succ hops ih =>
    intro d hd htable hrank
    cases hnext : seen.2.find? (·.column = d.foreignColumn) with
    | none =>
      rw [follow_none htable hnext]
      refine ⟨.refl, .inr ⟨(h.before d hd htable).subset mem_cons_self, fun e he heq => ?_⟩⟩
      exact absurd (decide_eq_true heq) (find?_eq_none.1 hnext e he)
    | some e =>
      have he := mem_of_find?_eq_some hnext
      have hcolumn : e.column = d.foreignColumn := by simpa using find?_some hnext
      have hde : Refers table seen.2 d e := ⟨hd, he, htable, hcolumn⟩
      rw [followReferences, hnext]
      dsimp only [Option.getD_some]
      split
      · next hother => exact ⟨.single hde, .inl hother⟩
      · next hsame =>
          have hlt := h.rank_lt hde
          obtain ⟨hpath, hroot⟩ := ih he (not_not.1 hsame) (by omega)
          exact ⟨.head hde hpath, hroot⟩

/-- The references of the definitions that a CREATE TABLE accepts do not
run in a circle, and each definition that refers to a column of the table is
compressed to the one at the end of its references. -/
theorem references_resolve (h : executeCreateTable catalog table elements = .ok seen) :
    (∀ d, ¬ Relation.TransGen (Refers table seen.2) d d)
      ∧ ∀ d ∈ seen.2, d.foreignTable = table → ∃ root, compressReferencePath d seen.2 = some root
        ∧ Relation.ReflTransGen (Refers table seen.2) d root ∧ IsRoot table seen root := by
  have hacc := accepted_execute h
  constructor
  · intro d hcycle
    have hrank : ∀ e, Relation.TransGen (Refers table seen.2) d e → rank seen e < rank seen d := by
      intro e h
      induction h with
      | single h => exact hacc.rank_lt h
      | tail _ h ih => exact Nat.lt_trans (hacc.rank_lt h) ih
    exact Nat.lt_irrefl _ (hrank d hcycle)
  · intro d hd htable
    have hfind : seen.2.find? (· = d) = some d := by
      cases hfind : seen.2.find? (· = d) with
      | none => exact absurd (decide_eq_true rfl) (List.find?_eq_none.1 hfind d hd)
      | some e => rw [of_decide_eq_true (find?_some (p := fun e => decide (e = d)) hfind)]
    have hrank : rank seen d < seen.2.length :=
      List.countP_lt_length_iff.2 ⟨d, hd, decide_eq_false (Nat.lt_irrefl _)⟩
    refine ⟨_, ?_, hacc.follow seen.2.length hd htable hrank⟩
    rw [compressReferencePath, hfind, htable]
    rfl

/-- `c` shares with `b`, and `b` with a column of another table. -/
theorem references_resolve_chain :
    ∃ root, compressReferencePath ⟨"c", "t", "b"⟩ [⟨"b", "u", "x"⟩, ⟨"c", "t", "b"⟩] = some root
      ∧ Relation.ReflTransGen (Refers "t" [⟨"b", "u", "x"⟩, ⟨"c", "t", "b"⟩]) ⟨"c", "t", "b"⟩ root
      ∧ IsRoot "t" ([⟨"b", true, true⟩, ⟨"c", true, true⟩],
        [⟨"b", "u", "x"⟩, ⟨"c", "t", "b"⟩]) root := by
  have h : executeCreateTable (fun name => if name = "u" then some [⟨"x", true, true⟩] else none)
      "t" [.columnDef ⟨"b", true, true⟩ false, .sharedDictionary ⟨"b", "u", "x"⟩,
        .columnDef ⟨"c", true, true⟩ false, .sharedDictionary ⟨"c", "t", "b"⟩]
      = .ok ([⟨"b", true, true⟩, ⟨"c", true, true⟩], [⟨"b", "u", "x"⟩, ⟨"c", "t", "b"⟩]) := by
    decide +kernel
  exact (references_resolve h).2 ⟨"c", "t", "b"⟩ (by decide) rfl

end Compass.Catalog
