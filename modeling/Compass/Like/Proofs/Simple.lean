/-
The fast path of LIKE.

A simple pattern is a `%`, characters and a `%`, and what is left of it when
the control characters are erased is looked for anywhere in the string. The
erasure copies a control character whenever an escape character stands
before it, also one that is escaped itself; so it agrees with the matcher
as long as no escaped escape character is followed by one of the characters
that are special to the matcher (`Unmistaken`). Where it is, the pattern
matches a word that is no longer than the erased text and another one
(`exists_other_word`).
-/
import Compass.Like.Proofs.Patterns
import Compass.Lib.Results

namespace Compass.Like

open Wildcard List Nat

variable {escape c prev : UInt8} {isIlike : Bool} {p mid s w : List UInt8}
  {items : List (Item UInt8)}

-- ======== the search

theorem matchesFront_iff :
    matchesFront isIlike s p = true ↔ p <+: s.map (letter isIlike) := by
  induction p generalizing s with
  | nil => simp [matchesFront]
  | cons q p ih =>
    cases s with
    | nil => simp [matchesFront]
    | cons c s =>
      simp only [matchesFront, Bool.and_eq_true, sameChar_eq, decide_eq_true_eq, ih,
        map_cons, cons_prefix_cons]
      exact and_congr_left' eq_comm

/-- The search finds the text wherever it stands in the string. -/
theorem searchSimple_iff :
    searchSimple isIlike s p = true ↔ p <:+: s.map (letter isIlike) := by
  simp only [searchSimple, any_eq_true, mem_range, matchesFront_iff, map_drop]
  constructor
  · rintro ⟨i, -, hfront⟩
    exact hfront.isInfix.trans (drop_suffix i _).isInfix
  · rintro ⟨a, b, hsplit⟩
    have hlen := congrArg length hsplit
    simp only [length_append, length_map] at hlen
    refine ⟨a.length, by omega, ?_⟩
    rw [← hsplit, append_assoc, drop_left]
    exact prefix_append p b

-- ======== the erasure

/-- What the erasure leaves behind a character. -/
def erased (escape prev : UInt8) : List UInt8 → List UInt8
  | [] => []
  | c :: p =>
    if (c = percent ∨ c = escape) ∧ prev ≠ escape then erased escape c p
    else c :: erased escape c p

theorem eraseCntlChars_eq (p : List UInt8) (escape : UInt8) :
    eraseCntlChars p escape = erased escape 0 p := by
  have hrun (newStr : List UInt8) (prev : UInt8) :
      (p.foldl (eraseStep escape) (newStr, prev)).1 = newStr ++ erased escape prev p := by
    induction p generalizing newStr prev with
    | nil => exact (append_nil newStr).symm
    | cons c p ih =>
      rw [foldl_cons, eraseStep, erased]
      split
      · exact ih newStr c
      · rw [ih, append_assoc, singleton_append]
  exact hrun [] 0

theorem erased_copy (h : ¬ ((c = percent ∨ c = escape) ∧ prev ≠ escape)) :
    erased escape prev (c :: p) = c :: erased escape c p :=
  if_neg h

theorem erased_drop (h : c = percent ∨ c = escape) (hprev : prev ≠ escape) :
    erased escape prev (c :: p) = erased escape c p :=
  if_pos ⟨h, hprev⟩

/-- A character that is not erased is in every erasure that comes over it. -/
theorem length_erased_append (hc : c ≠ percent) (hesc : c ≠ escape) (cs : List UInt8) :
    (erased escape c p).length + 1 ≤ (erased escape prev (cs ++ c :: p)).length := by
  induction cs generalizing prev with
  | nil =>
    rw [nil_append, erased_copy (by simp [hc, hesc]), length_cons]
  | cons d cs ih =>
    rw [cons_append, erased]
    split
    · exact ih
    · exact (ih).trans (le_succ _)

-- ======== the shape

/-- Between the two ends every control character has an escape character
before it. -/
def Guarded (escape : UInt8) : UInt8 → List UInt8 → Prop
  | _, [] => True
  | prev, c :: mid =>
    (c ∈ [percent, underscore, openSet, closeSet] → prev = escape) ∧ Guarded escape c mid

theorem guarded_of_getElem
    (h : ∀ k < mid.length, mid[k]? ∈ [some percent, some underscore, some openSet, some closeSet] →
      (prev :: mid)[k]? = some escape) : Guarded escape prev mid := by
  induction mid generalizing prev with
  | nil => trivial
  | cons c mid ih =>
    refine ⟨fun hc => ?_, ih fun k hk => ?_⟩
    · have hfirst := h 0 (zero_lt_succ _)
      simp only [getElem?_cons_zero, Option.some_inj, mem_cons, not_mem_nil, or_false] at hfirst hc
      exact hfirst hc
    · simpa only [getElem?_cons_succ] using h (k + 1) (succ_lt_succ hk)

/-- Without an escape character in front, one that is a control character
itself guards nothing. -/
theorem Guarded.not_mem (h : Guarded escape prev mid) (hprev : prev ≠ escape)
    (hesc : escape ∈ [percent, underscore, openSet, closeSet]) :
    ∀ c ∈ [percent, underscore, openSet, closeSet], c ∉ mid := by
  induction mid generalizing prev with
  | nil => simp
  | cons d mid ih =>
    have hd : d ∉ [percent, underscore, openSet, closeSet] := fun hd => hprev (h.1 hd)
    have hne : d ≠ escape := fun heq => hd (heq ▸ hesc)
    intro c hc hmem
    rcases mem_cons.1 hmem with rfl | hmem
    · exact hd hc
    · exact ih h.2 hne c hc hmem

/-- A simple pattern: what is between the two `%`. -/
structure Simple (escape : UInt8) (mid : List UInt8) : Prop where
  escape_ne : escape ≠ percent
  guarded : Guarded escape percent mid
  /-- An escape character before the last `%` is escaped. -/
  last : [escape] <:+ mid → [escape, escape] <:+ mid

/-- The text between its ends, of a pattern that begins and ends with `%`. -/
theorem exists_middle (hlen : ¬ p.length < 2) (hfront : p[0]? = some percent)
    (hback : p[p.length - 1]? = some percent) : ∃ mid, p = percent :: (mid ++ [percent]) := by
  cases p with
  | nil => cases hfront
  | cons c p =>
    obtain rfl : c = percent := by simpa using hfront
    have hlast : p.getLast? = some percent := by
      cases p with
      | nil => simp at hlen
      | cons d p => simpa [getLast?_eq_getElem?] using hback
    obtain ⟨mid, rfl⟩ := getLast?_eq_some_iff.1 hlast
    exact ⟨mid, rfl⟩

theorem last_of_lastEscaped (hesc : escape ≠ percent)
    (h : lastEscaped (percent :: (mid ++ [percent])) escape = .ok false)
    (hend : [escape] <:+ mid) : [escape, escape] <:+ mid := by
  obtain ⟨front, rfl⟩ := hend
  have hlen : (percent :: ((front ++ [escape]) ++ [percent])).length = front.length + 3 := by simp
  have hone : (percent :: ((front ++ [escape]) ++ [percent]))[front.length + 1]? = some escape := by
    simp
  simp only [lastEscaped, hlen, Nat.add_sub_cancel, Nat.reduceSubDiff, hone, if_true,
    Nat.not_lt.2 (Nat.le_add_left 3 front.length), if_false, Except.ok.injEq,
    decide_eq_false_iff_not, not_not] at h
  cases front using reverseRecOn with
  | nil => exact absurd (Option.some.inj h).symm hesc
  | append_singleton front c _ =>
    have hc : c = escape := by simpa using h
    exact ⟨front, by simp [hc]⟩

/-- What is classified as simple has the shape of a simple pattern. -/
theorem simple_of_test (haccepted : checkLikeExpr p escape = .ok ())
    (hsimple : testIsSimpleExpr p escape = .ok true) :
    ∃ mid, p = percent :: (mid ++ [percent]) ∧ Simple escape mid := by
  unfold testIsSimpleExpr at hsimple
  split at hsimple
  · cases hsimple
  · rename_i hends
    rw [not_or, not_or, not_not, not_not] at hends
    obtain ⟨mid, rfl⟩ := exists_middle hends.1 hends.2.1 hends.2.2
    have hesc : escape ≠ percent := by
      rw [checkLikeExpr, ← cons_append, getLast?_concat] at haccepted
      rintro rfl
      simp at haccepted
    obtain ⟨escaped, hescaped, hrest⟩ := Results.bind_eq_ok.1 hsimple
    cases escaped with
    | true => cases hrest
    | false =>
      refine ⟨mid, rfl, hesc, guarded_of_getElem fun k hk hspecial => ?_,
        last_of_lastEscaped hesc hescaped⟩
      have hplace : k + 1 ∈ range' 1 ((percent :: (mid ++ [percent])).length - 2) := by
        simp only [length_cons, length_append, mem_range'_1]
        omega
      have hguard := all_eq_true.1 (Except.ok.inj hrest) (k + 1) hplace
      simp only [guardedAt, getElem?_cons_succ, Nat.add_sub_cancel,
        getElem?_append_left hk, hspecial, not_true_eq_false, decide_false, Bool.false_or,
        decide_eq_true_eq] at hguard
      rwa [← cons_append, getElem?_append_left (by simp; omega)] at hguard

-- ======== the mistakes

/-- An escaped escape character with one behind it that is special to the
matcher. -/
def Mistaken (escape : UInt8) (p : List UInt8) : Prop :=
  ∃ c ∈ [escape, percent, underscore, openSet], [escape, escape, c] <:+: p

instance (escape : UInt8) (p : List UInt8) : Decidable (Mistaken escape p) :=
  inferInstanceAs (Decidable (∃ c ∈ _, _))

theorem mistaken_cons_iff : Mistaken escape (c :: p) ↔
    (∃ x ∈ [escape, percent, underscore, openSet], [escape, escape, x] <+: c :: p) ∨
      Mistaken escape p := by
  simp only [Mistaken, infix_cons_iff, and_or_left, exists_or]

theorem mistaken_cons (hc : c ≠ escape) : Mistaken escape (c :: p) ↔ Mistaken escape p := by
  rw [mistaken_cons_iff, or_iff_right]
  rintro ⟨x, -, hfront⟩
  exact hc (cons_prefix_cons.1 hfront).1.symm

theorem mistaken_escape (hc : c ≠ escape) :
    Mistaken escape (escape :: c :: p) ↔ Mistaken escape p := by
  rw [mistaken_cons_iff, or_iff_right, mistaken_cons hc]
  rintro ⟨x, -, hfront⟩
  exact hc (cons_prefix_cons.1 (cons_prefix_cons.1 hfront).2).1.symm

theorem mistaken_escape_escape (hc : c ∉ [escape, percent, underscore, openSet]) :
    Mistaken escape (escape :: escape :: c :: p) ↔ Mistaken escape p := by
  have hne : c ≠ escape := fun h => hc (h ▸ mem_cons_self)
  rw [mistaken_cons_iff, or_iff_right, mistaken_escape hne]
  rintro ⟨x, hx, hfront⟩
  simp only [cons_prefix_cons, nil_prefix, and_true, true_and] at hfront
  exact hc (hfront ▸ hx)

theorem not_mistaken_short (h : p.length < 3) : ¬ Mistaken escape p := by
  rintro ⟨c, -, hinside⟩
  have hlen := hinside.length_le
  rw [length_cons, length_cons, length_singleton] at hlen
  omega

theorem not_mistaken_of_not_mem (h : escape ∉ p) : ¬ Mistaken escape p := by
  rintro ⟨c, -, hinside⟩
  exact h (hinside.mem mem_cons_self)

-- ======== patterns that are read

/-- Without mistakes the erased text of a simple pattern is what the matcher
reads in it. The induction is on what is left of the pattern; a character
behind an escaped escape character is none that is special. -/
theorem denotes_erased (hesc : escape ≠ percent) (hguarded : Guarded escape prev mid)
    (hfirst : prev = escape → ∀ c ∈ (mid ++ [percent]).head?,
      c ∉ [escape, percent, underscore, openSet])
    (hlast : ¬ [escape] <:+ mid) (hmistaken : ¬ Mistaken escape (mid ++ [percent])) :
    Denotes escape (mid ++ [percent])
      ((erased escape prev (mid ++ [percent])).map .lit ++ [.any]) := by
  induction hlen : mid.length using Nat.strong_induction_on generalizing mid prev with
  | _ n ih =>
    cases mid with
    | nil =>
      have hprev : prev ≠ escape := fun h => hfirst h percent rfl (by simp)
      rw [nil_append, erased_drop (.inl rfl) hprev]
      exact .any .nil
    | cons c mid =>
      have htail : ¬ [escape] <:+ mid := fun h => hlast (h.trans (suffix_cons c mid))
      rw [length_cons] at hlen
      rw [cons_append] at hmistaken hfirst ⊢
      by_cases hc : c = escape
      · -- an escape character, and the one it stands before
        subst hc
        have hprev : prev ≠ c := fun h => hfirst h c rfl mem_cons_self
        cases mid with
        | nil => exact absurd suffix_rfl hlast
        | cons d mid =>
          rw [length_cons] at hlen
          rw [erased_drop (.inr rfl) hprev, cons_append, erased_copy (by simp)]
          refine .escaped (ih mid.length (by omega) hguarded.2.2 (fun hd x hx hmem => ?_)
            (fun h => htail (h.trans (suffix_cons d mid))) (fun h => ?_) rfl)
          · subst hd
            obtain ⟨rest, hrest⟩ := head?_eq_some_iff.1 hx
            refine hmistaken ⟨x, hmem, ?_⟩
            rw [cons_append, hrest]
            exact ⟨[], rest, rfl⟩
          · exact hmistaken (mistaken_cons_iff.2 (.inr (mistaken_cons_iff.2 (.inr h))))
      · have hspecial : c ∉ [percent, underscore, openSet] := by
          intro hmem
          by_cases hprev : prev = escape
          · exact hfirst hprev c rfl (mem_cons_of_mem _ hmem)
          · refine hprev (hguarded.1 ?_)
            simp only [mem_cons, not_mem_nil, or_false] at hmem ⊢
            tauto
        have hpercent : c ≠ percent := fun h => hspecial (h ▸ mem_cons_self)
        rw [erased_copy (by simp [hc, hpercent])]
        exact .lit hc hspecial (ih mid.length (by omega) hguarded.2 (fun h => absurd h hc) htail
          ((mistaken_cons hc).not.1 hmistaken) rfl)

theorem letter_fixed (h : isIlike = true → lowercase c = c) : letter isIlike c = c := by
  cases isIlike with
  | false => rfl
  | true => exact h rfl

/-- A pattern that matches something matches a word that is no longer than
its erased text, and another one if there is a mistake in it. The induction
is on what the matcher reads; behind an escaped escape character that
character is still in front. -/
theorem exists_other_word (hp : Denotes escape p items) (hplain : PlainEscape escape)
    (hclose : escape ≠ closeSet) (hfix : isIlike = true → ∀ c ∈ p, lowercase c = c) {v : List UInt8}
    (hv : v ∈ language items) :
    ∃ w ∈ language items, w.map (letter isIlike) = w ∧
      w.length ≤ (erased escape prev p).length ∧
      (w = erased escape prev p →
        ¬ Mistaken escape (if prev = escape then escape :: escape :: p else p)) := by
  obtain ⟨hpercent, hunderscore, hopen⟩ := hplain.ne
  induction hp generalizing prev v with
  | nil =>
    refine ⟨[], by simp, rfl, zero_le _, fun _ => not_mistaken_short ?_⟩
    split <;> simp
  | @escaped c p items hp ih =>
    simp only [forall_mem_cons] at hfix
    obtain ⟨x, t, rfl, -, ht⟩ := exists_cons_of_mem_language (by simp) hv
    obtain ⟨w, hw, hmap, hlen, hsame⟩ :=
      @ih c (fun h => (hfix h).2.2) t ht
    refine ⟨c :: w, (cons_mem_language (by simp)).2 ⟨rfl, hw⟩, ?_, ?_⟩
    · rw [map_cons, hmap, letter_fixed fun h => (hfix h).2.1]
    · by_cases hprev : prev = escape
      · -- both characters stay
        rw [erased_copy (by simp [hprev]), erased_copy (by simp), length_cons,
          length_cons, length_cons]
        refine ⟨by omega, fun heq => ?_⟩
        have heq := congrArg length heq
        simp only [length_cons] at heq
        omega
      · rw [erased_drop (.inr rfl) hprev, erased_copy (by simp), if_neg hprev]
        refine ⟨succ_le_succ hlen, fun heq => ?_⟩
        have htail := hsame (cons.inj heq).2
        by_cases hc : c = escape
        · rw [if_pos hc] at htail
          rwa [hc]
        · rw [if_neg hc] at htail
          exact (mistaken_escape hc).not.2 htail
  | @any p items hp ih =>
    simp only [forall_mem_cons] at hfix
    obtain ⟨t, -, ht⟩ := mem_language_any.1 hv
    obtain ⟨w, hw, hmap, hlen, hsame⟩ := @ih percent (fun h => (hfix h).2) t ht
    refine ⟨w, mem_language_any_of_mem hw, hmap, ?_⟩
    by_cases hprev : prev = escape
    · -- the `%` is taken for a character
      rw [erased_copy (by simp [hprev]), length_cons]
      refine ⟨hlen.trans (le_succ _), fun heq => ?_⟩
      rw [heq, length_cons] at hlen
      exact absurd hlen (not_succ_le_self _)
    · rw [erased_drop (.inl rfl) hprev, if_neg hprev, mistaken_cons hpercent.symm]
      rw [if_neg hpercent.symm] at hsame
      exact ⟨hlen, hsame⟩
  | @one p items hp ih =>
    simp only [forall_mem_cons] at hfix
    obtain ⟨x, t, rfl, -, ht⟩ := exists_cons_of_mem_language (by simp) hv
    obtain ⟨w, hw, hmap, hlen, -⟩ := @ih underscore (fun h => (hfix h).2) t ht
    have hcopy : ¬ ((underscore = percent ∨ underscore = escape) ∧ prev ≠ escape) := by
      rintro ⟨h | h, -⟩
      · exact absurd h (by decide)
      · exact hunderscore h.symm
    refine ⟨97 :: w, (cons_mem_language (by simp)).2 ⟨trivial, hw⟩, ?_, ?_, ?_⟩
    · rw [map_cons, hmap, letter_fixed fun _ => by decide]
    · rw [erased_copy hcopy]
      exact succ_le_succ hlen
    · rw [erased_copy hcopy]
      exact fun heq => absurd (cons.inj heq).1 (by decide)
  | @set cs p items hcs hp ih =>
    simp only [forall_mem_cons, forall_mem_append] at hfix
    obtain ⟨x, t, rfl, hx, ht⟩ := exists_cons_of_mem_language (by simp) hv
    obtain ⟨w, hw, hmap, hlen, -⟩ := @ih closeSet (fun h => (hfix h).2.2.2) t ht
    have hcopy : ¬ ((openSet = percent ∨ openSet = escape) ∧ prev ≠ escape) := by
      rintro ⟨h | h, -⟩
      · exact absurd h (by decide)
      · exact hopen h.symm
    -- the brackets stay, and the word has one character for them
    have hmore := @length_erased_append _ _ openSet p (by decide) hclose.symm cs
    have hlt : (x :: w).length <
        (erased escape prev (openSet :: (cs ++ closeSet :: p))).length := by
      rw [erased_copy hcopy, length_cons, length_cons]
      omega
    refine ⟨x :: w, (cons_mem_language (by simp)).2 ⟨hx, hw⟩, ?_, hlt.le, fun heq => ?_⟩
    · rw [map_cons, hmap, letter_fixed fun h => (hfix h).2.1 x hx]
    · exact absurd (heq ▸ hlt) (lt_irrefl _)
  | @lit c p items hesc hc hp ih =>
    simp only [forall_mem_cons] at hfix
    obtain ⟨x, t, rfl, -, ht⟩ := exists_cons_of_mem_language (by simp) hv
    obtain ⟨w, hw, hmap, hlen, hsame⟩ := @ih c (fun h => (hfix h).2) t ht
    have hnot : c ∉ [escape, percent, underscore, openSet] := by
      rw [mem_cons, not_or]
      exact ⟨hesc, hc⟩
    have hcopy : ¬ ((c = percent ∨ c = escape) ∧ prev ≠ escape) := by
      rintro ⟨h | h, -⟩
      · exact hc (h ▸ mem_cons_self)
      · exact hesc h
    rw [if_neg hesc] at hsame
    rw [erased_copy hcopy]
    refine ⟨c :: w, (cons_mem_language (by simp)).2 ⟨rfl, hw⟩, ?_, succ_le_succ hlen, ?_⟩
    · rw [map_cons, hmap, letter_fixed fun h => (hfix h).1]
    · intro heq
      have htail := hsame (cons.inj heq).2
      split
      · exact (mistaken_escape_escape hnot).not.2 htail
      · exact (mistaken_cons hesc).not.2 htail

-- ======== the result

theorem letters_fixed (hfix : isIlike = true → ∀ c ∈ p, lowercase c = c) :
    p.map (letter isIlike) = p := by
  conv_rhs => rw [← map_id p]
  exact map_congr_left fun c hc => letter_fixed fun h => hfix h c hc

/-- A `%` that is no escape character stands for any word. -/
theorem Denotes.behind_percent (h : Denotes escape (percent :: p) items)
    (hesc : escape ≠ percent) : ∃ rest, items = .any :: rest ∧ Denotes escape p rest := by
  generalize hq : percent = q at h
  cases h with
  | escaped hp => exact absurd hq.symm hesc
  | any hp => exact ⟨_, rfl, hp⟩
  | one hp | set hcs hp => exact absurd hq (by decide)
  | lit hesc hc hp => exact absurd (hq ▸ mem_cons_self) hc

theorem mem_of_mem_erased (h : c ∈ erased escape prev p) : c ∈ p := by
  induction p generalizing prev with
  | nil => exact h
  | cons d p ih =>
    rw [erased] at h
    split at h
    · exact mem_cons_of_mem d (ih h)
    · rcases mem_cons.1 h with rfl | h
      · exact mem_cons_self
      · exact mem_cons_of_mem d (ih h)

/-- What the fast path finds in a string. -/
def likeSimple (isIlike : Bool) (str pattern : List UInt8) : Bool :=
  if isIlike then stringIlikeSimple str pattern else stringLikeSimple str pattern

theorem likeSimple_iff : likeSimple isIlike s p = true ↔ p <:+: s.map (letter isIlike) := by
  cases isIlike <;> exact searchSimple_iff

/-- A simple pattern that is read without mistakes. -/
theorem like_simple (hsimple : Simple escape mid) (hzero : escape ≠ 0)
    (hmistaken : ¬ Mistaken escape (percent :: (mid ++ [percent]))) (s : List UInt8) :
    like isIlike s (percent :: (mid ++ [percent])) escape = true ↔
      likeSimple isIlike s (eraseCntlChars (percent :: (mid ++ [percent])) escape) = true := by
  have hne := hsimple.escape_ne
  rw [mistaken_cons hne.symm] at hmistaken
  have hlast : ¬ [escape] <:+ mid := by
    intro hend
    obtain ⟨front, rfl⟩ := hsimple.last hend
    exact hmistaken ⟨percent, by simp, ⟨front, [], by simp⟩⟩
  have hden := Denotes.any (denotes_erased hne hsimple.guarded (fun h => absurd h.symm hne) hlast
    hmistaken)
  rw [likeSimple_iff, eraseCntlChars_eq, erased_drop (.inl rfl) hzero.symm, ← mem_language_between]
  by_cases hplain : PlainEscape escape
  · exact like_iff hden hplain
  · -- a wildcard as escape character stands nowhere
    have hspecial : escape ∈ [percent, underscore, openSet, closeSet] := by
      simp only [PlainEscape, mem_cons, not_mem_nil, or_false, not_not] at hplain ⊢
      tauto
    have hmid := hsimple.guarded.not_mem hne.symm hspecial
    refine @like_iff_of_not_mem _ closeSet _ _ _ _ hden ?_ (by decide) ?_
    · simpa [hne] using hmid escape hspecial
    · simpa using ⟨by decide, hmid closeSet (by simp), by decide⟩

/-- If the fast path agrees with the matcher, there is no mistake in the
pattern. -/
theorem not_mistaken_of_agrees (hsimple : Simple escape mid)
    (hfix : isIlike = true → ∀ c ∈ mid, lowercase c = c)
    (hagrees : ∀ s, likeSimple isIlike s (eraseCntlChars (percent :: (mid ++ [percent])) escape) =
      like isIlike s (percent :: (mid ++ [percent])) escape) :
    escape ≠ 0 ∧ ¬ Mistaken escape (percent :: (mid ++ [percent])) := by
  have hne := hsimple.escape_ne
  by_cases hspecial : escape ∈ [percent, underscore, openSet, closeSet]
  · -- a wildcard as escape character stands nowhere
    have hmid := hsimple.guarded.not_mem hne.symm hspecial escape hspecial
    refine ⟨?_, not_mistaken_of_not_mem (by simp [hne, hmid])⟩
    rintro rfl
    exact absurd hspecial (by decide)
  have hplain : PlainEscape escape := fun h => hspecial (by
    simp only [mem_cons, not_mem_nil, or_false] at h ⊢
    tauto)
  have hclose : escape ≠ closeSet := fun h => hspecial (by simp [h])
  have hfix' : isIlike = true → ∀ c ∈ percent :: (mid ++ [percent]), lowercase c = c := by
    intro h c hc
    rcases mem_cons.1 hc with rfl | hc
    · decide
    · rcases mem_append.1 hc with hc | hc
      · exact hfix h c hc
      · rw [mem_singleton.1 hc]
        decide
  generalize hE : eraseCntlChars (percent :: (mid ++ [percent])) escape = text at hagrees
  rw [eraseCntlChars_eq] at hE
  have htext : text.map (letter isIlike) = text :=
    letters_fixed fun h c hc => hfix' h c (mem_of_mem_erased (hE ▸ hc))
  -- the pattern matches the erased text, and so it is well formed
  have hmatch : like isIlike text (percent :: (mid ++ [percent])) escape = true := by
    rw [← hagrees, likeSimple_iff, htext]
  obtain ⟨items, hden⟩ := denotes_of_likeTrue (of_decide_eq_true (like_eq text _ ▸ hmatch))
  have hword := (like_iff hden hplain).1 hmatch
  obtain ⟨rest, rfl, hrest⟩ := hden.behind_percent hne
  obtain ⟨v, -, hv⟩ := mem_language_any.1 hword
  obtain ⟨w, hw, hmap, hlen, hsame⟩ := @exists_other_word _ percent _ _ _ hrest hplain hclose
    (fun h c hc => hfix' h c (mem_cons_of_mem _ hc)) v hv
  -- so the fast path finds the text in the word
  have hinside : text <:+: w := by
    have hlike : like isIlike w (percent :: (mid ++ [percent])) escape = true :=
      (like_iff hden hplain).2 (hmap.symm ▸ mem_language_any_of_mem hw)
    rwa [← hagrees, likeSimple_iff, hmap] at hlike
  have hzero : escape ≠ 0 := by
    rintro rfl
    rw [erased_copy (by simp)] at hE
    have := hinside.length_le
    rw [← hE, length_cons] at this
    omega
  rw [erased_drop (.inl rfl) hzero.symm] at hE
  refine ⟨hzero, ?_⟩
  rw [mistaken_cons hne.symm]
  rw [if_neg hne.symm, hE] at hsame
  exact hsame (hinside.eq_of_length_le (hE ▸ hlen)).symm

/-- The fast path agrees with the matcher on every string if no escaped escape
character of the pattern has a special character behind it, and only if; of
an ILIKE the pattern is in lower case there. -/
theorem like_simple_iff (isIlike : Bool) (pattern : List UInt8) (escape : UInt8)
    (haccepted : checkLikeExpr pattern escape = .ok ())
    (hsimple : testIsSimpleExpr pattern escape = .ok true) :
    (escape ≠ 0 ∧ ¬ Mistaken escape pattern → ∀ str,
      likeSimple isIlike str (eraseCntlChars pattern escape) =
        like isIlike str pattern escape) ∧
    ((isIlike = true → pattern.map lowercase = pattern) →
      (∀ str, likeSimple isIlike str (eraseCntlChars pattern escape) =
        like isIlike str pattern escape) →
      escape ≠ 0 ∧ ¬ Mistaken escape pattern) := by
  obtain ⟨mid, rfl, hshape⟩ := simple_of_test haccepted hsimple
  constructor
  · rintro ⟨hzero, hmistaken⟩ str
    exact (Bool.eq_iff_iff.2 (like_simple hshape hzero hmistaken str)).symm
  · intro hcase
    refine not_mistaken_of_agrees hshape fun hilike c hc => ?_
    have hlower := map_inj_left.1 ((hcase hilike).trans (map_id _).symm)
    exact hlower c (mem_cons_of_mem _ (mem_append_left _ hc))

/-- `%a!%` and, for ILIKE, `%b!!x%`, where `!` escapes, are simple and without
mistakes. -/
theorem like_simple_b :
    (∀ str, likeSimple true str (eraseCntlChars (chars "%b!!x%") 33) =
      like true str (chars "%b!!x%") 33) ∧ ¬ Mistaken 33 (chars "%b!!x%") := by
  obtain ⟨hif, hiff⟩ := like_simple_iff true (chars "%b!!x%") 33 (by decide) (by decide)
  have hagrees := hif (by decide)
  exact ⟨hagrees, (hiff (fun _ => by decide) hagrees).2⟩

/-- In `%a!!%`, where `!` escapes, the last `%` is copied, and `a!` is no longer
found in itself. -/
theorem like_simple_mistaken :
    checkLikeExpr (chars "%a!!%") 33 = .ok () ∧ testIsSimpleExpr (chars "%a!!%") 33 = .ok true ∧
      stringLikeSimple (chars "a!") (eraseCntlChars (chars "%a!!%") 33) = false ∧
      stringLike (chars "a!") (chars "%a!!%") 33 = true := by
  decide

end Compass.Like
