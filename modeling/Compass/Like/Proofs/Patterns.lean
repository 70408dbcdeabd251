/-
The escape character and the patterns it stands in.

The matcher only compares the escape character with the characters of the
pattern, so any two that do not occur in it are as good as one another,
wildcards among them (`stringLikeMatch_escape`). And nothing of a pattern
goes unread on the way to a match: a pattern that matches any string is
well formed (`denotes_of_likeTrue`).

REGEXP as LIKE.

A character that the translation accepts stands for itself or is a `.`, and
a quantifier is accepted right behind its `.`. So with an escape character
that is none of these nothing of the expression is escaped, and the pattern
that comes out denotes the items of the expression (`translation_run`). The
other escape characters are taken literally here and as escapes by the
matcher, or the other way round.
-/
import Mathlib.Data.List.TakeWhile
import Compass.Like.Proofs.StringLike

namespace Compass.Like

open Wildcard List

variable {escape escape' : UInt8} {isIlike : Bool} {c q : UInt8} {s s' p p' : List UInt8}
  {items : List (Item UInt8)} {call call' : List UInt8 → List UInt8 → Option LikeStatus}

-- ======== what is left

/-- A character that is found in a set stands before the end of it. -/
theorem scanSet_found {pp : List UInt8} (h : scanSet isIlike c p = (true, pp)) :
    ∃ cs d rest, closeSet ∉ cs ∧ d ≠ closeSet ∧ pp = d :: rest ∧ p = cs ++ d :: rest := by
  induction p with
  | nil => cases h
  | cons q p ih =>
    simp only [scanSet] at h
    split at h
    · cases h
    · rename_i hq
      split at h
      · cases h
        exact ⟨[], q, p, by simp, hq, rfl, rfl⟩
      · obtain ⟨cs, d, rest, hcs, hd, hpp, rfl⟩ := ih h
        refine ⟨q :: cs, d, rest, ?_, hd, hpp, rfl⟩
        simpa [hcs] using Ne.symm hq

/-- What the search of a set and the way to its end leave of the pattern. -/
theorem scanSet_split {pp rest : List UInt8} {d : UInt8} (hscan : scanSet isIlike c p = (true, pp))
    (hrest : pp.tail.dropWhile (· ≠ closeSet) = d :: rest) :
    ∃ cs, closeSet ∉ cs ∧ p = cs ++ closeSet :: rest := by
  obtain ⟨cs, x, tail, hcs, hx, rfl, rfl⟩ := scanSet_found hscan
  rw [tail_cons] at hrest
  have hsplit := @takeWhile_append_dropWhile _ (fun x => decide (x ≠ closeSet)) tail
  have hd : d = closeSet := by
    have hnot := head?_dropWhile_not (fun x => decide (x ≠ closeSet)) tail
    rw [hrest] at hnot
    simpa using hnot
  rw [hrest, hd] at hsplit
  refine ⟨cs ++ x :: tail.takeWhile (· ≠ closeSet), ?_, ?_⟩
  · rw [mem_append, mem_cons, not_or, not_or]
    refine ⟨hcs, Ne.symm hx, fun hmem => ?_⟩
    simpa using mem_takeWhile_imp hmem
  · rw [append_assoc, cons_append, hsplit]

-- ======== an escape not there

variable {firstpat : UInt8}

theorem startsAt_escape (hp : escape ∉ p) (hp' : escape' ∉ p) :
    startsAt escape' isIlike firstpat p c = startsAt escape isIlike firstpat p c := by
  have hhead {x : UInt8} (hx : x ∉ p) : p.head? ≠ some x :=
    fun h => hx (mem_of_mem_head? h)
  simp only [startsAt, hhead hp, hhead hp', ne_eq, not_false_eq_true, and_true]

theorem tryPlaces_escape (hp : escape ∉ p) (hp' : escape' ∉ p) (hcall : ∀ s, call' s p = call s p)
    (s : List UInt8) :
    tryPlaces escape' isIlike call' firstpat p s = tryPlaces escape isIlike call firstpat p s := by
  induction s with
  | nil => rfl
  | cons c s ih => simp only [tryPlaces, startsAt_escape hp hp', hcall, ih]

theorem likeTurn_escape (hp : escape ∉ q :: p) (hp' : escape' ∉ q :: p)
    (hcall : ∀ s p', p' <:+ p → call' s p' = call s p') :
    likeTurn escape' isIlike call' c s q p = likeTurn escape isIlike call c s q p := by
  rw [mem_cons, not_or] at hp hp'
  simp only [likeTurn, if_neg (Ne.symm hp.1), if_neg (Ne.symm hp'.1)]
  split
  · -- behind a `%`
    cases hskip : skipWildcards (c :: s) p with
    | none => rfl
    | some rest =>
      obtain ⟨t, p'⟩ := rest
      have hsuf := skipWildcards_suffix hskip
      cases p' with
      | nil => rfl
      | cons f p' =>
        have hf : escape ∉ f :: p' := fun h => hp.2 (hsuf.mem h)
        have hf' : escape' ∉ f :: p' := fun h => hp'.2 (hsuf.mem h)
        have hne : f ≠ escape := fun h => hf (h ▸ mem_cons_self)
        have hne' : f ≠ escape' := fun h => hf' (h ▸ mem_cons_self)
        simp only [if_neg hne, if_neg hne']
        exact tryPlaces_escape hf hf' (fun s => hcall s _ hsuf) t
  · split
    · exact hcall s p suffix_rfl
    · split
      · -- a set
        cases hscan : scanSet isIlike c p with
        | mk found pp =>
          cases found with
          | false => rfl
          | true =>
            dsimp only
            split
            · rfl
            · rename_i hrest
              obtain ⟨cs, -, rfl⟩ := scanSet_split hscan hrest
              exact hcall s _ ((suffix_cons _ _).trans (suffix_append _ _))
      · rw [hcall s p suffix_rfl]

/-- Two escape characters that do not occur in the pattern are alike. -/
theorem stringLikeMatch_escape {fuel : Nat} (hp : escape ∉ p) (hp' : escape' ∉ p) :
    stringLikeMatch escape' isIlike fuel s p = stringLikeMatch escape isIlike fuel s p := by
  induction fuel generalizing s p with
  | zero => rfl
  | succ fuel ih =>
    cases s with
    | nil => rfl
    | cons c s =>
      cases p with
      | nil => rfl
      | cons q p =>
        refine likeTurn_escape hp hp' fun s p' hsuf => ?_
        exact ih (fun h => hp (mem_cons_of_mem q (hsuf.mem h)))
          fun h => hp' (mem_cons_of_mem q (hsuf.mem h))

theorem Denotes.escape_irrelevant (h : Denotes escape p items) (hp : escape ∉ p)
    (hp' : escape' ∉ p) : Denotes escape' p items := by
  induction h with
  | nil => exact .nil
  | escaped h => exact absurd mem_cons_self hp
  | any h ih =>
    simp only [mem_cons, not_or] at hp hp'
    exact .any (ih hp.2 hp'.2)
  | one h ih =>
    simp only [mem_cons, not_or] at hp hp'
    exact .one (ih hp.2 hp'.2)
  | set hcs h ih =>
    simp only [mem_cons, mem_append, not_or] at hp hp'
    exact .set hcs (ih hp.2.2.2 hp'.2.2.2)
  | lit hesc hc h ih =>
    simp only [mem_cons, not_or] at hp hp'
    exact .lit (Ne.symm hp'.1) hc (ih hp.2 hp'.2)

-- ======== what is answered

/-- The two commands, of which one compares in lower case. -/
def like (isIlike : Bool) (str pattern : List UInt8) (escape : UInt8) : Bool :=
  if isIlike then stringIlike str pattern escape else stringLike str pattern escape

theorem like_eq (str pattern : List UInt8) : like isIlike str pattern escape =
    decide (stringLikeMatch escape isIlike (pattern.length + 1) str pattern = some .likeTrue) := by
  cases isIlike <;> rfl

/-- A well-formed pattern matches its words. -/
theorem like_iff (hp : Denotes escape p items) (hplain : PlainEscape escape) :
    like isIlike s p escape = true ↔ s.map (letter isIlike) ∈ language items := by
  rw [like_eq, decide_eq_true_iff]
  exact (stringLikeMatch_exact hp hplain (Nat.lt_succ_self _)).eq_likeTrue_iff s

/-- An escape character that does not occur may be any, if there is a plain
one that does not occur either. -/
theorem like_iff_of_not_mem (hp : Denotes escape p items) (hmem : escape ∉ p)
    (hplain : PlainEscape escape') (hmem' : escape' ∉ p) :
    like isIlike s p escape = true ↔ s.map (letter isIlike) ∈ language items := by
  rw [like_eq, ← stringLikeMatch_escape hmem hmem', ← like_eq]
  exact like_iff (hp.escape_irrelevant hmem hmem') hplain

-- ======== a pattern that matches

theorem skipWildcards_denotes (h : skipWildcards s p = some (s', p'))
    (hp' : ∃ items, Denotes escape p' items) : ∃ items, Denotes escape p items := by
  induction p generalizing s with
  | nil => exact ⟨[], .nil⟩
  | cons q p ih =>
    simp only [skipWildcards] at h
    split at h
    · rename_i hq
      obtain ⟨items, hp⟩ := ih h
      subst hq
      exact ⟨_, .any hp⟩
    · split at h
      · rename_i hq
        cases s with
        | nil => cases h
        | cons c s =>
          obtain ⟨items, hp⟩ := ih h
          subst hq
          exact ⟨_, .one hp⟩
      · simp only [Option.some.injEq, Prod.mk.injEq] at h
        exact h.2 ▸ hp'

/-- A match at some place is a match of the call. -/
theorem tryPlaces_likeTrue (h : tryPlaces escape isIlike call firstpat p s = some .likeTrue) :
    ∃ t, call t p = some .likeTrue := by
  induction s with
  | nil => cases h
  | cons c s ih =>
    simp only [tryPlaces] at h
    split at h
    · cases h
    · exact ih h
    · split at h
      · exact ih h
      · exact ⟨_, h⟩

theorem likeTurn_denotes (h : likeTurn escape isIlike call c s q p = some .likeTrue)
    (hcall : ∀ s p', call s p' = some .likeTrue → ∃ items, Denotes escape p' items) :
    ∃ items, Denotes escape (q :: p) items := by
  simp only [likeTurn] at h
  split at h
  · -- an escaped character
    rename_i hq
    split at h
    · cases h
    · split at h
      · cases h
      · obtain ⟨items, hp⟩ := hcall _ _ h
        subst hq
        exact ⟨_, .escaped hp⟩
  · rename_i hesc
    split at h
    · -- behind a `%`
      rename_i hq
      suffices hp : ∃ items, Denotes escape p items by
        obtain ⟨items, hp⟩ := hp
        subst hq
        exact ⟨_, .any hp⟩
      split at h
      · cases h
      · rename_i hskip
        exact skipWildcards_denotes hskip ⟨[], .nil⟩
      · rename_i hskip
        refine skipWildcards_denotes hskip ?_
        split at h
        · split at h
          · cases h
          · obtain ⟨t, ht⟩ := tryPlaces_likeTrue h
            exact hcall _ _ ht
        · obtain ⟨t, ht⟩ := tryPlaces_likeTrue h
          exact hcall _ _ ht
    · rename_i hpercent
      split at h
      · rename_i hq
        obtain ⟨items, hp⟩ := hcall _ _ h
        subst hq
        exact ⟨_, .one hp⟩
      · rename_i hunderscore
        split at h
        · -- a set
          rename_i hq
          split at h
          · rename_i hscan
            split at h
            · cases h
            · rename_i hrest
              obtain ⟨items, hp⟩ := hcall _ _ h
              obtain ⟨cs, hcs, rfl⟩ := scanSet_split hscan hrest
              subst hq
              exact ⟨_, .set hcs hp⟩
          · cases h
        · rename_i hopen
          split at h
          · cases h
          · obtain ⟨items, hp⟩ := hcall _ _ h
            exact ⟨_, .lit hesc (by simp [hpercent, hunderscore, hopen]) hp⟩

theorem denotes_of_dropWhile (h : p.dropWhile (· = percent) = []) :
    ∃ items, Denotes escape p items := by
  induction p with
  | nil => exact ⟨[], .nil⟩
  | cons q p ih =>
    rw [dropWhile_cons] at h
    split at h
    · rename_i hq
      obtain ⟨items, hp⟩ := ih h
      obtain rfl := of_decide_eq_true hq
      exact ⟨_, .any hp⟩
    · cases h

/-- A pattern that matches some string is well formed. -/
theorem denotes_of_likeTrue {fuel : Nat}
    (h : stringLikeMatch escape isIlike fuel s p = some .likeTrue) :
    ∃ items, Denotes escape p items := by
  induction fuel generalizing s p with
  | zero => cases h
  | succ fuel ih =>
    cases s with
    | nil =>
      simp only [stringLikeMatch] at h
      split at h
      · rename_i hall
        exact denotes_of_dropWhile hall
      · cases h
    | cons c s =>
      cases p with
      | nil => cases h
      | cons q p => exact likeTurn_denotes h fun s p' => ih

end Compass.Like

namespace Compass.Like

open Wildcard List

variable {escape c : UInt8} {p : List UInt8} {t t' : Translation}

/-- An escape character that the translation takes for nothing else, nor the
LIKE pattern that it builds. -/
def OrdinaryEscape (escape : UInt8) : Prop :=
  isalnum escape = false ∧ escape ∉ [0, blank, dot, star, plus, percent, underscore]

instance (escape : UInt8) : Decidable (OrdinaryEscape escape) :=
  inferInstanceAs (Decidable (_ ∧ _))

-- ======== one character

/-- The characters that are copied; a `.` becomes a `_`. -/
def Copied (c : UInt8) : Prop :=
  isalnum c = true ∨ c = blank ∨ c = dot

def Translation.copy (t : Translation) (c : UInt8) : Translation :=
  { likeStr := t.likeStr ++ [if c = dot then underscore else c]
    prevChar := c
    prevPrevChar := t.prevChar }

/-- Behind no escape character and where no quantifier stands, a character is
copied or the translation gives up. -/
theorem step_copy (hprev : t.prevChar ≠ escape)
    (hquant : t.prevChar = dot → c ≠ star ∧ c ≠ plus) (h : t.step escape c = some t') :
    Copied c ∧ t' = t.copy c := by
  unfold Translation.step at h
  split at h
  · rename_i hcopied
    exact ⟨hcopied.resolve_left hprev, (Option.some.inj h).symm⟩
  · split at h
    · rename_i hdot
      obtain ⟨hstar, hplus⟩ := hquant hdot.1
      exact absurd hdot.2.2 (not_or.2 ⟨hstar, hplus⟩)
    · cases h

/-- A quantifier behind a `.`: of `.*` the `_` goes. -/
theorem step_quantifier (hordinary : OrdinaryEscape escape) (hprev : t.prevChar ≠ escape)
    (hc : c = star ∨ c = plus) : (t.copy dot).step escape c = some {
      likeStr := (if c = star then t.likeStr else t.likeStr ++ [underscore]) ++ [percent]
      prevChar := c
      prevPrevChar := dot } := by
  have hnot : ¬ (dot = escape ∨ isalnum c ∨ c = blank ∨ c = dot) := by
    have hdot : dot ≠ escape := by
      rintro rfl
      exact absurd hordinary (by decide)
    rcases hc with rfl | rfl
    · simp only [hdot, false_or]
      decide
    · simp only [hdot, false_or]
      decide
  rw [Translation.step, Translation.copy, if_neg hnot, if_pos ⟨rfl, hprev, hc⟩, if_pos rfl,
    dropLast_concat]

theorem Copied.not_special (h : Copied c) : c ∉ [percent, underscore, openSet] := by
  rintro hmem
  simp only [mem_cons, not_mem_nil, or_false] at hmem
  rcases hmem with rfl | rfl | rfl <;> exact absurd h (by unfold Copied; decide)

theorem Copied.ne_escape (hordinary : OrdinaryEscape escape) (h : Copied c) : c ≠ escape := by
  rintro rfl
  obtain ⟨hnot, hmem⟩ := hordinary
  rcases h with halnum | rfl | rfl
  · exact absurd halnum (by simp [hnot])
  · exact absurd mem_cons_self (fun h => hmem (mem_cons_of_mem _ h))
  · exact hmem (by simp)

theorem Copied.not_meta (h : Copied c) : c ∉ metachars := by
  intro hmem
  simp only [metachars, map_cons, map_nil, mem_cons, not_mem_nil, or_false] at hmem
  rcases hmem with rfl | rfl | rfl | rfl | rfl | rfl | rfl | rfl | rfl | rfl | rfl | rfl <;>
    exact absurd h (by unfold Copied; decide)

-- ======== a translation

/-- A run of the translation begins with a copy. -/
theorem run_cons (hprev : t.prevChar ≠ escape)
    (hquant : t.prevChar = dot → ∀ d ∈ (c :: p).head?, d ≠ star ∧ d ≠ plus)
    (h : (c :: p).foldlM (Translation.step escape) t = some t') :
    Copied c ∧ p.foldlM (Translation.step escape) (t.copy c) = some t' := by
  obtain ⟨t₁, hstep, hrest⟩ := Option.bind_eq_some_iff.1 h
  obtain ⟨hcopied, rfl⟩ := step_copy hprev (fun hdot => hquant hdot c rfl) hstep
  exact ⟨hcopied, hrest⟩

/-- What the translation builds of the characters that are left, when the
one before them is no escape character and no `.` with a quantifier behind
it. -/
theorem translation_run (hordinary : OrdinaryEscape escape) (hprev : t.prevChar ≠ escape)
    (hquant : t.prevChar = dot → ∀ c ∈ p.head?, c ≠ star ∧ c ≠ plus)
    (h : p.foldlM (Translation.step escape) t = some t') :
    ∃ items rest, regexpItems escape p = some items ∧ t'.likeStr = t.likeStr ++ rest ∧
      (∀ x ∈ rest, Copied x ∨ x = underscore ∨ x = percent) ∧ Denotes escape rest items := by
  have hstar : star ≠ escape := by
    rintro rfl
    exact absurd hordinary (by decide)
  have hplus : plus ≠ escape := by
    rintro rfl
    exact absurd hordinary (by decide)
  have hstarDot : star ≠ dot := by decide
  have hplusDot : plus ≠ dot := by decide
  fun_induction regexpItems escape p generalizing t with
  | case1 =>
    cases h
    exact ⟨[], [], rfl, (append_nil _).symm, by simp, .nil⟩
  | case2 =>
    -- nothing that is accepted is the escape character
    exact absurd rfl ((run_cons hprev hquant h).1.ne_escape hordinary)
  | case3 d p ih =>
    exact absurd rfl ((run_cons hprev hquant h).1.ne_escape hordinary)
  | case4 hesc =>
    obtain ⟨-, hrest⟩ := run_cons hprev hquant h
    cases hrest
    exact ⟨_, [underscore], rfl, rfl, by simp, .one .nil⟩
  | case5 q p hq hesc ih =>
    obtain ⟨-, rfl⟩ := hq
    obtain ⟨-, hrest⟩ := run_cons hprev hquant h
    rw [foldlM_cons, step_quantifier hordinary hprev (.inl rfl)] at hrest
    obtain ⟨items, rest, hitems, hlike, hchars, hden⟩ :=
      ih hstar (fun hdot => absurd hdot hstarDot) hrest
    refine ⟨_, percent :: rest, by rw [hitems]; rfl, ?_, ?_, .any hden⟩
    · rw [hlike, if_pos rfl, append_assoc, singleton_append]
    · exact forall_mem_cons.2 ⟨.inr (.inr rfl), hchars⟩
  | case6 q p hne hq hesc ih =>
    obtain ⟨-, rfl⟩ := hq
    obtain ⟨-, hrest⟩ := run_cons hprev hquant h
    rw [foldlM_cons, step_quantifier hordinary hprev (.inr rfl)] at hrest
    obtain ⟨items, rest, hitems, hlike, hchars, hden⟩ :=
      ih hplus (fun hdot => absurd hdot hplusDot) hrest
    refine ⟨_, underscore :: percent :: rest, by rw [hitems]; rfl, ?_, ?_, .one (.any hden)⟩
    · rw [hlike, if_neg (by decide : plus ≠ star)]
      simp only [append_assoc, cons_append, nil_append]
    · exact forall_mem_cons.2 ⟨.inr (.inl rfl), forall_mem_cons.2 ⟨.inr (.inr rfl), hchars⟩⟩
  | case7 q p hqstar hqplus hesc ih =>
    obtain ⟨-, hrest⟩ := run_cons hprev hquant h
    obtain ⟨items, rest, hitems, hlike, hchars, hden⟩ :=
      ih hesc (fun _ d hd => Option.some.inj hd ▸
        ⟨fun h => hqstar ⟨h.symm ▸ hstar, h⟩, fun h => hqplus ⟨h.symm ▸ hplus, h⟩⟩) hrest
    refine ⟨_, underscore :: rest, by rw [hitems]; rfl, ?_, ?_, .one hden⟩
    · rw [hlike, Translation.copy, if_pos rfl, append_assoc, singleton_append]
    · exact forall_mem_cons.2 ⟨.inr (.inl rfl), hchars⟩
  | case8 c p hesc hdot hmeta =>
    exact absurd hmeta (run_cons hprev hquant h).1.not_meta
  | case9 c p hesc hdot hmeta ih =>
    obtain ⟨hcopied, hrest⟩ := run_cons hprev hquant h
    obtain ⟨items, rest, hitems, hlike, hchars, hden⟩ :=
      ih hesc (fun h => absurd h hdot) hrest
    refine ⟨_, c :: rest, by rw [hitems]; rfl, ?_, ?_, .lit hesc hcopied.not_special hden⟩
    · rw [hlike, Translation.copy, if_neg hdot, append_assoc, singleton_append]
    · exact forall_mem_cons.2 ⟨.inl hcopied, hchars⟩

/-- The escape character of the regular expressions. -/
def backslash : UInt8 := '\\'.toUInt8

theorem translation_exact (hordinary : OrdinaryEscape escape) (p : List UInt8) :
    TranslationExact escape p := by
  intro likeStr h
  obtain ⟨t, hrun, rfl⟩ := Option.map_eq_some_iff.1 h
  have hprev : (0 : UInt8) ≠ escape := by
    rintro rfl
    exact absurd hordinary (by decide)
  obtain ⟨items, rest, hitems, hlike, hchars, hden⟩ :=
    translation_run hordinary hprev (fun hdot => absurd hdot (by decide)) hrun
  refine ⟨items, hitems, fun str => ?_⟩
  have hmem : escape ∉ rest := by
    intro hmem
    rcases hchars _ hmem with hcopied | rfl | rfl
    · exact hcopied.ne_escape hordinary rfl
    · exact absurd hordinary (by decide)
    · exact absurd hordinary (by decide)
  have hbackslash : backslash ∉ rest := by
    intro hmem
    rcases hchars _ hmem with hcopied | h | h
    · exact absurd hcopied (by unfold Copied; decide)
    · exact absurd h (by decide)
    · exact absurd h (by decide)
  have hword : str.map (letter false) = str := map_id str
  have hiff := @like_iff_of_not_mem _ backslash false str _ _ hden hmem (by decide) hbackslash
  rw [hword] at hiff
  rw [hlike]
  exact hiff

-- ======== the other characters

theorem not_exact {likeStr str : List UInt8} {items : List (Item UInt8)}
    (hlike : translateToLikePattern p escape = some likeStr)
    (hitems : regexpItems escape p = some items)
    (hne : stringLike str likeStr escape = true ∧ str ∉ language items ∨
      stringLike str likeStr escape = false ∧ str ∈ language items) :
    ¬ TranslationExact escape p := by
  intro hexact
  obtain ⟨items', hitems', hiff⟩ := hexact likeStr hlike
  rw [hitems, Option.some_inj] at hitems'
  subst hitems'
  rcases hne with ⟨hmatch, hmem⟩ | ⟨hmatch, hmem⟩
  · exact hmem ((hiff str).1 hmatch)
  · exact absurd ((hiff str).2 hmem) (by simp [hmatch])

/-- A `.` behind an escape character that is copied becomes an escaped `_`. -/
theorem not_exact_of_copied (hc : Copied escape) (hdot : escape ≠ dot) :
    ¬ TranslationExact escape [escape, dot] := by
  have hlike : translateToLikePattern [escape, dot] escape = some [escape, underscore] := by
    have hfirst : 0 = escape ∨ isalnum escape = true ∨ escape = blank :=
      .inr (hc.imp_right fun h => h.resolve_right hdot)
    simp [translateToLikePattern, Translation.step, hfirst, hdot]
  have hitems : regexpItems escape [escape, dot] = some [.lit dot] := by
    simp [regexpItems]
  have hmem : [dot] ∈ language [Item.lit dot] := (cons_mem_language (by simp)).2 ⟨rfl, by simp⟩
  have hchar : sameChar false dot underscore = false := rfl
  refine @not_exact _ _ _ [dot] _ hlike hitems (.inr ⟨?_, hmem⟩)
  simp [stringLike, stringLikeMatch, likeTurn, hchar]

/-- `a.`, where `a` escapes the `.`, is translated to an escaped `_`. -/
theorem letter_not_exact : ¬ TranslationExact 97 (chars "a.") :=
  not_exact_of_copied (by unfold Copied; decide) (by decide)

/-- The translation is exact for every expression if and only if the escape
character is an ordinary one. -/
theorem translation_exact_iff (escape : UInt8) :
    (∀ p, TranslationExact escape p) ↔ OrdinaryEscape escape := by
  refine ⟨fun hexact => ?_, translation_exact⟩
  by_contra hnot
  have hspecial : escape ∈ [0, star, plus, percent, underscore, dot] ∨
      Copied escape ∧ escape ≠ dot := by
    unfold OrdinaryEscape at hnot
    unfold Copied
    grind
  rcases hspecial with hmem | ⟨hc, hdot⟩
  · simp only [mem_cons, not_mem_nil, or_false] at hmem
    rcases hmem with rfl | rfl | rfl | rfl | rfl | rfl
    · -- a `%` in front is copied
      refine @not_exact _ [percent] [percent] [] _ (by decide) rfl (.inl ⟨by decide, ?_⟩)
        (hexact _)
      exact nil_not_mem_language (by simp)
    · -- `.*a`, where `*` escapes the `a`, becomes `%a`
      refine @not_exact _ [dot, star, 97] [percent, 97] [97] _ (by decide) rfl
        (.inl ⟨by decide, ?_⟩) (hexact _)
      simp [cons_mem_language, nil_not_mem_language]
    · refine @not_exact _ [dot, plus, 97] [underscore, percent, 97] [98, 98, 97] _ (by decide) rfl
        (.inl ⟨by decide, ?_⟩) (hexact _)
      simp [cons_mem_language, Item.Takes]
    · -- the wildcards that come out are escapes
      refine @not_exact _ [dot, star] [percent] [97] _ (by decide) rfl
        (.inr ⟨by decide, by simp⟩) (hexact _)
    · refine @not_exact _ [dot] [underscore] [97] _ (by decide) rfl
        (.inr ⟨by decide, ?_⟩) (hexact _)
      simp [cons_mem_language, Item.Takes]
    · -- an escaped `.` becomes a `_`
      refine @not_exact _ [dot, dot] [underscore, underscore] [dot] _ (by decide) rfl
        (.inr ⟨by decide, ?_⟩) (hexact _)
      simp [cons_mem_language, Item.Takes]
  · exact not_exact_of_copied hc hdot (hexact _)

/-- It is with `\`, the one that a REGEXP may have. -/
example : OrdinaryEscape backslash := by decide

end Compass.Like
