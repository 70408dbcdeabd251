/-
The matcher answers, and it answers right.

Every turn of the loop and every call leaves a shorter pattern, so a
pattern's length bounds both (`stringLikeMatch_answers`). For a well-formed
pattern each status says something of the words of the pattern (`Says`),
`likeAbort` that no end of the string is one of them. That is what a try
behind a `%` needs: one that aborts speaks for all the places behind it.
The statements are about the letters that are compared, so that they hold
of LIKE and ILIKE alike.
-/
import Compass.Like.Patterns

namespace Compass.Like

open Wildcard List Option Nat

variable {escape : UInt8} {isIlike : Bool}

-- ======== termination

variable {s p : List UInt8}

theorem skipWildcards_suffix {s' p' : List UInt8} (h : skipWildcards s p = some (s', p')) :
    p' <:+ p := by
  induction p generalizing s with
  | nil =>
    simp only [skipWildcards, some.injEq, Prod.mk.injEq] at h
    exact h.2 ▸ suffix_rfl
  | cons q p ih =>
    simp only [skipWildcards] at h
    split at h
    · exact (ih h).trans (suffix_cons q p)
    · split at h
      · cases s with
        | nil => cases h
        | cons c s => exact (ih h).trans (suffix_cons q p)
      · simp only [some.injEq, Prod.mk.injEq] at h
        exact h.2 ▸ suffix_rfl

theorem length_scanSet (isIlike : Bool) (c : UInt8) (p : List UInt8) :
    (scanSet isIlike c p).2.length ≤ p.length := by
  induction p with
  | nil => simp [scanSet]
  | cons q p ih =>
    simp only [scanSet]
    split
    · exact le_refl _
    · split
      · exact le_refl _
      · exact le_succ_of_le ih

/-- What is left behind a set is shorter than what the set was looked for in. -/
theorem length_afterSet {c d : UInt8} {pp rest : List UInt8} {found : Bool}
    (hscan : scanSet isIlike c p = (found, pp))
    (hrest : pp.tail.dropWhile (· ≠ closeSet) = d :: rest) : rest.length < p.length := by
  have hpp : pp.length ≤ p.length := by simpa [hscan] using length_scanSet isIlike c p
  have hle := (dropWhile_suffix (l := pp.tail) (fun x => decide (x ≠ closeSet))).length_le
  rw [hrest, length_cons, length_tail] at hle
  omega

/-- The places are tried alike by calls that agree, and answered. -/
theorem tryPlaces_congr {call call' : List UInt8 → List UInt8 → Option LikeStatus}
    {firstpat : UInt8} (hcall : ∀ s, (call s p).isSome ∧ call' s p = call s p) (s : List UInt8) :
    (tryPlaces escape isIlike call firstpat p s).isSome ∧
      tryPlaces escape isIlike call' firstpat p s = tryPlaces escape isIlike call firstpat p s := by
  induction s with
  | nil => exact ⟨rfl, rfl⟩
  | cons c s ih =>
    obtain ⟨hsome, heq⟩ := hcall (c :: s)
    simp only [tryPlaces, heq]
    cases startsAt escape isIlike firstpat p c with
    | none => exact ⟨rfl, rfl⟩
    | some fits =>
      cases fits with
      | false => exact ih
      | true =>
        cases hstatus : call (c :: s) p with
        | none => simp [hstatus] at hsome
        | some status =>
          cases status with
          | likeFalse => exact ih
          | likeTrue | likeAbort | likeError => exact ⟨rfl, rfl⟩

/-- A turn needs the rest of the loop and the calls for shorter patterns. -/
theorem likeTurn_congr {call call' : List UInt8 → List UInt8 → Option LikeStatus} {c q : UInt8}
    (hcall : ∀ s p', p'.length ≤ p.length → (call s p').isSome ∧ call' s p' = call s p') :
    (likeTurn escape isIlike call c s q p).isSome ∧
      likeTurn escape isIlike call' c s q p = likeTurn escape isIlike call c s q p := by
  simp only [likeTurn]
  split
  · -- an escaped character
    cases p with
    | nil => exact ⟨rfl, rfl⟩
    | cons lit p =>
      dsimp only
      split
      · exact ⟨rfl, rfl⟩
      · exact hcall _ _ (le_succ _)
  · split
    · -- behind a `%`
      cases hskip : skipWildcards (c :: s) p with
      | none => exact ⟨rfl, rfl⟩
      | some rest =>
        obtain ⟨s', p'⟩ := rest
        have hlen := (skipWildcards_suffix hskip).length_le
        cases p' with
        | nil => exact ⟨rfl, rfl⟩
        | cons f p' =>
          dsimp only
          split
          · cases p' with
            | nil => exact ⟨rfl, rfl⟩
            | cons firstpat p' => exact tryPlaces_congr (fun t => hcall t _ hlen) s'
          · exact tryPlaces_congr (fun t => hcall t _ hlen) s'
    · split
      · exact hcall _ _ (le_refl _)
      · split
        · -- a set
          cases hscan : scanSet isIlike c p with
          | mk found pp =>
            cases found with
            | false => exact ⟨rfl, rfl⟩
            | true =>
              dsimp only
              split
              · exact ⟨rfl, rfl⟩
              · rename_i hrest
                exact hcall _ _ (le_of_lt (length_afterSet hscan hrest))
        · split
          · exact ⟨rfl, rfl⟩
          · exact hcall _ _ (le_refl _)

/-- Fuel above the length of the pattern is enough, and more of it changes
nothing. -/
theorem stringLikeMatch_succ {fuel : Nat} (hfuel : p.length < fuel) :
    (stringLikeMatch escape isIlike fuel s p).isSome ∧
      stringLikeMatch escape isIlike (fuel + 1) s p = stringLikeMatch escape isIlike fuel s p := by
  induction fuel generalizing s p with
  | zero => exact absurd hfuel (not_lt_zero _)
  | succ fuel ih =>
    cases s with
    | nil => exact ⟨rfl, rfl⟩
    | cons c s =>
      cases p with
      | nil => exact ⟨rfl, rfl⟩
      | cons q p =>
        have hp : p.length < fuel := lt_of_succ_lt_succ hfuel
        exact likeTurn_congr fun s p' hle => ih (lt_of_le_of_lt hle hp)

/-- The matcher answers, whatever the pattern. -/
theorem stringLikeMatch_answers (s p : List UInt8) :
    ∃ status, ∀ fuel, p.length < fuel →
      stringLikeMatch escape isIlike fuel s p = some status := by
  have hsome : (stringLikeMatch escape isIlike (p.length + 1) s p).isSome :=
    (stringLikeMatch_succ (lt_succ_self _)).1
  obtain ⟨status, hstatus⟩ := isSome_iff_exists.1 hsome
  refine ⟨status, fun fuel hfuel => ?_⟩
  induction fuel, hfuel using le_induction with
  | base => exact hstatus
  | succ fuel hle ih => rw [(stringLikeMatch_succ hle).2, ih]

-- ======== the words

/-- The letter that a character of the string is compared as. -/
def letter (isIlike : Bool) (c : UInt8) : UInt8 :=
  if isIlike then lowercase c else c

theorem sameChar_eq (c q : UInt8) : sameChar isIlike c q = decide (letter isIlike c = q) := by
  cases isIlike <;> simp [sameChar, letter, Bool.beq_eq_decide_eq]

/-- What a status says of a string and a pattern. -/
def Says : LikeStatus → List UInt8 → List (Item UInt8) → Prop
  | .likeTrue, w, items => w ∈ language items
  | .likeFalse, w, items => w ∉ language items
  | .likeAbort, w, items => w ∉ language (.any :: items)
  | .likeError, _, _ => False

variable {c q : UInt8} {s p w : List UInt8} {item : Item UInt8} {items : List (Item UInt8)}
  {status : LikeStatus} {call : List UInt8 → List UInt8 → Option LikeStatus}

/-- What is said behind a letter that fits is said with it. -/
theorem Says.cons (hitem : item ≠ .any) (htakes : item.Takes c) (h : Says status w items) :
    Says status (c :: w) (item :: items) := by
  cases status with
  | likeTrue => exact (cons_mem_language hitem).2 ⟨htakes, h⟩
  | likeFalse => exact fun hmem => h ((cons_mem_language hitem).1 hmem).2
  | likeAbort =>
    intro hmem
    obtain ⟨t, hsuf, ht⟩ := mem_language_any.1 hmem
    cases t with
    | nil => exact nil_not_mem_language hitem ht
    | cons d t =>
      refine h (mem_language_any.2 ⟨t, ?_, ((cons_mem_language hitem).1 ht).2⟩)
      rcases suffix_cons_iff.1 hsuf with heq | hsuf
      · exact (cons.inj heq).2 ▸ suffix_rfl
      · exact (suffix_cons d t).trans hsuf
  | likeError => exact h

theorem says_false (hitem : item ≠ .any) (htakes : ¬ item.Takes c) :
    Says .likeFalse (c :: w) (item :: items) :=
  fun hmem => htakes ((cons_mem_language hitem).1 hmem).1

/-- The call for a pattern answers, and answers right. -/
def Answers (isIlike : Bool) (call : List UInt8 → List UInt8 → Option LikeStatus)
    (p : List UInt8) (items : List (Item UInt8)) : Prop :=
  ∀ s, ∃ status, call s p = some status ∧ Says status (s.map (letter isIlike)) items

-- ======== a set

/-- A set is searched up to its end; from the letter found, its end is
found too. -/
theorem scanSet_set {cs : List UInt8} (hcs : closeSet ∉ cs) (c : UInt8) (p : List UInt8) :
    (letter isIlike c ∈ cs → ∃ d pp, scanSet isIlike c (cs ++ closeSet :: p) = (true, d :: pp) ∧
      pp.dropWhile (· ≠ closeSet) = closeSet :: p) ∧
    (letter isIlike c ∉ cs →
      scanSet isIlike c (cs ++ closeSet :: p) = (false, closeSet :: p)) := by
  induction cs with
  | nil => simp [scanSet]
  | cons d cs ih =>
    simp only [mem_cons, not_or] at hcs
    obtain ⟨hd, hcs⟩ := hcs
    simp only [cons_append, scanSet, sameChar_eq, if_neg (Ne.symm hd), decide_eq_true_eq]
    by_cases hfits : letter isIlike c = d
    · have hdrop : (cs ++ closeSet :: p).dropWhile (· ≠ closeSet) = closeSet :: p := by
        rw [dropWhile_append_of_pos fun x hx => by
          simpa using fun h : x = closeSet => hcs (h ▸ hx)]
        simp
      refine ⟨fun _ => ⟨d, _, if_pos hfits, hdrop⟩, fun hnot => ?_⟩
      exact absurd (hfits ▸ mem_cons_self) hnot
    · simp only [mem_cons, hfits, false_or]
      exact ih hcs

-- ======== wildcards

theorem PlainEscape.ne (h : PlainEscape escape) :
    escape ≠ percent ∧ escape ≠ underscore ∧ escape ≠ openSet := by
  simpa [PlainEscape] using h

/-- The wildcards behind a `%` use up letters, and what is left does not
begin with a wildcard. -/
theorem skipWildcards_answers (hp : Denotes escape p items) (hplain : PlainEscape escape)
    (s : List UInt8) :
    match skipWildcards s p with
    | none => s.map (letter isIlike) ∉ language (.any :: items)
    | some (s', p') => ∃ items', Denotes escape p' items' ∧
        (∀ f rest, p' = f :: rest → f ∉ [percent, underscore]) ∧
        (s.map (letter isIlike) ∈ language (.any :: items) ↔
          s'.map (letter isIlike) ∈ language (.any :: items')) := by
  induction hp generalizing s with
  | nil => exact ⟨[], .nil, by simp, Iff.rfl⟩
  | @escaped d p items hp ih =>
    obtain ⟨hpercent, hunderscore, -⟩ := hplain.ne
    simp only [skipWildcards, if_neg hpercent, if_neg hunderscore]
    exact ⟨_, .escaped hp, by simp [hpercent, hunderscore], Iff.rfl⟩
  | @any p items hp ih =>
    simp only [skipWildcards, if_true, language_any_any]
    exact ih s
  | @one p items hp ih =>
    cases s with
    | nil =>
      simp only [map_nil, nil_mem_language_any]
      exact nil_not_mem_language (by simp)
    | cons c s =>
      simp only [map_cons, language_any_one]
      exact ih s
  | @set cs p items hcs hp ih =>
    exact ⟨_, .set hcs hp, by simp; decide, Iff.rfl⟩
  | @lit d p items hesc hd hp ih =>
    simp only [mem_cons, not_mem_nil, or_false, not_or] at hd
    simp only [skipWildcards, if_neg hd.1, if_neg hd.2.1]
    exact ⟨_, .lit hesc (by simp [hd]) hp, by simp [hd], Iff.rfl⟩

/-- Where the pattern behind a `%` can begin: at a letter that its first
item takes. -/
theorem startsAt_takes {f : UInt8} (hp : Denotes escape (f :: p) items)
    (hplain : PlainEscape escape) (hf : f ∉ [percent, underscore]) :
    ∃ item rest, items = item :: rest ∧ item ≠ .any ∧
      (f = escape → ∃ lit p', p = lit :: p' ∧
        ∀ c, startsAt escape isIlike lit (f :: p) c
          = some (decide (item.Takes (letter isIlike c)))) ∧
      (f ≠ escape →
        ∀ c, startsAt escape isIlike f (f :: p) c
          = some (decide (item.Takes (letter isIlike c)))) := by
  cases hp with
  | @escaped d p items hp =>
    refine ⟨_, _, rfl, by simp, fun _ => ⟨d, p, rfl, fun c => ?_⟩, fun h => absurd rfl h⟩
    simp [startsAt, sameChar_eq, Item.Takes]
  | any hp | one hp => simp at hf
  | @set cs p items hcs hp =>
    refine ⟨_, _, rfl, by simp, fun h => ?_, fun hesc c => ?_⟩
    · exact absurd h.symm hplain.ne.2.2
    · have hset : openSet = openSet ∧ (openSet :: (cs ++ closeSet :: p)).head? ≠ some escape :=
        ⟨rfl, fun h => hesc (some.inj h)⟩
      rw [startsAt, if_pos hset, tail_cons]
      obtain ⟨hin, hout⟩ := @scanSet_set isIlike _ hcs c p
      by_cases htakes : letter isIlike c ∈ cs
      · obtain ⟨d, pp, hscan, -⟩ := hin htakes
        simp [hscan, Item.Takes, htakes]
      · simp [hout htakes, Item.Takes, htakes]
  | lit hesc hd hp =>
    refine ⟨_, _, rfl, by simp, fun h => absurd h hesc, fun _ c => ?_⟩
    simp only [mem_cons, not_mem_nil, or_false, not_or] at hd
    simp [startsAt, sameChar_eq, Item.Takes, hd.2.2]

/-- The tries behind a `%` tell whether an end of the string is a word. -/
theorem tryPlaces_answers {firstpat : UInt8} (hitem : item ≠ .any)
    (hstart : ∀ c, startsAt escape isIlike firstpat p c =
      some (decide (item.Takes (letter isIlike c))))
    (hcall : Answers isIlike call p (item :: items)) (s : List UInt8) :
    ∃ status, tryPlaces escape isIlike call firstpat p s = some status ∧
      (status = .likeTrue ∧ s.map (letter isIlike) ∈ language (.any :: item :: items) ∨
        status = .likeAbort ∧ s.map (letter isIlike) ∉ language (.any :: item :: items)) := by
  induction s with
  | nil =>
    refine ⟨_, rfl, .inr ⟨rfl, ?_⟩⟩
    rw [map_nil, nil_mem_language_any]
    exact nil_not_mem_language hitem
  | cons c s ih =>
    simp only [tryPlaces, hstart, map_cons, cons_mem_language_any]
    by_cases htakes : item.Takes (letter isIlike c)
    · obtain ⟨status, hstatus, hsays⟩ := hcall (c :: s)
      rw [map_cons] at hsays
      simp only [htakes, decide_true, hstatus]
      cases status with
      | likeTrue => exact ⟨_, rfl, .inl ⟨rfl, .inl hsays⟩⟩
      | likeFalse => simpa only [show _ ∉ _ from hsays, false_or] using ih
      | likeAbort =>
        refine ⟨_, rfl, .inr ⟨rfl, ?_⟩⟩
        rw [← cons_mem_language_any]
        exact hsays
      | likeError => exact hsays.elim
    · simpa only [htakes, decide_false, cons_mem_language hitem, false_and, false_or] using ih

-- ======== the turns

/-- A turn answers right for a pattern, if the rest of the loop and the calls
do for shorter ones. -/
theorem likeTurn_answers (hp : Denotes escape (q :: p) items) (hplain : PlainEscape escape)
    (hcall : ∀ p' items', p'.length ≤ p.length → Denotes escape p' items' →
      Answers isIlike call p' items') (c : UInt8) (s : List UInt8) :
    ∃ status, likeTurn escape isIlike call c s q p = some status ∧
      Says status ((c :: s).map (letter isIlike)) items := by
  obtain ⟨hpercent, hunderscore, hopen⟩ := hplain.ne
  cases hp with
  | @escaped d p items hp =>
    simp only [likeTurn, if_true, sameChar_eq]
    by_cases htakes : letter isIlike c = d
    · obtain ⟨status, hstatus, hsays⟩ := hcall p items (le_succ _) hp s
      exact ⟨status, by simp [htakes, hstatus], hsays.cons (by simp) htakes⟩
    · exact ⟨.likeFalse, by simp [htakes], says_false (by simp) htakes⟩
  | @any p items hp =>
    simp only [likeTurn, if_neg hpercent.symm, if_true]
    have hskip := @skipWildcards_answers _ isIlike _ _ hp hplain (c :: s)
    cases hrest : skipWildcards (c :: s) p with
    | none =>
      rw [hrest] at hskip
      exact ⟨_, rfl, fun hmem => hskip (language_any_any.1 hmem)⟩
    | some rest =>
      obtain ⟨s', p'⟩ := rest
      rw [hrest] at hskip
      obtain ⟨items', hp', hfirst, hiff⟩ := hskip
      cases p' with
      | nil =>
        cases hp'
        exact ⟨_, rfl, hiff.2 mem_language_any_nil⟩
      | cons f p' =>
        obtain ⟨item, rest, rfl, hitem, hescape, hplainChar⟩ :=
          @startsAt_takes _ isIlike _ _ _ hp' hplain (hfirst f p' rfl)
        have hans := hcall _ _ (skipWildcards_suffix hrest).length_le hp'
        have hplaces : ∀ o, (∃ status, o = some status ∧
            (status = .likeTrue ∧
                s'.map (letter isIlike) ∈ language (.any :: item :: rest) ∨
              status = .likeAbort ∧
                s'.map (letter isIlike) ∉ language (.any :: item :: rest))) →
            ∃ status, o = some status ∧
              Says status ((c :: s).map (letter isIlike)) (.any :: items) := by
          rintro _ ⟨status, rfl, ⟨rfl, hmem⟩ | ⟨rfl, hmem⟩⟩
          · exact ⟨_, rfl, hiff.2 hmem⟩
          · exact ⟨_, rfl, fun h => hmem (hiff.1 (language_any_any.1 h))⟩
        -- a try for every place that is left
        dsimp only
        apply hplaces
        by_cases hf : f = escape
        · obtain ⟨lit, p'', rfl, hstart⟩ := hescape hf
          rw [if_pos hf]
          exact tryPlaces_answers hitem hstart hans s'
        · rw [if_neg hf]
          exact tryPlaces_answers hitem (hplainChar hf) hans s'
  | @one p items hp =>
    obtain ⟨status, hstatus, hsays⟩ := hcall p items (le_refl _) hp s
    refine ⟨status, ?_, hsays.cons (by simp) trivial⟩
    simp [likeTurn, hunderscore.symm, hstatus, (by decide : underscore ≠ percent)]
  | @set cs p items hcs hp =>
    obtain ⟨hin, hout⟩ := @scanSet_set isIlike _ hcs c p
    simp only [likeTurn, if_neg hopen.symm, if_neg (by decide : openSet ≠ percent),
      if_neg (by decide : openSet ≠ underscore), if_true]
    by_cases htakes : letter isIlike c ∈ cs
    · obtain ⟨d, pp, hscan, hdrop⟩ := hin htakes
      obtain ⟨status, hstatus, hsays⟩ :=
        hcall p items (by simp only [length_append, length_cons]; omega) hp s
      simp only [hscan, tail_cons, hdrop]
      exact ⟨status, hstatus, hsays.cons (by simp) htakes⟩
    · simp only [hout htakes]
      exact ⟨_, rfl, says_false (by simp) htakes⟩
  | @lit _ p items hesc hd hp =>
    simp only [mem_cons, not_mem_nil, or_false, not_or] at hd
    obtain ⟨hnp, hnu, hno⟩ := hd
    simp only [likeTurn, if_neg hesc, if_neg hnp, if_neg hnu, if_neg hno, sameChar_eq]
    by_cases htakes : letter isIlike c = q
    · obtain ⟨status, hstatus, hsays⟩ := hcall p items (le_refl _) hp s
      exact ⟨status, by simp [htakes, hstatus], hsays.cons (by simp) htakes⟩
    · exact ⟨.likeFalse, by simp [htakes], says_false (by simp) htakes⟩

/-- A pattern of nothing but `%` stands for the empty word too. -/
theorem dropWhile_percent_iff (hp : Denotes escape p items) (hplain : PlainEscape escape) :
    p.dropWhile (· = percent) = [] ↔ [] ∈ language items := by
  induction hp with
  | nil => simp
  | escaped hp ih =>
    simp [hplain.ne.1, nil_not_mem_language]
  | any hp ih => simpa using ih
  | one hp ih =>
    simp [(by decide : underscore ≠ percent), nil_not_mem_language]
  | set hcs hp ih =>
    simp [(by decide : openSet ≠ percent), nil_not_mem_language]
  | lit hesc hd hp ih =>
    simp only [mem_cons, not_or] at hd
    simp [hd.1, nil_not_mem_language]

/-- The matcher answers right for every well-formed pattern. -/
theorem stringLikeMatch_exact (hp : Denotes escape p items) (hplain : PlainEscape escape)
    {fuel : Nat} (hfuel : p.length < fuel) :
    Answers isIlike (stringLikeMatch escape isIlike fuel) p items := by
  intro s
  induction fuel generalizing p items s with
  | zero => exact absurd hfuel (not_lt_zero _)
  | succ fuel ih =>
    cases s with
    | nil =>
      have hiff := dropWhile_percent_iff hp hplain
      rw [stringLikeMatch, map_nil]
      split
      · rename_i hnil
        exact ⟨_, rfl, hiff.1 hnil⟩
      · rename_i hnil
        exact ⟨_, rfl, fun h => hnil (hiff.2 (nil_mem_language_any.1 h))⟩
    | cons c s =>
      cases p with
      | nil =>
        cases hp
        exact ⟨_, rfl, by simp [Says]⟩
      | cons q p =>
        have hlt : p.length < fuel := lt_of_succ_lt_succ hfuel
        exact likeTurn_answers hp hplain
          (fun p' items' hle hp' t => ih hp' (lt_of_le_of_lt hle hlt) t) c s

/-- A matcher that answers right answers `likeTrue` for the words. -/
theorem Says.eq_likeTrue_iff (h : Says status w items) :
    status = .likeTrue ↔ w ∈ language items := by
  cases status with
  | likeTrue => exact ⟨fun _ => h, fun _ => rfl⟩
  | likeFalse => exact ⟨(fun heq => nomatch heq), fun hmem => absurd hmem h⟩
  | likeAbort =>
    exact ⟨(fun heq => nomatch heq), fun hmem => absurd (mem_language_any_of_mem hmem) h⟩
  | likeError => exact h.elim

theorem Answers.eq_likeTrue_iff (h : Answers isIlike call p items) (s : List UInt8) :
    call s p = some .likeTrue ↔ s.map (letter isIlike) ∈ language items := by
  obtain ⟨status, hstatus, hsays⟩ := h s
  rw [hstatus, some_inj]
  exact hsays.eq_likeTrue_iff

/-- LIKE and ILIKE terminate on every input, and tell for every well-formed
pattern whether the string, for ILIKE in lower case, is one of its words. -/
theorem stringLike_exact (escape : UInt8) :
    (∀ isIlike s p, ∃ status, ∀ fuel, p.length < fuel →
      stringLikeMatch escape isIlike fuel s p = some status) ∧
    (PlainEscape escape → ∀ p items, Denotes escape p items → ∀ s,
      (stringLike s p escape = true ↔ s ∈ language items) ∧
      (stringIlike s p escape = true ↔ s.map lowercase ∈ language items)) := by
  refine ⟨fun isIlike s p => stringLikeMatch_answers s p, fun hplain p items hp s => ?_⟩
  have hlike := fun isIlike =>
    (@stringLikeMatch_exact _ isIlike _ _ hp hplain _ (Nat.lt_succ_self _)).eq_likeTrue_iff s
  constructor
  · have hword : s.map (letter false) = s := map_id s
    simpa [stringLike, hword] using hlike false
  · have hword : s.map (letter true) = s.map lowercase := rfl
    simpa [stringIlike, hword] using hlike true

/-- The characters of a text. -/
def chars (text : String) : List UInt8 := text.toList.map Char.toUInt8

/-- `axxc%z` and, for ILIKE, `AXXC%Z` match `a%[bc]!%_`, where `!` escapes. -/
theorem stringLike_exact_axxc :
    chars "axxc%z" ∈ language [.lit 97, .any, .set [98, 99], .lit 37, .one] ∧
      (chars "AXXC%Z").map lowercase ∈ language [.lit 97, .any, .set [98, 99], .lit 37, .one] := by
  have hp : Denotes 33 (chars "a%[bc]!%_") [.lit 97, .any, .set [98, 99], .lit 37, .one] :=
    .lit (by decide) (by decide)
      (.any (@Denotes.set _ [98, 99] _ _ (by decide) (.escaped (.one .nil))))
  have hexact := (stringLike_exact 33).2 (by decide) _ _ hp
  exact ⟨(hexact _).1.1 (by decide), (hexact _).2.1 (by decide)⟩

end Compass.Like
