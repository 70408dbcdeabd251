/-
Loops that may fail.

`List.foldlM` in `Option` is a loop whose body may have no result; the
loop then has none. What every successful step preserves, a successful
loop preserves.

Lists of results of which some may be missing.

A function runs over a list, each element gives a result or nothing, and
the results there are stand in a list of their own (`reduceOption`). The
lemmas go from what holds of each element and its result to what holds of
the two lists.

Actions on a state that may throw, abort or have no defined behaviour.

An exception leaves the state as it is at the throw; an abort ends the
program, and after undefined behaviour nothing is known. `Meets Q E` says
that an outcome is defined, that `Q` holds of a result and the state after
it, and that `E` holds of the state after an exception; with `bind` and
`forEach` below it is a calculus of weakest preconditions.
-/
import Mathlib.Data.List.Forall2
import Mathlib.Data.List.ReduceOption

namespace OptionFold

open List Option

variable {β γ : Type _} {f : β → γ → Option β}
variable {l : List γ}

theorem foldlM_cons_eq_some {c : γ} {b b' : β} : (c :: l).foldlM f b = some b'
      ↔ ∃ b₁, f b c = some b₁ ∧ l.foldlM f b₁ = some b' := by
  rw [foldlM_cons, bind_eq_bind, bind_eq_some_iff]

/-- The invariant rule. -/
theorem foldlM_preserves {P : β → Prop} (hstep : ∀ b, ∀ c ∈ l, ∀ b', P b → f b c = some b' → P b') :
    ∀ {b b' : β}, P b → l.foldlM f b = some b' → P b' := by
  induction l with
  | nil =>
    intro b b' hb h
    cases h
    exact hb
  | cons c l ih =>
    intro b b' hb h
    obtain ⟨b₁, h₁, h⟩ := foldlM_cons_eq_some.mp h
    exact ih (fun b d hd => hstep b d (mem_cons_of_mem c hd))
      (hstep b c mem_cons_self b₁ hb h₁) h

/-- A loop that does nothing at some of the elements. -/
theorem foldlM_filter {p : γ → Prop} [DecidablePred p]
    (hskip : ∀ b c, ¬ p c → f b c = some b) (l : List γ) :
    ∀ b, l.foldlM f b = (l.filter p).foldlM f b := by
  induction l with
  | nil => exact fun _ => rfl
  | cons c l ih =>
    intro b
    by_cases hc : p c
    · rw [filter_cons_of_pos (by simpa using hc), foldlM_cons, foldlM_cons]
      exact congrArg _ (funext ih)
    · rw [filter_cons_of_neg (by simpa using hc), foldlM_cons, hskip b c hc]
      exact ih b

/-- A loop that maps, when every element has a value. -/
theorem mapM_eq_map {δ : Type _} {h : γ → Option δ} {k : γ → δ} (hl : ∀ c ∈ l, h c = some (k c)) :
    l.mapM h = some (l.map k) := by
  induction l with
  | nil => rfl
  | cons c l ih =>
    rw [mapM_cons, hl c (by simp), ih fun d hd => hl d (by simp [hd])]
    rfl

/-- A loop that maps, when every element has a value that is right for it. -/
theorem mapM_forall₂ {δ : Type _} {h : γ → Option δ} {P : γ → δ → Prop}
    (hl : ∀ c ∈ l, ∃ d, h c = some d ∧ P c d) : ∃ ds, l.mapM h = some ds ∧ Forall₂ P l ds := by
  induction l with
  | nil => exact ⟨[], rfl, .nil⟩
  | cons c l ih =>
    obtain ⟨d, hd, hP⟩ := hl c mem_cons_self
    obtain ⟨ds, hds, hall⟩ := ih fun c' hc' => hl c' (mem_cons_of_mem c hc')
    exact ⟨d :: ds, by rw [mapM_cons, hd, hds]; rfl, .cons hP hall⟩

theorem mapM_cons_eq_some {δ : Type _} {h : γ → Option δ} {c : γ} {r : List δ} :
    (c :: l).mapM h = some r ↔ ∃ d ds, h c = some d ∧ l.mapM h = some ds ∧ r = d :: ds := by
  rw [mapM_cons, bind_eq_bind, bind_eq_some_iff]
  constructor
  · rintro ⟨d, hd, hr⟩
    rw [bind_eq_bind, bind_eq_some_iff] at hr
    obtain ⟨ds, hds, hr⟩ := hr
    exact ⟨d, ds, hd, hds, (some.inj hr).symm⟩
  · rintro ⟨d, ds, hd, hds, rfl⟩
    exact ⟨d, hd, by rw [hds]; rfl⟩

theorem forall₂_of_mapM {δ : Type _} {h : γ → Option δ} :
    ∀ {l : List γ} {r : List δ}, l.mapM h = some r →
      Forall₂ (fun c d => h c = some d) l r := by
  intro l
  induction l with
  | nil =>
    intro r hr
    cases hr
    exact .nil
  | cons c l ih =>
    intro r hr
    obtain ⟨d, ds, hd, hds, rfl⟩ := mapM_cons_eq_some.mp hr
    exact .cons hd (ih hds)

theorem mapM_length {δ : Type _} {h : γ → Option δ} :
    ∀ {l : List γ} {r : List δ}, l.mapM h = some r → r.length = l.length :=
  fun hr => (forall₂_of_mapM hr).length_eq.symm

/-- Every value is that of an element, and every element has one. -/
theorem mapM_mem {δ : Type _} {h : γ → Option δ} :
    ∀ {l : List γ} {r : List δ}, l.mapM h = some r →
      (∀ d ∈ r, ∃ c ∈ l, h c = some d) ∧ ∀ c ∈ l, ∃ d ∈ r, h c = some d := by
  intro l
  induction l with
  | nil =>
    intro r hr
    cases hr
    simp
  | cons c l ih =>
    intro r hr
    obtain ⟨d, ds, hd, hds, rfl⟩ := mapM_cons_eq_some.mp hr
    obtain ⟨hfrom, hto⟩ := ih hds
    refine ⟨?_, ?_⟩
    · rw [forall_mem_cons]
      refine ⟨⟨c, mem_cons_self, hd⟩, fun d' hd' => ?_⟩
      obtain ⟨c', hc', h'⟩ := hfrom d' hd'
      exact ⟨c', mem_cons_of_mem _ hc', h'⟩
    · rw [forall_mem_cons]
      refine ⟨⟨d, mem_cons_self, hd⟩, fun c' hc' => ?_⟩
      obtain ⟨d', hd', h'⟩ := hto c' hc'
      exact ⟨d', mem_cons_of_mem _ hd', h'⟩

end OptionFold

namespace Results

open List

/-- A result of two steps comes from a result of the first. -/
theorem bind_eq_ok {ε α β : Type _} {x : Except ε α} {f : α → Except ε β} {b : β} :
    (x >>= f) = .ok b ↔ ∃ a, x = .ok a ∧ f a = .ok b := by
  cases x with
  | error e | ok a => simp [bind, Except.bind]

variable {α β γ : Type} {R : α → Option β → Prop} {xs : List α} {os : List (Option β)}

/-- A run over a list that threads a state: the results there are stand in
the list. -/
theorem forall₂_of_run {σ : Type} {f : α → σ → Option (Option β × σ)}
    {g : List α → σ → Option (List β × σ)} (hnil : ∀ s, g [] s = some ([], s))
    (hcons : ∀ x xs s, g (x :: xs) s = do
      let (o, s) ← f x s
      let (rs, s) ← g xs s
      some (o.toList ++ rs, s)) {rs : List β} {s s' : σ} (h : g xs s = some (rs, s')) :
    ∃ os : List (Option β), rs = os.reduceOption
      ∧ Forall₂ (fun x o => ∃ s s', f x s = some (o, s')) xs os := by
  induction xs generalizing rs s with
  | nil =>
    rw [hnil] at h
    cases h
    exact ⟨[], rfl, .nil⟩
  | cons x xs ih =>
    simp only [hcons, Option.bind_eq_bind, Option.bind_eq_some_iff] at h
    obtain ⟨⟨o, s₁⟩, ho, ⟨rs', s₂⟩, hrs, heq⟩ := h
    cases heq
    obtain ⟨os, rfl, hall⟩ := ih hrs
    refine ⟨o :: os, ?_, .cons ⟨s, s₁, ho⟩ hall⟩
    cases o <;> rfl

/-- What holds of every element joins what holds of it and its result. -/
theorem forall₂_and {Q : α → Prop} {S : α → Option β → Prop} (hq : ∀ x ∈ xs, Q x)
    (h : Forall₂ R xs os) (hs : ∀ x o, Q x → R x o → S x o) :
    Forall₂ S xs os := by
  have hboth := (forall₂_and_left xs os).mpr ⟨hq, h⟩
  exact hboth.imp fun x o hx => hs x o hx.1 hx.2

/-- Every result there is comes from an element. -/
theorem exists_of_mem {r : β} (h : Forall₂ R xs os) (hr : r ∈ os.reduceOption) :
    ∃ x ∈ xs, R x (some r) := by
  induction h with
  | nil => cases hr
  | @cons x o xs os hx _ ih =>
    cases o with
    | none =>
      obtain ⟨y, hy, hR⟩ := ih hr
      exact ⟨y, mem_cons_of_mem _ hy, hR⟩
    | some r' =>
      rw [reduceOption_cons_of_some, mem_cons] at hr
      rcases hr with rfl | hr
      · exact ⟨x, mem_cons_self, hx⟩
      · obtain ⟨y, hy, hR⟩ := ih hr
        exact ⟨y, mem_cons_of_mem _ hy, hR⟩

/-- Every element that is not dropped has its result in the list. -/
theorem exists_result {x : α} (h : Forall₂ R xs os) (hx : x ∈ xs)
    (hsome : ∀ o, R x o → o ≠ none) : ∃ r ∈ os.reduceOption, R x (some r) := by
  induction h with
  | nil => cases hx
  | @cons y o xs os hy _ ih =>
    rcases mem_cons.mp hx with rfl | hx
    · cases o with
      | none => exact absurd rfl (hsome none hy)
      | some r => exact ⟨r, by simp, hy⟩
    · obtain ⟨r, hr, hR⟩ := ih hx
      refine ⟨r, ?_, hR⟩
      cases o with
      | none => exact hr
      | some r' => exact mem_cons_of_mem _ hr

/-- Where every element has a result with its image, the images are
kept. -/
theorem map_reduceOption_eq {f : β → γ} {g : α → γ}
    (h : Forall₂ (fun x o => ∃ r, o = some r ∧ f r = g x) xs os) :
    os.reduceOption.map f = xs.map g := by
  induction h with
  | nil => rfl
  | cons hx _ ih =>
    obtain ⟨r, rfl, hr⟩ := hx
    simp [hr, ih]

/-- One more element and its result, before those of the others. -/
theorem forall₂_filterMap_cons {S : α → β → Prop} {f : γ → Option β} {x : γ}
    {xs : List γ} {o : Option α} {rs : List α} (h : Option.Rel S o (f x))
    (hs : Forall₂ S rs (xs.filterMap f)) :
    Forall₂ S (o.toList ++ rs) ((x :: xs).filterMap f) := by
  rw [filterMap_cons]
  generalize f x = y at h
  cases h with
  | none => exact hs
  | some hr => exact .cons hr hs

/-- Where every result is there, the list is that of the results. -/
theorem map_some_reduceOption (h : ∀ o ∈ os, o ≠ none) :
    os.reduceOption.map some = os := by
  induction os with
  | nil => rfl
  | cons o os ih =>
    have hrest := ih fun x hx => h x (mem_cons_of_mem _ hx)
    cases o with
    | none => exact absurd rfl (h none mem_cons_self)
    | some a => rw [reduceOption_cons_of_some, map_cons, hrest]

/-- Lists that correspond agree on what holds of all their members. -/
theorem forall_mem_iff {Q : α → Prop} {S : γ → Prop} {ys : List γ}
    (h : Forall₂ (fun x y => Q x ↔ S y) xs ys) :
    (∀ x ∈ xs, Q x) ↔ ∀ y ∈ ys, S y := by
  induction h with
  | nil => simp
  | cons hx _ ih => rw [forall_mem_cons, forall_mem_cons, hx, ih]

theorem length_reduceOption_eq_iff :
    os.reduceOption.length = os.length ↔ ∀ o ∈ os, o ≠ none := by
  induction os with
  | nil => simp
  | cons o os ih =>
    have hle := os.reduceOption_length_le
    cases o with
    | none => simp; omega
    | some a => simp [ih]

/-- All elements have results exactly when none of them is one without. -/
theorem forall_ne_none_iff {Q : α → Prop} (h : Forall₂ (fun x o => o = none ↔ ¬ Q x) xs os) :
    (∀ o ∈ os, o ≠ none) ↔ ∀ x ∈ xs, Q x := by
  induction h with
  | nil => simp
  | cons hx _ ih =>
    simp only [forall_mem_cons, ih, ne_eq, hx, not_not]

end Results

inductive Outcome (σ α : Type) where
  | ok (a : α) (s : σ)
  | threw (message : String) (s : σ)
  | aborted
  | undefined

/-- An action on states `σ` with a result. -/
def StateAction (σ α : Type) := σ → Outcome σ α

namespace StateAction

variable {σ α β : Type}

def bind (m : StateAction σ α) (f : α → StateAction σ β) : StateAction σ β := fun s =>
  match m s with
  | .ok a s => f a s
  | .threw message s => .threw message s
  | .aborted => .aborted
  | .undefined => .undefined

instance : Monad (StateAction σ) where
  pure a s := .ok a s
  bind := bind

def get : StateAction σ σ := fun s => .ok s s

def modify (f : σ → σ) : StateAction σ Unit := fun s => .ok () (f s)

def throw (message : String) : StateAction σ α := fun s => .threw message s

/-- A failed CHECK. -/
def abort : StateAction σ α := fun _ => .aborted

def undefined : StateAction σ α := fun _ => .undefined

/-- What is done to the state when an exception passes through. -/
def onThrow (restore : σ → σ) (m : StateAction σ α) : StateAction σ α := fun s =>
  match m s with
  | .threw message s => .threw message (restore s)
  | o => o

/-- A loop over a list. -/
def forEach (f : α → StateAction σ Unit) : List α → StateAction σ Unit
  | [] => pure ()
  | x :: xs => do
      f x
      forEach f xs

theorem get_bind (f : σ → StateAction σ β) (s : σ) : (get >>= f) s = f s s := rfl

theorem modify_bind (g : σ → σ) (f : Unit → StateAction σ β) (s : σ) :
    (modify g >>= f) s = f () (g s) := rfl

end StateAction

namespace Outcome

variable {σ α β : Type}

def Meets (Q : α → σ → Prop) (E : σ → Prop) : Outcome σ α → Prop
  | ok a s => Q a s
  | threw _ s => E s
  | aborted => True
  | undefined => False

variable {Q Q' : α → σ → Prop} {E E' : σ → Prop} {s : σ}

theorem Meets.mono {o : Outcome σ α} (h : o.Meets Q E) (hQ : ∀ a s, Q a s → Q' a s)
    (hE : ∀ s, E s → E' s) : o.Meets Q' E' := by
  cases o with
  | ok a s => exact hQ a s h
  | threw message s => exact hE s h
  | aborted => exact True.intro
  | undefined => exact h

theorem meets_bind {m : StateAction σ α} {f : α → StateAction σ β} {R : β → σ → Prop}
    (h : (m s).Meets (fun a s => (f a s).Meets R E) E) : ((m >>= f) s).Meets R E := by
  show Meets R E (StateAction.bind m f s)
  unfold StateAction.bind
  cases hm : m s with
  | ok a s => exact (hm ▸ h : Meets _ _ (ok a s))
  | threw message s => exact (hm ▸ h : Meets _ _ (threw message s))
  | aborted => exact True.intro
  | undefined => exact (hm ▸ h : Meets _ _ undefined)

theorem meets_onThrow {m : StateAction σ α} {restore : σ → σ}
    (h : (m s).Meets Q fun s => E (restore s)) : ((m.onThrow restore) s).Meets Q E := by
  unfold StateAction.onThrow
  cases hm : m s with
  | ok a s => exact (hm ▸ h : Meets _ _ (ok a s))
  | threw message s => exact (hm ▸ h : Meets _ _ (threw message s))
  | aborted => exact True.intro
  | undefined => exact (hm ▸ h : Meets _ _ undefined)

/-- A loop keeps what each round keeps, of the elements still to come. -/
theorem meets_forEach {f : β → StateAction σ Unit} {I : List β → σ → Prop}
    (hstep : ∀ x xs s, I (x :: xs) s → (f x s).Meets (fun _ s => I xs s) E) (xs : List β) :
    ∀ {s : σ}, I xs s → (StateAction.forEach f xs s).Meets (fun _ s => I [] s) E := by
  induction xs with
  | nil => exact fun h => h
  | cons x xs ih =>
    intro s h
    exact meets_bind ((hstep x xs s h).mono (fun _ _ hs => ih hs) fun _ hs => hs)

end Outcome
