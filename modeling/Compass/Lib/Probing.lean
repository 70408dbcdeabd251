/-
Linear probing in a table of slots.

A table of `n` slots is walked from a key's home slot, one slot at a
time and around the end, until a slot where the walk may stop. `search`
is that walk with a bound on its steps. After `n` steps it has seen every
slot once, so a walk that has not stopped by then never stops.

`Layout` is what makes the walk find its keys: between a key's home and
its slot there is no vacant slot, and no key has two slots. Filling the
slot at which the walk for a new key ends keeps it.

A table of keys with linear probing.

`probe` is the loop that the programs write: the home slot first, then
slot after slot around the end until it is back, with an attempt at each
that may end it. It is the walk `search` of `Probing` to the first slot
where an attempt succeeds (`probe_eq`), so it always ends.

`enter` puts a key where it stands already or else into the first vacant
slot on its walk. Run from an empty table (`enterAll`), equal keys get
one slot, different keys different slots, and a key gets none only when
all slots are taken by others (`assigns_enterAll`).
-/
import Mathlib.Data.Fintype.EquivFin
import Mathlib.Data.Nat.ModEq

namespace Probing

open Function Option Finset Nat

-- ======== the walk

/-- The slot after `b`, around the end of a table of `n` slots. -/
def next (n b : ℕ) : ℕ :=
  if b + 1 = n then 0 else b + 1

/-- The first slot on the walk from `b` where the walk may stop, within
so many steps. -/
def search (n : ℕ) (stop : ℕ → Prop) [DecidablePred stop] : ℕ → ℕ → Option ℕ
  | 0, _ => none
  | fuel + 1, b => if stop b then some b else search n stop fuel (next n b)

variable {n b : ℕ}

theorem next_lt (hb : b < n) : next n b < n := by
  unfold next
  split <;> omega

theorem next_eq_mod (hb : b < n) : next n b = (b + 1) % n := by
  unfold next
  split
  case isTrue h => rw [h, mod_self]
  case isFalse h => rw [mod_eq_of_lt (by omega)]

theorem next_add_mod (hb : b < n) (i : ℕ) : (next n b + i) % n = (b + (i + 1)) % n := by
  rw [next_eq_mod hb, mod_add_mod]
  congr 1
  omega

section Walk

variable {stop : ℕ → Prop} [DecidablePred stop]

/-- Where the walk stops: so many steps on, at a slot where it may, and
at none before. -/
theorem search_eq_some_iff (fuel : ℕ) (hb : b < n) {p : ℕ} :
    search n stop fuel b = some p
      ↔ ∃ i < fuel, (b + i) % n = p ∧ stop p ∧ ∀ j < i, ¬ stop ((b + j) % n) := by
  induction fuel generalizing b with
  | zero => simp [search]
  | succ fuel ih =>
    have hmod : (b + 0) % n = b := mod_eq_of_lt hb
    unfold search
    split
    case isTrue hstop =>
      constructor
      · intro h
        obtain rfl := some.inj h
        exact ⟨0, by omega, hmod, hstop, fun j hj => absurd hj (by omega)⟩
      · intro ⟨i, _, hp, _, hbefore⟩
        have hi : i = 0 := by
          by_contra hne
          have h0 := hbefore 0 (by omega)
          rw [hmod] at h0
          exact h0 hstop
        rw [hi, hmod] at hp
        rw [hp]
    case isFalse hstop =>
      rw [ih (next_lt hb)]
      constructor
      · intro ⟨i, hi, hp, hs, hbefore⟩
        rw [next_add_mod hb] at hp
        refine ⟨i + 1, by omega, hp, hs, fun j hj => ?_⟩
        cases j with
        | zero => rw [hmod]; exact hstop
        | succ j =>
          rw [← next_add_mod hb]
          exact hbefore j (by omega)
      · intro ⟨i, hi, hp, hs, hbefore⟩
        cases i with
        | zero =>
          rw [hmod] at hp
          rw [← hp] at hs
          exact absurd hs hstop
        | succ i =>
          rw [← next_add_mod hb] at hp
          refine ⟨i, by omega, hp, hs, fun j hj => ?_⟩
          rw [next_add_mod hb]
          exact hbefore (j + 1) (by omega)

/-- Every slot of the table is less than `n` steps from `b`. -/
theorem exists_steps (hb : b < n) {q : ℕ} (hq : q < n) : ∃ i < n, (b + i) % n = q := by
  by_cases h : b ≤ q
  · refine ⟨q - b, by omega, ?_⟩
    rw [Nat.add_sub_cancel' h, Nat.mod_eq_of_lt hq]
  · refine ⟨q + n - b, by omega, ?_⟩
    rw [show b + (q + n - b) = q + n by omega, Nat.add_mod_right, Nat.mod_eq_of_lt hq]

/-- Two slots less than `n` steps from `b` are the same only after the
same number of steps. -/
theorem steps_inj {i j : ℕ} (hi : i < n) (hj : j < n) (h : (b + i) % n = (b + j) % n) : i = j := by
  have hmod : i ≡ j [MOD n] := Nat.ModEq.add_left_cancel' b h
  rwa [Nat.ModEq, mod_eq_of_lt hi, mod_eq_of_lt hj] at hmod

/-- The walk stops within `n` steps where there is a slot to stop at. -/
theorem exists_search (hb : b < n) {q : ℕ} (hq : q < n) (hs : stop q) :
    ∃ p, search n stop n b = some p := by
  obtain ⟨i, hi, hiq⟩ := exists_steps hb hq
  have hex : ∃ k, stop ((b + k) % n) := ⟨i, by rwa [hiq]⟩
  have hle : Nat.find hex ≤ i := Nat.find_min' hex (by rwa [hiq])
  refine ⟨(b + Nat.find hex) % n, (search_eq_some_iff n hb).mpr ?_⟩
  exact ⟨Nat.find hex, by omega, rfl, Nat.find_spec hex, fun j hj => Nat.find_min hex hj⟩

/-- The walk depends only on where it may stop. -/
theorem search_congr {stop' : ℕ → Prop} [DecidablePred stop'] (hb : b < n)
    (h : ∀ q < n, stop q ↔ stop' q) (fuel : ℕ) :
    search n stop fuel b = search n stop' fuel b := by
  induction fuel generalizing b with
  | zero => rfl
  | succ fuel ih =>
    unfold search
    simp only [h b hb, ih (next_lt hb)]

end Walk

-- ======== the layout

/-- A slot that the walk from a home slot reaches before any vacant
one. -/
def Reached {κ : Type*} (n : ℕ) (slot : ℕ → Option κ) (home p : ℕ) : Prop :=
  ∃ i < n, (home + i) % n = p ∧ ∀ j < i, slot ((home + j) % n) ≠ none

/-- Every stored key is reached from its home, and stands once. -/
structure Layout {κ : Type*} (n : ℕ) (slot : ℕ → Option κ) (home : κ → ℕ) : Prop where
  reached : ∀ p < n, ∀ k, slot p = some k → Reached n slot (home k) p
  once : ∀ p < n, ∀ q < n, ∀ k, slot p = some k → slot q = some k → p = q

section Keys

variable {κ : Type*} {slot : ℕ → Option κ} {home : κ → ℕ} {k : κ} {p : ℕ}

/-- A table without keys. -/
theorem layout_vacant : Layout n (fun _ => (none : Option κ)) home :=
  ⟨nofun, nofun⟩

variable (h : Layout n slot home)
include h

/-- A layout only looks at the slots of the table. -/
theorem Layout.congr {slot' : ℕ → Option κ} (heq : ∀ q < n, slot' q = slot q) :
    Layout n slot' home := by
  constructor
  · intro p hp k hk
    rw [heq p hp] at hk
    obtain ⟨i, hi, hip, hbefore⟩ := h.reached p hp k hk
    refine ⟨i, hi, hip, fun j hj => ?_⟩
    rw [heq _ (mod_lt _ (by omega))]
    exact hbefore j hj
  · intro p hp q hq k hpk hqk
    rw [heq p hp] at hpk
    rw [heq q hq] at hqk
    exact h.once p hp q hq k hpk hqk

/-- The walk for a stored key ends at its slot. -/
theorem Layout.search_stored {stop : ℕ → Prop} [DecidablePred stop]
    (hstop : ∀ q < n, stop q ↔ slot q = none ∨ slot q = some k)
    (hhome : home k < n) (hp : p < n) (hk : slot p = some k) :
    search n stop n (home k) = some p := by
  obtain ⟨i, hi, hip, hbefore⟩ := h.reached p hp k hk
  rw [search_eq_some_iff n hhome]
  refine ⟨i, hi, hip, (hstop p hp).mpr (.inr hk), fun j hj hs => ?_⟩
  have hlt : (home k + j) % n < n := mod_lt _ (by omega)
  rcases (hstop _ hlt).mp hs with hnone | hsome
  · exact hbefore j hj hnone
  · have heq := h.once _ hlt p hp k hsome hk
    have := steps_inj (by omega) hi (heq.trans hip.symm)
    omega

omit h in
/-- The walk that stops at vacant slots only ends at one, reached from
where it began. -/
theorem search_vacant {stop : ℕ → Prop} [DecidablePred stop]
    (hstop : ∀ q < n, stop q ↔ slot q = none) (hb : b < n) {q : ℕ} (hq : q < n)
    (hnone : slot q = none) :
    ∃ e, search n stop n b = some e ∧ e < n ∧ slot e = none ∧ Reached n slot b e := by
  obtain ⟨e, he⟩ := exists_search hb hq ((hstop q hq).mpr hnone)
  obtain ⟨i, hi, hie, hs, hbefore⟩ := (search_eq_some_iff n hb).mp he
  have hlt : e < n := by
    rw [← hie]
    exact mod_lt _ (by omega)
  refine ⟨e, he, hlt, (hstop e hlt).mp hs, i, hi, hie, fun j hj hn => ?_⟩
  exact hbefore j hj ((hstop _ (mod_lt _ (by omega))).mpr hn)

/-- Filling a slot that is reached from a new key's home keeps the
layout. -/
theorem Layout.fill {e : ℕ} (hreach : Reached n slot (home k) e) (hnew : ∀ p < n, slot p ≠ some k) :
    Layout n (update slot e (some k)) home := by
  have hkeep : ∀ q, slot q ≠ none → update slot e (some k) q ≠ none := by
    intro q hq
    by_cases hqe : q = e
    · simp [hqe]
    · rwa [update_of_ne hqe]
  have hmono : ∀ {b p}, Reached n slot b p →
      Reached n (update slot e (some k)) b p := by
    intro b p ⟨i, hi, hip, hbefore⟩
    exact ⟨i, hi, hip, fun j hj => hkeep _ (hbefore j hj)⟩
  constructor
  · intro p hp k' hk'
    by_cases hpe : p = e
    · rw [hpe, update_self] at hk'
      obtain rfl := some.inj hk'
      rw [hpe]
      exact hmono hreach
    · rw [update_of_ne hpe] at hk'
      exact hmono (h.reached p hp k' hk')
  · intro p hp q hq k' hpk hqk
    by_cases hpe : p = e <;> by_cases hqe : q = e
    · rw [hpe, hqe]
    · rw [hpe, update_self] at hpk
      rw [update_of_ne hqe] at hqk
      obtain rfl := some.inj hpk
      exact absurd hqk (hnew q hq)
    · rw [update_of_ne hpe] at hpk
      rw [hqe, update_self] at hqk
      obtain rfl := some.inj hqk
      exact absurd hpk (hnew p hp)
    · rw [update_of_ne hpe] at hpk
      rw [update_of_ne hqe] at hqk
      exact h.once p hp q hq k' hpk hqk

/-- A table with more slots than keys has a vacant slot. -/
theorem Layout.exists_vacant (ks : List κ)
    (hks : ∀ p < n, ∀ k, slot p = some k → k ∈ ks) (hlt : ks.length < n) :
    ∃ q < n, slot q = none := by
  classical
  by_contra hno
  have hfull : ∀ q < n, ∃ k, slot q = some k := by
    intro q hq
    exact ne_none_iff_exists'.mp fun hnone => hno ⟨q, hq, hnone⟩
  have hcard : (ks.map some).toFinset.card < (range n).card := by
    rw [card_range]
    calc (ks.map some).toFinset.card ≤ (ks.map some).length := List.toFinset_card_le _
      _ = ks.length := List.length_map _
      _ < n := hlt
  have hmaps : ∀ q ∈ range n, slot q ∈ (ks.map some).toFinset := by
    intro q hq
    obtain ⟨k, hk⟩ := hfull q (mem_range.mp hq)
    rw [hk, List.mem_toFinset]
    exact List.mem_map_of_mem (hks q (mem_range.mp hq) k hk)
  obtain ⟨p, hp, q, hq, hne, heq⟩ :=
    exists_ne_map_eq_of_card_lt_of_maps_to hcard hmaps
  obtain ⟨k, hk⟩ := hfull p (mem_range.mp hp)
  exact hne (h.once p (mem_range.mp hp) q (mem_range.mp hq) k hk (heq ▸ hk))

end Keys

end Probing

namespace Probing

open List

-- ======== the loop

section Loop

variable {β : Type}

/-- The attempts after the one at home; none when the steps run out. -/
def around (n : ℕ) (attempt : ℕ → Option β) (home : ℕ) : ℕ → ℕ → Option (Option β)
  | 0, _ => none
  | fuel + 1, p =>
    if p = home then some none
    else match attempt p with
      | some r => some (some r)
      | none => around n attempt home fuel ((p + 1) % n)

/-- The result of the first attempt that succeeds. -/
def probe (n : ℕ) (attempt : ℕ → Option β) (home : ℕ) : Option (Option β) :=
  match attempt home with
  | some r => some (some r)
  | none => around n attempt home n ((home + 1) % n)

variable {n home : ℕ} {attempt : ℕ → Option β}

/-- From `i` steps away, with a step left for every slot to come. -/
theorem around_eq (hhome : home < n) (i : ℕ) (hi : i < n)
    (hbefore : ∀ j ≤ i, attempt ((home + j) % n) = none) (fuel : ℕ) (hfuel : n ≤ fuel + i) :
    around n attempt home fuel ((home + (i + 1)) % n)
      = some ((search n (fun p => (attempt p).isSome = true) n home).bind attempt) := by
  have hn : 0 < n := by omega
  induction fuel generalizing i with
  | zero => omega
  | succ fuel ih =>
    unfold around
    by_cases hback : (home + (i + 1)) % n = home
    · -- back at home: every slot was tried
      rw [if_pos hback]
      have hall : i + 1 = n := by
        by_contra hne
        have h0 : (home + (i + 1)) % n = (home + 0) % n := by
          rw [hback, Nat.add_zero, Nat.mod_eq_of_lt hhome]
        exact absurd (steps_inj (by omega) hn h0) (by omega)
      cases hs : search n (fun p => (attempt p).isSome = true) n home with
      | none => rfl
      | some p =>
        obtain ⟨j, hj, rfl, hp, -⟩ := (search_eq_some_iff n hhome).mp hs
        rw [hbefore j (by omega)] at hp
        cases hp
    · rw [if_neg hback]
      have hi' : i + 1 < n := by
        by_contra hge
        have heq : i + 1 = n := by omega
        rw [heq, Nat.add_mod_right, Nat.mod_eq_of_lt hhome] at hback
        exact hback rfl
      cases hp : attempt ((home + (i + 1)) % n) with
      | some r =>
        have hs : search n (fun p => (attempt p).isSome = true) n home
            = some ((home + (i + 1)) % n) := by
          rw [search_eq_some_iff n hhome]
          refine ⟨i + 1, hi', rfl, by rw [hp]; rfl, ?_⟩
          intro j hj
          rw [hbefore j (by omega)]
          exact Bool.false_ne_true
        rw [hs]
        exact congrArg some hp.symm
      | none =>
        have hnext : ((home + (i + 1)) % n + 1) % n = (home + (i + 1 + 1)) % n := by
          rw [Nat.mod_add_mod]
          rfl
        show around n attempt home fuel (((home + (i + 1)) % n + 1) % n) = _
        rw [hnext]
        refine ih (i + 1) hi' ?_ (by omega)
        intro j hj
        rcases Nat.lt_or_eq_of_le hj with hlt | rfl
        · exact hbefore j (by omega)
        · exact hp

/-- The loop ends, with the first attempt on the walk that succeeds. -/
theorem probe_eq (hhome : home < n) :
    probe n attempt home
      = some ((search n (fun p => (attempt p).isSome = true) n home).bind attempt) := by
  have hmod : (home + 0) % n = home := Nat.mod_eq_of_lt hhome
  unfold probe
  cases hp : attempt home with
  | some r =>
    have hs : search n (fun p => (attempt p).isSome = true) n home = some home := by
      rw [search_eq_some_iff n hhome]
      exact ⟨0, by omega, hmod, by rw [hp]; rfl, fun j hj => absurd hj (by omega)⟩
    rw [hs]
    exact congrArg some hp.symm
  | none =>
    refine around_eq hhome 0 (by omega) ?_ n (by omega)
    intro j hj
    rw [Nat.le_zero.mp hj, hmod]
    exact hp

end Loop

-- ======== the decisions

section Admit

variable {κ : Type} [DecidableEq κ]

/-- The slot where a key stands, or the first vacant one on its walk. -/
def place (n : ℕ) (home : κ → ℕ) (table : ℕ → Option κ) (k : κ) : Option ℕ :=
  search n (fun p => table p = none ∨ table p = some k) n (home k)

def enter (n : ℕ) (home : κ → ℕ) (table : ℕ → Option κ) (k : κ) :
    (ℕ → Option κ) × Option ℕ :=
  match place n home table k with
  | some p => (Function.update table p (some k), some p)
  | none => (table, none)

/-- The keys with the slots they get. -/
def enterAll (n : ℕ) (home : κ → ℕ) (table : ℕ → Option κ) :
    List κ → (ℕ → Option κ) × List (κ × Option ℕ)
  | [] => (table, [])
  | k :: ks =>
    let step := enter n home table k
    let rest := enterAll n home step.1 ks
    (rest.1, (k, step.2) :: rest.2)

/-- What a key may get after these. -/
def Decides (n : ℕ) (pre : List (κ × Option ℕ)) (x : κ × Option ℕ) : Prop :=
  (∀ p, x.2 = some p → p < n ∧ ∀ k, (k, some p) ∈ pre → k = x.1)
    ∧ (∀ p, (x.1, some p) ∈ pre → x.2 = some p)
    ∧ (x.2 = none → ∀ p < n, ∃ k, k ≠ x.1 ∧ (k, some p) ∈ pre)

/-- Every key got what it may get after those before it: the slot it has
already, a slot no other key has, or none when others have them all. -/
def Assigns (n : ℕ) (hist : List (κ × Option ℕ)) : Prop :=
  ∀ pre x post, hist = pre ++ x :: post → Decides n pre x

/-- The table holds the keys that got a slot. -/
structure Records (n : ℕ) (home : κ → ℕ) (table : ℕ → Option κ)
    (hist : List (κ × Option ℕ)) : Prop where
  layout : Layout n table home
  mem_iff : ∀ p < n, ∀ k, table p = some k ↔ (k, some p) ∈ hist
  lt : ∀ k p, (k, some p) ∈ hist → p < n

variable {n : ℕ} {home : κ → ℕ} {table : ℕ → Option κ} {k : κ}

theorem enter_of_place {p : ℕ} (h : place n home table k = some p) :
    enter n home table k = (Function.update table p (some k), some p) := by
  unfold enter
  rw [h]

theorem enter_of_place_none (h : place n home table k = none) :
    enter n home table k = (table, none) := by
  unfold enter
  rw [h]

/-- Where a key goes: to its slot, or to a vacant slot that is reached
from its home, or nowhere when all slots hold other keys. -/
theorem place_cases (h : Layout n table home) (hhome : home k < n) :
    (∃ p < n, place n home table k = some p ∧ table p = some k)
      ∨ (∃ p < n, place n home table k = some p ∧ table p = none
          ∧ Reached n table (home k) p ∧ ∀ q < n, table q ≠ some k)
      ∨ (place n home table k = none ∧ ∀ p < n, ∃ k', k' ≠ k ∧ table p = some k') := by
  by_cases hstored : ∃ p < n, table p = some k
  · obtain ⟨p, hp, hk⟩ := hstored
    exact Or.inl ⟨p, hp, h.search_stored (fun q _ => Iff.rfl) hhome hp hk, hk⟩
  · have hnew : ∀ q < n, table q ≠ some k := fun q hq hk => hstored ⟨q, hq, hk⟩
    by_cases hvacant : ∃ q < n, table q = none
    · obtain ⟨q, hq, hnone⟩ := hvacant
      have hstop : ∀ q < n, (table q = none ∨ table q = some k) ↔ table q = none :=
        fun q hq => ⟨fun hs => hs.resolve_right (hnew q hq), Or.inl⟩
      obtain ⟨e, he, hlt, hnone', hreach⟩ := search_vacant hstop hhome hq hnone
      exact Or.inr (Or.inl ⟨e, hlt, he, hnone', hreach, hnew⟩)
    · refine Or.inr (Or.inr ⟨?_, ?_⟩)
      · cases hs : place n home table k with
        | none => rfl
        | some p =>
          obtain ⟨i, hi, rfl, hp, -⟩ := (search_eq_some_iff n hhome).mp hs
          have hlt : (home k + i) % n < n := Nat.mod_lt _ (by omega)
          rcases hp with hp | hp
          · exact absurd ⟨_, hlt, hp⟩ hvacant
          · exact absurd hp (hnew _ hlt)
      · intro p hp
        obtain ⟨k', hk'⟩ := Option.ne_none_iff_exists'.mp fun hnone => hvacant ⟨p, hp, hnone⟩
        refine ⟨k', ?_, hk'⟩
        intro heq
        exact hnew p hp (heq ▸ hk')

variable {hist : List (κ × Option ℕ)}

/-- One more key keeps the record and gets what it may. -/
theorem Records.enter (h : Records n home table hist) (hhome : home k < n) :
    Records n home (enter n home table k).1 (hist ++ [(k, (enter n home table k).2)])
      ∧ Decides n hist (k, (enter n home table k).2) := by
  rcases place_cases h.layout hhome with
    ⟨p, hp, hplace, hk⟩ | ⟨p, hp, hplace, hnone, hreach, hnew⟩ | ⟨hplace, hfull⟩
  · -- the key has its slot
    have heq : Probing.enter n home table k = (table, some p) := by
      rw [enter_of_place hplace, ← hk, Function.update_eq_self]
    have hmem := (h.mem_iff p hp k).mp hk
    rw [heq]
    refine ⟨⟨h.layout, ?_, ?_⟩, ?_, ?_, nofun⟩
    · intro q hq k'
      rw [h.mem_iff q hq k', mem_append, mem_singleton, Prod.mk.injEq]
      refine ⟨Or.inl, ?_⟩
      intro hor
      rcases hor with hin | ⟨rfl, hpq⟩
      · exact hin
      · rw [Option.some.inj hpq]
        exact hmem
    · intro k' q hin
      rcases mem_append.mp hin with hin | hin
      · exact h.lt k' q hin
      · obtain ⟨-, hpq⟩ := Prod.mk.inj (mem_singleton.mp hin)
        rw [Option.some.inj hpq]
        exact hp
    · intro q hq
      obtain rfl := Option.some.inj hq
      refine ⟨hp, ?_⟩
      intro k' hin
      have := (h.mem_iff p hp k').mpr hin
      rw [hk] at this
      exact (Option.some.inj this).symm
    · intro q hin
      have hq := h.lt k q hin
      rw [h.layout.once p hp q hq k hk ((h.mem_iff q hq k).mpr hin)]
  · -- the key is new and gets a vacant slot
    have hfree : ∀ k', (k', some p) ∉ hist := by
      intro k' hin
      have := (h.mem_iff p hp k').mpr hin
      rw [hnone] at this
      cases this
    rw [enter_of_place hplace]
    dsimp only
    refine ⟨⟨h.layout.fill hreach hnew, ?_, ?_⟩, ?_, ?_, nofun⟩
    · intro q hq k'
      rw [mem_append, mem_singleton, Prod.mk.injEq]
      by_cases hqp : q = p
      · subst hqp
        rw [Function.update_self, Option.some.injEq]
        constructor
        · intro hk'
          exact Or.inr ⟨hk'.symm, rfl⟩
        · intro hor
          rcases hor with hin | ⟨rfl, -⟩
          · exact absurd hin (hfree k')
          · rfl
      · rw [Function.update_of_ne hqp, h.mem_iff q hq k']
        refine ⟨Or.inl, ?_⟩
        intro hor
        rcases hor with hin | ⟨-, hpq⟩
        · exact hin
        · exact absurd (Option.some.inj hpq) hqp
    · intro k' q hin
      rcases mem_append.mp hin with hin | hin
      · exact h.lt k' q hin
      · obtain ⟨-, hpq⟩ := Prod.mk.inj (mem_singleton.mp hin)
        rw [Option.some.inj hpq]
        exact hp
    · intro q hq
      obtain rfl := Option.some.inj hq
      exact ⟨hp, fun k' hin => absurd hin (hfree k')⟩
    · intro q hin
      have hq := h.lt k q hin
      exact absurd ((h.mem_iff q hq k).mpr hin) (hnew q hq)
  · -- every slot holds another key
    rw [enter_of_place_none hplace]
    refine ⟨⟨h.layout, ?_, ?_⟩, nofun, ?_, ?_⟩
    · intro q hq k'
      rw [h.mem_iff q hq k', mem_append, mem_singleton, Prod.mk.injEq]
      refine ⟨Or.inl, ?_⟩
      intro hor
      rcases hor with hin | ⟨-, hpq⟩
      · exact hin
      · cases hpq
    · intro k' q hin
      rcases mem_append.mp hin with hin | hin
      · exact h.lt k' q hin
      · obtain ⟨-, hpq⟩ := Prod.mk.inj (mem_singleton.mp hin)
        cases hpq
    · intro q hin
      have hq := h.lt k q hin
      obtain ⟨k', hne, hk'⟩ := hfull q hq
      rw [(h.mem_iff q hq k).mpr hin] at hk'
      exact absurd (Option.some.inj hk').symm hne
    · intro _ p hp
      obtain ⟨k', hne, hk'⟩ := hfull p hp
      exact ⟨k', hne, (h.mem_iff p hp k').mp hk'⟩

omit [DecidableEq κ] in
theorem assigns_append {x : κ × Option ℕ} (h : Assigns n hist) (hx : Decides n hist x) :
    Assigns n (hist ++ [x]) := by
  intro pre y post heq
  rcases eq_nil_or_concat post with rfl | ⟨post', z, rfl⟩
  · obtain ⟨hpre, hxy⟩ := append_inj' heq rfl
    rw [← hpre, ← singleton_inj.mp hxy]
    exact hx
  · have hsplit : hist ++ [x] = (pre ++ y :: post') ++ [z] := by
      rw [heq]
      simp
    obtain ⟨hhist, -⟩ := append_inj' hsplit rfl
    exact h pre y post' hhist

/-- The decisions after earlier ones. -/
theorem Records.enterAll (h : Records n home table hist) (ha : Assigns n hist) (ks : List κ)
    (hhome : ∀ k ∈ ks, home k < n) :
    Records n home (enterAll n home table ks).1 (hist ++ (enterAll n home table ks).2)
      ∧ Assigns n (hist ++ (enterAll n home table ks).2) := by
  induction ks generalizing table hist with
  | nil =>
    rw [show (Probing.enterAll n home table []).2 = [] from rfl, append_nil]
    exact ⟨h, ha⟩
  | cons k ks ih =>
    obtain ⟨hrec, hdec⟩ := h.enter (hhome k mem_cons_self)
    have hrest := ih hrec (assigns_append ha hdec)
      fun k' hk' => hhome k' (mem_cons_of_mem _ hk')
    rw [append_assoc] at hrest
    exact hrest

omit [DecidableEq κ] in
/-- From an empty table. -/
theorem records_vacant : Records n home (fun _ => none) [] :=
  ⟨layout_vacant, fun _ _ _ => ⟨nofun, nofun⟩, nofun⟩

theorem assigns_enterAll (ks : List κ) (hhome : ∀ k ∈ ks, home k < n) :
    Assigns n (enterAll n home (fun _ => none) ks).2 :=
  (records_vacant.enterAll (fun pre x post h => by simp at h) ks hhome).2

omit [DecidableEq κ] in
/-- As many different keys as slots use every slot. -/
theorem Assigns.exists_given (h : Assigns n hist) (hnodup : (hist.map Prod.fst).Nodup)
    (hlen : hist.length = n) {p : ℕ} (hp : p < n) :
    ∃ k, (k, some p) ∈ hist := by
  by_contra hno
  have hsplit : ∀ i (hi : i < hist.length),
      hist = hist.take i ++ hist.get ⟨i, hi⟩ :: hist.drop (i + 1) := by
    intro i hi
    rw [get_eq_getElem, getElem_cons_drop, take_append_drop]
  -- every key has a slot, and it is not this one
  have hgiven : ∀ i (hi : i < hist.length),
      ∃ q, (hist.get ⟨i, hi⟩).2 = some q ∧ q < n ∧ q ≠ p := by
    intro i hi
    have hdec := h _ _ _ (hsplit i hi)
    cases hr : (hist.get ⟨i, hi⟩).2 with
    | none =>
      obtain ⟨k, -, hk⟩ := hdec.2.2 hr p hp
      exact absurd ⟨k, mem_of_mem_take hk⟩ hno
    | some q =>
      refine ⟨q, rfl, (hdec.1 q hr).1, ?_⟩
      rintro rfl
      refine hno ⟨(hist.get ⟨i, hi⟩).1, ?_⟩
      rw [← hr]
      exact get_mem hist ⟨i, hi⟩
  choose! slot hslot using hgiven
  have hcard : ((Finset.range n).erase p).card < (Finset.range n).card :=
    Finset.card_erase_lt_of_mem (Finset.mem_range.mpr hp)
  obtain ⟨i, hi, j, hj, hne, heq⟩ := Finset.exists_ne_map_eq_of_card_lt_of_maps_to
    (f := slot) hcard fun i hi => by
      have hi' : i < hist.length := by rw [hlen]; exact Finset.mem_range.mp hi
      exact Finset.mem_erase.mpr
        ⟨(hslot i hi').2.2, Finset.mem_range.mpr (hslot i hi').2.1⟩
  -- two keys with one slot are the same key, at two places
  have hsame : ∀ i j, i < j → ∀ (hj : j < hist.length), slot i = slot j → False := by
    intro i j hij hj heq
    have hi : i < hist.length := lt_trans hij hj
    have hmem : ((hist.get ⟨i, hi⟩).1, some (slot j)) ∈ hist.take j := by
      rw [← heq, ← (hslot i hi).1]
      exact mem_take_iff_getElem.mpr ⟨i, by omega, rfl⟩
    have hkey := ((h _ _ _ (hsplit j hj)).1 (slot j) (hslot j hj).1).2 _ hmem
    have hidx : (hist.map Prod.fst).get ⟨i, by simpa using hi⟩
        = (hist.map Prod.fst).get ⟨j, by simpa using hj⟩ := by
      simpa using hkey
    have := (nodup_iff_injective_get.mp hnodup) hidx
    simp at this
    omega
  rw [Finset.mem_range] at hi hj
  rcases lt_or_gt_of_ne hne with hlt | hlt
  · exact hsame i j hlt (by omega) heq
  · exact hsame j i hlt (by omega) heq.symm

@[simp] theorem enterAll_keys (ks : List κ) :
    (enterAll n home table ks).2.map Prod.fst = ks := by
  induction ks generalizing table with
  | nil => rfl
  | cons k ks ih => exact congrArg (k :: ·) ih

end Admit

end Probing
