/-
Three-valued truth, ordered from false over unknown to true.

Conjunction is the infimum, disjunction the supremum and negation turns
the order around, so a rewriting that may only raise the truth of a part
raises the truth of the whole in a positive place and lowers it in a
negative one. Conjunctions and disjunctions are over lists.

Formulas over atoms, and formulas that lose some of their atoms.

A formula is built by conjunctions and disjunctions over lists and by
negation. Pruning drops the atoms that are not kept, and what is left is
put together again: a junction over what is left of its parts, a single
part for itself, nothing for nothing. Two prunings one after the other
are one.

A part that is dropped raises a conjunction and lowers a disjunction. So
a pruning raises the truth of a formula where conjunctions lose parts in
positive places only and disjunctions in negative ones, unless they are
lost as a whole (`harmless`). A conjunction of conjuncts is then split
by several prunings when each conjunct is raised by all of them and kept
by one (`truth_eq_all_prunes`).
-/
import Mathlib.Data.List.Basic
import Mathlib.Order.BoundedOrder.Lattice

inductive Truth where
  | no
  | unknown
  | yes
deriving DecidableEq, Repr

namespace Truth

def rank : Truth → Nat
  | no => 0
  | unknown => 1
  | yes => 2

theorem rank_injective : Function.Injective rank := by
  intro a b h
  cases a <;> cases b <;> first | rfl | cases h

instance : LinearOrder Truth := LinearOrder.lift' rank rank_injective

instance : BoundedOrder Truth where
  top := yes
  bot := no
  le_top a := by cases a <;> decide
  bot_le a := by cases a <;> decide

def neg : Truth → Truth
  | no => yes
  | unknown => unknown
  | yes => no

variable {a : Truth} {ts : List Truth}

theorem neg_le_neg {b : Truth} (h : a ≤ b) : neg b ≤ neg a := by
  cases a <;> cases b <;> first | decide | exact absurd h (by decide)

/-- `b` is above `a` in a positive place and below it in a negative one. -/
def Moves (pos : Bool) (a b : Truth) : Prop :=
  if pos then a ≤ b else b ≤ a

theorem Moves.refl (pos : Bool) (a : Truth) : Moves pos a a := by
  cases pos <;> exact le_refl a

theorem Moves.neg {pos : Bool} {b : Truth} (h : Moves (!pos) a b) :
    Moves pos a.neg b.neg := by
  cases pos <;> exact neg_le_neg h

theorem eq_yes_of_le {b : Truth} (h : a ≤ b) (ha : a = yes) : b = yes := by
  subst ha
  exact top_le_iff.mp h

-- ======== conjunctions

/-- The conjunction of a list; the empty one is true. -/
def all (ts : List Truth) : Truth :=
  ts.foldr (· ⊓ ·) ⊤

/-- The disjunction of a list; the empty one is false. -/
def any (ts : List Truth) : Truth :=
  ts.foldr (· ⊔ ·) ⊥

@[simp] theorem all_nil : all [] = ⊤ := rfl

@[simp] theorem all_cons (t : Truth) (ts : List Truth) :
    all (t :: ts) = t ⊓ all ts := rfl

@[simp] theorem any_nil : any [] = ⊥ := rfl

@[simp] theorem any_cons (t : Truth) (ts : List Truth) :
    any (t :: ts) = t ⊔ any ts := rfl

theorem all_append (ss ts : List Truth) : all (ss ++ ts) = all ss ⊓ all ts := by
  induction ss with
  | nil => simp
  | cons s ss ih => simp [ih, inf_assoc]

theorem any_append (ss ts : List Truth) : any (ss ++ ts) = any ss ⊔ any ts := by
  induction ss with
  | nil => simp
  | cons s ss ih => simp [ih, sup_assoc]

theorem le_all_iff :
    a ≤ all ts ↔ ∀ t ∈ ts, a ≤ t := by
  induction ts with
  | nil => simp
  | cons t ts ih => simp [le_inf_iff, ih]

/-- A conjunction is true when all of its parts are. -/
theorem all_eq_yes_iff :
    all ts = yes ↔ ∀ t ∈ ts, t = yes := by
  induction ts with
  | nil => exact iff_of_true rfl fun t ht => by cases ht
  | cons t ts ih =>
    rw [all_cons, List.forall_mem_cons, ← ih]
    exact inf_eq_top_iff

theorem any_le_iff :
    any ts ≤ a ↔ ∀ t ∈ ts, t ≤ a := by
  induction ts with
  | nil => simp
  | cons t ts ih => simp [sup_le_iff, ih]

theorem all_le_of_mem {t : Truth} (h : t ∈ ts) : all ts ≤ t :=
  le_all_iff.mp le_rfl t h

theorem le_any_of_mem {t : Truth} (h : t ∈ ts) : t ≤ any ts :=
  any_le_iff.mp le_rfl t h

/-- A disjunction is as true as its truest part. -/
theorem le_any_iff (hne : ts ≠ []) :
    a ≤ any ts ↔ ∃ t ∈ ts, a ≤ t := by
  constructor
  · intro h
    induction ts with
    | nil => exact absurd rfl hne
    | cons t ts ih =>
      rw [any_cons, le_sup_iff] at h
      rcases h with h | h
      · exact ⟨t, List.mem_cons_self, h⟩
      · cases ts with
        | nil => exact ⟨t, List.mem_cons_self, le_trans h bot_le⟩
        | cons u ts =>
          obtain ⟨s, hs, has⟩ := ih (List.cons_ne_nil _ _) h
          exact ⟨s, List.mem_cons_of_mem _ hs, has⟩
  · intro h
    obtain ⟨t, ht, hat⟩ := h
    exact le_trans hat (le_any_of_mem ht)

/-- A conjunction goes up when each of its new parts is above an old one. -/
theorem all_le_all {ss : List Truth} (h : ∀ t ∈ ts, ∃ s ∈ ss, s ≤ t) :
    all ss ≤ all ts := by
  rw [le_all_iff]
  intro t ht
  obtain ⟨s, hs, hst⟩ := h t ht
  exact le_trans (all_le_of_mem hs) hst

/-- A disjunction goes up when each of its old parts is below a new one. -/
theorem any_le_any {ss : List Truth} (h : ∀ s ∈ ss, ∃ t ∈ ts, s ≤ t) :
    any ss ≤ any ts := by
  rw [any_le_iff]
  intro s hs
  obtain ⟨t, ht, hst⟩ := h s hs
  exact le_trans hst (le_any_of_mem ht)

end Truth

inductive Formula (α : Type) where
  | atom (a : α)
  | junction (conj : Bool) (φs : List (Formula α))
  | not (φ : Formula α)

namespace Formula

open List

variable {α : Type}

/-- Induction with a hypothesis for every part of a junction. -/
theorem part_induction {Q : Formula α → Prop} (atom : ∀ a, Q (.atom a))
    (junction : ∀ conj φs, (∀ φ ∈ φs, Q φ) → Q (.junction conj φs))
    (not : ∀ φ, Q φ → Q (.not φ)) : ∀ φ, Q φ :=
  @Formula.rec α Q (fun φs => ∀ φ ∈ φs, Q φ) atom junction not (forall_mem_nil _)
    fun _ _ ih ihs => forall_mem_cons.mpr ⟨ih, ihs⟩

-- ======== meaning

/-- The truth of a junction of parts of these truths. -/
def joined (conj : Bool) (ts : List Truth) : Truth :=
  if conj then Truth.all ts else Truth.any ts

section

variable (v : α → Truth)

mutual

def truth : Formula α → Truth
  | .atom a => v a
  | .junction conj φs => joined conj (truths φs)
  | .not φ => (truth φ).neg

def truths : List (Formula α) → List Truth
  | [] => []
  | φ :: φs => truth φ :: truths φs

end

/-- The truth of what is left; nothing is true. -/
def truthOf : Option (Formula α) → Truth
  | some φ => φ.truth v
  | none => ⊤

@[simp] theorem truthOf_some (φ : Formula α) : truthOf v (some φ) = φ.truth v := rfl

@[simp] theorem truthOf_none : truthOf v (none : Option (Formula α)) = ⊤ := rfl

end

mutual

def atoms : Formula α → List α
  | .atom a => [a]
  | .junction _ φs => atomsOf φs
  | .not φ => atoms φ

def atomsOf : List (Formula α) → List α
  | [] => []
  | φ :: φs => atoms φ ++ atomsOf φs

end

/-- Every junction has two parts at least. -/
inductive Proper : Formula α → Prop
  | atom (a : α) : Proper (.atom a)
  | junction {conj : Bool} {φs : List (Formula α)} (hlen : 2 ≤ φs.length)
      (h : ∀ φ ∈ φs, Proper φ) : Proper (.junction conj φs)
  | not {φ : Formula α} (h : Proper φ) : Proper (.not φ)

-- ======== pruning

/-- A junction put together again from the parts that are left. -/
def rebuild (conj : Bool) : List (Formula α) → Option (Formula α)
  | [] => none
  | [φ] => some φ
  | φ₁ :: φ₂ :: φs => some (.junction conj (φ₁ :: φ₂ :: φs))

section

variable (kept : α → Bool)

mutual

/-- What is left of a formula when only these atoms are kept. -/
def prune : Formula α → Option (Formula α)
  | .atom a => if kept a then some (.atom a) else none
  | .junction conj φs => rebuild conj (pruneAll φs)
  | .not φ => (prune φ).map .not

def pruneAll : List (Formula α) → List (Formula α)
  | [] => []
  | φ :: φs => (prune φ).toList ++ pruneAll φs

end

/-- Something of the formula is left. -/
def survives (φ : Formula α) : Bool :=
  φ.atoms.any kept

mutual

/-- Pruning only raises the truth of the formula (`pos`), or only lowers
it. -/
def harmless (pos : Bool) : Formula α → Bool
  | .atom _ => true
  | .junction conj φs =>
    harmlessAll pos φs
      && (conj == pos || φs.all (survives kept) || !φs.any (survives kept))
  | .not φ => harmless (!pos) φ

def harmlessAll (pos : Bool) : List (Formula α) → Bool
  | [] => true
  | φ :: φs => harmless pos φ && harmlessAll pos φs

end

end

-- ======== the lists

theorem truths_eq_map (v : α → Truth) (φs : List (Formula α)) :
    truths v φs = φs.map (truth v) := by
  induction φs with
  | nil => rfl
  | cons φ φs ih => simp [truths, ih]

theorem atomsOf_eq_flatMap (φs : List (Formula α)) :
    atomsOf φs = φs.flatMap atoms := by
  induction φs with
  | nil => rfl
  | cons φ φs ih => simp [atomsOf, ih]

theorem pruneAll_eq_filterMap (kept : α → Bool) (φs : List (Formula α)) :
    pruneAll kept φs = φs.filterMap (prune kept) := by
  induction φs with
  | nil => rfl
  | cons φ φs ih =>
    cases h : prune kept φ with
    | none | some ψ => simp [pruneAll, h, ih]

variable {kept : α → Bool} {φs : List (Formula α)}

theorem harmlessAll_iff {pos : Bool} :
    harmlessAll kept pos φs = true ↔ ∀ φ ∈ φs, harmless kept pos φ = true := by
  induction φs with
  | nil => simp [harmlessAll]
  | cons φ φs ih => simp [harmlessAll, ih]

theorem truth_junction (v : α → Truth) (conj : Bool) (φs : List (Formula α)) :
    truth v (.junction conj φs) = joined conj (φs.map (truth v)) := by
  rw [truth, truths_eq_map]

theorem atoms_junction (conj : Bool) (φs : List (Formula α)) :
    atoms (.junction conj φs) = φs.flatMap atoms := by
  rw [atoms, atomsOf_eq_flatMap]

variable {conj : Bool} {ψ : Formula α}

theorem mem_atoms_of_part {a : α} (hψ : ψ ∈ φs) (ha : a ∈ ψ.atoms) :
    a ∈ (junction conj φs).atoms := by
  rw [atoms_junction]
  exact mem_flatMap.mpr ⟨ψ, hψ, ha⟩

theorem prune_junction (kept : α → Bool) (conj : Bool) (φs : List (Formula α)) :
    prune kept (.junction conj φs) = rebuild conj (φs.filterMap (prune kept)) := by
  rw [prune, pruneAll_eq_filterMap]

-- ======== rebuilding

@[simp] theorem joined_singleton (conj : Bool) (t : Truth) : joined conj [t] = t := by
  cases conj <;> simp [joined]

theorem truth_rebuild (v : α → Truth) (h : rebuild conj φs = some ψ) :
    ψ.truth v = joined conj (φs.map (truth v)) := by
  match φs with
  | [] => cases h
  | [φ] =>
    injection h with h
    simp [h]
  | φ₁ :: φ₂ :: φs =>
    injection h with h
    rw [← h, truth_junction]

theorem atoms_rebuild (h : rebuild conj φs = some ψ) : ψ.atoms = φs.flatMap atoms := by
  match φs with
  | [] => cases h
  | [φ] =>
    injection h with h
    simp [h]
  | φ₁ :: φ₂ :: φs =>
    injection h with h
    rw [← h, atoms_junction]

theorem rebuild_eq_none : rebuild conj φs = none ↔ φs = [] := by
  match φs with
  | [] | [φ] | φ₁ :: φ₂ :: φs => simp [rebuild]

theorem rebuild_of_length (h : 2 ≤ φs.length) : rebuild conj φs = some (.junction conj φs) := by
  match φs with
  | [] | [φ] => simp at h
  | φ₁ :: φ₂ :: φs => rfl

theorem rebuild_bind_prune (kept : α → Bool) (conj : Bool) (φs : List (Formula α)) :
    (rebuild conj φs).bind (prune kept) = rebuild conj (φs.filterMap (prune kept)) := by
  match φs with
  | [] => rfl
  | [φ] =>
    cases h : prune kept φ with
    | none | some ψ => simp [rebuild, h]
  | φ₁ :: φ₂ :: φs => exact prune_junction kept conj _

-- ======== what pruning is

/-- Two prunings are one that keeps what both keep. -/
theorem prune_prune (k₁ k₂ : α → Bool) (φ : Formula α) :
    (prune k₁ φ).bind (prune k₂) = prune (fun a => k₁ a && k₂ a) φ := by
  induction φ using Formula.part_induction with
  | atom a =>
    cases h₁ : k₁ a <;> simp [prune, h₁]
  | junction conj φs ih =>
    rw [prune_junction, prune_junction, rebuild_bind_prune, filterMap_filterMap]
    exact congrArg _ (filterMap_congr ih)
  | not φ ih =>
    simp only [prune, ← ih]
    cases prune k₁ φ with
    | none => rfl
    | some ψ => simp [prune]

variable {φ : Formula α}

/-- Only the atoms of the formula count. -/
theorem prune_congr {k₁ k₂ : α → Bool} (h : ∀ a ∈ φ.atoms, k₁ a = k₂ a) :
    prune k₁ φ = prune k₂ φ := by
  induction φ using Formula.part_induction with
  | atom a => simp [prune, h a (by simp [atoms])]
  | junction conj φs ih =>
    rw [prune_junction, prune_junction]
    refine congrArg _ (filterMap_congr fun φ hφ => ih φ hφ fun a ha => h a ?_)
    exact mem_atoms_of_part hφ ha
  | not φ ih => simp only [prune, ih h]

/-- Where all atoms are kept the formula is. -/
theorem prune_of_forall (hproper : φ.Proper) (h : ∀ a ∈ φ.atoms, kept a = true) :
    prune kept φ = some φ := by
  induction hproper with
  | atom a => simp [prune, h a (by simp [atoms])]
  | @junction conj φs hlen _ ih =>
    have hparts : φs.filterMap (prune kept) = φs.filterMap some := by
      refine filterMap_congr fun φ hφ => ih φ hφ fun a ha => h a ?_
      exact mem_atoms_of_part hφ ha
    rw [prune_junction, hparts, filterMap_some, rebuild_of_length hlen]
  | not _ ih => simp only [prune, ih h, Option.map_some]

/-- Where no atom is kept nothing is left, and only there. -/
theorem prune_eq_none_iff : prune kept φ = none ↔ survives kept φ = false := by
  induction φ using Formula.part_induction with
  | atom a => simp [prune, survives, atoms]
  | junction conj φs ih =>
    rw [prune_junction, rebuild_eq_none, filterMap_eq_nil_iff]
    simp only [survives, atoms_junction, any_flatMap, any_eq_false]
    constructor
    · intro h φ hφ
      have := (ih φ hφ).mp (h φ hφ)
      simpa [survives] using this
    · intro h φ hφ
      refine (ih φ hφ).mpr ?_
      simpa [survives] using h φ hφ
  | not φ ih => simpa [prune, survives, atoms] using ih

/-- The atoms that are left are those that are kept. -/
theorem atoms_prune (h : prune kept φ = some ψ) : ψ.atoms = φ.atoms.filter kept := by
  induction φ using Formula.part_induction generalizing ψ with
  | atom a =>
    simp only [prune] at h
    split at h
    · next hk =>
        injection h with h
        simp [← h, atoms, hk]
    · cases h
  | junction conj φs ih =>
    rw [prune_junction] at h
    rw [atoms_rebuild h, atoms_junction, filter_flatMap]
    clear h
    induction φs with
    | nil => rfl
    | cons φ φs ihs =>
      have htail := ihs fun χ hχ => ih χ (mem_cons_of_mem _ hχ)
      cases hφ : prune kept φ with
      | none =>
        have hnil : φ.atoms.filter kept = [] := by
          simpa [survives] using prune_eq_none_iff.mp hφ
        simp [hφ, hnil, htail]
      | some χ => simp [hφ, htail, ih φ (by simp) hφ]
  | not φ ih =>
    simp only [prune, Option.map_eq_some_iff] at h
    obtain ⟨χ, hχ, rfl⟩ := h
    simpa only [atoms] using ih hχ

-- ======== its meaning

section

variable {v : α → Truth} {kept : α → Bool}

/-- A conjunction is raised when each new part is above an old one, and
lowered when each old part is above a new one; a disjunction the other
way round. -/
theorem moves_joined {conj pos : Bool} {ss ts : List Truth}
    (hnew : ∀ t ∈ ts, ∃ s ∈ ss, Truth.Moves pos s t)
    (hold : conj = pos ∨ ∀ s ∈ ss, ∃ t ∈ ts, Truth.Moves pos s t) :
    Truth.Moves pos (joined conj ss) (joined conj ts) := by
  cases conj with
  | true =>
    cases pos with
    | true => exact Truth.all_le_all hnew
    | false =>
      exact Truth.all_le_all (hold.resolve_left (by decide))
  | false =>
    cases pos with
    | true =>
      exact Truth.any_le_any (hold.resolve_left (by decide))
    | false => exact Truth.any_le_any hnew

theorem moves_of_harmless {φ : Formula α} {pos : Bool}
    (h : harmless kept pos φ = true) {ψ : Formula α} (hψ : prune kept φ = some ψ) :
    Truth.Moves pos (φ.truth v) (ψ.truth v) := by
  induction φ using Formula.part_induction generalizing pos ψ with
  | atom a =>
    simp only [prune] at hψ
    split at hψ
    · cases hψ
      exact .refl pos _
    · cases hψ
  | junction conj φs ih =>
    have hsurv : survives kept (.junction conj φs) = true := by
      rw [← Bool.not_eq_false, ← prune_eq_none_iff, hψ]
      simp
    simp only [harmless, Bool.and_eq_true, harmlessAll_iff, Bool.or_eq_true, beq_iff_eq] at h
    obtain ⟨hparts, hlose⟩ := h
    rw [prune_junction] at hψ
    rw [truth_junction, truth_rebuild v hψ]
    refine moves_joined ?_ ?_
    · intro t ht
      obtain ⟨χ, hχ, rfl⟩ := mem_map.mp ht
      obtain ⟨φ, hφ, hprune⟩ := mem_filterMap.mp hχ
      exact ⟨_, mem_map_of_mem hφ, ih φ hφ (hparts φ hφ) hprune⟩
    · rcases hlose with (hpos | hall) | hnone
      · exact .inl hpos
      · refine .inr fun s hs => ?_
        obtain ⟨φ, hφ, rfl⟩ := mem_map.mp hs
        cases hprune : prune kept φ with
        | none =>
          have hgone := prune_eq_none_iff.mp hprune
          rw [all_eq_true.mp hall φ hφ] at hgone
          cases hgone
        | some χ =>
          have hχ : χ ∈ φs.filterMap (prune kept) :=
            mem_filterMap.mpr ⟨φ, hφ, hprune⟩
          exact ⟨_, mem_map_of_mem hχ, ih φ hφ (hparts φ hφ) hprune⟩
      · -- nothing of the junction is left
        have hgone : survives kept (.junction conj φs) = false := by
          rw [survives, atoms_junction, any_flatMap]
          exact (Bool.not_eq_true' _).mp hnone
        rw [hsurv] at hgone
        cases hgone
  | not φ ih =>
    simp only [prune, Option.map_eq_some_iff] at hψ
    obtain ⟨χ, hχ, rfl⟩ := hψ
    exact (ih (by simpa [harmless] using h) hχ).neg

/-- A harmless pruning raises the truth, also when nothing is left. -/
theorem le_truthOf_prune {φ : Formula α} (h : harmless kept true φ = true) :
    φ.truth v ≤ truthOf v (prune kept φ) := by
  cases hprune : prune kept φ with
  | none => exact le_top
  | some ψ => exact moves_of_harmless h hprune

/-- A pruned conjunction is the conjunction of its pruned parts. -/
theorem truthOf_prune_and (φs : List (Formula α)) :
    truthOf v (prune kept (.junction true φs))
      = Truth.all (φs.map fun φ => truthOf v (prune kept φ)) := by
  have hparts : Truth.all (φs.map fun φ => truthOf v (prune kept φ))
      = Truth.all ((φs.filterMap (prune kept)).map (truth v)) := by
    induction φs with
    | nil => rfl
    | cons φ φs ih =>
      cases h : prune kept φ with
      | none | some ψ => simp [h, ih]
  rw [hparts, prune_junction]
  cases h : rebuild true (φs.filterMap (prune kept)) with
  | none =>
    rw [rebuild_eq_none.mp h]
    rfl
  | some ψ => exact truth_rebuild v h

end

-- ======== conjunctions

/-- A conjunction, any way nested, of formulas from `C`. -/
inductive Conjunctive (C : Formula α → Prop) : Formula α → Prop
  | conjunct {φ : Formula α} (h : C φ) : Conjunctive C φ
  | and {φs : List (Formula α)} (h : ∀ φ ∈ φs, Conjunctive C φ) :
      Conjunctive C (.junction true φs)

section

variable {C : Formula α → Prop} {kept : α → Bool} {φ : Formula α}

/-- What passes from a conjunction to its parts holds of every conjunct. -/
theorem Conjunctive.and_inherited {Q : Formula α → Prop} (hφ : φ.Conjunctive C)
    (hQ : Q φ) (hpart : ∀ φs ψ, Q (.junction true φs) → ψ ∈ φs → Q ψ) :
    φ.Conjunctive fun ψ => C ψ ∧ Q ψ := by
  induction hφ with
  | conjunct hc => exact .conjunct ⟨hc, hQ⟩
  | @and φs _ ih => exact .and fun ψ hψ => ih ψ hψ (hpart φs ψ hQ hψ)

theorem Conjunctive.imp {C' : Formula α → Prop} (hφ : φ.Conjunctive C)
    (h : ∀ ψ, C ψ → C' ψ) : φ.Conjunctive C' := by
  induction hφ with
  | conjunct hc => exact .conjunct (h _ hc)
  | and _ ih => exact .and ih

theorem Proper.part {φs : List (Formula α)} {conj : Bool} {ψ : Formula α}
    (h : (Formula.junction conj φs).Proper) (hψ : ψ ∈ φs) : ψ.Proper := by
  cases h with
  | junction _ hparts => exact hparts ψ hψ

theorem harmless_part {φs : List (Formula α)} {conj pos : Bool} {ψ : Formula α}
    (h : harmless kept pos (.junction conj φs) = true) (hψ : ψ ∈ φs) :
    harmless kept pos ψ = true := by
  simp only [harmless, Bool.and_eq_true, harmlessAll_iff] at h
  exact h.1 ψ hψ

/-- A conjunction is split by prunings each of which raises every
conjunct and one of which keeps it. -/
theorem truth_eq_all_prunes {v : α → Truth} {ks : List (α → Bool)}
    (hφ : φ.Conjunctive fun ψ => (∀ k ∈ ks, ψ.truth v ≤ truthOf v (prune k ψ))
      ∧ ∃ k ∈ ks, truthOf v (prune k ψ) = ψ.truth v) :
    φ.truth v = Truth.all (ks.map fun k => truthOf v (prune k φ)) := by
  induction hφ with
  | conjunct h =>
    obtain ⟨hle, k, hk, heq⟩ := h
    refine le_antisymm ?_ ?_
    · rw [Truth.le_all_iff]
      intro t ht
      obtain ⟨k, hk, rfl⟩ := mem_map.mp ht
      exact hle k hk
    · rw [← heq]
      exact Truth.all_le_of_mem (mem_map_of_mem hk)
  | @and φs _ ih =>
    simp only [truth_junction, joined, if_true, truthOf_prune_and]
    refine le_antisymm ?_ ?_
    · rw [Truth.le_all_iff]
      intro t ht
      obtain ⟨k, hk, rfl⟩ := mem_map.mp ht
      refine Truth.all_le_all fun t ht => ?_
      obtain ⟨ψ, hψ, rfl⟩ := mem_map.mp ht
      refine ⟨_, mem_map_of_mem hψ, ?_⟩
      rw [ih ψ hψ]
      exact Truth.all_le_of_mem (mem_map_of_mem hk)
    · rw [Truth.le_all_iff]
      intro t ht
      obtain ⟨ψ, hψ, rfl⟩ := mem_map.mp ht
      rw [ih ψ hψ]
      refine Truth.all_le_all fun t ht => ?_
      obtain ⟨k, hk, rfl⟩ := mem_map.mp ht
      refine ⟨_, mem_map_of_mem hk, ?_⟩
      exact Truth.all_le_of_mem (mem_map_of_mem hψ)

end

end Formula
