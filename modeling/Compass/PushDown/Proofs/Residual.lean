/-
A run of the push-down splits the condition.

Every step of the loop prunes the formula of the condition that it starts
from, and pushes what is pushable of it, so the whole run is known from
the first formula: what was pushed to a scan is what is pushable there,
and the condition at the end is what stays at every scan that was pushed
to (`RunInv`). A conjunct over one of these scans is kept as a whole by
the filter pushed to it, any other one by the condition at the end; where
the prunings are harmless the conjunction of all of them has the truth of
the condition (`pushDown_lossless`).
-/
import Compass.PushDown.Proofs.Extract
import Compass.PushDown.Proofs.Split

namespace Compass.PushDown

open List

variable {D : Type}

-- ======== the targets

namespace RelNode

theorem ids_insertCompound {s k₀ x : Nat} {K : List ColInfo} {n : RelNode}
    (h : x ∈ (n.insertCompound s k₀ K).ids) : x = k₀ ∨ x ∈ n.ids := by
  induction n with
  | scan i fields =>
    unfold insertCompound at h
    split at h
    · simpa [ids] using h
    · exact .inr h
  | derived i fields input ih | compound i cols input ih => exact .inr h
  | through i input ih =>
    rcases mem_cons.mp h with hx | hx
    · exact .inr (hx ▸ mem_cons_self)
    · exact (ih hx).imp_right (mem_cons_of_mem _)
  | join i lhs rhs ihl ihr =>
    simp only [insertCompound, ids, cons_append, mem_cons, mem_append]
      at h ⊢
    rcases h with hx | hx | hx
    · exact .inr (.inl hx)
    · exact (ihl hx).imp_right fun hx => .inr (.inl hx)
    · exact (ihr hx).imp_right fun hx => .inr (.inr hx)

end RelNode

namespace ValidTargets

variable {P : Plan} {t : Target} {ts : List Target}

theorem tail (h : ValidTargets P (t :: ts)) : ValidTargets P ts where
  scans d hd := h.scans d (mem_cons_of_mem _ hd)
  scans_nodup := (nodup_cons.mp h.scans_nodup).2
  fresh d hd := h.fresh d (mem_cons_of_mem _ hd)
  compounds_nodup := (nodup_cons.mp h.compounds_nodup).2

theorem scanId_ne (h : ValidTargets P (t :: ts)) {d : Target} (hd : d ∈ ts) :
    d.scanId ≠ t.scanId := by
  intro heq
  exact (nodup_cons.mp h.scans_nodup).1 (heq ▸ mem_map_of_mem hd)

/-- The scans behind are still scans when the compound is put in. -/
theorem insertCompound (h : ValidTargets P (t :: ts)) (K : List ColInfo) :
    ValidTargets (P.insertCompound t.scanId t.compoundId K) ts where
  scans d hd := by
    obtain ⟨fields, hscan, hnames⟩ := h.scans d (mem_cons_of_mem _ hd)
    have hne := h.scanId_ne hd
    have hk : d.scanId ≠ t.compoundId := by
      intro heq
      exact h.fresh t mem_cons_self (heq ▸ RelNode.find?_mem_ids hscan)
    refine ⟨fields, ?_, hnames⟩
    show (P.root.insertCompound t.scanId t.compoundId K).find? d.scanId = _
    rw [RelNode.find?_insertCompound hne hk, hscan, Option.map_some,
      RelNode.insertCompound, if_neg hne]
  scans_nodup := h.tail.scans_nodup
  fresh d hd := by
    intro hmem
    rcases RelNode.ids_insertCompound hmem with heq | hmem
    · exact (nodup_cons.mp h.compounds_nodup).1 (heq ▸ mem_map_of_mem hd)
    · exact h.tail.fresh d hd hmem
  compounds_nodup := h.tail.compounds_nodup

end ValidTargets

-- ======== the atoms

section

variable {s : Nat} {a : Atom D} {N : Nat → Bool}

/-- What is pushed to a scan stays at the others. -/
theorem stays_of_pushable {s' : Nat} (hne : s ≠ s') (h : a.pushable s = true) :
    a.stays s' N = true := by
  have hone : ∀ x : Operand D, x.within s = true →
      x.isColumnOf s' = false ∧ x.above s' N = true := by
    intro x hx
    cases x with
    | column t c =>
      have ht : t = s := by simpa [Operand.within] using hx
      simp [Operand.isColumnOf, Operand.above, ht, hne]
    | literal v => exact ⟨rfl, rfl⟩
    | cast ti x => cases hx
  cases a with
  | compare op ti x y =>
    rw [Atom.pushable, Bool.and_eq_true] at h
    simp [Atom.stays, hone x h.1, hone y h.2]
  | nullTest negated ti x => exact (hone x h).2

theorem pushable_of_tables (hcast : a.castFree = true) (h : ∀ t ∈ a.tables, t = s) :
    a.pushable s = true := by
  have hone : ∀ x : Operand D, x.castFree = true → (∀ t ∈ x.tables, t = s) →
      x.within s = true := by
    intro x hx ht
    cases x with
    | column t c => simpa [Operand.within, Operand.tables] using ht
    | literal v => rfl
    | cast ti x => cases hx
  cases a with
  | compare op ti x y =>
    rw [Atom.castFree, Bool.and_eq_true] at hcast
    rw [Atom.pushable, Bool.and_eq_true]
    simp only [Atom.tables, mem_append] at h
    exact ⟨hone x hcast.1 fun t ht => h t (.inl ht), hone y hcast.2 fun t ht => h t (.inr ht)⟩
  | nullTest negated ti x => exact hone x hcast h

/-- What is over other tables stays. -/
theorem stays_of_tables (hcast : a.castFree = true) {t₀ : Nat} (hne : t₀ ≠ s)
    (h : ∀ t ∈ a.tables, t = t₀) : a.stays s N = true :=
  stays_of_pushable hne (pushable_of_tables hcast h)

/-- A join condition stays, with its columns. -/
theorem stays_of_joint {φ : Formula (Atom D)} {projected : List ColInfo} {op : SQLOps}
    {ti : SQLTypeInfo} {x y : Operand D} (hxy : x.joint y = true)
    (hmem : Atom.compare op ti x y ∈ φ.atoms) :
    Atom.stays s (needed s projected φ) (.compare op ti x y) = true := by
  have hcols : ∀ c ∈ x.columnIn s ++ y.columnIn s, needed s projected φ c = true := by
    intro c hc
    have : c ∈ joinColumns s φ := by
      refine mem_flatMap.mpr ⟨_, hmem, ?_⟩
      rwa [Atom.joinColumns, if_pos hxy]
    simp [needed, this]
  have hone : ∀ z : Operand D, z.castFree = true →
      (∀ c ∈ z.columnIn s, needed s projected φ c = true) →
      z.above s (needed s projected φ) = true := by
    intro z hz hc
    cases z with
    | column t c =>
      by_cases ht : t = s
      · simpa [Operand.above, ht] using hc c (by simp [Operand.columnIn, ht])
      · simp [Operand.above, ht]
    | literal v => rfl
    | cast ti z => cases hz
  have hfree : x.castFree = true ∧ y.castFree = true := by
    cases x <;> cases y <;> first | exact ⟨rfl, rfl⟩ | cases hxy
  rw [Atom.stays, hxy, hone x hfree.1 fun c hc => hcols c (mem_append_left _ hc),
    hone y hfree.2 fun c hc => hcols c (mem_append_right _ hc)]
  rfl

end

-- ======== the run

/-- The atom stays at every scan that was pushed to. -/
def staysAbove (φ : Formula (Atom D)) (done : List Target) (a : Atom D) : Bool :=
  done.all fun t => a.stays t.scanId (needed t.scanId t.projected φ)

/-- The prunings that give the pushed filters and the condition that is
left. -/
def prunings (φ : Formula (Atom D)) (done : List Target) : List (Atom D → Bool) :=
  done.map (fun t => Atom.pushable t.scanId) ++ [staysAbove φ done]

/-- The state after filters were pushed to the scans `done`. -/
structure RunInv (φ : Formula (Atom D)) (done : List Target) (st : PushState D) :
    Prop where
  cond : Option.Rel (Reads st.plan) st.cond (φ.prune (staysAbove φ done))
  pushed : List.Forall₂ (fun f t => ∃ ψ, φ.prune (Atom.pushable t.scanId) = some ψ
    ∧ Reads f.1 f.2 ψ) st.pushed done

section

variable {φ ψ : Formula (Atom D)} {done : List Target} {st : PushState D}

theorem RunInv.start {P : Plan} {cond : Rex D} (h : Reads P cond φ) :
    RunInv φ [] ⟨P, some cond, []⟩ where
  cond := by
    rw [Formula.prune_of_forall h.proper fun a _ => by simp [staysAbove]]
    exact .some h
  pushed := .nil

section

variable (hψ : φ.prune (staysAbove φ done) = some ψ)
include hψ

/-- What is pushable at a scan is not lost at the scans before. -/
theorem prune_pushable {s : Nat} (hs : ∀ d ∈ done, d.scanId ≠ s) :
    ψ.prune (Atom.pushable s) = φ.prune (Atom.pushable s) := by
  have htwo := Formula.prune_prune (staysAbove φ done) (Atom.pushable s) φ
  rw [hψ, Option.bind_some] at htwo
  rw [htwo]
  refine Formula.prune_congr fun a _ => ?_
  by_cases hpush : a.pushable s = true
  · have hstays : staysAbove φ done a = true := by
      rw [staysAbove, all_eq_true]
      exact fun d hd => stays_of_pushable (Ne.symm (hs d hd)) hpush
    rw [hstays, Bool.true_and]
  · simp [hpush]

/-- Nor is a join condition. -/
theorem mem_joinColumns {s c : Nat} : c ∈ joinColumns s ψ ↔ c ∈ joinColumns s φ := by
  simp only [joinColumns, Formula.atoms_prune hψ, mem_flatMap, mem_filter]
  constructor
  · intro h
    obtain ⟨a, ⟨ha, -⟩, hc⟩ := h
    exact ⟨a, ha, hc⟩
  · intro h
    obtain ⟨a, ha, hc⟩ := h
    refine ⟨a, ⟨ha, ?_⟩, hc⟩
    cases a with
    | compare op ti x y =>
      rw [Atom.joinColumns] at hc
      split at hc
      · next hxy =>
          rw [staysAbove, all_eq_true]
          exact fun d _ => stays_of_joint hxy ha
      · cases hc
    | nullTest negated ti x => cases hc

theorem prune_stays {t : Target} {K : List ColInfo}
    (hK : ∀ c, Projects K c ↔ Projects t.projected c ∨ c ∈ joinColumns t.scanId ψ) :
    ψ.prune (Atom.stays t.scanId (projectsBool K))
      = φ.prune (staysAbove φ (done ++ [t])) := by
  have hneeded : projectsBool K = needed t.scanId t.projected φ := by
    funext c
    rw [Bool.eq_iff_iff, projectsBool_iff, hK, mem_joinColumns hψ, ← projectsBool_iff]
    simp [needed, projectsBool]
  have htwo := Formula.prune_prune (staysAbove φ done)
    (Atom.stays t.scanId (projectsBool K)) φ
  rw [hψ, Option.bind_some] at htwo
  rw [htwo, hneeded]
  refine Formula.prune_congr fun a _ => ?_
  simp [staysAbove]

end

variable (hinv : RunInv φ done st)
include hinv

/-- One turn of the loop: nothing is changed, or the filter is pushed. -/
theorem RunInv.step {t : Target}
    (hs : st.plan.NamedScan t.scanId) (hk : t.compoundId ∉ st.plan.root.ids)
    (hdone : ∀ d ∈ done, d.scanId ≠ t.scanId) :
    pushDownScan st t = some st
      ∨ t.carriedOut = true ∧ φ.survives (Atom.pushable t.scanId) = true
        ∧ ∃ st' K, pushDownScan st t = some st'
          ∧ st'.plan = st.plan.insertCompound t.scanId t.compoundId K
          ∧ RunInv φ (done ++ [t]) st' := by
  obtain ⟨plan, cond, pushed⟩ := st
  obtain ⟨hcond, hpushed⟩ := hinv
  generalize hprune : φ.prune (staysAbove φ done) = o at hcond
  cases hcond with
  | none => exact .inl rfl
  | @some e ψ hreads =>
    obtain ⟨f, K, hfind, hrel, hK⟩ := find_reads hs hreads t.projected
    rw [prune_pushable hprune hdone] at hrel
    generalize hpush : φ.prune (Atom.pushable t.scanId) = χ at hrel
    cases hrel with
    | none =>
      left
      simp [pushDownScan, hfind]
    | @some r χ hr =>
      cases hout : t.carriedOut with
      | false =>
        left
        simp [pushDownScan, hfind, hout]
      | true =>
        right
        obtain ⟨rest, hbuild, hrest⟩ := build_reads (K := K) hs hk hreads
        rw [prune_stays hprune hK] at hrest
        have hsurv : φ.survives (Atom.pushable t.scanId) = true := by
          rw [← Bool.not_eq_false, ← Formula.prune_eq_none_iff, hpush]
          simp
        refine ⟨rfl, hsurv, ⟨plan.insertCompound t.scanId t.compoundId K, rest,
          pushed ++ [(plan, r)]⟩, K, ?_, rfl, hrest, ?_⟩
        · simp [pushDownScan, hfind, hout, hbuild]
        · exact rel_append hpushed (.cons ⟨χ, hpush, hr⟩ .nil)

/-- The whole loop: some of the targets are pushed to, each carried out
and with something to push. -/
theorem RunInv.run {targets : List Target} (hvalid : ValidTargets st.plan targets)
    (hdone : ∀ d ∈ done, ∀ t ∈ targets, d.scanId ≠ t.scanId) :
    ∃ st' done', targets.foldlM pushDownScan st = some st'
      ∧ RunInv φ (done ++ done') st' ∧ done'.Sublist targets
      ∧ ∀ t ∈ done', t.carriedOut = true
        ∧ φ.survives (Atom.pushable t.scanId) = true := by
  induction targets generalizing st done with
  | nil =>
    refine ⟨st, [], rfl, ?_, Sublist.refl _, by simp⟩
    rwa [append_nil]
  | cons t ts ih =>
    have hs := hvalid.scans t mem_cons_self
    have hk := hvalid.fresh t mem_cons_self
    rcases hinv.step hs hk fun d hd => hdone d hd t mem_cons_self with
      hsame | ⟨hout, hsurv, st₁, K, hstep, hplan, hinv₁⟩
    · obtain ⟨st', done', hrun, hinv', hsub, hall⟩ := ih hinv hvalid.tail
        fun d hd t' ht' => hdone d hd t' (mem_cons_of_mem _ ht')
      refine ⟨st', done', ?_, hinv', hsub.cons _, hall⟩
      rw [foldlM_cons, hsame]
      exact hrun
    · have hdone₁ : ∀ d ∈ done ++ [t], ∀ t' ∈ ts, d.scanId ≠ t'.scanId := by
        intro d hd t' ht'
        rcases mem_append.mp hd with hd | hd
        · exact hdone d hd t' (mem_cons_of_mem _ ht')
        · rw [mem_singleton.mp hd]
          exact Ne.symm (hvalid.scanId_ne ht')
      obtain ⟨st', done', hrun, hinv', hsub, hall⟩ :=
        ih hinv₁ (hplan ▸ hvalid.insertCompound K) hdone₁
      refine ⟨st', t :: done', ?_, ?_, hsub.cons_cons _, ?_⟩
      · rw [foldlM_cons, hstep]
        exact hrun
      · rwa [append_assoc] at hinv'
      · intro d hd
        rcases mem_cons.mp hd with rfl | hd
        · exact ⟨hout, hsurv⟩
        · exact hall d hd

/-- What the query keeps after the run, by the prunings. -/
theorem RunInv.truth (I : Interp D) (row : Assignment D) : st.truth I row
      = Truth.all ((prunings φ done).map fun kept =>
          Formula.truthOf (Atom.truth I row) (φ.prune kept)) := by
  have hpushed : st.pushed.map (fun f => f.1.truth I row f.2)
      = done.map fun t => Formula.truthOf (Atom.truth I row)
          (φ.prune (Atom.pushable t.scanId)) := by
    refine forall₂_eq_eq_eq ▸ ?_
    rw [forall₂_map_left_iff, forall₂_map_right_iff]
    refine hinv.pushed.imp fun f t hf => ?_
    obtain ⟨ψ, hψ, hreads⟩ := hf
    rw [hψ, hreads.truth]
    rfl
  have hcond : st.truth I row = Truth.all (st.pushed.map fun f => f.1.truth I row f.2)
      ⊓ Formula.truthOf (Atom.truth I row) (φ.prune (staysAbove φ done)) := by
    obtain ⟨plan, cond, pushed⟩ := st
    have hrel := hinv.cond
    generalize φ.prune (staysAbove φ done) = o at hrel
    cases hrel with
    | none => rfl
    | some h =>
      rw [Formula.truthOf_some, ← h.truth I row]
      rfl
  rw [hcond, hpushed, prunings, map_append, map_map, Truth.all_append]
  simp [Function.comp_def]

end

-- ======== the conjuncts

section

variable {φ ψ : Formula (Atom D)} {done : List Target}

/-- No push-down loses anything of the formula. -/
structure Lossless (φ : Formula (Atom D)) (done : List Target) (ψ : Formula (Atom D)) :
    Prop where
  proper : ψ.Proper
  atoms : ∀ a ∈ ψ.atoms, a ∈ φ.atoms
  castFree : ∀ t ∈ done, ∀ a ∈ ψ.atoms, a.castFree = true
  find : ∀ t ∈ done, ψ.harmless (Atom.pushable t.scanId) true = true
  build : ∀ t ∈ done, ψ.harmless (Atom.stays t.scanId (needed t.scanId t.projected φ)) true = true

theorem Lossless.part {φs : List (Formula (Atom D))}
    (h : Lossless φ done (.junction true φs)) (hψ : ψ ∈ φs) : Lossless φ done ψ where
  proper := h.proper.part hψ
  atoms a ha := h.atoms a (Formula.mem_atoms_of_part hψ ha)
  castFree t ht a ha := h.castFree t ht a (Formula.mem_atoms_of_part hψ ha)
  find t ht := Formula.harmless_part (h.find t ht) hψ
  build t ht := Formula.harmless_part (h.build t ht) hψ

/-- A conjunct of another table than those that were pushed to stays. -/
theorem prune_staysAbove_other (h : Lossless φ done ψ) {t₀ : Nat}
    (htables : ∀ a ∈ ψ.atoms, ∀ t ∈ a.tables, t = t₀) (hother : ∀ d ∈ done, d.scanId ≠ t₀) :
    ψ.prune (staysAbove φ done) = some ψ := by
  refine Formula.prune_of_forall h.proper fun a ha => ?_
  rw [staysAbove, all_eq_true]
  exact fun d hd =>
    stays_of_tables (h.castFree d hd a ha) (Ne.symm (hother d hd)) (htables a ha)

/-- Of a conjunct of a table that was pushed to, what stays there. -/
theorem prune_staysAbove_own (h : Lossless φ done ψ) {d : Target} (hd : d ∈ done)
    (hnodup : (done.map Target.scanId).Nodup)
    (htables : ∀ a ∈ ψ.atoms, ∀ t ∈ a.tables, t = d.scanId) :
    ψ.prune (staysAbove φ done)
      = ψ.prune (Atom.stays d.scanId (needed d.scanId d.projected φ)) := by
  refine Formula.prune_congr fun a ha => ?_
  rw [Bool.eq_iff_iff, staysAbove, all_eq_true]
  refine ⟨fun hall => hall d hd, fun hown d' hd' => ?_⟩
  by_cases hscan : d'.scanId = d.scanId
  · rw [inj_on_of_nodup_map hnodup hd' hd hscan]
    exact hown
  · exact stays_of_tables (h.castFree d' hd' a ha) (Ne.symm hscan) (htables a ha)

/-- Every filter and the condition at the end are above a conjunct, and
one of them is the conjunct. -/
theorem conjunct_split (hψ : Conjunct ψ) (h : Lossless φ done ψ)
    (hnodup : (done.map Target.scanId).Nodup) (v : Atom D → Truth) :
    (∀ kept ∈ prunings φ done, ψ.truth v ≤ Formula.truthOf v (ψ.prune kept))
      ∧ ∃ kept ∈ prunings φ done, Formula.truthOf v (ψ.prune kept) = ψ.truth v := by
  have hfind : ∀ t ∈ done, ψ.truth v ≤ Formula.truthOf v (ψ.prune (Atom.pushable t.scanId)) :=
    fun t ht => Formula.le_truthOf_prune (h.find t ht)
  -- it is enough to look at what stays, and at who keeps the conjunct
  suffices hstay : ψ.truth v ≤ Formula.truthOf v (ψ.prune (staysAbove φ done))
      ∧ ((∃ d ∈ done, ψ.prune (Atom.pushable d.scanId) = some ψ)
        ∨ ψ.prune (staysAbove φ done) = some ψ) by
    obtain ⟨hle, hkept⟩ := hstay
    constructor
    · intro kept hk
      rcases mem_append.mp hk with hk | hk
      · obtain ⟨t, ht, rfl⟩ := mem_map.mp hk
        exact hfind t ht
      · rw [mem_singleton.mp hk]
        exact hle
    · rcases hkept with ⟨d, hd, heq⟩ | heq
      · refine ⟨_, mem_append_left _ (mem_map_of_mem hd), ?_⟩
        rw [heq, Formula.truthOf_some]
      · refine ⟨_, mem_append_right _ (mem_singleton_self _), ?_⟩
        rw [heq, Formula.truthOf_some]
  cases hψ with
  | single t₀ htables =>
    by_cases hown : ∃ d ∈ done, d.scanId = t₀
    · obtain ⟨d, hd, rfl⟩ := hown
      refine ⟨?_, .inl ⟨d, hd, ?_⟩⟩
      · rw [prune_staysAbove_own h hd hnodup htables]
        exact Formula.le_truthOf_prune (h.build d hd)
      · refine Formula.prune_of_forall h.proper fun a ha => ?_
        exact pushable_of_tables (h.castFree d hd a ha) (htables a ha)
    · have hkept := prune_staysAbove_other h htables fun d hd heq => hown ⟨d, hd, heq⟩
      refine ⟨?_, .inr hkept⟩
      rw [hkept, Formula.truthOf_some]
  | @joint op ti t c t' c' hne =>
    have hkept : Formula.prune (staysAbove φ done)
        (.atom (.compare op ti (.column t c) (.column t' c')))
        = some (.atom (.compare op ti (.column t c) (.column t' c'))) := by
      refine Formula.prune_of_forall h.proper fun a ha => ?_
      rw [staysAbove, all_eq_true]
      intro d _
      rw [Formula.atoms, mem_singleton] at ha
      subst ha
      exact stays_of_joint (by simpa [Operand.joint] using hne)
        (h.atoms _ (by simp [Formula.atoms]))
    refine ⟨?_, .inr hkept⟩
    rw [hkept, Formula.truthOf_some]

end

-- ======== the condition

/-- For every conjunction of predicates over one table each and of bare
join conditions, and every list of scans: where no push-down that is
carried out loses anything of the condition, the filters that are pushed
and the condition that is left have together the truth of the condition,
on every row. -/
theorem pushDown_lossless {P : Plan} {cond : Rex D} {φ : Formula (Atom D)}
    {targets : List Target} (hreads : Reads P cond φ) (hφ : φ.Conjunctive Conjunct)
    (hvalid : ValidTargets P targets)
    (hsplits : ∀ t ∈ targets, t.carriedOut = true → splits φ t = true) :
    ∃ st, pushDownAll P cond targets = some st
      ∧ ∀ (I : Interp D) (row : Assignment D), st.truth I row = P.truth I row cond := by
  obtain ⟨st, done, hrun, hinv, hsub, hdone⟩ :=
    (RunInv.start hreads).run hvalid (by simp)
  have hnodup : (done.map Target.scanId).Nodup :=
    hvalid.scans_nodup.sublist (hsub.map _)
  have hsplit : ∀ t ∈ done, φ.atoms.all Atom.castFree = true
      ∧ φ.harmless (Atom.pushable t.scanId) true = true
      ∧ φ.harmless (Atom.stays t.scanId (needed t.scanId t.projected φ)) true = true := by
    intro t ht
    obtain ⟨hout, hsurv⟩ := hdone t ht
    have := hsplits t (hsub.subset ht) hout
    simpa [splits, hsurv, and_assoc] using this
  have hlossless : Lossless φ done φ :=
    { proper := hreads.proper
      atoms := fun a ha => ha
      castFree := fun t ht a ha => all_eq_true.mp (hsplit t ht).1 a ha
      find := fun t ht => (hsplit t ht).2.1
      build := fun t ht => (hsplit t ht).2.2 }
  refine ⟨st, hrun, fun I row => ?_⟩
  rw [hinv.truth, hreads.truth]
  refine (Formula.truth_eq_all_prunes ?_).symm
  refine (hφ.and_inherited hlossless fun φs ψ h hψ => h.part hψ).imp fun ψ hψ => ?_
  exact conjunct_split hψ.1 hψ.2 hnodup _

-- ======== three conditions

section

variable {P : Plan} {ti : SQLTypeInfo} {es : List (Rex D)} {φs : List (Formula (Atom D))}

theorem Reads.and (hlen : 2 ≤ es.length) (h : Forall₂ (Reads P) es φs) :
    Reads P (.oper .kAND es ti) (.junction true φs) :=
  Reads.of_forall₂ true ti hlen h

theorem Reads.or (hlen : 2 ≤ es.length) (h : Forall₂ (Reads P) es φs) :
    Reads P (.oper .kOR es ti) (.junction false φs) :=
  Reads.of_forall₂ false ti hlen h

theorem Reads.isNull {e : Rex D} {x : Operand D} (h : ReadsOperand P e x) :
    Reads P (.oper .kISNULL [e] ti) (.atom (.nullTest false ti x)) :=
  @Reads.nullTest D P false ti e x h

/-- A comparison of a column with a number, as a formula. -/
def compareColumn (op : SQLOps) (t c : Nat) (v : Int) : Formula (Atom Int) :=
  .atom (.compare op boolType (.column t c) (.literal (.scalar v)))

theorem reads_compareInput {op : SQLOps} (hop : op.isComparison = true) {t c : Nat}
    (h : P.columnOf t c = some (t, c)) (v : Int) :
    Reads P (compareInput op t c v) (compareColumn op t c v) :=
  .compare hop (.column h) (.literal _)

/-- A predicate over one table. -/
theorem conjunct_of_tables {φ : Formula (Atom D)} (t : Nat)
    (h : (φ.atoms.all fun a => a.tables.all (· == t)) = true) : Conjunct φ := by
  refine .single t fun a ha t' ht' => ?_
  have hall := all_eq_true.mp (all_eq_true.mp h a ha) t' ht'
  exact beq_iff_eq.mp hall

end

/-- The scan of `a` and the scan of `b` as targets, with new compounds. -/
def bothTargets (projected : List ColInfo) : List Target :=
  [⟨1, 10, projected, true⟩, ⟨2, 11, [], true⟩]

theorem validTargets_twoScans (projected : List ColInfo) :
    ValidTargets twoScans (bothTargets projected) where
  scans := by
    intro t ht
    simp only [bothTargets, mem_cons, not_mem_nil, or_false] at ht
    rcases ht with rfl | rfl
    · exact ⟨["x", "y"], rfl, by decide⟩
    · exact ⟨["y"], rfl, by decide⟩
  scans_nodup := by simp [bothTargets]
  fresh := by
    intro t ht
    simp only [bothTargets, mem_cons, not_mem_nil, or_false] at ht
    rcases ht with rfl | rfl
    · simp [twoScans, RelNode.ids]
    · simp [twoScans, RelNode.ids]
  compounds_nodup := by simp [bothTargets]

/-- `CAST(a.x AS BIGINT) > 5 AND a.y = 1`. -/
def castCondition : Rex Int :=
  .oper .kAND [.oper .kGT [.oper .kCAST [.input 1 0] ⟨.kBIGINT, false, 8⟩,
    .literal (.scalar 5)] boolType, compareInput .kEQ 1 1 1] boolType

/-- `a.x IS NULL OR a.y = 1`. -/
def nullCondition : Rex Int :=
  .oper .kOR [.oper .kISNULL [.input 1 0] boolType, compareInput .kEQ 1 1 1] boolType

/-- `(a.x = 1 OR a.y IS NULL) AND a.x = b.y AND b.y > 0`. -/
def joinCondition : Rex Int :=
  .oper .kAND [.oper .kOR [compareInput .kEQ 1 0 1, .oper .kISNULL [.input 1 1] boolType]
    boolType, .oper .kEQ [.input 1 0, .input 2 0] boolType, compareInput .kGT 2 0 0]
    boolType

theorem reads_castCondition :
    ∃ φ, Reads twoScans castCondition φ ∧ φ.Conjunctive Conjunct := by
  have hcast : ReadsOperand twoScans (.oper .kCAST [.input 1 0] ⟨.kBIGINT, false, 8⟩)
      (.cast ⟨.kBIGINT, false, 8⟩ (.column 1 0) : Operand Int) := .cast (.column rfl)
  refine ⟨_, .and (by decide) (.cons (.compare rfl hcast (.literal _))
    (.cons (reads_compareInput rfl rfl 1) .nil)), ?_⟩
  exact .conjunct (conjunct_of_tables 1 (by decide))

theorem reads_nullCondition :
    ∃ φ, Reads twoScans nullCondition φ ∧ φ.Conjunctive Conjunct := by
  have hcolumn : ReadsOperand twoScans (.input 1 0 : Rex Int) (.column 1 0) := .column rfl
  refine ⟨_, .or (by decide) (.cons (.isNull hcolumn)
    (.cons (reads_compareInput rfl rfl 1) .nil)), ?_⟩
  exact .conjunct (conjunct_of_tables 1 (by decide))

/-- The comparison of the CAST is dropped from both sides: a row with
`a.x = 0` and `a.y = 1` is kept on which the condition is FALSE. And the
null test of a projected column stays without the other operand of its
OR: a row with `a.x = 3` and `a.y = 1` is lost. -/
theorem pushDown_not_lossless :
    (∃ φ, Reads twoScans castCondition φ ∧ φ.Conjunctive Conjunct)
      ∧ (∃ φ, Reads twoScans nullCondition φ ∧ φ.Conjunctive Conjunct)
      ∧ ValidTargets twoScans (bothTargets [])
      ∧ ValidTargets twoScans (bothTargets [(0, "x")])
      ∧ (∃ st, pushDownAll twoScans castCondition (bothTargets []) = some st
        ∧ st.truth intInterp (fun c => .scalar c.2) = .yes
        ∧ twoScans.truth intInterp (fun c => .scalar c.2) castCondition = .no)
      ∧ ∃ st, pushDownAll twoScans nullCondition (bothTargets [(0, "x")]) = some st
        ∧ st.truth intInterp (fun c => .scalar (3 - 2 * c.2)) = .no
        ∧ twoScans.truth intInterp (fun c => .scalar (3 - 2 * c.2)) nullCondition
          = .yes := by
  refine ⟨reads_castCondition, reads_nullCondition, validTargets_twoScans [],
    validTargets_twoScans [(0, "x")], ⟨_, rfl, by decide, by decide⟩,
    ⟨_, rfl, by decide, by decide⟩⟩

/-- The formula of `joinCondition`. -/
def joinFormula : Formula (Atom Int) :=
  .junction true [.junction false [compareColumn .kEQ 1 0 1,
    .atom (.nullTest false boolType (.column 1 1))],
    .atom (.compare .kEQ boolType (.column 1 0) (.column 2 0)), compareColumn .kGT 2 0 0]

theorem reads_joinCondition : Reads twoScans joinCondition joinFormula := by
  have hx : ReadsOperand twoScans (.input 1 0 : Rex Int) (.column 1 0) := .column rfl
  have hy : ReadsOperand twoScans (.input 1 1 : Rex Int) (.column 1 1) := .column rfl
  have hb : ReadsOperand twoScans (.input 2 0 : Rex Int) (.column 2 0) := .column rfl
  refine .and (by decide) (.cons (.or (by decide) ?_) (.cons (.compare rfl hx hb)
    (.cons (reads_compareInput rfl rfl 0) .nil)))
  exact .cons (reads_compareInput rfl rfl 1) (.cons (.isNull hy) .nil)

theorem joinFormula_conjunctive : joinFormula.Conjunctive Conjunct := by
  refine .and fun φ hφ => ?_
  simp only [mem_cons, not_mem_nil, or_false] at hφ
  rcases hφ with rfl | rfl | rfl
  · exact .conjunct (conjunct_of_tables 1 (by decide))
  · exact .conjunct (.joint (by decide))
  · exact .conjunct (conjunct_of_tables 2 (by decide))

/-- Nothing is projected: the disjunction goes to the scan of `a`, the
comparison to the scan of `b` and the join condition stays. -/
theorem pushDown_lossless_joinCondition :
    (∀ t ∈ bothTargets [], splits joinFormula t = true)
      ∧ ∃ st, pushDownAll twoScans joinCondition (bothTargets []) = some st
        ∧ ∀ (I : Interp Int) (row : Assignment Int),
          st.truth I row = twoScans.truth I row joinCondition := by
  have hsplits : ∀ t ∈ bothTargets [], splits joinFormula t = true := by
    intro t ht
    simp only [bothTargets, mem_cons, not_mem_nil, or_false] at ht
    rcases ht with rfl | rfl
    · decide
    · decide
  exact ⟨hsplits, pushDown_lossless reads_joinCondition joinFormula_conjunctive
    (validTargets_twoScans []) fun t ht _ => hsplits t ht⟩

end Compass.PushDown
