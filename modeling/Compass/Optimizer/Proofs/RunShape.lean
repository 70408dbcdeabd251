/-
The vector along `fold_filters`.

The vector is visited from its end, so when a filter is looked at its input
still stands for itself alone (`RunShape.input_alone`), and has the users
and, but for names, the condition it had at the start. Hence the pass
decides as `folds` does in the plan it was given
(`RunShape.folds_iff_now`).
-/
import Compass.Optimizer.Proofs.FoldStep

namespace Compass.Optimizer

open Compass.PushDown List Option
open Compass.RelAlg
open Compass.LeftDeep (JoinType)

variable {D : Type}

variable {P : Plan D}

-- ======== the chains

theorem folds_iff (hord : P.Ordered) {f g : Nat} {c : Rex D} (hf : ⟨f, .filter g c⟩ ∈ P) :
    folds P f = true ↔ (∃ x c', ⟨g, .filter x c'⟩ ∈ P) ∧ (P.users g).length = 1
      ∧ (operatorType c).isSome = true := by
  have hnode : P.node? f = some ⟨f, .filter g c⟩ := Plan.node?_of_mem hord hf
  obtain ⟨⟨g', body⟩, hm, hid⟩ := Plan.exists_input hord hf (mem_singleton.mpr rfl)
  obtain rfl : g' = g := hid
  have hnode' : P.node? g' = some ⟨g', body⟩ := Plan.node?_of_mem hord hm
  unfold folds
  rw [hnode]
  dsimp only
  rw [hnode']
  cases body with
  | filter x c' =>
    rw [Bool.and_eq_true, decide_eq_true_iff]
    exact ⟨fun h => ⟨⟨x, c', hm⟩, h⟩, fun h => h.2⟩
  | _ =>
    constructor
    · intro h
      cases h
    · rintro ⟨⟨x, c', hx⟩, -⟩
      cases hord.eq_of_key hm hx rfl

/-- Only a filter over a filter is folded. -/
theorem filter_of_folds (hord : P.Ordered) {f : Nat} (h : folds P f = true) :
    ∃ g c x c', ⟨f, .filter g c⟩ ∈ P ∧ ⟨g, .filter x c'⟩ ∈ P := by
  have hcopy := h
  unfold folds at h
  split at h
  · next id g c hnode =>
      obtain ⟨hmem, hid⟩ := Plan.mem_of_node? hnode
      obtain rfl : id = f := hid
      obtain ⟨⟨x, c', hx⟩, -⟩ := (folds_iff hord hmem).mp hcopy
      exact ⟨g, c, x, c', hmem, hx⟩
  · cases h

/-- The members of a chain are folded. -/
theorem Stacked.folds {g : Nat} {above : List Nat} (h : Stacked P g above) :
    ∀ f ∈ above, Compass.Optimizer.folds P f = true := by
  induction above generalizing g with
  | nil => simp
  | cons f fs ih =>
    intro f' hf'
    rcases mem_cons.mp hf' with rfl | hmem
    · exact h.1
    · exact ih h.2.2 f' hmem

/-- The one filter over a filter that is folded into it. -/
theorem folded_unique (hord : P.Ordered) {f f' g : Nat} {c c' : Rex D} (hf : ⟨f, .filter g c⟩ ∈ P)
    (hfolds : folds P f = true) (hf' : ⟨f', .filter g c'⟩ ∈ P) :
    f' = f := by
  obtain ⟨-, hlength, -⟩ := (folds_iff hord hf).mp hfolds
  obtain ⟨u, hu⟩ := length_eq_one_iff.mp hlength
  have hmem : f ∈ P.users g := Plan.mem_users.mpr ⟨_, hf, mem_singleton.mpr rfl, rfl⟩
  have hmem' : f' ∈ P.users g := Plan.mem_users.mpr ⟨_, hf', mem_singleton.mpr rfl, rfl⟩
  rw [hu, mem_singleton] at hmem hmem'
  rw [hmem, hmem']

/-- A chain that cannot be continued has the members of any other. -/
theorem stacked_subset (hord : P.Ordered) {fs : List Nat} :
    ∀ {g : Nat} {chain : List Nat}, Stacked P g fs → Stacked P g chain →
      (∀ h c, ⟨h, .filter (chain.getLastD g) c⟩ ∈ P → folds P h = false) →
      ∀ f ∈ fs, f ∈ chain := by
  induction fs with
  | nil => simp
  | cons f fs ih =>
    intro g chain h hchain hmax
    obtain ⟨hfolds, ⟨c, hf⟩, hfs⟩ := h
    cases chain with
    | nil =>
      rw [hmax f c hf] at hfolds
      cases hfolds
    | cons f' chain =>
      obtain ⟨hfolds', ⟨c', hf'⟩, hchain⟩ := hchain
      obtain rfl := folded_unique hord hf hfolds hf'
      rw [getLastD_cons] at hmax
      rw [forall_mem_cons]
      exact ⟨mem_cons_self, fun h hh =>
        mem_cons_of_mem _ (ih hfs hchain hmax h hh)⟩

/-- Either nothing was folded into a node, or its last filter is one of
those that were. -/
theorem top_cases {merged : Nat → List Nat} {i : Nat} {above : List Nat}
    (h : merged i = i :: above) : (above = [] ∧ top merged i = i) ∨ top merged i ∈ above := by
  unfold top
  rw [h]
  cases above with
  | nil => exact .inl ⟨rfl, rfl⟩
  | cons f fs =>
    refine .inr ?_
    rw [getLastD_cons, getLastD_cons, getLastD_eq_getLast?]
    cases hlast : (f :: fs).getLast? with
    | none => simp at hlast
    | some a =>
      have hmem := mem_of_getLast? hlast
      cases fs with
      | nil => simp
      | cons f' fs' =>
        rw [getLast?_cons_cons] at hlast
        rw [hlast]
        exact hmem

-- ======== the condition

theorem foldedCondition_of_boolean {cg cr : Rex D} (hg : IsBoolean cg) (hr : IsBoolean cr) :
    ∃ ti, foldedCondition cg cr = some (.oper .kAND [cg, cr] ti) := by
  obtain ⟨tg, htg, hbg⟩ := hg
  obtain ⟨tr, htr, hbr⟩ := hr
  exact ⟨{ type := .kBOOLEAN, notnull := tg.notnull && tr.notnull, size := 0 },
    by simp [foldedCondition, htg, htr, hbg, hbr]⟩

theorem foldedCondition_eq_some {cg cr c : Rex D} (h : foldedCondition cg cr = some c) :
    IsBoolean cg ∧ IsBoolean cr ∧ ∃ ti, ti.type = .kBOOLEAN ∧ c = .oper .kAND [cg, cr] ti := by
  unfold foldedCondition at h
  simp only [bind_eq_bind, bind_eq_some_iff] at h
  obtain ⟨tg, htg, tr, htr, h⟩ := h
  split at h
  · next hb =>
      obtain rfl := some.inj h
      exact ⟨⟨tg, htg, hb.1⟩, ⟨tr, htr, hb.2⟩, _, rfl, rfl⟩
  · cases h

-- ======== the invariant

/-- A node of the vector and the one it was. Over a join it reads the sides
that it read, and those that the filters folded into it read. -/
structure Kin (P : Plan D) (merged : Nat → List Nat) (n m : RelAlgNode D) : Prop where
  id : m.id = n.id
  inputs : n.inputs.map (top merged) = m.inputs
  isJoin : n.isJoin = m.isJoin
  filter : ∀ y c₀, m.body = .filter y c₀ → ∃ x c, n.body = .filter x c
    ∧ (operatorType c).isSome = (operatorType c₀).isSome ∧ (IsBoolean c₀ ↔ IsBoolean c)
  wasFilter : ∀ x c, n.body = .filter x c → ∃ y c₀, m.body = .filter y c₀
  overJoin : m.isJoin = false → ∀ j ty lhs rhs c, j ∈ m.inputs → ⟨j, .join ty lhs rhs c⟩ ∈ P →
    ∀ a, (∃ p ∈ exprInputs n, p.1 = a) ↔ (∃ p ∈ exprInputs m, p.1 = a)
      ∨ ∃ h ∈ (merged n.id).tail, ∃ k, ReadsColumn P h k ∧ columnSide P lhs rhs k = a

/-- The vector when the nodes of `done` have been visited. -/
structure RunShape (P : Plan D) (s : FoldState D) (merged : Nat → List Nat)
    (done : List Nat) : Prop where
  wo : s.nodes.Ordered
  sides_ne : ∀ n ∈ s.nodes, ∀ ty lhs rhs c, n.body = .join ty lhs rhs c → lhs ≠ rhs
  noCompound : ∀ n ∈ s.nodes, isCompound n = false
  web : s.web = s.nodes.users
  ids : s.nodes.map RelAlgNode.id
    = (P.map RelAlgNode.id).filter fun i => !(decide (i ∈ done) && folds P i)
  stacked : ∀ n ∈ s.nodes, ∃ above, merged n.id = n.id :: above ∧ Stacked P n.id above
    ∧ ∀ h ∈ above, h ∈ done
  maximal : ∀ n ∈ s.nodes, ∀ h c, ⟨h, .filter (top merged n.id) c⟩ ∈ P →
    folds P h = true → h ∉ done
  kin : ∀ n ∈ s.nodes, ∃ m ∈ P, Kin P merged n m
  users : ∀ n ∈ s.nodes, s.nodes.users n.id = P.users (top merged n.id)
  sizes : ∀ n ∈ s.nodes, s.nodes.sizes n.id = P.sizes (top merged n.id)
  columns : ∀ i x c, ⟨i, .filter x c⟩ ∈ s.nodes → P.sides (top merged x) = none →
    ∀ k, (∃ p ∈ c.inputs, p.2 = k) ↔ ∃ h ∈ merged i, ReadsColumn P h k
  boolean : ∀ f ∈ done, folds P f = true → ∀ g c x c', ⟨f, .filter g c⟩ ∈ P →
    ⟨g, .filter x c'⟩ ∈ P → IsBoolean c ∧ IsBoolean c'

theorem RunShape.init (hP : P.WellFormed) (hcompound : ∀ n ∈ P, isCompound n = false) :
    RunShape P ⟨P, P.users⟩ (fun i => [i]) [] where
  wo := hP.ordered
  sides_ne := by
    rintro ⟨id, body⟩ hn ty lhs rhs c hbody
    obtain rfl : body = .join ty lhs rhs c := hbody
    exact (hP.inScope _ hn).1
  noCompound := hcompound
  web := rfl
  ids := by simp
  stacked := fun n _ => ⟨[], rfl, trivial, by simp⟩
  maximal := by simp
  kin := by
    intro n hn
    refine ⟨n, hn, rfl, ?_, rfl, ?_, fun x c hbody => ⟨x, c, hbody⟩, ?_⟩
    · exact map_id _
    · exact fun y c₀ hbody => ⟨y, c₀, hbody, rfl, Iff.rfl⟩
    · simp
  users := fun n _ => rfl
  sizes := fun n _ => rfl
  columns := by
    intro i x c hmem _ k
    simp only [mem_singleton, exists_eq_left]
    constructor
    · exact fun h => ⟨x, c, hmem, h⟩
    · rintro ⟨x', c', hmem', h⟩
      cases hP.ordered.eq_of_key hmem hmem' rfl
      exact h
  boolean := by simp

/-- What is read by a node that has not been visited has not been visited. -/
theorem not_visited (hord : P.Ordered) {todo done : List Nat}
    (hP : P.map RelAlgNode.id = todo ++ done) {m : RelAlgNode D} (hm : m ∈ P) (hdone : m.id ∉ done)
    {i : Nat} (hi : i ∈ m.inputs) : i ∉ done := by
  obtain ⟨pre, post, rfl, rfl, rfl⟩ := map_eq_append_iff.mp hP
  have hpre : m ∈ pre := by
    rcases mem_append.mp hm with h | h
    · exact h
    · exact absurd (mem_map_of_mem h) hdone
  obtain ⟨n, hn, rfl⟩ := hord.mem_initial rfl hpre hi
  have hnodup : (map RelAlgNode.id (pre ++ post)).Nodup :=
    pairwise_map.mpr (hord.after.imp fun h => h.1)
  rw [map_append, nodup_append] at hnodup
  exact fun hmem => hnodup.2.2 _ (mem_map_of_mem hn) _ hmem rfl

theorem not_visited_now (hord : P.Ordered) {todo done : List Nat} {m : RelAlgNode D}
    (hP : P.map RelAlgNode.id = todo ++ m.id :: done) (hm : m ∈ P) {i : Nat} (hi : i ∈ m.inputs) :
    i ∉ m.id :: done := by
  have hnodup : (P.map RelAlgNode.id).Nodup :=
    pairwise_map.mpr (hord.after.imp fun h => h.1)
  have hdone : m.id ∉ done := by
    rw [hP, nodup_append] at hnodup
    exact (nodup_cons.mp hnodup.2.1).1
  have hsplit : P.map RelAlgNode.id = (todo ++ [m.id]) ++ done := by
    rw [hP, append_assoc, singleton_append]
  rw [mem_cons, not_or]
  refine ⟨?_, not_visited hord hsplit hm hdone hi⟩
  rintro rfl
  exact hord.irrefl m hm hi

-- ======== one turn

namespace RunShape

variable {P : Plan D} {s : FoldState D} {merged : Nat → List Nat}
  {done : List Nat}

theorem exists_node (I : RunShape P s merged done) (hord : P.Ordered) {m : RelAlgNode D}
    (hm : m ∈ P) (hkept : m.id ∈ done → folds P m.id = false) :
    ∃ n ∈ s.nodes, Kin P merged n m := by
  have hmem : m.id ∈ s.nodes.map RelAlgNode.id := by
    rw [I.ids, mem_filter]
    refine ⟨mem_map_of_mem hm, ?_⟩
    by_cases hdone : m.id ∈ done
    · rw [hkept hdone, Bool.and_false, Bool.not_false]
    · rw [decide_eq_false hdone, Bool.false_and, Bool.not_false]
  obtain ⟨n, hn, hid⟩ := mem_map.mp hmem
  obtain ⟨m', hm', hkin⟩ := I.kin n hn
  obtain rfl := hord.eq_of_key hm' hm (hkin.id.trans hid)
  exact ⟨n, hn, hkin⟩

variable {n : RelAlgNode D}

/-- Nothing was folded into a node whose last filter has not been
visited. -/
theorem alone (I : RunShape P s merged done) (hn : n ∈ s.nodes) (htop : top merged n.id ∉ done) :
    merged n.id = [n.id] ∧ top merged n.id = n.id := by
  obtain ⟨above, hmerged, -, hdone⟩ := I.stacked n hn
  rcases top_cases hmerged with ⟨rfl, heq⟩ | hmem
  · exact ⟨hmerged, heq⟩
  · exact absurd (hdone _ hmem) htop

variable {todo : List Nat}

theorem input_alone (I : RunShape P s merged done) (hord : P.Ordered) (hn : n ∈ s.nodes)
    (hP : P.map RelAlgNode.id = todo ++ n.id :: done) {i : Nat} (hi : i ∈ n.inputs) :
    merged i = [i] ∧ top merged i = i ∧ i ∉ n.id :: done := by
  obtain ⟨m, hm, hkin⟩ := I.kin n hn
  obtain ⟨k, hk, rfl⟩ := Plan.exists_input I.wo hn hi
  have htop : top merged k.id ∈ m.inputs := by
    rw [← hkin.inputs]
    exact mem_map_of_mem hi
  rw [← hkin.id] at hP
  have hlater := not_visited_now hord hP hm htop
  obtain ⟨hmerged, heq⟩ := I.alone hk fun hdone => hlater (mem_cons_of_mem _ hdone)
  rw [heq, hkin.id] at hlater
  exact ⟨hmerged, heq, hlater⟩

variable {c : Rex D}

variable (I : RunShape P s merged done)
include I

variable (hord : P.Ordered)
include hord

/-- The filter as it was, over the same node. -/
theorem filter_kin {f g : Nat}
    (hf : ⟨f, .filter g c⟩ ∈ s.nodes) (hP : P.map RelAlgNode.id = todo ++ f :: done) :
    ∃ c₀, ⟨f, .filter g c₀⟩ ∈ P ∧ (operatorType c).isSome = (operatorType c₀).isSome
      ∧ (IsBoolean c₀ ↔ IsBoolean c) := by
  obtain ⟨⟨f', body⟩, hm, hkin⟩ := I.kin _ hf
  obtain rfl : f' = f := hkin.id
  obtain ⟨y, c₀, hbody⟩ := hkin.wasFilter g c rfl
  obtain rfl : body = .filter y c₀ := hbody
  obtain ⟨x, c', hbody, hsome, hbool⟩ := hkin.filter y c₀ rfl
  cases hbody
  have htop : top merged g = y := singleton_injective hkin.inputs
  obtain ⟨-, hself, -⟩ := I.input_alone hord hf hP (mem_singleton.mpr rfl)
  rw [hself] at htop
  subst htop
  exact ⟨c₀, hm, hsome, hbool⟩

/-- The node below a filter that is visited is a filter if it was one. -/
theorem input_filter {g : Nat} (hg : g ∉ done) :
    (∃ x c, ⟨g, .filter x c⟩ ∈ s.nodes) ↔ ∃ y c₀, ⟨g, .filter y c₀⟩ ∈ P := by
  constructor
  · rintro ⟨x, c, hmem⟩
    obtain ⟨⟨g', body⟩, hm, hkin⟩ := I.kin _ hmem
    obtain rfl : g' = g := hkin.id
    obtain ⟨y, c₀, hbody⟩ := hkin.wasFilter x c rfl
    obtain rfl : body = .filter y c₀ := hbody
    exact ⟨y, c₀, hm⟩
  · rintro ⟨y, c₀, hmem⟩
    obtain ⟨⟨g', body⟩, hn, hkin⟩ := I.exists_node hord hmem fun h => absurd h hg
    obtain rfl : g = g' := hkin.id
    obtain ⟨x, c, hbody, -⟩ := hkin.filter y c₀ rfl
    obtain rfl : body = .filter x c := hbody
    exact ⟨x, c, hn⟩

/-- The pass decides as the plan it was given says. -/
theorem folds_iff_now {f g : Nat}
    (hf : ⟨f, .filter g c⟩ ∈ s.nodes) (hP : P.map RelAlgNode.id = todo ++ f :: done) :
    folds P f = true ↔ (∃ x c', ⟨g, .filter x c'⟩ ∈ s.nodes) ∧ (s.web g).length = 1
      ∧ (operatorType c).isSome = true := by
  obtain ⟨c₀, hf₀, hsome, -⟩ := I.filter_kin hord hf hP
  obtain ⟨-, htop, hlater⟩ := I.input_alone hord hf hP (mem_singleton.mpr rfl)
  obtain ⟨k, hk, hkid⟩ := Plan.exists_input I.wo hf (mem_singleton.mpr rfl)
  have husers : s.web g = P.users g := by
    rw [I.web, ← hkid, I.users k hk, hkid, htop]
  rw [folds_iff hord hf₀, I.input_filter hord fun h => hlater (mem_cons_of_mem _ h), husers, hsome]

/-- A node that is not a filter over a filter is not folded. -/
theorem not_folds (hn : n ∈ s.nodes) (hbody : ∀ x c, n.body ≠ .filter x c) :
    folds P n.id = false := by
  rw [Bool.eq_false_iff]
  intro h
  obtain ⟨g, c, x, c', hf, -⟩ := filter_of_folds hord h
  obtain ⟨m, hm, hkin⟩ := I.kin n hn
  obtain rfl := hord.eq_of_key hm hf hkin.id
  obtain ⟨x', c'', hfilter, -⟩ := hkin.filter g c rfl
  exact hbody x' c'' hfilter

omit hord in
/-- A turn that does nothing. -/
theorem skip {f : Nat} (hf : folds P f = false) : RunShape P s merged (f :: done) := by
  refine { I with ids := ?_, stacked := ?_, maximal := ?_, boolean := ?_ }
  · rw [I.ids]
    refine filter_congr fun i _ => ?_
    by_cases hi : i = f
    · rw [hi, hf, Bool.and_false, Bool.and_false]
    · simp only [mem_cons, hi, false_or]
  · intro n hn
    obtain ⟨above, hmerged, hstacked, hdone⟩ := I.stacked n hn
    exact ⟨above, hmerged, hstacked, fun h hh => mem_cons_of_mem _ (hdone h hh)⟩
  · intro n hn h c hmem hfolds hdone
    rcases mem_cons.mp hdone with rfl | hdone
    · rw [hf] at hfolds
      cases hfolds
    · exact I.maximal n hn h c hmem hfolds hdone
  · intro f' hf' hfolds
    rcases mem_cons.mp hf' with rfl | hdone
    · rw [hf] at hfolds
      cases hfolds
    · exact I.boolean f' hdone hfolds

omit hord in
theorem folds_top (hn : n ∈ s.nodes) (hf : folds P n.id = true) :
    folds P (top merged n.id) = true := by
  obtain ⟨above, hmerged, hstacked, -⟩ := I.stacked n hn
  rcases top_cases hmerged with ⟨-, heq⟩ | hmem
  · rwa [heq]
  · exact hstacked.folds _ hmem

/-- A node that stands for a join is that join. -/
theorem eq_of_top_join (hn : n ∈ s.nodes)
    {ty : JoinType} {lhs rhs : Nat} (htop : ⟨top merged n.id, .join ty lhs rhs c⟩ ∈ P) :
    top merged n.id = n.id := by
  obtain ⟨above, hmerged, hstacked, -⟩ := I.stacked n hn
  rcases top_cases hmerged with ⟨-, heq⟩ | hmem
  · exact heq
  · obtain ⟨g, c', x, c'', hfilter, -⟩ := filter_of_folds hord (hstacked.folds _ hmem)
    cases hord.eq_of_key htop hfilter rfl

/-- A join was one, with the sides that its sides stand for. -/
theorem join_kin {j lhs rhs : Nat} {ty : JoinType}
    (hj : ⟨j, .join ty lhs rhs c⟩ ∈ s.nodes) : top merged j = j
      ∧ ∃ ty₀ c₀, ⟨j, .join ty₀ (top merged lhs) (top merged rhs) c₀⟩ ∈ P := by
  obtain ⟨⟨j', body⟩, hm, hkin⟩ := I.kin _ hj
  obtain rfl : j' = j := hkin.id
  have hisJoin := hkin.isJoin
  cases body with
  | join ty₀ lhs₀ rhs₀ c₀ =>
    have hinputs : [top merged lhs, top merged rhs] = [lhs₀, rhs₀] := hkin.inputs
    obtain ⟨rfl, rfl⟩ := hinputs
    refine ⟨?_, ty₀, c₀, hm⟩
    obtain ⟨above, hmerged, hstacked, -⟩ := I.stacked _ hj
    cases above with
    | nil =>
      unfold top
      rw [hmerged]
      rfl
    | cons h hs =>
      obtain ⟨hfolds, ⟨c', hh⟩, -⟩ := hstacked
      obtain ⟨⟨x, c'', hx⟩, -⟩ := (folds_iff hord hh).mp hfolds
      cases hord.eq_of_key hm hx rfl
  | _ => cases hisJoin

end RunShape

end Compass.Optimizer
