/-
The exclusion only ever takes away: edges, joins, complexities.

Whatever the positions it erases at, the working graph stays inside the
initial one (`Within`), and the entries of the two complexity lists are
entries of the list it started from.
-/
import Compass.JoinOrder.Exclude
import Compass.Lib.Results

namespace Compass.JoinOrder

open Compass.Sketch List Option Function

variable {dims : FagmsDims} {sketches : Nat → FagmsSketch} {bound : Nat}
variable {g : Graph} {cols : JoinCols} {x x' : Exclusion}

-- ======== the working graph

/-- The working maps are part of the initial ones. -/
structure Within (g : Graph) (cols : JoinCols) (x : Exclusion) : Prop where
  nodes : x.joinGraph.nodes ⊆ g.nodes
  adj : ∀ n, x.joinGraph.adj n ⊆ g.adj n
  joins : ∀ n, ∀ j ∈ x.joinConnections n, j ∈ cols n

theorem mem_of_eraseAt {β : Type} {v v' : List β} {i : Nat}
    (h : eraseAt v i = some v') : ∀ b ∈ v', b ∈ v := by
  unfold eraseAt at h
  split at h
  · cases h
    exact fun b hb => mem_of_mem_eraseIdx hb
  · cases h

section

variable (h : Within g cols x)
include h

theorem Within.update_joins {n : Nat}
    {joins : List JoinCol} (hj : ∀ j ∈ joins, j ∈ x.joinConnections n) :
    Within g cols { x with
      joinConnections := update x.joinConnections n joins } := by
  refine ⟨h.nodes, h.adj, fun m j hm => ?_⟩
  dsimp only at hm
  by_cases hmn : m = n
  · subst hmn
    rw [update_self] at hm
    exact h.joins m j (hj j hm)
  · rw [update_of_ne hmn] at hm
    exact h.joins m j hm

theorem Within.eraseEdge {n : Nat} (hn : n ∈ g.nodes) (m : Nat) :
    Within g cols { x with joinGraph := x.joinGraph.eraseEdge n m } := by
  refine ⟨?_, fun k => ?_, h.joins⟩
  · exact Finset.insert_subset hn h.nodes
  · simp only [Graph.eraseEdge]
    by_cases hk : k = n
    · subst hk
      rw [update_self]
      split
      · exact (Finset.erase_subset _ _).trans (h.adj k)
      · exact Finset.empty_subset _
    · rw [update_of_ne hk]
      exact h.adj k

theorem Within.dropNode (n : Nat) : Within g cols (x.dropNode n) := by
  have hjoins : Within g cols { x with
      joinConnections := update x.joinConnections n [] } :=
    h.update_joins (by simp)
  exact ⟨(Finset.erase_subset _ _).trans h.nodes, h.adj, hjoins.joins⟩

theorem Within.dropNode_if (keysNo n : Nat) :
    Within g cols (if x.allEdgesExcluded keysNo n then x.dropNode n
      else x) := by
  split
  · exact h.dropNode n
  · exact h

end

variable {node : Nat}

theorem excludeJoin_within (hnode : node ∈ g.nodes)
    (hother : ∀ n, ∀ j ∈ cols n, j.otherNode ∈ g.nodes)
    {acc acc' : Exclusion × List Nat} {join : JoinCol × Nat}
    (hjoin : join.1 ∈ cols node) (h : Within g cols acc.1)
    (hstep : excludeJoin dims sketches bound node acc join = some acc') :
    Within g cols acc'.1 := by
  obtain ⟨x, joinIndices⟩ := acc
  obtain ⟨j, idx⟩ := join
  simp only [excludeJoin] at hstep
  split at hstep
  · simp only [bind_eq_bind, bind_eq_some_iff] at hstep
    obtain ⟨otherIdx, -, otherJoins, herase, hstep⟩ := hstep
    cases hstep
    have hedges : Within g cols ((x.addEdge node
        j.otherNode).addEdge j.otherNode node) :=
      ⟨h.nodes, h.adj, h.joins⟩
    have hcols := hedges.update_joins (mem_of_eraseAt herase)
    have hgraph := (hcols.eraseEdge hnode j.otherNode).eraseEdge
      (hother node j hjoin) node
    exact hgraph.dropNode_if _ _
  · cases hstep
    exact h

theorem excludeNode_within (hnode : node ∈ g.nodes)
    (hother : ∀ n, ∀ j ∈ cols n, j.otherNode ∈ g.nodes) (h : Within g cols x)
    (hstep : excludeNode dims sketches bound x node = some x') :
    Within g cols x' := by
  unfold excludeNode at hstep
  split at hstep
  · cases hstep
    exact h
  · simp only [bind_eq_bind, bind_eq_some_iff] at hstep
    obtain ⟨acc, hloop, joins, herase, hstep⟩ := hstep
    cases hstep
    -- the joins the loop visits are those the node had before it
    have hjoins : ∀ p ∈ (x.joinConnections node).zipIdx, p.1 ∈ cols node :=
      fun p hp => h.joins node p.1 (fst_mem_of_mem_zipIdx hp)
    have hacc : Within g cols acc.1 :=
      OptionFold.foldlM_preserves (P := fun acc => Within g cols acc.1)
        (fun _ p hp _ hw h₁ =>
          excludeJoin_within hnode hother (hjoins p hp) hw h₁) h hloop
    have hsub : ∀ j ∈ joins, j ∈ acc.1.joinConnections node :=
      OptionFold.foldlM_preserves
        (P := fun l => ∀ j ∈ l, j ∈ acc.1.joinConnections node)
        (fun _ _ _ _ hl he j hj => hl j (mem_of_eraseAt he j hj))
        (fun _ hj => hj) herase
    exact (hacc.update_joins hsub).dropNode_if _ _

-- ======== the complexities

/-- Entries move from one list to the other or are dropped. -/
theorem moveExcluded_spec {acc acc' : List (Nat × Nat) × List (Nat × Nat)}
    (h : moveExcluded acc node = some acc') : (∀ c ∈ acc'.1, c ∈ acc.1)
      ∧ (acc'.2 = acc.2 ∨ ∃ c ∈ acc.1, c.1 = node ∧ acc'.2 = acc.2 ++ [c]) := by
  unfold moveExcluded at h
  simp only at h
  split at h
  · next i hi =>
    simp only [bind_eq_bind, bind_eq_some_iff] at h
    obtain ⟨rest, herase, h⟩ := h
    cases h
    obtain ⟨hlt, hnode, -⟩ := findIdx?_eq_some_iff_getElem.mp hi
    refine ⟨mem_of_eraseAt herase, .inr ⟨acc.1[i], getElem_mem _, ?_, ?_⟩⟩
    · simpa using hnode
    · simp [getElem?_eq_getElem hlt]
  · simp only [bind_eq_bind, bind_eq_some_iff] at h
    obtain ⟨rest, herase, h⟩ := h
    cases h
    exact ⟨mem_of_eraseAt herase, .inl rfl⟩

theorem moveAllExcluded_spec {complexities : List (Nat × Nat)} (vs : List Nat) :
    ∀ {acc acc' : List (Nat × Nat) × List (Nat × Nat)},
      (∀ c ∈ acc.1, c ∈ complexities) → vs.foldlM moveExcluded acc = some acc' →
      (∀ c ∈ acc'.1, c ∈ complexities) ∧ ∃ moved : List (Nat × Nat),
        acc'.2 = acc.2 ++ moved ∧ (moved.map Prod.fst).Sublist vs
          ∧ ∀ c ∈ moved, c ∈ complexities := by
  induction vs with
  | nil =>
    intro acc acc' hacc h
    cases h
    exact ⟨hacc, [], by simp⟩
  | cons v vs ih =>
    intro acc acc' hacc h
    obtain ⟨acc₁, h₁, h⟩ := OptionFold.foldlM_cons_eq_some.mp h
    obtain ⟨hsub, hmove⟩ := moveExcluded_spec h₁
    obtain ⟨hsub', moved, hmoved, hlist, hmem⟩ :=
      ih (fun c hc => hacc c (hsub c hc)) h
    refine ⟨hsub', ?_⟩
    rcases hmove with heq | ⟨c, hc, hcv, heq⟩
    · exact ⟨moved, by rw [hmoved, heq], hlist.cons v, hmem⟩
    · refine ⟨c :: moved, by rw [hmoved, heq]; simp, ?_, ?_⟩
      · rw [map_cons, hcv]
        exact hlist.cons_cons v
      · intro d hd
        rcases mem_cons.1 hd with rfl | hd
        · exact hacc d hc
        · exact hmem d hd

/-- What the exclusion leaves, when it has a result. -/
theorem excludeSparseSketches_spec
    {sort : StdSort (Nat × Nat) byComplexity} {complexities : List (Nat × Nat)} {r : Excluded}
    (hnodes : ∀ c ∈ complexities, c.1 ∈ g.nodes) (hother : ∀ n, ∀ j ∈ cols n, j.otherNode ∈ g.nodes)
    (h : excludeSparseSketches dims sketches bound sort complexities g cols
      = some r) :
    Within g cols r.exclusion
      ∧ (∀ c ∈ r.sketchComplexities, c ∈ complexities)
      ∧ (r.excludedNodes.map Prod.fst).Nodup
      ∧ ∀ c ∈ r.excludedNodes, c ∈ complexities := by
  unfold excludeSparseSketches at h
  simp only [bind_eq_bind, bind_eq_some_iff] at h
  obtain ⟨x, hx, acc, hacc, h⟩ := h
  cases h
  have hwithin : Within g cols x := by
    refine OptionFold.foldlM_preserves (fun _ n hn _ hw h₁ => ?_)
      ⟨Finset.Subset.refl _, fun _ => Finset.Subset.refl _, fun _ _ hj => hj⟩ hx
    obtain ⟨c, hc, rfl⟩ := mem_map.mp hn
    exact excludeNode_within (hnodes c hc) hother hw h₁
  obtain ⟨hsub, moved, hmoved, hlist, hmem⟩ :=
    moveAllExcluded_spec _ (fun _ hc => hc) hacc
  rw [nil_append] at hmoved
  refine ⟨hwithin, hsub, ?_, ?_⟩
  · have hperm := (sort.perm acc.2).map Prod.fst
    rw [hperm.nodup_iff, hmoved]
    exact hlist.nodup (StdSort.nodup_ascending _)
  · intro c hc
    refine hmem c ?_
    rw [← hmoved]
    exact (sort.perm acc.2).mem_iff.mp hc

end Compass.JoinOrder
