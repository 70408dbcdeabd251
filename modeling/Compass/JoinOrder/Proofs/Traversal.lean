/-
What the depth-first enumeration of join orders leaves behind.

One induction over the depth of the recursion carries everything
(`traversals_outcome`). A call restores the stack and the visited set,
only ever lowers the best cost, records nothing but full connected
orders, and, unless the traverse bound cut it short, covers every full
order that extends its stack: the order is no cheaper than what is
recorded when the call returns. An order is lost only by pruning, and
then its prefix already costs more than the best one.

How the running sum relates to the order is kept abstract in the
induction (`Pricing`), since the facts about the recorded order are
needed for estimators whose values follow no law at all; the optimality
theorem instantiates it with the sums of a set-dependent estimator.

The enumeration with a bound of one traversal is a greedy descent.

With the bound at one nothing is pruned, and the first complete traversal
ends the search: on a graph whose nodes are all reachable from the base
no partial order is a dead end, so the enumeration goes down along the
cheapest candidate of every level and never comes back for another
(`greedy_run`). What it records is that order, if its cost is below the
initial bound.
-/
import Compass.JoinOrder.Traversal

namespace Compass.JoinOrder

open Prod
open GraphOrder List
open Enumeration

variable {σ α : Type} {g : Graph} {base : Nat}

-- ======== full orders

/-- A connected order as long as the graph is large: what a complete
traversal is, whether or not the graph is well formed. -/
structure FullOrder (g : Graph) (base : Nat) (o : List Nat) : Prop where
  connected : ConnectedOrder g.adj base o
  length_eq : o.length = g.size

theorem fullOrder_iff (hbase : base ∈ g.nodes)
    (hclosed : ∀ u v, v ∈ g.adj u → v ∈ g.nodes) (o : List Nat) :
    FullOrder g base o ↔ CompleteOrder g.adj g.nodes base o := by
  constructor
  · intro h
    have hmem : ∀ v ∈ o, v ∈ g.nodes := by
      have hconn := h.connected
      clear h
      induction hconn with
      | base =>
        intro v hv
        rw [mem_singleton] at hv
        exact hv ▸ hbase
      | append hp hu hv hnew ih =>
        intro w hw
        rcases mem_append.1 hw with hw | hw
        · exact ih w hw
        · rw [mem_singleton] at hw
          exact hw ▸ hclosed _ _ hv
    refine ⟨h.connected, Finset.eq_of_subset_of_card_le ?_ ?_⟩
    · intro v hv
      exact hmem v (mem_toFinset.mp hv)
    · rw [toFinset_card_of_nodup h.connected.nodup, h.length_eq]
      exact le_refl _
  · intro h
    exact ⟨h.connected, h.length_eq⟩

-- ======== stack and candidates

/-- A call with stack `p` may join `node`: the stack is an order that
`node` extends, and the candidates handed down are the unvisited
neighbours of the stack. -/
structure Ready (g : Graph) (base : Nat) (p : List Nat) (node : Nat)
    (allAdjacent : List (Nat × α)) (e : Enumeration σ α) : Prop where
  stack : e.traversalNodes = p
  visited : e.visitedNodes = p.toFinset
  order : ConnectedOrder g.adj base (p ++ [node])
  room : p.length < g.size
  sound : ∀ v ∈ allAdjacent.map Prod.fst, ∃ u ∈ p, v ∈ g.adj u
  complete : ∀ u ∈ p, ∀ v ∈ g.adj u, v ∉ p → v ∈ allAdjacent.map Prod.fst

variable {p : List Nat} {node : Nat} {allAdjacent : List (Nat × α)} {e e' : Enumeration σ α}

theorem Ready.new (h : Ready g base p node allAdjacent e) : node ∉ p := by
  intro hmem
  have hnd := h.order.nodup
  rw [nodup_append] at hnd
  exact hnd.2.2 node hmem node (mem_singleton_self node) rfl

theorem enter_leave (hvis : e.visitedNodes = p.toFinset) (hnew : node ∉ p)
    (hstack : e'.traversalNodes = (e.enter node).traversalNodes)
    (hvisited : e'.visitedNodes = (e.enter node).visitedNodes) :
    (e'.leave node).traversalNodes = e.traversalNodes
      ∧ (e'.leave node).visitedNodes = e.visitedNodes := by
  constructor
  · simp [leave, hstack, enter]
  · have hmem : node ∉ e.visitedNodes := by
      rw [hvis, mem_toFinset]
      exact hnew
    simp [leave, hvisited, enter, Finset.erase_insert hmem]

/-- Estimating the candidates changes the estimator only, and keeps the
unvisited ones in their order. -/
theorem estimateCandidates_spec (est : List Nat → σ → α × σ) (e : Enumeration σ α)
    (h1 : 1 ≤ e.traversalNodes.length) (h2 : e.traversalNodes.length < g.size) (vs : List Nat)
    (adjNodes : List (Nat × α)) :
    let c := vs.foldl (estimateCandidate g est) (e, adjNodes)
    (∃ s, c.1 = { e with estimator := s })
      ∧ c.2.map fst = adjNodes.map fst
        ++ vs.filter (· ∉ e.visitedNodes) := by
  induction vs generalizing e adjNodes with
  | nil => exact ⟨⟨e.estimator, rfl⟩, by simp⟩
  | cons v vs ih =>
    rw [foldl_cons]
    by_cases hv : v ∈ e.visitedNodes
    · have hstep : estimateCandidate g est (e, adjNodes) v
          = (e, adjNodes) := if_pos hv
      rw [hstep, filter_cons_of_neg (by simpa using hv)]
      exact ih e h1 h2 adjNodes
    · have hlen : 1 < (e.traversalNodes ++ [v]).length
          ∧ (e.traversalNodes ++ [v]).length ≤ g.size := by
        rw [length_append, length_singleton]
        omega
      obtain ⟨s, x, hstep⟩ : ∃ s x, estimateCandidate g est (e, adjNodes) v
          = ({ e with estimator := s }, adjNodes ++ [(v, x)]) := by
        refine ⟨(est (e.traversalNodes ++ [v]) e.estimator).2,
          (est (e.traversalNodes ++ [v]) e.estimator).1, ?_⟩
        unfold estimateCandidate
        simp only [hv, if_false, hlen, and_self, if_true]
      obtain ⟨⟨s', hs'⟩, hfst⟩ := ih { e with estimator := s } h1 h2
        (adjNodes ++ [(v, x)])
      rw [hstep]
      refine ⟨⟨s', hs'⟩, ?_⟩
      rw [hfst, filter_cons_of_pos (by simpa using hv)]
      simp

/-- The candidates after joining `node` are the unvisited neighbours of
the stack. -/
theorem mem_newAdjacentNodes (h : Ready g base p node allAdjacent e) {v : Nat}
    (hv : v ∉ p ++ [node]) :
    v ∈ newAdjacentNodes g node (p ++ [node]).toFinset allAdjacent
      ↔ ∃ u ∈ p ++ [node], v ∈ g.adj u := by
  unfold newAdjacentNodes
  rw [StdSort.mem_ascending, Finset.mem_union, Finset.mem_sdiff, mem_toFinset, mem_toFinset]
  constructor
  · intro h
    rcases h with hadj | ⟨hmem, -⟩
    · exact ⟨node, by simp, hadj⟩
    · obtain ⟨u, hu, hadj⟩ := h.sound v hmem
      exact ⟨u, mem_append_left _ hu, hadj⟩
  · intro h
    obtain ⟨u, hu, hadj⟩ := h
    rcases mem_append.1 hu with hu | hu
    · refine .inr ⟨h.complete u hu v hadj ?_, hv⟩
      exact fun hvp => hv (mem_append_left _ hvp)
    · rw [mem_singleton] at hu
      exact .inl (hu ▸ hadj)

variable {e₀ : Enumeration σ α}

/-- The estimated candidates of a stack are the unvisited neighbours of
its nodes. -/
theorem candidates_spec (est : List Nat → σ → α × σ) (hready : Ready g base p node allAdjacent e₀)
    (hstack : e.traversalNodes = p ++ [node]) (hvis : e.visitedNodes = (p ++ [node]).toFinset)
    (hlt : (p ++ [node]).length < g.size) :
    let c := (newAdjacentNodes g node e.visitedNodes allAdjacent).foldl
      (estimateCandidate g est) (e, [])
    (∃ s, c.1 = { e with estimator := s })
      ∧ ∀ v, v ∈ c.2.map fst
        ↔ v ∉ p ++ [node] ∧ ∃ u ∈ p ++ [node], v ∈ g.adj u := by
  have hlen : 1 ≤ e.traversalNodes.length := by
    rw [hstack]
    simp
  have hroom : e.traversalNodes.length < g.size := by
    rw [hstack]
    exact hlt
  obtain ⟨hc, hfst⟩ := estimateCandidates_spec est e hlen hroom
    (newAdjacentNodes g node e.visitedNodes allAdjacent) []
  refine ⟨hc, fun v => ?_⟩
  rw [hfst, map_nil, nil_append, mem_filter, decide_eq_true_eq, hvis, mem_toFinset]
  constructor
  · intro h
    obtain ⟨hmem, hv⟩ := h
    exact ⟨hv, (mem_newAdjacentNodes hready hv).mp hmem⟩
  · intro h
    obtain ⟨hv, hex⟩ := h
    exact ⟨(mem_newAdjacentNodes hready hv).mpr hex, hv⟩

/-- Each candidate can be joined next. -/
theorem candidate_ready {adjNodes : List (Nat × α)} (hready : Ready g base p node allAdjacent e₀)
    (hlt : (p ++ [node]).length < g.size)
    (hkeys : ∀ v, v ∈ adjNodes.map fst ↔ v ∉ p ++ [node] ∧ ∃ u ∈ p ++ [node], v ∈ g.adj u)
    {v : Nat} (hv : v ∈ adjNodes.map fst) (hstack : e.traversalNodes = p ++ [node])
    (hvis : e.visitedNodes = (p ++ [node]).toFinset) : Ready g base (p ++ [node]) v adjNodes e := by
  obtain ⟨hnew, u, hu, hadj⟩ := (hkeys v).mp hv
  refine ⟨hstack, hvis, hready.order.append hu hadj hnew, hlt, ?_, ?_⟩
  · exact fun w hw => ((hkeys w).mp hw).2
  · exact fun u hu w hw hwp => (hkeys w).mpr ⟨hwp, u, hu, hw⟩

variable [LinearOrder α] [AddZeroClass α]

-- ======== pricing

/-- What is known of the running sums: `acc p c` says that `c` is the sum
along the order `p`, and `low o c` that the full order `o` is no cheaper
than `c`. -/
structure Pricing (est : List Nat → σ → α × σ) where
  acc : List Nat → α → Prop
  low : List Nat → α → Prop
  acc_nil : acc [] 0
  acc_single : ∀ v c, acc [] c → acc [v] c
  acc_append : ∀ p v c s, p ≠ [] → acc p c →
    acc (p ++ [v]) (c + (est (p ++ [v]) s).1)
  low_of_acc : ∀ p c o, acc p c → p <+: o → p.length < o.length → low o c
  low_anti : ∀ o c c', c' ≤ c → low o c → low o c'

/-- The best order found so far, or none yet. -/
def Recorded {est : List Nat → σ → α × σ} (P : Pricing est) (g : Graph)
    (base : Nat) (dblMax : α) (e : Enumeration σ α) : Prop :=
  (e.optimalTraversal = [] ∧ e.minJoinSizeEstimation = dblMax)
    ∨ (FullOrder g base e.optimalTraversal
      ∧ P.acc e.optimalTraversal.dropLast e.minJoinSizeEstimation
      ∧ e.minJoinSizeEstimation < dblMax)

/-- What any part of the enumeration does to the shared state. -/
structure Advance {est : List Nat → σ → α × σ} (P : Pricing est)
    (g : Graph) (base : Nat) (dblMax : α) (e e' : Enumeration σ α) :
    Prop where
  stack : e'.traversalNodes = e.traversalNodes
  visited : e'.visitedNodes = e.visitedNodes
  bound : e.traverseBound ≤ e'.traverseBound
  best : e'.minJoinSizeEstimation ≤ e.minJoinSizeEstimation
  recorded : Recorded P g base dblMax e → Recorded P g base dblMax e'

/-- Every full order that extends `p` is no cheaper than the best one. -/
def Covered {est : List Nat → σ → α × σ} (P : Pricing est) (g : Graph)
    (base : Nat) (p : List Nat) (e : Enumeration σ α) : Prop :=
  ∀ o, FullOrder g base o → p <+: o → P.low o e.minJoinSizeEstimation

variable {est : List Nat → σ → α × σ} {P : Pricing est} {dblMax : α}

theorem Advance.refl (e : Enumeration σ α) : Advance P g base dblMax e e :=
  ⟨rfl, rfl, le_refl _, le_refl _, id⟩

theorem Advance.trans {e'' : Enumeration σ α} (h : Advance P g base dblMax e e')
    (h' : Advance P g base dblMax e' e'') :
    Advance P g base dblMax e e'' :=
  ⟨h'.stack.trans h.stack, h'.visited.trans h.visited,
    h.bound.trans h'.bound, h'.best.trans h.best, h'.recorded ∘ h.recorded⟩

theorem Covered.mono (h : Covered P g base p e)
    (hbest : e'.minJoinSizeEstimation ≤ e.minJoinSizeEstimation) :
    Covered P g base p e' :=
  fun o ho hp => P.low_anti o _ _ hbest (h o ho hp)

-- ======== one call

variable {temp : α}

/-- Recording a complete traversal keeps what was recorded. -/
theorem complete_spec (hfull : FullOrder g base e.traversalNodes)
    (hacc : P.acc e.traversalNodes.dropLast temp) : Advance P g base dblMax e (e.complete temp)
      ∧ (e.complete temp).minJoinSizeEstimation ≤ temp := by
  unfold complete
  by_cases hlt : temp < e.minJoinSizeEstimation
  · simp only [hlt, if_true]
    refine ⟨⟨rfl, rfl, Nat.le_succ _, hlt.le, ?_⟩, le_refl _⟩
    intro h
    rcases h with ⟨-, hmin⟩ | ⟨-, -, hmax⟩
    · exact .inr ⟨hfull, hacc, hmin ▸ hlt⟩
    · exact .inr ⟨hfull, hacc, hlt.trans hmax⟩
  · simp only [hlt, if_false]
    exact ⟨⟨rfl, rfl, Nat.le_succ _, le_refl _, id⟩, not_lt.mp hlt⟩

variable {sort : StdSort (Nat × α) bySize} {bound : Nat}

/-- The loop over the sorted candidates, from what each recursive call
does. -/
theorem loop_outcome {fuel : Nat} {adjNodes : List (Nat × α)} (vs : List (Nat × α))
    (hnew : ∀ v ∈ vs, v.1 ∉ p) (hcall : ∀ v ∈ vs, ∀ e : Enumeration σ α, e.traversalNodes = p →
      e.visitedNodes = p.toFinset →
      let e' := getDistinctGraphTraversals g est sort bound fuel v.1
        adjNodes temp e
      Advance P g base dblMax e e'
        ∧ (e'.traverseBound < bound → Covered P g base (p ++ [v.1]) e')) (e : Enumeration σ α)
    (hstack : e.traversalNodes = p) (hvisited : e.visitedNodes = p.toFinset) :
    let e' := vs.foldl (fun e v => if v.1 ∈ e.visitedNodes then e
      else getDistinctGraphTraversals g est sort bound fuel v.1 adjNodes
        temp e) e
    Advance P g base dblMax e e' ∧ (e'.traverseBound < bound →
      ∀ v ∈ vs, Covered P g base (p ++ [v.1]) e') := by
  induction vs generalizing e with
  | nil => exact ⟨Advance.refl e, fun _ v hv => nomatch hv⟩
  | cons v vs ih =>
    rw [foldl_cons, if_neg (by
      rw [hvisited, mem_toFinset]
      exact hnew v (by simp))]
    obtain ⟨hadv, hcov⟩ := hcall v (by simp) e hstack hvisited
    obtain ⟨hadv', hcov'⟩ := ih (fun w hw => hnew w (by simp [hw]))
      (fun w hw => hcall w (by simp [hw])) _
      (hadv.stack.trans hstack) (hadv.visited.trans hvisited)
    refine ⟨hadv.trans hadv', fun hlt w hw => ?_⟩
    rcases mem_cons.1 hw with rfl | hw
    · exact (hcov (hadv'.bound.trans_lt hlt)).mono hadv'.best
    · exact hcov' hlt w hw

theorem recorded_congr (hopt : e'.optimalTraversal = e.optimalTraversal)
    (hmin : e'.minJoinSizeEstimation = e.minJoinSizeEstimation) (h : Recorded P g base dblMax e) :
    Recorded P g base dblMax e' := by
  unfold Recorded at h ⊢
  rwa [hopt, hmin]

omit [LinearOrder α] in
/-- Estimating the stack changes the estimator only. -/
theorem estimateStack_estimator (g : Graph) (est : List Nat → σ → α × σ) (e : Enumeration σ α) :
    ∃ s, (estimateStack g est e).2 = { e with estimator := s } := by
  unfold estimateStack
  split
  · exact ⟨_, rfl⟩
  · exact ⟨e.estimator, rfl⟩

/-- The estimate of the stack extends the running sum. -/
theorem estimateStack_spec (e : Enumeration σ α) (hstack : e.traversalNodes = p ++ [node])
    (hlt : (p ++ [node]).length < g.size) (hacc : P.acc p temp) :
    P.acc (p ++ [node]) (temp + (estimateStack g est e).1) := by
  unfold estimateStack
  by_cases hp : p = []
  · subst hp
    have hnot : ¬ (1 < e.traversalNodes.length
        ∧ e.traversalNodes.length < g.size) := by
      rw [hstack]
      simp
    rw [if_neg hnot, add_zero]
    exact P.acc_single node temp hacc
  · have hcond : 1 < e.traversalNodes.length
        ∧ e.traversalNodes.length < g.size := by
      rw [hstack]
      refine ⟨?_, hlt⟩
      have := length_pos_iff.mpr hp
      rw [length_append, length_singleton]
      omega
    rw [if_pos hcond, hstack]
    exact P.acc_append p node temp _ hp hacc

/-- Work done between entering and leaving a node is work done on the
state before. -/
theorem Advance.enter_leave (hvis : e.visitedNodes = p.toFinset) (hnew : node ∉ p)
    (h : Advance P g base dblMax (e.enter node) e') :
    Advance P g base dblMax e (e'.leave node) := by
  obtain ⟨hstack, hvisited⟩ :=
    JoinOrder.enter_leave hvis hnew h.stack h.visited
  refine ⟨hstack, hvisited, h.bound, h.best, fun hrec => ?_⟩
  have henter : Recorded P g base dblMax (e.enter node) :=
    recorded_congr rfl rfl hrec
  exact recorded_congr rfl rfl (h.recorded henter)

/-- A new state of the estimator is no advance. -/
theorem Advance.estimator (e : Enumeration σ α) (s : σ) :
    Advance P g base dblMax e { e with estimator := s } :=
  ⟨rfl, rfl, le_refl _, le_refl _, recorded_congr rfl rfl⟩

/-- The branching part of a call, from what the calls one level down do:
the candidates are exactly the ways to go on. -/
theorem branch_outcome {fuel : Nat} (hready : Ready g base p node allAdjacent e₀)
    (hstack : e.traversalNodes = p ++ [node]) (hvis : e.visitedNodes = (p ++ [node]).toFinset)
    (hlt : (p ++ [node]).length < g.size)
    (hcall : ∀ (v : Nat) (adjNodes : List (Nat × α)) (e : Enumeration σ α),
      Ready g base (p ++ [node]) v adjNodes e →
      let e' := getDistinctGraphTraversals g est sort bound fuel v
        adjNodes temp e
      Advance P g base dblMax e e' ∧ (e'.traverseBound < bound →
        Covered P g base (p ++ [node] ++ [v]) e')) :
    let c := (newAdjacentNodes g node e.visitedNodes allAdjacent).foldl
      (estimateCandidate g est) (e, [])
    let e' := (sort.run c.2).foldl (fun e v =>
      if v.1 ∈ e.visitedNodes then e
      else getDistinctGraphTraversals g est sort bound fuel v.1 c.2 temp e) c.1
    Advance P g base dblMax e e'
      ∧ (e'.traverseBound < bound → Covered P g base (p ++ [node]) e') := by
  obtain ⟨⟨s, hc⟩, hkeys⟩ := candidates_spec est hready hstack hvis hlt
  generalize (newAdjacentNodes g node e.visitedNodes
    allAdjacent).foldl (estimateCandidate g est) (e, []) = c at hc hkeys ⊢
  obtain ⟨e₁, adjNodes⟩ := c
  subst hc
  have hsorted : ∀ v ∈ sort.run adjNodes, v.1 ∈ adjNodes.map fst :=
    fun v hv => mem_map_of_mem ((sort.perm adjNodes).mem_iff.mp hv)
  have hloop := loop_outcome (P := P) (sort.run adjNodes)
    (fun v hv => ((hkeys v.1).mp (hsorted v hv)).1)
    (fun v hv e' hstack' hvis' => hcall v.1 adjNodes e'
      (candidate_ready hready hlt hkeys (hsorted v hv) hstack' hvis'))
    { e with estimator := s } hstack hvis
  refine ⟨(Advance.estimator e s).trans hloop.1, fun hb o ho hpre => ?_⟩
  -- the order goes on with one of the candidates
  obtain ⟨rest, rfl⟩ := hpre
  cases rest with
  | nil =>
    have := ho.length_eq
    rw [append_nil] at this
    omega
  | cons v rest =>
    obtain ⟨hv, u, hu, hadj⟩ := ho.connected.next (by simp)
    obtain ⟨w, hw, rfl⟩ := mem_map.mp ((hkeys v).mpr ⟨hv, u, hu, hadj⟩)
    refine hloop.2 hb w ((sort.perm adjNodes).mem_iff.mpr hw) _ ho ?_
    exact ⟨rest, by simp⟩

/-- What a call does, for every stack it can be entered with. -/
theorem traversals_outcome (fuel : Nat) :
    ∀ (p : List Nat) (node : Nat) (allAdjacent : List (Nat × α)) (temp : α)
      (e : Enumeration σ α), Ready g base p node allAdjacent e →
      P.acc p temp → g.size ≤ p.length + fuel →
      let e' := getDistinctGraphTraversals g est sort bound fuel node
        allAdjacent temp e
      Advance P g base dblMax e e'
        ∧ (e'.traverseBound < bound → Covered P g base (p ++ [node]) e') := by
  induction fuel with
  | zero =>
    intro p node allAdjacent temp e hready _ hfuel
    have := hready.room
    omega
  | succ fuel ih =>
    intro p node allAdjacent temp e hready hacc hfuel
    have hnew := hready.new
    have hvis : (e.enter node).visitedNodes = (p ++ [node]).toFinset := by
      simp [enter, hready.visited, toFinset_append]
    have hstack : (e.enter node).traversalNodes = p ++ [node] := by
      simp [enter, hready.stack]
    unfold getDistinctGraphTraversals
    by_cases hbound : bound ≤ e.traverseBound
    · simp only [hbound, if_true]
      exact ⟨Advance.refl e, fun hlt => absurd hbound (not_le.mpr hlt)⟩
    simp only [hbound, if_false]
    by_cases hlen : (e.enter node).traversalNodes.length = g.size
    · -- a complete traversal: itself the only order it has to cover
      simp only [hlen, if_true]
      generalize (est (e.enter node).traversalNodes
        (e.enter node).estimator).2 = s
      rw [hstack] at hlen
      have hfull : FullOrder g base (e.enter node).traversalNodes := by
        rw [hstack]
        exact ⟨hready.order, hlen⟩
      have hlast : P.acc (e.enter node).traversalNodes.dropLast temp := by
        rw [hstack, dropLast_concat]
        exact hacc
      have hdone : Advance P g base dblMax _ _ ∧ _ :=
        complete_spec (e := { e.enter node with estimator := s }) hfull hlast
      refine ⟨((Advance.estimator _ s).trans hdone.1).enter_leave
        hready.visited hnew, fun _ o ho hpre => ?_⟩
      refine P.low_anti o _ _ hdone.2 (P.low_of_acc p temp o hacc
        ((prefix_append p [node]).trans hpre) ?_)
      rw [ho.length_eq]
      exact hready.room
    · simp only [hlen, if_false]
      rw [hstack, length_append, length_singleton] at hlen
      have hlt : (p ++ [node]).length < g.size := by
        have := hready.room
        rw [length_append, length_singleton]
        omega
      have hacc' := estimateStack_spec (e.enter node) hstack hlt hacc
      obtain ⟨s, hs⟩ := estimateStack_estimator g est (e.enter node)
      rw [hs]
      generalize (estimateStack g est (e.enter node)).1 = x at hacc' ⊢
      split
      · -- pruned: the prefix alone costs more than the best order
        next hprune =>
        refine ⟨(Advance.estimator _ s).enter_leave hready.visited hnew, fun _ o ho hpre => ?_⟩
        refine P.low_anti o _ _ hprune.2.1.le
          (P.low_of_acc _ _ o hacc' hpre ?_)
        rw [ho.length_eq]
        exact hlt
      · have hbranch := branch_outcome
          (e := { e.enter node with estimator := s }) hready hstack hvis hlt
          (fun v adjNodes e' hready' => ih (p ++ [node]) v adjNodes
            (temp + x) e' hready' hacc' (by
              rw [length_append, length_singleton]
              omega))
        exact ⟨((Advance.estimator _ s).trans hbranch.1).enter_leave
          hready.visited hnew, hbranch.2⟩

/-- The whole enumeration records a full order or nothing, and unless it
reached its bound it covers all of them. -/
theorem enumerate_outcome (sort : StdSort (Nat × α) bySize) (bound base : Nat)
    (dblMax : α) (P : Pricing est) (hsize : 0 < g.size) (s : σ) :
    let e := enumerate g est sort bound dblMax base s
    Recorded P g base dblMax e
      ∧ (e.traverseBound < bound → Covered P g base [base] e) := by
  have hready : Ready g base [] base []
      (start dblMax s : Enumeration σ α) :=
    ⟨rfl, rfl, .base, hsize, by simp, by simp⟩
  obtain ⟨hadv, hcov⟩ : Advance P g base dblMax _
      (enumerate g est sort bound dblMax base s) ∧ _ :=
    traversals_outcome g.size [] base [] 0 (start dblMax s)
      hready P.acc_nil (by simp)
  exact ⟨hadv.recorded (.inl ⟨rfl, rfl⟩), hcov⟩

-- ======== optimality

/-- The running sums of an estimator that depends on the set of joined
nodes only. -/
def setPricing {size : Finset Nat → α}
    (hest : ∀ l s, (est l s).1 = size l.toFinset) (hnn : ∀ t, 0 ≤ size t)
    (hadd : ∀ a b : α, 0 ≤ b → a ≤ a + b) : Pricing est where
  acc p c := c = prefixCost size p p.length
  low o c := c ≤ cost size o
  acc_nil := rfl
  acc_single v c hc := hc
  acc_append p v c s hp hc := by
    have hpos := List.length_pos_iff.mpr hp
    rw [List.length_append, List.length_singleton, prefixCost_succ _ hpos, hest, hc]
    congr 1
    · exact prefixCost_congr (by simp)
    · rw [List.take_of_length_le (by simp)]
  low_of_acc p c o hc hpre hlt := by
    have hsame : prefixCost size p p.length = prefixCost size o p.length :=
      prefixCost_congr (by
        rw [List.take_length]
        exact List.prefix_iff_eq_take.mp hpre)
    rw [hc, hsame]
    unfold cost
    rcases Nat.eq_zero_or_pos p.length with h0 | hpos
    · -- the empty sum and that of a single node are both zero
      rw [h0, show prefixCost size o 0 = prefixCost size o 1 from rfl]
      rcases Nat.eq_zero_or_pos (o.length - 1) with h1 | h1
      · rw [h1]
        exact le_refl _
      · exact prefixCost_mono hnn hadd o (le_refl _) h1
    · exact prefixCost_mono hnn hadd o hpos (by omega)
  low_anti o c c' hle hlow := hle.trans hlow

/-- The enumeration is an exact optimiser.

For every graph, base node and estimator that is non-negative and depends
on the set of joined nodes only: if the enumeration ends before its bound
on complete traversals and some connected order costs less than the
initial bound, the recorded traversal is a connected order of all nodes
from the base and none is cheaper. -/
theorem enumeration_optimal {size : Finset Nat → α}
    (hest : ∀ l s, (est l s).1 = size l.toFinset) (hnn : ∀ t, 0 ≤ size t)
    (hadd : ∀ a b : α, 0 ≤ b → a ≤ a + b) (hbase : base ∈ g.nodes)
    (hclosed : ∀ u v, v ∈ g.adj u → v ∈ g.nodes) (s : σ)
    (hstop : (enumerate g est sort bound dblMax base s).traverseBound < bound)
    (hfin : ∃ o, CompleteOrder g.adj g.nodes base o ∧ cost size o < dblMax) :
    let best := (enumerate g est sort bound dblMax base s).optimalTraversal
    CompleteOrder g.adj g.nodes base best
      ∧ ∀ o, CompleteOrder g.adj g.nodes base o →
        cost size best ≤ cost size o := by
  have hsize : 0 < g.size := Finset.card_pos.mpr ⟨base, hbase⟩
  obtain ⟨hrec, hcov⟩ := enumerate_outcome sort bound base dblMax
    (setPricing hest hnn hadd) hsize s
  generalize enumerate g est sort bound dblMax base s = e at *
  have hlow : ∀ o, CompleteOrder g.adj g.nodes base o →
      e.minJoinSizeEstimation ≤ cost size o := by
    intro o ho
    have hfull := (fullOrder_iff hbase hclosed o).mpr ho
    exact hcov hstop o hfull hfull.connected.base_prefix
  rcases hrec with ⟨-, hmin⟩ | ⟨hfull, hacc, -⟩
  · obtain ⟨o, ho, hlt⟩ := hfin
    exact absurd (hmin ▸ hlow o ho) (not_le.mpr hlt)
  · have hcost : e.minJoinSizeEstimation = cost size e.optimalTraversal := by
      refine hacc.trans ?_
      rw [length_dropLast]
      exact prefixCost_congr (by simp [dropLast_eq_take])
    refine ⟨(fullOrder_iff hbase hclosed _).mp hfull, fun o ho => ?_⟩
    rw [← hcost]
    exact hlow o ho

-- ======== a path of three

instance : DecidableRel (bySize : Nat × ℚ → Nat × ℚ → Prop) :=
  fun x y => inferInstanceAs (Decidable (x.2 ≤ y.2))

instance : Std.Total (bySize : Nat × ℚ → Nat × ℚ → Prop) :=
  ⟨fun x y => le_total x.2 y.2⟩

instance : IsTrans (Nat × ℚ) bySize :=
  ⟨fun _ _ _ hxy hyz => le_trans (α := ℚ) hxy hyz⟩

def pathGraph : Graph :=
  ⟨{0, 1, 2}, fun n =>
    if n = 0 then {1} else if n = 1 then {0, 2} else if n = 2 then {1} else ∅⟩

/-- Every join has the same size. -/
def flatSize (x : ℚ) (_ : Finset Nat) : ℚ := x

def flatEstimate (x : ℚ) (l : List Nat) (s : Unit) : ℚ × Unit :=
  (flatSize x l.toFinset, s)

theorem pathGraph_closed (u v : Nat) (h : v ∈ pathGraph.adj u) :
    v ∈ pathGraph.nodes := by
  simp only [pathGraph] at h ⊢
  split at h
  · simp_all
  · split at h
    · simp_all
      omega
    · split at h <;> simp_all

theorem pathGraph_order :
    CompleteOrder pathGraph.adj pathGraph.nodes 0 [0, 1, 2] :=
  ⟨.append (p := [0, 1]) (u := 1) (.append (p := [0]) (u := 0) .base
    (by decide) (by decide) (by decide)) (by decide) (by decide) (by decide),
    by decide⟩

theorem enumeration_optimal_path :
    CompleteOrder pathGraph.adj pathGraph.nodes 0 (enumerate pathGraph
      (flatEstimate 1) (StdSort.insertion bySize) 10 doubleMax 0
        ()).optimalTraversal := by
  have hest : ∀ l s, (flatEstimate 1 l s).1 = flatSize 1 l.toFinset :=
    fun _ _ => rfl
  have hnn : ∀ t, 0 ≤ flatSize 1 t := fun _ => zero_le_one
  exact (enumeration_optimal hest hnn
    (fun _ _ hb => le_add_of_nonneg_right hb) (by decide) pathGraph_closed ()
    (by decide +kernel) ⟨_, pathGraph_order, by decide +kernel⟩).1

/-- An estimator that reaches the initial bound: the enumeration ends
after its only traversal and has recorded nothing. -/
theorem enumeration_misses_double_max :
    let e := enumerate pathGraph (flatEstimate doubleMax)
      (StdSort.insertion bySize) 10 doubleMax 0 ()
    e.traverseBound < 10
      ∧ CompleteOrder pathGraph.adj pathGraph.nodes 0 [0, 1, 2]
      ∧ e.optimalTraversal = []
      ∧ ¬ CompleteOrder pathGraph.adj pathGraph.nodes 0 e.optimalTraversal := by
  have hnil : (enumerate pathGraph (flatEstimate doubleMax)
      (StdSort.insertion bySize) 10 doubleMax 0 ()).optimalTraversal = [] := by
    decide +kernel
  refine ⟨by decide +kernel, pathGraph_order, hnil, ?_⟩
  rw [hnil]
  exact fun h => h.connected.ne_nil rfl

end Compass.JoinOrder

namespace Compass.JoinOrder

open GraphOrder List
open Enumeration

variable {σ α : Type} [LinearOrder α] [AddZeroClass α]

/-- From a stack whose last node is `node`: join the cheapest candidate
until all nodes are joined. Returns the order and its cost. -/
def greedyDescent (g : Graph) (est : List Nat → σ → α × σ)
    (sort : StdSort (Nat × α) bySize) : (fuel : Nat) → (node : Nat) →
    (allAdjacent : List (Nat × α)) → (temp : α) → Enumeration σ α →
    List Nat × α
  | 0, _, _, temp, e => (e.traversalNodes, temp)
  | fuel + 1, node, allAdjacent, temp, e =>
    if e.traversalNodes.length = g.size then (e.traversalNodes, temp)
    else
      let r := estimateStack g est e
      let c := (newAdjacentNodes g node r.2.visitedNodes
        allAdjacent).foldl (estimateCandidate g est) (r.2, [])
      match sort.run c.2 with
      | [] => (e.traversalNodes, temp)
      | v :: _ => greedyDescent g est sort fuel v.1 c.2 (temp + r.1)
          (c.1.enter v.1)

/-- The greedy order from a base node, with its cost. -/
def greedyOrder (g : Graph) (est : List Nat → σ → α × σ)
    (sort : StdSort (Nat × α) bySize) (dblMax : α) (base : Nat) (s : σ) :
    List Nat × α :=
  greedyDescent g est sort g.size base [] 0
    ((Enumeration.start dblMax s).enter base)

variable {est : List Nat → σ → α × σ} {sort : StdSort (Nat × α) bySize}
variable {g : Graph} {base : Nat}

/-- Nothing happens once the bound is reached. -/
theorem traversals_of_bound {fuel bound : Nat} {e : Enumeration σ α}
    (h : bound ≤ e.traverseBound) (v : Nat) (adjNodes : List (Nat × α)) (temp : α) :
    getDistinctGraphTraversals g est sort bound fuel v adjNodes temp e = e := by
  cases fuel with
  | zero => rfl
  | succ fuel =>
    exact if_pos h

theorem loop_of_bound {fuel bound : Nat} {adjNodes : List (Nat × α)}
    {temp : α} (vs : List (Nat × α)) {e : Enumeration σ α} (h : bound ≤ e.traverseBound) :
    vs.foldl (fun e v => if v.1 ∈ e.visitedNodes then e
      else getDistinctGraphTraversals g est sort bound fuel v.1 adjNodes
        temp e) e = e := by
  induction vs with
  | nil => rfl
  | cons v vs ih =>
    rw [foldl_cons, traversals_of_bound h, ite_self]
    exact ih

/-- No partial order is a dead end when every node can be reached. -/
theorem exists_next (hreach : ∀ v ∈ g.nodes, Relation.ReflTransGen (fun a b => b ∈ g.adj a) base v)
    {p : List Nat} (hp : ConnectedOrder g.adj base p)
    (hlt : p.length < g.size) : ∃ u ∈ p, ∃ v, v ∈ g.adj u ∧ v ∉ p := by
  obtain ⟨w, hw, hwp⟩ : ∃ w ∈ g.nodes, w ∉ p.toFinset := by
    refine Finset.exists_mem_notMem_of_card_lt_card ?_
    rw [toFinset_card_of_nodup hp.nodup]
    exact hlt
  obtain ⟨u, hu, v, hv, hvp⟩ := exists_edge_out
    (mem_toFinset.mpr hp.base_mem) hwp (hreach w hw)
  exact ⟨u, mem_toFinset.mp hu, v, hv, fun h => hvp (mem_toFinset.mpr h)⟩

/-- With a bound of one, the enumeration records the greedy order when
it costs less than the best one so far, and then stops. -/
theorem greedy_run (hnext : ∀ p : List Nat, ConnectedOrder g.adj base p →
      p.length < g.size → ∃ u ∈ p, ∃ v, v ∈ g.adj u ∧ v ∉ p) (fuel : Nat) :
    ∀ (p : List Nat) (node : Nat) (allAdjacent : List (Nat × α)) (temp : α)
      (e : Enumeration σ α), Ready g base p node allAdjacent e →
      e.traverseBound = 0 → g.size ≤ p.length + fuel →
      let e' := getDistinctGraphTraversals g est sort 1 fuel node
        allAdjacent temp e
      let o := greedyDescent g est sort fuel node allAdjacent temp
        (e.enter node)
      e'.traverseBound = 1
        ∧ (e'.optimalTraversal, e'.minJoinSizeEstimation)
          = if o.2 < e.minJoinSizeEstimation then o
            else (e.optimalTraversal, e.minJoinSizeEstimation) := by
  induction fuel with
  | zero =>
    intro p node allAdjacent temp e hready _ hfuel
    have := hready.room
    omega
  | succ fuel ih =>
    intro p node allAdjacent temp e hready hzero hfuel
    have hvis : (e.enter node).visitedNodes = (p ++ [node]).toFinset := by
      simp [enter, hready.visited, toFinset_append]
    have hstack : (e.enter node).traversalNodes = p ++ [node] := by
      simp [enter, hready.stack]
    have hbound : ¬ 1 ≤ e.traverseBound := by omega
    unfold getDistinctGraphTraversals greedyDescent
    simp only [hbound, if_false]
    by_cases hlen : (e.enter node).traversalNodes.length = g.size
    · simp only [hlen, if_true]
      refine ⟨?_, ?_⟩
      · simp only [complete, leave]
        split <;> simp [enter, hzero]
      · simp only [complete, leave]
        have hmin : (e.enter node).minJoinSizeEstimation
            = e.minJoinSizeEstimation := rfl
        rw [hmin]
        split <;> rfl
    · simp only [hlen, if_false]
      rw [hstack, length_append, length_singleton] at hlen
      have hlt : (p ++ [node]).length < g.size := by
        have := hready.room
        rw [length_append, length_singleton]
        omega
      have hfuel' : g.size ≤ (p ++ [node]).length + fuel := by
        rw [length_append, length_singleton]
        omega
      obtain ⟨s, hs⟩ := estimateStack_estimator g est (e.enter node)
      rw [hs]
      generalize (estimateStack g est (e.enter node)).1 = x
      obtain ⟨⟨s', hc⟩, hkeys⟩ := candidates_spec est
        (e := { e.enter node with estimator := s }) hready hstack hvis hlt
      generalize (newAdjacentNodes g node
        ({ e.enter node with estimator := s } :
          Enumeration σ α).visitedNodes allAdjacent).foldl
          (estimateCandidate g est)
          ({ e.enter node with estimator := s }, []) = c at hc hkeys ⊢
      obtain ⟨e₁, adjNodes⟩ := c
      subst hc
      -- there is a candidate, and the first one is entered
      obtain ⟨u, hu, w, hw, hwp⟩ := hnext (p ++ [node]) hready.order hlt
      have hmem := (hkeys w).mpr ⟨hwp, u, hu, hw⟩
      cases hsort : sort.run adjNodes with
      | nil =>
        have hnil : adjNodes = [] := by
          have := sort.perm adjNodes
          rw [hsort] at this
          exact this.symm.eq_nil
        rw [hnil] at hmem
        cases hmem
      | cons v vs =>
        have hv : v.1 ∈ adjNodes.map Prod.fst := by
          refine mem_map_of_mem ((sort.perm adjNodes).mem_iff.mp ?_)
          rw [hsort]
          exact mem_cons_self
        have hnew : v.1 ∉ (e.enter node).visitedNodes := by
          rw [hvis, mem_toFinset]
          exact ((hkeys v.1).mp hv).1
        have hstep := ih (p ++ [node]) v.1 adjNodes (temp + x)
          { e.enter node with estimator := s' }
          (candidate_ready hready hlt hkeys hv hstack hvis) hzero hfuel'
        rw [foldl_cons, if_neg hnew, loop_of_bound vs hstep.1.ge]
        exact hstep

theorem enumerate_greedy (est : List Nat → σ → α × σ)
    (sort : StdSort (Nat × α) bySize) (hreach : ∀ v ∈ g.nodes,
      Relation.ReflTransGen (fun a b => b ∈ g.adj a) base v)
    (hsize : 0 < g.size) (dblMax : α) (s : σ) :
    let e := enumerate g est sort 1 dblMax base s
    let o := greedyOrder g est sort dblMax base s
    (e.optimalTraversal, e.minJoinSizeEstimation)
      = if o.2 < dblMax then o else ([], dblMax) := by
  have hready : Ready g base [] base []
      (start dblMax s : Enumeration σ α) :=
    ⟨rfl, rfl, .base, hsize, by simp, by simp⟩
  exact (greedy_run (fun p hp hlt => exists_next hreach hp hlt) g.size [] base
    [] 0 (start dblMax s) hready rfl (by simp)).2

end Compass.JoinOrder
