/-
When the join ordering gives every input a place.

The permutation is the plan of the enumeration on the working graph,
adjusted against the initial one and mapped to input positions. Nodes can
be lost at three places. The exclusion of sparse sketches shrinks the
working graph, and the excluded nodes never reach the returned plan: the
copy they are put back into is overwritten. The enumeration records no
order when its cost is not below the initial bound, or when the working
graph falls apart. And the adjustment drops the whole plan when the
initial graph has no leaf, as every cycle does.

`plan_permutation_iff` shows that there are no other places: outside
these the result is a permutation, and the nest levels are distinct.
-/
import Compass.JoinOrder.Proofs.Exclude
import Compass.JoinOrder.Proofs.Adjust

namespace Compass.JoinOrder

open Compass.Sketch GraphOrder List Option Nat Prod

-- ======== inputs

/-- What the filter push-down hands over for a left-deep join: a connected
join graph with one node per input, each with its position, a complexity
and its join columns. -/
structure PlanInput.WellFormed (inp : PlanInput) : Prop where
  undirected : inp.joinGraph.Undirected
  connected : ∀ u ∈ inp.joinGraph.nodes, ∀ v ∈ inp.joinGraph.nodes,
    Relation.ReflTransGen (fun a b => b ∈ inp.joinGraph.adj a) u v
  size : inp.joinGraph.nodes.card = inp.tableInfos.length
  two : 2 ≤ inp.tableInfos.length
  index : ∀ v ∈ inp.joinGraph.nodes, ∃ t o,
    inp.tableIndexInfos v = some (t, o) ∧ o < inp.tableInfos.length
  index_inj : ∀ u ∈ inp.joinGraph.nodes, ∀ v ∈ inp.joinGraph.nodes,
    (inp.tableIndexInfos u).map Prod.snd
      = (inp.tableIndexInfos v).map Prod.snd → u = v
  complexities : ∀ c ∈ inp.sketchComplexities, c.1 ∈ inp.joinGraph.nodes
  joins : ∀ u v, v ∈ inp.joinGraph.adj u
    ↔ ∃ j ∈ inp.joinConnections u, j.otherNode = v
  keys : inp.joinKeys = inp.joinGraph.nodes

namespace PlanInput.WellFormed

variable {inp : PlanInput}

variable (hw : inp.WellFormed)
include hw

theorem nodes_nonempty : inp.joinKeys ≠ ∅ := by
  intro hempty
  have hsize := hw.size
  rw [← hw.keys, hempty, Finset.card_empty] at hsize
  have := hw.two
  omega

theorem joins_nodes : ∀ n, ∀ j ∈ inp.joinConnections n, j.otherNode ∈ inp.joinGraph.nodes :=
  fun n j hj => hw.undirected.closed n _ ((hw.joins n _).mpr ⟨j, hj, rfl⟩)

/-- Every node is joined to another one. -/
theorem exists_neighbour {v : Nat} (hv : v ∈ inp.joinGraph.nodes) :
    ∃ u ∈ inp.joinGraph.nodes, v ∈ inp.joinGraph.adj u := by
  have hcard : ({v} : Finset Nat).card < inp.joinGraph.nodes.card := by
    have := hw.two
    rw [Finset.card_singleton, hw.size]
    omega
  obtain ⟨w, hwn, hwv⟩ := Finset.exists_mem_notMem_of_card_lt_card hcard
  obtain ⟨a, ha, b, hb, -⟩ := exists_edge_out (Finset.mem_singleton_self v)
    hwv (hw.connected v hv w hwn)
  rw [Finset.mem_singleton] at ha
  subst ha
  exact ⟨b, hw.undirected.closed a b hb, hw.undirected.symm a b hb⟩

end PlanInput.WellFormed

-- ======== the excluded nodes

/-- With a joined node in the plan for each of them, the loop over the
excluded nodes ends after one round. -/
theorem reinsertExcluded_total {cols : JoinCols} {excluded : List Nat}
    (hnd : excluded.Nodup) (todo : List Nat) :
    ∀ (done plan : List Nat) (fuel : Nat), excluded = done ++ todo →
      (∀ ex ∈ excluded, ∃ n ∈ plan, ∃ j ∈ cols n, j.otherNode = ex) →
      todo.length < fuel →
      ∃ r, reinsertExcluded cols excluded fuel done.length done.toFinset plan
        = some r := by
  induction todo with
  | nil =>
    intro done plan fuel hsplit _ hfuel
    obtain ⟨fuel, rfl⟩ := exists_eq_succ_of_ne_zero
      (ne_zero_of_lt hfuel)
    rw [append_nil] at hsplit
    subst hsplit
    refine ⟨plan, ?_⟩
    exact if_pos (toFinset_card_of_nodup hnd).symm
  | cons ex todo ih =>
    intro done plan fuel hsplit hjoin hfuel
    obtain ⟨fuel, rfl⟩ := exists_eq_succ_of_ne_zero
      (ne_zero_of_lt hfuel)
    have hdone : done.Nodup := by
      rw [hsplit] at hnd
      exact (nodup_append.mp hnd).1
    have hnew : ex ∉ done := by
      intro hmem
      rw [hsplit] at hnd
      exact (nodup_append.mp hnd).2.2 ex hmem ex (by simp) rfl
    have hlen : excluded.length ≠ done.toFinset.card := by
      rw [toFinset_card_of_nodup hdone, hsplit]
      simp
    have hpos : done.length ≠ excluded.length := by
      rw [hsplit]
      simp
    have hget : excluded[done.length]? = some ex := by simp [hsplit]
    have hset : insert ex done.toFinset = (done ++ [ex]).toFinset := by
      simp [toFinset_append]
    obtain ⟨n, hn, j, hj, hjex⟩ := hjoin ex (by simp [hsplit])
    obtain ⟨i, hi⟩ : ∃ i, (plan.findIdx? fun node =>
        (cols node).any fun j => j.otherNode = ex) = some i := by
      rw [← isSome_iff_exists, findIdx?_isSome, List.any_eq_true]
      exact ⟨n, hn, List.any_eq_true.mpr ⟨j, hj, by simpa using hjex⟩⟩
    have hile : i ≤ plan.length :=
      (findIdx?_eq_some_iff_getElem.mp hi).1.le
    unfold reinsertExcluded
    simp only [hlen, if_false, hpos, hget, List.mem_toFinset, hnew, hi]
    rw [hset, show done.length + 1 = (done ++ [ex]).length by simp]
    refine ih (done ++ [ex]) _ fuel (by simp [hsplit]) ?_ (by
      rw [length_cons] at hfuel
      omega)
    intro ex' hex'
    obtain ⟨n', hn', hj'⟩ := hjoin ex' hex'
    refine ⟨n', ?_, hj'⟩
    exact (perm_insertIdx ex plan hile).mem_iff.mpr (by simp [hn'])

-- ======== nest levels

/-- A permutation gives every input its own level. -/
theorem getInputNestLevels_perm {n : Nat} {perm : List Nat} (hn : 0 < n)
    (hperm : perm.Perm (range n)) :
    getInputNestLevels n perm = some perm.zipIdx := by
  have hlen : perm.length = n := by simpa using hperm.length_eq
  have hne : perm ≠ [] := by
    intro hnil
    rw [hnil, length_nil] at hlen
    omega
  have hnd : perm.Nodup := hperm.nodup_iff.mpr nodup_range
  have hstep : ∀ k ≤ n, (range k).foldlM (addNestLevel perm) []
      = some (perm.take k).zipIdx := by
    intro k
    induction k with
    | zero => exact fun _ => rfl
    | succ k ih =>
      intro hk
      have hget : perm[k]? = some perm[k] :=
        getElem?_eq_getElem (by omega)
      have hnew : perm[k] ∉ perm.take k := by
        intro hmem
        obtain ⟨i, hi, heq⟩ := mem_take_iff_getElem.mp hmem
        have := (Nodup.getElem_inj_iff hnd).mp heq
        omega
      have hlevels : ((perm.take k).zipIdx).map fst = perm.take k := by
        rw [zipIdx_map_fst]
      rw [range_succ, foldlM_append, ih (by omega)]
      simp only [bind_eq_bind, bind_some, foldlM_cons,
        foldlM_nil, addNestLevel, hne, if_false, hget, hlevels, hnew]
      rw [take_add_one, hget, zipIdx_append]
      simp [min_eq_left (show k ≤ perm.length by omega)]
  have := hstep n (le_refl n)
  rwa [take_of_length_le (by omega)] at this

-- ======== the condition

section plan

variable {σ α : Type} [LinearOrder α] [AddZeroClass α]
variable (dims : FagmsDims) (sketchSparsityBound : Nat)
variable (est : Estimator σ α) (dblMax : α) (inp : PlanInput)
variable (sorts : Sorts α inp.tableInfos) (s : σ)

/-- The result is a permutation of the input positions, and the nest
levels made from it are distinct. -/
def PlansAllInputs : Prop :=
  ∃ perm, getNodeInputPermutation dims sketchSparsityBound est dblMax inp
      sorts s = some perm
    ∧ perm.Perm (List.range inp.tableInfos.length)
    ∧ ∃ levels, getInputNestLevels inp.tableInfos.length perm = some levels
      ∧ (levels.map Prod.fst).Perm (List.range inp.tableInfos.length)
      ∧ levels.map Prod.snd = List.range inp.tableInfos.length

/-- No node is lost on the way: the exclusion of sparse sketches takes
out no node and leaves all of them reachable from the base, the greedy
order from there costs less than the initial bound, and some node of the
join graph has a single neighbour. -/
def NothingLost : Prop :=
  ∃ x base, excludedInput dims sketchSparsityBound inp sorts = some x
    ∧ baseNode inp sorts x = some base
    ∧ x.exclusion.joinGraph.nodes = inp.joinGraph.nodes
    ∧ (∀ v ∈ inp.joinGraph.nodes, Relation.ReflTransGen
        (fun a b => b ∈ x.exclusion.joinGraph.adj a) base v)
    ∧ (greedyOrder x.exclusion.joinGraph est.estimate sorts.candidates dblMax
        base (prepareBase est inp base s)).2 < dblMax
    ∧ ∃ v ∈ inp.joinGraph.nodes, (inp.joinGraph.adj v).card = 1

variable {dims sketchSparsityBound est dblMax inp sorts s}

/-- Nothing is said of the estimates. -/
def anyPricing (est : List Nat → σ → α × σ) : Pricing est where
  acc _ _ := True
  low _ _ := True
  acc_nil := trivial
  acc_single _ _ _ := trivial
  acc_append _ _ _ _ _ _ := trivial
  low_of_acc _ _ _ _ _ _ := trivial
  low_anti _ _ _ _ _ := trivial

/-- What the enumeration records, whatever the graph and the estimator. -/
theorem enumerate_recorded (g : Graph) (est : List Nat → σ → α × σ)
    (sort : StdSort (Nat × α) bySize) (bound base : Nat) (dblMax : α) (s : σ) :
    let e := enumerate g est sort bound dblMax base s
    (e.optimalTraversal = [] ∧ e.minJoinSizeEstimation = dblMax)
      ∨ FullOrder g base e.optimalTraversal := by
  rcases Nat.eq_zero_or_pos g.size with h0 | hsize
  · left
    unfold enumerate
    rw [h0]
    exact ⟨rfl, rfl⟩
  · rcases (enumerate_outcome sort bound base dblMax (anyPricing est) hsize
      s).1 with hnone | ⟨hfull, -⟩
    · exact .inl hnone
    · exact .inr hfull

/-- The stages, spelled out. -/
theorem getNodeInputPermutation_eq_some (hw : inp.WellFormed) {perm : List Nat} :
    getNodeInputPermutation dims sketchSparsityBound est dblMax inp sorts s
        = some perm
      ↔ ∃ x base, excludedInput dims sketchSparsityBound inp sorts = some x
        ∧ baseNode inp sorts x = some base
        ∧ ∃ t, (enumerate x.exclusion.joinGraph est.estimate
            sorts.candidates 1 dblMax base
            (prepareBase est inp base s)).optimalTraversal = t ∧ t ≠ []
          ∧ (∃ r, reinsertExcluded inp.joinConnections
              (x.excludedNodes.map fst)
              (reinsertFuel (x.excludedNodes.map fst)) 0 ∅ t = some r)
          ∧ ∃ plan, adjustPlanForMapD inp.joinGraph t = some plan
            ∧ (plan.mapM fun node =>
              (inp.tableIndexInfos node).map snd) = some perm := by
  unfold getNodeInputPermutation
  rw [if_neg hw.nodes_nonempty]
  simp only [bind_eq_bind, bind_eq_some_iff]
  constructor
  · intro h
    obtain ⟨x, hx, base, hbase, h⟩ := h
    split at h
    · cases h
    · next hne =>
      simp only [bind_eq_some_iff] at h
      obtain ⟨r, hr, plan, hplan, hperm⟩ := h
      exact ⟨x, base, hx, hbase, _, rfl, hne, ⟨r, hr⟩, plan, hplan, hperm⟩
  · intro h
    obtain ⟨x, base, hx, hbase, t, rfl, hne, ⟨r, hr⟩, plan, hplan, hperm⟩ := h
    refine ⟨x, hx, base, hbase, ?_⟩
    rw [if_neg hne]
    simp only [bind_eq_some_iff]
    exact ⟨r, hr, plan, hplan, hperm⟩

omit [AddZeroClass α] in
/-- What is known of the exclusion and the base it leaves. -/
theorem excludedInput_spec (hw : inp.WellFormed) {x : Excluded} {base : Nat}
    (hx : excludedInput dims sketchSparsityBound inp sorts = some x)
    (hbase : baseNode inp sorts x = some base) :
    Within inp.joinGraph inp.joinConnections x.exclusion
      ∧ base ∈ inp.joinGraph.nodes
      ∧ (x.excludedNodes.map fst).Nodup
      ∧ ∀ ex ∈ x.excludedNodes.map fst, ex ∈ inp.joinGraph.nodes := by
  have hnodes : ∀ c ∈ sorts.complexity.run inp.sketchComplexities,
      c.1 ∈ inp.joinGraph.nodes := fun c hc =>
    hw.complexities c ((sorts.complexity.perm _).mem_iff.mp hc)
  obtain ⟨hwithin, hsub, hnd, hex⟩ :=
    excludeSparseSketches_spec hnodes hw.joins_nodes hx
  refine ⟨hwithin, ?_, hnd, ?_⟩
  · obtain ⟨c, hc, rfl⟩ := map_eq_some_iff.mp hbase
    have hmem := (sorts.largest.perm _).mem_iff.mp (mem_of_head? hc)
    exact hnodes c (hsub c hmem)
  · intro ex hmem
    obtain ⟨c, hc, rfl⟩ := mem_map.mp hmem
    exact hnodes c (hex c hc)

/-- The input positions of an order of all nodes. -/
theorem positions_perm (hw : inp.WellFormed) {plan : List Nat}
    (hnd : plan.Nodup) (hnodes : plan.toFinset = inp.joinGraph.nodes) :
    ∃ perm, (plan.mapM fun node =>
        (inp.tableIndexInfos node).map snd) = some perm
      ∧ perm.Perm (range inp.tableInfos.length) := by
  have hmem : ∀ v ∈ plan, v ∈ inp.joinGraph.nodes := by
    intro v hv
    rw [← hnodes]
    exact mem_toFinset.mpr hv
  let position := fun v => ((inp.tableIndexInfos v).map snd).getD 0
  have hsome : ∀ v ∈ plan, (inp.tableIndexInfos v).map snd
      = some (position v) := by
    intro v hv
    obtain ⟨t, o, hindex, -⟩ := hw.index v (hmem v hv)
    simp [position, hindex]
  refine ⟨plan.map position, OptionFold.mapM_eq_map hsome, ?_⟩
  have hinj : (plan.map position).Nodup := by
    refine Nodup.map_on (fun u hu v hv heq => ?_) hnd
    refine hw.index_inj u (hmem u hu) v (hmem v hv) ?_
    rw [hsome u hu, hsome v hv, heq]
  refine (hinj.subperm fun o ho => ?_).perm_of_length_le ?_
  · obtain ⟨v, hv, rfl⟩ := mem_map.mp ho
    obtain ⟨t, o, hindex, hlt⟩ := hw.index v (hmem v hv)
    simpa [position, hindex] using hlt
  · rw [length_range, length_map, ← toFinset_card_of_nodup hnd, hnodes, hw.size]

/-- The adjustment of an order of all nodes: a permutation of it when
the join graph has a leaf, nothing otherwise. -/
theorem adjustPlan_complete (hw : inp.WellFormed) {x : Exclusion}
    (hwithin : Within inp.joinGraph inp.joinConnections x) {base : Nat}
    {t : List Nat} (ht : ConnectedOrder x.joinGraph.adj base t)
    (hnodes : t.toFinset = inp.joinGraph.nodes) :
    ∃ plan, adjustPlanForMapD inp.joinGraph t = some plan
      ∧ ((∃ v ∈ inp.joinGraph.nodes, (inp.joinGraph.adj v).card = 1) →
        plan.Perm t)
      ∧ ((∀ v ∈ inp.joinGraph.nodes, (inp.joinGraph.adj v).card ≠ 1) →
        plan = []) := by
  have hmem : ∀ v, v ∈ t ↔ v ∈ inp.joinGraph.nodes := by
    intro v
    rw [← hnodes, List.mem_toFinset]
  have h2 : 2 ≤ t.length := by
    rw [← toFinset_card_of_nodup ht.nodup, hnodes, hw.size]
    exact hw.two
  obtain ⟨plan, hplan, hleaf, hnone⟩ := adjustPlan_spec hw.undirected
    (ht.mono hwithin.adj) h2 (fun v hv => (hmem v).mp hv)
  refine ⟨plan, hplan, ?_, ?_⟩
  · intro h
    obtain ⟨v, hv, hcard⟩ := h
    exact (hleaf ⟨v, (hmem v).mpr hv, hcard⟩).1
  · exact fun h => hnone fun v hv => h v ((hmem v).mp hv)

theorem nothingLost_of_plansAllInputs (hw : inp.WellFormed)
    (h : PlansAllInputs dims sketchSparsityBound est dblMax inp sorts s) :
    NothingLost dims sketchSparsityBound est dblMax inp sorts s := by
  obtain ⟨perm, hrun, hperm, -⟩ := h
  obtain ⟨x, base, hx, hbase, t, ht, hne, -, plan, hplan, hmap⟩ :=
    (getNodeInputPermutation_eq_some hw).mp hrun
  obtain ⟨hwithin, hbn, -, -⟩ := excludedInput_spec hw hx hbase
  have hfull : FullOrder x.exclusion.joinGraph base t := by
    rcases enumerate_recorded x.exclusion.joinGraph est.estimate
      sorts.candidates 1 base dblMax (prepareBase est inp base s) with
      ⟨hnil, -⟩ | hfull
    · exact absurd (ht.symm.trans hnil) hne
    · exact ht ▸ hfull
  have hlen : plan.length = inp.tableInfos.length := by
    have h₁ : perm.length = inp.tableInfos.length := by
      simpa using hperm.length_eq
    have h₂ := OptionFold.mapM_length hmap
    omega
  -- a plan as long as the input list leaves no room for a lost node
  have hnodes : x.exclusion.joinGraph.nodes = inp.joinGraph.nodes := by
    have h₃ := adjustPlan_length hplan
    rw [hfull.length_eq, hlen, ← hw.size] at h₃
    exact Finset.eq_of_subset_of_card_le hwithin.nodes h₃
  have hclosed : ∀ u v, v ∈ x.exclusion.joinGraph.adj u →
      v ∈ x.exclusion.joinGraph.nodes := fun u v hv => by
    rw [hnodes]
    exact hw.undirected.closed u v (hwithin.adj u hv)
  have hcomplete := (fullOrder_iff (hnodes ▸ hbn) hclosed t).mp hfull
  have htnodes := hcomplete.nodes_eq.trans hnodes
  have hreach : ∀ v ∈ x.exclusion.joinGraph.nodes, Relation.ReflTransGen
      (fun a b => b ∈ x.exclusion.joinGraph.adj a) base v := by
    intro v hv
    rw [← hcomplete.nodes_eq, List.mem_toFinset] at hv
    exact hcomplete.connected.reachable v hv
  refine ⟨x, base, hx, hbase, hnodes, fun v hv => hreach v (hnodes ▸ hv), ?_, ?_⟩
  · have hsize : 0 < x.exclusion.joinGraph.size :=
      Finset.card_pos.mpr ⟨base, hnodes ▸ hbn⟩
    have hgreedy := enumerate_greedy est.estimate sorts.candidates hreach
      hsize dblMax (prepareBase est inp base s)
    dsimp only at hgreedy
    by_contra hcost
    rw [if_neg hcost, mk.injEq] at hgreedy
    exact hne (ht.symm.trans hgreedy.1)
  · obtain ⟨plan', hplan', -, hnone⟩ :=
      adjustPlan_complete hw hwithin hcomplete.connected htnodes
    by_contra hno
    have hnil := hnone fun v hv hcard => hno ⟨v, hv, hcard⟩
    rw [hplan, hnil] at hplan'
    have htwo := hw.two
    rw [← hlen, Option.some.inj hplan', length_nil] at htwo
    omega

theorem plansAllInputs_of_nothingLost (hw : inp.WellFormed)
    (h : NothingLost dims sketchSparsityBound est dblMax inp sorts s) :
    PlansAllInputs dims sketchSparsityBound est dblMax inp sorts s := by
  obtain ⟨x, base, hx, hbase, hnodes, hreach, hcost, hleaf⟩ := h
  obtain ⟨hwithin, hbn, hnd, hex⟩ := excludedInput_spec hw hx hbase
  have hsize : 0 < x.exclusion.joinGraph.size :=
    Finset.card_pos.mpr ⟨base, hnodes ▸ hbn⟩
  have hgreedy := enumerate_greedy est.estimate sorts.candidates
    (fun v hv => hreach v (hnodes ▸ hv)) hsize dblMax
    (prepareBase est inp base s)
  dsimp only at hgreedy
  rw [if_pos hcost] at hgreedy
  have hclosed : ∀ u v, v ∈ x.exclusion.joinGraph.adj u →
      v ∈ x.exclusion.joinGraph.nodes := fun u v hv => by
    rw [hnodes]
    exact hw.undirected.closed u v (hwithin.adj u hv)
  -- the recorded order is a full one, since its cost is below the bound
  obtain ⟨t, ht, hfull⟩ : ∃ t, (enumerate x.exclusion.joinGraph est.estimate
      sorts.candidates 1 dblMax base
      (prepareBase est inp base s)).optimalTraversal = t
        ∧ FullOrder x.exclusion.joinGraph base t := by
    rcases enumerate_recorded x.exclusion.joinGraph est.estimate
      sorts.candidates 1 base dblMax (prepareBase est inp base s) with
      ⟨-, hmin⟩ | hfull
    · have hsame := congrArg snd hgreedy
      rw [hmin] at hsame
      exact absurd hcost (by rw [← hsame]; exact lt_irrefl _)
    · exact ⟨_, rfl, hfull⟩
  have hcomplete := (fullOrder_iff (hnodes ▸ hbn) hclosed t).mp hfull
  have htnodes := hcomplete.nodes_eq.trans hnodes
  have hjoins : ∀ ex ∈ x.excludedNodes.map fst,
      ∃ n ∈ t, ∃ j ∈ inp.joinConnections n, j.otherNode = ex := by
    intro ex hmem
    obtain ⟨u, hu, hadj⟩ := hw.exists_neighbour (hex ex hmem)
    rw [← htnodes, List.mem_toFinset] at hu
    exact ⟨u, hu, (hw.joins u ex).mp hadj⟩
  obtain ⟨r, hr⟩ := reinsertExcluded_total hnd _ [] t
    (reinsertFuel (x.excludedNodes.map fst)) rfl hjoins
    (Nat.lt_of_lt_of_le (Nat.lt_succ_self _)
      (Nat.le_mul_of_pos_left _ (Nat.succ_pos _)))
  obtain ⟨plan, hplan, hpermt, -⟩ :=
    adjustPlan_complete hw hwithin hcomplete.connected htnodes
  have hplant := hpermt hleaf
  obtain ⟨perm, hmap, hperm⟩ := positions_perm hw
    (hplant.nodup_iff.mpr hcomplete.connected.nodup)
    ((toFinset_eq_of_perm _ _ hplant).trans htnodes)
  have hpos : 0 < inp.tableInfos.length := by
    have := hw.two
    omega
  refine ⟨perm, (getNodeInputPermutation_eq_some hw).mpr ⟨x, base, hx, hbase,
    t, ht, hcomplete.connected.ne_nil, ⟨r, hr⟩, plan, hplan, hmap⟩, hperm,
    perm.zipIdx, getInputNestLevels_perm hpos hperm, ?_, ?_⟩
  · rw [zipIdx_map_fst]
    exact hperm
  · have hlen : perm.length = inp.tableInfos.length := by
      simpa using hperm.length_eq
    rw [zipIdx_map_snd, hlen, range_eq_range']

/-- A permutation comes out exactly when nothing is lost. -/
theorem plan_permutation_iff (hw : inp.WellFormed) :
    PlansAllInputs dims sketchSparsityBound est dblMax inp sorts s
      ↔ NothingLost dims sketchSparsityBound est dblMax inp sorts s :=
  ⟨nothingLost_of_plansAllInputs hw, plansAllInputs_of_nothingLost hw⟩

end plan

-- ======== three tables

instance : DecidableRel byLargest :=
  fun x y => inferInstanceAs (Decidable (y.2 ≤ x.2))

instance : Std.Total byLargest := ⟨fun x y => le_total y.2 x.2⟩

instance : IsTrans (Nat × Nat) byLargest :=
  ⟨fun _ _ _ hxy hyz => le_trans (α := Nat) hyz hxy⟩

instance (infos : List Nat) : DecidableRel (byTuples infos) :=
  fun x y => inferInstanceAs (Decidable (infos.getD y 0 ≤ infos.getD x 0))

instance (infos : List Nat) : Std.Total (byTuples infos) :=
  ⟨fun x y => le_total (infos.getD y 0) (infos.getD x 0)⟩

instance (infos : List Nat) : IsTrans Nat (byTuples infos) :=
  ⟨fun _ _ _ hxy hyz => le_trans (α := Nat) hyz hxy⟩

def insertionSorts (infos : List Nat) : Sorts ℚ infos :=
  ⟨.insertion _, .insertion _, .insertion _, .insertion _⟩

def flatEstimator : Estimator Unit ℚ :=
  ⟨flatEstimate 1, id⟩

def pathAdj : Nat → Finset Nat
  | 0 => {1}
  | 1 => {0, 2}
  | 2 => {1}
  | _ => ∅

def triangleAdj : Nat → Finset Nat
  | 0 => {1, 2}
  | 1 => {0, 2}
  | 2 => {0, 1}
  | _ => ∅

/-- Three tables with the given joins; the sketches of node `n` have
`cell n` in their only bucket. -/
def threeTables (adj : Nat → Finset Nat) (cell : Nat → ℚ) : PlanInput where
  tableInfos := [10, 20, 30]
  tableIndexInfos n := if n < 3 then some (n, n) else none
  sketchComplexities := [(0, 10), (1, 20), (2, 30)]
  joinGraph := ⟨{0, 1, 2}, adj⟩
  sketchInstances n :=
    { keysNo := (adj n).card, sketchElem := fun _ => 0, separateSketchElem := fun _ _ => cell n }
  joinKeys := {0, 1, 2}
  joinConnections n :=
    (StdSort.ascending (adj n)).map fun m => ⟨n, 0, m, m, 0⟩

/-- It is enough that all joins are among the three tables, both ways,
and that the second table joins the other two. -/
theorem threeTables_wellFormed {adj : Nat → Finset Nat} {cell : Nat → ℚ}
    (hout : ∀ u, 3 ≤ u → adj u = ∅) (hin : ∀ u < 3, ∀ v ∈ adj u, v < 3 ∧ u ∈ adj v)
    (hhub : ∀ u < 3, u = 1 ∨ (1 ∈ adj u ∧ u ∈ adj 1)) :
    (threeTables adj cell).WellFormed := by
  have hnode : ∀ {u}, u ∈ (threeTables adj cell).joinGraph.nodes ↔ u < 3 := by
    intro u
    simp only [threeTables, Finset.mem_insert, Finset.mem_singleton]
    omega
  have hlt : ∀ u v, v ∈ adj u → u < 3 := by
    intro u v hv
    by_contra hu
    rw [hout u (by omega)] at hv
    cases hv
  refine ⟨⟨?_, ?_⟩, ?_, rfl, le_succ 2, ?_, ?_, ?_, ?_, rfl⟩
  · intro u v hv
    exact hnode.mpr (hin u (hlt u v hv) v hv).1
  · intro u v hv
    exact (hin u (hlt u v hv) v hv).2
  · intro u hu v hv
    -- every table reaches the others through the second one
    have hto : Relation.ReflTransGen (fun a b => b ∈ adj a) u 1 := by
      rcases hhub u (hnode.mp hu) with rfl | h
      · exact .refl
      · exact .single h.1
    have hfrom : Relation.ReflTransGen (fun a b => b ∈ adj a) 1 v := by
      rcases hhub v (hnode.mp hv) with rfl | h
      · exact .refl
      · exact .single h.2
    exact hto.trans hfrom
  · intro v hv
    exact ⟨v, v, if_pos (hnode.mp hv), hnode.mp hv⟩
  · intro u hu v hv heq
    simp only [threeTables, hnode.mp hu, hnode.mp hv, if_true, map_some, Option.some.injEq] at heq
    exact heq
  · simp [threeTables]
  · intro u v
    simp only [threeTables, List.mem_map]
    constructor
    · intro hv
      exact ⟨_, ⟨v, StdSort.mem_ascending.mpr hv, rfl⟩, rfl⟩
    · intro h
      obtain ⟨_, ⟨m, hm, rfl⟩, rfl⟩ := h
      exact StdSort.mem_ascending.mp hm

theorem pathInput_wellFormed (cell : Nat → ℚ) :
    (threeTables pathAdj cell).WellFormed :=
  threeTables_wellFormed
    (fun u hu => by obtain ⟨k, rfl⟩ := Nat.exists_eq_add_of_le' hu; rfl)
    (by decide) (by decide)

theorem triangleInput_wellFormed (cell : Nat → ℚ) :
    (threeTables triangleAdj cell).WellFormed :=
  threeTables_wellFormed
    (fun u hu => by obtain ⟨k, rfl⟩ := Nat.exists_eq_add_of_le' hu; rfl)
    (by decide) (by decide)

/-- On a path of three tables with full sketches nothing is lost. -/
theorem plan_permutation_path :
    NothingLost ⟨1, 1⟩ 0 flatEstimator doubleMax
      (threeTables pathAdj fun _ => 1) (insertionSorts _) () :=
  (plan_permutation_iff (pathInput_wellFormed _)).mp
    ⟨[1, 2, 0], by decide +kernel, by decide, [(1, 0), (2, 1), (0, 2)],
      by decide, by decide, by decide⟩

/-- A triangle loses all its nodes in the adjustment, and a path whose
first table has an empty sketch loses that table. -/
theorem plan_loses_nodes :
    (threeTables triangleAdj fun _ => 1).WellFormed
      ∧ getNodeInputPermutation ⟨1, 1⟩ 0 flatEstimator doubleMax
          (threeTables triangleAdj fun _ => 1) (insertionSorts _) ()
        = some []
      ∧ (threeTables pathAdj fun n => if n = 0 then 0 else 1).WellFormed
      ∧ getNodeInputPermutation ⟨1, 1⟩ 1 flatEstimator doubleMax
          (threeTables pathAdj fun n => if n = 0 then 0 else 1)
          (insertionSorts _) ()
        = some [1, 2]
      ∧ ¬ ([] : List Nat).Perm (List.range 3)
      ∧ ¬ [1, 2].Perm (List.range 3) :=
  ⟨triangleInput_wellFormed _, by decide +kernel, pathInput_wellFormed _,
    by decide +kernel, by decide, by decide⟩

end Compass.JoinOrder
