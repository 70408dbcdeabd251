/-
When the re-adjusted plan still has all its nodes.

On a connected order of a symmetric graph the first loop swaps at most
the first two nodes (`scanFirst_spec`), after which every node but the
first has a neighbour before it (`Grounded`), and the loop only looks for
the last leaf (`scanRest_spec`). With a leaf somewhere, every node behind
the cut finds a neighbour and is inserted (`insertRest_spec`). Without
one the cut is at zero: the second loop starts from an empty plan and
inserts nothing, whatever the order.
-/
import Compass.Lib.Results
import Compass.JoinOrder.Proofs.Traversal

namespace Compass.JoinOrder

open GraphOrder List Option Nat

/-- A symmetric graph whose edges stay among its nodes. -/
structure Graph.Undirected (g : Graph) : Prop where
  closed : ∀ u v, v ∈ g.adj u → v ∈ g.nodes
  symm : ∀ u v, v ∈ g.adj u → u ∈ g.adj v

/-- Every node of the plan but the first has a neighbour before it. -/
def Grounded (g : Graph) (q : List Nat) : Prop :=
  ∀ l v r, q = l ++ v :: r → l ≠ [] → ∃ u ∈ l, u ∈ g.adj v

variable {g : Graph} {base : Nat} {q t : List Nat}

theorem grounded_of_connectedOrder (hg : g.Undirected)
    (h : ConnectedOrder g.adj base t) : Grounded g t := by
  intro l v r heq hl
  subst heq
  obtain ⟨-, u, hu, hadj⟩ := h.next hl
  exact ⟨u, hu, hg.symm u v hadj⟩

theorem Grounded.swap {a b : Nat} {rest : List Nat} (hg : g.Undirected)
    (h : Grounded g (a :: b :: rest)) : Grounded g (b :: a :: rest) := by
  intro l v r hq hl
  match l with
  | [x] =>
    obtain ⟨rfl, rfl, -⟩ := hq
    obtain ⟨u, hu, hadj⟩ := h [a] b rest rfl (by simp)
    rw [mem_singleton] at hu
    exact ⟨b, by simp, hg.symm b a (hu ▸ hadj)⟩
  | x :: y :: l =>
    simp only [cons_append, cons.injEq] at hq
    obtain ⟨rfl, rfl, hrest⟩ := hq
    obtain ⟨u, hu, hadj⟩ := h (a :: b :: l) v r (by simp [hrest]) (by simp)
    refine ⟨u, ?_, hadj⟩
    simp only [mem_cons] at hu ⊢
    tauto

/-- The part of a grounded plan up to a position is grounded. -/
theorem Grounded.take (h : Grounded g q) (k : Nat) : Grounded g (q.take k) := by
  intro l v r hq hl
  refine h l v (r ++ q.drop k) ?_ hl
  calc q = q.take k ++ q.drop k := (take_append_drop k q).symm
    _ = l ++ v :: (r ++ q.drop k) := by rw [hq]; simp

/-- A node may stand anywhere behind one of its neighbours. -/
theorem Grounded.insert {p r : List Nat} {u v : Nat} (h : Grounded g (p ++ r))
    (hu : u ∈ p) (hadj : u ∈ g.adj v) : Grounded g (p ++ v :: r) := by
  intro l w s heq hl
  rcases append_eq_append_iff.1 heq with ⟨m, rfl, hvr⟩ | ⟨m, rfl, hws⟩
  · cases m with
    | nil =>
      obtain ⟨rfl, rfl⟩ := cons.inj hvr
      exact ⟨u, mem_append_left _ hu, hadj⟩
    | cons x m =>
      obtain ⟨rfl, rfl⟩ := cons.inj hvr
      obtain ⟨y, hy, hyw⟩ := h (p ++ m) w s (by simp)
        (append_ne_nil_of_left_ne_nil (ne_nil_of_mem hu) m)
      refine ⟨y, ?_, hyw⟩
      simp only [mem_append, mem_cons] at hy ⊢
      tauto
  · cases m with
    | nil =>
      obtain ⟨rfl, rfl⟩ := cons.inj hws
      rw [append_nil] at hu
      exact ⟨u, hu, hadj⟩
    | cons x m =>
      obtain ⟨rfl, rfl⟩ := cons.inj hws
      exact h l w (m ++ r) (by simp) hl

theorem Graph.find_of_mem {v : Nat} (hv : v ∈ g.nodes) :
    g.find v = some (g.adj v) :=
  if_pos hv

/-- The only neighbour of a leaf, as the code reads it. -/
theorem head_ascending_leaf {v u : Nat} (hleaf : (g.adj v).card = 1)
    (hu : u ∈ g.adj v) : (StdSort.ascending (g.adj v)).head? = some u := by
  obtain ⟨w, hw⟩ := Finset.card_eq_one.mp hleaf
  have huw : u = w := by
    rw [hw, Finset.mem_singleton] at hu
    exact hu
  rw [hw, huw]
  rfl

-- ======== the first loop

/-- Behind the first node the loop never swaps: it moves the cut behind
each leaf it meets. -/
theorem scanRest_spec (hground : Grounded g q) (hmem : ∀ v ∈ q, v ∈ g.nodes)
    (r : List Nat) : ∀ (l : List Nat) (cut : Nat), q = l ++ r → l ≠ [] →
      cut ≤ l.length → ∃ cut', (range' l.length r.length).foldlM (scanLeaf g)
          ⟨q, l.toFinset, cut⟩ = some ⟨q, q.toFinset, cut'⟩
        ∧ cut ≤ cut' ∧ cut' ≤ q.length
        ∧ (∀ v ∈ q.drop (max cut' l.length), (g.adj v).card ≠ 1)
        ∧ (cut' = 0 → ∀ v ∈ r, (g.adj v).card ≠ 1)
        ∧ (cut < cut' → ∃ v ∈ r, (g.adj v).card = 1) := by
  induction r with
  | nil =>
    intro l cut hq hl hcut
    rw [append_nil] at hq
    subst hq
    exact ⟨cut, rfl, le_refl _, hcut, by simp [max_eq_right hcut],
      by simp, fun hlt => absurd hlt (lt_irrefl _)⟩
  | cons v r ih =>
    intro l cut hq hl hcut
    have hq' : q = (l ++ [v]) ++ r := by simp [hq]
    have hget : q[l.length]? = some v := by simp [hq]
    have hfind := Graph.find_of_mem (hmem v (by simp [hq]))
    obtain ⟨u, hu, hadj⟩ := hground l v r hq hl
    have hset : insert v l.toFinset = (l ++ [v]).toFinset := by
      simp [toFinset_append]
    have hlen : (l ++ [v]).length = l.length + 1 := by simp
    rw [length_cons, range'_succ, foldlM_cons]
    by_cases hleaf : (g.adj v).card = 1
    · have hstep : scanLeaf g ⟨q, l.toFinset, cut⟩ l.length
          = some ⟨q, (l ++ [v]).toFinset, l.length + 1⟩ := by
        simp [scanLeaf, hget, hfind, hleaf, head_ascending_leaf hleaf hadj, hu, ← hset]
      rw [hstep]
      obtain ⟨cut', hfold, hle, hle', hnot, -, -⟩ :=
        ih (l ++ [v]) (l.length + 1) hq' (by simp) (by rw [hlen])
      rw [hlen] at hfold hnot
      refine ⟨cut', hfold, by omega, hle', ?_, by omega,
        fun _ => ⟨v, by simp, hleaf⟩⟩
      rwa [max_eq_left (by omega)] at hnot ⊢
    · have hstep : scanLeaf g ⟨q, l.toFinset, cut⟩ l.length
          = some ⟨q, (l ++ [v]).toFinset, cut⟩ := by
        simp [scanLeaf, hget, hfind, hleaf, ← hset]
      rw [hstep]
      obtain ⟨cut', hfold, hle, hle', hnot, hzero, hmore⟩ :=
        ih (l ++ [v]) cut hq' (by simp) (by omega)
      rw [hlen] at hfold hnot
      refine ⟨cut', hfold, hle, hle', ?_, ?_, fun hlt => ?_⟩
      · intro w hw
        by_cases hc : l.length < cut'
        · exact hnot w (by rwa [max_eq_left (by omega)] at hw ⊢)
        · rw [max_eq_right (by omega), hq, drop_left] at hw
          rcases mem_cons.1 hw with rfl | hw
          · exact hleaf
          · refine hnot w ?_
            rw [max_eq_right (by omega), hq', ← hlen, drop_left]
            exact hw
      · intro h0 w hw
        rcases mem_cons.1 hw with rfl | hw
        · exact hleaf
        · exact hzero h0 w hw
      · obtain ⟨w, hw, hwleaf⟩ := hmore hlt
        exact ⟨w, mem_cons_of_mem _ hw, hwleaf⟩

/-- The first loop: the plan keeps its nodes, and the cut is at zero only
when there is no leaf. -/
theorem scanLeaves_spec (hg : g.Undirected) {a b : Nat} {rest : List Nat}
    (h : ConnectedOrder g.adj base (a :: b :: rest))
    (hmem : ∀ v ∈ a :: b :: rest, v ∈ g.nodes) : ∃ q cut,
      (range (a :: b :: rest).length).foldlM (scanLeaf g)
        ⟨a :: b :: rest, ∅, 0⟩ = some ⟨q, q.toFinset, cut⟩
      ∧ q.Perm (a :: b :: rest) ∧ Grounded g q ∧ cut ≤ q.length
      ∧ (∀ v ∈ q.drop (max cut 1), (g.adj v).card ≠ 1)
      ∧ (cut = 0 → ∀ v ∈ q, (g.adj v).card ≠ 1)
      ∧ (0 < cut → ∃ v ∈ q, (g.adj v).card = 1) := by
  have hground := grounded_of_connectedOrder hg h
  have hfind := Graph.find_of_mem (hmem a (by simp))
  obtain ⟨u, hu, hadj⟩ := hground [a] b rest rfl (by simp)
  rw [mem_singleton] at hu
  have hba : b ∈ g.adj a := hg.symm b a (hu ▸ hadj)
  rw [range_eq_range', length_cons, range'_succ, foldlM_cons]
  by_cases hleaf : (g.adj a).card = 1
  · -- the leaf comes first: its neighbour takes its place
    have hstep : scanLeaf g ⟨a :: b :: rest, ∅, 0⟩ 0
        = some ⟨b :: a :: rest, [b].toFinset, 1⟩ := by
      simp [scanLeaf, hfind, hleaf, head_ascending_leaf hleaf hba, swapFirst]
    rw [hstep]
    obtain ⟨cut, hfold, hle, hle', hnot, -, -⟩ := scanRest_spec
      (hground.swap hg) (q := b :: a :: rest) (fun v hv =>
        hmem v (by simp only [mem_cons] at hv ⊢; tauto)) (a :: rest) [b] 1
      rfl (by simp) (by simp)
    refine ⟨b :: a :: rest, cut, hfold, Perm.swap a b rest,
      hground.swap hg, hle', hnot, by omega, fun _ => ⟨a, by simp, hleaf⟩⟩
  · have hstep : scanLeaf g ⟨a :: b :: rest, ∅, 0⟩ 0
        = some ⟨a :: b :: rest, [a].toFinset, 0⟩ := by
      simp [scanLeaf, hfind, hleaf]
    rw [hstep]
    obtain ⟨cut, hfold, hle, hle', hnot, hzero, hmore⟩ := scanRest_spec hground
      (q := a :: b :: rest) hmem (b :: rest) [a] 0 rfl (by simp) (by simp)
    refine ⟨a :: b :: rest, cut, hfold, List.Perm.refl _, hground, hle', hnot, ?_, ?_⟩
    · intro h0 v hv
      rcases mem_cons.1 hv with rfl | hv
      · exact hleaf
      · exact hzero h0 v hv
    · intro hpos
      obtain ⟨v, hv, hvleaf⟩ := hmore hpos
      exact ⟨v, mem_cons_of_mem _ hv, hvleaf⟩

-- ======== the second loop

theorem closestAdjNode_some {adjacent connected : Finset Nat}
    {plan : List Nat} {u : Nat} (hu : u ∈ plan) (hconn : u ∈ connected) (hadj : u ∈ adjacent) :
    ∃ i, ∃ hi : i < plan.length, closestAdjNode adjacent connected plan = some i
      ∧ plan[i] ∈ adjacent := by
  unfold closestAdjNode
  obtain ⟨k, hk, hget⟩ := mem_iff_getElem.mp hu
  have hmem : (u, k) ∈ plan.zipIdx.filter fun n =>
      n.1 ∈ connected ∧ n.1 ∈ adjacent := by
    rw [mem_filter]
    refine ⟨mem_zipIdx_iff_getElem?.mpr ?_, by simp [hconn, hadj]⟩
    rw [getElem?_eq_getElem hk, hget]
  obtain ⟨x, hx⟩ := ne_none_iff_exists'.mp
    (mt getLast?_eq_none_iff.mp (ne_nil_of_mem hmem))
  obtain ⟨hzip, hboth⟩ := mem_filter.mp (mem_of_getLast? hx)
  obtain ⟨hi, hxi⟩ :=
    List.getElem?_eq_some_iff.mp (mem_zipIdx_iff_getElem?.mp hzip)
  refine ⟨x.2, hi, by rw [hx]; rfl, ?_⟩
  rw [hxi]
  exact (of_decide_eq_true hboth).2

/-- Behind the cut every node finds a neighbour and is inserted behind it. -/
theorem insertRest_spec (hground : Grounded g q) (hmem : ∀ v ∈ q, v ∈ g.nodes) (r : List Nat) :
    ∀ (l plan : List Nat), q = l ++ r → l ≠ [] → plan.Perm l → Grounded g plan →
      (∀ v ∈ r, (g.adj v).card ≠ 1) →
      ∃ p, r.foldlM (insertNode g) (plan, l.toFinset) = some p
        ∧ p.1.Perm q ∧ Grounded g p.1 := by
  induction r with
  | nil =>
    intro l plan hq hl hperm hplan _
    rw [append_nil] at hq
    exact ⟨(plan, l.toFinset), rfl, hq ▸ hperm, hplan⟩
  | cons v r ih =>
    intro l plan hq hl hperm hplan hnot
    have hfind := Graph.find_of_mem (hmem v (by simp [hq]))
    obtain ⟨u, hu, hadj⟩ := hground l v r hq hl
    obtain ⟨i, hi, hclosest, hnext⟩ := closestAdjNode_some
      (hperm.mem_iff.mpr hu) (mem_toFinset.mpr hu) hadj
    have hstep : insertNode g (plan, l.toFinset) v
        = some (plan.insertIdx (i + 1) v, (l ++ [v]).toFinset) := by
      simp [insertNode, hfind, hnot v (by simp), hclosest, toFinset_append]
    rw [foldlM_cons, hstep]
    refine ih (l ++ [v]) _ (by simp [hq]) (by simp) ?_ ?_
      (fun w hw => hnot w (by simp [hw]))
    · have hinsert := perm_insertIdx v plan hi
      exact hinsert.trans
        ((hperm.cons v).trans (perm_append_singleton v l).symm)
    · obtain ⟨front, back, rfl, hlen, hinsert⟩ :=
        exists_of_modifyTailIdx (cons v) (succ_le_of_lt hi)
      have hfront : i < front.length := by omega
      rw [getElem_append_left hfront] at hnext
      rw [insertIdx, hinsert]
      exact hplan.insert (getElem_mem hfront) hnext

/-- From an empty plan nothing is ever inserted. -/
theorem insertNone_spec (hmem : ∀ v ∈ q, v ∈ g.nodes) :
    ∀ connected : Finset Nat, ∃ p,
      q.foldlM (insertNode g) ([], connected) = some p ∧ p.1 = [] := by
  induction q with
  | nil => exact fun connected => ⟨([], connected), rfl, rfl⟩
  | cons v q ih =>
    intro connected
    have hfind := Graph.find_of_mem (hmem v (by simp))
    have hstep : insertNode g ([], connected) v
        = some ([], insert v connected) := by
      simp [insertNode, hfind, closestAdjNode]
    rw [foldlM_cons, hstep]
    exact ih (fun w hw => hmem w (by simp [hw])) _

-- ======== lengths

theorem swapFirst_length {l l' : List Nat} (h : swapFirst l = some l') :
    l'.length = l.length := by
  unfold swapFirst at h
  split at h
  · cases h
    rfl
  · cases h

theorem scanLeaf_length {s s' : LeafScan} {i : Nat}
    (h : scanLeaf g s i = some s') : s'.plan.length = s.plan.length := by
  simp only [scanLeaf, bind_eq_bind, bind_eq_some_iff] at h
  obtain ⟨node, -, adjacent, -, h⟩ := h
  split at h
  · simp only [bind_eq_some_iff] at h
    obtain ⟨conn, -, h⟩ := h
    split at h
    · simp only [bind_eq_some_iff] at h
      obtain ⟨plan, hplan, current, -, h⟩ := h
      cases h
      cases hplan
      rfl
    · simp only [bind_eq_some_iff] at h
      obtain ⟨plan, hplan, current, -, h⟩ := h
      cases h
      exact swapFirst_length hplan
  · cases h
    rfl

theorem insertNode_length {acc acc' : List Nat × Finset Nat} {v : Nat}
    (h : insertNode g acc v = some acc') :
    acc'.1.length ≤ acc.1.length + 1 := by
  simp only [insertNode, bind_eq_bind, bind_eq_some_iff] at h
  obtain ⟨adjacent, -, h⟩ := h
  cases h
  split
  · split
    · exact length_insertIdx_le_succ
    · exact le_succ _
  · exact le_succ _

/-- The plan never gets longer. -/
theorem adjustPlan_length {plan : List Nat}
    (h : adjustPlanForMapD g t = some plan) : plan.length ≤ t.length := by
  have hinsert : ∀ (vs : List Nat) (acc acc' : List Nat × Finset Nat),
      vs.foldlM (insertNode g) acc = some acc' →
        acc'.1.length ≤ acc.1.length + vs.length := by
    intro vs
    induction vs with
    | nil =>
      intro acc acc' h
      cases h
      exact le_refl _
    | cons v vs ih =>
      intro acc acc' h
      obtain ⟨acc₁, h₁, h⟩ := OptionFold.foldlM_cons_eq_some.mp h
      have h₂ := ih acc₁ acc' h
      have h₃ := insertNode_length h₁
      rw [length_cons]
      omega
  simp only [adjustPlanForMapD, bind_eq_bind, bind_eq_some_iff] at h
  obtain ⟨s, hs, r, hr, h⟩ := h
  cases h
  have h₁ : s.plan.length = t.length :=
    OptionFold.foldlM_preserves (P := fun s => s.plan.length = t.length)
      (fun _ _ _ _ hlen h => (scanLeaf_length h).trans hlen) rfl hs
  have h₂ := hinsert _ _ _ hr
  rw [length_take, length_drop] at h₂
  omega

-- ======== the plan

/-- On a connected order of at least two nodes the re-adjustment permutes
the plan when the graph has a leaf among its nodes, and empties it
otherwise. -/
theorem adjustPlan_spec (hg : g.Undirected) (h : ConnectedOrder g.adj base t) (h2 : 2 ≤ t.length)
    (hmem : ∀ v ∈ t, v ∈ g.nodes) :
    ∃ plan, adjustPlanForMapD g t = some plan
      ∧ ((∃ v ∈ t, (g.adj v).card = 1) → plan.Perm t ∧ Grounded g plan)
      ∧ ((∀ v ∈ t, (g.adj v).card ≠ 1) → plan = []) := by
  match t with
  | a :: b :: rest =>
    obtain ⟨q, cut, hfold, hperm, hground, hle, hnot, hzero, hpos⟩ :=
      scanLeaves_spec hg h hmem
    have hqmem : ∀ v ∈ q, v ∈ g.nodes :=
      fun v hv => hmem v (hperm.mem_iff.mp hv)
    have hplan : adjustPlanForMapD g (a :: b :: rest)
        = ((q.drop cut).foldlM (insertNode g)
            (q.take cut, (q.take cut).toFinset)).map Prod.fst := by
      unfold adjustPlanForMapD
      rw [hfold]
      cases h : (q.drop cut).foldlM (insertNode g)
        (q.take cut, (q.take cut).toFinset) <;> simp [h]
    rcases Nat.eq_zero_or_pos cut with rfl | hcut
    · obtain ⟨p, hrest, hnil⟩ := insertNone_spec hqmem ∅
      refine ⟨p.1, ?_, ?_, fun _ => hnil⟩
      · rw [hplan]
        simpa using congrArg (Option.map Prod.fst) hrest
      · intro h
        obtain ⟨v, hv, hleaf⟩ := h
        exact absurd hleaf (hzero rfl v (hperm.mem_iff.mpr hv))
    · have hne : q.take cut ≠ [] := by
        intro hnil
        have hlen := congrArg length hnil
        rw [length_take, Nat.min_eq_left hle, length_nil] at hlen
        omega
      rw [Nat.max_eq_left hcut] at hnot
      obtain ⟨p, hrest, hpq, hp⟩ := insertRest_spec hground hqmem (q.drop cut)
        (q.take cut) (q.take cut) (take_append_drop cut q).symm hne
        (List.Perm.refl _) (hground.take cut) hnot
      refine ⟨p.1, ?_, fun _ => ⟨hpq.trans hperm, hp⟩, fun hno => ?_⟩
      · rw [hplan, hrest]
        rfl
      · obtain ⟨v, hv, hleaf⟩ := hpos hcut
        exact absurd hleaf (hno v (hperm.mem_iff.mp hv))

/-- A join graph: no node is joined with itself. -/
structure Graph.IsJoinGraph (g : Graph) : Prop extends g.Undirected where
  loopless : ∀ v, v ∉ g.adj v

/-- A leaf has its neighbour next to it in the graph. -/
theorem two_le_length_of_leaf (hg : g.IsJoinGraph)
    (hall : ∀ v, v ∈ t ↔ v ∈ g.nodes) {v : Nat} (hv : v ∈ g.nodes)
    (hleaf : (g.adj v).card = 1) : 2 ≤ t.length := by
  obtain ⟨u, hu⟩ := Finset.card_eq_one.mp hleaf
  have huv : u ∈ g.adj v := by simp [hu]
  have hut : u ∈ t := (hall u).mpr (hg.closed v u huv)
  have hne : u ≠ v := by
    intro heq
    subst heq
    exact hg.loopless u huv
  match t, (hall v).mpr hv, hut with
  | [w], hvw, huw =>
    rw [mem_singleton] at hvw huw
    exact absurd (huw.trans hvw.symm) hne
  | _ :: _ :: _, _, _ => simp

/-- With a leaf in the graph, a complete traversal comes out as an order
of the same nodes without cross products. -/
theorem adjustPlan_feasible (hg : g.IsJoinGraph) (hleaf : ∃ v ∈ g.nodes, (g.adj v).card = 1)
    (ht : ConnectedOrder g.adj base t) (hall : ∀ v, v ∈ t ↔ v ∈ g.nodes) :
    ∃ plan, adjustPlanForMapD g t = some plan ∧ plan.Perm t
      ∧ ∀ l v r, plan = l ++ v :: r → l ≠ [] → ∃ u ∈ l, u ∈ g.adj v := by
  obtain ⟨v, hv, hcard⟩ := hleaf
  obtain ⟨plan, hplan, hsome, -⟩ := adjustPlan_spec hg.toUndirected ht
    (two_le_length_of_leaf hg hall hv hcard) (fun w hw => (hall w).mp hw)
  obtain ⟨hperm, hground⟩ := hsome ⟨v, (hall v).mpr hv, hcard⟩
  exact ⟨plan, hplan, hperm, hground⟩

/-- A triangle 1, 2, 3 with the leaf 4 at 3. -/
def kiteGraph : Graph where
  nodes := {1, 2, 3, 4}
  adj v := if v = 1 then {2, 3} else if v = 2 then {1, 3}
    else if v = 3 then {1, 2, 4} else if v = 4 then {3} else ∅

theorem adjustPlan_feasible_kite :
    ConnectedOrder kiteGraph.adj 4 [4, 3, 1, 2]
      ∧ ∃ plan, adjustPlanForMapD kiteGraph [4, 3, 1, 2] = some plan
        ∧ plan.Perm [4, 3, 1, 2]
        ∧ ∀ l v r, plan = l ++ v :: r → l ≠ [] → ∃ u ∈ l, u ∈ kiteGraph.adj v := by
  have hadj : ∀ u v, v ∈ kiteGraph.adj u → u ∈ kiteGraph.nodes ∧ v ∈ kiteGraph.nodes := by
    intro u v h
    unfold kiteGraph at h ⊢
    dsimp only at h ⊢
    split_ifs at h <;> simp_all
    all_goals omega
  have hsymm : ∀ u ∈ kiteGraph.nodes, ∀ v ∈ kiteGraph.nodes,
      v ∈ kiteGraph.adj u → u ∈ kiteGraph.adj v := by decide
  have hloop : ∀ v ∈ kiteGraph.nodes, v ∉ kiteGraph.adj v := by decide
  have hgraph : kiteGraph.IsJoinGraph :=
    ⟨⟨fun u v h => (hadj u v h).2, fun u v h => hsymm u (hadj u v h).1 v (hadj u v h).2 h⟩,
      fun v h => hloop v (hadj v v h).1 h⟩
  have ht : ConnectedOrder kiteGraph.adj 4 [4, 3, 1, 2] :=
    .append (u := 1) (.append (u := 3) (.append (u := 4) .base
      (by decide) (by decide) (by decide)) (by decide) (by decide) (by decide))
      (by decide) (by decide) (by decide)
  exact ⟨ht, adjustPlan_feasible hgraph ⟨4, by decide, by decide⟩ ht
    (by intro v; simp [kiteGraph]; omega)⟩

end Compass.JoinOrder
