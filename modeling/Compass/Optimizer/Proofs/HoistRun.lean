/-
Runs of the hoisting pass.

`hoistFrom_hoisted` is the step: from a cross join with a filter above
it, whose condition splits cleanly, the rewriting succeeds and leaves a
plan with the same rows outside the way. By induction over the nodes a
run that meets only such joins succeeds and keeps the rows of every node
that is no join.
-/
import Compass.Optimizer.Proofs.Hoist

namespace Compass.Optimizer

open Compass.PushDown List Nat
open Compass.RelAlg
open Compass.LeftDeep (JoinType Row Database column holds)
open Plan RelAlgNode

variable {D : Type} {P P' : Plan D}

-- ======== after a rewriting

/-- What a step leaves behind. -/
structure Hoisted [DecidableEq D] (P P' : Plan D) (E : Engine D) (db : Database D)
    (j : Nat) : Prop where
  wellFormed : P'.WellFormed
  fits : P'.Fits db
  typed : ∀ i input c, ⟨i, .filter input c⟩ ∈ P' → wellTyped c = true
  joins : ∀ k ty l r c, k ≠ j → ⟨k, .join ty l r c⟩ ∈ P' → ⟨k, .join ty l r c⟩ ∈ P
  kinds : ∀ n ∈ P, ∃ n' ∈ P', n'.id = n.id ∧ n'.isJoin = n.isJoin
  rows : ∀ n ∈ P, n.isJoin = false → P'.rows E db n.id = P.rows E db n.id

section

variable [DecidableEq D] {E : Engine D} {db : Database D}

/-- A step that changes nothing. -/
theorem Hoisted.same (hwf : P.WellFormed) (hfits : P.Fits db)
    (htyped : ∀ i input c, ⟨i, .filter input c⟩ ∈ P → wellTyped c = true) (j : Nat) :
    Hoisted P P E db j :=
  { wellFormed := hwf
    fits := hfits
    typed := htyped
    joins := fun _ _ _ _ _ _ h => h
    kinds := fun n hn => ⟨n, hn, rfl, rfl⟩
    rows := fun _ _ _ => rfl }

variable {j filter lhs rhs : Nat} {way : List Nat} {H R cond : Rex D}

/-- The plan with both conditions replaced. -/
theorem hoisted_of_split (hwf : P.WellFormed) (hfits : P.Fits db)
    (htyped : ∀ i input c, ⟨i, .filter input c⟩ ∈ P → wellTyped c = true)
    (hsingle : SingleUsers P filter j way)
    (hjoins : ∀ u ∈ way, ∃ l r, P.sides u = some (l, r)) (hopen : WayOpen P j way)
    (hj : ⟨j, .join .INNER lhs rhs (.literal (.bool true))⟩ ∈ P)
    (hf : ⟨filter, .filter (way.getLastD j) cond⟩ ∈ P)
    (hH : ∀ p ∈ H.inputs, SideScope P.sizes lhs rhs p)
    (hR : ∀ p ∈ R.inputs, p ∈ cond.inputs) (hRtyped : wellTyped R = true)
    (hsplit : ∀ row ∈ P.rows E db (way.getLastD j),
      (holdsAt E P.sizes lhs rhs H (wayOffset P j way) row
          && holds E.toInterp (inputColumn P (way.getLastD j) row) R)
        = holds E.toInterp (inputColumn P (way.getLastD j) row) cond) :
    Hoisted P (setCondition (setCondition P j H) filter R) E db j := by
  have hne : j ≠ filter := by
    intro h
    subst h
    have heq := hwf.ordered.eq_of_key hj hf rfl
    injection heq with _ hbody
    cases hbody
  have hsides := sides_of_join hwf.ordered hj
  -- the new conditions read what the old ones could
  have hHscope : ConditionScope P j H := by
    constructor
    · intro input c' hin
      have heq := hwf.ordered.eq_of_key hj hin rfl
      injection heq with _ hbody
      cases hbody
    · intro ty l r c' _ p hp
      unfold InScope
      rw [hsides]
      exact hH p hp
  have hRscope : ConditionScope (setCondition P j H) filter R := by
    constructor
    · intro input c' hin p hp
      rw [setCondition_inScope]
      rcases mem_setCondition_filter hin with hin | ⟨heq, -⟩
      · have heq := hwf.ordered.eq_of_key hf hin rfl
        injection heq with _ hbody
        injection hbody with hinput _
        rw [← hinput]
        exact hwf.inScope _ hf p (hR p hp)
      · exact absurd heq (Ne.symm hne)
    · intro ty l r c' hin
      rcases mem_setCondition_join hin with hin | ⟨heq, -⟩
      · have heq := hwf.ordered.eq_of_key hf hin rfl
        injection heq with _ hbody
        cases hbody
      · exact absurd heq (Ne.symm hne)
  have hwf' := setCondition_wellFormed (setCondition_wellFormed hwf hHscope) hRscope
  have hplan : ∀ n t, nodeRows (setCondition (setCondition P j H) filter R) E db n t
      = nodeRows P E db n t := fun n t => by
    rw [nodeRows_setCondition, nodeRows_setCondition]
  have hkept : ∀ n ∈ P, n.id ≠ j → n.id ≠ filter →
      n ∈ setCondition (setCondition P j H) filter R := fun n hn hnj hnf =>
    mem_setCondition_of_ne (mem_setCondition_of_ne hn hnj) hnf
  have hj' : ⟨j, .join .INNER lhs rhs H⟩
      ∈ setCondition (setCondition P j H) filter R :=
    mem_setCondition_of_ne (mem_setCondition.mpr ⟨_, hj, resetCondition_join⟩) hne
  have hf' : ⟨filter, .filter (way.getLastD j) R⟩
      ∈ setCondition (setCondition P j H) filter R :=
    mem_setCondition.mpr ⟨_, mem_setCondition_of_ne hf (Ne.symm hne), resetCondition_filter⟩
  refine ⟨hwf', setCondition_fits (setCondition_fits hfits), ?_, ?_, ?_, ?_⟩
  · intro i input c hin
    rcases mem_setCondition_filter hin with hin | ⟨-, rfl, -⟩
    · rcases mem_setCondition_filter hin with hin | ⟨rfl, -, c₀, hc₀⟩
      · exact htyped i input c hin
      · have heq := hwf.ordered.eq_of_key hj hc₀ rfl
        injection heq with _ hbody
        cases hbody
    · exact hRtyped
  · intro k ty l r c hk hin
    rcases mem_setCondition_join hin with hin | ⟨-, c₀, hc₀⟩
    · rcases mem_setCondition_join hin with hin | ⟨heq, -⟩
      · exact hin
      · exact absurd heq hk
    · exfalso
      rcases mem_setCondition_join hc₀ with hin | ⟨heq, -⟩
      · have heq := hwf.ordered.eq_of_key hf hin rfl
        injection heq with _ hbody
        cases hbody
      · exact hne heq.symm
  · intro n hn
    refine ⟨_, mem_setCondition.mpr ⟨_, mem_setCondition.mpr ⟨n, hn, rfl⟩, rfl⟩, ?_, ?_⟩
    · simp
    · simp
  · intro n hn hnojoin
    apply rows_hoisted hwf hfits hwf'.ordered hplan hkept hsingle hopen hj hj' hf hf' hH
      hsplit n hn
    -- the nodes of the way are joins
    have hway : ∀ u ∈ j :: way, ∃ ty l r c, ⟨u, .join ty l r c⟩ ∈ P := by
      intro u hu
      rcases mem_cons.mp hu with rfl | hu
      · exact ⟨_, _, _, _, hj⟩
      · obtain ⟨l, r, hlr⟩ := hjoins u hu
        obtain ⟨ty, c, hmem⟩ := join_of_sides hlr
        exact ⟨ty, l, r, c, hmem⟩
    intro hmem
    obtain ⟨ty, l, r, c, hin⟩ := hway n.id hmem
    rw [hwf.ordered.eq_of_key hn hin rfl] at hnojoin
    cases hnojoin

end

-- ======== the source

variable {us : List Nat}

/-- Up a way that stays on the left, the last join has the one before it
as its left side, and nodes get wider. -/
theorem sides_last (hord : P.Ordered) {u v : Nat} (h : onTheLeft P u (v :: us) = true) :
    ∃ r, P.sides ((v :: us).getLastD u) = some ((u :: v :: us).dropLast.getLastD u, r)
      ∧ P.sizes u ≤ P.sizes ((u :: v :: us).dropLast.getLastD u) := by
  induction us generalizing u v with
  | nil =>
    obtain ⟨⟨ty, r, c, hv⟩, -⟩ := join_of_onTheLeft h
    exact ⟨r, sides_of_join hord hv, le_refl _⟩
  | cons w us ih =>
    obtain ⟨⟨ty, r, c, hv⟩, hrest⟩ := join_of_onTheLeft h
    obtain ⟨r', hsides, hle⟩ := ih hrest
    have hsize : P.sizes v = P.sizes u + P.sizes r := sizes_eq hord hv
    have hlast : (u :: v :: w :: us).dropLast.getLastD u
        = (v :: w :: us).dropLast.getLastD v := by
      simp only [dropLast_cons_cons, getLastD_cons]
    rw [getLastD_cons, hlast]
    exact ⟨r', hsides, by omega⟩

/-- The later joins of a way do not have the join as a side. -/
theorem sum_sideOffset (hord : P.Ordered) {j f u : Nat} (hsingle : SingleUsers P f j (u :: us)) :
    ((u :: us).map (sideOffset P j)).sum = sideOffset P j u := by
  obtain ⟨rank, hrank⟩ := hord.exists_rank
  have hzero : ∀ v ∈ us, sideOffset P j v = 0 := by
    intro v hv
    unfold sideOffset
    split
    · next l r hsides =>
        refine if_neg ?_
        intro hr
        obtain ⟨ty, c, hmem⟩ := join_of_sides hsides
        have huser : v ∈ P.users j :=
          Plan.mem_users.mpr ⟨_, hmem, by simp [inputs, hr], rfl⟩
        rw [hsingle.1, mem_singleton] at huser
        -- the way does not come back to its first join
        subst huser
        obtain ⟨w, ws, rfl⟩ : ∃ w ws, us = w :: ws := by
          cases us with
          | nil => cases hv
          | cons w ws => exact ⟨w, ws, rfl⟩
        have hlt := rank_lt_user hrank hsingle.2.1
        have hle := rank_head_le hrank hsingle.2.2 v hv
        omega
    · rfl
  rw [map_cons, sum_cons, map_congr_left hzero]
  simp

/-- The side of the last join that the pass looks into, and where the
columns of the join are. -/
theorem hoistSource_spec (hwf : P.WellFormed) {j f u lhs rhs : Nat} {c : Rex D}
    (hj : ⟨j, .join .INNER lhs rhs c⟩ ∈ P) (hsingle : SingleUsers P f j (u :: us))
    (hopen : WayOpen P j (u :: us)) :
    ∃ src0 src1, P.sides ((u :: us).getLastD j) = some (src0, src1)
      ∧ (if sideOffset P j u < P.sizes src0 then src0 else src1)
          = (hoistSource P j (u :: us)).1
      ∧ (if sideOffset P j u < P.sizes src0 then sideOffset P j u
          else sideOffset P j u - P.sizes src0) = (hoistSource P j (u :: us)).2
      ∧ ∀ (row : Row D) (i : Nat), sideColumn P.sizes src0 src1 row (hoistSource P j (u :: us)).1
              ((hoistSource P j (u :: us)).2 + i)
            = column (row.drop (wayOffset P j (u :: us))) i := by
  have hpos : 0 < P.sizes j := hwf.nonempty _ hj
  have hkeeps := hopen.1
  unfold keepsRows at hkeeps
  split at hkeeps
  · next id ty l r cond hnode =>
      obtain ⟨hn, rfl⟩ := mem_of_node? hnode
      have hsides := sides_of_join hwf.ordered hn
      have hne : l ≠ r := (hwf.inScope _ hn).1
      have hsizeu : P.sizes id = P.sizes l + P.sizes r :=
        sizes_eq hwf.ordered hn
      have hoff : sideOffset P j id = if r = j then P.sizes l else 0 :=
        sideOffset_of_join hsides
      have hside : j = l ∨ j = r := by
        have hmem : id ∈ P.users j := by simp [hsingle.1]
        obtain ⟨m, hm, hin, hid⟩ := Plan.mem_users.mp hmem
        rw [hwf.ordered.eq_of_key hm hn hid] at hin
        simpa [inputs] using hin
      cases us with
      | nil =>
        refine ⟨l, r, hsides, ?_⟩
        show _ ∧ _ ∧ ∀ row i, sideColumn P.sizes l r row j (0 + i)
          = column (row.drop (sideOffset P j id)) i
        rw [hoff]
        rcases hside with rfl | rfl
        · rw [if_neg (Ne.symm hne), if_pos hpos, if_pos hpos]
          refine ⟨rfl, rfl, ?_⟩
          intro row i
          rw [sideColumn, if_pos rfl, drop_zero, Nat.zero_add]
        · rw [if_pos rfl, if_neg (Nat.lt_irrefl _), if_neg (Nat.lt_irrefl _)]
          refine ⟨rfl, Nat.sub_self _, ?_⟩
          intro row i
          rw [sideColumn, if_neg (Ne.symm hne), if_pos rfl, column_drop, Nat.zero_add]
      | cons v us =>
        obtain ⟨src1, hlast, hle⟩ := sides_last hwf.ordered hopen.2
        have hlt : sideOffset P j id < P.sizes ((id :: v :: us).dropLast.getLastD id) := by
          refine Nat.lt_of_lt_of_le ?_ hle
          rw [hoff, hsizeu]
          rcases hside with rfl | rfl
          · rw [if_neg (Ne.symm hne)]
            omega
          · rw [if_pos rfl]
            omega
        refine ⟨_, src1, by rwa [getLastD_cons], ?_, ?_, ?_⟩
        · rw [if_pos hlt]
          rfl
        · rw [if_pos hlt]
          rfl
        · intro row i
          rw [column_drop]
          exact if_pos rfl
  · cases hkeeps

-- ======== the step

theorem find_of_staysWhole {source base width : Nat} {cond : Rex D} (ht : wellTyped cond = true)
    (h : staysWhole source base width cond = true) :
    findHoistableConditions source base (base + width - 1) [] cond = [] := by
  unfold staysWhole at h
  rw [Bool.and_eq_true, List.isEmpty_iff] at h
  have hfind := @findHoistableConditions_eq_pieces D source base _ [] cond ht h.1
  rw [h.2] at hfind
  exact map_eq_nil_iff.1 hfind

/-- The paths that the pass removes are those of the conditions found. -/
theorem pathsOf_find {source first last : Nat} (cond : Rex D) :
    PathsOf source first last
      ((findHoistableConditions source first last [] cond).reduceOption.map CondPtr.path)
      [] cond := by
  intro q
  simp only [nil_append, mem_map, reduceOption_mem_iff]

section

variable [DecidableEq D] {E : Engine D} {db : Database D} {j filter lhs rhs : Nat}
  {way : List Nat}

/-- Hoisting from the filter above a join succeeds and loses nothing. -/
theorem hoistFrom_hoisted (hwf : P.WellFormed) (hfits : P.Fits db)
    (htyped : ∀ i input c, ⟨i, .filter input c⟩ ∈ P → wellTyped c = true)
    (hj : ⟨j, .join .INNER lhs rhs (.literal (.bool true))⟩ ∈ P)
    (hchain : chainUp P P.length j = some (way, filter)) (hclean : hoistsCleanly P j = true) :
    ∃ P', hoistFrom P j lhs rhs filter (way.map (sideOffset P j)).sum = some P'
      ∧ Hoisted P P' E db j := by
  obtain ⟨hsingle, hjoins, cond, hf⟩ := chainUp_spec hwf.ordered hchain
  have hlr : lhs ≠ rhs := (hwf.inScope _ hj).1
  have hsides := sides_of_join hwf.ordered hj
  have hsize : P.sizes j = P.sizes lhs + P.sizes rhs := sizes_eq hwf.ordered hj
  unfold hoistFrom
  rw [node?_of_mem hwf.ordered hf]
  dsimp only
  cases way with
  | nil =>
    have hscope : ∀ p ∈ cond.inputs, SideScope P.sizes lhs rhs p := by
      intro p hp
      have h := hwf.inScope _ hf p hp
      unfold InScope at h
      rw [show ([] : List Nat).getLastD j = j from rfl, hsides] at h
      exact h
    refine ⟨_, if_pos rfl, ?_⟩
    have hne : filter ≠ j := by
      intro h
      subst h
      have heq := hwf.ordered.eq_of_key hj hf rfl
      injection heq with _ hbody
      cases hbody
    rw [setCondition_comm hne]
    refine hoisted_of_split hwf hfits htyped hsingle hjoins trivial hj hf hscope nofun
      rfl ?_
    intro row _
    show (holds _ (sideColumn P.sizes lhs rhs (row.drop 0)) cond && true) = _
    have hcol : inputColumn P j row = sideColumn P.sizes lhs rhs row := by
      funext source index
      unfold RelAlg.inputColumn
      rw [hsides]
    rw [drop_zero, Bool.and_true]
    show _ = holds _ (inputColumn P j row) cond
    rw [hcol]
  | cons u us =>
    -- what the condition of the step says here
    have hparts : staysWhole (looksInto P j (u :: us)).1 (looksInto P j (u :: us)).2
          (P.sizes j) cond = true
        ∨ WayOpen P j (u :: us)
          ∧ splitsCleanly (hoistSource P j (u :: us)).1 (hoistSource P j (u :: us)).2
            (P.sizes j) cond = true := by
      unfold hoistsCleanly at hclean
      rw [node?_of_mem hwf.ordered hj] at hclean
      rw [hchain] at hclean
      dsimp only at hclean
      rw [node?_of_mem hwf.ordered hf] at hclean
      rw [Bool.or_eq_true, Bool.and_eq_true, Bool.and_eq_true] at hclean
      exact hclean
    have hmem : (u :: us).getLastD j ∈ u :: us := by
      rw [getLastD_cons]
      exact getLastD_mem_cons
    obtain ⟨rank, hrank⟩ := hwf.ordered.exists_rank
    have hsrc : (u :: us).getLastD j ≠ j := by
      intro h
      rw [h] at hmem
      have hle := rank_head_le hrank hsingle.2 j hmem
      have hlt := rank_lt_user hrank hsingle.1
      omega
    rcases hparts with hwhole | ⟨hopen, hsplit⟩
    · -- nothing is found, wherever the pass looks
      obtain ⟨src0, src1, hlast⟩ := hjoins _ hmem
      refine ⟨P, ?_, .same hwf hfits htyped j⟩
      unfold looksInto at hwhole
      rw [if_neg hsrc, hlast]
      rw [hlast] at hwhole
      dsimp only at hwhole ⊢
      rw [if_pos]
      split_ifs at hwhole ⊢ with hlt <;>
        rw [find_of_staysWhole (htyped _ _ _ hf) hwhole] <;> rfl
    obtain ⟨src0, src1, hlast, hsource, hbase, hcol⟩ :=
      hoistSource_spec hwf hj hsingle hopen
    rw [if_neg hsrc, hlast]
    dsimp only
    rw [sum_sideOffset hwf.ordered hsingle, hsource, hbase, hsize]
    rw [hsize] at hsplit
    generalize hsb : hoistSource P j (u :: us) = sb at hcol hsplit ⊢
    obtain ⟨source, base⟩ := sb
    split
    · exact ⟨P, rfl, .same hwf hfits htyped j⟩
    · next hnonempty =>
        have hwt := htyped _ _ _ hf
        have hcondsne : findHoistableConditions source base
            (base + (P.sizes lhs + P.sizes rhs) - 1) [] cond ≠ [] := by
          intro h
          rw [h] at hnonempty
          exact hnonempty rfl
        obtain ⟨H, hnew, hHscope, htruth⟩ :=
          newJoinCondition_of_splitsCleanly hlr hwt hsplit rfl hcondsne
        rw [hnew, Option.map_some]
        refine ⟨_, rfl, hoisted_of_split hwf hfits htyped hsingle hjoins hopen hj hf
          hHscope inputs_removeSubConditions (wellTyped_removeSubConditions hwt) ?_⟩
        intro row _
        have hin : inputColumn P ((u :: us).getLastD j) row
            = sideColumn P.sizes src0 src1 row := by
          funext s i
          unfold RelAlg.inputColumn
          rw [hlast]
        rw [hin, Bool.eq_iff_iff, Bool.and_eq_true, holds_true_iff, holds_true_iff]
        unfold holdsAt
        rw [holds_true_iff, htruth E.toInterp _ _ (fun i => hcol row i),
          removeSubConditions_yes_iff E.toInterp _ (pathsOf_find cond)]
        exact And.comm

/-- One node of the loop. -/
theorem hoistNode_hoisted {s : HoistState D} {i : Nat} (hwf : s.nodes.WellFormed)
    (hfits : s.nodes.Fits db)
    (htyped : ∀ i input c, ⟨i, .filter input c⟩ ∈ s.nodes → wellTyped c = true)
    (hcross : ∀ l r v, ⟨i, .join .INNER l r (.literal v)⟩ ∈ s.nodes → v = .bool true)
    (hclean : hoistsCleanly s.nodes i = true) :
    ∃ s', hoistNode s i = some s' ∧ Hoisted s.nodes s'.nodes E db i := by
  have hsame : Hoisted s.nodes s.nodes E db i := .same hwf hfits htyped i
  unfold hoistNode
  split
  · exact ⟨s, rfl, hsame⟩
  · dsimp only
    split
    · next id l r v hnode =>
        obtain ⟨hmem, rfl⟩ := mem_of_node? hnode
        obtain rfl := hcross l r v hmem
        cases hchain : chainUp s.nodes s.nodes.length id with
        | some found =>
          rw [walkUp_of_chainUp hchain, zero_add]
          obtain ⟨P', hP', hdone⟩ := hoistFrom_hoisted hwf hfits htyped hmem hchain hclean
          dsimp only
          rw [hP']
          exact ⟨_, rfl, hdone⟩
        | none =>
          obtain ⟨pre, post, hsplit⟩ := append_of_mem hmem
          have hlen : post.length < s.nodes.length := by
            rw [hsplit, length_append, length_cons]
            omega
          have hsome : walkUp s.nodes id s.nodes.length id 0 [id] ≠ none :=
            walkUp_isSome hwf.ordered hsplit hlen
          rcases walkUp_of_chainUp_none hchain with hwalk | ⟨seq, first, hwalk⟩
          · exact absurd hwalk hsome
          · rw [hwalk]
            exact ⟨_, rfl, hsame⟩
    · exact ⟨_, rfl, hsame⟩

/-- A run over nodes that can all be hoisted into. -/
theorem foldlM_hoistNode (is : List Nat) (s : HoistState D) (hnodup : is.Nodup)
    (hwf : s.nodes.WellFormed) (hfits : s.nodes.Fits db)
    (htyped : ∀ i input c, ⟨i, .filter input c⟩ ∈ s.nodes → wellTyped c = true)
    (hcross : ∀ i ∈ is, ∀ l r v, ⟨i, .join .INNER l r (.literal v)⟩ ∈ s.nodes →
      v = .bool true)
    (hclean : hoistsCleanlyFrom is s = true) :
    ∃ s', is.foldlM hoistNode s = some s'
      ∧ ∀ n ∈ s.nodes, n.isJoin = false →
          s'.nodes.rows E db n.id = s.nodes.rows E db n.id := by
  induction is generalizing s with
  | nil => exact ⟨s, rfl, fun _ _ _ => rfl⟩
  | cons i is ih =>
    obtain ⟨hfresh, hnodup'⟩ := nodup_cons.mp hnodup
    rw [hoistsCleanlyFrom, Bool.and_eq_true] at hclean
    obtain ⟨hhere, hafter⟩ := hclean
    obtain ⟨s', hs', hdone⟩ := hoistNode_hoisted (E := E) hwf hfits htyped
      (hcross i mem_cons_self) hhere
    rw [hs'] at hafter
    have hcross' : ∀ k ∈ is, ∀ l r v,
        ⟨k, .join .INNER l r (.literal v)⟩ ∈ s'.nodes → v = .bool true := by
      intro k hk l r v hmem
      have hne : k ≠ i := fun h => hfresh (h ▸ hk)
      exact hcross k (mem_cons_of_mem _ hk) l r v
        (hdone.joins k _ l r _ hne hmem)
    obtain ⟨s'', hs'', hrows⟩ :=
      ih s' hnodup' hdone.wellFormed hdone.fits hdone.typed hcross' hafter
    refine ⟨s'', ?_, ?_⟩
    · rw [foldlM_cons, hs']
      exact hs''
    · intro n hn hnojoin
      obtain ⟨n', hn', hid, hkind⟩ := hdone.kinds n hn
      rw [← hid, hrows n' hn' (hkind.trans hnojoin), hid]
      exact hdone.rows n hn hnojoin

/-- Conditions that are returned read columns of the range, and a plan
that the pass leaves computes what it did: the rows of every filter, and
of every other node that is no join, are the same. -/
theorem hoisting_preserves_filter :
    (∀ (source first last : Nat) (e : Rex D), wellTyped e = true →
        clean source first last e = true →
        ∀ c ∈ findHoistableConditions source first last [] e, ReadsRange source first last c)
      ∧ ∀ (P : Plan D) (E : Engine D) (db : Database D), P.WellFormed → P.Fits db →
          Conditions P → runsCleanly P = true →
          ∃ P', hoistFilterCondToCrossJoin P = some P'
            ∧ ∀ n ∈ P, n.isJoin = false → P'.rows E db n.id = P.rows E db n.id := by
  constructor
  · intro source first last e ht hclean c hc
    exact readsRange_of_find ht hclean hc
  · intro P E db hwf hfits hconds hclean
    have hnodup : (P.map RelAlgNode.id).Nodup :=
      pairwise_map.mpr (hwf.ordered.after.imp fun h => h.1)
    obtain ⟨s, hs, hrows⟩ := foldlM_hoistNode (E := E) (P.map RelAlgNode.id)
      { nodes := P, visited := [] } hnodup hwf hfits hconds.typed
      (fun i _ => hconds.cross i) hclean
    refine ⟨s.nodes, ?_, hrows⟩
    unfold hoistFilterCondToCrossJoin
    rw [hs]
    rfl

end

-- ======== a filter over two joins

/-- The filter of `SELECT ... FROM a, b, c WHERE ...`: `a` has two
columns, `b` and `c` one each. -/
def crossPlan (condition : Rex Nat) : Plan Nat :=
  [⟨1, .scan 2⟩, ⟨2, .scan 1⟩, ⟨3, .scan 1⟩, ⟨4, .join .INNER 1 2 (.literal (.bool true))⟩,
    ⟨5, .join .INNER 4 3 (.literal (.bool true))⟩,
    ⟨6, .filter 5 condition⟩]

def boolean : SQLTypeInfo := { type := .kBOOLEAN, notnull := true, size := 1 }

/-- `a.x = a.y`. -/
def inner : Rex Nat := .oper .kEQ [.input 4 0, .input 4 1] boolean

/-- `a.x = c.z`. -/
def across : Rex Nat := .oper .kEQ [.input 4 0, .input 3 0] boolean

/-- `a.x = a.y AND a.x = c.z`. -/
def flat : Rex Nat := .oper .kAND [inner, across] boolean

/-- `(a.x = a.y AND a.x = c.z) AND a.x = a.y`. -/
def nested : Rex Nat := .oper .kAND [flat, inner] boolean

def equalities : Engine Nat where
  apply := fun op _ vs =>
    match op, vs with
    | .kEQ, [.scalar a, .scalar b] => .bool (a == b)
    | _, _ => .null
  func := fun _ _ _ => .null
  ref := fun _ => .null
  subQuery := fun _ => .null
  aggregate := fun _ _ _ _ => .null
  precedes := fun _ _ _ _ => false

/-- One row in `a` and `b`, two in `c`, one of which matches. -/
def threeTables : Database Nat
  | 1 => [[.scalar 1, .scalar 1]]
  | 2 => [[.scalar 7]]
  | 3 => [[.scalar 1], [.scalar 2]]
  | _ => []

section

variable (c : Rex Nat)

theorem crossPlan_ordered : (crossPlan c).Ordered := by
  constructor
  · simp [crossPlan, inputs]
  · simp [crossPlan, inputs]
  · simp [crossPlan, inputs]

theorem crossPlan_fits : (crossPlan c).Fits threeTables := by
  intro n hn
  simp only [crossPlan, mem_cons, not_mem_nil, or_false] at hn
  rcases hn with rfl | rfl | rfl | rfl | rfl | rfl
  all_goals simp [inputs, threeTables, sizes, Tabulate.tabulate, crossPlan, RelAlgNode.size]

theorem crossPlan_wellFormed (hc : ∀ p ∈ c.inputs, (p.1 = 4 ∧ p.2 < 3) ∨ (p.1 = 3 ∧ p.2 < 1)) :
    (crossPlan c).WellFormed := by
  refine ⟨crossPlan_ordered c, ?_, ?_⟩
  · intro n hn
    simp only [crossPlan, mem_cons, not_mem_nil, or_false] at hn
    rcases hn with rfl | rfl | rfl | rfl | rfl | rfl
    · trivial
    · trivial
    · trivial
    · exact ⟨by decide, by simp [Rex.inputs]⟩
    · exact ⟨by decide, by simp [Rex.inputs]⟩
    · exact hc
  · intro n hn
    simp only [crossPlan, mem_cons, not_mem_nil, or_false] at hn
    rcases hn with rfl | rfl | rfl | rfl | rfl | rfl
    all_goals simp [sizes, Tabulate.tabulate, crossPlan, RelAlgNode.size]

theorem crossPlan_conditions (hc : wellTyped c = true) : Conditions (crossPlan c) := by
  constructor
  · intro i input c' hin
    simp [crossPlan] at hin
    rw [hin.2.2]
    exact hc
  · intro i l r v hin
    simp [crossPlan] at hin
    rcases hin with h | h
    · exact h.2.2.2
    · exact h.2.2.2

end

-- a cross join on the right of a LEFT join, and a filter on the other side
example : runsCleanly ([⟨1, .scan 2⟩, ⟨2, .scan 1⟩, ⟨3, .scan 1⟩,
    ⟨4, .join .INNER 2 3 (.literal (.bool true))⟩, ⟨5, .join .LEFT 1 4 (.literal (.bool true))⟩,
    ⟨6, .filter 5 (.oper .kEQ [.input 1 0, .input 1 1] boolean)⟩] : Plan Nat) = true := by
  decide

/-- The flat condition splits: one equality becomes the condition of the
lower join, and the filter keeps its row. -/
theorem hoisting_preserves_flat :
    (wellTyped flat = true ∧ clean 4 0 2 flat = true ∧ (crossPlan flat).WellFormed
      ∧ (crossPlan flat).Fits threeTables ∧ Conditions (crossPlan flat)
      ∧ runsCleanly (crossPlan flat) = true)
    ∧ (∀ c ∈ findHoistableConditions 4 0 2 [] flat, ReadsRange 4 0 2 c)
    ∧ ∃ P', hoistFilterCondToCrossJoin (crossPlan flat) = some P'
        ∧ P'.rows equalities threeTables 6 = (crossPlan flat).rows equalities threeTables 6
        := by
  have hwf : (crossPlan flat).WellFormed := crossPlan_wellFormed flat (by decide)
  have hfits := crossPlan_fits flat
  have hconds : Conditions (crossPlan flat) := crossPlan_conditions flat (by decide)
  have hrun : runsCleanly (crossPlan flat) = true := by decide
  refine ⟨⟨by decide, by decide, hwf, hfits, hconds, hrun⟩, ?_, ?_⟩
  · exact hoisting_preserves_filter.1 4 0 2 flat (by decide) (by decide)
  · obtain ⟨P', hP', hrows⟩ := hoisting_preserves_filter.2 (crossPlan flat) equalities
      threeTables hwf hfits hconds hrun
    exact ⟨P', hP', hrows ⟨6, .filter 5 flat⟩ (by simp [crossPlan]) rfl⟩

/-- The nested condition is returned whole, with a column of `c` in it,
and the filter lets a row through that it did not. -/
theorem nested_conjunct_dropped :
    ((crossPlan nested).WellFormed ∧ (crossPlan nested).Fits threeTables
      ∧ Conditions (crossPlan nested))
    ∧ (∃ c ∈ findHoistableConditions 4 0 2 [] nested, ¬ ReadsRange 4 0 2 c)
    ∧ ∃ P', hoistFilterCondToCrossJoin (crossPlan nested) = some P'
        ∧ (P'.rows equalities threeTables 6).length = 2
        ∧ ((crossPlan nested).rows equalities threeTables 6).length = 1 := by
  refine ⟨⟨crossPlan_wellFormed nested (by decide), crossPlan_fits nested,
    crossPlan_conditions nested (by decide)⟩, ?_, ?_⟩
  · refine ⟨some ⟨[], nested⟩, ?_, ?_⟩
    · simp [findHoistableConditions, findInOper, findInOperands, nested, flat, inner,
        across, isLoneInput, isInput]
    · intro h
      obtain ⟨ptr, hptr, hin⟩ := h
      cases hptr
      have hcol := hin (3, 0) (by decide)
      exact absurd hcol.1 (by decide)
  · refine ⟨_, rfl, ?_, ?_⟩
    · decide
    · decide

end Compass.Optimizer
