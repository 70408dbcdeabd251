/-
Where the push-down is taken back.

Replacing an input by a new node and that by another is replacing the
input by the other (`replaceInput_trans`), and putting the input back is
the identity (`replaceInput_self`), since the nodes between are new. In
the vector the new node and the join do not get in each other's way
(`set_insertIdx`), so what is left is the join; it is the old one unless
both of its inputs are the scan and the second was meant. The entry of the
scan is found where there is one (`findEntry_iff`).
-/
import Compass.PushDown.Revert
import Compass.RelAlg.Proofs.Eval

namespace Compass.PushDown

open List Option Prod

open JoinOrder (nodeKey)

variable {D : Type} {a b c : Nat} {e : Rex D} {j : JoinNode D} {nodes : List (PlanNode D)}

-- ======== rebinding

theorem rebindAll_eq_map (es : List (Rex D)) :
    Rex.rebindAll a b es = es.map (Rex.rebind a b) := by
  induction es with
  | nil => rfl
  | cons e es ih => rw [Rex.rebindAll, ih, map_cons]

theorem rebindBranches_eq_map (bs : List (Rex D × Rex D)) :
    Rex.rebindBranches a b bs = bs.map fun x => (x.1.rebind a b, x.2.rebind a b) := by
  induction bs with
  | nil => rfl
  | cons x bs ih => rw [Rex.rebindBranches, ih, map_cons]

theorem mem_sources {s : Nat} : s ∈ e.sources ↔ ∃ i, (s, i) ∈ e.inputs := by
  simp [Rex.sources]

theorem rebind_self (e : Rex D) : e.rebind a a = e := by
  induction e using Rex.operand_induction with
  | input s i =>
    rw [Rex.rebind]
    split
    · next h => rw [h]
    · rfl
  | literal v | ref i | subQuery q => rfl
  | func name es ti ih | oper op es ti ih =>
    rw [Rex.rebind, rebindAll_eq_map, map_congr_left ih, List.map_id']
  | case bs els ih ihe =>
    have hbs : bs.map (fun x => (x.1.rebind a a, x.2.rebind a a)) = bs.map id :=
      map_congr_left fun x hx => by rw [(ih x hx).1, (ih x hx).2]; rfl
    rw [Rex.rebind, rebindBranches_eq_map, hbs, List.map_id, ihe]

/-- By way of a node that is not there before. -/
theorem rebind_trans (hb : b ∉ e.sources) : (e.rebind a b).rebind b c = e.rebind a c := by
  rw [mem_sources] at hb
  induction e using Rex.operand_induction with
  | input s i =>
    have hs : ¬ s = b := fun h => hb ⟨i, by simp [Rex.inputs, h]⟩
    simp only [Rex.rebind]
    by_cases h : s = a
    · simp [h]
    · simp [h, hs]
  | literal v | ref i | subQuery q => rfl
  | func name es ti ih | oper op es ti ih =>
    have hes : es.map (Rex.rebind b c ∘ Rex.rebind a b) = es.map (Rex.rebind a c) :=
      map_congr_left fun e he => ih e he fun ⟨i, hi⟩ => hb ⟨i, by
        exact Rex.mem_inputsAll.2 ⟨e, he, hi⟩⟩
    simp only [Rex.rebind, rebindAll_eq_map, List.map_map, hes]
  | case bs els ih ihe =>
    have hels : ¬ ∃ i, (b, i) ∈ els.inputs := fun ⟨i, hi⟩ => hb ⟨i, by
      exact mem_append_right _ hi⟩
    have hbranch : ∀ x ∈ bs, ∀ i, ¬ ((b, i) ∈ x.1.inputs ∨ (b, i) ∈ x.2.inputs) :=
      fun x hx i hi => hb ⟨i, by
        exact mem_append_left _ (Rex.mem_inputsBranches.2 ⟨x, hx, hi⟩)⟩
    simp only [Rex.rebind, rebindBranches_eq_map, List.map_map, ihe hels]
    rw [map_congr_left fun x hx => ?_]
    exact Prod.ext ((ih x hx).1 fun ⟨i, hi⟩ => hbranch x hx i (.inl hi))
      ((ih x hx).2 fun ⟨i, hi⟩ => hbranch x hx i (.inr hi))

-- ======== the join

/-- The node is new to a join. -/
def NewTo (b : Nat) (j : JoinNode D) : Prop :=
  b ∉ (PlanNode.join j).mentions

theorem replaceInput_self (j : JoinNode D) : j.replaceInput a a = j := by
  have hcond : j.condition.map (Rex.rebind a a) = j.condition := by
    cases h : j.condition with
    | none => rfl
    | some e => rw [map_some, rebind_self]
  unfold JoinNode.replaceInput
  cases j
  simp only [JoinNode.mk.injEq, true_and]
  exact ⟨by split <;> simp_all, by split <;> simp_all⟩

theorem replaceInput_trans (hb : NewTo b j) :
    (j.replaceInput a b).replaceInput b c = j.replaceInput a c := by
  simp only [NewTo, PlanNode.mentions, mem_cons, not_or] at hb
  obtain ⟨-, hl, hr, hc⟩ := hb
  have hcond : (j.condition.map (Rex.rebind a b)).map (Rex.rebind b c)
      = j.condition.map (Rex.rebind a c) := by
    cases h : j.condition with
    | none => rfl
    | some e =>
      rw [h] at hc
      simp only [map_some, rebind_trans hc]
  unfold JoinNode.replaceInput
  simp only [hcond, JoinNode.mk.injEq, true_and, and_true]
  by_cases h : j.lhs = a
  · have hr' : ¬ j.rhs = b := fun heq => hr heq.symm
    simp [h]
  · have hl' : ¬ j.lhs = b := fun heq => hl heq.symm
    by_cases h' : j.rhs = a
    · simp [h, h', hl']
    · have hr' : ¬ j.rhs = b := fun heq => hr heq.symm
      simp [h, h', hl', hr']

variable {inputIdx : Nat}

/-- The join that is left: the old one, unless its second input was meant and
is the first one too. -/
theorem replaceInput_back (hb : NewTo b j) (hidx : inputIdx = 0 ∨ inputIdx = 1) :
    (j.replaceInput (j.input inputIdx) b).replaceInput
        ((j.replaceInput (j.input inputIdx) b).input inputIdx) (j.input inputIdx) = j
      ↔ (inputIdx = 1 → j.lhs ≠ j.rhs) := by
  have hback : (j.replaceInput (j.input inputIdx) b).replaceInput b (j.input inputIdx) = j := by
    rw [replaceInput_trans hb, replaceInput_self]
  rcases hidx with rfl | rfl
  · have hinput : (j.replaceInput (j.input 0) b).input 0 = b := by
      simp [JoinNode.input, JoinNode.replaceInput]
    rw [hinput]
    exact ⟨fun _ h => absurd h (by decide), fun _ => hback⟩
  · by_cases hsame : j.lhs = j.rhs
    · have hnew : b ≠ j.rhs := fun h => hb (by simp [PlanNode.mentions, h])
      refine ⟨fun h => ?_, fun h => absurd hsame (h rfl)⟩
      -- the first input stays the new node
      have hlhs := congrArg JoinNode.lhs h
      simp [JoinNode.input, JoinNode.replaceInput, hsame, hnew] at hlhs
    · have hinput : (j.replaceInput (j.input 1) b).input 1 = b := by
        simp [JoinNode.input, JoinNode.replaceInput, hsame]
      rw [hinput]
      exact ⟨fun _ _ => hsame, fun _ => hback⟩

-- ======== the vector

variable {k : Nat}

/-- A place behind the inserted element. -/
theorem set_insertIdx {α : Type} {l : List α} {m : Nat} (h : k ≤ m) (x y : α) :
    (l.insertIdx k x).set (m + 1) y = (l.set m y).insertIdx k x := by
  induction l generalizing k m with
  | nil => cases k <;> simp
  | cons z l ih =>
    cases k with
    | zero => simp
    | succ k =>
      obtain ⟨m, rfl⟩ : ∃ m', m = m' + 1 := ⟨m - 1, by omega⟩
      simp [ih (show k ≤ m by omega)]

variable {i : Nat}

theorem joinAt_insertIdx (h : k ≤ i) (n : PlanNode D) :
    joinAt (nodes.insertIdx k n) (i + 1) = joinAt nodes i := by
  unfold joinAt
  rw [getElem?_insertIdx_of_gt (by omega), Nat.add_sub_cancel]

theorem joinAt_eq_some : joinAt nodes i = some j ↔ nodes[i]? = some (.join j) := by
  unfold joinAt
  split <;> simp_all

theorem joinAt_set (j' : JoinNode D) (h : joinAt nodes i = some j) :
    joinAt (nodes.set i (.join j')) i = some j' := by
  have hlt := (List.getElem?_eq_some_iff.1 (joinAt_eq_some.1 h)).1
  rw [joinAt_eq_some, getElem?_set_self hlt]

theorem set_eq_self_iff {j' : JoinNode D} (h : joinAt nodes i = some j) :
    nodes.set i (.join j') = nodes ↔ j' = j := by
  have hj := joinAt_eq_some.1 h
  constructor
  · intro heq
    have hset := joinAt_set j' h
    rw [heq, h] at hset
    exact (Option.some.inj hset).symm
  · rintro rfl
    obtain ⟨hlt, hget⟩ := List.getElem?_eq_some_iff.1 hj
    rw [← hget, set_getElem_self]

/-- Where the join is, and which input of it is taken. -/
theorem findOutput_spec {dist : Nat} (h : findOutput nodes i = some (dist, inputIdx)) :
    1 ≤ dist ∧ (inputIdx = 0 ∨ inputIdx = 1 ∧ dist = 1) ∧
      (inputIdx = 1 ↔ ∃ j, nodes[i + 1]? = some (.join j)) := by
  unfold findOutput at h
  split at h
  · next hscan =>
      obtain ⟨k, -, hk⟩ := map_eq_some_iff.1 h
      obtain ⟨rfl, rfl⟩ := mk.inj hk
      simp [hscan]
  · next j hjoin =>
      obtain ⟨rfl, rfl⟩ := mk.inj (some.inj h)
      simp [hjoin]
  · cases h

/-- What is put in: the compound behind the scan, and under the join in place
of one of its inputs. -/
theorem insertOver_spec {scanId filterId compoundId : Nat} {f : Rex D} {cols : List ColInfo}
    {ins : Inserted D} (h : insertOver nodes i scanId filterId compoundId f cols = some ins)
    (hnew : ∀ n ∈ nodes, filterId ∉ n.mentions) :
    ∃ dist inputIdx j, findOutput nodes i = some (dist, inputIdx) ∧
      joinAt nodes (i + dist) = some j ∧
      ins = ⟨(nodes.set (i + dist)
          (.join (j.replaceInput (j.input inputIdx) compoundId))).insertIdx (i + 1)
            (.compound compoundId scanId f cols), dist + 1, inputIdx, j.input inputIdx⟩ := by
  unfold insertOver at h
  simp only [bind_eq_bind, bind_eq_some_iff] at h
  obtain ⟨⟨dist, inputIdx⟩, hfind, j, hj, nodes', hmake, hins⟩ := h
  refine ⟨dist, inputIdx, j, hfind, hj, ?_⟩
  obtain ⟨hdist, -⟩ := findOutput_spec hfind
  have hget := joinAt_eq_some.1 hj
  have hlt := (List.getElem?_eq_some_iff.1 hget).1
  have hnewj : NewTo filterId j := hnew _ (mem_of_getElem? hget)
  have hle : i + 1 ≤ i + dist := by omega
  unfold makeAndInsertCompound at hmake
  rw [getElem?_insertIdx_self, if_pos (by simp; omega)] at hmake
  simp only [bind_eq_bind, bind_eq_some_iff] at hmake
  obtain ⟨jF, hjF, hnodes⟩ := hmake
  rw [joinAt_insertIdx hle, joinAt_set _ hj] at hjF
  obtain rfl := Option.some.inj hjF
  rw [set_insertIdx hle, set_set, eraseIdx_insertIdx_self, replaceInput_trans hnewj] at hnodes
  rw [← Option.some.inj hins, ← Option.some.inj hnodes]

/-- The vector with the compound taken out is the old one but for the join. -/
theorem removeCompound_eq {dist oldInput : Nat} {j' : JoinNode D} {n : PlanNode D}
    (hj : joinAt nodes (i + dist) = some j) (hdist : 1 ≤ dist) :
    removeCompound ⟨(nodes.set (i + dist) (.join j')).insertIdx (i + 1) n, dist + 1, inputIdx,
        oldInput⟩ i
      = some (nodes.set (i + dist) (.join (j'.replaceInput (j'.input inputIdx) oldInput))) := by
  have hle : i + 1 ≤ i + dist := by omega
  unfold removeCompound
  simp only [← Nat.add_assoc, joinAt_insertIdx hle, joinAt_set _ hj, bind_eq_bind, bind_some]
  rw [set_insertIdx hle, set_set, eraseIdx_insertIdx_self]

-- ======== the complexities

variable {nodeValue : Int} {entries : List (Int × Nat)}

/-- The loop finds the first entry of the node, or stops at the last one. -/
theorem findEntry_spec (nodeValue : Int) (entries : List (Int × Nat)) (start : Int) :
    (∃ (k : Nat) (v : Nat), findEntry nodeValue start entries = start + 1 + k ∧
      entries[k]? = some (nodeValue, v)) ∨
    nodeValue ∉ entries.map fst ∧
      findEntry nodeValue start entries = start + entries.length := by
  induction entries generalizing start with
  | nil => exact .inr ⟨by simp, by simp [findEntry]⟩
  | cons x entries ih =>
    unfold findEntry
    by_cases h : x.1 = nodeValue
    · refine .inl ⟨0, x.2, by simp [h], ?_⟩
      rw [getElem?_cons_zero, ← h]
    · rw [if_neg h]
      rcases ih (start + 1) with ⟨k, v, hk, hget⟩ | ⟨hnot, hlen⟩
      · exact .inl ⟨k + 1, v, by rw [hk]; push_cast; omega, hget⟩
      · refine .inr ⟨?_, by rw [hlen, length_cons]; push_cast; omega⟩
        simp only [map_cons, mem_cons, not_or]
        exact ⟨fun heq => h heq.symm, hnot⟩

/-- Writing to the entry of a node leaves those of the others. -/
theorem filter_set_of_entry {v w : Nat} (h : entries[k]? = some (nodeValue, v)) :
    (entries.set k (nodeValue, w)).filter (·.1 ≠ nodeValue)
      = entries.filter (·.1 ≠ nodeValue) := by
  induction entries generalizing k with
  | nil => rfl
  | cons x entries ih =>
    cases k with
    | zero =>
      rw [getElem?_cons_zero, some_inj] at h
      simp [h]
    | succ k =>
      rw [set_cons_succ, filter_cons, filter_cons, ih h]

/-- Writing to the place of another takes that entry away. -/
theorem filter_set_ne {w : Nat} (hk : k < entries.length) (hnot : nodeValue ∉ entries.map fst) :
    (entries.set k (nodeValue, w)).filter (·.1 ≠ nodeValue)
      ≠ entries.filter (·.1 ≠ nodeValue) := by
  intro heq
  have hall : entries.filter (·.1 ≠ nodeValue) = entries := by
    rw [filter_eq_self]
    intro x hx
    exact decide_eq_true fun h => hnot (h ▸ mem_map_of_mem hx)
  have hlt : ((entries.set k (nodeValue, w)).filter (·.1 ≠ nodeValue)).length
      < (entries.set k (nodeValue, w)).length := by
    rw [length_filter_lt_length_iff_exists]
    exact ⟨(nodeValue, w), mem_set hk _, by simp⟩
  rw [heq, hall, length_set] at hlt
  exact Nat.lt_irrefl _ hlt

/-- What the execution records is the entry of the node alone. -/
theorem filter_execute (e : Execution) (nodeValue : Int) (entries : List (Int × Nat)) :
    (executeFilterAndEvaluate e nodeValue entries).1.filter (·.1 ≠ nodeValue)
      = entries.filter (·.1 ≠ nodeValue) := by
  unfold executeFilterAndEvaluate
  split
  · rfl
  · dsimp only
    split <;> simp

theorem mem_execute (e : Execution) (nodeValue : Int) (entries : List (Int × Nat)) :
    nodeValue ∈ (executeFilterAndEvaluate e nodeValue entries).1.map fst
      ↔ e.rowidLookup = false ∨ nodeValue ∈ entries.map fst := by
  unfold executeFilterAndEvaluate
  cases e.rowidLookup with
  | true => simp
  | false =>
    simp only [Bool.false_eq_true, if_false, true_or, iff_true]
    split <;> simp

/-- The entries as they should be: the others are left, and the node's is
written. -/
theorem update_iff {before : List (Int × Nat)} {w : Nat}
    (hsame : entries.filter (·.1 ≠ nodeValue) = before.filter (·.1 ≠ nodeValue)) :
    (0 ≤ findEntry nodeValue (-1) entries ∧
      (entries.set (findEntry nodeValue (-1) entries).toNat (nodeValue, w)).filter
          (·.1 ≠ nodeValue) = before.filter (·.1 ≠ nodeValue) ∧
      (nodeValue, w) ∈ entries.set (findEntry nodeValue (-1) entries).toNat (nodeValue, w))
      ↔ nodeValue ∈ entries.map fst := by
  rw [← hsame]
  rcases findEntry_spec nodeValue entries (-1) with
    ⟨k, v, hk, hget⟩ | ⟨hnot, hlen⟩
  · have hindex : findEntry nodeValue (-1) entries = k := by omega
    obtain ⟨hlt, hentry⟩ := List.getElem?_eq_some_iff.1 hget
    rw [hindex, Int.toNat_natCast]
    refine ⟨fun _ => ?_, fun _ => ⟨by omega, filter_set_of_entry hget, mem_set hlt _⟩⟩
    exact List.mem_map.2 ⟨_, mem_of_getElem? hget, rfl⟩
  · refine ⟨fun ⟨hle, hfilter, _⟩ => ?_, fun h => absurd h hnot⟩
    exact absurd hfilter (filter_set_ne (by omega) hnot)

-- ======== the turn

/-- A push-down that is not carried out is taken back without a trace, but for
the complexity of its scan, if and only if it can be. -/
theorem revertedTurn_iff {st : RunState D} {a : Attempt D} (hsound : a.Sound st.nodes)
    (hrev : a.Reverted st nodeValue) :
    a.TakenBack st nodeValue ↔ a.CanBeTakenBack st nodeValue := by
  obtain ⟨ins, hins⟩ := isSome_iff_exists.1 hrev.inserted
  obtain ⟨dist, inputIdx, j, hfind, hj, rfl⟩ := insertOver_spec hins hsound.filter_new
  obtain ⟨hdist, hidx, hnext⟩ := findOutput_spec hfind
  have hget := joinAt_eq_some.1 hj
  have hnew : NewTo a.compoundId j := hsound.compound_new _ (mem_of_getElem? hget)
  have hmem := mem_execute a.execution nodeValue st.complexity
  have hupdate := fun w => update_iff (w := w) (filter_execute a.execution nodeValue st.complexity)
  generalize hentries : (executeFilterAndEvaluate a.execution nodeValue st.complexity).1 = entries
    at hmem hupdate
  -- the turn, up to the look at the join graph
  have hturn : revertedTurn st a = (st.joinGraph nodeValue).bind fun noColumns =>
      if 0 ≤ findEntry nodeValue (-1) entries then
        some { st with
          nodes := st.nodes.set (a.i + dist)
            (.join ((j.replaceInput (j.input inputIdx) a.compoundId).replaceInput
              ((j.replaceInput (j.input inputIdx) a.compoundId).input inputIdx)
              (j.input inputIdx)))
          complexity := entries.set (findEntry nodeValue (-1) entries).toNat
            (nodeValue, complexityOf (noColumns * a.tableSize)) }
      else none := by
    unfold revertedTurn
    rw [hins, hrev.key]
    simp only [bind_eq_bind, bind_some, Except.toOption]
    rw [if_neg (by have := hrev.refused; omega), hentries]
    unfold revert
    dsimp only
    rw [removeCompound_eq hj hdist]
    rfl
  have hjoin : (inputIdx = 1 → j.lhs ≠ j.rhs) ↔
      ∀ j', st.nodes[a.i + 1]? = some (.join j') → j'.lhs ≠ j'.rhs := by
    constructor
    · intro h j' hj'
      have hone := hnext.2 ⟨j', hj'⟩
      obtain rfl : dist = 1 := by omega
      rw [hget] at hj'
      cases hj'
      exact h hone
    · rintro h hone
      obtain rfl : dist = 1 := by omega
      exact h j hget
  have hback := (set_eq_self_iff hj).trans (replaceInput_back hnew (hidx.imp_right And.left))
  unfold Attempt.TakenBack Attempt.CanBeTakenBack
  rw [hturn, ← hjoin, ← hmem]
  constructor
  · rintro ⟨after, noColumns, hafter, hgraph, hrestores⟩
    rw [hgraph, bind_some] at hafter
    split at hafter
    · next hle =>
        obtain rfl := Option.some.inj hafter
        exact ⟨hback.1 hrestores.nodes, by simp [hgraph],
          (hupdate _).1 ⟨hle, hrestores.others, hrestores.own⟩⟩
    · cases hafter
  · rintro ⟨hinputs, hgraph, hentry⟩
    obtain ⟨noColumns, hgraph⟩ := isSome_iff_exists.1 hgraph
    obtain ⟨hle, hothers, hown⟩ := (hupdate (complexityOf (noColumns * a.tableSize))).2 hentry
    exact ⟨_, noColumns, by rw [hgraph, bind_some, if_pos hle], hgraph,
      hback.2 hinputs, hothers, hown⟩

/-- Two scans and their join. -/
def twoScansAndJoin : List (PlanNode Int) :=
  [.scan 1 5, .scan 2 6,
    .join ⟨3, 1, 2, some (.oper .kEQ [.input 1 0, .input 2 0] ⟨.kBOOLEAN, false, 1⟩)⟩]

/-- The second scan, tried with a filter of which nothing is left. -/
def tryScan (rowidLookup : Bool) : Attempt Int where
  i := 1
  scanId := 2
  tableId := 6
  tableSize := 1000
  filterId := 10
  compoundId := 11
  filterExprNew := .oper .kEQ [.input 2 1, .literal (.scalar 7)] ⟨.kBOOLEAN, false, 1⟩
  colsToProject := [(0, "k")]
  execution := ⟨rowidLookup, 1, 0, 500, 0⟩

/-- With the complexity of the first scan recorded. -/
def oneRecorded : RunState Int where
  nodes := twoScansAndJoin
  complexity := [(5881, 300)]
  joinGraph := fun _ => some 1

theorem tryScan_sound (rowidLookup : Bool) : (tryScan rowidLookup).Sound twoScansAndJoin where
  scan := rfl
  filter_new := by show ∀ n ∈ twoScansAndJoin, 10 ∉ n.mentions; decide
  compound_new := by show ∀ n ∈ twoScansAndJoin, 11 ∉ n.mentions; decide
  ne := by show 10 ≠ 11; decide

theorem tryScan_reverted (rowidLookup : Bool) :
    (tryScan rowidLookup).Reverted oneRecorded 6882 where
  key := by show nodeKey 6 2 = .ok 6882; decide
  inserted := rfl
  refused := by cases rowidLookup <;> decide

/-- The filtered rows have been counted. -/
theorem revertedTurn_iff_counted :
    (tryScan false).TakenBack oneRecorded 6882
      ↔ (tryScan false).CanBeTakenBack oneRecorded 6882 :=
  revertedTurn_iff (tryScan_sound false) (tryScan_reverted false)

/-- After a `rowid` lookup the complexity of the first scan is written over. -/
theorem revertedTurn_off :
    (tryScan true).Sound oneRecorded.nodes ∧ (tryScan true).Reverted oneRecorded 6882 ∧
      ¬ (tryScan true).TakenBack oneRecorded 6882 := by
  refine ⟨tryScan_sound true, tryScan_reverted true, ?_⟩
  rintro ⟨after, noColumns, hafter, -, hrestores⟩
  have hcomplexity : (revertedTurn oneRecorded (tryScan true)).map RunState.complexity
      = some [(6882, 1000)] := rfl
  rw [hafter, map_some, some_inj] at hcomplexity
  have hothers := hrestores.others
  rw [hcomplexity] at hothers
  exact absurd hothers (by decide)

end Compass.PushDown
