/-
The exclusion keeps the join graph coherent through safe turns.

Between the turns the working maps are the initial ones without the
excluded edges (`Working`). A safe turn drops at most one edge: its
positions in both lists are the only ones that lead to the other node, so
erasing there is the same as filtering. Either end may then have lost its
last edge, and is dropped.
-/
import Compass.JoinOrder.Proofs.Exclude

namespace Compass.JoinOrder

open Compass.Sketch List Function Prod
open Exclusion

variable {dims : FagmsDims} {sketches : Nat → FagmsSketch} {bound : Nat}
variable {g : Graph} {cols : JoinCols} {x x' : Exclusion}

-- ======== lists

/-- Erasing the only element of a kind. -/
theorem eraseIdx_eq_filter {β : Type} {p : β → Prop} [DecidablePred p] {l : List β} :
    ∀ {i : Nat} {b : β}, l[i]? = some b → p b → (l.filter p).length = 1 →
      l.eraseIdx i = l.filter fun b => ¬ p b := by
  induction l with
  | nil =>
    intro i b hi
    cases hi
  | cons a l ih =>
    intro i b hi hb hone
    by_cases ha : p a
    · -- it is the first one, and there is no other
      rw [filter_cons_of_pos (by simpa using ha), length_cons] at hone
      have hnone : ∀ c ∈ l, ¬ p c := by
        have hempty : l.filter p = [] := length_eq_zero_iff.mp (by omega)
        simpa using hempty
      have hrest : l.filter (fun b => ¬ p b) = l :=
        filter_eq_self.mpr fun c hc => by simpa using hnone c hc
      rw [filter_cons_of_neg (by simpa using ha), hrest]
      cases i with
      | zero => rfl
      | succ i =>
        exact absurd hb (hnone b (mem_of_getElem? hi))
    · rw [filter_cons_of_neg (by simpa using ha)] at hone
      rw [filter_cons_of_pos (by simpa using ha)]
      cases i with
      | zero =>
        rw [getElem?_cons_zero, Option.some.injEq] at hi
        exact absurd hb (hi ▸ ha)
      | succ i =>
        rw [eraseIdx_cons_succ, ih hi hb hone]

theorem eraseAt_only {β : Type} {p : β → Prop} [DecidablePred p] {l : List β} {i : Nat} {b : β}
    (hi : l[i]? = some b) (hb : p b) (hone : (l.filter p).length = 1) :
    eraseAt l i = some (l.filter fun b => ¬ p b) := by
  unfold eraseAt
  rw [if_pos (List.getElem?_eq_some_iff.mp hi).1, eraseIdx_eq_filter hi hb hone]

/-- As many elements as values, where each value is there once. -/
theorem length_filter_mem {l : List JoinCol} {s : Finset Nat}
    (h : ∀ m ∈ s, (joinsWith l m).length = 1) :
    (l.filter fun j => j.otherNode ∈ s).length = s.card := by
  induction s using Finset.induction_on with
  | empty => simp
  | insert m s hm ih =>
    have hsplit : (l.filter fun j => j.otherNode ∈ insert m s).length
        = (joinsWith l m).length + (l.filter fun j => j.otherNode ∈ s).length := by
      unfold joinsWith
      clear ih h
      induction l with
      | nil => rfl
      | cons j l ih =>
        by_cases hj : j.otherNode = m
        · rw [filter_cons_of_pos (by simp [hj]), filter_cons_of_pos (by simp [hj]),
            filter_cons_of_neg (by simpa [hj] using hm)]
          simp only [length_cons, ih]
          omega
        · by_cases hs : j.otherNode ∈ s
          · rw [filter_cons_of_pos (by simp [hs]), filter_cons_of_neg (by simp [hj]),
              filter_cons_of_pos (by simp [hs])]
            simp only [length_cons, ih]
            omega
          · rw [filter_cons_of_neg (by simp [hs, hj]), filter_cons_of_neg (by simp [hj]),
              filter_cons_of_neg (by simp [hs]), ih]
    rw [hsplit, h m (Finset.mem_insert_self m s),
      ih fun m' hm' => h m' (Finset.mem_insert_of_mem hm'), Finset.card_insert_of_notMem hm]
    omega

-- ======== the state

/-- The working maps are the initial ones without the excluded edges.
Nodes that are pending may have lost their last edge. -/
structure Working (g : Graph) (cols : JoinCols) (pending : Finset Nat) (x : Exclusion) :
    Prop where
  joins : ∀ n, x.joinConnections n = (cols n).filter fun j => j.otherNode ∉ x.excludedFrom n
  edges : ∀ n m, m ∈ x.excludedFrom n ↔ n ∈ x.excludedFrom m
  single : ∀ n, ∀ m ∈ x.excludedFrom n, (joinsWith (cols n) m).length = 1
  keys : ∀ n, x.excludedEdges n ≠ some ∅
  nodes : x.joinGraph.nodes = g.nodes \ x.excludedNodes
  adj : ∀ n ∈ x.joinGraph.nodes, x.joinGraph.adj n = g.adj n \ x.excludedFrom n
  bare : ∀ n ∈ x.excludedNodes, x.excludedFrom n ≠ ∅ ∧ x.joinConnections n = []
  dropped : ∀ n ∉ pending, x.excludedFrom n ≠ ∅ → x.joinConnections n = [] →
    n ∈ x.excludedNodes

variable {pending : Finset Nat}

theorem Working.joins_eq_nil (h : Working g cols pending x) (n : Nat) :
    (cols n).length = (x.excludedFrom n).card ↔ x.joinConnections n = [] := by
  have hcard := length_filter_mem (h.single n)
  have hsplit := (cols n).length_eq_length_filter_add fun j => j.otherNode ∈ x.excludedFrom n
  have hjoins : (x.joinConnections n).length
      = ((cols n).filter fun j => !decide (j.otherNode ∈ x.excludedFrom n)).length := by
    rw [h.joins]
    simp
  rw [← length_eq_zero_iff]
  omega

theorem Working.allEdgesExcluded_iff (h : Working g cols pending x) (n : Nat) :
    x.allEdgesExcluded (cols n).length n = true
      ↔ x.excludedFrom n ≠ ∅ ∧ x.joinConnections n = [] := by
  rw [← h.joins_eq_nil]
  have hkey := h.keys n
  unfold allEdgesExcluded excludedFrom
  cases hn : x.excludedEdges n with
  | none => simp
  | some edges =>
    have hne : edges ≠ ∅ := by
      intro heq
      rw [hn, heq] at hkey
      exact hkey rfl
    simp [hne]

variable {n : Nat}

/-- A pending node is dropped, or has an edge. -/
theorem Working.dropNode_if (h : Working g cols (insert n pending) x) :
    Working g cols pending (if x.allEdgesExcluded (cols n).length n then x.dropNode n
      else x) := by
  split
  · rename_i hall
    obtain ⟨hsome, hnil⟩ := (h.allEdgesExcluded_iff n).mp hall
    have hjoins : (x.dropNode n).joinConnections = x.joinConnections := by
      show update x.joinConnections n [] = _
      rw [← hnil, update_eq_self]
    refine ⟨fun k => hjoins ▸ h.joins k, h.edges, h.single, h.keys, ?_, ?_, ?_, ?_⟩
    · show x.joinGraph.nodes.erase n = g.nodes \ insert n x.excludedNodes
      rw [h.nodes]
      ext k
      simp only [Finset.mem_erase, Finset.mem_sdiff, Finset.mem_insert]
      tauto
    · intro k hk
      exact h.adj k (Finset.mem_of_mem_erase hk)
    · intro k hk
      rw [hjoins]
      rcases Finset.mem_insert.mp hk with rfl | hk
      · exact ⟨hsome, hnil⟩
      · exact h.bare k hk
    · intro k hk hsome' hnil'
      rw [hjoins] at hnil'
      by_cases hkn : k = n
      · exact Finset.mem_insert.mpr (.inl hkn)
      · exact Finset.mem_insert_of_mem (h.dropped k (by simp [hkn, hk]) hsome' hnil')
  · rename_i hall
    refine { h with dropped := fun k hk hsome hnil => ?_ }
    by_cases hkn : k = n
    · subst hkn
      exact absurd ((h.allEdgesExcluded_iff k).mpr ⟨hsome, hnil⟩) hall
    · exact h.dropped k (by simp [hkn, hk]) hsome hnil

-- ======== dropping an edge

/-- An edge leaves both lists and the graph. -/
def Exclusion.cut (x : Exclusion) (n m : Nat) : Exclusion :=
  { (x.addEdge n m).addEdge m n with
    joinConnections := Function.update
      (Function.update x.joinConnections m
        ((x.joinConnections m).filter fun j => ¬ j.otherNode = n)) n
      ((x.joinConnections n).filter fun j => ¬ j.otherNode = m)
    joinGraph := (x.joinGraph.eraseEdge n m).eraseEdge m n }

theorem excludedFrom_addEdge (x : Exclusion) (n m k : Nat) :
    (x.addEdge n m).excludedFrom k
      = if k = n then insert m (x.excludedFrom n) else x.excludedFrom k := by
  unfold excludedFrom addEdge
  dsimp only
  by_cases hk : k = n
  · subst hk
    rw [update_self, if_pos rfl]
    rfl
  · rw [update_of_ne hk, if_neg hk]

variable {m : Nat}

theorem mem_excludedFrom_cut (hnm : n ≠ m) (x : Exclusion) (a b : Nat) :
    b ∈ (x.cut n m).excludedFrom a
      ↔ b ∈ x.excludedFrom a ∨ a = n ∧ b = m ∨ a = m ∧ b = n := by
  show b ∈ ((x.addEdge n m).addEdge m n).excludedFrom a ↔ _
  rw [excludedFrom_addEdge, excludedFrom_addEdge, excludedFrom_addEdge, if_neg hnm.symm]
  by_cases ham : a = m
  · subst ham
    simp [hnm.symm, or_comm]
  · by_cases han : a = n
    · subst han
      simp [hnm, or_comm]
    · simp [ham, han]

theorem Working.cut (h : Working g cols ∅ x) (hnm : n ≠ m) (hn : n ∈ x.joinGraph.nodes)
    (hm : m ∈ x.joinGraph.nodes) (hone : (joinsWith (cols n) m).length = 1)
    (hone' : (joinsWith (cols m) n).length = 1) : Working g cols {n, m} (x.cut n m) := by
  have hfilter : ∀ a b, (∀ c, c ∈ (x.cut n m).excludedFrom a ↔ c ∈ x.excludedFrom a ∨ c = b) →
      ((x.joinConnections a).filter fun j => ¬ j.otherNode = b)
        = (cols a).filter fun j => j.otherNode ∉ (x.cut n m).excludedFrom a := by
    intro a b hmem
    rw [h.joins, filter_filter]
    refine filter_congr fun j _ => ?_
    simp [hmem, and_comm]
  have hjoins : ∀ a, (x.cut n m).joinConnections a
      = (cols a).filter fun j => j.otherNode ∉ (x.cut n m).excludedFrom a := by
    intro a
    show update (update x.joinConnections m _) n _ a = _
    by_cases han : a = n
    · subst han
      rw [update_self]
      refine hfilter a m fun c => ?_
      rw [mem_excludedFrom_cut hnm]
      simp [hnm]
    · rw [update_of_ne han]
      by_cases ham : a = m
      · subst ham
        rw [update_self]
        refine hfilter a n fun c => ?_
        rw [mem_excludedFrom_cut hnm]
        simp [hnm.symm]
      · rw [update_of_ne ham, h.joins]
        refine filter_congr fun j _ => ?_
        simp [mem_excludedFrom_cut hnm, han, ham]
  have hnodes : (x.cut n m).joinGraph.nodes = x.joinGraph.nodes := by
    show insert m (insert n x.joinGraph.nodes) = _
    rw [Finset.insert_eq_of_mem hn, Finset.insert_eq_of_mem hm]
  refine ⟨hjoins, ?_, ?_, ?_, ?_, ?_, ?_, ?_⟩
  · intro a b
    rw [mem_excludedFrom_cut hnm, mem_excludedFrom_cut hnm, h.edges a b]
    tauto
  · intro a b hb
    rcases (mem_excludedFrom_cut hnm x a b).mp hb with hb | ⟨rfl, rfl⟩ | ⟨rfl, rfl⟩
    · exact h.single a b hb
    · exact hone
    · exact hone'
  · intro a
    show update (update x.excludedEdges n _) m _ a ≠ _
    by_cases ham : a = m
    · subst ham
      simp
    · rw [update_of_ne ham]
      by_cases han : a = n
      · subst han
        simp
      · rw [update_of_ne han]
        exact h.keys a
  · rw [hnodes]
    exact h.nodes
  · intro a ha
    rw [hnodes] at ha
    have hadj := h.adj a ha
    ext b
    have hiff : b ∈ (x.cut n m).joinGraph.adj a
        ↔ b ∈ x.joinGraph.adj a ∧ ¬ (a = n ∧ b = m ∨ a = m ∧ b = n) := by
      show b ∈ ((x.joinGraph.eraseEdge n m).eraseEdge m n).adj a ↔ _
      unfold Graph.eraseEdge
      dsimp only
      rw [if_pos hn, if_pos (Finset.mem_insert_of_mem hm), update_of_ne hnm.symm]
      by_cases ham : a = m
      · subst ham
        simp [hnm.symm, and_comm]
      · rw [update_of_ne ham]
        by_cases han : a = n
        · subst han
          simp [hnm, and_comm]
        · simp [ham, han]
    rw [hiff, hadj, Finset.mem_sdiff, Finset.mem_sdiff, mem_excludedFrom_cut hnm]
    tauto
  · -- the nodes of the edge are not excluded, and the others lose nothing
    intro a ha
    obtain ⟨hsome, hnil⟩ := h.bare a ha
    have hout : ∀ k ∈ x.joinGraph.nodes, a ≠ k := by
      intro k hk heq
      rw [h.nodes, Finset.mem_sdiff] at hk
      exact hk.2 (heq ▸ ha)
    have hsame : (x.cut n m).excludedFrom a = x.excludedFrom a := by
      ext b
      simp [mem_excludedFrom_cut hnm, hout n hn, hout m hm]
    rw [hjoins, hsame, ← h.joins]
    exact ⟨hsome, hnil⟩
  · intro a ha hsome hnil
    have han : a ≠ n := fun heq => ha (by simp [heq])
    have ham : a ≠ m := fun heq => ha (by simp [heq])
    have hsame : (x.cut n m).excludedFrom a = x.excludedFrom a := by
      ext b
      simp [mem_excludedFrom_cut hnm, han, ham]
    rw [hjoins, hsame, ← h.joins] at hnil
    rw [hsame] at hsome
    exact h.dropped a (by simp) hsome hnil

-- ======== turns

theorem Working.mono {pending' : Finset Nat} (h : Working g cols pending x)
    (hsub : pending ⊆ pending') : Working g cols pending' x :=
  { h with dropped := fun n hn => h.dropped n fun hin => hn (hsub hin) }

theorem Working.joinsWith_eq (h : Working g cols pending x) (hm : m ∉ x.excludedFrom n) :
    joinsWith (x.joinConnections n) m = joinsWith (cols n) m := by
  unfold joinsWith
  rw [h.joins, filter_filter]
  refine filter_congr fun j _ => ?_
  by_cases hj : j.otherNode = m
  · simp [hj, hm]
  · simp [hj]

variable {node : Nat}

theorem otherColumnIdx_of_mem {joins : List JoinCol} (h : joinsWith joins node ≠ []) :
    ∃ i j, otherColumnIdx node joins = some i ∧ joins[i]? = some j ∧ j.otherNode = node := by
  unfold otherColumnIdx
  cases hfind : joins.findIdx? fun j => j.otherNode = node with
  | none =>
    refine absurd ?_ h
    rw [joinsWith, filter_eq_nil_iff]
    simpa using hfind
  | some i =>
    obtain ⟨hlt, hnode, -⟩ := findIdx?_eq_some_iff_getElem.mp hfind
    exact ⟨i, joins[i], rfl, getElem?_eq_getElem hlt, by simpa using hnode⟩

/-- Dropping a node does not touch the list of another one. -/
theorem dropNode_if_update (y : Exclusion) (hne : n ≠ m) (keysNo : Nat) (joins : List JoinCol) :
    let y' := if y.allEdgesExcluded keysNo m then y.dropNode m else y
    let z := { y with joinConnections := update y.joinConnections n joins }
    y'.joinConnections n = y.joinConnections n
      ∧ { y' with joinConnections := update y'.joinConnections n joins }
        = if z.allEdgesExcluded keysNo m then z.dropNode m else z := by
  intro y' z
  have hcond : z.allEdgesExcluded keysNo m = y.allEdgesExcluded keysNo m := rfl
  rw [hcond]
  by_cases hall : y.allEdgesExcluded keysNo m = true
  · have hy' : y' = y.dropNode m := if_pos hall
    rw [if_pos hall, hy']
    unfold dropNode
    dsimp only
    rw [update_of_ne hne, update_comm hne]
    exact ⟨rfl, rfl⟩
  · have hy' : y' = y := if_neg hall
    rw [if_neg hall, hy']
    exact ⟨rfl, rfl⟩

/-- The join that a safe turn drops. -/
theorem excludeJoin_sparse {i k : Nat} {j j' : JoinCol} (hne : node ≠ j.otherNode)
    (hsparse : (sketches node).maxNonZeroBuckets dims i < bound)
    (hidx : otherColumnIdx node (x.joinConnections j.otherNode) = some k)
    (hk : (x.joinConnections j.otherNode)[k]? = some j') (hj' : j'.otherNode = node)
    (hone : (joinsWith (x.joinConnections j.otherNode) node).length = 1)
    (hi : (x.joinConnections node)[i]? = some j)
    (hone' : (joinsWith (x.joinConnections node) j.otherNode).length = 1) :
    ∃ acc, excludeJoin dims sketches bound node (x, []) (j, i) = some (acc, [i])
      ∧ ∃ joins, [i].foldlM eraseAt (acc.joinConnections node) = some joins
      ∧ { acc with joinConnections := update acc.joinConnections node joins }
        = if (x.cut node j.otherNode).allEdgesExcluded (sketches j.otherNode).keysNo j.otherNode
          then (x.cut node j.otherNode).dropNode j.otherNode else x.cut node j.otherNode := by
  have herase : eraseAt (x.joinConnections j.otherNode) k
      = some ((x.joinConnections j.otherNode).filter fun j => ¬ j.otherNode = node) :=
    eraseAt_only hk hj' hone
  have herase' : eraseAt (x.joinConnections node) i
      = some ((x.joinConnections node).filter fun j' => ¬ j'.otherNode = j.otherNode) :=
    @eraseAt_only _ (fun j' : JoinCol => j'.otherNode = j.otherNode) _ _ _ _ hi rfl hone'
  set y : Exclusion := { (x.addEdge node j.otherNode).addEdge j.otherNode node with
    joinConnections := update x.joinConnections j.otherNode
      ((x.joinConnections j.otherNode).filter fun j => ¬ j.otherNode = node)
    joinGraph := (x.joinGraph.eraseEdge node j.otherNode).eraseEdge j.otherNode node } with hy
  obtain ⟨hlist, hdrop⟩ := dropNode_if_update y hne (sketches j.otherNode).keysNo
    ((x.joinConnections node).filter fun j' => ¬ j'.otherNode = j.otherNode)
  refine ⟨if y.allEdgesExcluded (sketches j.otherNode).keysNo j.otherNode
    then y.dropNode j.otherNode else y, ?_, _, ?_, hdrop⟩
  · unfold excludeJoin
    dsimp only
    rw [if_pos hsparse, hidx]
    have hconns : ((x.addEdge node j.otherNode).addEdge j.otherNode node).joinConnections
        = x.joinConnections := rfl
    simp only [Option.bind_eq_bind, Option.bind_some, hconns, herase]
    rfl
  · have hsame : y.joinConnections node = x.joinConnections node :=
      update_of_ne hne _ _
    rw [foldlM_cons, hlist, hsame, herase']
    rfl

theorem excludeNode_working (hg : Coherent g cols)
    (hkeys : ∀ n, (sketches n).keysNo = (cols n).length) (h : Working g cols ∅ x)
    (hsafe : SafeTurn dims sketches bound x node) :
    ∃ x', excludeNode dims sketches bound x node = some x' ∧ Working g cols ∅ x' := by
  unfold excludeNode
  rcases hsafe with hout | ⟨hlen, hsingle⟩
  · exact ⟨x, if_pos hout, h⟩
  · by_cases hout : node ∈ x.excludedNodes
    · exact ⟨x, if_pos hout, h⟩
    rw [if_neg hout]
    -- the joins that are not sparse are passed over
    rw [@OptionFold.foldlM_filter _ _ (excludeJoin dims sketches bound node)
      (fun join => (sketches node).maxNonZeroBuckets dims join.2 < bound) _
      (fun acc join hdense => by
        exact if_neg hdense)]
    show ∃ x', ((sparseJoins dims sketches bound x node).foldlM _ _ >>= _) = some x' ∧ _
    cases hsparse : sparseJoins dims sketches bound x node with
    | nil =>
      refine ⟨_, rfl, ?_⟩
      rw [update_eq_self, hkeys]
      exact (h.mono (Finset.empty_subset (insert node ∅))).dropNode_if
    | cons join rest =>
      rw [hsparse, length_cons] at hlen
      have hrest : rest = [] := length_eq_zero_iff.mp (by omega)
      subst hrest
      obtain ⟨j, i⟩ := join
      have hmem : (j, i) ∈ sparseJoins dims sketches bound x node := by simp [hsparse]
      have hone := hsingle (j, i) hmem
      obtain ⟨hzip, hdense⟩ := mem_filter.mp hmem
      have hi := mem_zipIdx_iff_getElem?.mp hzip
      have hj := mem_of_getElem? hi
      rw [h.joins, mem_filter] at hj
      obtain ⟨hjcols, hjex⟩ := hj
      have hex : j.otherNode ∉ x.excludedFrom node := by simpa using hjex
      have hne : node ≠ j.otherNode := (hg.loopless node j hjcols).symm
      -- the same edge from the other side
      have hcols : (joinsWith (cols node) j.otherNode).length = 1 :=
        h.joinsWith_eq hex ▸ hone
      have hcols' : (joinsWith (cols j.otherNode) node).length = 1 := by
        rw [← (hg.symm node j.otherNode).length_eq, length_map]
        exact hcols
      have hex' : node ∉ x.excludedFrom j.otherNode := fun hin => hex ((h.edges _ _).mpr hin)
      have hone' : (joinsWith (x.joinConnections j.otherNode) node).length = 1 := by
        rw [h.joinsWith_eq hex']
        exact hcols'
      have hnonempty : joinsWith (x.joinConnections j.otherNode) node ≠ [] := by
        intro hnil
        rw [hnil] at hone'
        cases hone'
      obtain ⟨k, j', hidx, hk, hj'⟩ := otherColumnIdx_of_mem hnonempty
      have hnode : node ∈ x.joinGraph.nodes := by
        rw [h.nodes, Finset.mem_sdiff]
        exact ⟨hg.nodes node (ne_nil_of_mem hjcols), hout⟩
      have hother : j.otherNode ∈ x.joinGraph.nodes := by
        rw [h.nodes, Finset.mem_sdiff]
        refine ⟨hg.nodes _ fun hnil => ?_, fun hin => ?_⟩
        · rw [hnil] at hcols'
          cases hcols'
        · rw [(h.bare _ hin).2] at hone'
          cases hone'
      obtain ⟨acc, hacc, joins, hjoins, hcut⟩ := excludeJoin_sparse hne (by simpa using hdense)
        hidx hk hj' hone' hi hone
      have hworking := h.cut hne hnode hother hcols hcols'
      rw [Finset.pair_comm] at hworking
      have hdropped := hworking.dropNode_if
      rw [← hkeys, ← hcut, ← insert_empty_eq node] at hdropped
      refine ⟨_, ?_, hkeys node ▸ hdropped.dropNode_if⟩
      rw [foldlM_cons, hacc]
      show ([i].foldlM eraseAt (acc.joinConnections node) >>= _) = _
      rw [hjoins]
      rfl

theorem excludeNodes_working (hg : Coherent g cols)
    (hkeys : ∀ n, (sketches n).keysNo = (cols n).length) (nodes : List Nat) :
    ∀ {x : Exclusion}, Working g cols ∅ x → SafeRun dims sketches bound x nodes →
      ∃ x', nodes.foldlM (excludeNode dims sketches bound) x = some x'
        ∧ Working g cols ∅ x' := by
  induction nodes with
  | nil => exact fun h _ => ⟨_, rfl, h⟩
  | cons node nodes ih =>
    intro x h hsafe
    obtain ⟨x₁, hx₁, h₁⟩ := excludeNode_working hg hkeys h hsafe.1
    obtain ⟨x', hx', h'⟩ := ih h₁ (hsafe.2 x₁ hx₁)
    exact ⟨x', OptionFold.foldlM_cons_eq_some.mpr ⟨x₁, hx₁, hx'⟩, h'⟩

theorem working_init (g : Graph) (cols : JoinCols) :
    Working g cols ∅ ⟨g, cols, fun _ => none, ∅⟩ where
  joins n := by simp [excludedFrom]
  edges n m := by simp [excludedFrom]
  single n m hm := by simp [excludedFrom] at hm
  keys n := by simp
  nodes := by simp
  adj n _ := by simp [excludedFrom]
  bare n hn := by simp at hn
  dropped n _ hsome := by simp [excludedFrom] at hsome

theorem Working.coherent (h : Working g cols ∅ x) (hg : Coherent g cols) :
    Coherent x.joinGraph x.joinConnections where
  nodes n hn := by
    rw [h.nodes, Finset.mem_sdiff]
    refine ⟨hg.nodes n fun hnil => hn ?_, fun hin => hn (h.bare n hin).2⟩
    rw [h.joins, hnil]
    rfl
  adj n hn m := by
    have hg' : n ∈ g.nodes := by
      rw [h.nodes, Finset.mem_sdiff] at hn
      exact hn.1
    rw [h.adj n hn, Finset.mem_sdiff, hg.adj n hg', h.joins]
    constructor
    · rintro ⟨⟨j, hj, rfl⟩, hex⟩
      exact ⟨j, mem_filter.mpr ⟨hj, by simpa using hex⟩, rfl⟩
    · rintro ⟨j, hj, rfl⟩
      obtain ⟨hj, hex⟩ := mem_filter.mp hj
      exact ⟨⟨j, hj, rfl⟩, by simpa using hex⟩
  loopless n j hj := by
    rw [h.joins] at hj
    exact hg.loopless n j (mem_of_mem_filter hj)
  symm n m := by
    by_cases hm : m ∈ x.excludedFrom n
    · -- the edge is gone on both sides
      have hnil : ∀ a b, b ∈ x.excludedFrom a → joinsWith (x.joinConnections a) b = [] := by
        intro a b hb
        rw [joinsWith, h.joins, filter_filter, filter_eq_nil_iff]
        intro j _ hj
        simp only [Bool.and_eq_true, decide_eq_true_eq] at hj
        exact hj.2 (hj.1 ▸ hb)
      rw [hnil n m hm, hnil m n ((h.edges n m).mp hm)]
      exact .nil
    · rw [h.joinsWith_eq hm, h.joinsWith_eq fun hn => hm ((h.edges n m).mpr hn)]
      exact hg.symm n m

-- ======== the excluded nodes

theorem filter_fst_length {c : List (Nat × Nat)} (hnd : (c.map fst).Nodup) {v : Nat}
    (hv : v ∈ c.map fst) : (c.filter fun a => a.1 = v).length = 1 := by
  have hcount := count_eq_one_of_mem hnd hv
  rw [count, countP_map, countP_eq_length_filter] at hcount
  congr 1

theorem moveExcluded_found {c e : List (Nat × Nat)} (hnd : (c.map fst).Nodup) {v : Nat}
    (hv : v ∈ c.map fst) :
    ∃ a ∈ c, a.1 = v
      ∧ moveExcluded (c, e) v = some (c.filter fun a => ¬ a.1 = v, e ++ [a]) := by
  unfold moveExcluded
  dsimp only
  cases hfind : c.findIdx? fun a => a.1 = v with
  | none =>
    rw [findIdx?_eq_none_iff] at hfind
    obtain ⟨a, ha, hav⟩ := mem_map.mp hv
    exact absurd hav (by simpa using hfind a ha)
  | some i =>
    obtain ⟨hlt, hav, -⟩ := findIdx?_eq_some_iff_getElem.mp hfind
    have hget := getElem?_eq_getElem hlt
    refine ⟨c.get ⟨i, hlt⟩, getElem_mem hlt, by simpa using hav, ?_⟩
    dsimp only
    rw [eraseAt_only hget (by simpa using hav) (filter_fst_length hnd hv), hget]
    rfl

/-- Every excluded node moves, once. -/
theorem moveAllExcluded_found (vs : List Nat) :
    ∀ {c e : List (Nat × Nat)}, (c.map fst).Nodup → vs.Nodup →
      (∀ v ∈ vs, v ∈ c.map fst) →
      ∃ moved, vs.foldlM moveExcluded (c, e) = some (c.filter fun a => a.1 ∉ vs, e ++ moved)
        ∧ moved.map fst = vs ∧ ∀ a ∈ moved, a ∈ c := by
  induction vs with
  | nil =>
    intro c e _ _ _
    exact ⟨[], by simp, rfl, by simp⟩
  | cons v vs ih =>
    intro c e hnd hvs hall
    obtain ⟨hv, hvs⟩ := nodup_cons.mp hvs
    obtain ⟨a, ha, hav, hmove⟩ := moveExcluded_found (e := e) hnd (hall v mem_cons_self)
    have hall' : ∀ w ∈ vs, w ∈ (c.filter fun a => ¬ a.1 = v).map fst := by
      intro w hw
      obtain ⟨b, hb, rfl⟩ := mem_map.mp (hall w (mem_cons_of_mem v hw))
      have hbv : b.1 ≠ v := fun heq => hv (heq ▸ hw)
      exact mem_map_of_mem (mem_filter.mpr ⟨hb, by simpa using hbv⟩)
    obtain ⟨moved, hmoved, hfst, hmem⟩ := ih (e := e ++ [a])
      (hnd.sublist (filter_sublist.map _)) hvs hall'
    refine ⟨a :: moved, ?_, by rw [map_cons, hav, hfst], ?_⟩
    · refine OptionFold.foldlM_cons_eq_some.mpr ⟨_, hmove, ?_⟩
      rw [hmoved, filter_filter, append_assoc]
      have hboth : (c.filter fun b => decide (b.1 ∉ vs) && decide (¬ b.1 = v))
          = c.filter fun b => b.1 ∉ v :: vs :=
        filter_congr fun b _ => by simp [Bool.and_comm]
      rw [hboth]
      rfl
    · intro b hb
      rcases mem_cons.mp hb with rfl | hb
      · exact ha
      · exact mem_of_mem_filter (hmem b hb)

/-- Through safe turns the exclusion returns, and drops the excluded edges
and the nodes without an edge, and nothing else. -/
theorem excludeSparseSketches_remaining {sort : StdSort (Nat × Nat) byComplexity}
    {complexities : List (Nat × Nat)} (hg : Coherent g cols)
    (hkeys : ∀ n, (sketches n).keysNo = (cols n).length) (honce : (complexities.map Prod.fst).Nodup)
    (hall : ∀ n ∈ g.nodes, n ∈ complexities.map Prod.fst)
    (hsafe : SafeRun dims sketches bound ⟨g, cols, fun _ => none, ∅⟩
      (complexities.map Prod.fst)) :
    ∃ r, excludeSparseSketches dims sketches bound sort complexities g cols = some r
      ∧ Remaining g cols complexities r := by
  obtain ⟨x, hx, h⟩ := excludeNodes_working hg hkeys _ (working_init g cols) hsafe
  have hasc := StdSort.nodup_ascending x.excludedNodes
  have hmem : ∀ n, n ∈ StdSort.ascending x.excludedNodes ↔ n ∈ x.excludedNodes := by
    intro n
    exact StdSort.mem_ascending
  have hlisted : ∀ n ∈ StdSort.ascending x.excludedNodes, n ∈ complexities.map Prod.fst := by
    intro n hn
    refine hall n (hg.nodes n fun hnil => (h.bare n ((hmem n).mp hn)).1 ?_)
    have hcard := (h.joins_eq_nil n).mpr (h.bare n ((hmem n).mp hn)).2
    rw [hnil] at hcard
    exact Finset.card_eq_zero.mp hcard.symm
  obtain ⟨moved, hmoved, hfst, hsub⟩ :=
    moveAllExcluded_found (e := []) _ honce hasc hlisted
  rw [nil_append] at hmoved
  refine ⟨⟨x, complexities.filter fun a => a.1 ∉ StdSort.ascending x.excludedNodes,
    sort.run moved⟩, ?_, ?_⟩
  · unfold excludeSparseSketches
    rw [hx]
    show (List.foldlM moveExcluded _ _ >>= _) = _
    rw [hmoved]
    rfl
  · have hperm := sort.perm moved
    refine ⟨h.coherent hg, h.joins, h.edges, h.nodes, h.adj, ?_, ?_, ?_, ?_, ?_⟩
    · exact fun n => ⟨h.bare n, fun hn => h.dropped n (by simp) hn.1 hn.2⟩
    · dsimp only
      rw [(hperm.map Prod.fst).nodup_iff, hfst]
      exact hasc
    · intro c
      rw [hperm.mem_iff]
      constructor
      · intro hc
        refine ⟨hsub c hc, (hmem _).mp ?_⟩
        rw [← hfst]
        exact mem_map_of_mem hc
      · rintro ⟨hc, hex⟩
        rw [← hmem, ← hfst] at hex
        obtain ⟨c', hc', heq⟩ := mem_map.mp hex
        rw [← inj_on_of_nodup_map honce (hsub c' hc') hc heq]
        exact hc'
    · intro n hn
      rw [(hperm.map Prod.fst).mem_iff, hfst]
      exact (hmem n).mpr hn
    · intro c
      simp [hmem]

-- ======== examples

/-- Three tables, each joined to the two others; the column that node `1`
has for node `2` is sparse. -/
def triangleGraph : Graph :=
  ⟨{1, 2, 3}, fun n => if n = 1 then {2, 3} else if n = 2 then {1, 3}
    else if n = 3 then {1, 2} else ∅⟩

def triangleJoins (n : Nat) : List JoinCol :=
  if n = 1 then [⟨11, 0, 2, 12, 0⟩, ⟨11, 1, 3, 13, 0⟩]
  else if n = 2 then [⟨12, 0, 1, 11, 0⟩, ⟨12, 1, 3, 13, 1⟩]
  else if n = 3 then [⟨13, 0, 1, 11, 1⟩, ⟨13, 1, 2, 12, 1⟩]
  else []

def triangleSketches (n : Nat) : FagmsSketch where
  keysNo := (triangleJoins n).length
  sketchElem _ := 0
  separateSketchElem colIdx _ := if n = 1 ∧ colIdx = 0 then 0 else 1

theorem triangle_coherent : Coherent triangleGraph triangleJoins := by
  have hout : ∀ n, n ∉ triangleGraph.nodes → triangleJoins n = [] := by
    intro n hn
    simp only [triangleGraph, Finset.mem_insert, Finset.mem_singleton, not_or] at hn
    simp [triangleJoins, hn]
  have hin : ∀ n ∈ triangleGraph.nodes, ∀ j ∈ triangleJoins n,
      j.otherNode ∈ triangleGraph.nodes := by decide
  refine ⟨fun n hn => ?_, fun n hn m => ?_, fun n => ?_, fun n m => ?_⟩
  · by_contra hnot
    exact hn (hout n hnot)
  · simp only [triangleGraph, Finset.mem_insert, Finset.mem_singleton] at hn
    rcases hn with rfl | rfl | rfl <;> simp [triangleGraph, triangleJoins, eq_comm]
  · by_cases hn : n ∈ triangleGraph.nodes
    · revert n
      decide
    · simp [hout n hn]
  · by_cases hn : n ∈ triangleGraph.nodes
    · by_cases hm : m ∈ triangleGraph.nodes
      · have hall : ∀ n ∈ triangleGraph.nodes, ∀ m ∈ triangleGraph.nodes,
            ((joinsWith (triangleJoins n) m).map fun j => j.flip n).Perm
              (joinsWith (triangleJoins m) n) := by decide
        exact hall n hn m hm
      · -- no join leads to a node that is not there
        have hnil : joinsWith (triangleJoins n) m = [] := by
          rw [joinsWith, filter_eq_nil_iff]
          intro j hj heq
          exact hm (of_decide_eq_true heq ▸ hin n hn j hj)
        rw [hnil, hout m hm]
        exact .nil
    · by_cases hm : m ∈ triangleGraph.nodes
      · have hnil : joinsWith (triangleJoins m) n = [] := by
          rw [joinsWith, filter_eq_nil_iff]
          intro j hj heq
          exact hn (of_decide_eq_true heq ▸ hin m hm j hj)
        rw [hnil, hout n hn]
        exact .nil
      · rw [hout n hn, hout m hm]
        exact .nil

theorem triangle_remaining :
    ∃ r, excludeSparseSketches ⟨1, 1⟩ triangleSketches 1 (StdSort.insertion byComplexity)
        [(1, 10), (2, 20), (3, 30)] triangleGraph triangleJoins = some r
      ∧ Remaining triangleGraph triangleJoins [(1, 10), (2, 20), (3, 30)] r :=
  excludeSparseSketches_remaining triangle_coherent (fun _ => rfl) (by decide) (by decide)
    (by decide +kernel)

/-- The sparse edge of the triangle is gone, and none of its nodes is
excluded. -/
theorem triangle_edge_dropped :
    Coherent triangleGraph triangleJoins
      ∧ ∃ r, excludeSparseSketches ⟨1, 1⟩ triangleSketches 1 (StdSort.insertion byComplexity)
          [(1, 10), (2, 20), (3, 30)] triangleGraph triangleJoins = some r
        ∧ r.exclusion.excludedNodes = ∅ ∧ 2 ∈ triangleGraph.adj 1
        ∧ 2 ∉ r.exclusion.joinGraph.adj 1
        ∧ joinsWith (r.exclusion.joinConnections 1) 2 = [] := by
  refine ⟨triangle_coherent, _, rfl, ?_, ?_, ?_, ?_⟩
  all_goals decide +kernel

end Compass.JoinOrder
