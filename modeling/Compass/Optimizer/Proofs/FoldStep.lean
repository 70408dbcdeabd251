/-
What a fold of `fold_filters` does to the vector.

The upper filter `f` goes, and its name becomes that of the lower one `g`
in the inputs of its users. This needs no more of the plan than that its
nodes come after what they read; what the expressions of a node read does
not matter here.

What a fold of `fold_filters` means.

Nothing but `f` reads `g`, so the renaming does not make two sides of a
join one, and under it every node reads what it read
(`FoldStep.column_eq`). The rows of the old plan, with those of `f` at
`g`, satisfy the equations of the new one (`FoldStep.rows_eq`).

The renaming reaches the users of `f` only. That other nodes do not read
`f` in their expressions is an assumption here (`FoldStep.direct`).
-/
import Compass.Optimizer.Proofs.Hoist

namespace Compass.Optimizer

open Compass.PushDown List Function
open Compass.RelAlg

variable {D : Type}

theorem sides_of_filter {P : Plan D} (hord : P.Ordered) {i x : Nat} {c : Rex D}
    (h : ⟨i, .filter x c⟩ ∈ P) : P.sides i = none := by
  unfold Plan.sides
  rw [Plan.node?_of_mem hord h]

/-- The vector before a fold of `f` into `g`. -/
structure FoldShape (Q : Plan D) (f g x : Nat) (cf cg : Rex D) : Prop where
  wo : Q.Ordered
  sides_ne : ∀ n ∈ Q, ∀ ty lhs rhs c, n.body = .join ty lhs rhs c → lhs ≠ rhs
  upper : ⟨f, .filter g cf⟩ ∈ Q
  lower : ⟨g, .filter x cg⟩ ∈ Q
  users : Q.users g = [f]

/-- What becomes of a node. -/
def foldedNode (Q : Plan D) (f g : Nat) (c : Rex D) (n : RelAlgNode D) : RelAlgNode D :=
  if n.id ∈ Q.users f then replaceInput f g (resetCondition g c n) else resetCondition g c n

/-- The plan after it. -/
def foldedPlan (Q : Plan D) (f g : Nat) (c : Rex D) : Plan D :=
  (Q.map (foldedNode Q f g c)).filter fun n => n.id ≠ f

@[simp] theorem foldedNode_id (Q : Plan D) (f g : Nat) (c : Rex D) (n : RelAlgNode D) :
    (foldedNode Q f g c n).id = n.id := by
  unfold foldedNode
  split
  · rw [replaceInput_id, resetCondition_id]
  · exact resetCondition_id

namespace FoldShape

variable {Q : Plan D} {f g x : Nat} {cf cg : Rex D} (S : FoldShape Q f g x cf cg)
include S

/-- Numbers by which nodes come after what they read. -/
theorem exists_order : ∃ rank : Nat → Nat, (∀ n ∈ Q, ∀ i ∈ n.inputs, rank i < rank n.id)
    ∧ rank x < rank g ∧ rank g < rank f := by
  obtain ⟨rank, hrank⟩ := S.wo.exists_rank
  exact ⟨rank, hrank, hrank _ S.lower x (mem_singleton.mpr rfl),
    hrank _ S.upper g (mem_singleton.mpr rfl)⟩

theorem ne : g ≠ f ∧ x ≠ f ∧ x ≠ g := by
  obtain ⟨rank, -, hxg, hgf⟩ := S.exists_order
  refine ⟨?_, ?_, ?_⟩ <;> rintro rfl <;> omega

variable {n : RelAlgNode D}

theorem mem_users (hn : n ∈ Q) : n.id ∈ Q.users f ↔ f ∈ n.inputs := by
  rw [Plan.mem_users]
  constructor
  · rintro ⟨m, hm, hf, hid⟩
    rwa [← S.wo.eq_of_key hm hn hid]
  · exact fun hf => ⟨n, hn, hf, rfl⟩

/-- Only the upper filter reads the lower one. -/
theorem input_ne (hn : n ∈ Q) (hf : n.id ≠ f) : ∀ i ∈ n.inputs, i ≠ g := by
  rintro i hi rfl
  have hmem : n.id ∈ Q.users i := Plan.mem_users.mpr ⟨n, hn, hi, rfl⟩
  rw [S.users] at hmem
  exact hf (mem_singleton.mp hmem)

/-- The lower filter has a new condition, the users of the upper one read
`g` for `f`, and the other nodes stay as they are. -/
theorem foldedNode_cases (c : Rex D) (hn : n ∈ Q) :
    (n.id = g ∧ foldedNode Q f g c n = ⟨g, .filter x c⟩)
      ∨ (n.id ≠ g ∧ f ∈ n.inputs ∧ foldedNode Q f g c n = replaceInput f g n)
      ∨ (n.id ≠ g ∧ f ∉ n.inputs ∧ foldedNode Q f g c n = n) := by
  unfold foldedNode
  by_cases hg : n.id = g
  · obtain rfl := S.wo.eq_of_key hn S.lower hg
    refine .inl ⟨rfl, ?_⟩
    rw [if_neg, resetCondition_filter]
    rw [S.mem_users S.lower]
    intro hmem
    exact S.ne.2.1 (mem_singleton.mp hmem).symm
  · refine .inr ?_
    rw [resetCondition_of_ne hg]
    split
    · next hmem => exact .inl ⟨hg, (S.mem_users hn).mp hmem, rfl⟩
    · next hmem => exact .inr ⟨hg, fun hf => hmem ((S.mem_users hn).mpr hf), rfl⟩

omit S in
theorem renamed_of_notMem (h : f ∉ n.inputs) :
    n.inputs.map (renamed f g) = n.inputs := by
  refine (map_congr_left fun i hi => ?_).trans (map_id _)
  have hne : i ≠ f := fun heq => h (heq ▸ hi)
  exact if_neg hne

theorem inputs_foldedNode (c : Rex D) (hn : n ∈ Q) :
    (foldedNode Q f g c n).inputs = n.inputs.map (renamed f g) := by
  rcases S.foldedNode_cases c hn with ⟨hg, h⟩ | ⟨-, -, h⟩ | ⟨-, hf, h⟩
  · obtain rfl := S.wo.eq_of_key hn S.lower hg
    rw [h]
    simp [RelAlgNode.inputs, renamed, S.ne.2.1]
  · rw [h, replaceInput_inputs (S.sides_ne n hn)]
  · rw [h, renamed_of_notMem hf]

omit S in
theorem mem_foldedPlan {c : Rex D} :
    n ∈ foldedPlan Q f g c ↔ ∃ m ∈ Q, m.id ≠ f ∧ foldedNode Q f g c m = n := by
  unfold foldedPlan
  simp only [mem_filter, mem_map, decide_eq_true_eq]
  constructor
  · rintro ⟨⟨m, hm, rfl⟩, hne⟩
    exact ⟨m, hm, by rwa [foldedNode_id] at hne, rfl⟩
  · rintro ⟨m, hm, hne, rfl⟩
    exact ⟨⟨m, hm, rfl⟩, by rwa [foldedNode_id]⟩

omit S in
theorem foldedNode_mem (c : Rex D) {n : RelAlgNode D} (hn : n ∈ Q) (hne : n.id ≠ f) :
    foldedNode Q f g c n ∈ foldedPlan Q f g c :=
  mem_foldedPlan.mpr ⟨n, hn, hne, rfl⟩

theorem lower_mem (c : Rex D) : ⟨g, .filter x c⟩ ∈ foldedPlan Q f g c := by
  have hmem := @foldedNode_mem D Q f g c _ S.lower S.ne.1
  rcases S.foldedNode_cases c S.lower with ⟨-, h⟩ | ⟨hne, -⟩ | ⟨hne, -⟩
  · rwa [h] at hmem
  · exact absurd rfl hne
  · exact absurd rfl hne

theorem ordered (c : Rex D) : (foldedPlan Q f g c).Ordered := by
  have hord := S.wo
  have hmap : Plan.Ordered (Q.map (foldedNode Q f g c)) := by
    refine Tabulate.Ordered.map hord (foldedNode_id Q f g c) ?_
    intro pre n post hQ i hi
    have hn : n ∈ Q := by simp [hQ]
    rw [S.inputs_foldedNode c hn] at hi
    obtain ⟨j, hj, rfl⟩ := mem_map.mp hi
    obtain ⟨m, hm, hmj⟩ := hord.mem_before hQ hj
    unfold renamed
    split
    · next hjf =>
        -- `g` is read by `f`
        have hmQ : m ∈ Q := by simp [hQ, hm]
        obtain rfl := hord.eq_of_key hmQ S.upper (hmj.trans hjf)
        exact hord.mem_initial hQ hm (mem_singleton.mpr rfl)
    · exact ⟨m, hm, hmj⟩
  refine hmap.filter ?_
  intro n hn _ m _ hread
  obtain ⟨n, hnQ, rfl⟩ := mem_map.mp hn
  rw [S.inputs_foldedNode c hnQ] at hread
  obtain ⟨j, -, hj⟩ := mem_map.mp hread
  rw [decide_eq_true_eq, ← hj]
  unfold renamed
  split
  · exact S.ne.1
  · next hne => exact hne

theorem sizes_upper : Q.sizes f = Q.sizes g :=
  Plan.sizes_eq S.wo S.upper

omit S in
theorem size_replaceInput {s s' : Nat → Nat}
    (hsides : ∀ ty lhs rhs c, n.body = .join ty lhs rhs c → lhs ≠ rhs)
    (h : ∀ i ∈ n.inputs, s' (renamed f g i) = s i) : (replaceInput f g n).size s' = n.size s := by
  obtain ⟨id, body⟩ := n
  cases body with
  | project input exprs fields => exact length_map _
  | filter input c | sort input collation limit offset => exact h input (mem_singleton.mpr rfl)
  | join ty lhs rhs c =>
    have hl := h lhs (by simp [RelAlgNode.inputs])
    have hr := h rhs (by simp [RelAlgNode.inputs])
    rw [replaceInput_join (hsides ty lhs rhs c rfl)]
    show s' (renamed f g lhs) + s' (renamed f g rhs) = s lhs + s rhs
    rw [hl, hr]
  | compound input c => exact length_map _
  | _ => rfl

theorem sizes_eq (c : Rex D) :
    (foldedPlan Q f g c).sizes = fun i => if i = f then 0 else Q.sizes i := by
  have hord := S.wo
  refine Tabulate.tabulate_unique (S.ordered c) size_local ?_ ?_
  · intro i hi
    split
    · rfl
    · next hne =>
        refine Tabulate.tabulate_of_ne ?_
        intro n hn heq
        have hmem := @foldedNode_mem D Q f g c n hn (by rwa [heq])
        exact hi _ hmem (by rw [foldedNode_id, heq])
  · intro n hn
    obtain ⟨m, hm, hne, rfl⟩ := mem_foldedPlan.mp hn
    rw [foldedNode_id, if_neg hne, Plan.sizes_eq hord hm]
    symm
    have hread : ∀ i ∈ m.inputs, (if renamed f g i = f then 0 else Q.sizes (renamed f g i))
        = Q.sizes i := by
      intro i _
      unfold renamed
      split
      · next hif => rw [if_neg S.ne.1, hif, S.sizes_upper]
      · rfl
    rcases S.foldedNode_cases c hm with ⟨hg, h⟩ | ⟨-, -, h⟩ | ⟨-, hf, h⟩
    · obtain rfl := hord.eq_of_key hm S.lower hg
      rw [h]
      exact if_neg S.ne.2.1
    · rw [h]
      exact size_replaceInput (S.sides_ne m hm) hread
    · rw [h]
      refine size_local m _ _ fun i hi => ?_
      have hne' : i ≠ f := fun heq => hf (heq ▸ hi)
      exact if_neg hne'

theorem sizes_renamed (c : Rex D) (i : Nat) :
    (foldedPlan Q f g c).sizes (renamed f g i) = Q.sizes i := by
  rw [S.sizes_eq c]
  unfold renamed
  dsimp only
  split
  · next hif => rw [if_neg S.ne.1, hif, S.sizes_upper]
  · rfl

/-- The sides of a join stay different. -/
theorem renamed_inj (hn : n ∈ Q) (hne : n.id ≠ f) {i j : Nat} (hi : i ∈ n.inputs)
    (hj : j ∈ n.inputs) : renamed f g i = renamed f g j ↔ i = j := by
  have hig := S.input_ne hn hne i hi
  have hjg := S.input_ne hn hne j hj
  unfold renamed
  split <;> split <;> constructor <;> intro h <;> omega

-- ---------------------------------------------------------- the vector

omit S in
theorem ids_eq (c : Rex D) :
    (foldedPlan Q f g c).map RelAlgNode.id = (Q.map RelAlgNode.id).filter fun i => i ≠ f := by
  unfold foldedPlan
  rw [filter_map, filter_map, map_map]
  simp only [comp_def, foldedNode_id]

theorem users_eq (c : Rex D) (i : Nat) :
    (foldedPlan Q f g c).users i
      = if i = f then [] else if i = g then Q.users f else Q.users i := by
  have hord := S.wo
  have hfilter : (foldedPlan Q f g c).users i
      = (Q.filter fun n => decide (n.id ≠ f) && (n.inputs.map (renamed f g)).contains i).map
          RelAlgNode.id := by
    unfold Plan.users foldedPlan
    rw [filter_filter, filter_map, map_map]
    simp only [comp_def, foldedNode_id]
    congr 1
    refine filter_congr fun n hn => ?_
    rw [S.inputs_foldedNode c hn, Bool.and_comm]
  have hmem : ∀ n ∈ Q, (decide (n.id ≠ f) && (n.inputs.map (renamed f g)).contains i) = true
      ↔ n.id ≠ f ∧ ∃ j ∈ n.inputs, renamed f g j = i := by
    intro n _
    rw [Bool.and_eq_true, decide_eq_true_iff, contains_iff_mem, mem_map]
  rw [hfilter]
  split
  · next hif =>
      rw [map_eq_nil_iff, filter_eq_nil_iff]
      intro n hn hcond
      obtain ⟨-, j, -, hj⟩ := (hmem n hn).mp hcond
      rw [hif] at hj
      unfold renamed at hj
      split at hj
      · exact S.ne.1 hj
      · contradiction
  next hif =>
  split
  · next hig =>
      congr 1
      refine filter_congr fun n hn => ?_
      rw [Bool.eq_iff_iff, hmem n hn, contains_iff_mem]
      constructor
      · rintro ⟨hne, j, hj, hji⟩
        have hjg := S.input_ne hn hne j hj
        unfold renamed at hji
        split at hji
        · next hjf => rwa [← hjf]
        · exact absurd (hji.trans hig) hjg
      · intro hf
        refine ⟨?_, f, hf, by rw [renamed, if_pos rfl, hig]⟩
        intro heq
        have := hord.irrefl n hn
        rw [heq] at this
        exact this hf
  · next hig =>
      congr 1
      refine filter_congr fun n hn => ?_
      rw [Bool.eq_iff_iff, hmem n hn, contains_iff_mem]
      constructor
      · rintro ⟨hne, j, hj, hji⟩
        unfold renamed at hji
        split at hji
        · exact absurd hji.symm hig
        · rwa [← hji]
      · intro hi
        refine ⟨?_, i, hi, by rw [renamed, if_neg hif]⟩
        intro heq
        obtain rfl := hord.eq_of_key hn S.upper heq
        exact hig (mem_singleton.mp hi)

/-- The map of the pass is the users of the new plan. -/
theorem web_foldInto (c : Rex D) :
    (foldInto ⟨Q, Q.users⟩ f g c).web = (foldedPlan Q f g c).users := by
  funext i
  have hself : f ∉ Q.users f := by
    intro hmem
    obtain ⟨n, hn, hin, hid⟩ := Plan.mem_users.mp hmem
    have hirrefl := S.wo.irrefl n hn
    rw [hid] at hirrefl
    exact hirrefl hin
  rw [S.users_eq c]
  unfold foldInto
  dsimp only
  split
  · rfl
  split
  · have hgone : ([f] : List Nat).filter (fun u => decide (u ≠ f)) = [] := by simp
    simp only [S.users, filter_append, filter_filter, hgone, nil_append]
    rw [filter_eq_self]
    intro u hu
    have hne : u ≠ f := fun h => hself (h ▸ hu)
    simp [hne]
  · rfl

omit S in
theorem nodes_foldInto (c : Rex D) :
    (foldInto ⟨Q, Q.users⟩ f g c).nodes = foldedPlan Q f g c := by
  have hmap : (Q.map (resetCondition g c)).map (fun n =>
        if n.id ∈ Q.users f then replaceInput f g n else n)
      = Q.map (foldedNode Q f g c) := by
    rw [map_map]
    refine map_congr_left fun n _ => ?_
    simp only [comp_apply, resetCondition_id, foldedNode]
  unfold foldInto foldedPlan
  dsimp only
  rw [setCondition_eq_map, hmap]

end FoldShape

end Compass.Optimizer

namespace Compass.Optimizer

open Compass.PushDown List
open Compass.RelAlg
open Compass.LeftDeep (JoinType Row Database column holds)
open Plan RelAlgNode

variable {D : Type}

/-- The plan before a fold of `f` into `g`. -/
structure FoldStep (Q : Plan D) (f g x : Nat) (cf cg cr : Rex D) : Prop
    extends FoldShape Q f g x cf cg where
  wf : Q.WellFormed
  noCompound : ∀ n ∈ Q, isCompound n = false
  direct : ∀ n ∈ Q, f ∉ n.inputs → ∀ p ∈ exprInputs n, p.1 ≠ f
  copy : cf.deepCopy (redirectInput Q g x) = some cr

namespace FoldStep

variable {Q : Plan D} {f g x : Nat} {cf cg cr : Rex D} (S : FoldStep Q f g x cf cg cr)
include S

variable {n : RelAlgNode D}

/-- The lower filter has a new condition, and the other nodes read `g`
for `f`. -/
theorem foldedNode_eq (c : Rex D) (hn : n ∈ Q) :
    (n.id = g ∧ foldedNode Q f g c n = ⟨g, .filter x c⟩)
      ∨ (n.id ≠ g ∧ foldedNode Q f g c n = replaceInput f g n) := by
  rcases S.foldedNode_cases c hn with hlower | ⟨hg, -, h⟩ | ⟨hg, hf, h⟩
  · exact .inl hlower
  · exact .inr ⟨hg, h⟩
  · exact .inr ⟨hg, h.trans (replaceInput_of_free (S.noCompound n hn) hf (S.direct n hn hf)).symm⟩

/-- The sides of a join are renamed. -/
theorem sides_eq (c : Rex D) (hn : n ∈ Q) : (foldedPlan Q f g c).sides (renamed f g n.id)
      = (Q.sides n.id).map fun p => (renamed f g p.1, renamed f g p.2) := by
  have hord := S.wf.ordered
  have hlower : (foldedPlan Q f g c).sides g = none := by
    unfold sides
    rw [node?_of_mem (S.ordered c) (S.lower_mem c)]
  by_cases hf : n.id = f
  · obtain rfl := hord.eq_of_key hn S.upper hf
    rw [renamed, if_pos rfl, hlower]
    unfold sides
    rw [node?_of_mem hord S.upper]
    rfl
  · rw [renamed, if_neg hf]
    have hnode := node?_of_mem (S.ordered c) (FoldShape.foldedNode_mem c hn hf)
    rw [foldedNode_id] at hnode
    unfold sides
    rw [hnode, node?_of_mem hord hn]
    rcases S.foldedNode_eq c hn with ⟨hg, h⟩ | ⟨-, h⟩
    · obtain rfl := hord.eq_of_key hn S.lower hg
      rw [h]
      rfl
    · rw [h]
      have hsides := S.sides_ne n hn
      obtain ⟨id, body⟩ := n
      cases body with
      | join ty lhs rhs c' =>
        rw [replaceInput_join (hsides ty lhs rhs c' rfl)]
        rfl
      | _ => rfl

variable {p : Nat × Nat}

-- ------------------------------------------------------------ columns

/-- In a row of a join an input reads what it read. -/
theorem sideColumn_eq (c : Rex D) (hn : n ∈ Q) (hne : n.id ≠ f) {lhs rhs : Nat}
    (hl : lhs ∈ n.inputs) (hr : rhs ∈ n.inputs) (row : Row D) (hp : p.1 ∈ n.inputs) :
    sideColumn (foldedPlan Q f g c).sizes (renamed f g lhs) (renamed f g rhs) row
        (renamed f g p.1) p.2
      = sideColumn Q.sizes lhs rhs row p.1 p.2 := by
  unfold sideColumn
  simp only [S.renamed_inj hn hne hp hl, S.renamed_inj hn hne hp hr, S.sizes_renamed c]

/-- In a row of its input an expression reads what it read. -/
theorem column_eq (c : Rex D) {i : Nat} (hi : ∃ m ∈ Q, m.id = i) (row : Row D)
    (hp : Q.InScope i p) :
    inputColumn (foldedPlan Q f g c) (renamed f g i) row (renamed f g p.1) p.2
      = inputColumn Q i row p.1 p.2 := by
  obtain ⟨m, hm, rfl⟩ := hi
  unfold RelAlg.inputColumn
  rw [S.sides_eq c hm]
  unfold InScope at hp
  cases hsides : Q.sides m.id with
  | none =>
    rw [hsides] at hp
    rw [Option.map_none, hp.1]
    simp only [if_true]
  | some q =>
    obtain ⟨lhs, rhs⟩ := q
    rw [hsides] at hp
    obtain ⟨ty, c', hjoin⟩ := join_of_sides hsides
    have hne : m.id ≠ f := by
      intro heq
      rw [heq] at hjoin
      cases S.wf.ordered.eq_of_key hjoin S.upper rfl
    have hsource : p.1 = lhs ∨ p.1 = rhs := hp.imp (fun h => h.1) fun h => h.1
    exact S.sideColumn_eq c hjoin hne (by simp [inputs])
      (by simp [inputs]) row (by simpa [inputs] using hsource)

/-- What could be read still can. -/
theorem inScope (c : Rex D) {i : Nat} (hi : ∃ m ∈ Q, m.id = i) (hp : Q.InScope i p) :
    (foldedPlan Q f g c).InScope (renamed f g i) (renamed f g p.1, p.2) := by
  obtain ⟨m, hm, rfl⟩ := hi
  unfold InScope at hp ⊢
  rw [S.sides_eq c hm]
  cases hsides : Q.sides m.id with
  | none =>
    rw [hsides] at hp
    exact ⟨by rw [hp.1], by rw [S.sizes_renamed c]; exact hp.2⟩
  | some q =>
    rw [hsides] at hp
    rcases hp with ⟨hl, hlt⟩ | ⟨hr, hlt⟩
    · exact .inl ⟨by rw [hl], by rw [S.sizes_renamed c]; exact hlt⟩
    · exact .inr ⟨by rw [hr], by rw [S.sizes_renamed c]; exact hlt⟩

-- --------------------------------------------------------- the condition

/-- The lower filter and what is below it do not read the upper one. -/
theorem renamed_scope (hp : Q.InScope x p) :
    renamed f g x = x ∧ renamed f g p.1 = p.1 := by
  obtain ⟨rank, hrank, hxg, hgf⟩ := S.exists_order
  have hx : x ≠ f := S.ne.2.1
  refine ⟨if_neg hx, if_neg ?_⟩
  unfold InScope at hp
  cases hsides : Q.sides x with
  | none =>
    rw [hsides] at hp
    rw [hp.1]
    exact hx
  | some q =>
    rw [hsides] at hp
    obtain ⟨ty, c', hjoin⟩ := join_of_sides hsides
    have hbelow : rank p.1 < rank x := by
      rcases hp with ⟨hl, -⟩ | ⟨hr, -⟩
      · exact hrank _ hjoin _ (by simp [inputs, hl])
      · exact hrank _ hjoin _ (by simp [inputs, hr])
    intro heq
    rw [heq] at hbelow
    omega

theorem exists_x : ∃ m ∈ Q, m.id = x :=
  exists_input S.wf.ordered S.lower (mem_singleton.mpr rfl)

theorem sides_lower : Q.sides g = none := by
  unfold sides
  rw [node?_of_mem S.wf.ordered S.lower]

/-- The upper condition reads columns of the lower filter. -/
theorem inScope_upper (hp : p ∈ cf.inputs) : p.1 = g ∧ p.2 < Q.sizes x := by
  have hscope := S.wf.inScope _ S.upper p hp
  unfold InScope at hscope
  rw [S.sides_lower] at hscope
  have hsize : Q.sizes g = Q.sizes x := Plan.sizes_eq S.wf.ordered S.lower
  exact ⟨hscope.1, hsize ▸ hscope.2⟩

/-- The redirected condition reads the input of the lower filter. -/
theorem inScope_redirected (hp : p ∈ cr.inputs) : Q.InScope x p := by
  obtain ⟨q, hq, r, hr, hin⟩ := Rex.inputs_deepCopy S.copy p hp
  have hlt := (S.inScope_upper hq).2
  obtain ⟨-, hcases⟩ := redirectInput_cases hr
  unfold InScope
  rcases hcases with ⟨hsides, rfl⟩ | ⟨lhs, rhs, hsides, hcase⟩
  · rw [hsides]
    obtain rfl := mem_singleton.mp hin
    exact ⟨rfl, hlt⟩
  · rw [hsides]
    obtain ⟨ty, c', hjoin⟩ := join_of_sides hsides
    have hsize : Q.sizes x = Q.sizes lhs + Q.sizes rhs := Plan.sizes_eq S.wf.ordered hjoin
    rcases hcase with ⟨hle, rfl⟩ | ⟨hlt', rfl⟩
    · obtain rfl := mem_singleton.mp hin
      exact .inr ⟨rfl, by show q.2 - Q.sizes lhs < _; omega⟩
    · obtain rfl := mem_singleton.mp hin
      exact .inl ⟨rfl, hlt'⟩

/-- It has the value that the upper condition had. -/
theorem evalWith_redirected (I : Interp D) (row : Row D) :
    cr.evalWith I (inputColumn Q x row) = cf.evalWith I (inputColumn Q g row) := by
  have hread : ∀ p ∈ cf.inputs, ∃ r, redirectInput Q g x p.1 p.2 = some r
      ∧ r.evalWith I (inputColumn Q x row) = inputColumn Q g row p.1 p.2 := by
    intro p hp
    obtain ⟨hg, -⟩ := S.inScope_upper hp
    have hcolumn : inputColumn Q g row p.1 p.2 = column row p.2 := by
      unfold RelAlg.inputColumn
      rw [S.sides_lower]
      exact if_pos hg
    have hsome : ∃ r, redirectInput Q g x p.1 p.2 = some r := by
      unfold redirectInput
      rw [if_pos ⟨hg, S.ne.2.2.symm⟩]
      split
      · split
        · exact ⟨_, rfl⟩
        · exact ⟨_, rfl⟩
      · exact ⟨_, rfl⟩
    obtain ⟨r, hr⟩ := hsome
    refine ⟨r, hr, ?_⟩
    rw [hcolumn]
    obtain ⟨-, ⟨hsides, rfl⟩ | ⟨lhs, rhs, hsides, hcase⟩⟩ := redirectInput_cases hr
    · rw [Rex.evalWith]
      unfold RelAlg.inputColumn
      rw [hsides]
      exact if_pos rfl
    · obtain ⟨ty, c', hjoin⟩ := join_of_sides hsides
      have hne : rhs ≠ lhs := ((S.wf.inScope _ hjoin).1).symm
      rcases hcase with ⟨hle, rfl⟩ | ⟨hlt, rfl⟩
      · rw [Rex.evalWith]
        unfold RelAlg.inputColumn
        rw [hsides]
        simp only [sideColumn, if_neg hne, if_true]
        rw [show Q.sizes lhs + (p.2 - Q.sizes lhs) = p.2 by omega]
      · rw [Rex.evalWith]
        unfold RelAlg.inputColumn
        rw [hsides]
        simp only [sideColumn, if_true]
  obtain ⟨e', he', hval⟩ := Rex.deepCopy_eval I cf hread
  rw [S.copy] at he'
  rw [Option.some.inj he', hval]

variable (E : Engine D)

/-- The folded filter is true of the rows of which both are. -/
theorem holds_folded (ti : SQLTypeInfo) (row : Row D) :
    holds E.toInterp (inputColumn (foldedPlan Q f g (.oper .kAND [cg, cr] ti)) x row)
        (.oper .kAND [cg, cr] ti) = true
      ↔ holds E.toInterp (inputColumn Q x row) cg = true
        ∧ holds E.toInterp (inputColumn Q g row) cf = true := by
  have hkept : ∀ e : Rex D, (∀ p ∈ e.inputs, Q.InScope x p) →
      e.evalWith E.toInterp
          (inputColumn (foldedPlan Q f g (.oper .kAND [cg, cr] ti)) x row)
        = e.evalWith E.toInterp (inputColumn Q x row) := by
    intro e he
    refine Rex.evalWith_congr _ e fun p hp => ?_
    obtain ⟨hx, hsource⟩ := S.renamed_scope (he p hp)
    have hcolumn := S.column_eq (.oper .kAND [cg, cr] ti) S.exists_x row (he p hp)
    rwa [hx, hsource] at hcolumn
  rw [holds_true_iff, holds_true_iff, holds_true_iff, ← S.evalWith_redirected,
    ← hkept cg (S.wf.inScope _ S.lower), ← hkept cr fun p hp => S.inScope_redirected hp]
  simp only [Rex.evalWith, Rex.evalsWith, Interp.operValue, Value.truth_ofTruth,
    Truth.all_eq_yes_iff, map_cons, map_nil, forall_mem_cons,
    not_mem_nil, false_imp_iff, implies_true, and_true]

-- --------------------------------------------------------- the new plan

theorem wellFormed (ti : SQLTypeInfo) :
    (foldedPlan Q f g (.oper .kAND [cg, cr] ti)).WellFormed := by
  set c : Rex D := .oper .kAND [cg, cr] ti with hc
  have hord := S.wf.ordered
  refine ⟨S.ordered c, ?_, ?_⟩
  · intro n hn
    obtain ⟨m, hm, hne, rfl⟩ := FoldShape.mem_foldedPlan.mp hn
    rcases S.foldedNode_eq c hm with ⟨hg, h⟩ | ⟨-, h⟩
    · rw [h]
      intro p hp
      have hscope : Q.InScope x p := by
        rw [hc, Rex.inputs, Rex.inputsAll, Rex.inputsAll, Rex.inputsAll, append_nil,
          mem_append] at hp
        rcases hp with hp | hp
        · exact S.wf.inScope _ S.lower p hp
        · exact S.inScope_redirected hp
      obtain ⟨hx, hsource⟩ := S.renamed_scope hscope
      have := S.inScope c S.exists_x hscope
      rwa [hx, hsource] at this
    · rw [h]
      have hscope := S.wf.inScope m hm
      have hinput : ∀ i ∈ m.inputs, ∃ m' ∈ Q, m'.id = i := fun i hi =>
        exists_input hord hm hi
      have hcompound := S.noCompound m hm
      have hsides := S.sides_ne m hm
      obtain ⟨id, body⟩ := m
      cases body with
      | scan size | logicalValues size => trivial
      | project input exprs fields =>
        intro e he p hp
        obtain ⟨e', he', rfl⟩ := mem_map.mp he
        obtain ⟨q, hq, rfl⟩ := mem_inputs_rebind hp
        exact S.inScope c (hinput input (mem_singleton.mpr rfl)) (hscope e' he' q hq)
      | filter input c' =>
        intro p hp
        obtain ⟨q, hq, rfl⟩ := mem_inputs_rebind hp
        exact S.inScope c (hinput input (mem_singleton.mpr rfl)) (hscope q hq)
      | aggregate input g' aggs fields =>
        have hsize : (foldedPlan Q f g c).sizes (if input = f then g else input)
            = Q.sizes input := S.sizes_renamed c input
        show g' ≤ _ ∧ ∀ a ∈ aggs, ∀ i ∈ a.operands, i < _
        rw [hsize]
        exact hscope
      | sort input collation limit offset =>
        have hsize : (foldedPlan Q f g c).sizes (if input = f then g else input)
            = Q.sizes input := S.sizes_renamed c input
        show ∀ y ∈ collation, y.field < _
        rw [hsize]
        exact hscope
      | join ty lhs rhs c' =>
        rw [replaceInput_join (hsides ty lhs rhs c' rfl)]
        have hl : lhs ∈ (⟨id, .join ty lhs rhs c'⟩ : RelAlgNode D).inputs := by
          simp [inputs]
        have hr : rhs ∈ (⟨id, .join ty lhs rhs c'⟩ : RelAlgNode D).inputs := by
          simp [inputs]
        refine ⟨?_, ?_⟩
        · rw [Ne, S.renamed_inj hm hne hl hr]
          exact hscope.1
        · intro p hp
          obtain ⟨q, hq, rfl⟩ := mem_inputs_rebind hp
          have hin := S.inScope c ⟨_, hm, rfl⟩ (hscope.2 q hq)
          have hid : renamed f g id = id := if_neg hne
          rwa [hid] at hin
      | compound input c' => cases hcompound
  · intro n hn
    obtain ⟨m, hm, hne, rfl⟩ := FoldShape.mem_foldedPlan.mp hn
    rw [foldedNode_id, S.sizes_eq c]
    dsimp only
    rw [if_neg hne]
    exact S.wf.nonempty m hm

/-- A renamed condition holds where it did. -/
theorem holds_rebind (c : Rex D) {i : Nat} (hi : ∃ m ∈ Q, m.id = i) {e : Rex D}
    (he : ∀ p ∈ e.inputs, Q.InScope i p) (row : Row D) :
    holds E.toInterp (inputColumn (foldedPlan Q f g c) (renamed f g i) row) (rebind f g e)
      = holds E.toInterp (inputColumn Q i row) e := by
  unfold holds
  rw [evalWith_rebind E.toInterp fun p hp => S.column_eq c hi row (he p hp)]

/-- A renamed node computes what it did. -/
theorem nodeRows_eq [DecidableEq D] (db : Database D) (c : Rex D) (hn : n ∈ Q)
    (hne : n.id ≠ f) {t t' : Nat → List (Row D)} (h : ∀ i ∈ n.inputs, t' (renamed f g i) = t i) :
    nodeRows (foldedPlan Q f g c) E db (replaceInput f g n) t' = nodeRows Q E db n t := by
  have hscope := S.wf.inScope n hn
  have hinput : ∀ i ∈ n.inputs, ∃ m ∈ Q, m.id = i := fun i hi =>
    exists_input S.wf.ordered hn hi
  have hcompound := S.noCompound n hn
  obtain ⟨id, body⟩ := n
  cases body with
  | scan size | logicalValues size => rfl
  | project input exprs fields =>
    have hin : t' (if input = f then g else input) = t input :=
      h input (mem_singleton.mpr rfl)
    simp only [replaceInput, nodeRows, hin, map_map]
    refine map_congr_left fun row _ => map_congr_left fun e he => ?_
    exact evalWith_rebind _ fun p hp =>
      S.column_eq c (hinput input (mem_singleton.mpr rfl)) row (hscope e he p hp)
  | filter input c' =>
    have hin : t' (if input = f then g else input) = t input :=
      h input (mem_singleton.mpr rfl)
    simp only [replaceInput, nodeRows, hin]
    refine filter_congr fun row _ => ?_
    exact S.holds_rebind E c (hinput input (mem_singleton.mpr rfl)) hscope row
  | aggregate input g' aggs fields | sort input collation limit offset =>
    have hin : t' (if input = f then g else input) = t input :=
      h input (mem_singleton.mpr rfl)
    simp only [replaceInput, nodeRows, hin]
  | join ty lhs rhs c' =>
    have hlmem : lhs ∈ (⟨id, .join ty lhs rhs c'⟩ : RelAlgNode D).inputs := by
      simp [inputs]
    have hrmem : rhs ∈ (⟨id, .join ty lhs rhs c'⟩ : RelAlgNode D).inputs := by
      simp [inputs]
    have hsides : Q.sides id = some (lhs, rhs) := sides_of_join S.wf.ordered hn
    have hcond : (fun row : Row D => holds E.toInterp (sideColumn (foldedPlan Q f g c).sizes
          (renamed f g lhs) (renamed f g rhs) row) (rebind f g c'))
        = fun row => holds E.toInterp (sideColumn Q.sizes lhs rhs row) c' := by
      funext row
      unfold holds
      rw [evalWith_rebind E.toInterp fun p hp => ?_]
      have hp' := hscope.2 p hp
      unfold InScope at hp'
      rw [hsides] at hp'
      refine S.sideColumn_eq c hn hne hlmem hrmem row ?_
      rcases hp' with ⟨hl, -⟩ | ⟨hr, -⟩
      · rwa [hl]
      · rwa [hr]
    rw [replaceInput_join hscope.1]
    cases ty with
    | INNER => simp only [nodeRows, h lhs hlmem, h rhs hrmem, hcond]
    | LEFT => simp only [nodeRows, h lhs hlmem, h rhs hrmem, hcond, S.sizes_renamed c]
  | compound input c' => cases hcompound

/-- The lower filter has the rows of the upper one, and the other nodes
have theirs. -/
theorem rows_eq [DecidableEq D] (db : Database D) (ti : SQLTypeInfo) :
    (foldedPlan Q f g (.oper .kAND [cg, cr] ti)).rows E db
      = fun i => if i = f then [] else if i = g then Q.rows E db f else Q.rows E db i := by
  set c : Rex D := .oper .kAND [cg, cr] ti with hc
  have hord := S.wf.ordered
  refine Tabulate.tabulate_unique (S.ordered c) (nodeRows_local _ E db) ?_ ?_
  · intro i hi
    split
    · rfl
    next hif =>
    split
    · next hig => exact absurd (hig ▸ rfl) (hi _ (S.lower_mem c))
    · next hig =>
        refine Tabulate.tabulate_of_ne ?_
        intro n hn heq
        have hmem := @FoldShape.foldedNode_mem D Q f g c n hn (by rwa [heq])
        exact hi _ hmem (by rw [foldedNode_id, heq])
  · intro n hn
    obtain ⟨m, hm, hne, rfl⟩ := FoldShape.mem_foldedPlan.mp hn
    rw [foldedNode_id, if_neg hne]
    rcases S.foldedNode_eq c hm with ⟨hg, h⟩ | ⟨hg, h⟩
    · rw [h, if_pos hg]
      have hupper : Q.rows E db f = (Q.rows E db g).filter fun row =>
          holds E.toInterp (inputColumn Q g row) cf := Plan.rows_eq E db hord S.upper
      have hlower : Q.rows E db g = (Q.rows E db x).filter fun row =>
          holds E.toInterp (inputColumn Q x row) cg := Plan.rows_eq E db hord S.lower
      rw [hupper, hlower, filter_filter]
      show _ = filter _ (if x = f then [] else if x = g then _ else Q.rows E db x)
      rw [if_neg S.ne.2.1, if_neg S.ne.2.2]
      refine filter_congr fun row _ => ?_
      rw [Bool.eq_iff_iff, Bool.and_eq_true, S.holds_folded E ti row, and_comm]
    · rw [h, if_neg hg, Plan.rows_eq E db hord hm]
      symm
      refine S.nodeRows_eq E db c hm hne ?_
      intro i hi
      have hig := S.input_ne hm hne i hi
      unfold renamed
      split
      · next hif => rw [if_neg S.ne.1, if_pos rfl, hif]
      · rfl

end FoldStep

end Compass.Optimizer
