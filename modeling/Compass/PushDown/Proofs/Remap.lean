/-
Where the columns go when a compound is put over a scan.

Only the width of one table changes, from all columns of the scan to
`cols_to_project`. An input of that table is found under the position of
its column there, an input of a table behind it moves by the difference,
and the others stay: the index that `buildNewFilterExpr` computes stands
for the same column in the new plan (`columnOf_buildNewInput`).
-/
import Compass.PushDown.Proofs.Plan

namespace Compass.PushDown

open List Option Nat
open RelNode

namespace RelNode

section

variable {s k₀ : Nat} {K : List ColInfo} {fields : List String}

variable {n : RelNode} {cId i : Nat}

-- ======== the new node

theorem insertCompound_of_not_mem (h : s ∉ n.tables) :
    n.insertCompound s k₀ K = n := by
  induction n with
  | scan i fs =>
    have hi : ¬ i = s := fun hi => h (by simp [tables, tNumCols, hi])
    simp [insertCompound, hi]
  | derived i fs input ih | compound i cols input ih => rfl
  | through i input ih => rw [insertCompound, ih h]
  | join i lhs rhs ihl ihr =>
    rw [tables_join, mem_append, not_or] at h
    rw [insertCompound, ihl h.1, ihr h.2]

/-- The columns that go away. -/
def lost (fields : List String) (K : List ColInfo) : Int :=
  (fields.length : Int) - K.length

theorem length_outputs_insertCompound (hd : n.tables.Nodup)
    (h : n.find? s = some (.scan s fields)) :
    ((n.insertCompound s k₀ K).outputs.length : Int)
      = n.outputs.length - lost fields K := by
  refine scan_induct (Q := fun n => ((n.insertCompound s k₀ K).outputs.length : Int)
    = n.outputs.length - lost fields K) ?_ ?_ ?_ ?_ hd h
  · simp [insertCompound, outputs, lost]
  · intro i input _ _ ih
    exact ih
  · intro i lhs rhs _ _ _ hr ih
    rw [insertCompound, outputs, outputs, insertCompound_of_not_mem hr,
      length_append, length_append]
    omega
  · intro i lhs rhs _ _ _ hl ih
    rw [insertCompound, outputs, outputs, insertCompound_of_not_mem hl,
      length_append, length_append]
    omega

-- ======== the indices

/-- `num_modifier` after the tables of a list. -/
def passModifier (s : Nat) (K : List ColInfo) (ts : List (Nat × Nat)) (m : Int) : Int :=
  ts.foldl (fun m x => if x.1 = s then (x.2 : Int) - K.length else m) m

theorem passModifier_of_not_mem {ts : List (Nat × Nat)} {m : Int}
    (h : s ∉ ts.map Prod.fst) : passModifier s K ts m = m := by
  induction ts generalizing m with
  | nil => rfl
  | cons x ts ih =>
    simp only [map_cons, mem_cons, not_or] at h
    have hx : ¬ x.1 = s := fun hx => h.1 hx.symm
    simp only [passModifier, foldl_cons, hx, if_false]
    exact ih h.2

theorem passModifier_append (ss ts : List (Nat × Nat)) (m : Int) :
    passModifier s K (ss ++ ts) m = passModifier s K ts (passModifier s K ss m) := by
  simp [passModifier]

theorem passModifier_of_find? (hd : n.tables.Nodup) (h : n.find? s = some (.scan s fields))
    (m : Int) :
    passModifier s K n.tNumCols m = lost fields K := by
  revert m
  refine scan_induct (Q := fun n => ∀ m, passModifier s K n.tNumCols m = lost fields K)
    ?_ ?_ ?_ ?_ hd h
  · intro m
    simp [passModifier, tNumCols, lost]
  · intro i input _ _ ih
    exact ih
  · intro i lhs rhs _ _ _ hr ih m
    rw [tNumCols, passModifier_append, passModifier_of_not_mem hr]
    exact ih m
  · intro i lhs rhs _ _ _ _ ih m
    rw [tNumCols, passModifier_append]
    exact ih _

theorem remapIndex_append (off : Nat) (hoff : off ≤ cId) (m : Int) (ss ts : List (Nat × Nat)) :
    remapIndex s cId K (ss ++ ts) off m
      = if cId < off + totalCols ss then remapIndex s cId K ss off m
        else remapIndex s cId K ts (off + totalCols ss) (passModifier s K ss m) := by
  induction ss generalizing off m with
  | nil =>
    have : ¬ cId < off := by omega
    simp [this, passModifier]
  | cons x ss ih =>
    obtain ⟨t, w⟩ := x
    by_cases hw : cId < off + w
    · have : cId < off + (w + totalCols ss) := by omega
      simp [remapIndex, hw, this]
    · have := ih (off + w) (by omega) (if t = s then (w : Int) - K.length else m)
      simp only [cons_append, remapIndex, hw, if_false, this, totalCols_cons,
        add_assoc, passModifier, foldl_cons]

theorem remapIndex_single {t w off : Nat} {m : Int} (ht : t ≠ s) (h : cId < off + w) :
    remapIndex s cId K [(t, w)] off m = some (false, ((cId : Int) - m).toNat) := by
  simp [remapIndex, h, ht]

/-- An index of a node without the scan's table moves by what has gone
before. -/
theorem remapIndex_of_not_mem (hs : s ∉ n.tables) (off : Nat) (hoff : off ≤ cId) (m : Int)
    {col : Nat × Nat} (h : n.outputs[cId - off]? = some col) :
    remapIndex s cId K n.tNumCols off m = some (false, ((cId : Int) - m).toNat) := by
  have hlt := (List.getElem?_eq_some_iff.mp h).1
  rw [length_outputs] at hlt
  induction n generalizing off m with
  | scan i fs | derived i fs input ih | compound i cols input ih =>
    simp only [tNumCols, totalCols_cons, totalCols_nil] at hlt
    simp only [tables, tNumCols, map_cons, map_nil, mem_singleton] at hs
    exact remapIndex_single (fun hi => hs hi.symm) (by omega)
  | through i input ih => exact ih hs off hoff m h hlt
  | join i lhs rhs ihl ihr =>
    rw [tables_join, mem_append, not_or] at hs
    rw [outputs] at h
    rw [tNumCols, totalCols_append] at hlt
    rw [tNumCols, remapIndex_append off hoff]
    by_cases hl : cId < off + totalCols lhs.tNumCols
    · rw [if_pos hl]
      rw [getElem?_append_left (by rw [length_outputs]; omega)] at h
      exact ihl hs.1 off hoff m h (by omega)
    · rw [if_neg hl, passModifier_of_not_mem hs.1]
      rw [getElem?_append_right (by rw [length_outputs]; omega), length_outputs, Nat.sub_sub] at h
      exact ihr hs.2 _ (by omega) m h (by omega)

/-- Where the index `cId` of a node with the scan's table goes: a column
of the scan to its place in `cols_to_project`, a column of a table before
the scan's or behind it to where the new node has it. -/
def Remapped (s k₀ : Nat) (K : List ColInfo) (fields : List String) (cId : Nat)
    (n : RelNode) : Prop :=
  ∀ off, off ≤ cId → ∀ m : Int, ∀ t c, n.outputs[cId - off]? = some (t, c) →
    (t = s → c ≤ cId - off
      ∧ remapIndex s cId K n.tNumCols off m
          = (K.findIdx? fun x => x.1 = c).map (fun k => (true, k + (cId - c)))
      ∧ ∀ k x, K[k]? = some x → x.1 = c →
          (n.insertCompound s k₀ K).outputs[k + (cId - c) - off]? = some (s, c))
    ∧ (t ≠ s →
      (remapIndex s cId K n.tNumCols off m = some (false, ((cId : Int) - m).toNat)
          ∧ (n.insertCompound s k₀ K).outputs[cId - off]? = some (t, c))
      ∨ (remapIndex s cId K n.tNumCols off m
            = some (false, ((cId : Int) - lost fields K).toNat)
          ∧ (off : Int) ≤ cId - lost fields K
          ∧ (n.insertCompound s k₀ K).outputs[((cId : Int) - lost fields K - off).toNat]?
            = some (t, c)))

theorem remapped_scan (cId : Nat) :
    Remapped s k₀ K fields cId (.scan s fields) := by
  intro off hoff m t c h
  simp only [outputs, getElem?_map, map_eq_some_iff] at h
  obtain ⟨x, hx, hxc⟩ := h
  obtain ⟨hlt, hx⟩ := List.getElem?_eq_some_iff.mp hx
  rw [length_range] at hlt
  rw [getElem_range] at hx
  injection hxc with ht hc
  subst ht
  refine ⟨fun _ => ⟨by omega, ?_, ?_⟩, fun hne => absurd rfl hne⟩
  · have hin : cId < off + fields.length := by omega
    have hc' : cId - off = c := by omega
    have hoff' : off = cId - c := by omega
    simp only [tNumCols, remapIndex, hin, if_true, hc']
    rw [hoff']
  · intro k x hk hxc
    have hidx : k + (cId - c) - off = k := by omega
    simp [insertCompound, outputs, hidx, hk, hxc, findBaseTableId]

theorem getElem?_append_of_some {α : Type} {l : List α} {x : α} (h : l[i]? = some x) (l' : List α) :
    (l ++ l')[i]? = some x := by
  rw [getElem?_append_left (List.getElem?_eq_some_iff.mp h).1]
  exact h

variable {lhs rhs : RelNode}

theorem remapped_joinL (hdl : lhs.tables.Nodup) (hfind : lhs.find? s = some (.scan s fields))
    (hr : s ∉ rhs.tables) (ih : Remapped s k₀ K fields cId lhs) :
    Remapped s k₀ K fields cId (.join i lhs rhs) := by
  intro off hoff m t c h
  have hlen := length_outputs lhs
  have hlen' : ((lhs.insertCompound s k₀ K).outputs.length : Int)
      = lhs.outputs.length - lost fields K := length_outputs_insertCompound hdl hfind
  rw [outputs] at h
  rw [tNumCols, remapIndex_append off hoff, insertCompound, outputs, insertCompound_of_not_mem hr]
  by_cases hl : cId < off + totalCols lhs.tNumCols
  · rw [getElem?_append_left (by omega)] at h
    obtain ⟨hown, hother⟩ := ih off hoff m t c h
    rw [if_pos hl]
    refine ⟨fun ht => ?_, fun ht => ?_⟩
    · obtain ⟨hle, hremap, hout⟩ := hown ht
      exact ⟨hle, hremap, fun k x hk hx => getElem?_append_of_some (hout k x hk hx) _⟩
    · rcases hother ht with ⟨hremap, hout⟩ | ⟨hremap, hle, hout⟩
      · exact .inl ⟨hremap, getElem?_append_of_some hout _⟩
      · exact .inr ⟨hremap, hle, getElem?_append_of_some hout _⟩
  · rw [getElem?_append_right (by omega)] at h
    rw [if_neg hl, passModifier_of_find? hdl hfind]
    have ht : t ≠ s := by
      intro heq
      subst heq
      exact hr (table_of_mem_outputs (mem_of_getElem? h))
    refine ⟨fun hts => absurd hts ht, fun _ => .inr ⟨?_, by omega, ?_⟩⟩
    · have hidx : cId - (off + totalCols lhs.tNumCols)
          = cId - off - lhs.outputs.length := by omega
      exact remapIndex_of_not_mem hr _ (by omega) _ (by rw [hidx]; exact h)
    · rw [getElem?_append_right (by omega)]
      have hidx : ((cId : Int) - lost fields K - off).toNat
          - (lhs.insertCompound s k₀ K).outputs.length
          = cId - off - lhs.outputs.length := by omega
      rw [hidx]
      exact h

theorem remapped_joinR (hl : s ∉ lhs.tables) (ih : Remapped s k₀ K fields cId rhs) :
    Remapped s k₀ K fields cId (.join i lhs rhs) := by
  intro off hoff m t c h
  have hlen := length_outputs lhs
  rw [outputs] at h
  rw [tNumCols, remapIndex_append off hoff, insertCompound, outputs,
    insertCompound_of_not_mem hl, passModifier_of_not_mem hl]
  by_cases hin : cId < off + totalCols lhs.tNumCols
  · rw [getElem?_append_left (by omega)] at h
    have ht : t ≠ s := by
      intro heq
      subst heq
      exact hl (table_of_mem_outputs (mem_of_getElem? h))
    rw [if_pos hin]
    exact ⟨fun hts => absurd hts ht, fun _ => .inl
      ⟨remapIndex_of_not_mem hl off hoff m h, getElem?_append_of_some h _⟩⟩
  · rw [getElem?_append_right (by omega), Nat.sub_sub, hlen] at h
    obtain ⟨hown, hother⟩ := ih (off + totalCols lhs.tNumCols) (by omega) m t c h
    rw [if_neg hin]
    -- the right input starts at the same place as before
    have hshift : ∀ {j : Nat} {x : Nat × Nat}, off + totalCols lhs.tNumCols ≤ j →
        (rhs.insertCompound s k₀ K).outputs[j - (off + totalCols lhs.tNumCols)]? = some x →
        (lhs.outputs ++ (rhs.insertCompound s k₀ K).outputs)[j - off]? = some x := by
      intro j x hj hx
      rw [getElem?_append_right (by omega), hlen, Nat.sub_sub]
      exact hx
    refine ⟨fun ht => ?_, fun ht => ?_⟩
    · obtain ⟨hle, hremap, hout⟩ := hown ht
      exact ⟨by omega, hremap, fun k x hk hx => hshift (by omega) (hout k x hk hx)⟩
    · rcases hother ht with ⟨hremap, hout⟩ | ⟨hremap, hle, hout⟩
      · exact .inl ⟨hremap, hshift (by omega) hout⟩
      · refine .inr ⟨hremap, by omega, ?_⟩
        have hj : ((cId : Int) - lost fields K - off).toNat
            = ((cId : Int) - lost fields K).toNat - off := by omega
        rw [hj]
        refine hshift (by omega) ?_
        have hj' : ((cId : Int) - lost fields K).toNat - (off + totalCols lhs.tNumCols)
            = ((cId : Int) - lost fields K - (off + totalCols lhs.tNumCols : Nat)).toNat := by
          omega
        rw [hj']
        exact hout

theorem remapped_of_find? (hd : n.tables.Nodup) (h : n.find? s = some (.scan s fields)) :
    Remapped s k₀ K fields cId n := by
  refine scan_induct (Q := Remapped s k₀ K fields cId) (remapped_scan cId) ?_ ?_ ?_ hd h
  · intro i input _ _ ih
    exact ih
  · intro i lhs rhs hdl _ hfind hr ih
    exact remapped_joinL hdl hfind hr ih
  · intro i lhs rhs _ _ _ hl ih
    exact remapped_joinR hl ih

-- ======== the nodes

theorem id_mem_ids (n : RelNode) : n.id ∈ n.ids := by
  cases n <;> simp [RelNode.id, ids]

theorem find?_mem_ids {m : RelNode} (h : n.find? i = some m) :
    i ∈ n.ids := by
  induction n with
  | scan j fs | derived j fs input ih | compound j cols input ih =>
    unfold find? at h
    split at h
    · next hj => exact hj ▸ id_mem_ids _
    · cases h
  | through j input ih =>
    unfold find? at h
    split at h
    · next hj => exact hj ▸ id_mem_ids _
    · exact mem_cons_of_mem _ (ih h)
  | join j lhs rhs ihl ihr =>
    unfold find? at h
    split at h
    · next hj => exact hj ▸ id_mem_ids _
    · simp only [or_eq_some_iff] at h
      rcases h with h | ⟨-, h⟩
      · exact mem_append_left _ (mem_cons_of_mem _ (ihl h))
      · exact mem_append_right _ (ihr h)

/-- Every visible node but the scan is where it was. -/
theorem find?_insertCompound (his : i ≠ s) (hik : i ≠ k₀) :
    (n.insertCompound s k₀ K).find? i
      = (n.find? i).map (insertCompound s k₀ K) := by
  induction n with
  | scan j fs =>
    by_cases hj : j = s
    · have hjs : ¬ s = i := fun h => his h.symm
      have hki : ¬ k₀ = i := fun h => hik h.symm
      simp [insertCompound, hj, find?, RelNode.id, hjs, hki]
    · by_cases hji : j = i
      · simp [insertCompound, find?, RelNode.id, hji, his]
      · simp [insertCompound, hj, find?, RelNode.id, hji]
  | derived j fs input ih | compound j cols input ih =>
    by_cases hji : j = i
    · simp [insertCompound, find?, RelNode.id, hji]
    · simp [insertCompound, find?, RelNode.id, hji]
  | through j input ih =>
    by_cases hji : j = i
    · simp [insertCompound, find?, RelNode.id, hji]
    · simp [insertCompound, find?, RelNode.id, hji, ih]
  | join j lhs rhs ihl ihr =>
    by_cases hji : j = i
    · simp [insertCompound, find?, RelNode.id, hji]
    · simp only [insertCompound, find?, RelNode.id, hji, if_false, ihl, ihr]
      cases lhs.find? i <;> rfl

/-- The compound is visible in place of the scan. -/
theorem find?_compound (hd : n.tables.Nodup) (h : n.find? s = some (.scan s fields))
    (hk : k₀ ∉ n.ids) :
    (n.insertCompound s k₀ K).find? k₀ = some (.compound k₀ K (.scan s fields)) := by
  revert hk
  refine scan_induct (Q := fun n => k₀ ∉ n.ids → (n.insertCompound s k₀ K).find? k₀
    = some (.compound k₀ K (.scan s fields))) ?_ ?_ ?_ ?_ hd h
  · intro _
    simp [insertCompound, find?, RelNode.id]
  · intro i input _ _ ih hk
    simp only [ids, mem_cons, not_or] at hk
    simp [insertCompound, find?, RelNode.id, Ne.symm hk.1, ih hk.2]
  · intro i lhs rhs _ _ _ _ ih hk
    simp only [ids, cons_append, mem_cons, mem_append, not_or] at hk
    simp [insertCompound, find?, RelNode.id, Ne.symm hk.1, ih hk.2.1]
  · intro i lhs rhs _ _ _ hl ih hk
    simp only [ids, cons_append, mem_cons, mem_append, not_or] at hk
    have hnone : lhs.find? k₀ = none := by
      cases hf : lhs.find? k₀ with
      | none => rfl
      | some m => exact absurd (find?_mem_ids hf) hk.2.1
    simp [insertCompound, insertCompound_of_not_mem hl, find?, RelNode.id,
      Ne.symm hk.1, hnone, ih hk.2.2]

theorem find?_through {input : RelNode}
    (h : (RelNode.through i input).find? s = some (.scan s fields)) :
    input.find? s = some (.scan s fields) := by
  unfold find? at h
  split at h
  · injection h with h
    cases h
  · exact h

theorem find?_join (h : (RelNode.join i lhs rhs).find? s = some (.scan s fields)) :
    lhs.find? s = some (.scan s fields) ∨ rhs.find? s = some (.scan s fields) := by
  unfold find? at h
  split at h
  · injection h with h
    cases h
  · simp only [or_eq_some_iff] at h
    exact h.imp (fun h => h) And.right

/-- A visible node that has the scan's table has the scan. -/
theorem find?_scan_found {m : RelNode} (hd : n.tables.Nodup) (h : n.find? s = some (.scan s fields))
    (hi : n.find? i = some m) (hs : s ∈ m.tables) : m.find? s = some (.scan s fields) := by
  have hm : m.tables.Nodup ∧ (s ∈ m.tables → m.find? s = some (.scan s fields)) := by
    refine find?_induct (Q := fun m => m.tables.Nodup
      ∧ (s ∈ m.tables → m.find? s = some (.scan s fields))) ?_ ?_ ?_ ⟨hd, fun _ => h⟩ hi
    · intro j input hq
      exact ⟨hq.1, fun hs => find?_through (hq.2 hs)⟩
    · intro j lhs rhs hq
      rw [tables_join, nodup_append] at hq
      refine ⟨hq.1.1, fun hs => ?_⟩
      rcases find?_join (hq.2 (mem_append_left _ hs)) with hl | hr
      · exact hl
      · exact absurd rfl (hq.1.2.2 s hs s (mem_tables_of_find? hr))
    · intro j lhs rhs hq
      rw [tables_join, nodup_append] at hq
      refine ⟨hq.1.2.1, fun hs => ?_⟩
      rcases find?_join (hq.2 (mem_append_right _ hs)) with hl | hr
      · exact absurd rfl (hq.1.2.2 s (mem_tables_of_find? hl) s hs)
      · exact hr
  exact hm.2 hs

theorem compound_mem_ids (hd : n.tables.Nodup) (h : n.find? s = some (.scan s fields))
    (hk : k₀ ∉ n.ids) :
    k₀ ∈ (n.insertCompound s k₀ K).ids :=
  find?_mem_ids (find?_compound hd h hk)

theorem ids_found {x : Nat} {m : RelNode} (h : n.find? i = some m) (hx : x ∈ m.ids) :
    x ∈ n.ids := by
  refine find?_induct (Q := fun m => ∀ y ∈ m.ids, y ∈ n.ids) ?_ ?_ ?_
    (fun _ h => h) h x hx
  · intro j input hq y hy
    exact hq y (mem_cons_of_mem _ hy)
  · intro j lhs rhs hq y hy
    exact hq y (mem_append_left _ (mem_cons_of_mem _ hy))
  · intro j lhs rhs hq y hy
    exact hq y (mem_append_right _ hy)

end

end RelNode

-- ======== the inputs

section

variable {D : Type} {P : Plan} {s k₀ : Nat} {K : List ColInfo}

/-- The column is one of `cols_to_project`. -/
def Projects (K : List ColInfo) (c : Nat) : Prop :=
  ∃ x ∈ K, x.1 = c

variable {source : Nat}

theorem columnOf_found {cId : Nat} {n : RelNode} {col : Nat × Nat}
    (hn : P.root.find? source = some n) (hc : n.outputs[cId]? = some col) :
    P.columnOf source cId = some col :=
  Plan.columnOf_eq_some.mpr ⟨n, hn, hc⟩

/-- The new index of a column of the scan, if it is projected. -/
theorem findIdx?_projects {c : Nat} (h : Projects K c) :
    ∃ k x, K.findIdx? (fun x => x.1 = c) = some k ∧ K[k]? = some x ∧ x.1 = c := by
  obtain ⟨x, hx, hxc⟩ := h
  cases hk : K.findIdx? (fun x => x.1 = c) with
  | none =>
    have := findIdx?_eq_none_iff.mp hk x hx
    simp [hxc] at this
  | some k =>
    obtain ⟨hlt, hp, -⟩ := findIdx?_eq_some_iff_getElem.mp hk
    exact ⟨k, K[k], rfl, getElem?_eq_getElem hlt, of_decide_eq_true hp⟩

theorem findIdx?_not_projects {c : Nat} (h : ¬ Projects K c) :
    K.findIdx? (fun x => x.1 = c) = none := by
  rw [findIdx?_eq_none_iff]
  intro x hx
  exact decide_eq_false fun hxc => h ⟨x, hx, hxc⟩

/-- An input goes to an input of the same column in the new plan. -/
def GoesTo (P : Plan) (s k₀ : Nat) (K : List ColInfo) (source cId : Nat) (col : Nat × Nat) : Prop :=
  ∃ source' cId', (buildNewInput P s k₀ K source cId : Option (Rex D))
      = some (.input source' cId')
    ∧ (P.insertCompound s k₀ K).columnOf source' cId' = some col

section

variable {fields : List String} (hscan : P.root.find? s = some (.scan s fields))
include hscan

/-- The node that takes the place of a source with the scan's table. -/
theorem find?_newSource {n : RelNode} (hk : k₀ ∉ P.root.ids) (hn : P.root.find? source = some n) :
    (P.insertCompound s k₀ K).root.find? (if s = source then k₀ else source)
      = some (n.insertCompound s k₀ K) := by
  by_cases hss : s = source
  · subst hss
    rw [hscan] at hn
    cases hn
    rw [if_pos rfl, insertCompound, if_pos rfl]
    exact find?_compound P.tables_nodup hscan hk
  · rw [if_neg hss]
    have hsk : source ≠ k₀ := by
      intro heq
      subst heq
      exact hk (find?_mem_ids hn)
    show (P.root.insertCompound s k₀ K).find? source = _
    rw [find?_insertCompound (fun h => hss h.symm) hsk, hn, map_some]

theorem isConnected_of_mem {n : RelNode} (hk : k₀ ∉ P.root.ids)
    (hn : P.root.find? source = some n) (hfind : n.find? s = some (.scan s fields)) :
    isConnected P s k₀ K source = true := by
  have hnew : (P.insertCompound s k₀ K).root.find? (if s = source then k₀ else source)
      = some (n.insertCompound s k₀ K) := find?_newSource hscan hk hn
  by_cases hss : s = source
  · subst hss
    rw [hscan] at hn
    cases hn
    rw [if_pos rfl] at hnew
    simp [isConnected, hnew, insertCompound, hasConnection, RelNode.ids]
  · rw [if_neg hss] at hnew
    have hmem : k₀ ∈ (n.insertCompound s k₀ K).ids :=
      compound_mem_ids (nodup_found P.tables_nodup hn) hfind
        fun hx => hk (ids_found hn hx)
    simp [isConnected, hnew, hasConnection, hmem]

end

/-- `buildNewFilterExpr` on an input: it stands for the same column in
the new plan, and a column of the scan that is not projected is dropped. -/
theorem columnOf_buildNewInput (hs : P.IsScan s) (hk : k₀ ∉ P.root.ids) {cId t c : Nat}
    (hcol : P.columnOf source cId = some (t, c)) :
    ((t ≠ s ∨ Projects K c) → GoesTo (D := D) P s k₀ K source cId (t, c))
      ∧ (t = s → ¬ Projects K c →
        (buildNewInput P s k₀ K source cId : Option (Rex D)) = none) := by
  obtain ⟨fields, hscan⟩ := hs
  obtain ⟨n, hn, hout⟩ := Plan.columnOf_eq_some.mp hcol
  have hts : P.tNumColsOf source = n.tNumCols := by simp [Plan.tNumColsOf, hn]
  have hnew : (P.insertCompound s k₀ K).root.find? (if s = source then k₀ else source)
      = some (n.insertCompound s k₀ K) := find?_newSource hscan hk hn
  by_cases hmem : s ∈ n.tables
  · have hfind := find?_scan_found P.tables_nodup hscan hn hmem
    have hconn : isConnected P s k₀ K source = true :=
      isConnected_of_mem hscan hk hn hfind
    have hrem : Remapped s k₀ K fields cId n :=
      remapped_of_find? (nodup_found P.tables_nodup hn) hfind
    obtain ⟨hown, hother⟩ := hrem 0 (zero_le cId) 0 t c hout
    constructor
    · intro h
      by_cases ht : t = s
      · obtain ⟨-, hremap, hnewout⟩ := hown ht
        obtain ⟨k, x, hk, hx, hxc⟩ :=
          findIdx?_projects (h.resolve_left (not_not.mpr ht))
        rw [hk] at hremap
        refine ⟨if s = source then k₀ else source, k + (cId - c), ?_, ?_⟩
        · simp [buildNewInput, hconn, hts, hremap]
        · subst ht
          exact columnOf_found hnew (hnewout k x hx hxc)
      · have hss : ¬ s = source := by
          intro heq
          subst heq
          rw [hscan] at hn
          cases hn
          have := table_of_mem_outputs (mem_of_getElem? hout)
          exact ht (by simpa [tables, tNumCols] using this)
        rw [if_neg hss] at hnew
        rcases hother ht with ⟨hremap, hnewout⟩ | ⟨hremap, -, hnewout⟩
        · refine ⟨source, cId, ?_, columnOf_found hnew hnewout⟩
          simp [buildNewInput, hconn, hts, hremap]
        · refine ⟨source, _, ?_, columnOf_found hnew hnewout⟩
          simp [buildNewInput, hconn, hts, hremap]
    · intro ht hnot
      obtain ⟨-, hremap, -⟩ := hown ht
      rw [findIdx?_not_projects hnot] at hremap
      simp [buildNewInput, hconn, hts, hremap]
  · have ht : t ≠ s := by
      intro heq
      subst heq
      exact hmem (table_of_mem_outputs (mem_of_getElem? hout))
    have hss : ¬ s = source := by
      intro heq
      subst heq
      rw [hscan] at hn
      cases hn
      exact hmem (by simp [tables, tNumCols])
    rw [if_neg hss, insertCompound_of_not_mem hmem] at hnew
    have hremap : remapIndex s cId K n.tNumCols 0 0 = some (false, ((cId : Int) - 0).toNat) :=
      remapIndex_of_not_mem hmem 0 (zero_le cId) 0 hout
    refine ⟨fun _ => ⟨source, cId, ?_, columnOf_found hnew hout⟩, fun h => absurd h ht⟩
    by_cases hconn : isConnected P s k₀ K source = true
    · simp [buildNewInput, hconn, hts, hremap]
    · simp [buildNewInput, hconn]

end

end Compass.PushDown
