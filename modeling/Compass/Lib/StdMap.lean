/-
A `std::map`, as the list of its entries in the order of the keys.
-/
import Mathlib.Data.List.Nodup
import Mathlib.Order.Basic

namespace StdMap

open List

variable {κ β : Type*} [DecidableEq κ]

def find? (m : List (κ × β)) (k : κ) : Option β :=
  (m.find? fun kv => kv.1 = k).map Prod.snd

def erase (m : List (κ × β)) (k : κ) : List (κ × β) :=
  m.filter fun kv => kv.1 ≠ k

section Order

variable [LT κ] [DecidableLT κ]

/-- The entries from the first one that is not below `k` on. -/
def lowerBound (m : List (κ × β)) (k : κ) : List (κ × β) :=
  m.dropWhile fun kv => kv.1 < k

/-- `m[k] = v`. -/
def set (m : List (κ × β)) (k : κ) (v : β) : List (κ × β) :=
  if k ∈ m.map Prod.fst then m.map fun kv => if kv.1 = k then (k, v) else kv
  else m.takeWhile (fun kv => kv.1 < k) ++ (k, v) :: lowerBound m k

end Order

variable {m : List (κ × β)} {k k' : κ} {v v' : β}

@[simp]
theorem mem_erase : (k', v') ∈ erase m k ↔ (k', v') ∈ m ∧ k' ≠ k := by
  simp [erase]

theorem nodup_erase (h : (m.map Prod.fst).Nodup) (k : κ) :
    ((erase m k).map Prod.fst).Nodup :=
  h.sublist (filter_sublist.map _)

theorem find?_eq_some (h : find? m k = some v) : (k, v) ∈ m := by
  obtain ⟨kv, hfind, rfl⟩ := Option.map_eq_some_iff.1 h
  have hkey : kv.1 = k := by
    simpa using find?_some hfind
  rw [← hkey]
  exact mem_of_find?_eq_some hfind

theorem find?_eq_none (h : find? m k = none) : k ∉ m.map Prod.fst := by
  unfold find? at h
  rw [Option.map_eq_none_iff, List.find?_eq_none] at h
  intro hmem
  obtain ⟨kv, hkv, hkey⟩ := mem_map.1 hmem
  exact h kv hkv (decide_eq_true hkey)

omit [DecidableEq κ] in
/-- A key has one entry. -/
theorem value_unique (h : (m.map Prod.fst).Nodup) (hv : (k, v) ∈ m)
    (hv' : (k, v') ∈ m) : v = v' := by
  have := inj_on_of_nodup_map h hv hv' rfl
  exact congrArg Prod.snd this

theorem find?_of_mem (h : (m.map Prod.fst).Nodup) (hv : (k, v) ∈ m) :
    find? m k = some v := by
  cases hfind : find? m k with
  | none =>
    exact absurd (mem_map_of_mem hv) (find?_eq_none hfind)
  | some v' => rw [value_unique h hv (find?_eq_some hfind)]

section Order

variable [LT κ] [DecidableLT κ]

theorem mem_set :
    (k', v') ∈ set m k v ↔ k' = k ∧ v' = v ∨ k' ≠ k ∧ (k', v') ∈ m := by
  unfold set
  split
  · rename_i hk
    rw [mem_map]
    constructor
    · intro h
      obtain ⟨kv, hkv, heq⟩ := h
      split at heq
      · simp only [Prod.mk.injEq] at heq
        exact Or.inl ⟨heq.1.symm, heq.2.symm⟩
      · rename_i hne
        subst heq
        exact Or.inr ⟨hne, hkv⟩
    · intro h
      rcases h with ⟨rfl, rfl⟩ | ⟨hne, hmem⟩
      · obtain ⟨kv, hkv, hkey⟩ := mem_map.1 hk
        exact ⟨kv, hkv, if_pos hkey⟩
      · exact ⟨(k', v'), hmem, if_neg hne⟩
  · rename_i hk
    have hsplit : (k', v') ∈ m.takeWhile (fun kv => kv.1 < k)
        ∨ (k', v') ∈ lowerBound m k ↔ (k', v') ∈ m := by
      unfold lowerBound
      rw [← mem_append, takeWhile_append_dropWhile]
    rw [mem_append, mem_cons, or_left_comm, hsplit, Prod.mk.injEq]
    constructor
    · intro h
      rcases h with heq | hmem
      · exact Or.inl heq
      · right
        refine ⟨?_, hmem⟩
        intro hkey
        subst hkey
        exact hk (mem_map_of_mem hmem)
    · intro h
      rcases h with heq | ⟨_, hmem⟩
      · exact Or.inl heq
      · exact Or.inr hmem

theorem length_set (h : k ∉ m.map Prod.fst) (v : β) : (set m k v).length = m.length + 1 := by
  unfold set lowerBound
  rw [if_neg h, length_append, length_cons, ← Nat.add_assoc, ← length_append,
    takeWhile_append_dropWhile]

theorem nodup_set (h : (m.map Prod.fst).Nodup) (k : κ) (v : β) :
    ((set m k v).map Prod.fst).Nodup := by
  unfold set
  split
  · have hkeys : (m.map fun kv => if kv.1 = k then (k, v) else kv).map Prod.fst
        = m.map Prod.fst := by
      rw [map_map]
      apply map_congr_left
      intro kv _
      simp only [Function.comp]
      split
      · rename_i hkey
        exact hkey.symm
      · rfl
    rw [hkeys]
    exact h
  · rename_i hk
    have hperm : ((m.takeWhile (fun kv => kv.1 < k) ++ (k, v) :: lowerBound m k).map
        Prod.fst).Perm (k :: m.map Prod.fst) := by
      have hmiddle := @perm_middle _ (k, v)
        (m.takeWhile fun kv => kv.1 < k) (lowerBound m k)
      unfold lowerBound at hmiddle ⊢
      rw [takeWhile_append_dropWhile] at hmiddle
      exact hmiddle.map Prod.fst
    rw [hperm.nodup_iff]
    exact nodup_cons.2 ⟨hk, h⟩

theorem find?_set (h : (m.map Prod.fst).Nodup) (k k' : κ) (v : β) :
    find? (set m k v) k' = if k' = k then some v else find? m k' := by
  by_cases hk : k' = k
  · rw [if_pos hk]
    exact find?_of_mem (nodup_set h k v) (mem_set.mpr (Or.inl ⟨hk, rfl⟩))
  · rw [if_neg hk]
    cases hfind : find? m k' with
    | some v' =>
      exact find?_of_mem (nodup_set h k v) (mem_set.mpr (Or.inr ⟨hk, find?_eq_some hfind⟩))
    | none =>
      cases hset : find? (set m k v) k' with
      | none => rfl
      | some v' =>
        rcases mem_set.mp (find?_eq_some hset) with ⟨heq, -⟩ | ⟨-, hmem⟩
        · exact absurd heq hk
        · rw [find?_of_mem h hmem] at hfind
          cases hfind

/-- A new key that is erased again leaves nothing behind. -/
theorem erase_set (h : k ∉ m.map Prod.fst) (v : β) : erase (set m k v) k = m := by
  have hkeep : ∀ kv ∈ m, kv.1 ≠ k := fun kv hkv heq => h (heq ▸ mem_map_of_mem hkv)
  have hparts : m.takeWhile (fun kv => kv.1 < k) ++ lowerBound m k = m :=
    takeWhile_append_dropWhile
  rw [set, if_neg h, erase, filter_append, filter_cons_of_neg (by simp), ← filter_append, hparts]
  exact filter_eq_self.2 fun kv hkv => decide_eq_true (hkeep kv hkv)

omit [DecidableEq κ] in
theorem lowerBound_sublist (m : List (κ × β)) (k : κ) :
    (lowerBound m k).Sublist m :=
  dropWhile_sublist _

end Order

end StdMap
