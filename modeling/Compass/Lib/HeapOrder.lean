/-
Binary heaps over positions 0, 1, …, and what a heap of bounded size keeps.

An element stands above another if it is related to it, for any relation that
is total and transitive. A sift moves a hole, where the order is broken, by
exchanging its element with that of the parent or of a child; on the way the
elements around the hole stay in order with each other (`grand`), so the
order holds everywhere when the hole is filled.

A heap of k elements that gives up its root for an element no worse keeps k
best ones of all that it has seen (`Best`).
-/
import Mathlib.Algebra.Order.Group.Multiset

namespace HeapOrder

open List

variable {α : Type} {le : α → α → Prop}

def parent (i : Nat) : Nat :=
  (i - 1) / 2

theorem parent_lt {i : Nat} (h : 0 < i) : parent i < i := by
  unfold parent
  omega

def Ordered (le : α → α → Prop) (a : Nat → α) (n : Nat) : Prop :=
  ∀ i, 0 < i → i < n → le (a (parent i)) (a i)

/-- In order but for an element that may belong further up. -/
structure UpOrdered (le : α → α → Prop) (a : Nat → α) (n hole : Nat) : Prop where
  except : ∀ i, 0 < i → i < n → i ≠ hole → le (a (parent i)) (a i)
  grand : 0 < hole → ∀ c, 0 < c → c < n → parent c = hole → le (a (parent hole)) (a c)

/-- In order but for an element that may belong further down. -/
structure DownOrdered (le : α → α → Prop) (a : Nat → α) (n hole : Nat) : Prop where
  except : ∀ i, 0 < i → i < n → parent i ≠ hole → le (a (parent i)) (a i)
  grand : 0 < hole → ∀ c, 0 < c → c < n → parent c = hole → le (a (parent hole)) (a c)

/-- Two elements change places. -/
def exchange (a : Nat → α) (i j : Nat) : Nat → α :=
  a ∘ Equiv.swap i j

@[simp] theorem exchange_left (a : Nat → α) (i j : Nat) : exchange a i j i = a j := by
  simp [exchange]

@[simp] theorem exchange_right (a : Nat → α) (i j : Nat) : exchange a i j j = a i := by
  simp [exchange]

theorem exchange_of_ne {a : Nat → α} {i j x : Nat} (hi : x ≠ i) (hj : x ≠ j) :
    exchange a i j x = a x := by
  simp [exchange, Equiv.swap_apply_of_ne_of_ne hi hj]

theorem exchange_perm (a : Nat → α) {i j n : Nat} (hi : i < n) (hj : j < n) :
    ((range n).map (exchange a i j)).Perm ((range n).map a) := by
  have hswap_lt : ∀ x < n, Equiv.swap i j x < n := by
    intro x hx
    rw [Equiv.swap_apply_def]
    split_ifs <;> assumption
  have hswap : ((range n).map (Equiv.swap i j)).Perm (range n) := by
    refine (perm_ext_iff_of_nodup ?_ nodup_range).2 fun x => ?_
    · exact nodup_range.map (Equiv.swap i j).injective
    · simp only [mem_map, mem_range]
      constructor
      · rintro ⟨y, hy, rfl⟩
        exact hswap_lt y hy
      · exact fun hx => ⟨Equiv.swap i j x, hswap_lt x hx, by simp⟩
  simpa [exchange, map_map] using hswap.map a

variable {a b : Nat → α} {n hole : Nat}

-- ======== sift up

theorem UpOrdered.swap (htrans : ∀ x y z, le x y → le y z → le x z)
    (h : UpOrdered le a n hole) (hpos : 0 < hole) (hlt : hole < n)
    (hle : le (a hole) (a (parent hole))) :
    UpOrdered le (exchange a hole (parent hole)) n (parent hole) := by
  have hparent := parent_lt hpos
  constructor
  · intro i hi hin hne
    by_cases hhole : i = hole
    · rw [hhole, exchange_left, exchange_right]
      exact hle
    rw [exchange_of_ne hhole hne]
    by_cases hup : parent i = hole
    · rw [hup, exchange_left]
      exact h.grand hpos i hi hin hup
    by_cases hside : parent i = parent hole
    · rw [hside, exchange_right]
      exact htrans _ _ _ hle (hside ▸ h.except i hi hin hhole)
    · rw [exchange_of_ne hup hside]
      exact h.except i hi hin hhole
  · intro hpos' c hc hcn hup
    have hgrand := parent_lt hpos'
    have habove := h.except (parent hole) hpos' (by omega) (by omega)
    rw [exchange_of_ne (show parent (parent hole) ≠ hole by omega) (by omega)]
    by_cases hhole : c = hole
    · rw [hhole, exchange_left]
      exact habove
    · have hcp := parent_lt hc
      rw [exchange_of_ne hhole (by omega)]
      exact htrans _ _ _ habove (hup ▸ h.except c hc hcn hhole)

theorem UpOrdered.finish (h : UpOrdered le a n hole)
    (hle : 0 < hole → le (a (parent hole)) (a hole)) : Ordered le a n := by
  intro i hi hin
  by_cases hhole : i = hole
  · subst hhole
    exact hle hi
  · exact h.except i hi hin hhole

/-- A new element behind the others. -/
theorem Ordered.push (h : Ordered le a n) (hsame : ∀ i < n, b i = a i) :
    UpOrdered le b (n + 1) n := by
  constructor
  · intro i hi hin hne
    have hparent := parent_lt hi
    rw [hsame i (by omega), hsame (parent i) (by omega)]
    exact h i hi (by omega)
  · intro _ c hc hcn hup
    have hparent := parent_lt hc
    omega

-- ======== sift down

theorem DownOrdered.swap (h : DownOrdered le a n hole) {c : Nat} (hc : 0 < c) (hcn : c < n)
    (hup : parent c = hole) (hle : le (a c) (a hole))
    (hmin : ∀ c', 0 < c' → c' < n → parent c' = hole → le (a c) (a c')) :
    DownOrdered le (exchange a hole c) n c := by
  have hlt : hole < c := hup ▸ parent_lt hc
  constructor
  · intro i hi hin hne
    have hparent := parent_lt hi
    by_cases hhole : i = hole
    · subst hhole
      rw [exchange_left, exchange_of_ne (by omega) (by omega)]
      exact h.grand hi c hc hcn hup
    by_cases hic : i = c
    · rw [hic, hup, exchange_left, exchange_right]
      exact hle
    rw [exchange_of_ne hhole hic]
    by_cases hside : parent i = hole
    · rw [hside, exchange_left]
      exact hmin i hi hin hside
    · rw [exchange_of_ne hside hne]
      exact h.except i hi hin hside
  · intro _ d hd hdn hdown
    have hdc : c < d := hdown ▸ parent_lt hd
    rw [hup, exchange_left, exchange_of_ne (by omega) (by omega)]
    exact hdown ▸ h.except d hd hdn (by omega)

theorem DownOrdered.finish (h : DownOrdered le a n hole)
    (hle : ∀ c, 0 < c → c < n → parent c = hole → le (a hole) (a c)) : Ordered le a n := by
  intro i hi hin
  by_cases hup : parent i = hole
  · rw [hup]
    exact hle i hi hin hup
  · exact h.except i hi hin hup

/-- A new element in the place of the root. -/
theorem Ordered.replace (h : Ordered le a n) (hsame : ∀ i, 0 < i → i < n → b i = a i) :
    DownOrdered le b n 0 := by
  constructor
  · intro i hi hin hup
    have hparent := parent_lt hi
    rw [hsame i hi hin, hsame (parent i) (by omega) (by omega)]
    exact h i hi hin
  · exact fun h => absurd h (Nat.lt_irrefl 0)

theorem Ordered.root_le (hrefl : ∀ x, le x x) (htrans : ∀ x y z, le x y → le y z → le x z)
    (h : Ordered le a n) (i : Nat) (hi : i < n) : le (a 0) (a i) := by
  induction i using Nat.strong_induction_on with
  | _ i ih =>
    by_cases hpos : 0 < i
    · have hparent := parent_lt hpos
      exact htrans _ _ _ (ih (parent i) hparent (by omega)) (h i hpos hi)
    · rw [show i = 0 by omega]
      exact hrefl _

-- ======== selection

/-- `kept` are `k` best ones of `seen`, or all of them if there are fewer. -/
def Best (le : α → α → Prop) (k : Nat) (seen kept : Multiset α) : Prop :=
  ∃ rest, kept + rest = seen ∧ kept.card = min k seen.card ∧ ∀ x ∈ rest, ∀ y ∈ kept, le x y

variable {k : Nat} {seen kept : Multiset α} {x y : α}

theorem Best.zero : Best le k 0 0 :=
  ⟨0, rfl, by simp, by simp⟩

theorem Best.push (h : Best le k seen kept) (hroom : kept.card < k) :
    Best le k (x ::ₘ seen) (x ::ₘ kept) := by
  obtain ⟨rest, rfl, hcard, -⟩ := h
  have hrest : rest = 0 := by
    rw [Multiset.card_add] at hcard
    exact Multiset.card_eq_zero.1 (by omega)
  subst hrest
  refine ⟨0, by simp, ?_, by simp⟩
  rw [add_zero, Multiset.card_cons]
  omega

theorem Best.reject (h : Best le k seen kept) (hfull : kept.card = k)
    (hworst : ∀ y ∈ kept, le x y) : Best le k (x ::ₘ seen) kept := by
  obtain ⟨rest, rfl, hcard, hbest⟩ := h
  refine ⟨x ::ₘ rest, by rw [Multiset.add_cons], ?_, fun z hz y hy => ?_⟩
  · rw [Multiset.card_cons]
    omega
  · rcases Multiset.mem_cons.1 hz with rfl | hz
    · exact hworst y hy
    · exact hbest z hz y hy

/-- A worst element gives way to one that is no worse. -/
theorem Best.accept (htrans : ∀ x y z, le x y → le y z → le x z)
    (h : Best le k seen (y ::ₘ kept)) (hfull : kept.card + 1 = k) (hworst : ∀ z ∈ kept, le y z)
    (hle : le y x) : Best le k (x ::ₘ seen) (x ::ₘ kept) := by
  obtain ⟨rest, rfl, hcard, hbest⟩ := h
  refine ⟨y ::ₘ rest, ?_, ?_, fun z hz w hw => ?_⟩
  · rw [Multiset.cons_add, Multiset.cons_add, Multiset.add_cons]
  · rw [Multiset.card_cons, Multiset.card_cons, Multiset.card_add, Multiset.card_cons]
    omega
  · rcases Multiset.mem_cons.1 hw with rfl | hw
    · rcases Multiset.mem_cons.1 hz with rfl | hz
      · exact hle
      · exact htrans _ _ _ (hbest z hz y (Multiset.mem_cons_self y kept)) hle
    · rcases Multiset.mem_cons.1 hz with rfl | hz
      · exact hworst w hw
      · exact hbest z hz w (Multiset.mem_cons_of_mem hw)

end HeapOrder
