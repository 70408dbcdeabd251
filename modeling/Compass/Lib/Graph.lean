/-
Orders of the nodes of a graph that grow along its edges.

A `ConnectedOrder` starts at a base node and appends, one at a time, a
new node adjacent to one already there. This is the notion of a left-deep
join order without cross products, and of any search that extends a
partial order through its frontier. Costs are sums over the prefixes of
an order, added from left to right, so that nothing here asks the
addition to be associative: for pruning it is enough that adding
something non-negative does not make a sum smaller.

Values computed along an acyclic graph.

The nodes stand in a list, each with a key, and the value of a node is
computed from the values of the keys it reads. The list is ordered when
the keys are different and every node reads keys of nodes before it. Then
the table that one pass over the list fills satisfies the equation of
every node (`tabulate_eq`), and a property that each node inherits from
the nodes it reads holds of all of them (`Ordered.read_induction`).
-/
import Mathlib.Algebra.Group.Defs
import Mathlib.Data.Finset.Card
import Mathlib.Data.List.Range

namespace GraphOrder

open List

variable {V : Type _} {adj : V → Finset V} {base : V}

-- ======== connected orders

/-- A duplicate-free order from `base` in which each later node is
adjacent to an earlier one. -/
inductive ConnectedOrder (adj : V → Finset V) (base : V) : List V → Prop
  | base : ConnectedOrder adj base [base]
  | append {p : List V} {u v : V} (hp : ConnectedOrder adj base p)
      (hu : u ∈ p) (hv : v ∈ adj u) (hnew : v ∉ p) :
      ConnectedOrder adj base (p ++ [v])

variable {p : List V}

section

variable (h : ConnectedOrder adj base p)
include h

theorem ConnectedOrder.nodup : p.Nodup := by
  induction h with
  | base => exact nodup_singleton base
  | append hp hu hv hnew ih =>
    exact nodup_append.mpr ⟨ih, nodup_singleton _, by
      intro a ha b hb hab
      rw [mem_singleton] at hb
      exact hnew (hb ▸ hab ▸ ha)⟩

theorem ConnectedOrder.base_mem : base ∈ p := by
  induction h with
  | base => exact mem_singleton_self base
  | append hp hu hv hnew ih => exact mem_append_left _ ih

omit h in
theorem ConnectedOrder.mono {adj' : V → Finset V} (hsub : ∀ v, adj v ⊆ adj' v)
    (h : ConnectedOrder adj base p) :
    ConnectedOrder adj' base p := by
  induction h with
  | base => exact .base
  | append hp hu hv hnew ih => exact .append ih hu (hsub _ hv) hnew

theorem ConnectedOrder.reachable :
    ∀ v ∈ p, Relation.ReflTransGen (fun a b => b ∈ adj a) base v := by
  induction h with
  | base =>
    intro v hv
    rw [mem_singleton] at hv
    exact hv ▸ .refl
  | append hp hu hv hnew ih =>
    intro w hw
    rcases mem_append.1 hw with hw | hw
    · exact ih w hw
    · rw [mem_singleton] at hw
      exact hw ▸ (ih _ hu).tail hv

theorem ConnectedOrder.base_prefix : [base] <+: p := by
  induction h with
  | base => exact prefix_refl _
  | append hp hu hv hnew ih => exact ih.trans (prefix_append _ _)

theorem ConnectedOrder.ne_nil : p ≠ [] :=
  ne_nil_of_mem h.base_mem

end

/-- The next node of an order is adjacent to one before it. -/
theorem ConnectedOrder.next {rest : List V} {v : V} (hp : p ≠ [])
    (h : ConnectedOrder adj base (p ++ v :: rest)) :
    v ∉ p ∧ ∃ u ∈ p, v ∈ adj u := by
  generalize hq : p ++ v :: rest = q at h
  induction h generalizing rest with
  | base =>
    obtain ⟨a, p, rfl⟩ := exists_cons_of_ne_nil hp
    simp at hq
  | @append q' u w hq' hu hv hnew ih =>
    rcases eq_nil_or_concat rest with rfl | ⟨rest', x, rfl⟩
    · obtain ⟨rfl, hvw⟩ := append_inj' hq rfl
      obtain rfl : v = w := by simpa using hvw
      exact ⟨hnew, u, hu, hv⟩
    · have hinit : (p ++ v :: rest') ++ [x] = q' ++ [w] := by
        simpa using hq
      exact ih (append_inj' hinit rfl).1

variable [DecidableEq V]

/-- A connected order of exactly the given nodes. -/
structure CompleteOrder (adj : V → Finset V) (nodes : Finset V) (base : V) (o : List V) : Prop where
  connected : ConnectedOrder adj base o
  nodes_eq : o.toFinset = nodes

theorem CompleteOrder.length_eq {nodes : Finset V} {o : List V}
    (h : CompleteOrder adj nodes base o) : o.length = nodes.card := by
  rw [← h.nodes_eq, toFinset_card_of_nodup h.connected.nodup]

/-- Leaving a set on a path means crossing one of its edges. -/
theorem exists_edge_out {s : Finset V} {u v : V} (hu : u ∈ s) (hv : v ∉ s)
    (hpath : Relation.ReflTransGen (fun a b => b ∈ adj a) u v) :
    ∃ a ∈ s, ∃ b, b ∈ adj a ∧ b ∉ s := by
  induction hpath with
  | refl => exact absurd hu hv
  | @tail b c hab hbc ih =>
    by_cases hb : b ∈ s
    · exact ⟨b, hb, c, hbc, hv⟩
    · exact ih hb

-- ======== costs

variable {α : Type _} [AddZeroClass α] (size : Finset V → α)

/-- The sizes of the prefixes of lengths two to `k`, added from left to
right. -/
def prefixCost (o : List V) (k : Nat) : α :=
  (List.range' 2 (k - 1)).foldl (fun acc j =>
    acc + size (o.take j).toFinset) 0

/-- The cost of a complete order: all prefixes but the order itself. -/
def cost (o : List V) : α :=
  prefixCost size o (o.length - 1)

variable {size}

theorem prefixCost_succ (o : List V) {k : Nat} (hk : 1 ≤ k) :
    prefixCost size o (k + 1)
      = prefixCost size o k + size (o.take (k + 1)).toFinset := by
  unfold prefixCost
  have hrange : range' 2 (k + 1 - 1)
      = range' 2 (k - 1) ++ [k + 1] := by
    rw [show k + 1 - 1 = (k - 1) + 1 by omega, range'_1_concat, show 2 + (k - 1) = k + 1 by omega]
  rw [hrange, foldl_append]
  rfl

theorem prefixCost_congr {o o' : List V} {k : Nat}
    (h : o.take k = o'.take k) : prefixCost size o k = prefixCost size o' k := by
  refine foldl_ext _ _ _ fun acc j hj => ?_
  have hjk : j ≤ k := by
    have := mem_range'_1.mp hj
    omega
  have htake : o.take j = o'.take j := by
    have := congrArg (take j) h
    rwa [take_take, take_take, Nat.min_eq_left hjk] at this
  rw [htake]

theorem prefixCost_mono [LinearOrder α] (hnn : ∀ s, 0 ≤ size s)
    (hadd : ∀ a b : α, 0 ≤ b → a ≤ a + b) (o : List V) {k m : Nat} (hk : 1 ≤ k) (hkm : k ≤ m) :
    prefixCost size o k ≤ prefixCost size o m := by
  induction m, hkm using Nat.le_induction with
  | base => exact le_refl _
  | succ m hm ih =>
    rw [prefixCost_succ o (hk.trans hm)]
    exact ih.trans (hadd _ _ (hnn _))

end GraphOrder

namespace Tabulate

open List

variable {ν ι β : Type}

/-- Keys are different, and a node reads keys of nodes before it. -/
structure Ordered (key : ν → ι) (reads : ν → List ι) (ns : List ν) : Prop where
  after : ns.Pairwise fun m n => key m ≠ key n ∧ key n ∉ reads m
  defined : ∀ n ∈ ns, ∀ i ∈ reads n, ∃ m ∈ ns, key m = i
  irrefl : ∀ n ∈ ns, key n ∉ reads n

/-- The value of a node depends on the keys it reads only. -/
def Local (reads : ν → List ι) (f : ν → (ι → β) → β) : Prop :=
  ∀ n table table', (∀ i ∈ reads n, table i = table' i) → f n table = f n table'

variable {key : ν → ι} {reads : ν → List ι}

-- ======== the order

namespace Ordered

variable {ns : List ν}

/-- Nodes with one key are one node. -/
theorem eq_of_key (h : Ordered key reads ns) {m n : ν} (hm : m ∈ ns)
    (hn : n ∈ ns) (hkey : key m = key n) : m = n := by
  have hnodup : (ns.map key).Nodup :=
    pairwise_map.mpr (h.after.imp fun hmn => hmn.1)
  exact inj_on_of_nodup_map hnodup hm hn hkey

variable {pre post : List ν}

variable (h : Ordered key reads ns)
include h

/-- What a node reads stands before it. -/
theorem mem_before {n : ν} (hns : ns = pre ++ n :: post) {i : ι}
    (hi : i ∈ reads n) : ∃ m ∈ pre, key m = i := by
  have hn : n ∈ ns := by simp [hns]
  obtain ⟨m, hm, hkey⟩ := h.defined n hn i hi
  refine ⟨m, ?_, hkey⟩
  have hafter := h.after
  rw [hns, pairwise_append, pairwise_cons] at hafter
  rw [hns, mem_append, mem_cons] at hm
  rcases hm with hm | rfl | hm
  · exact hm
  · exact absurd (hkey ▸ hi) (h.irrefl m hn)
  · exact absurd (hkey ▸ hi) (hafter.2.1.1 m hm).2

/-- What the nodes of an initial part read is in that part. -/
theorem mem_initial (hns : ns = pre ++ post) {m : ν} (hm : m ∈ pre)
    {i : ι} (hi : i ∈ reads m) : ∃ m' ∈ pre, key m' = i := by
  obtain ⟨front, back, rfl⟩ := append_of_mem hm
  rw [append_assoc, cons_append] at hns
  obtain ⟨m', hm', hkey⟩ := h.mem_before hns hi
  exact ⟨m', mem_append_left _ hm', hkey⟩

/-- Nodes may come to read anything that stands before them. -/
theorem map {g : ν → ν} (hkey : ∀ n, key (g n) = key n)
    (hreads : ∀ pre n post, ns = pre ++ n :: post → ∀ i ∈ reads (g n), ∃ m ∈ pre, key m = i) :
    Ordered key reads (ns.map g) := by
  have hdistinct : ns.Pairwise fun m n => key m ≠ key n := h.after.imp fun hmn => hmn.1
  constructor
  · rw [pairwise_map, pairwise_iff_forall_sublist]
    intro a b hab
    obtain ⟨hne, -⟩ := pairwise_iff_forall_sublist.mp h.after hab
    rw [hkey, hkey]
    refine ⟨hne, ?_⟩
    intro hread
    -- a node in front of `a` would have the key of one behind it
    obtain ⟨front, back, rfl, ha, hb⟩ := cons_sublist_iff.mp hab
    obtain ⟨pre, post, rfl⟩ := append_of_mem ha
    obtain ⟨m, hm, heq⟩ := hreads pre a (post ++ back) (by simp) _ hread
    rw [pairwise_append] at hdistinct
    exact hdistinct.2.2 m (by simp [hm]) b (singleton_sublist.mp hb) heq
  · intro n hn i hi
    obtain ⟨m, hm, rfl⟩ := mem_map.mp hn
    obtain ⟨pre, post, hns⟩ := append_of_mem hm
    obtain ⟨m', hm', rfl⟩ := hreads pre m post hns i hi
    exact ⟨g m', mem_map_of_mem (by simp [hns, hm']), hkey m'⟩
  · intro n hn hself
    obtain ⟨m, hm, rfl⟩ := mem_map.mp hn
    obtain ⟨pre, post, hns⟩ := append_of_mem hm
    obtain ⟨m', hm', heq⟩ := hreads pre m post hns _ hself
    rw [hns, pairwise_append] at hdistinct
    exact hdistinct.2.2 m' hm' m mem_cons_self (heq.trans (hkey m))

/-- Nodes that no remaining node reads can be taken out. -/
theorem filter {p : ν → Bool}
    (hreads : ∀ n ∈ ns, p n = true → ∀ m ∈ ns, key m ∈ reads n → p m = true) :
    Ordered key reads (ns.filter p) := by
  refine ⟨h.after.filter p, ?_, ?_⟩
  · intro n hn i hi
    obtain ⟨hn, hp⟩ := mem_filter.mp hn
    obtain ⟨m, hm, rfl⟩ := h.defined n hn i hi
    exact ⟨m, mem_filter.mpr ⟨hm, hreads n hn hp m hm hi⟩, rfl⟩
  · intro n hn
    exact h.irrefl n (mem_filter.mp hn).1

/-- A node that reads another stands after it. -/
theorem mem_after {m n : ν} (hns : ns = pre ++ m :: post) (hn : n ∈ ns)
    (hread : key m ∈ reads n) : n ∈ post := by
  have hafter := h.after
  rw [hns, pairwise_append, pairwise_cons] at hafter
  rw [hns, mem_append, mem_cons] at hn
  rcases hn with hn | rfl | hn
  · exact absurd hread (hafter.2.2 n hn m mem_cons_self).2
  · exact absurd hread (h.irrefl n (by simp [hns]))
  · exact hn

/-- A property that passes from the nodes read to the node. -/
theorem read_induction {P : ν → Prop} (step : ∀ n ∈ ns, (∀ m ∈ ns, key m ∈ reads n → P m) → P n) :
    ∀ n ∈ ns, P n := by
  have hprefix : ∀ pre post, ns = pre ++ post → ∀ n ∈ pre, P n := by
    intro pre
    induction pre using reverseRecOn with
    | nil =>
      intro post _ n hn
      cases hn
    | append_singleton pre x ih =>
      intro post hns n hn
      have hns' : ns = pre ++ x :: post := by rw [hns, append_assoc]; rfl
      have hpre := ih (x :: post) hns'
      rcases mem_append.mp hn with hn | hn
      · exact hpre n hn
      · obtain rfl := mem_singleton.mp hn
        refine step n (by simp [hns']) ?_
        intro m hm hread
        obtain ⟨m', hm', hkey⟩ := h.mem_before hns' hread
        have : m' = m := h.eq_of_key (by simp [hns', hm']) hm hkey
        exact this ▸ hpre m' hm'
  exact hprefix ns [] (by simp)

/-- Nodes can be numbered so that what they read has smaller numbers. -/
theorem exists_rank [DecidableEq ι] :
    ∃ rank : ι → Nat, ∀ n ∈ ns, ∀ i ∈ reads n, rank i < rank (key n) := by
  refine ⟨fun i => (ns.map key).idxOf i, ?_⟩
  intro n hn i hi
  obtain ⟨pre, post, hns⟩ := append_of_mem hn
  obtain ⟨m, hm, rfl⟩ := h.mem_before hns hi
  have hafter := h.after
  rw [hns, pairwise_append] at hafter
  have hfresh : key n ∉ pre.map key := by
    intro hmem
    obtain ⟨m', hm', hkey⟩ := mem_map.mp hmem
    exact (hafter.2.2 m' hm' n mem_cons_self).1 hkey
  have hmem : key m ∈ pre.map key := mem_map_of_mem hm
  show (ns.map key).idxOf (key m) < (ns.map key).idxOf (key n)
  rw [hns, map_append, idxOf_append_of_mem hmem, idxOf_append_of_notMem hfresh]
  exact Nat.lt_add_right _ (idxOf_lt_length_of_mem hmem)

end Ordered

-- ======== the table

variable [DecidableEq ι]

/-- One pass over the nodes. -/
def tabulate (key : ν → ι) (f : ν → (ι → β) → β) (init : ι → β) (ns : List ν) :
    ι → β :=
  ns.foldl (fun table n => Function.update table (key n) (f n table)) init

variable {f : ν → (ι → β) → β}
variable {init : ι → β}

/-- Keys of no node keep their value. -/
theorem tabulate_of_ne {ns : List ν} {i : ι} (h : ∀ n ∈ ns, key n ≠ i) :
    tabulate key f init ns i = init i := by
  induction ns generalizing init with
  | nil => rfl
  | cons n ns ih =>
    have hrest := @ih (Function.update init (key n) (f n init))
      fun m hm => h m (mem_cons_of_mem _ hm)
    have hne : i ≠ key n := (h n mem_cons_self).symm
    exact hrest.trans (Function.update_of_ne hne _ _)

theorem tabulate_append (f : ν → (ι → β) → β) (init : ι → β) (pre post : List ν) :
    tabulate key f init (pre ++ post)
      = tabulate key f (tabulate key f init pre) post :=
  foldl_append

variable {ns : List ν} (hord : Ordered key reads ns)
include hord

/-- The table satisfies the equation of every node. -/
theorem tabulate_eq (hlocal : Local reads f) {n : ν}
    (hn : n ∈ ns) : tabulate key f init ns (key n) = f n (tabulate key f init ns) := by
  obtain ⟨pre, post, hns⟩ := append_of_mem hn
  have hafter := hord.after
  rw [hns, pairwise_append, pairwise_cons] at hafter
  obtain ⟨-, ⟨hpost, -⟩, hcross⟩ := hafter
  have hsplit : tabulate key f init ns
      = tabulate key f (Function.update (tabulate key f init pre) (key n)
          (f n (tabulate key f init pre))) post := by
    rw [hns, tabulate_append]
    rfl
  have hvalue : tabulate key f init ns (key n) = f n (tabulate key f init pre) := by
    rw [hsplit, tabulate_of_ne fun m hm => ((hpost m hm).1).symm, Function.update_self]
  have hreads : ∀ i ∈ reads n,
      tabulate key f init pre i = tabulate key f init ns i := by
    intro i hi
    obtain ⟨m, hm, rfl⟩ := hord.mem_before hns hi
    have hmn : key m ≠ key n := (hcross m hm n mem_cons_self).1
    have hkept : ∀ m' ∈ post, key m' ≠ key m := fun m' hm' =>
      ((hcross m hm m' (mem_cons_of_mem _ hm')).1).symm
    rw [hsplit, tabulate_of_ne hkept, Function.update_of_ne hmn]
  rw [hvalue]
  exact hlocal n _ _ hreads

/-- It is the only table that does. -/
theorem tabulate_unique (hlocal : Local reads f)
    {table : ι → β} (hother : ∀ i, (∀ n ∈ ns, key n ≠ i) → table i = init i)
    (heq : ∀ n ∈ ns, table (key n) = f n table) : tabulate key f init ns = table := by
  have hnodes : ∀ n ∈ ns, tabulate key f init ns (key n) = table (key n) := by
    refine hord.read_induction ?_
    intro n hn ih
    rw [tabulate_eq hord hlocal hn, heq n hn]
    refine hlocal n _ _ ?_
    intro i hi
    obtain ⟨m, hm, rfl⟩ := hord.defined n hn i hi
    exact ih m hm hi
  funext i
  by_cases hi : ∃ n ∈ ns, key n = i
  · obtain ⟨n, hn, rfl⟩ := hi
    exact hnodes n hn
  · have hne : ∀ n ∈ ns, key n ≠ i := fun n hn hkey => hi ⟨n, hn, hkey⟩
    rw [tabulate_of_ne hne, hother i hne]

end Tabulate
