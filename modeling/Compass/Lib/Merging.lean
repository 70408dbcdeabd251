/-
Parties that merge what they hold, two at a time.

Each party holds an element of a semilattice. When two of them meet, both
hold the join of what they held. After any run of meetings a party holds
the join of what a set of parties held at the start (`heard`), whatever
the order of the meetings was and however often two of them met.
-/
import Mathlib.Data.Finset.Lattice.Union

namespace Merging

variable {ι α β : Type*} [DecidableEq ι] [SemilatticeSup α] [SemilatticeSup β]

def meeting (f : ι → α) (a b : ι) : ι → α := fun i =>
  if i = a ∨ i = b then f a ⊔ f b else f i

def meetings (f : ι → α) (ms : List (ι × ι)) : ι → α :=
  ms.foldl (fun f m => meeting f m.1 m.2) f

/-- A map that preserves joins carries meetings to meetings. -/
theorem map_meetings (g : α → β) (hg : ∀ x y, g (x ⊔ y) = g x ⊔ g y) (f : ι → α)
    (ms : List (ι × ι)) : meetings (g ∘ f) ms = g ∘ meetings f ms := by
  induction ms generalizing f with
  | nil => rfl
  | cons m ms ih =>
    have hmeet : meeting (g ∘ f) m.1 m.2 = g ∘ meeting f m.1 m.2 := by
      funext i
      unfold meeting
      simp only [Function.comp_apply]
      split_ifs
      · rw [hg]
      · rfl
    exact (congrArg (fun f => meetings f ms) hmeet).trans (ih _)

/-- The parties whose elements have reached a party. -/
def heard (ms : List (ι × ι)) : ι → Finset ι :=
  meetings (fun i => {i}) ms

/-- What a party holds is what those held that it has heard of. -/
theorem meetings_eq_biUnion {γ : Type*} [DecidableEq γ] (f : ι → Finset γ) (ms : List (ι × ι))
    (i : ι) : meetings f ms i = (heard ms i).biUnion f := by
  have hmap := map_meetings (fun s : Finset ι => s.biUnion f)
    (fun s t => Finset.union_biUnion) (fun i => {i}) ms
  have hstart : (fun s : Finset ι => s.biUnion f) ∘ (fun i => {i}) = f := by
    funext k
    exact Finset.singleton_biUnion
  rw [hstart] at hmap
  exact congrFun hmap i

end Merging
