import Mathlib.Data.Finset.Card
import Mathlib.Data.Finset.Range
import Mathlib.Logic.Relation
import ObjectLayout.Decl.Descent
import ObjectLayout.Subobject.Graph

/-! Bounded descents as plain recursion. A descent that follows a relation, and starts where that
relation never goes on for ever, meets no place twice; with one more level than there are places it
therefore satisfies the equation it is meant to be defined by, and its bound can be forgotten. -/
namespace ObjectLayout

variable {κ : Type} {below : κ → κ → Prop}

/-- Nothing below `k` goes on for ever. -/
def Grounded (below : κ → κ → Prop) (k : κ) : Prop := Acc (Function.swap below) k

namespace Grounded

theorem intro {k : κ} (h : ∀ k', below k k' → Grounded below k') : Grounded below k :=
  Acc.intro k h

theorem lower {k k' : κ} (h : Grounded below k) (edge : below k k') : Grounded below k' :=
  Acc.inv h edge

theorem induct {motive : κ → Prop}
    (step : ∀ k, Grounded below k → (∀ k', below k k' → motive k') → motive k) {k : κ}
    (h : Grounded below k) : motive k :=
  Acc.rec (motive := fun k _ => motive k) (fun k lower ih => step k (Acc.intro k lower) ih) h

theorem lowerAll {k k' : κ} (h : Grounded below k) (path : Relation.ReflTransGen below k k') :
    Grounded below k' := by
  induction path with
  | refl => exact h
  | tail _ edge ih => exact ih.lower edge

theorem irrefl {k : κ} (h : Grounded below k) : ¬ Relation.TransGen below k k := by
  refine h.induct (motive := fun k => ¬ Relation.TransGen below k k) fun k _ ih cycle => ?_
  obtain ⟨k', edge, back⟩ := Relation.TransGen.head'_iff.mp cycle
  exact ih k' edge (Relation.TransGen.tail' back edge)

theorem of_transGen {k : κ} (h : Grounded (Relation.TransGen below) k) : Grounded below k :=
  h.induct fun _ _ ih => .intro fun k' edge => ih k' (.single edge)

theorem transGen {k : κ} (h : Grounded below k) : Grounded (Relation.TransGen below) k := by
  have swapped : Relation.TransGen (Function.swap below) = Function.swap (Relation.TransGen below) := by
    funext a b
    exact propext Relation.transGen_swap
  have := Acc.transGen h
  rwa [swapped] at this

/-- More than what is below in one relation may be below in another. -/
theorem mono {wider : κ → κ → Prop} (sub : ∀ a b, below a b → wider a b) {k : κ}
    (h : Grounded wider k) : Grounded below k :=
  h.induct fun k _ ih => .intro fun k' edge => ih k' (sub k k' edge)

end Grounded

section Rank

variable {code : κ → Nat} {count : Nat}

open Classical in
/-- How many of the first `count` places are `k` or below it. -/
noncomputable def reach (below : κ → κ → Prop) (code : κ → Nat) (count : Nat) (k : κ) : Finset Nat :=
  (Finset.range count).filter fun position =>
    ∃ k', code k' = position ∧ Relation.ReflTransGen below k k'

theorem reach_card_le (below : κ → κ → Prop) (code : κ → Nat) (count : Nat) (k : κ) :
    (reach below code count k).card ≤ count := by
  classical
  calc (reach below code count k).card ≤ (Finset.range count).card := Finset.card_filter_le _ _
    _ = count := Finset.card_range count

theorem reach_card_lt (injective : Function.Injective code)
    (inside : ∀ k k', below k k' → code k < count) {k k' : κ} (grounded : Grounded below k)
    (edge : below k k') :
    (reach below code count k').card < (reach below code count k).card := by
  refine Finset.card_lt_card ⟨fun position member => ?_, fun subset => ?_⟩
  · simp only [reach, Finset.mem_filter] at member ⊢
    obtain ⟨bound, k'', same, path⟩ := member
    exact ⟨bound, k'', same, .head edge path⟩
  · have here : code k ∈ reach below code count k := by
      simp only [reach, Finset.mem_filter, Finset.mem_range]
      exact ⟨inside k k' edge, k, rfl, .refl⟩
    have there := subset here
    simp only [reach, Finset.mem_filter] at there
    obtain ⟨_, k'', same, path⟩ := there
    obtain rfl := injective same
    exact grounded.irrefl (Relation.TransGen.head' edge path)

variable {α : Type} {cut : α} {step : (κ → α) → κ → α}

/-- Two bounds above the number of places below give the same value. -/
theorem descendWithin_agree (injective : Function.Injective code)
    (inside : ∀ k k', below k k' → code k < count)
    (looks : ∀ f g k, (∀ k', below k k' → f k' = g k') → step f k = step g k) {k : κ}
    (grounded : Grounded below k) : ∀ depth depth' : Nat,
      (reach below code count k).card < depth → (reach below code count k).card < depth' →
      descendWithin cut step depth k = descendWithin cut step depth' k := by
  induction grounded with
  | intro k lower ih =>
  have grounded : Grounded below k := .intro lower
  intro depth depth' bound bound'
  obtain _ | depth := depth
  · omega
  obtain _ | depth' := depth'
  · omega
  refine looks _ _ _ fun k' edge => ?_
  have fewer := reach_card_lt injective inside grounded edge
  exact ih k' edge depth depth' (by omega) (by omega)

/-- The equation that a descent is meant to be defined by. -/
theorem descendWithin_eq (injective : Function.Injective code)
    (inside : ∀ k k', below k k' → code k < count)
    (looks : ∀ f g k, (∀ k', below k k' → f k' = g k') → step f k = step g k) {k : κ}
    (grounded : Grounded below k) :
    descendWithin cut step (count + 1) k = step (descendWithin cut step (count + 1)) k := by
  refine looks _ _ _ fun k' edge => ?_
  have fewer := reach_card_lt injective inside grounded edge
  have most := reach_card_le below code count k
  exact descendWithin_agree injective inside looks (grounded.lower edge) _ _ (by omega) (by omega)

end Rank

theorem Idx.position_injective : Function.Injective (@Idx.position e) := by
  intro a b same
  cases a
  cases b
  exact congrArg _ same

variable {α : Type}

/-- Folds by steps that agree on the members of a list agree. -/
theorem foldlM_congr {m : Type → Type} [Monad m] {α β : Type} {f g : β → α → m β} {xs : List α}
    (same : ∀ x ∈ xs, ∀ state, f state x = g state x) (start : β) :
    xs.foldlM f start = xs.foldlM g start := by
  induction xs generalizing start with
  | nil => rfl
  | cons x rest ih =>
    rw [List.foldlM_cons, List.foldlM_cons, same x List.mem_cons_self start]
    exact congrArg _ (funext fun state => ih (fun x member => same x (.tail _ member)) state)

theorem allM_congr {m : Type → Type} [Monad m] {α : Type} {f g : α → m Bool} {xs : List α}
    (same : ∀ x ∈ xs, f x = g x) : xs.allM f = xs.allM g := by
  induction xs with
  | nil => rfl
  | cons x rest ih =>
    rw [List.allM, List.allM, same x List.mem_cons_self,
      ih fun x member => same x (.tail _ member)]

theorem Tree.descend_eq (tree : Tree) {below : RecordId → RecordId → Prop} {cut : α}
    {step : (RecordId → α) → RecordId → α}
    (inside : ∀ r r', below r r' → r.position < tree.records.size)
    (looks : ∀ f g r, (∀ r', below r r' → f r' = g r') → step f r = step g r) {r : RecordId}
    (grounded : Grounded below r) : tree.descend cut step r = step (tree.descend cut step) r :=
  descendWithin_eq Idx.position_injective inside looks grounded

theorem SubobjectGraph.descend_eq (graph : SubobjectGraph)
    {below : SubobjectId → SubobjectId → Prop} {cut : α}
    {step : (SubobjectId → α) → SubobjectId → α}
    (inside : ∀ i j, below i j → i.position < graph.nodes.size)
    (looks : ∀ f g i, (∀ j, below i j → f j = g j) → step f i = step g i) {i : SubobjectId}
    (grounded : Grounded below i) : graph.descend cut step i = step (graph.descend cut step) i :=
  descendWithin_eq Idx.position_injective inside looks grounded

end ObjectLayout
