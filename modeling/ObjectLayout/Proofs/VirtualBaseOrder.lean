import ObjectLayout.Proofs.Enclosure

/-! The order of virtual bases. The list of a class is merged from those of its direct bases, each
followed by the base itself if that one is virtual, and what is listed already is passed over. Whatever
is passed over stands further to the front, so each virtual base still comes after its own. -/
namespace ObjectLayout

section DependentsLast

variable {α : Type} {needs : α → List α} {xs ys : List α} {v : α}

/-- Every entry comes after all that it needs. -/
def DependentsLast (needs : α → List α) (xs : List α) : Prop :=
  ∀ before v, before ++ [v] <+: xs → ∀ u ∈ needs v, u ∈ before

theorem dependentsLast_nil : DependentsLast needs [] := by
  intro before v isPrefix
  simp at isPrefix

theorem dependentsLast_concat :
    DependentsLast needs (xs ++ [v]) ↔ DependentsLast needs xs ∧ ∀ u ∈ needs v, u ∈ xs := by
  constructor
  · intro h
    exact ⟨fun before w isPrefix => h before w (isPrefix.trans (List.prefix_append _ _)),
      h xs v (List.prefix_refl _)⟩
  · rintro ⟨h, last⟩ before w isPrefix
    rcases List.prefix_concat_iff.mp isPrefix with same | earlier
    · obtain ⟨rfl, rfl⟩ := List.append_singleton_inj.mp same
      exact last
    · exact h before w earlier

variable [DecidableEq α]

theorem appendNew_singleton : appendNew xs [v] = if v ∈ xs then xs else xs ++ [v] := by
  simp only [ObjectLayout.appendNew, List.foldl_cons, List.foldl_nil]

theorem appendNew_concat : appendNew xs (ys ++ [v]) = appendNew (appendNew xs ys) [v] := by
  simp only [ObjectLayout.appendNew, List.foldl_append]

theorem DependentsLast.appendNew_singleton (h : DependentsLast needs xs)
    (needed : ∀ u ∈ needs v, u ∈ xs) : DependentsLast needs (appendNew xs [v]) := by
  rw [ObjectLayout.appendNew_singleton]
  split
  · exact h
  · exact dependentsLast_concat.mpr ⟨h, needed⟩

/-- By induction on the second list: an entry is added when all that it needs has been. -/
theorem DependentsLast.appendNew (h : DependentsLast needs xs) (h' : DependentsLast needs ys) :
    DependentsLast needs (appendNew xs ys) := by
  induction ys using List.reverseRecOn with
  | nil => exact h
  | append_singleton ys v ih =>
    obtain ⟨earlier, last⟩ := dependentsLast_concat.mp h'
    rw [appendNew_concat]
    exact (ih earlier).appendNew_singleton fun u need => mem_appendNew.mpr (.inr (last u need))

end DependentsLast

namespace Tree

variable {tree : Tree} {r : RecordId}

/-- What one direct base adds to the list. -/
theorem dependentsLast_base {found : List RecordId} {base : Base}
    (sofar : DependentsLast tree.virtualBases found)
    (below : DependentsLast tree.virtualBases (tree.virtualBases base.record)) :
    DependentsLast tree.virtualBases
      (let found := appendNew found (tree.virtualBases base.record)
       if base.isVirtual then appendNew found [base.record] else found) := by
  have inherited := sofar.appendNew below
  dsimp only
  split
  · exact inherited.appendNew_singleton fun u need => mem_appendNew.mpr (.inr need)
  · exact inherited

theorem virtualBases_dependentsLast (acyclic : tree.Acyclic r) :
    DependentsLast tree.virtualBases (tree.virtualBases r) := by
  induction acyclic with
  | intro r lower ih =>
    rw [virtualBases_eq (.intro lower)]
    refine List.foldlRecOn _ _ dependentsLast_nil fun found sofar base member => ?_
    exact dependentsLast_base sofar (ih base.record ⟨base, member, rfl⟩)

/-- The list of virtual bases has each class at the far end of a virtual edge once, after all of that
class's own virtual bases. -/
theorem virtual_bases_listed_bases_first (acyclic : tree.Acyclic r) :
    (tree.virtualBases r).Nodup ∧
      (∀ v, v ∈ tree.virtualBases r ↔ tree.HasVirtualBase r v) ∧
      ∀ before v after, tree.virtualBases r = before ++ v :: after →
        ∀ u ∈ tree.virtualBases v, u ∈ before := by
  refine ⟨virtualBases_nodup acyclic, fun v => mem_virtualBases acyclic, ?_⟩
  intro before v after listed
  apply virtualBases_dependentsLast acyclic before v
  rw [listed]
  exact ⟨after, by simp⟩

/-- `C` inherits `B` in both ways, and so does `D` with `E`, which has both `A` and `C` below it. -/
def inheritedBothWays : Tree where
  records := ⟨#[
    .ofClass "A" [] [] [],
    .ofClass "B" [] [{ record := ⟨0⟩, isVirtual := true }] [],
    .ofClass "C" [] [{ record := ⟨1⟩ }, { record := ⟨1⟩, isVirtual := true }] [],
    .ofClass "E" [] [{ record := ⟨0⟩ }, { record := ⟨2⟩, isVirtual := true }] [],
    .ofClass "D" [] [{ record := ⟨2⟩ }, { record := ⟨3⟩ }, { record := ⟨3⟩, isVirtual := true }] []]⟩

theorem virtual_bases_listed_bases_first_inheritedBothWays :
    inheritedBothWays.virtualBases ⟨4⟩ = [⟨0⟩, ⟨1⟩, ⟨2⟩, ⟨3⟩] ∧
      (inheritedBothWays.virtualBases ⟨4⟩).Nodup ∧
      inheritedBothWays.HasVirtualBase ⟨4⟩ ⟨1⟩ ∧
      ∀ u ∈ inheritedBothWays.virtualBases ⟨3⟩, u ∈ ([⟨0⟩, ⟨1⟩, ⟨2⟩] : List RecordId) := by
  have acyclic : inheritedBothWays.Acyclic ⟨4⟩ :=
    Grounded.mono (fun _ _ edge => edge.encloses) (grounded_of_earlier (by decide) _)
  have listed : inheritedBothWays.virtualBases ⟨4⟩ = [⟨0⟩, ⟨1⟩, ⟨2⟩, ⟨3⟩] := by decide
  obtain ⟨distinct, members, first⟩ := virtual_bases_listed_bases_first acyclic
  refine ⟨listed, distinct, (members ⟨1⟩).mp ?_, first [⟨0⟩, ⟨1⟩, ⟨2⟩] ⟨3⟩ [] listed⟩
  rw [listed]
  decide

end Tree

end ObjectLayout
