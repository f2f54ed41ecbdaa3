import ObjectLayout.Proofs.Subobject.Growth

/-! What is found in a graph by its class is of that class, for a non-virtual base, and of the kind it
is looked for as. Nothing has to be known about the declarations here: a graph that was computed at
all is sorted. -/
namespace ObjectLayout.SubobjectGraph

open LayoutM (ends_bind)

variable {s : Setting} {known : Known}
variable {g g' g'' : SubobjectGraph} {i p : SubobjectId} {r : RecordId} {isVirtual : Bool}

/-- The occurrences listed as virtual bases are virtual ones, and those listed as non-virtual bases
are not. -/
structure Sorted (g : SubobjectGraph) : Prop where
  virtual : ∀ v p, g.virtualBases.find? v = some p → g.Has p ∧ (g.node p).isVirtual = true
  plain : ∀ b i, g.nonVirtualBases.find? b = some i → g.Has i ∧ (g.node i).isVirtual = false
  record : ∀ b i, g.nonVirtualBases.find? b = some i → (g.node i).record = b

/-- Occurrences stay, and stay what they are. -/
structure KeepsKinds (g g' : SubobjectGraph) : Prop where
  has : ∀ k, g.Has k → g'.Has k
  kind : ∀ k, g.Has k → (g'.node k).isVirtual = (g.node k).isVirtual
  record : ∀ k, g.Has k → (g'.node k).record = (g.node k).record
  plain : g'.nonVirtualBases = g.nonVirtualBases

namespace KeepsKinds

theorem refl (g : SubobjectGraph) : KeepsKinds g g := ⟨fun _ => id, fun _ _ => rfl, fun _ _ => rfl, rfl⟩

theorem trans (h : KeepsKinds g g') (h' : KeepsKinds g' g'') : KeepsKinds g g'' where
  has k here := h'.has k (h.has k here)
  kind k here := (h'.kind k (h.has k here)).trans (h.kind k here)
  record k here := (h'.record k (h.has k here)).trans (h.record k here)
  plain := h'.plain.trans h.plain

theorem modify {f : Subobject → Subobject} (same : ∀ x, (f x).isVirtual = x.isVirtual)
    (same' : ∀ x, (f x).record = x.record) (here : g.Has i) : KeepsKinds g (g.modify i f) where
  has _ := (has_modify f).mpr
  kind _ _ := node_modify_field (·.isVirtual) same here
  record _ _ := node_modify_field (·.record) same' here
  plain := nonVirtualBases_modify f

/-- A graph with the same lists stays sorted. -/
theorem sorted (h : KeepsKinds g g') (same : g'.virtualBases = g.virtualBases)
    (sorted : g.Sorted) : g'.Sorted where
  virtual v p found := by
    rw [same] at found
    obtain ⟨here, kind⟩ := sorted.virtual v p found
    exact ⟨h.has p here, (h.kind p here).trans kind⟩
  plain b i found := by
    rw [h.plain] at found
    obtain ⟨here, kind⟩ := sorted.plain b i found
    exact ⟨h.has i here, (h.kind i here).trans kind⟩
  record b i found := by
    rw [h.plain] at found
    exact (h.record i (sorted.plain b i found).1).trans (sorted.record b i found)

end KeepsKinds

theorem sorted_empty : ({} : SubobjectGraph).Sorted := ⟨nofun, nofun, nofun⟩

/-- A sorted graph after steps that keep all kinds. -/
structure Grows (g g' : SubobjectGraph) : Prop where
  sorted : g'.Sorted
  keeps : KeepsKinds g g'

namespace Grows

theorem refl (sorted : g.Sorted) : Grows g g := ⟨sorted, .refl g⟩

theorem trans (h : Grows g g') (h' : Grows g' g'') : Grows g g'' :=
  ⟨h'.sorted, h.keeps.trans h'.keeps⟩

theorem modify {f : Subobject → Subobject} (same : ∀ x, (f x).isVirtual = x.isVirtual)
    (same' : ∀ x, (f x).record = x.record) (sorted : g.Sorted) (here : g.Has i) :
    Grows g (g.modify i f) :=
  ⟨(KeepsKinds.modify same same' here).sorted (virtualBases_modify f) sorted,
    .modify same same' here⟩

theorem claim (sorted : g.Sorted) (here : g.Has i) (there : g.Has p) : Grows g (g.claim i p) := by
  have first : Grows g (g.modify i ({ · with primaryVirtual := some p })) :=
    .modify (fun _ => rfl) (fun _ => rfl) sorted here
  exact first.trans (.modify (fun _ => rfl) (fun _ => rfl) first.sorted ((has_modify _).mpr there))

theorem occurrence (sorted : g.Sorted) (r : RecordId) (isVirtual : Bool) :
    Grows g (g.occurrence r isVirtual).1 := by
  have keeps : KeepsKinds g (g.occurrence r isVirtual).1 := by
    have same (k : SubobjectId) (here : g.Has k) : (g.occurrence r isVirtual).1.node k = g.node k := by
      rw [node_occurrence, if_neg]
      rintro rfl
      exact not_has_next here
    refine ⟨fun k here => has_occurrence.mpr (.inl here), fun k here => ?_, fun k here => ?_, ?_⟩
    · rw [same k here]
    · rw [same k here]
    · cases isVirtual <;> rfl
  refine ⟨⟨fun v p found => ?_, fun b i found => ?_, fun b i found => ?_⟩, keeps⟩
  · rw [find?_occurrence] at found
    split at found
    · rename_i new
      cases found
      exact ⟨has_occurrence.mpr (.inr rfl), by rw [node_occurrence, if_pos rfl, new.1]⟩
    · obtain ⟨here, kind⟩ := sorted.virtual v p found
      exact ⟨keeps.has p here, (keeps.kind p here).trans kind⟩
  · rw [keeps.plain] at found
    obtain ⟨here, kind⟩ := sorted.plain b i found
    exact ⟨keeps.has i here, (keeps.kind i here).trans kind⟩
  · rw [keeps.plain] at found
    exact (keeps.record i (sorted.plain b i found).1).trans (sorted.record b i found)

theorem claimEarly (sorted : g.Sorted) (here : g.Has i) (primary : RecordId) :
    Grows g (g.claimEarly i primary).1 := by
  unfold SubobjectGraph.claimEarly
  split
  · exact .refl sorted
  · rename_i p found
    split
    · exact .refl sorted
    · exact .claim sorted here (sorted.virtual primary p found).1

theorem claimLate (sorted : g.Sorted) (here : g.Has i) (unclaimed : Option RecordId) :
    Ends (fun _ => True) (g.claimLate i unclaimed) (Grows g) := by
  cases unclaimed with
  | none => exact Grows.refl sorted
  | some primary =>
    unfold SubobjectGraph.claimLate
    dsimp only
    split
    · rename_i p found
      exact Grows.claim sorted here (sorted.virtual primary p found).1
    · trivial

end Grows

/-- The occurrence that a visit was for is of the kind that was asked for, and a new one, as that of a
non-virtual base always is, of the class. -/
structure Found (g : SubobjectGraph) (r : RecordId) (isVirtual : Bool)
    (result : SubobjectGraph × SubobjectId) : Prop where
  grows : Grows g result.1
  has : result.1.Has result.2
  kind : (result.1.node result.2).isVirtual = isVirtual
  record : isVirtual = false → (result.1.node result.2).record = r

/-- The descent is to any depth, so the induction is on the depth and not on the declarations. -/
theorem visit_found (sorted : g.Sorted) :
    Ends (fun _ => True) ((visit s r isVirtual g).eval known) (Found g r isVirtual) := by
  unfold visit Tree.descend
  generalize s.tree.records.size + 1 = depth
  induction depth generalizing r isVirtual g with
  | zero => trivial
  | succ depth ih =>
    rw [descendWithin]
    split
    · rename_i existing listed
      cases isVirtual with
      | false => cases listed
      | true =>
        obtain ⟨has, kind⟩ := sorted.virtual r existing listed
        exact ⟨.refl sorted, has, kind, nofun⟩
    · have opened := Grows.occurrence sorted r isVirtual
      have new : (g.occurrence r isVirtual).1.Has (g.occurrence r isVirtual).2 :=
        has_occurrence.mpr (.inr rfl)
      have kind : ((g.occurrence r isVirtual).1.node (g.occurrence r isVirtual).2).isVirtual =
          isVirtual := by
        change ((g.occurrence r isVirtual).1.node g.nodes.next).isVirtual = isVirtual
        rw [node_occurrence, if_pos rfl]
      have record : ((g.occurrence r isVirtual).1.node (g.occurrence r isVirtual).2).record = r := by
        change ((g.occurrence r isVirtual).1.node g.nodes.next).record = r
        rw [node_occurrence, if_pos rfl]
      generalize g.occurrence r isVirtual = added at opened new kind record
      obtain ⟨g₁, i⟩ := added
      dsimp only at opened new kind record ⊢
      refine LayoutM.ends_ite_bind (G := fun _ => True) (fun primary _ => ?_)
        (fun _ rest => ends_bind Ends.any fun primary _ => rest primary trivial) fun _ => trivial
      have early : Grows g₁ (primary.elim (g₁, none) (g₁.claimEarly i)).1 := by
        cases primary with
        | none => exact .refl opened.sorted
        | some primary => exact .claimEarly opened.sorted new primary
      generalize primary.elim (g₁, none) (g₁.claimEarly i) = claimed at early
      obtain ⟨g₂, unclaimed⟩ := claimed
      dsimp only at early ⊢
      refine ends_bind (G := Grows g₂) ?_ fun g₃ expanded => ?_
      · rw [LayoutM.eval_foldlM]
        refine Ends.foldlM_keeps (.refl early.sorted) fun base _ g' sofar => ?_
        refine ends_bind (ih sofar.sorted) fun result below => ?_
        have grown := sofar.trans below.grows
        have has := grown.keeps.has i (early.keeps.has i new)
        exact grown.trans (.modify (fun _ => rfl) (fun _ => rfl) grown.sorted has)
      · have grown := early.trans expanded
        have has := grown.keeps.has i new
        refine LayoutM.ends_lift_bind (Grows.claimLate expanded.sorted has unclaimed) fun g₄ late => ?_
        have whole := grown.trans late
        exact ⟨opened.trans whole, whole.keeps.has i new, (whole.keeps.kind i new).trans kind,
          fun _ => (whole.keeps.record i new).trans record⟩

theorem sorted_ofClass : Ends (fun _ => True) ((ofClass s r).eval known) Sorted := by
  unfold ofClass
  rw [LayoutM.eval_foldlM]
  refine Ends.foldlM_keeps sorted_empty fun base _ g sorted => ?_
  refine ends_bind (visit_found sorted) fun result found => ?_
  obtain ⟨g', i⟩ := result
  dsimp only
  split
  · exact found.grows.sorted
  · rename_i plain
    refine ends_bind Ends.any fun _ _ => ?_
    have plain := Bool.eq_false_of_not_eq_true plain
    -- What is listed now is the new occurrence, or was listed before.
    have listing (b : RecordId) (j : SubobjectId)
        (listed : (g'.nonVirtualBases.insert base.record i).find? b = some j) :
        (b = base.record ∧ j = i) ∨ g'.nonVirtualBases.find? b = some j := by
      by_cases same : b = base.record
      · subst b
        rw [OrderedMap.find?_insert_self] at listed
        exact .inl ⟨rfl, (Option.some.inj listed).symm⟩
      · rw [OrderedMap.find?_insert_of_ne _ _ same] at listed
        exact .inr listed
    refine ⟨found.grows.sorted.virtual, fun b j listed => ?_, fun b j listed => ?_⟩
    · obtain ⟨_, rfl⟩ | old := listing b j listed
      · exact ⟨found.has, found.kind.trans plain⟩
      · exact found.grows.sorted.plain b j old
    · obtain ⟨rfl, rfl⟩ | old := listing b j listed
      · exact found.record plain
      · exact found.grows.sorted.record b j old

/-- A virtual base that is stolen is the one that was listed. -/
theorem sorted_steal {v : RecordId} (sorted : g.Sorted) :
    Ends (fun _ => True) (g.stealVirtualBase v) fun stolen =>
      stolen.1.Sorted ∧ (stolen.1.node stolen.2).isVirtual = true := by
  refine Ends.bind Ends.any fun p listed => ?_
  unfold virtualBase at listed
  split at listed
  · rename_i found
    cases listed
    obtain ⟨has, kind⟩ := sorted.virtual v p found
    have grows : Grows g (g.modify p ({ · with claimedBy := none })) :=
      .modify (fun _ => rfl) (fun _ => rfl) sorted has
    exact ⟨grows.sorted, (grows.keeps.kind p has).trans kind⟩
  · cases listed

end ObjectLayout.SubobjectGraph
