import ObjectLayout.Proofs.Itanium.Pieces

/-! A base subobject that hangs from nothing is laid out together with everything claimed inside it.
The tables get exactly the entries of the new piece, which are never there yet. -/
namespace ObjectLayout.Itanium

open LayoutM (ends_bind ends_lift_bind)

variable {f : Frame} {known : Known} {allowed : Fault → Prop} {g : SubobjectGraph}
variable {st st' : State} {pieces : List Piece} {front x : Nat} {i : SubobjectId}
variable {own : Option RecordId}

/-- What the layout of a record can rely on. Faults are only allowed where the declarations break a
rule, and where an offset overflows. -/
structure Workable (f : Frame) (known : Known) (allowed : Fault → Prop) : Prop where
  knows : f.setting.Knows known
  unsupplied : f.supplied = none
  overflow : allowed .overflow
  grounded : Grounded f.setting.Holds f.record
  explorable : ∀ r, Relation.TransGen f.setting.Holds f.record r →
    Explorable f.setting known r
  union : ∀ b, f.tree.Inherits f.record b → f.isUnion = true →
    allowed (.breach .unionWithBases) ∧ allowed (.breach .unionWithVirtualBases)
  powers : f.PacksToPowers ∨ allowed (.breach .alignmentNotPowerOfTwo)
  plain : ∀ b, Relation.TransGen f.tree.Inherits f.record b → (f.tree.record b).isClass = false →
    allowed (.breach .classLayoutOfPlainRecord)
  repeats : ¬ (f.declaration.nonVirtualBases.map (·.record)).Nodup →
    allowed (.breach .baseAlreadyInGraph)

namespace Workable

variable (work : Workable f known allowed)
include work

theorem acyclic : f.tree.Acyclic f.record := work.grounded.mono fun _ _ edge => edge.holds

theorem sound : SoundBelow f.setting known f.record := fun r path => (work.explorable r path).sound

theorem charted (forest : g.Forest f.setting known f.record own) :
    Charted f.setting known f.record own g :=
  ⟨forest, work.acyclic, work.sound⟩

theorem union_of_has (charted : Charted f.setting known f.record own g) (has : g.Has i)
    (union : f.isUnion = true) :
    allowed (.breach .unionWithBases) ∧ allowed (.breach .unionWithVirtualBases) := by
  obtain ⟨b, edge, _⟩ := Relation.TransGen.head'_iff.mp (charted.forest.below i has)
  exact work.union b edge union

theorem placeable (charted : Charted f.setting known f.record own g) (has : g.Has i) :
    Placeable f known allowed g i where
  unsupplied := work.unsupplied
  overflow := work.overflow
  union yes := (work.union_of_has charted has yes).1
  powers := work.powers
  plain no := work.plain _ (charted.forest.below i has) no
  inside := charted.forest.baseExplorable work.acyclic work.explorable has

end Workable

/-- A state after a base subobject and all that it has claimed were laid out at `x`. -/
structure RootLaid (f : Frame) (known : Known) (g : SubobjectGraph) (i : SubobjectId) (x : Nat)
    (st st' : State) : Prop where
  placed : ∃ mid, BasePlaced f known i x st mid ∧ st' = { mid with
    baseOffsets := st'.baseOffsets, virtualBaseSlots := st'.virtualBaseSlots }
  bases : st'.baseOffsets.entries =
    st.baseOffsets.entries ++ ((Piece.base i x).baseEntry g).toList
  slots : st'.virtualBaseSlots.entries =
    st.virtualBaseSlots.entries ++ slotsOf g ((Piece.base i x).occurrences known g)

section Lay

variable (work : Workable f known allowed) (charted : Charted f.setting known f.record own g)
variable (laid : Laid f known g front pieces st) (root : g.IsRoot i)
variable (new : ∀ y, Piece.base i y ∉ pieces)
include work charted laid root new

theorem layNonVirtualBase_ends (plain : (g.node i).isVirtual = false) :
    Ends allowed ((layNonVirtualBase f i st).eval known) fun st' =>
      ∃ x, RootLaid f known g i x st st' := by
  have graph := laid.graph
  subst graph
  refine ends_bind (layBase_ends work.knows laid.bounded (work.placeable charted root.1)) ?_
  rintro ⟨mid, x⟩ placed
  dsimp only at placed ⊢
  have distinct := laid.distinct.push_base new x
  have rooted := laid.rooted.push_base root x
  have graph' : mid.graph = st.graph := by rw [placed.frame]
  have bases' : mid.baseOffsets = st.baseOffsets := by rw [placed.frame]
  have slots' : mid.virtualBaseSlots = st.virtualBaseSlots := by rw [placed.frame]
  have entry : (Piece.base i x).baseEntry st.graph = some ((st.graph.node i).record, x) := by
    simp [Piece.baseEntry, plain]
  have absent : (st.graph.node i).record ∉ st.baseOffsets.keys := by
    have nodup := baseEntries_nodup charted distinct rooted
    rw [List.filterMap_append, List.map_append, ← laid.bases] at nodup
    intro member
    exact (List.nodup_append.mp nodup).2.2 _ member _ (by simp [entry]) rfl
  have vacant : (!mid.baseOffsets.contains (mid.graph.node i).record) = true := by
    rw [bases', graph']
    simpa using mt OrderedMap.contains_iff.mp absent
  refine ends_bind (G := fun _ => True) ?_ fun _ _ => ?_
  · rw [LayoutM.eval_ensure, vacant]
    trivial
  have occurrences : (Piece.base i x).occurrences known st.graph = claimedFrom known st.graph i x := by
    simp [Piece.occurrences, plain]
  have charted' : Charted f.setting known f.record own mid.graph := by rwa [graph']
  refine ends_bind (placeClaimed_ends charted' work.overflow (by rw [graph']; exact root.1) ?_)
    fun slots added => ?_
  · have nodup := slots_nodup charted distinct rooted
    rw [List.flatMap_append, slotsOf_append, ← laid.slots, List.map_append] at nodup
    rw [graph', slots', OrderedMap.keys]
    simpa [occurrences] using nodup
  · refine ⟨x, ⟨mid, placed, ?_⟩, ?_, ?_⟩
    · rfl
    · rw [entry, bases', graph']
      exact OrderedMap.entries_insert absent
    · rw [occurrences]
      rw [graph', slots'] at added
      exact added

theorem layVirtualBase_ends (virt : (g.node i).isVirtual = true) :
    Ends allowed ((layVirtualBase f i st).eval known) fun st' =>
      ∃ x, RootLaid f known g i x st st' := by
  have graph := laid.graph
  subst graph
  refine ends_bind (G := fun _ => True) ?_ fun _ _ => ?_
  · rw [LayoutM.eval_ensure]
    refine ends_ensure (fun _ => trivial) fun union => ?_
    exact (work.union_of_has charted root.1 (by simpa using union)).2
  refine ends_bind (layBase_ends work.knows laid.bounded (work.placeable charted root.1)) ?_
  rintro ⟨mid, x⟩ placed
  dsimp only at placed ⊢
  have distinct := laid.distinct.push_base new x
  have rooted := laid.rooted.push_base root x
  have graph' : mid.graph = st.graph := by rw [placed.frame]
  have bases' : mid.baseOffsets = st.baseOffsets := by rw [placed.frame]
  have slots' : mid.virtualBaseSlots = st.virtualBaseSlots := by rw [placed.frame]
  have occurrences : (Piece.base i x).occurrences known st.graph =
      (i, x) :: claimedFrom known st.graph i x := by
    simp [Piece.occurrences, virt]
  have nodup := slots_nodup charted distinct rooted
  rw [List.flatMap_append, slotsOf_append, ← laid.slots, List.map_append] at nodup
  have nodup : (st.virtualBaseSlots.keys ++ (st.graph.node i).record
      :: (slotsOf st.graph (claimedFrom known st.graph i x)).map Prod.fst).Nodup := by
    simpa [occurrences, slotsOf, OrderedMap.keys] using nodup
  have absent : (st.graph.node i).record ∉ st.virtualBaseSlots.keys := fun member =>
    (List.nodup_append.mp nodup).2.2 _ member _ List.mem_cons_self rfl
  have vacant : (!mid.virtualBaseSlots.contains (mid.graph.node i).record) = true := by
    rw [slots', graph']
    simpa using mt OrderedMap.contains_iff.mp absent
  have entries : (st.virtualBaseSlots.insert (st.graph.node i).record { offset := x }).entries =
      st.virtualBaseSlots.entries ++ [((st.graph.node i).record, { offset := x })] :=
    OrderedMap.entries_insert absent
  refine ends_bind (G := fun _ => True) ?_ fun _ _ => ?_
  · rw [LayoutM.eval_ensure, vacant]
    trivial
  have charted' : Charted f.setting known f.record own mid.graph := by rwa [graph']
  refine ends_bind (placeClaimed_ends charted' work.overflow (by rw [graph']; exact root.1) ?_)
    fun slots added => ?_
  · rw [graph', slots']
    rw [OrderedMap.keys, entries]
    simpa [OrderedMap.keys] using nodup
  · refine ⟨x, ⟨mid, placed, ?_⟩, ?_, ?_⟩
    · rfl
    · rw [bases']
      simp [Piece.baseEntry, virt]
    · rw [occurrences]
      rw [graph', slots', entries] at added
      rw [added]
      simp [slotsOf]

end Lay

end ObjectLayout.Itanium
