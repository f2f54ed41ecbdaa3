import ObjectLayout.Proofs.Itanium.Tracking

/-! One step after the other keeps the tables, the order of the pieces and the map of empty
subobjects in agreement. -/
namespace ObjectLayout.Itanium

variable {f : Frame} {known : Known} {allowed : Fault → Prop} {g : SubobjectGraph}
variable {st st' : State} {pieces : List Piece} {front front' x : Nat} {i : SubobjectId}
variable {own : Option RecordId}

/-- A state after some pieces were placed, with a map that knows of them. -/
structure Progress (f : Frame) (known : Known) (g : SubobjectGraph) (front : Nat)
    (pieces : List Piece) (st : State) : Prop where
  laid : Laid f known g front pieces st
  tracked : f.setting.options.cplusplus = true → f.isUnion = false →
    Tracked f known g front pieces st

theorem Workable.settled (work : Workable f known allowed) :
    Settled f.setting known f.record := ⟨work.knows, work.grounded, work.sound⟩

theorem RootLaid.frame (next : RootLaid f known g i x st st') : st' = { st with
    size := st'.size, dataSize := st'.dataSize, emptyMap := st'.emptyMap
    alignment := st'.alignment, unpackedAlignment := st'.unpackedAlignment
    baseOffsets := st'.baseOffsets, virtualBaseSlots := st'.virtualBaseSlots } := by
  obtain ⟨mid, placed, same⟩ := next.placed
  rw [same, placed.frame]

/-- The data ends with the base, unless that is empty. -/
theorem RootLaid.dataSize (next : RootLaid f known g i x st st') : st'.dataSize =
    if f.tree.isEmptyClass (st.graph.node i).record then st.dataSize
    else (Piece.base i x).stop f known st.graph := by
  obtain ⟨mid, placed, same⟩ := next.placed
  rw [same]
  exact placed.dataSize

/-- The data does not shrink. -/
theorem RootLaid.dataSize_le (next : RootLaid f known g i x st st') : st.dataSize ≤ st'.dataSize := by
  obtain ⟨mid, placed, same⟩ := next.placed
  rw [next.dataSize, Piece.stop]
  split
  · exact le_rfl
  · rename_i full
    rcases placed.start with ⟨empty, _⟩ | past
    · exact absurd empty full
    · lia

/-- The map of a class still only knows of what lies no higher than it says. -/
theorem BasePlaced.mapBounded (placed : BasePlaced f known i x st st') (work : Workable f known allowed)
    (inside : BaseExplorable f.setting known st.graph i) (bounded : st.MapBounded) :
    st'.MapBounded := by
  intro map' here'
  cases here : st.emptyMap with
  | none =>
    rw [placed.placed.1 here] at here'
    cases here'
  | some map =>
    obtain ⟨map'', same, answer⟩ := placed.placed.2 map here
    rw [same] at here'
    cases here'
    have bounded := bounded map here
    rcases (placeBase?_ends work.knows bounded (.inl work.overflow) inside
      (.inl work.overflow)).value answer with ⟨_, rfl⟩ | ⟨_, recorded⟩
    · exact bounded
    · exact recorded.bounded bounded

theorem BasePlaced.mapped (placed : BasePlaced f known i x st st') (some : st.emptyMap.isSome) :
    st'.emptyMap.isSome := by
  obtain ⟨map, here⟩ := Option.isSome_iff_exists.mp some
  obtain ⟨map', same, _⟩ := placed.placed.2 map here
  rw [same]
  rfl

theorem BasePlaced.widens (placed : BasePlaced f known i x st st') :
    Widens f known st.graph (.base i x) st st' where
  grows := placed.grows
  sized := placed.dataSize_le
  whole _ whole := by
    rw [placed.tight whole]
    lia
  tight _ whole bound _ before last := by
    rw [placed.tight whole]
    exact Nat.max_le.mpr ⟨before, last⟩

section Root

variable (work : Workable f known allowed) (charted : Charted f.setting known f.record own g)
variable (root : g.IsRoot i) (next : RootLaid f known g i x st st') (le : front ≤ st.dataSize)

section

include root next

theorem Tabled.push_root (h : Tabled f known g pieces st) (new : ∀ y, Piece.base i y ∉ pieces) :
    Tabled f known g (pieces ++ [.base i x]) st' := by
  have graph := h.graph
  subst graph
  obtain ⟨mid, placed, same⟩ := next.placed
  have fieldOffsets : st'.fieldOffsets = st.fieldOffsets := by rw [same, placed.frame]
  constructor
  case graph => rw [same, placed.frame]
  case rooted => exact h.rooted.push_base root x
  case distinct => exact h.distinct.push_base new x
  case isClass =>
    intro j y member
    rcases List.mem_append.mp member with member | last
    · exact h.isClass j y member
    · cases List.mem_singleton.mp last
      exact placed.isClass
  case bases =>
    rw [next.bases, h.bases, List.filterMap_append]
    cases entry : (Piece.base i x).baseEntry st.graph <;> simp [entry]
  case slots =>
    rw [next.slots, h.slots, List.flatMap_append, slotsOf_append]
    simp
  case fields =>
    intro index offset
    rw [fieldOffsets, ← h.fields index offset]
    simp

end

section

include next le

theorem Measured.push_root (h : Measured f known g front pieces st) (graph : st.graph = g) :
    Measured f known g st'.dataSize (pieces ++ [.base i x]) st' := by
  subst graph
  obtain ⟨mid, placed, same⟩ := next.placed
  have size : st'.size = mid.size := by rw [same]
  have dataSize : st'.dataSize = mid.dataSize := by rw [same]
  have widens : Widens f known st.graph (.base i x) st st' := by
    obtain ⟨grows, sized, whole, tight⟩ := placed.widens
    rw [← size] at grows sized whole tight
    exact ⟨grows, dataSize ▸ sized, whole, tight⟩
  refine h.push widens ?_ nofun (fun _ => le.trans next.dataSize_le) fun _ full => ?_
  · rintro _ _ ⟨⟩
    exact size ▸ placed.inside
  · have full : f.tree.isEmptyClass (st.graph.node i).record = false := full
    rw [dataSize, placed.dataSize, full]
    refine ⟨?_, le_rfl⟩
    rcases placed.start with ⟨empty, _⟩ | past
    · exact absurd (full.symm.trans empty) Bool.false_ne_true
    · exact le.trans past

end

include work charted root next le

theorem Laid.push_root (h : Laid f known g front pieces st) (new : ∀ y, Piece.base i y ∉ pieces) :
    Laid f known g st'.dataSize (pieces ++ [.base i x]) st' where
  toTabled := h.toTabled.push_root root next new
  toMeasured := h.toMeasured.push_root next le h.graph
  power := by
    obtain ⟨mid, placed, same⟩ := next.placed
    rw [same]
    exact placed.power h.power
  bounded := by
    obtain ⟨mid, placed, same⟩ := next.placed
    have inside := (work.placeable charted root.1).inside
    have bounded := placed.mapBounded work (h.graph ▸ inside) h.bounded
    rw [same]
    exact bounded
  mapped isClass := by
    obtain ⟨mid, placed, same⟩ := next.placed
    rw [same]
    exact placed.mapped (h.mapped isClass)

theorem Tracked.push_root (h : Tracked f known g front pieces st) (graph : st.graph = g)
    (cplusplus : f.setting.options.cplusplus = true) :
    Tracked f known g st'.dataSize (pieces ++ [.base i x]) st' := by
  subst graph
  obtain ⟨mid, placed, same⟩ := next.placed
  have grown := next.dataSize_le
  have emptyMap : st'.emptyMap = mid.emptyMap := by rw [same]
  have dataSize : st'.dataSize = mid.dataSize := by rw [same]
  refine h.push (fun none => emptyMap ▸ placed.placed.1 none) fun map here => ?_
  obtain ⟨map', same', answer⟩ := placed.placed.2 map here
  refine ⟨map', emptyMap ▸ same', ?_⟩
  have inside := (work.placeable charted root.1).inside
  have start := placed.start.imp_right fun past => le.trans past
  have placing := (h.kept map here).placeBase work.settled cplusplus charted root
    placed.isClass inside (.inl work.overflow) (.inl work.overflow) start (le.trans grown) fun full => ?_
  · obtain ⟨apart, kept⟩ := placing.value answer
    exact ⟨apart, kept⟩
  · have full : f.tree.isEmptyClass (st.graph.node i).record = false := full
    rw [dataSize, placed.dataSize, full]
    exact le_rfl

theorem Progress.push_root (h : Progress f known g front pieces st)
    (new : ∀ y, Piece.base i y ∉ pieces) :
    Progress f known g st'.dataSize (pieces ++ [.base i x]) st' where
  laid := h.laid.push_root work charted root next le new
  tracked cplusplus notUnion :=
    (h.tracked cplusplus notUnion).push_root work charted root next le h.laid.graph cplusplus

end Root

end ObjectLayout.Itanium
