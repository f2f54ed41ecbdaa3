import ObjectLayout.Itanium.Layout
import ObjectLayout.Proofs.Catalog
import ObjectLayout.Proofs.Subobject.Silent

/-! What the Itanium rules ask for. Bases are laid out with layouts of records alone, and tell nothing
but how questions about empty subobjects were answered; a field asks for the layout of its type, or of
the element type of an array without a length. -/
namespace ObjectLayout.Itanium

open LayoutM (Confined AsksOnly)
open LayoutM.Confined (endless layoutOf typeLayoutOf foldlM lift lift_bind)

variable {s : Setting} {f : Frame} {st : State} {types : Ty → Prop} {notes : Note → Prop}

section Primary

theorem isNearlyEmpty_silent (r : RecordId) : (isNearlyEmpty s r).Silent := by
  unfold isNearlyEmpty
  exact .ite (.pure _) ((layoutOf r).bind fun _ => lift_bind fun _ => .pure _)

theorem virtualPrimariesBelow_silent (r : RecordId) (found : List RecordId) :
    (virtualPrimariesBelow s r found).Silent := by
  refine descendWithin_keeps (K := fun search : List RecordId → LayoutM (List RecordId) =>
    ∀ found, (search found).Silent) (fun _ => endless) ?_ _ r found
  intro below lower r found
  exact (layoutOf r).bind fun _ => foldlM (fun _ _ _ => lower _ _) _

theorem searchNearlyEmpty_silent (used : List RecordId) (r : RecordId) (found : Candidates) :
    (searchNearlyEmpty s used r found).Silent := by
  refine descendWithin_keeps (K := fun search : Candidates → LayoutM Candidates =>
    ∀ found, (search found).Silent) (fun _ => endless) ?_ _ r found
  intro search lower r found
  refine foldlM (fun base _ found => .ite (.pure _) ?_) found
  exact .ite_bind (isNearlyEmpty_silent _) (.pure _) fun _ => .ite (.pure _) (lower _ _)

theorem choosePrimaryBase_silent (r : RecordId) : (choosePrimaryBase s r).Silent := by
  unfold choosePrimaryBase indirectPrimaryBases
  refine .ite (.pure _) ((foldlM (fun _ _ _ => virtualPrimariesBelow_silent _ _) _).bind fun used => ?_)
  split
  · exact .pure _
  · exact .ite (.pure _) ((searchNearlyEmpty_silent _ _ _).bind fun _ => .pure _)

end Primary

section Bases

variable (answers : ∀ question isFree, notes (.answered question isFree))

theorem probe_asks {place? : Bytes → LayoutM (Option α)} (each : ∀ x, (place? x).Confined types notes)
    (step : Bytes) (attempts : Nat) (x : Bytes) :
    (probe place? step attempts x).Confined types notes := by
  induction attempts generalizing x with
  | zero => exact endless
  | succ attempts ih =>
    refine (each x).bind fun placed => ?_
    split
    · exact .pure _
    · exact lift_bind ih

include answers

theorem placeBase?_asks (i : SubobjectId) (x : Bytes) : (st.placeBase? f i x).Confined types notes := by
  unfold State.placeBase?
  split
  · exact .pure _
  · exact (Confined.of_silent (EmptyMap.placeBase?_silent i x)).bind fun _ => ⟨answers _ _, .pure _⟩

theorem findBaseOffset_asks (i : SubobjectId) (alignment : Bytes) :
    (findBaseOffset f st i alignment).Confined types notes := by
  unfold findBaseOffset
  exact lift_bind fun _ => probe_asks (placeBase?_asks answers i) _ _ _

theorem adoptBaseOffset_asks (i : SubobjectId) (alignment x : Bytes) :
    (adoptBaseOffset f st i alignment x).Confined types notes := by
  unfold adoptBaseOffset
  refine (placeBase?_asks answers i x).bind fun placed => ?_
  cases placed with
  | none => exact .throw _
  | some st => exact .ite (.pure _) (lift_bind fun _ => .pure _)

theorem layBase_asks (i : SubobjectId) : (layBase f i st).Confined types notes := by
  unfold layBase
  refine (Confined.ensure _ _).bind fun _ => (layoutOf _).bind fun layout => lift_bind fun _ => ?_
  refine .ite_bind (placeBase?_asks answers i 0) (.pure none) fun placed => ?_
  cases placed with
  | some st => exact lift_bind fun _ => lift_bind fun _ => .pure _
  | none =>
    cases suppliedBaseOffset? f (st.graph.node i) with
    | none =>
      exact (findBaseOffset_asks answers i _).bind fun _ => lift_bind fun _ => lift_bind fun _ => .pure _
    | some offset =>
      exact (adoptBaseOffset_asks answers i _ _).bind fun _ => lift_bind fun _ => lift_bind fun _ => .pure _

omit answers in
theorem placeClaimed_silent (graph : SubobjectGraph) (i : SubobjectId) (x : Bytes)
    (slots : OrderedMap RecordId VirtualBaseSlot) : (placeClaimed s graph i x slots).Silent := by
  refine descendWithin_keeps (K := fun place : Bytes → OrderedMap RecordId VirtualBaseSlot →
    LayoutM (OrderedMap RecordId VirtualBaseSlot) => ∀ x slots, (place x slots).Silent)
    (fun _ _ => endless) ?_ _ i x slots
  intro place lower i x slots
  refine .ite (.pure _) ?_
  have others (slots : OrderedMap RecordId VirtualBaseSlot) : (do
      let layout ← LayoutM.layoutOf (graph.node i).record
      (graph.nonVirtualBasesOf i).foldlM (fun slots base => do
        let inner := layout.baseOffset (graph.node base).record
        place base (← EmptyMap.within x inner) slots) slots : LayoutM _).Silent :=
    (layoutOf _).bind fun _ => foldlM (fun _ _ _ => lift_bind fun _ => lower _ _ _) slots
  cases graph.claimedPrimary? i with
  | none => exact others slots
  | some primary => exact (Confined.ensure _ _).bind fun _ => (lower _ _ _).bind others

omit answers in
theorem placeClaimed_asks (i : SubobjectId) (x : Bytes) : (st.placeClaimed f i x).Confined types notes := by
  unfold State.placeClaimed
  exact (Confined.of_silent (placeClaimed_silent _ _ _ _)).bind fun _ => .pure _

theorem layNonVirtualBase_asks (i : SubobjectId) : (layNonVirtualBase f i st).Confined types notes := by
  unfold layNonVirtualBase
  exact (layBase_asks answers i).bind fun _ => (Confined.ensure _ _).bind fun _ => placeClaimed_asks i _

theorem layVirtualBase_asks (i : SubobjectId) : (layVirtualBase f i st).Confined types notes := by
  unfold layVirtualBase
  refine (Confined.ensure _ _).bind fun _ => ?_
  exact (layBase_asks answers i).bind fun _ => (Confined.ensure _ _).bind fun _ => placeClaimed_asks i _

theorem layNonVirtualBases_asks : (layNonVirtualBases f st).Confined types notes := by
  have others (st : State) : (f.declaration.nonVirtualBases.foldlM (fun st base => do
      if isNonVirtualPrimary st base.record then return st
      layNonVirtualBase f (← st.graph.nonVirtualBase base.record) st) st : LayoutM State).Confined
        types notes :=
    foldlM (fun _ _ _ => .ite (.pure _) (lift_bind fun _ => layNonVirtualBase_asks answers _)) st
  unfold layNonVirtualBases
  refine (Confined.of_silent (choosePrimaryBase_silent _)).bind fun (primary, _) => ?_
  refine (Confined.of_silent (SubobjectGraph.ofClass_silent _)).bind fun graph => ?_
  cases primary with
  | none => exact .ite_bind (lift _) (.pure _) others
  | some primary =>
    refine Confined.bind ?_ others
    unfold layPrimaryBase
    refine .ite (lift_bind fun _ => (Confined.ensure _ _).bind fun _ => layVirtualBase_asks answers _) ?_
    exact lift_bind fun _ => layNonVirtualBase_asks answers _

theorem layVirtualBases_asks : (layVirtualBases f st).Confined types notes := by
  refine descendWithin_keeps (K := fun lay : Option PrimaryBase → State → LayoutM State =>
    ∀ primary st, (lay primary st).Confined types notes) (fun _ _ => endless) ?_ _ f.record st.primaryBase st
  intro lay lower r primary st
  have further (base : RecordId) (st : State) : (do
      if !f.tree.hasVirtualBases base then return st
      lay base (← LayoutM.layoutOf base).primaryBase? st : LayoutM State).Confined types notes :=
    .ite (.pure _) ((layoutOf _).bind fun _ => lower _ _ _)
  refine foldlM (fun base _ st => .ite (.pure _) ?_) st
  refine .ite ?_ (further base.record st)
  exact lift_bind fun _ => (layVirtualBase_asks answers _).bind (further base.record)

end Bases

section Fields

theorem reportPlacement_asks (p : FieldPlacement) : (reportPlacement f p).AsksOnly types := by
  have warns (remark : Remark) : (f.warn remark).AsksOnly types := ⟨trivial, trivial⟩
  unfold reportPlacement
  exact .when_bind (warns _) fun _ => .ite (warns _) (.pure _)

section Place

variable (answers : ∀ question isFree, notes (.answered question isFree))
include answers

theorem placeField?_asks (type : Ty) (x : Bytes) : (st.placeField? f type x).Confined types notes := by
  unfold State.placeField?
  generalize (if f.isUnion = true then none else st.emptyMap) = map
  cases map with
  | none => exact .pure _
  | some map =>
    exact (Confined.of_silent (EmptyMap.placeField?_silent type x)).bind fun _ => ⟨answers _ _, .pure _⟩

theorem chooseFieldOffset_asks (index : Nat) (type : Ty) (alignment start : Bytes) :
    (chooseFieldOffset f st index type alignment start).Confined types notes := by
  unfold chooseFieldOffset
  refine .ite (probe_asks (placeField?_asks answers type) _ _ _) (lift_bind fun _ => ?_)
  refine (placeField?_asks answers type _).bind fun placed => ?_
  cases placed with
  | none => exact .throw _
  | some st => exact .pure _

end Place

section Report

variable (reports : ∀ p, (reportPlacement f p).Confined types notes)
include reports

theorem layWideBitField_asks (index : Nat) (field : Field) (width : Bits) (isPacked : Bool) :
    (layWideBitField f index field width isPacked st).Confined types notes := by
  unfold layWideBitField
  refine lift_bind fun _ => .ite ?_ (lift_bind fun _ => lift_bind fun _ => lift_bind fun _ => ?_)
  · exact (reports _).bind fun _ => lift _
  · exact (reports _).bind fun _ => lift _

theorem layNarrowBitField_asks (index : Nat) (field : Field)
    (width typeSize typeAlignment : Bits) (isPacked : Bool) (unpaddedOffset : Bits) :
    (layNarrowBitField f index field width typeSize typeAlignment isPacked unpaddedOffset
      st).Confined types notes := by
  unfold layNarrowBitField
  refine lift_bind fun _ => ?_
  refine .ite_bind (lift _) (.pure _) fun _ => ?_
  refine .ite_bind (lift _) (.pure _) fun _ => lift_bind fun _ => lift_bind fun _ => ?_
  exact .when_bind (reports _) fun _ => lift_bind fun _ => lift _

end Report

variable (closed : ∀ type, types type → ∀ part ∈ type.parts, types part)
include closed

theorem fieldExtent_asks {type : Ty} (h : types type) :
    (fieldExtent f type).Confined types notes := by
  have behind := Ty.canonical_of_closed closed type h
  unfold fieldExtent
  split
  · rename_i element canonical
    rw [canonical] at behind
    exact (typeLayoutOf (closed _ behind _ (List.mem_singleton_self _))).bind fun _ => .pure _
  · exact .pure _
  · exact .pure _
  · exact (typeLayoutOf h).bind fun _ => .pure _

variable (answers : ∀ question isFree, notes (.answered question isFree))
variable (reports : ∀ p, (reportPlacement f p).Confined types notes)
include answers reports

theorem layField_asks {index : Nat} {field : Field} (h : types field.type) :
    (layField f index field st).Confined types notes := by
  -- The end of the data, once the field has its place.
  have finish (st : State) (offset size : Bytes) (packed unpacked : Bytes) : (do
      let dataSize ←
        if f.isUnion then pure (max st.dataSize (← Bytes.toBits size))
        else Bytes.toBits (← Quantity.add offset size)
      (st.setDataSize dataSize).raiseAlignment f packed unpacked : LayoutM State).Confined types notes :=
    .ite (lift_bind fun _ => lift _) (lift_bind fun _ => lift_bind fun _ => lift _)
  unfold layField
  refine lift_bind fun _ => (fieldExtent_asks closed h).bind fun _ => ?_
  refine lift_bind fun _ => lift_bind fun _ => (chooseFieldOffset_asks answers _ _ _ _).bind fun _ => ?_
  refine lift_bind fun _ => .ite ?_ (finish _ _ _ _ _)
  exact lift_bind fun _ => lift_bind fun _ => (reports _).bind fun _ => finish _ _ _ _ _

theorem layAnyField_asks {entry : Field × Nat} (h : types entry.1.type) :
    (layAnyField f st entry).Confined types notes := by
  unfold layAnyField
  split
  · unfold layBitField
    refine (typeLayoutOf h).bind fun _ => lift_bind fun _ => lift_bind fun _ => lift_bind fun _ => ?_
    exact .ite (layWideBitField_asks reports _ _ _ _) (layNarrowBitField_asks reports _ _ _ _ _ _ _)
  · exact layField_asks closed answers reports h

theorem layFields_asks (fields : ∀ field ∈ f.declaration.fields, types field.type) :
    (layFields f st).Confined types notes :=
  foldlM (fun _ member _ => layAnyField_asks closed answers reports
    (fields _ (List.fst_mem_of_mem_zipIdx member))) st

end Fields

section Whole

theorem finish_asks : (finish f st).AsksOnly types := by
  have warns (remark : Remark) : (f.warn remark).AsksOnly types := ⟨trivial, trivial⟩
  unfold finish reportSize
  refine lift_bind fun _ => lift_bind fun _ => lift_bind fun _ => lift_bind fun _ =>
    lift_bind fun _ => lift_bind fun _ => ?_
  cases f.supplied with
  | none =>
    exact Confined.bind (.when_bind (warns _) fun _ => .ite (warns _) (.pure _)) fun _ => .pure _
  | some supplied => exact .ite (lift_bind fun _ => lift _) (lift _)

/-- The Itanium rules ask for layouts of types among those of the fields and of their parts. -/
theorem layout_asks (closed : ∀ type, types type → ∀ part ∈ type.parts, types part) {r : RecordId}
    (fields : ∀ field ∈ (s.tree.record r).fields, types field.type)
    (supplied : Option SuppliedLayout) : (layout s r supplied).AsksOnly types := by
  have fields : ∀ field ∈ (Frame.ofRecord s r supplied).declaration.fields, types field.type := fields
  have answers : ∀ question isFree, (fun _ : Note => True) (.answered question isFree) :=
    fun _ _ => trivial
  have laid (st : State) : (layFields (Frame.ofRecord s r supplied) st).AsksOnly types :=
    layFields_asks closed answers reportPlacement_asks fields
  unfold layout layoutTracking
  refine .ite ?_ ?_
  · unfold layClass
    refine (Confined.of_silent (EmptyMap.ofClass_silent _ _)).bind fun _ => lift_bind fun _ => ?_
    refine (layNonVirtualBases_asks answers).bind fun _ => (laid _).bind fun _ => ?_
    exact (layVirtualBases_asks answers).bind fun _ => finish_asks.bind fun _ => .pure _
  · unfold layPlain
    refine lift_bind fun _ => (laid _).bind fun _ => ?_
    exact finish_asks.bind fun _ => .pure _

end Whole

end ObjectLayout.Itanium
