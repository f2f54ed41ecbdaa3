import Mathlib.Tactic.CongrExclamation
import ObjectLayout.Proofs.Sugar.Subobjects
import ObjectLayout.Itanium.Layout

/-! The Itanium rules without sugar. Every computation of these rules does the same for declarations with
and without sugar, and asks for the same types, but for their sugar. -/
namespace ObjectLayout.Itanium

/-- The frame of the same record without sugar. -/
def Frame.unsugared (f : Frame) : Frame := { f with setting := f.setting.unsugared }

namespace Frame

variable (f : Frame)

@[simp] theorem ofRecord_unsugared (s : Setting) (r : RecordId) (supplied : Option SuppliedLayout) :
    ofRecord s.unsugared r supplied = (ofRecord s r supplied).unsugared := by
  simp [ofRecord, unsugared]

@[simp] theorem setting_unsugared : f.unsugared.setting = f.setting.unsugared := rfl

@[simp] theorem record_unsugared : f.unsugared.record = f.record := rfl

@[simp] theorem isUnion_unsugared : f.unsugared.isUnion = f.isUnion := by
  cases f; rfl

@[simp] theorem isMsStruct_unsugared : f.unsugared.isMsStruct = f.isMsStruct := by
  cases f; rfl

@[simp] theorem isPacked_unsugared : f.unsugared.isPacked = f.isPacked := by
  cases f; rfl

@[simp] theorem isMac68k_unsugared : f.unsugared.isMac68k = f.isMac68k := rfl

@[simp] theorem supplied_unsugared : f.unsugared.supplied = f.supplied := rfl

@[simp] theorem tree_unsugared : f.unsugared.tree = f.tree.unsugared := rfl

@[simp] theorem target_unsugared : f.unsugared.target = f.target := rfl

@[simp] theorem clamp_unsugared : f.unsugared.clamp = f.clamp := rfl

@[simp] theorem declaration_unsugared : f.unsugared.declaration = f.declaration.unsugared := by
  simp [declaration]

@[simp] theorem unsugared_warn (remark : Remark) :
    (f.warn remark).unsugared = f.unsugared.warn remark := by
  simp [warn]

end Frame

section Primary

variable (s : Setting) (r : RecordId)

@[simp] theorem unsugared_isNearlyEmpty :
    (isNearlyEmpty s r).unsugared = isNearlyEmpty s.unsugared r := by
  simp [isNearlyEmpty]

@[simp] theorem unsugared_virtualPrimariesBelow (found : List RecordId) :
    (virtualPrimariesBelow s r found).unsugared = virtualPrimariesBelow s.unsugared r found := by
  apply s.tree.descend_related (R := fun (below below' : List RecordId → LayoutM (List RecordId)) =>
    ∀ found, (below found).unsugared = below' found)
  case bottom => exact fun _ => rfl
  intro below below' same r found
  simp [same]

@[simp] theorem unsugared_indirectPrimaryBases :
    (indirectPrimaryBases s r).unsugared = indirectPrimaryBases s.unsugared r := by
  simp [indirectPrimaryBases]

@[simp] theorem unsugared_searchNearlyEmpty (used : List RecordId) (found : Candidates) :
    (searchNearlyEmpty s used r found).unsugared = searchNearlyEmpty s.unsugared used r found := by
  apply s.tree.descend_related (R := fun (search search' : Candidates → LayoutM Candidates) =>
    ∀ found, (search found).unsugared = search' found)
  case bottom => exact fun _ => rfl
  intro below below' same r found
  simp [same]

@[simp] theorem firstDynamicBase?_unsugared :
    firstDynamicBase? s.unsugared r = firstDynamicBase? s r := by
  simp [firstDynamicBase?]

@[simp] theorem unsugared_choosePrimaryBase :
    (choosePrimaryBase s r).unsugared = choosePrimaryBase s.unsugared r := by
  simp only [choosePrimaryBase, firstDynamicBase?_unsugared]
  cases firstDynamicBase? s r <;> simp

end Primary

variable (f : Frame) (st : State)

@[simp] theorem unsugared_probe (place? : Bytes → LayoutM (Option α)) (step : Bytes) (attempts : Nat)
    (offset : Bytes) : (probe place? step attempts offset).unsugared =
      probe (fun offset => (place? offset).unsugared) step attempts offset := by
  induction attempts generalizing offset with
  | zero => rfl
  | succ attempts ih =>
    simp only [probe, LayoutM.unsugared_bind]
    congr 1
    funext placed
    cases placed <;> simp [ih]

section Bases

variable (i : SubobjectId) (alignment offset : Bytes)

@[simp] theorem State.unsugared_placeBase? :
    (st.placeBase? f i offset).unsugared = st.placeBase? f.unsugared i offset := by
  simp only [State.placeBase?]
  cases st.emptyMap <;> simp [Placement.unsugared]

@[simp] theorem unsugared_findBaseOffset :
    (findBaseOffset f st i alignment).unsugared = findBaseOffset f.unsugared st i alignment := by
  simp [findBaseOffset]

@[simp] theorem unsugared_adoptBaseOffset : (adoptBaseOffset f st i alignment offset).unsugared =
    adoptBaseOffset f.unsugared st i alignment offset := by
  simp only [adoptBaseOffset, LayoutM.unsugared_bind, State.unsugared_placeBase?]
  congr 1
  funext placed
  cases placed <;> simp

@[simp] theorem suppliedBaseOffset?_unsugared (node : Subobject) :
    suppliedBaseOffset? f.unsugared node = suppliedBaseOffset? f node := rfl

@[simp] theorem State.raiseAlignment_unsugared (packed unpacked : Bytes) :
    st.raiseAlignment f.unsugared packed unpacked = st.raiseAlignment f packed unpacked := rfl

@[simp] theorem unsugared_layBase :
    (layBase f i st).unsugared = layBase f.unsugared i st := by
  simp only [layBase, LayoutM.unsugared_bind, LayoutM.unsugared_ensure, LayoutM.unsugared_layoutOf,
    LayoutM.unsugared_lift, LayoutM.unsugared_ite, LayoutM.unsugared_pure, State.unsugared_placeBase?,
    Frame.isUnion_unsugared, Frame.tree_unsugared, Tree.isEmptyClass_unsugared,
    suppliedBaseOffset?_unsugared, Frame.isPacked_unsugared]
  congr! 6 with _ layout unpacked
  split
  all_goals
    congr 1
    funext atStart
    cases atStart with
    | some st => simp
    | none => cases suppliedBaseOffset? f (st.graph.node i) <;> simp

@[simp] theorem unsugared_placeClaimed (s : Setting) (graph : SubobjectGraph)
    (slots : OrderedMap RecordId VirtualBaseSlot) :
    (placeClaimed s graph i offset slots).unsugared = placeClaimed s.unsugared graph i offset slots := by
  apply graph.descend_related (R := fun (place place' : Bytes → OrderedMap RecordId VirtualBaseSlot →
      LayoutM (OrderedMap RecordId VirtualBaseSlot)) =>
    ∀ offset slots, (place offset slots).unsugared = place' offset slots)
  case bottom => exact fun _ _ => rfl
  intro below below' same i offset slots
  dsimp only
  cases graph.claimedPrimary? i <;> simp [same]

@[simp] theorem State.unsugared_placeClaimed :
    (st.placeClaimed f i offset).unsugared = st.placeClaimed f.unsugared i offset := by
  simp [State.placeClaimed]

@[simp] theorem unsugared_layNonVirtualBase :
    (layNonVirtualBase f i st).unsugared = layNonVirtualBase f.unsugared i st := by
  simp [layNonVirtualBase]

@[simp] theorem unsugared_layVirtualBase :
    (layVirtualBase f i st).unsugared = layVirtualBase f.unsugared i st := by
  simp [layVirtualBase]

@[simp] theorem layTablePointer_unsugared :
    layTablePointer f.unsugared st = layTablePointer f st := rfl

@[simp] theorem unsugared_layPrimaryBase (primary : PrimaryBase) :
    (layPrimaryBase f primary st).unsugared = layPrimaryBase f.unsugared primary st := by
  simp [layPrimaryBase]

@[simp] theorem unsugared_layNonVirtualBases :
    (layNonVirtualBases f st).unsugared = layNonVirtualBases f.unsugared st := by
  simp only [layNonVirtualBases, LayoutM.unsugared_bind]
  congr! 4 with chosen graph
  · simp
  · simp
  obtain ⟨_ | primary, used⟩ := chosen <;> simp

@[simp] theorem unsugared_layVirtualBasesBelow (r : RecordId) (primary : Option PrimaryBase) :
    (layVirtualBasesBelow f r primary st).unsugared =
      layVirtualBasesBelow f.unsugared r primary st := by
  apply f.tree.descend_related (R := fun (lay lay' : Option PrimaryBase → State → LayoutM State) =>
    ∀ primary st, (lay primary st).unsugared = lay' primary st)
  case bottom => exact fun _ _ => rfl
  intro below below' same r primary st
  simp [same]

@[simp] theorem unsugared_layVirtualBases :
    (layVirtualBases f st).unsugared = layVirtualBases f.unsugared st := by
  simp [layVirtualBases]

end Bases

section Fields

variable (index : Nat) (field : Field)

@[simp] theorem scalarFloor_unsugared (type : Ty) :
    fieldExtent.scalarFloor f.unsugared type.unsugared = fieldExtent.scalarFloor f type := by
  simp only [fieldExtent.scalarFloor, Ty.baseElement_unsugared]
  have plain := type.isSugar_baseElement
  cases found : type.baseElement with
  | typedef | elaborated => simp [found, Ty.isSugar] at plain
  | _ => rfl

@[simp] theorem unsugared_fieldExtent (type : Ty) :
    (fieldExtent f type).unsugared = fieldExtent f.unsugared type.unsugared := by
  simp only [fieldExtent, Ty.canonical_unsugared, scalarFloor_unsugared]
  cases found : type.canonical with
  | typedef => exact absurd type.isSugar_canonical (by simp [found, Ty.isSugar])
  | elaborated => exact absurd type.isSugar_canonical (by simp [found, Ty.isSugar])
  | _ => simp [Ty.unsugared]

@[simp] theorem adoptFieldOffset_unsugared (computed : Bits) :
    adoptFieldOffset f.unsugared st index computed = adoptFieldOffset f st index computed := rfl

@[simp] theorem unsugared_reportPlacement (p : FieldPlacement) :
    (reportPlacement f p).unsugared = reportPlacement f.unsugared p := by
  simp [reportPlacement]

@[simp] theorem State.unsugared_placeField? (type : Ty) (offset : Bytes) :
    (st.placeField? f type offset).unsugared = st.placeField? f.unsugared type.unsugared offset := by
  cases union : f.isUnion <;> cases mapped : st.emptyMap <;>
    simp [State.placeField?, union, mapped, Placement.unsugared]

@[simp] theorem unsugared_chooseFieldOffset (type : Ty) (alignment start : Bytes) :
    (chooseFieldOffset f st index type alignment start).unsugared =
      chooseFieldOffset f.unsugared st index type.unsugared alignment start := by
  cases supplied : f.supplied with
  | none => simp [chooseFieldOffset, supplied]
  | some layout =>
    simp only [chooseFieldOffset, supplied, Frame.supplied_unsugared, Option.isNone_some,
      Bool.false_eq_true, if_false, LayoutM.unsugared_bind, LayoutM.unsugared_lift,
      State.unsugared_placeField?, adoptFieldOffset_unsugared]
    congr! 4 with computed placed
    cases placed <;> rfl

@[simp] theorem unsugared_layField :
    (layField f index field st).unsugared = layField f.unsugared index field.unsugared st := by
  simp [layField]

@[simp] theorem bitAlignment_unsugared (isPacked ignoresType : Bool) (width typeAlignment : Bits) :
    bitAlignment f.unsugared field.unsugared isPacked ignoresType width typeAlignment =
      bitAlignment f field isPacked ignoresType width typeAlignment := rfl

@[simp] theorem avoidCrossing_unsugared (offset alignment width typeSize : Bits) :
    avoidCrossing f.unsugared offset alignment width typeSize =
      avoidCrossing f offset alignment width typeSize := rfl

@[simp] theorem State.occupyBits_unsugared (offset width typeSize : Bits) :
    st.occupyBits f.unsugared offset width typeSize = st.occupyBits f offset width typeSize := rfl

@[simp] theorem widestCoveredAlignment_unsugared (width : Bits) :
    widestCoveredAlignment f.unsugared width = widestCoveredAlignment f width := rfl

@[simp] theorem declaredAlignment_unsugared (width typeSize typeAlignment : Bits) :
    declaredAlignment f.unsugared st width typeSize typeAlignment =
      declaredAlignment f st width typeSize typeAlignment := rfl

@[simp] theorem isZeroLengthBoundary_unsugared (width : Bits) :
    isZeroLengthBoundary f.unsugared width = isZeroLengthBoundary f width := by
  simp [isZeroLengthBoundary]

@[simp] theorem unsugared_layWideBitField (width : Bits) (isPacked : Bool) :
    (layWideBitField f index field width isPacked st).unsugared =
      layWideBitField f.unsugared index field.unsugared width isPacked st := by
  simp [layWideBitField]

@[simp] theorem unsugared_layNarrowBitField (width typeSize typeAlignment : Bits) (isPacked : Bool)
    (unpaddedOffset : Bits) :
    (layNarrowBitField f index field width typeSize typeAlignment isPacked unpaddedOffset
        st).unsugared =
      layNarrowBitField f.unsugared index field.unsugared width typeSize typeAlignment isPacked
        unpaddedOffset st := by
  simp [layNarrowBitField]

@[simp] theorem unsugared_layBitField (width : Bits) :
    (layBitField f index field width st).unsugared =
      layBitField f.unsugared index field.unsugared width st := by
  simp [layBitField]

end Fields

section Whole

@[simp] theorem unsugared_layAnyField (entry : Field × Nat) : (layAnyField f st entry).unsugared =
    layAnyField f.unsugared st (entry.map Field.unsugared id) := by
  simp only [layAnyField, Prod.map_fst, Prod.map_snd, Field.bitWidth_unsugared, id]
  cases entry.1.bitWidth <;> simp

@[simp] theorem unsugared_layFields : (layFields f st).unsugared = layFields f.unsugared st := by
  simp [layFields, List.zipIdx_map, List.foldlM_map]

@[simp] theorem State.initial_unsugared (map : Option EmptyMap) :
    State.initial f.unsugared map = State.initial f map := by
  simp [State.initial]

@[simp] theorem State.avoidSizeZero_unsugared : st.avoidSizeZero f.unsugared = st.avoidSizeZero f := by
  simp [State.avoidSizeZero]

@[simp] theorem unsugared_reportSize (unpaddedSize unpackedSize : Bits) :
    (reportSize f st unpaddedSize unpackedSize).unsugared =
      reportSize f.unsugared st unpaddedSize unpackedSize := by
  simp [reportSize]

@[simp] theorem unsugared_finish : (finish f st).unsugared = finish f.unsugared st := by
  cases supplied : f.supplied <;> simp [finish, supplied]

@[simp] theorem unsugared_layPlain : (layPlain f).unsugared = layPlain f.unsugared := by
  simp [layPlain]

@[simp] theorem keepsTailPadding_unsugared : keepsTailPadding f.unsugared = keepsTailPadding f := by
  simp [keepsTailPadding]

@[simp] theorem unsugared_layClass (tracking : Tracking) :
    (layClass f tracking).unsugared = layClass f.unsugared tracking := by
  simp [layClass]

/-- The Itanium rules ask of declarations without sugar what they ask of the declarations as written,
but for the sugar. -/
theorem unsugared_layout (s : Setting) (r : RecordId) (supplied : Option SuppliedLayout) :
    (layout s r supplied).unsugared = layout s.unsugared r supplied := by
  simp [layout, layoutTracking]

end Whole

end ObjectLayout.Itanium
