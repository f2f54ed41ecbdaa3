import Mathlib.Tactic.CongrExclamation
import ObjectLayout.Proofs.Sugar.Asking
import ObjectLayout.Microsoft.Layout

/-! The Microsoft rules without sugar. Every computation of these rules does the same for declarations
with and without sugar, and asks for the same types, but for their sugar. -/
namespace ObjectLayout.Microsoft

/-- The frame of the same record without sugar. -/
def Frame.unsugared (f : Frame) : Frame := { f with setting := f.setting.unsugared }

namespace Frame

variable (f : Frame)

@[simp] theorem ofRecord_unsugared (s : Setting) (r : RecordId) :
    ofRecord s.unsugared r = (ofRecord s r).unsugared := by
  simp [ofRecord, unsugared]

@[simp] theorem record_unsugared : f.unsugared.record = f.record := rfl

@[simp] theorem isUnion_unsugared : f.unsugared.isUnion = f.isUnion := by
  cases f; rfl

@[simp] theorem is64Bit_unsugared : f.unsugared.is64Bit = f.is64Bit := by
  cases f; rfl

@[simp] theorem tree_unsugared : f.unsugared.tree = f.tree.unsugared := rfl

@[simp] theorem clamp_unsugared : f.unsugared.clamp = f.clamp := rfl

@[simp] theorem pointerSize_unsugared : f.unsugared.pointerSize = f.pointerSize := rfl

@[simp] theorem pointerAlignment_unsugared : f.unsugared.pointerAlignment = f.pointerAlignment := rfl

@[simp] theorem declaration_unsugared : f.unsugared.declaration = f.declaration.unsugared := by
  simp [declaration]

end Frame

variable (f : Frame) (st : State)

@[simp] theorem State.initial_unsugared : State.initial f.unsugared = State.initial f := by
  simp [State.initial]

@[simp] theorem baseExtent_unsugared (layout : RecordLayout) :
    baseExtent f.unsugared layout st = baseExtent f layout st := rfl

section Bases

variable (walk : BaseWalk)

@[simp] theorem layNonVirtualBase_unsugared (r : RecordId) (layout : RecordLayout) :
    layNonVirtualBase f.unsugared r layout walk = layNonVirtualBase f r layout walk := rfl

@[simp] theorem unsugared_layLeadingBase (base : Base) :
    (layLeadingBase f walk base).unsugared = layLeadingBase f.unsugared walk base := by
  simp [layLeadingBase]

@[simp] theorem unsugared_layFollowingBase (acc : BaseWalk × Bool) (base : Base) :
    (layFollowingBase f acc base).unsugared = layFollowingBase f.unsugared acc base := by
  simp [layFollowingBase]

@[simp] theorem declaresNewVirtual_unsugared :
    declaresNewVirtual f.unsugared = declaresNewVirtual f := by
  simp [declaresNewVirtual]

@[simp] theorem unsugared_locateSharedVbptr :
    (locateSharedVbptr st).unsugared = locateSharedVbptr st := by
  simp only [locateSharedVbptr]
  split <;> simp

@[simp] theorem unsugared_layNonVirtualBases :
    (layNonVirtualBases f st).unsugared = layNonVirtualBases f.unsugared st := by
  simp [layNonVirtualBases]

end Bases

section Fields

variable (field : Field)

@[simp] theorem unsugared_fieldTypeExtent (asked : Bytes) :
    (fieldTypeExtent f field asked st).unsugared =
      fieldTypeExtent f.unsugared field.unsugared asked st := by
  simp only [fieldTypeExtent, Field.type_unsugared, Ty.baseElement_unsugared, Ty.asRecord?_unsugared]
  cases field.type.baseElement.asRecord? <;> simp

@[simp] theorem unsugared_fieldExtent :
    (fieldExtent f field st).unsugared = fieldExtent f.unsugared field.unsugared st := by
  simp [fieldExtent]

@[simp] theorem State.placeExtent_unsugared (extent : Extent) :
    st.placeExtent f.unsugared extent = st.placeExtent f extent := rfl

@[simp] theorem unsugared_layField :
    (layField f field st).unsugared = layField f.unsugared field.unsugared st := by
  simp [layField]

@[simp] theorem unsugared_layZeroWidthBitField : (layZeroWidthBitField f field st).unsugared =
    layZeroWidthBitField f.unsugared field.unsugared st := by
  simp [layZeroWidthBitField]

@[simp] theorem State.hasRoomFor_unsugared (unit : Bytes) (width : Bits) :
    st.hasRoomFor f.unsugared unit width = st.hasRoomFor f unit width := by
  simp [State.hasRoomFor]

@[simp] theorem unsugared_layBitField (declaredWidth : Bits) :
    (layBitField f field declaredWidth st).unsugared =
      layBitField f.unsugared field.unsugared declaredWidth st := by
  simp [layBitField]

@[simp] theorem unsugared_layAnyField :
    (layAnyField f st field).unsugared = layAnyField f.unsugared st field.unsugared := by
  simp only [layAnyField, Field.bitWidth_unsugared]
  cases field.bitWidth <;> simp

@[simp] theorem unsugared_layFields : (layFields f st).unsugared = layFields f.unsugared st := by
  simp [layFields, List.foldlM_map]

end Fields

section Pointers

@[simp] theorem injectVbptr_unsugared : injectVbptr f.unsugared st = injectVbptr f st := rfl

@[simp] theorem injectVfptr_unsugared : injectVfptr f.unsugared st = injectVfptr f st := rfl

@[simp] theorem lastBases_unsugared : lastBases f.unsugared st = lastBases f st := by
  simp [lastBases]

@[simp] theorem unsugared_zeroSized? (r : Option RecordId) :
    (zeroSized? r).unsugared = zeroSized? r := by
  cases r <;> simp [zeroSized?]

@[simp] theorem unsugared_layVbptrAsBase :
    (layVbptrAsBase f st).unsugared = layVbptrAsBase f.unsugared st := by
  simp only [layVbptrAsBase, lastBases_unsugared, Frame.pointerAlignment_unsugared,
    Frame.pointerSize_unsugared, LayoutM.unsugared_ite, LayoutM.unsugared_pure, LayoutM.unsugared_bind,
    LayoutM.unsugared_lift, unsugared_zeroSized?]
  congr! 3 with found
  congr! 2 with last
  cases last <;> simp

@[simp] theorem unsugared_layWithLeadingPointers :
    (layWithLeadingPointers f st).unsugared = layWithLeadingPointers f.unsugared st := by
  simp [layWithLeadingPointers]

@[simp] theorem unsugared_layPointers : (layPointers f st).unsugared = layPointers f.unsugared st := by
  simp [layPointers]

end Pointers

section Vtordisps

variable (tree : Tree) (r : RecordId)

@[simp] theorem searchOverrides_unsugared (looks : Nat) (search : OverrideSearch) :
    searchOverrides tree.unsugared looks search = searchOverrides tree looks search := by
  induction looks generalizing search with
  | zero => rfl
  | succ looks ih =>
    unfold searchOverrides
    split
    · rfl
    · exact ih _

@[simp] theorem introducingClasses_unsugared :
    introducingClasses tree.unsugared r = introducingClasses tree r := by
  have methods : tree.unsugared.methods = tree.methods := rfl
  simp [introducingClasses, looksFrom, methods]

@[simp] theorem holdsOneOf_unsugared (classes : List RecordId) :
    holdsOneOf tree.unsugared classes = holdsOneOf tree classes :=
  tree.descend_unsugared fun _ _ => by simp

@[simp] theorem unsugared_inheritedVtordisps :
    (inheritedVtordisps tree r).unsugared = inheritedVtordisps tree.unsugared r := by
  simp [inheritedVtordisps]

@[simp] theorem unsugared_vtordisps : (vtordisps tree r).unsugared = vtordisps tree.unsugared r := by
  simp [vtordisps]

end Vtordisps

section Whole

@[simp] theorem State.addVtordispGap_unsugared :
    st.addVtordispGap f.unsugared = st.addVtordispGap f := rfl

@[simp] theorem unsugared_layVirtualBase (vtordisps : List RecordId) (walk : BaseWalk) (r : RecordId) :
    (layVirtualBase f vtordisps walk r).unsugared = layVirtualBase f.unsugared vtordisps walk r := by
  simp [layVirtualBase]

@[simp] theorem unsugared_layVirtualBases :
    (layVirtualBases f st).unsugared = layVirtualBases f.unsugared st := by
  simp [layVirtualBases]

@[simp] theorem unsugared_layPlain : (layPlain f).unsugared = layPlain f.unsugared := by
  simp [layPlain]

@[simp] theorem unsugared_layClass : (layClass f).unsugared = layClass f.unsugared := by
  simp [layClass]

/-- The Microsoft rules ask of declarations without sugar what they ask of the declarations as written,
but for the sugar. -/
theorem unsugared_layout (s : Setting) (r : RecordId) :
    (layout s r).unsugared = layout s.unsugared r := by
  simp [layout]

end Whole

end ObjectLayout.Microsoft
