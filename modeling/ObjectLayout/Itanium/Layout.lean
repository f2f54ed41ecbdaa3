import ObjectLayout.Decl.Pod
import ObjectLayout.Itanium.Bases
import ObjectLayout.Itanium.BitFields

/-! The Itanium layout of a whole record, plain or class. A supplied layout fixes what it names, and
in the end the size; everything else is computed around it. -/
namespace ObjectLayout.Itanium

variable (f : Frame)

def layAnyField (st : State) (entry : Field × Nat) : LayoutM State :=
  match entry.1.bitWidth with
  | some width => layBitField f entry.2 entry.1 width st
  | none => layField f entry.2 entry.1 st

def layFields (st : State) : LayoutM State :=
  f.declaration.fields.zipIdx.foldlM (layAnyField f) st

/-- In C++ no record is of size zero, except a class whose members are all of size zero. -/
def State.avoidSizeZero (st : State) : Checked State :=
  if f.setting.options.cplusplus && st.size == 0
      && (!f.declaration.isClass || f.tree.isEmptyClass f.record) then st.setSize 1
  else .ok st

def reportSize (st : State) (unpaddedSize unpackedSize : Bits) : LayoutM Unit := do
  if st.size > unpaddedSize then
    f.warn (.paddedSize (.ofBits (st.size - unpaddedSize)))
  if f.isPacked && decide (st.unpackedAlignment > 1) && st.size == unpackedSize then
    f.warn .unnecessaryPackedRecord

/-- Rounds the size up to the alignment, or adopts the supplied size. -/
def finish (st : State) : LayoutM State := do
  let st ← st.avoidSizeZero f
  let unpaddedSize ← Quantity.sub st.size st.unfilledBits
  let unpackedSize ← Quantity.alignTo st.size (← Bytes.toBits st.unpackedAlignment)
  let roundedSize ← Quantity.alignTo st.size (← Bytes.toBits st.alignment)
  match f.supplied with
  | some supplied =>
    let isSmaller ←
      if st.infersAlignment then pure (decide ((← Bytes.toBits supplied.size) < roundedSize))
      else pure false
    (st.settlePackedIf isSmaller).setSize supplied.size
  | none =>
    let st := { st with size := roundedSize }
    reportSize f st unpaddedSize unpackedSize
    return st

def layPlain : LayoutM RecordLayout := do
  let st ← finish f (← layFields f (← State.initial f none))
  return {
    size := st.sizeInBytes
    dataSize := st.sizeInBytes
    alignment := st.alignment
    requiredAlignment := st.alignment
    fieldOffsets := st.fieldOffsets }

/-- Whether derived classes have to leave the tail padding of this one alone. -/
def keepsTailPadding : Bool :=
  match f.target.tailPadding with
  | .always => false
  | .unlessPod03 => f.tree.isPod f.record
  | .unlessPod11 => f.tree.isTrivialStandardLayout f.record

def layClass (tracking : Tracking) : LayoutM RecordLayout := do
  let map ← EmptyMap.ofClass f.setting tracking f.record
  let fixed ← layFields f (← layNonVirtualBases f (← State.initial f (some map)))
  let st ← finish f (← layVirtualBases f fixed)
  let size := st.sizeInBytes
  let keeps := keepsTailPadding f
  return {
    size
    dataSize := if keeps then size else st.dataSizeInBytes
    alignment := st.alignment
    requiredAlignment := st.alignment
    fieldOffsets := st.fieldOffsets
    asClass := some {
      nonVirtualSize := if keeps then size else fixed.sizeInBytes
      nonVirtualAlignment := fixed.alignment
      largestEmptySubobject := map.largest
      primaryBase := st.primaryBase
      hasOwnVfptr := st.hasOwnVfptr
      hasExtendableVfptr := f.tree.isDynamic f.record
      baseOffsets := st.baseOffsets
      virtualBaseSlots := st.virtualBaseSlots } }

/-- The layout of a record, with the map of empty subobjects that `tracking` asks for. -/
def layoutTracking (tracking : Tracking) (s : Setting) (r : RecordId)
    (supplied : Option SuppliedLayout) : LayoutM RecordLayout :=
  let f := Frame.ofRecord s r supplied
  if f.declaration.isClass then layClass f tracking else layPlain f

def layout (s : Setting) (r : RecordId) (supplied : Option SuppliedLayout) : LayoutM RecordLayout :=
  layoutTracking .pruned s r supplied

end ObjectLayout.Itanium
