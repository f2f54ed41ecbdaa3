import ObjectLayout.Microsoft.Pointers
import ObjectLayout.Microsoft.Vtordisp

/-! The Microsoft layout of a whole record, plain or class. Virtual bases follow at the end, each
with four bytes before it where it has a vtordisp or might share an address with its neighbour. -/
namespace ObjectLayout.Microsoft

open LayoutM (layoutOf)

variable (f : Frame)

/-- A vtordisp takes four bytes on every target. -/
def vtordispSize : Bytes := 4

def State.addVtordispGap (st : State) : Checked State := do
  let alignment := max (f.clamp vtordispSize) st.requiredAlignment
  return { st with size := ← Quantity.add (← Quantity.alignTo st.size alignment) vtordispSize }

def layVirtualBase (vtordisps : List RecordId) (walk : BaseWalk) (r : RecordId) :
    LayoutM BaseWalk := do
  let layout ← layoutOf r
  let hasVtordisp := vtordisps.contains r
  let st := walk.state
  let st ← if st.afterBitField then
      pure { st with size := ← Quantity.add st.size st.bitUnit }
    else pure st
  let st ← if walk.endsWithZeroSized && layout.leadsWithZeroSizedBase then
      st.addVtordispGap f
    else pure st
  let st ← if hasVtordisp then st.addVtordispGap f else pure st
  let (st, extent) := baseExtent f layout st
  let offset ← Quantity.alignTo st.size extent.alignment
  return {
    state := { st with
      virtualBaseSlots := st.virtualBaseSlots.insert r { offset, hasVtordisp }
      size := ← Quantity.add offset layout.dataSize }
    endsWithZeroSized := layout.hasZeroSizedSubobject }

def layVirtualBases (st : State) : LayoutM State := do
  if !st.hasVbptr then return st
  let found ← vtordisps f.tree f.record
  let walk ← (f.tree.virtualBases f.record).foldlM (layVirtualBase f found) { state := st }
  return walk.state

/-- Rounds the size up to the alignment; what follows is not part of the non-virtual data. -/
def closeData (st : State) : Checked State := do
  let size ← Quantity.alignTo st.size st.alignment
  return { st with size, dataSize := size }

/-- Brings in required alignments; a record of size zero is as large as its alignment. -/
def finish (st : State) : Checked State := do
  let st ←
    if st.requiredAlignment = 0 then pure st
    else
      let alignment := max st.alignment st.requiredAlignment
      pure { st with alignment, size := ← Quantity.alignTo st.size alignment }
  if st.size = 0 then
    return { st with
      hasZeroSizedSubobject := true
      leadsWithZeroSizedBase := true
      size := st.alignment }
  return st

def layPlain : LayoutM RecordLayout := do
  let st ← finish (← closeData (← layFields f (State.initial f)))
  return {
    size := st.size
    dataSize := st.size
    alignment := st.alignment
    requiredAlignment := st.requiredAlignment
    fieldOffsets := st.fieldOffsets }

def layClass : LayoutM RecordLayout := do
  let st ← layFields f (← layNonVirtualBases f (State.initial f))
  let st ← layVirtualBases f (← closeData (← layPointers f st))
  let st ← finish st
  return {
    size := st.size
    dataSize := st.dataSize
    alignment := st.alignment
    requiredAlignment := st.requiredAlignment
    fieldOffsets := st.fieldOffsets
    asClass := some {
      nonVirtualSize := st.dataSize
      nonVirtualAlignment := st.alignment
      primaryBase := st.primaryBase.map (⟨·, false⟩)
      hasOwnVfptr := st.hasOwnVfptr
      hasExtendableVfptr := st.hasOwnVfptr || st.primaryBase.isSome
      vbptr := if st.hasVbptr then some ⟨st.vbptrOffset, st.vbptrBase⟩ else none
      hasZeroSizedSubobject := st.hasZeroSizedSubobject
      leadsWithZeroSizedBase := st.leadsWithZeroSizedBase
      baseOffsets := st.baseOffsets
      virtualBaseSlots := st.virtualBaseSlots } }

def layout (s : Setting) (r : RecordId) : LayoutM RecordLayout :=
  let f := Frame.ofRecord s r
  if f.declaration.isClass then layClass f else layPlain f

end ObjectLayout.Microsoft
