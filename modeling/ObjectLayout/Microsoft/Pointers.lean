import ObjectLayout.Microsoft.Bases
import ObjectLayout.Microsoft.Fields

/-! Where a class keeps the pointers to its own tables. As a rule everything is laid out without
them, and they are then pushed in: the vbptr after the non-virtual bases, the vfptr at the start.
Where more than eight bytes of alignment are required on a 64-bit target, the class is laid out
again instead, with the vfptr first and the vbptr in the manner of a base. -/
namespace ObjectLayout.Microsoft

open LayoutM (layoutOf)

variable (f : Frame)

/-- Moves all fields, and the bases that `moves` selects by their offset, further back. -/
def State.shift (st : State) (distance : Bytes) (moves : Bytes → Bool) : Checked State := do
  let size ← Quantity.add st.size distance
  let fieldOffsets ← st.fieldOffsets.mapM fun offset => do
    Quantity.add offset (← Bytes.toBits distance)
  let baseOffsets ← st.baseOffsets.mapValuesM fun offset =>
    if moves offset then Quantity.add offset distance else .ok offset
  return { st with size, fieldOffsets, baseOffsets }

/-- Makes room for a vbptr after the bases. Having one keeps objects of size zero apart. -/
def injectVbptr (st : State) : Checked State := do
  if !st.needsOwnVbptr then return st
  let site := st.vbptrOffset
  let vbptrOffset ← Quantity.alignTo site f.pointerAlignment
  let fieldStart ← Quantity.add vbptrOffset f.pointerSize
  let distance ← Quantity.alignTo (← Quantity.sub fieldStart site) st.alignment
  let st ← st.shift distance fun offset => decide (site ≤ offset)
  return { st with vbptrOffset, hasZeroSizedSubobject := false }

def injectVfptr (st : State) : Checked State := do
  if !st.hasOwnVfptr then return st
  let distance ← Quantity.alignTo f.pointerSize st.alignment
  let vbptrOffset ←
    if st.hasVbptr then Quantity.add st.vbptrOffset distance else .ok st.vbptrOffset
  return { ← st.shift distance fun _ => true with vbptrOffset }

/-- The non-virtual bases that lie last and last but one, as far as each lies past all those
declared before it. -/
structure LastBases where
  last : Option RecordId := none
  penultimate : Option RecordId := none

def lastBases (st : State) : Checked LastBases :=
  f.declaration.nonVirtualBases.foldlM (fun found base => do
    let isPast ← match found.last with
      | none => pure true
      | some last => pure (decide ((← st.baseOffset last) < (← st.baseOffset base.record)))
    return if isPast then { last := some base.record, penultimate := found.last } else found) {}

/-- The record and its layout, if its data take no space. -/
def zeroSized? (r : Option RecordId) : LayoutM (Option (RecordId × RecordLayout)) := do
  match r with
  | none => return none
  | some r =>
    let layout ← layoutOf r
    return if layout.dataSize = 0 then some (r, layout) else none

/-- Where the vbptr starts: at the end of the bases, or before those of size zero that lie last. -/
def vbptrStart (st : State) (last penultimate : Option (RecordId × RecordLayout)) :
    Checked Bytes :=
  match last, penultimate with
  | none, _ => .ok st.size
  | some (last, _), none => st.baseOffset last
  | some _, some (penultimate, _) => st.baseOffset penultimate

/-- Moves a last base of size zero behind the vbptr. -/
def moveBehindVbptr (st : State) (last : RecordId) (layout : RecordLayout) (isSecond : Bool) :
    Checked State := do
  let size ← if isSecond then Quantity.add st.size 1 else .ok st.size
  let size ←
    if layout.requiredAlignment = 0 then .ok size
    else Quantity.alignTo size layout.requiredAlignment
  return { st with size, baseOffsets := st.baseOffsets.insert last size }

def layVbptrAsBase (st : State) : LayoutM State := do
  if !st.needsOwnVbptr then return st
  let found ← lastBases f st
  let last ← zeroSized? found.last
  let penultimate ← zeroSized? found.penultimate
  let vbptrOffset ← Quantity.alignTo (← vbptrStart st last penultimate) f.pointerAlignment
  let st := { st with vbptrOffset, size := ← Quantity.add vbptrOffset f.pointerSize }
  match last with
  | none => return st
  | some (last, layout) => moveBehindVbptr st last layout penultimate.isSome

/-- Lays the class out from scratch with its pointers leading. -/
def layWithLeadingPointers (before : State) : LayoutM State := do
  let start : State :=
    { State.initial f with
      alignment := max before.alignment f.pointerAlignment
      size := if before.hasOwnVfptr then f.pointerSize else 0 }
  let st ← layVbptrAsBase f (← layNonVirtualBases f start)
  return { ← layFields f st with hasZeroSizedSubobject := false }

def layPointers (st : State) : LayoutM State := do
  if !(st.hasOwnVfptr || st.needsOwnVbptr) then return st
  if f.is64Bit && decide (st.requiredAlignment > 8) then return ← layWithLeadingPointers f st
  let st ← injectVfptr f (← injectVbptr f st)
  return { st with alignment := max st.alignment f.pointerAlignment }

end ObjectLayout.Microsoft
