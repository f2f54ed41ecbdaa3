import ObjectLayout.Microsoft.State

/-! The Microsoft rules for fields. Bit-fields share a unit of their type with the bit-field before
them if the types are of one size and the bits left suffice; a zero-width bit-field ends a unit and
means nothing elsewhere. -/
namespace ObjectLayout.Microsoft

open LayoutM (layoutOf typeLayoutOf)

variable (f : Frame)

/-- What the type of a field takes. Records bring their required alignment with them. -/
def fieldTypeExtent (field : Field) (asked : Bytes) (st : State) : LayoutM (State × Extent) := do
  match field.type.baseElement.asRecord? with
  | some r =>
    let layout ← layoutOf r
    let (st, extent) := baseExtent f layout st
    let size := (← typeLayoutOf field.type).width
    return ({ st with requiredAlignment := max st.requiredAlignment layout.requiredAlignment },
      { extent with size })
  | none =>
    let layout ← typeLayoutOf field.type
    let alignment := if field.isBitField then max layout.alignment asked else layout.alignment
    return (st, ⟨layout.width, f.clamp alignment⟩)

/-- What a field takes. An attribute's alignment is required of an ordinary field and survives
packing; bit-fields of a union do not align it. -/
def fieldExtent (field : Field) (st : State) : LayoutM (State × Extent) := do
  let asked := field.alignment.getD 0
  let (st, extent) ← fieldTypeExtent f field asked st
  let extent := if field.isPacked then { extent with alignment := 1 } else extent
  let (st, extent) :=
    if field.isBitField then (st, extent)
    else ({ st with requiredAlignment := max st.requiredAlignment asked },
      { extent with alignment := max extent.alignment asked })
  let st :=
    if field.isBitField && f.isUnion then st
    else { st with alignment := f.clamp (max st.alignment extent.alignment) }
  return (st, extent)

/-- Puts something of an extent at the start of a union, or at the end of anything else. -/
def State.placeExtent (st : State) (extent : Extent) : Checked State := do
  if f.isUnion then
    return { ← st.placeFieldAt 0 with size := max st.size extent.size }
  let offset ← Quantity.alignTo st.size extent.alignment
  return { ← st.placeFieldAt offset with size := ← Quantity.add offset extent.size }

def layField (field : Field) (st : State) : LayoutM State := do
  let (st, extent) ← fieldExtent f field { st with afterBitField := false }
  st.placeExtent f extent

def layZeroWidthBitField (field : Field) (st : State) : LayoutM State := do
  if !st.afterBitField then return ← st.placeFieldAt (if f.isUnion then 0 else st.size)
  let (st, extent) ← fieldExtent f field { st with afterBitField := false }
  st.placeExtent f (if f.isUnion then extent else { extent with size := 0 })

/-- Whether a bit-field fits in what is left of the unit of the bit-field before it. -/
def State.hasRoomFor (st : State) (unit : Bytes) (width : Bits) : Bool :=
  !f.isUnion && st.afterBitField && st.bitUnit == unit && decide (width ≤ st.freeBits)

/-- A bit-field of positive width fills up the unit before it, or opens one of its own. -/
def layBitField (field : Field) (declaredWidth : Bits) (st : State) : LayoutM State := do
  let (st, extent) ← fieldExtent f field st
  let unitBits ← Bytes.toBits extent.size
  let width := min declaredWidth unitBits
  if st.hasRoomFor f extent.size width then
    let offset ← Quantity.sub (← Bytes.toBits st.size) st.freeBits
    return { st with
      fieldOffsets := st.fieldOffsets ++ [offset]
      freeBits := st.freeBits - width }
  let st ← { st with afterBitField := true, bitUnit := extent.size }.placeExtent f extent
  if f.isUnion then return st
  return { st with freeBits := ← Quantity.sub unitBits width }

def layAnyField (st : State) (field : Field) : LayoutM State :=
  match field.bitWidth with
  | none => layField f field st
  | some width =>
    if width == 0 then layZeroWidthBitField f field st else layBitField f field width st

def layFields (st : State) : LayoutM State :=
  f.declaration.fields.foldlM (layAnyField f) { st with afterBitField := false }

end ObjectLayout.Microsoft
