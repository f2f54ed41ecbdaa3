import ObjectLayout.Itanium.Fields

/-! The Itanium rules for bit-fields. A bit-field starts at the first free bit unless it would
cross a boundary of its declared type; one of width zero only aligns what follows. Under `ms_struct`
bit-fields share whole units of their type, and a bit-field wider than its type is stored in the
widest integer type that it covers, the rest of it being padding. -/
namespace ObjectLayout.Itanium

open LayoutM (typeLayoutOf)

variable (f : Frame)

/-- A bit-field of another type size starts a unit of its own. -/
def State.leaveUnit (st : State) (typeSize : Bits) : State :=
  if st.storageUnit = typeSize then st else { st with unfilledBits := 0, storageUnit := 0 }

/-- Whether a bit-field at an offset would reach past the unit of its type that it starts in. No
unit counts where the alignment of fields has a maximum. -/
def crossesUnit (offset alignment width typeSize : Bits) : Checked Bool := do
  if f.maxFieldAlignment ≠ 0 then return false
  let mask ← Quantity.sub alignment 1
  return decide ((← Quantity.add (offset &&& mask) width) > typeSize)

/-- Moves a bit-field on to a multiple of its alignment if it has width zero or would cross. -/
def avoidCrossing (offset alignment width typeSize : Bits) : Checked Bits := do
  if width == 0 then Quantity.alignTo offset alignment
  else if ← crossesUnit f offset alignment width typeSize then Quantity.alignTo offset alignment
  else return offset

/-- The alignments, in bits, that a bit-field has as it is and would have unpacked. -/
structure BitAlignment where
  actual : Bits
  unpacked : Bits

/-- Where the declared type does not count towards alignment, only an attribute of the field does;
the maximum for fields does not hold for zero-width bit-fields. -/
def bitAlignment (field : Field) (isPacked ignoresType : Bool) (width typeAlignment : Bits) :
    Checked BitAlignment := do
  let unpacked := if ignoresType then 1 else typeAlignment
  let actual := if isPacked || ignoresType then 1 else typeAlignment
  let asked ← Bytes.toBits (field.alignment.getD 0)
  let actual := max actual asked
  let unpacked := max unpacked asked
  if f.maxFieldAlignment = 0 || width == 0 then return ⟨actual, unpacked⟩
  let most ← Bytes.toBits f.maxFieldAlignment
  return ⟨min actual most, min unpacked most⟩

/-- The data up to the end of a bit-field, with what is left of its last byte. -/
def State.endAt (st : State) (stop : Bits) : Checked State := do
  let dataSize ← Bytes.toBits (Bits.toBytesCeil stop)
  return { st with dataSize, unfilledBits := ← Quantity.sub dataSize stop }

/-- Takes the bits of a bit-field from the current unit, or opens another one. -/
def State.takeFromUnit (st : State) (offset width typeSize : Bits) : Checked State := do
  let st ←
    if st.unfilledBits == 0 then
      pure { st with
        dataSize := ← Quantity.add offset typeSize
        unfilledBits := ← Quantity.sub typeSize width }
    else if st.unfilledBits < width then
      pure { st with
        dataSize := ← Quantity.add st.dataSize typeSize
        unfilledBits := ← Quantity.sub typeSize width }
    else pure { st with unfilledBits := st.unfilledBits - width }
  return { st with storageUnit := typeSize }

def State.occupyBits (st : State) (offset width typeSize : Bits) : Checked State :=
  if f.isUnion then .ok { st with dataSize := max st.dataSize width }
  else if f.isMsStruct && width != 0 then st.takeFromUnit offset width typeSize
  else do
    let st ← st.endAt (← Quantity.add offset width)
    return { st with storageUnit := 0 }

/-- The alignment, in bits, of the widest integer type that is no wider than a bit-field. -/
def widestCoveredAlignment (width : Bits) : Checked Bits :=
  let layouts := IntegerRank.all.map f.target.integerLayout
  let covered := layouts.takeWhile fun layout => layout.width * Quantity.bitsPerByte ≤ width
  Bytes.toBits (covered.getLast?.getD f.target.charLayout).alignment

def layWideBitField (index : Nat) (field : Field) (width : Bits) (isPacked : Bool) (st : State) :
    LayoutM State := do
  let alignment ← widestCoveredAlignment f width
  let st := { st with unfilledBits := 0, storageUnit := 0 }
  let unpaddedOffset := st.dataSize
  let (st, offset) ←
    if f.isUnion then pure ({ st with dataSize := max st.dataSize width }, 0)
    else do
      let offset ← Quantity.alignTo st.dataSize alignment
      pure (← st.endAt (← Quantity.add offset width), offset)
  let st := st.placeFieldAt offset
  reportPlacement f {
    index, name := field.name, isPacked, offset, unpaddedOffset
    unpackedOffset := offset
    unpackedAlignment := alignment }
  let alignment := Bits.toBytesFloor alignment
  (st.setDataSize st.dataSize).raiseAlignment f alignment alignment

/-- The alignment of the declared type as the rules see it. -/
def declaredAlignment (st : State) (width typeSize typeAlignment : Bits) : Bits :=
  if !f.isMsStruct then typeAlignment
  else if width == 0 && st.storageUnit == 0 then 1
  else typeSize

/-- Whether a zero-width bit-field aligns what follows although declared types do not count. -/
def isZeroLengthBoundary (width : Bits) : Bool :=
  let rules := f.target.bitFieldRules
  !rules.typeAlignment && rules.zeroLengthAlignment && width == 0

def layNarrowBitField (index : Nat) (field : Field) (width typeSize typeAlignment : Bits)
    (isPacked : Bool) (unpaddedOffset : Bits) (st : State) : LayoutM State := do
  let rules := f.target.bitFieldRules
  let ignoresType := !rules.typeAlignment && !isZeroLengthBoundary f width
  let alignment ← bitAlignment f field isPacked ignoresType width typeAlignment
  let start := if f.isUnion then 0 else unpaddedOffset
  let opensUnit := f.isMsStruct && st.storageUnit == 0
  let offset ← if opensUnit then Quantity.alignTo start alignment.actual else pure start
  let unpackedOffset ← if opensUnit then Quantity.alignTo start alignment.unpacked else pure start
  let offset ← avoidCrossing f offset alignment.actual width typeSize
  let unpackedOffset ← avoidCrossing f unpackedOffset alignment.unpacked width typeSize
  let isSilent := field.isUnnamed && !rules.zeroLengthAlignment && !f.isMsStruct
  let alignment := if isSilent then ⟨1, 1⟩ else alignment
  let (st, offset) := adoptFieldOffset f st index offset
  let st := st.placeFieldAt offset
  if f.supplied.isNone then
    reportPlacement f {
      index, name := field.name, isPacked, offset, unpaddedOffset, unpackedOffset
      unpackedAlignment := alignment.unpacked }
  let st ← st.occupyBits f offset width typeSize
  (st.setDataSize st.dataSize).raiseAlignment f (max (Bits.toBytesFloor alignment.actual) 1)
    (max (Bits.toBytesFloor alignment.unpacked) 1)

def layBitField (index : Nat) (field : Field) (width : Bits) (st : State) : LayoutM State := do
  let isPacked := f.isPacked || field.isPacked
  let layout ← typeLayoutOf field.type
  let typeSize ← Bytes.toBits layout.width
  let naturalAlignment ← Bytes.toBits layout.alignment
  let typeAlignment := declaredAlignment f st width typeSize naturalAlignment
  let st := if f.isMsStruct then st.leaveUnit typeSize else st
  let unpaddedOffset ← Quantity.sub st.dataSize st.unfilledBits
  let typeAlignment :=
    if isZeroLengthBoundary f width then
      max typeAlignment f.target.bitFieldRules.zeroLengthBoundary
    else typeAlignment
  if width > typeSize then layWideBitField f index field width isPacked st
  else layNarrowBitField f index field width typeSize typeAlignment isPacked unpaddedOffset st

end ObjectLayout.Itanium
