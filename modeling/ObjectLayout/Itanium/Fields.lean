import ObjectLayout.Itanium.State

/-! The Itanium rules for ordinary fields. A field goes to the first multiple of its alignment at or
past the end of the data where it meets no empty subobject; in a union it goes to the start. -/
namespace ObjectLayout.Itanium

open LayoutM (typeLayoutOf)

variable (f : Frame)

/-- What a field that is no bit-field takes: its size, and the alignment its type asks for. -/
def fieldExtent (type : Ty) : LayoutM (Bytes × Bytes) :=
  match type.canonical with
  | .incompleteArray _ element => do return (0, (← typeLayoutOf element).alignment)
  | .lvalueReference .. | .rvalueReference .. => do
    let pointer := f.target.pointerLayout
    return (pointer.width, pointer.alignment)
  | _ => do
    let layout ← typeLayoutOf type
    return (layout.width, max layout.alignment scalarFloor)
where
  /-- Under `ms_struct` a scalar is aligned at least to its own size. -/
  scalarFloor : Bytes :=
    if !f.isMsStruct then 0 else
    match type.baseElement with
    | .scalar _ s => (f.target.scalarLayout s).width
    | _ => 0

/-- A supplied offset of a field takes the place of the computed one. -/
def adoptFieldOffset (st : State) (index : Nat) (computed : Bits) : State × Bits :=
  match f.supplied.bind (·.fieldOffsets.find? index) with
  | none => (st, computed)
  | some offset => (st.settlePackedIf (offset < computed), offset)

/-- How a field came to lie where it does, as far as the warnings are concerned. -/
structure FieldPlacement where
  index : Nat
  name : Option String
  isPacked : Bool
  offset : Bits
  /-- Where the field would lie if nothing had to be aligned. -/
  unpaddedOffset : Bits
  /-- Where the field would lie if nothing were packed. -/
  unpackedOffset : Bits
  unpackedAlignment : Bits

def reportPlacement (p : FieldPlacement) : LayoutM Unit := do
  if !f.isUnion && decide (p.unpaddedOffset < p.offset) then
    f.warn (.paddedField p.name p.index (.ofBits (p.offset - p.unpaddedOffset)))
  if p.isPacked && decide (Quantity.bitsPerByte < p.unpackedAlignment)
      && p.offset == p.unpackedOffset then
    f.warn (.unnecessaryPackedField p.name p.index)

/-- Records a field in the map of empty subobjects, if it is free to lie at an offset. -/
def State.placeField? (st : State) (type : Ty) (offset : Bytes) : LayoutM (Option State) :=
  match if f.isUnion then none else st.emptyMap with
  | none => return some st
  | some map => do
    let placed ← map.placeField? f.setting type offset
    LayoutM.answered (.field type offset) placed.isSome
    return placed.map fun map => { st with emptyMap := some map }

/-- The offset of a field that could start at `start`. -/
def chooseFieldOffset (st : State) (index : Nat) (type : Ty) (alignment start : Bytes) :
    LayoutM (State × Bytes) := do
  if f.supplied.isNone then
    let attempts := attemptsFrom (st.emptyMap.getD {}) start alignment
    probe (st.placeField? f type) alignment attempts start
  else
    let (st, offset) := adoptFieldOffset f st index (← Bytes.toBits start)
    let offset := Bits.toBytesFloor offset
    match ← st.placeField? f type offset with
    | some st => return (st, offset)
    | none => throw (.breach .suppliedFieldOverlaps)

def layField (index : Nat) (field : Field) (st : State) : LayoutM State := do
  let unpaddedOffset ← Quantity.sub st.dataSize st.unfilledBits
  let st := { st with unfilledBits := 0, storageUnit := 0 }
  let isPacked := f.isPacked || field.isPacked
  let start := if f.isUnion then 0 else st.dataSizeInBytes
  let (size, typeAlignment) ← fieldExtent f field.type
  let asked := field.alignment.getD 0
  let alignment := f.clamp (max (if isPacked then 1 else typeAlignment) asked)
  let unpackedAlignment := f.clamp (max typeAlignment asked)
  let fitted ← Quantity.alignTo start alignment
  let unpackedStart ← Quantity.alignTo start unpackedAlignment
  let (st, offset) ← chooseFieldOffset f st index field.type alignment fitted
  let offsetInBits ← Bytes.toBits offset
  let st := st.placeFieldAt offsetInBits
  if f.supplied.isNone then
    reportPlacement f {
      index, name := field.name, isPacked
      offset := offsetInBits
      unpaddedOffset
      unpackedOffset := ← Bytes.toBits unpackedStart
      unpackedAlignment := ← Bytes.toBits unpackedAlignment }
  let dataSize ←
    if f.isUnion then pure (max st.dataSize (← Bytes.toBits size))
    else Bytes.toBits (← Quantity.add offset size)
  (st.setDataSize dataSize).raiseAlignment f alignment unpackedAlignment

end ObjectLayout.Itanium
