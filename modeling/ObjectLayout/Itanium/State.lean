import ObjectLayout.Subobject.EmptyMap
import ObjectLayout.Target.Scalars

/-! What the Itanium rules keep while they lay out one record: what stays fixed (`Frame`), and what
changes from one base or field to the next (`State`). -/
namespace ObjectLayout.Itanium

structure Frame where
  setting : Setting
  record : RecordId
  isUnion : Bool
  isMsStruct : Bool
  isPacked : Bool
  isMac68k : Bool
  /-- Zero for no maximum. -/
  maxFieldAlignment : Bytes
  supplied : Option SuppliedLayout

namespace Frame

def ofRecord (s : Setting) (r : RecordId) (supplied : Option SuppliedLayout) : Frame :=
  let record := s.tree.record r
  let attributes := record.attributes
  let pack := attributes.maxFieldAlignment.getD (s.options.packStruct.getD 0)
  { setting := s
    record := r
    isUnion := record.isUnion
    isMsStruct := attributes.isMsStruct || s.options.msBitFields
    isPacked := attributes.isPacked
    isMac68k := attributes.isMac68k
    maxFieldAlignment := if attributes.isMac68k then 2 else pack
    supplied }

variable (f : Frame)

def tree : Tree := f.setting.tree

def target : Target := f.setting.target

def declaration : Record := f.tree.record f.record

/-- An alignment under the maximum for fields. -/
def clamp (alignment : Bytes) : Bytes :=
  if f.maxFieldAlignment = 0 then alignment else min alignment f.maxFieldAlignment

def warn (remark : Remark) : LayoutM Unit :=
  LayoutM.warn { record := f.declaration.friendlyName, remark }

end Frame

structure State where
  size : Bits := 0
  /-- The size without tail padding. -/
  dataSize : Bits := 0
  alignment : Bytes := 1
  /-- The alignment that the record would have if nothing were packed. -/
  unpackedAlignment : Bytes := 1
  fieldOffsets : List Bits := []
  /-- Bits at the end of the data that a bit-field left over; zero after anything else. -/
  unfilledBits : Bits := 0
  /-- The size of the last field's type if `ms_struct` governs and it was a bit-field, or zero. -/
  storageUnit : Bits := 0
  /-- Whether the alignment of a supplied layout is still being inferred. -/
  infersAlignment : Bool := false
  /-- Present for a class. -/
  emptyMap : Option EmptyMap := none
  graph : SubobjectGraph := {}
  primaryBase : Option PrimaryBase := none
  hasOwnVfptr : Bool := false
  baseOffsets : OrderedMap RecordId Bytes := .empty
  virtualBaseSlots : OrderedMap RecordId VirtualBaseSlot := .empty
  /-- Virtual bases that have their place because something uses them as its primary base. -/
  indirectPrimaryBases : List RecordId := []
  visitedVirtualBases : List RecordId := []

namespace State

variable (f : Frame) (st : State)

/-- Neither `mac68k` nor a supplied layout whose alignment is settled lets the alignment grow. -/
def isAlignmentSettled : Bool := f.isMac68k || (f.supplied.isSome && !st.infersAlignment)

/-- Raises the alignment to at least `packed`, and what it would be unpacked to `unpacked`. -/
def raiseAlignment (packed unpacked : Bytes) : Checked State := do
  if st.isAlignmentSettled f then return st
  if packed > st.alignment then ensure (Quantity.isPowerOfTwo packed) .alignmentNotPowerOfTwo
  if unpacked > st.unpackedAlignment then
    ensure (Quantity.isPowerOfTwo unpacked) .alignmentNotPowerOfTwo
  return { st with
    alignment := max st.alignment packed
    unpackedAlignment := max st.unpackedAlignment unpacked }

/-- Something supplied lies before where it would have to lie: the record must have been packed. -/
def settlePacked : State := { st with alignment := 1, infersAlignment := false }

def settlePackedIf (condition : Bool) : State :=
  if st.infersAlignment && condition then st.settlePacked else st

def dataSizeInBytes : Bytes := Bits.toBytesCeil st.dataSize

def sizeInBytes : Bytes := Bits.toBytesCeil st.size

def setSize (size : Bytes) : Checked State := do
  return { st with size := ← Bytes.toBits size }

/-- Sets the size of the data; the record is at least as large. -/
def setDataSize (dataSize : Bits) : State := { st with dataSize, size := max st.size dataSize }

def placeFieldAt (offset : Bits) : State := { st with fieldOffsets := st.fieldOffsets ++ [offset] }

/-- The state before any base or field. -/
def initial (emptyMap : Option EmptyMap) : Checked State := do
  let fresh : State := { emptyMap }
  let aligned ←
    if f.isMac68k then pure { fresh with alignment := 2 }
    else match f.declaration.attributes.alignment with
      | some alignment => fresh.raiseAlignment f alignment alignment
      | none => pure fresh
  match f.supplied with
  | none => return aligned
  | some supplied =>
    match supplied.alignment with
    | some alignment => return { aligned with alignment }
    | none => return { aligned with infersAlignment := true }

end State

/-- Tries `offset`, `offset + step`, and so on; `attempts` bounds how often. -/
def probe (place? : Bytes → LayoutM (Option α)) (step : Bytes) :
    Nat → Bytes → LayoutM (α × Bytes)
  | 0, _ => LayoutM.endless
  | attempts + 1, offset => do
    match ← place? offset with
    | some placed => return (placed, offset)
    | none => probe place? step attempts (← Quantity.add offset step)

/-- Past the highest offset of a map everything fits, so this many attempts are enough. -/
def attemptsFrom (map : EmptyMap) (offset step : Bytes) : Nat := (map.highest - offset) / step + 2

end ObjectLayout.Itanium
