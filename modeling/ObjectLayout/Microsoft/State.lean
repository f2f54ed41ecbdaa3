import ObjectLayout.LayoutM
import ObjectLayout.Setting

/-! What the Microsoft rules keep while they lay out one record: what stays fixed (`Frame`), and
what changes from one base or field to the next (`State`). -/
namespace ObjectLayout.Microsoft

structure Frame where
  setting : Setting
  record : RecordId
  isUnion : Bool
  /-- Zero for no maximum. -/
  maxFieldAlignment : Bytes

namespace Frame

/-- A pack larger than a pointer is ignored when it comes from a pragma. -/
def ofRecord (s : Setting) (r : RecordId) : Frame :=
  let record := s.tree.record r
  let attributes := record.attributes
  let asked := attributes.maxFieldAlignment.filter fun pack => decide (pack ≤ s.target.pointerWidth)
  let pack := asked.getD (s.options.packStruct.getD 0)
  { setting := s
    record := r
    isUnion := record.isUnion
    maxFieldAlignment := if attributes.isPacked then 1 else pack }

variable (f : Frame)

def tree : Tree := f.setting.tree

def declaration : Record := f.tree.record f.record

def is64Bit : Bool := f.setting.target.pointerWidth == 8

def pointerSize : Bytes := f.setting.target.pointerWidth

/-- An alignment under the maximum for fields. -/
def clamp (alignment : Bytes) : Bytes :=
  if f.maxFieldAlignment = 0 then alignment else min alignment f.maxFieldAlignment

def pointerAlignment : Bytes := f.clamp f.pointerSize

end Frame

structure State where
  size : Bytes := 0
  dataSize : Bytes := 0
  alignment : Bytes := 1
  /-- What attributes of the record, its fields and its bases ask for. -/
  requiredAlignment : Bytes := 0
  /-- The size of the unit that the last bit-field lies in. -/
  bitUnit : Bytes := 0
  /-- The bits of that unit that are still free. -/
  freeBits : Bits := 0
  /-- Whether the last field was a bit-field of positive width. -/
  afterBitField : Bool := false
  primaryBase : Option RecordId := none
  hasOwnVfptr : Bool := false
  hasVbptr : Bool := false
  vbptrOffset : Bytes := 0
  /-- The base whose vbptr serves the class as well. -/
  vbptrBase : Option RecordId := none
  fieldOffsets : List Bits := []
  baseOffsets : OrderedMap RecordId Bytes := .empty
  virtualBaseSlots : OrderedMap RecordId VirtualBaseSlot := .empty
  hasZeroSizedSubobject : Bool := false
  leadsWithZeroSizedBase : Bool := false

namespace State

variable (f : Frame) (st : State)

/-- The state before any base or field. On 64-bit targets the size is always rounded up at the end,
on others only if something requires it. -/
def initial : State where
  requiredAlignment :=
    max (if f.is64Bit then 1 else 0) (f.declaration.attributes.alignment.getD 0)

def placeFieldAt (offset : Bytes) : Checked State := do
  return { st with fieldOffsets := st.fieldOffsets ++ [← Bytes.toBits offset] }

def baseOffset (r : RecordId) : Checked Bytes :=
  match st.baseOffsets.find? r with
  | some offset => .ok offset
  | none => .error (.breach .notNonVirtualBase)

/-- Whether the class needs a vbptr that no base provides. -/
def needsOwnVbptr : Bool := st.hasVbptr && st.vbptrBase.isNone

end State

/-- Size and alignment of a base or field after packing and required alignments. -/
structure Extent where
  size : Bytes
  alignment : Bytes

/-- What a base takes. Packing lowers its alignment, but not below what it requires, and only the
lowered alignment counts for the record at this point. -/
def baseExtent (f : Frame) (layout : RecordLayout) (st : State) : State × Extent :=
  let alignment := f.clamp layout.alignment
  ({ st with
      hasZeroSizedSubobject := st.hasZeroSizedSubobject || layout.hasZeroSizedSubobject
      alignment := max st.alignment alignment },
    ⟨layout.dataSize, max alignment layout.requiredAlignment⟩)

end ObjectLayout.Microsoft
