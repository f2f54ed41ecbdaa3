import ObjectLayout.Decl.Ty
import ObjectLayout.OrderedMap

/-! The finished layout of a record, and what may be asked of it. Questions about bases concern
classes alone and stop with a breach for plain records and for records that are no such base. -/
namespace ObjectLayout

structure PrimaryBase where
  record : RecordId
  isVirtual : Bool
  deriving DecidableEq, Repr

/-- Where a virtual base lies in a complete object, and whether the four bytes before it hold the
displacement that virtual calls during construction need. -/
structure VirtualBaseSlot where
  offset : Bytes
  hasVtordisp : Bool := false
  deriving DecidableEq, Repr

/-- The pointer to the table of virtual bases: where it is, and the base that it is shared with. -/
structure VbptrSlot where
  offset : Bytes
  sharedWith : Option RecordId := none
  deriving DecidableEq, Repr

structure ClassLayout where
  nonVirtualSize : Bytes
  nonVirtualAlignment : Bytes
  /-- Empty subobjects of the class never lie at or past this offset. -/
  largestEmptySubobject : Bytes := 0
  primaryBase : Option PrimaryBase := none
  /-- Holds a pointer to a table of virtual methods that no base provides. -/
  hasOwnVfptr : Bool := false
  /-- Holds such a pointer, its own or its primary base's, that a derived class can use. -/
  hasExtendableVfptr : Bool := false
  vbptr : Option VbptrSlot := none
  hasZeroSizedSubobject : Bool := false
  leadsWithZeroSizedBase : Bool := false
  baseOffsets : OrderedMap RecordId Bytes := .empty
  virtualBaseSlots : OrderedMap RecordId VirtualBaseSlot := .empty
  deriving DecidableEq, Repr

structure RecordLayout where
  size : Bytes
  /-- The size without tail padding. -/
  dataSize : Bytes
  alignment : Bytes
  /-- The alignment that attributes impose on whatever holds the record. -/
  requiredAlignment : Bytes
  /-- One offset per field, in order of declaration. -/
  fieldOffsets : List Bits
  /-- Present for a class. -/
  asClass : Option ClassLayout := none
  deriving DecidableEq, Repr

namespace RecordLayout

variable (layout : RecordLayout)

def classLayout : Checked ClassLayout :=
  match layout.asClass with
  | some asClass => .ok asClass
  | none => .error (.breach .classLayoutOfPlainRecord)

def nonVirtualSize : Checked Bytes := layout.classLayout.map (·.nonVirtualSize)

def nonVirtualAlignment : Checked Bytes := layout.classLayout.map (·.nonVirtualAlignment)

def baseOffset (base : RecordId) : Checked Bytes := do
  match (← layout.classLayout).baseOffsets.find? base with
  | some offset => return offset
  | none => throw (.breach .notNonVirtualBase)

def virtualBaseSlot (base : RecordId) : Checked VirtualBaseSlot := do
  match (← layout.classLayout).virtualBaseSlots.find? base with
  | some slot => return slot
  | none => throw (.breach .notVirtualBase)

def virtualBaseOffset (base : RecordId) : Checked Bytes :=
  (layout.virtualBaseSlot base).map (·.offset)

def fieldOffset (index : Nat) : Checked Bits :=
  match layout.fieldOffsets[index]? with
  | some offset => .ok offset
  | none => .error .outOfRange

def largestEmptySubobject : Bytes := layout.asClass.elim 0 (·.largestEmptySubobject)

def primaryBase? : Option PrimaryBase := layout.asClass.bind (·.primaryBase)

/-- The primary base, if it is a virtual one. -/
def virtualPrimaryBase? : Option RecordId :=
  (layout.primaryBase?.filter (·.isVirtual)).map (·.record)

def hasOwnVfptr : Bool := layout.asClass.any (·.hasOwnVfptr)

def hasExtendableVfptr : Bool := layout.asClass.any (·.hasExtendableVfptr)

def vbptr? : Option VbptrSlot := layout.asClass.bind (·.vbptr)

def hasVbptr : Bool := layout.vbptr?.isSome

/-- Holds a vbptr that is not shared with a base. -/
def hasOwnVbptr : Bool := layout.vbptr?.any (·.sharedWith.isNone)

/-- The virtual bases that have a vtordisp. -/
def vtordisps : List RecordId :=
  (layout.asClass.elim [] (·.virtualBaseSlots.entries)).filterMap fun (base, slot) =>
    if slot.hasVtordisp then some base else none

def hasZeroSizedSubobject : Bool := layout.asClass.any (·.hasZeroSizedSubobject)

def leadsWithZeroSizedBase : Bool := layout.asClass.any (·.leadsWithZeroSizedBase)

end RecordLayout

end ObjectLayout
