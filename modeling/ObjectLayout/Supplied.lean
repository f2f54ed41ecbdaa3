import ObjectLayout.RecordLayout

/-! Record layouts decided elsewhere, as by a module compiled before. What a supplied layout leaves
out is computed. -/
namespace ObjectLayout

structure SuppliedLayout where
  size : Bytes
  /-- Inferred from where things were placed, if absent. -/
  alignment : Option Bytes := none
  /-- By position of the field. -/
  fieldOffsets : OrderedMap Nat Bits := .empty
  baseOffsets : OrderedMap RecordId Bytes := .empty
  virtualBaseOffsets : OrderedMap RecordId Bytes := .empty
  deriving DecidableEq, Repr

namespace SuppliedLayout

/-- Every offset of a finished layout, with the alignment left to be inferred. -/
def ofLayout (layout : RecordLayout) : SuppliedLayout where
  size := layout.size
  fieldOffsets := .ofList (layout.fieldOffsets.zipIdx.map fun (offset, index) => (index, offset))
  baseOffsets := layout.asClass.elim .empty (·.baseOffsets)
  virtualBaseOffsets := layout.asClass.elim .empty (·.virtualBaseSlots.mapValues (·.offset))

end SuppliedLayout

end ObjectLayout
