import ObjectLayout.Quantity

/-! The finished layout of a type: how wide it is and how it must be aligned. -/
namespace ObjectLayout

/-- What, besides the nature of the type, asks for its alignment. -/
inductive AlignRequirement where
  | none
  | typedefAttribute
  | recordAttribute
  deriving DecidableEq, Repr

structure TypeLayout where
  width : Bytes
  alignment : Bytes
  /-- The alignment before a typedef's attribute replaced it. -/
  naturalAlignment : Bytes
  requirement : AlignRequirement := .none
  deriving DecidableEq, Repr

namespace TypeLayout

def aligned (width alignment : Bytes) : TypeLayout := ⟨width, alignment, alignment, .none⟩

/-- Aligned to its own size. -/
def natural (size : Bytes) : TypeLayout := aligned size size

def isAlignmentRequired (layout : TypeLayout) : Bool := layout.requirement != .none

end TypeLayout

end ObjectLayout
