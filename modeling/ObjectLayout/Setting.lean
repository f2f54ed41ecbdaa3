import ObjectLayout.Decl.Class
import ObjectLayout.Supplied
import ObjectLayout.Target

/-! Everything that a layout depends on: the declarations, the target, the language options, and
where layouts may be supplied from. -/
namespace ObjectLayout

structure LayoutOptions where
  /-- Records are C++ records, which are never of size zero. -/
  cplusplus : Bool := false
  /-- The largest alignment of fields where no pragma says otherwise. -/
  packStruct : Option Bytes := none
  /-- Every record is laid out as if it had the `ms_struct` attribute. -/
  msBitFields : Bool := false
  /-- Every newly computed layout is shown in the log. -/
  dumpLayouts : Bool := false
  deriving DecidableEq, Repr

structure Setting where
  tree : Tree
  target : Target
  options : LayoutOptions := {}
  /-- Present as soon as layouts may be supplied, even if none is. -/
  supplied : Option (OrderedMap RecordId SuppliedLayout) := none

namespace Setting

/-- Where layouts may be supplied, the Itanium rules apply on every target. -/
def usesMicrosoftLayout (s : Setting) : Bool := s.target.abi == .microsoft && s.supplied.isNone

def suppliedLayout? (s : Setting) (r : RecordId) : Option SuppliedLayout :=
  s.supplied.bind (·.find? r)

end Setting

end ObjectLayout
