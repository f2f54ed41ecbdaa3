import ObjectLayout.Decl.Spelling
import ObjectLayout.LayoutM
import ObjectLayout.Setting
import ObjectLayout.Target.Scalars

/-! Layouts of types, from the layouts of their parts. References count as the pointers that
represent them, and functions have an alignment but no size. -/
namespace ObjectLayout

open LayoutM (layoutOf typeLayoutOf)

namespace TypeLayout

/-- Member pointers of the Microsoft ABI: an offset for data or an address for a function, then an
`int` for every further adjustment that the inheritance of the class calls for. -/
def microsoftMemberPointer (target : Target) (isFunction : Bool) (model : InheritanceModel) :
    Checked TypeLayout := do
  let pointer := target.pointerLayout
  let int := target.intLayout
  let count (condition : Bool) : Nat := if condition then 1 else 0
  let ints := count (!isFunction) + count (isFunction && model.adjustsPointers)
    + count (model == .unspecified) + count model.hasVirtualBases
  let width ← Quantity.add (pointer.width * count isFunction) (int.width * ints)
  let alignment := if isFunction then pointer.alignment else int.alignment
  let width ← if target.is64Bit then Quantity.alignTo width alignment else pure width
  return .aligned width alignment

def memberPointer (s : Setting) (pointee owner : Ty) : Checked TypeLayout :=
  let pointer := s.target.pointerLayout
  let isFunction := pointee.canonical.isFunction
  match s.target.abi with
  | .itanium =>
    .ok (if isFunction then .aligned (pointer.width * 2) pointer.alignment else pointer)
  | .microsoft =>
    let model := owner.asRecord?.elim .unspecified s.tree.inheritanceModel
    microsoftMemberPointer s.target isFunction model

/-- A vector is as wide, and aligned, as the next power of two. -/
def vector (element : TypeLayout) (count : Nat) : Checked TypeLayout := do
  let width ← Quantity.mul element.width count
  let alignment ← Quantity.nextPowerOfTwo width
  return .aligned (← Quantity.alignTo width alignment) alignment

def ofRecord (attributes : RecordAttributes) (layout : RecordLayout) : TypeLayout where
  width := layout.size
  alignment := layout.alignment
  naturalAlignment := layout.alignment
  requirement := if attributes.alignment.isSome then .recordAttribute else .none

def ofTy (s : Setting) (type : Ty) : LayoutM TypeLayout := do
  match type with
  | .scalar _ scalar => return s.target.scalarLayout scalar
  | .pointer .. | .blockPointer .. | .lvalueReference .. | .rvalueReference .. =>
    return s.target.pointerLayout
  | .memberPointer _ pointee owner => memberPointer s pointee owner
  | .array _ element count =>
    let element ← typeLayoutOf element
    return { element with width := ← Quantity.mul element.width count }
  | .incompleteArray _ element | .variableArray _ element =>
    return { ← typeLayoutOf element with width := 0 }
  | .vector _ element count => vector (← typeLayoutOf element) count
  | .complex _ element =>
    let element ← typeLayoutOf element
    return { element with width := ← Quantity.mul element.width 2 }
  | .record _ r => return ofRecord (s.tree.record r).attributes (← layoutOf r)
  | .enumeration _ _ _ underlying => typeLayoutOf underlying
  | .openEnumeration _ _ name => throw (.breach (.incompleteEnum (name.getD "(anonymous)")))
  | .typedef _ _ _ aliased alignment =>
    let layout ← typeLayoutOf aliased
    return alignment.elim layout fun alignment =>
      { layout with alignment, requirement := .typedefAttribute }
  | .elaborated _ inner => typeLayoutOf inner
  | .function .. => return .aligned 0 4
  | .dependentArray .. | .templateParam .. =>
    throw (.breach (.dependentType (type.spelling s.tree)))
  | .unresolved _ => throw (.breach .invalidType)

end TypeLayout

end ObjectLayout
