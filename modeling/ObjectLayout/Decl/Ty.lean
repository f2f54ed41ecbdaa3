import ObjectLayout.Arena
import ObjectLayout.Quantity
import ObjectLayout.Scalar

/-! Types as written in declarations. A type holds its parts and, beside them, its own position
among all types; what a typedef or an enumeration stands for is part of the type, while a record is
named by its position, because records may be declared before they are defined and may refer to
themselves through pointers. -/
namespace ObjectLayout

abbrev TypeId := Idx .type
abbrev RecordId := Idx .record
abbrev MethodId := Idx .method
abbrev EnumId := Idx .enumeration
abbrev TypedefId := Idx .typedef
abbrev VariableId := Idx .variable

inductive Ty where
  | scalar (id : TypeId) (scalar : Scalar)
  | pointer (id : TypeId) (pointee : Ty)
  | blockPointer (id : TypeId) (pointee : Ty)
  | lvalueReference (id : TypeId) (referee : Ty)
  | rvalueReference (id : TypeId) (referee : Ty)
  | memberPointer (id : TypeId) (pointee : Ty) (owner : Ty)
  | array (id : TypeId) (element : Ty) (count : Nat)
  | incompleteArray (id : TypeId) (element : Ty)
  | variableArray (id : TypeId) (element : Ty)
  /-- An array whose length depends on a template parameter. -/
  | dependentArray (id : TypeId) (element : Ty)
  | vector (id : TypeId) (element : Ty) (count : Nat)
  | complex (id : TypeId) (element : Ty)
  | record (id : TypeId) (record : RecordId)
  | enumeration (id : TypeId) (declaration : EnumId) (name : Option String) (underlying : Ty)
  /-- An enumeration declared without the type that backs it. -/
  | openEnumeration (id : TypeId) (declaration : EnumId) (name : Option String)
  /-- The alignment attribute of a typedef replaces the natural alignment. -/
  | typedef (id : TypeId) (declaration : TypedefId) (name : String) (aliased : Ty)
      (alignment : Option Bytes)
  /-- A type written with its tag or a qualifier, as in `struct S`. -/
  | elaborated (id : TypeId) (inner : Ty)
  | function (id : TypeId) (result : Ty) (params : List Ty) (variadic : Bool)
  | templateParam (id : TypeId) (name : String)
  /-- A type that failed to resolve. -/
  | unresolved (id : TypeId)

namespace Ty

def id : Ty → TypeId
  | .scalar id _ | .pointer id _ | .blockPointer id _ | .lvalueReference id _
  | .rvalueReference id _ | .memberPointer id _ _ | .array id _ _ | .incompleteArray id _
  | .variableArray id _ | .dependentArray id _ | .vector id _ _ | .complex id _ | .record id _
  | .enumeration id _ _ _ | .openEnumeration id _ _ | .typedef id _ _ _ _ | .elaborated id _
  | .function id _ _ _ | .templateParam id _ | .unresolved id => id

/-- The type without typedefs and elaboration on the outside. -/
def canonical : Ty → Ty
  | .typedef _ _ _ aliased _ => aliased.canonical
  | .elaborated _ inner => inner.canonical
  | ty => ty

/-- The record that a type names, looking through sugar. -/
def asRecord? : Ty → Option RecordId
  | .typedef _ _ _ aliased _ => aliased.asRecord?
  | .elaborated _ inner => inner.asRecord?
  | .record _ named => some named
  | _ => none

/-- The innermost element type of nested arrays, sugar removed at every level. -/
def baseElement : Ty → Ty
  | .typedef _ _ _ aliased _ => aliased.baseElement
  | .elaborated _ inner => inner.baseElement
  | .array _ element _ | .incompleteArray _ element | .variableArray _ element
  | .dependentArray _ element => element.baseElement
  | ty => ty

def isFunction : Ty → Bool
  | .function .. => true
  | _ => false

/-- The lengths of nested constant arrays, outermost first, sugar looked through at every level. -/
def constantLengths : Ty → List Nat
  | .typedef _ _ _ aliased _ => aliased.constantLengths
  | .elaborated _ inner => inner.constantLengths
  | .array _ element count => count :: element.constantLengths
  | _ => []

/-- The record at the bottom of nested constant arrays, if there is one. -/
def constantArrayRecord? : Ty → Option RecordId
  | .typedef _ _ _ aliased _ => aliased.constantArrayRecord?
  | .elaborated _ inner => inner.constantArrayRecord?
  | .array _ element _ => element.constantArrayRecord?
  | .record _ named => some named
  | _ => none

def pointee? : Ty → Option Ty
  | .pointer _ pointee | .blockPointer _ pointee | .lvalueReference _ pointee
  | .rvalueReference _ pointee | .memberPointer _ pointee _ => some pointee
  | .elaborated _ inner => inner.pointee?
  | _ => none

/-- The element type of an array, vector or complex type. -/
def element? : Ty → Option Ty
  | .array _ element _ | .incompleteArray _ element | .variableArray _ element
  | .dependentArray _ element | .vector _ element _ | .complex _ element => some element
  | _ => none

def arrayElement? : Ty → Option Ty
  | .array _ element _ | .incompleteArray _ element | .variableArray _ element
  | .dependentArray _ element => some element
  | _ => none

def elementCount? : Ty → Option Nat
  | .array _ _ count | .vector _ _ count => some count
  | _ => none

def arrayCount? : Ty → Option Nat
  | .array _ _ count => some count
  | _ => none

/-- The class that a member pointer points into. -/
def memberOwner? : Ty → Option Ty
  | .memberPointer _ _ owner => some owner
  | _ => none

/-- The type that a reference refers to; any other type is itself. -/
def withoutReference (ty : Ty) : Ty :=
  match ty.canonical with
  | .lvalueReference _ referee | .rvalueReference _ referee => referee
  | _ => ty

/-- Whether no variable-length array stands where the size is decided. -/
def hasConstantSize : Ty → Bool
  | .typedef _ _ _ aliased _ => aliased.hasConstantSize
  | .elaborated _ inner => inner.hasConstantSize
  | .variableArray .. => false
  | .array _ element _ => element.hasConstantSize
  | _ => true

theorem baseElement_canonical (ty : Ty) : ty.canonical.baseElement = ty.baseElement := by
  fun_induction canonical ty <;> simp_all [baseElement]

end Ty

end ObjectLayout
