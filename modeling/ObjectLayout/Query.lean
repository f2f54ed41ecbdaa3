import ObjectLayout.Decl.Member
import ObjectLayout.LayoutM
import ObjectLayout.Setting

/-! Questions about types and declarations, with the failures that callers are to expect apart from
the faults of the layout rules. -/
namespace ObjectLayout

open LayoutM (layoutOf typeLayoutOf)

inductive QueryError where
  | invalid
  | incomplete
  | dependent
  | notConstantSize
  | invalidFieldName
  deriving DecidableEq, Repr

namespace QueryError

/-- The number that stands for the failure where a size or an offset is expected. -/
def code : QueryError → Int
  | .invalid => -1
  | .incomplete => -2
  | .dependent => -3
  | .notConstantSize => -4
  | .invalidFieldName => -5

def message : QueryError → String
  | .invalid => "Type is invalid"
  | .incomplete => "Type is incomplete"
  | .dependent => "Type is dependent"
  | .notConstantSize => "Type does not have a constant size"
  | .invalidFieldName => "Field name does not refer to exactly one field"

end QueryError

/-- Anything with a name that a question can be about. -/
inductive Decl where
  | record (record : RecordId)
  | enumeration (declaration : EnumId) (type : Ty)
  | typedef (declaration : TypedefId) (type : Ty) (aliased : Ty)
  | variable (declaration : VariableId) (type : Ty)
  | method (method : MethodId)
  | field (field : FieldRef)

/-- The declaration that introduces a type, looking through elaboration but not through typedefs. -/
inductive TypeDecl where
  | record (record : RecordId)
  | enumeration (declaration : EnumId)
  | typedef (declaration : TypedefId)
  deriving DecidableEq, Repr

def Ty.declaration? : Ty → Option TypeDecl
  | .record _ named => some (.record named)
  | .enumeration _ declaration _ _ | .openEnumeration _ declaration _ =>
    some (.enumeration declaration)
  | .typedef _ declaration _ _ _ => some (.typedef declaration)
  | .elaborated _ inner => inner.declaration?
  | _ => none

namespace Query

variable (s : Setting)

def field? (field : FieldRef) : Option Field := (s.tree.record field.record).fields[field.index]?

/-- The type of a declaration; a typedef has the type that it stands for. -/
def typeOf? : Decl → Option Ty
  | .record r => some (s.tree.recordType r)
  | .enumeration _ type => some type
  | .typedef _ _ aliased => some aliased
  | .variable _ type => some type
  | .method _ => none
  | .field field => (field? s field).map (·.type)

def bitWidth? : Decl → Option Bits
  | .field field => (field? s field).bind (·.bitWidth)
  | _ => none

/-- What keeps a type from having a layout. -/
def obstacle? (type : Ty) : Option QueryError :=
  if type.isInvalid s.tree then some .invalid
  else if type.isIncomplete s.tree then some .incomplete
  else if type.isDependent s.tree then some .dependent
  else none

/-- The size of a type; that of a reference is the size of what it refers to, and a function counts
as one byte. -/
def sizeOf (type : Ty) : LayoutM (Except QueryError Bytes) := do
  let type := type.withoutReference
  match obstacle? s type with
  | some error => return .error error
  | none =>
    if !type.hasConstantSize then return .error .notConstantSize
    if type.canonical.isFunction then return .ok 1
    return .ok (← typeLayoutOf type).width

def alignOf (type : Ty) : LayoutM (Except QueryError Bytes) := do
  let type := type.withoutReference
  match obstacle? s type with
  | some error => return .error error
  | none => return .ok (← typeLayoutOf type).alignment

/-- What keeps the fields of a record, at any depth of members, from having offsets. -/
def fieldObstacle? : RecordId → Option QueryError :=
  s.tree.descend none fun fieldObstacle? r =>
    (s.tree.record r).fields.findSome? fun field =>
      (obstacle? s field.type).or (field.type.asRecord?.bind fieldObstacle?)

/-- The record that a type names, if its fields have offsets. -/
def fieldParent (type : Ty) : Except QueryError RecordId :=
  if type.isInvalid s.tree then .error .invalid else
  match type.declaration? with
  | some (.record r) =>
    if !(s.tree.record r).isDefined then .error .incomplete
    else if (s.tree.record r).isDependent then .error .dependent
    else match fieldObstacle? s r with
      | some error => .error error
      | none => .ok r
  | _ => .error .invalid

def fieldOffset (field : FieldRef) : LayoutM Bits := do
  (← layoutOf field.record).fieldOffset field.index

/-- The offset of a field reached through a chain of members, from the start of the outermost. -/
def indirectFieldOffset (chain : List FieldRef) : LayoutM Bits :=
  chain.foldlM (fun total field => do Quantity.add total (← fieldOffset field)) 0

/-- The offset of the one field that a name means in a record type. -/
def offsetOf (type : Ty) (name : String) : LayoutM (Except QueryError Bits) := do
  match fieldParent s type with
  | .error error => return .error error
  | .ok r =>
    match s.tree.lookup name r with
    | [.field field] => return .ok (← fieldOffset field)
    | [.indirectField chain] => return .ok (← indirectFieldOffset chain)
    | found =>
      LayoutM.log (.unclearField name found.length (s.tree.record r).friendlyName)
      return .error .invalidFieldName

def offsetOfField (decl : Decl) : LayoutM (Except QueryError Bits) := do
  match decl with
  | .field field =>
    match fieldParent s (s.tree.recordType field.record) with
    | .error error => return .error error
    | .ok r => return .ok (← fieldOffset { field with record := r })
  | _ => return .error .invalid

end Query

end ObjectLayout
