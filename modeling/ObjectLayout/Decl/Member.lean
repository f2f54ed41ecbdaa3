import ObjectLayout.Decl.Descent

/-! What a member name means in a record. Fields of anonymous members count as members of the record
around them, and are reached through a chain of field positions. -/
namespace ObjectLayout

structure FieldRef where
  record : RecordId
  index : Nat
  deriving DecidableEq, Repr

inductive Member where
  | field (field : FieldRef)
  /-- The chain starts at a field of the searched record and ends at the field named. -/
  | indirectField (chain : List FieldRef)
  | method (method : MethodId)
  deriving DecidableEq, Repr

/-- The member as seen from outside the anonymous field `outer`; methods are not seen there. -/
def Member.through? (outer : FieldRef) : Member → Option Member
  | .field inner => some (.indirectField [outer, inner])
  | .indirectField chain => some (.indirectField (outer :: chain))
  | .method _ => none

namespace Tree

variable (tree : Tree)

/-- The record of an unnamed field whose own members count as members of the record around it. -/
def anonymousRecordOf? (field : Field) : Option RecordId :=
  if field.name.isSome || field.isBitField then none
  else field.type.asRecord?.filter fun r => (tree.record r).isAnonymous

/-- The same for the field at a position. -/
def anonymousMember (r : RecordId) (index : Nat) : Except Fault (Option RecordId) :=
  match (tree.record r).fields[index]? with
  | some field => .ok (tree.anonymousRecordOf? field)
  | none => .error .outOfRange

def methodsNamed (r : RecordId) (name : String) : List MethodId :=
  (tree.record r).methods.filter fun m => (tree.method m).name == name

/-- Every member that `name` means in a record: fields in order, then the record's own methods. -/
def lookup (name : String) : RecordId → List Member :=
  tree.descend [] fun lookup r =>
    ((tree.record r).fields.zipIdx.flatMap fun (field, index) =>
      if field.name == some name then [.field ⟨r, index⟩]
      else match tree.anonymousRecordOf? field with
        | some inner => (lookup inner).filterMap (Member.through? ⟨r, index⟩)
        | none => [])
    ++ (tree.methodsNamed r name).map .method

end Tree

end ObjectLayout
