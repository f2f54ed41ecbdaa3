import ObjectLayout.Decl.Class

/-! Plain old data, in the sense of C++03 and in that of C++11. The two decide whether tail padding
may be reused. A plain record always counts as plain old data. -/
namespace ObjectLayout

/-- Whether a type is plain old data, `record` deciding for records. -/
def Ty.isPodWith (record : RecordId → Bool) (type : Ty) : Bool :=
  match type.baseElement with
  | .record _ r => record r
  | .lvalueReference .. | .rvalueReference .. => false
  | .scalar _ s => !s.isVoid
  | .function .. | .templateParam .. | .unresolved .. => false
  | _ => true

namespace Tree

variable (tree : Tree)

/-- An aggregate of public members that are plain old data themselves, without bases, virtual
methods or a constructor or destructor of its own. -/
def isPod : RecordId → Bool :=
  tree.descend false fun isPod r =>
    let record := tree.record r
    !record.isClass
      || (record.bases.isEmpty
        && !tree.isPolymorphic r
        && !tree.hasUserDeclared r .constructor
        && !tree.hasUserDeclared r .destructor
        && record.fields.all fun field =>
          field.access == .publicly && field.type.isPodWith isPod)

def isPodType (type : Ty) : Bool := type.isPodWith tree.isPod

def isTrivial : RecordId → Bool :=
  tree.descend false fun isTrivial r =>
    let record := tree.record r
    !record.isClass
      || (!tree.isDynamic r
        && !tree.hasUserDeclared r .constructor
        && !tree.hasUserDeclared r .destructor
        && record.bases.all (isTrivial ·.record)
        && record.fields.all fun field => field.type.baseElement.asRecord?.all isTrivial)

/-- Whether all fields have the same access. -/
def hasUniformAccess (fields : List Field) : Bool :=
  match fields with
  | [] => true
  | first :: rest => rest.all (·.access == first.access)

/-- Whether a field keeps its class from having standard layout, `record` deciding for records. -/
def isNonstandardField (record : RecordId → Bool) (field : Field) : Bool :=
  match field.type.baseElement with
  | .record _ r => !record r
  | .lvalueReference .. | .rvalueReference .. => true
  | _ => false

/-- At most one class of a hierarchy may declare fields. -/
def keepsFieldsTogether (r : RecordId) : Bool :=
  let record := tree.record r
  let basesWithFields := record.bases.countP (tree.hasFieldsInHierarchy ·.record)
  !(decide (basesWithFields > 1) || (basesWithFields == 1 && !record.fields.isEmpty))

/-- The first field may not have the type of a direct base. -/
def firstFieldIsNoBase (r : RecordId) : Bool :=
  let record := tree.record r
  match record.fields.head?.bind (·.type.baseElement.asRecord?) with
  | none => true
  | some first => !record.bases.any (·.record == first)

def isStandardLayout : RecordId → Bool :=
  tree.descend false fun isStandardLayout r =>
    let record := tree.record r
    !record.isClass
      || (!tree.isDynamic r
        && hasUniformAccess record.fields
        && !record.fields.any (isNonstandardField isStandardLayout)
        && record.bases.all (isStandardLayout ·.record)
        && tree.keepsFieldsTogether r
        && tree.firstFieldIsNoBase r)

def isTrivialStandardLayout (r : RecordId) : Bool := tree.isTrivial r && tree.isStandardLayout r

end Tree

end ObjectLayout
