import ObjectLayout.Decl.Record

/-! The declaration tree and the steps that grow it. Steps hand out positions in order and keep what
they have done even when they stop with a fault. -/
namespace ObjectLayout

structure Tree where
  records : Arena .record Record := {}
  methods : Arena .method Method := {}
  /-- How many positions have been handed out for types, enumerations, typedefs and variables. -/
  typeCount : Nat := 0
  enumCount : Nat := 0
  typedefCount : Nat := 0
  variableCount : Nat := 0
  /-- The scalar types in use, each with the one type that stands for it. -/
  scalars : List (Scalar × TypeId) := []

namespace Tree

def record (tree : Tree) (r : RecordId) : Record := tree.records.getD r .undeclared

def method (tree : Tree) (m : MethodId) : Method := tree.methods.getD m .undeclared

/-- The methods declared in a record, in order. -/
def methodsOf (tree : Tree) (r : RecordId) : List Method := (tree.record r).methods.map tree.method

def recordType (tree : Tree) (r : RecordId) : Ty := .record (tree.record r).typeId r

end Tree

abbrev BuildM := EStateM Fault Tree

namespace BuildM

/-- Makes the type that `shape` gives for the next free position. -/
def newType (shape : TypeId → Ty) : BuildM Ty :=
  modifyGet fun tree => (shape ⟨tree.typeCount⟩, { tree with typeCount := tree.typeCount + 1 })

/-- The type of a scalar, made when first asked for. -/
def scalar (s : Scalar) : BuildM Ty := do
  match (← get).scalars.lookup s with
  | some id => return .scalar id s
  | none =>
    let type ← newType (.scalar · s)
    modify fun tree => { tree with scalars := tree.scalars ++ [(s, type.id)] }
    return type

def declareRecord (kind : RecordKind) (name : Option String) : BuildM RecordId :=
  modifyGet fun tree =>
    let record : Record := { name, kind, typeId := ⟨tree.typeCount⟩ }
    (tree.records.next,
      { tree with typeCount := tree.typeCount + 1, records := tree.records.push record })

def defineRecord (r : RecordId) (definition : Definition) : BuildM Unit := do
  let record := (← get).record r
  ensure (!record.isDefined) (.alreadyDefined record.friendlyName)
  modify fun tree =>
    { tree with records := tree.records.modify r ({ · with definition := some definition }) }

def addRecord (kind : RecordKind) (name : Option String) (definition : Definition) :
    BuildM RecordId := do
  let r ← declareRecord kind name
  defineRecord r definition
  return r

def markRecord (r : RecordId) (isInvalid isDependent : Bool) : BuildM Unit :=
  modify fun tree =>
    { tree with records := tree.records.modify r ({ · with isInvalid, isDependent }) }

/-- The position is handed out before the owner is found to be no defined class. -/
def addMethod (method : Method) : BuildM MethodId := do
  let tree ← get
  let m := tree.methods.next
  set { tree with methods := tree.methods.push method }
  ensure (tree.record method.owner).isClass .methodOutsideClass
  modify fun tree => { tree with records := tree.records.modify method.owner (list m) }
  return m
where
  list (m : MethodId) (record : Record) : Record :=
    { record with definition := record.definition.map fun definition =>
        { definition with asClass := definition.asClass.map fun asClass =>
            { asClass with methods := asClass.methods ++ [m] } } }

def addEnumeration (name : Option String) (underlying : Option Ty) : BuildM (EnumId × Ty) := do
  let declaration : EnumId := ⟨(← get).enumCount⟩
  modify fun tree => { tree with enumCount := tree.enumCount + 1 }
  let type ← match underlying with
    | some underlying => newType (.enumeration · declaration name underlying)
    | none => newType (.openEnumeration · declaration name)
  return (declaration, type)

def addTypedef (name : String) (aliased : Ty) (alignment : Option Bytes) :
    BuildM (TypedefId × Ty) := do
  let declaration : TypedefId := ⟨(← get).typedefCount⟩
  modify fun tree => { tree with typedefCount := tree.typedefCount + 1 }
  let type ← newType (.typedef · declaration name aliased alignment)
  return (declaration, type)

def addVariable : BuildM VariableId :=
  modifyGet fun tree =>
    (⟨tree.variableCount⟩, { tree with variableCount := tree.variableCount + 1 })

end BuildM

end ObjectLayout
