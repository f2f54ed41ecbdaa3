import ObjectLayout.Decl.Ty

/-! Records and what is declared in them. A record starts out declared; its definition, once given,
says whether it is a plain record or a class, which alone has bases and methods. -/
namespace ObjectLayout

inductive RecordKind where
  | struct
  | cxxClass
  | union
  | interface
  deriving DecidableEq, Repr

def RecordKind.spelling : RecordKind → String
  | .struct => "struct"
  | .cxxClass => "class"
  | .union => "union"
  | .interface => "__interface"

inductive Access where
  | publicly
  | protectedly
  | privately
  deriving DecidableEq, Repr

structure Base where
  record : RecordId
  isVirtual : Bool := false
  access : Access := .publicly
  deriving DecidableEq, Repr

structure Field where
  name : Option String
  type : Ty
  /-- Present for a bit-field. -/
  bitWidth : Option Bits := none
  access : Access := .publicly
  isPacked : Bool := false
  /-- The alignment that an attribute of the field asks for. -/
  alignment : Option Bytes := none

namespace Field

def isBitField (field : Field) : Bool := field.bitWidth.isSome

def isUnnamed (field : Field) : Bool := field.name.isNone

end Field

structure RecordAttributes where
  isPacked : Bool := false
  /-- The alignment that `#pragma pack` lets fields have at most. -/
  maxFieldAlignment : Option Bytes := none
  /-- The alignment that an attribute of the record asks for. -/
  alignment : Option Bytes := none
  isMsStruct : Bool := false
  isMac68k : Bool := false
  deriving DecidableEq, Repr

structure ClassPart where
  bases : List Base := []
  methods : List MethodId := []

structure Definition where
  fields : List Field := []
  attributes : RecordAttributes := {}
  /-- Present for a class, absent for a plain record. -/
  asClass : Option ClassPart := none

structure Record where
  name : Option String
  kind : RecordKind
  typeId : TypeId
  definition : Option Definition := none
  isInvalid : Bool := false
  isDependent : Bool := false

namespace Record

/-- What a position that was never handed out stands for. -/
def undeclared : Record := { name := none, kind := .struct, typeId := ⟨0⟩ }

instance : Inhabited Record := ⟨undeclared⟩

def isUnion (record : Record) : Bool := record.kind == .union

def isAnonymous (record : Record) : Bool := record.name.isNone

def isDefined (record : Record) : Bool := record.definition.isSome

def fields (record : Record) : List Field := (record.definition.map (·.fields)).getD []

def asClass? (record : Record) : Option ClassPart := record.definition.bind (·.asClass)

def isClass (record : Record) : Bool := record.asClass?.isSome

def bases (record : Record) : List Base := (record.asClass?.map (·.bases)).getD []

def nonVirtualBases (record : Record) : List Base := record.bases.filter (!·.isVirtual)

def methods (record : Record) : List MethodId := (record.asClass?.map (·.methods)).getD []

def attributes (record : Record) : RecordAttributes :=
  (record.definition.map (·.attributes)).getD {}

/-- The name for messages, as in `struct S` or `(anonymous union)`. -/
def friendlyName (record : Record) : String :=
  match record.name with
  | some name => record.kind.spelling ++ " " ++ name
  | none => "(anonymous " ++ record.kind.spelling ++ ")"

/-- The spelling of the record's type. -/
def spelling (record : Record) : String :=
  record.kind.spelling ++ " " ++ record.name.getD "(anonymous)"

/-- The name without its tag. -/
def shortName (record : Record) : String := record.name.getD "(anonymous)"

end Record

inductive MethodKind where
  | normal
  | constructor
  | destructor
  deriving DecidableEq, Repr

structure Method where
  name : String
  owner : RecordId
  kind : MethodKind := .normal
  isVirtual : Bool := false
  /-- Declared by the compiler rather than written down. -/
  isImplicit : Bool := false
  /-- The methods of bases that this one overrides directly. -/
  overridden : List MethodId := []
  deriving DecidableEq, Repr

namespace Method

/-- What a position that was never handed out stands for. -/
def undeclared : Method := { name := "", owner := ⟨0⟩ }

/-- A method that overrides others is virtual, whether or not it says so. -/
def overriding (method : Method) (overridden : List MethodId) : Method :=
  { method with isVirtual := true, overridden }

def isUserDeclared (method : Method) (kind : MethodKind) : Bool :=
  method.kind == kind && !method.isImplicit

end Method

end ObjectLayout
