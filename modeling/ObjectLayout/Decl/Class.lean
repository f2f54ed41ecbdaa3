import ObjectLayout.Decl.Descent

/-! Properties of classes that follow from what they declare and inherit. -/
namespace ObjectLayout

/-- `xs`, followed by those of `ys` that it lacks. -/
def appendNew [DecidableEq α] (xs ys : List α) : List α :=
  ys.foldl (fun found y => if y ∈ found then found else found ++ [y]) xs

/-- What the representation of a pointer to a member of a class depends on. -/
inductive InheritanceModel where
  | single
  | multiple
  | virtual
  | unspecified
  deriving DecidableEq, Repr

namespace InheritanceModel

def name : InheritanceModel → String
  | .single => "single"
  | .multiple => "multiple"
  | .virtual => "virtual"
  | .unspecified => "unspecified"

/-- Whether a base may lie elsewhere than at the start. -/
def adjustsPointers : InheritanceModel → Bool
  | .single => false
  | .multiple | .virtual | .unspecified => true

def hasVirtualBases : InheritanceModel → Bool
  | .single | .multiple => false
  | .virtual | .unspecified => true

end InheritanceModel

namespace Tree

variable (tree : Tree)

/-- No data but zero-width bit-fields, nothing virtual, and only empty bases. -/
def isEmptyClass : RecordId → Bool :=
  tree.descend false fun isEmpty r =>
    (tree.record r).isClass
      && (tree.record r).fields.all (·.bitWidth == some 0)
      && (tree.methodsOf r).all (!·.isVirtual)
      && (tree.record r).bases.all fun base => !base.isVirtual && isEmpty base.record

/-- Declares or inherits a virtual method. -/
def isPolymorphic : RecordId → Bool :=
  tree.descend false fun isPolymorphic r =>
    (tree.methodsOf r).any (·.isVirtual)
      || (tree.record r).bases.any (isPolymorphic ·.record)

/-- Every virtual base, direct or not, once: those inherited through a direct base come before that
base itself, and direct bases are taken in the order of declaration. -/
def virtualBases : RecordId → List RecordId :=
  tree.descend [] fun inherited r =>
    (tree.record r).bases.foldl (fun found base =>
      let found := appendNew found (inherited base.record)
      if base.isVirtual then appendNew found [base.record] else found) []

def hasVirtualBases (r : RecordId) : Bool := !(tree.virtualBases r).isEmpty

/-- Needs a table, for virtual methods or for virtual bases. -/
def isDynamic (r : RecordId) : Bool := tree.isPolymorphic r || tree.hasVirtualBases r

def hasUserDeclared (r : RecordId) (kind : MethodKind) : Bool :=
  (tree.methodsOf r).any (·.isUserDeclared kind)

def declaresConstructorOrDestructor (r : RecordId) : Bool :=
  tree.hasUserDeclared r .constructor || tree.hasUserDeclared r .destructor

def hasFieldsInHierarchy : RecordId → Bool :=
  tree.descend false fun hasFields r =>
    !(tree.record r).fields.isEmpty || (tree.record r).bases.any (hasFields ·.record)

def usesMultipleInheritance : RecordId → Bool :=
  tree.descend false fun usesMultiple r =>
    decide ((tree.record r).bases.length > 1) || (tree.record r).bases.any (usesMultiple ·.record)

def inheritanceModel (r : RecordId) : InheritanceModel :=
  if !(tree.record r).isDefined then .unspecified
  else if tree.hasVirtualBases r then .virtual
  else if tree.usesMultipleInheritance r then .multiple
  else .single

end Tree

namespace Ty

/-- Whether the definition that a type needs for a layout is missing. -/
def isIncomplete (tree : Tree) : Ty → Bool
  | .typedef _ _ _ aliased _ => aliased.isIncomplete tree
  | .elaborated _ inner => inner.isIncomplete tree
  | .scalar _ s => s.isVoid
  | .incompleteArray .. => true
  | .array _ element _ => element.isIncomplete tree
  | .record _ r => !(tree.record r).isDefined
  | .openEnumeration .. => true
  | _ => false

def isDependent (tree : Tree) : Ty → Bool
  | .typedef _ _ _ aliased _ => aliased.isDependent tree
  | .elaborated _ inner => inner.isDependent tree
  | .templateParam .. | .dependentArray .. => true
  | .pointer _ inner | .blockPointer _ inner | .lvalueReference _ inner | .rvalueReference _ inner
  | .incompleteArray _ inner | .variableArray _ inner | .complex _ inner | .array _ inner _
  | .vector _ inner _ => inner.isDependent tree
  | .memberPointer _ pointee owner => pointee.isDependent tree || owner.isDependent tree
  | .record _ r => (tree.record r).isDependent
  | _ => false

def isInvalid (tree : Tree) : Ty → Bool
  | .typedef _ _ _ aliased _ => aliased.isInvalid tree
  | .elaborated _ inner => inner.isInvalid tree
  | .unresolved _ => true
  | .record _ r => (tree.record r).isInvalid
  | _ => false

end Ty

end ObjectLayout
