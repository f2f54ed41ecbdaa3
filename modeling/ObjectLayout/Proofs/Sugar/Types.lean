import ObjectLayout.Decl.Pod
import ObjectLayout.Proofs.Catalog
import ObjectLayout.Setting

/-! Declarations without sugar. Elaboration and typedefs that have no alignment of their own are taken
off the types of all fields, at every depth, and the positions of types and of what names them are left
out. Whatever the rules find out about a type or a class is found out about what is left of it too. -/
namespace ObjectLayout

mutual

/-- The type without sugar. A typedef with an alignment of its own is more than sugar, and stays. -/
def Ty.unsugared : Ty → Ty
  | .scalar _ s => .scalar ⟨0⟩ s
  | .pointer _ pointee => .pointer ⟨0⟩ pointee.unsugared
  | .blockPointer _ pointee => .blockPointer ⟨0⟩ pointee.unsugared
  | .lvalueReference _ referee => .lvalueReference ⟨0⟩ referee.unsugared
  | .rvalueReference _ referee => .rvalueReference ⟨0⟩ referee.unsugared
  | .memberPointer _ pointee owner => .memberPointer ⟨0⟩ pointee.unsugared owner.unsugared
  | .array _ element count => .array ⟨0⟩ element.unsugared count
  | .incompleteArray _ element => .incompleteArray ⟨0⟩ element.unsugared
  | .variableArray _ element => .variableArray ⟨0⟩ element.unsugared
  | .dependentArray _ element => .dependentArray ⟨0⟩ element.unsugared
  | .vector _ element count => .vector ⟨0⟩ element.unsugared count
  | .complex _ element => .complex ⟨0⟩ element.unsugared
  | .record _ named => .record ⟨0⟩ named
  | .enumeration _ _ name underlying => .enumeration ⟨0⟩ ⟨0⟩ name underlying.unsugared
  | .openEnumeration _ _ name => .openEnumeration ⟨0⟩ ⟨0⟩ name
  | .typedef _ _ _ aliased none => aliased.unsugared
  | .typedef _ _ name aliased (some alignment) =>
    .typedef ⟨0⟩ ⟨0⟩ name aliased.unsugared (some alignment)
  | .elaborated _ inner => inner.unsugared
  | .function _ result params variadic =>
    .function ⟨0⟩ result.unsugared (Ty.unsugaredAll params) variadic
  | .templateParam _ name => .templateParam ⟨0⟩ name
  | .unresolved _ => .unresolved ⟨0⟩

def Ty.unsugaredAll : List Ty → List Ty
  | [] => []
  | type :: rest => type.unsugared :: Ty.unsugaredAll rest

end

namespace Ty

/-- Whether the type is another one, as a typedef or elaborated. -/
def isSugar : Ty → Bool
  | .typedef .. | .elaborated .. => true
  | _ => false

/-- The type right under the outermost layer of another one: what sugar stands for, or the elements of
an array. -/
def underLayer? : Ty → Option Ty
  | .typedef _ _ _ inner _ | .elaborated _ inner => some inner
  | .array _ element _ | .incompleteArray _ element | .variableArray _ element
  | .dependentArray _ element => some element
  | _ => none

theorem sizeOf_lt_of_underLayer? {type inner : Ty} (under : type.underLayer? = some inner) :
    sizeOf inner < sizeOf type := by
  unfold underLayer? at under
  split at under <;> cases under <;> simp <;> omega

/-- Induction over the layers on the outside of a type. -/
theorem layers_induction {P : Ty → Prop}
    (layer : ∀ type, (∀ inner, type.underLayer? = some inner → P inner) → P type) (type : Ty) :
    P type :=
  layer type fun inner _ => layers_induction layer inner
termination_by sizeOf type
decreasing_by exact sizeOf_lt_of_underLayer? ‹_›

theorem isSugar_canonical (type : Ty) : type.canonical.isSugar = false := by
  induction type using layers_induction with
  | layer type ih =>
    cases type with
    | typedef _ _ _ inner | elaborated _ inner => exact ih inner rfl
    | _ => rfl

theorem isSugar_baseElement (type : Ty) : type.baseElement.isSugar = false := by
  induction type using layers_induction with
  | layer type ih =>
    cases type with
    | typedef _ _ _ inner | elaborated _ inner | array _ inner | incompleteArray _ inner
    | variableArray _ inner | dependentArray _ inner => exact ih inner rfl
    | _ => rfl

/-- The type that plain sugar on the outside stands for. -/
def behindSugar? : Ty → Option Ty
  | .typedef _ _ _ aliased none => some aliased
  | .elaborated _ inner => some inner
  | _ => none

/-- Whether sugar on the outside of the type has an alignment of its own. -/
def isRealigned : Ty → Bool
  | .typedef _ _ _ aliased alignment => alignment.isSome || aliased.isRealigned
  | .elaborated _ inner => inner.isRealigned
  | _ => false

theorem unsugared_behindSugar? {type inner : Ty} (behind : type.behindSugar? = some inner) :
    type.unsugared = inner.unsugared := by
  unfold behindSugar? at behind
  split at behind <;> cases behind <;> simp [unsugared]

theorem underLayer?_of_behindSugar? {type inner : Ty} (behind : type.behindSugar? = some inner) :
    type.underLayer? = some inner := by
  unfold behindSugar? at behind
  split at behind <;> cases behind <;> rfl

/-- Induction over the plain sugar on the outside of a type. -/
theorem sugar_induction {P : Ty → Prop} (own : ∀ type, type.behindSugar? = none → P type)
    (sugar : ∀ type inner, type.behindSugar? = some inner → P inner → P type) (type : Ty) : P type := by
  induction type using layers_induction with
  | layer type ih =>
    cases behind : type.behindSugar? with
    | none => exact own type behind
    | some inner => exact sugar type inner behind (ih inner (underLayer?_of_behindSugar? behind))

theorem mem_parts_of_behindSugar? {type inner : Ty} (behind : type.behindSugar? = some inner) :
    inner ∈ type.parts := by
  unfold behindSugar? at behind
  split at behind <;> cases behind <;> simp [parts]

section Looking

variable (type : Ty)

@[simp] theorem canonical_unsugared : type.unsugared.canonical = type.canonical.unsugared := by
  induction type using layers_induction with
  | layer type ih =>
    cases type with
    | typedef _ _ _ inner alignment => cases alignment <;> exact ih inner rfl
    | elaborated _ inner => exact ih inner rfl
    | _ => rfl

@[simp] theorem isFunction_unsugared_canonical :
    type.canonical.unsugared.isFunction = type.canonical.isFunction := by
  have plain := type.isSugar_canonical
  cases found : type.canonical with
  | typedef | elaborated => simp [found, isSugar] at plain
  | _ => rfl

@[simp] theorem asRecord?_unsugared : type.unsugared.asRecord? = type.asRecord? := by
  induction type using layers_induction with
  | layer type ih =>
    cases type with
    | typedef _ _ _ inner alignment => cases alignment <;> exact ih inner rfl
    | elaborated _ inner => exact ih inner rfl
    | _ => rfl

@[simp] theorem baseElement_unsugared : type.unsugared.baseElement = type.baseElement.unsugared := by
  induction type using layers_induction with
  | layer type ih =>
    cases type with
    | typedef _ _ _ inner alignment => cases alignment <;> exact ih inner rfl
    | elaborated _ inner | array _ inner | incompleteArray _ inner | variableArray _ inner
    | dependentArray _ inner => exact ih inner rfl
    | _ => rfl

@[simp] theorem constantLengths_unsugared : type.unsugared.constantLengths = type.constantLengths := by
  induction type using layers_induction with
  | layer type ih =>
    cases type with
    | typedef _ _ _ inner alignment => cases alignment <;> exact ih inner rfl
    | elaborated _ inner => exact ih inner rfl
    | array _ inner count => exact congrArg (count :: ·) (ih inner rfl)
    | _ => rfl

@[simp] theorem constantArrayRecord?_unsugared :
    type.unsugared.constantArrayRecord? = type.constantArrayRecord? := by
  induction type using layers_induction with
  | layer type ih =>
    cases type with
    | typedef _ _ _ inner alignment => cases alignment <;> exact ih inner rfl
    | elaborated _ inner | array _ inner => exact ih inner rfl
    | _ => rfl

@[simp] theorem isPodWith_unsugared (record : RecordId → Bool) :
    type.unsugared.isPodWith record = type.isPodWith record := by
  simp only [isPodWith, baseElement_unsugared]
  have plain := type.isSugar_baseElement
  cases found : type.baseElement with
  | typedef | elaborated => simp [found, isSugar] at plain
  | _ => rfl

end Looking

end Ty

def Field.unsugared (field : Field) : Field := { field with type := field.type.unsugared }

namespace Field

variable (field : Field)

@[simp] theorem type_unsugared : field.unsugared.type = field.type.unsugared := rfl

@[simp] theorem name_unsugared : field.unsugared.name = field.name := rfl

@[simp] theorem bitWidth_unsugared : field.unsugared.bitWidth = field.bitWidth := rfl

@[simp] theorem access_unsugared : field.unsugared.access = field.access := rfl

-- What conditions depend on is proved by cases: as a definitional equality it would be rewritten in a
-- condition but not in the instance that decides it.
@[simp] theorem isPacked_unsugared : field.unsugared.isPacked = field.isPacked := by
  cases field; rfl

@[simp] theorem alignment_unsugared : field.unsugared.alignment = field.alignment := rfl

@[simp] theorem isBitField_unsugared : field.unsugared.isBitField = field.isBitField := by
  cases field; rfl

@[simp] theorem isUnnamed_unsugared : field.unsugared.isUnnamed = field.isUnnamed := by
  cases field; rfl

end Field

def Definition.unsugared (definition : Definition) : Definition :=
  { definition with fields := definition.fields.map Field.unsugared }

/-- The record with its own type at no position in particular. -/
def Record.unsugared (record : Record) : Record :=
  { record with typeId := ⟨0⟩, definition := record.definition.map Definition.unsugared }

namespace Record

variable (record : Record)

@[simp] theorem fields_unsugared :
    record.unsugared.fields = record.fields.map Field.unsugared := by
  cases record with
  | mk name kind typeId definition => cases definition <;> rfl

@[simp] theorem asClass?_unsugared : record.unsugared.asClass? = record.asClass? := by
  cases record with
  | mk name kind typeId definition => cases definition <;> rfl

@[simp] theorem attributes_unsugared : record.unsugared.attributes = record.attributes := by
  cases record with
  | mk name kind typeId definition => cases definition <;> rfl

@[simp] theorem isDefined_unsugared : record.unsugared.isDefined = record.isDefined := by
  simp [unsugared, isDefined]

@[simp] theorem isClass_unsugared : record.unsugared.isClass = record.isClass := by simp [isClass]

@[simp] theorem bases_unsugared : record.unsugared.bases = record.bases := by simp [bases]

@[simp] theorem nonVirtualBases_unsugared :
    record.unsugared.nonVirtualBases = record.nonVirtualBases := by simp [nonVirtualBases]

@[simp] theorem methods_unsugared : record.unsugared.methods = record.methods := by simp [methods]

@[simp] theorem isUnion_unsugared : record.unsugared.isUnion = record.isUnion := rfl

@[simp] theorem friendlyName_unsugared : record.unsugared.friendlyName = record.friendlyName := rfl

@[simp] theorem isInvalid_unsugared : record.unsugared.isInvalid = record.isInvalid := rfl

@[simp] theorem isDependent_unsugared : record.unsugared.isDependent = record.isDependent := rfl

end Record

/-- The tree with records alone, and with the methods that these declare. -/
def Tree.unsugared (tree : Tree) : Tree where
  records := ⟨tree.records.items.map Record.unsugared⟩
  methods := tree.methods

namespace Tree

variable (tree : Tree)

@[simp] theorem size_unsugared : tree.unsugared.records.size = tree.records.size := by
  simp [unsugared, Arena.size]

@[simp] theorem record_unsugared (r : RecordId) :
    tree.unsugared.record r = (tree.record r).unsugared := by
  simp only [record, unsugared, Arena.getD, Arena.get?, Array.getElem?_map]
  cases tree.records.items[r.position]? <;> rfl

@[simp] theorem method_unsugared (m : MethodId) : tree.unsugared.method m = tree.method m := by
  cases tree; rfl

@[simp] theorem methodsOf_unsugared (r : RecordId) : tree.unsugared.methodsOf r = tree.methodsOf r := by
  simp [methodsOf]

/-- A descent whose steps are the same with and without sugar is the same. -/
theorem descend_unsugared {cut : α} {step step' : (RecordId → α) → RecordId → α}
    (same : ∀ below r, step below r = step' below r) :
    tree.unsugared.descend cut step = tree.descend cut step' := by
  have same : step = step' := funext fun below => funext (same below)
  rw [descend, descend, size_unsugared, same]

section Classes

variable (r : RecordId)

@[simp] theorem isEmptyClass_unsugared : tree.unsugared.isEmptyClass r = tree.isEmptyClass r :=
  congrFun (tree.descend_unsugared fun _ _ => by simp [Function.comp_def]) r

@[simp] theorem isPolymorphic_unsugared : tree.unsugared.isPolymorphic r = tree.isPolymorphic r :=
  congrFun (tree.descend_unsugared fun _ _ => by simp) r

@[simp] theorem virtualBases_unsugared : tree.unsugared.virtualBases r = tree.virtualBases r :=
  congrFun (tree.descend_unsugared fun _ _ => by simp) r

@[simp] theorem hasVirtualBases_unsugared :
    tree.unsugared.hasVirtualBases r = tree.hasVirtualBases r := by simp [hasVirtualBases]

@[simp] theorem isDynamic_unsugared : tree.unsugared.isDynamic r = tree.isDynamic r := by
  simp [isDynamic]

@[simp] theorem hasUserDeclared_unsugared (kind : MethodKind) :
    tree.unsugared.hasUserDeclared r kind = tree.hasUserDeclared r kind := by
  simp [hasUserDeclared]

@[simp] theorem declaresConstructorOrDestructor_unsugared :
    tree.unsugared.declaresConstructorOrDestructor r = tree.declaresConstructorOrDestructor r := by
  simp [declaresConstructorOrDestructor]

@[simp] theorem hasFieldsInHierarchy_unsugared :
    tree.unsugared.hasFieldsInHierarchy r = tree.hasFieldsInHierarchy r :=
  congrFun (tree.descend_unsugared fun _ _ => by simp) r

@[simp] theorem usesMultipleInheritance_unsugared :
    tree.unsugared.usesMultipleInheritance r = tree.usesMultipleInheritance r :=
  congrFun (tree.descend_unsugared fun _ _ => by simp) r

@[simp] theorem inheritanceModel_unsugared :
    tree.unsugared.inheritanceModel r = tree.inheritanceModel r := by simp [inheritanceModel]

@[simp] theorem isPod_unsugared : tree.unsugared.isPod r = tree.isPod r :=
  congrFun (tree.descend_unsugared fun _ _ => by
    simp [Function.comp_def]) r

@[simp] theorem isTrivial_unsugared : tree.unsugared.isTrivial r = tree.isTrivial r :=
  congrFun (tree.descend_unsugared fun _ _ => by simp [Function.comp_def]) r

@[simp] theorem hasUniformAccess_unsugared (fields : List Field) :
    hasUniformAccess (fields.map Field.unsugared) = hasUniformAccess fields := by
  cases fields <;> simp [hasUniformAccess, Function.comp_def]

@[simp] theorem isNonstandardField_unsugared (record : RecordId → Bool) (field : Field) :
    isNonstandardField record field.unsugared = isNonstandardField record field := by
  simp only [isNonstandardField, Field.type_unsugared, Ty.baseElement_unsugared]
  have plain := field.type.isSugar_baseElement
  cases found : field.type.baseElement with
  | typedef | elaborated => simp [found, Ty.isSugar] at plain
  | _ => rfl

@[simp] theorem keepsFieldsTogether_unsugared :
    tree.unsugared.keepsFieldsTogether r = tree.keepsFieldsTogether r := by
  simp [keepsFieldsTogether]

@[simp] theorem firstFieldIsNoBase_unsugared :
    tree.unsugared.firstFieldIsNoBase r = tree.firstFieldIsNoBase r := by
  simp only [firstFieldIsNoBase, record_unsugared, Record.fields_unsugared, Record.bases_unsugared]
  cases (tree.record r).fields <;> simp

@[simp] theorem isStandardLayout_unsugared :
    tree.unsugared.isStandardLayout r = tree.isStandardLayout r :=
  congrFun (tree.descend_unsugared fun _ _ => by
    simp [Function.comp_def]) r

@[simp] theorem isTrivialStandardLayout_unsugared :
    tree.unsugared.isTrivialStandardLayout r = tree.isTrivialStandardLayout r := by
  simp [isTrivialStandardLayout]

end Classes

end Tree

/-- The setting with its declarations without sugar. -/
def Setting.unsugared (s : Setting) : Setting := { s with tree := s.tree.unsugared }

namespace Setting

variable (s : Setting)

@[simp] theorem tree_unsugared : s.unsugared.tree = s.tree.unsugared := rfl

@[simp] theorem target_unsugared : s.unsugared.target = s.target := by
  cases s; rfl

@[simp] theorem options_unsugared : s.unsugared.options = s.options := by
  cases s; rfl

@[simp] theorem usesMicrosoftLayout_unsugared :
    s.unsugared.usesMicrosoftLayout = s.usesMicrosoftLayout := by
  cases s; rfl

@[simp] theorem suppliedLayout?_unsugared (r : RecordId) :
    s.unsugared.suppliedLayout? r = s.suppliedLayout? r := rfl

end Setting

end ObjectLayout
