/-! Why a layout computation stops without an answer. Faults are causes: the wording of a broken
condition lives in `Breach.message` alone, and quantities that leave the 64-bit range keep apart
the two directions in which they can leave it. -/
namespace ObjectLayout

/-- A condition of the layout rules that the declarations, or a supplied layout, do not meet. -/
inductive Breach where
  | alignToZero
  | alignmentNotPowerOfTwo
  | unionWithBases
  | unionWithVirtualBases
  | vtablePointerNotFirst
  | baseAlreadyInGraph
  | baseMissingFromGraph
  | virtualBaseMissingFromGraph
  | primaryBaseMissingFromGraph
  | baseAlreadyPlaced
  | virtualBaseAlreadyPlaced
  | virtualBaseAlreadyVisited
  | primaryVirtualBaseAlreadyPlaced
  | suppliedBaseOverlaps
  | suppliedFieldOverlaps
  | classLayoutOfPlainRecord
  | notNonVirtualBase
  | notVirtualBase
  | undefinedRecord (name : String)
  | invalidRecord (name : String)
  | dependentRecord (name : String)
  | incompleteEnum (name : String)
  | dependentType (spelling : String)
  | invalidType
  | alreadyDefined (name : String)
  | methodOutsideClass
  deriving DecidableEq, Repr

def Breach.message : Breach → String
  | .alignToZero => "cannot align to zero"
  | .alignmentNotPowerOfTwo => "alignment not a power of 2"
  | .unionWithBases => "unions cannot have base classes"
  | .unionWithVirtualBases => "unions cannot have virtual bases"
  | .vtablePointerNotFirst => "vtable pointer must be at offset zero"
  | .baseAlreadyInGraph => "non-virtual base already exists"
  | .baseMissingFromGraph => "non-virtual base has subobject info"
  | .virtualBaseMissingFromGraph => "virtual base has subobject info"
  | .primaryBaseMissingFromGraph => "primary virtual base was created while visiting bases"
  | .baseAlreadyPlaced => "added same base offset more than once"
  | .virtualBaseAlreadyPlaced => "added same vbase offset more than once"
  | .virtualBaseAlreadyVisited => "virtual base already visited"
  | .primaryVirtualBaseAlreadyPlaced => "primary vbase offset already exists"
  | .suppliedBaseOverlaps => "base subobject externally placed at overlapping offset"
  | .suppliedFieldOverlaps => "externally-placed field cannot be placed here"
  | .classLayoutOfPlainRecord => "C++ layout information requested for a C record"
  | .notNonVirtualBase => "record is not a non-virtual base of this class"
  | .notVirtualBase => "record is not a virtual base of this class"
  | .undefinedRecord name => "cannot lay out forward-declared " ++ name
  | .invalidRecord name => "cannot lay out invalid " ++ name
  | .dependentRecord name => "cannot lay out dependent " ++ name
  | .incompleteEnum name => "cannot compute layout of incomplete enum " ++ name
  | .dependentType spelling => "cannot compute layout of dependent type '" ++ spelling ++ "'"
  | .invalidType => "cannot compute layout of invalid type"
  | .alreadyDefined name => name ++ " is already defined"
  | .methodOutsideClass => "methods can only be added to defined C++ records"

inductive Fault where
  /-- A sum, product or rounded-up quantity needs more than 64 bits. -/
  | overflow
  /-- A difference is below zero. -/
  | underflow
  /-- A position past the end of a list. -/
  | outOfRange
  | breach (cause : Breach)
  /-- A record contains or inherits itself, so its layout never ends. -/
  | endless
  deriving DecidableEq, Repr

abbrev Checked := Except Fault

/-- Stops with `cause` unless `condition` holds. -/
def ensure {m : Type → Type} [Monad m] [MonadExceptOf Fault m] (condition : Bool) (cause : Breach) :
    m Unit :=
  if condition then pure () else throw (.breach cause)

end ObjectLayout
