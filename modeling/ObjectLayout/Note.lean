import ObjectLayout.Decl.Ty
import ObjectLayout.Warning

/-! What a layout computation tells the world on its way: warnings, events for the log, and how its
questions about empty subobjects were answered. -/
namespace ObjectLayout

/-- The levels of the log, quietest first. -/
inductive LogLevel where
  | error
  | info
  | debug
  | trace
  deriving DecidableEq, Repr

namespace LogLevel

def name : LogLevel → String
  | .error => "error"
  | .info => "info"
  | .debug => "debug"
  | .trace => "trace"

def ofName? (text : String) : Option LogLevel :=
  [error, info, debug, trace].find? (·.name == text)

def verbosity : LogLevel → Nat
  | .error => 0
  | .info => 1
  | .debug => 2
  | .trace => 3

/-- Whether a log that goes up to the first level, if it is on at all, shows the second. -/
def shows (upTo : Option LogLevel) (level : LogLevel) : Bool :=
  upTo.any fun upTo => decide (level.verbosity ≤ upTo.verbosity)

end LogLevel

inductive Event where
  | computing (record : String)
  | usingMicrosoftRules (record : String)
  | usingSuppliedLayout (record : String)
  | computed (record : String) (size alignment : Bytes)
  | dumped (text : String)
  | unclearField (field : String) (meanings : Nat) (record : String)
  deriving DecidableEq, Repr

namespace Event

def level : Event → LogLevel
  | .computing .. | .computed .. => .trace
  | .usingMicrosoftRules .. | .usingSuppliedLayout .. | .unclearField .. => .debug
  | .dumped .. => .info

def text : Event → String
  | .computing record => "computing record layout of " ++ record
  | .usingMicrosoftRules record => "using Microsoft record layout for " ++ record
  | .usingSuppliedLayout record => "using external record layout for " ++ record
  | .computed record size alignment =>
    "computed record layout of " ++ record ++ " (size " ++ toString size ++ ", alignment "
      ++ toString alignment ++ ")"
  | .dumped text => "\n*** Dumping AST Record Layout\n" ++ text
  | .unclearField field meanings record =>
    "'" ++ field ++ "' names " ++ toString meanings ++ " members of " ++ record
      ++ ", expected a single field"

def line (event : Event) : String := event.level.name ++ ": " ++ event.text

end Event

/-- Something to be placed at an offset: an occurrence of a base, or a field of a type. -/
inductive Placement where
  | base (occurrence : Idx .subobject) (offset : Bytes)
  | field (type : Ty) (offset : Bytes)

inductive Note where
  | warning (warning : Warning)
  | event (event : Event)
  /-- Whether a placement was found to meet no other empty subobject. Nothing of it is shown. -/
  | answered (question : Placement) (isFree : Bool)

end ObjectLayout
