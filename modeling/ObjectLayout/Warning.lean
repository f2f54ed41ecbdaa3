import ObjectLayout.Quantity

/-! What a layout computation remarks on without changing its result, the flags that say which
remarks are wanted, and the collection that keeps them in order. -/
namespace ObjectLayout

/-- An amount of padding, in bytes when it is a whole number of them and in bits otherwise. -/
structure Padding where
  amount : Nat
  inBits : Bool
  deriving DecidableEq, Repr

namespace Padding

def ofBits (bits : Bits) : Padding :=
  if bits.isWholeBytes then ⟨bits.toBytesFloor, false⟩ else ⟨bits, true⟩

def toBits (padding : Padding) : Bits :=
  if padding.inBits then padding.amount else padding.amount * Quantity.bitsPerByte

def isPlural (padding : Padding) : Bool := padding.amount > 1

def text (padding : Padding) : String :=
  toString padding.amount ++ (if padding.inBits then " bit" else " byte")
    ++ (if padding.isPlural then "s" else "")

theorem toBits_ofBits (bits : Bits) : (ofBits bits).toBits = bits := by
  unfold ofBits toBits
  split <;> rename_i whole
  · simp only [Bits.isWholeBytes, beq_iff_eq] at whole
    exact Nat.div_mul_cancel (Nat.dvd_of_mod_eq_zero whole)
  · rfl

end Padding

inductive Remark where
  | paddedField (field : Option String) (index : Nat) (padding : Padding)
  | paddedSize (padding : Padding)
  | unnecessaryPackedField (field : Option String) (index : Nat)
  | unnecessaryPackedRecord
  deriving DecidableEq, Repr

structure Warning where
  /-- The record in question, as in `struct S`. -/
  record : String
  remark : Remark
  deriving DecidableEq, Repr

def Warning.text (warning : Warning) : String :=
  let quoted (name : String) := "'" ++ name ++ "'"
  let record := quoted warning.record
  match warning.remark with
  | .paddedField (some field) _ padding =>
    "padding " ++ record ++ " with " ++ padding.text ++ " to align " ++ quoted field
  | .paddedField none _ padding =>
    "padding " ++ record ++ " with " ++ padding.text ++ " to align anonymous bit-field"
  | .paddedSize padding =>
    "padding size of " ++ record ++ " with " ++ padding.text ++ " to alignment boundary"
  | .unnecessaryPackedField (some field) _ =>
    "packed attribute is unnecessary for " ++ quoted field
  | .unnecessaryPackedField none index =>
    "packed attribute is unnecessary for field " ++ toString index ++ " of " ++ record
  | .unnecessaryPackedRecord => "packed attribute is unnecessary for " ++ record

/-- One line of a report: the subject, if there is one, then the message, with the word that marks
a warning in bold yellow on request. -/
def warningLine (subject : Option String) (message : String) (color : Bool) : String :=
  let mark := if color then "\x1b[1;33mwarning:\x1b[0m" else "warning:"
  (subject.elim "" (· ++ ": ")) ++ mark ++ " " ++ message

structure WarningFlags where
  /-- Warnings go straight to the user and none is kept. -/
  printOnly : Bool := false
  padded : Bool := false
  packed : Bool := false
  deriving DecidableEq, Repr

namespace WarningFlags

def all : WarningFlags := { padded := true, packed := true }

def wants (flags : WarningFlags) : Remark → Bool
  | .paddedField .. | .paddedSize .. => flags.padded
  | .unnecessaryPackedField .. | .unnecessaryPackedRecord => flags.packed

def text (flags : WarningFlags) : String :=
  let field (name : String) (value : Bool) := name ++ ": " ++ (if value then "true" else "false")
  "DiagnosticFlags \x7b " ++ ", ".intercalate
    [field "print_without_collecting" flags.printOnly, field "warn_padded" flags.padded,
      field "warn_packed" flags.packed] ++ " \x7d"

end WarningFlags

/-- The warnings collected so far, oldest first. -/
structure Diagnostics where
  flags : WarningFlags := {}
  collected : Array Warning := #[]

namespace Diagnostics

/-- Keeps a warning whatever its kind, unless warnings are only printed. -/
def push (diagnostics : Diagnostics) (warning : Warning) : Diagnostics :=
  if diagnostics.flags.printOnly then diagnostics
  else { diagnostics with collected := diagnostics.collected.push warning }

/-- Keeps a warning of a kind that the flags ask for. -/
def report (diagnostics : Diagnostics) (warning : Warning) : Diagnostics :=
  if diagnostics.flags.wants warning.remark then diagnostics.push warning else diagnostics

def size (diagnostics : Diagnostics) : Nat := diagnostics.collected.size

def text (diagnostics : Diagnostics) : String :=
  "Diagnostics \x7b flags: " ++ diagnostics.flags.text ++ ", len: " ++ toString diagnostics.size
    ++ ", .. \x7d"

end Diagnostics

end ObjectLayout
