import ObjectLayout.Decl.Spelling
import ObjectLayout.LayoutM
import ObjectLayout.Setting

/-! Layouts as text. A class is shown as a tree of its subobjects, one line each, with a summary of
sizes after every complete object; other records, and any record on request, as a short list. -/
namespace ObjectLayout

open LayoutM (layoutOf)

namespace Dump

/-- The sizes shown after a complete object. The Microsoft rules know no size without padding. -/
structure Sizes where
  size : Bytes
  dataSize : Option Bytes
  alignment : Bytes
  nonVirtualSize : Bytes
  nonVirtualAlignment : Bytes
  deriving DecidableEq, Repr

inductive Content where
  | subobject (record : RecordId) (spelling : String) (role : Option String) (isEmpty : Bool)
  | vtablePointer (owner : String)
  | vftablePointer (owner : String)
  | vbtablePointer (owner : String)
  | field (type : String) (name : String)
  | vtordisp (base : String)
  deriving DecidableEq, Repr

inductive Line where
  | at (offset : Bytes) (indent : Nat) (content : Content)
  | sizes (indent : Nat) (totals : Sizes)
  deriving DecidableEq, Repr

def Content.text : Content → String
  | .subobject _ spelling role isEmpty =>
    spelling ++ role.elim "" (" " ++ ·) ++ (if isEmpty then " (empty)" else "")
  | .vtablePointer owner => "(" ++ owner ++ " vtable pointer)"
  | .vftablePointer owner => "(" ++ owner ++ " vftable pointer)"
  | .vbtablePointer owner => "(" ++ owner ++ " vbtable pointer)"
  | .field type name => type ++ " " ++ name
  | .vtordisp base => "(vtordisp for vbase " ++ base ++ ")"

def blanks (count : Nat) : String := String.ofList (List.replicate count ' ')

/-- A number in at least four columns. -/
def column (offset : Bytes) : String :=
  let digits := toString offset
  blanks (4 - digits.length) ++ digits

def Line.text : Line → String
  | .at offset indent content =>
    column offset ++ " | " ++ blanks (2 * indent) ++ content.text ++ "\n"
  | .sizes indent totals =>
    let margin := blanks 4 ++ " | " ++ blanks (2 * indent)
    margin ++ "[sizeof=" ++ toString totals.size
      ++ totals.dataSize.elim "" (", dsize=" ++ toString ·)
      ++ ", align=" ++ toString totals.alignment ++ "\n"
    ++ margin ++ " nvsize=" ++ toString totals.nonVirtualSize
      ++ ", nvalign=" ++ toString totals.nonVirtualAlignment ++ "]\n\n"

variable (s : Setting)

/-- Shows a record at an offset and indent, in a role, with its virtual bases or without. -/
abbrev Dumper := RecordId → Bytes → Nat → Option String → Bool → LayoutM (List Line)

def headLine (r : RecordId) (offset : Bytes) (indent : Nat) (role : Option String) : Line :=
  .at offset indent (.subobject r (s.tree.record r).spelling role (s.tree.isEmptyClass r))

def tablePointerLines (r : RecordId) (layout : RecordLayout) (offset : Bytes) (indent : Nat) :
    List Line :=
  let owner := (s.tree.record r).shortName
  if s.tree.isDynamic r && layout.primaryBase?.isNone && !s.usesMicrosoftLayout then
    [.at offset indent (.vtablePointer owner)]
  else if layout.hasOwnVfptr then [.at offset indent (.vftablePointer owner)]
  else []

def vbptrLines (r : RecordId) (layout : RecordLayout) (offset : Bytes) (indent : Nat) :
    Checked (List Line) := do
  match layout.vbptr? with
  | some ⟨inner, none⟩ =>
    return [.at (← Quantity.add offset inner) indent
      (.vbtablePointer (s.tree.record r).shortName)]
  | _ => return []

def isPrimary (layout : RecordLayout) (base : RecordId) : Bool :=
  layout.primaryBase?.any (·.record == base)

def baseLines (dump : Dumper) (layout : RecordLayout) (offset : Bytes) (indent : Nat)
    (base : Base) : LayoutM (List Line) := do
  let role := if isPrimary layout base.record then "(primary base)" else "(base)"
  let inner ← layout.baseOffset base.record
  dump base.record (← Quantity.add offset inner) indent (some role) false

def fieldLines (dump : Dumper) (layout : RecordLayout) (offset : Bytes) (indent : Nat)
    (entry : Field × Nat) : LayoutM (List Line) := do
  let (field, index) := entry
  let inner := Bits.toBytesFloor (← layout.fieldOffset index)
  let offset ← Quantity.add offset inner
  let name := field.name.getD ""
  match field.type.asRecord?.filter fun r => (s.tree.record r).isClass with
  | some r => dump r offset indent (some name) true
  | none => return [.at offset indent (.field (field.type.spelling s.tree) name)]

def virtualBaseLines (dump : Dumper) (layout : RecordLayout) (offset : Bytes) (indent : Nat)
    (base : RecordId) : LayoutM (List Line) := do
  let slot ← layout.virtualBaseSlot base
  let offset ← Quantity.add offset slot.offset
  let vtordisp ←
    if slot.hasVtordisp then
      pure [Line.at (← Quantity.sub offset 4) indent (.vtordisp (s.tree.record base).shortName)]
    else pure []
  let role := if isPrimary layout base then "(primary virtual base)" else "(virtual base)"
  return vtordisp ++ (← dump base offset indent (some role) false)

def sizesLine (layout : RecordLayout) (indent : Nat) : Checked Line := do
  return .sizes indent {
    size := layout.size
    dataSize := if s.usesMicrosoftLayout then none else some layout.dataSize
    alignment := layout.alignment
    nonVirtualSize := ← layout.nonVirtualSize
    nonVirtualAlignment := ← layout.nonVirtualAlignment }

/-- The lines of several parts, in order. -/
def each (parts : List α) (show? : α → LayoutM (List Line)) : LayoutM (List Line) :=
  parts.foldlM (fun lines part => return lines ++ (← show? part)) []

def subobjectLines : Dumper :=
  s.tree.descend (fun _ _ _ _ => LayoutM.endless) fun dump r offset indent role isComplete => do
    let layout ← layoutOf r
    let record := s.tree.record r
    let inside := indent + 1
    let head := headLine s r offset indent role :: tablePointerLines s r layout offset inside
    let bases ← each record.nonVirtualBases (baseLines dump layout offset inside)
    let vbptr ← vbptrLines s r layout offset inside
    let fields ← each record.fields.zipIdx (fieldLines s dump layout offset inside)
    let own := head ++ bases ++ vbptr ++ fields
    if !isComplete then return own
    let virtualBases ← each (s.tree.virtualBases r) (virtualBaseLines s dump layout offset inside)
    return own ++ virtualBases ++ [← sizesLine s layout indent]

/-- The short form, which shows sizes and offsets in bits. -/
def summary (r : RecordId) : LayoutM String := do
  let layout ← layoutOf r
  let dataSize ←
    if s.usesMicrosoftLayout then pure ""
    else pure ("  DataSize:" ++ toString (← Bytes.toBits layout.dataSize) ++ "\n")
  return "Type: " ++ (s.tree.record r).spelling ++ "\n\nLayout: <ASTRecordLayout\n"
    ++ "  Size:" ++ toString (← Bytes.toBits layout.size) ++ "\n" ++ dataSize
    ++ "  Alignment:" ++ toString (← Bytes.toBits layout.alignment) ++ "\n"
    ++ "  FieldOffsets: [" ++ ", ".intercalate (layout.fieldOffsets.map toString) ++ "]>\n"

end Dump

/-- The layout of a record as text. -/
def dump (s : Setting) (r : RecordId) (simple : Bool) : LayoutM String := do
  if simple || !(s.tree.record r).isClass then Dump.summary s r
  else
    let lines ← Dump.subobjectLines s r 0 0 none true
    return String.join (lines.map Dump.Line.text)

end ObjectLayout
