import ObjectLayout.Itanium.Layout
import ObjectLayout.Microsoft.Layout
import ObjectLayout.TypeLayout.OfTy

/-! The layout of a record under the rules that the setting calls for. -/
namespace ObjectLayout

namespace RecordLayout

/-- A record can be laid out if it is defined, valid and not dependent. -/
def ensureComplete (record : Record) : Checked Unit := do
  ensure record.isDefined (.undefinedRecord record.friendlyName)
  ensure (!record.isInvalid) (.invalidRecord record.friendlyName)
  ensure (!record.isDependent) (.dependentRecord record.friendlyName)

def byRules (s : Setting) (r : RecordId) : LayoutM RecordLayout := do
  let name := (s.tree.record r).friendlyName
  if s.usesMicrosoftLayout then
    LayoutM.log (.usingMicrosoftRules name)
    Microsoft.layout s r
  else
    let supplied := s.suppliedLayout? r
    if supplied.isSome then LayoutM.log (.usingSuppliedLayout name)
    Itanium.layout s r supplied

def ofRecord (s : Setting) (r : RecordId) : LayoutM RecordLayout := do
  let record := s.tree.record r
  ensureComplete record
  LayoutM.log (.computing record.friendlyName)
  let layout ← byRules s r
  LayoutM.log (.computed record.friendlyName layout.size layout.alignment)
  return layout

end RecordLayout

/-- The layouts that the records and types of a setting have, worked out anew wherever they are
asked for, to the given depth. -/
def Setting.known (s : Setting) : Nat → Known
  | 0 => ⟨fun _ => .error .endless, fun _ => .error .endless⟩
  | depth + 1 =>
    { record := fun r => (RecordLayout.ofRecord s r).eval (s.known depth)
      type := fun type => (TypeLayout.ofTy s type).eval (s.known depth) }

/-- No layout of an acyclic tree needs those of others to a greater depth: every step down is to
another record, or to a part of a type. -/
def Setting.depth (s : Setting) : Nat := s.tree.records.size + s.tree.typeCount + 1

end ObjectLayout
