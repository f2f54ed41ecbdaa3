import ObjectLayout.Proofs.Alignment
import ObjectLayout.Proofs.Enclosure

/-! Plain data: records that are no classes, whose fields ask for nothing beyond what their types bring.
The ABI does not matter for the layout of a type, unless a part of it is a member pointer or a record
that is laid out differently. -/
namespace ObjectLayout

open LayoutM (eval_bind_eq_ok)

/-- The setting, but for the ABI that is in force. -/
def Setting.under (s : Setting) (abi : Abi) : Setting :=
  { s with target := { s.target with forcedAbi := some abi } }

/-- No part of the type is a member pointer, which each ABI represents in its own way. -/
def Ty.avoidsMemberPointers : Ty → Bool
  | .typedef _ _ _ inner _ | .elaborated _ inner | .array _ inner _ | .incompleteArray _ inner
  | .variableArray _ inner | .dependentArray _ inner | .vector _ inner _ | .complex _ inner
  | .enumeration _ _ _ inner => inner.avoidsMemberPointers
  | .memberPointer .. => false
  | _ => true

/-- A record that is no class, without bit-fields and without attributes on it, its fields and the
typedefs in their types. -/
structure Record.IsPlainData (record : Record) : Prop where
  isPlain : record.isClass = false
  attributes : record.attributes = {}
  stored : ∀ field ∈ record.fields, field.bitWidth = none
  unpacked : ∀ field ∈ record.fields, field.isPacked = false
  unasked : ∀ field ∈ record.fields, field.alignment = none
  keepsAlignment : ∀ field ∈ record.fields, field.type.keepsAlignment = true
  avoidsMemberPointers : ∀ field ∈ record.fields, field.type.avoidsMemberPointers = true

theorem Record.isPlainData_iff {record : Record} : record.IsPlainData ↔
    record.isClass = false ∧ record.attributes = {} ∧
    (∀ field ∈ record.fields, field.bitWidth = none) ∧
    (∀ field ∈ record.fields, field.isPacked = false) ∧
    (∀ field ∈ record.fields, field.alignment = none) ∧
    (∀ field ∈ record.fields, field.type.keepsAlignment = true) ∧
    ∀ field ∈ record.fields, field.type.avoidsMemberPointers = true :=
  ⟨fun ⟨h₁, h₂, h₃, h₄, h₅, h₆, h₇⟩ => ⟨h₁, h₂, h₃, h₄, h₅, h₆, h₇⟩,
    fun ⟨h₁, h₂, h₃, h₄, h₅, h₆, h₇⟩ => ⟨h₁, h₂, h₃, h₄, h₅, h₆, h₇⟩⟩

instance (record : Record) : Decidable record.IsPlainData :=
  decidable_of_iff _ Record.isPlainData_iff.symm

/-- A type with no rules of its own in any ABI, as long as the record in it is a good one. -/
structure Ty.IsPlainData (good : RecordId → Prop) (type : Ty) : Prop where
  keepsAlignment : type.keepsAlignment = true
  avoidsMemberPointers : type.avoidsMemberPointers = true
  enclosed : ∀ m, type.enclosedRecord? = some m → good m

/-- What is known on the one side of good records and of their types is what is known on the other. -/
structure Known.Alike (good : RecordId → Prop) (known known' : Known) : Prop where
  record : ∀ r layout layout', good r → known.record r = .ok layout →
    known'.record r = .ok layout' → layout.size = layout'.size ∧
      layout.alignment = layout'.alignment ∧ layout.fieldOffsets = layout'.fieldOffsets
  type : ∀ type layout layout', type.IsPlainData good → known.type type = .ok layout →
    known'.type type = .ok layout' → layout = layout'

/-- In one setting what is known at some depth is what is known at any other. -/
theorem Setting.known_alike (s : Setting) (good : RecordId → Prop) (depth depth' : Nat) :
    (s.known depth).Alike good (s.known depth') := by
  have left := s.known_le (Nat.le_max_left depth depth')
  have right := s.known_le (Nat.le_max_right depth depth')
  constructor
  case record =>
    intro r layout layout' _ laid laid'
    cases (left.record r layout laid).symm.trans (right.record r layout' laid')
    exact ⟨rfl, rfl, rfl⟩
  case type =>
    intro type layout layout' _ laid laid'
    cases (left.type type layout laid).symm.trans (right.type type layout' laid')
    rfl

theorem Ty.IsPlainData.canonical {good : RecordId → Prop} {type : Ty} (h : type.IsPlainData good) :
    type.canonical.IsPlainData good := by
  fun_induction Ty.canonical type with
  | case1 id declaration name aliased alignment ih =>
    have keeps : alignment = none ∧ aliased.keepsAlignment = true := by
      simpa [Ty.keepsAlignment] using h.keepsAlignment
    exact ih ⟨keeps.2, h.avoidsMemberPointers, h.enclosed⟩
  | case2 id inner ih => exact ih ⟨h.keepsAlignment, h.avoidsMemberPointers, h.enclosed⟩
  | case3 => exact h

variable {s : Setting} {abi abi' : Abi} {good : RecordId → Prop} {known known' : Known} {type : Ty}

/-- The layout of a type under one ABI is that under another if its parts are laid out alike. -/
theorem TypeLayout.ofTy_alike (alike : known.Alike good known') (plain : type.IsPlainData good)
    {layout layout' : TypeLayout} (laid : (ofTy (s.under abi) type).eval known = .ok layout)
    (laid' : (ofTy (s.under abi') type).eval known' = .ok layout') : layout = layout' := by
  have same (part : Ty) (plain : part.IsPlainData good) {inner inner' : TypeLayout}
      (laid : (LayoutM.typeLayoutOf part).eval known = .ok inner)
      (laid' : (LayoutM.typeLayoutOf part).eval known' = .ok inner') : inner = inner' := by
    rw [LayoutM.eval_typeLayoutOf] at laid laid'
    exact alike.type part inner inner' plain laid laid'
  have repeated (part : Ty) (plain : part.IsPlainData good) {count : Nat}
      (laid : (do
        let element ← LayoutM.typeLayoutOf part
        return { element with width := ← Quantity.mul element.width count } :
          LayoutM TypeLayout).eval known = .ok layout)
      (laid' : (do
        let element ← LayoutM.typeLayoutOf part
        return { element with width := ← Quantity.mul element.width count } :
          LayoutM TypeLayout).eval known' = .ok layout') : layout = layout' := by
    obtain ⟨inner, asked, laid⟩ := eval_bind_eq_ok.mp laid
    obtain ⟨inner', asked', laid'⟩ := eval_bind_eq_ok.mp laid'
    cases same part plain asked asked'
    obtain ⟨width, product, laid⟩ := eval_bind_eq_ok.mp laid
    obtain ⟨width', product', laid'⟩ := eval_bind_eq_ok.mp laid'
    rw [LayoutM.eval_lift] at product product'
    cases product.symm.trans product'
    exact Except.ok.inj (laid.symm.trans laid')
  cases type with
  | scalar | pointer | blockPointer | lvalueReference | rvalueReference | function =>
    exact Except.ok.inj (laid.symm.trans laid')
  | array id element count => exact repeated element ⟨plain.1, plain.2, plain.3⟩ laid laid'
  | complex id element => exact repeated element ⟨plain.1, plain.2, plain.3⟩ laid laid'
  | incompleteArray id element | variableArray id element =>
    obtain ⟨inner, asked, laid⟩ := eval_bind_eq_ok.mp laid
    obtain ⟨inner', asked', laid'⟩ := eval_bind_eq_ok.mp laid'
    cases same element ⟨plain.1, plain.2, plain.3⟩ asked asked'
    exact Except.ok.inj (laid.symm.trans laid')
  | vector id element count =>
    obtain ⟨inner, asked, laid⟩ := eval_bind_eq_ok.mp laid
    obtain ⟨inner', asked', laid'⟩ := eval_bind_eq_ok.mp laid'
    cases same element ⟨plain.1, plain.2, plain.3⟩ asked asked'
    rw [LayoutM.eval_lift] at laid laid'
    exact Except.ok.inj (laid.symm.trans laid')
  | record id r =>
    obtain ⟨inner, asked, laid⟩ := eval_bind_eq_ok.mp laid
    obtain ⟨inner', asked', laid'⟩ := eval_bind_eq_ok.mp laid'
    rw [LayoutM.eval_layoutOf] at asked asked'
    obtain ⟨size, alignment, _⟩ := alike.record r inner inner' (plain.enclosed r rfl) asked asked'
    cases laid
    cases laid'
    rw [ofRecord, ofRecord, size, alignment]
    rfl
  | enumeration id declaration name part | elaborated id part =>
    exact same part ⟨plain.1, plain.2, plain.3⟩ laid laid'
  | typedef id declaration name aliased alignment =>
    obtain ⟨rfl, keeps⟩ : alignment = none ∧ aliased.keepsAlignment = true := by
      simpa [Ty.keepsAlignment] using plain.keepsAlignment
    obtain ⟨inner, asked, laid⟩ := eval_bind_eq_ok.mp laid
    obtain ⟨inner', asked', laid'⟩ := eval_bind_eq_ok.mp laid'
    cases same aliased ⟨keeps, plain.2, plain.3⟩ asked asked'
    exact Except.ok.inj (laid.symm.trans laid')
  | memberPointer => exact absurd plain.avoidsMemberPointers Bool.false_ne_true
  | openEnumeration | dependentArray | templateParam | unresolved => cases laid

/-- A name for a type that asks for no alignment is laid out as the type is. -/
theorem Known.laid_canonical (types : ∀ {type layout}, known.type type = .ok layout →
      (TypeLayout.ofTy s type).eval known = .ok layout) (keeps : type.keepsAlignment = true)
    {layout : TypeLayout} (laid : known.type type = .ok layout) :
    (TypeLayout.ofTy s type.canonical).eval known = .ok layout := by
  fun_induction Ty.canonical type with
  | case1 id declaration name aliased alignment ih =>
    obtain ⟨rfl, keeps⟩ : alignment = none ∧ aliased.keepsAlignment = true := by
      simpa [Ty.keepsAlignment] using keeps
    obtain ⟨inner, asked, rules⟩ := eval_bind_eq_ok.mp (types laid)
    rw [LayoutM.eval_typeLayoutOf] at asked
    cases rules
    exact ih keeps asked
  | case2 id inner ih =>
    have asked : (LayoutM.typeLayoutOf inner).eval known = .ok layout := types laid
    rw [LayoutM.eval_typeLayoutOf] at asked
    exact ih keeps asked
  | case3 => exact types laid

/-- What a field takes under the Itanium rules is what its type takes on the other side. -/
theorem Itanium.fieldExtent_alike {f : Itanium.Frame} (setting : f.setting = s.under abi)
    (notMs : f.isMsStruct = false) (alike : known.Alike good known') (plain : type.IsPlainData good)
    (types : ∀ {type layout}, known'.type type = .ok layout →
      (TypeLayout.ofTy (s.under abi') type).eval known' = .ok layout)
    {layout : TypeLayout} (laid : known'.type type = .ok layout) {extent : Bytes × Bytes}
    (done : (fieldExtent f type).eval known = .ok extent) :
    extent = (layout.width, layout.alignment) := by
  have rules := Known.laid_canonical types plain.keepsAlignment laid
  unfold fieldExtent at done
  split at done
  case h_1 id element canonical =>
    have part := plain.canonical
    rw [canonical] at rules part
    obtain ⟨inner, asked, done⟩ := eval_bind_eq_ok.mp done
    obtain ⟨inner', asked', rules⟩ := eval_bind_eq_ok.mp rules
    rw [LayoutM.eval_typeLayoutOf] at asked asked'
    cases alike.type element inner inner' ⟨part.1, part.2, part.3⟩ asked asked'
    cases rules
    cases done
    rfl
  case h_2 canonical | h_3 canonical =>
    rw [canonical] at rules
    cases rules
    cases done
    rw [Frame.target, setting]
    rfl
  case h_4 =>
    obtain ⟨found, asked, done⟩ := eval_bind_eq_ok.mp done
    rw [LayoutM.eval_typeLayoutOf] at asked
    cases alike.type type found layout plain asked laid
    cases done
    have floor : fieldExtent.scalarFloor f type = 0 := by
      rw [fieldExtent.scalarFloor, notMs]
      rfl
    rw [floor, Nat.max_zero]

end ObjectLayout
