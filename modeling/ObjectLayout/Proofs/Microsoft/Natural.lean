import ObjectLayout.Proofs.Microsoft.Multiples
import ObjectLayout.Proofs.Microsoft.Vbptr

/-! Natural alignment in one record under the Microsoft rules. Where nothing is packed, bases and fields
are placed at multiples of their alignments, and the alignment at which pointers are pushed in already
counts all of them, so that every later shift is a multiple as well. -/
namespace ObjectLayout

open Quantity (isPowerOfTwo)

variable {s : Setting} {d r m : RecordId}

/-- Nothing in the record is packed, and nothing but powers of two is asked for. -/
structure Record.IsUnpacked (record : Record) : Prop where
  asks : record.AsksForPowers
  notPacked : record.attributes.isPacked = false
  noPack : record.attributes.maxFieldAlignment = none
  fields : ∀ field ∈ record.fields, field.isPacked = false

theorem Record.isUnpacked_iff {record : Record} : record.IsUnpacked ↔ record.AsksForPowers ∧
    record.attributes.isPacked = false ∧ record.attributes.maxFieldAlignment = none ∧
    ∀ field ∈ record.fields, field.isPacked = false :=
  ⟨fun h => ⟨h.asks, h.notPacked, h.noPack, h.fields⟩, fun ⟨h₁, h₂, h₃, h₄⟩ => ⟨h₁, h₂, h₃, h₄⟩⟩

instance (record : Record) : Decidable record.IsUnpacked :=
  decidable_of_iff _ Record.isUnpacked_iff.symm

/-- Nothing is packed in a record and in what it encloses. -/
structure Setting.UnpackedWithin (s : Setting) (d : RecordId) : Prop where
  packStruct : s.options.packStruct = none
  record : ∀ m, Relation.ReflTransGen s.tree.Encloses d m → (s.tree.record m).IsUnpacked

namespace Setting.UnpackedWithin

variable (h : s.UnpackedWithin d)
include h

theorem lower (path : Relation.ReflTransGen s.tree.Encloses d m) : s.UnpackedWithin m :=
  ⟨h.packStruct, fun m' further => h.record m' (path.trans further)⟩

theorem powers : s.PowersWithin d where
  record m path := by
    obtain ⟨alignment, pack, field, typedef⟩ := (h.record m path).asks
    exact ⟨alignment, pack, field,
      fun field member => Ty.asksForPowers_of_keepsAlignment (typedef field member)⟩
  packStruct := by simp [h.packStruct]

end Setting.UnpackedWithin

/-- No class is laid out a second time among a record and what it encloses. -/
def Setting.InjectsWithin (s : Setting) (known : Known) (d : RecordId) : Prop :=
  s.target.is64Bit = false ∨ ∀ m layout, Relation.ReflTransGen s.tree.Encloses d m →
    known.record m = .ok layout → layout.requiredAlignment ≤ 8

theorem Setting.InjectsWithin.lower {known : Known} (h : s.InjectsWithin known d)
    (path : Relation.ReflTransGen s.tree.Encloses d m) : s.InjectsWithin known m :=
  h.imp_right fun low m' layout further => low m' layout (path.trans further)

namespace Microsoft

variable {f : Frame} {known : Known} {field : Field} {n : Nat}

/-- Nothing keeps a part of the record from its natural alignment. -/
structure Frame.IsUnpacked (f : Frame) : Prop where
  noMaximum : f.maxFieldAlignment = 0
  fields : ∀ field ∈ f.declaration.fields, field.isPacked = false
  typedef : ∀ field ∈ f.declaration.fields, field.type.keepsAlignment = true

theorem ofRecord_isUnpacked (h : s.UnpackedWithin r) : (Frame.ofRecord s r).IsUnpacked := by
  have own := h.record r .refl
  refine ⟨?_, own.fields, own.asks.typedef⟩
  simp [Frame.ofRecord, own.notPacked, own.noPack, h.packStruct]

/-- What fields ask for by their types and their attributes, and bases by their layouts. -/
def natural (known : Known) : Demand where
  base layout n := n = layout.alignment
  field field n :=
    (∃ type, known.type field.type = .ok type ∧ n = type.alignment) ∨ n ∈ field.alignment

section Placing

theorem Frame.IsUnpacked.clamp_eq (unpacked : f.IsUnpacked) (n : Nat) : f.clamp n = n :=
  if_pos unpacked.noMaximum

/-- A field is placed with at least what it asks for. -/
theorem Frame.IsUnpacked.le_fieldAlignment (unpacked : f.IsUnpacked)
    (types : ∀ {type layout}, known.type type = .ok layout →
      (TypeLayout.ofTy f.setting type).eval known = .ok layout)
    (member : field ∈ f.declaration.fields) (asks : (natural known).field field n) :
    n ≤ f.fieldAlignment known field := by
  rcases asks with ⟨type, typed, rfl⟩ | asked
  · have notPacked := unpacked.fields field member
    simp only [Frame.fieldAlignment, notPacked, Bool.false_eq_true, if_false]
    apply le_trans ?_ (Nat.le_max_left _ _)
    split
    · rename_i r names
      obtain ⟨inner, laid, same⟩ :=
        Known.alignment_of_records types (unpacked.typedef field member) typed names
      rw [laid, same]
      change inner.alignment ≤ f.baseAlignment inner
      rw [Frame.baseAlignment, unpacked.clamp_eq]
      exact Nat.le_max_left _ _
    · simp [typed, Except.toOption, unpacked.clamp_eq]
  · have asked : field.alignment = some n := asked
    rw [Frame.fieldAlignment, asked]
    exact Nat.le_max_right _ _

/-- What is asked for is a power of two. -/
theorem Frame.HasPowers.natural (h : f.HasPowers known) (member : field ∈ f.declaration.fields)
    (asks : (natural known).field field n) : isPowerOfTwo n = true := by
  rcases asks with ⟨type, typed, rfl⟩ | asked
  · exact h.type field member type typed
  · exact h.field field member n asked

end Placing

/-- Where the layout of a record puts its parts, as far as alignments go. -/
structure NaturallyLaid (s : Setting) (known : Known) (r : RecordId) (layout : RecordLayout) :
    Prop where
  base : ∀ b inner x, s.tree.InheritsPlainly r b → known.record b = .ok inner →
    known.baseOffset? r b = some x → inner.alignment ∣ x ∧ inner.alignment ∣ layout.alignment
  virtualBase : ∀ v ∈ s.tree.virtualBases r, ∀ inner x, known.record v = .ok inner →
    known.virtualBaseOffset? r v = some x → inner.alignment ∣ x ∧ inner.alignment ∣ layout.alignment
  field : ∀ (index : Nat) field (offset n : Nat), (s.tree.record r).fields[index]? = some field →
    field.bitWidth = none → known.fieldOffset? r index = some offset →
    (natural known).field field n → 8 * n ∣ offset ∧ n ∣ layout.alignment
  vfptr : layout.hasOwnVfptr = true → s.target.pointerWidth ∣ layout.alignment

section Class

variable (run : ClassRun f known)

namespace ClassRun

include run

/-- From the fields on, the alignment only grows. -/
theorem laid_le (once : run.laid.isRelaid f = false) :
    run.laid.alignment ≤ run.last.alignment ∧
      (run.laid.hasOwnVfptr = true ∨ run.laid.needsOwnVbptr = true →
        f.pointerAlignment ≤ run.last.alignment) := by
  have pointed := (layPointers_aligned once).value run.pointers
  have later : run.pointed.alignment ≤ run.last.alignment := by
    obtain ⟨size, _, _, closed⟩ := run.closing
    have placed := run.slots_placing.1
    rw [closed] at placed
    exact placed.trans run.placed_le
  exact ⟨pointed.grows.trans later, fun own => (pointed.raised own).trans later⟩

variable (unpacked : f.IsUnpacked) (h : f.HasPowers known)
include unpacked h

/-- What is asked for naturally divides the alignment at which pointers come in, and later ones. -/
theorem dvd_of_makes (types : ∀ {type layout}, known.type type = .ok layout →
      (TypeLayout.ofTy f.setting type).eval known = .ok layout)
    (made : (natural known).Makes f known n) :
    isPowerOfTwo n = true ∧ n ≤ run.laid.alignment := by
  rcases made with ⟨b, layout, edge, laid, rfl⟩ | ⟨field, member, stored, asks⟩
  · have counts := run.base_counts edge laid
    rw [unpacked.clamp_eq] at counts
    exact ⟨(h.enclosed b layout (.single edge.inherits.encloses) laid).power, counts⟩
  · have counts := run.fieldsCount.counts field member stored
    rw [unpacked.clamp_eq] at counts
    exact ⟨h.natural member asks,
      (unpacked.le_fieldAlignment types member asks).trans counts⟩

theorem meets_natural (types : ∀ {type layout}, known.type type = .ok layout →
      (TypeLayout.ofTy f.setting type).eval known = .ok layout)
    (once : run.laid.isRelaid f = false) : run.pointed.Meets f known (natural known) := by
  have powers := run.laid_hasPowers h
  have counted (n : Nat) (made : (natural known).Makes f known n) : n ∣ run.laid.alignment := by
    obtain ⟨power, le⟩ := run.dvd_of_makes unpacked h types made
    exact Quantity.dvd_of_isPowerOfTwo power powers.alignment le
  have placed : run.laid.Meets f known (natural known) := by
    apply run.placing.weaken
    · rintro r layout n edge laid rfl
      have encloses := Relation.TransGen.single edge.inherits.encloses
      refine ⟨_, rfl, Quantity.dvd_of_isPowerOfTwo (h.enclosed r layout encloses laid).power
        (h.baseAlignment encloses laid) ?_⟩
      rw [Frame.baseAlignment, unpacked.clamp_eq]
      exact Nat.le_max_left _ _
    · intro field member _ n asks
      exact ⟨_, rfl, h.dvd_fieldAlignment member (h.natural member asks)
        (unpacked.le_fieldAlignment types member asks)⟩
  apply (placed.layPointers once _ _).value run.pointers
  · exact fun _ => counted
  · exact fun _ n made => (counted n made).trans (Quantity.dvd_roundUp _ _)

end ClassRun

end Class

section Records

variable {depth : Nat} {layout : RecordLayout}
variable (microsoft : s.usesMicrosoftLayout = true) (unpacked : s.UnpackedWithin r)
include microsoft unpacked

theorem class_naturallyLaid (injects : s.InjectsWithin (s.known depth) r)
    (isClass : (s.tree.record r).isClass = true) (laid : (s.known depth).record r = .ok layout) :
    NaturallyLaid s (s.known depth) r layout := by
  have h : (Frame.ofRecord s r).HasPowers (s.known depth) := hasPowers microsoft unpacked.powers
  have free := ofRecord_isUnpacked unpacked
  have power := (wellFormed_of_powers microsoft unpacked.powers laid).power
  obtain ⟨run, rfl⟩ := classRun microsoft isClass (s.known_record laid)
  have once : run.laid.isRelaid (Frame.ofRecord s r) = false := by
    apply run.not_relaid
    rw [Frame.is64Bit_eq]
    exact injects.imp_right fun low => low r _ .refl laid
  have met := run.meets_natural free h Setting.known_type once
  have within (n : Nat) (made : (natural (s.known depth)).Makes (Frame.ofRecord s r) (s.known depth) n) :
      n ∣ run.last.alignment := by
    obtain ⟨power', le⟩ := run.dvd_of_makes free h Setting.known_type made
    exact Quantity.dvd_of_isPowerOfTwo power' power (le.trans (run.laid_le once).1)
  obtain ⟨fieldOffsets, baseOffsets, _⟩ := run.last_eq
  constructor
  case base =>
    intro b inner x edge laid' at'
    have at' : run.last.baseOffsets.find? b = some x := by
      simpa [Known.baseOffset?, Known.classLayout?_eq laid, State.classLayout] using at'
    rw [baseOffsets] at at'
    exact ⟨met.base b inner x _ edge laid' at' rfl, within _ (.inl ⟨b, inner, edge, laid', rfl⟩)⟩
  case virtualBase =>
    intro v listed inner x laid' at'
    obtain ⟨slot, entered, rfl⟩ : ∃ slot, run.last.virtualBaseSlots.find? v = some slot ∧
        slot.offset = x := by
      simpa [Known.virtualBaseOffset?, Known.classLayout?_eq laid, State.classLayout] using at'
    have encloses := (Tree.HasVirtualBase.of_mem listed).encloses
    have power' := (h.enclosed v inner encloses laid').power
    obtain ⟨whole, counts⟩ := run.slots_placing.2 v inner slot laid' entered
    have le : inner.alignment ≤ (Frame.ofRecord s r).baseAlignment inner := by
      rw [Frame.baseAlignment, free.clamp_eq]
      exact Nat.le_max_left _ _
    rw [free.clamp_eq] at counts
    constructor
    · exact (Quantity.dvd_of_isPowerOfTwo power' (h.baseAlignment encloses laid') le).trans whole
    · exact Quantity.dvd_of_isPowerOfTwo power' power (counts.trans run.placed_le)
  case field =>
    intro index field offset n found stored at' asks
    rw [Known.fieldOffset?_eq laid, State.classLayout, fieldOffsets] at at'
    exact ⟨met.field index field offset n found stored at' asks,
      within n (.inr ⟨field, List.mem_of_getElem? found, stored, asks⟩)⟩
  case vfptr =>
    intro own
    rw [run.hasOwnVfptr_eq] at own
    have raised := (run.laid_le once).2 (.inl own)
    rw [Frame.pointerAlignment, free.clamp_eq] at raised
    exact Quantity.dvd_of_isPowerOfTwo s.target.pointerWidth_isPowerOfTwo power raised

theorem plain_naturallyLaid (isPlain : (s.tree.record r).isClass = false)
    (laid : (s.known depth).record r = .ok layout) : NaturallyLaid s (s.known depth) r layout := by
  have h : (Frame.ofRecord s r).HasPowers (s.known depth) := hasPowers microsoft unpacked.powers
  have free := ofRecord_isUnpacked unpacked
  have power := (wellFormed_of_powers microsoft unpacked.powers laid).power
  have asClass := plain_asClass microsoft isPlain (s.known_record laid)
  obtain ⟨run, rfl⟩ := plainRun microsoft isPlain (s.known_record laid)
  obtain ⟨fieldOffsets, _, grows⟩ := run.last_eq
  have counts := (layFields_alignment (State.initial_isClamped _) rfl).value run.fields
  constructor
  case base =>
    intro b inner x _ _ at'
    simp [Known.baseOffset?, Known.classLayout?_eq laid, asClass] at at'
  case virtualBase =>
    intro v _ inner x _ at'
    simp [Known.virtualBaseOffset?, Known.classLayout?_eq laid, asClass] at at'
  case field =>
    intro index field offset n found stored at' asks
    have member := List.mem_of_getElem? found
    have power' := h.natural member asks
    have le := free.le_fieldAlignment Setting.known_type member asks
    have counted := counts.counts field member stored
    rw [free.clamp_eq] at counted
    rw [Known.fieldOffset?_eq laid, State.plainLayout, fieldOffsets] at at'
    constructor
    · have whole := counts.lieAt index field offset _ found stored at' rfl
      exact (Nat.mul_dvd_mul_left 8 (h.dvd_fieldAlignment member power' le)).trans whole
    · exact Quantity.dvd_of_isPowerOfTwo power' power ((le.trans counted).trans grows)
  case vfptr =>
    intro own
    simp [RecordLayout.hasOwnVfptr, asClass] at own

theorem naturallyLaid (injects : s.InjectsWithin (s.known depth) r)
    (laid : (s.known depth).record r = .ok layout) : NaturallyLaid s (s.known depth) r layout := by
  cases isClass : (s.tree.record r).isClass with
  | true => exact class_naturallyLaid microsoft unpacked injects isClass laid
  | false => exact plain_naturallyLaid microsoft unpacked isClass laid

end Records

end Microsoft

end ObjectLayout
