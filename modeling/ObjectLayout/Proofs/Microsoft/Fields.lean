import ObjectLayout.Proofs.Microsoft.Bases

/-! Fields under the Microsoft rules. What is used ends at a bit, the front: bit-fields fill up the unit
that they lie in bit by bit, and everything else starts past the unit. What fields require of the
alignment depends on how they are declared and not on where they lie. -/
namespace ObjectLayout

namespace Microsoft

open LayoutM (ends_bind ends_lift_bind layoutOf)

variable {f : Frame} {known : Known} {st st' : State} {field : Field} {offset : Nat}

/-- The bits that a field takes: those of its type, or as many of them as a bit-field asks for. -/
def fieldBits (known : Known) (field : Field) : Nat :=
  let whole := 8 * (known.type field.type).toOption.elim 0 (·.width)
  field.bitWidth.elim whole (min · whole)

/-- How many bits a field has. A zero-width bit-field has none, whatever its type. -/
def HasBits (known : Known) (field : Field) (bits : Nat) : Prop :=
  match field.bitWidth with
  | some 0 => bits = 0
  | some (width + 1) =>
    ∃ layout, known.type field.type = .ok layout ∧ bits = min (width + 1) (8 * layout.width)
  | none => ∃ layout, known.type field.type = .ok layout ∧ bits = 8 * layout.width

theorem HasBits.eq {bits : Nat} (h : HasBits known field bits) : bits = fieldBits known field := by
  unfold HasBits at h
  unfold fieldBits
  split at h
  case h_1 empty => simp [h, empty]
  case h_2 width wide =>
    obtain ⟨layout, typed, rfl⟩ := h
    simp [wide, typed, Except.toOption]
  case h_3 stored =>
    obtain ⟨layout, typed, rfl⟩ := h
    simp [stored, typed, Except.toOption]

theorem exists_hasBits (typed : field.bitWidth = some 0 ∨ ∃ layout, known.type field.type = .ok layout) :
    ∃ bits, HasBits known field bits := by
  unfold HasBits
  rcases typed with empty | ⟨layout, typed⟩
  · rw [empty]
    exact ⟨0, rfl⟩
  · split
    · exact ⟨0, rfl⟩
    · exact ⟨_, layout, typed, rfl⟩
    · exact ⟨_, layout, typed, rfl⟩

/-- The alignment that a field requires of what holds it. -/
def fieldRequires (known : Known) (field : Field) : Nat :=
  max (field.type.baseElement.asRecord?.elim 0 known.requiredAlignment)
    (if field.isBitField then 0 else field.alignment.getD 0)

/-- A zero-width bit-field that ends no unit. -/
def isIdle (field : Field) (afterBitField : Bool) : Bool := field.bitWidth == some 0 && !afterBitField

def opensUnit (field : Field) : Bool := field.bitWidth.any (· != 0)

/-- The end of the last bit that is taken. -/
def State.front (st : State) : Nat := 8 * st.size - if st.afterBitField then st.freeBits else 0

theorem State.front_le (st : State) : st.front ≤ 8 * st.size := Nat.sub_le _ _

/-- What placing fields leaves alone. -/
def State.classPart (st : State) :=
  (st.dataSize, st.primaryBase, st.hasOwnVfptr, st.hasVbptr, st.vbptrOffset, st.vbptrBase,
    st.baseOffsets, st.virtualBaseSlots, st.leadsWithZeroSizedBase)

/-- A state after one more field, which lies at `offset`. -/
structure FieldLaid (f : Frame) (known : Known) (field : Field) (offset : Nat) (st st' : State) :
    Prop where
  fieldOffsets : st'.fieldOffsets = st.fieldOffsets ++ [offset]
  typed : field.bitWidth = some 0 ∨ ∃ layout, known.type field.type = .ok layout
  grows : st.size ≤ st'.size
  inside : offset + fieldBits known field ≤ 8 * st'.size
  apart : f.isUnion = false →
    st.front ≤ offset ∧ offset + fieldBits known field ≤ st'.front
  required : st'.requiredAlignment = if isIdle field st.afterBitField then st.requiredAlignment
    else max st.requiredAlignment (fieldRequires known field)
  afterBitField : st'.afterBitField = opensUnit field
  classPart : st'.classPart = st.classPart

/-- What a field takes, and what it does to the state before it is placed. -/
structure Extended (known : Known) (field : Field) (st : State) (found : State × Extent) : Prop where
  width : ∃ layout, known.type field.type = .ok layout ∧ found.2.size = layout.width
  state : ∃ zeroSized alignment, found.1 = { st with
    hasZeroSizedSubobject := zeroSized
    alignment
    requiredAlignment := max st.requiredAlignment (fieldRequires known field) }

theorem fieldTypeExtent_ends (field : Field) (asked : Nat) (st : State) :
    Ends (fun _ => True) ((fieldTypeExtent f field asked st).eval known) fun found =>
      (∃ layout, known.type field.type = .ok layout ∧ found.2.size = layout.width) ∧
      ∃ zeroSized alignment, found.1 = { st with
        hasZeroSizedSubobject := zeroSized
        alignment
        requiredAlignment := max st.requiredAlignment
          (field.type.baseElement.asRecord?.elim 0 known.requiredAlignment) } := by
  unfold fieldTypeExtent
  split
  case h_1 r names =>
    refine ends_bind Ends.any fun layout laid => ?_
    refine ends_bind Ends.any fun typeLayout typed => ?_
    rw [LayoutM.eval_layoutOf] at laid
    rw [LayoutM.eval_typeLayoutOf] at typed
    refine ⟨⟨typeLayout, typed, rfl⟩, st.hasZeroSizedSubobject || layout.hasZeroSizedSubobject,
      max st.alignment (f.clamp layout.alignment), ?_⟩
    rw [names, Option.elim_some, Known.requiredAlignment_eq laid]
  case h_2 names =>
    refine ends_bind Ends.any fun layout typed => ?_
    rw [LayoutM.eval_typeLayoutOf] at typed
    refine ⟨⟨layout, typed, rfl⟩, st.hasZeroSizedSubobject, st.alignment, ?_⟩
    simp [names]

theorem fieldExtent_ends (field : Field) (st : State) :
    Ends (fun _ => True) ((fieldExtent f field st).eval known) (Extended known field st) := by
  unfold fieldExtent
  refine ends_bind (fieldTypeExtent_ends field _ st) ?_
  rintro ⟨st₁, extent⟩ ⟨width, zeroSized, alignment, state⟩
  dsimp only at width state ⊢
  subst state
  constructor
  case width => cases field.isPacked <;> cases field.isBitField <;> exact width
  case state =>
    rw [fieldRequires, ← max_assoc]
    cases field.isPacked <;> cases field.isBitField <;> cases f.isUnion <;> simp

theorem placeFieldAt_ends (st : State) (start : Nat) :
    Ends (fun _ => True) (st.placeFieldAt start) fun st' =>
      st' = { st with fieldOffsets := st.fieldOffsets ++ [8 * start] } := by
  unfold State.placeFieldAt
  refine Ends.bind Ends.any fun bits whole => ?_
  obtain ⟨rfl, _⟩ := Quantity.mul_eq_ok_iff.mp whole
  rw [Nat.mul_comm]
  rfl

/-- Something of an extent is placed past everything else, or at the start of a union. -/
theorem placeExtent_ends (st : State) (extent : Extent) :
    Ends (fun _ => True) (st.placeExtent f extent) fun st' => ∃ start size : Nat,
      st' = { st with fieldOffsets := st.fieldOffsets ++ [8 * start], size } ∧
      extent.alignment ∣ start ∧
      st.size ≤ size ∧ start + extent.size ≤ size ∧
      (f.isUnion = false → st.size ≤ start ∧ size = start + extent.size) := by
  unfold State.placeExtent
  split
  case isTrue union =>
    refine Ends.bind (placeFieldAt_ends st 0) fun st₁ placed => ?_
    subst placed
    have inside : 0 + extent.size ≤ max st.size extent.size := by
      rw [Nat.zero_add]
      exact Nat.le_max_right _ _
    exact ⟨0, _, rfl, Nat.dvd_zero _, Nat.le_max_left _ _, inside,
      fun notUnion => by simp [notUnion] at union⟩
  case isFalse notUnion =>
    refine Ends.bind Ends.any fun start aligned => ?_
    refine Ends.bind (placeFieldAt_ends st start) fun st₁ placed => ?_
    refine Ends.bind Ends.any fun size sum => ?_
    obtain ⟨positive, rfl, _⟩ := Quantity.alignTo_eq_ok_iff.mp aligned
    obtain ⟨rfl, _⟩ := Quantity.add_eq_ok_iff.mp sum
    subst placed
    have later := Quantity.le_roundUp (a := st.size) (Nat.pos_of_ne_zero positive)
    exact ⟨_, _, rfl, Quantity.dvd_roundUp _ _, later.trans (Nat.le_add_right _ _), le_rfl,
      fun _ => ⟨later, rfl⟩⟩

theorem layField_ends (stored : field.bitWidth = none) :
    Ends (fun _ => True) ((layField f field st).eval known) fun st' =>
      ∃ offset, FieldLaid f known field offset st st' := by
  unfold layField
  refine ends_bind (fieldExtent_ends field _) ?_
  rintro ⟨st₁, extent⟩ ⟨⟨layout, typed, width⟩, zeroSized, alignment, state⟩
  dsimp only at width state ⊢
  subst state
  rw [LayoutM.eval_lift]
  refine (placeExtent_ends _ extent).imp ?_
  rintro st' ⟨start, size, placed, _, grows, inside, later⟩
  subst placed
  have bits : fieldBits known field = 8 * layout.width := by
    simp [fieldBits, stored, typed, Except.toOption]
  refine ⟨8 * start, rfl, .inr ⟨layout, typed⟩, grows, ?_, fun notUnion => ?_, ?_, ?_, rfl⟩
  case refine_1 =>
    dsimp only
    rw [bits, ← width, ← Nat.mul_add]
    exact Nat.mul_le_mul_left 8 inside
  case refine_2 =>
    obtain ⟨past, rfl⟩ := later notUnion
    have past : st.front ≤ 8 * start := st.front_le.trans (Nat.mul_le_mul_left 8 past)
    refine ⟨past, ?_⟩
    simp only [State.front, Bool.false_eq_true, if_false, width, bits]
    omega
  case refine_3 => simp [isIdle, stored]
  case refine_4 => simp [opensUnit, stored]

theorem layZeroWidthBitField_ends (empty : field.bitWidth = some 0) :
    Ends (fun _ => True) ((layZeroWidthBitField f field st).eval known) fun st' =>
      ∃ offset, FieldLaid f known field offset st st' := by
  have bits : fieldBits known field = 0 := by simp [fieldBits, empty]
  have closes : opensUnit field = false := by simp [opensUnit, empty]
  have front := st.front_le
  unfold layZeroWidthBitField
  split
  case isTrue outside =>
    have outside : st.afterBitField = false := by simpa using outside
    rw [LayoutM.eval_lift]
    refine (placeFieldAt_ends st _).imp ?_
    rintro st' rfl
    refine ⟨_, rfl, .inl empty, le_rfl, ?_, fun notUnion => ?_, ?_, outside.trans closes.symm, rfl⟩
    case refine_1 =>
      rw [bits, Nat.add_zero]
      refine Nat.mul_le_mul_left 8 ?_
      split
      · exact Nat.zero_le _
      · exact le_rfl
    case refine_2 => simp [State.front, outside, notUnion, bits]
    case refine_3 => simp [isIdle, empty, outside]
  case isFalse inside =>
    have inside : st.afterBitField = true := by simpa using inside
    refine ends_bind (fieldExtent_ends field _) ?_
    rintro ⟨st₁, extent⟩ ⟨_, zeroSized, alignment, state⟩
    dsimp only at state ⊢
    subst state
    rw [LayoutM.eval_lift]
    refine (placeExtent_ends _ _).imp ?_
    rintro st' ⟨start, size, placed, _, grows, within, later⟩
    subst placed
    refine ⟨8 * start, rfl, .inl empty, grows, ?_, fun notUnion => ?_, ?_, closes.symm, rfl⟩
    case refine_1 =>
      rw [bits, Nat.add_zero]
      exact Nat.mul_le_mul_left 8 ((Nat.le_add_right _ _).trans within)
    case refine_2 =>
      obtain ⟨past, rfl⟩ := later notUnion
      have past : st.front ≤ 8 * start := st.front_le.trans (Nat.mul_le_mul_left 8 past)
      refine ⟨past, ?_⟩
      simp [State.front, bits, notUnion]
    case refine_3 => simp [isIdle, inside]

theorem layBitField_ends {declared : Nat} (wide : field.bitWidth = some declared)
    (positive : declared ≠ 0) :
    Ends (fun _ => True) ((layBitField f field declared st).eval known) fun st' =>
      ∃ offset, FieldLaid f known field offset st st' := by
  have opens : opensUnit field = true := by simp [opensUnit, wide, positive]
  have notIdle : isIdle field st.afterBitField = false := by simp [isIdle, wide, positive]
  have front := st.front_le
  unfold layBitField
  refine ends_bind (fieldExtent_ends field _) ?_
  rintro ⟨st₁, extent⟩ ⟨⟨layout, typed, width⟩, zeroSized, alignment, state⟩
  dsimp only at width state ⊢
  subst state
  refine ends_lift_bind Ends.any fun unitBits whole => ?_
  obtain ⟨rfl, _⟩ := Quantity.mul_eq_ok_iff.mp whole
  have bits : fieldBits known field = min declared (extent.size * Quantity.bitsPerByte) := by
    simp [fieldBits, wide, typed, Except.toOption, width, Quantity.bitsPerByte, Nat.mul_comm]
  split
  case isTrue room =>
    obtain ⟨⟨⟨notUnion, after⟩, _⟩, fits⟩ : ((f.isUnion = false ∧ st.afterBitField = true) ∧ _) ∧
        min declared (extent.size * Quantity.bitsPerByte) ≤ st.freeBits := by
      simpa [State.hasRoomFor] using room
    refine ends_lift_bind Ends.any fun total whole => ?_
    refine ends_lift_bind Ends.any fun offset taken => ?_
    obtain ⟨rfl, _⟩ := Quantity.mul_eq_ok_iff.mp whole
    obtain ⟨enough, rfl⟩ := Quantity.sub_eq_ok_iff.mp taken
    refine ⟨_, rfl, .inr ⟨layout, typed⟩, le_rfl, ?_, fun _ => ?_, by simp [notIdle],
      after.trans opens.symm, rfl⟩ <;> dsimp only [Quantity.bitsPerByte] at enough fits bits ⊢
    case refine_1 => omega
    case refine_2 =>
      simp only [State.front, after, if_true, bits] at front ⊢
      omega
  case isFalse =>
    refine ends_lift_bind (placeExtent_ends _ _) ?_
    rintro st' ⟨start, size, placed, _, grows, inside, later⟩
    subst placed
    have inside : 8 * start + fieldBits known field ≤ 8 * size := by
      dsimp only [Quantity.bitsPerByte] at bits inside
      omega
    split
    case isTrue union =>
      exact ⟨_, rfl, .inr ⟨layout, typed⟩, grows, inside, fun notUnion => by simp [union] at notUnion,
        by simp [notIdle], opens.symm, rfl⟩
    case isFalse notUnion =>
      refine ends_lift_bind Ends.any fun free taken => ?_
      obtain ⟨enough, rfl⟩ := Quantity.sub_eq_ok_iff.mp taken
      refine ⟨_, rfl, .inr ⟨layout, typed⟩, grows, inside, fun notUnion => ?_, by simp [notIdle],
        opens.symm, rfl⟩
      obtain ⟨past, rfl⟩ := later notUnion
      have past : st.front ≤ 8 * start := st.front_le.trans (Nat.mul_le_mul_left 8 past)
      refine ⟨past, ?_⟩
      simp only [State.front, if_true, bits, Quantity.bitsPerByte]
      omega

theorem layAnyField_ends (st : State) (field : Field) :
    Ends (fun _ => True) ((layAnyField f st field).eval known) fun st' =>
      ∃ offset, FieldLaid f known field offset st st' := by
  unfold layAnyField
  split
  case h_1 stored => exact layField_ends stored
  case h_2 width wide =>
    split
    case isTrue empty => exact layZeroWidthBitField_ends (by simpa [wide] using empty)
    case isFalse positive => exact layBitField_ends wide (by simpa using positive)

/-- What a state says of alignments. -/
def State.alignments (st : State) := (st.alignment, st.requiredAlignment)

/-- Unless a field is a zero-width bit-field that ends no unit, its extent decides the alignments, and
if it is no bit-field, also where it lies. -/
theorem layAnyField_extends (st : State) (field : Field) :
    Ends (fun _ => True) ((layAnyField f st field).eval known) fun st' =>
      (isIdle field st.afterBitField = true ∧ st'.alignments = st.alignments) ∨
      ∃ before found, before.alignments = st.alignments ∧
        (fieldExtent f field before).eval known = .ok found ∧
        st'.alignments = found.1.alignments ∧
        (field.bitWidth = none → ∃ byte, st'.fieldOffsets = st.fieldOffsets ++ [8 * byte] ∧
          found.2.alignment ∣ byte) := by
  have placed {before st₁ st₂ : State} {extent placedExtent : Extent}
      (same : before.alignments = st.alignments)
      (done : (fieldExtent f field before).eval known = .ok (st₁, extent))
      (alignments : st₂.alignments = st₁.alignments) (bitField : field.bitWidth ≠ none) :
      Ends (fun _ => True) (st₂.placeExtent f placedExtent) fun st' =>
        ∃ before found, before.alignments = st.alignments ∧
          (fieldExtent f field before).eval known = .ok found ∧
          st'.alignments = found.1.alignments ∧
          (field.bitWidth = none → ∃ byte, st'.fieldOffsets = st.fieldOffsets ++ [8 * byte] ∧
            found.2.alignment ∣ byte) := by
    refine (placeExtent_ends st₂ placedExtent).imp ?_
    rintro st' ⟨start, size, rfl, _⟩
    exact ⟨before, _, same, done, alignments, fun stored => absurd stored bitField⟩
  unfold layAnyField
  split
  case h_1 stored =>
    unfold layField
    refine ends_bind (fieldExtent_ends field _).remember ?_
    rintro ⟨st₁, extent⟩ ⟨done, _, zeroSized, alignment, state⟩
    dsimp only at state ⊢
    rw [LayoutM.eval_lift]
    refine (placeExtent_ends st₁ extent).imp ?_
    rintro st' ⟨start, size, rfl, whole, _⟩
    exact .inr ⟨{ st with afterBitField := false }, _, rfl, done, rfl,
      fun _ => ⟨start, by rw [state], whole⟩⟩
  case h_2 width wide =>
    have bitField : field.bitWidth ≠ none := by simp [wide]
    split
    case isTrue empty =>
      have empty : field.bitWidth = some 0 := by simpa [wide] using empty
      unfold layZeroWidthBitField
      split
      case isTrue outside =>
        have outside : st.afterBitField = false := by simpa using outside
        rw [LayoutM.eval_lift]
        refine (placeFieldAt_ends st _).imp ?_
        rintro st' rfl
        exact .inl ⟨by simp [isIdle, empty, outside], rfl⟩
      case isFalse inside =>
        refine ends_bind (fieldExtent_ends field _).remember ?_
        rintro ⟨st₁, extent⟩ ⟨done, _⟩
        rw [LayoutM.eval_lift]
        exact (placed (by rfl) done rfl bitField).imp fun _ => Or.inr
    case isFalse positive =>
      unfold layBitField
      refine ends_bind (fieldExtent_ends field _).remember ?_
      rintro ⟨st₁, extent⟩ ⟨done, _⟩
      refine ends_lift_bind Ends.any fun unitBits _ => ?_
      dsimp only
      split
      case isTrue room =>
        refine ends_lift_bind Ends.any fun _ _ => ?_
        refine ends_lift_bind Ends.any fun _ _ => ?_
        exact .inr ⟨_, _, rfl, done, rfl, fun stored => absurd stored bitField⟩
      case isFalse =>
        refine ends_lift_bind (placed (by rfl) done (by rfl) bitField) fun st₂ step => ?_
        split
        · exact .inr step
        · refine ends_lift_bind Ends.any fun _ _ => ?_
          obtain ⟨before, found, same, done, alignments, _⟩ := step
          exact .inr ⟨before, found, same, done, alignments, fun stored => absurd stored bitField⟩

/-- Where fields lie, and as what. -/
def fieldSlots (known : Known) (fields : List Field) (offsets : List Nat) : List Slot :=
  (fields.zip offsets).mapIdx fun index (field, offset) =>
    ⟨.field index, offset, offset + fieldBits known field⟩

theorem fieldSlots_push {known : Known} {fields : List Field} {offsets : List Nat}
    (counted : offsets.length = fields.length) (field : Field) (offset : Nat) :
    fieldSlots known (fields ++ [field]) (offsets ++ [offset]) = fieldSlots known fields offsets
      ++ [⟨.field fields.length, offset, offset + fieldBits known field⟩] := by
  simp [fieldSlots, List.zip_append counted.symm, List.mapIdx_append, counted]

theorem mem_fieldSlots {known : Known} {fields : List Field} {offsets : List Nat} {index offset : Nat}
    {field : Field} (here : fields[index]? = some field) (found : offsets[index]? = some offset) :
    ⟨.field index, offset, offset + fieldBits known field⟩ ∈ fieldSlots known fields offsets := by
  have both : (fields.zip offsets)[index]? = some (field, offset) :=
    List.getElem?_zip_eq_some.mpr ⟨here, found⟩
  refine List.mem_of_getElem? (i := index) ?_
  rw [fieldSlots, List.getElem?_mapIdx, both]
  rfl

/-- What one more field makes of the required alignment and of being after a bit-field. -/
def requireField (known : Known) (before : Nat × Bool) (field : Field) : Nat × Bool :=
  (if isIdle field before.2 then before.1 else max before.1 (fieldRequires known field),
    opensUnit field)

/-- What placing fields does to a state without any. -/
structure FieldsLaid (f : Frame) (known : Known) (fields : List Field) (st st' : State) : Prop where
  counted : st'.fieldOffsets.length = fields.length
  typed : ∀ field ∈ fields, field.bitWidth = some 0 ∨ ∃ layout, known.type field.type = .ok layout
  grows : st.size ≤ st'.size
  inside : ∀ slot ∈ fieldSlots known fields st'.fieldOffsets, slot.stop ≤ 8 * st'.size
  chain : f.isUnion = false → Chain st.front (fieldSlots known fields st'.fieldOffsets) st'.front
  required : (st'.requiredAlignment, st'.afterBitField)
    = fields.foldl (requireField known) (st.requiredAlignment, st.afterBitField)
  classPart : st'.classPart = st.classPart

section FieldsLaid

variable {fields : List Field} (h : FieldsLaid f known fields st st')
include h

theorem FieldsLaid.primaryBase : st'.primaryBase = st.primaryBase := congrArg (·.2.1) h.classPart

theorem FieldsLaid.vbptrOffset : st'.vbptrOffset = st.vbptrOffset :=
  congrArg (·.2.2.2.2.1) h.classPart

theorem FieldsLaid.vbptrBase : st'.vbptrBase = st.vbptrBase := congrArg (·.2.2.2.2.2.1) h.classPart

theorem FieldsLaid.baseOffsets : st'.baseOffsets = st.baseOffsets :=
  congrArg (·.2.2.2.2.2.2.1) h.classPart

end FieldsLaid

theorem FieldsLaid.push {fields : List Field} {st₁ : State} (h : FieldsLaid f known fields st st₁)
    (last : FieldLaid f known field offset st₁ st') :
    FieldsLaid f known (fields ++ [field]) st st' := by
  constructor
  case counted => simp [last.fieldOffsets, h.counted]
  case typed =>
    intro field' member
    rcases List.mem_append.mp member with before | here
    · exact h.typed field' before
    · cases List.mem_singleton.mp here
      exact last.typed
  case grows => exact h.grows.trans last.grows
  case inside =>
    intro slot member
    rw [last.fieldOffsets, fieldSlots_push h.counted] at member
    rcases List.mem_append.mp member with before | here
    · exact (h.inside slot before).trans (Nat.mul_le_mul_left 8 last.grows)
    · cases List.mem_singleton.mp here
      exact last.inside
  case chain =>
    intro notUnion
    obtain ⟨past, ends⟩ := last.apart notUnion
    rw [last.fieldOffsets, fieldSlots_push h.counted]
    exact (h.chain notUnion).append (.single past (Nat.le_add_right _ _) ends)
  case required =>
    rw [List.foldl_append, ← h.required, last.required, last.afterBitField]
    rfl
  case classPart => exact last.classPart.trans h.classPart

/-- The fields of a record, each past the one before it. -/
theorem layFields_ends (fresh : st.fieldOffsets = []) :
    Ends (fun _ => True) ((layFields f st).eval known)
      (FieldsLaid f known f.declaration.fields { st with afterBitField := false }) := by
  unfold layFields
  rw [LayoutM.eval_foldlM]
  apply Ends.foldlM
    (K := fun done _ => FieldsLaid f known done { st with afterBitField := false })
  case first =>
    refine ⟨by simp [fresh], nofun, le_rfl, by simp [fieldSlots], fun _ => ?_, rfl, rfl⟩
    exact .nil le_rfl
  case next =>
    intro done field rest st₁ split laid
    refine (layAnyField_ends st₁ field).imp ?_
    rintro st₂ ⟨offset, last⟩
    exact laid.push last

end Microsoft

end ObjectLayout
