import Mathlib.Algebra.Ring.Nat
import ObjectLayout.Proofs.Alignment
import ObjectLayout.Proofs.Microsoft.Apart

/-! Bit-fields of plain records under the Microsoft rules. They live in units of their types' size, which
take whole bytes of their own; what is kept of a unit while fields are placed, its size and the bits that
are free at its end, says where the next bit-field lies as long as the unit ends where the record does. -/
namespace ObjectLayout.Microsoft

open LayoutM (ends_bind ends_lift_bind)

variable {f : Frame} {known : Known} {st st' : State} {field : Field}

/-- The alignment that a field is placed with. -/
def Frame.elementAlignment (f : Frame) (known : Known) (field : Field) : Nat :=
  let asked := field.alignment.getD 0
  let natural := match field.type.baseElement.asRecord? with
    | some r => (known.record r).toOption.elim 0 f.baseAlignment
    | none =>
      let declared := (known.type field.type).toOption.elim 0 (·.alignment)
      f.clamp (if field.isBitField then max declared asked else declared)
  let placed := if field.isPacked then 1 else natural
  if field.isBitField then placed else max placed asked

/-- The offsets of bit-fields that lie one after another from a bit on. -/
def packed (known : Known) : Nat → List Field → List Nat
  | _, [] => []
  | bit, field :: rest => bit :: packed known (bit + fieldBits known field) rest

/-- Bytes that bit-fields share, and these bit-fields. -/
structure BitUnit where
  fields : List Field
  start : Nat
  size : Nat

namespace BitUnit

variable (known : Known) (unit : BitUnit)

/-- The bits that are taken. -/
def used : Nat := (unit.fields.map (fieldBits known)).sum

def stop : Nat := unit.start + unit.size

/-- The bit-fields fill the unit from its first bit on, without gaps. -/
def offsets : List Nat := packed known (8 * unit.start) unit.fields

/-- The bit-field has bits, of a type as large as the unit, which still fit. -/
structure Takes (field : Field) : Prop where
  wide : opensUnit field = true
  typed : ∃ type, known.type field.type = .ok type ∧ type.width = unit.size
  room : unit.used known + fieldBits known field ≤ 8 * unit.size

end BitUnit

/-- What follows one another in a record: units, and fields that are not in any. -/
inductive Segment where
  | unit (u : BitUnit)
  | field (field : Field) (offset : Nat)

namespace Segment

def fields : Segment → List Field
  | .unit u => u.fields
  | .field field _ => [field]

def offsets (known : Known) : Segment → List Nat
  | .unit u => u.offsets known
  | .field _ offset => [offset]

def first : Segment → Nat
  | .unit u => 8 * u.start
  | .field _ offset => offset

/-- The bit past a segment. All of a unit counts, also what is not taken. -/
def stop (known : Known) : Segment → Nat
  | .unit u => 8 * u.stop
  | .field field offset => offset + fieldBits known field

/-- The bits that a segment has to itself. -/
def bits (known : Known) (segment : Segment) : Set Nat := Set.Ico segment.first (segment.stop known)

end Segment

/-- How fields are placed one after another, up to a byte; if the last one is a bit-field with bits,
its unit is told. -/
inductive Segmented (f : Frame) (known : Known) : List Segment → Nat → Option BitUnit → Prop
  | nil : Segmented f known [] 0 none
  /-- An ordinary field starts at the least multiple of its alignment. -/
  | ordinary {segments : List Segment} {stop start : Nat} {last : Option BitUnit} {field : Field}
      {type : TypeLayout} (before : Segmented f known segments stop last)
      (stored : field.bitWidth = none) (typed : known.type field.type = .ok type)
      (least : IsLeast {p | stop ≤ p ∧ f.elementAlignment known field ∣ p} start) :
      Segmented f known (segments ++ [.field field (8 * start)]) (start + type.width) none
  /-- A bit-field for which the unit of the field before it has room goes there. -/
  | joins {segments : List Segment} {stop : Nat} {unit : BitUnit} {field : Field}
      (before : Segmented f known (segments ++ [.unit unit]) stop (some unit))
      (takes : unit.Takes known field) :
      Segmented f known (segments ++ [.unit { unit with fields := unit.fields ++ [field] }]) stop
        (some { unit with fields := unit.fields ++ [field] })
  /-- Any other bit-field with bits gets a unit at the least multiple of its alignment. -/
  | opens {segments : List Segment} {stop start : Nat} {last : Option BitUnit} {field : Field}
      {type : TypeLayout} (before : Segmented f known segments stop last)
      (wide : opensUnit field = true) (typed : known.type field.type = .ok type)
      (full : ∀ unit ∈ last, ¬ unit.Takes known field)
      (least : IsLeast {p | stop ≤ p ∧ f.elementAlignment known field ∣ p} start) :
      Segmented f known (segments ++ [.unit ⟨[field], start, type.width⟩]) (start + type.width)
        (some ⟨[field], start, type.width⟩)
  /-- A zero-width bit-field ends the unit before it and rounds up to its alignment, -/
  | closes {segments : List Segment} {stop start : Nat} {unit : BitUnit} {field : Field}
      (before : Segmented f known segments stop (some unit)) (empty : field.bitWidth = some 0)
      (least : IsLeast {p | stop ≤ p ∧ f.elementAlignment known field ∣ p} start) :
      Segmented f known (segments ++ [.field field (8 * start)]) start none
  /-- and changes nothing anywhere else. -/
  | idle {segments : List Segment} {stop : Nat} {field : Field}
      (before : Segmented f known segments stop none) (empty : field.bitWidth = some 0) :
      Segmented f known (segments ++ [.field field (8 * stop)]) stop none


section Spec

variable {segments : List Segment} {segment : Segment} {stop : Nat} {last : Option BitUnit}
variable {u : BitUnit}

theorem packed_append (bit : Nat) (fields : List Field) (field : Field) :
    packed known bit (fields ++ [field])
      = packed known bit fields ++ [bit + (fields.map (fieldBits known)).sum] := by
  induction fields generalizing bit with
  | nil => rfl
  | cons first rest ih => simp [packed, ih, Nat.add_assoc]

namespace BitUnit

theorem used_push (u : BitUnit) (field : Field) :
    { u with fields := u.fields ++ [field] }.used known = u.used known + fieldBits known field := by
  simp [used]

/-- What a unit is to its bit-fields. -/
structure Holds (known : Known) (u : BitUnit) : Prop where
  some : u.fields ≠ []
  wide : ∀ field ∈ u.fields, opensUnit field = true
  typed : ∀ field ∈ u.fields, ∃ type, known.type field.type = .ok type ∧ type.width = u.size
  room : u.used known ≤ 8 * u.size

theorem Holds.push (h : u.Holds known) (takes : u.Takes known field) :
    { u with fields := u.fields ++ [field] }.Holds known := by
  constructor
  case some => simp
  case wide =>
    intro other member
    rcases List.mem_append.mp member with before | here
    · exact h.wide other before
    · rw [List.mem_singleton.mp here]
      exact takes.wide
  case typed =>
    intro other member
    rcases List.mem_append.mp member with before | here
    · exact h.typed other before
    · rw [List.mem_singleton.mp here]
      exact takes.typed
  case room =>
    rw [used_push]
    exact takes.room

/-- A bit-field is never wider than its type. -/
theorem holds_single {type : TypeLayout} (start : Nat) (wide : opensUnit field = true)
    (typed : known.type field.type = .ok type) : Holds known ⟨[field], start, type.width⟩ := by
  constructor
  case some => simp
  case wide =>
    intro other member
    rwa [List.mem_singleton.mp member]
  case typed =>
    intro other member
    rw [List.mem_singleton.mp member]
    exact ⟨type, typed, rfl⟩
  case room =>
    cases width : field.bitWidth with
    | none => simp [opensUnit, width] at wide
    | some declared => simp [used, fieldBits, width, typed, Except.toOption]

end BitUnit

namespace Segmented

/-- The unit that the next bit-field might join is the last segment, and ends where everything does. -/
theorem last_unit (h : Segmented f known segments stop last) :
    ∀ u ∈ last, u.stop = stop ∧ ∃ before, segments = before ++ [.unit u] := by
  induction h with
  | nil | ordinary | closes | idle => exact nofun
  | joins before takes ih =>
    rintro u ⟨⟩
    exact ⟨(ih _ rfl).1, _, rfl⟩
  | opens =>
    rintro u ⟨⟩
    exact ⟨rfl, _, rfl⟩

theorem units_hold (h : Segmented f known segments stop last) :
    ∀ u, .unit u ∈ segments → u.Holds known := by
  induction h with
  | nil => exact nofun
  | ordinary _ _ _ _ ih | closes _ _ _ ih | idle _ _ ih =>
    intro u member
    exact ih u (by simpa using member)
  | joins before takes ih =>
    intro u member
    rcases List.mem_append.mp member with earlier | here
    · exact ih u (List.mem_append_left _ earlier)
    · cases List.mem_singleton.mp here
      exact (ih _ (by simp)).push takes
  | opens before wide typed _ _ ih =>
    intro u member
    rcases List.mem_append.mp member with earlier | here
    · exact ih u earlier
    · cases List.mem_singleton.mp here
      exact BitUnit.holds_single _ wide typed

/-- Segments that lie one past the other, and before a byte. -/
structure Ordered (known : Known) (segments : List Segment) (stop : Nat) : Prop where
  pairwise : segments.Pairwise fun a b => a.stop known ≤ b.first
  inside : ∀ segment ∈ segments, segment.stop known ≤ 8 * stop

theorem Ordered.push {stop' : Nat} (h : Ordered known segments stop)
    (past : 8 * stop ≤ segment.first) (ends : segment.stop known ≤ 8 * stop') (le : stop ≤ stop') :
    Ordered known (segments ++ [segment]) stop' := by
  constructor
  case pairwise =>
    rw [List.pairwise_append]
    refine ⟨h.pairwise, List.pairwise_singleton _ _, fun a member b here => ?_⟩
    rw [List.mem_singleton.mp here]
    exact (h.inside a member).trans past
  case inside =>
    intro other member
    rcases List.mem_append.mp member with before | here
    · have := h.inside other before
      omega
    · rwa [List.mem_singleton.mp here]

theorem ordered (h : Segmented f known segments stop last) : Ordered known segments stop := by
  induction h with
  | nil => exact ⟨.nil, nofun⟩
  | ordinary before stored typed least ih =>
    have past := least.1.1
    refine ih.push ?_ ?_ (past.trans (Nat.le_add_right _ _))
    · exact Nat.mul_le_mul_left 8 past
    · simp only [Segment.stop, fieldBits, stored, typed, Except.toOption, Option.elim]
      omega
  | opens before wide typed full least ih =>
    have past := least.1.1
    exact ih.push (Nat.mul_le_mul_left 8 past) le_rfl (past.trans (Nat.le_add_right _ _))
  | closes before empty least ih =>
    have past := least.1.1
    refine ih.push (Nat.mul_le_mul_left 8 past) ?_ past
    simp [Segment.stop, fieldBits, empty]
  | idle before empty ih =>
    refine ih.push le_rfl ?_ le_rfl
    simp [Segment.stop, fieldBits, empty]
  | @joins segments stop u field before takes ih =>
    -- The bytes of a unit do not depend on what is in it.
    constructor
    case pairwise =>
      have pairwise := ih.pairwise
      simp only [List.pairwise_append, List.mem_singleton, forall_eq] at pairwise ⊢
      exact ⟨pairwise.1, List.pairwise_singleton _ _, pairwise.2.2⟩
    case inside =>
      intro other member
      rcases List.mem_append.mp member with earlier | here
      · exact ih.inside other (List.mem_append_left _ earlier)
      · rw [List.mem_singleton.mp here]
        exact ih.inside (.unit u) (by simp)

end Segmented

end Spec

section Laying

variable {segments : List Segment} {last : Option BitUnit}

/-- A state after the fields in these segments. -/
structure State.InSegments (f : Frame) (known : Known) (st : State) (segments : List Segment)
    (last : Option BitUnit) : Prop where
  rules : Segmented f known segments st.size last
  offsets : st.fieldOffsets = segments.flatMap (·.offsets known)
  afterBitField : st.afterBitField = last.isSome
  /-- The bits that are free are those at the end of the unit. -/
  unit : ∀ u ∈ last, st.bitUnit = u.size ∧ u.used known + st.freeBits = 8 * u.size

/-- What a field takes does not depend on what has been placed. -/
theorem fieldExtent_element (field : Field) (st : State) :
    Ends (fun _ => True) ((fieldExtent f field st).eval known) fun found => ∃ type,
      known.type field.type = .ok type ∧
      found.2 = ⟨type.width, f.elementAlignment known field⟩ ∧
      ∃ zeroSized required alignment, found.1 = { st with
        hasZeroSizedSubobject := zeroSized, requiredAlignment := required, alignment } := by
  have typeExtent : Ends (fun _ => True)
      ((fieldTypeExtent f field (field.alignment.getD 0) st).eval known) fun found => ∃ type,
        known.type field.type = .ok type ∧ found.2.size = type.width ∧
        (let placed := if field.isPacked then 1 else found.2.alignment
          if field.isBitField then placed else max placed (field.alignment.getD 0))
            = f.elementAlignment known field ∧
        ∃ zeroSized required alignment, found.1 = { st with
          hasZeroSizedSubobject := zeroSized, requiredAlignment := required, alignment } := by
    unfold fieldTypeExtent
    split
    case h_1 r names =>
      apply ends_bind Ends.any
      intro layout laid
      apply ends_bind Ends.any
      intro type typed
      rw [LayoutM.eval_layoutOf] at laid
      rw [LayoutM.eval_typeLayoutOf] at typed
      refine ⟨type, typed, rfl, ?_, _, _, _, rfl⟩
      simp only [Frame.elementAlignment, names, laid]
      rfl
    case h_2 names =>
      apply ends_bind Ends.any
      intro type typed
      rw [LayoutM.eval_typeLayoutOf] at typed
      refine ⟨type, typed, rfl, ?_, _, _, _, rfl⟩
      simp only [Frame.elementAlignment, names, typed]
      rfl
  unfold fieldExtent
  apply ends_bind typeExtent
  rintro ⟨st₁, extent⟩ ⟨type, typed, size, same, zeroSized, required, alignment, state⟩
  dsimp only at size same state ⊢
  subst state
  refine ⟨type, typed, ?_, ?_⟩
  case refine_1 =>
    rw [← same, ← size]
    cases field.isPacked <;> cases field.isBitField <;> rfl
  case refine_2 =>
    cases field.isPacked <;> cases field.isBitField <;> cases f.isUnion <;> exact ⟨_, _, _, rfl⟩

theorem placeExtent_least (notUnion : f.isUnion = false) (st : State) (extent : Extent) :
    Ends (fun _ => True) (st.placeExtent f extent) fun st' => ∃ start,
      IsLeast {p | st.size ≤ p ∧ extent.alignment ∣ p} start ∧
      st' = { st with
        fieldOffsets := st.fieldOffsets ++ [8 * start], size := start + extent.size } := by
  unfold State.placeExtent
  rw [notUnion]
  apply Ends.bind Ends.any
  intro start aligned
  apply Ends.bind (placeFieldAt_ends st start)
  rintro st₁ rfl
  apply Ends.bind Ends.any
  intro size sum
  obtain ⟨positive, rfl, _⟩ := Quantity.alignTo_eq_ok_iff.mp aligned
  obtain ⟨rfl, _⟩ := Quantity.add_eq_ok_iff.mp sum
  exact ⟨_, Quantity.roundUp_isLeast (Nat.pos_of_ne_zero positive), rfl⟩

variable (notUnion : f.isUnion = false) (h : st.InSegments f known segments last)
include notUnion h

/-- One more field is in the segments. -/
def OneMore (f : Frame) (known : Known) (segments : List Segment) (field : Field) (st' : State) :
    Prop :=
  ∃ segments' last', st'.InSegments f known segments' last' ∧
    segments'.flatMap (·.fields) = segments.flatMap (·.fields) ++ [field]

theorem layField_segments (stored : field.bitWidth = none) :
    Ends (fun _ => True) ((layField f field st).eval known) (OneMore f known segments field) := by
  unfold layField
  apply ends_bind (fieldExtent_element field _)
  rintro ⟨st₁, extent⟩ ⟨type, typed, same, zeroSized, required, alignment, state⟩
  dsimp only at same state ⊢
  subst same state
  rw [LayoutM.eval_lift]
  apply (placeExtent_least notUnion _ _).imp
  rintro st' ⟨start, least, rfl⟩
  refine ⟨_, _, ⟨h.rules.ordinary stored typed least, ?_, rfl, nofun⟩, ?_⟩
  · simp [h.offsets, Segment.offsets]
  · simp [Segment.fields]

theorem layZeroWidthBitField_segments (empty : field.bitWidth = some 0) :
    Ends (fun _ => True) ((layZeroWidthBitField f field st).eval known)
      (OneMore f known segments field) := by
  unfold layZeroWidthBitField
  split
  case isTrue outside =>
    have outside : last = none := by
      simpa [h.afterBitField] using outside
    subst outside
    rw [LayoutM.eval_lift, notUnion]
    apply (placeFieldAt_ends st _).imp
    rintro st' rfl
    refine ⟨_, _, ⟨h.rules.idle empty, ?_, h.afterBitField, nofun⟩, ?_⟩
    · simp [h.offsets, Segment.offsets]
    · simp [Segment.fields]
  case isFalse inside =>
    obtain ⟨u, rfl⟩ : ∃ u, last = some u := by
      rw [← Option.isSome_iff_exists, ← h.afterBitField]
      simpa using inside
    apply ends_bind (fieldExtent_element field _)
    rintro ⟨st₁, extent⟩ ⟨type, typed, same, zeroSized, required, alignment, state⟩
    dsimp only at same state ⊢
    subst same state
    rw [LayoutM.eval_lift, notUnion]
    apply (placeExtent_least notUnion _ _).imp
    rintro st' ⟨start, least, rfl⟩
    refine ⟨_, _, ⟨h.rules.closes empty least, ?_, rfl, nofun⟩, ?_⟩
    · simp [h.offsets, Segment.offsets]
    · simp [Segment.fields]

/-- There is room exactly where the rules let a bit-field join the last unit. -/
theorem room_iff_takes {type : TypeLayout} (typed : known.type field.type = .ok type)
    (wide : opensUnit field = true) :
    ((f.isUnion = false ∧ st.afterBitField = true) ∧ st.bitUnit = type.width) ∧
      fieldBits known field ≤ st.freeBits ↔ ∃ u ∈ last, u.Takes known field := by
  constructor
  · rintro ⟨⟨⟨_, after⟩, size⟩, room⟩
    rw [h.afterBitField, Option.isSome_iff_exists] at after
    obtain ⟨u, rfl⟩ := after
    obtain ⟨unit, free⟩ := h.unit u rfl
    exact ⟨u, rfl, wide, ⟨type, typed, size.symm.trans unit⟩, by omega⟩
  · rintro ⟨u, isLast, _, ⟨type', typed', size⟩, room⟩
    cases typed.symm.trans typed'
    obtain ⟨unit, free⟩ := h.unit u isLast
    have after : last.isSome = true := Option.isSome_iff_exists.mpr ⟨u, isLast⟩
    exact ⟨⟨⟨notUnion, h.afterBitField.trans after⟩, unit.trans size.symm⟩, by omega⟩

theorem layBitField_segments {declared : Nat} (isBitField : field.bitWidth = some declared)
    (positive : declared ≠ 0) :
    Ends (fun _ => True) ((layBitField f field declared st).eval known)
      (OneMore f known segments field) := by
  have wide : opensUnit field = true := by simp [opensUnit, isBitField, positive]
  unfold layBitField
  apply ends_bind (fieldExtent_element field _)
  rintro ⟨st₁, extent⟩ ⟨type, typed, same, zeroSized, required, alignment, state⟩
  dsimp only at same state ⊢
  subst same state
  apply ends_lift_bind Ends.any
  intro unitBits whole
  obtain ⟨rfl, _⟩ := Quantity.mul_eq_ok_iff.mp whole
  have bits : min declared (type.width * Quantity.bitsPerByte) = fieldBits known field := by
    simp [fieldBits, isBitField, typed, Except.toOption, Quantity.bitsPerByte, Nat.mul_comm]
  dsimp only
  rw [bits]
  have takes_iff := room_iff_takes notUnion h typed wide
  split
  case isTrue room =>
    obtain ⟨u, rfl, takes⟩ := takes_iff.mp (by simpa [State.hasRoomFor] using room)
    obtain ⟨unit, free⟩ := h.unit u rfl
    obtain ⟨stop, before, rfl⟩ := h.rules.last_unit u rfl
    apply ends_lift_bind Ends.any
    intro total whole
    apply ends_lift_bind Ends.any
    intro offset taken
    obtain ⟨rfl, _⟩ := Quantity.mul_eq_ok_iff.mp whole
    obtain ⟨_, rfl⟩ := Quantity.sub_eq_ok_iff.mp taken
    have room := takes.room
    have here : st.size * Quantity.bitsPerByte - st.freeBits = 8 * u.start + u.used known := by
      apply Nat.sub_eq_of_eq_add
      rw [Nat.add_assoc, free, ← stop, BitUnit.stop, Quantity.bitsPerByte]
      omega
    refine ⟨_, _, ⟨h.rules.joins takes, ?_, h.afterBitField, ?_⟩, ?_⟩
    · dsimp only
      rw [h.offsets, here]
      simp [Segment.offsets, BitUnit.offsets, BitUnit.used, packed_append]
    · rintro _ ⟨⟩
      refine ⟨unit, ?_⟩
      rw [BitUnit.used_push]
      dsimp only
      omega
    · simp [Segment.fields]
  case isFalse noRoom =>
    have full : ∀ u ∈ last, ¬ u.Takes known field := by
      intro u isLast takes
      have room := takes_iff.mpr ⟨u, isLast, takes⟩
      exact noRoom (by simpa [State.hasRoomFor] using room)
    apply ends_lift_bind (placeExtent_least notUnion _ _)
    rintro st' ⟨start, least, rfl⟩
    rw [notUnion]
    apply ends_lift_bind Ends.any
    intro free taken
    obtain ⟨enough, rfl⟩ := Quantity.sub_eq_ok_iff.mp taken
    refine ⟨_, _, ⟨h.rules.opens wide typed full least, ?_, rfl, ?_⟩, ?_⟩
    · simp [h.offsets, Segment.offsets, BitUnit.offsets, packed]
    · rintro _ ⟨⟩
      refine ⟨rfl, ?_⟩
      simp only [BitUnit.used, List.map_cons, List.map_nil, List.sum_cons, List.sum_nil,
        Quantity.bitsPerByte] at enough ⊢
      omega
    · simp [Segment.fields]

theorem layAnyField_segments (field : Field) :
    Ends (fun _ => True) ((layAnyField f st field).eval known) (OneMore f known segments field) := by
  unfold layAnyField
  split
  case h_1 stored => exact layField_segments notUnion h stored
  case h_2 width isBitField =>
    split
    case isTrue empty =>
      exact layZeroWidthBitField_segments notUnion h (by simpa [isBitField] using empty)
    case isFalse positive =>
      exact layBitField_segments notUnion h isBitField (by simpa using positive)

omit h in
/-- The fields of a plain record, each in its segment. -/
theorem layFields_segments (fresh : st.fieldOffsets = []) (empty : st.size = 0) :
    Ends (fun _ => True) ((layFields f st).eval known) fun st' => ∃ segments last,
      st'.InSegments f known segments last ∧
        segments.flatMap (·.fields) = f.declaration.fields := by
  unfold layFields
  rw [LayoutM.eval_foldlM]
  apply Ends.foldlM (K := fun (done _ : List Field) (st' : State) => ∃ segments last,
    st'.InSegments f known segments last ∧ segments.flatMap (·.fields) = done)
  case first =>
    refine ⟨[], none, ⟨?_, fresh, rfl, nofun⟩, rfl⟩
    dsimp only
    rw [empty]
    exact .nil
  case next =>
    rintro done field rest st₁ _ ⟨segments, last, inSegments, rfl⟩
    exact layAnyField_segments notUnion inSegments field

end Laying

/-- The fields of a record in units and outside of them. -/
structure InUnits (f : Frame) (known : Known) (layout : RecordLayout) (segments : List Segment) :
    Prop where
  rules : ∃ stop last, Segmented f known segments stop last
  fields : segments.flatMap (·.fields) = f.declaration.fields
  offsets : segments.flatMap (·.offsets known) = layout.fieldOffsets
  units : ∀ u, .unit u ∈ segments → u.Holds known
  apart : segments.Pairwise fun a b => Disjoint (a.bits known) (b.bits known)
  inside : ∀ segment ∈ segments, segment.bits known ⊆ Set.Iio (8 * layout.size)

/-- Bit-fields of a plain record share units of their type's size as far as these suffice, and the units
have bytes of their own. -/
theorem bit_fields_fill_units {s : Setting} {r : RecordId} {depth : Nat} {layout : RecordLayout}
    (microsoft : s.usesMicrosoftLayout = true) (isPlain : (s.tree.record r).isClass = false)
    (notUnion : (s.tree.record r).isUnion = false) (laid : (s.known depth).record r = .ok layout) :
    ∃ segments, InUnits (Frame.ofRecord s r) (s.known depth) layout segments := by
  obtain _ | depth := depth
  · cases laid
  have rules := LayoutM.eval_mono (s.known_succ depth) _ laid
  obtain ⟨run, rfl⟩ := plainRun microsoft isPlain rules
  obtain ⟨segments, last, inSegments, fields⟩ :=
    (layFields_segments notUnion rfl rfl).value run.fields
  obtain ⟨size, grows, _, closed⟩ := (closeData_ends run.laid).value run.closing
  have finished := (finish_ends run.closed).value run.finishing
  have ordered := inSegments.rules.ordered
  have whole : run.laid.size ≤ run.last.size := by
    have further := finished.grows
    rw [closed] at further
    exact grows.trans further
  refine ⟨segments, ⟨_, _, inSegments.rules⟩, fields, ?_, inSegments.rules.units_hold, ?_, ?_⟩
  case refine_1 => exact inSegments.offsets.symm.trans run.last_eq.1.symm
  case refine_2 =>
    apply ordered.pairwise.imp
    intro a b past
    exact Set.Ico_disjoint_Ico.mpr ((Nat.min_le_left _ _).trans (past.trans (Nat.le_max_right _ _)))
  case refine_3 =>
    intro segment member bit taken
    have bound := ordered.inside segment member
    have taken := taken.2
    exact (taken.trans_le bound).trans_le (Nat.mul_le_mul_left 8 whole)

/-- For C: `b` joins `a`, `c` does not fit and `d` is of another size. The first zero-width bit-field
ends the unit of `d`, the second means nothing, and of `f` one byte counts. -/
def mixedUnits : Setting :=
  { Setting.windows .x86_64 [
      .ofFields "S" [
        { name := "a", type := .scalar ⟨0⟩ (.integer .int .signed), bitWidth := some 3 },
        { name := "b", type := .scalar ⟨0⟩ (.integer .int .signed), bitWidth := some 5 },
        { name := "c", type := .scalar ⟨0⟩ (.integer .int .signed), bitWidth := some 30 },
        { name := "d", type := .scalar ⟨1⟩ .plainChar, bitWidth := some 2 },
        { name := none, type := .scalar ⟨0⟩ (.integer .int .signed), bitWidth := some 0 },
        { name := "e", type := .scalar ⟨1⟩ .plainChar },
        { name := none, type := .scalar ⟨0⟩ (.integer .int .signed), bitWidth := some 0 },
        { name := "f", type := .scalar ⟨1⟩ .plainChar, bitWidth := some 9 }]] [] with options := {} }

theorem bit_fields_fill_units_mixedUnits : ∃ layout,
    (mixedUnits.known 3).record ⟨0⟩ = .ok layout ∧
      layout.fieldOffsets = [0, 3, 32, 64, 96, 96, 104, 104] ∧
      ∃ segments, InUnits (Frame.ofRecord mixedUnits ⟨0⟩) (mixedUnits.known 3) layout segments := by
  obtain ⟨layout, laid⟩ := exists_ok (by decide +kernel :
    ((mixedUnits.known 3).record ⟨0⟩).isOk = true)
  have offsets : (mixedUnits.known 3).has
      (·.fieldOffsets == [0, 3, 32, 64, 96, 96, 104, 104]) ⟨0⟩ = true := by
    decide +kernel
  rw [Known.has_eq laid, beq_iff_eq] at offsets
  exact ⟨layout, laid, offsets, bit_fields_fill_units (by decide) (by decide) (by decide) laid⟩

end ObjectLayout.Microsoft
