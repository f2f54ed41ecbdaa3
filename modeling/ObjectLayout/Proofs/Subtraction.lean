import ObjectLayout.Dump
import ObjectLayout.Proofs.Held
import ObjectLayout.Proofs.Itanium.NoUnderflow
import ObjectLayout.Proofs.Microsoft.NoUnderflow
import ObjectLayout.Proofs.Microsoft.Powers
import ObjectLayout.Proofs.Microsoft.Whole

/-! No layout and no dump ends in a subtraction below zero. Where the rules test beforehand that there is
enough, the subtraction is not checked again; it would make no difference if it were. -/
namespace ObjectLayout

open LayoutM (ends_bind ends_lift_bind)

attribute [local simp] LayoutM.eval_bind LayoutM.eval_map LayoutM.eval_foldlM

/-- A typedef that the type of a bit-field goes through asks for a power of two, if for any alignment at
all. -/
def Record.BitFieldsAskForPowers (record : Record) : Prop :=
  ∀ field ∈ record.fields, field.bitWidth.isSome → field.type.asksForPowers = true

instance (record : Record) : Decidable record.BitFieldsAskForPowers :=
  inferInstanceAs (Decidable (∀ field ∈ record.fields, _))

def Setting.BitFieldsAskForPowers (s : Setting) : Prop :=
  ∀ r, (s.tree.record r).BitFieldsAskForPowers

/-- A vtordisp lies within the object whose virtual base it belongs to. -/
def RecordLayout.HoldsVtordisps (layout : RecordLayout) : Prop :=
  ∀ part ∈ layout.asClass, ∀ v slot, part.virtualBaseSlots.find? v = some slot →
    slot.hasVtordisp = true → 4 ≤ slot.offset

variable {s : Setting} {known : Known} {r : RecordId} {depth : Nat}

theorem Quantity.sub_of_le {a b : Nat} (enough : b ≤ a) : Quantity.sub a b = .ok (a - b) :=
  if_pos enough

/-- By induction on the depth: a type has the alignment of a scalar of the target, of the record at its
bottom, or one that a typedef asks for. -/
theorem Setting.type_power {type : Ty} {layout : TypeLayout} (powers : type.asksForPowers = true)
    (records : ∀ m, type.enclosedRecord? = some m → ∀ depth layout,
      (s.known depth).record m = .ok layout → Quantity.isPowerOfTwo layout.alignment = true)
    (laid : (s.known depth).type type = .ok layout) :
    Quantity.isPowerOfTwo layout.alignment = true := by
  induction depth generalizing type layout with
  | zero => cases laid
  | succ depth ih =>
    apply (TypeLayout.ofTy_power powers _ _).value laid
    · exact fun m layout encloses => records m encloses depth layout
    · intro part layout powers same laid
      exact ih powers (fun m encloses => records m (same ▸ encloses)) laid

theorem Setting.HasIntegerBitFields.aligns (integer : s.HasIntegerBitFields)
    (powers : s.BitFieldsAskForPowers) (r : RecordId) (supplied : Option SuppliedLayout) :
    (Itanium.Frame.ofRecord s r supplied).AlignsBitFields (s.known depth) := by
  intro field member wide layout laid
  have plain := Ty.enclosedRecord?_of_isInteger (integer r field member wide)
  have power := s.type_power (powers r field member wide) (fun m encloses => by simp [plain] at encloses) laid
  apply Nat.pos_of_ne_zero
  rintro zero
  simp [zero, Quantity.isPowerOfTwo] at power

section Layouts

variable (h : known.NoUnderflow)
include h

theorem TypeLayout.ofTy_noUnderflow (type : Ty) : NoUnderflow ((ofTy s type).eval known) := by
  have vector (element : TypeLayout) (count : Nat) : NoUnderflow (vector element count) := by
    simp [TypeLayout.vector]
  have memberPointer (pointee owner : Ty) : NoUnderflow (memberPointer s pointee owner) := by
    unfold TypeLayout.memberPointer
    split <;> simp [microsoftMemberPointer]
  cases type with
  | typedef _ _ _ _ alignment => simp [ofTy, h]
  | _ => simp [ofTy, h, vector, memberPointer]

/-- Only the Microsoft rules give a virtual base a vtordisp, and they leave room for it. -/
theorem RecordLayout.ofRecord_holdsVtordisps
    (aligned : ∀ supplied, (Itanium.Frame.ofRecord s r supplied).AlignsBitFields known) :
    Ends (· ≠ .underflow) ((ofRecord s r).eval known) HoldsVtordisps := by
  have complete : NoUnderflow (ensureComplete (s.tree.record r)) := by simp [ensureComplete]
  cases rules : s.usesMicrosoftLayout with
  | true =>
    have spared : NoUnderflow ((ofRecord s r).eval known) := by
      simp [ofRecord, byRules, rules, complete, Microsoft.layout_noUnderflow h]
    apply spared.remember.imp
    rintro layout ⟨laid, -⟩
    cases isClass : (s.tree.record r).isClass with
    | false =>
      obtain ⟨run, rfl⟩ := Microsoft.plainRun rules isClass laid
      exact nofun
    | true =>
      obtain ⟨run, rfl⟩ := Microsoft.classRun rules isClass laid
      intro part found v slot placed has
      obtain rfl := Option.some.inj found
      have same : run.last.virtualBaseSlots = run.placed.virtualBaseSlots := run.finished.virtualBaseSlots
      exact (run.virtual.vtordisp (same ▸ placed) has).1
  | false =>
    have plain := Itanium.layout_vtordisps h (aligned (s.suppliedLayout? r))
    have spared : NoUnderflow ((ofRecord s r).eval known) := by
      have laid : NoUnderflow _ := plain.imp fun _ _ => trivial
      have told : NoUnderflow ((byRules s r).eval known) := by
        simp only [byRules, rules]
        cases (s.suppliedLayout? r).isSome <;> simpa using laid
      simp [ofRecord, complete, told]
    apply spared.remember.imp
    rintro layout ⟨laid, -⟩ part found v slot placed has
    have none := plain.value (ofRecord_itanium rules laid).2 part found v slot placed
    simp [none] at has

end Layouts

/-- By induction on the depth, for records and types at once. -/
theorem Setting.HasIntegerBitFields.spares (integer : s.HasIntegerBitFields)
    (powers : s.BitFieldsAskForPowers) (depth : Nat) :
    (s.known depth).NoUnderflow ∧
      ∀ r layout, (s.known depth).record r = .ok layout → layout.HoldsVtordisps := by
  induction depth with
  | zero => exact ⟨⟨by simp [Setting.known], by simp [Setting.known]⟩, nofun⟩
  | succ depth ih =>
    have laid (r : RecordId) := RecordLayout.ofRecord_holdsVtordisps (s := s) (r := r) ih.1
      (integer.aligns powers r)
    constructor
    · exact ⟨fun r => (laid r).imp fun _ _ => trivial, TypeLayout.ofTy_noUnderflow ih.1⟩
    · exact fun r layout same => (laid r).value same

namespace Dump

theorem each_noUnderflow {parts : List α} {show? : α → LayoutM (List Line)}
    (part : ∀ a, NoUnderflow ((show? a).eval known)) :
    NoUnderflow ((each parts show?).eval known) := by
  simp [each, part]

section Parts

variable {dump : Dumper} {layout : RecordLayout}
variable (below : ∀ r offset indent role isComplete,
  NoUnderflow ((dump r offset indent role isComplete).eval known))
include below

theorem baseLines_noUnderflow (offset : Bytes) (indent : Nat) (base : Base) :
    NoUnderflow ((baseLines dump layout offset indent base).eval known) := by
  simp [baseLines, below]

theorem fieldLines_noUnderflow (offset : Bytes) (indent : Nat) (entry : Field × Nat) :
    NoUnderflow ((fieldLines s dump layout offset indent entry).eval known) := by
  unfold fieldLines
  apply ends_lift_bind (NoUnderflow.fieldOffset layout _)
  intro inner _
  apply ends_lift_bind (NoUnderflow.add _ _)
  intro start _
  split
  · exact below _ _ _ _ _
  · simp

/-- A vtordisp that a class holds does not start before the object around it. -/
theorem virtualBaseLines_noUnderflow (holds : layout.HoldsVtordisps) (offset : Bytes) (indent : Nat)
    (base : RecordId) :
    NoUnderflow ((virtualBaseLines s dump layout offset indent base).eval known) := by
  unfold virtualBaseLines
  apply ends_lift_bind (NoUnderflow.virtualBaseSlot layout base).remember
  rintro slot ⟨found, -⟩
  have room (has : slot.hasVtordisp = true) : 4 ≤ slot.offset := by
    obtain ⟨part, asClass, entry⟩ := except_bind_eq_ok.mp found
    unfold RecordLayout.classLayout at asClass
    split at asClass
    · rename_i tables same
      cases asClass
      split at entry
      · rename_i placed
        cases entry
        exact holds part same base slot placed has
      · cases entry
    · cases asClass
  apply ends_lift_bind (NoUnderflow.add _ _).remember
  rintro start ⟨sum, -⟩
  obtain ⟨rfl, _⟩ := Quantity.add_eq_ok_iff.mp sum
  have enough (has : slot.hasVtordisp = true) : 4 ≤ offset + slot.offset :=
    (room has).trans (Nat.le_add_left _ _)
  simp +contextual [enough, below]

end Parts

variable (h : known.NoUnderflow)
include h

theorem summary_noUnderflow (r : RecordId) : NoUnderflow ((summary s r).eval known) := by
  simp [summary, h]

theorem subobjectLines_noUnderflow
    (vtordisps : ∀ r layout, known.record r = .ok layout → layout.HoldsVtordisps)
    (r : RecordId) (offset : Bytes) (indent : Nat) (role : Option String) (isComplete : Bool) :
    NoUnderflow ((subobjectLines s r offset indent role isComplete).eval known) := by
  refine descendWithin_keeps (K := fun dump : Bytes → Nat → Option String → Bool →
    LayoutM (List Line) => ∀ offset indent role isComplete,
      NoUnderflow ((dump offset indent role isComplete).eval known)) ?_ ?_ _ r offset indent role
    isComplete
  · simp
  · intro dump below r offset indent role isComplete
    dsimp only
    apply ends_bind (by simp [h] : NoUnderflow _).remember
    rintro layout ⟨laid, -⟩
    rw [LayoutM.eval_layoutOf] at laid
    apply ends_bind (each_noUnderflow fun base => baseLines_noUnderflow below offset _ base)
    intro bases _
    apply ends_lift_bind (by unfold vbptrLines; split <;> simp : NoUnderflow _)
    intro vbptr _
    apply ends_bind (each_noUnderflow fun entry => fieldLines_noUnderflow below offset _ entry)
    intro fields _
    split
    · simp
    · apply ends_bind (each_noUnderflow fun base =>
        virtualBaseLines_noUnderflow below (vtordisps r layout laid) offset _ base)
      intro virtualBases _
      simp [sizesLine]

end Dump

theorem dump_noUnderflow (h : known.NoUnderflow)
    (vtordisps : ∀ r layout, known.record r = .ok layout → layout.HoldsVtordisps) (r : RecordId)
    (simple : Bool) : NoUnderflow ((dump s r simple).eval known) := by
  simp [dump, Dump.summary_noUnderflow h, Dump.subobjectLines_noUnderflow h vtordisps]

namespace Itanium

/-- `State.takeFromUnit` with every subtraction checked. -/
def State.takeFromUnitChecked (st : State) (offset width typeSize : Bits) : Checked State := do
  let st ←
    if st.unfilledBits == 0 then
      pure { st with
        dataSize := ← Quantity.add offset typeSize
        unfilledBits := ← Quantity.sub typeSize width }
    else if st.unfilledBits < width then
      pure { st with
        dataSize := ← Quantity.add st.dataSize typeSize
        unfilledBits := ← Quantity.sub typeSize width }
    else pure { st with unfilledBits := ← Quantity.sub st.unfilledBits width }
  return { st with storageUnit := typeSize }

/-- `reportPlacement` with the padding checked. -/
def reportPlacementChecked (f : Frame) (p : FieldPlacement) : LayoutM Unit := do
  if !f.isUnion && decide (p.unpaddedOffset < p.offset) then
    f.warn (.paddedField p.name p.index (.ofBits (← Quantity.sub p.offset p.unpaddedOffset)))
  if p.isPacked && decide (Quantity.bitsPerByte < p.unpackedAlignment)
      && p.offset == p.unpackedOffset then
    f.warn (.unnecessaryPackedField p.name p.index)

/-- `reportSize` with the padding checked. -/
def reportSizeChecked (f : Frame) (st : State) (unpaddedSize unpackedSize : Bits) : LayoutM Unit := do
  if st.size > unpaddedSize then
    f.warn (.paddedSize (.ofBits (← Quantity.sub st.size unpaddedSize)))
  if f.isPacked && decide (st.unpackedAlignment > 1) && st.size == unpackedSize then
    f.warn .unnecessaryPackedRecord

theorem takeFromUnitChecked_eq (st : State) (offset width typeSize : Bits) :
    st.takeFromUnitChecked offset width typeSize = st.takeFromUnit offset width typeSize := by
  unfold State.takeFromUnitChecked State.takeFromUnit
  by_cases few : st.unfilledBits < width
  · simp only [few, if_true]
  · simp only [few, Quantity.sub_of_le (Nat.le_of_not_lt few)]
    rfl

theorem reportPlacementChecked_eq (f : Frame) (p : FieldPlacement) :
    reportPlacementChecked f p = reportPlacement f p := by
  unfold reportPlacementChecked reportPlacement
  by_cases padded : p.unpaddedOffset < p.offset
  · simp only [Quantity.sub_of_le padded.le]
    rfl
  · simp [padded]

theorem reportSizeChecked_eq (f : Frame) (st : State) (unpaddedSize unpackedSize : Bits) :
    reportSizeChecked f st unpaddedSize unpackedSize = reportSize f st unpaddedSize unpackedSize := by
  unfold reportSizeChecked reportSize
  by_cases padded : unpaddedSize < st.size
  · simp only [Quantity.sub_of_le padded.le]
    rfl
  · simp [padded]

end Itanium

namespace Microsoft

/-- `layBitField` with every subtraction checked. -/
def layBitFieldChecked (f : Frame) (field : Field) (declaredWidth : Bits) (st : State) :
    LayoutM State := do
  let (st, extent) ← fieldExtent f field st
  let unitBits ← Bytes.toBits extent.size
  let width := min declaredWidth unitBits
  if st.hasRoomFor f extent.size width then
    let offset ← Quantity.sub (← Bytes.toBits st.size) st.freeBits
    return { st with
      fieldOffsets := st.fieldOffsets ++ [offset]
      freeBits := ← Quantity.sub st.freeBits width }
  let st ← { st with afterBitField := true, bitUnit := extent.size }.placeExtent f extent
  if f.isUnion then return st
  return { st with freeBits := ← Quantity.sub unitBits width }

theorem layBitFieldChecked_eq (f : Frame) (field : Field) (declaredWidth : Bits) (st : State) :
    layBitFieldChecked f field declaredWidth st = layBitField f field declaredWidth st := by
  unfold layBitFieldChecked layBitField
  apply bind_congr
  rintro ⟨st, extent⟩
  apply bind_congr
  intro unitBits
  dsimp only
  split
  · rename_i room
    have enough : min declaredWidth unitBits ≤ st.freeBits := by
      simp only [State.hasRoomFor, Bool.and_eq_true, decide_eq_true_eq] at room
      exact room.2
    simp only [Quantity.sub_of_le enough]
    rfl
  · rfl

end Microsoft

/-- Nothing in a setting subtracts more than there is: at whatever depth, no layout of a record or of a
type, no run of either set of rules, and no dump ends in a subtraction. The last four are the
subtractions that the rules do not check because they have just compared the numbers. -/
structure Setting.SubtractsWithin (s : Setting) : Prop where
  record : ∀ depth r, (s.known depth).record r ≠ .error .underflow
  type : ∀ depth type, (s.known depth).type type ≠ .error .underflow
  itanium : ∀ depth r supplied,
    (Itanium.layout s r supplied).eval (s.known depth) ≠ .error .underflow
  microsoft : ∀ depth r, (Microsoft.layout s r).eval (s.known depth) ≠ .error .underflow
  dump : ∀ depth r simple, (dump s r simple).eval (s.known depth) ≠ .error .underflow
  fromUnit : ∀ (st : Itanium.State) offset width typeSize,
    st.takeFromUnitChecked offset width typeSize = st.takeFromUnit offset width typeSize
  placement : ∀ f p, Itanium.reportPlacementChecked f p = Itanium.reportPlacement f p
  size : ∀ f st unpadded unpacked,
    Itanium.reportSizeChecked f st unpadded unpacked = Itanium.reportSize f st unpadded unpacked
  sharedUnit : ∀ f field width st,
    Microsoft.layBitFieldChecked f field width st = Microsoft.layBitField f field width st

/-- Where bit-fields have integer types, no subtraction goes below zero, whatever the target, the options
and the layouts that are supplied. -/
theorem subtractions_stay_above_zero (integer : s.HasIntegerBitFields)
    (powers : s.BitFieldsAskForPowers) : s.SubtractsWithin := by
  have spares := integer.spares powers
  exact {
    record := fun depth r => NoUnderflow.iff_ne.mp ((spares depth).1.record r)
    type := fun depth type => NoUnderflow.iff_ne.mp ((spares depth).1.type type)
    itanium := fun depth r supplied => NoUnderflow.iff_ne.mp
      ((Itanium.layout_vtordisps (spares depth).1 (integer.aligns powers r supplied)).imp
        fun _ _ => trivial)
    microsoft := fun depth r => NoUnderflow.iff_ne.mp
      (Microsoft.layout_noUnderflow (spares depth).1 s r)
    dump := fun depth r simple => NoUnderflow.iff_ne.mp
      (dump_noUnderflow (spares depth).1 (spares depth).2 r simple)
    fromUnit := Itanium.takeFromUnitChecked_eq
    placement := Itanium.reportPlacementChecked_eq
    size := Itanium.reportSizeChecked_eq
    sharedUnit := Microsoft.layBitFieldChecked_eq }

/-- For Linux, with a layout supplied that moves `c` back to the start: `B` has bit-fields of an aligned
typedef, wider than their type, and of width zero. -/
def crowdedUnits : Setting :=
  let int : Ty := .scalar ⟨0⟩ (.integer .int .signed)
  let base := Setting.linux [.ofFields "B" [
    { name := "a", type := .typedef ⟨1⟩ ⟨0⟩ "wide" int (some 8), bitWidth := some 5 },
    { name := "b", type := .scalar ⟨2⟩ .plainChar, bitWidth := some 35 },
    { name := none, type := int, bitWidth := some 0 },
    { name := "c", type := int, bitWidth := some 30 },
    { name := "d", type := int, bitWidth := some 7 }] .struct { isMsStruct := true }] []
  { base with supplied := some (.ofList [(⟨0⟩, { size := 8, fieldOffsets := .ofList [(3, 0)] })]) }

theorem subtractions_stay_above_zero_crowdedUnits :
    crowdedUnits.HasIntegerBitFields ∧ crowdedUnits.BitFieldsAskForPowers ∧
      crowdedUnits.SubtractsWithin := by
  have integer : crowdedUnits.HasIntegerBitFields := Tree.forall_record (by decide) (by decide)
  have powers : crowdedUnits.BitFieldsAskForPowers := Tree.forall_record (by decide) (by decide)
  exact ⟨integer, powers, subtractions_stay_above_zero integer powers⟩

/-- A typedef that asks for an alignment of zero would leave a bit-field no unit to start in. -/
example : ((Setting.linux [.ofFields "Z" [{
    name := "z", type := .typedef ⟨1⟩ ⟨0⟩ "none" (.scalar ⟨0⟩ (.integer .int .signed)) (some 0)
    bitWidth := some 5 }]] []).known 4).record ⟨0⟩ = .error .underflow := by decide +kernel

end ObjectLayout
