import ObjectLayout.Proofs.Microsoft.Fields
import ObjectLayout.Proofs.NoUnderflow

/-! Subtractions under the Microsoft rules. The bits that a unit has free are bits of the data laid out so
far, no bit-field takes more of a unit than there is, and a vbptr ends past the place where it was
pushed in. -/
namespace ObjectLayout.Microsoft

open LayoutM (ends_bind ends_lift_bind)

attribute [local simp] LayoutM.eval_bind LayoutM.eval_map LayoutM.eval_foldlM

variable {f : Frame} {known : Known} {st : State} {field : Field}

section Unit

/-- The bits that are free in the unit of the last bit-field lie before the end of the data. -/
def State.UnitInside (f : Frame) (st : State) : Prop :=
  f.isUnion = false → st.afterBitField = true → st.freeBits ≤ st.size * Quantity.bitsPerByte

theorem State.UnitInside.closed (closed : st.afterBitField = false) : st.UnitInside f := by
  simp [UnitInside, closed]

@[simp] theorem placeFieldAt_noUnderflow (st : State) (offset : Bytes) :
    NoUnderflow (st.placeFieldAt offset) := by
  simp [State.placeFieldAt]

@[simp] theorem placeExtent_noUnderflow (st : State) (extent : Extent) :
    NoUnderflow (st.placeExtent f extent) := by
  simp [State.placeExtent]

variable (h : known.NoUnderflow)
include h

theorem fieldTypeExtent_noUnderflow (asked : Bytes) (st : State) :
    NoUnderflow ((fieldTypeExtent f field asked st).eval known) := by
  unfold fieldTypeExtent
  split <;> simp [h]

theorem fieldExtent_noUnderflow (st : State) :
    NoUnderflow ((fieldExtent f field st).eval known) := by
  simp [fieldExtent, fieldTypeExtent_noUnderflow h]

theorem layField_inside (stored : field.bitWidth = none) :
    Ends (· ≠ .underflow) ((layField f field st).eval known) (State.UnitInside f) := by
  have spared : NoUnderflow ((layField f field st).eval known) := by
    simp [layField, fieldExtent_noUnderflow h]
  apply spared.and
  apply (layField_ends stored).imp
  rintro st' ⟨offset, laid⟩
  exact .closed (laid.afterBitField.trans (by simp [opensUnit, stored]))

theorem layZeroWidthBitField_inside (empty : field.bitWidth = some 0) :
    Ends (· ≠ .underflow) ((layZeroWidthBitField f field st).eval known) (State.UnitInside f) := by
  have spared : NoUnderflow ((layZeroWidthBitField f field st).eval known) := by
    simp [layZeroWidthBitField, fieldExtent_noUnderflow h]
  apply spared.and
  apply (layZeroWidthBitField_ends empty).imp
  rintro st' ⟨offset, laid⟩
  exact .closed (laid.afterBitField.trans (by simp [opensUnit, empty]))

/-- A bit-field takes bits that are free, or those of a unit of its own. -/
theorem layBitField_inside {declared : Nat} (inside : st.UnitInside f) :
    Ends (· ≠ .underflow) ((layBitField f field declared st).eval known) (State.UnitInside f) := by
  unfold layBitField
  apply ends_bind ((fieldExtent_noUnderflow h st).and (fieldExtent_ends field st))
  rintro ⟨st₁, extent⟩ ⟨_, zeroSized, alignment, state⟩
  dsimp only at state ⊢
  subst state
  apply ends_lift_bind (NoUnderflow.toBits extent.size).remember
  rintro unitBits ⟨whole, -⟩
  obtain ⟨rfl, _⟩ := Quantity.mul_eq_ok_iff.mp whole
  split
  case isTrue room =>
    obtain ⟨⟨⟨notUnion, after⟩, _⟩, fits⟩ : ((f.isUnion = false ∧ st.afterBitField = true) ∧ _) ∧
        min declared (extent.size * Quantity.bitsPerByte) ≤ st.freeBits := by
      simpa [State.hasRoomFor] using room
    have enough := inside notUnion after
    apply ends_lift_bind (NoUnderflow.toBits st.size).remember
    rintro total ⟨whole, -⟩
    obtain ⟨rfl, _⟩ := Quantity.mul_eq_ok_iff.mp whole
    apply ends_lift_bind (NoUnderflow.sub_iff.mpr enough)
    intro offset _ notUnion after
    exact (Nat.sub_le _ _).trans enough
  case isFalse =>
    apply ends_lift_bind ((placeExtent_noUnderflow _ extent).and (placeExtent_ends _ extent))
    rintro st' ⟨start, size, rfl, _, _, _, later⟩
    split
    case isTrue union => simp [State.UnitInside, union, Ends]
    case isFalse =>
      apply ends_lift_bind (NoUnderflow.sub_iff.mpr (Nat.min_le_right _ _)).remember
      rintro free ⟨taken, -⟩ notUnion _
      obtain ⟨_, rfl⟩ := Quantity.sub_eq_ok_iff.mp taken
      obtain ⟨_, rfl⟩ := later notUnion
      exact (Nat.sub_le _ _).trans (Nat.mul_le_mul_right _ (Nat.le_add_left _ _))

theorem layAnyField_inside (inside : st.UnitInside f) (field : Field) :
    Ends (· ≠ .underflow) ((layAnyField f st field).eval known) (State.UnitInside f) := by
  unfold layAnyField
  split
  case h_1 stored => exact layField_inside h stored
  case h_2 width wide =>
    split
    case isTrue empty =>
      exact layZeroWidthBitField_inside h (by simpa [wide] using empty)
    case isFalse => exact layBitField_inside h inside

theorem layFields_noUnderflow (st : State) : NoUnderflow ((layFields f st).eval known) := by
  unfold layFields
  rw [LayoutM.eval_foldlM]
  have start : { st with afterBitField := false }.UnitInside f := .closed rfl
  exact (Ends.foldlM_keeps start fun field _ st inside => layAnyField_inside h inside field).imp
    fun _ _ => trivial

end Unit

section Class

@[simp] theorem baseOffset_noUnderflow (st : State) (r : RecordId) : NoUnderflow (st.baseOffset r) := by
  unfold State.baseOffset
  split <;> simp

theorem layNonVirtualBase_noUnderflow (r : RecordId) (layout : RecordLayout) (walk : BaseWalk) :
    NoUnderflow (layNonVirtualBase f r layout walk) := by
  simp [layNonVirtualBase]

@[simp] theorem shift_noUnderflow (st : State) (distance : Bytes) (moves : Bytes → Bool) :
    NoUnderflow (st.shift distance moves) := by
  simp [State.shift, OrderedMap.mapValuesM]

/-- The vbptr ends past the place where it is pushed in. -/
@[simp] theorem injectVbptr_noUnderflow (st : State) : NoUnderflow (injectVbptr f st) := by
  have past (start fieldStart : Nat) (aligned : Quantity.alignTo st.vbptrOffset f.pointerAlignment = .ok start)
      (sum : Quantity.add start f.pointerSize = .ok fieldStart) : st.vbptrOffset ≤ fieldStart := by
    obtain ⟨positive, rfl, _⟩ := Quantity.alignTo_eq_ok_iff.mp aligned
    obtain ⟨rfl, _⟩ := Quantity.add_eq_ok_iff.mp sum
    exact (Quantity.le_roundUp (Nat.pos_of_ne_zero positive)).trans (Nat.le_add_right _ _)
  simp +contextual [injectVbptr, past]

@[simp] theorem injectVfptr_noUnderflow (st : State) : NoUnderflow (injectVfptr f st) := by
  simp [injectVfptr]

@[simp] theorem searchOverrides_noUnderflow (tree : Tree) (looks : Nat) (search : OverrideSearch) :
    NoUnderflow (searchOverrides tree looks search) := by
  induction looks generalizing search with
  | zero => simp [searchOverrides]
  | succ looks ih =>
    unfold searchOverrides
    split
    · simp
    · exact ih _

variable (h : known.NoUnderflow)
include h

theorem layNonVirtualBases_noUnderflow (st : State) :
    NoUnderflow ((layNonVirtualBases f st).eval known) := by
  have shared (st : State) : NoUnderflow ((locateSharedVbptr st).eval known) := by
    unfold locateSharedVbptr
    split <;> simp [h]
  simp [layNonVirtualBases, layLeadingBase, layFollowingBase, h, shared, layNonVirtualBase_noUnderflow]

theorem vtordisps_noUnderflow (tree : Tree) (r : RecordId) :
    NoUnderflow ((vtordisps tree r).eval known) := by
  simp [vtordisps, inheritedVtordisps, introducingClasses, h]

theorem layPointers_noUnderflow (st : State) : NoUnderflow ((layPointers f st).eval known) := by
  have zero (r : Option RecordId) : NoUnderflow ((zeroSized? r).eval known) := by
    cases r <;> simp [zeroSized?, h]
  have start (st : State) (last penultimate : Option (RecordId × RecordLayout)) :
      NoUnderflow (vbptrStart st last penultimate) := by
    unfold vbptrStart
    split <;> simp
  have last (st : State) : NoUnderflow (lastBases f st) := by
    unfold lastBases
    apply NoUnderflow.foldlM
    intro base _ found
    cases found.last <;> simp
  have vbptr (st : State) : NoUnderflow ((layVbptrAsBase f st).eval known) := by
    have move (st : State) (last : RecordId) (layout : RecordLayout) (isSecond : Bool) :
        NoUnderflow (moveBehindVbptr st last layout isSecond) := by
      simp [moveBehindVbptr]
    unfold layVbptrAsBase
    split
    · simp
    · apply ends_lift_bind (last st)
      intro found _
      apply ends_bind (zero _)
      intro last _
      cases last <;> simp [zero, start, move]
  simp [layPointers, layWithLeadingPointers, layNonVirtualBases_noUnderflow h,
    layFields_noUnderflow h, vbptr]

theorem layVirtualBases_noUnderflow (st : State) :
    NoUnderflow ((layVirtualBases f st).eval known) := by
  simp [layVirtualBases, layVirtualBase, State.addVtordispGap, vtordisps_noUnderflow h, h]

theorem layout_noUnderflow (s : Setting) (r : RecordId) :
    NoUnderflow ((layout s r).eval known) := by
  have closing (st : State) : NoUnderflow (closeData st) := by simp [closeData]
  have finishing (st : State) : NoUnderflow (finish st) := by simp [finish]
  simp [layout, layPlain, layClass, layFields_noUnderflow h, layNonVirtualBases_noUnderflow h,
    layPointers_noUnderflow h, layVirtualBases_noUnderflow h, closing, finishing]

end Class

end ObjectLayout.Microsoft
