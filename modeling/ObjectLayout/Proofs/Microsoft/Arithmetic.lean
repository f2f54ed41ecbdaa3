import ObjectLayout.Proofs.Arithmetic

/-! Layouts under the Microsoft rules that fail in their arithmetic alone. Where every alignment is a
power of two, all that is rounded up is rounded to something, and without bases no vbptr and no
virtual base comes in between. -/
namespace ObjectLayout.Microsoft

open LayoutM (ends_bind ends_lift_bind)
open Quantity (isPowerOfTwo pos_of_isPowerOfTwo)

variable {f : Frame} {known : Known} {st st' : State} {field : Field}

/-- What the layout of a record without bases relies on. -/
structure Frame.Suits (f : Frame) (known : Known) : Prop where
  powers : f.HasPowers known
  bases : f.declaration.bases = []
  type : ∀ field ∈ f.declaration.fields, Arithmetic (known.type field.type)
  record : ∀ field ∈ f.declaration.fields, ∀ m, field.type.enclosedRecord? = some m →
    Arithmetic (known.record m)

section Fields

theorem placeFieldAt_arithmetic (st : State) (offset : Bytes) : Arithmetic (st.placeFieldAt offset) :=
  Ends.bind (Arithmetic.toBits offset) fun _ _ => trivial

theorem placeExtent_arithmetic (st : State) {extent : Extent} (positive : 0 < extent.alignment) :
    Arithmetic (st.placeExtent f extent) := by
  unfold State.placeExtent
  split
  · exact Ends.bind (placeFieldAt_arithmetic st 0) fun _ _ => trivial
  · refine Ends.bind (Arithmetic.alignTo _ positive) fun offset _ => ?_
    refine Ends.bind (placeFieldAt_arithmetic st offset) fun _ _ => ?_
    exact Ends.bind (Arithmetic.add _ _) fun _ _ => trivial

variable (suits : f.Suits known) (member : field ∈ f.declaration.fields)
include suits member

theorem fieldExtent_arithmetic (start : st.HasPowers f) :
    Ends Fault.IsArithmetic ((fieldExtent f field st).eval known) fun found =>
      0 < found.2.alignment := by
  have typed : Arithmetic ((LayoutM.typeLayoutOf field.type).eval known) := by
    rw [LayoutM.eval_typeLayoutOf]
    exact suits.type field member
  have extent : Arithmetic ((fieldTypeExtent f field (field.alignment.getD 0) st).eval known) := by
    unfold fieldTypeExtent
    split
    case h_1 m names =>
      refine ends_bind (G := fun _ => True) ?_ fun layout _ => ends_bind typed fun _ _ => trivial
      rw [LayoutM.eval_layoutOf]
      exact suits.record field member m (Ty.enclosedRecord?_of_baseElement names)
    case h_2 => exact ends_bind typed fun _ _ => trivial
  have total : Arithmetic ((fieldExtent f field st).eval known) := by
    unfold fieldExtent
    exact ends_bind extent fun _ _ => trivial
  exact (total.and (suits.powers.fieldExtent member start)).imp fun found ⟨_, _, power⟩ =>
    pos_of_isPowerOfTwo power

theorem layBitField_arithmetic (start : st.HasPowers f) (width : Bits) :
    Arithmetic ((layBitField f field width st).eval known) := by
  unfold layBitField
  refine ends_bind (fieldExtent_arithmetic suits member start) ?_
  rintro ⟨st₁, extent⟩ positive
  refine ends_lift_bind (Arithmetic.toBits extent.size) fun unitBits _ => ?_
  dsimp only
  split
  · refine ends_lift_bind (Arithmetic.toBits _) fun _ _ => ?_
    exact ends_lift_bind (Arithmetic.sub _ _) fun _ _ => trivial
  · refine ends_lift_bind (placeExtent_arithmetic _ positive) fun st₂ _ => ?_
    split
    · trivial
    · exact ends_lift_bind (Arithmetic.sub _ _) fun _ _ => trivial

theorem layAnyField_arithmetic (start : st.HasPowers f) :
    Arithmetic ((layAnyField f st field).eval known) := by
  have closed : { st with afterBitField := false }.HasPowers f := start.congr rfl rfl
  unfold layAnyField
  split
  · unfold layField
    refine ends_bind (fieldExtent_arithmetic suits member closed) fun found positive => ?_
    rw [LayoutM.eval_lift]
    exact placeExtent_arithmetic found.1 positive
  · split
    · unfold layZeroWidthBitField
      split
      · rw [LayoutM.eval_lift]
        exact placeFieldAt_arithmetic st _
      · refine ends_bind (fieldExtent_arithmetic suits member closed) ?_
        rintro ⟨st₁, extent⟩ positive
        rw [LayoutM.eval_lift]
        exact placeExtent_arithmetic st₁ (by split <;> exact positive)
    · exact layBitField_arithmetic suits member start _

end Fields

section Class

/-- A state of a class without bases: its alignments are powers of two, and it has no vbptr. -/
structure State.IsBaseless (f : Frame) (st : State) : Prop where
  powers : st.HasPowers f
  vbptr : st.hasVbptr = false

theorem shift_arithmetic (st : State) (distance : Bytes) (moves : Bytes → Bool) :
    Arithmetic (st.shift distance moves) := by
  have field (offset : Bits) : Arithmetic (do
      Quantity.add offset (← Bytes.toBits distance) : Checked Bits) :=
    Ends.bind (Arithmetic.toBits distance) fun _ _ => Arithmetic.add _ _
  have base (offset : Bytes) : Arithmetic
      (if moves offset then Quantity.add offset distance else .ok offset) := by
    split
    · exact Arithmetic.add _ _
    · trivial
  unfold State.shift
  refine Ends.bind (Arithmetic.add _ _) fun size _ => ?_
  refine Ends.bind (Ends.mapM field _) fun fieldOffsets _ => ?_
  exact Ends.bind (Arithmetic.mapValuesM base _) fun _ _ => trivial

/-- Without a vbptr, only a table pointer is ever pushed in. -/
theorem injectPointers_arithmetic (start : st.IsBaseless f) :
    Ends Fault.IsArithmetic (do injectVfptr f (← injectVbptr f st) : Checked State)
      (State.IsBaseless f) := by
  have unneeded : injectVbptr f st = .ok st := by
    unfold injectVbptr State.needsOwnVbptr
    rw [start.vbptr]
    rfl
  have pushed : Arithmetic (injectVfptr f st) := by
    have kept : Arithmetic (.ok st.vbptrOffset) := trivial
    unfold injectVfptr
    rw [start.vbptr]
    split
    · trivial
    · refine Ends.bind (Arithmetic.alignTo _ (pos_of_isPowerOfTwo start.powers.alignment)) fun _ _ => ?_
      exact Ends.bind kept fun _ _ => Ends.bind (shift_arithmetic st _ _) fun _ _ => trivial
  rw [unneeded]
  refine (pushed.and (injectVfptr_ends st)).imp ?_
  rintro st' ⟨-, ⟨_, rfl⟩ | ⟨_, _, _, _, _, rfl⟩⟩
  · exact start
  · exact ⟨start.powers.congr rfl rfl, start.vbptr⟩

theorem closeData_arithmetic (start : st.IsBaseless f) :
    Ends Fault.IsArithmetic (closeData st) (State.IsBaseless f) := by
  unfold closeData
  refine Ends.bind (Arithmetic.alignTo _ (pos_of_isPowerOfTwo start.powers.alignment)) fun size _ => ?_
  exact ⟨start.powers.congr rfl rfl, start.vbptr⟩

theorem finish_arithmetic (start : st.IsBaseless f) : Arithmetic (finish st) := by
  have positive := (pos_of_isPowerOfTwo start.powers.alignment).trans_le
    (Nat.le_max_left st.alignment st.requiredAlignment)
  have last (st : State) : Arithmetic (if st.size = 0 then
      pure { st with
        hasZeroSizedSubobject := true
        leadsWithZeroSizedBase := true
        size := st.alignment }
    else pure st : Checked State) := by
    split <;> trivial
  unfold finish
  split
  · exact last st
  · exact Ends.bind (Arithmetic.alignTo _ positive) fun size _ => last _

variable (suits : f.Suits known)
include suits

theorem layFields_arithmetic (start : st.IsBaseless f) (fresh : st.fieldOffsets = []) :
    Ends Fault.IsArithmetic ((layFields f st).eval known) (State.IsBaseless f) := by
  have powers : Ends Fault.IsArithmetic ((layFields f st).eval known) (State.HasPowers f) := by
    unfold layFields
    rw [LayoutM.eval_foldlM]
    refine Ends.foldlM_keeps (start.powers.congr rfl rfl) fun field member st powers => ?_
    exact ((layAnyField_arithmetic suits member powers).and (suits.powers.layAnyField member powers)).imp
      fun _ => And.right
  refine (powers.and (layFields_ends fresh)).imp fun st' ⟨powers, laid⟩ => ⟨powers, ?_⟩
  have same := laid.classPart
  simp only [State.classPart, Prod.mk.injEq] at same
  exact same.2.2.2.1.trans start.vbptr

theorem layWithLeadingPointers_arithmetic (start : st.IsBaseless f) :
    Ends Fault.IsArithmetic ((layWithLeadingPointers f st).eval known) (State.IsBaseless f) := by
  have fresh := State.initial_hasPowers suits.powers.declared
  have power := Quantity.isPowerOfTwo_max_right start.powers.alignment
    (.inr suits.powers.pointerAlignment)
  have again : { leadingStart f st with hasOwnVfptr := declaresNewVirtual f }.IsBaseless f :=
    ⟨⟨power, fresh.required, fresh.wide⟩, rfl⟩
  have unneeded : layVbptrAsBase f { leadingStart f st with hasOwnVfptr := declaresNewVirtual f } =
      pure { leadingStart f st with hasOwnVfptr := declaresNewVirtual f } := rfl
  unfold layWithLeadingPointers
  change Ends _ ((layNonVirtualBases f (leadingStart f st) >>= _).eval known) _
  rw [layNonVirtualBases_noBases suits.bases rfl rfl, pure_bind, unneeded, pure_bind]
  refine ends_bind (layFields_arithmetic suits again rfl) fun st' laid => ?_
  exact ⟨laid.powers.congr rfl rfl, laid.vbptr⟩

theorem layPointers_arithmetic (start : st.IsBaseless f) :
    Ends Fault.IsArithmetic ((layPointers f st).eval known) (State.IsBaseless f) := by
  unfold layPointers
  split
  · exact start
  · split
    · exact layWithLeadingPointers_arithmetic suits start
    · refine ends_lift_bind (injectPointers_arithmetic start).unbind fun st₁ once => ?_
      refine ends_lift_bind once fun st₂ laid => ?_
      exact ⟨⟨Quantity.isPowerOfTwo_max_right laid.powers.alignment
        (.inr suits.powers.pointerAlignment), laid.powers.required, laid.powers.wide⟩, laid.vbptr⟩

theorem layPlain_arithmetic : Arithmetic ((layPlain f).eval known) := by
  have fresh : (State.initial f).IsBaseless f := ⟨State.initial_hasPowers suits.powers.declared, rfl⟩
  unfold layPlain
  refine ends_bind (layFields_arithmetic suits fresh rfl) fun st laid => ?_
  refine ends_lift_bind (closeData_arithmetic laid) fun closed laid => ?_
  exact ends_lift_bind (finish_arithmetic laid) fun _ _ => trivial

theorem layClass_arithmetic : Arithmetic ((layClass f).eval known) := by
  have fresh := State.initial_hasPowers suits.powers.declared
  have start : { State.initial f with hasOwnVfptr := declaresNewVirtual f }.IsBaseless f :=
    ⟨fresh.congr rfl rfl, rfl⟩
  unfold layClass
  rw [layNonVirtualBases_noBases suits.bases rfl rfl, pure_bind]
  refine ends_bind (layFields_arithmetic suits start rfl) fun st laid => ?_
  refine ends_bind (layPointers_arithmetic suits laid) fun pointed laid => ?_
  refine ends_lift_bind (closeData_arithmetic laid) fun closed laid => ?_
  have unfollowed : layVirtualBases f closed = pure closed := by
    unfold layVirtualBases
    rw [laid.vbptr]
    rfl
  rw [unfollowed, pure_bind]
  exact ends_lift_bind (finish_arithmetic laid) fun _ _ => trivial

end Class

theorem byRules_arithmetic {s : Setting} {r : RecordId} (microsoft : s.usesMicrosoftLayout = true)
    (suits : (Frame.ofRecord s r).Suits known) :
    Arithmetic ((RecordLayout.byRules s r).eval known) := by
  unfold RecordLayout.byRules
  rw [microsoft]
  change Arithmetic ((layout s r).eval known)
  unfold layout
  dsimp only
  split
  · exact layClass_arithmetic suits
  · exact layPlain_arithmetic suits

end ObjectLayout.Microsoft
