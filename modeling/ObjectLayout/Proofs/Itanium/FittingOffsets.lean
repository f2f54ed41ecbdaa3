import ObjectLayout.Proofs.Itanium.Gaps
import ObjectLayout.Proofs.Itanium.LeastBit

/-! The offsets of an Itanium layout fit. -/
namespace ObjectLayout.Itanium

open LayoutM (ends_bind ends_lift_bind)

variable {f : Frame} {known : Known} {st st' : State} {field : Field} {index width typeSize : Nat}
variable {layout : RecordLayout}

theorem alignTo_small {a b c : Nat} (aligned : Quantity.alignTo a b = .ok c) : c < Quantity.limit := by
  obtain ⟨_, rfl, small⟩ := Quantity.alignTo_eq_ok_iff.mp aligned
  exact small

/-- A bit-field that is moved on is moved to a checked offset. -/
theorem avoidCrossing_small (start alignment : Nat) :
    Ends (fun _ => True) (avoidCrossing f start alignment width typeSize) fun offset =>
      offset < Quantity.limit ∨ offset = start := by
  have aligned : Ends (fun _ => True) (Quantity.alignTo start alignment) fun offset =>
      offset < Quantity.limit ∨ offset = start := Ends.any.imp fun _ done => .inl (alignTo_small done)
  unfold avoidCrossing
  split
  · exact aligned
  · apply Ends.bind Ends.any
    intro crosses _
    split
    · exact aligned
    · exact .inr rfl

theorem NarrowLaid.small {typeAlignment offset : Nat} {isPacked : Bool}
    (h : NarrowLaid f field width typeSize typeAlignment isPacked offset st st') :
    offset < Quantity.limit ∨ f.isUnion = false ∧ offset = st.used := by
  obtain ⟨alignment, start, _, started, avoided⟩ := h.found
  rcases Ends.holds (avoidCrossing_small start alignment.actual) avoided with small | rfl
  · exact .inl small
  · split at started
    · exact .inl (alignTo_small started)
    · cases union : f.isUnion with
      | true =>
        rw [union, if_pos rfl] at started
        cases started
        left
        decide
      | false =>
        rw [union] at started
        cases started
        exact .inr ⟨rfl, rfl⟩

theorem layWideBitField_union (union : f.isUnion = true) (isPacked : Bool) :
    Ends (fun _ => True) ((layWideBitField f index field width isPacked st).eval known) fun st' =>
      st'.fieldOffsets = st.fieldOffsets ++ [0] := by
  apply layWideBitField_stages.imp
  rintro st' ⟨alignment, offset, taken, stages⟩
  obtain ⟨rfl, rfl⟩ := stages.inUnion union
  exact (raiseAlignment_fieldOffsets _ _).holds stages.raised

/-- The offset of a field is checked itself, or it lies within the size so far. -/
theorem layAnyField_small (unsupplied : f.supplied = none) :
    Ends (fun _ => True) ((layAnyField f st (field, index)).eval known) fun st' =>
      ∃ offset, FieldLaid f known field offset st st' ∧
        ((f.isUnion = false → st.unfilledBits ≤ st.dataSize) →
          offset < Quantity.limit ∨ offset ≤ st'.size) := by
  unfold layAnyField
  cases isBitField : field.bitWidth with
  | none =>
    apply (layField_ends unsupplied isBitField).imp
    rintro st' ⟨offset, laid⟩
    obtain ⟨_, _, _, inside, _⟩ := laid.stored isBitField
    exact ⟨offset, laid, fun _ => .inr (by lia)⟩
  | some width =>
    apply (layBitField_lays unsupplied).imp
    rintro st' ⟨type, typed, remaining, ⟨wider, wide⟩ | ⟨narrow, offset, laid⟩⟩
    · obtain ⟨offset, laid⟩ := Ends.holds (layWideBitField_ends isBitField _) wide
      refine ⟨offset, laid.of_left entering_frame.1 entering_frame.2, fun _ => ?_⟩
      cases union : f.isUnion with
      | true =>
        have placed := Ends.holds (layWideBitField_union union _) wide
        have same := (List.cons.inj (List.append_cancel_left (placed.symm.trans laid.listed))).1
        rw [← same]
        exact .inr (Nat.zero_le _)
      | false =>
        have alone : ¬ f.SharesUnit known field := by
          rintro ⟨_, width', type', isBitField', _, typed', narrow⟩
          cases isBitField.symm.trans isBitField'
          cases typed.symm.trans typed'
          lia
        obtain ⟨_, stop, _⟩ := laid.apart union alone remaining
        have size := laid.size
        have used : st'.used ≤ st'.dataSize := Nat.sub_le _ _
        right
        lia
    · have small := laid.small
      have laid := laid.fieldLaid isBitField remaining fun both =>
        ⟨both.1, width, type, isBitField, both.2, typed, narrow⟩
      refine ⟨offset, laid.of_left entering_frame.1 entering_frame.2, fun _ => ?_⟩
      rcases small with small | ⟨notUnion, rfl⟩
      · exact .inl small
      · have grows := laid.used_le notUnion remaining
        have size := laid.size
        have used : st'.used ≤ st'.dataSize := Nat.sub_le _ _
        right
        lia

/-- Each offset so far is one that fits, or within the size. -/
structure State.OffsetsFit (f : Frame) (st : State) : Prop where
  remaining : f.isUnion = false → st.unfilledBits ≤ st.dataSize
  offsets : ∀ offset ∈ st.fieldOffsets, offset < Quantity.limit ∨ offset ≤ st.size

theorem layFields_fit (unsupplied : f.supplied = none) (fits : st.OffsetsFit f) :
    Ends (fun _ => True) ((layFields f st).eval known) (·.OffsetsFit f) := by
  unfold layFields
  rw [LayoutM.eval_foldlM]
  apply Ends.foldlM_keeps fits
  rintro ⟨field, index⟩ _ st fits
  apply (layAnyField_small unsupplied).imp
  rintro st' ⟨offset, laid, small⟩
  refine ⟨fun notUnion => laid.remaining notUnion (fits.remaining notUnion), ?_⟩
  intro other member
  rw [laid.listed, List.mem_append, List.mem_singleton] at member
  have size := laid.size
  rcases member with before | rfl
  · exact (fits.offsets other before).imp_right fun within => by lia
  · exact small fits.remaining

theorem finish_small (unsupplied : f.supplied = none) :
    Ends (fun _ => True) ((finish f st).eval known) (·.size < Quantity.limit) := by
  apply finish_stages.imp
  rintro st' ⟨rounded, sized, stages⟩
  rw [stages.computed unsupplied]
  exact alignTo_small stages.aligned

end ObjectLayout.Itanium

namespace ObjectLayout.Setting.Knows

open Itanium

variable {s : Setting} {known : Known} {r : RecordId} {layout : RecordLayout}
variable (knows : s.Knows known) (itanium : s.IsItanium) (laid : known.record r = .ok layout)
include knows itanium laid

/-- The size of a record fits even if it is counted in bits. -/
theorem size_fits : 8 * layout.size < Quantity.limit := by
  have whole {f : Frame} {fixed last : State} (unsupplied : f.supplied = none)
      (finished : (finish f fixed).eval known = .ok last) : 8 * last.sizeInBytes < Quantity.limit := by
    have small := Ends.holds (finish_small unsupplied) finished
    have whole := (Ends.holds (finish_ends unsupplied) finished).whole
    have multiple : 8 ∣ last.size := (Nat.dvd_mul_right 8 _).trans whole
    exact (toBytesCeil_le multiple le_rfl).trans_lt small
  have rules := knows.layout_eq itanium laid
  rw [layoutTracking_eq] at rules
  split at rules
  · obtain ⟨map, start, mid, fixed, st, last, stages⟩ := Ends.holds (layClass_stages .pruned) rules
    rw [stages.layout]
    exact whole rfl stages.finished
  · obtain ⟨start, fixed, last, stages⟩ := Ends.holds layPlain_stages rules
    rw [stages.layout]
    exact whole rfl stages.finished

theorem fieldOffset_fits {index start : Nat} (at' : known.fieldOffset? r index = some start) :
    start < Quantity.limit := by
  obtain ⟨g, pieces, st, last, run⟩ := knows.fieldsRun itanium laid
  have fits : st.OffsetsFit (Frame.ofRecord s r none) := by
    refine ⟨fun _ => run.remaining, ?_⟩
    rw [run.unplaced]
    exact nofun
  have all := (layFields_fit rfl fits).holds run.run
  rw [Known.fieldOffset?_eq laid, run.fieldOffsets] at at'
  have inside := run.inside
  have size := knows.size_fits itanium laid
  rcases all.offsets start (List.mem_of_getElem? at') with small | within
  · exact small
  · lia

/-- Under the Itanium rules there are no vbptrs. -/
theorem vbptr?_eq_none : layout.vbptr? = none := by
  have rules := knows.layout_eq itanium laid
  rw [layoutTracking_eq] at rules
  split at rules
  · obtain ⟨map, start, mid, fixed, st, last, stages⟩ := Ends.holds (layClass_stages .pruned) rules
    rw [stages.layout]
    rfl
  · obtain ⟨start, fixed, last, stages⟩ := Ends.holds layPlain_stages rules
    rw [stages.layout]
    rfl

end ObjectLayout.Setting.Knows
