import ObjectLayout.Proofs.Itanium.Asking
import ObjectLayout.Proofs.Itanium.LeastBit
import ObjectLayout.Proofs.Itanium.Supplied.Adopted
import ObjectLayout.Proofs.Reported

/-! The gaps that are reported between the fields of a record. One field after the other is taken to
begin where the bits before it end, except that one wider than its type forgets what is left of the
last byte; what lies between that point and the field is reported. -/
namespace ObjectLayout.Itanium

open LayoutM (Reports Confined)

variable {f : Frame} {known : Known} {st st' : State} {field : Field}
variable {index width typeSize typeAlignment used stop counted offset : Nat}

/-- Up to where the bits before a field are counted. -/
def Counts (known : Known) (field : Field) (used counted : Nat) : Prop :=
  (IsWide known field → counted = 8 * Bits.toBytesCeil used) ∧ (¬ IsWide known field → counted = used)

theorem Counts.eq_iff (h : Counts known field used counted) :
    counted = used ↔ (IsWide known field → 8 ∣ used) := by
  have ceil := le_toBytesCeil used
  constructor
  · intro same wide
    rw [← same, h.1 wide]
    exact Nat.dvd_mul_right 8 _
  · intro whole
    by_cases wide : IsWide known field
    · rw [h.1 wide]
      exact (toBytesCeil_le (whole wide) le_rfl).antisymm ceil
    · exact h.2 wide

theorem Counts.used_le (h : Counts known field used counted) : used ≤ counted := by
  by_cases wide : IsWide known field
  · rw [h.1 wide]
    exact le_toBytesCeil used
  · rw [h.2 wide]

section Steps

theorem warn_reports (remark : Remark) :
    Reports known (f.warn remark) fun _ gaps => gaps = remark.gap?.toList := by
  refine Ends.ok ?_
  change [remark].filterMap Remark.gap? = remark.gap?.toList
  rw [List.filterMap_cons, List.filterMap_nil]
  cases remark.gap? <;> rfl

/-- A warning about a gap, where there is one, and then perhaps one about something else. -/
theorem warnBoth_reports {c c' : Prop} [Decidable c] [Decidable c'] {place : Option Nat} {start : Nat}
    {remark other : Remark} (gap : remark.gap? = some (place, start - stop)) (none : other.gap? = none)
    (same : c ↔ stop < start) :
    Reports known (do
      if c then f.warn remark
      if c' then f.warn other) fun _ gaps => gaps = gapTo place stop start := by
  have quiet : Reports known (if c' then f.warn other else pure ()) fun _ gaps => gaps = [] := by
    split
    · exact (warn_reports other).imp fun _ gaps same => by rw [same, none]; rfl
    · rfl
  unfold gapTo
  by_cases holds : c
  · rw [if_pos holds, if_pos (same.mp holds)]
    refine (warn_reports remark).bind ?_
    rintro _ _ rfl
    exact quiet.imp fun _ gaps same => by rw [same, gap]; rfl
  · rw [if_neg holds, if_neg (fun less => holds (same.mpr less))]
    exact quiet

theorem reportPlacement_reports (notUnion : f.isUnion = false) (p : FieldPlacement) :
    Reports known (reportPlacement f p) fun _ gaps =>
      gaps = gapTo (some p.index) p.unpaddedOffset p.offset :=
  warnBoth_reports (by rw [Remark.gap?, Padding.toBits_ofBits]) rfl (by simp [notUnion])

theorem raiseAlignment_fieldOffsets (packed unpacked : Nat) :
    Ends (fun _ => True) (st.raiseAlignment f packed unpacked) (·.fieldOffsets = st.fieldOffsets) :=
  (raiseAlignment_ends (.inr trivial) (.inr trivial)).imp fun _ aligned => by rw [aligned.frame]

variable (unsupplied : f.supplied = none) (sequential : f.IsSequential)
include unsupplied sequential

theorem layField_reports : Reports known (layField f index field st) fun st' gaps =>
    ∃ offset, st'.fieldOffsets = st.fieldOffsets ++ [offset] ∧
      gaps = gapTo (some index) st.used offset := by
  have notUnion := sequential.1
  unfold layField
  refine Reports.lift_bind Ends.any fun unpadded taken => ?_
  obtain ⟨_, rfl⟩ := Quantity.sub_eq_ok_iff.mp taken
  refine Reports.quiet_bind (fieldExtent_asks (fun _ _ _ _ => trivial) trivial) Ends.any
    fun extent _ => ?_
  refine Reports.lift_bind Ends.any fun _ _ => Reports.lift_bind Ends.any fun _ _ => ?_
  refine Reports.quiet_bind (chooseFieldOffset_asks (fun _ _ => rfl) _ _ _ _)
    (chooseFieldOffset_ends unsupplied) ?_
  rintro ⟨st₁, x⟩ ⟨_, _, mapped⟩
  have frame : st₁ = _ := (mapped notUnion).frame
  have offsets : st₁.fieldOffsets = st.fieldOffsets := by rw [frame]
  refine Reports.lift_bind Ends.any fun bits _ => ?_
  simp only [unsupplied, Option.isNone_none, if_true, notUnion, Bool.false_eq_true, if_false]
  refine Reports.lift_bind Ends.any fun _ _ => Reports.lift_bind Ends.any fun _ _ => ?_
  refine (reportPlacement_reports notUnion _).bind ?_
  rintro _ _ rfl
  refine Reports.lift_bind Ends.any fun _ _ => Reports.lift_bind Ends.any fun _ _ => ?_
  refine Reports.lift ((raiseAlignment_fieldOffsets _ _).imp fun st' same => ⟨bits, ?_, ?_⟩)
  · rw [same, ← offsets]
    rfl
  · rw [List.append_nil]
    rfl

omit unsupplied in
theorem layWideBitField_reports (isPacked : Bool) :
    Reports known (layWideBitField f index field width isPacked st) fun st' gaps =>
      ∃ offset, st'.fieldOffsets = st.fieldOffsets ++ [offset] ∧ st.dataSize ≤ offset ∧
        gaps = gapTo (some index) st.dataSize offset := by
  have notUnion := sequential.1
  unfold layWideBitField
  refine Reports.lift_bind Ends.any fun _ _ => ?_
  simp only [notUnion, Bool.false_eq_true, if_false]
  refine Reports.lift_bind Ends.any fun offset aligned => ?_
  refine Reports.lift_bind Ends.any fun stop _ => ?_
  refine Reports.lift_bind (endAt_ends stop) fun st₁ ⟨frame, _⟩ => ?_
  refine (reportPlacement_reports notUnion _).bind ?_
  rintro _ _ rfl
  refine Reports.lift ((raiseAlignment_fieldOffsets _ _).imp fun st' same => ⟨offset, ?_, ?_, ?_⟩)
  · rw [same]
    change st₁.fieldOffsets ++ [offset] = _
    rw [frame]
  · exact alignTo_le aligned
  · rw [List.append_nil]

theorem layNarrowBitField_reports (isPacked : Bool) :
    Reports known (layNarrowBitField f index field width typeSize typeAlignment isPacked st.used st)
      fun st' gaps => ∃ offset, st'.fieldOffsets = st.fieldOffsets ++ [offset] ∧
        gaps = gapTo (some index) st.used offset := by
  obtain ⟨notUnion, notMsStruct⟩ := sequential
  unfold layNarrowBitField
  refine Reports.lift_bind Ends.any fun _ _ => ?_
  simp only [notMsStruct, Bool.false_and, Bool.false_eq_true, if_false, pure_bind, unsupplied,
    Option.isNone_none, if_true, adoptFieldOffset, Option.bind_none]
  refine Reports.lift_bind Ends.any fun offset _ => Reports.lift_bind Ends.any fun _ _ => ?_
  refine (reportPlacement_reports notUnion _).bind ?_
  rintro _ _ rfl
  refine Reports.lift_bind (occupyBits_frame _ _ _) fun st₁ frame => ?_
  refine Reports.lift ((raiseAlignment_fieldOffsets _ _).imp fun st' same => ⟨offset, ?_, ?_⟩)
  · rw [same]
    change st₁.fieldOffsets = _
    rw [frame]
    rfl
  · rw [List.append_nil]

theorem layAnyField_gap (whole : st.dataSize = 8 * Bits.toBytesCeil st.used) :
    Reports known (layAnyField f st (field, index)) fun st' gaps => ∃ offset counted,
      st'.fieldOffsets = st.fieldOffsets ++ [offset] ∧ Counts known field st.used counted ∧
        (counted = st.used ∨ counted ≤ offset) ∧ gaps = gapTo (some index) counted offset := by
  unfold layAnyField
  cases isBitField : field.bitWidth with
  | none =>
    refine (layField_reports unsupplied sequential).imp fun st' gaps ⟨offset, placed, same⟩ => ?_
    refine ⟨offset, st.used, placed, ⟨?_, fun _ => rfl⟩, .inl rfl, same⟩
    rintro ⟨width, _, wide, _⟩
    rw [isBitField] at wide
    cases wide
  | some width =>
  have notMsStruct := sequential.2
  unfold layBitField
  refine Reports.quiet_bind (.typeLayoutOf trivial) Ends.any fun type knows => ?_
  rw [LayoutM.eval_typeLayoutOf] at knows
  refine Reports.lift_bind Ends.any fun typeSize bits => Reports.lift_bind Ends.any fun _ _ => ?_
  obtain ⟨rfl, _⟩ := Quantity.mul_eq_ok_iff.mp bits
  simp only [notMsStruct, Bool.false_eq_true, if_false]
  refine Reports.lift_bind Ends.any fun unpadded taken => ?_
  obtain ⟨_, rfl⟩ := Quantity.sub_eq_ok_iff.mp taken
  have isWide : IsWide known field ↔ type.width * Quantity.bitsPerByte < width := by
    constructor
    · rintro ⟨width', type', isBitField', knows', wide⟩
      rw [isBitField] at isBitField'
      rw [knows] at knows'
      cases isBitField'
      cases knows'
      exact wide
    · exact fun wide => ⟨width, type, isBitField, knows, wide⟩
  split
  · rename_i wide
    refine (layWideBitField_reports sequential _).imp fun st' gaps ⟨offset, placed, past, same⟩ => ?_
    exact ⟨offset, st.dataSize, placed, ⟨fun _ => whole,
      fun narrow => absurd (isWide.mpr wide) narrow⟩, .inr past, same⟩
  · rename_i narrow
    refine (layNarrowBitField_reports unsupplied sequential _).imp
      fun st' gaps ⟨offset, placed, same⟩ => ?_
    exact ⟨offset, st.used, placed,
      ⟨fun wide => absurd (isWide.mp wide) narrow, fun _ => rfl⟩, .inl rfl, same⟩

theorem layAnyField_reports (remaining : st.unfilledBits ≤ st.dataSize)
    (whole : st.dataSize = 8 * Bits.toBytesCeil st.used) :
    Reports known (layAnyField f st (field, index)) fun st' gaps => ∃ offset counted,
      FieldLaid f known field offset st st' ∧ Counts known field st.used counted ∧
        counted ≤ offset ∧ gaps = gapTo (some index) counted offset := by
  refine ((layAnyField_gap unsupplied sequential whole).and_ends (layAnyField_ends unsupplied)).imp ?_
  rintro st' gaps ⟨⟨offset, counted, placed, counts, past, same⟩, offset', laid⟩
  obtain rfl : offset' = offset :=
    (List.cons.inj (List.append_cancel_left (laid.listed.symm.trans placed))).1
  have apart := laid.apart sequential.1 sequential.not_sharesUnit remaining
  exact ⟨_, counted, laid, counts, past.elim (fun same => same ▸ apart.1) id, same⟩

end Steps

/-- Fields with their offsets, from where the first of them could start up to the end of the last, and
with the gaps that are reported before them. -/
inductive Gapped (f : Frame) (known : Known) :
    Nat → List Field → Nat → List Bits → List Gap → Nat → Prop
  | nil {index used : Nat} : Gapped f known index [] used [] [] used
  | cons {index used counted offset stop : Nat} {field : Field} {fields : List Field}
      {offsets : List Bits} {gaps : List Gap} (counts : Counts known field used counted)
      (past : counted ≤ offset) (sized : ∃ bits, f.setting.HasBits known field bits)
      (rest : Gapped f known (index + 1) fields (offset + f.setting.bits known field) offsets gaps stop) :
      Gapped f known index (field :: fields) used (offset :: offsets)
        (gapTo (some index) counted offset ++ gaps) stop

section Run

variable (unsupplied : f.supplied = none) (sequential : f.IsSequential)
include unsupplied sequential

theorem layAnyFields_reports (fields : List Field) (index : Nat) (st : State)
    (remaining : st.unfilledBits ≤ st.dataSize)
    (whole : st.dataSize = 8 * Bits.toBytesCeil st.used) :
    Reports known ((fields.zipIdx index).foldlM (layAnyField f) st) fun last gaps =>
      ∃ offsets, last.fieldOffsets = st.fieldOffsets ++ offsets ∧
        Gapped f known index fields st.used offsets gaps last.used ∧
        last.unfilledBits ≤ last.dataSize ∧ last.dataSize = 8 * Bits.toBytesCeil last.used := by
  induction fields generalizing index st with
  | nil => exact ⟨[], (List.append_nil _).symm, .nil, remaining, whole⟩
  | cons field fields ih =>
    rw [List.zipIdx_cons, List.foldlM_cons]
    refine (layAnyField_reports unsupplied sequential remaining whole).bind ?_
    rintro mid _ ⟨offset, counted, laid, counts, past, rfl⟩
    have alone : ¬ f.SharesUnit known field := sequential.not_sharesUnit
    have apart := laid.apart sequential.1 alone remaining
    refine (ih (index + 1) mid (laid.remaining sequential.1 remaining)
      (laid.whole sequential.1 alone)).imp ?_
    rintro last gaps ⟨offsets, placed, gapped, rest'⟩
    refine ⟨offset :: offsets, ?_, .cons counts past ?_ (apart.2.1 ▸ gapped), rest'⟩
    · rw [placed, laid.listed, List.append_assoc]
      rfl
    · refine Setting.exists_hasBits fun stored => ?_
      obtain ⟨width, wide, _⟩ := laid.stored stored
      exact ⟨width, wide⟩

end Run

section Places

variable {layout : RecordLayout} {fields : List Field} {offsets : List Bits} {gaps : List Gap}
variable {bits k : Nat}

/-- What has been placed ends with the field that was placed last. -/
theorem isLUB_next
    (before : IsLUB {stop | EndsBefore f.setting known f.record layout index stop} used)
    (past : used ≤ offset) (found : f.declaration.fields[index]? = some field)
    (has : f.setting.HasBits known field bits) (placed : layout.fieldOffsets[index]? = some offset) :
    IsLUB {stop | EndsBefore f.setting known f.record layout (index + 1) stop} (offset + bits) := by
  constructor
  · intro stop ends
    have earlier (ends : EndsBefore f.setting known f.record layout index stop) :
        stop ≤ offset + bits := (before.1 ends).trans (past.trans (Nat.le_add_right _ _))
    cases ends with
    | pointer own => exact earlier (.pointer own)
    | primary shared => exact earlier (.primary shared)
    | base full at' => exact earlier (.base full at')
    | @field k start bits' field' bound found' has' at' =>
      rcases Nat.lt_succ_iff_lt_or_eq.mp bound with less | rfl
      · exact earlier (.field less found' has' at')
      · have found' : f.declaration.fields[k]? = some field' := found'
        rw [placed] at at'
        rw [found] at found'
        cases at'
        cases found'
        rw [← has.eq, ← has'.eq]
  · exact fun bound above => above (.field (Nat.lt_succ_self index) found has placed)

/-- The next of the fields and offsets that are still to come, and where it leaves off. -/
theorem next_of_drop
    (declared : f.declaration.fields.drop index = field :: fields)
    (lies : layout.fieldOffsets.drop index = offset :: offsets)
    (before : IsLUB {stop | EndsBefore f.setting known f.record layout index stop} used)
    (past : used ≤ offset) (sized : ∃ bits, f.setting.HasBits known field bits) :
    (f.declaration.fields[index]? = some field ∧ layout.fieldOffsets[index]? = some offset) ∧
      f.declaration.fields.drop (index + 1) = fields ∧
      layout.fieldOffsets.drop (index + 1) = offsets ∧
      IsLUB {stop | EndsBefore f.setting known f.record layout (index + 1) stop}
        (offset + f.setting.bits known field) := by
  have found : f.declaration.fields[index]? = some field := by
    rw [← List.head?_drop, declared]
    rfl
  have placed : layout.fieldOffsets[index]? = some offset := by
    rw [← List.head?_drop, lies]
    rfl
  obtain ⟨bits, has⟩ := sized
  refine ⟨⟨found, placed⟩, ?_, ?_, has.eq ▸ isLUB_next before past found has placed⟩
  · rw [← List.tail_drop, declared, List.tail_cons]
  · rw [← List.tail_drop, lies, List.tail_cons]

/-- What is reported before a field. -/
structure GapBefore (f : Frame) (known : Known) (layout : RecordLayout) (gaps : List Gap) (k : Nat)
    (field : Field) (used counted offset : Nat) : Prop where
  placed : layout.fieldOffsets[k]? = some offset
  isLUB : IsLUB {stop | EndsBefore f.setting known f.record layout k stop} used
  counts : Counts known field used counted
  past : counted ≤ offset
  sized : ∃ bits, f.setting.HasBits known field bits
  reported : gapsAt (some k) gaps = gapTo (some k) counted offset

namespace Gapped

variable (h : Gapped f known index fields used offsets gaps stop)
include h

theorem place : ∀ gap ∈ gaps, ∃ k, index ≤ k ∧ gap.1 = some k := by
  induction h with
  | nil => exact nofun
  | @cons index _ _ _ _ _ _ _ _ _ _ _ _ ih =>
    intro gap member
    rcases List.mem_append.mp member with here | later
    · exact ⟨index, le_rfl, place_of_mem_gapTo here⟩
    · obtain ⟨k, past, same⟩ := ih gap later
      exact ⟨k, (Nat.le_succ index).trans past, same⟩

variable (declared : f.declaration.fields.drop index = fields)
variable (lies : layout.fieldOffsets.drop index = offsets)
variable (before : IsLUB {stop | EndsBefore f.setting known f.record layout index stop} used)
include declared lies before

/-- One field after the other, each of them past all that was there before it. -/
theorem each : (∀ k field, index ≤ k → f.declaration.fields[k]? = some field →
      ∃ used counted offset, GapBefore f known layout gaps k field used counted offset) ∧
    IsLUB {stop | EndsBefore f.setting known f.record layout (index + fields.length) stop} stop := by
  induction h with
  | @nil index used =>
    refine ⟨fun k field later found => ?_, before⟩
    rw [List.getElem?_eq_none ((List.drop_eq_nil_iff.mp declared).trans later)] at found
    cases found
  | @cons index used counted offset stop field fields offsets gaps counts past sized rest ih =>
    obtain ⟨⟨found, placed⟩, declared', lies', next⟩ :=
      next_of_drop declared lies before (counts.used_le.trans past) sized
    obtain ⟨later, last⟩ := ih declared' lies' next
    refine ⟨fun k field' from' found' => ?_, ?_⟩
    · rcases Nat.eq_or_lt_of_le from' with rfl | further
      · cases found.symm.trans found'
        refine ⟨used, counted, offset, placed, before, counts, past, sized, ?_⟩
        have none : gapsAt (some index) gaps = [] := gapsAt_eq_nil fun gap member same => by
          obtain ⟨k, later, place⟩ := rest.place gap member
          cases same.symm.trans place
          exact Nat.not_succ_le_self _ later
        rw [gapsAt_append, gapsAt_gapTo, none, List.append_nil]
      · obtain ⟨used', counted', offset', gap⟩ := later k field' further found'
        refine ⟨used', counted', offset', gap.placed, gap.isLUB, gap.counts, gap.past,
          gap.sized, ?_⟩
        have differs : some index ≠ some k := fun same => further.ne (Option.some.inj same)
        rw [gapsAt_append, gapsAt_gapTo_ne differs, List.nil_append, gap.reported]
    · rwa [List.length_cons, Nat.add_comm fields.length, ← Nat.add_assoc]

/-- Where no field that is wider than its type begins inside a byte, the bits of the fields and those
in the gaps make up everything. -/
theorem sum_eq (narrow : ∀ k field stop, f.declaration.fields[k]? = some field → IsWide known field →
      IsLUB {stop | EndsBefore f.setting known f.record layout k stop} stop → 8 ∣ stop) :
    used + ((fields.map (f.setting.bits known)).sum + (gaps.map Prod.snd).sum) = stop := by
  induction h with
  | nil => rfl
  | @cons index used counted offset stop field fields offsets gaps counts past sized rest ih =>
    obtain ⟨⟨found, placed⟩, declared', lies', next⟩ :=
      next_of_drop declared lies before (counts.used_le.trans past) sized
    have later := ih declared' lies' next
    have gap := sum_gapTo (some index) past
    rw [counts.eq_iff.mpr fun wide => narrow index field used found wide before] at gap ⊢
    rw [List.map_cons, List.sum_cons, List.map_append, List.sum_append]
    lia

end Gapped

end Places

end ObjectLayout.Itanium
