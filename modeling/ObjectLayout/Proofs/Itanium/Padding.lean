import ObjectLayout.Proofs.Itanium.Contents
import ObjectLayout.Proofs.Itanium.Gaps
import ObjectLayout.Proofs.Session.Warnings

/-! The warnings about padding. They account for every bit between the parts of a record and after the
last of them, except where the counter of the bits left over in the last byte is taken for something
else: a bit-field wider than its type starts counting at the next byte, and at the end of the record
what the last field left over is still taken off although other things have been placed after it. -/
namespace ObjectLayout

namespace Itanium

open LayoutM (Reports)

variable {f : Frame} {known : Known} {st mid fixed last : State} {layout : RecordLayout}

/-- What is left over is taken off the size before it was rounded up. -/
theorem finish_reports (unsupplied : f.supplied = none) (some : st.size ≠ 0) :
    Reports known (finish f st) fun last gaps =>
      gaps = gapTo none (st.size - st.unfilledBits) last.size := by
  have avoided : st.avoidSizeZero f = .ok st := by
    have full : (st.size == 0) = false := beq_eq_false_iff_ne.mpr some
    rw [State.avoidSizeZero, full, Bool.and_false, Bool.false_and]
    rfl
  unfold finish
  refine Reports.lift_bind (G := (· = st)) (by rw [avoided]; rfl) fun st' same => ?_
  subst st'
  refine Reports.lift_bind Ends.any fun unpadded taken => ?_
  obtain ⟨_, rfl⟩ := Quantity.sub_eq_ok_iff.mp taken
  refine Reports.lift_bind Ends.any fun _ _ => Reports.lift_bind Ends.any fun unpacked _ => ?_
  refine Reports.lift_bind Ends.any fun _ _ => Reports.lift_bind Ends.any fun rounded _ => ?_
  rw [unsupplied]
  have sized : Reports known (reportSize f { st with size := rounded } (st.size - st.unfilledBits)
      unpacked) fun _ gaps => gaps = gapTo none (st.size - st.unfilledBits) rounded :=
    warnBoth_reports (by rw [Remark.gap?, Padding.toBits_ofBits]) rfl Iff.rfl
  refine sized.bind ?_
  rintro _ _ rfl
  exact List.append_nil _

/-- A record is finished after its fields, and perhaps virtual bases, have been placed. -/
structure Assembled (f : Frame) (known : Known) (x : LayoutM RecordLayout) (layout : RecordLayout)
    (mid fixed st last : State) : Prop where
  fields : (layFields f mid).eval known = .ok fixed
  unfilledBits : st.unfilledBits = fixed.unfilledBits
  finished : (finish f st).eval known = .ok last
  size : layout.size = last.sizeInBytes
  gaps : x.gaps known = (layFields f mid).gaps known ++ (finish f st).gaps known

/-- Bases are placed without a word. -/
theorem ClassStages.gaps_eq {tracking : Tracking} {map : EmptyMap} {start : State}
    (h : ClassStages f known tracking map start mid fixed st last layout) :
    (layClass f tracking).gaps known =
      (layFields f mid).gaps known ++ (finish f st).gaps known := by
  have answers : ∀ question isFree, Note.IsQuiet (.answered question isFree) := fun _ _ => rfl
  have quiet {α : Type} {x : LayoutM α} (asks : x.IsQuiet) :
      x.gaps known = [] := LayoutM.gaps_eq_nil asks known
  have started : (liftM (State.initial f (some map)) : LayoutM State).eval known = .ok start :=
    (LayoutM.eval_lift _).trans h.started
  unfold layClass
  rw [LayoutM.gaps_bind h.mapped, quiet (.of_silent (EmptyMap.ofClass_silent _ _)),
    LayoutM.gaps_bind started, quiet (.lift _),
    LayoutM.gaps_bind h.bases, quiet (layNonVirtualBases_asks answers), LayoutM.gaps_bind h.fields,
    LayoutM.gaps_bind h.virtualBases, quiet (layVirtualBases_asks answers),
    LayoutM.gaps_bind h.finished]
  simp only [List.nil_append]
  exact congrArg _ (List.append_nil _)

/-- The layout of a class, from its bases on. -/
theorem ClassStages.assembled {tracking : Tracking} {map : EmptyMap} {start : State}
    (h : ClassStages f known tracking map start mid fixed st last layout)
    (work : Workable f known fun _ => True) (laid : known.record f.record = .ok layout)
    (settled : Settled f.setting known f.record) (sequential : f.IsSequential) :
    ∃ g pieces, FieldsRun f known layout g pieces mid fixed ∧
      Assembled f known (layClass f tracking) layout mid fixed st last ∧ Contents f known layout st := by
  obtain ⟨own, g, based, added, pieces, placed⟩ := h.placed work
  have phases := h.phases work placed
  refine ⟨g, based, phases.fieldsRun work, ?_, ?_⟩
  · exact ⟨h.fields, placed.all.unfilledBits, h.finished, by rw [h.layout], h.gaps_eq⟩
  · exact (h.laid work placed).contents laid settled sequential phases.hasOwnVfptr_iff

theorem PlainStages.gaps_eq {start : State} (h : PlainStages f known start fixed last layout) :
    (layPlain f).gaps known = (layFields f start).gaps known ++ (finish f fixed).gaps known := by
  have started : (liftM (State.initial f none) : LayoutM State).eval known = .ok start :=
    (LayoutM.eval_lift _).trans h.started
  have quiet : (liftM (State.initial f none) : LayoutM State).gaps known = [] :=
    LayoutM.gaps_eq_nil (.lift _) known
  unfold layPlain
  rw [LayoutM.gaps_bind started, quiet, LayoutM.gaps_bind h.fields, LayoutM.gaps_bind h.finished,
    List.nil_append]
  exact congrArg _ (List.append_nil _)

/-- The layout of a record that is no class. -/
theorem PlainStages.assembled {start : State} (h : PlainStages f known start fixed last layout)
    (work : Workable f known fun _ => True) (plain : f.declaration.isClass = false)
    (sequential : f.IsSequential) : FieldsRun f known layout start.graph [] start fixed ∧
      Assembled f known (layPlain f) layout start fixed fixed last ∧ Contents f known layout fixed := by
  obtain ⟨added, fields, count⟩ := h.fieldsLaid work plain
  have run := h.fieldsRun work plain
  refine ⟨run, ⟨h.fields, rfl, h.finished, by rw [h.layout], h.gaps_eq⟩, ?_⟩
  exact fields.contents count run.fieldOffsets (by rw [h.layout])
    (work.grounded.mono fun _ _ edge => Tree.Inherits.holds edge) plain sequential

theorem exists_assembled {s : Setting} {d : RecordId} (knows : s.Knows known) (itanium : s.IsItanium)
    (laid : known.record d = .ok layout)
    (sequential : (Frame.ofRecord s d none).IsSequential) : ∃ g pieces mid fixed st last,
      FieldsRun (Frame.ofRecord s d none) known layout g pieces mid fixed ∧
        Assembled (Frame.ofRecord s d none) known (layoutTracking .pruned s d none) layout mid fixed
          st last ∧
        Contents (Frame.ofRecord s d none) known layout st := by
  have settled := knows.settled itanium laid
  have work := Workable.of_knows knows settled.grounded settled.sound
  have rules := knows.layout_eq itanium laid
  rw [layoutTracking_eq] at rules ⊢
  split at rules
  · rename_i isClass
    obtain ⟨map, start, mid, fixed, st, last, stages⟩ := Ends.holds (layClass_stages .pruned) rules
    obtain ⟨g, pieces, all⟩ := stages.assembled work laid settled sequential
    rw [if_pos isClass]
    exact ⟨g, pieces, mid, fixed, st, last, all⟩
  · rename_i plain
    obtain ⟨start, fixed, last, stages⟩ := Ends.holds layPlain_stages rules
    rw [if_neg plain]
    exact ⟨_, [], start, fixed, fixed, last,
      stages.assembled work (Bool.eq_false_iff.mpr plain) sequential⟩

end Itanium

section Pushed

variable {s : Setting} {flags : WarningFlags} {d : RecordId} {layout : RecordLayout} {known : Known}

/-- The warning of a note, if there is one and it is wanted. -/
def Note.pushed? (flags : WarningFlags) : Note → Option Warning
  | .warning told => if flags.wants told.remark then some told else none
  | .event _ | .answered .. => none

/-- The warnings about a record that are pushed, whether they are then kept or only printed. -/
def RecordLayout.pushed (s : Setting) (flags : WarningFlags) (r : RecordId) : List Warning :=
  ((ofRecord s r).told (s.known s.depth)).filterMap (·.pushed? flags)

theorem RecordLayout.warnings_eq_pushed (kept : flags.printOnly = false) (r : RecordId) :
    warnings s flags r = pushed s flags r := by
  refine List.filterMap_congr fun note _ => ?_
  cases note with
  | warning told => simp [Note.kept?, Note.pushed?, WarningFlags.keeps, kept]
  | event event => rfl
  | answered question isFree => rfl

theorem Note.bind_pushed? (padded : flags.padded = true) (note : Note) :
    (note.pushed? flags).bind (·.remark.gap?) = note.gap? := by
  cases note with
  | warning told =>
    obtain ⟨record, remark⟩ := told
    rw [pushed?]
    cases remark <;> split <;> simp_all [WarningFlags.wants, gap?, Remark.gap?]
  | event event => rfl
  | answered question isFree => rfl

/-- Where padding is asked for, every gap that is found is reported. -/
theorem RecordLayout.pushed_gaps (padded : flags.padded = true) (r : RecordId) :
    (pushed s flags r).filterMap (·.remark.gap?) = (ofRecord s r).gaps (s.known s.depth) := by
  rw [pushed, List.filterMap_filterMap]
  exact List.filterMap_congr fun note _ => note.bind_pushed? padded

/-- Around what the rules say about a record there are only the two events. -/
theorem RecordLayout.told_ofRecord (itanium : s.IsItanium)
    (laid : (ofRecord s d).eval known = .ok layout) :
    (ofRecord s d).told known = .event (.computing (s.tree.record d).friendlyName) ::
      ((Itanium.layoutTracking .pruned s d none).told known ++
        [.event (.computed (s.tree.record d).friendlyName layout.size layout.alignment)]) := by
  have rules : byRules s d = Itanium.layoutTracking .pruned s d none := by
    rw [byRules, itanium.rules, itanium.unsupplied]
    rfl
  obtain ⟨complete, run⟩ := ofRecord_itanium itanium.rules laid
  rw [itanium.unsupplied] at run
  have run : (Itanium.layoutTracking .pruned s d none).eval known = .ok layout := run
  have logged (event : Event) : (LayoutM.log event).eval known = .ok () := rfl
  unfold ofRecord
  rw [rules, LayoutM.told_lift_bind complete, LayoutM.told_bind (logged _), LayoutM.told_bind run,
    LayoutM.told_bind (logged _)]
  rfl

/-- Only the rules themselves report gaps. -/
theorem RecordLayout.gaps_ofRecord (itanium : s.IsItanium)
    (laid : (ofRecord s d).eval known = .ok layout) :
    (ofRecord s d).gaps known = (Itanium.layoutTracking .pruned s d none).gaps known := by
  rw [LayoutM.gaps, told_ofRecord itanium laid, List.filterMap_cons_none rfl, List.filterMap_append]
  exact List.append_nil _

/-- A warning that is pushed comes from the rules. -/
theorem RecordLayout.told_of_pushed (itanium : s.IsItanium)
    (laid : (s.known s.depth).record d = .ok layout) {warning : Warning}
    (pushed : warning ∈ RecordLayout.pushed s flags d) :
    .warning warning ∈ (Itanium.layoutTracking .pruned s d none).told (s.known s.depth) := by
  obtain ⟨note, told, same⟩ := List.mem_filterMap.mp pushed
  rw [told_ofRecord itanium (s.known_record laid)] at told
  cases note with
  | event event => cases same
  | answered question isFree => cases same
  | warning said =>
    rw [Note.pushed?] at same
    split at same
    · cases same
      simpa using told
    · cases same

end Pushed

/-- The gaps that are reported for a record are those between its parts, except behind bits that a
bit-field has left over. -/
structure PaddingReported (s : Setting) (known : Known) (d : RecordId) (layout : RecordLayout)
    (gaps : List Gap) : Prop where
  /-- Before a field the gap is that from the end of everything before it, unless the field is wider
  than its type and begins inside a byte that is taken in part. -/
  field : ∀ index field, (s.tree.record d).fields[index]? = some field → ∃ offset stop,
    layout.fieldOffsets[index]? = some offset ∧
    IsLUB {stop | EndsBefore s known d layout index stop} stop ∧ stop ≤ offset ∧
    (gapsAt (some index) gaps = gapTo (some index) stop offset ↔ (Itanium.IsWide known field → 8 ∣ stop))
  /-- At the end the gap is that from the end of everything, unless the fields end inside a byte and
  something has been placed after them. -/
  size : ∃ fields stop,
    IsLUB {stop | EndsBefore s known d layout (s.tree.record d).fields.length stop} fields ∧
    IsLUB {stop | EndsIn s known d layout stop} stop ∧ stop ≤ 8 * layout.size ∧
    (gapsAt none gaps = gapTo none stop (8 * layout.size) ↔ (8 ∣ fields ∨ fields = stop))
  /-- Where there are only fields, these and the gaps make up the record. -/
  sum : (s.tree.record d).isClass = false →
    (∀ index field stop, (s.tree.record d).fields[index]? = some field → Itanium.IsWide known field →
      IsLUB {stop | EndsBefore s known d layout index stop} stop → 8 ∣ stop) →
    ((s.tree.record d).fields.map (s.bits known)).sum + (gaps.map Prod.snd).sum = 8 * layout.size

section Exact

open Itanium

variable {s : Setting} {flags : WarningFlags} {d : RecordId} {layout : RecordLayout} {known : Known}
variable {g : SubobjectGraph} {pieces : List Piece} {mid fixed st last : State}

/-- What the last field has left over may be taken off only if nothing comes after it. -/
theorem leftover_eq_iff {fields stop : Nat} (le : fields ≤ stop) (last : 8 ∣ stop ∨ stop = fields) :
    8 * Bits.toBytesCeil stop - (8 * Bits.toBytesCeil fields - fields) = stop ↔
      (8 ∣ fields ∨ fields = stop) := by
  have ceil := le_toBytesCeil fields
  rcases last with whole | rfl
  · rw [(toBytesCeil_le whole le_rfl).antisymm (le_toBytesCeil stop)]
    constructor
    · intro none
      have left : 8 * Bits.toBytesCeil fields ≤ stop := toBytesCeil_le whole le
      have multiple : 8 ∣ 8 * Bits.toBytesCeil fields := Nat.dvd_mul_right 8 _
      lia
    · rintro (whole' | rfl)
      · rw [(toBytesCeil_le whole' le_rfl).antisymm ceil, Nat.sub_self, Nat.sub_zero]
      · rw [(toBytesCeil_le whole le_rfl).antisymm ceil, Nat.sub_self, Nat.sub_zero]
  · exact iff_of_true (Nat.sub_sub_self ceil) (.inr rfl)

/-- The size of the layout in bits is that of the finished state. -/
theorem Itanium.Assembled.size_eq {f : Frame} {x : LayoutM RecordLayout}
    (h : Assembled f known x layout mid fixed st last) (unsupplied : f.supplied = none) :
    8 * layout.size = last.size ∧ st.size ≤ last.size := by
  have finished := Ends.holds (finish_ends unsupplied) h.finished
  have multiple : 8 ∣ last.size := (Nat.dvd_mul_right 8 _).trans finished.whole
  rw [h.size]
  exact ⟨(toBytesCeil_le multiple le_rfl).antisymm (le_toBytesCeil _), finished.grows⟩

/-- What is reported at the end is counted from the end of the contents, less what the fields have left
over of their last byte. -/
theorem Itanium.Assembled.gap_at_end {f : Frame} {x : LayoutM RecordLayout}
    (h : Assembled f known x layout mid fixed st last) (unsupplied : f.supplied = none)
    (full : st.size ≠ 0) (remaining : fixed.unfilledBits ≤ fixed.dataSize)
    (whole : fixed.dataSize = 8 * Bits.toBytesCeil fixed.used) {stop : Nat}
    (size : st.size = 8 * Bits.toBytesCeil stop) : (finish f st).gaps known =
      gapTo none (8 * Bits.toBytesCeil stop - (8 * Bits.toBytesCeil fixed.used - fixed.used))
        (8 * layout.size) := by
  have left : fixed.unfilledBits = 8 * Bits.toBytesCeil fixed.used - fixed.used := by
    rw [← whole]
    exact (Nat.sub_sub_self remaining).symm
  have reported := Ends.holds (finish_reports unsupplied full) h.finished
  rwa [size, h.unfilledBits, left, ← (h.size_eq unsupplied).1] at reported

/-- The gaps between the fields, and the one at the end. -/
theorem Itanium.Assembled.paddingReported {f : Frame} {x : LayoutM RecordLayout}
    (h : Assembled f known x layout mid fixed st last) (unsupplied : f.supplied = none)
    (sequential : f.IsSequential) (run : FieldsRun f known layout g pieces mid fixed)
    (contents : Contents f known layout st)
    (isClass : layout.asClass.isSome = f.declaration.isClass)
    (filled : ∃ field ∈ f.declaration.fields, f.setting.bits known field ≠ 0) :
    PaddingReported f.setting known f.record layout (x.gaps known) := by
  obtain ⟨offsets, placed, gapped, remaining, whole⟩ := Ends.holds
    (layAnyFields_reports unsupplied sequential f.declaration.fields 0 mid run.remaining run.whole)
    h.fields
  change Gapped f known 0 f.declaration.fields mid.used offsets ((layFields f mid).gaps known)
    fixed.used at gapped
  rw [run.unplaced, List.nil_append] at placed
  have lies : layout.fieldOffsets.drop 0 = offsets := run.fieldOffsets.trans placed
  have before := run.before sequential
  obtain ⟨each, fieldsEnd⟩ := gapped.each (by rfl) lies before
  rw [Nat.zero_add] at fieldsEnd
  obtain ⟨stop, all, size⟩ := contents.exists_isLUB
  obtain ⟨le, lastly⟩ := contents.last fieldsEnd all
  -- Some field has bits, so there is no size zero to avoid.
  have full : st.size ≠ 0 := by
    obtain ⟨field, member, bits⟩ := filled
    obtain ⟨k, found⟩ := List.mem_iff_getElem?.mp member
    obtain ⟨used, counted, offset, gap⟩ := each k field (Nat.zero_le k) found
    obtain ⟨width, has⟩ := gap.sized
    have inside := contents.above _ (.field found has gap.placed)
    rw [has.eq] at bits
    exact Nat.ne_of_gt (by omega)
  have within : 8 * Bits.toBytesCeil stop ≤ 8 * layout.size := by
    obtain ⟨same, grows⟩ := h.size_eq unsupplied
    rwa [same, ← size]
  have stops : stop ≤ 8 * layout.size := (le_toBytesCeil stop).trans within
  rw [h.gaps, h.gap_at_end unsupplied full remaining whole size]
  constructor
  case field =>
    intro index field found
    obtain ⟨used, counted, offset, gap⟩ := each index field (Nat.zero_le index) found
    refine ⟨offset, used, gap.placed, gap.isLUB, gap.counts.used_le.trans gap.past, ?_⟩
    rw [gapsAt_append, gap.reported, gapsAt_gapTo_ne (Option.some_ne_none index).symm, List.append_nil,
      gapTo_inj gap.past (gap.counts.used_le.trans gap.past), gap.counts.eq_iff]
  case size =>
    refine ⟨fixed.used, stop, fieldsEnd, all, stops, ?_⟩
    have elsewhere : gapsAt none ((layFields f mid).gaps known) = [] :=
      gapsAt_eq_nil fun gap member same => by
        obtain ⟨k, _, place⟩ := gapped.place gap member
        cases same.symm.trans place
    rw [gapsAt_append, elsewhere, List.nil_append, gapsAt_gapTo,
      gapTo_inj ((Nat.sub_le _ _).trans within) stops, leftover_eq_iff le lastly]
  case sum =>
    intro plain narrow
    have asClass : layout.asClass = none := Option.not_isSome_iff_eq_none.mp fun isSome =>
      Bool.false_ne_true (plain.symm.trans (isClass.symm.trans isSome))
    have empty : mid.used = 0 := Nat.le_zero.mp (before.2 fun stop ends => by
      obtain ⟨k, earlier, _⟩ := ends.fieldEnds asClass
      exact absurd earlier (Nat.not_lt_zero k))
    have same : fixed.used = stop := le.antisymm (contents_le_fields asClass fieldsEnd all)
    have sum := gapped.sum_eq (by rfl) lies before narrow
    rw [empty, Nat.zero_add, same] at sum
    have atEnd := sum_gapTo none stops
    rw [(leftover_eq_iff le lastly).mpr (.inr same), List.map_append, List.sum_append]
    change (f.declaration.fields.map (f.setting.bits known)).sum + _ = _
    lia

/-- The warnings about padding are exact, and where a field is wider than its type or something is
placed after the fields they are so just where whole bytes come before. -/
theorem padding_warnings_exact (itanium : s.IsItanium)
    (notUnion : (s.tree.record d).isUnion = false)
    (notMsStruct : (s.tree.record d).attributes.isMsStruct = false)
    (options : s.options.msBitFields = false) (padded : flags.padded = true)
    (laid : (s.known s.depth).record d = .ok layout)
    (filled : ∃ field ∈ (s.tree.record d).fields, s.bits (s.known s.depth) field ≠ 0) :
    (flags.printOnly = false → RecordLayout.warnings s flags d = RecordLayout.pushed s flags d) ∧
      PaddingReported s (s.known s.depth) d layout
        ((RecordLayout.pushed s flags d).filterMap (·.remark.gap?)) := by
  refine ⟨fun kept => RecordLayout.warnings_eq_pushed kept d, ?_⟩
  have knows := Setting.known_knows itanium.rules s.depth
  have sequential : (Frame.ofRecord s d none).IsSequential := by
    refine ⟨notUnion, ?_⟩
    change ((s.tree.record d).attributes.isMsStruct || s.options.msBitFields) = false
    rw [notMsStruct, options]
    rfl
  obtain ⟨layout', laid', isClass, _⟩ := (knows.sound itanium laid).laid
  cases laid.symm.trans laid'
  obtain ⟨g, pieces, mid, fixed, st, last, run, assembled, contents⟩ :=
    exists_assembled knows itanium laid sequential
  rw [RecordLayout.pushed_gaps padded, RecordLayout.gaps_ofRecord itanium (s.known_record laid)]
  exact assembled.paddingReported rfl sequential run contents isClass filled

end Exact

/-- What is said about a setting with all warnings about padding. -/
def Setting.gapsOf (s : Setting) (d : RecordId) : List Gap :=
  (RecordLayout.pushed s { padded := true } d).filterMap (·.remark.gap?)

/-- An empty base, a base with data, bits, bytes, and a virtual base after the fields. -/
def paddedParts : Setting :=
  .linux [
    .ofClass "E" [] [] [],
    .ofClass "B" [{ name := "i", type := .scalar ⟨1⟩ (.integer .int .signed) }] [] [],
    .ofClass "V" [{ name := "v", type := .scalar ⟨0⟩ .plainChar }] [] [],
    .ofClass "D" [
      { name := "a", type := .scalar ⟨1⟩ (.integer .int .signed), bitWidth := some 3 },
      { name := "c", type := .scalar ⟨0⟩ .plainChar },
      { name := "i", type := .scalar ⟨1⟩ (.integer .int .signed) }]
      [{ record := ⟨0⟩ }, { record := ⟨1⟩ }, { record := ⟨2⟩, isVirtual := true }] []] []

theorem padding_warnings_exact_paddedParts : ∃ layout,
    (paddedParts.known paddedParts.depth).record ⟨3⟩ = .ok layout ∧
      layout.fieldOffsets = [96, 104, 128] ∧ layout.size = 24 ∧
      paddedParts.gapsOf ⟨3⟩ = [(some 1, 5), (some 2, 16), (none, 24)] ∧
      PaddingReported paddedParts (paddedParts.known paddedParts.depth) ⟨3⟩ layout
        (paddedParts.gapsOf ⟨3⟩) := by
  obtain ⟨layout, laid⟩ := exists_ok (by decide +kernel :
    ((paddedParts.known paddedParts.depth).record ⟨3⟩).isOk = true)
  have shape : ((paddedParts.known paddedParts.depth).record ⟨3⟩).toOption.map (fun layout =>
      (layout.fieldOffsets, layout.size)) = some ([96, 104, 128], 24) := by decide +kernel
  rw [laid] at shape
  obtain ⟨offsets, size⟩ := Prod.mk.inj (Option.some.inj shape)
  refine ⟨layout, laid, offsets, size, by decide +kernel, ?_⟩
  have padded : ({ padded := true } : WarningFlags).padded = true := rfl
  exact (padding_warnings_exact (Setting.linux_isItanium _ _) rfl rfl rfl padded laid
    ⟨_, List.mem_cons_self, by decide⟩).2

/-- Three bits of a byte are taken, and then comes a bit-field wider than its type, or the end of the
fields and a virtual base. -/
def bitsLeftOver : Setting :=
  .linux [
    .ofFields "S" [
      { name := "a", type := .scalar ⟨1⟩ (.integer .int .signed), bitWidth := some 3 },
      { name := "b", type := .scalar ⟨0⟩ .plainChar, bitWidth := some 40 }],
    .ofClass "V" [{ name := "v", type := .scalar ⟨0⟩ .plainChar }] [] [],
    .ofClass "D" [{ name := "a", type := .scalar ⟨1⟩ (.integer .int .signed), bitWidth := some 3 }]
      [{ record := ⟨1⟩, isVirtual := true }] []] []

/-- The gap before the wide bit-field is counted from the end of the byte, and the one behind the
virtual base together with what is left of the byte. -/
theorem gaps_miscounted_bitsLeftOver :
    (∃ layout, (bitsLeftOver.known bitsLeftOver.depth).record ⟨0⟩ = .ok layout ∧
      layout.fieldOffsets = [0, 32] ∧ gapsAt (some 1) (bitsLeftOver.gapsOf ⟨0⟩) = [(some 1, 24)] ∧
      ∀ stop, IsLUB {stop | EndsBefore bitsLeftOver (bitsLeftOver.known bitsLeftOver.depth) ⟨0⟩
        layout 1 stop} stop → gapsAt (some 1) (bitsLeftOver.gapsOf ⟨0⟩) ≠ gapTo (some 1) stop 32) ∧
    ∃ layout, (bitsLeftOver.known bitsLeftOver.depth).record ⟨2⟩ = .ok layout ∧
      layout.size = 16 ∧ gapsAt none (bitsLeftOver.gapsOf ⟨2⟩) = [(none, 53)] ∧
      ∀ stop, IsLUB {stop | EndsIn bitsLeftOver (bitsLeftOver.known bitsLeftOver.depth) ⟨2⟩ layout stop}
        stop → gapsAt none (bitsLeftOver.gapsOf ⟨2⟩) ≠ gapTo none stop 128 := by
  constructor
  · obtain ⟨layout, laid⟩ := exists_ok (by decide +kernel :
      ((bitsLeftOver.known bitsLeftOver.depth).record ⟨0⟩).isOk = true)
    have shape : ((bitsLeftOver.known bitsLeftOver.depth).record ⟨0⟩).toOption.map (fun layout =>
        (layout.fieldOffsets, layout.asClass.isSome)) = some ([0, 32], false) := by decide +kernel
    have reported : gapsAt (some 1) (bitsLeftOver.gapsOf ⟨0⟩) = [(some 1, 24)] := by decide +kernel
    rw [laid] at shape
    obtain ⟨offsets, plain⟩ := Prod.mk.inj (Option.some.inj shape)
    refine ⟨layout, laid, offsets, reported, fun stop lub same => ?_⟩
    have bits : stop ≤ 3 := lub.2 fun stop ends => by
      obtain ⟨k, earlier, field, start, bits, found, has, at', rfl⟩ :=
        ends.fieldEnds (Option.not_isSome_iff_eq_none.mp (by rw [plain]; exact Bool.false_ne_true))
      obtain rfl : k = 0 := by omega
      rw [offsets] at at'
      cases at'
      cases found
      rw [show bits = 3 from has]
    have gap := stop_add_of_gapTo (same.symm.trans reported)
    exact absurd (gap ▸ Nat.add_le_add_right bits 24) (by decide)
  · obtain ⟨layout, laid⟩ := exists_ok (by decide +kernel :
      ((bitsLeftOver.known bitsLeftOver.depth).record ⟨2⟩).isOk = true)
    have shape : ((bitsLeftOver.known bitsLeftOver.depth).record ⟨2⟩).toOption.map (·.size) =
        some 16 := by decide +kernel
    have placed : (bitsLeftOver.known bitsLeftOver.depth).virtualBaseOffset? ⟨2⟩ ⟨1⟩ = some 9 := by
      decide +kernel
    have span : bitsLeftOver.span (bitsLeftOver.known bitsLeftOver.depth) ⟨1⟩ = 1 := by decide +kernel
    have reported : gapsAt none (bitsLeftOver.gapsOf ⟨2⟩) = [(none, 53)] := by decide +kernel
    rw [laid] at shape
    refine ⟨layout, laid, Option.some.inj shape, reported, fun stop lub same => ?_⟩
    have reaches : 8 * (9 + 1) ≤ stop := by
      have ends := lub.1 (EndsIn.virtualBase (Known.virtualBaseOffset_eq laid placed))
      rwa [span] at ends
    have gap := stop_add_of_gapTo (same.symm.trans reported)
    exact absurd (gap ▸ Nat.add_le_add_right reaches 53) (by decide)

end ObjectLayout
