import ObjectLayout.Proofs.Itanium.Unpacking
import ObjectLayout.Proofs.Itanium.Padding
import ObjectLayout.Proofs.WellFormed

/-! The warning that a record need not be packed. It is decided from two numbers at the end of the
packed run: the alignment that nothing packed would have, and the size rounded up to that. So it speaks
for the size, but for the offsets only if no field is moved on its own. -/
namespace ObjectLayout

open LayoutM (Confined)

variable {known : Known}

/-- Nothing is said about the packing of a whole record. -/
def Note.SparesRecord (note : Note) : Prop :=
  ∀ warning, note = .warning warning → warning.remark ≠ .unnecessaryPackedRecord

namespace Itanium

variable {f : Frame} {st last : State} {warning : Warning}

theorem reportPlacement_spares (p : FieldPlacement) :
    (reportPlacement f p).Confined (fun _ => True) Note.SparesRecord := by
  have warns (remark : Remark) (other : remark ≠ .unnecessaryPackedRecord) :
      (f.warn remark).Confined (fun _ => True) Note.SparesRecord := by
    refine ⟨?_, trivial⟩
    rintro _ ⟨⟩
    exact other
  unfold reportPlacement
  exact .when_bind (warns _ nofun) fun _ => .ite (warns _ nofun) (.pure _)

theorem layFields_spares (st : State) :
    (layFields f st).Confined (fun _ => True) Note.SparesRecord :=
  layFields_asks (fun _ _ _ _ => trivial) (fun _ _ _ same => nomatch same) reportPlacement_spares
    fun _ _ => trivial

theorem reportSize_warns {unpadded unpacked : Bits}
    (told : Note.warning warning ∈ (reportSize f st unpadded unpacked).told known)
    (remark : warning.remark = .unnecessaryPackedRecord) :
    1 < st.unpackedAlignment ∧ st.size = unpacked := by
  unfold reportSize at told
  by_cases idle : (f.isPacked && decide (st.unpackedAlignment > 1) && st.size == unpacked) = true
  · simp only [Bool.and_eq_true, decide_eq_true_eq, beq_iff_eq] at idle
    exact ⟨idle.1.2, idle.2⟩
  · rw [if_neg idle] at told
    dsimp only at told
    split at told
    · rcases List.mem_cons.mp told with same | none
      · cases same
        cases remark
      · cases none
    · cases told

/-- The warning says that the size would be the same at the alignment that nothing packed would have. -/
theorem finish_warns (unsupplied : f.supplied = none)
    (done : (finish f st).eval known = .ok last)
    (told : Note.warning warning ∈ (finish f st).told known)
    (remark : warning.remark = .unnecessaryPackedRecord) :
    ∃ mid, st.avoidSizeZero f = .ok mid ∧ 1 < mid.unpackedAlignment ∧
      last.size = Quantity.roundUp mid.size (8 * mid.unpackedAlignment) := by
  unfold finish at done told
  obtain ⟨mid, avoided, done⟩ := LayoutM.eval_bind_eq_ok.mp done
  obtain ⟨unpadded, taken, done⟩ := LayoutM.eval_bind_eq_ok.mp done
  obtain ⟨bits, inBits, done⟩ := LayoutM.eval_bind_eq_ok.mp done
  obtain ⟨unpacked, aligned, done⟩ := LayoutM.eval_bind_eq_ok.mp done
  obtain ⟨bits', inBits', done⟩ := LayoutM.eval_bind_eq_ok.mp done
  obtain ⟨rounded, aligned', done⟩ := LayoutM.eval_bind_eq_ok.mp done
  rw [LayoutM.eval_lift] at avoided taken inBits aligned inBits' aligned'
  rw [LayoutM.told_lift_bind avoided, LayoutM.told_lift_bind taken, LayoutM.told_lift_bind inBits,
    LayoutM.told_lift_bind aligned, LayoutM.told_lift_bind inBits', LayoutM.told_lift_bind aligned'] at told
  rw [unsupplied] at done told
  dsimp only at done told
  obtain ⟨_, reported, rest⟩ := LayoutM.eval_bind_eq_ok.mp done
  cases rest
  rw [LayoutM.told_bind reported] at told
  rcases List.mem_append.mp told with told | none
  · obtain ⟨some, same⟩ := reportSize_warns told remark
    obtain ⟨rfl, _⟩ := Quantity.mul_eq_ok_iff.mp inBits
    obtain ⟨_, rfl, _⟩ := Quantity.alignTo_eq_ok_iff.mp aligned
    refine ⟨mid, avoided, some, ?_⟩
    rw [Nat.mul_comm 8]
    exact same
  · cases none

theorem finish_rounds (unsupplied : f.supplied = none) :
    Ends (fun _ => True) ((finish f st).eval known) fun last => ∃ mid, st.avoidSizeZero f = .ok mid ∧
      last = { mid with size := Quantity.roundUp mid.size (8 * mid.alignment) } := by
  refine finish_stages.imp ?_
  rintro last ⟨rounded, mid, stages⟩
  obtain ⟨_, rfl, _⟩ := Quantity.alignTo_eq_ok_iff.mp stages.aligned
  exact ⟨mid, stages.avoided, stages.computed unsupplied⟩

/-- A record that is no class is made larger just for being of size zero. -/
theorem avoidSizeZero_plain (plain : f.declaration.isClass = false) (st : State) :
    st.avoidSizeZero f = .ok { st with
      size := if f.setting.options.cplusplus && st.size == 0 then 8 else st.size } := by
  rw [State.avoidSizeZero, plain, Bool.not_false, Bool.true_or, Bool.and_true]
  split
  · rfl
  · rfl

theorem PlainStages.told {start fixed : State} {layout : RecordLayout}
    (h : PlainStages f known start fixed last layout)
    (told : Note.warning warning ∈ (layPlain f).told known)
    (remark : warning.remark = .unnecessaryPackedRecord) :
    Note.warning warning ∈ (finish f fixed).told known := by
  have finished (done : RecordLayout) : (pure done : LayoutM RecordLayout).told known = [] := rfl
  unfold layPlain at told
  rw [LayoutM.told_lift_bind h.started, LayoutM.told_bind h.fields, LayoutM.told_bind h.finished,
    finished, List.append_nil] at told
  rcases List.mem_append.mp told with early | late
  · exact absurd remark ((layFields_spares start).told known _ early warning rfl)
  · exact late

theorem initial_balanced (unsupplied : f.supplied = none) :
    Ends (fun _ => True) (State.initial f none) (·.Balanced f) := by
  have fresh : ({ emptyMap := none } : State).Balanced f := ⟨fun _ => le_rfl, rfl, fun _ => rfl⟩
  unfold State.initial
  rw [unsupplied]
  dsimp only
  split
  · rename_i mac68k
    exact ⟨fun free => absurd (mac68k.symm.trans free) nofun, rfl, fun _ => rfl⟩
  · cases f.declaration.attributes.alignment with
    | none => exact fresh
    | some alignment =>
      refine Ends.bind Ends.any fun st raised => ?_
      have parted : Parted f { emptyMap := none } st st :=
        ⟨_, alignment, alignment, alignment, rfl, rfl, le_rfl, le_rfl, raised, raised⟩
      exact parted.balanced unsupplied fresh

theorem initial_packed (r : RecordId)
    (same : (f.tree.record r).attributes.alignment = f.declaration.attributes.alignment) :
    State.initial { f.packed with record := r } none = State.initial f none := by
  have alignment : ({ f.packed with record := r } : Frame).declaration.attributes.alignment =
      f.declaration.attributes.alignment := same
  unfold State.initial
  rw [alignment]
  rfl

section Finish

variable {fixed fixed' last' : State} {r : RecordId}
variable (unsupplied : f.supplied = none) (heavier : Heavier fixed fixed')
variable (balanced : fixed'.Balanced f)
include unsupplied heavier balanced

/-- If no packing would leave the size of a packed record as it is, an alignment in between does. -/
theorem finish_packed (plain : f.declaration.isClass = false)
    (plain' : (f.tree.record r).isClass = false)
    (power : Quantity.isPowerOfTwo last.alignment = true)
    (power' : Quantity.isPowerOfTwo last'.alignment = true)
    (done : (finish { f.packed with record := r } fixed).eval known = .ok last)
    (done' : (finish f fixed').eval known = .ok last')
    (told : Note.warning warning ∈ (finish { f.packed with record := r } fixed).told known)
    (remark : warning.remark = .unnecessaryPackedRecord) : last'.size = last.size := by
  obtain ⟨mid, avoided, rfl⟩ :=
    (finish_rounds (f := { f.packed with record := r }) unsupplied).holds done
  obtain ⟨mid', avoided', rfl⟩ := (finish_rounds unsupplied).holds done'
  obtain ⟨_, avoided'', some, size⟩ :=
    finish_warns (f := { f.packed with record := r }) unsupplied done told remark
  cases avoided.symm.trans avoided''
  rw [avoidSizeZero_plain (f := { f.packed with record := r }) plain'] at avoided
  rw [avoidSizeZero_plain plain] at avoided'
  cases avoided
  cases avoided'
  have frame := heavier.frame
  have unpacked : fixed'.unpackedAlignment = fixed.unpackedAlignment := by rw [frame]
  have sizes : fixed'.size = fixed.size := by rw [frame]
  have free : f.isMac68k = false := by
    by_contra mac68k
    have one := balanced.settled (by simpa using mac68k)
    rw [unpacked] at one
    exact absurd some (one ▸ Nat.lt_irrefl 1)
  have three : fixed.alignment ∣ fixed'.alignment ∧
      fixed'.alignment ∣ fixed.unpackedAlignment :=
    ⟨Quantity.dvd_of_isPowerOfTwo power power' heavier.le,
      unpacked ▸ Quantity.dvd_of_isPowerOfTwo power' balanced.power (balanced.le free)⟩
  have bits {n : Nat} (power : Quantity.isPowerOfTwo n = true) : 0 < 8 * n :=
    Nat.mul_pos (by decide) (Quantity.pos_of_isPowerOfTwo power)
  rw [sizes]
  exact Quantity.roundUp_between (bits power) (bits power') (bits (unpacked ▸ balanced.power))
    (Nat.mul_dvd_mul_left 8 three.1) (Nat.mul_dvd_mul_left 8 three.2) size

end Finish

end Itanium

section Record

open Itanium

variable {s : Setting} {flags : WarningFlags} {r r' : RecordId} {layout layout' : RecordLayout}

/-- The second record is declared like the first one, which is packed, without that attribute. -/
structure Tree.Unpacks (tree : Tree) (r r' : RecordId) : Prop where
  packed : (tree.record r).attributes.isPacked = true
  attributes : (tree.record r').attributes = { (tree.record r).attributes with isPacked := false }
  fields : (tree.record r').fields = (tree.record r).fields
  isUnion : (tree.record r').isUnion = (tree.record r).isUnion
  isClass : (tree.record r').isClass = (tree.record r).isClass

theorem Tree.Unpacks.frame (unpacks : s.tree.Unpacks r r') :
    Frame.ofRecord s r none = { (Frame.ofRecord s r' none).packed with record := r } := by
  simp only [Frame.ofRecord, Frame.packed, unpacks.attributes, unpacks.isUnion, unpacks.packed]

/-- Each field of a record would get the place that it has if the record were packed from there on. -/
def Setting.PacksIdly (s : Setting) (known : Known) (r : RecordId) : Prop :=
  ∀ start, State.initial (Frame.ofRecord s r none) none = .ok start →
    (Frame.ofRecord s r none).PacksIdly known (s.tree.record r).fields.zipIdx start

/-- What the runs over the same fields go through, one with the attribute and one without. -/
structure BothRun (f : Frame) (known : Known) (r : RecordId) (layout layout' : RecordLayout)
    (start fixed last fixed' last' : State) : Prop where
  packed : PlainStages { f.packed with record := r } known start fixed last layout
  plain : PlainStages f known start fixed' last' layout'
  isPlain : f.declaration.isClass = false
  isPlain' : (f.tree.record r).isClass = false
  fields : f.declaration.fields = (f.tree.record r).fields
  unmapped : start.emptyMap = none
  balanced : start.Balanced f
  unplaced : start.fieldOffsets = []

theorem Setting.Knows.bothRun (knows : s.Knows known) (itanium : s.IsItanium)
    (unpacks : s.tree.Unpacks r r') (plain : (s.tree.record r).isClass = false)
    (laid : known.record r = .ok layout) (laid' : known.record r' = .ok layout') :
    ∃ start fixed last fixed' last',
      BothRun (Frame.ofRecord s r' none) known r layout layout' start fixed last fixed' last' := by
  have rules := knows.layout_eq itanium laid
  have rules' := knows.layout_eq itanium laid'
  have plain' : (s.tree.record r').isClass = false := unpacks.isClass.trans plain
  rw [layoutTracking_eq, if_neg (by simp [plain]), unpacks.frame] at rules
  rw [layoutTracking_eq, if_neg (by simp [plain'])] at rules'
  obtain ⟨start, fixed, last, stages⟩ := layPlain_stages.holds rules
  obtain ⟨start', fixed', last', stages'⟩ := layPlain_stages.holds rules'
  have alignment : (s.tree.record r).attributes.alignment = (s.tree.record r').attributes.alignment := by
    rw [unpacks.attributes]
  have started := stages.started
  rw [initial_packed (f := Frame.ofRecord s r' none) r alignment] at started
  cases started.symm.trans stages'.started
  have frame := Ends.holds (initial_frame rfl none) started
  refine ⟨start, fixed, last, fixed', last', stages, stages', plain', plain, unpacks.fields, ?_,
    Ends.holds (initial_balanced rfl) started, ?_⟩
  · rw [frame]
  · rw [frame]

theorem BothRun.runs {f : Frame} {start fixed last fixed' last' : State}
    (h : BothRun f known r layout layout' start fixed last fixed' last') :
    (f.declaration.fields.zipIdx.foldlM (layAnyField { f.packed with record := r }) start).eval known =
        .ok fixed ∧
      (f.declaration.fields.zipIdx.foldlM (layAnyField f) start).eval known = .ok fixed' := by
  refine ⟨?_, h.plain.fields⟩
  rw [h.fields]
  exact h.packed.fields

theorem BothRun.fieldOffsets {f : Frame} {start fixed last fixed' last' : State}
    (h : BothRun f known r layout layout' start fixed last fixed' last') (unsupplied : f.supplied = none) :
    layout.fieldOffsets = fixed.fieldOffsets ∧ layout'.fieldOffsets = fixed'.fieldOffsets := by
  obtain ⟨_, frame⟩ :=
    ((finish_ends (f := { f.packed with record := r }) unsupplied).holds h.packed.finished).frame
  obtain ⟨_, frame'⟩ := ((finish_ends unsupplied).holds h.plain.finished).frame
  rw [h.packed.layout, h.plain.layout, frame, frame']
  exact ⟨rfl, rfl⟩

theorem BothRun.packsIdly_iff {start fixed last fixed' last' : State}
    (h : BothRun (Frame.ofRecord s r' none) known r layout layout' start fixed last fixed' last') :
    s.PacksIdly known r' ↔
      (Frame.ofRecord s r' none).PacksIdly known (s.tree.record r').fields.zipIdx start := by
  refine ⟨fun idle => idle start h.plain.started, fun idle start' started => ?_⟩
  cases h.plain.started.symm.trans started
  exact idle

/-- Where the warning is pushed, the attribute has no effect on size and offsets just if it moves no
field on its own. -/
theorem unnecessary_packing_keeps_layout_iff (itanium : s.IsItanium)
    (plain : (s.tree.record r).isClass = false) (unpacks : s.tree.Unpacks r r')
    (warned : ∃ warning ∈ RecordLayout.pushed s flags r, warning.remark = .unnecessaryPackedRecord)
    (laid : (s.known s.depth).record r = .ok layout)
    (laid' : (s.known s.depth).record r' = .ok layout') :
    layout'.size = layout.size ∧ layout'.fieldOffsets = layout.fieldOffsets ↔
      s.PacksIdly (s.known s.depth) r' := by
  have knows := Setting.known_knows itanium.rules s.depth
  obtain ⟨warning, pushed, remark⟩ := warned
  obtain ⟨start, fixed, last, fixed', last', both⟩ := knows.bothRun itanium unpacks plain laid laid'
  obtain ⟨run, run'⟩ := both.runs
  obtain ⟨offsets, offsets'⟩ := both.fieldOffsets rfl
  obtain ⟨moves, settles⟩ := layAnyFields_packed rfl ⟨rfl, le_rfl⟩ both.unmapped run run'
  rw [both.packsIdly_iff, offsets, offsets']
  refine ⟨fun same => moves.mp same.2, fun idle => ?_⟩
  have same := moves.mpr idle
  obtain ⟨heavier, balanced⟩ := settles same
  have told := RecordLayout.told_of_pushed itanium laid pushed
  rw [layoutTracking_eq, if_neg (by simp [plain]), unpacks.frame] at told
  have power := (knows.wellFormed itanium laid).power
  have power' := (knows.wellFormed itanium laid').power
  rw [both.packed.layout] at power
  rw [both.plain.layout] at power'
  have size := finish_packed rfl heavier (balanced both.balanced) both.isPlain both.isPlain' power power'
    both.packed.finished both.plain.finished (both.packed.told told remark) remark
  refine ⟨?_, same⟩
  rw [both.packed.layout, both.plain.layout]
  change last'.sizeInBytes = last.sizeInBytes
  rw [State.sizeInBytes, size]
  rfl

/-- Where there are no bit-fields, packing moves no field just if the packed record puts every field at
a multiple of the alignment that it asks for without. -/
theorem Setting.Knows.packsIdly_iff (knows : s.Knows known) (itanium : s.IsItanium)
    (plain : (s.tree.record r).isClass = false) (unpacks : s.tree.Unpacks r r')
    (stored : ∀ field ∈ (s.tree.record r').fields, field.bitWidth = none)
    (laid : known.record r = .ok layout) (laid' : known.record r' = .ok layout') :
    s.PacksIdly known r' ↔ ∀ (index : Nat) field offset size natural,
      (s.tree.record r').fields[index]? = some field → layout.fieldOffsets[index]? = some offset →
      (fieldExtent (Frame.ofRecord s r' none) field.type).eval known = .ok (size, natural) →
        8 * (Frame.ofRecord s r' none).fieldAlignment field natural ∣ offset := by
  obtain ⟨start, fixed, last, fixed', last', both⟩ := knows.bothRun itanium unpacks plain laid laid'
  obtain ⟨run, run'⟩ := both.runs
  rw [both.packsIdly_iff, (both.fieldOffsets rfl).1]
  refine (packsIdly_iff_aligned rfl ⟨rfl, le_rfl⟩ both.unmapped ?_ run run').trans ?_
  · rintro ⟨field, index⟩ member
    exact stored field (List.fst_mem_of_mem_zipIdx member)
  · rw [both.unplaced]
    constructor
    · intro aligned index field offset size natural found at' extent
      have found : (s.tree.record r').fields.zipIdx[index]? = some (field, index) := by simp [found]
      exact aligned index (field, index) offset size natural found (by simpa using at') extent
    · rintro aligned index ⟨field, k⟩ offset size natural found at' extent
      have entry : (s.tree.record r').fields.zipIdx[index]? = some (field, k) := found
      rw [List.getElem?_zipIdx, Option.map_eq_some_iff] at entry
      obtain ⟨_, member, same⟩ := entry
      obtain ⟨rfl, _⟩ := Prod.mk.inj same
      exact aligned index _ offset size natural member (by simpa using at') extent

end Record

/-- For C: the same fields in the packed record `S` and in `T`. -/
def packedAndPlain (fields : List Field) : Setting :=
  { Setting.linux [.ofFields "S" fields .struct { isPacked := true }, .ofFields "T" fields] [] with
    options := {} }

theorem packedAndPlain_unpacks (fields : List Field) :
    (packedAndPlain fields).tree.Unpacks ⟨0⟩ ⟨1⟩ := by
  constructor <;> rfl

def twoInts : Setting :=
  let int : Ty := .scalar ⟨0⟩ (.integer .int .signed)
  packedAndPlain [{ name := "a", type := int }, { name := "b", type := int }]

theorem unnecessary_packing_keeps_layout_iff_twoInts : ∃ layout layout',
    (twoInts.known twoInts.depth).record ⟨0⟩ = .ok layout ∧
    (twoInts.known twoInts.depth).record ⟨1⟩ = .ok layout' ∧
    (∃ warning ∈ RecordLayout.pushed twoInts { packed := true } ⟨0⟩,
      warning.remark = .unnecessaryPackedRecord) ∧
    layout.size = 8 ∧ layout.fieldOffsets = [0, 32] ∧
    layout'.size = layout.size ∧ layout'.fieldOffsets = layout.fieldOffsets ∧
    twoInts.PacksIdly (twoInts.known twoInts.depth) ⟨1⟩ := by
  have shape : ((twoInts.known twoInts.depth).record ⟨0⟩).map (fun layout =>
      (layout.size, layout.fieldOffsets)) = .ok (8, [0, 32]) := by decide +kernel
  have shape' : ((twoInts.known twoInts.depth).record ⟨1⟩).map (fun layout =>
      (layout.size, layout.fieldOffsets)) = .ok (8, [0, 32]) := by decide +kernel
  have warned : ∃ warning ∈ RecordLayout.pushed twoInts { packed := true } ⟨0⟩,
      warning.remark = .unnecessaryPackedRecord := by decide +kernel
  obtain ⟨layout, laid⟩ := exists_ok (by decide +kernel :
    ((twoInts.known twoInts.depth).record ⟨0⟩).isOk = true)
  obtain ⟨layout', laid'⟩ := exists_ok (by decide +kernel :
    ((twoInts.known twoInts.depth).record ⟨1⟩).isOk = true)
  rw [laid] at shape
  rw [laid'] at shape'
  obtain ⟨size, offsets⟩ := Prod.mk.inj (Except.ok.inj shape)
  obtain ⟨size', offsets'⟩ := Prod.mk.inj (Except.ok.inj shape')
  have same := And.intro (size'.trans size.symm) (offsets'.trans offsets.symm)
  have idle := (unnecessary_packing_keeps_layout_iff ⟨rfl, fun _ => rfl⟩ rfl
    (packedAndPlain_unpacks _) warned laid laid').mp same
  exact ⟨layout, layout', laid, laid', warned, size, offsets, same.1, same.2, idle⟩

/-- A `char`, an `int` and three more `char`. -/
def intAmongLetters : Setting :=
  let int : Ty := .scalar ⟨0⟩ (.integer .int .signed)
  let char : Ty := .scalar ⟨1⟩ .plainChar
  packedAndPlain [{ name := "c", type := char }, { name := "i", type := int },
    { name := "d", type := char }, { name := "e", type := char }, { name := "f", type := char }]

/-- The packed size is a multiple of the alignment of `int`, so packing is called unnecessary. Without
it the `int` lies elsewhere, and the record is larger. -/
theorem unnecessary_packing_moves_fields_intAmongLetters :
    intAmongLetters.IsItanium ∧ intAmongLetters.tree.Unpacks ⟨0⟩ ⟨1⟩ ∧
    RecordLayout.pushed intAmongLetters { packed := true } ⟨0⟩ =
      [⟨"struct S", .unnecessaryPackedRecord⟩] ∧
    ((intAmongLetters.known intAmongLetters.depth).record ⟨0⟩).map (fun layout =>
      (layout.size, layout.fieldOffsets)) = .ok (8, [0, 8, 40, 48, 56]) ∧
    ((intAmongLetters.known intAmongLetters.depth).record ⟨1⟩).map (fun layout =>
      (layout.size, layout.fieldOffsets)) = .ok (12, [0, 32, 64, 72, 80]) :=
  ⟨⟨rfl, fun _ => rfl⟩, packedAndPlain_unpacks _, by decide +kernel, by decide +kernel,
    by decide +kernel⟩

end ObjectLayout
