import ObjectLayout.Proofs.Alignment
import ObjectLayout.Proofs.Itanium.PrimaryRule
import ObjectLayout.Proofs.Occurrence

/-! Bit-fields where declared types count towards alignment and nothing limits it. Such a bit-field
starts at the first bit after everything before it from which it does not reach past the unit of its
type. What is used when its turn comes ends exactly where the last of its predecessors ends. -/
namespace ObjectLayout

section Bit

variable {first alignment width typeSize offset : Nat}

/-- A bit-field lies at the first bit from which it does not reach past a unit of its type, counted
from a multiple of its alignment. One without bits lies at the first such multiple. -/
structure LeastBit (first alignment width typeSize offset : Nat) : Prop where
  bits : 0 < width → IsLeast {p | first ≤ p ∧ p % alignment + width ≤ typeSize} offset
  boundary : width = 0 → IsLeast {p | first ≤ p ∧ alignment ∣ p} offset

/-- The unit starts at the last multiple of the alignment. -/
theorem LeastBit.inside_unit (h : LeastBit first alignment width typeSize offset)
    (wide : 0 < width) :
    ∃ unit, alignment ∣ unit ∧ unit ≤ offset ∧ offset + width ≤ unit + typeSize := by
  obtain ⟨_, fits⟩ := (h.bits wide).1
  have split := Nat.div_add_mod offset alignment
  exact ⟨alignment * (offset / alignment), Nat.dvd_mul_right _ _, by omega, by omega⟩

/-- Units that start at multiples of their size have no boundary inside the bit-field. -/
theorem LeastBit.uncrossed (h : LeastBit first alignment width typeSize offset)
    (natural : typeSize ∣ alignment) {boundary : Nat} (multiple : typeSize ∣ boundary) :
    boundary ≤ offset ∨ offset + width ≤ boundary := by
  rcases Nat.eq_zero_or_pos width with rfl | wide
  · exact Nat.le_total boundary offset
  obtain ⟨unit, aligned, starts, stops⟩ := h.inside_unit wide
  rcases Nat.lt_or_ge unit boundary with later | earlier
  · have next : unit + typeSize ≤ boundary :=
      Nat.add_le_of_le_sub' later.le (Nat.le_of_dvd (Nat.sub_pos_of_lt later)
        (Nat.dvd_sub multiple (natural.trans aligned)))
    exact .inr (stops.trans next)
  · exact .inl (earlier.trans starts)

/-- Up to the next multiple of the alignment the remainders only grow. -/
theorem Quantity.mod_le_mod {p : Nat} (positive : 0 < alignment) (later : first ≤ p)
    (before : p < roundUp first alignment) : first % alignment ≤ p % alignment := by
  have split := Nat.div_add_mod first alignment
  have split' := Nat.div_add_mod p alignment
  have same : p / alignment = first / alignment := by
    apply Nat.le_antisymm _ (Nat.div_le_div_right later)
    by_contra further
    have passed : first ≤ alignment * (p / alignment) := by
      rw [Nat.mul_comm]
      exact (Nat.lt_mul_of_div_lt (Nat.lt_of_not_le further) positive).le
    have reached := roundUp_le positive passed (Nat.dvd_mul_right _ _)
    omega
  rw [same] at split'
  omega

end Bit

/-- Where something ends that lies before a field: the table pointer, if the class has its own, a
base that is neither virtual nor empty, a virtual base at the start, or an earlier field. -/
inductive EndsBefore (s : Setting) (known : Known) (d : RecordId) (layout : RecordLayout)
    (index : Nat) : Nat → Prop
  | pointer (own : layout.hasOwnVfptr = true) :
      EndsBefore s known d layout index (8 * s.target.pointerWidth)
  | primary {v : RecordId} (shared : layout.primaryBase? = some ⟨v, true⟩) :
      EndsBefore s known d layout index (8 * known.nonVirtualSize v)
  | base {b : RecordId} {x : Nat} (full : s.tree.isEmptyClass b = false)
      (at' : layout.baseOffset b = .ok x) :
      EndsBefore s known d layout index (8 * (x + known.nonVirtualSize b))
  | field {k start bits : Nat} {field : Field} (earlier : k < index)
      (found : (s.tree.record d).fields[k]? = some field) (has : s.HasBits known field bits)
      (at' : layout.fieldOffsets[k]? = some start) :
      EndsBefore s known d layout index (start + bits)

theorem EndsBefore.mono {s : Setting} {known : Known} {d : RecordId} {layout : RecordLayout}
    {index index' stop : Nat} (h : EndsBefore s known d layout index stop) (le : index ≤ index') :
    EndsBefore s known d layout index' stop := by
  cases h with
  | pointer own => exact .pointer own
  | primary shared => exact .primary shared
  | base full at' => exact .base full at'
  | field earlier found has at' => exact .field (earlier.trans_le le) found has at'

namespace Itanium

open LayoutM (ends_bind ends_lift_bind eval_bind_eq_ok)

variable {f : Frame} {known : Known} {g : SubobjectGraph} {pieces : List Piece}
variable {st st' : State} {field : Field} {type : TypeLayout} {layout : RecordLayout}
variable {index first alignment width typeSize : Nat}

theorem avoidCrossing_least (unlimited : f.maxFieldAlignment = 0)
    (power : Quantity.isPowerOfTwo alignment = true) (narrow : width ≤ typeSize) :
    Ends (fun _ => True) (avoidCrossing f first alignment width typeSize)
      (LeastBit first alignment width typeSize) := by
  have positive := Quantity.pos_of_isPowerOfTwo power
  have least {p : Nat} (aligned : Quantity.alignTo first alignment = .ok p) :
      IsLeast {p | first ≤ p ∧ alignment ∣ p} p := by
    obtain ⟨_, rfl, _⟩ := Quantity.alignTo_eq_ok_iff.mp aligned
    exact Quantity.roundUp_isLeast positive
  unfold avoidCrossing
  split
  · rename_i none
    have none : width = 0 := by simpa using none
    exact Ends.any.imp fun p aligned => ⟨fun wide => by omega, fun _ => least aligned⟩
  · rename_i some
    have some : width ≠ 0 := by simpa using some
    have crosses : Ends (fun _ => True) (crossesUnit f first alignment width typeSize) fun crosses =>
        crosses = true ↔ typeSize < first % alignment + width := by
      unfold crossesUnit
      rw [if_neg (not_not_intro unlimited)]
      refine Ends.bind Ends.any fun mask taken => Ends.bind Ends.any fun stop sum => ?_
      obtain ⟨_, rfl⟩ := Quantity.sub_eq_ok_iff.mp taken
      obtain ⟨rfl, _⟩ := Quantity.add_eq_ok_iff.mp sum
      obtain ⟨exponent, rfl⟩ := Quantity.exists_pow_of_isPowerOfTwo power
      rw [Nat.and_two_pow_sub_one_eq_mod]
      exact decide_eq_true_iff
    refine crosses.bind fun crosses exceeds => ?_
    split
    · rename_i yes
      refine Ends.any.imp fun p aligned => ⟨fun _ => ?_, fun none => absurd none some⟩
      obtain ⟨⟨later, whole⟩, lowest⟩ := least aligned
      refine ⟨⟨later, ?_⟩, ?_⟩
      · rw [Nat.mod_eq_zero_of_dvd whole, Nat.zero_add]
        exact narrow
      · rintro q ⟨later', fits⟩
        by_contra before
        have rounded := (Quantity.alignTo_eq_ok_iff.mp aligned).2.1
        have grows := Quantity.mod_le_mod positive later' (by omega)
        have beyond := exceeds.mp yes
        omega
    · rename_i no
      have fits := Nat.le_of_not_lt (fun beyond => no (exceeds.mpr beyond))
      exact ⟨fun _ => ⟨⟨le_rfl, fits⟩, fun _ later => later.1⟩, fun none => absurd none some⟩

/-- Without a maximum, an alignment in bits is that of the type or the one asked for. -/
theorem bitAlignment_actual (unlimited : f.maxFieldAlignment = 0) (isPacked ignoresType : Bool)
    (typeAlignment : Nat) :
    Ends (fun _ => True) (bitAlignment f field isPacked ignoresType width typeAlignment)
      fun alignment => alignment.actual = max (if isPacked || ignoresType then 1 else typeAlignment)
        (8 * field.alignment.getD 0) := by
  unfold bitAlignment
  refine Ends.bind Ends.any fun bits whole => ?_
  obtain ⟨rfl, _⟩ := Quantity.mul_eq_ok_iff.mp whole
  rw [unlimited, Nat.mul_comm 8]
  rfl

/-- What is used when a bit-field is laid out decides where it goes. -/
theorem layBitField_least (unsupplied : f.supplied = none) (sequential : f.IsSequential)
    (unlimited : f.maxFieldAlignment = 0) (typed : f.target.bitFieldRules.typeAlignment = true)
    (unpacked : f.isPacked = false) (plain : field.isPacked = false)
    (isBitField : field.bitWidth = some width) (knows : known.type field.type = .ok type)
    (power : Quantity.isPowerOfTwo type.alignment = true)
    (asked : ∀ n ∈ field.alignment, Quantity.isPowerOfTwo n = true)
    (narrow : width ≤ 8 * type.width) :
    Ends (fun _ => True) ((layBitField f index field width st).eval known) fun st' => ∃ offset,
      FieldLaid f known field offset st st' ∧
        LeastBit st.used (8 * max type.alignment (field.alignment.getD 0)) width (8 * type.width)
          offset := by
  obtain ⟨notUnion, notMsStruct⟩ := sequential
  have power' : Quantity.isPowerOfTwo (8 * max type.alignment (field.alignment.getD 0)) = true :=
    Quantity.isPowerOfTwo_bits (Quantity.isPowerOfTwo_max_right power (.getD asked))
  have still : st.entering f type = st := by rw [State.entering, notMsStruct]; rfl
  refine (layBitField_lays unsupplied).imp fun st' => ?_
  rintro ⟨type', known, remaining, ⟨wide, _⟩ | ⟨_, offset, laid⟩⟩
  · rw [knows] at known
    cases known
    exact absurd narrow (Nat.not_le_of_lt wide)
  rw [knows] at known
  cases known
  rw [still] at laid remaining
  have unshared (both : f.isMsStruct = true ∧ width ≠ 0) : f.SharesUnit known field :=
    absurd (notMsStruct.symm.trans both.1) Bool.false_ne_true
  refine ⟨offset, laid.fieldLaid isBitField remaining unshared, ?_⟩
  obtain ⟨alignment, start, aligned, started, avoided⟩ := laid.found
  have boundary : isZeroLengthBoundary f width = false := by
    rw [isZeroLengthBoundary, typed]
    rfl
  have declared : f.bitTypeAlignment st width type = 8 * type.alignment := by
    rw [Frame.bitTypeAlignment, boundary, declaredAlignment, notMsStruct]
    rfl
  rw [typed, unpacked, plain, declared] at aligned
  have actual := Ends.holds (bitAlignment_actual unlimited _ _ _) aligned
  change alignment.actual = max (8 * type.alignment) (8 * field.alignment.getD 0) at actual
  rw [Nat.mul_max_mul_left] at actual
  rw [notMsStruct, notUnion] at started
  cases started
  rw [actual] at avoided
  exact Ends.holds (avoidCrossing_least unlimited power' narrow) avoided

section Fields

variable {g : SubobjectGraph} {pieces : List Piece} {last : State}

/-- The fields of a record are laid out from a state in which what is used ends with the last of the
bases, or with the table pointer. -/
structure FieldsRun (f : Frame) (known : Known) (layout : RecordLayout) (g : SubobjectGraph)
    (pieces : List Piece) (st last : State) : Prop where
  progress : Progress f known g st.used pieces st
  unplaced : st.fieldOffsets = []
  remaining : st.unfilledBits ≤ st.dataSize
  whole : st.dataSize = 8 * Bits.toBytesCeil st.used
  storageUnit : st.storageUnit = 0
  run : (layFields f st).eval known = .ok last
  fieldOffsets : layout.fieldOffsets = last.fieldOffsets
  inside : last.size ≤ 8 * layout.size
  before : f.IsSequential →
    IsLUB {stop | EndsBefore f.setting known f.record layout 0 stop} st.used

namespace FieldsRun

variable (h : FieldsRun f known layout g pieces st last) (work : Workable f known fun _ => True)
include h work

/-- When the turn of a field comes, those before it have their places, which they keep. -/
theorem turn (found : f.declaration.fields[index]? = some field) : ∃ added mid mid',
    FieldsLaid f known g pieces added st mid ∧ mid.fieldOffsets.length = index ∧
      (layAnyField f mid (field, index)).eval known = .ok mid' ∧
        mid'.fieldOffsets <+: layout.fieldOffsets := by
  have there : f.declaration.fields.zipIdx[index]? = some (field, index) := by
    rw [List.getElem?_zipIdx, found]
    simp
  obtain ⟨bound, here⟩ := List.getElem?_eq_some_iff.mp there
  have split := (List.take_append_drop index f.declaration.fields.zipIdx).symm
  rw [List.drop_eq_getElem_cons bound, here] at split
  have run := h.run
  unfold layFields at run
  rw [split, List.foldlM_append] at run
  obtain ⟨mid, earlier, run⟩ := eval_bind_eq_ok.mp run
  rw [List.foldlM_cons] at run
  obtain ⟨mid', turn, later⟩ := eval_bind_eq_ok.mp run
  obtain ⟨added, laid, count⟩ := Ends.holds
    (layFirstFields_ends work h.progress h.unplaced (fun _ => h.remaining) split) earlier
  rw [List.length_take_of_le bound.le] at count
  refine ⟨added, mid, mid', laid, count, turn, ?_⟩
  obtain ⟨offset, next⟩ := Ends.holds (layAnyField_ends work.unsupplied) turn
  have through : f.declaration.fields.zipIdx = (f.declaration.fields.zipIdx.take index ++
      [(field, index)]) ++ f.declaration.fields.zipIdx.drop (index + 1) ++ [] := by
    simpa using split
  have counted : mid'.fieldOffsets.length =
      (f.declaration.fields.zipIdx.take index ++ [(field, index)]).length := by
    rw [next.listed, List.length_append, List.length_append,
      List.length_take_of_le bound.le, count]
    rfl
  obtain ⟨_, _, kept, _⟩ := layAnyFields_moves work.unsupplied through counted later
  rwa [h.fieldOffsets]

omit work in
/-- What is used then ends with the last of all that lies before. -/
theorem isLUB {added : List Piece} {mid : State} (sequential : f.IsSequential)
    (laid : FieldsLaid f known g pieces added st mid) (kept : mid.fieldOffsets <+: layout.fieldOffsets)
    (count : mid.fieldOffsets.length ≤ f.declaration.fields.length) :
    IsLUB {stop | EndsBefore f.setting known f.record layout mid.fieldOffsets.length stop} mid.used := by
  have progress := laid.progress.laid
  have here {k start : Nat} (bound : k < mid.fieldOffsets.length) :
      layout.fieldOffsets[k]? = some start ↔ Piece.field k start ∈ pieces ++ added := by
    obtain ⟨others, same⟩ := kept
    rw [progress.fields, ← same, List.getElem?_append_left bound]
  have earlier {stop : Nat} (ends : EndsBefore f.setting known f.record layout 0 stop) :
      stop ≤ mid.used := ((h.before sequential).1 ends).trans (laid.used_le sequential.1)
  constructor
  · intro stop ends
    cases ends with
    | pointer own => exact earlier (.pointer own)
    | primary shared => exact earlier (.primary shared)
    | base full at' => exact earlier (.base full at')
    | field before found has at' =>
      have reached := progress.reached sequential _ ((here before).mp at') rfl
      have found : f.declaration.fields[_]? = some _ := found
      rw [Piece.stop, found] at reached
      exact has.eq ▸ reached
  · intro bound above
    rcases laid.attained sequential with same | ⟨piece, member, same⟩
    · rw [same]
      exact (h.before sequential).2 fun stop ends => above (ends.mono (Nat.zero_le _))
    · obtain ⟨k, start, rfl⟩ := laid.fields piece member
      have there := List.mem_append_right pieces member
      obtain ⟨before, _⟩ := List.getElem?_eq_some_iff.mp ((progress.fields _ _).mp there)
      have found := List.getElem?_eq_getElem (before.trans_le count)
      obtain ⟨bits, has⟩ : ∃ bits, f.setting.HasBits known (f.declaration.fields[k]) bits := by
        refine Setting.exists_hasBits fun stored => ?_
        obtain ⟨width, wide, _⟩ := progress.stored k start there _ found stored
        exact ⟨width, wide⟩
      rw [same, Piece.stop, found, Option.elim_some, has.eq]
      exact above (.field before found has ((here before).mpr there))

end FieldsRun

section Bases

variable {own : Option RecordId} {mid fixed : State}
variable (h : ClassPhases f known own g pieces mid fixed layout)
include h

theorem ClassPhases.baseOffset_iff {b : RecordId} {x : Nat} : layout.baseOffset b = .ok x ↔
    ∃ i, Piece.base i x ∈ pieces ∧ (g.node i).isVirtual = false ∧ (g.node i).record = b := by
  obtain ⟨part, asClass, _, _, bases⟩ := h.part
  rw [← h.nonVirtual.direct.progress.laid.find?_base h.nonVirtual.charted, RecordLayout.baseOffset,
    RecordLayout.classLayout, asClass, ← bases]
  simp only [Bind.bind, Except.bind]
  cases part.baseOffsets.find? b <;> simp [Pure.pure, Except.pure]

theorem ClassPhases.hasOwnVfptr_iff : layout.hasOwnVfptr = true ↔
    f.tree.isDynamic f.record = true ∧ layout.primaryBase? = none := by
  rw [h.hasOwnVfptr_eq, h.primaryBase?_eq, h.points.2, Bool.and_eq_true, Option.isNone_iff_eq_none]
  rfl

/-- The virtual bases among the direct ones: a primary base, at the start. -/
theorem ClassPhases.virtual_at_start {i : SubobjectId} {x : Nat} (member : Piece.base i x ∈ pieces)
    (virt : (g.node i).isVirtual = true) :
    x = 0 ∧ layout.primaryBase? = some ⟨(g.node i).record, true⟩ := by
  have direct := h.nonVirtual.direct
  have progress := direct.progress.laid
  have claims := direct.virtual i x member virt
  obtain ⟨p, found, atStart⟩ := direct.own _ claims
  have listed := h.nonVirtual.charted.forest.listed i (progress.rooted i x member).1 virt
  rw [listed] at found
  cases found
  refine ⟨progress.distinct.unique member atStart, ?_⟩
  rw [h.primaryBase?_eq]
  obtain ⟨⟨r, isVirtual⟩, chosen, same⟩ :=
    Option.map_eq_some_iff.mp (h.nonVirtual.owned.symm.trans claims)
  obtain ⟨chosen, virt⟩ := Option.filter_eq_some_iff.mp chosen
  cases virt
  cases same
  exact chosen

/-- A virtual primary base is at the start. -/
theorem ClassPhases.primary_at_start {v : RecordId} (shared : layout.primaryBase? = some ⟨v, true⟩) :
    ∃ p, Piece.base p 0 ∈ pieces ∧ (g.node p).record = v := by
  have owned := h.nonVirtual.owned
  rw [h.primaryBase?_eq] at shared
  rw [shared] at owned
  obtain ⟨p, found, member⟩ := h.nonVirtual.direct.own v owned
  exact ⟨p, member, (h.nonVirtual.charted.forest.found v p found).2.1⟩

/-- What is used after the bases ends with the last of them, or with the table pointer. -/
theorem ClassPhases.isLUB (work : Workable f known fun _ => True) (sequential : f.IsSequential) :
    IsLUB {stop | EndsBefore f.setting known f.record layout 0 stop} mid.dataSize := by
  have direct := h.nonVirtual.direct
  have progress := direct.progress.laid
  constructor
  · intro stop ends
    cases ends with
    | pointer own => exact direct.dynamic (h.hasOwnVfptr_iff.mp own).1
    | primary shared =>
      obtain ⟨p, member, rfl⟩ := h.primary_at_start shared
      obtain ⟨_, choice⟩ := h.nonVirtual.choice
      have has := (progress.rooted p 0 member).1
      have path := SoundBelow.inherits (h.nonVirtual.charted.forest.below p has)
      rw [h.primaryBase?_eq] at shared
      have full := work.full_of_dynamic path rfl (choice.virtual _ shared).2.dynamic
      have reached := progress.reached sequential _ member full
      rwa [Piece.stop, Nat.zero_add] at reached
    | base full at' =>
      obtain ⟨i, member, _, rfl⟩ := h.baseOffset_iff.mp at'
      exact progress.reached sequential _ member full
    | field earlier => exact absurd earlier (Nat.not_lt_zero _)
  · intro bound above
    rcases direct.attained with none | ⟨dynamic, none, same⟩ | ⟨piece, member, full, same⟩
    · rw [none]
      exact Nat.zero_le _
    · rw [same]
      exact above (.pointer (h.hasOwnVfptr_iff.mpr ⟨dynamic, h.primaryBase?_eq.trans none⟩))
    · rw [same]
      cases piece with
      | field k start =>
        rw [progress.fields, direct.fieldOffsets] at member
        cases member
      | base i x =>
        cases virt : (g.node i).isVirtual with
        | false => exact above (.base full (h.baseOffset_iff.mpr ⟨i, member, virt, rfl⟩))
        | true =>
          obtain ⟨rfl, shared⟩ := h.virtual_at_start member virt
          rw [Piece.stop, Nat.zero_add]
          exact above (.primary shared)

theorem ClassPhases.fieldsRun (work : Workable f known fun _ => True) :
    FieldsRun f known layout g pieces mid fixed := by
  have direct := h.nonVirtual.direct
  constructor
  case progress => exact h.nonVirtual.used ▸ direct.progress
  case unplaced => exact direct.fieldOffsets
  case remaining =>
    rw [direct.unfilledBits]
    exact Nat.zero_le _
  case whole =>
    rw [h.nonVirtual.used]
    exact ((toBytesCeil_le h.nonVirtual.direct.whole le_rfl).antisymm (le_toBytesCeil _)).symm
  case storageUnit => exact h.storageUnit
  case run => exact h.fields
  case fieldOffsets => exact h.fieldOffsets
  case inside => exact h.inside
  case before => exact fun sequential => h.nonVirtual.used ▸ h.isLUB work sequential

end Bases

theorem PlainStages.fieldsRun {start fixed last : State}
    (h : PlainStages f known start fixed last layout) (work : Workable f known fun _ => True)
    (plain : f.declaration.isClass = false) :
    FieldsRun f known layout start.graph [] start fixed := by
  obtain ⟨fresh, empty⟩ := h.fresh work plain
  have bare := Ends.holds (initial_frame work.unsupplied none) h.started
  have finished := Ends.holds (finish_ends work.unsupplied) h.finished
  obtain ⟨size, frame⟩ := finished.frame
  have used : start.used = 0 := by
    rw [State.used, empty, Nat.zero_sub]
  obtain rfl := h.layout
  constructor
  case progress => exact fresh.progress _
  case unplaced => exact fresh.fieldOffsets
  case remaining =>
    rw [fresh.unfilledBits]
    exact Nat.zero_le _
  case whole =>
    rw [used, empty]
    rfl
  case storageUnit => rw [bare]
  case run => exact h.fields
  case fieldOffsets =>
    change last.fieldOffsets = fixed.fieldOffsets
    rw [frame]
  case inside => exact finished.grows.trans (le_toBytesCeil last.size)
  case before =>
    intro _
    rw [used]
    refine ⟨?_, fun _ _ => Nat.zero_le _⟩
    intro stop ends
    cases ends with
    | pointer own => cases own
    | primary shared => cases shared
    | base _ at' => cases at'
    | field earlier => exact absurd earlier (Nat.not_lt_zero _)

end Fields

end Itanium

/-- A record whose bit-fields are free to lie anywhere in a unit of their type: it is no union, its
fields are not packed, and no maximum limits their alignment. -/
structure Setting.FitsBits (s : Setting) (d : RecordId) : Prop where
  notUnion : (s.tree.record d).isUnion = false
  notMsStruct : (s.tree.record d).attributes.isMsStruct = false
  options : s.options.msBitFields = false
  unpacked : (s.tree.record d).attributes.isPacked = false
  notMac68k : (s.tree.record d).attributes.isMac68k = false
  noPack : (s.tree.record d).attributes.maxFieldAlignment.getD (s.options.packStruct.getD 0) = 0
  typed : s.target.bitFieldRules.typeAlignment = true

section Rule

open Itanium

variable {s : Setting} {known : Known} {d : RecordId} {layout : RecordLayout} {field : Field}
variable {type : TypeLayout} {index width : Nat}

/-- The fields of every completed record were laid out after what precedes them. -/
theorem Setting.Knows.fieldsRun (knows : s.Knows known) (itanium : s.IsItanium)
    (laid : known.record d = .ok layout) : ∃ g pieces st last,
      FieldsRun (Frame.ofRecord s d none) known layout g pieces st last := by
  have work := Workable.of_knows knows (knows.grounded laid) (knows.sound_and_below itanium laid).2
  have rules := knows.layout_eq itanium laid
  rw [layoutTracking_eq] at rules
  split at rules
  · obtain ⟨own, g, pieces, mid, fixed, phases⟩ := Ends.holds (layClass_phases work .pruned) rules
    exact ⟨g, pieces, mid, fixed, phases.fieldsRun work⟩
  · rename_i plain
    obtain ⟨start, fixed, last, stages⟩ := Ends.holds layPlain_stages rules
    exact ⟨_, [], start, fixed, stages.fieldsRun work (Bool.eq_false_iff.mpr plain)⟩

theorem Setting.FitsBits.sequential (fits : s.FitsBits d) :
    (Frame.ofRecord s d none).IsSequential := by
  refine ⟨fits.notUnion, ?_⟩
  change ((s.tree.record d).attributes.isMsStruct || s.options.msBitFields) = false
  rw [fits.notMsStruct, fits.options]
  rfl

theorem Setting.FitsBits.unlimited (fits : s.FitsBits d) :
    (Frame.ofRecord s d none).maxFieldAlignment = 0 := by
  change (if (s.tree.record d).attributes.isMac68k = true then 2 else _) = 0
  rw [fits.notMac68k]
  exact fits.noPack

/-- A bit-field that is no wider than its type lies at the least bit past `first`, the end of all that
precedes it, and therefore inside a unit of its type. -/
structure BitFieldFits (s : Setting) (known : Known) (d : RecordId) (layout : RecordLayout)
    (index alignment width typeSize first offset : Nat) : Prop where
  placed : layout.fieldOffsets[index]? = some offset
  precedes : IsLUB {stop | EndsBefore s known d layout index stop} first
  least : LeastBit first alignment width typeSize offset
  inside_unit : 0 < width →
    ∃ unit, alignment ∣ unit ∧ unit ≤ offset ∧ offset + width ≤ unit + typeSize
  uncrossed : typeSize ∣ alignment → ∀ boundary, typeSize ∣ boundary →
    boundary ≤ offset ∨ offset + width ≤ boundary

/-- Whatever precedes it, a bit-field goes to the least bit from which it fits into a unit of its
type, and one without bits to the least multiple of its alignment. -/
theorem bit_fields_take_least_bit {depth : Nat} (itanium : s.IsItanium) (fits : s.FitsBits d)
    (laid : (s.known depth).record d = .ok layout)
    (found : (s.tree.record d).fields[index]? = some field) (unpacked : field.isPacked = false)
    (isBitField : field.bitWidth = some width) (typed : (s.known depth).type field.type = .ok type)
    (power : Quantity.isPowerOfTwo type.alignment = true)
    (asked : ∀ n ∈ field.alignment, Quantity.isPowerOfTwo n = true)
    (narrow : width ≤ 8 * type.width) : ∃ first offset,
      BitFieldFits s (s.known depth) d layout index
        (8 * max type.alignment (field.alignment.getD 0)) width (8 * type.width) first offset := by
  have knows := Setting.known_knows itanium.rules depth
  have work := Workable.of_knows knows (knows.grounded laid) (knows.sound_and_below itanium laid).2
  obtain ⟨g, pieces, st, last, run⟩ := knows.fieldsRun itanium laid
  obtain ⟨added, mid, mid', before, count, turn, kept⟩ := run.turn work found
  rw [layAnyField, isBitField] at turn
  obtain ⟨offset, next, least⟩ := Ends.holds (layBitField_least rfl fits.sequential fits.unlimited
    fits.typed fits.unpacked unpacked isBitField typed power asked narrow) turn
  have rest := next.rest
  simp only [State.rest, Prod.mk.injEq] at rest
  rw [rest.1] at kept
  have here : layout.fieldOffsets[index]? = some offset := by
    obtain ⟨others, same⟩ := kept
    rw [← same, List.append_assoc, List.getElem?_append_right count.le, count, Nat.sub_self]
    rfl
  have ends := run.isLUB fits.sequential before ((List.prefix_append _ _).trans kept)
    (count ▸ (List.getElem?_eq_some_iff.mp found).1.le)
  rw [count] at ends
  exact ⟨mid.used, offset, here, ends, least, least.inside_unit,
    fun natural _ => least.uncrossed natural⟩

end Rule

/-- The data of `B` ends inside the first unit of `D`, and `b` does not fit into what is left of it. -/
def secondUnit : Setting :=
  .linux [
    .ofClass "B" [{ name := "c", type := .scalar ⟨0⟩ .plainChar }] [] [⟨0⟩],
    .ofClass "D" [
      { name := "a", type := .scalar ⟨1⟩ (.integer .int .signed), bitWidth := some 5 },
      { name := "b", type := .scalar ⟨1⟩ (.integer .int .signed), bitWidth := some 30 }]
      [{ record := ⟨0⟩ }] []]
    [{ name := "f", owner := ⟨0⟩, isVirtual := true }]

theorem bit_fields_take_least_bit_secondUnit : ∃ layout,
    (secondUnit.known 3).record ⟨1⟩ = .ok layout ∧ layout.fieldOffsets = [72, 96] ∧
      ∃ first offset, BitFieldFits secondUnit (secondUnit.known 3) ⟨1⟩ layout 1 32 30 32 first offset := by
  obtain ⟨layout, laid⟩ := exists_ok (by decide +kernel :
    ((secondUnit.known 3).record ⟨1⟩).isOk = true)
  have offsets : ((secondUnit.known 3).record ⟨1⟩).toOption.map (·.fieldOffsets) =
      some [72, 96] := by decide +kernel
  rw [laid] at offsets
  refine ⟨layout, laid, Option.some.inj offsets, ?_⟩
  have fits : secondUnit.FitsBits ⟨1⟩ := by constructor <;> decide
  have found : (secondUnit.tree.record ⟨1⟩).fields[1]? = some
    { name := "b", type := .scalar ⟨1⟩ (.integer .int .signed), bitWidth := some 30 } := rfl
  have typed : (secondUnit.known 3).type (.scalar ⟨1⟩ (.integer .int .signed)) =
    .ok (.natural 4) := rfl
  exact bit_fields_take_least_bit (Setting.linux_isItanium _ _) fits laid found rfl rfl typed
    (by decide) (by decide) (by decide)

end ObjectLayout
