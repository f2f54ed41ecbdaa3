import ObjectLayout.Proofs.Microsoft.Powers

/-! Offsets as multiples of alignments. Bases and fields are placed at multiples of the alignments that
they get, and the alignment of the record keeps up with them as far as packing lets it. Pointers that
are pushed in later move them by multiples of that alignment, which is all that an offset can rely on. -/
namespace ObjectLayout.Microsoft

open LayoutM (ends_bind ends_lift_bind)
open Quantity (isPowerOfTwo IsPowerOrZero isPowerOfTwo_max_right dvd_of_isPowerOfTwo)

variable {f : Frame} {known : Known} {st st' : State} {field : Field}

section Clamp

variable {a b : Nat}

theorem Frame.clamp_mono (f : Frame) (le : a ≤ b) : f.clamp a ≤ f.clamp b := by
  unfold clamp
  split
  · exact le
  · exact min_le_min_right _ le

theorem Frame.clamp_clamp (f : Frame) (a : Nat) : f.clamp (f.clamp a) = f.clamp a := by
  unfold clamp
  split <;> simp

theorem Frame.clamp_max (f : Frame) (a b : Nat) : f.clamp (max a b) = max (f.clamp a) (f.clamp b) := by
  unfold clamp
  split
  · rfl
  · exact min_max_distrib_right a b _

/-- What a base brings keeps an alignment under the maximum. -/
theorem Frame.clamp_raised (f : Frame) (clamped : f.clamp a = a) (b : Nat) :
    f.clamp (max a (f.clamp b)) = max a (f.clamp b) := by
  rw [f.clamp_max, f.clamp_clamp, clamped]

end Clamp

/-- The alignment of the record so far is not above the maximum for fields. -/
def State.IsClamped (f : Frame) (st : State) : Prop := f.clamp st.alignment = st.alignment

section Fields

/-- The alignment that a field is placed with, unless it is a bit-field. -/
def Frame.fieldAlignment (f : Frame) (known : Known) (field : Field) : Nat :=
  let natural := match field.type.baseElement.asRecord? with
    | some r => (known.record r).toOption.elim 0 f.baseAlignment
    | none => f.clamp ((known.type field.type).toOption.elim 0 (·.alignment))
  max (if field.isPacked then 1 else natural) (field.alignment.getD 0)

namespace Frame.HasPowers

variable (h : f.HasPowers known)
include h

/-- The alignment that an enclosed record is placed with is a power of two. -/
theorem baseAlignment {r : RecordId} {layout : RecordLayout}
    (encloses : Relation.TransGen f.tree.Encloses f.record r) (laid : known.record r = .ok layout) :
    isPowerOfTwo (f.baseAlignment layout) = true := by
  have wellFormed := h.enclosed r layout encloses laid
  exact isPowerOfTwo_max_right (h.clamp wellFormed.power) wellFormed.requiredPower

/-- The alignment that a field is placed with is a power of two, if it has one. -/
theorem placedAlignment (member : field ∈ f.declaration.fields) :
    IsPowerOrZero (f.fieldAlignment known field) := by
  have asked := h.fieldAlignment member
  have natural : IsPowerOrZero (match field.type.baseElement.asRecord? with
      | some r => (known.record r).toOption.elim 0 f.baseAlignment
      | none => f.clamp ((known.type field.type).toOption.elim 0 (·.alignment))) := by
    split
    · rename_i r names
      cases laid : known.record r with
      | error => exact .inl rfl
      | ok layout =>
        have encloses : f.tree.Encloses f.record r :=
          .of_field member (Ty.enclosedRecord?_of_baseElement names)
        exact .inr (h.baseAlignment (.single encloses) laid)
    · cases typed : known.type field.type with
      | error =>
        left
        simp [Except.toOption, Frame.clamp]
      | ok layout => exact .inr (h.clamp (h.type field member layout typed))
  unfold Frame.fieldAlignment
  dsimp only
  cases field.isPacked with
  | true => exact .inr (isPowerOfTwo_max_right (Quantity.isPowerOfTwo_pow 0) asked)
  | false =>
    rcases natural with none | power
    · rw [none]
      simpa using asked
    · exact .inr (isPowerOfTwo_max_right power asked)

theorem dvd_fieldAlignment {n : Nat} (member : field ∈ f.declaration.fields)
    (power : isPowerOfTwo n = true) (le : n ≤ f.fieldAlignment known field) :
    n ∣ f.fieldAlignment known field := by
  rcases h.placedAlignment member with none | power'
  · rw [none]
    exact Nat.dvd_zero n
  · exact dvd_of_isPowerOfTwo power power' le

end Frame.HasPowers

/-- The record is aligned at least as before, and as the field asks for under the maximum. -/
structure FieldCounts (f : Frame) (known : Known) (field : Field) (st st' : State) : Prop where
  clamped : st'.IsClamped f
  grows : st.alignment ≤ st'.alignment
  counts : field.bitWidth = none → f.clamp (f.fieldAlignment known field) ≤ st'.alignment

theorem fieldTypeExtent_alignment (asked : Nat) (clamped : st.IsClamped f) :
    Ends (fun _ => True) ((fieldTypeExtent f field asked st).eval known) fun found =>
      found.1.IsClamped f ∧ st.alignment ≤ found.1.alignment ∧
      (field.bitWidth = none → max (if field.isPacked then 1 else found.2.alignment)
        (field.alignment.getD 0) = f.fieldAlignment known field) := by
  unfold fieldTypeExtent
  split
  case h_1 r names =>
    apply ends_bind Ends.any
    intro layout laid
    apply ends_bind Ends.any
    intro type _
    rw [LayoutM.eval_layoutOf] at laid
    refine ⟨f.clamp_raised clamped layout.alignment, Nat.le_max_left _ _, fun _ => ?_⟩
    simp only [Frame.fieldAlignment, names, laid]
    rfl
  case h_2 names =>
    apply ends_bind Ends.any
    intro layout typed
    rw [LayoutM.eval_typeLayoutOf] at typed
    refine ⟨clamped, le_rfl, fun stored => ?_⟩
    simp [Frame.fieldAlignment, names, typed, Field.isBitField, stored, Except.toOption]

theorem fieldExtent_alignment (clamped : st.IsClamped f) :
    Ends (fun _ => True) ((fieldExtent f field st).eval known) fun found =>
      FieldCounts f known field st found.1 ∧
      (field.bitWidth = none → found.2.alignment = f.fieldAlignment known field) := by
  unfold fieldExtent
  apply ends_bind (fieldTypeExtent_alignment _ clamped)
  rintro ⟨st₁, extent⟩ ⟨clamped₁, grows, same⟩
  dsimp only at clamped₁ grows same ⊢
  have above (a : Nat) : st.alignment ≤ f.clamp (max st₁.alignment a) := by
    rw [f.clamp_max, clamped₁]
    exact grows.trans (Nat.le_max_left _ _)
  cases isBitField : field.isBitField with
  | true =>
    have bitField : field.bitWidth ≠ none := by
      intro stored
      simp [Field.isBitField, stored] at isBitField
    cases f.isUnion with
    | true => exact ⟨⟨clamped₁, grows, fun stored => absurd stored bitField⟩,
        fun stored => absurd stored bitField⟩
    | false => exact ⟨⟨f.clamp_clamp _, above _, fun stored => absurd stored bitField⟩,
        fun stored => absurd stored bitField⟩
  | false =>
    have stored : field.bitWidth = none := by simpa [Field.isBitField] using isBitField
    have same : max (if field.isPacked then { extent with alignment := 1 } else extent).alignment
        (field.alignment.getD 0) = f.fieldAlignment known field := by
      rw [← same stored]
      split <;> rfl
    simp only [Bool.false_and, Bool.false_eq_true, if_false]
    refine ⟨⟨f.clamp_clamp _, above _, fun _ => ?_⟩, fun _ => same⟩
    dsimp only
    rw [same]
    exact f.clamp_mono (Nat.le_max_right _ _)

/-- What a step of the walk over the fields does to the alignment, and where it puts a field. -/
theorem layAnyField_alignment (clamped : st.IsClamped f) (field : Field) :
    Ends (fun _ => True) ((layAnyField f st field).eval known) fun st' =>
      FieldCounts f known field st st' ∧ ∃ offset, st'.fieldOffsets = st.fieldOffsets ++ [offset] ∧
        (field.bitWidth = none → 8 * f.fieldAlignment known field ∣ offset) := by
  refine (layAnyField_extends st field).mono (fun _ => id) fun st' done step => ?_
  obtain ⟨offset, laid⟩ := (layAnyField_ends st field).value done
  rcases step with ⟨idle, same⟩ | ⟨before, found, same, extent, alignments, lies⟩
  · have bitField : field.bitWidth ≠ none := by
      intro stored
      simp [isIdle, stored] at idle
    simp only [State.alignments, Prod.mk.injEq] at same
    refine ⟨⟨?_, same.1.ge, fun stored => absurd stored bitField⟩, offset, laid.fieldOffsets,
      fun stored => absurd stored bitField⟩
    rwa [State.IsClamped, same.1]
  · simp only [State.alignments, Prod.mk.injEq] at same alignments
    have clamped : before.IsClamped f := by rwa [State.IsClamped, same.1]
    obtain ⟨counts, at'⟩ := (fieldExtent_alignment clamped).value extent
    refine ⟨⟨?_, ?_, ?_⟩, offset, laid.fieldOffsets, fun stored => ?_⟩
    · rw [State.IsClamped, alignments.1]
      exact counts.clamped
    · rw [alignments.1, ← same.1]
      exact counts.grows
    · rw [alignments.1]
      exact counts.counts
    · obtain ⟨byte, here, whole⟩ := lies stored
      rw [laid.fieldOffsets, List.append_cancel_left_eq, List.singleton_inj] at here
      rw [here, ← at' stored]
      exact Nat.mul_dvd_mul_left 8 whole

/-- Every field that is no bit-field lies at a multiple of whatever `asks` says of it. -/
def LieAt (asks : Field → Nat → Prop) (fields : List Field) (offsets : List Nat) : Prop :=
  ∀ (index : Nat) (field : Field) (offset n : Nat), fields[index]? = some field →
    field.bitWidth = none → offsets[index]? = some offset → asks field n → 8 * n ∣ offset

theorem LieAt.push {asks : Field → Nat → Prop} {fields : List Field} {offsets : List Nat}
    {offset : Nat} (h : LieAt asks fields offsets) (counted : offsets.length = fields.length)
    (last : field.bitWidth = none → ∀ n, asks field n → 8 * n ∣ offset) :
    LieAt asks (fields ++ [field]) (offsets ++ [offset]) := by
  intro index field' offset' n found stored at' asked
  rcases Nat.lt_or_ge index fields.length with before | after
  · rw [List.getElem?_append_left before] at found
    rw [List.getElem?_append_left (counted ▸ before)] at at'
    exact h _ _ _ _ found stored at' asked
  · rw [List.getElem?_append_right after] at found
    rw [List.getElem?_append_right (counted ▸ after), counted] at at'
    cases List.mem_singleton.mp (List.mem_of_getElem? found)
    cases List.mem_singleton.mp (List.mem_of_getElem? at')
    exact last stored n asked

/-- A state after the fields in `fields`, which started as `start`. -/
structure FieldsCount (f : Frame) (known : Known) (fields : List Field) (start st : State) :
    Prop where
  clamped : st.IsClamped f
  grows : start.alignment ≤ st.alignment
  counts : ∀ field ∈ fields, field.bitWidth = none →
    f.clamp (f.fieldAlignment known field) ≤ st.alignment
  counted : st.fieldOffsets.length = fields.length
  lieAt : LieAt (fun field n => n = f.fieldAlignment known field) fields st.fieldOffsets

theorem layFields_alignment (clamped : st.IsClamped f) (fresh : st.fieldOffsets = []) :
    Ends (fun _ => True) ((layFields f st).eval known)
      (FieldsCount f known f.declaration.fields st) := by
  unfold layFields
  rw [LayoutM.eval_foldlM]
  apply Ends.foldlM (K := fun done _ => FieldsCount f known done st)
  case first => exact ⟨clamped, le_rfl, nofun, by simp [fresh], nofun⟩
  case next =>
    intro done field rest st₁ split before
    apply (layAnyField_alignment before.clamped field).imp
    rintro st₂ ⟨step, offset, fieldOffsets, whole⟩
    constructor
    case clamped => exact step.clamped
    case grows => exact before.grows.trans step.grows
    case counts =>
      intro field' member stored
      rcases List.mem_append.mp member with earlier | last
      · exact (before.counts field' earlier stored).trans step.grows
      · cases List.mem_singleton.mp last
        exact step.counts stored
    case counted => simp [fieldOffsets, before.counted]
    case lieAt =>
      rw [fieldOffsets]
      apply before.lieAt.push before.counted
      rintro stored n rfl
      exact whole stored

end Fields

section Bases

variable {row : List PlacedBase} {size size' : Nat} {ends ends' : Bool}

theorem Row.whole (h : Row f size ends row size' ends') :
    ∀ p ∈ row, f.baseAlignment p.layout ∣ p.offset := by
  induction h with
  | nil => exact nofun
  | cons _ offset _ ih =>
    intro q member
    rcases List.mem_cons.mp member with rfl | member
    · exact offset ▸ Quantity.dvd_roundUp _ _
    · exact ih q member

theorem le_raisedBy (f : Frame) (row : List PlacedBase) (alignment : Nat) :
    alignment ≤ raisedBy f row alignment := by
  induction row generalizing alignment with
  | nil => exact le_rfl
  | cons p row ih => exact (Nat.le_max_left _ _).trans (ih _)

theorem clamp_le_raisedBy (alignment : Nat) :
    ∀ p ∈ row, f.clamp p.layout.alignment ≤ raisedBy f row alignment := by
  induction row generalizing alignment with
  | nil => exact nofun
  | cons p row ih =>
    intro q member
    rcases List.mem_cons.mp member with rfl | member
    · exact (Nat.le_max_right _ _).trans (le_raisedBy f row _)
    · exact ih _ q member

theorem clamp_raisedBy (row : List PlacedBase) {alignment : Nat}
    (clamped : f.clamp alignment = alignment) :
    f.clamp (raisedBy f row alignment) = raisedBy f row alignment := by
  induction row generalizing alignment with
  | nil => exact clamped
  | cons p row ih => exact ih (f.clamp_raised clamped p.layout.alignment)

end Bases

/-- What is demanded of the offsets of bases, by their layouts, and of those of fields. -/
structure Demand where
  base : RecordLayout → Nat → Prop
  field : Field → Nat → Prop

/-- Some base or field makes the demand `n`. -/
def Demand.Makes (demand : Demand) (f : Frame) (known : Known) (n : Nat) : Prop :=
  (∃ b layout, f.tree.InheritsPlainly f.record b ∧ known.record b = .ok layout ∧ demand.base layout n) ∨
    ∃ field ∈ f.declaration.fields, field.bitWidth = none ∧ demand.field field n

/-- The alignments that bases and fields are placed with. -/
def Frame.placing (f : Frame) (known : Known) : Demand where
  base layout n := n = f.baseAlignment layout
  field field n := n = f.fieldAlignment known field

/-- Bases and fields lie at multiples of what is demanded of them. -/
structure State.Meets (f : Frame) (known : Known) (demand : Demand) (st : State) : Prop where
  base : ∀ r layout (offset n : Nat), f.tree.InheritsPlainly f.record r →
    known.record r = .ok layout → st.baseOffsets.find? r = some offset → demand.base layout n →
    n ∣ offset
  field : LieAt demand.field f.declaration.fields st.fieldOffsets

namespace State.Meets

variable {demand demand' : Demand} (h : st.Meets f known demand)
include h

theorem congr (baseOffsets : st'.baseOffsets = st.baseOffsets)
    (fieldOffsets : st'.fieldOffsets = st.fieldOffsets) : st'.Meets f known demand :=
  ⟨baseOffsets ▸ h.base, fieldOffsets ▸ h.field⟩

/-- A demand that divides one that is met is met as well. -/
theorem weaken
    (base : ∀ r layout n, f.tree.InheritsPlainly f.record r → known.record r = .ok layout →
      demand'.base layout n → ∃ m, demand.base layout m ∧ n ∣ m)
    (field : ∀ field ∈ f.declaration.fields, field.bitWidth = none → ∀ n, demand'.field field n →
      ∃ m, demand.field field m ∧ n ∣ m) : st.Meets f known demand' := by
  constructor
  case base =>
    intro r layout offset n inherits laid found made
    obtain ⟨m, met, whole⟩ := base r layout n inherits laid made
    exact whole.trans (h.base r layout offset m inherits laid found met)
  case field =>
    intro index here offset n found stored at' made
    obtain ⟨m, met, whole⟩ := field here (List.mem_of_getElem? found) stored n made
    exact (Nat.mul_dvd_mul_left 8 whole).trans (h.field index here offset m found stored at' met)

/-- A shift by a multiple of everything that is demanded leaves every demand met. -/
theorem shifted {distance : Nat} (moves : Nat → Bool)
    (whole : ∀ n, demand.Makes f known n → n ∣ distance) :
    (st.shifted distance moves).Meets f known demand := by
  constructor
  case base =>
    intro r layout offset n inherits laid found made
    rw [State.shifted, OrderedMap.find?_mapValues, Option.map_eq_some_iff] at found
    obtain ⟨before, found, rfl⟩ := found
    have first := h.base r layout before n inherits laid found made
    split
    · exact Nat.dvd_add first (whole n (.inl ⟨r, layout, inherits, laid, made⟩))
    · exact first
  case field =>
    intro index here offset n found stored at' made
    rw [State.shifted, List.getElem?_map, Option.map_eq_some_iff] at at'
    obtain ⟨before, at', rfl⟩ := at'
    have first := h.field index here before n found stored at' made
    have further := whole n (.inr ⟨here, List.mem_of_getElem? found, stored, made⟩)
    exact Nat.dvd_add first (Nat.mul_dvd_mul_left 8 further)

/-- Pushing pointers in leaves a demand met if it divides how far they push. -/
theorem layPointers (once : st.isRelaid f = false)
    (vbptr : st.needsOwnVbptr = true → ∀ n, demand.Makes f known n → n ∣ st.alignment)
    (vfptr : st.hasOwnVfptr = true → ∀ n, demand.Makes f known n →
      n ∣ Quantity.roundUp f.pointerSize st.alignment) :
    Ends (fun _ => True) ((layPointers f st).eval known) (State.Meets f known demand) := by
  apply layPointers_cases
  case none => exact fun _ _ => h
  case again => exact fun relaid => by simp [once] at relaid
  case pushed =>
    intro _
    refine Ends.bind (injectVbptr_eq st) fun st₁ first => ?_
    refine (injectVfptr_eq st₁).imp fun st₂ second => ?_
    have first : st₁.Meets f known demand ∧ st₁.alignment = st.alignment ∧
        st₁.hasOwnVfptr = st.hasOwnVfptr := by
      rcases first with ⟨_, rfl⟩ | ⟨start, distance, own, _, ⟨_, rfl⟩, rfl⟩
      · exact ⟨h, rfl, rfl⟩
      · have moved := h.shifted (fun offset => decide (st.vbptrOffset ≤ offset)) fun n made =>
          (vbptr own n made).trans (Quantity.dvd_roundUp (start + f.pointerSize - st.vbptrOffset) _)
        exact ⟨moved.congr rfl rfl, rfl, rfl⟩
    obtain ⟨meets, alignment, hasOwnVfptr⟩ := first
    rcases second with ⟨_, rfl⟩ | ⟨distance, _, own, ⟨_, rfl⟩, _, rfl⟩
    · exact meets.congr rfl rfl
    · have moved := meets.shifted (fun _ => true) (vfptr (hasOwnVfptr ▸ own))
      rw [alignment]
      exact moved.congr rfl rfl

end State.Meets

section Class

variable {row : List PlacedBase} {start based between : State}

theorem Frame.clamp_one (f : Frame) : f.clamp 1 = 1 := by
  unfold clamp
  split
  · rfl
  · rename_i some
    exact min_eq_left (Nat.one_le_iff_ne_zero.mpr some)

theorem State.initial_isClamped (f : Frame) : (State.initial f).IsClamped f := f.clamp_one

theorem BasesLaid.isClamped (h : BasesLaid f known start row based) (clamped : start.IsClamped f) :
    based.IsClamped f := by
  rw [State.IsClamped, h.alignment]
  exact clamp_raisedBy row clamped

/-- A base that is in the table lies at a multiple of the alignment that it is placed with. -/
theorem BasesLaid.whole (h : BasesLaid f known start row based) (none : start.baseOffsets = .empty)
    {r : RecordId} {layout : RecordLayout} {offset : Nat} (laid : known.record r = .ok layout)
    (found : based.baseOffsets.find? r = some offset) :
    f.baseAlignment layout ∣ offset ∧ f.clamp layout.alignment ≤ based.alignment := by
  obtain ⟨p, member, rfl, rfl⟩ := h.exists_placed none found
  cases (h.laid p member).symm.trans laid
  obtain ⟨ends, inRow⟩ := h.inRow
  exact ⟨inRow.whole p member, h.alignment ▸ clamp_le_raisedBy _ p member⟩

/-- Where the bases and the fields of a class are put first. -/
theorem Assembled.placing (h : Assembled f known start row based based st)
    (none : start.baseOffsets = .empty)
    (fields : FieldsCount f known f.declaration.fields based st) :
    st.Meets f known (f.placing known) := by
  have same := h.fields.classPart
  simp only [State.classPart, Prod.mk.injEq] at same
  refine ⟨?_, fields.lieAt⟩
  rintro r layout offset n _ laid found rfl
  rw [same.2.2.2.2.2.2.1] at found
  exact (h.bases.whole none laid found).1

/-- Virtual bases lie at multiples of the alignments that they are placed with, and count. -/
theorem layVirtualBases_placing (fresh : st.virtualBaseSlots = .empty) :
    Ends (fun _ => True) ((layVirtualBases f st).eval known) fun st' =>
      st.alignment ≤ st'.alignment ∧
      ∀ v layout slot, known.record v = .ok layout → st'.virtualBaseSlots.find? v = some slot →
        f.baseAlignment layout ∣ slot.offset ∧ f.clamp layout.alignment ≤ st'.alignment := by
  unfold layVirtualBases
  split
  case isTrue =>
    refine ⟨le_rfl, fun v layout slot _ found => ?_⟩
    rw [fresh] at found
    cases found
  case isFalse =>
    apply ends_bind Ends.any
    intro found _
    apply ends_bind (G := fun walk : BaseWalk => st.alignment ≤ walk.state.alignment ∧
      ∀ v layout slot, known.record v = .ok layout →
        walk.state.virtualBaseSlots.find? v = some slot →
        f.baseAlignment layout ∣ slot.offset ∧ f.clamp layout.alignment ≤ walk.state.alignment)
    case second => exact fun walk laid => laid
    rw [LayoutM.eval_foldlM]
    apply Ends.foldlM_keeps
    case first =>
      refine ⟨le_rfl, fun v layout slot _ found => ?_⟩
      rw [fresh] at found
      cases found
    case next =>
      rintro r _ walk ⟨grows, before⟩
      apply layVirtualBase_placed.imp
      rintro walk' ⟨layout, slot, laid, _, placed⟩
      have raised : walk.state.alignment ≤ walk'.state.alignment ∧
          f.clamp layout.alignment ≤ walk'.state.alignment := by
        rw [placed.state]
        exact ⟨Nat.le_max_left _ _, Nat.le_max_right _ _⟩
      refine ⟨grows.trans raised.1, fun v layout' slot' laid' there => ?_⟩
      rw [placed.state] at there
      by_cases here : v = r
      · subst here
        rw [OrderedMap.find?_insert_self] at there
        cases there
        cases laid.symm.trans laid'
        exact ⟨placed.whole, raised.2⟩
      · rw [OrderedMap.find?_insert_of_ne _ _ here] at there
        obtain ⟨whole, counts⟩ := before v layout' slot' laid' there
        exact ⟨whole, counts.trans raised.1⟩

namespace ClassRun

variable (run : ClassRun f known)
include run

theorem fieldsCount : FieldsCount f known f.declaration.fields run.based run.laid := by
  apply (layFields_alignment _ (run.once.bases.fieldOffsets rfl)).value run.fields
  exact run.once.bases.isClamped (State.initial_isClamped f)

theorem placing : run.laid.Meets f known (f.placing known) :=
  run.once.placing rfl run.fieldsCount

/-- The alignment before any pointer counts every base and field. -/
theorem laid_hasPowers (h : f.HasPowers known) : run.laid.HasPowers f :=
  ((h.fields (h.bases run.once.bases (State.initial_hasPowers h.declared))
    (run.once.bases.fieldOffsets rfl)).value run.fields).1

theorem base_counts {r : RecordId} {layout : RecordLayout}
    (edge : f.tree.InheritsPlainly f.record r) (laid : known.record r = .ok layout) :
    f.clamp layout.alignment ≤ run.laid.alignment := by
  obtain ⟨base, member, rfl⟩ := edge
  obtain ⟨offset, found⟩ := Option.isSome_iff_exists.mp (run.once.bases.entered base member)
  exact (run.once.bases.whole rfl laid found).2.trans run.fieldsCount.grows

theorem slots_placing : run.closed.alignment ≤ run.placed.alignment ∧
    ∀ v layout slot, known.record v = .ok layout →
      run.last.virtualBaseSlots.find? v = some slot →
      f.baseAlignment layout ∣ slot.offset ∧ f.clamp layout.alignment ≤ run.placed.alignment := by
  have fresh : run.closed.virtualBaseSlots = .empty := by
    obtain ⟨size, _, _, closed⟩ := run.closing
    rw [closed]
    exact ((layPointers_flags run.once).value run.pointers).2
  rw [run.finished.virtualBaseSlots]
  exact (layVirtualBases_placing fresh).value run.virtualBases

/-- What is finished is aligned at least as the virtual bases were placed. -/
theorem placed_le : run.placed.alignment ≤ run.last.alignment := by
  rw [run.finished.alignment]
  split
  · exact le_rfl
  · exact Nat.le_max_left _ _

end ClassRun

end Class

end ObjectLayout.Microsoft
