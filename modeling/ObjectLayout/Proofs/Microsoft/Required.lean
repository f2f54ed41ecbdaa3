import ObjectLayout.Proofs.Microsoft.Leading
import ObjectLayout.Proofs.Microsoft.Multiples

/-! Required alignments against packing. An element is placed where its requirement wants it, however
far packing lowers the alignment of the record; a pointer that is pushed in later moves it by what the
packed alignment divides. A place keeps what it requires just if it is moved by a multiple of that, and
the record requires the most of it. -/
namespace ObjectLayout.Microsoft

open LayoutM (ends_bind ends_lift_bind)
open Quantity (isPowerOfTwo dvd_of_isPowerOfTwo)

variable {f : Frame} {known : Known} {st st' : State} {field : Field} {n : Nat}

/-- What is required of the offset of a field: what its attribute asks for, and what the record that it
is made of requires, unless the field is packed. -/
def RequiredOf (known : Known) (field : Field) (n : Nat) : Prop :=
  n ∈ field.alignment ∨ field.isPacked = false ∧ n ≠ 0 ∧ ∃ r inner,
    field.type.baseElement.asRecord? = some r ∧ known.record r = .ok inner ∧
      n = inner.requiredAlignment

/-- What a field requires of its own place it requires of the record as well. -/
theorem RequiredOf.le (required : RequiredOf known field n) (stored : field.bitWidth = none) :
    n ≤ fieldRequires known field := by
  rcases required with asked | ⟨_, _, r, inner, names, laid, rfl⟩
  · have asked : field.alignment = some n := asked
    simp [fieldRequires, Field.isBitField, stored, asked]
  · simp [fieldRequires, names, Known.requiredAlignment_eq laid]

namespace Frame.HasPowers

variable (h : f.HasPowers known)
include h

theorem dvd_baseAlignment {r : RecordId} {layout : RecordLayout}
    (encloses : Relation.TransGen f.tree.Encloses f.record r) (laid : known.record r = .ok layout)
    (some : layout.requiredAlignment ≠ 0) :
    isPowerOfTwo layout.requiredAlignment = true ∧
      layout.requiredAlignment ∣ f.baseAlignment layout := by
  have power := (h.enclosed r layout encloses laid).requiredPower.resolve_left some
  exact ⟨power, dvd_of_isPowerOfTwo power (h.baseAlignment encloses laid) (Nat.le_max_right _ _)⟩

/-- What is required of a field is a power of two that its own alignment is not below. -/
theorem required_le_fieldAlignment (member : field ∈ f.declaration.fields)
    (required : RequiredOf known field n) :
    isPowerOfTwo n = true ∧ n ≤ f.fieldAlignment known field := by
  rcases required with own | ⟨unpacked, some, r, inner, names, laid, rfl⟩
  · have own : field.alignment = .some n := own
    refine ⟨h.field field member n own, ?_⟩
    rw [Frame.fieldAlignment, own]
    exact Nat.le_max_right _ _
  · have encloses : f.tree.Encloses f.record r :=
      .of_field member (Ty.enclosedRecord?_of_baseElement names)
    have same : f.fieldAlignment known field
        = max (f.baseAlignment inner) (field.alignment.getD 0) := by
      simp [Frame.fieldAlignment, unpacked, names, laid, Except.toOption]
    rw [same]
    refine ⟨(h.dvd_baseAlignment (.single encloses) laid some).1, ?_⟩
    exact (Nat.le_max_right _ _).trans (Nat.le_max_left _ _)

end Frame.HasPowers

section Raised

variable {bases : List Base} {fields : List Field} {b : RecordId}

theorem le_requiredBy (required : Nat) : required ≤ requiredBy known bases required := by
  induction bases generalizing required with
  | nil => exact le_rfl
  | cons base rest ih => exact (Nat.le_max_left _ _).trans (ih _)

theorem requiredAlignment_le_requiredBy (required : Nat) :
    ∀ base ∈ bases, known.requiredAlignment base.record ≤ requiredBy known bases required := by
  induction bases generalizing required with
  | nil => exact nofun
  | cons base rest ih =>
    intro base' member
    rcases List.mem_cons.mp member with rfl | member
    · exact (Nat.le_max_right _ _).trans (le_requiredBy _)
    · exact ih _ base' member

theorem le_requireFields (before : Nat × Bool) :
    before.1 ≤ (fields.foldl (requireField known) before).1 := by
  induction fields generalizing before with
  | nil => exact le_rfl
  | cons field rest ih =>
    refine le_trans ?_ (ih _)
    unfold requireField
    split
    · exact le_rfl
    · exact Nat.le_max_left _ _

theorem fieldRequires_le_requireFields (before : Nat × Bool) :
    ∀ field ∈ fields, field.bitWidth = none →
      fieldRequires known field ≤ (fields.foldl (requireField known) before).1 := by
  induction fields generalizing before with
  | nil => exact nofun
  | cons field rest ih =>
    intro field' member stored
    rcases List.mem_cons.mp member with rfl | member
    · have raised : fieldRequires known field' ≤ (requireField known before field').1 := by
        simp [requireField, isIdle, stored]
      exact raised.trans (le_requireFields _)
    · exact ih _ field' member stored

/-- A class requires what its bases do. -/
theorem ClassRun.base_required (run : ClassRun f known) (edge : f.tree.Inherits f.record b) :
    known.requiredAlignment b ≤ run.last.requiredAlignment := by
  obtain ⟨base, member, rfl⟩ := edge
  have flags := run.once.flags
  simp only [State.flags, Prod.mk.injEq] at flags
  rw [run.required_eq, flags.1]
  exact (requiredAlignment_le_requiredBy _ base member).trans (le_requireFields (_, false))

theorem ClassRun.field_required (run : ClassRun f known) (member : field ∈ f.declaration.fields)
    (stored : field.bitWidth = none) : fieldRequires known field ≤ run.last.requiredAlignment := by
  have flags := run.once.flags
  simp only [State.flags, Prod.mk.injEq] at flags
  rw [run.required_eq, flags.1]
  exact fieldRequires_le_requireFields _ field member stored

/-- What a record requires it requires of everything that inherits from it, directly or not. -/
theorem required_le_of_below {s : Setting} {d : RecordId} {depth : Nat} {layout inner : RecordLayout}
    (microsoft : s.usesMicrosoftLayout = true) (laid : (s.known depth).record d = .ok layout)
    (below : Relation.TransGen s.tree.Inherits d b) (laid' : (s.known depth).record b = .ok inner) :
    inner.requiredAlignment ≤ layout.requiredAlignment := by
  have edge {c b : RecordId} {layout inner : RecordLayout}
      (laid : (s.known depth).record c = .ok layout) (inherits : s.tree.Inherits c b)
      (laid' : (s.known depth).record b = .ok inner) :
      inner.requiredAlignment ≤ layout.requiredAlignment := by
    obtain ⟨run, rfl⟩ := classRun microsoft (Tree.isClass_of_inherits inherits) (s.known_record laid)
    have raised := run.base_required inherits
    rwa [Known.requiredAlignment_eq laid'] at raised
  induction below generalizing inner with
  | single inherits => exact edge laid inherits laid'
  | tail path inherits ih =>
    obtain ⟨middle, found⟩ := known_of_below microsoft laid path
    exact (edge found inherits laid').trans (ih found)

end Raised

section Leading

/-- A base that lies elsewhere once the vbptr is among the bases lies where its requirement wants it. -/
theorem layVbptrAsBase_required (st : State) :
    Ends (fun _ => True) ((layVbptrAsBase f st).eval known) fun st' =>
      ∀ r layout (offset : Nat), known.record r = .ok layout →
        st'.baseOffsets.find? r = some offset → st.baseOffsets.find? r = some offset ∨
          (layout.requiredAlignment ≠ 0 → layout.requiredAlignment ∣ offset) := by
  unfold layVbptrAsBase
  split
  case isTrue => exact fun r layout offset _ found => .inl found
  case isFalse =>
    refine ends_lift_bind Ends.any fun found scanned => ?_
    refine ends_bind Ends.any fun last isLast => ?_
    refine ends_bind Ends.any fun penultimate _ => ?_
    refine ends_lift_bind Ends.any fun site starts => ?_
    refine ends_lift_bind Ends.any fun vbptrOffset _ => ?_
    refine ends_lift_bind Ends.any fun stop _ => ?_
    dsimp only
    split
    case h_1 => exact fun r layout offset _ found => .inl found
    case h_2 last inner =>
      obtain ⟨_, laidLast, _⟩ := zeroSized?_ends.value isLast last inner rfl
      rw [LayoutM.eval_lift]
      refine (moveBehindVbptr_ends _ last inner _).imp ?_
      rintro st' ⟨behind, _, whole, rfl⟩ r layout offset laid there
      dsimp only at there
      by_cases here : r = last
      · subst here
        rw [OrderedMap.find?_insert_self] at there
        cases there
        cases laid.symm.trans laidLast
        exact .inr whole
      · exact .inl (by rwa [OrderedMap.find?_insert_of_ne _ _ here] at there)

/-- What holds of a class that is laid out again: its fields are placed anew, and its bases lie where
they are required to. -/
def Frame.leading (f : Frame) (known : Known) : Demand where
  base layout n := n = layout.requiredAlignment ∧ n ≠ 0
  field field n := n = f.fieldAlignment known field

theorem layWithLeadingPointers_meets (h : f.HasPowers known) (clamped : st.IsClamped f) :
    Ends (fun _ => True) ((layWithLeadingPointers f st).eval known)
      (State.Meets f known (f.leading known)) := by
  refine (layWithLeadingPointers_ends st).imp ?_
  rintro st' ⟨row, based, between, laid, again, placed, fields, rfl⟩
  have start : (leadingStart f st).IsClamped f := f.clamp_raised clamped f.pointerSize
  have moved := (layVbptrAsBase_required based).value placed
  have same := again.fields.classPart
  simp only [State.classPart, Prod.mk.injEq] at same
  have ready : between.IsClamped f ∧ between.fieldOffsets = [] := by
    obtain ⟨size, vbptrOffset, baseOffsets, rfl⟩ := again.moved
    exact ⟨again.bases.isClamped start, again.bases.fieldOffsets rfl⟩
  have counts := (layFields_alignment ready.1 ready.2).value fields
  refine ⟨?_, counts.lieAt⟩
  rintro r layout offset n edge found at' ⟨rfl, some⟩
  have at' : between.baseOffsets.find? r = .some offset := by rwa [← same.2.2.2.2.2.2.1]
  rcases moved r layout offset found at' with stays | whole
  · have placed := (again.bases.whole rfl found stays).1
    exact (h.dvd_baseAlignment (.single edge.inherits.encloses) found some).2.trans placed
  · exact whole some

theorem layPointers_meets (h : f.HasPowers known) (clamped : st.IsClamped f)
    (relaid : st.isRelaid f = true) :
    Ends (fun _ => True) ((layPointers f st).eval known)
      (State.Meets f known (f.leading known)) := by
  apply layPointers_cases
  case none => exact fun none none' => by simp [State.isRelaid, none, none'] at relaid
  case again => exact fun _ => layWithLeadingPointers_meets h clamped
  case pushed => exact fun pushed => by simp [relaid] at pushed

end Leading

section Pushed

/-- How far a vbptr that is pushed into a class moves what lies past the bases. -/
def State.vbptrPush (f : Frame) (st : State) : Nat :=
  if st.needsOwnVbptr then
    Quantity.roundUp (Quantity.roundUp st.vbptrOffset f.pointerAlignment + f.pointerSize
      - st.vbptrOffset) st.alignment
  else 0

/-- How far a vfptr that is pushed into a class moves everything. -/
def State.vfptrPush (f : Frame) (st : State) : Nat :=
  if st.hasOwnVfptr then Quantity.roundUp f.pointerSize st.alignment else 0

/-- How far the pointers that are pushed into a class move a part of it. -/
def State.push (f : Frame) (st : State) (pastBases : Bool) : Nat :=
  (if pastBases then st.vbptrPush f else 0) + st.vfptrPush f

/-- Fields and bases are moved, a base by a distance that depends on where it lies. -/
structure Pushes (field : Nat) (base : Nat → Nat) (st st' : State) : Prop where
  fieldOffsets : st'.fieldOffsets = st.fieldOffsets.map (· + 8 * field)
  baseOffsets : ∀ r, st'.baseOffsets.find? r = (st.baseOffsets.find? r).map fun x => x + base x

theorem Pushes.shifted (st : State) (distance : Nat) (moves : Nat → Bool) :
    Pushes distance (fun x => if moves x then distance else 0) st (st.shifted distance moves) := by
  refine ⟨rfl, fun r => ?_⟩
  rw [State.shifted, OrderedMap.find?_mapValues]
  congr 1
  funext x
  split <;> rfl

theorem injectVbptr_pushes (st : State) : Ends (fun _ => True) (injectVbptr f st) fun st' =>
    Pushes (st.vbptrPush f) (fun x => if st.vbptrOffset ≤ x then st.vbptrPush f else 0) st st' ∧
      st'.vfptrPush f = st.vfptrPush f := by
  refine (injectVbptr_eq st).imp ?_
  rintro st' (⟨none, rfl⟩ | ⟨start, distance, own, ⟨_, rounded⟩, ⟨_, far⟩, rfl⟩)
  · have push : st'.vbptrPush f = 0 := by simp [State.vbptrPush, none]
    rw [push]
    exact ⟨⟨by simp, by simp⟩, rfl⟩
  · have push : st.vbptrPush f = distance := by rw [State.vbptrPush, if_pos own, far, rounded]
    rw [push]
    have moved := Pushes.shifted st distance fun x => decide (st.vbptrOffset ≤ x)
    simp only [decide_eq_true_eq] at moved
    exact ⟨⟨moved.fieldOffsets, moved.baseOffsets⟩, rfl⟩

theorem injectVfptr_pushes (st : State) : Ends (fun _ => True) (injectVfptr f st)
    (Pushes (st.vfptrPush f) (fun _ => st.vfptrPush f) st) := by
  refine (injectVfptr_eq st).imp ?_
  rintro st' (⟨none, rfl⟩ | ⟨distance, vbptrOffset, own, ⟨_, far⟩, _, rfl⟩)
  · have push : st'.vfptrPush f = 0 := by simp [State.vfptrPush, none]
    rw [push]
    exact ⟨by simp, by simp⟩
  · have push : st.vfptrPush f = distance := by rw [State.vfptrPush, if_pos own, far]
    rw [push]
    have moved := Pushes.shifted st distance fun _ => true
    exact ⟨moved.fieldOffsets, moved.baseOffsets⟩

/-- For the vfptr everything moves, and for the vbptr what lies past the bases. -/
theorem layPointers_pushes (once : st.isRelaid f = false) :
    Ends (fun _ => True) ((layPointers f st).eval known)
      (Pushes (st.push f true) (fun x => st.push f (decide (st.vbptrOffset ≤ x))) st) := by
  apply layPointers_once once
  case none =>
    intro none none'
    have push (pastBases : Bool) : st.push f pastBases = 0 := by
      simp [State.push, State.vbptrPush, State.vfptrPush, none, none']
    simp only [push]
    exact ⟨by simp, by simp⟩
  case pushed =>
    refine Ends.bind (injectVbptr_pushes st) fun st₁ pushed => ?_
    obtain ⟨first, same⟩ := pushed
    refine (injectVfptr_pushes st₁).imp fun st₂ second => ?_
    rw [same] at second
    constructor
    case fieldOffsets =>
      refine second.fieldOffsets.trans ?_
      rw [first.fieldOffsets, List.map_map]
      refine List.map_congr_left fun offset _ => ?_
      simp only [Function.comp_apply, State.push, if_true, Nat.mul_add, Nat.add_assoc]
    case baseOffsets =>
      intro r
      refine (second.baseOffsets r).trans ?_
      rw [first.baseOffsets, Option.map_map]
      simp only [Function.comp_def, State.push, decide_eq_true_eq, Nat.add_assoc]

end Pushed

/-- Pointers of the record's own leave a place with the requirement `n` one: they lead, or there is no
vbptr, and no vfptr of a smaller size than `n`, or packing lets `n` pass. -/
def Frame.Spares (f : Frame) (layout : RecordLayout) (n : Nat) : Prop :=
  (f.is64Bit = true ∧ 8 < layout.requiredAlignment) ∨
    (layout.hasOwnVbptr = false ∧ (layout.hasOwnVfptr = false ∨ n ≤ f.pointerSize)) ∨
    f.clamp n = n

instance (f : Frame) (layout : RecordLayout) (n : Nat) : Decidable (f.Spares layout n) :=
  inferInstanceAs (Decidable (_ ∨ _ ∨ _))

/-- The bases and fields of a class are placed, and pointers of its own are yet to be pushed in. -/
structure LaidBare (s : Setting) (known : Known) (d : RecordId) (st : State) : Prop where
  isClass : (s.tree.record d).isClass = true
  laid : (do layFields (Frame.ofRecord s d) (← layNonVirtualBases (Frame.ofRecord s d)
    (State.initial (Frame.ofRecord s d))) : LayoutM State).eval known = .ok st
  notRelaid : st.isRelaid (Frame.ofRecord s d) = false

/-- Requirements are met where they are spared, those of virtual bases always, and count. Where
pointers are pushed in, just those are met that divide the distance. -/
structure RequirementsMet (s : Setting) (known : Known) (d : RecordId) (layout : RecordLayout) :
    Prop where
  field : ∀ (index : Nat) field (offset n : Nat), (s.tree.record d).fields[index]? = some field →
    field.bitWidth = none → layout.fieldOffset index = .ok offset →
    RequiredOf known field n → (Frame.ofRecord s d).Spares layout n → 8 * n ∣ offset
  fieldPushed : ∀ st, LaidBare s known d st → ∀ (index : Nat) field (offset n : Nat),
    (s.tree.record d).fields[index]? = some field → field.bitWidth = none →
    layout.fieldOffset index = .ok offset → RequiredOf known field n →
    (8 * n ∣ offset ↔ n ∣ st.push (Frame.ofRecord s d) true)
  base : ∀ b inner offset, s.tree.InheritsPlainly d b → known.record b = .ok inner →
    layout.baseOffset b = .ok offset → inner.requiredAlignment ≠ 0 →
    (Frame.ofRecord s d).Spares layout inner.requiredAlignment → inner.requiredAlignment ∣ offset
  basePushed : ∀ st, LaidBare s known d st → ∀ b inner offset x, s.tree.InheritsPlainly d b →
    known.record b = .ok inner → layout.baseOffset b = .ok offset → inner.requiredAlignment ≠ 0 →
    st.baseOffsets.find? b = some x → (inner.requiredAlignment ∣ offset ↔
      inner.requiredAlignment ∣ st.push (Frame.ofRecord s d) (decide (st.vbptrOffset ≤ x)))
  virtualBase : ∀ v ∈ s.tree.virtualBases d, ∀ inner slot, known.record v = .ok inner →
    layout.virtualBaseSlot v = .ok slot → inner.requiredAlignment ≠ 0 →
    inner.requiredAlignment ∣ slot.offset
  fieldCounts : ∀ field ∈ (s.tree.record d).fields, field.bitWidth = none → ∀ n,
    RequiredOf known field n → n ≤ layout.requiredAlignment
  baseCounts : ∀ b inner, Relation.TransGen s.tree.Inherits d b → known.record b = .ok inner →
    inner.requiredAlignment ≤ layout.requiredAlignment
  le : layout.requiredAlignment ≤ layout.alignment

section Class

/-- What is required of the places in a record. -/
def requirements (known : Known) : Demand where
  base layout n := n = layout.requiredAlignment ∧ n ≠ 0
  field field n := RequiredOf known field n

variable (run : ClassRun f known)

namespace ClassRun

include run

/-- Before it has pointers, a class meets all requirements. -/
theorem laid_meets (h : f.HasPowers known) : run.laid.Meets f known (requirements known) := by
  apply run.placing.weaken
  · rintro r layout n edge laid ⟨rfl, some⟩
    exact ⟨_, rfl, (h.dvd_baseAlignment (.single edge.inherits.encloses) laid some).2⟩
  · rintro field member _ n required
    obtain ⟨power, le⟩ := h.required_le_fieldAlignment member required
    exact ⟨_, rfl, h.dvd_fieldAlignment member power le⟩

/-- So does a class whose pointers lead. -/
theorem relaid_meets (h : f.HasPowers known) (again : run.laid.isRelaid f = true) :
    run.pointed.Meets f known (requirements known) := by
  have meets := (layPointers_meets h run.fieldsCount.clamped again).value run.pointers
  apply meets.weaken
  · rintro r layout n _ _ required
    exact ⟨n, required, Nat.dvd_refl n⟩
  · rintro field member _ n required
    obtain ⟨power, le⟩ := h.required_le_fieldAlignment member required
    exact ⟨_, rfl, h.dvd_fieldAlignment member power le⟩

section Once

variable (once : run.laid.isRelaid f = false)
include once

theorem field_dvd_iff (h : f.HasPowers known) {index offset n : Nat}
    (found : f.declaration.fields[index]? = some field) (stored : field.bitWidth = none)
    (at' : run.pointed.fieldOffsets[index]? = some offset) (required : RequiredOf known field n) :
    8 * n ∣ offset ↔ n ∣ run.laid.push f true := by
  rw [((layPointers_pushes once).value run.pointers).fieldOffsets, List.getElem?_map,
    Option.map_eq_some_iff] at at'
  obtain ⟨start, placed, rfl⟩ := at'
  have whole := (run.laid_meets h).field index field start n found stored placed required
  rw [Nat.dvd_add_right whole, Nat.mul_dvd_mul_iff_left (by decide)]

theorem base_dvd_iff (h : f.HasPowers known) {b : RecordId} {inner : RecordLayout} {offset x : Nat}
    (edge : f.tree.InheritsPlainly f.record b) (laid : known.record b = .ok inner)
    (at' : run.pointed.baseOffsets.find? b = some offset) (some : inner.requiredAlignment ≠ 0)
    (placed : run.laid.baseOffsets.find? b = .some x) : inner.requiredAlignment ∣ offset ↔
      inner.requiredAlignment ∣ run.laid.push f (decide (run.laid.vbptrOffset ≤ x)) := by
  rw [((layPointers_pushes once).value run.pointers).baseOffsets, placed] at at'
  obtain rfl := Option.some.inj at'
  exact Nat.dvd_add_right ((run.laid_meets h).base b inner x _ edge laid placed ⟨rfl, some⟩)

variable (microsoft : f.setting.usesMicrosoftLayout = true) (h : f.HasPowers known)
include microsoft h

omit once in
/-- A requirement is a power of two that the record takes over, and it counts under the maximum. -/
theorem of_makes {n : Nat} (made : (requirements known).Makes f known n) :
    isPowerOfTwo n = true ∧ f.clamp n ≤ run.laid.alignment := by
  rcases made with ⟨b, layout, edge, laid, rfl, some⟩ | ⟨field, member, stored, required⟩
  · have encloses := edge.inherits.encloses
    have le := (h.enclosed b layout (.single encloses) laid).required microsoft
    exact ⟨(h.dvd_baseAlignment (.single encloses) laid some).1,
      (f.clamp_mono le).trans (run.base_counts edge laid)⟩
  · obtain ⟨power, le⟩ := h.required_le_fieldAlignment member required
    exact ⟨power, (f.clamp_mono le).trans (run.fieldsCount.counts field member stored)⟩

/-- The distance is a multiple of the requirements that are spared. -/
theorem dvd_push {n : Nat} (made : (requirements known).Makes f known n)
    (spared : f.Spares run.last.classLayout n) (pastBases : Bool) :
    n ∣ run.laid.push f pastBases := by
  obtain ⟨power, counts⟩ := run.of_makes microsoft h made
  have alignment := (run.laid_hasPowers h).alignment
  -- The distance is a sum of two, each zero or rounded up to the alignment.
  suffices both : (run.last.classLayout.hasOwnVbptr = true → n ∣ run.laid.alignment) ∧
      (run.last.classLayout.hasOwnVfptr = true →
        n ∣ Quantity.roundUp f.pointerSize run.laid.alignment) by
    rw [run.hasOwnVbptr_eq, run.hasOwnVfptr_eq] at both
    unfold State.push State.vbptrPush State.vfptrPush
    apply Nat.dvd_add <;> split
    · split
      · exact (both.1 ‹_›).trans (Quantity.dvd_roundUp _ _)
      · exact Nat.dvd_zero n
    · exact Nat.dvd_zero n
    · exact both.2 ‹_›
    · exact Nat.dvd_zero n
  rcases spared with again | ⟨noVbptr, noVfptr | small⟩ | passes
  · have none (own : run.last.classLayout.hasOwnVfptr = true ∨
        run.last.classLayout.hasOwnVbptr = true) : False :=
      Bool.eq_false_iff.mp once (run.isRelaid_iff.mpr ⟨own, again⟩)
    exact ⟨fun own => (none (.inr own)).elim, fun own => (none (.inl own)).elim⟩
  · exact ⟨fun own => by simp [noVbptr] at own, fun own => by simp [noVfptr] at own⟩
  · have pointer : isPowerOfTwo f.pointerSize = true := f.setting.target.pointerWidth_isPowerOfTwo
    refine ⟨fun own => by simp [noVbptr] at own, fun _ => ?_⟩
    exact (dvd_of_isPowerOfTwo power pointer small).trans
      (Quantity.dvd_roundUp_self pointer alignment)
  · -- Under the maximum for fields a requirement divides the alignment at which pointers come in.
    have under : n ∣ run.laid.alignment := dvd_of_isPowerOfTwo power alignment (passes ▸ counts)
    exact ⟨fun _ => under, fun _ => under.trans (Quantity.dvd_roundUp _ _)⟩

end Once

end ClassRun

end Class

section Records

variable {s : Setting} {d : RecordId} {depth : Nat} {layout : RecordLayout}

theorem fieldOffset_eq_ok_iff {index offset : Nat} :
    layout.fieldOffset index = .ok offset ↔ layout.fieldOffsets[index]? = some offset := by
  unfold RecordLayout.fieldOffset
  split <;> simp_all

variable (microsoft : s.usesMicrosoftLayout = true) (powers : s.PowersWithin d)
include microsoft powers

theorem class_requirementsMet (isClass : (s.tree.record d).isClass = true)
    (laid : (s.known depth).record d = .ok layout) :
    RequirementsMet s (s.known depth) d layout := by
  have h : (Frame.ofRecord s d).HasPowers (s.known depth) := hasPowers microsoft powers
  have le := (wellFormed_of_powers microsoft powers laid).required microsoft
  obtain ⟨run, rfl⟩ := classRun microsoft isClass (s.known_record laid)
  obtain ⟨fieldOffsets, baseOffsets, _⟩ := run.last_eq
  have bare {st : State} (bare : LaidBare s (s.known depth) d st) : st = run.laid :=
    Except.ok.inj (bare.laid.symm.trans
      (LayoutM.eval_bind_eq_ok.mpr ⟨run.based, run.bases, run.fields⟩))
  constructor
  case field =>
    intro index field offset n found stored at' required spared
    rw [State.classLayout_fieldOffset, fieldOffsets] at at'
    cases again : run.laid.isRelaid (Frame.ofRecord s d) with
    | true => exact (run.relaid_meets h again).field index field offset n found stored at' required
    | false =>
      refine (run.field_dvd_iff again h found stored at' required).mpr ?_
      exact run.dvd_push again microsoft h
        (.inr ⟨field, List.mem_of_getElem? found, stored, required⟩) spared true
  case fieldPushed =>
    intro st isBare index field offset n found stored at' required
    obtain rfl := bare isBare
    rw [State.classLayout_fieldOffset, fieldOffsets] at at'
    exact run.field_dvd_iff isBare.notRelaid h found stored at' required
  case base =>
    intro b inner offset edge laid' at' some spared
    rw [State.classLayout_baseOffset, baseOffsets] at at'
    cases again : run.laid.isRelaid (Frame.ofRecord s d) with
    | true => exact (run.relaid_meets h again).base b inner offset _ edge laid' at' ⟨rfl, some⟩
    | false =>
      obtain ⟨base, member, rfl⟩ := edge
      obtain ⟨x, placed⟩ := Option.isSome_iff_exists.mp (run.once.bases.entered base member)
      rw [← run.once.fields.baseOffsets] at placed
      refine (run.base_dvd_iff again h ⟨base, member, rfl⟩ laid' at' some placed).mpr ?_
      exact run.dvd_push again microsoft h
        (.inl ⟨_, inner, ⟨base, member, rfl⟩, laid', rfl, some⟩) spared _
  case basePushed =>
    intro st isBare b inner offset x edge laid' at' some placed
    obtain rfl := bare isBare
    rw [State.classLayout_baseOffset, baseOffsets] at at'
    exact run.base_dvd_iff isBare.notRelaid h edge laid' at' some placed
  case virtualBase =>
    intro v listed inner slot laid' at' some
    rw [State.classLayout_virtualBaseSlot] at at'
    have encloses := (Tree.HasVirtualBase.of_mem listed).encloses
    exact (h.dvd_baseAlignment encloses laid' some).2.trans
      (run.slots_placing.2 v inner slot laid' at').1
  case fieldCounts =>
    intro field member stored n required
    exact (required.le stored).trans (run.field_required member stored)
  case baseCounts => exact fun b inner below => required_le_of_below microsoft laid below
  case le => exact le

theorem plain_requirementsMet (isPlain : (s.tree.record d).isClass = false)
    (laid : (s.known depth).record d = .ok layout) :
    RequirementsMet s (s.known depth) d layout := by
  have h : (Frame.ofRecord s d).HasPowers (s.known depth) := hasPowers microsoft powers
  have le := (wellFormed_of_powers microsoft powers laid).required microsoft
  have none (b : RecordId) (edge : s.tree.Inherits d b) : False := by
    simp [Tree.isClass_of_inherits edge] at isPlain
  obtain ⟨run, rfl⟩ := plainRun microsoft isPlain (s.known_record laid)
  obtain ⟨fieldOffsets, required, _⟩ := run.last_eq
  have counts := (layFields_alignment (State.initial_isClamped _) rfl).value run.fields
  have raised := ((layFields_ends rfl).value run.fields).required
  simp only [Prod.ext_iff] at raised
  constructor
  case field =>
    intro index field offset n found stored at' required' _
    rw [fieldOffset_eq_ok_iff, State.plainLayout, fieldOffsets] at at'
    have member := List.mem_of_getElem? found
    obtain ⟨power, le⟩ := h.required_le_fieldAlignment member required'
    have whole := h.dvd_fieldAlignment member power le
    exact (Nat.mul_dvd_mul_left 8 whole).trans
      (counts.lieAt index field offset _ found stored at' rfl)
  case base => exact fun b _ _ edge => (none b edge.inherits).elim
  case fieldPushed => exact fun st bare => by simp [bare.isClass] at isPlain
  case basePushed => exact fun st bare => by simp [bare.isClass] at isPlain
  case virtualBase =>
    intro v _ inner slot _ at'
    simp [RecordLayout.virtualBaseSlot, RecordLayout.classLayout, State.plainLayout, bind,
      Except.bind] at at'
  case fieldCounts =>
    intro field member stored n required'
    rw [State.plainLayout, required, raised.1]
    exact (required'.le stored).trans (fieldRequires_le_requireFields _ field member stored)
  case baseCounts =>
    intro b inner below
    obtain ⟨_, edge, _⟩ := Relation.TransGen.head'_iff.mp below
    exact (none _ edge).elim
  case le => exact le

end Records

/-- A requirement outlasts packing wherever the pointers of the record spare it. -/
theorem required_alignments_outlast_packing {s : Setting} {d : RecordId} {depth : Nat}
    {layout : RecordLayout} (microsoft : s.usesMicrosoftLayout = true) (powers : s.PowersWithin d)
    (laid : (s.known depth).record d = .ok layout) :
    RequirementsMet s (s.known depth) d layout := by
  cases isClass : (s.tree.record d).isClass with
  | true => exact class_requirementsMet microsoft powers isClass laid
  | false => exact plain_requirementsMet microsoft powers isClass laid

/-- On 64 bits the vbptr of the packed `D` leads, because `x` requires more than 8 bytes, and the bases
and fields are placed behind it as they require. -/
def packedLeading : Setting :=
  .windows .x86_64 [
    .ofClass "B" [{ name := "c", type := .scalar ⟨0⟩ .plainChar }] [] [] { alignment := some 4 },
    .ofClass "V" [{ name := "v", type := .scalar ⟨0⟩ .plainChar }] [] [] { alignment := some 8 },
    .ofClass "D" [{ name := "x", type := .scalar ⟨1⟩ (.integer .int .signed), alignment := some 16 },
      { name := "b", type := .array ⟨3⟩ (.record ⟨2⟩ ⟨0⟩) 2 }]
      [{ record := ⟨0⟩ }, { record := ⟨1⟩, isVirtual := true }] [] { maxFieldAlignment := some 2 }] []

theorem required_alignments_outlast_packing_packedLeading : ∃ layout,
    (packedLeading.known 6).record ⟨2⟩ = .ok layout ∧
      RequirementsMet packedLeading (packedLeading.known 6) ⟨2⟩ layout := by
  obtain ⟨layout, laid⟩ := exists_ok (by decide +kernel :
    ((packedLeading.known 6).record ⟨2⟩).isOk = true)
  have powers : packedLeading.PowersWithin ⟨2⟩ :=
    ⟨fun m _ => Tree.forall_record (by decide) (by decide) m, nofun⟩
  exact ⟨layout, laid, required_alignments_outlast_packing (by decide) powers laid⟩

/-- On 32 bits the vbptr of the packed `D` pushes `x` by four bytes, however much `x` requires. -/
def packedPushed : Setting :=
  .windows .x86 [
    .ofClass "V" [] [] [],
    .ofClass "D" [{ name := "x", type := .scalar ⟨0⟩ (.integer .int .signed), alignment := some 8 }]
      [{ record := ⟨0⟩, isVirtual := true }] [] { maxFieldAlignment := some 1 }] []

/-- A vbptr can push a field off the alignment that the field asks for. -/
theorem required_alignment_lost_packedPushed : ∃ layout,
    packedPushed.usesMicrosoftLayout = true ∧ packedPushed.PowersWithin ⟨1⟩ ∧
      (packedPushed.tree.record ⟨1⟩).isUnion = false ∧
      (packedPushed.known 3).record ⟨1⟩ = .ok layout ∧
      ((packedPushed.tree.record ⟨1⟩).fields[0]?.bind (·.alignment)) = some 8 ∧
      layout.fieldOffset 0 = .ok (8 * 4) ∧ ¬ 8 ∣ 4 := by
  obtain ⟨layout, laid⟩ := exists_ok (by decide +kernel :
    ((packedPushed.known 3).record ⟨1⟩).isOk = true)
  have at' : (packedPushed.known 3).fieldOffset? ⟨1⟩ 0 = some (8 * 4) := by decide +kernel
  rw [Known.fieldOffset?_eq laid] at at'
  refine ⟨layout, by decide, ⟨fun m _ => ?_, nofun⟩, rfl, laid, rfl, ?_, by decide⟩
  · exact Tree.forall_record (by decide) (by decide) m
  · exact fieldOffset_eq_ok_iff.mpr at'

end ObjectLayout.Microsoft
