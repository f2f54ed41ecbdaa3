import ObjectLayout.Proofs.Microsoft.Assembled
import ObjectLayout.Proofs.Microsoft.Virtual

/-! Whole records under the Microsoft rules: the states that a class passes through on its way to a
layout, and which classes end up with a vbptr. -/
namespace ObjectLayout

namespace RecordLayout

/-- Where the Microsoft rules apply, a layout is that of a complete record under these rules. -/
theorem ofRecord_microsoft {s : Setting} {known : Known} (microsoft : s.usesMicrosoftLayout = true)
    {r : RecordId} {layout : RecordLayout} (h : (ofRecord s r).eval known = .ok layout) :
    (Microsoft.layout s r).eval known = .ok layout := by
  unfold ofRecord at h
  obtain ⟨⟨⟩, complete, h⟩ := LayoutM.eval_bind_eq_ok.mp h
  obtain ⟨⟨⟩, _, h⟩ := LayoutM.eval_bind_eq_ok.mp h
  obtain ⟨layout', rules, h⟩ := LayoutM.eval_bind_eq_ok.mp h
  obtain ⟨⟨⟩, _, h⟩ := LayoutM.eval_bind_eq_ok.mp h
  cases h
  unfold byRules at rules
  rw [microsoft] at rules
  obtain ⟨⟨⟩, _, rules⟩ := LayoutM.eval_bind_eq_ok.mp rules
  exact rules

end RecordLayout

namespace Microsoft

open LayoutM (ends_bind ends_lift_bind)

variable {f : Frame} {known : Known}

/-- The layout that a class has when its state is finished. -/
def State.classLayout (st : State) : RecordLayout where
  size := st.size
  dataSize := st.dataSize
  alignment := st.alignment
  requiredAlignment := st.requiredAlignment
  fieldOffsets := st.fieldOffsets
  asClass := some {
    nonVirtualSize := st.dataSize
    nonVirtualAlignment := st.alignment
    primaryBase := st.primaryBase.map (⟨·, false⟩)
    hasOwnVfptr := st.hasOwnVfptr
    hasExtendableVfptr := st.hasOwnVfptr || st.primaryBase.isSome
    vbptr := if st.hasVbptr then some ⟨st.vbptrOffset, st.vbptrBase⟩ else none
    hasZeroSizedSubobject := st.hasZeroSizedSubobject
    leadsWithZeroSizedBase := st.leadsWithZeroSizedBase
    baseOffsets := st.baseOffsets
    virtualBaseSlots := st.virtualBaseSlots }

theorem closeData_ends (st : State) : Ends (fun _ => True) (closeData st) fun st' =>
    ∃ size, st.size ≤ size ∧ st.alignment ∣ size ∧ st' = { st with size, dataSize := size } := by
  unfold closeData
  refine Ends.bind Ends.any fun size rounded => ?_
  obtain ⟨positive, rfl, _⟩ := Quantity.alignTo_eq_ok_iff.mp rounded
  exact ⟨_, Quantity.le_roundUp (Nat.pos_of_ne_zero positive), Quantity.dvd_roundUp _ _, rfl⟩

/-- What finishing a state does. -/
structure Finished (st st' : State) : Prop where
  grows : st.size ≤ st'.size
  alignment : st'.alignment
    = if st.requiredAlignment = 0 then st.alignment else max st.alignment st.requiredAlignment
  multiple : st.requiredAlignment ≠ 0 ∨ st.alignment ∣ st.size → st'.alignment ∣ st'.size
  positive : 0 < st'.alignment → 0 < st'.size
  /-- Rounding up leaves a size of zero as it is, so that it is seen. -/
  zeroSized : st.size = 0 →
    st'.hasZeroSizedSubobject = true ∧ st'.leadsWithZeroSizedBase = true
  nonVirtual : { st' with leadsWithZeroSizedBase := st.leadsWithZeroSizedBase }.nonVirtual
    = st.nonVirtual
  virtualBaseSlots : st'.virtualBaseSlots = st.virtualBaseSlots

theorem finish_ends (st : State) : Ends (fun _ => True) (finish st) (Finished st) := by
  -- A size of zero is replaced whether or not it was rounded up before.
  have filled (rounded : State) (state : ∃ size alignment, rounded = { st with size, alignment })
      (grows : st.size ≤ rounded.size) (zero : st.size = 0 → rounded.size = 0)
      (alignment : rounded.alignment
        = if st.requiredAlignment = 0 then st.alignment else max st.alignment st.requiredAlignment)
      (multiple : st.requiredAlignment ≠ 0 ∨ st.alignment ∣ st.size →
        rounded.alignment ∣ rounded.size) :
      Ends (fun _ => True) (if rounded.size = 0 then
        return { rounded with
          hasZeroSizedSubobject := true
          leadsWithZeroSizedBase := true
          size := rounded.alignment }
        else return rounded : Checked State) (Finished st) := by
    obtain ⟨size, alignment', rfl⟩ := state
    split
    case isTrue empty =>
      have empty : size = 0 := empty
      subst empty
      exact ⟨grows.trans (Nat.zero_le _), alignment, fun _ => Nat.dvd_refl _, id,
        fun _ => ⟨rfl, rfl⟩, rfl, rfl⟩
    case isFalse some =>
      exact ⟨grows, alignment, multiple, fun _ => Nat.pos_of_ne_zero some,
        fun empty => absurd (zero empty) some, rfl, rfl⟩
  unfold finish
  split
  case isTrue none =>
    exact filled st ⟨_, _, rfl⟩ le_rfl id (if_pos none).symm fun h => h.resolve_left (absurd none)
  case isFalse some =>
    refine Ends.bind Ends.any fun size rounded => ?_
    obtain ⟨positive, rfl, _⟩ := Quantity.alignTo_eq_ok_iff.mp rounded
    have zero (empty : st.size = 0) :
        Quantity.roundUp st.size (max st.alignment st.requiredAlignment) = 0 := by
      rw [empty, Quantity.roundUp_zero (Nat.pos_of_ne_zero positive)]
    exact filled _ ⟨_, _, rfl⟩ (Quantity.le_roundUp (Nat.pos_of_ne_zero positive)) zero
      (if_neg some).symm fun _ => Quantity.dvd_roundUp _ _

theorem Finished.required_le {st st' : State} (h : Finished st st') :
    st'.requiredAlignment ≤ st'.alignment := by
  have same := h.nonVirtual
  simp only [State.nonVirtual, Prod.mk.injEq] at same
  rw [same.2.1, h.alignment]
  split
  · rename_i unrequired
    exact unrequired.le.trans (Nat.zero_le _)
  · exact Nat.le_max_right _ _

/-- The layout that a plain record has when its state is finished. -/
def State.plainLayout (st : State) : RecordLayout where
  size := st.size
  dataSize := st.size
  alignment := st.alignment
  requiredAlignment := st.requiredAlignment
  fieldOffsets := st.fieldOffsets

/-- The states that a plain record passes through. -/
structure PlainRun (f : Frame) (known : Known) where
  laid : State
  fields : (layFields f (State.initial f)).eval known = .ok laid
  closed : State
  closing : closeData laid = .ok closed
  last : State
  finishing : finish closed = .ok last

theorem layPlain_run {layout : RecordLayout} (h : (layPlain f).eval known = .ok layout) :
    ∃ run : PlainRun f known, layout = run.last.plainLayout := by
  unfold layPlain at h
  obtain ⟨laid, fields, h⟩ := LayoutM.eval_bind_eq_ok.mp h
  obtain ⟨closed, closing, h⟩ := LayoutM.eval_bind_eq_ok.mp h
  obtain ⟨last, finishing, h⟩ := LayoutM.eval_bind_eq_ok.mp h
  rw [LayoutM.eval_lift] at closing finishing
  cases h
  exact ⟨⟨laid, fields, closed, closing, last, finishing⟩, rfl⟩

/-- What a finished plain record took over from the state with its fields. -/
theorem PlainRun.last_eq (run : PlainRun f known) :
    run.last.fieldOffsets = run.laid.fieldOffsets ∧
    run.last.requiredAlignment = run.laid.requiredAlignment ∧
    run.laid.alignment ≤ run.last.alignment := by
  obtain ⟨size, _, _, closed⟩ := (closeData_ends run.laid).value run.closing
  have finished := (finish_ends run.closed).value run.finishing
  have same := finished.nonVirtual
  have alignment := finished.alignment
  simp only [State.nonVirtual, Prod.mk.injEq, closed] at same alignment
  refine ⟨same.2.2.2.2.2.2.2.2.2.2.1, same.2.1, ?_⟩
  rw [alignment]
  split
  · exact le_rfl
  · exact Nat.le_max_left _ _

theorem Frame.is64Bit_eq (f : Frame) : f.is64Bit = f.setting.target.is64Bit := by
  unfold Frame.is64Bit Target.pointerWidth
  cases f.setting.target.is64Bit <;> rfl

/-- The states that a class passes through. -/
structure ClassRun (f : Frame) (known : Known) where
  row : List PlacedBase
  based : State
  laid : State
  bases : (layNonVirtualBases f (State.initial f)).eval known = .ok based
  once : LaidOnce f known row based laid
  fields : (layFields f based).eval known = .ok laid
  pointed : State
  pointers : (layPointers f laid).eval known = .ok pointed
  closed : State
  closing : ∃ size, pointed.size ≤ size ∧ pointed.alignment ∣ size ∧
    closed = { pointed with size, dataSize := size }
  slots : List Slot
  placed : State
  virtualBases : (layVirtualBases f closed).eval known = .ok placed
  virtual : VirtualLaid known closed (if closed.hasVbptr then f.tree.virtualBases f.record else [])
    slots placed
  last : State
  finished : Finished placed last

theorem layClass_run {layout : RecordLayout} (h : (layClass f).eval known = .ok layout) :
    ∃ run : ClassRun f known, layout = run.last.classLayout := by
  unfold layClass at h
  obtain ⟨based, bases, h⟩ := LayoutM.eval_bind_eq_ok.mp h
  obtain ⟨laid, fields, h⟩ := LayoutM.eval_bind_eq_ok.mp h
  obtain ⟨pointed, pointers, h⟩ := LayoutM.eval_bind_eq_ok.mp h
  obtain ⟨closed, closing, h⟩ := LayoutM.eval_bind_eq_ok.mp h
  obtain ⟨placed, virtual, h⟩ := LayoutM.eval_bind_eq_ok.mp h
  obtain ⟨last, finishing, h⟩ := LayoutM.eval_bind_eq_ok.mp h
  rw [LayoutM.eval_lift] at closing finishing
  have closing := (closeData_ends pointed).value closing
  obtain ⟨row, inRow⟩ := (layNonVirtualBases_ends (State.initial_isFresh f)).value bases
  have once : LaidOnce f known row based laid :=
    ⟨inRow, ⟨_, _, _, rfl⟩, (layFields_ends (inRow.fieldOffsets rfl)).value fields⟩
  have fresh : closed.virtualBaseSlots = .empty := by
    obtain ⟨size, _, _, rfl⟩ := closing
    exact ((layPointers_flags once).value pointers).2
  obtain ⟨slots, placement⟩ := (layVirtualBases_ends closed fresh).value virtual
  cases h
  exact ⟨⟨row, based, laid, bases, once, fields, pointed, pointers, closed, closing, slots, placed, virtual,
    placement, last, (finish_ends placed).value finishing⟩, rfl⟩

namespace ClassRun

variable (run : ClassRun f known)
include run

/-- What a finished class took over from the state with its pointers. -/
theorem last_eq : run.last.fieldOffsets = run.pointed.fieldOffsets ∧
    run.last.baseOffsets = run.pointed.baseOffsets ∧
    run.last.vbptrOffset = run.pointed.vbptrOffset ∧ run.last.flags = run.pointed.flags ∧
    run.last.dataSize = run.closed.size ∧ run.placed.dataSize = run.closed.size := by
  have finished := run.finished.nonVirtual
  have virtual := run.virtual.nonVirtual
  obtain ⟨size, _, _, closed⟩ := run.closing
  simp only [State.nonVirtual, Prod.mk.injEq, closed] at finished virtual
  simp only [State.flags, finished, virtual, closed, and_self]

theorem flags_eq : run.last.flags = run.laid.flags :=
  run.last_eq.2.2.2.1.trans ((layPointers_flags run.once).value run.pointers).1

theorem hasOwnVfptr_eq : run.last.classLayout.hasOwnVfptr = run.laid.hasOwnVfptr := by
  have flags := run.flags_eq
  simp only [State.flags, Prod.mk.injEq] at flags
  exact flags.2.2.1

theorem hasOwnVbptr_eq : run.last.classLayout.hasOwnVbptr = run.laid.needsOwnVbptr := by
  have flags := run.flags_eq
  simp only [State.flags, Prod.mk.injEq] at flags
  rw [State.needsOwnVbptr, ← flags.2.2.2.1, ← flags.2.2.2.2]
  cases has : run.last.hasVbptr <;>
    simp [RecordLayout.hasOwnVbptr, RecordLayout.vbptr?, State.classLayout, has]

theorem required_eq : run.last.requiredAlignment = run.laid.requiredAlignment := by
  have same := run.flags_eq
  simp only [State.flags, Prod.mk.injEq] at same
  exact same.1

/-- A class with pointers of its own is laid out again if much is required of it. -/
theorem isRelaid_iff : run.laid.isRelaid f = true ↔
    (run.last.classLayout.hasOwnVfptr = true ∨ run.last.classLayout.hasOwnVbptr = true) ∧
      f.is64Bit = true ∧ 8 < run.last.classLayout.requiredAlignment := by
  have required : run.last.classLayout.requiredAlignment = run.laid.requiredAlignment := run.required_eq
  rw [run.hasOwnVfptr_eq, run.hasOwnVbptr_eq, required]
  simp [State.isRelaid, and_assoc]

theorem not_relaid
    (ordinary : f.is64Bit = false ∨ run.last.classLayout.requiredAlignment ≤ 8) :
    run.laid.isRelaid f = false := by
  rw [Bool.eq_false_iff, Ne, run.isRelaid_iff]
  rintro ⟨_, wide, much⟩
  rcases ordinary with narrow | low
  · simp [narrow] at wide
  · exact absurd much low.not_gt

theorem hasVbptr_eq : run.last.classLayout.hasVbptr
    = f.declaration.bases.any fun base => base.isVirtual || bringsVbptr known base := by
  have flags := run.flags_eq.trans run.once.flags
  simp only [State.flags, Prod.mk.injEq] at flags
  rw [← flags.2.2.2.1]
  cases has : run.last.hasVbptr <;>
    simp [RecordLayout.hasVbptr, RecordLayout.vbptr?, State.classLayout, has]

end ClassRun

variable {s : Setting} {r d : RecordId}

theorem layout_class (isClass : (s.tree.record r).isClass = true) :
    layout s r = layClass (Frame.ofRecord s r) := if_pos isClass

theorem layout_plain (isPlain : (s.tree.record r).isClass = false) :
    layout s r = layPlain (Frame.ofRecord s r) :=
  if_neg (by rw [Bool.not_eq_true]; exact isPlain)

theorem classRun (microsoft : s.usesMicrosoftLayout = true)
    (isClass : (s.tree.record r).isClass = true) {layout : RecordLayout}
    (laid : (RecordLayout.ofRecord s r).eval known = .ok layout) :
    ∃ run : ClassRun (Frame.ofRecord s r) known, layout = run.last.classLayout := by
  have rules := RecordLayout.ofRecord_microsoft microsoft laid
  rw [layout_class isClass] at rules
  exact layClass_run rules

theorem plainRun (microsoft : s.usesMicrosoftLayout = true)
    (isPlain : (s.tree.record r).isClass = false) {layout : RecordLayout}
    (laid : (RecordLayout.ofRecord s r).eval known = .ok layout) :
    ∃ run : PlainRun (Frame.ofRecord s r) known, layout = run.last.plainLayout := by
  have rules := RecordLayout.ofRecord_microsoft microsoft laid
  rw [layout_plain isPlain] at rules
  exact layPlain_run rules

/-- Nothing is required of a record that it is not aligned to. -/
theorem requiredAlignment_le (microsoft : s.usesMicrosoftLayout = true) {layout : RecordLayout}
    (laid : (RecordLayout.ofRecord s r).eval known = .ok layout) :
    layout.requiredAlignment ≤ layout.alignment := by
  cases isClass : (s.tree.record r).isClass with
  | true =>
    obtain ⟨run, rfl⟩ := classRun microsoft isClass laid
    exact run.finished.required_le
  | false =>
    obtain ⟨run, rfl⟩ := plainRun microsoft isClass laid
    exact ((finish_ends run.closed).value run.finishing).required_le

theorem plain_asClass (microsoft : s.usesMicrosoftLayout = true)
    (isPlain : (s.tree.record r).isClass = false) {layout : RecordLayout}
    (laid : (RecordLayout.ofRecord s r).eval known = .ok layout) : layout.asClass = none := by
  obtain ⟨run, rfl⟩ := plainRun microsoft isPlain laid
  rfl

/-- A virtual base never serves as the primary base. -/
theorem virtualPrimaryBase?_eq_none (microsoft : s.usesMicrosoftLayout = true) {layout : RecordLayout}
    (laid : (RecordLayout.ofRecord s r).eval known = .ok layout) :
    layout.virtualPrimaryBase? = none := by
  cases isClass : (s.tree.record r).isClass with
  | true =>
    obtain ⟨run, rfl⟩ := classRun microsoft isClass laid
    cases primary : run.last.primaryBase <;>
      simp [RecordLayout.virtualPrimaryBase?, RecordLayout.primaryBase?, State.classLayout, primary]
  | false =>
    rw [RecordLayout.virtualPrimaryBase?, RecordLayout.primaryBase?,
      plain_asClass microsoft isClass laid]
    rfl

/-- The layout of a record rests on those of the types of its fields, except where a field has no bits. -/
theorem fields_typed (microsoft : s.usesMicrosoftLayout = true) {layout : RecordLayout}
    (laid : (RecordLayout.ofRecord s r).eval known = .ok layout) {field : Field}
    (member : field ∈ (s.tree.record r).fields) :
    field.bitWidth = some 0 ∨ ∃ type, known.type field.type = .ok type := by
  cases isClass : (s.tree.record r).isClass with
  | true =>
    obtain ⟨run, _⟩ := classRun microsoft isClass laid
    exact run.once.fields.typed field member
  | false =>
    obtain ⟨run, _⟩ := plainRun microsoft isClass laid
    exact ((layFields_ends rfl).value run.fields).typed field member

theorem exists_type (microsoft : s.usesMicrosoftLayout = true) {layout : RecordLayout}
    (laid : (RecordLayout.ofRecord s r).eval known = .ok layout) {field : Field}
    (member : field ∈ (s.tree.record r).fields) (stored : field.bitWidth = none) :
    ∃ type, known.type field.type = .ok type :=
  (fields_typed microsoft laid member).resolve_left (by simp [stored])

/-- The layout of a class rests on those of its bases. -/
theorem known_of_inherits (microsoft : s.usesMicrosoftLayout = true) {b : RecordId} {depth : Nat}
    {layout : RecordLayout} (laid : (s.known depth).record r = .ok layout)
    (edge : s.tree.Inherits r b) : ∃ inner, (s.known depth).record b = .ok inner := by
  obtain ⟨run, _⟩ := classRun microsoft (Tree.isClass_of_inherits edge) (s.known_record laid)
  obtain ⟨base, member, rfl⟩ := edge
  exact run.once.bases.asked base member

theorem known_of_below (microsoft : s.usesMicrosoftLayout = true) {b : RecordId} {depth : Nat}
    {layout : RecordLayout} (laid : (s.known depth).record r = .ok layout)
    (below : Relation.TransGen s.tree.Inherits r b) :
    ∃ inner, (s.known depth).record b = .ok inner := by
  induction below with
  | single edge => exact known_of_inherits microsoft laid edge
  | tail _ edge ih =>
    obtain ⟨_, laid⟩ := ih
    exact known_of_inherits microsoft laid edge

/-- The classes with a vbptr are those with a virtual base. -/
theorem hasVbptr_iff (microsoft : s.usesMicrosoftLayout = true) (depth : Nat) {layout : RecordLayout}
    (laid : (s.known depth).record r = .ok layout) : s.tree.Acyclic r ∧
      (layout.hasVbptr = true ↔ ∃ v, s.tree.HasVirtualBase r v) := by
  induction depth generalizing r layout with
  | zero => cases laid
  | succ depth ih =>
    cases isClass : (s.tree.record r).isClass with
    | false =>
      refine ⟨.intro fun b edge => ?_, fun has => ?_, fun ⟨v, has⟩ => ?_⟩
      · simp [Tree.isClass_of_inherits edge] at isClass
      · simp [RecordLayout.hasVbptr, RecordLayout.vbptr?, plain_asClass microsoft isClass laid] at has
      · simp [has.isClass] at isClass
    | true =>
      obtain ⟨run, rfl⟩ := classRun microsoft isClass laid
      have asked := run.once.bases.asked
      refine ⟨.intro fun b inherits => ?_, ?_⟩
      · obtain ⟨base, member, rfl⟩ := inherits
        obtain ⟨layout, laid⟩ := asked base member
        exact (ih laid).1
      rw [run.hasVbptr_eq, List.any_eq_true]
      constructor
      · rintro ⟨base, member, brings⟩
        cases virt : base.isVirtual with
        | true => exact ⟨_, .direct ⟨base, member, virt, rfl⟩⟩
        | false =>
          obtain ⟨layout, laid⟩ := asked base member
          have has : layout.hasVbptr = true := by
            simpa [bringsVbptr, virt, Known.has_eq laid] using brings
          obtain ⟨v, inherited⟩ := (ih laid).2.mp has
          exact ⟨v, inherited.under ⟨base, member, rfl⟩⟩
      · rintro ⟨v, has⟩
        obtain ⟨base, member, ⟨virt, _⟩ | inherited⟩ := Tree.hasVirtualBase_iff.mp has
        · exact ⟨base, member, by simp [virt]⟩
        · obtain ⟨layout, laid⟩ := asked base member
          have has := (ih laid).2.mpr ⟨v, inherited⟩
          refine ⟨base, member, ?_⟩
          cases virt : base.isVirtual <;> simp [bringsVbptr, virt, Known.has_eq laid, has]

end Microsoft

/-- C++ declarations for Windows, with nothing supplied. -/
def Setting.windows (arch : Arch) (records : List Record) (methods : List Method) : Setting where
  tree := { records := ⟨records.toArray⟩, methods := ⟨methods.toArray⟩, typeCount := records.length }
  target := { arch := some arch, os := some .windows }
  options := { cplusplus := true }

end ObjectLayout
