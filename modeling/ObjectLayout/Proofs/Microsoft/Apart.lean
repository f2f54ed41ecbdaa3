import ObjectLayout.Proofs.Microsoft.Whole

/-! Parts of an object under the Microsoft rules share no bits. What decides this is the chain of
slots that the class was built from: those before the fields, the fields, and the virtual bases. -/
namespace ObjectLayout

namespace Microsoft

/-- The slots of a complete object, as its layout tells where they are. -/
inductive Occupies (s : Setting) (known : Known) (d : RecordId) (layout : RecordLayout) : Slot → Prop
  | vfptr (own : layout.hasOwnVfptr = true) :
      Occupies s known d layout (.ofBytes .vfptr 0 s.target.pointerWidth)
  | vbptr {offset : Nat} (own : layout.vbptr? = some ⟨offset, none⟩) :
      Occupies s known d layout (.ofBytes .vbptr offset s.target.pointerWidth)
  | base {r : RecordId} {offset : Nat} {base : RecordLayout} (at' : layout.baseOffset r = .ok offset)
      (laid : known.record r = .ok base) :
      Occupies s known d layout (.ofBytes (.base r) offset base.dataSize)
  | field {index offset bits : Nat} {field : Field}
      (declared : (s.tree.record d).fields[index]? = some field) (size : HasBits known field bits)
      (at' : layout.fieldOffset index = .ok offset) :
      Occupies s known d layout ⟨.field index, offset, offset + bits⟩
  | vtordisp {v : RecordId} {slot : VirtualBaseSlot} (at' : layout.virtualBaseSlot v = .ok slot)
      (has : slot.hasVtordisp = true) :
      Occupies s known d layout
        (.ofBytes (.vtordisp v) (slot.offset - vtordispSize) vtordispSize)
  | virtualBase {v : RecordId} {slot : VirtualBaseSlot} {base : RecordLayout}
      (at' : layout.virtualBaseSlot v = .ok slot) (laid : known.record v = .ok base) :
      Occupies s known d layout (.ofBytes (.virtualBase v) slot.offset base.dataSize)

/-- Every base and every field of a complete object has a slot, and so has the vtordisp of a virtual
base that is said to have one. -/
structure AllOccupy (s : Setting) (known : Known) (d : RecordId) (layout : RecordLayout) : Prop where
  bases : ∀ base ∈ (s.tree.record d).nonVirtualBases,
    ∃ slot, Occupies s known d layout slot ∧ slot.part = .base base.record
  fields : ∀ index < (s.tree.record d).fields.length,
    ∃ slot, Occupies s known d layout slot ∧ slot.part = .field index
  virtualBases : ∀ v ∈ s.tree.virtualBases d,
    ∃ slot, Occupies s known d layout slot ∧ slot.part = .virtualBase v
  vtordisps : ∀ v slot, layout.virtualBaseSlot v = .ok slot → slot.hasVtordisp = true →
    vtordispSize ≤ slot.offset

/-- No two parts of an object overlap, and whatever bits they take are those of the object. -/
structure PartsApart (s : Setting) (known : Known) (d : RecordId) (layout : RecordLayout) : Prop where
  occupy : AllOccupy s known d layout
  disjoint : ∀ slot slot', Occupies s known d layout slot → Occupies s known d layout slot' →
    slot.part ≠ slot'.part → Disjoint slot.bits slot'.bits
  nonVirtual : ∀ slot, Occupies s known d layout slot → slot.part.isNonVirtual = true →
    slot.bits ⊆ Set.Iio (8 * layout.dataSize)
  inside : ∀ slot, Occupies s known d layout slot → slot.bits ⊆ Set.Iio (8 * layout.size)

/-- All parts of an object end inside, also those without bits. -/
structure PartsInside (s : Setting) (known : Known) (d : RecordId) (layout : RecordLayout) :
    Prop where
  nonVirtual : ∀ slot, Occupies s known d layout slot → slot.part.isNonVirtual = true →
    slot.stop ≤ 8 * layout.dataSize
  inside : ∀ slot, Occupies s known d layout slot → slot.stop ≤ 8 * layout.size

namespace State

variable {st : State} {r v : RecordId} {offset index : Nat} {slot : VirtualBaseSlot}

theorem classLayout_baseOffset :
    st.classLayout.baseOffset r = .ok offset ↔ st.baseOffsets.find? r = some offset := by
  cases found : st.baseOffsets.find? r <;>
    simp [classLayout, RecordLayout.baseOffset, RecordLayout.classLayout, bind, Except.bind, found,
      pure, Except.pure]

theorem classLayout_virtualBaseSlot :
    st.classLayout.virtualBaseSlot v = .ok slot ↔ st.virtualBaseSlots.find? v = some slot := by
  cases found : st.virtualBaseSlots.find? v <;>
    simp [classLayout, RecordLayout.virtualBaseSlot, RecordLayout.classLayout, bind, Except.bind,
      found, pure, Except.pure]

theorem classLayout_fieldOffset :
    st.classLayout.fieldOffset index = .ok offset ↔ st.fieldOffsets[index]? = some offset := by
  cases found : st.fieldOffsets[index]? <;>
    simp [classLayout, RecordLayout.fieldOffset, found]

theorem classLayout_vbptr : st.classLayout.vbptr? = some ⟨offset, none⟩ ↔
    st.needsOwnVbptr = true ∧ st.vbptrOffset = offset := by
  cases has : st.hasVbptr <;> cases shared : st.vbptrBase <;>
    simp [classLayout, RecordLayout.vbptr?, needsOwnVbptr, has, shared]

end State

variable {s : Setting} {known : Known} {d : RecordId} {layout : RecordLayout}

namespace ClassRun

variable (run : ClassRun (Frame.ofRecord s d) known)

theorem virtual_chain : Chain (8 * run.closed.size) run.slots (8 * run.last.size) :=
  run.virtual.chain.raise (Nat.mul_le_mul_left 8 run.finished.grows)

theorem closed_hasVbptr : run.closed.hasVbptr = run.last.classLayout.hasVbptr := by
  obtain ⟨size, _, _, closed⟩ := run.closing
  have flags := run.last_eq.2.2.2.1
  simp only [State.flags, Prod.mk.injEq] at flags
  have same : run.closed.hasVbptr = run.last.hasVbptr := by
    rw [closed]
    exact flags.2.2.2.1.symm
  rw [same]
  cases has : run.last.hasVbptr <;>
    simp [RecordLayout.hasVbptr, RecordLayout.vbptr?, State.classLayout, has]

/-- What is in every object of a class is what was placed before the virtual bases were. -/
theorem occupies_cases {slot : Slot} (h : Occupies s known d run.last.classLayout slot) :
    (slot.part.isNonVirtual = true ∧ Placed (Frame.ofRecord s d) known run.pointed slot) ∨
    (slot.part.isNonVirtual = false ∧ slot ∈ run.slots) := by
  obtain ⟨fieldOffsets, baseOffsets, vbptrOffset, flags, _⟩ := run.last_eq
  simp only [State.flags, Prod.mk.injEq] at flags
  obtain ⟨_, _, hasOwnVfptr, hasVbptr, vbptrBase⟩ := flags
  cases h with
  | vfptr own => exact .inl ⟨rfl, .vfptr (hasOwnVfptr.symm.trans own)⟩
  | vbptr own =>
    obtain ⟨own, rfl⟩ := State.classLayout_vbptr.mp own
    rw [vbptrOffset]
    exact .inl ⟨rfl, .vbptr (by rwa [State.needsOwnVbptr, ← hasVbptr, ← vbptrBase])⟩
  | base at' laid =>
    have at' := State.classLayout_baseOffset.mp at'
    exact .inl ⟨rfl, .base laid (baseOffsets ▸ at')⟩
  | field declared size at' =>
    have at' := State.classLayout_fieldOffset.mp at'
    rw [size.eq]
    exact .inl ⟨rfl, .field declared (fieldOffsets ▸ at')⟩
  | vtordisp at' has =>
    have at' := State.classLayout_virtualBaseSlot.mp at'
    rw [run.finished.virtualBaseSlots] at at'
    exact .inr ⟨rfl, (run.virtual.vtordisp at' has).2⟩
  | virtualBase at' laid =>
    have at' := State.classLayout_virtualBaseSlot.mp at'
    rw [run.finished.virtualBaseSlots] at at'
    exact .inr ⟨rfl, run.virtual.base laid at'⟩

theorem occupies {slot : Slot} (h : Placed (Frame.ofRecord s d) known run.pointed slot) :
    Occupies s known d run.last.classLayout slot := by
  obtain ⟨fieldOffsets, baseOffsets, vbptrOffset, flags, _⟩ := run.last_eq
  simp only [State.flags, Prod.mk.injEq] at flags
  obtain ⟨_, _, hasOwnVfptr, hasVbptr, vbptrBase⟩ := flags
  cases h with
  | vfptr own => exact .vfptr (hasOwnVfptr.trans own)
  | vbptr own =>
    rw [State.needsOwnVbptr, ← hasVbptr, ← vbptrBase] at own
    exact .vbptr (State.classLayout_vbptr.mpr ⟨own, vbptrOffset⟩)
  | base laid at' => exact .base (State.classLayout_baseOffset.mpr (baseOffsets ▸ at')) laid
  | field declared at' =>
    obtain ⟨bits, size⟩ := exists_hasBits (run.once.fields.typed _ (List.mem_of_getElem? declared))
    rw [← size.eq]
    exact .field declared size (State.classLayout_fieldOffset.mpr (fieldOffsets ▸ at'))

theorem allOccupy
    (hasVbptr : s.tree.virtualBases d ≠ [] → run.last.classLayout.hasVbptr = true) :
    AllOccupy s known d run.last.classLayout := by
  obtain ⟨fieldOffsets, baseOffsets, _⟩ := run.last_eq
  have entered := (layPointers_entered run.once).value run.pointers
  constructor
  case bases =>
    intro base member
    obtain ⟨offset, at'⟩ := Option.isSome_iff_exists.mp (entered.bases base member)
    rw [← baseOffsets] at at'
    obtain ⟨layout, laid⟩ := run.once.bases.asked base (List.mem_filter.mp member).1
    exact ⟨_, .base (State.classLayout_baseOffset.mpr at') laid, rfl⟩
  case fields =>
    intro index inside
    have declared : (s.tree.record d).fields[index]? = some (s.tree.record d).fields[index] :=
      List.getElem?_eq_getElem inside
    obtain ⟨bits, size⟩ := exists_hasBits
      (run.once.fields.typed _ (List.getElem_mem inside))
    have counted : index < run.last.fieldOffsets.length := by
      rw [fieldOffsets, entered.fields]
      exact inside
    exact ⟨_, .field declared size
      (State.classLayout_fieldOffset.mpr (List.getElem?_eq_getElem counted)), rfl⟩
  case virtualBases =>
    intro v member
    have member' : v ∈ if run.closed.hasVbptr then s.tree.virtualBases d else [] := by
      rwa [run.closed_hasVbptr, if_pos (hasVbptr (List.ne_nil_of_mem member))]
    obtain ⟨slot, at'⟩ := Option.isSome_iff_exists.mp (run.virtual.entered v member')
    rw [← run.finished.virtualBaseSlots] at at'
    obtain ⟨layout, laid⟩ := run.virtual.asked v member'
    exact ⟨_, .virtualBase (State.classLayout_virtualBaseSlot.mpr at') laid, rfl⟩
  case vtordisps =>
    intro v slot at' has
    have at' := State.classLayout_virtualBaseSlot.mp at'
    rw [run.finished.virtualBaseSlots] at at'
    exact (run.virtual.vtordisp at' has).1

/-- The data end where the virtual bases start. -/
theorem dataSize_eq : run.last.classLayout.dataSize = run.closed.size := run.last_eq.2.2.2.2.1

/-- Where the pointers are pushed in, everything that is placed before the virtual bases is inside. -/
theorem pushed_endsBy (pushed : run.laid.isRelaid (Frame.ofRecord s d) = false) :
    EndsBy (Frame.ofRecord s d) known run.pointed run.last.classLayout.dataSize := by
  have room (alone : run.laid.vbptrBase = none) : run.laid.vbptrOffset ≤ run.laid.size :=
    (run.once.vbptrOffset alone).trans_le run.once.fields.grows
  have inside := (run.once.reaches.layPointers room pushed).value run.pointers
  obtain ⟨size, grows, _, closed⟩ := run.closing
  intro slot placed
  rw [run.dataSize_eq, closed]
  exact (inside slot placed).trans (Nat.mul_le_mul_left 8 grows)

variable (inside : EndsBy (Frame.ofRecord s d) known run.pointed run.last.classLayout.dataSize)
include inside

theorem partsInside : PartsInside s known d run.last.classLayout := by
  have above := run.virtual_chain
  rw [← run.dataSize_eq] at above
  constructor
  case nonVirtual =>
    intro slot h isNonVirtual
    rcases run.occupies_cases h with ⟨_, placed⟩ | ⟨isVirtual, _⟩
    · exact inside slot placed
    · simp [isVirtual] at isNonVirtual
  case inside =>
    intro slot h
    rcases run.occupies_cases h with ⟨_, placed⟩ | ⟨_, member⟩
    · exact (inside slot placed).trans above.le
    · exact (above.inside slot member).2.2

theorem partsApart (spread : Spread (Frame.ofRecord s d) known run.pointed)
    (hasVbptr : s.tree.virtualBases d ≠ [] → run.last.classLayout.hasVbptr = true) :
    PartsApart s known d run.last.classLayout := by
  have above := run.virtual_chain
  rw [← run.dataSize_eq] at above
  have parts := run.partsInside inside
  have upTo {slot : Slot} {stop : Nat} (le : slot.stop ≤ stop) : slot.bits ⊆ Set.Iio stop :=
    fun bit inside => inside.2.trans_le le
  have across {slot slot' : Slot} (placed : Placed (Frame.ofRecord s d) known run.pointed slot)
      (member : slot' ∈ run.slots) : Disjoint slot.bits slot'.bits :=
    Slot.disjoint_of_le ((inside slot placed).trans (above.inside slot' member).1)
  constructor
  case occupy => exact run.allOccupy hasVbptr
  case disjoint =>
    intro slot slot' h h' differ
    rcases run.occupies_cases h with ⟨_, placed⟩ | ⟨_, member⟩ <;>
      rcases run.occupies_cases h' with ⟨_, placed'⟩ | ⟨_, member'⟩
    · exact spread slot slot' placed placed' differ
    · exact across placed member'
    · exact (across placed' member).symm
    · exact above.disjoint member member' differ
  case nonVirtual => exact fun slot h isNonVirtual => upTo (parts.nonVirtual slot h isNonVirtual)
  case inside => exact fun slot h => upTo (parts.inside slot h)

end ClassRun

/-- A plain record holds nothing but its fields. -/
theorem PlainRun.partsInside (run : PlainRun (Frame.ofRecord s d) known) :
    PartsInside s known d run.last.plainLayout := by
  have fields := (layFields_ends rfl).value run.fields
  obtain ⟨size, closes, _, closed⟩ := (closeData_ends run.laid).value run.closing
  have grows : run.laid.size ≤ run.last.size := by
    refine closes.trans ?_
    have finished := ((finish_ends run.closed).value run.finishing).grows
    rwa [closed] at finished
  have inside (slot : Slot) (h : Occupies s known d run.last.plainLayout slot) :
      slot.stop ≤ 8 * run.last.size := by
    cases h with
    | vfptr own => cases own
    | vbptr own => cases own
    | base at' => cases at'
    | vtordisp at' => cases at'
    | virtualBase at' => cases at'
    | @field index offset bits field declared size at' =>
      have found : run.last.fieldOffsets[index]? = some offset := by
        cases found : run.last.fieldOffsets[index]? <;>
          simp_all [State.plainLayout, RecordLayout.fieldOffset]
      rw [run.last_eq.1] at found
      rw [size.eq]
      exact (fields.inside _ (mem_fieldSlots declared found)).trans (Nat.mul_le_mul_left 8 grows)
  exact ⟨fun slot h _ => inside slot h, inside⟩

theorem hasVbptr_of_virtualBases {depth : Nat} (microsoft : s.usesMicrosoftLayout = true)
    (laid : (s.known depth).record d = .ok layout) (some : s.tree.virtualBases d ≠ []) :
    layout.hasVbptr = true := by
  obtain ⟨acyclic, hasVbptr⟩ := hasVbptr_iff microsoft depth laid
  obtain ⟨v, member⟩ := List.exists_mem_of_ne_nil _ some
  exact hasVbptr.mpr ⟨v, (Tree.mem_virtualBases acyclic).mp member⟩

/-- Parts of a class whose pointers are pushed in never overlap. -/
theorem injected_parts_never_overlap {depth : Nat} (microsoft : s.usesMicrosoftLayout = true)
    (isClass : (s.tree.record d).isClass = true) (notUnion : (s.tree.record d).isUnion = false)
    (laid : (s.known depth).record d = .ok layout)
    (ordinary : s.target.is64Bit = false ∨ layout.requiredAlignment ≤ 8) :
    PartsApart s (s.known depth) d layout ∧ PartsInside s (s.known depth) d layout := by
  have hasVbptr := hasVbptr_of_virtualBases microsoft laid
  obtain ⟨run, rfl⟩ := classRun microsoft isClass (s.known_record laid)
  have pushed : run.laid.isRelaid (Frame.ofRecord s d) = false := by
    apply run.not_relaid
    rw [Frame.is64Bit_eq]
    exact ordinary
  obtain ⟨site, lower, upper, arranged, pointed⟩ := ((run.once.arranged notUnion).layPointers
    run.once.vbptrOffset pushed).value run.pointers
  have inside := run.pushed_endsBy pushed
  exact ⟨run.partsApart inside (arranged.spread pointed) hasVbptr, run.partsInside inside⟩

/-- `D` has both pointers of its own, a base without data where the vbptr goes in, two bit-fields in
one unit, and a vtordisp before its virtual base. -/
def overridingBase : Setting :=
  .windows .x86 [
    .ofClass "V" [{ name := "v", type := .scalar ⟨0⟩ (.integer .int .signed) }] [] [⟨0⟩],
    .ofClass "A" [{ name := "a", type := .scalar ⟨1⟩ .plainChar }] [] [],
    .ofClass "E" [] [] [],
    .ofClass "D" [{ name := "x", type := .scalar ⟨0⟩ (.integer .int .signed), bitWidth := some 3 },
      { name := "y", type := .scalar ⟨0⟩ (.integer .int .signed), bitWidth := some 5 }]
      [{ record := ⟨1⟩ }, { record := ⟨2⟩ }, { record := ⟨0⟩, isVirtual := true }] [⟨1⟩, ⟨2⟩, ⟨3⟩]]
    [{ name := "f", owner := ⟨0⟩, isVirtual := true },
      { name := "g", owner := ⟨3⟩, isVirtual := true },
      { name := "f", owner := ⟨3⟩, isVirtual := true, overridden := [⟨0⟩] },
      { name := "D", owner := ⟨3⟩, kind := .constructor }]

theorem injected_parts_never_overlap_overridingBase : ∃ layout,
    (overridingBase.known 4).record ⟨3⟩ = .ok layout ∧
      PartsApart overridingBase (overridingBase.known 4) ⟨3⟩ layout ∧
      PartsInside overridingBase (overridingBase.known 4) ⟨3⟩ layout := by
  obtain ⟨layout, laid⟩ := exists_ok (by decide +kernel :
    ((overridingBase.known 4).record ⟨3⟩).isOk = true)
  exact ⟨layout, laid, injected_parts_never_overlap (by decide) (by decide) (by decide) laid
    (.inl (by decide))⟩

end Microsoft

end ObjectLayout
