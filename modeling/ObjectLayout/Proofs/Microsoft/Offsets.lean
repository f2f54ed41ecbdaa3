import ObjectLayout.Proofs.Microsoft.Leading

/-! What is placed keeps an offset. The bases and fields of a class have offsets once they are laid out,
and pointers that come in later move them without losing any. -/
namespace ObjectLayout.Microsoft

variable {f : Frame} {known : Known} {st st' start based between : State} {row : List PlacedBase}

/-- Every non-virtual base has an offset, and so has every field. -/
structure State.HasOffsets (f : Frame) (st : State) : Prop where
  base : ∀ base ∈ f.declaration.nonVirtualBases, st.baseOffsets.contains base.record = true
  counted : st.fieldOffsets.length = f.declaration.fields.length

namespace State.HasOffsets

theorem congr (h : st.HasOffsets f) (baseOffsets : st'.baseOffsets = st.baseOffsets)
    (fieldOffsets : st'.fieldOffsets = st.fieldOffsets) : st'.HasOffsets f := by
  constructor
  · exact baseOffsets ▸ h.base
  · exact fieldOffsets ▸ h.counted

theorem shifted (h : st.HasOffsets f) (distance : Nat) (moves : Nat → Bool) :
    (st.shifted distance moves).HasOffsets f := by
  constructor
  case base =>
    intro base member
    have there := h.base base member
    simpa [State.shifted, OrderedMap.contains, OrderedMap.find?_mapValues] using there
  case counted => simpa [State.shifted] using h.counted

end State.HasOffsets

theorem Assembled.hasOffsets (h : Assembled f known start row based between st)
    (entered : ∀ base ∈ f.declaration.nonVirtualBases,
      between.baseOffsets.contains base.record = true) : st.HasOffsets f := by
  constructor
  · exact h.fields.baseOffsets ▸ entered
  · exact h.fields.counted

/-- The base that makes way for the vbptr is entered again. -/
theorem layVbptrAsBase_entered
    (entered : ∀ base ∈ f.declaration.nonVirtualBases, st.baseOffsets.contains base.record = true) :
    Ends (fun _ => True) ((layVbptrAsBase f st).eval known) fun st' =>
      ∀ base ∈ f.declaration.nonVirtualBases, st'.baseOffsets.contains base.record = true := by
  apply (layVbptrAsBase_ends st).imp
  rintro st' (⟨_, rfl⟩ | ⟨_, ⟨found, last, _, _, _, _, _, _, _, stop, _, placed⟩⟩)
  · exact entered
  · rw [placed]
    cases last with
    | none => exact entered
    | some last =>
      exact fun base member => OrderedMap.contains_insert _ (entered base member)

/-- However the pointers of a class come in, its bases and fields keep offsets. -/
theorem layPointers_hasOffsets (once : LaidOnce f known row based st) :
    Ends (fun _ => True) ((layPointers f st).eval known) (State.HasOffsets f) := by
  have start : st.HasOffsets f := once.hasOffsets once.bases.entered
  apply layPointers_cases
  case none => exact fun _ _ => start
  case again =>
    intro _
    apply (layWithLeadingPointers_ends st).imp
    rintro st' ⟨row', based', between', laid', again, placed, _, rfl⟩
    have entered := (layVbptrAsBase_entered again.bases.entered).value placed
    exact (again.hasOffsets entered).congr rfl rfl
  case pushed =>
    intro _
    apply Ends.bind (injectVbptr_ends st)
    intro st₁ first
    have behind : st₁.HasOffsets f := by
      rcases first with ⟨_, rfl⟩ | ⟨_, distance, _, _, _, rfl⟩
      · exact start
      · exact (start.shifted distance fun offset => decide (st.vbptrOffset ≤ offset)).congr rfl rfl
    apply (injectVfptr_ends st₁).imp
    rintro st₂ (⟨_, rfl⟩ | ⟨distance, _, _, _, _, rfl⟩)
    · exact behind.congr rfl rfl
    · exact (behind.shifted distance fun _ => true).congr rfl rfl

theorem ClassRun.hasOffsets (run : ClassRun f known) : run.last.HasOffsets f :=
  ((layPointers_hasOffsets run.once).value run.pointers).congr run.last_eq.2.1 run.last_eq.1

theorem PlainRun.counted (run : PlainRun f known) :
    run.last.fieldOffsets.length = f.declaration.fields.length := by
  have fields := (layFields_ends rfl).value run.fields
  rw [run.last_eq.1, fields.counted]

end ObjectLayout.Microsoft
