import ObjectLayout.Proofs.Microsoft.Alignment

/-! Where the vbptr of a class is. A shared one stays where its base has it, whatever moves the base;
one of the class's own starts at a multiple of its alignment, and the vfptr moves it along. -/
namespace ObjectLayout.Microsoft

open LayoutM (ends_bind ends_lift_bind)

variable {f : Frame} {known : Known} {st st' : State}

/-- A vbptr that is shared with a base is where that base has it. -/
def State.SharesVbptr (known : Known) (st : State) : Prop :=
  ∀ b, st.hasVbptr = true → st.vbptrBase = some b → ∃ layout offset, known.record b = .ok layout ∧
    st.baseOffsets.find? b = some offset ∧
    st.vbptrOffset = offset + layout.vbptr?.elim 0 (·.offset)

namespace State.SharesVbptr

theorem of_alone (alone : st.vbptrBase = none) : st.SharesVbptr known := by
  intro b _ shared
  simp [alone] at shared

variable (h : st.SharesVbptr known)
include h

theorem congr (hasVbptr : st'.hasVbptr = st.hasVbptr) (vbptrBase : st'.vbptrBase = st.vbptrBase)
    (vbptrOffset : st'.vbptrOffset = st.vbptrOffset) (baseOffsets : st'.baseOffsets = st.baseOffsets) :
    st'.SharesVbptr known := by
  unfold State.SharesVbptr
  rw [hasVbptr, vbptrBase, vbptrOffset, baseOffsets]
  exact h

/-- Bases and vbptr move by the same distance. -/
theorem shifted {distance vbptrOffset : Nat}
    (along : st.hasVbptr = true → vbptrOffset = st.vbptrOffset + distance) :
    { st.shifted distance fun _ => true with vbptrOffset }.SharesVbptr known := by
  intro b has shared
  obtain ⟨layout, offset, laid, found, same⟩ := h b has shared
  refine ⟨layout, offset + distance, laid, ?_, ?_⟩
  · simp [State.shifted, OrderedMap.find?_mapValues, found]
  · dsimp only
    rw [along has, same]
    exact Nat.add_right_comm _ _ _

end State.SharesVbptr

section Laying

theorem locateSharedVbptr_shares (st : State) :
    Ends (fun _ => True) ((locateSharedVbptr st).eval known) (State.SharesVbptr known) := by
  unfold locateSharedVbptr
  split
  case h_1 alone =>
    intro b has shared
    simp [has, shared] at alone
  case h_2 base both =>
    apply ends_bind Ends.any
    intro layout laid
    apply ends_lift_bind Ends.any
    intro offset found
    apply ends_lift_bind Ends.any
    intro sum added
    rw [LayoutM.eval_layoutOf] at laid
    obtain ⟨rfl, _⟩ := Quantity.add_eq_ok_iff.mp added
    intro b has shared
    dsimp only at has shared
    obtain rfl : b = base := by simpa [has, shared] using both
    refine ⟨layout, offset, laid, ?_, rfl⟩
    unfold State.baseOffset at found
    split at found
    · cases found
      assumption
    · cases found

theorem layNonVirtualBases_shares (st : State) :
    Ends (fun _ => True) ((layNonVirtualBases f st).eval known) (State.SharesVbptr known) := by
  unfold layNonVirtualBases
  apply ends_bind Ends.any
  intro walk _
  apply ends_bind Ends.any
  intro acc _
  exact locateSharedVbptr_shares _

theorem injectVbptr_shares (h : st.SharesVbptr known) :
    Ends (fun _ => True) (injectVbptr f st) (State.SharesVbptr known) := by
  apply (injectVbptr_eq st).imp
  rintro st' (⟨_, rfl⟩ | ⟨start, distance, own, _, _, rfl⟩)
  · exact h
  · simp only [State.needsOwnVbptr, Bool.and_eq_true, Option.isNone_iff_eq_none] at own
    exact .of_alone own.2

theorem injectVfptr_shares (h : st.SharesVbptr known) :
    Ends (fun _ => True) (injectVfptr f st) (State.SharesVbptr known) := by
  apply (injectVfptr_eq st).imp
  rintro st' (⟨_, rfl⟩ | ⟨distance, vbptrOffset, _, _, along, rfl⟩)
  · exact h
  · exact h.shifted along

/-- A vbptr that is put after the bases is one of the class's own. -/
theorem layVbptrAsBase_shares (h : st.SharesVbptr known) :
    Ends (fun _ => True) ((layVbptrAsBase f st).eval known) (State.SharesVbptr known) := by
  cases own : st.needsOwnVbptr with
  | false =>
    rw [layVbptrAsBase, own]
    exact h
  | true =>
    simp only [State.needsOwnVbptr, Bool.and_eq_true, Option.isNone_iff_eq_none] at own
    apply (layVbptrAsBase_moves st).imp
    rintro st' ⟨size, vbptrOffset, baseOffsets, rfl⟩
    exact .of_alone own.2

theorem layWithLeadingPointers_shares (before : State) :
    Ends (fun _ => True) ((layWithLeadingPointers f before).eval known) (State.SharesVbptr known) := by
  unfold layWithLeadingPointers
  apply ends_bind (layNonVirtualBases_ends (leadingStart_isFresh f before)).remember
  rintro based ⟨bases, row, laid⟩
  have shares := (layNonVirtualBases_shares _).value bases
  apply ends_bind (layVbptrAsBase_shares shares).remember
  rintro between ⟨placed, shares⟩
  have fresh : between.fieldOffsets = [] := by
    obtain ⟨size, vbptrOffset, baseOffsets, rfl⟩ := (layVbptrAsBase_moves based).value placed
    exact laid.fieldOffsets rfl
  apply ends_bind (layFields_ends fresh)
  intro st fields
  have same := fields.classPart
  simp only [State.classPart, Prod.mk.injEq] at same
  obtain ⟨_, _, _, hasVbptr, vbptrOffset, vbptrBase, baseOffsets, _⟩ := same
  exact shares.congr hasVbptr vbptrBase vbptrOffset baseOffsets

/-- However a class comes by its pointers, a vbptr that it shares stays where its base has it. -/
theorem layPointers_shares (h : st.SharesVbptr known) :
    Ends (fun _ => True) ((layPointers f st).eval known) (State.SharesVbptr known) := by
  apply layPointers_cases
  case none => exact fun _ _ => h
  case again => exact fun _ => layWithLeadingPointers_shares st
  case pushed =>
    intro _
    apply Ends.bind (injectVbptr_shares h)
    intro st₁ shares
    apply (injectVfptr_shares shares).imp
    exact fun st₂ shares => shares.congr rfl rfl rfl rfl

/-- A vbptr of the class's own, and what the pointers of the class need of its alignment. -/
structure State.PointersAligned (f : Frame) (st st' : State) : Prop where
  grows : st.alignment ≤ st'.alignment
  raised : st.hasOwnVfptr = true ∨ st.needsOwnVbptr = true → f.pointerAlignment ≤ st'.alignment
  vbptr : st.needsOwnVbptr = true → f.pointerAlignment = f.pointerSize →
    Quantity.isPowerOfTwo st.alignment = true → f.pointerSize ∣ st'.vbptrOffset

theorem layPointers_aligned (once : st.isRelaid f = false) :
    Ends (fun _ => True) ((layPointers f st).eval known) (State.PointersAligned f st) := by
  apply layPointers_cases
  case none =>
    intro none none'
    exact ⟨le_rfl, by simp [none, none'], by simp [none']⟩
  case again => exact fun relaid => by simp [once] at relaid
  case pushed =>
    intro _
    apply Ends.bind (injectVbptr_eq st)
    intro st₁ first
    apply (injectVfptr_eq st₁).imp
    intro st₂ second
    have first : st₁.alignment = st.alignment ∧ st₁.hasVbptr = st.hasVbptr ∧
        (st.needsOwnVbptr = true → f.pointerAlignment ∣ st₁.vbptrOffset) := by
      rcases first with ⟨without, rfl⟩ | ⟨start, distance, _, ⟨_, rfl⟩, _, rfl⟩
      · exact ⟨rfl, rfl, fun own => by simp [without] at own⟩
      · exact ⟨rfl, rfl, fun _ => Quantity.dvd_roundUp _ _⟩
    obtain ⟨alignment, hasVbptr, start⟩ := first
    have second : st₂.alignment = st₁.alignment ∧ (st₁.hasVbptr = true →
        st₂.vbptrOffset = st₁.vbptrOffset ∨
        st₂.vbptrOffset = st₁.vbptrOffset + Quantity.roundUp f.pointerSize st₁.alignment) := by
      rcases second with ⟨_, rfl⟩ | ⟨distance, vbptrOffset, _, ⟨_, rfl⟩, along, rfl⟩
      · exact ⟨rfl, fun _ => .inl rfl⟩
      · exact ⟨rfl, fun has => .inr (along has)⟩
    obtain ⟨alignment', moved⟩ := second
    constructor
    case grows =>
      dsimp only
      rw [alignment', alignment]
      exact Nat.le_max_left _ _
    case raised => exact fun _ => Nat.le_max_right _ _
    case vbptr =>
      intro own natural power
      have has : st₁.hasVbptr = true := by
        simp only [State.needsOwnVbptr, Bool.and_eq_true] at own
        rw [hasVbptr]
        exact own.1
      have whole := natural ▸ start own
      rcases moved has with same | further
      · exact same ▸ whole
      · dsimp only
        rw [further, alignment]
        exact Nat.dvd_add whole (Quantity.dvd_roundUp_self
          f.setting.target.pointerWidth_isPowerOfTwo power)

end Laying

namespace ClassRun

variable (run : ClassRun f known)
include run

theorem laid_sharesVbptr : run.laid.SharesVbptr known := by
  have same := run.once.fields.classPart
  simp only [State.classPart, Prod.mk.injEq] at same
  obtain ⟨_, _, _, hasVbptr, vbptrOffset, vbptrBase, baseOffsets, _⟩ := same
  exact ((layNonVirtualBases_shares _).value run.bases).congr hasVbptr vbptrBase vbptrOffset
    baseOffsets

theorem last_sharesVbptr : run.last.SharesVbptr known := by
  have shares := (layPointers_shares run.laid_sharesVbptr).value run.pointers
  obtain ⟨_, baseOffsets, vbptrOffset, flags, _⟩ := run.last_eq
  simp only [State.flags, Prod.mk.injEq] at flags
  exact shares.congr flags.2.2.2.1 flags.2.2.2.2 vbptrOffset baseOffsets

end ClassRun

end ObjectLayout.Microsoft
