import ObjectLayout.Proofs.Itanium.Bases
import ObjectLayout.Proofs.Itanium.Stages

/-! What giving a part its place changes of a state, with or without a supplied layout. The map of
empty subobjects admits the part where it comes to lie; all else that changes are sizes, alignments
and the list of field offsets. -/
namespace ObjectLayout.Itanium

open LayoutM (ends_bind ends_lift_bind)

variable {f : Frame} {known : Known} {st st₁ st' : State}
variable {i : SubobjectId} {x : Nat} {type : Ty}

/-- Nothing but the sizes, the alignments and the table pointer differs. -/
def Resizes (st st' : State) : Prop := st' = { st with
  size := st'.size, dataSize := st'.dataSize, hasOwnVfptr := st'.hasOwnVfptr
  alignment := st'.alignment, unpackedAlignment := st'.unpackedAlignment
  infersAlignment := st'.infersAlignment }

/-- Nothing but these and what is left of a unit of bits differs. -/
def Reckons (st st' : State) : Prop := Resizes
  { st with unfilledBits := st'.unfilledBits, storageUnit := st'.storageUnit } st'

namespace Resizes

theorem refl (st : State) : Resizes st st := rfl

theorem trans (h : Resizes st st₁) (h' : Resizes st₁ st') : Resizes st st' := by
  unfold Resizes at *
  rw [h', h]

theorem raiseAlignment (packed unpacked : Bytes) :
    Ends (fun _ => True) (st.raiseAlignment f packed unpacked) fun st' =>
      Resizes st st' ∧ st.size ≤ st'.size :=
  (raiseAlignment_ends (.inr trivial) (.inr trivial)).imp fun st' aligned => by
    rw [aligned.frame]
    exact ⟨rfl, le_rfl⟩

theorem settlePackedIf (condition : Bool) :
    Resizes st (st.settlePackedIf condition) ∧ st.size ≤ (st.settlePackedIf condition).size := by
  unfold State.settlePackedIf
  split <;> exact ⟨rfl, le_rfl⟩

theorem setSize {size : Bytes} (enough : st.sizeInBytes ≤ size) :
    Ends (fun _ => True) (st.setSize size) fun st' => Resizes st st' ∧ st.size ≤ st'.size := by
  refine (setSize_ends trivial).imp ?_
  rintro _ rfl
  have rounded := le_toBytesCeil st.size
  exact ⟨rfl, rounded.trans (Nat.mul_le_mul_left 8 enough)⟩

theorem occupyBase (isEmpty : Bool) (layout : RecordLayout) (x : Bytes) :
    Ends (fun _ => True) (occupyBase st isEmpty layout x) fun st' =>
      Resizes st st' ∧ st.size ≤ st'.size := by
  unfold Itanium.occupyBase
  cases isEmpty with
  | true => exact Ends.bind Ends.any fun stop _ => setSize (Nat.le_max_left _ _)
  | false =>
    refine Ends.bind Ends.any fun _ _ => Ends.bind Ends.any fun _ _ => ?_
    exact Ends.bind Ends.any fun _ _ => ⟨rfl, Nat.le_max_left _ _⟩

theorem layTablePointer : Ends (fun _ => True) (layTablePointer f st) (Resizes st) := by
  unfold Itanium.layTablePointer
  refine Ends.bind Ends.any fun _ _ => Ends.bind Ends.any fun start _ => ?_
  refine Ends.bind Ends.any fun bits _ => Ends.bind (raiseAlignment _ _) fun st₁ ⟨raised, _⟩ => ?_
  refine Ends.bind Ends.any fun stop _ => Ends.bind Ends.any fun stopBits _ => ?_
  unfold Resizes at raised
  rw [raised]
  rfl

theorem reckons (h : Resizes st st') : Reckons st st' := by
  unfold Reckons Resizes at *
  rw [h]

end Resizes

namespace Reckons

theorem refl (st : State) : Reckons st st := rfl

theorem trans (h : Reckons st st₁) (h' : Reckons st₁ st') : Reckons st st' := by
  unfold Reckons Resizes at *
  rw [h', h]

theorem placing (h : Reckons st st') (offset : Bits) :
    Reckons (st.placeFieldAt offset) (st'.placeFieldAt offset) := by
  unfold Reckons Resizes at *
  rw [h]
  rfl

theorem setDataSize (st : State) (dataSize : Bits) : Reckons st (st.setDataSize dataSize) := rfl

theorem raiseAlignment (packed unpacked : Bytes) :
    Ends (fun _ => True) (st.raiseAlignment f packed unpacked) (Reckons st) :=
  (Resizes.raiseAlignment _ _).imp fun _ ⟨raised, _⟩ => raised.reckons

end Reckons

section Bases

theorem placeBase?_frame (done : (st.placeBase? f i x).eval known = .ok (some st')) :
    st' = { st with emptyMap := st'.emptyMap } :=
  ((placeIn_ends fun _ _ => Ends.any.imp fun _ _ => trivial).value done).frame

theorem findBaseOffset_ok {alignment : Bytes}
    (done : (findBaseOffset f st i alignment).eval known = .ok (st', x)) :
    (st.placeBase? f i x).eval known = .ok (some st') ∧
      ∃ start : Nat, Quantity.alignTo st.dataSizeInBytes alignment = .ok start ∧ start ≤ x := by
  unfold findBaseOffset at done
  obtain ⟨start, aligned, done⟩ := LayoutM.eval_bind_eq_ok.mp done
  rw [LayoutM.eval_lift] at aligned
  obtain ⟨placed, later⟩ := probe_ok _ done
  exact ⟨placed, start, aligned, later⟩

/-- A base gets its place: the map admits it at an offset, and the record does not shrink. -/
structure TakesBase (f : Frame) (known : Known) (i : SubobjectId) (st st' : State) : Prop where
  placed : ∃ x mid, (st.placeBase? f i x).eval known = .ok (some mid) ∧ Resizes mid st'
  grows : st.size ≤ st'.size

namespace TakesBase

theorem start (placed : (st.placeBase? f i x).eval known = .ok (some st')) :
    TakesBase f known i st st' :=
  ⟨⟨x, st', placed, .refl st'⟩, by rw [placeBase?_frame placed]⟩

theorem further (h : TakesBase f known i st st₁) (next : Resizes st₁ st' ∧ st₁.size ≤ st'.size) :
    TakesBase f known i st st' := by
  obtain ⟨x, mid, placed, sofar⟩ := h.placed
  exact ⟨⟨x, mid, placed, sofar.trans next.1⟩, h.grows.trans next.2⟩

/-- Whatever is left alone by the map and by sizes and alignments stays as it was. -/
theorem frame (h : TakesBase f known i st st') : Resizes { st with emptyMap := st'.emptyMap } st' := by
  obtain ⟨x, mid, placed, resizes⟩ := h.placed
  unfold Resizes at *
  rw [resizes, placeBase?_frame placed]

end TakesBase

theorem findBaseOffset_takes {alignment : Bytes} :
    Ends (fun _ => True) ((findBaseOffset f st i alignment).eval known) fun found =>
      TakesBase f known i st found.1 :=
  Ends.any.imp fun _ done => .start (findBaseOffset_ok done).1

theorem adoptBaseOffset_takes {alignment offset : Bytes} :
    Ends (fun _ => True) ((adoptBaseOffset f st i alignment offset).eval known) fun found =>
      TakesBase f known i st found.1 := by
  unfold adoptBaseOffset
  refine ends_bind Ends.any fun placed done => ?_
  cases placed with
  | none => trivial
  | some st₁ =>
    have taken : TakesBase f known i st st₁ := .start done
    dsimp only
    split
    · exact taken
    · exact ends_lift_bind Ends.any fun start _ => taken.further (Resizes.settlePackedIf _)

theorem seekBase_takes {alignment : Bytes} :
    Ends (fun _ => True) ((seekBase f st i alignment).eval known) fun found =>
      TakesBase f known i st found.1 := by
  unfold seekBase
  split
  · exact findBaseOffset_takes
  · exact adoptBaseOffset_takes

theorem layBase_takes : Ends (fun _ => True) ((layBase f i st).eval known) fun result =>
    TakesBase f known i st result.1 := by
  refine layBase_stages.imp ?_
  rintro ⟨st', x⟩ ⟨layout, unpacked, _, _, stages⟩
  cases stages with
  | atStart _ _ admitted covered raised =>
    have covered := Ends.holds (Resizes.setSize (Nat.le_max_left _ _)) covered
    have raised := Ends.holds (Resizes.raiseAlignment _ _) raised
    exact ((TakesBase.start admitted).further covered).further raised
  | elsewhere _ chosen covered raised =>
    have covered := Ends.holds (Resizes.occupyBase _ _ _) covered
    have raised := Ends.holds (Resizes.raiseAlignment _ _) raised
    exact ((Ends.holds seekBase_takes chosen).further covered).further raised

end Bases

section Fields

variable {index : Nat} {field : Field} {width typeSize : Bits}

theorem placeField?_frame (done : (st.placeField? f type x).eval known = .ok (some st')) :
    st' = { st with emptyMap := st'.emptyMap } := by
  unfold State.placeField? at done
  cases union : f.isUnion with
  | true =>
    rw [union] at done
    cases done
    rfl
  | false =>
    rw [union] at done
    exact ((placeIn_ends fun _ _ => Ends.any.imp fun _ _ => trivial).value done).frame

/-- A field gets its place: the map admits it at an offset, unless it is a bit-field. -/
structure TakesField (f : Frame) (known : Known) (field : Field) (st st' : State) : Prop where
  placed : ∃ st₁ mid offset, Reckons st st₁ ∧ Reckons (mid.placeFieldAt offset) st' ∧
    (mid = st₁ ∨ ∃ x, (st₁.placeField? f field.type x).eval known = .ok (some mid))

namespace TakesField

/-- A bit-field takes its place without asking the map. -/
theorem bits {offset : Bits} (h : Reckons (st.placeFieldAt offset) st') :
    TakesField f known field st st' := ⟨st, st, offset, .refl st, h, .inl rfl⟩

/-- The state that the map is asked in has the map as it was. -/
theorem exists_mapped (h : TakesField f known field st st') : ∃ offset st₁ mid, Reckons st st₁ ∧
    mid = { st₁ with emptyMap := st'.emptyMap } ∧ Reckons (mid.placeFieldAt offset) st' := by
  obtain ⟨st₁, mid, offset, before, after, placed⟩ := h.placed
  have map : st'.emptyMap = mid.emptyMap := by rw [after]; rfl
  refine ⟨offset, st₁, mid, before, ?_, after⟩
  rcases placed with rfl | ⟨x, placed⟩
  · rw [map]
  · rw [map, placeField?_frame placed]

theorem frame (h : TakesField f known field st st') :
    Reckons { st with emptyMap := st'.emptyMap, fieldOffsets := st'.fieldOffsets } st' := by
  obtain ⟨offset, st₁, mid, before, rfl, after⟩ := h.exists_mapped
  unfold Reckons Resizes at *
  rw [after, before]
  rfl

theorem appends (h : TakesField f known field st st') :
    ∃ offset, st'.fieldOffsets = st.fieldOffsets ++ [offset] := by
  obtain ⟨offset, st₁, mid, before, rfl, after⟩ := h.exists_mapped
  refine ⟨offset, ?_⟩
  rw [after, before]
  rfl

end TakesField

theorem adoptFieldOffset_reckons (st : State) (index : Nat) (computed : Bits) :
    Reckons st (adoptFieldOffset f st index computed).1 := by
  unfold adoptFieldOffset
  split
  · rfl
  · exact (Resizes.settlePackedIf _).1.reckons

/-- The offset of a field is one at which the map admits it. -/
theorem chooseFieldOffset_takes {alignment start : Bytes} :
    Ends (fun _ => True) ((chooseFieldOffset f st index type alignment start).eval known)
      fun found => ∃ st₁ x, Reckons st st₁ ∧
        (st₁.placeField? f type x).eval known = .ok (some found.1) := by
  unfold chooseFieldOffset
  split
  · exact Ends.any.imp fun found done => ⟨st, found.2, .refl st, (probe_ok _ done).1⟩
  · refine ends_lift_bind Ends.any fun bits _ => ?_
    have adopted := adoptFieldOffset_reckons (f := f) st index bits
    generalize adoptFieldOffset f st index bits = taken at adopted
    obtain ⟨st₁, offset⟩ := taken
    refine ends_bind Ends.any fun placed done => ?_
    cases placed with
    | none => trivial
    | some st₂ => exact ⟨st₁, _, adopted, done⟩

theorem layField_takes : Ends (fun _ => True) ((layField f index field st).eval known)
    (TakesField f known field st) := by
  refine layField_stages.imp ?_
  rintro st' ⟨size, natural, start, offset, placed, stages⟩
  have cleared : Reckons st { st with unfilledBits := 0, storageUnit := 0 } := rfl
  obtain ⟨st₁, x, adopted, admitted⟩ := Ends.holds chooseFieldOffset_takes stages.chosen
  have raised := Ends.holds (Reckons.raiseAlignment _ _) stages.raised
  exact ⟨st₁, placed, 8 * offset, cleared.trans adopted, (Reckons.setDataSize _ _).trans raised,
    .inr ⟨x, admitted⟩⟩

theorem endAt_reckons (stop : Bits) : Ends (fun _ => True) (st.endAt stop) (Reckons st) :=
  Ends.bind Ends.any fun _ _ => Ends.bind Ends.any fun _ _ => rfl

theorem takeFromUnit_reckons (offset width typeSize : Bits) :
    Ends (fun _ => True) (st.takeFromUnit offset width typeSize) (Reckons st) := by
  unfold State.takeFromUnit
  split
  · exact Ends.bind Ends.any fun _ _ => Ends.bind Ends.any fun _ _ => rfl
  · split
    · exact Ends.bind Ends.any fun _ _ => Ends.bind Ends.any fun _ _ => rfl
    · rfl

theorem occupyBits_reckons (offset width typeSize : Bits) :
    Ends (fun _ => True) (st.occupyBits f offset width typeSize) (Reckons st) := by
  unfold State.occupyBits
  split
  · rfl
  · split
    · exact takeFromUnit_reckons _ _ _
    · refine Ends.bind Ends.any fun stop _ => Ends.bind (endAt_reckons stop) fun st₁ ended => ?_
      exact ended.trans rfl

theorem layWideBitField_reckons {isPacked : Bool} :
    Ends (fun _ => True) ((layWideBitField f index field width isPacked st).eval known)
      fun st' => ∃ offset, Reckons (st.placeFieldAt offset) st' := by
  refine layWideBitField_stages.imp ?_
  rintro st' ⟨alignment, offset, taken, stages⟩
  have took : Reckons st taken := by
    cases union : f.isUnion with
    | true =>
      rw [(stages.inUnion union).2]
      rfl
    | false =>
      have cleared : Reckons st { st with unfilledBits := 0, storageUnit := 0 } := rfl
      exact cleared.trans (Ends.holds (endAt_reckons _) (stages.sequential union).2)
  have raised := Ends.holds (Reckons.raiseAlignment _ _) stages.raised
  exact ⟨offset, (took.placing offset).trans ((Reckons.setDataSize _ _).trans raised)⟩

theorem layNarrowBitField_reckons {isPacked : Bool} {typeAlignment unpaddedOffset : Bits} :
    Ends (fun _ => True) ((layNarrowBitField f index field width typeSize typeAlignment isPacked
      unpaddedOffset st).eval known) fun st' => ∃ offset, Reckons (st.placeFieldAt offset) st' := by
  refine layNarrowBitField_stages.imp ?_
  rintro st' ⟨alignment, start, computed, taken, stages⟩
  have adopted := adoptFieldOffset_reckons (f := f) st index computed
  have occupied := Ends.holds (occupyBits_reckons _ _ _) stages.occupied
  have raised := Ends.holds (Reckons.raiseAlignment _ _) stages.raised
  exact ⟨_, ((adopted.placing _).trans occupied).trans ((Reckons.setDataSize _ _).trans raised)⟩

theorem layBitField_takes : Ends (fun _ => True) ((layBitField f index field width st).eval known)
    (TakesField f known field st) := by
  refine layBitField_enters.imp ?_
  rintro st' ⟨type, _, _, entered⟩
  have left : Reckons st (st.entering f type) := by
    unfold State.entering State.leaveUnit
    split
    · split <;> rfl
    · rfl
  obtain ⟨offset, next⟩ : ∃ offset, Reckons ((st.entering f type).placeFieldAt offset) st' := by
    rcases entered with ⟨_, done⟩ | ⟨_, done⟩
    · exact layWideBitField_reckons.holds done
    · exact layNarrowBitField_reckons.holds done
  exact .bits ((left.placing offset).trans next)

theorem layAnyField_takes {entry : Field × Nat} :
    Ends (fun _ => True) ((layAnyField f st entry).eval known) (TakesField f known entry.1 st) := by
  unfold layAnyField
  split
  · exact layBitField_takes
  · exact layField_takes

/-- Fields leave the graph and the tables of bases alone. -/
theorem layFields_frame : Ends (fun _ => True) ((layFields f st).eval known) fun st' =>
    Reckons { st with emptyMap := st'.emptyMap, fieldOffsets := st'.fieldOffsets } st' := by
  unfold layFields
  rw [LayoutM.eval_foldlM]
  refine Ends.foldlM_keeps (.refl st) fun entry _ st₁ sofar => ?_
  refine layAnyField_takes.imp fun st₂ taken => ?_
  have next := taken.frame
  unfold Reckons Resizes at *
  rw [next, sofar]

end Fields

/-- At the start there are only alignments to settle. -/
theorem initial_resizes (map : Option EmptyMap) :
    Ends (fun _ => True) (State.initial f map) (Resizes { emptyMap := map }) := by
  unfold State.initial
  extract_lets fresh settle
  have settled (st : State) (sofar : Resizes fresh st) :
      Ends (fun _ => True) (settle st) (Resizes fresh) := by
    unfold settle
    split
    · exact sofar
    · split <;> exact sofar.trans rfl
  split
  · exact settled _ rfl
  · split
    · exact (Resizes.raiseAlignment _ _).bind fun st raised => settled st raised.1
    · exact settled _ rfl

/-- The end of a layout settles the size. -/
theorem finish_resizes : Ends (fun _ => True) ((finish f st).eval known) (Resizes st) := by
  refine finish_stages.imp ?_
  rintro st' ⟨rounded, sized, stages⟩
  have before : Resizes st sized := by
    have avoided := stages.avoided
    unfold State.avoidSizeZero at avoided
    split at avoided
    · rw [Ends.holds (setSize_ends trivial) avoided]
      rfl
    · cases avoided
      exact .refl st
  cases given : f.supplied with
  | none =>
    rw [stages.computed given]
    exact before.trans rfl
  | some supplied =>
    obtain ⟨isSmaller, done⟩ := stages.adopted supplied given
    rw [Ends.holds (setSize_ends trivial) done]
    exact (before.trans (Resizes.settlePackedIf isSmaller).1).trans rfl

end ObjectLayout.Itanium
