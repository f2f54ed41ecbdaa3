import ObjectLayout.Proofs.Itanium.Raising
import ObjectLayout.Proofs.Itanium.Soundness
import ObjectLayout.Proofs.Itanium.Supplied.Fields

/-! What a supplied layout says is what the computed layout has: the offsets of fields and of direct
non-virtual bases, the size and the alignment. The one kind of member whose offset is not looked up is
a bit-field wider than its declared type, which goes where it would go without a supplied layout. -/
namespace ObjectLayout.Itanium

open LayoutM (ends_bind ends_lift_bind eval_bind_eq_ok)

variable {f : Frame} {known : Known} {supplied : SuppliedLayout} {st st₁ st' : State}
variable {i : SubobjectId} {x : Nat}

/-- Nothing is placed between two states, and a settled alignment stays as it is. -/
structure Undisturbed (st st' : State) : Prop where
  frame : st' = { st with
    size := st'.size, dataSize := st'.dataSize, emptyMap := st'.emptyMap
    unfilledBits := st'.unfilledBits, storageUnit := st'.storageUnit
    alignment := st'.alignment, unpackedAlignment := st'.unpackedAlignment
    infersAlignment := st'.infersAlignment }
  settled : st.infersAlignment = false →
    st'.infersAlignment = false ∧ st'.alignment = st.alignment

namespace Undisturbed

theorem refl (st : State) : Undisturbed st st := ⟨rfl, fun settled => ⟨settled, rfl⟩⟩

theorem trans (h : Undisturbed st st₁) (h' : Undisturbed st₁ st') : Undisturbed st st' where
  frame := by rw [h'.frame, h.frame]
  settled before := by
    obtain ⟨between, same⟩ := h.settled before
    obtain ⟨after, same'⟩ := h'.settled between
    exact ⟨after, same'.trans same⟩

end Undisturbed

section Steps

theorem settlePackedIf_undisturbed (condition : Bool) :
    Undisturbed st (st.settlePackedIf condition) := by
  unfold State.settlePackedIf
  split
  · rename_i both
    refine ⟨rfl, fun settled => ?_⟩
    rw [settled, Bool.false_and] at both
    cases both
  · exact .refl st

theorem raiseAlignment_undisturbed (given : f.supplied = some supplied) (packed unpacked : Bytes) :
    Ends (fun _ => True) (st.raiseAlignment f packed unpacked) (Undisturbed st) := by
  refine Ends.of_all (fun _ => trivial) fun st' done => ?_
  have aligned := Ends.holds (raiseAlignment_ends (.inr trivial) (.inr trivial)) done
  refine ⟨by rw [aligned.frame], fun settled => ?_⟩
  have fixed : st.isAlignmentSettled f = true := by
    simp [State.isAlignmentSettled, given, settled]
  unfold State.raiseAlignment at done
  rw [if_pos fixed] at done
  cases done
  exact ⟨settled, rfl⟩

theorem setSize_undisturbed (size : Bytes) :
    Ends (fun _ => True) (st.setSize size) (Undisturbed st) :=
  Ends.bind Ends.any fun _ _ => ⟨rfl, fun settled => ⟨settled, rfl⟩⟩

theorem occupyBase_undisturbed (isEmpty : Bool) (layout : RecordLayout) (x : Bytes) :
    Ends (fun _ => True) (occupyBase st isEmpty layout x) (Undisturbed st) := by
  unfold occupyBase
  cases isEmpty with
  | true => exact Ends.bind Ends.any fun _ _ => setSize_undisturbed _
  | false =>
    refine Ends.bind Ends.any fun _ _ => Ends.bind Ends.any fun _ _ => ?_
    exact Ends.bind Ends.any fun _ _ => ⟨rfl, fun settled => ⟨settled, rfl⟩⟩

theorem placeBase?_undisturbed (done : (st.placeBase? f i x).eval known = .ok (some st')) :
    Undisturbed st st' := by
  rw [placeBase?_frame done]
  exact ⟨rfl, fun settled => ⟨settled, rfl⟩⟩

theorem placeField?_undisturbed {type : Ty}
    (done : (st.placeField? f type x).eval known = .ok (some st')) : Undisturbed st st' := by
  rw [placeField?_frame done]
  exact ⟨rfl, fun settled => ⟨settled, rfl⟩⟩

end Steps

section Bases

theorem adoptBaseOffset_ends {alignment : Bytes} :
    Ends (fun _ => True) ((adoptBaseOffset f st i alignment x).eval known) fun result =>
      Undisturbed st result.1 ∧ result.2 = x := by
  unfold adoptBaseOffset
  refine ends_bind Ends.any fun placed done => ?_
  cases placed with
  | none => trivial
  | some st₁ =>
    have same := placeBase?_undisturbed done
    dsimp only
    split
    · exact ⟨same, rfl⟩
    · exact ends_lift_bind Ends.any fun start _ => ⟨same.trans (settlePackedIf_undisturbed _), rfl⟩

theorem seekBase_adopts {alignment : Bytes} :
    Ends (fun _ => True) ((seekBase f st i alignment).eval known) fun found =>
      Undisturbed st found.1 ∧
        ∀ y, suppliedBaseOffset? f (st.graph.node i) = some y → found.2 = y := by
  unfold seekBase
  cases suppliedBaseOffset? f (st.graph.node i) with
  | none => exact Ends.any.imp fun found done => ⟨placeBase?_undisturbed (findBaseOffset_ok done).1, nofun⟩
  | some offset =>
    exact adoptBaseOffset_ends.imp fun found ⟨same, adopted⟩ =>
      ⟨same, fun y told => adopted.trans (Option.some.inj told)⟩

/-- A base for which an offset is supplied goes there. -/
theorem layBase_adopts (given : f.supplied = some supplied) :
    Ends (fun _ => True) ((layBase f i st).eval known) fun result => Undisturbed st result.1 ∧
      ∀ y, suppliedBaseOffset? f (st.graph.node i) = some y → result.2 = y := by
  refine layBase_stages.imp ?_
  rintro ⟨st', x⟩ ⟨layout, unpacked, _, _, stages⟩
  cases stages with
  | atStart _ offered admitted covered raised =>
    have covered := Ends.holds (setSize_undisturbed _) covered
    have raised := Ends.holds (raiseAlignment_undisturbed given _ _) raised
    refine ⟨((placeBase?_undisturbed admitted).trans covered).trans raised, fun y told => ?_⟩
    rw [told, Option.all_some, beq_iff_eq] at offered
    exact offered.symm
  | elsewhere _ chosen covered raised =>
    obtain ⟨same, adopted⟩ := Ends.holds seekBase_adopts chosen
    have covered := Ends.holds (occupyBase_undisturbed _ _ _) covered
    have raised := Ends.holds (raiseAlignment_undisturbed given _ _) raised
    exact ⟨(same.trans covered).trans raised, adopted⟩

/-- A base that has its place and for which an offset is supplied has it there. -/
def State.BasesAgree (supplied : SuppliedLayout) (st : State) : Prop :=
  ∀ b x y, st.baseOffsets.find? b = some x → supplied.baseOffsets.find? b = some y → x = y

/-- What steps over bases do: those that have their place keep it, and the others go where they are
supplied. -/
structure BaseSteps (supplied : SuppliedLayout) (st st' : State) : Prop where
  keeps : Keeps st st'
  settled : st.infersAlignment = false →
    st'.infersAlignment = false ∧ st'.alignment = st.alignment
  agree : st.BasesAgree supplied → st'.BasesAgree supplied

namespace BaseSteps

theorem refl (st : State) : BaseSteps supplied st st :=
  ⟨.refl st, fun settled => ⟨settled, rfl⟩, id⟩

theorem trans (h : BaseSteps supplied st st₁) (h' : BaseSteps supplied st₁ st') :
    BaseSteps supplied st st' where
  keeps := h.keeps.trans h'.keeps
  settled before := by
    obtain ⟨between, same⟩ := h.settled before
    obtain ⟨after, same'⟩ := h'.settled between
    exact ⟨after, same'.trans same⟩
  agree before := h'.agree (h.agree before)

theorem contains (h : BaseSteps supplied st st') {b : RecordId}
    (listed : st.baseOffsets.contains b = true) : st'.baseOffsets.contains b = true :=
  h.keeps.base.contained listed

end BaseSteps

theorem Undisturbed.baseSteps (h : Undisturbed st st') : BaseSteps supplied st st' where
  keeps := SamePlaces.keeps (by rw [h.frame]; exact ⟨rfl, rfl, rfl, rfl⟩)
  settled := h.settled
  agree := by rw [h.frame]; exact id

/-- A place in the table of direct bases that is not taken yet. -/
theorem insert_baseSteps {b : RecordId} (free : st.baseOffsets.contains b = false)
    (adopted : ∀ y, supplied.baseOffsets.find? b = some y → x = y) :
    BaseSteps supplied st { st with baseOffsets := st.baseOffsets.insert b x } where
  keeps := ⟨id, rfl, .insert free x, .refl _⟩
  settled settled := ⟨settled, rfl⟩
  agree before b' x' y found told := by
    by_cases same : b' = b
    · subst same
      rw [OrderedMap.find?_insert_self] at found
      cases found
      exact adopted y told
    · rw [OrderedMap.find?_insert_of_ne _ _ same] at found
      exact before b' x' y found told

theorem placeClaimed_baseSteps (supplied : SuppliedLayout) :
    Ends (fun _ => True) ((st.placeClaimed f i x).eval known) fun st' =>
      BaseSteps supplied st st' ∧ st'.primaryBase = st.primaryBase ∧
        st'.baseOffsets = st.baseOffsets := by
  unfold State.placeClaimed
  refine ends_bind placeClaimed_keeps fun slots kept => ⟨⟨⟨id, rfl, .refl _, kept⟩, ?_, id⟩, rfl, rfl⟩
  exact fun settled => ⟨settled, rfl⟩

variable (given : f.supplied = some supplied)
include given

/-- A non-virtual base is placed for good. -/
theorem layNonVirtualBase_adopts (plain : (st.graph.node i).isVirtual = false) :
    Ends (fun _ => True) ((layNonVirtualBase f i st).eval known) fun st' =>
      BaseSteps supplied st st' ∧ st'.primaryBase = st.primaryBase ∧
        st'.baseOffsets.contains (st.graph.node i).record = true := by
  unfold layNonVirtualBase
  refine ends_bind (layBase_adopts given) ?_
  rintro ⟨st₁, x⟩ ⟨same, adopted⟩
  dsimp only at same adopted ⊢
  have graph : st₁.graph = st.graph := by rw [same.frame]
  have primary : st₁.primaryBase = st.primaryBase := by rw [same.frame]
  rw [← graph] at plain adopted ⊢
  refine ends_bind Ends.any fun _ new => ?_
  have free : st₁.baseOffsets.contains (st₁.graph.node i).record = false := by
    simpa using ensure_eq_ok.mp ((LayoutM.eval_ensure _ _).symm.trans new)
  have listed : BaseSteps supplied st₁ { st₁ with
      baseOffsets := st₁.baseOffsets.insert (st₁.graph.node i).record x } := by
    refine insert_baseSteps free fun y told => ?_
    apply adopted
    simpa [suppliedBaseOffset?, given, plain] using told
  refine (placeClaimed_baseSteps supplied).imp ?_
  rintro st₂ ⟨later, primary', bases⟩
  refine ⟨(same.baseSteps.trans listed).trans later, primary'.trans primary, ?_⟩
  rw [bases]
  exact Option.isSome_iff_exists.mpr ⟨x, OrderedMap.find?_insert_self _ _ _⟩

theorem layVirtualBase_adopts :
    Ends (fun _ => True) ((layVirtualBase f i st).eval known) fun st' =>
      BaseSteps supplied st st' ∧ st'.primaryBase = st.primaryBase := by
  unfold layVirtualBase
  refine ends_bind Ends.any fun _ _ => ends_bind (layBase_adopts given) ?_
  rintro ⟨st₁, x⟩ ⟨same, _⟩
  dsimp only at same ⊢
  have primary : st₁.primaryBase = st.primaryBase := by rw [same.frame]
  refine ends_bind Ends.any fun _ new => ?_
  have free : st₁.virtualBaseSlots.contains (st₁.graph.node i).record = false := by
    simpa using ensure_eq_ok.mp ((LayoutM.eval_ensure _ _).symm.trans new)
  have listed : BaseSteps supplied st₁ { st₁ with
      virtualBaseSlots := st₁.virtualBaseSlots.insert (st₁.graph.node i).record { offset := x } } :=
    ⟨⟨id, rfl, .refl _, .insert free _⟩, fun settled => ⟨settled, rfl⟩, id⟩
  refine (placeClaimed_baseSteps supplied).imp ?_
  rintro st₂ ⟨later, primary', _⟩
  exact ⟨(same.baseSteps.trans listed).trans later, primary'.trans primary⟩

theorem layTablePointer_adopts : Ends (fun _ => True) (layTablePointer f st) fun st' =>
    BaseSteps supplied st st' ∧ st'.primaryBase = st.primaryBase := by
  unfold layTablePointer
  refine Ends.bind Ends.any fun _ _ => Ends.bind Ends.any fun start _ => ?_
  refine Ends.bind Ends.any fun bits _ => ?_
  refine Ends.bind (raiseAlignment_undisturbed given _ _) fun st₁ raised => ?_
  refine Ends.bind Ends.any fun stop _ => Ends.bind Ends.any fun stopBits _ => ?_
  have whole : Undisturbed st { st₁ with
      hasOwnVfptr := st.hasOwnVfptr, size := stopBits, dataSize := stopBits } := by
    refine ⟨?_, raised.settled⟩
    rw [raised.frame]
  have steps : BaseSteps supplied st _ := whole.baseSteps
  refine ⟨⟨⟨steps.keeps.sorted, steps.keeps.fields, steps.keeps.base, steps.keeps.virtualBase⟩,
    steps.settled, steps.agree⟩, ?_⟩
  rw [raised.frame]

/-- The primary base is placed before the others; a non-virtual one is a direct base. -/
theorem layPrimaryBase_adopts (sorted : st.graph.Sorted) (primary : PrimaryBase) :
    Ends (fun _ => True) ((layPrimaryBase f primary st).eval known) fun st' =>
      BaseSteps supplied st st' ∧ st'.primaryBase = st.primaryBase ∧
        (primary.isVirtual = false → st'.baseOffsets.contains primary.record = true) := by
  unfold layPrimaryBase
  split
  · rename_i virt
    refine ends_lift_bind (SubobjectGraph.sorted_steal sorted) ?_
    rintro ⟨graph, i⟩ ⟨kept, _⟩
    refine ends_bind Ends.any fun _ _ => ?_
    have steps : BaseSteps supplied st { st with
        graph
        indirectPrimaryBases := appendNew st.indirectPrimaryBases [primary.record]
        visitedVirtualBases := st.visitedVirtualBases ++ [primary.record] } :=
      ⟨⟨fun _ => kept, rfl, .refl _, .refl _⟩, fun settled => ⟨settled, rfl⟩, id⟩
    refine (layVirtualBase_adopts given).imp ?_
    rintro st' ⟨later, same⟩
    refine ⟨steps.trans later, same, ?_⟩
    simp [virt]
  · refine ends_lift_bind Ends.any fun i listed => ?_
    refine (layNonVirtualBase_adopts given (nonVirtualBase_plain sorted listed)).imp ?_
    rintro st' ⟨steps, same, placed⟩
    rw [nonVirtualBase_record sorted listed] at placed
    exact ⟨steps, same, fun _ => placed⟩

/-- In the end every direct base has its place. -/
theorem directBases_adopts (sorted : st.graph.Sorted)
    (first : ∀ primary, st.primaryBase = some primary → primary.isVirtual = false →
      st.baseOffsets.contains primary.record = true) (bases : List Base) :
    Ends (fun _ => True) ((bases.foldlM (m := LayoutM) (fun st base => do
      if isNonVirtualPrimary st base.record then return st
      layNonVirtualBase f (← st.graph.nonVirtualBase base.record) st) st).eval known) fun st' =>
        BaseSteps supplied st st' ∧
          ∀ base ∈ bases, st'.baseOffsets.contains base.record = true := by
  rw [LayoutM.eval_foldlM]
  refine (Ends.foldlM (K := fun done _ st' => (BaseSteps supplied st st' ∧
    st'.primaryBase = st.primaryBase) ∧
      ∀ base ∈ done, st'.baseOffsets.contains base.record = true) ⟨⟨.refl st, rfl⟩, nofun⟩ ?_).imp
    fun st' ⟨⟨steps, _⟩, placed⟩ => ⟨steps, placed⟩
  rintro done base rest st₁ _ ⟨⟨steps, same⟩, placed⟩
  split
  · rename_i isPrimary
    refine ⟨⟨steps, same⟩, fun base' member => ?_⟩
    rcases List.mem_append.mp member with member | member
    · exact placed base' member
    · rw [List.mem_singleton.mp member]
      rw [isNonVirtualPrimary, beq_iff_eq, same] at isPrimary
      exact steps.contains (first _ isPrimary rfl)
  · refine ends_lift_bind Ends.any fun i listed => ?_
    have sorted₁ := steps.keeps.sorted sorted
    refine (layNonVirtualBase_adopts given (nonVirtualBase_plain sorted₁ listed)).imp ?_
    rintro st₂ ⟨later, same', new⟩
    rw [nonVirtualBase_record sorted₁ listed] at new
    refine ⟨⟨steps.trans later, same'.trans same⟩, fun base' member => ?_⟩
    rcases List.mem_append.mp member with member | member
    · exact later.contains (placed base' member)
    · rw [List.mem_singleton.mp member]
      exact new

theorem layNonVirtualBases_adopts :
    Ends (fun _ => True) ((layNonVirtualBases f st).eval known) fun st' =>
      BaseSteps supplied st st' ∧
        ∀ base ∈ f.declaration.nonVirtualBases, st'.baseOffsets.contains base.record = true := by
  unfold layNonVirtualBases
  refine ends_bind Ends.any fun choice _ => ?_
  obtain ⟨primaryBase, indirectPrimaryBases⟩ := choice
  refine ends_bind SubobjectGraph.sorted_ofClass fun graph sorted => ?_
  have planned : BaseSteps supplied st { st with primaryBase, indirectPrimaryBases, graph } :=
    ⟨⟨fun _ => sorted, rfl, .refl _, .refl _⟩, fun settled => ⟨settled, rfl⟩, id⟩
  cases primaryBase with
  | some primary =>
    refine ends_bind (layPrimaryBase_adopts given sorted primary) ?_
    rintro st₁ ⟨steps, same, placed⟩
    refine (directBases_adopts given (steps.keeps.sorted sorted) ?_ _).imp fun st' ⟨later, all⟩ =>
      ⟨(planned.trans steps).trans later, all⟩
    rintro other chosen
    rw [same] at chosen
    cases chosen
    exact placed
  | none =>
    dsimp only
    refine LayoutM.ends_ite_bind (G := fun st₁ => BaseSteps supplied _ st₁ ∧ st₁.primaryBase = none)
      ?_ (fun _ rest => ends_lift_bind (layTablePointer_adopts given) rest) fun _ => ⟨.refl _, rfl⟩
    rintro st₁ ⟨steps, same⟩
    refine (directBases_adopts given (steps.keeps.sorted sorted) ?_ _).imp fun st' ⟨later, all⟩ =>
      ⟨(planned.trans steps).trans later, all⟩
    rw [same]
    exact nofun

theorem layVirtualBases_adopts :
    Ends (fun _ => True) ((layVirtualBases f st).eval known) (BaseSteps supplied st) := by
  unfold layVirtualBases layVirtualBasesBelow Tree.descend
  generalize f.record = r
  generalize st.primaryBase = primary
  generalize f.tree.records.size + 1 = depth
  induction depth generalizing r primary st with
  | zero => trivial
  | succ depth ih =>
    rw [descendWithin, LayoutM.eval_foldlM]
    refine Ends.foldlM_keeps (.refl st) fun base _ st₁ sofar => ?_
    dsimp only
    split
    · exact sofar
    · refine LayoutM.ends_ite_bind (G := BaseSteps supplied st) (fun st₂ steps => ?_)
        (fun _ rest => ?_) fun _ => sofar
      · split
        · exact steps
        · exact ends_bind Ends.any fun layout _ => (ih _ _).imp fun st' => steps.trans
      · refine ends_lift_bind Ends.any fun i _ => ?_
        have visited : BaseSteps supplied st₁ { st₁ with
            visitedVirtualBases := st₁.visitedVirtualBases ++ [base.record] } :=
          ⟨⟨id, rfl, .refl _, .refl _⟩, fun settled => ⟨settled, rfl⟩, id⟩
        refine ends_bind (layVirtualBase_adopts given) ?_
        rintro st₂ ⟨later, _⟩
        exact rest st₂ ((sofar.trans visited).trans later)

end Bases

section Fields

variable {index : Nat} {field : Field} {width typeSize : Bits}

/-- A bit-field wider than its declared type. -/
def IsWide (known : Known) (field : Field) : Prop :=
  ∃ width type, field.bitWidth = some width ∧ known.type field.type = .ok type ∧
    type.width * Quantity.bitsPerByte < width

theorem Undisturbed.placing (h : Undisturbed st st') (offset : Bits) :
    Undisturbed (st.placeFieldAt offset) (st'.placeFieldAt offset) := by
  refine ⟨?_, h.settled⟩
  rw [h.frame]
  rfl

theorem setDataSize_undisturbed (dataSize : Bits) : Undisturbed st (st.setDataSize dataSize) :=
  ⟨rfl, fun settled => ⟨settled, rfl⟩⟩

theorem leaveUnit_undisturbed (f : Frame) (st : State) (typeSize : Bits) :
    Undisturbed st (if f.isMsStruct then st.leaveUnit typeSize else st) := by
  split
  · rw [leaveUnit_frame.1]
    exact ⟨rfl, fun settled => ⟨settled, rfl⟩⟩
  · exact .refl st

theorem occupyBits_undisturbed (offset width typeSize : Bits) :
    Ends (fun _ => True) (st.occupyBits f offset width typeSize) (Undisturbed st) := by
  refine (occupyBits_frame offset width typeSize).imp fun st' frame => ?_
  rw [frame]
  exact ⟨rfl, fun settled => ⟨settled, rfl⟩⟩

variable (given : f.supplied = some supplied)
include given

theorem adoptFieldOffset_adopts (st : State) (index : Nat) (computed : Bits) :
    Undisturbed st (adoptFieldOffset f st index computed).1 ∧
      ∀ y, supplied.fieldOffsets.find? index = some y →
        (adoptFieldOffset f st index computed).2 = y := by
  unfold adoptFieldOffset
  rw [given, Option.bind_some]
  cases supplied.fieldOffsets.find? index with
  | none => exact ⟨.refl st, nofun⟩
  | some offset => exact ⟨settlePackedIf_undisturbed _, fun y same => Option.some.inj same⟩

theorem chooseFieldOffset_adopts {type : Ty} {alignment start : Bytes} :
    Ends (fun _ => True) ((chooseFieldOffset f st index type alignment start).eval known)
      fun result => Undisturbed st result.1 ∧
        ∀ y, supplied.fieldOffsets.find? index = some y → result.2 = Bits.toBytesFloor y := by
  unfold chooseFieldOffset
  simp only [given, Option.isNone_some, Bool.false_eq_true, if_false]
  refine ends_lift_bind Ends.any fun bits _ => ?_
  obtain ⟨same, adopted⟩ := adoptFieldOffset_adopts given st index bits
  generalize adoptFieldOffset f st index bits = taken at same adopted
  obtain ⟨st₁, offset⟩ := taken
  refine ends_bind Ends.any fun placed done => ?_
  cases placed with
  | none => trivial
  | some st₂ =>
    refine ⟨same.trans (placeField?_undisturbed done), fun y told => ?_⟩
    exact congrArg Bits.toBytesFloor (show offset = y from adopted y told)

/-- What is supplied for an ordinary field is counted in whole bytes. -/
theorem layField_adopts : Ends (fun _ => True) ((layField f index field st).eval known) fun st' =>
    ∃ offset, Undisturbed (st.placeFieldAt offset) st' ∧
      ∀ y, supplied.fieldOffsets.find? index = some y → 8 ∣ y → offset = y := by
  refine layField_stages.imp ?_
  rintro st' ⟨size, natural, start, x, placed, stages⟩
  obtain ⟨same, adopted⟩ := Ends.holds (chooseFieldOffset_adopts given) stages.chosen
  have cleared : Undisturbed st { st with unfilledBits := 0, storageUnit := 0 } :=
    ⟨rfl, fun settled => ⟨settled, rfl⟩⟩
  have raised := Ends.holds (raiseAlignment_undisturbed given _ _) stages.raised
  refine ⟨8 * x, ?_, fun y told multiple => ?_⟩
  · exact (((cleared.trans same).placing _).trans (setDataSize_undisturbed _)).trans raised
  · rw [show x = Bits.toBytesFloor y from adopted y told]
    exact Nat.mul_div_cancel' multiple

theorem layWideBitField_undisturbed {isPacked : Bool} :
    Ends (fun _ => True) ((layWideBitField f index field width isPacked st).eval known) fun st' =>
      ∃ offset, Undisturbed (st.placeFieldAt offset) st' := by
  refine layWideBitField_stages.imp ?_
  rintro st' ⟨alignment, offset, taken, stages⟩
  have same : Undisturbed st taken := by
    rw [stages.frame]
    exact ⟨rfl, fun settled => ⟨settled, rfl⟩⟩
  have raised := Ends.holds (raiseAlignment_undisturbed given _ _) stages.raised
  exact ⟨offset, ((same.placing offset).trans (setDataSize_undisturbed _)).trans raised⟩

/-- However the start was found, the supplied offset counts if there is one. -/
theorem layNarrowBitField_adopts {isPacked : Bool} {typeAlignment unpaddedOffset : Bits} :
    Ends (fun _ => True) ((layNarrowBitField f index field width typeSize typeAlignment isPacked
      unpaddedOffset st).eval known) fun st' => ∃ offset, Undisturbed (st.placeFieldAt offset) st' ∧
        ∀ y, supplied.fieldOffsets.find? index = some y → offset = y := by
  refine layNarrowBitField_stages.imp ?_
  rintro st' ⟨alignment, start, computed, taken, stages⟩
  obtain ⟨same, adopted⟩ := adoptFieldOffset_adopts given st index computed
  have occupied := Ends.holds (occupyBits_undisturbed _ _ _) stages.occupied
  have raised := Ends.holds (raiseAlignment_undisturbed given _ _) stages.raised
  refine ⟨_, ?_, adopted⟩
  exact (((same.placing _).trans occupied).trans (setDataSize_undisturbed _)).trans raised

/-- A field after those laid before it: where it goes if an offset is supplied for it. -/
structure FieldAdopted (known : Known) (supplied : SuppliedLayout) (index : Nat) (field : Field)
    (st st' : State) (offset : Bits) : Prop where
  same : Undisturbed (st.placeFieldAt offset) st'
  adopted : ¬ IsWide known field → ∀ y, supplied.fieldOffsets.find? index = some y →
    (field.bitWidth = none → 8 ∣ y) → offset = y

theorem layBitField_adopts (isBitField : field.bitWidth = some width) :
    Ends (fun _ => True) ((layBitField f index field width st).eval known) fun st' =>
      ∃ offset, FieldAdopted known supplied index field st st' offset := by
  refine layBitField_enters.imp ?_
  rintro st' ⟨type, typed, _, entered⟩
  have left : Undisturbed st (st.entering f type) := leaveUnit_undisturbed f st (8 * type.width)
  rcases entered with ⟨wide, done⟩ | ⟨_, done⟩
  · obtain ⟨offset, same⟩ := (layWideBitField_undisturbed given).holds done
    refine ⟨offset, (left.placing offset).trans same, fun narrow => ?_⟩
    rw [Nat.mul_comm] at wide
    exact absurd ⟨width, type, isBitField, typed, wide⟩ narrow
  · obtain ⟨offset, same, adopted⟩ := (layNarrowBitField_adopts given).holds done
    exact ⟨offset, (left.placing offset).trans same, fun _ y told _ => adopted y told⟩

theorem layAnyField_adopts :
    Ends (fun _ => True) ((layAnyField f st (field, index)).eval known) fun st' =>
      ∃ offset, FieldAdopted known supplied index field st st' offset := by
  unfold layAnyField
  dsimp only
  cases isBitField : field.bitWidth with
  | some width => exact layBitField_adopts given isBitField
  | none =>
    exact (layField_adopts given).imp fun st' ⟨offset, same, adopted⟩ =>
      ⟨offset, same, fun _ y told whole => adopted y told (whole isBitField)⟩

/-- The fields laid so far lie where the supplied layout has them. -/
structure FieldsAdopted (f : Frame) (known : Known) (supplied : SuppliedLayout) (count : Nat)
    (st st' : State) : Prop where
  same : Undisturbed { st with fieldOffsets := st'.fieldOffsets } st'
  length : st'.fieldOffsets.length = count
  adopted : ∀ index field y, index < count → f.declaration.fields[index]? = some field →
    ¬ IsWide known field → supplied.fieldOffsets.find? index = some y →
      (field.bitWidth = none → 8 ∣ y) → st'.fieldOffsets[index]? = some y

theorem layFields_adopts (fresh : st.fieldOffsets = []) :
    Ends (fun _ => True) ((layFields f st).eval known)
      (FieldsAdopted f known supplied f.declaration.fields.length st) := by
  unfold layFields
  rw [LayoutM.eval_foldlM]
  rw [← List.length_zipIdx]
  refine Ends.foldlM (K := fun done _ st' => FieldsAdopted f known supplied done.length st st')
    ⟨.refl st, by rw [fresh]; rfl, nofun⟩ ?_
  rintro done ⟨field, index⟩ rest st₁ split sofar
  have here : f.declaration.fields.zipIdx[done.length]? = some (field, index) := by
    rw [split, List.getElem?_append_right le_rfl, Nat.sub_self]
    rfl
  obtain ⟨_, turn, entry⟩ := Option.map_eq_some_iff.mp (List.getElem?_zipIdx.symm.trans here)
  obtain ⟨rfl, rfl⟩ := Prod.mk.inj entry
  refine (layAnyField_adopts given).imp fun st₂ ⟨offset, next⟩ => ?_
  have offsets : st₂.fieldOffsets = st₁.fieldOffsets ++ [offset] := by
    rw [next.same.frame]
    rfl
  refine ⟨?_, by rw [offsets]; simp [sofar.length], fun k field y before found narrow told bytes => ?_⟩
  · refine Undisturbed.trans ⟨?_, ?_⟩ next.same
    · rw [offsets, sofar.same.frame]
      rfl
    · exact sofar.same.settled
  rw [List.length_append, List.length_singleton] at before
  rw [offsets]
  rcases Nat.lt_succ_iff_lt_or_eq.mp before with earlier | rfl
  · rw [List.getElem?_append_left (by rwa [sofar.length])]
    exact sofar.adopted k field y earlier found narrow told bytes
  · rw [turn] at found
    cases found
    rw [Nat.zero_add] at next
    rw [next.adopted narrow y told bytes, ← sofar.length, List.getElem?_concat_length]

end Fields

section Whole

variable {layout : RecordLayout}

/-- A layout has what a supplied layout says. -/
structure Adopts (known : Known) (record : Record) (supplied : SuppliedLayout)
    (layout : RecordLayout) : Prop where
  field : ∀ index field offset, record.fields[index]? = some field → ¬ IsWide known field →
    supplied.fieldOffsets.find? index = some offset → (field.bitWidth = none → 8 ∣ offset) →
      layout.fieldOffset index = .ok offset
  base : ∀ base ∈ record.nonVirtualBases, ∀ offset,
    supplied.baseOffsets.find? base.record = some offset →
      layout.baseOffset base.record = .ok offset
  size : layout.size = supplied.size
  alignment : ∀ alignment, supplied.alignment = some alignment → layout.alignment = alignment

theorem FieldsAdopted.fieldOffset {st' : State} (h : FieldsAdopted f known supplied
    f.declaration.fields.length st st') (same : layout.fieldOffsets = st'.fieldOffsets)
    (index : Nat) (field : Field) (offset : Bits)
    (found : f.declaration.fields[index]? = some field) (narrow : ¬ IsWide known field)
    (told : supplied.fieldOffsets.find? index = some offset)
    (whole : field.bitWidth = none → 8 ∣ offset) : layout.fieldOffset index = .ok offset := by
  have inside := (List.getElem?_eq_some_iff.mp found).1
  rw [RecordLayout.fieldOffset, same, h.adopted index field offset inside found narrow told whole]

/-- A supplied alignment is taken over at the start, before anything is placed. -/
theorem suppliedAlignment_adopts (empty : st.fieldOffsets = [] ∧ st.baseOffsets = .empty ∧
    st.infersAlignment = false) : Ends (fun _ => True)
    (match supplied.alignment with
      | some alignment => .ok { st with alignment }
      | none => .ok { st with infersAlignment := true }) fun st => st.fieldOffsets = [] ∧
        st.baseOffsets = .empty ∧ ∀ alignment, supplied.alignment = some alignment →
          st.infersAlignment = false ∧ st.alignment = alignment := by
  obtain ⟨fields, bases, settled⟩ := empty
  cases supplied.alignment with
  | none => exact ⟨fields, bases, nofun⟩
  | some alignment => exact ⟨fields, bases, fun _ same => ⟨settled, Option.some.inj same⟩⟩

variable (given : f.supplied = some supplied)
include given

theorem initial_adopts (map : Option EmptyMap) :
    Ends (fun _ => True) (State.initial f map) fun st => st.fieldOffsets = [] ∧
      st.baseOffsets = .empty ∧ ∀ alignment, supplied.alignment = some alignment →
        st.infersAlignment = false ∧ st.alignment = alignment := by
  unfold State.initial
  rw [given]
  extract_lets fresh
  split
  · exact suppliedAlignment_adopts ⟨rfl, rfl, rfl⟩
  · split
    · refine Ends.bind (raiseAlignment_undisturbed given _ _) fun st₁ same => ?_
      apply suppliedAlignment_adopts
      exact ⟨by rw [same.frame], by rw [same.frame], (same.settled rfl).1⟩
    · exact suppliedAlignment_adopts ⟨rfl, rfl, rfl⟩

theorem finish_adopts : Ends (fun _ => True) ((finish f st).eval known) fun st' =>
    Undisturbed st st' ∧ st'.sizeInBytes = supplied.size := by
  refine finish_stages.imp ?_
  rintro st' ⟨rounded, sized, stages⟩
  have same : Undisturbed st sized := by
    have avoided := stages.avoided
    unfold State.avoidSizeZero at avoided
    split at avoided
    · exact Ends.holds (setSize_undisturbed 1) avoided
    · cases avoided
      exact .refl st
  obtain ⟨isSmaller, done⟩ := stages.adopted supplied given
  have resized := Ends.holds (setSize_undisturbed _) done
  refine ⟨(same.trans (settlePackedIf_undisturbed _)).trans resized, ?_⟩
  rw [Ends.holds (setSize_ends trivial) done]
  exact toBytesCeil_bits supplied.size

theorem layPlain_adopts (plain : f.declaration.isClass = false) :
    Ends (fun _ => True) ((layPlain f).eval known) (Adopts known f.declaration supplied) := by
  unfold layPlain
  refine ends_lift_bind (initial_adopts given none) fun st₀ ⟨fresh, _, settled⟩ => ?_
  refine ends_bind (layFields_adopts given fresh) fun st₁ fields => ?_
  refine ends_bind (finish_adopts given) fun st₂ ⟨same, size⟩ => ?_
  refine ⟨fields.fieldOffset ?_, fun base member => ?_, size, fun alignment told => ?_⟩
  · change st₂.fieldOffsets = st₁.fieldOffsets
    rw [same.frame]
  · have none : f.declaration.asClass? = none := by simpa [Record.isClass] using plain
    simp [Record.nonVirtualBases, Record.bases, none] at member
  · obtain ⟨inferred, first⟩ := settled alignment told
    obtain ⟨inferred', second⟩ := fields.same.settled inferred
    exact ((same.settled inferred').2.trans second).trans first

theorem layClass_adopts (tracking : Tracking) :
    Ends (fun _ => True) ((layClass f tracking).eval known)
      (Adopts known f.declaration supplied) := by
  unfold layClass
  refine ends_bind Ends.any fun map _ => ?_
  refine ends_lift_bind (initial_adopts given _) fun st₀ ⟨fresh, unplaced, settled⟩ => ?_
  refine ends_bind (layNonVirtualBases_adopts given) fun st₁ ⟨bases, placed⟩ => ?_
  refine ends_bind (layFields_adopts given (bases.keeps.fields.trans fresh)) fun fixed fields => ?_
  refine ends_bind (layVirtualBases_adopts given) fun st₂ virtualBases => ?_
  refine ends_bind (finish_adopts given) fun st₃ ⟨same, size⟩ => ?_
  have kept : fixed.baseOffsets = st₁.baseOffsets := by rw [fields.same.frame]
  have kept' : st₃.baseOffsets = st₂.baseOffsets := by rw [same.frame]
  have agree : st₃.BasesAgree supplied := by
    have before : fixed.BasesAgree supplied := by
      have start := bases.agree fun b x y found => by
        rw [unplaced] at found
        cases found
      rwa [State.BasesAgree, kept]
    rw [State.BasesAgree, kept']
    exact virtualBases.agree before
  refine ⟨fields.fieldOffset ?_, fun base member offset told => ?_, size, fun alignment told => ?_⟩
  · change st₃.fieldOffsets = fixed.fieldOffsets
    rw [same.frame]
    exact virtualBases.keeps.fields
  · obtain ⟨x, found⟩ := Option.isSome_iff_exists.mp (placed base member)
    have found : st₃.baseOffsets.find? base.record = some x := by
      rw [kept']
      exact virtualBases.keeps.base _ _ (by rw [kept]; exact found)
    rw [← agree _ _ _ found told]
    refine except_bind_eq_ok.mpr ⟨_, rfl, ?_⟩
    dsimp only
    rw [found]
    rfl
  · obtain ⟨inferred, first⟩ := settled alignment told
    obtain ⟨inferred₁, second⟩ := bases.settled inferred
    obtain ⟨inferred₂, third⟩ := fields.same.settled inferred₁
    obtain ⟨inferred₃, fourth⟩ := virtualBases.settled inferred₂
    exact ((((same.settled inferred₃).2.trans fourth).trans third).trans second).trans first

end Whole

end ObjectLayout.Itanium

namespace ObjectLayout

open Itanium

/-- A layout that is computed with another one supplied has the offsets supplied for its fields and
its direct non-virtual bases, the size and, if that is supplied, the alignment. What is supplied for a
bit-field wider than its declared type does not count. -/
theorem supplied_places_adopted {s : Setting} {r : RecordId} {known : Known}
    {supplied : SuppliedLayout} {layout : RecordLayout}
    (whole : ∀ (index : Nat) field offset, (s.tree.record r).fields[index]? = some field →
      field.bitWidth = none → supplied.fieldOffsets.find? index = some offset → 8 ∣ offset)
    (laid : (Itanium.layout s r (some supplied)).eval known = .ok layout) :
    (∀ index field offset, (s.tree.record r).fields[index]? = some field →
      ¬ IsWide known field → supplied.fieldOffsets.find? index = some offset →
        layout.fieldOffset index = .ok offset) ∧
    (∀ base ∈ (s.tree.record r).nonVirtualBases, ∀ offset,
      supplied.baseOffsets.find? base.record = some offset →
        layout.baseOffset base.record = .ok offset) ∧
    layout.size = supplied.size ∧
    ∀ alignment, supplied.alignment = some alignment → layout.alignment = alignment := by
  have adopts : Adopts known (s.tree.record r) supplied layout := by
    unfold Itanium.layout layoutTracking at laid
    dsimp only at laid
    split at laid
    · exact Ends.holds (layClass_adopts rfl _) laid
    · exact Ends.holds (layPlain_adopts rfl (Bool.eq_false_of_not_eq_true ‹_›)) laid
  refine ⟨fun index field offset found narrow told => ?_, adopts.base, adopts.size, adopts.alignment⟩
  exact adopts.field index field offset found narrow told fun ordinary =>
    whole index field offset found ordinary told

/-- `D` has an empty base, another base, a field and two bit-fields, the second one too wide. -/
def preplaced : Setting :=
  .linux [
    .ofClass "E" [] [] [],
    .ofClass "B" [{ name := "i", type := .scalar ⟨0⟩ (.integer .int .signed) }] [] [],
    .ofClass "D" [{ name := "x", type := .scalar ⟨0⟩ (.integer .int .signed) },
      { name := "b", type := .scalar ⟨0⟩ (.integer .int .signed), bitWidth := some 3 },
      { name := "w", type := .scalar ⟨1⟩ .plainChar, bitWidth := some 40 }]
      [{ record := ⟨0⟩ }, { record := ⟨1⟩ }] []] []

/-- Offsets for everything in `D`, none of them where it would be computed. -/
def preplacement : SuppliedLayout where
  size := 80
  alignment := some 16
  fieldOffsets := .ofList [(0, 256), (1, 300), (2, 512)]
  baseOffsets := .ofList [(⟨0⟩, 8), (⟨1⟩, 16)]

theorem supplied_places_adopted_preplaced : ∃ layout,
    (Itanium.layout preplaced ⟨2⟩ (some preplacement)).eval (preplaced.known 3) = .ok layout ∧
      layout.fieldOffset 0 = .ok 256 ∧ layout.fieldOffset 1 = .ok 300 ∧
      layout.baseOffset ⟨0⟩ = .ok 8 ∧ layout.baseOffset ⟨1⟩ = .ok 16 ∧
      layout.size = 80 ∧ layout.alignment = 16 := by
  obtain ⟨layout, laid⟩ := exists_ok (by decide +kernel :
    ((Itanium.layout preplaced ⟨2⟩ (some preplacement)).eval (preplaced.known 3)).isOk = true)
  obtain ⟨field, base, size, alignment⟩ := supplied_places_adopted (r := ⟨2⟩) (fun index field offset
    found ordinary told => by
      match index with
      | 0 =>
        cases told
        decide
      | 1 | 2 =>
        cases found
        cases ordinary
      | _ + 3 => cases found) laid
  refine ⟨layout, laid, field 0 _ 256 rfl ?_ rfl, field 1 _ 300 rfl ?_ rfl,
    base { record := ⟨0⟩ } ?_ 8 rfl, base { record := ⟨1⟩ } ?_ 16 rfl, size, alignment 16 rfl⟩
  · rintro ⟨width, type, isBitField, _⟩
    cases isBitField
  · rintro ⟨width, type, isBitField, typed, wide⟩
    cases isBitField
    have four : ((preplaced.known 3).type (.scalar ⟨0⟩ (.integer .int .signed))).toOption.map
        (·.width) = some 4 := by decide +kernel
    rw [typed] at four
    rw [show type.width = 4 from Option.some.inj four] at wide
    revert wide
    decide
  · exact List.mem_filter.mpr ⟨List.mem_cons_self, rfl⟩
  · exact List.mem_filter.mpr ⟨List.mem_cons_of_mem _ List.mem_cons_self, rfl⟩

/-- The offset that is supplied for the bit-field that is too wide is not looked up. -/
theorem supplied_offset_ignored_preplaced : preplacement.fieldOffsets.find? 2 = some 512 ∧
    ((Itanium.layout preplaced ⟨2⟩ (some preplacement)).eval (preplaced.known 3) >>=
      (·.fieldOffset 2)) = .ok 320 := by
  decide +kernel

end ObjectLayout
