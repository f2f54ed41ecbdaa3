import ObjectLayout.Proofs.Itanium.Supplied.Fields
import ObjectLayout.Proofs.NoUnderflow

/-! Subtractions under the Itanium rules, with layouts supplied or without. The bits that a bit-field left
over are bits of the data and of the size, whatever moves the end of the data; bases do not touch them,
and every field leaves none or bits that it has just added. -/
namespace ObjectLayout.Itanium

open LayoutM (ends_bind ends_lift_bind)

attribute [local simp] LayoutM.eval_bind LayoutM.eval_map LayoutM.eval_foldlM

variable {f : Frame} {known : Known} {st st' : State} {field : Field} {index : Nat}

section Primary

variable {s : Setting} (h : known.NoUnderflow)
include h

theorem isNearlyEmpty_noUnderflow (r : RecordId) : NoUnderflow ((isNearlyEmpty s r).eval known) := by
  simp [isNearlyEmpty, h]

theorem virtualPrimariesBelow_noUnderflow (r : RecordId) (found : List RecordId) :
    NoUnderflow ((virtualPrimariesBelow s r found).eval known) := by
  refine descendWithin_keeps (K := fun search : List RecordId → LayoutM (List RecordId) =>
    ∀ found, NoUnderflow ((search found).eval known)) ?_ ?_ _ r found
  · simp
  · intro search below r found
    simp [h, below]

theorem searchNearlyEmpty_noUnderflow (used : List RecordId) (r : RecordId) (found : Candidates) :
    NoUnderflow ((searchNearlyEmpty s used r found).eval known) := by
  refine descendWithin_keeps (K := fun search : Candidates → LayoutM Candidates =>
    ∀ found, NoUnderflow ((search found).eval known)) ?_ ?_ _ r found
  · simp
  · intro search below r found
    simp [below, isNearlyEmpty_noUnderflow h]

theorem choosePrimaryBase_noUnderflow (r : RecordId) :
    NoUnderflow ((choosePrimaryBase s r).eval known) := by
  unfold choosePrimaryBase
  split
  · simp
  · apply LayoutM.noUnderflow_bind
    · simp [indirectPrimaryBases, virtualPrimariesBelow_noUnderflow h]
    · intro used
      cases firstDynamicBase? s r <;> simp [searchNearlyEmpty_noUnderflow h]

end Primary

section Bases

@[simp] theorem raiseAlignment_noUnderflow (packed unpacked : Bytes) :
    NoUnderflow (st.raiseAlignment f packed unpacked) := by
  simp [State.raiseAlignment]

@[simp] theorem setSize_noUnderflow (size : Bytes) : NoUnderflow (st.setSize size) := by
  simp [State.setSize]

@[simp] theorem occupyBase_noUnderflow (isEmpty : Bool) (layout : RecordLayout) (offset : Bytes) :
    NoUnderflow (occupyBase st isEmpty layout offset) := by
  simp [occupyBase]

@[simp] theorem layTablePointer_noUnderflow : NoUnderflow (layTablePointer f st) := by
  simp [layTablePointer]

@[simp] theorem virtualBase_noUnderflow (graph : SubobjectGraph) (r : RecordId) :
    NoUnderflow (graph.virtualBase r) := by
  unfold SubobjectGraph.virtualBase
  split <;> simp

@[simp] theorem nonVirtualBase_noUnderflow (graph : SubobjectGraph) (r : RecordId) :
    NoUnderflow (graph.nonVirtualBase r) := by
  unfold SubobjectGraph.nonVirtualBase
  split <;> simp

theorem probe_noUnderflow {place? : Bytes → LayoutM (Option α)}
    (each : ∀ offset, NoUnderflow ((place? offset).eval known)) (step : Bytes) (attempts : Nat)
    (offset : Bytes) : NoUnderflow ((probe place? step attempts offset).eval known) := by
  induction attempts generalizing offset with
  | zero => simp [probe]
  | succ attempts ih =>
    apply LayoutM.noUnderflow_bind (each offset)
    intro placed
    cases placed <;> simp [ih]

/-- The sizes of a record and its table of virtual bases are what they were. -/
structure SameExtent (st st' : State) : Prop where
  unfilledBits : st'.unfilledBits = st.unfilledBits
  dataSize : st'.dataSize = st.dataSize
  size : st'.size = st.size
  virtualBaseSlots : st'.virtualBaseSlots = st.virtualBaseSlots

namespace SameExtent

theorem refl (st : State) : SameExtent st st := ⟨rfl, rfl, rfl, rfl⟩

theorem settlePackedIf (condition : Bool) : SameExtent st (st.settlePackedIf condition) := by
  unfold State.settlePackedIf
  split
  · exact ⟨rfl, rfl, rfl, rfl⟩
  · exact .refl st

theorem raiseAlignment (packed unpacked : Bytes) :
    Ends (· ≠ .underflow) (st.raiseAlignment f packed unpacked) (SameExtent st) := by
  apply (raiseAlignment_noUnderflow packed unpacked).and
  apply (raiseAlignment_ends (.inr trivial) (.inr trivial)).imp
  intro st' aligned
  rw [aligned.frame]
  exact ⟨rfl, rfl, rfl, rfl⟩

theorem adoptFieldOffset (computed : Bits) :
    SameExtent st (adoptFieldOffset f st index computed).1 := by
  unfold Itanium.adoptFieldOffset
  split
  · exact .refl st
  · exact settlePackedIf _

theorem placeBase? {i : SubobjectId} {offset : Bytes}
    (done : (st.placeBase? f i offset).eval known = .ok (some st')) : SameExtent st st' := by
  rw [placeBase?_frame done]
  exact ⟨rfl, rfl, rfl, rfl⟩

theorem placeField? {type : Ty} {offset : Bytes}
    (done : (st.placeField? f type offset).eval known = .ok (some st')) : SameExtent st st' := by
  rw [placeField?_frame done]
  exact ⟨rfl, rfl, rfl, rfl⟩

end SameExtent

/-- What is placed in between changes nothing about the bits left over, and the record only grows. -/
structure Roomier (st st' : State) : Prop where
  unfilledBits : st'.unfilledBits = st.unfilledBits
  size : st.size ≤ st'.size
  virtualBaseSlots : st'.virtualBaseSlots = st.virtualBaseSlots

namespace Roomier

theorem refl (st : State) : Roomier st st := ⟨rfl, le_rfl, rfl⟩

theorem trans {st₁ : State} (h : Roomier st st₁) (h' : Roomier st₁ st') : Roomier st st' :=
  ⟨h'.unfilledBits.trans h.unfilledBits, h.size.trans h'.size,
    h'.virtualBaseSlots.trans h.virtualBaseSlots⟩

theorem setSize {size : Bytes} (more : st.sizeInBytes ≤ size) :
    Ends (· ≠ .underflow) (st.setSize size) (Roomier st) := by
  apply Ends.bind (NoUnderflow.toBits size).remember
  rintro bits ⟨whole, -⟩
  obtain ⟨rfl, _⟩ := Quantity.mul_eq_ok_iff.mp whole
  refine ⟨rfl, ?_, rfl⟩
  calc st.size ≤ 8 * st.sizeInBytes := le_toBytesCeil st.size
    _ ≤ 8 * size := Nat.mul_le_mul_left 8 more
    _ = size * Quantity.bitsPerByte := Nat.mul_comm 8 size

theorem setDataSize (dataSize : Bits) : Roomier st (st.setDataSize dataSize) :=
  ⟨rfl, Nat.le_max_left _ _, rfl⟩

theorem of_same (same : SameExtent st st') : Roomier st st' :=
  ⟨same.unfilledBits, same.size.ge, same.virtualBaseSlots⟩

theorem raiseAlignment (packed unpacked : Bytes) :
    Ends (· ≠ .underflow) (st.raiseAlignment f packed unpacked) (Roomier st) :=
  (SameExtent.raiseAlignment packed unpacked).imp fun _ => of_same

theorem occupyBase (isEmpty : Bool) (layout : RecordLayout) (offset : Bytes) :
    Ends (· ≠ .underflow) (occupyBase st isEmpty layout offset) (Roomier st) := by
  unfold Itanium.occupyBase
  cases isEmpty with
  | true => exact Ends.bind (NoUnderflow.add _ _) fun stop _ => setSize (Nat.le_max_left _ _)
  | false =>
    apply Ends.bind (NoUnderflow.nonVirtualSize layout)
    intro size _
    apply Ends.bind (NoUnderflow.add _ _)
    intro stop _
    exact Ends.bind (NoUnderflow.toBits _) fun dataSize _ => setDataSize dataSize

end Roomier

/-- No virtual base has a vtordisp before it. -/
def WithoutVtordisps (slots : OrderedMap RecordId VirtualBaseSlot) : Prop :=
  ∀ v slot, slots.find? v = some slot → slot.hasVtordisp = false

theorem WithoutVtordisps.insert {slots : OrderedMap RecordId VirtualBaseSlot}
    (none : WithoutVtordisps slots) (v : RecordId) (offset : Bytes) :
    WithoutVtordisps (slots.insert v { offset }) := by
  intro u slot found
  by_cases same : u = v
  · rw [same, OrderedMap.find?_insert_self] at found
    rw [← Option.some.inj found]
  · rw [OrderedMap.find?_insert_of_ne _ _ same] at found
    exact none u slot found

/-- The state of a record before a pass over bases and after some steps of it. -/
structure BasesPlaced (st st' : State) : Prop where
  unfilledBits : st'.unfilledBits = st.unfilledBits
  size : st.size ≤ st'.size
  vtordisps : WithoutVtordisps st.virtualBaseSlots → WithoutVtordisps st'.virtualBaseSlots

namespace BasesPlaced

theorem refl (st : State) : BasesPlaced st st := ⟨rfl, le_rfl, id⟩

theorem trans {st₁ : State} (h : BasesPlaced st st₁) (h' : BasesPlaced st₁ st') :
    BasesPlaced st st' :=
  ⟨h'.unfilledBits.trans h.unfilledBits, h.size.trans h'.size, h'.vtordisps ∘ h.vtordisps⟩

end BasesPlaced

variable (h : known.NoUnderflow)
include h

theorem placeBase?_roomier (i : SubobjectId) (offset : Bytes) :
    Ends (· ≠ .underflow) ((st.placeBase? f i offset).eval known)
      fun placed => ∀ st', placed = some st' → Roomier st st' := by
  have spared : NoUnderflow ((st.placeBase? f i offset).eval known) := by
    unfold State.placeBase?
    split <;> simp [EmptyMap.placeBase?_noUnderflow h]
  apply spared.remember.imp
  rintro _ ⟨done, -⟩ st' rfl
  exact .of_same (.placeBase? done)

theorem findBaseOffset_roomier (i : SubobjectId) (alignment : Bytes) :
    Ends (· ≠ .underflow) ((findBaseOffset f st i alignment).eval known)
      fun found => Roomier st found.1 := by
  have each (offset : Bytes) : NoUnderflow ((st.placeBase? f i offset).eval known) :=
    (placeBase?_roomier h i offset).imp fun _ _ => trivial
  have spared : NoUnderflow ((findBaseOffset f st i alignment).eval known) := by
    simp [findBaseOffset, probe_noUnderflow each]
  apply spared.remember.imp
  rintro ⟨st', offset⟩ ⟨done, -⟩
  exact (placeBase?_roomier h i offset).value (findBaseOffset_ok done).1 st' rfl

theorem adoptBaseOffset_roomier (i : SubobjectId) (alignment offset : Bytes) :
    Ends (· ≠ .underflow) ((adoptBaseOffset f st i alignment offset).eval known)
      fun found => Roomier st found.1 := by
  apply ends_bind (placeBase?_roomier h i offset)
  intro placed roomier
  cases placed with
  | none => simp [Ends]
  | some st₁ =>
    dsimp only
    split
    · exact roomier st₁ rfl
    · apply ends_lift_bind (NoUnderflow.alignTo _ _)
      intro start _
      exact (roomier st₁ rfl).trans (.of_same (.settlePackedIf _))

theorem layBase_roomier (i : SubobjectId) (st : State) :
    Ends (· ≠ .underflow) ((layBase f i st).eval known) fun found => Roomier st found.1 := by
  unfold layBase
  apply ends_bind (by simp : NoUnderflow _)
  intro _ _
  apply ends_bind (by simp [h] : NoUnderflow _)
  intro layout _
  apply ends_lift_bind (NoUnderflow.nonVirtualAlignment layout)
  intro unpacked _
  refine LayoutM.ends_ite_bind (G := fun placed => ∀ st', placed = some st' → Roomier st st')
    (fun atStart roomier => ?_) (fun _ next => ends_bind (placeBase?_roomier h i 0) next)
    fun _ => nofun
  cases atStart with
  | some st₁ =>
    apply ends_lift_bind (Roomier.setSize (Nat.le_max_left _ _))
    intro st₂ larger
    apply ends_lift_bind (Roomier.raiseAlignment _ _)
    exact fun st₃ raised => ((roomier st₁ rfl).trans larger).trans raised
  | none =>
    have place (found : State × Bytes) (packed unpacked : Bytes) (roomier : Roomier st found.1) :
        Ends (· ≠ .underflow) ((do
          let st' ← occupyBase found.1 (f.tree.isEmptyClass (st.graph.node i).record) layout found.2
          return (← st'.raiseAlignment f packed unpacked, found.2) : LayoutM (State × Bytes)).eval known)
          fun found => Roomier st found.1 := by
      apply ends_lift_bind (Roomier.occupyBase _ layout found.2)
      intro st₁ occupied
      apply ends_lift_bind (Roomier.raiseAlignment _ _)
      exact fun st₂ raised => (roomier.trans occupied).trans raised
    cases suppliedBaseOffset? f (st.graph.node i) with
    | none => exact ends_bind (findBaseOffset_roomier h i _) fun found => place found _ _
    | some offset => exact ends_bind (adoptBaseOffset_roomier h i _ offset) fun found => place found _ _

theorem placeClaimed_plain (s : Setting) (graph : SubobjectGraph) (i : SubobjectId)
    (offset : Bytes) (slots : OrderedMap RecordId VirtualBaseSlot) :
    Ends (· ≠ .underflow) ((placeClaimed s graph i offset slots).eval known)
      fun slots' => WithoutVtordisps slots → WithoutVtordisps slots' := by
  refine descendWithin_keeps (K := fun place : Bytes → OrderedMap RecordId VirtualBaseSlot →
    LayoutM (OrderedMap RecordId VirtualBaseSlot) => ∀ offset slots, Ends (· ≠ .underflow)
      ((place offset slots).eval known) fun slots' => WithoutVtordisps slots → WithoutVtordisps slots')
    ?_ ?_ _ i offset slots
  · simp [Ends]
  · intro place below i offset slots
    have inner (start : OrderedMap RecordId VirtualBaseSlot)
        (before : WithoutVtordisps slots → WithoutVtordisps start) :
        Ends (· ≠ .underflow) ((do
          let layout ← LayoutM.layoutOf (graph.node i).record
          (graph.nonVirtualBasesOf i).foldlM (fun slots base => do
            let inner := layout.baseOffset (graph.node base).record
            place base (← EmptyMap.within offset inner) slots) start :
              LayoutM (OrderedMap RecordId VirtualBaseSlot)).eval known)
          fun slots' => WithoutVtordisps slots → WithoutVtordisps slots' := by
      apply ends_bind (by simp [h] : NoUnderflow _)
      intro layout _
      rw [LayoutM.eval_foldlM]
      apply Ends.foldlM_keeps before
      intro base _ slots before
      apply ends_lift_bind (by simp : NoUnderflow _)
      intro offset _
      exact (below base offset slots).imp fun _ after => after ∘ before
    dsimp only
    split
    · exact id
    · cases graph.claimedPrimary? i with
      | none => exact inner slots id
      | some primary =>
        apply ends_bind (by simp : NoUnderflow _)
        intro _ _
        apply ends_bind (below primary offset _)
        exact fun slots' after => inner slots' fun before => after (before.insert _ _)

theorem layNonVirtualBase_placed (i : SubobjectId) (st : State) :
    Ends (· ≠ .underflow) ((layNonVirtualBase f i st).eval known) (BasesPlaced st) := by
  unfold layNonVirtualBase
  apply ends_bind (layBase_roomier h i st)
  rintro ⟨st₁, offset⟩ roomier
  apply ends_bind (by simp : NoUnderflow _)
  intro _ _
  apply ends_bind (placeClaimed_plain h _ _ _ _ _)
  intro slots plain
  exact ⟨roomier.unfilledBits, roomier.size, fun before => plain (roomier.virtualBaseSlots ▸ before)⟩

theorem layVirtualBase_placed (i : SubobjectId) (st : State) :
    Ends (· ≠ .underflow) ((layVirtualBase f i st).eval known) (BasesPlaced st) := by
  unfold layVirtualBase
  apply ends_bind (by simp : NoUnderflow _)
  intro _ _
  apply ends_bind (layBase_roomier h i st)
  rintro ⟨st₁, offset⟩ roomier
  apply ends_bind (by simp : NoUnderflow _)
  intro _ _
  apply ends_bind (placeClaimed_plain h _ _ _ _ _)
  intro slots plain
  exact ⟨roomier.unfilledBits, roomier.size, fun before =>
    plain (.insert (roomier.virtualBaseSlots ▸ before) _ _)⟩

theorem layPrimaryBase_placed (primary : PrimaryBase) (st : State) :
    Ends (· ≠ .underflow) ((layPrimaryBase f primary st).eval known) (BasesPlaced st) := by
  unfold layPrimaryBase
  split
  · apply ends_lift_bind (by simp [SubobjectGraph.stealVirtualBase] : NoUnderflow _)
    rintro ⟨graph, i⟩ _
    apply ends_bind (by simp : NoUnderflow _)
    intro _ _
    exact (layVirtualBase_placed h i _).imp fun st' placed => ⟨placed.1, placed.2, placed.3⟩
  · apply ends_lift_bind (nonVirtualBase_noUnderflow _ _)
    exact fun i _ => layNonVirtualBase_placed h i st

omit h in
theorem layTablePointer_placed (st : State) :
    Ends (· ≠ .underflow) (layTablePointer f st) (BasesPlaced st) := by
  unfold layTablePointer
  apply Ends.bind (NoUnderflow.ensure _ _)
  intro _ _
  apply Ends.bind (NoUnderflow.alignTo _ _).remember
  rintro start ⟨aligned, -⟩
  apply Ends.bind (NoUnderflow.toBits _)
  intro dataSize _
  apply Ends.bind (Roomier.raiseAlignment _ _)
  intro st₁ raised
  apply Ends.bind (NoUnderflow.add _ _).remember
  rintro stop ⟨sum, -⟩
  apply Ends.bind (NoUnderflow.toBits _).remember
  rintro bits ⟨whole, -⟩
  obtain ⟨rfl, _⟩ := Quantity.add_eq_ok_iff.mp sum
  obtain ⟨rfl, _⟩ := Quantity.mul_eq_ok_iff.mp whole
  refine ⟨raised.unfilledBits, ?_, fun before => raised.virtualBaseSlots ▸ before⟩
  calc st.size ≤ 8 * st.sizeInBytes := le_toBytesCeil st.size
    _ ≤ 8 * (start + f.target.pointerLayout.width) :=
      Nat.mul_le_mul_left 8 ((alignTo_le aligned).trans (Nat.le_add_right _ _))
    _ = (start + f.target.pointerLayout.width) * Quantity.bitsPerByte := Nat.mul_comm 8 _

theorem layNonVirtualBases_placed (st : State) :
    Ends (· ≠ .underflow) ((layNonVirtualBases f st).eval known) (BasesPlaced st) := by
  unfold layNonVirtualBases
  apply ends_bind (choosePrimaryBase_noUnderflow h _)
  intro (primary, indirect) _
  apply ends_bind (SubobjectGraph.ofClass_noUnderflow h _)
  intro graph _
  have others (st₁ : State) (placed : BasesPlaced st st₁) :
      Ends (· ≠ .underflow) ((f.declaration.nonVirtualBases.foldlM (fun st base => do
        if isNonVirtualPrimary st base.record then return st
        layNonVirtualBase f (← st.graph.nonVirtualBase base.record) st) st₁ : LayoutM State).eval known)
        (BasesPlaced st) := by
    rw [LayoutM.eval_foldlM]
    apply Ends.foldlM_keeps placed
    intro base _ st₂ placed
    split
    · exact placed
    · apply ends_lift_bind (nonVirtualBase_noUnderflow _ _)
      exact fun i _ => (layNonVirtualBase_placed h i st₂).imp fun st₃ => placed.trans
  have planned : BasesPlaced st
      { st with primaryBase := primary, indirectPrimaryBases := indirect, graph } :=
    ⟨rfl, le_rfl, id⟩
  cases primary with
  | none =>
    refine LayoutM.ends_ite_bind others (fun _ next => ?_) fun _ => planned
    exact ends_lift_bind ((layTablePointer_placed _).imp fun _ => planned.trans) next
  | some primary => exact ends_bind ((layPrimaryBase_placed h primary _).imp fun _ => planned.trans) others

theorem layVirtualBases_placed (st : State) :
    Ends (· ≠ .underflow) ((layVirtualBases f st).eval known) (BasesPlaced st) := by
  refine descendWithin_keeps (K := fun lay : Option PrimaryBase → State → LayoutM State =>
    ∀ primary st, Ends (· ≠ .underflow) ((lay primary st).eval known) (BasesPlaced st)) ?_ ?_ _ f.record
    st.primaryBase st
  · simp [Ends]
  · intro lay below r primary st
    rw [LayoutM.eval_foldlM]
    apply Ends.foldlM_keeps (.refl st)
    intro base _ st₁ placed
    have further (st₂ : State) (placed : BasesPlaced st st₂) :
        Ends (· ≠ .underflow) ((do
          if !f.tree.hasVirtualBases base.record then return st₂
          lay base.record (← LayoutM.layoutOf base.record).primaryBase? st₂ : LayoutM State).eval known)
          (BasesPlaced st) := by
      split
      · exact placed
      · apply ends_bind (by simp [h] : NoUnderflow _)
        exact fun layout _ => (below base.record _ st₂).imp fun st₃ => placed.trans
    dsimp only
    split
    · exact placed
    · refine LayoutM.ends_ite_bind further (fun _ next => ?_) fun _ => placed
      apply ends_lift_bind (virtualBase_noUnderflow _ _)
      intro i _
      apply ends_bind ((layVirtualBase_placed h i _).imp fun st₂ more => ?_) next
      exact placed.trans ⟨more.unfilledBits, more.size, more.vtordisps⟩

end Bases

section Fields

/-- The bits that a bit-field left over are bits of the data and of the size. -/
structure State.BitsInside (st : State) : Prop where
  data : st.unfilledBits ≤ st.dataSize
  size : st.unfilledBits ≤ st.size
  vtordisps : WithoutVtordisps st.virtualBaseSlots

namespace State.BitsInside

theorem raiseAlignment (inside : st.BitsInside) (packed unpacked : Bytes) :
    Ends (· ≠ .underflow) (st.raiseAlignment f packed unpacked) State.BitsInside := by
  apply (SameExtent.raiseAlignment packed unpacked).imp
  rintro st' ⟨left, data, size, slots⟩
  exact ⟨left ▸ data ▸ inside.data, left ▸ size ▸ inside.size, slots ▸ inside.vtordisps⟩

theorem setDataSize {dataSize : Bits} (enough : st.unfilledBits ≤ dataSize)
    (vtordisps : WithoutVtordisps st.virtualBaseSlots) : (st.setDataSize dataSize).BitsInside :=
  ⟨enough, enough.trans (Nat.le_max_right _ _), vtordisps⟩

theorem of_none (none : st.unfilledBits = 0) (vtordisps : WithoutVtordisps st.virtualBaseSlots) :
    st.BitsInside := ⟨none ▸ Nat.zero_le _, none ▸ Nat.zero_le _, vtordisps⟩

theorem placed (inside : st.BitsInside) (h : BasesPlaced st st') :
    st'.unfilledBits ≤ st'.size ∧ WithoutVtordisps st'.virtualBaseSlots :=
  ⟨h.unfilledBits ▸ inside.size.trans h.size, h.vtordisps inside.vtordisps⟩

end State.BitsInside

theorem reportPlacement_noUnderflow (p : FieldPlacement) :
    NoUnderflow ((reportPlacement f p).eval known) := by
  simp

/-- Every type that a bit-field of the record has, has an alignment. -/
def Frame.AlignsBitFields (f : Frame) (known : Known) : Prop :=
  ∀ field ∈ f.declaration.fields, field.bitWidth.isSome → ∀ layout,
    known.type field.type = .ok layout → 0 < layout.alignment

section Ordinary

variable (h : known.NoUnderflow)
include h

theorem fieldExtent_noUnderflow (type : Ty) : NoUnderflow ((fieldExtent f type).eval known) := by
  unfold fieldExtent
  split <;> simp [h]

theorem placeField?_noUnderflow (type : Ty) (offset : Bytes) :
    NoUnderflow ((st.placeField? f type offset).eval known) := by
  unfold State.placeField?
  split <;> simp [EmptyMap.placeField?_noUnderflow h]

theorem chooseFieldOffset_sameExtent (type : Ty) (alignment start : Bytes) :
    Ends (· ≠ .underflow) ((chooseFieldOffset f st index type alignment start).eval known)
      fun found => SameExtent st found.1 := by
  unfold chooseFieldOffset
  split
  · have tried (offset : Bytes) : NoUnderflow ((st.placeField? f type offset).eval known) :=
      placeField?_noUnderflow h type offset
    have spared : NoUnderflow _ := probe_noUnderflow tried alignment
      (attemptsFrom (st.emptyMap.getD {}) start alignment) start
    apply spared.remember.imp
    rintro ⟨st', offset⟩ ⟨done, -⟩
    exact .placeField? (probe_ok _ done).1
  · apply ends_lift_bind (NoUnderflow.toBits start)
    intro computed _
    dsimp only
    apply ends_bind (placeField?_noUnderflow h type _).remember
    rintro placed ⟨done, -⟩
    have adopted : SameExtent st (adoptFieldOffset f st index computed).1 := .adoptFieldOffset _
    cases placed with
    | none => simp [Ends]
    | some st' =>
      have same := SameExtent.placeField? done
      exact ⟨same.1.trans adopted.1, same.2.trans adopted.2, same.3.trans adopted.3,
        same.4.trans adopted.4⟩

/-- An ordinary field starts where the bits that are left over end, and leaves none. -/
theorem layField_inside (inside : st.BitsInside) :
    Ends (· ≠ .underflow) ((layField f index field st).eval known) State.BitsInside := by
  unfold layField
  apply ends_lift_bind (NoUnderflow.sub_iff.mpr inside.data)
  intro unpaddedOffset _
  apply ends_bind (fieldExtent_noUnderflow h _)
  rintro ⟨size, typeAlignment⟩ _
  apply ends_lift_bind (NoUnderflow.alignTo _ _)
  intro fitted _
  apply ends_lift_bind (NoUnderflow.alignTo _ _)
  intro unpackedStart _
  apply ends_bind (chooseFieldOffset_sameExtent h _ _ _)
  rintro ⟨st₁, offset⟩ same
  apply ends_lift_bind (NoUnderflow.toBits _)
  intro offsetInBits _
  have laid (dataSize : Bits) (packed unpacked : Bytes) : Ends (· ≠ .underflow)
      ((((st₁.placeFieldAt offsetInBits).setDataSize dataSize).raiseAlignment f packed unpacked :
        LayoutM State).eval known) State.BitsInside := by
    rw [LayoutM.eval_lift]
    apply State.BitsInside.raiseAlignment
    exact .setDataSize (same.unfilledBits ▸ Nat.zero_le _) (same.virtualBaseSlots ▸ inside.vtordisps)
  have rest (packed unpacked : Bytes) : Ends (· ≠ .underflow) ((do
      let dataSize ←
        if f.isUnion then pure (max (st₁.placeFieldAt offsetInBits).dataSize (← Bytes.toBits size))
        else Bytes.toBits (← Quantity.add offset size)
      ((st₁.placeFieldAt offsetInBits).setDataSize dataSize).raiseAlignment f packed unpacked :
        LayoutM State).eval known) State.BitsInside := by
    dsimp only
    split
    · apply ends_lift_bind (NoUnderflow.toBits size)
      intro bits _
      rw [pure_bind]
      exact laid _ _ _
    · apply ends_lift_bind (NoUnderflow.add offset size)
      intro stop _
      apply ends_lift_bind (NoUnderflow.toBits stop)
      exact fun dataSize _ => laid _ _ _
  dsimp only
  split
  · apply ends_lift_bind (NoUnderflow.toBits _)
    intro unpackedOffset _
    apply ends_lift_bind (NoUnderflow.toBits _)
    intro unpackedAlignment _
    exact ends_bind (reportPlacement_noUnderflow _) fun _ _ => rest _ _
  · exact rest _ _

end Ordinary

section BitFields

variable {offset width typeSize typeAlignment : Bits}

/-- The bits left over are those of the last byte behind the end. -/
theorem endAt_inside (stop : Bits) : Ends (· ≠ .underflow) (st.endAt stop) fun st' =>
    st'.unfilledBits ≤ st'.dataSize ∧ st'.virtualBaseSlots = st.virtualBaseSlots := by
  unfold State.endAt
  apply Ends.bind (NoUnderflow.toBits _).remember
  rintro dataSize ⟨whole, -⟩
  obtain ⟨rfl, _⟩ := Quantity.mul_eq_ok_iff.mp whole
  have past : stop ≤ Bits.toBytesCeil stop * Quantity.bitsPerByte :=
    (le_toBytesCeil stop).trans_eq (Nat.mul_comm _ _)
  apply Ends.bind (NoUnderflow.sub_iff.mpr past).remember
  rintro unfilledBits ⟨left, -⟩
  obtain ⟨_, rfl⟩ := Quantity.sub_eq_ok_iff.mp left
  exact ⟨Nat.sub_le _ _, rfl⟩

/-- A unit of its own holds the bit-field; one that is shared has bits enough. -/
theorem takeFromUnit_inside (inside : st.unfilledBits ≤ st.dataSize) (narrow : width ≤ typeSize) :
    Ends (· ≠ .underflow) (st.takeFromUnit offset width typeSize) fun st' =>
      st'.unfilledBits ≤ st'.dataSize ∧ st'.virtualBaseSlots = st.virtualBaseSlots := by
  have opened (start : Bits) : Ends (· ≠ .underflow) (do
      let dataSize ← Quantity.add start typeSize
      let unfilledBits ← Quantity.sub typeSize width
      return { st with dataSize, unfilledBits, storageUnit := typeSize } : Checked State)
      fun st' => st'.unfilledBits ≤ st'.dataSize ∧ st'.virtualBaseSlots = st.virtualBaseSlots := by
    apply Ends.bind (NoUnderflow.add _ _).remember
    rintro dataSize ⟨sum, -⟩
    obtain ⟨rfl, _⟩ := Quantity.add_eq_ok_iff.mp sum
    apply Ends.bind (NoUnderflow.sub_iff.mpr narrow).remember
    rintro unfilledBits ⟨left, -⟩
    obtain ⟨_, rfl⟩ := Quantity.sub_eq_ok_iff.mp left
    exact ⟨(Nat.sub_le _ _).trans (Nat.le_add_left _ _), rfl⟩
  unfold State.takeFromUnit
  split
  · exact opened offset
  · split
    · exact opened st.dataSize
    · exact ⟨(Nat.sub_le _ _).trans inside, rfl⟩

theorem occupyBits_inside (inside : st.unfilledBits ≤ st.dataSize) (narrow : width ≤ typeSize) :
    Ends (· ≠ .underflow) (st.occupyBits f offset width typeSize) fun st' =>
      st'.unfilledBits ≤ st'.dataSize ∧ st'.virtualBaseSlots = st.virtualBaseSlots := by
  unfold State.occupyBits
  split
  · exact ⟨inside.trans (Nat.le_max_left _ _), rfl⟩
  · split
    · exact takeFromUnit_inside inside narrow
    · apply Ends.bind (NoUnderflow.add _ _)
      intro stop _
      exact (endAt_inside stop).bind fun st' h => h

theorem avoidCrossing_noUnderflow {alignment : Bits}
    (positive : f.maxFieldAlignment = 0 → width ≠ 0 → 0 < alignment) :
    NoUnderflow (avoidCrossing f offset alignment width typeSize) := by
  unfold avoidCrossing crossesUnit
  by_cases empty : width = 0
  · simp [empty]
  · by_cases unlimited : f.maxFieldAlignment = 0
    · have one : 1 ≤ alignment := positive unlimited empty
      simp [empty, unlimited, one]
    · simp [empty, unlimited]

theorem bitAlignment_positive (isPacked ignoresType : Bool) (positive : width ≠ 0 → 0 < typeAlignment) :
    Ends (· ≠ .underflow) (bitAlignment f field isPacked ignoresType width typeAlignment)
      fun alignment => f.maxFieldAlignment = 0 → width ≠ 0 →
        0 < alignment.actual ∧ 0 < alignment.unpacked := by
  unfold bitAlignment
  apply Ends.bind (NoUnderflow.toBits _)
  intro asked _
  dsimp only
  split
  · intro _ filled
    have := positive filled
    constructor
    · apply lt_of_lt_of_le _ (Nat.le_max_left _ _)
      split <;> omega
    · apply lt_of_lt_of_le _ (Nat.le_max_left _ _)
      split <;> omega
  · rename_i limited
    apply Ends.bind (NoUnderflow.toBits _)
    intro most _ unlimited
    simp [unlimited] at limited

theorem layWideBitField_inside (h : WithoutVtordisps st.virtualBaseSlots) (isPacked : Bool) :
    Ends (· ≠ .underflow) ((layWideBitField f index field width isPacked st).eval known)
      State.BitsInside := by
  unfold layWideBitField
  apply ends_lift_bind (by simp [widestCoveredAlignment] : NoUnderflow _)
  intro alignment _
  dsimp only
  split
  · rw [pure_bind]
    apply ends_bind (reportPlacement_noUnderflow _)
    intro _ _
    rw [LayoutM.eval_lift]
    apply State.BitsInside.raiseAlignment
    exact .setDataSize (Nat.zero_le _) h
  · apply ends_lift_bind (NoUnderflow.alignTo _ _)
    intro offset _
    apply ends_lift_bind (NoUnderflow.add _ _)
    intro stop _
    apply ends_lift_bind (endAt_inside stop)
    rintro st₁ ⟨inside, slots⟩
    rw [pure_bind]
    apply ends_bind (reportPlacement_noUnderflow _)
    intro _ _
    rw [LayoutM.eval_lift]
    apply State.BitsInside.raiseAlignment
    exact .setDataSize inside (slots ▸ h)

theorem layNarrowBitField_inside (inside : st.BitsInside) (narrow : width ≤ typeSize)
    (positive : width ≠ 0 → 0 < typeAlignment) (isPacked : Bool) (unpaddedOffset : Bits) :
    Ends (· ≠ .underflow) ((layNarrowBitField f index field width typeSize typeAlignment isPacked
      unpaddedOffset st).eval known) State.BitsInside := by
  unfold layNarrowBitField
  apply ends_lift_bind (bitAlignment_positive isPacked _ positive)
  intro alignment positive
  -- However the start was found, what follows only takes the bits.
  have taken (offset : Bits) (packed unpacked : Bytes) : Ends (· ≠ .underflow) ((do
      let st ← ((adoptFieldOffset f st index offset).1.placeFieldAt
        (adoptFieldOffset f st index offset).2).occupyBits f
        (adoptFieldOffset f st index offset).2 width typeSize
      (st.setDataSize st.dataSize).raiseAlignment f packed unpacked : LayoutM State).eval known)
      State.BitsInside := by
    have same : SameExtent st (adoptFieldOffset f st index offset).1 := .adoptFieldOffset _
    have data : (adoptFieldOffset f st index offset).1.unfilledBits ≤
        (adoptFieldOffset f st index offset).1.dataSize := by
      rw [same.unfilledBits, same.dataSize]
      exact inside.data
    apply ends_lift_bind (@occupyBits_inside _ (State.placeFieldAt _ _) _ _ _ data narrow)
    rintro st₁ ⟨data, slots⟩
    rw [LayoutM.eval_lift]
    apply State.BitsInside.raiseAlignment
    exact .setDataSize data ((slots.trans same.virtualBaseSlots) ▸ inside.vtordisps)
  have rest (start start' packed unpacked : Bits) (report : Bits → Bits → FieldPlacement) :
      Ends (· ≠ .underflow) ((do
        let offset ← avoidCrossing f start alignment.actual width typeSize
        let unpackedOffset ← avoidCrossing f start' alignment.unpacked width typeSize
        let found := adoptFieldOffset f st index offset
        if f.supplied.isNone then reportPlacement f (report offset unpackedOffset)
        let st ← (found.1.placeFieldAt found.2).occupyBits f found.2 width typeSize
        (st.setDataSize st.dataSize).raiseAlignment f packed unpacked : LayoutM State).eval known)
        State.BitsInside := by
    apply ends_lift_bind (avoidCrossing_noUnderflow fun limit filled => (positive limit filled).1)
    intro offset _
    apply ends_lift_bind (avoidCrossing_noUnderflow fun limit filled => (positive limit filled).2)
    intro unpackedOffset _
    dsimp only
    split
    · exact ends_bind (reportPlacement_noUnderflow _) fun _ _ => taken offset packed unpacked
    · exact taken offset packed unpacked
  dsimp only
  split
  · apply ends_lift_bind (NoUnderflow.alignTo _ _)
    intro start _
    apply ends_lift_bind (NoUnderflow.alignTo _ _)
    intro unpackedStart _
    exact rest _ _ _ _ _
  · rw [pure_bind, pure_bind]
    exact rest _ _ _ _ _

theorem layBitField_inside (h : known.NoUnderflow) (inside : st.BitsInside)
    (aligned : ∀ layout, known.type field.type = .ok layout → 0 < layout.alignment) :
    Ends (· ≠ .underflow) ((layBitField f index field width st).eval known) State.BitsInside := by
  unfold layBitField
  apply ends_bind (by simp [h] : NoUnderflow _).remember
  rintro layout ⟨laid, -⟩
  rw [LayoutM.eval_typeLayoutOf] at laid
  apply ends_lift_bind (NoUnderflow.toBits _)
  intro typeSize _
  apply ends_lift_bind (NoUnderflow.toBits _).remember
  rintro natural ⟨whole, -⟩
  obtain ⟨rfl, _⟩ := Quantity.mul_eq_ok_iff.mp whole
  dsimp only
  generalize same : (if f.isMsStruct = true then st.leaveUnit typeSize else st) = st₀
  have inside₀ : st₀.BitsInside := by
    rw [← same]
    split
    · obtain ⟨frame, fewer⟩ := @leaveUnit_frame st typeSize
      rw [frame]
      exact ⟨fewer.trans inside.data, fewer.trans inside.size, inside.vtordisps⟩
    · exact inside
  apply ends_lift_bind (NoUnderflow.sub_iff.mpr inside₀.data)
  intro unpaddedOffset _
  split
  · exact layWideBitField_inside inside₀.vtordisps _
  · rename_i narrow
    have narrow : width ≤ typeSize := Nat.le_of_not_lt narrow
    have positive (filled : width ≠ 0) :
        0 < declaredAlignment f st width typeSize (layout.alignment * Quantity.bitsPerByte) := by
      unfold declaredAlignment
      split
      · exact Nat.mul_pos (aligned layout laid) (by decide)
      · simpa [filled] using (Nat.pos_of_ne_zero filled).trans_le narrow
    apply layNarrowBitField_inside inside₀ narrow
    intro filled
    split
    · exact (positive filled).trans_le (Nat.le_max_left _ _)
    · exact positive filled

end BitFields

/-- By induction over the fields: each leaves bits inside the data, whatever came before it. -/
theorem layFields_inside (h : known.NoUnderflow) (aligned : f.AlignsBitFields known)
    (inside : st.BitsInside) :
    Ends (· ≠ .underflow) ((layFields f st).eval known) State.BitsInside := by
  unfold layFields
  rw [LayoutM.eval_foldlM]
  apply Ends.foldlM_keeps inside
  rintro ⟨field, index⟩ member st inside
  have declared : field ∈ f.declaration.fields := (List.mem_zipIdx' member).2 ▸ List.getElem_mem _
  unfold layAnyField
  cases wide : field.bitWidth with
  | none => exact layField_inside h inside
  | some width =>
    exact layBitField_inside h inside (aligned field declared (by simp [wide]))

end Fields

section Whole

/-- Nothing is left over and no virtual base has a place before the bases. -/
theorem initial_fresh (map : Option EmptyMap) :
    Ends (· ≠ .underflow) (State.initial f map)
      fun st => st.unfilledBits = 0 ∧ WithoutVtordisps st.virtualBaseSlots := by
  have none : WithoutVtordisps .empty := fun v slot found => nomatch found
  unfold State.initial
  extract_lets fresh supplied
  have supplying (st : State) (fresh : st.unfilledBits = 0 ∧ WithoutVtordisps st.virtualBaseSlots) :
      Ends (· ≠ .underflow) (supplied st)
        fun st => st.unfilledBits = 0 ∧ WithoutVtordisps st.virtualBaseSlots := by
    unfold supplied
    split
    · exact fresh
    · split <;> exact fresh
  split
  · exact supplying _ ⟨rfl, none⟩
  · split
    · refine Ends.bind ?_ supplying
      exact (Roomier.raiseAlignment _ _).imp fun st raised =>
        ⟨raised.unfilledBits, raised.virtualBaseSlots ▸ none⟩
    · exact supplying _ ⟨rfl, none⟩

/-- The size may become one byte, which is more than the nothing before it. -/
theorem avoidSizeZero_roomier : Ends (· ≠ .underflow) (st.avoidSizeZero f) (Roomier st) := by
  unfold State.avoidSizeZero
  split
  · rename_i empty
    have zero : st.size = 0 := by simp at empty; exact empty.1.2
    exact Roomier.setSize (by simp [State.sizeInBytes, zero, Bits.toBytesCeil, Quantity.bitsPerByte])
  · exact .refl st

theorem finish_slots (inside : st.unfilledBits ≤ st.size) :
    Ends (· ≠ .underflow) ((finish f st).eval known) fun st' =>
      st'.virtualBaseSlots = st.virtualBaseSlots := by
  unfold finish
  apply ends_lift_bind avoidSizeZero_roomier
  intro st₁ roomier
  apply ends_lift_bind (NoUnderflow.sub_iff.mpr (roomier.unfilledBits ▸ inside.trans roomier.size))
  intro unpaddedSize _
  apply ends_lift_bind (NoUnderflow.toBits _)
  intro unpackedBits _
  apply ends_lift_bind (NoUnderflow.alignTo _ _)
  intro unpackedSize _
  apply ends_lift_bind (NoUnderflow.toBits _)
  intro bits _
  apply ends_lift_bind (NoUnderflow.alignTo _ _)
  intro roundedSize _
  have adopted (isSmaller : Bool) (size : Bytes) : Ends (· ≠ .underflow)
      (((st₁.settlePackedIf isSmaller).setSize size : LayoutM State).eval known)
      fun st' => st'.virtualBaseSlots = st.virtualBaseSlots := by
    rw [LayoutM.eval_lift]
    apply Ends.bind (NoUnderflow.toBits size)
    intro bits _
    exact (SameExtent.settlePackedIf isSmaller).virtualBaseSlots.trans roomier.virtualBaseSlots
  cases f.supplied with
  | none =>
    apply ends_bind (by simp [reportSize, Frame.warn] : NoUnderflow _)
    exact fun _ _ => roomier.virtualBaseSlots
  | some supplied =>
    dsimp only
    split
    · apply ends_lift_bind (NoUnderflow.toBits _)
      intro size _
      rw [pure_bind]
      exact adopted _ _
    · rw [pure_bind]
      exact adopted _ _

variable (h : known.NoUnderflow) (aligned : f.AlignsBitFields known)
include h aligned

theorem layPlain_vtordisps :
    Ends (· ≠ .underflow) ((layPlain f).eval known) fun layout =>
      ∀ part ∈ layout.asClass, WithoutVtordisps part.virtualBaseSlots := by
  unfold layPlain
  apply ends_lift_bind (initial_fresh none)
  rintro st ⟨none, plain⟩
  apply ends_bind (layFields_inside h aligned (.of_none none plain))
  intro st₁ inside
  exact ends_bind (finish_slots inside.size) fun _ _ => nofun

/-- The bases come before the fields, where nothing is left over yet, and after them. -/
theorem layClass_vtordisps (tracking : Tracking) :
    Ends (· ≠ .underflow) ((layClass f tracking).eval known) fun layout =>
      ∀ part ∈ layout.asClass, WithoutVtordisps part.virtualBaseSlots := by
  unfold layClass
  apply ends_bind (EmptyMap.ofClass_noUnderflow h _ _)
  intro map _
  apply ends_lift_bind (initial_fresh (some map))
  rintro st ⟨none, plain⟩
  apply ends_bind (layNonVirtualBases_placed h st)
  intro st₁ placed
  apply ends_bind (layFields_inside h aligned
    (.of_none (placed.unfilledBits.trans none) (placed.vtordisps plain)))
  intro fixed inside
  apply ends_bind (layVirtualBases_placed h fixed)
  intro st₂ placed
  obtain ⟨within, plain⟩ := inside.placed placed
  apply ends_bind (finish_slots within)
  intro st₃ slots part found
  obtain rfl := Option.some.inj found
  exact slots ▸ plain

end Whole

/-- Whatever is supplied for a record, its layout does not end in a subtraction. -/
theorem layout_vtordisps {s : Setting} {r : RecordId} {supplied : Option SuppliedLayout}
    (h : known.NoUnderflow) (aligned : (Frame.ofRecord s r supplied).AlignsBitFields known) :
    Ends (· ≠ .underflow) ((layout s r supplied).eval known) fun layout =>
      ∀ part ∈ layout.asClass, WithoutVtordisps part.virtualBaseSlots := by
  unfold layout layoutTracking
  dsimp only
  split
  · exact layClass_vtordisps h aligned _
  · exact layPlain_vtordisps h aligned

end ObjectLayout.Itanium
