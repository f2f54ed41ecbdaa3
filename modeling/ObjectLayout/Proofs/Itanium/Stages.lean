import ObjectLayout.Itanium.Layout
import ObjectLayout.Proofs.Outcome

/-! What a completed step has been through. Each choice and each check of the rules for a base, a field or
the end of a record has had a value then, and the state in which the step ends comes from these. What is to
be said of completed steps follows from their stages, and the rules need not be read again. -/
namespace ObjectLayout.Itanium

open LayoutM (ends_bind ends_lift_bind)

variable {f : Frame} {known : Known} {index : Nat} {field : Field} {st st' : State}
variable {width typeSize typeAlignment unpadded : Bits} {isPacked : Bool}

/-- The end of the last bit that is taken. -/
def State.used (st : State) : Nat := st.dataSize - st.unfilledBits

section Bases

variable {i : SubobjectId}

/-- The place of a base that is not put at the start as an empty one: past the data, or where it is
supplied. -/
def seekBase (f : Frame) (st : State) (i : SubobjectId) (alignment : Bytes) : LayoutM (State × Bytes) :=
  match suppliedBaseOffset? f (st.graph.node i) with
  | none => findBaseOffset f st i alignment
  | some offset => adoptBaseOffset f st i alignment offset

/-- How a base gets a place, where its layout is `layout`: an empty base at the start if the map has a place
for it there, any other base past the data or where it is supplied. The maximum for fields does not hold at
the start. -/
inductive BaseStages (f : Frame) (known : Known) (i : SubobjectId) (layout : RecordLayout)
    (unpacked : Bytes) (st : State) : Bytes → State → Prop
  | atStart {placed sized st' : State}
      (empty : f.tree.isEmptyClass (st.graph.node i).record = true)
      (offered : (suppliedBaseOffset? f (st.graph.node i)).all (· == 0) = true)
      (admitted : (st.placeBase? f i 0).eval known = .ok (some placed))
      (covered : placed.setSize (max placed.sizeInBytes layout.size) = .ok sized)
      (raised : sized.raiseAlignment f (if f.isPacked then 1 else unpacked) unpacked = .ok st') :
      BaseStages f known i layout unpacked st 0 st'
  | elsewhere {placed occupied st' : State} {x : Bytes}
      (refused : f.tree.isEmptyClass (st.graph.node i).record = true →
        (suppliedBaseOffset? f (st.graph.node i)).all (· == 0) = true →
          (st.placeBase? f i 0).eval known = .ok none)
      (chosen : (seekBase f st i (f.clamp (if f.isPacked then 1 else unpacked))).eval known =
        .ok (placed, x))
      (covered : occupyBase placed (f.tree.isEmptyClass (st.graph.node i).record) layout x =
        .ok occupied)
      (raised : occupied.raiseAlignment f (f.clamp (if f.isPacked then 1 else unpacked))
        (f.clamp unpacked) = .ok st') : BaseStages f known i layout unpacked st x st'

theorem seekBase_ends {alignment : Bytes} {next : State × Bytes → LayoutM (State × Bytes)}
    {after : State × Bytes → Prop}
    (rest : ∀ found, (seekBase f st i alignment).eval known = .ok found →
      Ends (fun _ => True) ((next found).eval known) after) :
    Ends (fun _ => True) (LayoutM.eval known (match suppliedBaseOffset? f (st.graph.node i) with
      | none => findBaseOffset f st i alignment >>= next
      | some offset => adoptBaseOffset f st i alignment offset >>= next)) after := by
  unfold seekBase at rest
  cases told : suppliedBaseOffset? f (st.graph.node i) with
  | none => exact ends_bind Ends.any fun found chosen => rest found (by rwa [told])
  | some offset => exact ends_bind Ends.any fun found chosen => rest found (by rwa [told])

theorem layBase_stages : Ends (fun _ => True) ((layBase f i st).eval known) fun result =>
    ∃ layout unpacked, known.record (st.graph.node i).record = .ok layout ∧
      layout.nonVirtualAlignment = .ok unpacked ∧
      BaseStages f known i layout unpacked st result.2 result.1 := by
  unfold layBase
  refine ends_bind Ends.any fun _ _ => ends_bind Ends.any fun layout laid => ?_
  rw [LayoutM.eval_layoutOf] at laid
  refine ends_lift_bind Ends.any fun unpacked aligned => ?_
  -- What is left once the place of a base is known that does not lie at the start as an empty one.
  have rest (refused : f.tree.isEmptyClass (st.graph.node i).record = true →
      (suppliedBaseOffset? f (st.graph.node i)).all (· == 0) = true →
        (st.placeBase? f i 0).eval known = .ok none) (found : State × Bytes)
      (chosen : (seekBase f st i (f.clamp (if f.isPacked then 1 else unpacked))).eval known =
        .ok found) : Ends (fun _ => True) ((do
      let occupied ← occupyBase found.1 (f.tree.isEmptyClass (st.graph.node i).record) layout found.2
      return (← occupied.raiseAlignment f (f.clamp (if f.isPacked then 1 else unpacked))
        (f.clamp unpacked), found.2) : LayoutM (State × Bytes)).eval known) fun result =>
          ∃ layout unpacked, known.record (st.graph.node i).record = .ok layout ∧
            layout.nonVirtualAlignment = .ok unpacked ∧
            BaseStages f known i layout unpacked st result.2 result.1 := by
    refine ends_lift_bind Ends.any fun occupied covered => ends_lift_bind Ends.any fun st' raised => ?_
    exact ⟨layout, unpacked, laid, aligned, .elsewhere refused chosen covered raised⟩
  dsimp only
  split
  · rename_i start
    obtain ⟨empty, offered⟩ := Bool.and_eq_true_iff.mp start
    refine ends_bind Ends.any fun atStart answer => ?_
    cases atStart with
    | some placed =>
      refine ends_lift_bind Ends.any fun sized covered => ends_lift_bind Ends.any fun st' raised => ?_
      exact ⟨layout, unpacked, laid, aligned, .atStart empty offered answer covered raised⟩
    | none => exact seekBase_ends (rest fun _ _ => answer)
  · rename_i away
    exact seekBase_ends (rest fun empty offered => absurd (by rw [empty, offered]; rfl) away)

end Bases

section Fields

/-- The alignment that a field that is no bit-field asks for, where its type asks for `natural`. -/
def Frame.fieldAlignment (f : Frame) (field : Field) (natural : Nat) : Nat :=
  f.clamp (max (if f.isPacked || field.isPacked then 1 else natural) (field.alignment.getD 0))

/-- The end of the data once a field of `size` bytes lies at `offset`. -/
def Frame.dataEnd (f : Frame) (dataSize : Bits) (offset size : Bytes) : Bits :=
  if f.isUnion then max dataSize (8 * size) else 8 * (offset + size)

/-- A field that is no bit-field: what it takes and asks for, the first offset that suits it, the one at
which the map has a place for it, and the alignment that it raises the record to. -/
structure FieldStages (f : Frame) (known : Known) (index : Nat) (field : Field)
    (size natural start offset : Bytes) (placed st st' : State) : Prop where
  remaining : st.unfilledBits ≤ st.dataSize
  extent : (fieldExtent f field.type).eval known = .ok (size, natural)
  aligned : Quantity.alignTo (if f.isUnion then 0 else st.dataSizeInBytes)
    (f.fieldAlignment field natural) = .ok start
  unpacked : f.clamp (max natural (field.alignment.getD 0)) ≠ 0
  chosen : (chooseFieldOffset f { st with unfilledBits := 0, storageUnit := 0 } index field.type
    (f.fieldAlignment field natural) start).eval known = .ok (placed, offset)
  raised : ((placed.placeFieldAt (8 * offset)).setDataSize
    (f.dataEnd placed.dataSize offset size)).raiseAlignment f (f.fieldAlignment field natural)
      (f.clamp (max natural (field.alignment.getD 0))) = .ok st'

theorem layField_stages : Ends (fun _ => True) ((layField f index field st).eval known) fun st' =>
    ∃ size natural start offset placed,
      FieldStages f known index field size natural start offset placed st st' := by
  unfold layField
  refine ends_lift_bind Ends.any fun unpadded taken => ?_
  obtain ⟨remaining, _⟩ := Quantity.sub_eq_ok_iff.mp taken
  refine ends_bind Ends.any ?_
  rintro ⟨size, natural⟩ extent
  refine ends_lift_bind Ends.any fun start aligned => ends_lift_bind Ends.any fun _ aligned' => ?_
  obtain ⟨unpacked, _⟩ := Quantity.alignTo_eq_ok_iff.mp aligned'
  refine ends_bind Ends.any ?_
  rintro ⟨placed, offset⟩ chosen
  refine ends_lift_bind Ends.any fun bits inBits => ?_
  obtain ⟨rfl, _⟩ := Quantity.mul_eq_ok_iff.mp inBits
  -- What is left once the offset has been reported.
  have rest : Ends (fun _ => True) ((do
      let dataSize ←
        if f.isUnion then pure (max placed.dataSize (← Bytes.toBits size))
        else Bytes.toBits (← Quantity.add offset size)
      ((placed.placeFieldAt (offset * Quantity.bitsPerByte)).setDataSize dataSize).raiseAlignment f
        (f.fieldAlignment field natural) (f.clamp (max natural (field.alignment.getD 0)))
          : LayoutM State).eval known) fun st' => ∃ size natural start offset placed,
            FieldStages f known index field size natural start offset placed st st' := by
    have close {dataSize : Bits} (stop : dataSize = f.dataEnd placed.dataSize offset size) :
        Ends (fun _ => True) ((liftM (((placed.placeFieldAt (offset * Quantity.bitsPerByte)).setDataSize
          dataSize).raiseAlignment f (f.fieldAlignment field natural)
            (f.clamp (max natural (field.alignment.getD 0)))) : LayoutM State).eval known) fun st' =>
              ∃ size natural start offset placed,
                FieldStages f known index field size natural start offset placed st st' := by
      rw [LayoutM.eval_lift, Nat.mul_comm offset, stop]
      exact Ends.any.imp fun st' raised =>
        ⟨size, natural, start, offset, placed, remaining, extent, aligned, unpacked, chosen, raised⟩
    split
    · refine ends_lift_bind Ends.any fun bits whole => ?_
      obtain ⟨rfl, _⟩ := Quantity.mul_eq_ok_iff.mp whole
      refine close ?_
      rw [Frame.dataEnd, if_pos ‹_›, Nat.mul_comm 8]
      rfl
    · refine ends_lift_bind Ends.any fun stop sum => ends_lift_bind Ends.any fun bits whole => ?_
      obtain ⟨rfl, _⟩ := Quantity.add_eq_ok_iff.mp sum
      obtain ⟨rfl, _⟩ := Quantity.mul_eq_ok_iff.mp whole
      refine close ?_
      rw [Frame.dataEnd, if_neg ‹_›, Nat.mul_comm 8]
      rfl
  cases f.supplied.isNone with
  | true =>
    rw [if_pos rfl]
    refine ends_lift_bind Ends.any fun _ _ => ends_lift_bind Ends.any fun _ _ => ?_
    exact ends_bind Ends.any fun _ _ => rest
  | false =>
    rw [if_neg Bool.false_ne_true]
    exact rest

end Fields

section BitFields

/-- A bit-field wider than its type: the alignment of the widest integer type that it covers, and the
bits that it takes. -/
structure WideStages (f : Frame) (width alignment offset : Bits) (taken st st' : State) : Prop where
  widest : widestCoveredAlignment f width = .ok alignment
  inUnion : f.isUnion = true → offset = 0 ∧
    taken = { st with unfilledBits := 0, storageUnit := 0, dataSize := max st.dataSize width }
  sequential : f.isUnion = false → Quantity.alignTo st.dataSize alignment = .ok offset ∧
    State.endAt { st with unfilledBits := 0, storageUnit := 0 } (offset + width) = .ok taken
  raised : ((taken.placeFieldAt offset).setDataSize taken.dataSize).raiseAlignment f
    (Bits.toBytesFloor alignment) (Bits.toBytesFloor alignment) = .ok st'

theorem layWideBitField_stages :
    Ends (fun _ => True) ((layWideBitField f index field width isPacked st).eval known) fun st' =>
      ∃ alignment offset taken, WideStages f width alignment offset taken st st' := by
  unfold layWideBitField
  refine ends_lift_bind Ends.any fun alignment widest => ?_
  cases union : f.isUnion with
  | true =>
    simp only [if_true, pure_bind]
    refine ends_bind Ends.any fun _ _ => ?_
    rw [LayoutM.eval_lift]
    exact Ends.any.imp fun st' raised => ⟨alignment, 0, _, widest, fun _ => ⟨rfl, rfl⟩,
      fun no => absurd (no.symm.trans union) Bool.false_ne_true, raised⟩
  | false =>
    simp only [Bool.false_eq_true, if_false]
    refine ends_lift_bind Ends.any fun offset aligned => ends_lift_bind Ends.any fun stop sum => ?_
    obtain ⟨rfl, _⟩ := Quantity.add_eq_ok_iff.mp sum
    refine ends_lift_bind Ends.any fun taken ended => ?_
    rw [pure_bind]
    refine ends_bind Ends.any fun _ _ => ?_
    rw [LayoutM.eval_lift]
    exact Ends.any.imp fun st' raised => ⟨alignment, offset, taken, widest,
      fun yes => absurd (union.symm.trans yes) Bool.false_ne_true, fun _ => ⟨aligned, ended⟩, raised⟩

/-- What a bit-field asks for. One without a name may have to be silent. -/
def Frame.bitsAsk (f : Frame) (field : Field) (alignment : BitAlignment) : BitAlignment :=
  if field.isUnnamed && !f.target.bitFieldRules.zeroLengthAlignment && !f.isMsStruct then ⟨1, 1⟩
  else alignment

/-- A bit-field no wider than its type: its alignment, where it could start, where it has come to from
there, and the bits that it takes at the offset that it then gets. -/
structure NarrowStages (f : Frame) (index : Nat) (field : Field)
    (width typeSize typeAlignment : Bits) (isPacked : Bool) (unpadded : Bits)
    (alignment : BitAlignment) (start computed : Bits) (taken st st' : State) : Prop where
  aligned : bitAlignment f field isPacked
    (!f.target.bitFieldRules.typeAlignment && !isZeroLengthBoundary f width) width typeAlignment =
      .ok alignment
  started : (if f.isMsStruct && st.storageUnit == 0 then
      Quantity.alignTo (if f.isUnion then 0 else unpadded) alignment.actual
    else pure (if f.isUnion then 0 else unpadded)) = Except.ok start
  avoided : avoidCrossing f start alignment.actual width typeSize = .ok computed
  occupied : ((adoptFieldOffset f st index computed).1.placeFieldAt
      (adoptFieldOffset f st index computed).2).occupyBits f
    (adoptFieldOffset f st index computed).2 width typeSize = .ok taken
  raised : (taken.setDataSize taken.dataSize).raiseAlignment f
    (max (Bits.toBytesFloor (f.bitsAsk field alignment).actual) 1)
    (max (Bits.toBytesFloor (f.bitsAsk field alignment).unpacked) 1) = .ok st'

theorem layNarrowBitField_stages :
    Ends (fun _ => True) ((layNarrowBitField f index field width typeSize typeAlignment isPacked
      unpadded st).eval known) fun st' => ∃ alignment start computed taken,
        NarrowStages f index field width typeSize typeAlignment isPacked unpadded alignment start
          computed taken st st' := by
  unfold layNarrowBitField
  refine ends_lift_bind Ends.any fun alignment aligned => ?_
  -- However the start was found, what follows is the same.
  have rest {start start' : Bits} (started : (if f.isMsStruct && st.storageUnit == 0 then
        Quantity.alignTo (if f.isUnion then 0 else unpadded) alignment.actual
        else pure (if f.isUnion then 0 else unpadded)) = Except.ok start)
      (placement : Bits → Bits → FieldPlacement) : Ends (fun _ => True) ((do
        let offset ← avoidCrossing f start alignment.actual width typeSize
        let unpackedOffset ← avoidCrossing f start' alignment.unpacked width typeSize
        if f.supplied.isNone then reportPlacement f (placement offset unpackedOffset)
        let st ← ((adoptFieldOffset f st index offset).1.placeFieldAt
          (adoptFieldOffset f st index offset).2).occupyBits f
            (adoptFieldOffset f st index offset).2 width typeSize
        (st.setDataSize st.dataSize).raiseAlignment f
          (max (Bits.toBytesFloor (f.bitsAsk field alignment).actual) 1)
          (max (Bits.toBytesFloor (f.bitsAsk field alignment).unpacked) 1) : LayoutM State).eval known)
        fun st' => ∃ alignment start computed taken,
          NarrowStages f index field width typeSize typeAlignment isPacked unpadded alignment start
            computed taken st st' := by
    refine ends_lift_bind Ends.any fun computed avoided => ends_lift_bind Ends.any fun _ _ => ?_
    have close : Ends (fun _ => True) ((do
        let st ← ((adoptFieldOffset f st index computed).1.placeFieldAt
          (adoptFieldOffset f st index computed).2).occupyBits f
            (adoptFieldOffset f st index computed).2 width typeSize
        (st.setDataSize st.dataSize).raiseAlignment f
          (max (Bits.toBytesFloor (f.bitsAsk field alignment).actual) 1)
          (max (Bits.toBytesFloor (f.bitsAsk field alignment).unpacked) 1) : LayoutM State).eval known)
        fun st' => ∃ alignment start computed taken,
          NarrowStages f index field width typeSize typeAlignment isPacked unpadded alignment start
            computed taken st st' := by
      refine ends_lift_bind Ends.any fun taken occupied => ?_
      rw [LayoutM.eval_lift]
      exact Ends.any.imp fun st' raised =>
        ⟨alignment, start, computed, taken, aligned, started, avoided, occupied, raised⟩
    dsimp only
    split
    · exact ends_bind Ends.any fun _ _ => close
    · exact close
  dsimp only
  split
  · rename_i opens
    refine ends_lift_bind Ends.any fun start opened => ends_lift_bind Ends.any fun _ _ => ?_
    exact rest (by rwa [if_pos opens]) _
  · rename_i shares
    rw [pure_bind, pure_bind]
    exact rest (by rw [if_neg shares]; rfl) _

/-- The state in which a bit-field is laid out, once it has left the unit of another size. -/
def State.entering (f : Frame) (type : TypeLayout) (st : State) : State :=
  if f.isMsStruct then st.leaveUnit (8 * type.width) else st

/-- The alignment that a bit-field has from its type, in bits. -/
def Frame.bitTypeAlignment (f : Frame) (st : State) (width : Nat) (type : TypeLayout) : Nat :=
  let declared := declaredAlignment f st width (8 * type.width) (8 * type.alignment)
  if isZeroLengthBoundary f width then max declared f.target.bitFieldRules.zeroLengthBoundary
  else declared

/-- Which rules a bit-field falls under depends on whether its type is wide enough. -/
theorem layBitField_enters :
    Ends (fun _ => True) ((layBitField f index field width st).eval known) fun st' => ∃ type,
      known.type field.type = .ok type ∧
      (st.entering f type).unfilledBits ≤ (st.entering f type).dataSize ∧
      ((8 * type.width < width ∧
        (layWideBitField f index field width (f.isPacked || field.isPacked)
          (st.entering f type)).eval known = .ok st') ∨
      (width ≤ 8 * type.width ∧
        (layNarrowBitField f index field width (8 * type.width) (f.bitTypeAlignment st width type)
          (f.isPacked || field.isPacked) (st.entering f type).used (st.entering f type)).eval known =
            .ok st')) := by
  unfold layBitField
  refine ends_bind Ends.any fun type known => ?_
  rw [LayoutM.eval_typeLayoutOf] at known
  refine ends_lift_bind Ends.any fun typeSize whole => ?_
  refine ends_lift_bind Ends.any fun natural whole' => ?_
  obtain ⟨rfl, _⟩ := Quantity.mul_eq_ok_iff.mp whole
  obtain ⟨rfl, _⟩ := Quantity.mul_eq_ok_iff.mp whole'
  rw [Quantity.bitsPerByte, Nat.mul_comm _ 8, Nat.mul_comm _ 8]
  change Ends _ (LayoutM.eval _ (do
    let unpaddedOffset ← Quantity.sub (st.entering f type).dataSize (st.entering f type).unfilledBits
    if 8 * type.width < width then
      layWideBitField f index field width (f.isPacked || field.isPacked) (st.entering f type)
    else
      layNarrowBitField f index field width (8 * type.width) (f.bitTypeAlignment st width type)
        (f.isPacked || field.isPacked) unpaddedOffset (st.entering f type))) _
  refine ends_lift_bind Ends.any fun unpadded taken => ?_
  obtain ⟨remaining, rfl⟩ := Quantity.sub_eq_ok_iff.mp taken
  split
  · rename_i wide
    exact Ends.any.imp fun st' done => ⟨type, known, remaining, .inl ⟨wide, done⟩⟩
  · rename_i narrow
    exact Ends.any.imp fun st' done =>
      ⟨type, known, remaining, .inr ⟨Nat.le_of_not_lt narrow, done⟩⟩

end BitFields

/-- How a record is finished: the size that it has before it is rounded up, and the size that it has in the
end. -/
structure FinishStages (f : Frame) (rounded : Bits) (sized st st' : State) : Prop where
  avoided : st.avoidSizeZero f = .ok sized
  aligned : Quantity.alignTo sized.size (8 * sized.alignment) = .ok rounded
  computed : f.supplied = none → st' = { sized with size := rounded }
  adopted : ∀ supplied, f.supplied = some supplied → ∃ isSmaller,
    (sized.settlePackedIf isSmaller).setSize supplied.size = .ok st'

theorem finish_stages : Ends (fun _ => True) ((finish f st).eval known) fun st' =>
    ∃ rounded sized, FinishStages f rounded sized st st' := by
  unfold finish
  refine ends_lift_bind Ends.any fun sized avoided => ends_lift_bind Ends.any fun _ _ => ?_
  refine ends_lift_bind Ends.any fun _ _ => ends_lift_bind Ends.any fun _ _ => ?_
  refine ends_lift_bind Ends.any fun bits whole => ends_lift_bind Ends.any fun rounded aligned => ?_
  obtain ⟨rfl, _⟩ := Quantity.mul_eq_ok_iff.mp whole
  rw [Nat.mul_comm] at aligned
  cases given : f.supplied with
  | none =>
    refine ends_bind Ends.any fun _ _ => ⟨rounded, sized, avoided, aligned, fun _ => rfl, ?_⟩
    exact fun _ some => absurd (given.symm.trans some) nofun
  | some supplied =>
    have close (isSmaller : Bool) : Ends (fun _ => True)
        ((liftM ((sized.settlePackedIf isSmaller).setSize supplied.size) : LayoutM State).eval known)
        fun st' => ∃ rounded sized, FinishStages f rounded sized st st' := by
      rw [LayoutM.eval_lift]
      refine Ends.any.imp fun st' done => ⟨rounded, sized, avoided, aligned, ?_, ?_⟩
      · exact fun none => absurd (given.symm.trans none) nofun
      · intro other same
        cases given.symm.trans same
        exact ⟨isSmaller, done⟩
    dsimp only
    split
    · exact ends_lift_bind Ends.any fun _ _ => close _
    · exact close _

end ObjectLayout.Itanium
