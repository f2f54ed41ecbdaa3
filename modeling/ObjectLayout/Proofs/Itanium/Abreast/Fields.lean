import ObjectLayout.Proofs.Itanium.Abreast.Bases
import ObjectLayout.Proofs.Itanium.Members

/-! Fields in two runs abreast. A bit-field never asks the map; any other field lies past what is used,
where the maps answer alike. What is reported on the way may name different records. -/
namespace ObjectLayout.Itanium

open LayoutM (Mirrors Follows layoutOf eval_bind_eq_ok)

variable {f : Frame} {known : Known} {lax : Prop} {st st' : State} {d' : RecordId}
variable {index : Nat} {field : Field} {front front' x width typeSize : Nat} {type : Ty}
variable {M : Option EmptyMap → Option EmptyMap → Prop}

theorem Beside.step (h : Beside M st st') (S : State → State)
    (same : ∀ st map, S (st.withMap map) = (S st).withMap map)
    (kept : (S st).emptyMap = st.emptyMap) : Beside M (S st) (S st') := by
  have frame : st' = st.withMap st'.emptyMap := h.frame
  refine ⟨?_, ?_⟩
  · conv_lhs => rw [frame, same]
    conv_rhs => rw [frame, same]
    rfl
  · rw [kept]
    have kept' : (S st').emptyMap = st'.emptyMap := by
      rw [frame, same]
      rfl
    rw [kept']
    exact h.maps

theorem reportPlacement_abreast {f' : Frame} (p p' : FieldPlacement) :
    Mirrors known lax (fun _ _ => True) (reportPlacement f p) (reportPlacement f' p') := by
  have silent (f : Frame) (p : FieldPlacement) : (reportPlacement f p).answers known = [] := by
    unfold reportPlacement
    split <;> split <;> rfl
  intro _ _
  rw [Follows, eval_reportPlacement, silent, silent]
  exact ⟨trivial, rfl⟩

section BitFields

theorem blind_endAt (stop : Bits) : Blind (·.endAt stop) := by
  unfold State.endAt
  refine Blind.bind_value (fun _ _ => rfl) fun dataSize => ?_
  refine Blind.bind_value (fun _ _ => rfl) fun unfilled => ?_
  exact .pure fun _ _ => rfl

theorem blind_occupyBits (offset width typeSize : Bits) : Blind (·.occupyBits f offset width typeSize) := by
  intro st map
  unfold State.occupyBits
  dsimp only
  split
  · rfl
  · split
    · unfold State.takeFromUnit
      change (if (st.unfilledBits == 0) = true then _ else _) = _
      split
      · cases Quantity.add offset typeSize with
        | error fault => rfl
        | ok dataSize => cases Quantity.sub typeSize width <;> rfl
      · change (if st.unfilledBits < width then _ else _) = _
        split
        · change (Quantity.add st.dataSize typeSize >>= _) = _
          cases Quantity.add st.dataSize typeSize with
          | error fault => rfl
          | ok dataSize => cases Quantity.sub typeSize width <;> rfl
        · rfl
    · cases Quantity.add offset width with
      | error fault => rfl
      | ok stop =>
        have ended : (st.withMap map).endAt stop = (State.withMap · map) <$> st.endAt stop :=
          blind_endAt stop st map
        change ((st.withMap map).endAt stop >>= _) = _ <$> (st.endAt stop >>= _)
        rw [ended]
        cases st.endAt stop <;> rfl

theorem leaveUnit_withMap (st : State) (map : Option EmptyMap) :
    (st.withMap map).leaveUnit typeSize = (st.leaveUnit typeSize).withMap map := by
  unfold State.leaveUnit
  change (if st.storageUnit = typeSize then _ else _) = _
  split <;> rfl

variable (h : Beside M st st')
include h

theorem layWideBitField_beside (width : Bits) (isPacked : Bool) :
    Mirrors known lax (Beside M) (layWideBitField f index field width isPacked st)
      (layWideBitField { f with record := d' } index field width isPacked st') := by
  unfold layWideBitField
  refine .bind_same fun alignment _ => ?_
  dsimp only
  have left : Beside M { st with unfilledBits := 0, storageUnit := 0 }
      { st' with unfilledBits := 0, storageUnit := 0 } :=
    h.step (fun st => { st with unfilledBits := 0, storageUnit := 0 }) (fun _ _ => rfl) rfl
  have dataSize : st'.dataSize = st.dataSize := by rw [h.frame]
  -- What is left once the bits are taken.
  have close {st₁ st₁' : State} (beside : Beside M st₁ st₁') (offset : Bits)
      (p p' : FieldPlacement) (alignment : Bytes) : Mirrors known lax (Beside M)
      (do
        reportPlacement f p
        ((st₁.placeFieldAt offset).setDataSize (st₁.placeFieldAt offset).dataSize).raiseAlignment f
          alignment alignment : LayoutM State)
      (do
        reportPlacement { f with record := d' } p'
        ((st₁'.placeFieldAt offset).setDataSize (st₁'.placeFieldAt offset).dataSize).raiseAlignment f
          alignment alignment : LayoutM State) := by
    refine (reportPlacement_abreast p p').bind fun _ _ _ _ _ => ?_
    exact (beside.step (fun st =>
      (st.placeFieldAt offset).setDataSize (st.placeFieldAt offset).dataSize) (fun _ _ => rfl) rfl).blind
        (blind_raiseAlignment _ _)
  refine .ite (fun _ => ?_) fun _ => ?_
  · rw [pure_bind, pure_bind]
    exact close (left.step (fun st => { st with dataSize := max st.dataSize width })
      (fun _ _ => rfl) rfl) 0 _ _ _
  · rw [dataSize]
    refine .bind_same fun offset _ => .bind_same fun stop _ => ?_
    refine (left.blind (blind_endAt stop)).bind fun st₁ st₁' _ _ beside => ?_
    rw [pure_bind, pure_bind]
    exact close beside offset _ _ _

theorem layNarrowBitField_beside (unsupplied : f.supplied = none) (width typeAlignment : Bits)
    (isPacked : Bool) (unpaddedOffset : Bits) :
    Mirrors known lax (Beside M)
      (layNarrowBitField f index field width typeSize typeAlignment isPacked unpaddedOffset st)
      (layNarrowBitField { f with record := d' } index field width typeSize typeAlignment isPacked
        unpaddedOffset st') := by
  have storageUnit : st'.storageUnit = st.storageUnit := by rw [h.frame]
  unfold layNarrowBitField
  dsimp only
  have alone : f.supplied.isNone = true := by rw [unsupplied]; rfl
  have computed (st : State) (offset : Bits) : adoptFieldOffset f st index offset = (st, offset) := by
    simp [adoptFieldOffset, unsupplied]
  have computed' (st : State) (offset : Bits) :
      adoptFieldOffset { f with record := d' } st index offset = (st, offset) := computed st offset
  simp only [alone, computed, computed', if_true, storageUnit]
  refine .bind_same fun alignment _ => ?_
  have rest (start start' : Bits) (report report' : Bits → Bits → LayoutM Unit)
      (packed unpacked : Bytes)
      (both : ∀ a b, Mirrors known lax (fun _ _ => True) (report a b) (report' a b)) :
      Mirrors known lax (Beside M)
      (do
        let offset ← avoidCrossing f start alignment.actual width typeSize
        let unpackedOffset ← avoidCrossing f start' alignment.unpacked width typeSize
        report offset unpackedOffset
        let st ← (st.placeFieldAt offset).occupyBits f offset width typeSize
        (st.setDataSize st.dataSize).raiseAlignment f packed unpacked : LayoutM State)
      (do
        let offset ← avoidCrossing f start alignment.actual width typeSize
        let unpackedOffset ← avoidCrossing f start' alignment.unpacked width typeSize
        report' offset unpackedOffset
        let st ← (st'.placeFieldAt offset).occupyBits f offset width typeSize
        (st.setDataSize st.dataSize).raiseAlignment f packed unpacked : LayoutM State) := by
    refine .bind_same fun offset _ => .bind_same fun unpackedOffset _ => ?_
    refine (both offset unpackedOffset).bind fun _ _ _ _ _ => ?_
    have placed := h.step ((·.placeFieldAt offset)) (fun _ _ => rfl) rfl
    refine (placed.blind (blind_occupyBits offset width typeSize)).bind fun st₁ st₁' _ _ beside => ?_
    exact (beside.step (fun st => st.setDataSize st.dataSize) (fun _ _ => rfl) rfl).blind
      (blind_raiseAlignment _ _)
  by_cases opens : (f.isMsStruct && st.storageUnit == 0) = true
  · simp only [if_pos opens]
    refine .bind_same fun offset _ => .bind_same fun unpackedOffset _ => ?_
    exact rest _ _ _ _ _ _ fun _ _ => reportPlacement_abreast _ _
  · simp only [if_neg opens]
    exact rest _ _ _ _ _ _ fun _ _ => reportPlacement_abreast _ _

theorem layBitField_beside (unsupplied : f.supplied = none) (width : Bits) :
    Mirrors known lax (Beside M) (layBitField f index field width st)
      (layBitField { f with record := d' } index field width st') := by
  unfold layBitField
  refine .bind_same fun layout _ => .bind_same fun typeSize _ => .bind_same fun natural _ => ?_
  dsimp only
  have unit : declaredAlignment { f with record := d' } st' width typeSize natural =
      declaredAlignment f st width typeSize natural := by
    rw [h.frame]
    rfl
  have left : Beside M
      (if f.isMsStruct = true then st.leaveUnit typeSize else st)
      (if f.isMsStruct = true then st'.leaveUnit typeSize else st') := by
    split
    · refine h.step ((·.leaveUnit typeSize)) leaveUnit_withMap ?_
      rw [leaveUnit_frame.1]
    · exact h
  rw [unit]
  generalize (if f.isMsStruct = true then st.leaveUnit typeSize else st) = st₀ at left ⊢
  generalize (if f.isMsStruct = true then st'.leaveUnit typeSize else st') = st₀' at left ⊢
  have sizes : st₀'.dataSize = st₀.dataSize ∧ st₀'.unfilledBits = st₀.unfilledBits := by
    rw [left.frame]
    exact ⟨rfl, rfl⟩
  rw [sizes.1, sizes.2]
  refine .bind_same fun unpadded _ => .ite (fun _ => ?_) fun _ => ?_
  · exact layWideBitField_beside left width _
  · exact layNarrowBitField_beside left unsupplied width _ _ _

end BitFields

section Fields

/-- What two runs rely on to lay out a field that both their classes declare. -/
structure Declares (f : Frame) (known : Known) (d' : RecordId) (field : Field) : Prop where
  work : Workable f known fun _ => True
  work' : Workable { f with record := d' } known fun _ => True
  here : field ∈ f.declaration.fields
  there : field ∈ (f.tree.record d').fields

theorem placeField?_abreast (h : Abreast f known lax d' front st st')
    (declares : Declares f known d' field) (notUnion : f.isUnion = false) {width : Nat}
    (wide : f.setting.width known field.type = .ok width) (room : x + width < Quantity.limit)
    (start : front ≤ 8 * x) (le : front ≤ front') (after : 8 * (x + width) ≤ front') :
    Mirrors known lax (Option.Rel (Abreast f known lax d' front')) (st.placeField? f field.type x)
      (st'.placeField? f field.type x) := by
  have held (m : RecordId) (names : field.type.constantArrayRecord? = some m) :
      f.setting.Holds f.record m :=
    .of_field declares.here (Ty.baseElement_of_constantArrayRecord? names)
  unfold State.placeField?
  rw [notUnion]
  refine h.placeIn fun map map' _ alike => ?_
  refine alike.placeField declares.work.settled declares.work'.settled held
    (fun m names => .of_field declares.there (Ty.baseElement_of_constantArrayRecord? names))
    (fun m names => declares.work.explorable m (.single (held m names))) (fun k m contains => .inl ?_)
    wide start le after
  have inside := declares.work.knows.contained_le wide contains
  lia

theorem chooseFieldOffset_abreast (h : Abreast f known lax d' front st st')
    (declares : Declares f known d' field) (notUnion : f.isUnion = false) {alignment start width : Nat}
    {found : State × Nat}
    (done : (chooseFieldOffset f st index field.type alignment start).eval known = .ok found)
    (positive : 0 < alignment)
    (wide : f.setting.width known field.type = .ok width) (room : found.2 + width < Quantity.limit)
    (before : front ≤ 8 * start) (after : 8 * (found.2 + width) ≤ front') :
    Follows known lax (fun a b => b.2 = a.2 ∧ Abreast f known lax d' front' a.1 b.1)
      (chooseFieldOffset f st index field.type alignment start) found
      (chooseFieldOffset f st' index field.type alignment start) := by
  have alone : f.supplied.isNone = true := by rw [declares.work.unsupplied]; rfl
  unfold chooseFieldOffset at done ⊢
  rw [if_pos alone] at done ⊢
  rw [if_pos alone]
  have later := (probe_ok _ done).2
  refine (probe_follows _ done (fun y from' upTo => ?_) (fun y refused => ?_) _
    (attemptsFrom_enough (st'.emptyMap.getD {}) start positive)).imp fun b _ both => ⟨both.2, both.1⟩
  · exact placeField?_abreast h declares notUnion wide (by lia) (by lia) (by lia) (by lia)
  · exact le_highest_of_refusedField declares.work declares.here h.bounded.2 refused

/-- What is left of a field once the end of the data is known. -/
theorem endField_abreast (h : Abreast f known lax d' front st st') (none : st.unfilledBits = 0)
    (offset n : Bits) (packed unpacked : Bytes) (reaches : f.isUnion = false → front ≤ n) :
    Mirrors known lax (fun a b => ∃ front', Abreast f known lax d' front' a b ∧
        (f.isUnion = false → front' ≤ a.used))
      (liftM (((st.placeFieldAt offset).setDataSize n).raiseAlignment f packed unpacked)
        : LayoutM State)
      (liftM (((st'.placeFieldAt offset).setDataSize n).raiseAlignment f packed unpacked)) := by
  have next := h.step (fun st => (st.placeFieldAt offset).setDataSize n) (fun _ _ => rfl) rfl
  refine (next.blind (blind_raiseAlignment _ _)).imp fun a b done _ abreast =>
    ⟨front, abreast, fun notUnion => ?_⟩
  rw [LayoutM.eval_lift] at done
  have frame := (Ends.holds (raiseAlignment_ends (.inr trivial) (.inr trivial)) done).frame
  have used : a.used = n - st.unfilledBits := by
    rw [frame]
    rfl
  rw [used, none, Nat.sub_zero]
  exact reaches notUnion

/-- A field leaves two runs abreast, at a front that is no further than what is used. -/
theorem layField_abreast (h : Abreast f known lax d' front st st')
    (declares : Declares f known d' field) (within : f.isUnion = false → front ≤ st.dataSize) :
    Mirrors known lax (fun a b => ∃ front', Abreast f known lax d' front' a b ∧
        (f.isUnion = false → front' ≤ a.used))
      (layField f index field st) (layField { f with record := d' } index field st') := by
  have alone : f.supplied.isNone = true := by rw [declares.work.unsupplied]; rfl
  obtain ⟨map', rfl⟩ : ∃ map', st' = st.withMap map' := ⟨_, h.frame⟩
  unfold layField
  refine .bind_same fun unpadded _ => ?_
  dsimp only
  refine .bind_same ?_
  rintro ⟨size, asked⟩ extent
  have wide := fieldExtent_width extent
  dsimp only at wide ⊢
  refine .bind_same fun start aligned => .bind_same fun unpackedStart _ => ?_
  rw [LayoutM.eval_lift] at aligned
  have left : Abreast f known lax d' front { st with unfilledBits := 0, storageUnit := 0 }
      { st.withMap map' with unfilledBits := 0, storageUnit := 0 } := ⟨rfl, h.maps⟩
  simp only [alone, if_true]
  by_cases union : f.isUnion = true
  · rw [chooseFieldOffset_unasked declares.work.unsupplied (.inl union),
      chooseFieldOffset_unasked (f := { f with record := d' }) declares.work'.unsupplied (.inl union),
      pure_bind, pure_bind]
    refine .bind_same fun offset _ => .bind_same fun _ _ => .bind_same fun _ _ => ?_
    refine (reportPlacement_abreast _ _).bind fun _ _ _ _ _ => ?_
    refine .ite (fun _ => .bind_same fun bits _ => ?_) fun notUnion => absurd union notUnion
    exact endField_abreast left rfl offset _ _ _ fun notUnion => by simp [union] at notUnion
  · have notUnion : f.isUnion = false := by simpa using union
    have before : front ≤ 8 * start := by
      have ceil := le_toBytesCeil st.dataSize
      have past := alignTo_le aligned
      rw [if_neg union] at past
      have := within notUnion
      change Bits.toBytesCeil st.dataSize ≤ start at past
      lia
    refine .bind_reaching (R := fun a b => b.2 = a.2 ∧ a.1.unfilledBits = 0 ∧
      Abreast f known lax d' (8 * (a.2 + size)) a.1 b.1) (fun found result done rest => ?_) ?_
    · obtain ⟨bits, _, rest⟩ := eval_bind_eq_ok.mp rest
      obtain ⟨_, _, rest⟩ := eval_bind_eq_ok.mp rest
      obtain ⟨_, _, rest⟩ := eval_bind_eq_ok.mp rest
      obtain ⟨_, _, rest⟩ := eval_bind_eq_ok.mp rest
      rw [if_neg union] at rest
      obtain ⟨stop, sum, _⟩ := eval_bind_eq_ok.mp rest
      rw [LayoutM.eval_lift] at sum
      obtain ⟨rfl, small⟩ := Quantity.add_eq_ok_iff.mp sum
      have mapped := ((chooseFieldOffset_ends declares.work.unsupplied).value done).2.2 notUnion
      refine (chooseFieldOffset_abreast left declares notUnion done
        (Nat.pos_of_ne_zero (Quantity.alignTo_eq_ok_iff.mp aligned).1) wide small before
        le_rfl).imp fun b _ both => ⟨both.1, ?_, both.2⟩
      rw [mapped.frame]
    · rintro ⟨st₁, x⟩ ⟨st₁', x'⟩ _ _ ⟨same, none, abreast⟩
      cases same
      refine .bind_same fun offset _ => .bind_same fun _ _ => .bind_same fun _ _ => ?_
      refine (reportPlacement_abreast _ _).bind fun _ _ _ _ _ => ?_
      refine .ite (fun yes => absurd yes union) fun _ => ?_
      refine .bind_same fun stop sum => .bind_same fun n whole => ?_
      refine endField_abreast abreast none offset n _ _ fun _ => ?_
      rw [LayoutM.eval_lift] at sum whole
      obtain ⟨rfl, _⟩ := Quantity.add_eq_ok_iff.mp sum
      obtain ⟨rfl, _⟩ := Quantity.mul_eq_ok_iff.mp whole
      rw [Quantity.bitsPerByte]
      lia

/-- Two states abreast at a front that is no further than what is used. The members of a union ask no
map, so that there the front does not matter. -/
structure Level (f : Frame) (known : Known) (lax : Prop) (d' : RecordId) (a b : State) : Prop where
  abreast : ∃ front, Abreast f known lax d' front a b ∧ (f.isUnion = false → front ≤ a.used)
  remaining : f.isUnion = false → a.unfilledBits ≤ a.dataSize

theorem layAnyField_abreast (h : Level f known lax d' st st') (declares : Declares f known d' field) :
    Mirrors known lax (Level f known lax d') (layAnyField f st (field, index))
      (layAnyField { f with record := d' } st' (field, index)) := by
  obtain ⟨front, abreast, within⟩ := h.abreast
  intro a done
  obtain ⟨offset, laid⟩ := (layAnyField_ends declares.work.unsupplied).value done
  have remaining (notUnion : f.isUnion = false) := laid.remaining notUnion (h.remaining notUnion)
  unfold layAnyField at done ⊢
  cases stored : field.bitWidth with
  | none =>
    simp only [stored] at done ⊢
    have used (notUnion : f.isUnion = false) : front ≤ st.dataSize :=
      (within notUnion).trans (Nat.sub_le _ _)
    exact (layField_abreast abreast declares used a done).imp fun b _ next => ⟨next, remaining⟩
  | some width =>
    simp only [stored] at done ⊢
    refine (layBitField_beside abreast declares.work.unsupplied width a done).imp fun b _ next =>
      ⟨⟨front, next, fun notUnion => ?_⟩, remaining⟩
    exact (within notUnion).trans (laid.used_le notUnion (h.remaining notUnion))

/-- Fields that both classes declare leave two runs abreast. -/
theorem layAnyFields_abreast (h : Level f known lax d' st st') {entries : List (Field × Nat)}
    (declares : ∀ entry ∈ entries, Declares f known d' entry.1) :
    Mirrors known lax (Level f known lax d') (entries.foldlM (layAnyField f) st)
      (entries.foldlM (layAnyField { f with record := d' }) st') :=
  .foldlM h fun entry member _ _ level => layAnyField_abreast level (declares entry member)

end Fields

end ObjectLayout.Itanium
