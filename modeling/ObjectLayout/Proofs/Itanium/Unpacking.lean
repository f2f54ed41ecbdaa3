import ObjectLayout.Proofs.Itanium.Abreast.Whole
import ObjectLayout.Proofs.Itanium.Moves

/-! The fields of a record with and without its attribute `packed`. As long as every field lies where
it would lie with the attribute, the two runs differ in nothing but how far they raise the alignment;
the first field that does not ends that. -/
namespace ObjectLayout.Itanium

open LayoutM (Mirrors Follows ends_bind ends_lift_bind eval_bind_eq_ok)

variable {f : Frame} {known : Known} {st st' a b a' b' p u : State} {r : RecordId}
variable {field : Field} {index n width typeSize : Nat} {entries : List (Field × Nat)}

/-- The frame of the same record, packed. -/
def Frame.packed (f : Frame) : Frame := { f with isPacked := true }

/-- Each of the fields, at its turn in a run, would also lie there if the record were packed. -/
def Frame.PacksIdly (f : Frame) (known : Known) : List (Field × Nat) → State → Prop
  | [], _ => True
  | entry :: rest, st => ∀ u, (layAnyField f st entry).eval known = .ok u →
    (∀ p, (layAnyField f.packed st entry).eval known = .ok p → p.fieldOffsets = u.fieldOffsets) ∧
      f.PacksIdly known rest u

section Aligned

/-- Two states that differ in nothing but the alignment, the second of them at least as aligned. -/
structure Heavier (a b : State) : Prop where
  frame : b = { a with alignment := b.alignment }
  le : a.alignment ≤ b.alignment

theorem Heavier.trans {c : State} (h : Heavier a b) (h' : Heavier b c) : Heavier a c := by
  refine ⟨?_, h.le.trans h'.le⟩
  rw [h'.frame, h.frame]

theorem Heavier.fieldOffsets (h : Heavier a b) : b.fieldOffsets = a.fieldOffsets := by
  rw [h.frame]

def State.withAlignment (n : Nat) (st : State) : State := { st with alignment := n }

theorem raiseAlignment_ok (unsupplied : f.supplied = none) {packed unpacked : Nat} :
    st.raiseAlignment f packed unpacked = .ok st' ↔
      (f.isMac68k = false →
        (st.alignment < packed → Quantity.isPowerOfTwo packed = true) ∧
        (st.unpackedAlignment < unpacked → Quantity.isPowerOfTwo unpacked = true)) ∧
      st' = { st with
        alignment := f.raised st.alignment packed
        unpackedAlignment := f.raised st.unpackedAlignment unpacked } := by
  have settled : st.isAlignmentSettled f = f.isMac68k := by
    simp [State.isAlignmentSettled, unsupplied]
  unfold State.raiseAlignment Frame.raised
  rw [settled]
  have check {c : Prop} [Decidable c] {asked : Nat} {next : Checked State} :
      (if c then ensure (Quantity.isPowerOfTwo asked) .alignmentNotPowerOfTwo >>= fun _ => next
        else next) = .ok st' ↔ (c → Quantity.isPowerOfTwo asked = true) ∧ next = .ok st' := by
    by_cases more : c
    · simp [more, except_bind_eq_ok, ensure_eq_ok]
    · simp [more]
  cases f.isMac68k with
  | true => simp [pure, Except.pure, @eq_comm _ st st']
  | false =>
    refine check.trans ?_
    rw [check]
    simp [pure, Except.pure, @eq_comm _ _ st', and_assoc]

theorem Frame.raised_mono_left (f : Frame) {alignment alignment' asked : Nat}
    (le : alignment ≤ alignment') : f.raised alignment asked ≤ f.raised alignment' asked := by
  unfold raised
  split
  · exact le
  · exact max_le_max_right _ le

/-- What is raised from where it is higher ends no lower, and is checked for less. -/
theorem Heavier.raise (h : Heavier a b) (unsupplied : f.supplied = none) {packed unpacked : Nat}
    (done : a.raiseAlignment f packed unpacked = .ok a') :
    ∃ b', b.raiseAlignment f packed unpacked = .ok b' ∧ Heavier a' b' := by
  obtain ⟨checks, rfl⟩ := (raiseAlignment_ok unsupplied).mp done
  refine ⟨_, (raiseAlignment_ok unsupplied).mpr ⟨fun free => ?_, rfl⟩, ?_, ?_⟩
  · obtain ⟨power, power'⟩ := checks free
    have same : b.unpackedAlignment = a.unpackedAlignment := by rw [h.frame]
    exact ⟨fun less => power (h.le.trans_lt less), same ▸ power'⟩
  · rw [h.frame]
  · exact f.raised_mono_left h.le

theorem endAt_withAlignment (st : State) (stop : Nat) :
    (st.withAlignment n).endAt stop = State.withAlignment n <$> st.endAt stop := by
  unfold State.endAt
  cases Bytes.toBits (Bits.toBytesCeil stop) with
  | error fault => rfl
  | ok dataSize =>
    change (Quantity.sub dataSize stop >>= _) = _ <$> (Quantity.sub dataSize stop >>= _)
    cases Quantity.sub dataSize stop <;> rfl

/-- To take the bits of a bit-field does not depend on the alignment. -/
theorem occupyBits_withAlignment (st : State) (offset : Nat) :
    (st.withAlignment n).occupyBits f offset width typeSize =
      State.withAlignment n <$> st.occupyBits f offset width typeSize := by
  unfold State.occupyBits
  split
  · rfl
  · split
    · unfold State.takeFromUnit
      change (if (st.unfilledBits == 0) = true then _ else if st.unfilledBits < width then _ else _) = _
      split
      · cases Quantity.add offset typeSize <;> cases Quantity.sub typeSize width <;> rfl
      · split
        · change (Quantity.add st.dataSize typeSize >>= _) = _
          cases Quantity.add st.dataSize typeSize <;> cases Quantity.sub typeSize width <;> rfl
        · rfl
    · cases Quantity.add offset width with
      | error fault => rfl
      | ok stop =>
        change ((st.withAlignment n).endAt stop >>= _) = _ <$> (st.endAt stop >>= _)
        rw [endAt_withAlignment]
        cases st.endAt stop <;> rfl

variable (unsupplied : f.supplied = none)
include unsupplied

/-- Without a map a field goes where it would go first. -/
theorem chooseFieldOffset_unmapped (st : State) (unmapped : st.emptyMap = none) (type : Ty)
    (alignment start : Nat) :
    chooseFieldOffset f st index type alignment start = pure (st, start) :=
  chooseFieldOffset_unasked unsupplied (.inr unmapped) type alignment start

theorem Heavier.mirrors (h : Heavier a b) (known : Known) (r : RecordId) (packed unpacked : Nat) :
    Mirrors known False Heavier
      (liftM (a.raiseAlignment { f with record := r } packed unpacked) : LayoutM State)
      (liftM (b.raiseAlignment f packed unpacked)) :=
  .lift fun a' done => by
    obtain ⟨b', done', h'⟩ := h.raise unsupplied done
    rw [done']
    exact h'

variable (le : st.alignment ≤ n)
include le

theorem layField_withAlignment (unmapped : st.emptyMap = none) :
    Mirrors known False Heavier (layField { f with record := r } index field st)
      (layField f index field (st.withAlignment n)) := by
  have alone : f.supplied.isNone = true := by rw [unsupplied]; rfl
  unfold layField
  refine .bind_same fun unpadded _ => ?_
  dsimp only
  refine .bind_same ?_
  rintro ⟨size, natural⟩ _
  dsimp only
  refine .bind_same fun start _ => .bind_same fun unpackedStart _ => ?_
  rw [chooseFieldOffset_unmapped (f := { f with record := r }) unsupplied
      { st with unfilledBits := 0, storageUnit := 0 } unmapped,
    chooseFieldOffset_unmapped unsupplied
      { st.withAlignment n with unfilledBits := 0, storageUnit := 0 } unmapped, pure_bind, pure_bind]
  simp only [alone, if_true]
  refine .bind_same fun offset _ => .bind_same fun _ _ => .bind_same fun _ _ => ?_
  refine (reportPlacement_abreast _ _).bind fun _ _ _ _ _ => ?_
  have close (dataSize : Nat) : Heavier
      ((State.placeFieldAt { st with unfilledBits := 0, storageUnit := 0 } offset).setDataSize dataSize)
      ((State.placeFieldAt { st.withAlignment n with unfilledBits := 0, storageUnit := 0 }
        offset).setDataSize dataSize) := ⟨rfl, le⟩
  refine .ite (fun _ => .bind_same fun bits _ => (close _).mirrors unsupplied _ _ _ _) fun _ => ?_
  exact .bind_same fun stop _ => .bind_same fun bits _ => (close _).mirrors unsupplied _ _ _ _

theorem layWideBitField_withAlignment (isPacked : Bool) :
    Mirrors known False Heavier (layWideBitField { f with record := r } index field width isPacked st)
      (layWideBitField f index field width isPacked (st.withAlignment n)) := by
  unfold layWideBitField
  refine .bind_same fun alignment _ => ?_
  dsimp only
  -- What is left once the bits are taken.
  have close (mid : State) (le : mid.alignment ≤ n) (offset : Nat) (q q' : FieldPlacement)
      (alignment : Nat) : Mirrors known False Heavier
      (do
        reportPlacement { f with record := r } q
        ((mid.placeFieldAt offset).setDataSize (mid.placeFieldAt offset).dataSize).raiseAlignment
          { f with record := r } alignment alignment : LayoutM State)
      (do
        reportPlacement f q'
        (((mid.withAlignment n).placeFieldAt offset).setDataSize
          ((mid.withAlignment n).placeFieldAt offset).dataSize).raiseAlignment f alignment alignment) := by
    refine (reportPlacement_abreast q q').bind fun _ _ _ _ _ => ?_
    exact Heavier.mirrors unsupplied ⟨rfl, le⟩ _ _ _ _
  refine .ite (fun _ => ?_) fun _ => ?_
  · rw [pure_bind, pure_bind]
    exact close { st with unfilledBits := 0, storageUnit := 0, dataSize := max st.dataSize width } le
      0 _ _ _
  · refine .bind_same fun offset _ => .bind_same fun stop _ => ?_
    have ended : ({ st.withAlignment n with unfilledBits := 0, storageUnit := 0 } : State).endAt stop =
        State.withAlignment n <$> ({ st with unfilledBits := 0, storageUnit := 0 } : State).endAt stop :=
      endAt_withAlignment { st with unfilledBits := 0, storageUnit := 0 } stop
    rw [ended]
    refine (Mirrors.lift (R := fun mid mid' => mid' = mid.withAlignment n ∧ mid.alignment ≤ n)
      fun mid done => ?_).bind ?_
    · rw [done]
      have frame := (Ends.holds (endAt_ends stop) done).1
      refine ⟨rfl, ?_⟩
      rw [frame]
      exact le
    · rintro mid _ _ _ ⟨rfl, le⟩
      rw [pure_bind, pure_bind]
      exact close mid le offset _ _ _

theorem layNarrowBitField_withAlignment (typeAlignment : Nat) (isPacked : Bool) (unpadded : Nat) :
    Mirrors known False Heavier
      (layNarrowBitField { f with record := r } index field width typeSize typeAlignment isPacked
        unpadded st)
      (layNarrowBitField f index field width typeSize typeAlignment isPacked unpadded
        (st.withAlignment n)) := by
  have alone : f.supplied.isNone = true := by rw [unsupplied]; rfl
  have computed (d : RecordId) (st : State) (offset : Bits) :
      adoptFieldOffset { f with record := d } st index offset = (st, offset) := by
    simp [adoptFieldOffset, unsupplied]
  have storageUnit : (st.withAlignment n).storageUnit = st.storageUnit := rfl
  unfold layNarrowBitField
  dsimp only
  simp only [alone, computed, if_true, storageUnit]
  refine .bind_same fun alignment _ => ?_
  have rest (start start' : Nat) (report report' : Nat → Nat → LayoutM Unit) (packed unpacked : Nat)
      (both : ∀ a b, Mirrors known False (fun _ _ => True) (report a b) (report' a b)) :
      Mirrors known False Heavier
      (do
        let offset ← avoidCrossing f start alignment.actual width typeSize
        let unpackedOffset ← avoidCrossing f start' alignment.unpacked width typeSize
        report offset unpackedOffset
        let st ← (st.placeFieldAt offset).occupyBits f offset width typeSize
        (st.setDataSize st.dataSize).raiseAlignment { f with record := r } packed unpacked
          : LayoutM State)
      (do
        let offset ← avoidCrossing f start alignment.actual width typeSize
        let unpackedOffset ← avoidCrossing f start' alignment.unpacked width typeSize
        report' offset unpackedOffset
        let st ← ((st.withAlignment n).placeFieldAt offset).occupyBits f offset width typeSize
        (st.setDataSize st.dataSize).raiseAlignment f packed unpacked : LayoutM State) := by
    refine .bind_same fun offset _ => .bind_same fun unpackedOffset _ => ?_
    refine (both offset unpackedOffset).bind fun _ _ _ _ _ => ?_
    have occupied : ((st.withAlignment n).placeFieldAt offset).occupyBits f offset width typeSize =
        State.withAlignment n <$> (st.placeFieldAt offset).occupyBits f offset width typeSize :=
      occupyBits_withAlignment (st.placeFieldAt offset) offset
    rw [occupied]
    refine (Mirrors.lift (R := fun mid mid' => mid' = mid.withAlignment n ∧ mid.alignment ≤ n)
      fun mid done => ?_).bind ?_
    · rw [done]
      refine ⟨rfl, ?_⟩
      rw [Ends.holds (occupyBits_frame _ _ _) done]
      exact le
    · rintro mid _ _ _ ⟨rfl, le⟩
      exact Heavier.mirrors unsupplied ⟨rfl, le⟩ _ _ _ _
  by_cases opens : (f.isMsStruct && st.storageUnit == 0) = true
  · simp only [if_pos opens]
    refine .bind_same fun start _ => .bind_same fun start' _ => ?_
    exact rest _ _ _ _ _ _ fun _ _ => reportPlacement_abreast _ _
  · simp only [if_neg opens]
    exact rest _ _ _ _ _ _ fun _ _ => reportPlacement_abreast _ _

/-- A field does what it does whatever the alignment before it, except to raise that. -/
theorem layAnyField_withAlignment (unmapped : st.emptyMap = none) (entry : Field × Nat) :
    Mirrors known False Heavier (layAnyField { f with record := r } st entry)
      (layAnyField f (st.withAlignment n) entry) := by
  unfold layAnyField
  cases entry.1.bitWidth with
  | none => exact layField_withAlignment unsupplied le unmapped
  | some width =>
    unfold layBitField
    refine .bind_same fun layout _ => .bind_same fun typeSize _ => .bind_same fun natural _ => ?_
    dsimp only
    have left : (if f.isMsStruct = true then (st.withAlignment n).leaveUnit typeSize
        else st.withAlignment n) =
          (if f.isMsStruct = true then st.leaveUnit typeSize else st).withAlignment n := by
      unfold State.leaveUnit
      change (if f.isMsStruct = true then if st.storageUnit = typeSize then _ else _ else _) = _
      split
      · split <;> rfl
      · rfl
    rw [left]
    have le : (if f.isMsStruct = true then st.leaveUnit typeSize else st).alignment ≤ n := by
      split
      · rw [leaveUnit_frame.1]
        exact le
      · exact le
    generalize (if f.isMsStruct = true then st.leaveUnit typeSize else st) = st₀ at le ⊢
    refine .bind_same fun unpadded _ => .ite (fun _ => ?_) fun _ => ?_
    · exact layWideBitField_withAlignment unsupplied le _
    · exact layNarrowBitField_withAlignment unsupplied le _ _ _

omit le in
theorem Heavier.lays (h : Heavier a b) (unmapped : a.emptyMap = none) {entry : Field × Nat}
    (done : (layAnyField { f with record := r } a entry).eval known = .ok a') :
    ∃ b', (layAnyField f b entry).eval known = .ok b' ∧ Heavier a' b' := by
  have mirrors : Mirrors known False Heavier (layAnyField { f with record := r } a entry)
      (layAnyField f (a.withAlignment b.alignment) entry) :=
    layAnyField_withAlignment unsupplied h.le unmapped entry
  rw [State.withAlignment, ← h.frame] at mirrors
  obtain ⟨b', done', heavier, _⟩ := (mirrors a' done).exists_value
  exact ⟨b', done', heavier⟩

end Aligned

section Parted

/-- Two states after the same field at the same place, packed and as it is: the packed field asks for
no more alignment, and both would ask for the same without any packing. -/
structure Parted (f : Frame) (st p u : State) : Prop where
  asked : ∃ (mid : State) (packed plain unpacked : Nat), mid.alignment = st.alignment ∧
    mid.unpackedAlignment = st.unpackedAlignment ∧ packed ≤ plain ∧ plain ≤ unpacked ∧
    mid.raiseAlignment f packed unpacked = .ok p ∧ mid.raiseAlignment f plain unpacked = .ok u

/-- What is packed asks for no more, unless for the alignment 1 instead of none. -/
theorem max_packed_le (c c' : Prop) [Decidable c] [Decidable c'] (natural asked : Nat)
    (packs : c' → c) : max (if c then 1 else natural) asked ≤
      max (max (if c' then 1 else natural) asked) 1 := by
  by_cases packed : c
  · rw [if_pos packed]
    omega
  · rw [if_neg packed, if_neg (mt packs packed)]
    omega

theorem Frame.clamp_mono (f : Frame) {m n : Nat} (le : m ≤ n) : f.clamp m ≤ f.clamp n := by
  unfold clamp
  split
  · exact le
  · exact min_le_min_right _ le

theorem Frame.clamp_ne_zero {m : Nat} (positive : f.clamp m ≠ 0) : m ≠ 0 := by
  rintro rfl
  exact positive (Nat.le_zero.mp (f.clamp_le 0))

/-- A state after a field that is no bit-field and takes `size` bytes at `x`. -/
def State.withField (f : Frame) (x size : Nat) (st : State) : State :=
  State.setDataSize { st with
    unfilledBits := 0, storageUnit := 0, fieldOffsets := st.fieldOffsets ++ [8 * x] }
    (if f.isUnion then max st.dataSize (8 * size) else 8 * (x + size))

/-- Where no map is asked, a field goes to the first multiple of what it asks for. -/
structure FieldSettled (f : Frame) (known : Known) (field : Field) (size natural x : Nat)
    (st st' : State) : Prop where
  extent : (fieldExtent f field.type).eval known = .ok (size, natural)
  aligned : Quantity.alignTo (if f.isUnion then 0 else st.dataSizeInBytes)
    (f.fieldAlignment field natural) = .ok x
  some : f.clamp (max natural (field.alignment.getD 0)) ≠ 0
  raised : (st.withField f x size).raiseAlignment f (f.fieldAlignment field natural)
    (f.clamp (max natural (field.alignment.getD 0))) = .ok st'

theorem layField_settles (unsupplied : f.supplied = none)
    (unasked : f.isUnion = true ∨ st.emptyMap = none) :
    Ends (fun _ => True) ((layField f index field st).eval known) fun st' =>
      ∃ size natural x, FieldSettled f known field size natural x st st' := by
  refine layField_stages.imp ?_
  rintro st' ⟨size, natural, start, x, placed, stages⟩
  have unasked : f.isUnion = true ∨
      ({ st with unfilledBits := 0, storageUnit := 0 } : State).emptyMap = none := unasked
  have chosen := stages.chosen
  rw [chooseFieldOffset_unasked unsupplied unasked] at chosen
  cases chosen
  exact ⟨size, natural, start, stages.extent, stages.aligned, stages.unpacked, stages.raised⟩

/-- A bit-field wider than its type goes where it goes and asks for what it asks whether it is packed
or not. -/
theorem layWideBitField_parted {isPacked isPacked' : Bool}
    (done : (layWideBitField f.packed index field width isPacked st).eval known = .ok p)
    (done' : (layWideBitField f index field width isPacked' st).eval known = .ok u) :
    Parted f st p u := by
  obtain ⟨alignment, offset, taken, stages⟩ := layWideBitField_stages.holds done
  obtain ⟨alignment', offset', taken', stages'⟩ := layWideBitField_stages.holds done'
  cases stages.widest.symm.trans stages'.widest
  obtain ⟨rfl, rfl⟩ : offset = offset' ∧ taken = taken' := by
    cases union : f.isUnion with
    | true =>
      obtain ⟨start, same⟩ := stages.inUnion union
      obtain ⟨start', same'⟩ := stages'.inUnion union
      exact ⟨start.trans start'.symm, same.trans same'.symm⟩
    | false =>
      obtain ⟨aligned, ended⟩ := stages.sequential union
      obtain ⟨aligned', ended'⟩ := stages'.sequential union
      cases aligned.symm.trans aligned'
      cases ended.symm.trans ended'
      exact ⟨rfl, rfl⟩
  refine ⟨_, _, _, _, ?_, ?_, le_rfl, le_rfl, stages.raised, stages'.raised⟩
  · rw [stages.frame]
    rfl
  · rw [stages.frame]
    rfl

/-- Packing takes away from the alignment of a bit-field, and nothing from what it would be unpacked. -/
theorem bitAlignment_packed {isPacked isPacked' ignoresType : Bool} {typeAlignment : Nat}
    {alignment alignment' : BitAlignment} (packs : isPacked' = true → isPacked = true)
    (done : bitAlignment f field isPacked ignoresType width typeAlignment = .ok alignment)
    (done' : bitAlignment f field isPacked' ignoresType width typeAlignment = .ok alignment') :
    alignment.unpacked = alignment'.unpacked ∧ alignment.actual ≤ max alignment'.actual 1 ∧
      alignment'.actual ≤ max alignment'.unpacked 1 := by
  unfold bitAlignment at done done'
  obtain ⟨asked, inBits, done⟩ := except_bind_eq_ok.mp done
  obtain ⟨_, inBits', done'⟩ := except_bind_eq_ok.mp done'
  cases inBits.symm.trans inBits'
  have packed := max_packed_le ((isPacked || ignoresType) = true)
    ((isPacked' || ignoresType) = true) typeAlignment asked (by
      simp only [Bool.or_eq_true]
      exact Or.imp_left packs)
  have plain := max_packed_le ((isPacked' || ignoresType) = true)
    (ignoresType = true) typeAlignment asked (by simp +contextual)
  dsimp only at done done'
  generalize max (if isPacked || ignoresType then 1 else typeAlignment) asked = actual at *
  generalize max (if isPacked' || ignoresType then 1 else typeAlignment) asked = actual' at *
  generalize max (if ignoresType then 1 else typeAlignment) asked = unpacked at *
  by_cases unlimited : (decide (f.maxFieldAlignment = 0) || width == 0) = true
  · rw [if_pos unlimited] at done done'
    cases done
    cases done'
    exact ⟨rfl, packed, plain⟩
  · rw [if_neg unlimited] at done done'
    obtain ⟨most, inBits, done⟩ := except_bind_eq_ok.mp done
    obtain ⟨_, inBits', done'⟩ := except_bind_eq_ok.mp done'
    cases inBits.symm.trans inBits'
    cases done
    cases done'
    have least {m n : Nat} (le : m ≤ max n 1) : min m most ≤ max (min n most) 1 := by lia
    exact ⟨rfl, least packed, least plain⟩

/-- How a bit-field no wider than its type takes its bits and asks for its alignment. -/
structure NarrowSettled (f : Frame) (field : Field) (width typeSize typeAlignment : Nat)
    (isPacked : Bool) (offset : Nat) (st st' : State) : Prop where
  settled : ∃ (alignment : BitAlignment) (taken : State),
    bitAlignment f field isPacked
      (!f.target.bitFieldRules.typeAlignment && !isZeroLengthBoundary f width) width typeAlignment =
        .ok alignment ∧
    (st.placeFieldAt offset).occupyBits f offset width typeSize = .ok taken ∧
    (taken.setDataSize taken.dataSize).raiseAlignment f
      (max (Bits.toBytesFloor (f.bitsAsk field alignment).actual) 1)
      (max (Bits.toBytesFloor (f.bitsAsk field alignment).unpacked) 1) = .ok st'

theorem layNarrowBitField_settles (unsupplied : f.supplied = none) (typeAlignment unpadded : Nat)
    (isPacked : Bool) :
    Ends (fun _ => True) ((layNarrowBitField f index field width typeSize typeAlignment isPacked
      unpadded st).eval known) fun st' => ∃ offset,
        NarrowSettled f field width typeSize typeAlignment isPacked offset st st' := by
  refine layNarrowBitField_stages.imp ?_
  rintro st' ⟨alignment, start, computed, taken, stages⟩
  have occupied := stages.occupied
  simp only [adoptFieldOffset, unsupplied, Option.bind_none] at occupied
  exact ⟨computed, alignment, taken, stages.aligned, occupied, stages.raised⟩

variable (unsupplied : f.supplied = none)
include unsupplied

omit unsupplied in
theorem Frame.fieldAlignment_packed_le (f : Frame) {natural : Nat}
    (some : f.fieldAlignment field natural ≠ 0) :
    f.packed.fieldAlignment field natural ≤ f.fieldAlignment field natural := by
  have positive := f.clamp_ne_zero some
  have lower := max_packed_le True ((f.isPacked || field.isPacked) = true) natural
    (field.alignment.getD 0) fun _ => trivial
  exact f.clamp_mono (by
    simp only [Frame.packed, Bool.true_or, if_true] at lower ⊢
    omega)

theorem FieldSettled.fieldOffsets {size natural x : Nat}
    (h : FieldSettled f known field size natural x st st') :
    st'.fieldOffsets = st.fieldOffsets ++ [8 * x] :=
  congrArg State.fieldOffsets ((raiseAlignment_ok unsupplied).mp h.raised).2

/-- A field that is no bit-field is not moved by packing just if it lies at a multiple of what it asks
for without. -/
theorem FieldSettled.alike_iff {size natural x x' : Nat}
    (packed : FieldSettled f.packed known field size natural x st p)
    (plain : FieldSettled f known field size natural x' st u) :
    p.fieldOffsets = u.fieldOffsets ↔ f.fieldAlignment field natural ∣ x := by
  obtain ⟨some, rounded, _⟩ := Quantity.alignTo_eq_ok_iff.mp packed.aligned
  obtain ⟨some', rounded', _⟩ := Quantity.alignTo_eq_ok_iff.mp plain.aligned
  have same : p.fieldOffsets = u.fieldOffsets ↔ x = x' := by
    rw [packed.fieldOffsets (f := f.packed) unsupplied, plain.fieldOffsets unsupplied,
      List.append_cancel_left_eq, List.cons.injEq, and_iff_left rfl]
    omega
  rw [same, rounded, rounded']
  exact Quantity.roundUp_eq_iff (Nat.pos_of_ne_zero some) (f.fieldAlignment_packed_le some')

theorem layField_parted (unmapped : st.emptyMap = none)
    (done : (layField f.packed index field st).eval known = .ok p)
    (done' : (layField f index field st).eval known = .ok u) (same : p.fieldOffsets = u.fieldOffsets) :
    Parted f st p u := by
  obtain ⟨size, natural, x, packed⟩ :=
    (layField_settles (f := f.packed) unsupplied (.inr unmapped)).holds done
  obtain ⟨size', natural', x', plain⟩ := (layField_settles unsupplied (.inr unmapped)).holds done'
  cases packed.extent.symm.trans plain.extent
  obtain rfl : x = x' := by
    rw [packed.fieldOffsets (f := f.packed) unsupplied, plain.fieldOffsets unsupplied,
      List.append_cancel_left_eq] at same
    have : 8 * x = 8 * x' := (List.cons.inj same).1
    omega
  have positive := f.clamp_ne_zero plain.some
  have lower := max_packed_le ((f.isPacked || field.isPacked) = true) False natural
    (field.alignment.getD 0) False.elim
  refine ⟨st.withField f x size, _, _, _, rfl, rfl,
    f.fieldAlignment_packed_le (Quantity.alignTo_eq_ok_iff.mp plain.aligned).1,
    f.clamp_mono ?_, packed.raised, plain.raised⟩
  rw [if_neg id] at lower
  omega

theorem layNarrowBitField_parted {typeAlignment unpadded : Nat} {isPacked : Bool}
    (done : (layNarrowBitField f.packed index field width typeSize typeAlignment true unpadded
      st).eval known = .ok p)
    (done' : (layNarrowBitField f index field width typeSize typeAlignment isPacked unpadded
      st).eval known = .ok u) (same : p.fieldOffsets = u.fieldOffsets) : Parted f st p u := by
  obtain ⟨offset, alignment, taken, aligned, occupied, raised⟩ :=
    (layNarrowBitField_settles (f := f.packed) unsupplied _ _ _).holds done
  obtain ⟨offset', alignment', taken', aligned', occupied', raised'⟩ :=
    (layNarrowBitField_settles unsupplied _ _ _).holds done'
  have frame := Ends.holds (occupyBits_frame _ _ _) occupied
  have frame' := Ends.holds (occupyBits_frame _ _ _) occupied'
  obtain rfl : offset = offset' := by
    have last := congrArg State.fieldOffsets ((raiseAlignment_ok unsupplied).mp raised).2
    have last' := congrArg State.fieldOffsets ((raiseAlignment_ok unsupplied).mp raised').2
    rw [last, last'] at same
    change taken.fieldOffsets = taken'.fieldOffsets at same
    rw [frame, frame'] at same
    exact (List.cons.inj (List.append_cancel_left same)).1
  cases occupied.symm.trans occupied'
  obtain ⟨unpacked, lower, lower'⟩ := bitAlignment_packed (fun _ => rfl) aligned aligned'
  have asks : (f.bitsAsk field alignment).unpacked = (f.bitsAsk field alignment').unpacked ∧
      (f.bitsAsk field alignment).actual ≤ max (f.bitsAsk field alignment').actual 1 ∧
        (f.bitsAsk field alignment').actual ≤ max (f.bitsAsk field alignment').unpacked 1 := by
    unfold Frame.bitsAsk
    split
    · exact ⟨rfl, by decide, by decide⟩
    · exact ⟨unpacked, lower, lower'⟩
  have bytes {m n : Nat} (le : m ≤ max n 1) :
      max (Bits.toBytesFloor m) 1 ≤ max (Bits.toBytesFloor n) 1 := by
    change max (m / 8) 1 ≤ max (n / 8) 1
    omega
  have raised : (taken.setDataSize taken.dataSize).raiseAlignment f
      (max (Bits.toBytesFloor (f.bitsAsk field alignment).actual) 1)
      (max (Bits.toBytesFloor (f.bitsAsk field alignment).unpacked) 1) = .ok p := raised
  rw [asks.1] at raised
  refine ⟨taken.setDataSize taken.dataSize, _, _, _, ?_, ?_, bytes asks.2.1, bytes asks.2.2, raised,
    raised'⟩
  · rw [frame]
    rfl
  · rw [frame]
    rfl

theorem layAnyField_parted (unmapped : st.emptyMap = none) {entry : Field × Nat}
    (done : (layAnyField f.packed st entry).eval known = .ok p)
    (done' : (layAnyField f st entry).eval known = .ok u) (same : p.fieldOffsets = u.fieldOffsets) :
    Parted f st p u := by
  unfold layAnyField at done done'
  cases isBitField : entry.1.bitWidth with
  | none =>
    simp only [isBitField] at done done'
    exact layField_parted unsupplied unmapped done done' same
  | some width =>
    simp only [isBitField] at done done'
    obtain ⟨type, typed, _, entered⟩ := layBitField_enters.holds done
    obtain ⟨_, typed', _, entered'⟩ := layBitField_enters.holds done'
    cases typed.symm.trans typed'
    have parted : Parted f (st.entering f type) p u := by
      rcases entered with ⟨wide, done⟩ | ⟨narrow, done⟩
      · have done' := (entered'.resolve_right fun other => absurd other.1 (Nat.not_le_of_lt wide)).2
        exact layWideBitField_parted done done'
      · have done' := (entered'.resolve_left fun other => absurd other.1 (Nat.not_lt_of_le narrow)).2
        exact layNarrowBitField_parted unsupplied done done' same
    obtain ⟨mid, packed, plain, unpacked, alignment, unpackedAlignment, rest⟩ := parted.asked
    refine ⟨mid, packed, plain, unpacked, ?_, ?_, rest⟩
    · rw [alignment, entering_frame.1]
    · rw [unpackedAlignment, entering_frame.1]

theorem Parted.heavier (h : Parted f st p u) : Heavier p u := by
  obtain ⟨mid, packed, plain, unpacked, _, _, le, _, raised, raised'⟩ := h.asked
  obtain ⟨_, rfl⟩ := (raiseAlignment_ok unsupplied).mp raised
  obtain ⟨_, rfl⟩ := (raiseAlignment_ok unsupplied).mp raised'
  exact ⟨rfl, f.raised_mono le⟩

/-- A state whose alignment is no more than it would be without any packing. Under `mac68k` neither
counts. -/
structure State.Balanced (f : Frame) (st : State) : Prop where
  le : f.isMac68k = false → st.alignment ≤ st.unpackedAlignment
  power : Quantity.isPowerOfTwo st.unpackedAlignment = true
  settled : f.isMac68k = true → st.unpackedAlignment = 1

theorem Parted.balanced (h : Parted f st p u) (balanced : st.Balanced f) : u.Balanced f := by
  obtain ⟨mid, packed, plain, unpacked, same, same', _, le, _, raised⟩ := h.asked
  obtain ⟨checks, rfl⟩ := (raiseAlignment_ok unsupplied).mp raised
  obtain ⟨limit, power, settled⟩ := balanced
  rw [← same, ← same'] at limit
  rw [← same'] at power settled
  cases mac68k : f.isMac68k with
  | true =>
    have still (n : Nat) : f.raised mid.unpackedAlignment n = mid.unpackedAlignment := by
      rw [Frame.raised, if_pos mac68k]
    exact ⟨fun free => absurd (mac68k.symm.trans free) nofun, (still unpacked).symm ▸ power,
      fun _ => (still unpacked).trans (settled mac68k)⟩
  | false =>
    have raised (m n : Nat) : f.raised m n = max m n := by
      rw [Frame.raised, if_neg (mac68k ▸ Bool.false_ne_true)]
    refine ⟨fun _ => ?_, ?_, fun settled => absurd (mac68k.symm.trans settled) nofun⟩
    · simp only [raised]
      exact max_le_max (limit mac68k) le
    · simp only [raised]
      rcases Nat.lt_or_ge mid.unpackedAlignment unpacked with less | enough
      · rw [Nat.max_eq_right less.le]
        exact (checks mac68k).2 less
      · rwa [Nat.max_eq_left enough]

end Parted

section Run

variable (unsupplied : f.supplied = none)
include unsupplied

/-- A field adds its own offset, and no map. -/
theorem layAnyField_adds {entry : Field × Nat} (unmapped : st.emptyMap = none)
    (done : (layAnyField f st entry).eval known = .ok st') :
    st'.emptyMap = none ∧ ∃ offset, st'.fieldOffsets = st.fieldOffsets ++ [offset] := by
  obtain ⟨offset, laid⟩ := (layAnyField_ends unsupplied).holds done
  exact ⟨laid.unmapped unmapped, offset, laid.listed⟩

theorem layAnyFields_add (unmapped : st.emptyMap = none)
    (done : (entries.foldlM (layAnyField f) st).eval known = .ok st') :
    ∃ offsets, offsets.length = entries.length ∧ st'.fieldOffsets = st.fieldOffsets ++ offsets := by
  induction entries generalizing st with
  | nil =>
    cases done
    exact ⟨[], rfl, (List.append_nil _).symm⟩
  | cons entry rest ih =>
    rw [List.foldlM_cons] at done
    obtain ⟨mid, first, others⟩ := eval_bind_eq_ok.mp done
    obtain ⟨unmapped', offset, more⟩ := layAnyField_adds unsupplied unmapped first
    obtain ⟨offsets, count, added⟩ := ih unmapped' others
    refine ⟨offset :: offsets, congrArg Nat.succ count, ?_⟩
    rw [added, more, List.append_assoc]
    rfl

section Both

variable {entry : Field × Nat}

/-- One field in a packed run and in one that is not, which have differed in nothing but the alignment
so far. The field of the second run, packed, goes where it goes in the first one. -/
structure BothLay (f : Frame) (known : Known) (entry : Field × Nat) (a b a₁ b₁ p : State) : Prop where
  packed : (layAnyField f.packed b entry).eval known = .ok p
  plain : (layAnyField f b entry).eval known = .ok b₁
  heavier : Heavier a₁ p
  unmapped : a₁.emptyMap = none
  offset : ∃ x, a₁.fieldOffsets = a.fieldOffsets ++ [x]
  offset' : ∃ x, b₁.fieldOffsets = b.fieldOffsets ++ [x]
  alike : p.fieldOffsets = b₁.fieldOffsets → Heavier a₁ b₁ ∧ (b.Balanced f → b₁.Balanced f)

theorem Heavier.both (h : Heavier a b) (unmapped : a.emptyMap = none) {a₁ b₁ : State}
    (done : (layAnyField { f.packed with record := r } a entry).eval known = .ok a₁)
    (done' : (layAnyField f b entry).eval known = .ok b₁) : ∃ p, BothLay f known entry a b a₁ b₁ p := by
  have unmapped' : b.emptyMap = none := by rw [h.frame]; exact unmapped
  obtain ⟨unmapped₁, offset⟩ :=
    layAnyField_adds (f := { f.packed with record := r }) unsupplied unmapped done
  obtain ⟨_, offset'⟩ := layAnyField_adds unsupplied unmapped' done'
  obtain ⟨p, packed, heavier⟩ := h.lays (f := f.packed) unsupplied unmapped done
  refine ⟨p, packed, done', heavier, unmapped₁, offset, offset', fun same => ?_⟩
  have parted := layAnyField_parted unsupplied unmapped' packed done' same
  exact ⟨heavier.trans (parted.heavier unsupplied), parted.balanced unsupplied⟩

omit unsupplied in
/-- The rest of the list is about the state that the field leads to. -/
theorem BothLay.packsIdly_iff {a₁ b₁ p : State} (h : BothLay f known entry a b a₁ b₁ p)
    (rest : List (Field × Nat)) : f.PacksIdly known (entry :: rest) b ↔
      p.fieldOffsets = b₁.fieldOffsets ∧ f.PacksIdly known rest b₁ := by
  constructor
  · intro idle
    obtain ⟨same, idle⟩ := idle b₁ h.plain
    exact ⟨same p h.packed, idle⟩
  · rintro ⟨same, idle⟩ u done
    cases h.plain.symm.trans done
    refine ⟨fun p' done => ?_, idle⟩
    cases h.packed.symm.trans done
    exact same

end Both

/-- The run of a record with the attribute `packed` and that without it place all fields alike just if
each field on its own is placed alike; then they differ in nothing but the alignment. -/
theorem layAnyFields_packed (h : Heavier a b) (unmapped : a.emptyMap = none)
    (done : (entries.foldlM (layAnyField { f.packed with record := r }) a).eval known = .ok a')
    (done' : (entries.foldlM (layAnyField f) b).eval known = .ok b') :
    (b'.fieldOffsets = a'.fieldOffsets ↔ f.PacksIdly known entries b) ∧
      (b'.fieldOffsets = a'.fieldOffsets → Heavier a' b' ∧ (b.Balanced f → b'.Balanced f)) := by
  induction entries generalizing a b with
  | nil =>
    cases done
    cases done'
    exact ⟨iff_of_true h.fieldOffsets trivial, fun _ => ⟨h, id⟩⟩
  | cons entry rest ih =>
    rw [List.foldlM_cons] at done done'
    obtain ⟨a₁, first, others⟩ := eval_bind_eq_ok.mp done
    obtain ⟨b₁, first', others'⟩ := eval_bind_eq_ok.mp done'
    obtain ⟨p, both⟩ := h.both unsupplied unmapped first first'
    obtain ⟨offsets, count, added⟩ :=
      layAnyFields_add (f := { f.packed with record := r }) unsupplied both.unmapped others
    have unmapped' : b.emptyMap = none := by rw [h.frame]; exact unmapped
    obtain ⟨offsets', count', added'⟩ :=
      layAnyFields_add unsupplied (layAnyField_adds unsupplied unmapped' first').1 others'
    have first_same (same : b'.fieldOffsets = a'.fieldOffsets) : p.fieldOffsets = b₁.fieldOffsets := by
      rw [added, added'] at same
      rw [both.heavier.fieldOffsets]
      exact (List.append_inj_left' same (by rw [count, count'])).symm
    have further (same : p.fieldOffsets = b₁.fieldOffsets) :=
      ih (both.alike same).1 both.unmapped others others'
    refine ⟨?_, fun same => ?_⟩
    · rw [both.packsIdly_iff rest]
      constructor
      · intro same
        exact ⟨first_same same, (further (first_same same)).1.mp same⟩
      · rintro ⟨same, idle⟩
        exact (further same).1.mpr idle
    · obtain ⟨heavier, balanced⟩ := (further (first_same same)).2 same
      exact ⟨heavier, balanced ∘ (both.alike (first_same same)).2⟩

/-- Where there are no bit-fields, packing is idle just if the packed run puts every field at a multiple
of the alignment that it asks for without. -/
theorem packsIdly_iff_aligned (h : Heavier a b) (unmapped : a.emptyMap = none)
    (stored : ∀ entry ∈ entries, entry.1.bitWidth = none)
    (done : (entries.foldlM (layAnyField { f.packed with record := r }) a).eval known = .ok a')
    (done' : (entries.foldlM (layAnyField f) b).eval known = .ok b') :
    f.PacksIdly known entries b ↔ ∀ k entry offset size natural, entries[k]? = some entry →
      a'.fieldOffsets[a.fieldOffsets.length + k]? = some offset →
      (fieldExtent f entry.1.type).eval known = .ok (size, natural) →
        8 * f.fieldAlignment entry.1 natural ∣ offset := by
  induction entries generalizing a b with
  | nil =>
    refine iff_of_true trivial ?_
    rintro k _ _ _ _ ⟨⟩
  | cons entry rest ih =>
    rw [List.foldlM_cons] at done done'
    obtain ⟨a₁, first, others⟩ := eval_bind_eq_ok.mp done
    obtain ⟨b₁, first', others'⟩ := eval_bind_eq_ok.mp done'
    obtain ⟨p, both⟩ := h.both unsupplied unmapped first first'
    have unmapped' : b.emptyMap = none := by rw [h.frame]; exact unmapped
    obtain ⟨x, offset⟩ := both.offset
    obtain ⟨offsets, count, added⟩ :=
      layAnyFields_add (f := { f.packed with record := r }) unsupplied both.unmapped others
    have plain := both.plain
    have packed := both.packed
    have isStored := stored entry List.mem_cons_self
    simp only [layAnyField, isStored] at plain packed
    obtain ⟨size, natural, y, settled⟩ :=
      (layField_settles (f := f.packed) unsupplied (.inr unmapped')).holds packed
    obtain ⟨size', natural', y', settled'⟩ := (layField_settles unsupplied (.inr unmapped')).holds plain
    cases settled.extent.symm.trans settled'.extent
    have here : x = 8 * y := by
      have same := both.heavier.fieldOffsets
      rw [settled.fieldOffsets (f := f.packed) unsupplied, offset, h.fieldOffsets] at same
      exact ((List.cons.inj (List.append_cancel_left same)).1).symm
    have alike := settled.alike_iff unsupplied settled'
    have placed : a'.fieldOffsets[a.fieldOffsets.length]? = some (8 * y) := by
      rw [added, offset, here, List.append_assoc]
      simp
    have later (k : Nat) : a'.fieldOffsets[a.fieldOffsets.length + (k + 1)]? =
        a'.fieldOffsets[a₁.fieldOffsets.length + k]? := by
      rw [offset, List.length_append, List.length_singleton]
      congr 1
      omega
    have further (whole : f.fieldAlignment entry.1 natural ∣ y) :=
      ih (both.alike (alike.mpr whole)).1 both.unmapped
        (fun entry member => stored entry (.tail _ member)) others others'
    rw [both.packsIdly_iff rest, alike]
    constructor
    · rintro ⟨whole, idle⟩ (_ | k) entry' z size' natural' found at' extent
      · cases found
        cases placed.symm.trans at'
        cases settled.extent.symm.trans extent
        exact Nat.mul_dvd_mul_left 8 whole
      · rw [later] at at'
        exact (further whole).mp idle k entry' z size' natural' found at' extent
    · intro all
      have whole : f.fieldAlignment entry.1 natural ∣ y :=
        Nat.dvd_of_mul_dvd_mul_left (by decide) (all 0 entry _ size natural rfl placed settled.extent)
      refine ⟨whole, (further whole).mpr fun k entry' z size' natural' found at' extent => ?_⟩
      exact all (k + 1) entry' z size' natural' found (by rwa [later]) extent

end Run
end ObjectLayout.Itanium
