import ObjectLayout.Proofs.Itanium.Stages
import ObjectLayout.Proofs.Itanium.Virtual

/-! Fields. A field that is no bit-field starts at a whole byte past the data; a bit-field may start
inside the last byte, at the first bit that is not used. What is used never shrinks, although the data
may where `ms_struct` had reserved a unit for it. -/
namespace ObjectLayout

namespace Itanium

open LayoutM (ends_bind ends_lift_bind)

variable {f : Frame} {known : Known} {g : SubobjectGraph}
variable {st st' : State} {pieces : List Piece} {front : Nat} {index : Nat} {field : Field}
variable {offset width typeSize : Nat}

/-- A bit-field may take its bits from a unit that others of its size have opened. -/
def Frame.SharesUnit (f : Frame) (known : Known) (field : Field) : Prop :=
  f.isMsStruct = true ∧ ∃ width type, field.bitWidth = some width ∧ width ≠ 0 ∧
    known.type field.type = .ok type ∧ width ≤ 8 * type.width

theorem Frame.IsSequential.not_sharesUnit (sequential : f.IsSequential) :
    ¬ f.SharesUnit known field := by
  rintro ⟨ms, _⟩
  rw [sequential.2] at ms
  cases ms

/-- A state after one more field, which lies at `offset`. -/
structure FieldLaid (f : Frame) (known : Known) (field : Field) (offset : Nat) (st st' : State) :
    Prop where
  rest : st'.rest = { st with
    fieldOffsets := st.fieldOffsets ++ [offset], unfilledBits := st'.unfilledBits }.rest
  tables : st'.graph = st.graph ∧ st'.baseOffsets = st.baseOffsets ∧
    st'.virtualBaseSlots = st.virtualBaseSlots
  power : Quantity.isPowerOfTwo st.alignment = true → Quantity.isPowerOfTwo st'.alignment = true
  size : st'.size = max st.size st'.dataSize
  /-- The data ends with the byte in which the last bit is taken. -/
  whole : f.isUnion = false → ¬ f.SharesUnit known field →
    st'.dataSize = 8 * Bits.toBytesCeil st'.used
  remaining : f.isUnion = false → st.unfilledBits ≤ st.dataSize → st'.unfilledBits ≤ st'.dataSize
  used_le : f.isUnion = false → st.unfilledBits ≤ st.dataSize → st.used ≤ st'.used
  apart : f.isUnion = false → ¬ f.SharesUnit known field → st.unfilledBits ≤ st.dataSize →
    st.used ≤ offset ∧ st'.used = offset + f.setting.bits known field ∧ st'.storageUnit = 0
  stored : field.bitWidth = none → ∃ width, f.setting.width known field.type = .ok width ∧
    8 ∣ offset ∧ offset + 8 * width ≤ st'.size ∧
      (f.isUnion = false → st.used ≤ offset ∧ offset + 8 * width ≤ st'.used)
  skipped : f.isUnion = true ∨ field.bitWidth.isSome → st'.emptyMap = st.emptyMap
  placed : f.isUnion = false → field.bitWidth = none →
    (st.emptyMap = none → st'.emptyMap = none) ∧ ∀ map, st.emptyMap = some map →
      ∃ map', st'.emptyMap = some map' ∧
        (map.placeField? f.setting field.type (offset / 8)).eval known = .ok (some map')

theorem FieldLaid.listed (h : FieldLaid f known field offset st st') :
    st'.fieldOffsets = st.fieldOffsets ++ [offset] := (SameRest.of_eq h.rest).fieldOffsets

theorem FieldLaid.grows (h : FieldLaid f known field offset st st') : st.size ≤ st'.size :=
  h.size ▸ Nat.le_max_left _ _

theorem FieldLaid.sized (h : FieldLaid f known field offset st st') : st'.dataSize ≤ st'.size :=
  h.size ▸ Nat.le_max_right _ _

/-- A state without a map gets none. -/
theorem FieldLaid.unmapped (h : FieldLaid f known field offset st st') (none : st.emptyMap = none) :
    st'.emptyMap = .none := by
  by_cases skip : f.isUnion = true ∨ field.bitWidth.isSome
  · rw [h.skipped skip, none]
  · simp only [not_or, Bool.not_eq_true, Option.isSome_eq_false_iff, Option.isNone_iff_eq_none]
      at skip
    exact (h.placed skip.1 skip.2).1 none

@[simp] theorem eval_reportPlacement (p : FieldPlacement) :
    (reportPlacement f p).eval known = .ok () := by
  unfold reportPlacement
  split <;> split <;> rfl

/-- Where no map is asked, as in a union, the first place is always free. -/
theorem chooseFieldOffset_unasked (unsupplied : f.supplied = none)
    (unasked : f.isUnion = true ∨ st.emptyMap = none) (type : Ty) (alignment start : Nat) :
    chooseFieldOffset f st index type alignment start = pure (st, start) := by
  have placed (y : Nat) : st.placeField? f type y = pure (some st) := by
    unfold State.placeField?
    rcases unasked with union | none
    · rw [union]
      rfl
    · rw [none, ite_self]
  unfold chooseFieldOffset
  simp only [unsupplied, Option.isNone_none, if_true, attemptsFrom]
  unfold probe
  rw [placed]
  rfl

theorem chooseFieldOffset_ends (unsupplied : f.supplied = none) {type : Ty} {alignment start : Nat} :
    Ends (fun _ => True) ((chooseFieldOffset f st index type alignment start).eval known)
      fun found => start ≤ found.2 ∧ (f.isUnion = true → found = (st, start)) ∧
        (f.isUnion = false → Mapped known (·.placeField? f.setting type found.2) st found.1) := by
  refine Ends.any.imp fun found done => ?_
  by_cases union : f.isUnion = true
  · rw [chooseFieldOffset_unasked unsupplied (.inl union)] at done
    cases done
    exact ⟨le_rfl, fun _ => rfl, fun notUnion => by simp [union] at notUnion⟩
  unfold chooseFieldOffset at done
  rw [unsupplied] at done
  obtain ⟨placed, later⟩ := probe_ok _ done
  refine ⟨later, fun yes => absurd yes union, fun notUnion => ?_⟩
  unfold State.placeField? at placed
  rw [notUnion] at placed
  exact (placeIn_ends (fun _ _ => Ends.any.imp fun _ _ => trivial)).value placed

/-- A field ends the data. It lies past all that was there before, unless in a union, where it lies at the
start. -/
theorem FieldStages.fits {size natural start x : Bytes} {st₁ : State}
    (h : FieldStages f known index field size natural start x st₁ st st') (later : start ≤ x)
    (inUnion : f.isUnion = true → x = start) :
    8 * x + 8 * size ≤ f.dataEnd st₁.dataSize x size ∧ (f.isUnion = false →
      st.dataSize ≤ 8 * x ∧ f.dataEnd st₁.dataSize x size = 8 * x + 8 * size) := by
  obtain ⟨some, rounded, _⟩ := Quantity.alignTo_eq_ok_iff.mp h.aligned
  have positive := Nat.pos_of_ne_zero some
  unfold Frame.dataEnd
  cases union : f.isUnion with
  | true =>
    rw [union, if_pos rfl, Quantity.roundUp_zero positive] at rounded
    rw [inUnion union, rounded, if_pos rfl, Nat.mul_zero, Nat.zero_add]
    exact ⟨Nat.le_max_right _ _, nofun⟩
  | false =>
    have fits := Quantity.le_roundUp (a := st.dataSizeInBytes) positive
    rw [union, if_neg Bool.false_ne_true] at rounded
    rw [← rounded] at fits
    have ceil := le_toBytesCeil st.dataSize
    change Bits.toBytesCeil st.dataSize ≤ start at fits
    rw [if_neg Bool.false_ne_true, Nat.mul_add]
    exact ⟨le_rfl, fun _ => ⟨by lia, rfl⟩⟩

/-- A field that is no bit-field. -/
theorem layField_ends (unsupplied : f.supplied = none) (stored : field.bitWidth = none) :
    Ends (fun _ => True) ((layField f index field st).eval known) fun st' =>
      ∃ offset, FieldLaid f known field offset st st' := by
  refine layField_stages.imp ?_
  rintro st' ⟨size, natural, start, x, st₁, stages⟩
  have wide := fieldExtent_width stages.extent
  dsimp only at wide
  have aligned := Ends.holds (raiseAlignment_ends (.inr trivial) (.inr trivial)) stages.raised
  obtain ⟨later, inUnion, mapped⟩ := (chooseFieldOffset_ends unsupplied).value stages.chosen
  obtain ⟨inside, apart⟩ := stages.fits later fun union => (Prod.mk.inj (inUnion union)).2
  generalize f.dataEnd st₁.dataSize x size = dataSize at aligned inside apart
  refine ⟨8 * x, ?_⟩
  have frame : st₁ = { st with unfilledBits := 0, storageUnit := 0, emptyMap := st₁.emptyMap } := by
    cases union : f.isUnion with
    | true => rw [(Prod.mk.inj (inUnion union)).1]
    | false => exact (mapped union).frame
  have alignment₁ : st₁.alignment = st.alignment := by rw [frame]
  have size' : st'.size = max st.size dataSize := by
    rw [aligned.frame]
    change max st₁.size dataSize = _
    rw [frame]
  have dataSize' : st'.dataSize = dataSize := by rw [aligned.frame]; rfl
  have unfilled' : st'.unfilledBits = 0 := by rw [aligned.frame, frame]; rfl
  have emptyMap' : st'.emptyMap = st₁.emptyMap := by rw [aligned.frame]; rfl
  have used' : st'.used = dataSize := by rw [State.used, dataSize', unfilled', Nat.sub_zero]
  have used_le : st.used ≤ st.dataSize := Nat.sub_le _ _
  have bits : f.setting.bits known field = 8 * size := by
    rw [Setting.bits, stored, wide]
    rfl
  constructor
  case rest => rw [aligned.frame, frame]; rfl
  case tables => rw [aligned.frame, frame]; exact ⟨rfl, rfl, rfl⟩
  case power =>
    intro before
    exact aligned.power (by rw [← alignment₁] at before; exact before)
  case size => rw [size', dataSize']
  case whole =>
    intro notUnion _
    rw [used', dataSize', (apart notUnion).2, ← Nat.mul_add, toBytesCeil_bits]
  case remaining => intro _ _; rw [unfilled']; exact Nat.zero_le _
  case used_le =>
    intro notUnion _
    have := apart notUnion
    lia
  case apart =>
    intro notUnion _ _
    have := apart notUnion
    rw [bits, used']
    exact ⟨by lia, this.2, by rw [aligned.frame, frame]; rfl⟩
  case stored =>
    intro _
    refine ⟨size, wide, Nat.dvd_mul_right 8 x, by rw [size']; exact inside.trans (Nat.le_max_right _ _),
      fun notUnion => ?_⟩
    have := apart notUnion
    lia
  case skipped =>
    intro skip
    rw [emptyMap']
    have union : f.isUnion = true := skip.resolve_right (by simp [stored])
    rw [(Prod.mk.inj (inUnion union)).1]
  case placed =>
    intro notUnion _
    rw [emptyMap', Nat.mul_div_cancel_left x (by decide : 0 < 8)]
    exact ⟨(mapped notUnion).unmapped, (mapped notUnion).mapped⟩

section BitFields

variable {st₁ : State} {shares : Prop}

/-- A state in which the bits of a bit-field at `offset` are taken, past all others unless it shares
a unit with them. -/
structure BitsTaken (f : Frame) (shares : Prop) (width offset : Nat) (st st₁ : State) : Prop where
  frame : st₁ = { st with
    dataSize := st₁.dataSize, unfilledBits := st₁.unfilledBits, storageUnit := st₁.storageUnit
    fieldOffsets := st.fieldOffsets ++ [offset] }
  remaining : f.isUnion = false → st.unfilledBits ≤ st.dataSize → st₁.unfilledBits ≤ st₁.dataSize
  whole : f.isUnion = false → ¬ shares → st₁.dataSize = 8 * Bits.toBytesCeil st₁.used
  used_le : f.isUnion = false → st.unfilledBits ≤ st.dataSize → st.used ≤ st₁.used
  apart : f.isUnion = false → ¬ shares → st.unfilledBits ≤ st.dataSize →
    st.used ≤ offset ∧ st₁.used = offset + width ∧ st₁.storageUnit = 0

theorem BitsTaken.close (taken : BitsTaken f shares width offset st st₁)
    (isBitField : field.bitWidth = some width) (sharing : shares → f.SharesUnit known field)
    (packed unpacked : Nat) :
    Ends (fun _ => True) ((st₁.setDataSize st₁.dataSize).raiseAlignment f packed unpacked)
      (FieldLaid f known field offset st) := by
  refine (raiseAlignment_ends (.inr trivial) (.inr trivial)).imp fun st' aligned => ?_
  have frame := taken.frame
  have dataSize' : st'.dataSize = st₁.dataSize := by rw [aligned.frame]; rfl
  have unfilled' : st'.unfilledBits = st₁.unfilledBits := by rw [aligned.frame]; rfl
  have used' : st'.used = st₁.used := by rw [State.used, dataSize', unfilled', State.used]
  have size' : st'.size = max st.size st₁.dataSize := by
    rw [aligned.frame]
    change max st₁.size st₁.dataSize = _
    rw [show st₁.size = st.size by rw [frame]]
  constructor
  case rest => rw [aligned.frame]; change (st₁.setDataSize st₁.dataSize).rest = _; rw [frame]; rfl
  case tables =>
    rw [aligned.frame]
    change st₁.graph = _ ∧ st₁.baseOffsets = _ ∧ st₁.virtualBaseSlots = _
    rw [frame]
    exact ⟨rfl, rfl, rfl⟩
  case power =>
    intro before
    have alignment : st₁.alignment = st.alignment := by rw [frame]
    exact aligned.power (alignment ▸ before)
  case size => rw [size', dataSize']
  case whole =>
    intro notUnion alone
    rw [dataSize', used']
    exact taken.whole notUnion fun shares => alone (sharing shares)
  case remaining => rw [unfilled', dataSize']; exact taken.remaining
  case used_le => rw [used']; exact taken.used_le
  case apart =>
    intro notUnion alone remaining
    have unit' : st'.storageUnit = st₁.storageUnit := by rw [aligned.frame]; rfl
    rw [used', unit', Setting.bits, isBitField]
    exact taken.apart notUnion (fun shares => alone (sharing shares)) remaining
  case stored => simp [isBitField]
  case skipped =>
    intro _
    rw [aligned.frame]
    change st₁.emptyMap = _
    rw [frame]
  case placed => simp [isBitField]

/-- Taking bits moves the end of what is used past them, except that under `ms_struct` it may only
move past as many bits as there are. -/
structure Occupies (f : Frame) (offset width : Nat) (st st₁ : State) : Prop where
  frame : st₁ = { st with
    dataSize := st₁.dataSize, unfilledBits := st₁.unfilledBits, storageUnit := st₁.storageUnit }
  remaining : f.isUnion = false → st₁.unfilledBits ≤ st₁.dataSize
  used_le : f.isUnion = false → st.used ≤ st₁.used
  stop : f.isUnion = false → ¬ (f.isMsStruct = true ∧ width ≠ 0) →
    st₁.used = offset + width ∧ st₁.storageUnit = 0 ∧ st₁.dataSize = 8 * Bits.toBytesCeil st₁.used

theorem endAt_ends (stop : Nat) : Ends (fun _ => True) (st.endAt stop) fun st₁ =>
    st₁ = { st with dataSize := st₁.dataSize, unfilledBits := st₁.unfilledBits } ∧
      st₁.unfilledBits ≤ st₁.dataSize ∧ st₁.used = stop ∧
        st₁.dataSize = 8 * Bits.toBytesCeil st₁.used := by
  unfold State.endAt
  refine Ends.bind Ends.any fun dataSize whole => Ends.bind Ends.any fun unfilled taken => ?_
  obtain ⟨le, rfl⟩ := Quantity.sub_eq_ok_iff.mp taken
  obtain ⟨bytes, _⟩ := Quantity.mul_eq_ok_iff.mp whole
  have used : dataSize - (dataSize - stop) = stop := by lia
  refine ⟨rfl, Nat.sub_le _ _, used, ?_⟩
  change dataSize = 8 * Bits.toBytesCeil (dataSize - (dataSize - stop))
  rw [used, bytes, Nat.mul_comm 8]
  rfl

theorem takeFromUnit_ends (remaining : st.unfilledBits ≤ st.dataSize) (past : st.used ≤ offset) :
    Ends (fun _ => True) (st.takeFromUnit offset width typeSize) fun st₁ =>
      st₁ = { st with
        dataSize := st₁.dataSize, unfilledBits := st₁.unfilledBits, storageUnit := st₁.storageUnit } ∧
      st₁.unfilledBits ≤ st₁.dataSize ∧ st.used ≤ st₁.used := by
  unfold State.takeFromUnit
  split
  · refine Ends.bind Ends.any fun dataSize sum => Ends.bind Ends.any fun unfilled taken => ?_
    obtain ⟨rfl, _⟩ := Quantity.add_eq_ok_iff.mp sum
    obtain ⟨le, rfl⟩ := Quantity.sub_eq_ok_iff.mp taken
    refine ⟨rfl, ?_, ?_⟩
    · change typeSize - width ≤ offset + typeSize
      lia
    · change st.used ≤ offset + typeSize - (typeSize - width)
      lia
  · split
    · refine Ends.bind Ends.any fun dataSize sum => Ends.bind Ends.any fun unfilled taken => ?_
      obtain ⟨rfl, _⟩ := Quantity.add_eq_ok_iff.mp sum
      obtain ⟨le, rfl⟩ := Quantity.sub_eq_ok_iff.mp taken
      refine ⟨rfl, ?_, ?_⟩
      · change typeSize - width ≤ st.dataSize + typeSize
        lia
      · change st.dataSize - st.unfilledBits ≤ st.dataSize + typeSize - (typeSize - width)
        lia
    · rename_i enough
      refine ⟨rfl, ?_, ?_⟩
      · change st.unfilledBits - width ≤ st.dataSize
        lia
      · change st.dataSize - st.unfilledBits ≤ st.dataSize - (st.unfilledBits - width)
        lia

theorem occupyBits_ends (remaining : f.isUnion = false → st.unfilledBits ≤ st.dataSize)
    (past : f.isUnion = false → st.used ≤ offset) :
    Ends (fun _ => True) (st.occupyBits f offset width typeSize) (Occupies f offset width st) := by
  unfold State.occupyBits
  cases union : f.isUnion with
  | true =>
    rw [if_pos rfl]
    refine ⟨rfl, fun no => ?_, fun no => ?_, fun no => ?_⟩ <;>
    · rw [union] at no
      cases no
  | false =>
    rw [if_neg Bool.false_ne_true]
    split
    · rename_i ms
      refine (takeFromUnit_ends (remaining union) (past union)).imp fun st₁ ⟨frame, le, grows⟩ => ?_
      exact ⟨frame, fun _ => le, fun _ => grows, fun _ alone => absurd (by simpa using ms) alone⟩
    · refine Ends.bind Ends.any fun stop sum => ?_
      obtain ⟨rfl, _⟩ := Quantity.add_eq_ok_iff.mp sum
      refine (endAt_ends _).bind fun st₁ ⟨frame, le, used, whole⟩ => ?_
      refine ⟨?_, fun _ => le, fun _ => ?_, fun _ _ => ⟨used, rfl, whole⟩⟩
      · rw [frame]
      · change st.used ≤ st₁.used
        rw [used]
        exact (past union).trans (Nat.le_add_right _ _)

theorem alignTo_le {a b c : Nat} (aligned : Quantity.alignTo a b = .ok c) : a ≤ c := by
  obtain ⟨positive, rfl, _⟩ := Quantity.alignTo_eq_ok_iff.mp aligned
  exact Quantity.le_roundUp (Nat.pos_of_ne_zero positive)

theorem avoidCrossing_ends (start alignment : Nat) :
    Ends (fun _ => True) (avoidCrossing f start alignment width typeSize) (start ≤ ·) := by
  unfold avoidCrossing
  split
  · exact Ends.any.imp fun _ => alignTo_le
  · refine Ends.bind Ends.any fun crosses _ => ?_
    split
    · exact Ends.any.imp fun _ => alignTo_le
    · exact le_rfl

theorem WideStages.frame {alignment : Bits} {taken : State}
    (h : WideStages f width alignment offset taken st st') : taken = { st with
      dataSize := taken.dataSize, unfilledBits := taken.unfilledBits
      storageUnit := taken.storageUnit } := by
  cases union : f.isUnion with
  | true => rw [(h.inUnion union).2]
  | false => rw [(Ends.holds (endAt_ends _) (h.sequential union).2).1]

theorem layWideBitField_ends (isBitField : field.bitWidth = some width) (isPacked : Bool) :
    Ends (fun _ => True) ((layWideBitField f index field width isPacked st).eval known) fun st' =>
      ∃ offset, FieldLaid f known field offset st st' := by
  refine layWideBitField_stages.imp ?_
  rintro st' ⟨alignment, offset, taken, stages⟩
  refine ⟨offset, Ends.holds (BitsTaken.close ?_ isBitField False.elim _ _) stages.raised⟩
  cases union : f.isUnion with
  | true =>
    obtain ⟨rfl, rfl⟩ := stages.inUnion union
    refine ⟨rfl, ?_, ?_, ?_, ?_⟩ <;>
    · intro no
      rw [union] at no
      cases no
  | false =>
    obtain ⟨aligned, ended⟩ := stages.sequential union
    obtain ⟨frame, le, used, whole⟩ := Ends.holds (endAt_ends _) ended
    have later := alignTo_le aligned
    have used_le : st.used ≤ st.dataSize := Nat.sub_le _ _
    refine ⟨?_, fun _ _ => le, fun _ _ => whole, fun _ _ => ?_, fun _ _ _ => ?_⟩
    · rw [frame]
      rfl
    · change st.used ≤ taken.used
      lia
    · refine ⟨used_le.trans later, used, ?_⟩
      rw [frame]
      rfl

/-- A state after a bit-field no wider than its type, with how it was found where to put it and what
became of its bits. -/
structure NarrowLaid (f : Frame) (field : Field) (width typeSize typeAlignment : Nat)
    (isPacked : Bool) (offset : Nat) (st st' : State) : Prop where
  found : ∃ alignment start,
    bitAlignment f field isPacked
      (!f.target.bitFieldRules.typeAlignment && !isZeroLengthBoundary f width) width typeAlignment =
        .ok alignment ∧
    (if f.isMsStruct && st.storageUnit == 0 then
      Quantity.alignTo (if f.isUnion then 0 else st.used) alignment.actual
    else pure (if f.isUnion then 0 else st.used)) = Except.ok start ∧
    avoidCrossing f start alignment.actual width typeSize = .ok offset
  occupied : ∃ st₁ packed unpacked,
    (st.placeFieldAt offset).occupyBits f offset width typeSize = .ok st₁ ∧
    (st₁.setDataSize st₁.dataSize).raiseAlignment f packed unpacked = .ok st'

theorem layNarrowBitField_lays (unsupplied : f.supplied = none) (typeAlignment : Nat)
    (isPacked : Bool) :
    Ends (fun _ => True) ((layNarrowBitField f index field width typeSize typeAlignment isPacked
      st.used st).eval known) fun st' => ∃ offset,
        NarrowLaid f field width typeSize typeAlignment isPacked offset st st' := by
  refine layNarrowBitField_stages.imp ?_
  rintro st' ⟨alignment, start, computed, taken, stages⟩
  have occupied := stages.occupied
  simp only [adoptFieldOffset, unsupplied, Option.bind_none] at occupied
  exact ⟨computed, ⟨alignment, start, stages.aligned, stages.started, stages.avoided⟩,
    ⟨taken, _, _, occupied, stages.raised⟩⟩

/-- However the start was found, a bit-field only moves on from it. -/
theorem NarrowLaid.past {typeAlignment : Nat} {isPacked : Bool}
    (h : NarrowLaid f field width typeSize typeAlignment isPacked offset st st')
    (notUnion : f.isUnion = false) : st.used ≤ offset := by
  obtain ⟨alignment, start, _, started, avoided⟩ := h.found
  have later := Ends.holds (avoidCrossing_ends start alignment.actual) avoided
  rw [notUnion] at started
  simp only [Bool.false_eq_true, if_false] at started
  split at started
  · exact (alignTo_le started).trans later
  · cases started
    exact later

theorem NarrowLaid.fieldLaid {typeAlignment : Nat} {isPacked : Bool}
    (h : NarrowLaid f field width typeSize typeAlignment isPacked offset st st')
    (isBitField : field.bitWidth = some width) (remaining : st.unfilledBits ≤ st.dataSize)
    (sharing : f.isMsStruct = true ∧ width ≠ 0 → f.SharesUnit known field) :
    FieldLaid f known field offset st st' := by
  obtain ⟨st₁, packed, unpacked, occupied, raised⟩ := h.occupied
  have past := h.past
  have occupies : Occupies f offset width (st.placeFieldAt offset) st₁ :=
    Ends.holds (occupyBits_ends (fun _ => remaining) past) occupied
  have taken : BitsTaken f (f.isMsStruct = true ∧ width ≠ 0) width offset st st₁ := by
    constructor
    case frame =>
      rw [occupies.frame]
      rfl
    case remaining => exact fun notUnion _ => occupies.remaining notUnion
    case whole => exact fun notUnion alone => (occupies.stop notUnion alone).2.2
    case used_le => exact fun notUnion _ => occupies.used_le notUnion
    case apart =>
      intro notUnion alone _
      obtain ⟨stop, unit, _⟩ := occupies.stop notUnion alone
      exact ⟨past notUnion, stop, unit⟩
  exact Ends.holds (taken.close isBitField sharing packed unpacked) raised

/-- To leave a unit only counts more of the data as used. -/
theorem FieldLaid.of_left {st₀ : State} (h : FieldLaid f known field offset st₀ st')
    (frame : st₀ = { st with unfilledBits := st₀.unfilledBits, storageUnit := st₀.storageUnit })
    (fewer : st₀.unfilledBits ≤ st.unfilledBits) : FieldLaid f known field offset st st' := by
  have dataSize : st₀.dataSize = st.dataSize := by rw [frame]
  have size : st₀.size = st.size := by rw [frame]
  have emptyMap : st₀.emptyMap = st.emptyMap := by rw [frame]
  have used : st.used ≤ st₀.used := by
    unfold State.used
    lia
  have still (remaining : st.unfilledBits ≤ st.dataSize) : st₀.unfilledBits ≤ st₀.dataSize := by
    lia
  constructor
  case rest => rw [h.rest, frame]; rfl
  case tables => rw [h.tables.1, h.tables.2.1, h.tables.2.2, frame]; exact ⟨rfl, rfl, rfl⟩
  case power =>
    have alignment : st₀.alignment = st.alignment := by rw [frame]
    exact alignment ▸ h.power
  case size => exact size ▸ h.size
  case whole => exact h.whole
  case remaining => exact fun notUnion remaining => h.remaining notUnion (still remaining)
  case used_le => exact fun notUnion remaining => used.trans (h.used_le notUnion (still remaining))
  case apart =>
    intro notUnion alone remaining
    exact (h.apart notUnion alone (still remaining)).imp_left used.trans
  case stored =>
    intro stored
    obtain ⟨width, wide, whole, inside, apart⟩ := h.stored stored
    exact ⟨width, wide, whole, inside, fun notUnion => (apart notUnion).imp_left used.trans⟩
  case skipped => exact fun skip => (h.skipped skip).trans emptyMap
  case placed =>
    rw [← emptyMap]
    exact h.placed

theorem leaveUnit_frame : st.leaveUnit typeSize = { st with
    unfilledBits := (st.leaveUnit typeSize).unfilledBits
    storageUnit := (st.leaveUnit typeSize).storageUnit } ∧
      (st.leaveUnit typeSize).unfilledBits ≤ st.unfilledBits := by
  unfold State.leaveUnit
  split
  · exact ⟨rfl, le_rfl⟩
  · exact ⟨rfl, Nat.zero_le _⟩

theorem entering_frame {type : TypeLayout} : st.entering f type = { st with
    unfilledBits := (st.entering f type).unfilledBits
    storageUnit := (st.entering f type).storageUnit } ∧
      (st.entering f type).unfilledBits ≤ st.unfilledBits := by
  unfold State.entering
  split
  · exact leaveUnit_frame
  · exact ⟨rfl, le_rfl⟩

theorem used_le_entering {type : TypeLayout} : st.used ≤ (st.entering f type).used := by
  have same : (st.entering f type).dataSize = st.dataSize := by rw [entering_frame.1]
  unfold State.used
  rw [same]
  exact Nat.sub_le_sub_left entering_frame.2 _

theorem layBitField_lays (unsupplied : f.supplied = none) :
    Ends (fun _ => True) ((layBitField f index field width st).eval known) fun st' => ∃ type,
      known.type field.type = .ok type ∧
      (st.entering f type).unfilledBits ≤ (st.entering f type).dataSize ∧
      ((8 * type.width < width ∧
        (layWideBitField f index field width (f.isPacked || field.isPacked)
          (st.entering f type)).eval known = .ok st') ∨
      (width ≤ 8 * type.width ∧ ∃ offset,
        NarrowLaid f field width (8 * type.width) (f.bitTypeAlignment st width type)
          (f.isPacked || field.isPacked) offset (st.entering f type) st')) := by
  refine layBitField_enters.imp ?_
  rintro st' ⟨type, known, remaining, wide | ⟨narrow, done⟩⟩
  · exact ⟨type, known, remaining, .inl wide⟩
  · obtain ⟨offset, laid⟩ := (layNarrowBitField_lays unsupplied _ _).holds done
    exact ⟨type, known, remaining, .inr ⟨narrow, offset, laid⟩⟩

/-- A bit-field. -/
theorem layBitField_ends (unsupplied : f.supplied = none) (isBitField : field.bitWidth = some width) :
    Ends (fun _ => True) ((layBitField f index field width st).eval known) fun st' =>
      ∃ offset, FieldLaid f known field offset st st' := by
  refine (layBitField_lays unsupplied).imp fun st' => ?_
  rintro ⟨type, known, remaining, ⟨_, wide⟩ | ⟨narrow, offset, laid⟩⟩
  · obtain ⟨offset, laid⟩ := Ends.holds (layWideBitField_ends isBitField _) wide
    exact ⟨offset, laid.of_left entering_frame.1 entering_frame.2⟩
  · have laid := laid.fieldLaid isBitField remaining fun both =>
      ⟨both.1, width, type, isBitField, both.2, known, narrow⟩
    exact ⟨offset, laid.of_left entering_frame.1 entering_frame.2⟩

end BitFields

theorem layAnyField_ends (unsupplied : f.supplied = none) :
    Ends (fun _ => True) ((layAnyField f st (field, index)).eval known) fun st' =>
      ∃ offset, FieldLaid f known field offset st st' := by
  unfold layAnyField
  cases width : field.bitWidth with
  | some width => exact layBitField_ends unsupplied width
  | none => exact layField_ends unsupplied width

end Itanium

end ObjectLayout
