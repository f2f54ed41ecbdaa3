import Mathlib.Order.CompletePartialOrder
import Mathlib.Order.Interval.Set.Disjoint
import ObjectLayout.Proofs.Itanium.LeastBit

/-! Where the bits of fields lie under `ms_struct`. Bit-fields that follow each other and have types
of one size take their bits from common units. The end of the data and the bits left over are counted
from what is left of a unit alone, the offsets from alignments: both agree as long as no bit-field
asks for more alignment than the unit has, or where alignments have a maximum. -/
namespace ObjectLayout

namespace Itanium

variable {f : Frame} {known : Known} {st st' : State} {field : Field} {type : TypeLayout}
variable {index offset width typeSize unit alignment : Nat}

/-- Bit-fields with any bits take these from units of their type's size. -/
def Frame.TakesUnit (f : Frame) (known : Known) (index typeSize : Nat) : Prop :=
  f.isMsStruct = true ∧ ∃ field width type, f.declaration.fields[index]? = some field ∧
    field.bitWidth = some width ∧ width ≠ 0 ∧ known.type field.type = .ok type ∧
    width ≤ typeSize ∧ typeSize = 8 * type.width

/-- The fields from `first` on and before `stop` share units; the first of them opens one. -/
structure Frame.UnitRun (f : Frame) (known : Known) (typeSize first stop : Nat) : Prop where
  takes : ∀ k, first ≤ k → k < stop → f.TakesUnit known k typeSize
  opens : ∀ k, k + 1 = first → ¬ f.TakesUnit known k typeSize

/-- The alignment in bits of a bit-field that takes its bits from a unit. -/
def Frame.unitAlignment (f : Frame) (typeSize : Nat) (field : Field) : Nat :=
  max (if f.isPacked || field.isPacked || !f.target.bitFieldRules.typeAlignment then 1 else typeSize)
    (8 * field.alignment.getD 0)

/-- No bit-field asks for more alignment than the size of its unit, or than the bit-field that has
opened the first unit of the run. -/
def Frame.UnitsSuffice (f : Frame) (known : Known) : Prop :=
  ∀ typeSize first k opening field, f.UnitRun known typeSize first k → first < k →
    f.TakesUnit known k typeSize → f.declaration.fields[first]? = some opening →
    f.declaration.fields[k]? = some field → f.unitAlignment typeSize field ≤ typeSize ∧
      f.unitAlignment typeSize field ≤ f.unitAlignment typeSize opening

theorem Frame.TakesUnit.unique (h : f.TakesUnit known index typeSize)
    (h' : f.TakesUnit known index unit) : typeSize = unit := by
  obtain ⟨_, field, _, type, found, _, _, typed, _, rfl⟩ := h
  obtain ⟨_, field', _, type', found', _, _, typed', _, rfl⟩ := h'
  rw [found] at found'
  cases found'
  rw [typed] at typed'
  cases typed'
  rfl

theorem Frame.sharesUnit_iff (found : f.declaration.fields[index]? = some field) :
    f.SharesUnit known field ↔ ∃ typeSize, f.TakesUnit known index typeSize := by
  constructor
  · rintro ⟨ms, width, type, isBitField, wide, typed, narrow⟩
    exact ⟨_, ms, field, width, type, found, isBitField, wide, typed, narrow, rfl⟩
  · rintro ⟨_, ms, field', width, type, found', isBitField, wide, typed, narrow, rfl⟩
    rw [found] at found'
    cases found'
    exact ⟨ms, width, type, isBitField, wide, typed, narrow⟩

section Unit

/-- The unit that the last bit-field was in ends with the data, and starts at a multiple of an
alignment that divides its size. -/
structure State.InUnit (st : State) (typeSize alignment : Nat) : Prop where
  room : st.unfilledBits ≤ typeSize
  inside : typeSize ≤ st.dataSize
  aligned : alignment ∣ st.dataSize
  divides : alignment ∣ typeSize

/-- There are three ways to take bits: to open a unit at the offset of the bit-field, to append one
to the data, or to go on in that which ends the data. -/
inductive UnitTaken (offset width typeSize : Nat) (st st' : State) : Prop
  | opened (full : st.unfilledBits = 0) (stop : st'.dataSize = offset + typeSize)
      (left : st'.unfilledBits + width = typeSize)
  | appended (some : 0 < st.unfilledBits) (few : st.unfilledBits < width)
      (stop : st'.dataSize = st.dataSize + typeSize) (left : st'.unfilledBits + width = typeSize)
  | continued (some : 0 < st.unfilledBits) (stop : st'.dataSize = st.dataSize)
      (left : st'.unfilledBits + width = st.unfilledBits)

theorem takeFromUnit_takes : Ends (fun _ => True) (st.takeFromUnit offset width typeSize) fun st' =>
    UnitTaken offset width typeSize st st' ∧ st'.storageUnit = typeSize := by
  unfold State.takeFromUnit
  split
  · rename_i full
    refine Ends.bind Ends.any fun dataSize sum => Ends.bind Ends.any fun unfilled taken => ?_
    obtain ⟨rfl, _⟩ := Quantity.add_eq_ok_iff.mp sum
    obtain ⟨narrow, rfl⟩ := Quantity.sub_eq_ok_iff.mp taken
    exact ⟨.opened (by simpa using full) rfl (Nat.sub_add_cancel narrow), rfl⟩
  · rename_i some
    have some : 0 < st.unfilledBits := Nat.pos_of_ne_zero (by simpa using some)
    split
    · rename_i few
      refine Ends.bind Ends.any fun dataSize sum => Ends.bind Ends.any fun unfilled taken => ?_
      obtain ⟨rfl, _⟩ := Quantity.add_eq_ok_iff.mp sum
      obtain ⟨narrow, rfl⟩ := Quantity.sub_eq_ok_iff.mp taken
      exact ⟨.appended some few rfl (Nat.sub_add_cancel narrow), rfl⟩
    · rename_i enough
      exact ⟨.continued some rfl (Nat.sub_add_cancel (Nat.le_of_not_lt enough)), rfl⟩

theorem NarrowLaid.takes {typeAlignment : Nat} {isPacked : Bool}
    (h : NarrowLaid f field width typeSize typeAlignment isPacked offset st st')
    (notUnion : f.isUnion = false) (ms : f.isMsStruct = true) (wide : width ≠ 0) :
    UnitTaken offset width typeSize st st' ∧ st'.storageUnit = typeSize := by
  obtain ⟨st₁, packed, unpacked, occupied, raised⟩ := h.occupied
  have aligned := Ends.holds (raiseAlignment_ends (.inr trivial) (.inr trivial)) raised
  rw [State.occupyBits, notUnion, ms] at occupied
  simp only [Bool.false_eq_true, if_false, Bool.true_and, bne_iff_ne, ne_eq, wide,
    not_false_eq_true, if_true] at occupied
  obtain ⟨taken, unit⟩ := Ends.holds takeFromUnit_takes occupied
  rw [aligned.frame]
  refine ⟨?_, unit⟩
  cases taken with
  | opened full stop left => exact .opened full stop left
  | appended some few stop left => exact .appended some few stop left
  | continued some stop left => exact .continued some stop left

/-- What is used moves past the bits if these begin where the count assumes it. -/
theorem UnitTaken.reaches (h : UnitTaken offset width typeSize st st')
    (remaining : st.unfilledBits ≤ st.dataSize)
    (near : 0 < st.unfilledBits → offset ≤ st.dataSize)
    (next : 0 < st.unfilledBits → width ≤ st.unfilledBits → offset ≤ st.used) :
    offset + width ≤ st'.used := by
  unfold State.used at *
  cases h with
  | opened full stop left => lia
  | appended some few stop left =>
    have := near some
    lia
  | continued some stop left =>
    have := next some (by lia)
    lia

namespace State.InUnit

variable (h : st.InUnit typeSize unit)
include h

/-- A bit-field that does not ask for more than the unit has goes on in it, or right behind it. -/
theorem least (divides : alignment ∣ unit) (positive : 0 < width) (narrow : width ≤ typeSize)
    (remaining : st.unfilledBits ≤ st.dataSize)
    (least : LeastBit st.used alignment width typeSize offset) :
    offset ≤ st.dataSize ∧ (width ≤ st.unfilledBits → offset ≤ st.used) := by
  obtain ⟨_, lowest⟩ := least.bits positive
  constructor
  · apply lowest
    refine ⟨Nat.sub_le _ _, ?_⟩
    rw [Nat.mod_eq_zero_of_dvd (divides.trans h.aligned), Nat.zero_add]
    exact narrow
  · intro enough
    apply lowest
    refine ⟨le_rfl, ?_⟩
    -- What is used counts from the start of the unit, a multiple of the alignment.
    have start : alignment ∣ st.dataSize - typeSize :=
      divides.trans (Nat.dvd_sub h.aligned h.divides)
    have split : st.used = (st.dataSize - typeSize) + (typeSize - st.unfilledBits) := by
      have := h.room
      have := h.inside
      unfold State.used
      lia
    have same : st.used % alignment = (typeSize - st.unfilledBits) % alignment := by
      rw [split, Nat.add_mod, Nat.mod_eq_zero_of_dvd start, Nat.zero_add, Nat.mod_mod]
    have small := Nat.mod_le (typeSize - st.unfilledBits) alignment
    have := h.room
    rw [same]
    lia

/-- What follows is in a unit at a multiple of the same alignment. -/
theorem taken (next : UnitTaken offset width typeSize st st') (offset_eq : st.unfilledBits = 0 →
    offset = st.dataSize) : st'.InUnit typeSize unit := by
  have room := h.room
  have inside := h.inside
  cases next with
  | opened full stop left =>
    rw [offset_eq full] at stop
    exact ⟨by lia, by lia, stop ▸ Nat.dvd_add h.aligned h.divides, h.divides⟩
  | appended some few stop left =>
    exact ⟨by lia, by lia, stop ▸ Nat.dvd_add h.aligned h.divides, h.divides⟩
  | continued some stop left => exact ⟨by lia, by lia, stop ▸ h.aligned, h.divides⟩

end State.InUnit

theorem avoidCrossing_limited {start : Nat} (limited : f.maxFieldAlignment ≠ 0)
    (wide : width ≠ 0) :
    avoidCrossing f start alignment width typeSize = .ok start := by
  rw [avoidCrossing, if_neg (by simpa using wide), crossesUnit, if_pos limited]
  rfl

variable (h : NarrowLaid f field width typeSize typeSize (f.isPacked || field.isPacked) offset st st')
variable (notUnion : f.isUnion = false) (ms : f.isMsStruct = true) (wide : width ≠ 0)
include h notUnion ms wide

theorem NarrowLaid.reaches_limited (limited : f.maxFieldAlignment ≠ 0)
    (remaining : st.unfilledBits ≤ st.dataSize)
    (entered : st.storageUnit = 0 → st.unfilledBits = 0) : offset + width ≤ st'.used := by
  obtain ⟨_, start, _, started, avoided⟩ := h.found
  rw [avoidCrossing_limited limited wide] at avoided
  cases avoided
  have taken := (h.takes notUnion ms wide).1
  rw [notUnion, ms] at started
  have stays : 0 < st.unfilledBits → offset = st.used := by
    intro some
    have open' : st.storageUnit ≠ 0 := fun none => absurd (entered none) (Nat.ne_of_gt some)
    simp only [Bool.false_eq_true, if_false, Bool.true_and, beq_iff_eq, open'] at started
    cases started
    rfl
  apply taken.reaches remaining
  · intro some
    exact (stays some).trans_le (Nat.sub_le _ _)
  · intro some _
    exact (stays some).le

/-- A bit-field goes to the least bit from where it is in a unit, and opens one at a multiple. -/
theorem NarrowLaid.least_in_unit (unlimited : f.maxFieldAlignment = 0) (narrow : width ≤ typeSize)
    (power : Quantity.isPowerOfTwo (f.unitAlignment typeSize field) = true) :
    LeastBit (if st.storageUnit = 0 then Quantity.roundUp st.used (f.unitAlignment typeSize field)
      else st.used) (f.unitAlignment typeSize field) width typeSize offset := by
  obtain ⟨alignment, start, aligned, started, avoided⟩ := h.found
  have boundary : isZeroLengthBoundary f width = false := by
    simp [isZeroLengthBoundary, wide]
  have actual := Ends.holds (bitAlignment_actual unlimited _ _ _) aligned
  rw [boundary, Bool.not_false, Bool.and_true] at actual
  change alignment.actual = f.unitAlignment typeSize field at actual
  rw [actual] at started avoided
  have least := Ends.holds (avoidCrossing_least unlimited power narrow) avoided
  rw [notUnion, ms] at started
  simp only [Bool.false_eq_true, if_false, Bool.true_and, beq_iff_eq] at started
  split at started
  · rename_i none
    obtain ⟨_, rfl, _⟩ := Quantity.alignTo_eq_ok_iff.mp started
    rwa [if_pos none]
  · rename_i some
    cases started
    rwa [if_neg some]

theorem NarrowLaid.stays_in_unit (unlimited : f.maxFieldAlignment = 0) (narrow : width ≤ typeSize)
    (power : Quantity.isPowerOfTwo (f.unitAlignment typeSize field) = true)
    (remaining : st.unfilledBits ≤ st.dataSize) (shares : st.storageUnit ≠ 0)
    (inUnit : st.InUnit typeSize unit) (divides : f.unitAlignment typeSize field ∣ unit) :
    offset + width ≤ st'.used ∧ st'.InUnit typeSize unit := by
  have least := h.least_in_unit notUnion ms wide unlimited narrow power
  rw [if_neg shares] at least
  obtain ⟨near, next⟩ := inUnit.least divides (Nat.pos_of_ne_zero wide) narrow remaining least
  have taken := (h.takes notUnion ms wide).1
  refine ⟨taken.reaches remaining (fun _ => near) fun _ => next, inUnit.taken taken fun full => ?_⟩
  apply near.antisymm
  have past := h.past notUnion
  rwa [State.used, full, Nat.sub_zero] at past

theorem NarrowLaid.opens_unit (unlimited : f.maxFieldAlignment = 0) (narrow : width ≤ typeSize)
    (power : Quantity.isPowerOfTwo (f.unitAlignment typeSize field) = true)
    (remaining : st.unfilledBits ≤ st.dataSize) (opens : st.storageUnit = 0)
    (full : st.unfilledBits = 0) (divides : unit ∣ f.unitAlignment typeSize field)
    (divides' : unit ∣ typeSize) :
    offset + width ≤ st'.used ∧ st'.InUnit typeSize unit := by
  have least := h.least_in_unit notUnion ms wide unlimited narrow power
  rw [if_pos opens] at least
  obtain ⟨⟨past, _⟩, lowest⟩ := least.bits (Nat.pos_of_ne_zero wide)
  have whole := Quantity.dvd_roundUp st.used (f.unitAlignment typeSize field)
  have atMultiple : offset = Quantity.roundUp st.used (f.unitAlignment typeSize field) := by
    refine Nat.le_antisymm (lowest ⟨le_rfl, ?_⟩) past
    rw [Nat.mod_eq_zero_of_dvd whole, Nat.zero_add]
    exact narrow
  have taken := (h.takes notUnion ms wide).1
  refine ⟨taken.reaches remaining (fun some => ?_) fun some _ => ?_, ?_⟩
  · exact absurd full (Nat.ne_of_gt some)
  · exact absurd full (Nat.ne_of_gt some)
  · cases taken with
    | opened _ stop left =>
      refine ⟨by lia, by lia, ?_, divides'⟩
      rw [stop, atMultiple]
      exact Nat.dvd_add (divides.trans whole) divides'
    | appended some => exact absurd full (Nat.ne_of_gt some)
    | continued some => exact absurd full (Nat.ne_of_gt some)

end Unit

section Powers

theorem Frame.unitAlignment_isPowerOfTwo (f : Frame) (power : Quantity.isPowerOfTwo typeSize = true)
    (asked : ∀ n ∈ field.alignment, Quantity.isPowerOfTwo n = true) :
    Quantity.isPowerOfTwo (f.unitAlignment typeSize field) = true := by
  apply Quantity.isPowerOfTwo_max_right
  · split
    · rfl
    · exact power
  · rcases Quantity.IsPowerOrZero.getD asked with none | power
    · exact .inl (by rw [none])
    · exact .inr (Quantity.isPowerOfTwo_bits power)

theorem min_isPowerOfTwo {m n : Nat} (hm : Quantity.isPowerOfTwo m = true)
    (hn : Quantity.isPowerOfTwo n = true) : Quantity.isPowerOfTwo (min m n) = true := by
  rcases Nat.le_total m n with le | le
  · rwa [Nat.min_eq_left le]
  · rwa [Nat.min_eq_right le]

theorem min_dvd {m n : Nat} (hm : Quantity.isPowerOfTwo m = true)
    (hn : Quantity.isPowerOfTwo n = true) : min m n ∣ m ∧ min m n ∣ n := by
  rcases Nat.le_total m n with le | le
  · rw [Nat.min_eq_left le]
    exact ⟨Nat.dvd_refl m, Quantity.dvd_of_isPowerOfTwo hm hn le⟩
  · rw [Nat.min_eq_right le]
    exact ⟨Quantity.dvd_of_isPowerOfTwo hn hm le, Nat.dvd_refl n⟩

end Powers

section Run

/-- The fields so far lie one behind the other, the last of them before the end of what is used. -/
structure State.InOrder (f : Frame) (known : Known) (st : State) : Prop where
  remaining : st.unfilledBits ≤ st.dataSize
  sized : st.dataSize ≤ st.size
  ordered : ∀ (k k' : Nat) (field : Field) (start start' : Bits), k < k' →
    f.declaration.fields[k]? = some field → st.fieldOffsets[k]? = some start →
    st.fieldOffsets[k']? = some start' → start + f.setting.bits known field ≤ start'
  reached : ∀ (k : Nat) (field : Field) (start : Bits), f.declaration.fields[k]? = some field →
    st.fieldOffsets[k]? = some start → start + f.setting.bits known field ≤ st.used

theorem State.InOrder.push (h : st.InOrder f known) (next : FieldLaid f known field offset st st')
    (notUnion : f.isUnion = false)
    (found : f.declaration.fields[st.fieldOffsets.length]? = some field) (past : st.used ≤ offset)
    (reaches : offset + f.setting.bits known field ≤ st'.used) : st'.InOrder f known := by
  have placed {k start : Nat} (at' : st'.fieldOffsets[k]? = some start) :
      st.fieldOffsets[k]? = some start ∨ (k = st.fieldOffsets.length ∧ start = offset) := by
    rw [next.listed, List.getElem?_append] at at'
    split at at'
    · exact .inl at'
    · obtain ⟨bound, same⟩ := List.getElem?_eq_some_iff.mp at'
      simp only [List.length_singleton] at bound
      refine .inr ⟨by omega, ?_⟩
      rw [← same, List.getElem_singleton]
  constructor
  case remaining => exact next.remaining notUnion h.remaining
  case sized => exact next.sized
  case ordered =>
    intro k k' field' start start' before found' at' at''
    have bound (y : Nat) (there : st.fieldOffsets[k']? = some y) : k' < st.fieldOffsets.length :=
      (List.getElem?_eq_some_iff.mp there).1
    rcases placed at' with old | ⟨rfl, rfl⟩ <;> rcases placed at'' with old' | ⟨rfl, rfl⟩
    · exact h.ordered k k' field' start start' before found' old old'
    · exact (h.reached k field' start found' old).trans past
    · have := bound _ old'
      omega
    · omega
  case reached =>
    intro k field' start found' at'
    rcases placed at' with old | ⟨rfl, rfl⟩
    · exact (h.reached k field' start found' old).trans (next.used_le notUnion h.remaining)
    · rw [found] at found'
      cases found'
      exact reaches

/-- Either the last field has left no unit open, or it is one of a run that shares units. -/
structure State.UnitOpen (f : Frame) (known : Known) (st : State) : Prop where
  alone : st.storageUnit = 0 → ∀ k typeSize, k + 1 = st.fieldOffsets.length →
    ¬ f.TakesUnit known k typeSize
  shared : st.storageUnit ≠ 0 → ∃ first opening, first < st.fieldOffsets.length ∧
    f.UnitRun known st.storageUnit first st.fieldOffsets.length ∧
    f.declaration.fields[first]? = some opening ∧
    (f.maxFieldAlignment = 0 → st.InUnit st.storageUnit
      (min (f.unitAlignment st.storageUnit opening) st.storageUnit))

/-- The alignments that bit-fields ask for, and the sizes of their types, are powers of two. -/
def Frame.BitFieldPowers (f : Frame) (known : Known) : Prop :=
  ∀ field ∈ f.declaration.fields, field.bitWidth.isSome →
    (∀ n ∈ field.alignment, Quantity.isPowerOfTwo n = true) ∧
    ∀ type, known.type field.type = .ok type → Quantity.isPowerOfTwo type.width = true

/-- A field that shares no unit leaves none open. -/
theorem State.UnitOpen.of_alone (next : FieldLaid f known field offset st st')
    (found : f.declaration.fields[st.fieldOffsets.length]? = some field)
    (alone : ¬ f.SharesUnit known field) (closed : st'.storageUnit = 0) :
    st'.UnitOpen f known := by
  constructor
  case alone =>
    intro _ k typeSize last takes
    rw [next.listed, List.length_append, List.length_singleton, Nat.add_right_cancel_iff] at last
    subst last
    exact alone ((Frame.sharesUnit_iff found).mpr ⟨typeSize, takes⟩)
  case shared => exact fun opens => absurd closed opens

/-- A run goes on with the next field of its size. -/
theorem Frame.UnitRun.push {first stop : Nat} (run : f.UnitRun known typeSize first stop)
    (takes : f.TakesUnit known stop typeSize) : f.UnitRun known typeSize first (stop + 1) where
  takes k later before := by
    rcases Nat.lt_succ_iff_lt_or_eq.mp before with earlier | rfl
    · exact run.takes k later earlier
    · exact takes
  opens := run.opens

theorem State.UnitOpen.of_run {first stop : Nat} {opening : Field}
    (open' : st.storageUnit = typeSize) (positive : typeSize ≠ 0)
    (count : st.fieldOffsets.length = stop + 1) (before : first ≤ stop)
    (run : f.UnitRun known typeSize first (stop + 1))
    (there : f.declaration.fields[first]? = some opening)
    (inUnit : f.maxFieldAlignment = 0 →
      st.InUnit typeSize (min (f.unitAlignment typeSize opening) typeSize)) :
    st.UnitOpen f known where
  alone none := absurd (open'.symm.trans none) positive
  shared _ := by
    rw [open', count]
    exact ⟨first, opening, Nat.lt_succ_of_le before, run, there, inUnit⟩

/-- The turn of a bit-field that takes its bits from a unit. -/
structure UnitTurn (f : Frame) (known : Known) (st : State) (field : Field) (width : Nat)
    (type : TypeLayout) : Prop where
  notUnion : f.isUnion = false
  isMsStruct : f.isMsStruct = true
  found : f.declaration.fields[st.fieldOffsets.length]? = some field
  isBitField : field.bitWidth = some width
  wide : width ≠ 0
  typed : known.type field.type = .ok type
  narrow : width ≤ 8 * type.width
  power : Quantity.isPowerOfTwo (8 * type.width) = true
  asked : ∀ n ∈ field.alignment, Quantity.isPowerOfTwo n = true

namespace UnitTurn

variable (turn : UnitTurn f known st field width type)
include turn

theorem takes : f.TakesUnit known st.fieldOffsets.length (8 * type.width) :=
  ⟨turn.isMsStruct, field, width, type, turn.found, turn.isBitField, turn.wide, turn.typed,
    turn.narrow, rfl⟩

theorem sharesUnit : f.SharesUnit known field :=
  (Frame.sharesUnit_iff turn.found).mpr ⟨_, turn.takes⟩

theorem positive : 8 * type.width ≠ 0 := Nat.ne_of_gt (Quantity.pos_of_isPowerOfTwo turn.power)

theorem unitAlignment : Quantity.isPowerOfTwo (f.unitAlignment (8 * type.width) field) = true :=
  f.unitAlignment_isPowerOfTwo turn.power turn.asked

variable (h : NarrowLaid f field width (8 * type.width) (8 * type.width)
  (f.isPacked || field.isPacked) offset (st.entering f type) st')
variable (remaining : (st.entering f type).unfilledBits ≤ (st.entering f type).dataSize)
variable (count : st'.fieldOffsets.length = st.fieldOffsets.length + 1)
include h remaining count

/-- A bit-field of the size of the open unit goes on with the run. -/
theorem continues {first : Nat} {opening : Field} (same : st.storageUnit = 8 * type.width)
    (before : first < st.fieldOffsets.length)
    (run : f.UnitRun known (8 * type.width) first st.fieldOffsets.length)
    (there : f.declaration.fields[first]? = some opening)
    (power : Quantity.isPowerOfTwo (f.unitAlignment (8 * type.width) opening) = true)
    (inUnit : f.maxFieldAlignment = 0 → st.InUnit (8 * type.width)
      (min (f.unitAlignment (8 * type.width) opening) (8 * type.width)))
    (suffice : f.maxFieldAlignment = 0 → f.UnitsSuffice known) :
    offset + width ≤ st'.used ∧ st'.UnitOpen f known := by
  have ms := turn.isMsStruct
  have stays : st.entering f type = st := by
    rw [State.entering, ms, if_pos rfl, State.leaveUnit, if_pos same]
  rw [stays] at h remaining
  have unit := (h.takes turn.notUnion ms turn.wide).2
  have close := State.UnitOpen.of_run unit turn.positive count before.le (run.push turn.takes) there
  by_cases unlimited : f.maxFieldAlignment = 0
  · obtain ⟨small, small'⟩ :=
      suffice unlimited _ first _ opening field run before turn.takes there turn.found
    have divides := Quantity.dvd_of_isPowerOfTwo turn.unitAlignment
      (min_isPowerOfTwo power turn.power) (Nat.le_min.mpr ⟨small', small⟩)
    obtain ⟨reaches, inUnit'⟩ := h.stays_in_unit turn.notUnion ms turn.wide unlimited turn.narrow
      turn.unitAlignment remaining (same ▸ turn.positive) (inUnit unlimited) divides
    exact ⟨reaches, close fun _ => inUnit'⟩
  · have reaches := h.reaches_limited turn.notUnion ms turn.wide unlimited remaining fun none =>
      absurd (same.symm.trans none) turn.positive
    exact ⟨reaches, close fun none => absurd none unlimited⟩

/-- Any other bit-field leaves that unit and opens another one. -/
theorem begins (differs : st.storageUnit ≠ 8 * type.width)
    (opens : ∀ k, k + 1 = st.fieldOffsets.length → ¬ f.TakesUnit known k (8 * type.width)) :
    offset + width ≤ st'.used ∧ st'.UnitOpen f known := by
  have ms := turn.isMsStruct
  have left : st.entering f type = { st with unfilledBits := 0, storageUnit := 0 } := by
    rw [State.entering, ms, if_pos rfl, State.leaveUnit, if_neg differs]
  rw [left] at h remaining
  have unit := (h.takes turn.notUnion ms turn.wide).2
  have run : f.UnitRun known (8 * type.width) st.fieldOffsets.length (st.fieldOffsets.length + 1) := by
    refine ⟨fun k later before => ?_, opens⟩
    rw [Nat.le_antisymm (Nat.le_of_lt_succ before) later]
    exact turn.takes
  have close := State.UnitOpen.of_run unit turn.positive count le_rfl run turn.found
  by_cases unlimited : f.maxFieldAlignment = 0
  · obtain ⟨divides, divides'⟩ := min_dvd turn.unitAlignment turn.power
    obtain ⟨reaches, inUnit⟩ := h.opens_unit turn.notUnion ms turn.wide unlimited turn.narrow
      turn.unitAlignment remaining rfl rfl divides divides'
    exact ⟨reaches, close fun _ => inUnit⟩
  · have reaches :=
      h.reaches_limited turn.notUnion ms turn.wide unlimited remaining fun _ => rfl
    exact ⟨reaches, close fun none => absurd none unlimited⟩

/-- In either case the bits that the bit-field takes count as used. -/
theorem keeps (powers : f.BitFieldPowers known) (unitOpen : st.UnitOpen f known)
    (suffice : f.maxFieldAlignment = 0 → f.UnitsSuffice known) :
    offset + width ≤ st'.used ∧ st'.UnitOpen f known := by
  by_cases same : st.storageUnit = 8 * type.width
  · obtain ⟨first, opening, before, run, there, inUnit⟩ :=
      unitOpen.shared (same ▸ turn.positive)
    rw [same] at run inUnit
    obtain ⟨_, opening', _, _, there', isBitField, _⟩ := run.takes first le_rfl before
    rw [there] at there'
    cases there'
    obtain ⟨asked, _⟩ := powers opening (List.mem_of_getElem? there) (by rw [isBitField]; rfl)
    exact turn.continues h remaining count same before run there
      (f.unitAlignment_isPowerOfTwo turn.power asked) inUnit suffice
  · refine turn.begins h remaining count same fun k last takes => ?_
    by_cases closed : st.storageUnit = 0
    · exact unitOpen.alone closed k _ last takes
    · obtain ⟨first, _, before, run, _⟩ := unitOpen.shared closed
      exact same ((run.takes k (by omega) (by omega)).unique takes)

end UnitTurn

/-- What one field keeps: it lies behind all others, and what is open is part of a run. -/
theorem layAnyField_units (unsupplied : f.supplied = none) (notUnion : f.isUnion = false)
    (powers : f.BitFieldPowers known) (suffice : f.maxFieldAlignment = 0 → f.UnitsSuffice known)
    (found : f.declaration.fields[st.fieldOffsets.length]? = some field)
    (inOrder : st.InOrder f known) (unitOpen : st.UnitOpen f known) :
    Ends (fun _ => True) ((layAnyField f st (field, st.fieldOffsets.length)).eval known) fun st' =>
      st'.InOrder f known ∧ st'.UnitOpen f known ∧
        st'.fieldOffsets.length = st.fieldOffsets.length + 1 := by
  have count {offset : Nat} {st' : State} (next : FieldLaid f known field offset st st') :
      st'.fieldOffsets.length = st.fieldOffsets.length + 1 := by
    rw [next.listed, List.length_append, List.length_singleton]
  by_cases shares : f.SharesUnit known field
  · obtain ⟨ms, width, type, isBitField, wide, typed, narrow⟩ := shares
    obtain ⟨asked, sizes⟩ := powers field (List.mem_of_getElem? found) (by rw [isBitField]; rfl)
    have turn : UnitTurn f known st field width type :=
      ⟨notUnion, ms, found, isBitField, wide, typed, narrow,
        Quantity.isPowerOfTwo_bits (sizes type typed), asked⟩
    rw [layAnyField, isBitField]
    refine (layBitField_lays unsupplied).imp fun st' => ?_
    rintro ⟨type', typed', remaining, ⟨exceeds, _⟩ | ⟨_, offset, laid⟩⟩
    · rw [typed] at typed'
      cases typed'
      exact absurd narrow (Nat.not_le_of_lt exceeds)
    rw [typed] at typed'
    cases typed'
    have aligned : f.bitTypeAlignment st width type = 8 * type.width := by
      simp [Frame.bitTypeAlignment, declaredAlignment, isZeroLengthBoundary, ms, wide]
    rw [aligned] at laid
    have next := (laid.fieldLaid isBitField remaining fun _ => turn.sharesUnit).of_left
      entering_frame.1 entering_frame.2
    obtain ⟨reaches, unitOpen'⟩ := turn.keeps laid remaining (count next) powers unitOpen suffice
    have past : st.used ≤ offset := used_le_entering.trans (laid.past notUnion)
    refine ⟨inOrder.push next notUnion found past ?_, unitOpen', count next⟩
    rwa [Setting.bits, isBitField]
  · refine (layAnyField_ends unsupplied).imp ?_
    rintro st' ⟨offset, next⟩
    obtain ⟨past, reaches, closed⟩ := next.apart notUnion shares inOrder.remaining
    exact ⟨inOrder.push next notUnion found past reaches.ge, .of_alone next found shares closed,
      count next⟩

/-- What all fields keep. -/
theorem layFields_units (unsupplied : f.supplied = none) (notUnion : f.isUnion = false)
    (powers : f.BitFieldPowers known) (suffice : f.maxFieldAlignment = 0 → f.UnitsSuffice known)
    (inOrder : st.InOrder f known) (unitOpen : st.UnitOpen f known) (none : st.fieldOffsets = []) :
    Ends (fun _ => True) ((layFields f st).eval known) (·.InOrder f known) := by
  unfold layFields
  rw [LayoutM.eval_foldlM]
  refine (Ends.foldlM (K := fun done _ st => st.InOrder f known ∧ st.UnitOpen f known ∧
    st.fieldOffsets.length = done.length) ⟨inOrder, unitOpen, by simp [none]⟩ ?_).imp
      fun _ kept => kept.1
  rintro done ⟨field, index⟩ rest mid split ⟨inOrder, unitOpen, count⟩
  have here : f.declaration.fields.zipIdx[done.length]? = some (field, index) := by simp [split]
  rw [List.getElem?_zipIdx, Option.map_eq_some_iff] at here
  obtain ⟨field', found, same⟩ := here
  cases same
  rw [Nat.zero_add, ← count]
  rw [← count] at found
  refine (layAnyField_units unsupplied notUnion powers suffice found inOrder unitOpen).imp ?_
  rintro next ⟨inOrder', unitOpen', count'⟩
  exact ⟨inOrder', unitOpen', by rw [count', count, List.length_append]; rfl⟩

/-- At the end of the fields of a record. -/
theorem FieldsRun.inOrder {layout : RecordLayout} {g : SubobjectGraph} {pieces : List Piece}
    (run : FieldsRun f known layout g pieces st st') (unsupplied : f.supplied = none)
    (notUnion : f.isUnion = false) (powers : f.BitFieldPowers known)
    (suffice : f.maxFieldAlignment = 0 → f.UnitsSuffice known) : st'.InOrder f known := by
  have start : st.InOrder f known := by
    refine ⟨run.remaining, run.progress.laid.sized, ?_, ?_⟩
    · intro k k' field start start' _ _ at'
      rw [run.unplaced] at at'
      cases at'
    · intro k field start _ at'
      rw [run.unplaced] at at'
      cases at'
  have closed : st.UnitOpen f known := by
    refine ⟨fun _ k _ last => ?_, fun opens => absurd run.storageUnit opens⟩
    rw [run.unplaced] at last
    cases last
  exact Ends.holds (layFields_units unsupplied notUnion powers suffice start closed run.unplaced)
    run.run

end Run

end Itanium

section Rule

open Itanium

variable {s : Setting} {known : Known} {d : RecordId} {layout : RecordLayout}

/-- The bits of the fields that a record itself declares are inside the record, and no two fields have
one in common. -/
structure RangesApart (s : Setting) (known : Known) (d : RecordId) (layout : RecordLayout) :
    Prop where
  disjoint : ∀ k k' start stop start' stop', k ≠ k' → HasField s known d k start stop →
    HasField s known d k' start' stop' → Disjoint (Set.Ico start stop) (Set.Ico start' stop')
  inside : ∀ k start stop, HasField s known d k start stop → stop ≤ 8 * layout.size

/-- No two fields of a record that is no union share a bit. Under `ms_struct` this takes a maximum for
the alignment of fields, or that no bit-field asks for more alignment than its unit has. -/
theorem bit_field_units_never_share {depth : Nat} (itanium : s.IsItanium)
    (notUnion : (s.tree.record d).isUnion = false)
    (powers : (Frame.ofRecord s d none).BitFieldPowers (s.known depth))
    (suffice : (Frame.ofRecord s d none).maxFieldAlignment = 0 →
      (Frame.ofRecord s d none).UnitsSuffice (s.known depth))
    (laid : (s.known depth).record d = .ok layout) :
    RangesApart s (s.known depth) d layout := by
  have knows := Setting.known_knows itanium.rules depth
  obtain ⟨g, pieces, st, last, run⟩ := knows.fieldsRun itanium laid
  have inOrder := run.inOrder rfl notUnion powers suffice
  have offset {k x : Nat} (at' : (s.known depth).fieldOffset? d k = some x) :
      last.fieldOffsets[k]? = some x := by
    rwa [Known.fieldOffset?_eq laid, run.fieldOffsets] at at'
  have ordered {k k' start stop start' stop' : Nat} (before : k < k')
      (first : HasField s (s.known depth) d k start stop)
      (second : HasField s (s.known depth) d k' start' stop') : stop ≤ start' := by
    obtain ⟨field, bits, found, has, at', rfl⟩ := first
    obtain ⟨_, _, _, _, at'', _⟩ := second
    rw [← has.eq]
    exact inOrder.ordered k k' field start start' before found (offset at') (offset at'')
  constructor
  case disjoint =>
    intro k k' start stop start' stop' differs first second
    rw [Set.Ico_disjoint_Ico]
    rcases Nat.lt_or_gt_of_ne differs with before | after
    · exact (min_le_left _ _).trans ((ordered before first second).trans (le_max_right _ _))
    · exact (min_le_right _ _).trans ((ordered after second first).trans (le_max_left _ _))
  case inside =>
    rintro k start stop ⟨field, bits, found, has, at', rfl⟩
    have reached := inOrder.reached k field start found (offset at')
    rw [← has.eq]
    calc start + s.bits (s.known depth) field ≤ last.used := reached
      _ ≤ last.dataSize := Nat.sub_le _ _
      _ ≤ last.size := inOrder.sized
      _ ≤ 8 * layout.size := run.inside

/-- Bit-fields without attributes of their own never ask for more than their unit has. -/
theorem Itanium.Frame.unitsSuffice_of_bare {f : Frame}
    (bare : ∀ field ∈ f.declaration.fields, field.isPacked = false ∧ field.alignment = none) :
    f.UnitsSuffice known := by
  intro typeSize first k opening field _ _ takes there found
  obtain ⟨_, _, width, _, _, _, wide, _, narrow, _⟩ := takes
  have positive : 1 ≤ typeSize := (Nat.pos_of_ne_zero wide).trans_le narrow
  have alike {field : Field} {k : Nat} (found : f.declaration.fields[k]? = some field) :
      f.unitAlignment typeSize field =
        if f.isPacked || !f.target.bitFieldRules.typeAlignment then 1 else typeSize := by
    obtain ⟨unpacked, unasked⟩ := bare field (List.mem_of_getElem? found)
    rw [unitAlignment, unpacked, unasked, Bool.or_false]
    exact Nat.max_eq_left (Nat.zero_le _)
  rw [alike found, alike there]
  refine ⟨?_, le_rfl⟩
  split
  · exact positive
  · exact le_rfl

end Rule

/-- For C: `b` does not fit into what `a` leaves of its unit, and `c` takes a unit of its own. -/
def threeUnits : Setting :=
  { Setting.linux [
      .ofFields "S" [
        { name := "a", type := .scalar ⟨0⟩ (.integer .int .signed), bitWidth := some 20 },
        { name := "b", type := .scalar ⟨0⟩ (.integer .int .signed), bitWidth := some 20 },
        { name := "c", type := .scalar ⟨1⟩ .plainChar, bitWidth := some 3 }]
        .struct { isMsStruct := true }] [] with options := {} }

theorem bit_field_units_never_share_threeUnits : ∃ layout,
    (threeUnits.known 3).record ⟨0⟩ = .ok layout ∧ layout.fieldOffsets = [0, 32, 64] ∧
      RangesApart threeUnits (threeUnits.known 3) ⟨0⟩ layout := by
  obtain ⟨layout, laid⟩ := exists_ok (by decide +kernel :
    ((threeUnits.known 3).record ⟨0⟩).isOk = true)
  have offsets : ((threeUnits.known 3).record ⟨0⟩).toOption.map (·.fieldOffsets) =
      some [0, 32, 64] := by decide +kernel
  rw [laid] at offsets
  have each : ∀ field ∈ (threeUnits.tree.record ⟨0⟩).fields,
      (field.isPacked = false ∧ field.alignment = none) ∧
      ((threeUnits.known 3).type field.type).toOption.all
        (fun type => Quantity.isPowerOfTwo type.width) = true := by decide +kernel
  have powers : (Itanium.Frame.ofRecord threeUnits ⟨0⟩ none).BitFieldPowers (threeUnits.known 3) := by
    intro field member _
    obtain ⟨⟨_, unasked⟩, sized⟩ := each field member
    refine ⟨by simp [unasked], fun type typed => ?_⟩
    rwa [typed] at sized
  have suffice : (Itanium.Frame.ofRecord threeUnits ⟨0⟩ none).UnitsSuffice (threeUnits.known 3) :=
    Itanium.Frame.unitsSuffice_of_bare fun field member => (each field member).1
  exact ⟨layout, laid, Option.some.inj offsets, bit_field_units_never_share ⟨rfl, fun _ => rfl⟩ rfl
    powers (fun _ => suffice) laid⟩

/-- For C: `b` asks for more alignment than its unit has, and goes to the next multiple of that. The
data is counted as if it had gone to the next unit. -/
def laterUnit : Setting :=
  { Setting.linux [
      .ofFields "S" [
        { name := "a", type := .scalar ⟨0⟩ (.integer .int .signed), bitWidth := some 20 },
        { name := "b", type := .scalar ⟨0⟩ (.integer .int .signed), bitWidth := some 20,
          alignment := some 8 },
        { name := "c", type := .scalar ⟨1⟩ .plainChar }]
        .struct { isMsStruct := true }] [] with options := {} }

/-- Without the condition on its units, an `ms_struct` record may have fields that share bits. -/
theorem bit_field_units_share_laterUnit : laterUnit.IsItanium ∧
    (laterUnit.tree.record ⟨0⟩).isUnion = false ∧ (laterUnit.tree.record ⟨0⟩).bases = [] ∧
    (laterUnit.tree.record ⟨0⟩).attributes.isMsStruct = true ∧
    (∃ layout, (laterUnit.known 3).record ⟨0⟩ = .ok layout) ∧
    HasField laterUnit (laterUnit.known 3) ⟨0⟩ 1 64 84 ∧
    HasField laterUnit (laterUnit.known 3) ⟨0⟩ 2 64 72 ∧
    ¬ Disjoint (Set.Ico 64 84) (Set.Ico 64 72) := by
  refine ⟨⟨rfl, fun _ => rfl⟩, rfl, rfl, rfl, exists_ok (by decide +kernel), ?_, ?_, ?_⟩
  · exact ⟨_, 20, rfl, rfl, by decide +kernel, rfl⟩
  · exact ⟨_, 8, rfl, ⟨1, by decide +kernel, rfl⟩, by decide +kernel, rfl⟩
  · rw [Set.Ico_disjoint_Ico]
    decide

end ObjectLayout
