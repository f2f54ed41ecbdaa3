import ObjectLayout.Proofs.Arithmetic
import ObjectLayout.Proofs.Itanium.BareClass
import ObjectLayout.Proofs.Itanium.Raising
import ObjectLayout.Proofs.Itanium.VirtualOffsets

/-! Layouts under the Itanium rules that fail in their arithmetic alone. Without bases three things
besides could stop one: a type without a layout, an alignment that is no power of two, and a search for
a place that does not come to its end. -/
namespace ObjectLayout

theorem Ty.isIncomplete_canonical (tree : Tree) (type : Ty) :
    type.canonical.isIncomplete tree = type.isIncomplete tree := by
  fun_induction Ty.canonical type <;> simp_all [Ty.isIncomplete]

namespace Itanium

open LayoutM (ends_bind ends_lift_bind)
open Quantity (isPowerOfTwo IsPowerOrZero isPowerOfTwo_max_right)

variable {f : Frame} {known : Known} {st st' : State} {field : Field} {index : Nat}

/-- What the layout of a field relies on. -/
structure Frame.SuitsField (f : Frame) (known : Known) (field : Field) : Prop where
  asked : ∀ n ∈ field.alignment, isPowerOfTwo n = true
  type : Ends Fault.IsArithmetic (known.type field.type) fun layout =>
    isPowerOfTwo layout.alignment = true
  complete : field.type.isIncomplete f.tree = false
  floor : IsPowerOrZero (fieldExtent.scalarFloor f field.type)
  unit : field.bitWidth.isSome → ∀ layout, known.type field.type = .ok layout →
    isPowerOfTwo layout.width = true

/-- What the layout of a record without bases relies on. -/
structure Frame.Suits (f : Frame) (known : Known) : Prop where
  unsupplied : f.supplied = none
  bases : f.declaration.bases = []
  packed : f.PacksToPowers
  declared : ∀ n ∈ f.declaration.attributes.alignment, isPowerOfTwo n = true
  field : ∀ field ∈ f.declaration.fields, f.SuitsField known field
  boundary : IsPowerOrZero (Bits.toBytesFloor f.target.bitFieldRules.zeroLengthBoundary)

/-- A search for a place comes to its end: either no map is asked, or what a field holds is known and
the map knows how far it reaches. -/
def State.Searchable (f : Frame) (known : Known) (st : State) : Prop :=
  st.emptyMap = none ∨ (Workable f known (· = .overflow) ∧ st.MapBounded)

/-- Sizes can be rounded up to both alignments of the state. -/
structure State.Positive (st : State) : Prop where
  alignment : 0 < st.alignment
  unpacked : 0 < st.unpackedAlignment

theorem raiseAlignment_arithmetic {packed unpacked : Nat} (hp : isPowerOfTwo packed = true)
    (hu : isPowerOfTwo unpacked = true) (positive : st.Positive) :
    Ends Fault.IsArithmetic (st.raiseAlignment f packed unpacked) State.Positive := by
  have done (condition : Prop) [Decidable condition] {n : Nat} {next : Checked State}
      (power : isPowerOfTwo n = true) (rest : Ends Fault.IsArithmetic next State.Positive) :
      Ends Fault.IsArithmetic (if condition then
        ensure (isPowerOfTwo n) .alignmentNotPowerOfTwo >>= fun _ => next else next) State.Positive := by
    rw [power]
    split <;> exact rest
  unfold State.raiseAlignment
  split
  · exact positive
  · exact done _ hp (done _ hu ⟨positive.alignment.trans_le (Nat.le_max_left _ _),
      positive.unpacked.trans_le (Nat.le_max_left _ _)⟩)

section Fields

theorem fieldExtent_arithmetic (suits : f.SuitsField known field) :
    Ends Fault.IsArithmetic ((fieldExtent f field.type).eval known) fun extent =>
      isPowerOfTwo extent.2 = true := by
  unfold fieldExtent
  split
  case h_1 id element canonical =>
    have complete := suits.complete
    rw [← Ty.isIncomplete_canonical, canonical] at complete
    cases complete
  case h_2 | h_3 => exact f.target.pointerWidth_isPowerOfTwo
  case h_4 =>
    refine ends_bind (G := fun layout => isPowerOfTwo layout.alignment = true) ?_ fun layout power => ?_
    · rw [LayoutM.eval_typeLayoutOf]
      exact suits.type
    · exact isPowerOfTwo_max_right power suits.floor

variable (suits : f.Suits known) (member : field ∈ f.declaration.fields)
include suits member

/-- The search comes to its end, and changes nothing but the map. -/
theorem chooseFieldOffset_arithmetic (searchable : st.Searchable f known) {alignment start : Nat}
    (positive : 0 < alignment) :
    Ends Fault.IsArithmetic ((chooseFieldOffset f st index field.type alignment start).eval known)
      fun found => found.1 = { st with emptyMap := found.1.emptyMap } := by
  by_cases unasked : f.isUnion = true ∨ st.emptyMap = none
  · rw [chooseFieldOffset_unasked suits.unsupplied unasked]
    exact rfl
  obtain ⟨asked, some⟩ := not_or.mp unasked
  obtain ⟨work, bounded⟩ := searchable.resolve_left some
  have placed (y : Nat) : Arithmetic ((st.placeField? f field.type y).eval known) := by
    unfold State.placeField?
    rw [if_neg asked]
    refine (placeIn_ends fun map here => ?_).imp fun _ _ => trivial
    refine (placeField?_ends work.knows (bounded map here) (.inl (.inl rfl))
      (fun m => work.explorable_field member) fun _ _ _ => .inr (.inl rfl)).imp fun _ _ => trivial
  unfold chooseFieldOffset
  rw [suits.unsupplied]
  refine (probe_ends (st.emptyMap.getD {}).highest (.inl rfl) (fun y => (placed y).remember)
    (fun y refused => le_highest_of_refusedField work member bounded refused) _ start
    (attemptsFrom_enough _ start positive)).imp ?_
  rintro ⟨st', x⟩ ⟨⟨found, -⟩, -⟩
  exact placeField?_frame found

theorem layField_arithmetic (searchable : st.Searchable f known) (positive : st.Positive) :
    Ends Fault.IsArithmetic ((layField f index field st).eval known) State.Positive := by
  have own := suits.field field member
  have asked : IsPowerOrZero (field.alignment.getD 0) := .getD own.asked
  unfold layField
  refine ends_lift_bind (Arithmetic.sub _ _) fun unpadded _ => ?_
  dsimp only
  refine ends_bind (fieldExtent_arithmetic own) ?_
  rintro ⟨size, natural⟩ power
  have clamped {n : Nat} (power : isPowerOfTwo n = true) :
      isPowerOfTwo (f.clamp (max n (field.alignment.getD 0))) = true :=
    clamp_isPowerOfTwo suits.packed (isPowerOfTwo_max_right power asked)
  have packed : isPowerOfTwo (if (f.isPacked || field.isPacked) = true then 1 else natural) = true := by
    split
    · exact Quantity.isPowerOfTwo_pow 0
    · exact power
  have first := Quantity.pos_of_isPowerOfTwo (clamped packed)
  have second := Quantity.pos_of_isPowerOfTwo (clamped power)
  dsimp only
  refine ends_lift_bind (Arithmetic.alignTo _ first) fun start _ => ?_
  refine ends_lift_bind (Arithmetic.alignTo _ second) fun unpackedStart _ => ?_
  have left : State.Searchable f known { st with unfilledBits := 0, storageUnit := 0 } := searchable
  refine ends_bind (chooseFieldOffset_arithmetic suits member left first) ?_
  rintro ⟨st₁, x⟩ frame
  dsimp only at frame ⊢
  refine ends_lift_bind (Arithmetic.toBits x) fun offset _ => ?_
  have finish (dataSize : Bits) : Ends Fault.IsArithmetic
      (((st₁.placeFieldAt offset).setDataSize dataSize).raiseAlignment f
        (f.clamp (max (if (f.isPacked || field.isPacked) = true then 1 else natural)
          (field.alignment.getD 0)))
        (f.clamp (max natural (field.alignment.getD 0)))) State.Positive := by
    refine raiseAlignment_arithmetic (clamped packed) (clamped power) ?_
    rw [frame]
    exact ⟨positive.alignment, positive.unpacked⟩
  simp only [suits.unsupplied, Option.isNone_none, if_true]
  refine ends_lift_bind (Arithmetic.toBits _) fun _ _ => ?_
  refine ends_lift_bind (Arithmetic.toBits _) fun _ _ => ?_
  refine ends_bind (G := fun _ => True) (by rw [eval_reportPlacement]; trivial) fun _ _ => ?_
  split
  · refine ends_lift_bind (Arithmetic.toBits _) fun stop _ => ?_
    rw [pure_bind, LayoutM.eval_lift]
    exact finish _
  · refine ends_lift_bind (Arithmetic.add _ _) fun stop _ => ?_
    refine ends_lift_bind (Arithmetic.toBits _) fun dataSize _ => ?_
    rw [LayoutM.eval_lift]
    exact finish _

end Fields

section BitFields

/-- An alignment in bits that stays a power of two when it is counted in bytes, if it comes to any. -/
structure IsBitAlignment (n : Bits) : Prop where
  positive : 0 < n
  bytes : IsPowerOrZero (Bits.toBytesFloor n)

namespace IsBitAlignment

variable {m n : Bits}

theorem one : IsBitAlignment 1 := ⟨Nat.one_pos, .inl rfl⟩

theorem ofBytes {n : Bytes} (power : isPowerOfTwo n = true) : IsBitAlignment (n * Quantity.bitsPerByte) := by
  refine ⟨Nat.mul_pos (Quantity.pos_of_isPowerOfTwo power) (by decide), .inr ?_⟩
  rwa [Bits.toBytesFloor, Nat.mul_div_cancel n (by decide)]

theorem max (h : IsBitAlignment m) (bytes : IsPowerOrZero (Bits.toBytesFloor n)) :
    IsBitAlignment (Max.max m n) := by
  refine ⟨h.positive.trans_le (Nat.le_max_left _ _), ?_⟩
  rcases Nat.le_total m n with le | le
  · rwa [Nat.max_eq_right le]
  · rw [Nat.max_eq_left le]
    exact h.bytes

theorem min (h : IsBitAlignment m) (h' : IsBitAlignment n) : IsBitAlignment (Min.min m n) := by
  rcases Nat.le_total m n with le | le
  · rwa [Nat.min_eq_left le]
  · rwa [Nat.min_eq_right le]

end IsBitAlignment

variable {width typeSize typeAlignment : Bits}

theorem bitAlignment_arithmetic (packed : f.PacksToPowers)
    (asked : ∀ n ∈ field.alignment, isPowerOfTwo n = true)
    (type : IsBitAlignment typeAlignment) (isPacked ignoresType : Bool) :
    Ends Fault.IsArithmetic (bitAlignment f field isPacked ignoresType width typeAlignment)
      fun alignment => IsBitAlignment alignment.actual ∧ IsBitAlignment alignment.unpacked := by
  unfold bitAlignment
  refine Ends.bind (Arithmetic.toBits _).remember ?_
  rintro bits ⟨whole, -⟩
  have bytes : IsPowerOrZero (Bits.toBytesFloor bits) := by
    obtain ⟨rfl, _⟩ := Quantity.mul_eq_ok_iff.mp whole
    rw [Bits.toBytesFloor, Nat.mul_div_cancel _ (by decide)]
    exact .getD asked
  have either (condition : Bool) : IsBitAlignment (max (if condition then 1 else typeAlignment) bits) := by
    refine IsBitAlignment.max ?_ bytes
    split
    · exact .one
    · exact type
  dsimp only
  split
  · exact ⟨either _, either _⟩
  · rename_i limited
    have most : isPowerOfTwo f.maxFieldAlignment = true := by
      refine packed.resolve_left fun zero => limited ?_
      simp [zero]
    refine Ends.bind (Arithmetic.toBits _).remember ?_
    rintro bits ⟨whole, -⟩
    obtain ⟨rfl, _⟩ := Quantity.mul_eq_ok_iff.mp whole
    exact ⟨(either _).min (.ofBytes most), (either _).min (.ofBytes most)⟩

theorem avoidCrossing_arithmetic {alignment : Bits} (positive : 0 < alignment) (offset : Bits) :
    Arithmetic (avoidCrossing f offset alignment width typeSize) := by
  have crosses : Arithmetic (crossesUnit f offset alignment width typeSize) := by
    unfold crossesUnit
    split
    · trivial
    · refine Ends.bind (Arithmetic.sub _ _) fun mask _ => ?_
      exact Ends.bind (Arithmetic.add _ _) fun _ _ => trivial
  unfold avoidCrossing
  split
  · exact Arithmetic.alignTo _ positive
  · refine Ends.bind crosses fun crosses _ => ?_
    split
    · exact Arithmetic.alignTo _ positive
    · trivial

theorem endAt_arithmetic (st : State) (stop : Bits) : Arithmetic (st.endAt stop) := by
  unfold State.endAt
  refine Ends.bind (Arithmetic.toBits _) fun dataSize _ => ?_
  exact Ends.bind (Arithmetic.sub _ _) fun _ _ => trivial

theorem occupyBits_arithmetic (st : State) (offset : Bits) :
    Arithmetic (st.occupyBits f offset width typeSize) := by
  unfold State.occupyBits
  split
  · trivial
  · split
    · have opened (start : Bits) : Arithmetic (do
          let dataSize ← Quantity.add start typeSize
          let unfilledBits ← Quantity.sub typeSize width
          return { st with dataSize, unfilledBits, storageUnit := typeSize } : Checked State) := by
        refine Ends.bind (Arithmetic.add _ _) fun _ _ => ?_
        exact Ends.bind (Arithmetic.sub _ _) fun _ _ => trivial
      unfold State.takeFromUnit
      split
      · exact opened offset
      · split
        · exact opened st.dataSize
        · trivial
    · refine Ends.bind (Arithmetic.add _ _) fun stop _ => ?_
      exact Ends.bind (endAt_arithmetic st stop) fun _ _ => trivial

/-- A maximum with one is a power of two, whatever comes to nothing in bytes. -/
theorem isPowerOfTwo_bytes {n : Bits} (h : IsBitAlignment n) :
    isPowerOfTwo (max (Bits.toBytesFloor n) 1) = true := by
  rw [Nat.max_comm]
  exact isPowerOfTwo_max_right (Quantity.isPowerOfTwo_pow 0) h.bytes

theorem widestCoveredAlignment_arithmetic :
    Ends Fault.IsArithmetic (widestCoveredAlignment f width) fun alignment =>
      IsBitAlignment alignment ∧ isPowerOfTwo (Bits.toBytesFloor alignment) = true := by
  unfold widestCoveredAlignment
  dsimp only
  refine (Arithmetic.toBits _).remember.imp ?_
  rintro bits ⟨whole, -⟩
  obtain ⟨rfl, _⟩ := Quantity.mul_eq_ok_iff.mp whole
  have integer (rank : IntegerRank) : isPowerOfTwo (f.target.integerLayout rank).alignment = true :=
    (@Target.scalarLayout_wellFormed f.setting (f.setting.known 0) (.unresolved ⟨0⟩) f.target
      (.integer rank .signed)).power
  generalize same : (IntegerRank.all.map f.target.integerLayout).takeWhile _ = covered
  have power : isPowerOfTwo (covered.getLast?.getD f.target.charLayout).alignment = true := by
    cases last : covered.getLast? with
    | none => exact Quantity.isPowerOfTwo_pow 0
    | some layout =>
      have listed : layout ∈ IntegerRank.all.map f.target.integerLayout :=
        List.takeWhile_subset _ (same ▸ List.mem_of_getLast? last)
      obtain ⟨rank, _, rfl⟩ := List.mem_map.mp listed
      exact integer rank
  refine ⟨.ofBytes power, ?_⟩
  rwa [Bits.toBytesFloor, Nat.mul_div_cancel _ (by decide)]

theorem layWideBitField_arithmetic (positive : st.Positive) (isPacked : Bool) :
    Ends Fault.IsArithmetic ((layWideBitField f index field width isPacked st).eval known)
      State.Positive := by
  unfold layWideBitField
  refine ends_lift_bind widestCoveredAlignment_arithmetic fun alignment ⟨bits, power⟩ => ?_
  dsimp only
  have rest {st₁ : State} {offset : Bits} (positive : st₁.Positive) {report : LayoutM Unit}
      (told : report.eval known = .ok ()) : Ends Fault.IsArithmetic ((do
        report
        liftM (((st₁.placeFieldAt offset).setDataSize st₁.dataSize).raiseAlignment f
          (Bits.toBytesFloor alignment) (Bits.toBytesFloor alignment)) : LayoutM State).eval known)
        State.Positive := by
    refine ends_bind (G := fun _ => True) (by rw [told]; trivial) fun _ _ => ?_
    rw [LayoutM.eval_lift]
    exact raiseAlignment_arithmetic power power ⟨positive.alignment, positive.unpacked⟩
  split
  · rw [pure_bind]
    refine rest ?_ (eval_reportPlacement _)
    exact ⟨positive.alignment, positive.unpacked⟩
  · refine ends_lift_bind (Arithmetic.alignTo _ bits.positive) fun offset _ => ?_
    refine ends_lift_bind (Arithmetic.add _ _) fun stop _ => ?_
    refine ends_lift_bind ((endAt_arithmetic _ stop).and (endAt_ends stop)) ?_
    rintro st₁ ⟨-, frame, -⟩
    rw [pure_bind]
    refine rest ?_ (eval_reportPlacement _)
    rw [frame]
    exact ⟨positive.alignment, positive.unpacked⟩

theorem layNarrowBitField_arithmetic (unsupplied : f.supplied = none) (packed : f.PacksToPowers)
    (asked : ∀ n ∈ field.alignment, isPowerOfTwo n = true) (type : IsBitAlignment typeAlignment)
    (positive : st.Positive) (isPacked : Bool) (unpadded : Bits) :
    Ends Fault.IsArithmetic ((layNarrowBitField f index field width typeSize typeAlignment isPacked
      unpadded st).eval known) State.Positive := by
  unfold layNarrowBitField
  refine ends_lift_bind (bitAlignment_arithmetic packed asked type isPacked _) ?_
  rintro alignment ⟨actual, unpacked⟩
  simp only [unsupplied, Option.isNone_none, if_true, adoptFieldOffset, Option.bind_none]
  -- What is left of the alignment where the field must not show.
  have shown (isSilent : Bool) : IsBitAlignment (if isSilent then ⟨1, 1⟩ else alignment).actual ∧
      IsBitAlignment (if isSilent then ⟨1, 1⟩ else alignment).unpacked := by
    split
    · exact ⟨.one, .one⟩
    · exact ⟨actual, unpacked⟩
  have rest (start start' : Bits) (placement : Bits → Bits → FieldPlacement) (isSilent : Bool) :
      Ends Fault.IsArithmetic ((do
        let offset ← avoidCrossing f start alignment.actual width typeSize
        let unpackedOffset ← avoidCrossing f start' alignment.unpacked width typeSize
        reportPlacement f (placement offset unpackedOffset)
        let st ← (st.placeFieldAt offset).occupyBits f offset width typeSize
        (st.setDataSize st.dataSize).raiseAlignment f
          (max (Bits.toBytesFloor (if isSilent then ⟨1, 1⟩ else alignment).actual) 1)
          (max (Bits.toBytesFloor (if isSilent then ⟨1, 1⟩ else alignment).unpacked) 1)
        : LayoutM State).eval known) State.Positive := by
    refine ends_lift_bind (avoidCrossing_arithmetic actual.positive _) fun offset _ => ?_
    refine ends_lift_bind (avoidCrossing_arithmetic unpacked.positive _) fun _ _ => ?_
    refine ends_bind (G := fun _ => True) (by rw [eval_reportPlacement]; trivial) fun _ _ => ?_
    refine ends_lift_bind ((occupyBits_arithmetic _ _).and (occupyBits_frame _ _ _)) ?_
    rintro st₁ ⟨-, frame⟩
    rw [LayoutM.eval_lift]
    refine raiseAlignment_arithmetic (isPowerOfTwo_bytes (shown isSilent).1)
      (isPowerOfTwo_bytes (shown isSilent).2) ?_
    rw [frame]
    exact ⟨positive.alignment, positive.unpacked⟩
  split
  · refine ends_lift_bind (Arithmetic.alignTo _ actual.positive) fun _ _ => ?_
    exact ends_lift_bind (Arithmetic.alignTo _ unpacked.positive) fun _ _ => rest _ _ _ _
  · rw [pure_bind, pure_bind]
    exact rest _ _ _ _

/-- The alignment that the declared type brings. -/
theorem declaredAlignment_isBitAlignment {natural : Bits} (natural' : IsBitAlignment natural)
    (unit : IsBitAlignment typeSize) : IsBitAlignment (declaredAlignment f st width typeSize natural) := by
  unfold declaredAlignment
  split
  · exact natural'
  · split
    · exact .one
    · exact unit

theorem layBitField_arithmetic (suits : f.Suits known) (member : field ∈ f.declaration.fields)
    (isBitField : field.bitWidth = some width) (positive : st.Positive) :
    Ends Fault.IsArithmetic ((layBitField f index field width st).eval known) State.Positive := by
  have own := suits.field field member
  unfold layBitField
  refine ends_bind (G := fun layout => isPowerOfTwo layout.width = true ∧
    isPowerOfTwo layout.alignment = true) ?_ ?_
  · rw [LayoutM.eval_typeLayoutOf]
    exact own.type.remember.imp fun layout ⟨laid, power⟩ =>
      ⟨own.unit (by simp [isBitField]) layout laid, power⟩
  rintro layout ⟨wide, aligned⟩
  refine ends_lift_bind (Arithmetic.toBits _).remember fun typeSize ⟨size, _⟩ => ?_
  refine ends_lift_bind (Arithmetic.toBits _).remember fun natural ⟨bits, _⟩ => ?_
  obtain ⟨rfl, _⟩ := Quantity.mul_eq_ok_iff.mp size
  obtain ⟨rfl, _⟩ := Quantity.mul_eq_ok_iff.mp bits
  dsimp only
  generalize same : (if f.isMsStruct = true then st.leaveUnit _ else st) = st₀
  have left : st₀.Positive := by
    rw [← same]
    split
    · rw [leaveUnit_frame.1]
      exact ⟨positive.alignment, positive.unpacked⟩
    · exact positive
  refine ends_lift_bind (Arithmetic.sub _ _) fun unpadded _ => ?_
  split
  · exact layWideBitField_arithmetic left _
  · refine layNarrowBitField_arithmetic suits.unsupplied suits.packed own.asked ?_ left _ _
    have declared : IsBitAlignment (declaredAlignment f st width (layout.width * _) _) :=
      declaredAlignment_isBitAlignment (.ofBytes aligned) (.ofBytes wide)
    split
    · exact declared.max suits.boundary
    · exact declared

end BitFields

section Whole

variable (suits : f.Suits known)
include suits

/-- What the fields of a record keep, from the first to the last. -/
structure State.Ready (f : Frame) (known : Known) (st : State) : Prop where
  searchable : st.Searchable f known
  positive : st.Positive

theorem layAnyField_arithmetic (member : field ∈ f.declaration.fields) (ready : st.Ready f known) :
    Ends Fault.IsArithmetic ((layAnyField f st (field, index)).eval known) (State.Ready f known) := by
  have laid : Ends Fault.IsArithmetic ((layAnyField f st (field, index)).eval known)
      State.Positive := by
    unfold layAnyField
    cases isBitField : field.bitWidth with
    | some width => exact layBitField_arithmetic suits member isBitField ready.positive
    | none => exact layField_arithmetic suits member ready.searchable ready.positive
  refine (laid.and (layAnyField_ends suits.unsupplied)).imp ?_
  rintro st' ⟨positive, offset, next⟩
  refine ⟨?_, positive⟩
  rcases ready.searchable with unmapped | ⟨work, bounded⟩
  · exact .inl (next.unmapped unmapped)
  · exact .inr ⟨work, next.mapBounded work member bounded⟩

theorem layFields_arithmetic (ready : st.Ready f known) :
    Ends Fault.IsArithmetic ((layFields f st).eval known) (State.Ready f known) := by
  unfold layFields
  rw [LayoutM.eval_foldlM]
  refine Ends.foldlM_keeps ready fun entry member st ready => ?_
  exact layAnyField_arithmetic suits (List.fst_mem_of_mem_zipIdx member) ready

theorem initial_arithmetic (map : Option EmptyMap) :
    Ends Fault.IsArithmetic (State.initial f map) State.Positive := by
  have fresh : State.Positive { emptyMap := map } := ⟨Nat.one_pos, Nat.one_pos⟩
  unfold State.initial
  rw [suits.unsupplied]
  dsimp only
  split
  · exact ⟨Nat.two_pos, Nat.one_pos⟩
  · cases asked : f.declaration.attributes.alignment with
    | none => exact fresh
    | some n =>
      have power := suits.declared n asked
      exact (raiseAlignment_arithmetic power power fresh).bind fun _ positive => positive

theorem finish_arithmetic (positive : st.Positive) : Arithmetic ((finish f st).eval known) := by
  have sized : Arithmetic (st.avoidSizeZero f) := by
    unfold State.avoidSizeZero
    split
    · exact Ends.bind (Arithmetic.toBits _) fun _ _ => trivial
    · trivial
  have bits {n : Bytes} (positive : 0 < n) : Ends Fault.IsArithmetic (Bytes.toBits n) (0 < ·) := by
    refine (Arithmetic.toBits n).remember.imp ?_
    rintro _ ⟨whole, -⟩
    obtain ⟨rfl, _⟩ := Quantity.mul_eq_ok_iff.mp whole
    exact Nat.mul_pos positive (by decide)
  unfold finish
  refine ends_lift_bind (sized.and (avoidSizeZero_ends st)) ?_
  rintro st₁ ⟨-, same, -⟩
  rw [same]
  refine ends_lift_bind (Arithmetic.sub _ _) fun _ _ => ?_
  refine ends_lift_bind (bits positive.unpacked) fun _ unpacked => ?_
  refine ends_lift_bind (Arithmetic.alignTo _ unpacked) fun _ _ => ?_
  refine ends_lift_bind (bits positive.alignment) fun _ alignment => ?_
  refine ends_lift_bind (Arithmetic.alignTo _ alignment) fun _ _ => ?_
  rw [suits.unsupplied]
  exact ends_bind (G := fun _ => True) (by rw [eval_reportSize]; trivial) fun _ _ => trivial

theorem layPlain_arithmetic : Arithmetic ((layPlain f).eval known) := by
  unfold layPlain
  refine ends_lift_bind ((initial_arithmetic suits none).and (initial_frame suits.unsupplied none)) ?_
  rintro st ⟨positive, frame⟩
  have unmapped : st.emptyMap = none := by rw [frame]
  refine ends_bind (layFields_arithmetic suits ⟨.inl unmapped, positive⟩) fun fixed ready => ?_
  exact ends_bind (finish_arithmetic suits ready.positive) fun _ _ => trivial

theorem layTablePointer_arithmetic (start : st.dataSize = 0) (positive : st.Positive) :
    Ends Fault.IsArithmetic (layTablePointer f st) State.Positive := by
  have power : isPowerOfTwo f.target.pointerLayout.alignment = true := f.target.pointerWidth_isPowerOfTwo
  have packed : isPowerOfTwo (if f.isPacked then 1 else f.target.pointerLayout.alignment) = true := by
    split
    · exact Quantity.isPowerOfTwo_pow 0
    · exact power
  have clamped {n : Nat} (power : isPowerOfTwo n = true) := clamp_isPowerOfTwo suits.packed power
  unfold layTablePointer
  refine Ends.bind (ends_ensure (G := fun _ => True) (fun _ => trivial)
    fun late => by simp [start] at late) fun _ _ => ?_
  refine Ends.bind (Arithmetic.alignTo _ (Quantity.pos_of_isPowerOfTwo (clamped packed))) fun start _ => ?_
  refine Ends.bind (Arithmetic.toBits _) fun bits _ => ?_
  refine Ends.bind (raiseAlignment_arithmetic (clamped packed) (clamped power)
    ⟨positive.alignment, positive.unpacked⟩) fun st₁ positive => ?_
  refine Ends.bind (Arithmetic.add _ _) fun stop _ => Ends.bind (Arithmetic.toBits _) fun bits _ => ?_
  exact ⟨positive.alignment, positive.unpacked⟩

theorem layNonVirtualBases_arithmetic {map : EmptyMap}
    (frame : st = { emptyMap := some map, alignment := st.alignment
                    unpackedAlignment := st.unpackedAlignment })
    (positive : st.Positive) : Ends Fault.IsArithmetic ((layNonVirtualBases f st).eval known) fun st' =>
      st'.emptyMap = some map ∧ st'.Positive := by
  rw [layNonVirtualBases_noBases suits.bases (by rw [frame]) (by rw [frame]) (by rw [frame])]
  have mapped : st.emptyMap = some map := by rw [frame]
  split
  · rw [LayoutM.eval_lift]
    have start : st.dataSize = 0 := by rw [frame]
    refine ((layTablePointer_arithmetic suits start positive).and
      (layTablePointer_raises suits.unsupplied)).imp ?_
    rintro st' ⟨positive, same, -⟩
    refine ⟨?_, positive⟩
    rw [same]
    exact mapped
  · exact ⟨mapped, positive⟩

end Whole

end Itanium

section Records

open Itanium
open LayoutM (ends_bind ends_lift_bind)

variable {s : Setting} {known : Known} {d : RecordId}
variable (knows : s.Knows known) (itanium : s.IsItanium)
variable (suits : (Frame.ofRecord s d none).Suits known)
include knows itanium suits

/-- A class without bases has its fields placed with the help of what they hold. -/
theorem Itanium.Workable.of_noBases (held : ∀ r, s.Holds d r → ∃ layout, known.record r = .ok layout) :
    Workable (Frame.ofRecord s d none) known (· = .overflow) where
  knows := knows
  unsupplied := rfl
  overflow := rfl
  grounded := (explorable_of_held knows itanium held).1
  explorable := (explorable_of_held knows itanium held).2
  union _ edge := absurd edge (Tree.not_inherits_of_noBases suits.bases)
  powers := .inl suits.packed
  plain b path := by
    obtain ⟨_, edge, _⟩ := Relation.TransGen.head'_iff.mp path
    exact absurd edge (Tree.not_inherits_of_noBases suits.bases)
  repeats repeated := by
    refine absurd ?_ repeated
    rw [Record.nonVirtualBases, suits.bases]
    exact List.nodup_nil

variable (held : ∀ r, s.Holds d r → Arithmetic (known.record r))
include held

/-- The map of a class asks for whatever the class holds, so what comes after it can rely on that. -/
theorem Itanium.layClass_arithmetic (tracking : Tracking) :
    Arithmetic ((layClass (Frame.ofRecord s d none) tracking).eval known) := by
  have mapped : Arithmetic ((EmptyMap.ofClass s tracking d).eval known) := by
    unfold EmptyMap.ofClass
    refine ends_bind (G := fun _ => True) ?_ fun _ _ => trivial
    rw [LayoutM.eval_foldlM]
    refine Ends.foldlM_keeps trivial fun r member _ _ => ?_
    refine ends_bind (G := fun _ => True) ?_ fun _ _ => trivial
    rw [LayoutM.eval_layoutOf]
    exact held r member
  unfold layClass
  refine ends_bind mapped.remember fun map ⟨built, _⟩ => ?_
  have work := Workable.of_noBases knows itanium suits (EmptyMap.ofClass_asks built)
  have empty : map.placed = [] := (Ends.holds (ofClass_ends work.sound tracking) built).2.1
  refine ends_lift_bind
    ((initial_arithmetic suits (some map)).and (initial_frame suits.unsupplied (some map))) ?_
  rintro start ⟨positive, frame⟩
  refine ends_bind (layNonVirtualBases_arithmetic suits frame positive) ?_
  rintro mid ⟨here, positive⟩
  have bounded : mid.MapBounded := by
    intro map' same
    rw [here] at same
    cases same
    exact fun e member => by simp [empty] at member
  refine ends_bind (layFields_arithmetic suits ⟨.inr ⟨work, bounded⟩, positive⟩) fun fixed ready => ?_
  rw [layVirtualBases_noBases suits.bases, pure_bind]
  exact ends_bind (finish_arithmetic suits ready.positive) fun _ _ => trivial

theorem Itanium.byRules_arithmetic : Arithmetic ((RecordLayout.byRules s d).eval known) := by
  unfold RecordLayout.byRules
  rw [itanium.rules, itanium.unsupplied d]
  change Arithmetic ((Itanium.layoutTracking .pruned s d none).eval known)
  unfold Itanium.layoutTracking
  dsimp only
  split
  · exact layClass_arithmetic knows itanium suits held .pruned
  · exact layPlain_arithmetic suits

end Records

end ObjectLayout
