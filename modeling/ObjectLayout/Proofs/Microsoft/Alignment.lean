import ObjectLayout.Proofs.Alignment
import ObjectLayout.Proofs.Enclosure
import ObjectLayout.Proofs.Microsoft.Whole

/-! Alignments under the Microsoft rules. Bases and fields raise the alignment of a record and what is
required of it, packing clamps it, pointers are pushed in and a class may be laid out again; through
all this both stay powers of two, and what is rounded at the end stays so. -/
namespace ObjectLayout.Microsoft

open LayoutM (ends_bind ends_lift_bind ends_ite_bind)
open Quantity (isPowerOfTwo IsPowerOrZero isPowerOfTwo_max_right)

variable {f : Frame} {known : Known} {st st' : State}

/-- Everything that the alignment of a record depends on is a power of two. -/
structure Frame.HasPowers (f : Frame) (known : Known) : Prop where
  declared : ∀ n ∈ f.declaration.attributes.alignment, isPowerOfTwo n = true
  field : ∀ field ∈ f.declaration.fields, ∀ n ∈ field.alignment, isPowerOfTwo n = true
  packed : IsPowerOrZero f.maxFieldAlignment
  enclosed : ∀ m layout, Relation.TransGen f.tree.Encloses f.record m →
    known.record m = .ok layout → layout.WellFormed f.setting m
  type : ∀ field ∈ f.declaration.fields, ∀ layout, known.type field.type = .ok layout →
    isPowerOfTwo layout.alignment = true

/-- The alignment of a state is a power of two, and so is what is required of it, if anything is; on
64-bit targets something is. -/
structure State.HasPowers (f : Frame) (st : State) : Prop where
  alignment : isPowerOfTwo st.alignment = true
  required : IsPowerOrZero st.requiredAlignment
  wide : f.is64Bit = true → st.requiredAlignment ≠ 0

/-- The maximum for fields is a power of two wherever packing asks for one. -/
theorem maxFieldAlignment_power {s : Setting} {r : RecordId}
    (pack : ∀ n ∈ (s.tree.record r).attributes.maxFieldAlignment, isPowerOfTwo n = true)
    (packStruct : ∀ n ∈ s.options.packStruct, isPowerOfTwo n = true) :
    IsPowerOrZero (Frame.ofRecord s r).maxFieldAlignment := by
  unfold Frame.ofRecord
  dsimp only
  split
  · exact .inr (by decide)
  · cases asked : (s.tree.record r).attributes.maxFieldAlignment with
    | none => exact .getD packStruct
    | some n =>
      rw [Option.filter_some]
      split
      · exact .inr (pack n asked)
      · exact .getD packStruct

theorem ofRecord_hasPowers {s : Setting} (asked : s.AsksForPowers) (below : known.WellFormed s)
    (r : RecordId) : (Frame.ofRecord s r).HasPowers known where
  declared := (asked.record r).alignment
  field := (asked.record r).field
  packed := maxFieldAlignment_power (asked.record r).pack asked.packStruct
  enclosed m layout _ := below.record m layout
  type field member layout laid :=
    (below.type field.type layout ((asked.record r).typedef field member) laid).power

theorem State.initial_hasPowers
    (declared : ∀ n ∈ f.declaration.attributes.alignment, isPowerOfTwo n = true) :
    (State.initial f).HasPowers f := by
  have declared : IsPowerOrZero (f.declaration.attributes.alignment.getD 0) := .getD declared
  refine ⟨Quantity.isPowerOfTwo_pow 0, ?_, fun wide => ?_⟩
  · refine IsPowerOrZero.max ?_ declared
    split
    · exact .inr (by decide)
    · exact .inl rfl
  · change max (if f.is64Bit then 1 else 0) _ ≠ 0
    rw [if_pos wide]
    exact Nat.ne_of_gt (Nat.lt_of_lt_of_le Nat.one_pos (Nat.le_max_left _ _))

namespace State.HasPowers

/-- What is required can only grow. -/
theorem raise (h : st.HasPowers f) {required : Nat} (aligned : isPowerOfTwo st'.alignment = true)
    (power : IsPowerOrZero required)
    (raised : st'.requiredAlignment = max st.requiredAlignment required) : st'.HasPowers f := by
  refine ⟨aligned, raised ▸ h.required.max power, fun wide zero => h.wide wide ?_⟩
  rw [raised] at zero
  exact Nat.eq_zero_of_le_zero (zero ▸ Nat.le_max_left _ _)

/-- Nothing but the alignments counts. -/
theorem congr (h : st.HasPowers f) (alignment : st'.alignment = st.alignment)
    (required : st'.requiredAlignment = st.requiredAlignment) : st'.HasPowers f :=
  ⟨alignment ▸ h.alignment, required ▸ h.required, required ▸ h.wide⟩

end State.HasPowers

namespace Frame.HasPowers

variable (h : f.HasPowers known)
include h

theorem clamp {alignment : Nat} (power : isPowerOfTwo alignment = true) :
    isPowerOfTwo (f.clamp alignment) = true :=
  Quantity.isPowerOfTwo_min h.packed power

theorem pointerAlignment : isPowerOfTwo f.pointerAlignment = true :=
  h.clamp f.setting.target.pointerWidth_isPowerOfTwo

theorem known_required {r : RecordId} (enclosed : f.tree.Encloses f.record r) :
    IsPowerOrZero (known.requiredAlignment r) := by
  cases laid : known.record r with
  | error fault =>
    left
    simp [Known.requiredAlignment, laid, Except.toOption]
  | ok layout =>
    rw [Known.requiredAlignment_eq laid]
    exact (h.enclosed r layout (.single enclosed) laid).requiredPower

/-- Bases bring alignments and requirements, both of them powers of two. -/
theorem bases {row : List PlacedBase} (laid : BasesLaid f known st row st') (start : st.HasPowers f) :
    st'.HasPowers f := by
  have raised (row : List PlacedBase)
      (base : ∀ p ∈ row, p.layout.WellFormed f.setting p.record)
      (alignment : Nat) (power : isPowerOfTwo alignment = true) :
      isPowerOfTwo (raisedBy f row alignment) = true := by
    induction row generalizing alignment with
    | nil => exact power
    | cons p row ih =>
      have first := (base p List.mem_cons_self).power
      exact ih (fun q member => base q (.tail _ member)) _
        (isPowerOfTwo_max_right power (.inr (h.clamp first)))
  have demanded (bases : List Base) (declared : ∀ base ∈ bases, base ∈ f.declaration.bases)
      (required : Nat) (power : IsPowerOrZero required)
      (wide : f.is64Bit = true → required ≠ 0) :
      IsPowerOrZero (requiredBy known bases required) ∧
        (f.is64Bit = true → requiredBy known bases required ≠ 0) := by
    induction bases generalizing required with
    | nil => exact ⟨power, wide⟩
    | cons base bases ih =>
      have first := h.known_required
        (Tree.Inherits.encloses ⟨base, declared base List.mem_cons_self, rfl⟩)
      refine ih (fun base member => declared base (.tail _ member)) _ (power.max first)
        fun is64Bit zero => wide is64Bit ?_
      exact Nat.eq_zero_of_le_zero (zero ▸ Nat.le_max_left _ _)
  obtain ⟨required, wide⟩ :=
    demanded f.declaration.bases (fun _ => id) _ start.required start.wide
  refine ⟨?_, ?_, ?_⟩
  · rw [laid.alignment]
    refine raised row (fun p member => ?_) _ start.alignment
    exact h.enclosed _ _ (.single (laid.inherits member).encloses) (laid.laid p member)
  · rwa [laid.required]
  · rwa [laid.required]

section Fields

variable {field : Field} (member : field ∈ f.declaration.fields)
include member

theorem fieldAlignment : IsPowerOrZero (field.alignment.getD 0) :=
  .getD (h.field field member)

theorem fieldTypeExtent (start : st.HasPowers f) :
    Ends (fun _ => True) ((fieldTypeExtent f field (field.alignment.getD 0) st).eval known)
      fun found => found.1.HasPowers f ∧ isPowerOfTwo found.2.alignment = true := by
  unfold Microsoft.fieldTypeExtent
  split
  case h_1 r names =>
    refine ends_bind Ends.any fun layout laid => ?_
    refine ends_bind Ends.any fun typeLayout typed => ?_
    rw [LayoutM.eval_layoutOf] at laid
    have held := h.enclosed r layout
      (.single (.of_field member (Ty.enclosedRecord?_of_baseElement names))) laid
    have clamped := h.clamp held.power
    refine ⟨?_, isPowerOfTwo_max_right clamped held.requiredPower⟩
    exact start.raise (isPowerOfTwo_max_right start.alignment (.inr clamped)) held.requiredPower rfl
  case h_2 =>
    refine ends_bind Ends.any fun layout typed => ?_
    rw [LayoutM.eval_typeLayoutOf] at typed
    have power := h.type field member layout typed
    refine ⟨start, h.clamp ?_⟩
    split
    · exact isPowerOfTwo_max_right power (h.fieldAlignment member)
    · exact power

theorem fieldExtent (start : st.HasPowers f) :
    Ends (fun _ => True) ((fieldExtent f field st).eval known) fun found =>
      found.1.HasPowers f ∧ isPowerOfTwo found.2.alignment = true := by
  unfold Microsoft.fieldExtent
  refine ends_bind (h.fieldTypeExtent member start) ?_
  rintro ⟨st₁, extent⟩ ⟨powers, power⟩
  have power : isPowerOfTwo (if field.isPacked then { extent with alignment := 1 }
      else extent).alignment = true := by
    split
    · exact Quantity.isPowerOfTwo_pow 0
    · exact power
  have asked := h.fieldAlignment member
  dsimp only
  generalize (if field.isPacked then { extent with alignment := 1 } else extent) = packed at power ⊢
  have clamped {alignment : Nat} (power : isPowerOfTwo alignment = true) :=
    h.clamp (isPowerOfTwo_max_right powers.alignment (.inr power))
  cases isBitField : field.isBitField with
  | true =>
    cases isUnion : f.isUnion with
    | true => exact ⟨powers, power⟩
    | false => exact ⟨⟨clamped power, powers.required, powers.wide⟩, power⟩
  | false =>
    have power := isPowerOfTwo_max_right power asked
    have raised := clamped power
    cases isUnion : f.isUnion <;> exact ⟨powers.raise raised asked rfl, power⟩

theorem layAnyField (start : st.HasPowers f) :
    Ends (fun _ => True) ((layAnyField f st field).eval known) (State.HasPowers f) := by
  refine (layAnyField_extends st field).imp ?_
  rintro st' (⟨_, same⟩ | ⟨before, found, same, done, alignments, _⟩)
  · simp only [State.alignments, Prod.mk.injEq] at same
    exact start.congr same.1 same.2
  · simp only [State.alignments, Prod.mk.injEq] at same alignments
    have powers := ((h.fieldExtent member (start.congr same.1 same.2)).value done).1
    exact powers.congr alignments.1 alignments.2

end Fields

theorem layFields (start : st.HasPowers f) :
    Ends (fun _ => True) ((layFields f st).eval known) (State.HasPowers f) := by
  unfold Microsoft.layFields
  rw [LayoutM.eval_foldlM]
  apply Ends.foldlM_keeps
  · exact start.congr rfl rfl
  · intro field member st₁ powers
    exact h.layAnyField member powers

/-- Fields are counted, and their alignments are powers of two. -/
theorem fields (start : st.HasPowers f) (fresh : st.fieldOffsets = []) :
    Ends (fun _ => True) ((Microsoft.layFields f st).eval known) fun st' =>
      st'.HasPowers f ∧ st'.fieldOffsets.length = f.declaration.fields.length :=
  (layFields_ends fresh).mono (fun _ => id) fun _ same laid =>
    ⟨(h.layFields start).value same, laid.counted⟩

/-- A class that is laid out again with its pointers leading starts at an alignment that counts them. -/
theorem leadingPointers (start : st.HasPowers f) :
    Ends (fun _ => True) ((layWithLeadingPointers f st).eval known) fun st' =>
      st'.HasPowers f ∧ st'.fieldOffsets.length = f.declaration.fields.length := by
  have fresh := State.initial_hasPowers h.declared
  have again : (leadingStart f st).HasPowers f :=
    ⟨isPowerOfTwo_max_right start.alignment (.inr h.pointerAlignment), fresh.required, fresh.wide⟩
  unfold layWithLeadingPointers
  refine ends_bind (layNonVirtualBases_ends (leadingStart_isFresh f st)) fun based laid => ?_
  obtain ⟨row, laid⟩ := laid
  refine ends_bind (layVbptrAsBase_moves based) fun between moved => ?_
  obtain ⟨size, vbptrOffset, baseOffsets, rfl⟩ := moved
  refine ends_bind (h.fields ((h.bases laid again).congr rfl rfl) (laid.fieldOffsets rfl)) ?_
  rintro st' ⟨powers, counted⟩
  exact ⟨powers.congr rfl rfl, counted⟩

theorem pointers (start : st.HasPowers f)
    (counted : st.fieldOffsets.length = f.declaration.fields.length) :
    Ends (fun _ => True) ((layPointers f st).eval known) fun st' =>
      st'.HasPowers f ∧ st'.fieldOffsets.length = f.declaration.fields.length := by
  refine layPointers_cases (fun _ _ => ⟨start, counted⟩) (fun _ => h.leadingPointers start)
    fun _ => ?_
  refine Ends.bind (injectVbptr_ends st) fun st₁ first => ?_
  refine (injectVfptr_ends st₁).imp fun st₂ second => ?_
  -- Pushing a pointer in moves the fields, of which none is lost.
  have kept₁ : st₁.HasPowers f ∧ st₁.fieldOffsets.length = st.fieldOffsets.length := by
    rcases first with ⟨_, rfl⟩ | ⟨_, _, _, _, _, rfl⟩
    · exact ⟨start, rfl⟩
    · exact ⟨start.congr rfl rfl, List.length_map _⟩
  have kept₂ : st₂.HasPowers f ∧ st₂.fieldOffsets.length = st₁.fieldOffsets.length := by
    rcases second with ⟨_, rfl⟩ | ⟨_, _, _, _, _, rfl⟩
    · exact ⟨kept₁.1, rfl⟩
    · exact ⟨kept₁.1.congr rfl rfl, List.length_map _⟩
  refine ⟨⟨?_, kept₂.1.required, kept₂.1.wide⟩, kept₂.2.trans (kept₁.2.trans counted)⟩
  exact isPowerOfTwo_max_right kept₂.1.alignment (.inr h.pointerAlignment)

end Frame.HasPowers

/-- A state that only has to be finished. Without virtual bases its size is rounded already. -/
structure State.IsClosed (f : Frame) (st : State) : Prop where
  powers : st.HasPowers f
  counted : st.fieldOffsets.length = f.declaration.fields.length
  data : st.dataSize ≤ st.size
  whole : f.tree.virtualBases f.record = [] → st.alignment ∣ st.size

theorem closeData_isClosed (powers : st.HasPowers f)
    (counted : st.fieldOffsets.length = f.declaration.fields.length) :
    Ends (fun _ => True) (closeData st) (State.IsClosed f) := by
  refine (closeData_ends st).imp ?_
  rintro st' ⟨size, _, whole, rfl⟩
  exact ⟨powers.congr rfl rfl, counted, le_rfl, fun _ => whole⟩

/-- Virtual bases raise the alignment and follow the data; without any, nothing happens. -/
theorem layVirtualBases_isClosed (h : f.HasPowers known) (closed : st.IsClosed f) :
    Ends (fun _ => True) ((layVirtualBases f st).eval known) (State.IsClosed f) := by
  unfold layVirtualBases
  split
  case isTrue => exact closed
  case isFalse =>
    refine ends_bind Ends.any fun found _ => ?_
    refine ends_bind (G := fun walk : BaseWalk => walk.state.IsClosed f) ?_ fun walk laid => laid
    rw [LayoutM.eval_foldlM]
    have listed (v : RecordId) (member : v ∈ f.tree.virtualBases f.record) :=
      (Tree.HasVirtualBase.of_mem member).encloses
    cases bases : f.tree.virtualBases f.record with
    | nil => exact closed
    | cons first rest =>
      have some (st : State) : f.tree.virtualBases f.record = [] → st.alignment ∣ st.size := by
        rw [bases]
        exact nofun
      rw [bases] at listed
      refine Ends.foldlM_keeps closed ?_
      intro v member walk before
      refine layVirtualBase_placed.imp ?_
      rintro walk' ⟨layout, slot, laid, _, placed⟩
      rw [placed.state]
      have power := h.clamp (h.enclosed v layout (listed v member) laid).power
      have past : walk.state.size ≤ slot.offset := (Nat.le_add_right _ _).trans placed.room
      refine ⟨⟨?_, before.powers.required, before.powers.wide⟩, before.counted, ?_, some _⟩
      · exact isPowerOfTwo_max_right before.powers.alignment (.inr power)
      · exact before.data.trans (past.trans (Nat.le_add_right _ _))

theorem Finished.dataSize_le {f : Frame} {st last : State} (finished : Finished st last)
    (closed : st.IsClosed f) : last.dataSize ≤ last.size := by
  have kept := finished.nonVirtual
  simp only [State.nonVirtual, Prod.mk.injEq] at kept
  exact kept.1.le.trans (closed.data.trans finished.grows)

section Finish

variable {s : Setting} {r : RecordId} {last : State} (microsoft : s.usesMicrosoftLayout = true)
include microsoft

/-- Without any requirement the rounding of the data is not repeated, and virtual bases may lie past
it; that only a 32-bit target allows. -/
theorem Finished.wellFormed (finished : Finished st last)
    (closed : st.IsClosed (Frame.ofRecord s r)) {dataSize : Nat} (data : dataSize ≤ last.size)
    (asClass : Option ClassLayout) (isClass : asClass.isSome = (s.tree.record r).isClass)
    (nonVirtual : ∀ part, asClass = some part → part.nonVirtualSize ≤ last.size) :
    RecordLayout.WellFormed s r {
      size := last.size
      dataSize
      alignment := last.alignment
      requiredAlignment := last.requiredAlignment
      fieldOffsets := last.fieldOffsets
      asClass } := by
  have kept := finished.nonVirtual
  simp only [State.nonVirtual, Prod.mk.injEq] at kept
  obtain ⟨_, required, _, _, _, _, _, _, _, _, fieldOffsets, _⟩ := kept
  have power : isPowerOfTwo last.alignment = true := by
    rw [finished.alignment]
    split
    · exact closed.powers.alignment
    · exact isPowerOfTwo_max_right closed.powers.alignment closed.powers.required
  constructor
  case counted => exact (congrArg List.length fieldOffsets).trans closed.counted
  case isClass => exact isClass
  case power => exact power
  case requiredPower => exact required ▸ closed.powers.required
  case whole =>
    intro rounded
    refine finished.multiple ?_
    by_contra neither
    rw [not_or, not_not] at neither
    obtain ⟨unrequired, partly⟩ := neither
    refine rounded ⟨microsoft, ?_, ?_, required.trans unrequired⟩
    · rw [← Bool.not_eq_true]
      exact fun wide =>
        closed.powers.wide ((Frame.ofRecord s r).is64Bit_eq.trans wide) unrequired
    · have some : s.tree.virtualBases r ≠ [] := fun none => partly (closed.whole none)
      simpa [Tree.hasVirtualBases] using some
  case data => exact data
  case nonVirtual => exact nonVirtual
  case occupied => exact fun _ => finished.positive (Quantity.pos_of_isPowerOfTwo power)
  case required => exact fun _ => finished.required_le

variable (h : (Frame.ofRecord s r).HasPowers known)
include h

theorem layPlain_wellFormed (isPlain : (s.tree.record r).isClass = false) :
    Ends (fun _ => True) ((layPlain (Frame.ofRecord s r)).eval known) (RecordLayout.WellFormed s r) := by
  unfold layPlain
  refine ends_bind (h.fields (State.initial_hasPowers h.declared) rfl) ?_
  rintro st ⟨powers, counted⟩
  refine ends_lift_bind (closeData_isClosed powers counted) fun closed isClosed => ?_
  refine ends_lift_bind (finish_ends closed) fun last finished => ?_
  exact finished.wellFormed microsoft isClosed le_rfl none isPlain.symm (by simp)

theorem layClass_wellFormed (isClass : (s.tree.record r).isClass = true) :
    Ends (fun _ => True) ((layClass (Frame.ofRecord s r)).eval known) (RecordLayout.WellFormed s r) := by
  have fresh := State.initial_isFresh (Frame.ofRecord s r)
  unfold layClass
  refine ends_bind (layNonVirtualBases_ends fresh) ?_
  rintro based ⟨row, bases⟩
  have powers := h.bases bases (State.initial_hasPowers h.declared)
  refine ends_bind (h.fields powers (bases.fieldOffsets rfl)) ?_
  rintro laid ⟨powers, counted⟩
  refine ends_bind (h.pointers powers counted) ?_
  rintro pointed ⟨powers, counted⟩
  refine ends_lift_bind (closeData_isClosed powers counted) fun closed isClosed => ?_
  refine ends_bind (layVirtualBases_isClosed h isClosed) fun placed isClosed => ?_
  refine ends_lift_bind (finish_ends placed) fun last finished => ?_
  have data := finished.dataSize_le isClosed
  refine finished.wellFormed microsoft isClosed data _ isClass.symm fun part same => ?_
  cases same
  exact data

end Finish

end ObjectLayout.Microsoft
