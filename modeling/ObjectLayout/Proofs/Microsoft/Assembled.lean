import ObjectLayout.Proofs.Microsoft.Pointers

/-! Bases and fields put together. A class is laid out once without pointers of its own, and sometimes
again with its pointers leading; where things lie differs, but what is required of the class and which
tables it needs does not. -/
namespace ObjectLayout.Microsoft

open LayoutM (ends_bind ends_lift_bind)

variable {f : Frame} {known : Known} {st st' : State} {site : Nat} {lower upper : List Slot}

namespace BasesLaid

variable {start based : State} {row : List PlacedBase} (h : BasesLaid f known start row based)
include h

theorem exists_placed (none : start.baseOffsets = .empty) {r : RecordId} {offset : Nat}
    (found : based.baseOffsets.find? r = some offset) :
    ∃ p ∈ row, p.record = r ∧ p.offset = offset := by
  rw [h.baseOffsets, none] at found
  exact (find?_enter found).resolve_left nofun

theorem fieldOffsets (none : start.fieldOffsets = []) : based.fieldOffsets = [] := by
  have rest := h.rest
  simp only [State.rest, Prod.mk.injEq] at rest
  exact rest.2.2.2.2.1.trans none

theorem inherits {p : PlacedBase} (member : p ∈ row) : f.tree.Inherits f.record p.record := by
  have placed : p.record ∈ row.map (·.record) := List.mem_map_of_mem member
  rw [h.records, ← List.map_append] at placed
  obtain ⟨base, placed, same⟩ := List.mem_map.mp placed
  exact ⟨base, (List.mem_append.mp placed).elim List.mem_of_mem_filter List.mem_of_mem_filter, same⟩

theorem entered : ∀ base ∈ f.declaration.nonVirtualBases,
    based.baseOffsets.contains base.record = true := by
  intro base member
  obtain ⟨declared, plain⟩ := List.mem_filter.mp member
  have plain : base.isVirtual = false := by simpa using plain
  rw [h.baseOffsets]
  refine contains_enter (.inr ?_)
  rw [h.records, List.mem_append]
  cases leading : known.has (·.hasExtendableVfptr) base.record with
  | true =>
    exact .inl (List.mem_map_of_mem (List.mem_filter.mpr ⟨declared, by simp [leads, plain, leading]⟩))
  | false =>
    exact .inr (List.mem_map_of_mem (List.mem_filter.mpr ⟨declared, by simp [follows, plain, leading]⟩))

end BasesLaid

/-- What the bases and the fields of a class make of its state, with whatever happens in between. -/
structure Assembled (f : Frame) (known : Known) (start : State) (row : List PlacedBase)
    (based between st : State) : Prop where
  bases : BasesLaid f known start row based
  moved : ∃ size vbptrOffset baseOffsets, between = { based with size, vbptrOffset, baseOffsets }
  fields : FieldsLaid f known f.declaration.fields { between with afterBitField := false } st

section Assembled

variable {start start' based based' between between' : State} {row row' : List PlacedBase}

/-- The fields lie past everything that was placed before them. -/
theorem Assembled.arranged (h : Assembled f known start row based between st)
    (notUnion : f.isUnion = false) (below : Chain 0 lower (8 * between.size))
    (base : ∀ {r layout} {offset : Nat}, known.record r = .ok layout →
      between.baseOffsets.find? r = some offset →
      layout.dataSize = 0 ∨ Slot.ofBytes (.base r) offset layout.dataSize ∈ lower) :
    Arranged f known st between.size lower
      (fieldSlots known f.declaration.fields st.fieldOffsets) := by
  have same : st.baseOffsets = between.baseOffsets := h.fields.baseOffsets
  constructor
  case below => exact below
  case above =>
    have chain := h.fields.chain notUnion
    simp only [State.front, Bool.false_eq_true, if_false] at chain
    exact chain.raise st.front_le
  case base => rwa [same]
  case field => exact fun here found => mem_fieldSlots here found

/-- What is required and what tables there are does not depend on where things are placed. -/
theorem Assembled.flags (h : Assembled f known start row based between st) :
    st.flags =
      let primary := (f.declaration.bases.find? (leads known)).map (·.record)
      let required := requiredBy known f.declaration.bases start.requiredAlignment
      ((f.declaration.fields.foldl (requireField known) (required, false)).1,
        primary, primary.isNone && declaresNewVirtual f,
        f.declaration.bases.any fun base => base.isVirtual || bringsVbptr known base,
        (f.declaration.bases.find? (bringsVbptr known)).map (·.record)) := by
  obtain ⟨size, vbptrOffset, baseOffsets, rfl⟩ := h.moved
  have required := h.fields.required
  have same := h.fields.classPart
  simp only [State.classPart, Prod.mk.injEq] at same
  obtain ⟨_, primaryBase, hasOwnVfptr, hasVbptr, _, vbptrBase, _⟩ := same
  simp only [State.flags, Prod.mk.injEq]
  refine ⟨?_, ?_, ?_, ?_, ?_⟩
  · rw [← h.bases.required, ← required]
  · rw [primaryBase, h.bases.primaryBase]
  · rw [hasOwnVfptr, h.bases.hasOwnVfptr, h.bases.primaryBase]
  · rw [hasVbptr, h.bases.hasVbptr]
  · rw [vbptrBase, h.bases.vbptrBase]

theorem Assembled.virtualBaseSlots (h : Assembled f known start row based between st) :
    st.virtualBaseSlots = start.virtualBaseSlots := by
  obtain ⟨size, vbptrOffset, baseOffsets, rfl⟩ := h.moved
  have same := h.fields.classPart
  have rest := h.bases.rest
  simp only [State.classPart, Prod.mk.injEq] at same
  simp only [State.rest, Prod.mk.injEq] at rest
  exact same.2.2.2.2.2.2.2.1.trans rest.2.2.2.2.2

theorem moveBehindVbptr_ends (st : State) (last : RecordId) (layout : RecordLayout)
    (isSecond : Bool) : Ends (fun _ => True) (moveBehindVbptr st last layout isSecond) fun st' =>
      ∃ offset : Nat, st.size ≤ offset ∧
        (layout.requiredAlignment ≠ 0 → layout.requiredAlignment ∣ offset) ∧
        st' = { st with size := offset, baseOffsets := st.baseOffsets.insert last offset } := by
  unfold moveBehindVbptr
  refine Ends.ite_bind (G := fun size : Nat => st.size ≤ size) (fun size first => ?_)
    (fun _ next => ?_) fun _ => le_rfl
  case refine_2 =>
    refine Ends.bind Ends.any fun size sum => next size ?_
    rw [(Quantity.add_eq_ok_iff.mp sum).1]
    exact Nat.le_add_right _ _
  refine Ends.ite_bind (G := fun size : Nat => st.size ≤ size ∧
      (layout.requiredAlignment ≠ 0 → layout.requiredAlignment ∣ size))
    (fun offset second => ⟨offset, second.1, second.2, rfl⟩)
    (fun none next => next size ⟨first, absurd none⟩) fun _ => ?_
  refine Ends.any.imp fun offset aligned => ?_
  obtain ⟨positive, rfl, _⟩ := Quantity.alignTo_eq_ok_iff.mp aligned
  exact ⟨first.trans (Quantity.le_roundUp (Nat.pos_of_ne_zero positive)),
    fun _ => Quantity.dvd_roundUp _ _⟩

/-- What putting the vbptr after the bases does. -/
structure VbptrPlaced (f : Frame) (known : Known) (st st' : State) : Prop where
  placed : ∃ found last penultimate site, lastBases f st = .ok found ∧
    (zeroSized? found.last).eval known = .ok last ∧
    (zeroSized? found.penultimate).eval known = .ok penultimate ∧
    vbptrStart st last penultimate = .ok site ∧ site ≤ st'.vbptrOffset ∧
    ∃ stop : Nat, st'.vbptrOffset + f.pointerSize ≤ stop ∧
      st' = { st with
        size := stop
        vbptrOffset := st'.vbptrOffset
        baseOffsets := last.elim st.baseOffsets fun (r, _) => st.baseOffsets.insert r stop }

theorem layVbptrAsBase_ends (st : State) : Ends (fun _ => True) ((layVbptrAsBase f st).eval known)
    fun st' => (st.needsOwnVbptr = false ∧ st' = st) ∨
      (st.needsOwnVbptr = true ∧ VbptrPlaced f known st st') := by
  unfold layVbptrAsBase
  split
  case isTrue shared => exact .inl ⟨by simpa using shared, rfl⟩
  case isFalse own =>
    refine ends_lift_bind Ends.any fun found scanned => ?_
    refine ends_bind Ends.any fun last isLast => ?_
    refine ends_bind Ends.any fun penultimate isPenultimate => ?_
    refine ends_lift_bind Ends.any fun site starts => ?_
    refine ends_lift_bind Ends.any fun offset aligned => ?_
    refine ends_lift_bind Ends.any fun stop sum => ?_
    obtain ⟨positive, rfl, _⟩ := Quantity.alignTo_eq_ok_iff.mp aligned
    obtain ⟨rfl, _⟩ := Quantity.add_eq_ok_iff.mp sum
    have past := Quantity.le_roundUp (a := site) (Nat.pos_of_ne_zero positive)
    dsimp only
    split
    case h_1 =>
      exact .inr ⟨by simpa using own, found, none, penultimate, site, scanned, isLast, isPenultimate,
        starts, past, _, le_rfl, rfl⟩
    case h_2 r layout =>
      rw [LayoutM.eval_lift]
      refine (moveBehindVbptr_ends _ r layout _).imp ?_
      rintro st' ⟨offset, behind, _, rfl⟩
      exact .inr ⟨by simpa using own, found, some (r, layout), penultimate, site, scanned, isLast,
        isPenultimate, starts, past, offset, behind, rfl⟩

theorem VbptrPlaced.moved (h : VbptrPlaced f known st st') :
    ∃ size vbptrOffset baseOffsets, st' = { st with size, vbptrOffset, baseOffsets } := by
  obtain ⟨_, _, _, _, _, _, _, _, _, stop, _, placed⟩ := h.placed
  exact ⟨_, _, _, placed⟩

theorem layVbptrAsBase_moves (st : State) :
    Ends (fun _ => True) ((layVbptrAsBase f st).eval known) fun st' =>
      ∃ size vbptrOffset baseOffsets, st' = { st with size, vbptrOffset, baseOffsets } := by
  refine (layVbptrAsBase_ends st).imp ?_
  rintro st' (⟨_, rfl⟩ | ⟨_, vbptr⟩)
  · exact ⟨_, _, _, rfl⟩
  · exact vbptr.moved

end Assembled

section Class

variable {row : List PlacedBase} {based : State}

/-- Where the second layout of a class starts, which has had a first one. -/
def leadingStart (f : Frame) (before : State) : State :=
  { State.initial f with
    alignment := max before.alignment f.pointerAlignment
    size := if before.hasOwnVfptr then f.pointerSize else 0 }

theorem State.initial_isFresh (f : Frame) : (State.initial f).IsFresh :=
  ⟨rfl, rfl, rfl, rfl, rfl, rfl⟩

theorem leadingStart_isFresh (f : Frame) (before : State) : (leadingStart f before).IsFresh :=
  ⟨rfl, rfl, rfl, rfl, rfl, rfl⟩

theorem layWithLeadingPointers_ends (before : State) :
    Ends (fun _ => True) ((layWithLeadingPointers f before).eval known) fun st' =>
      ∃ row based between st, Assembled f known (leadingStart f before) row based between st ∧
        (layVbptrAsBase f based).eval known = .ok between ∧
        (layFields f between).eval known = .ok st ∧ st' = { st with hasZeroSizedSubobject := false } := by
  unfold layWithLeadingPointers
  refine ends_bind (layNonVirtualBases_ends (leadingStart_isFresh f before)) fun based laid => ?_
  obtain ⟨row, laid⟩ := laid
  refine ends_bind (layVbptrAsBase_moves based).remember fun between placed => ?_
  obtain ⟨placed, moved⟩ := placed
  have fresh : between.fieldOffsets = [] := by
    obtain ⟨size, vbptrOffset, baseOffsets, rfl⟩ := moved
    exact laid.fieldOffsets rfl
  refine ends_bind (layFields_ends fresh).remember fun st fields => ?_
  exact ⟨row, based, between, st, ⟨laid, moved, fields.2⟩, placed, fields.1, rfl⟩

/-- The bases and fields of a class, laid out once. -/
abbrev LaidOnce (f : Frame) (known : Known) (row : List PlacedBase) (based st : State) : Prop :=
  Assembled f known (State.initial f) row based based st

/-- The pointers of a class change where things lie, but not what is required of the class or what
tables it needs. -/
theorem layPointers_flags (once : LaidOnce f known row based st) :
    Ends (fun _ => True) ((layPointers f st).eval known) fun st' =>
      st'.flags = st.flags ∧ st'.virtualBaseSlots = .empty := by
  have fresh := once.virtualBaseSlots
  apply layPointers_cases
  case none => exact fun _ _ => ⟨rfl, fresh⟩
  case again =>
    intro _
    refine (layWithLeadingPointers_ends st).imp ?_
    rintro st' ⟨row', based', between', laid', again, _, _, rfl⟩
    exact ⟨again.flags.trans once.flags.symm, again.virtualBaseSlots⟩
  case pushed =>
    intro _
    refine Ends.bind (injectVbptr_ends st) fun st₁ first => ?_
    refine (injectVfptr_ends st₁).imp fun st₂ second => ?_
    have kept₁ : st₁.flags = st.flags ∧ st₁.virtualBaseSlots = st.virtualBaseSlots := by
      rcases first with ⟨_, rfl⟩ | ⟨_, _, _, _, _, rfl⟩ <;> exact ⟨rfl, rfl⟩
    have kept₂ : st₂.flags = st₁.flags ∧ st₂.virtualBaseSlots = st₁.virtualBaseSlots := by
      rcases second with ⟨_, rfl⟩ | ⟨_, _, _, _, _, rfl⟩ <;> exact ⟨rfl, rfl⟩
    exact ⟨kept₂.1.trans kept₁.1, kept₂.2.trans (kept₁.2.trans fresh)⟩

/-- Every non-virtual base and every field has a place. -/
structure Entered (f : Frame) (st : State) : Prop where
  bases : ∀ base ∈ f.declaration.nonVirtualBases, st.baseOffsets.contains base.record = true
  fields : st.fieldOffsets.length = f.declaration.fields.length

theorem Entered.shifted (h : Entered f st) (distance : Nat) (moves : Nat → Bool) :
    Entered f (st.shifted distance moves) := by
  constructor
  case bases =>
    intro base member
    rw [State.shifted, OrderedMap.contains, OrderedMap.find?_mapValues, Option.isSome_map]
    exact h.bases base member
  case fields => rw [State.shifted, List.length_map, h.fields]

theorem injectVbptr_entered (h : Entered f st) :
    Ends (fun _ => True) (injectVbptr f st) (Entered f) := by
  refine (injectVbptr_ends st).imp ?_
  rintro st' (⟨_, rfl⟩ | ⟨start, distance, _, _, _, rfl⟩)
  · exact h
  · have moved := h.shifted distance fun offset => decide (st.vbptrOffset ≤ offset)
    exact ⟨moved.bases, moved.fields⟩

theorem injectVfptr_entered (h : Entered f st) :
    Ends (fun _ => True) (injectVfptr f st) (Entered f) := by
  refine (injectVfptr_ends st).imp ?_
  rintro st' (⟨_, rfl⟩ | ⟨distance, vbptrOffset, _, _, _, rfl⟩)
  · exact h
  · have moved := h.shifted distance fun _ => true
    exact ⟨moved.bases, moved.fields⟩

theorem layPointers_entered (once : LaidOnce f known row based st) :
    Ends (fun _ => True) ((layPointers f st).eval known) (Entered f) := by
  have entered {start based between st : State} {row : List PlacedBase}
      (h : Assembled f known start row based between st) (kept : ∀ r,
        based.baseOffsets.contains r = true → between.baseOffsets.contains r = true) :
      Entered f st :=
    ⟨fun base member => h.fields.baseOffsets ▸ kept _ (h.bases.entered base member),
      h.fields.counted⟩
  have first := entered once fun _ => id
  apply layPointers_cases
  case none => exact fun _ _ => first
  case again =>
    intro _
    refine (layWithLeadingPointers_ends st).imp ?_
    rintro st' ⟨row', based', between', laid', again, placed, _, rfl⟩
    suffices second : Entered f laid' from ⟨second.bases, second.fields⟩
    refine entered again fun r known => ?_
    rcases (layVbptrAsBase_ends based').value placed with ⟨_, rfl⟩ | ⟨_, ⟨vbptr⟩⟩
    · exact known
    · obtain ⟨_, last, _, _, _, _, _, _, _, stop, _, placed⟩ := vbptr
      rw [placed]
      cases last with
      | none => exact known
      | some last => exact OrderedMap.contains_insert stop known
  case pushed =>
    intro _
    refine Ends.bind (injectVbptr_entered first) fun st₁ second => ?_
    exact (injectVfptr_entered second).imp fun st₂ third => ⟨third.bases, third.fields⟩

/-- Without pointers of the class's own, the bases lie in their row and the fields past it. -/
theorem LaidOnce.arranged (once : LaidOnce f known row based st) (notUnion : f.isUnion = false) :
    Arranged f known st based.size (row.map (·.slot))
      (fieldSlots known f.declaration.fields st.fieldOffsets) := by
  obtain ⟨ends, inRow⟩ := once.bases.inRow
  refine Assembled.arranged once notUnion (inRow.chain.lower (Nat.zero_le _)) ?_
  intro r layout offset laid found
  obtain ⟨p, member, rfl, rfl⟩ := once.bases.exists_placed rfl found
  cases (once.bases.laid p member).symm.trans laid
  exact .inr (List.mem_map_of_mem member)

theorem LaidOnce.vbptrOffset (once : LaidOnce f known row based st) :
    st.vbptrBase = none → st.vbptrOffset = based.size := by
  obtain ⟨ends, inRow⟩ := once.bases.inRow
  intro alone
  rw [once.fields.vbptrOffset, once.bases.vbptrOffset (once.fields.vbptrBase ▸ alone), inRow.size_eq]
  rfl

theorem LaidOnce.reaches (once : LaidOnce f known row based st) : Reaches f known st := by
  obtain ⟨ends, inRow⟩ := once.bases.inRow
  constructor
  case base =>
    intro r layout offset laid found
    rw [once.fields.baseOffsets] at found
    obtain ⟨p, member, rfl, rfl⟩ := once.bases.exists_placed rfl found
    cases (once.bases.laid p member).symm.trans laid
    exact (inRow.inside p member).2.trans once.fields.grows
  case field =>
    intro index offset field declared found
    exact once.fields.inside _ (mem_fieldSlots declared found)

end Class

end ObjectLayout.Microsoft
