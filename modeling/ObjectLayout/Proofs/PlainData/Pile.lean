import ObjectLayout.Proofs.Itanium.NaturalOffsets
import ObjectLayout.Proofs.Microsoft.Natural
import ObjectLayout.Proofs.PlainData.Types

/-! The layout of plain data as the C language suggests it: objects one after another, each at the next
multiple of its alignment, or all of them at the start of a union. Both engines arrive at it, the one
counting bits and the other bytes. -/
namespace ObjectLayout

open LayoutM (ends_bind ends_lift_bind eval_bind_eq_ok)

/-- Objects with their places, which are counted in bits. -/
structure Pile where
  size : Bytes := 0
  alignment : Bytes := 1
  offsets : List Bits := []

namespace Pile

variable {isUnion : Bool} {pile : Pile} {extent : Bytes × Bytes} {extents : List (Bytes × Bytes)}

/-- Where the next object comes to lie if it is aligned to `alignment`. -/
def start (isUnion : Bool) (pile : Pile) (alignment : Bytes) : Bytes :=
  if isUnion then 0 else Quantity.roundUp pile.size alignment

/-- One more object, of this size and alignment. -/
def add (isUnion : Bool) (pile : Pile) (extent : Bytes × Bytes) : Pile where
  size := max pile.size (pile.start isUnion extent.2 + extent.1)
  alignment := max pile.alignment extent.2
  offsets := pile.offsets ++ [8 * pile.start isUnion extent.2]

def ofExtents (isUnion : Bool) (extents : List (Bytes × Bytes)) : Pile :=
  extents.foldl (add isUnion) {}

def wholeSize (pile : Pile) : Bytes := Quantity.roundUp pile.size pile.alignment

theorem le_foldl_size (extents : List (Bytes × Bytes)) (pile : Pile) :
    pile.size ≤ (extents.foldl (add isUnion) pile).size := by
  induction extents generalizing pile with
  | nil => exact le_rfl
  | cons extent rest ih => exact le_trans (Nat.le_max_left _ _) (ih (add isUnion pile extent))

theorem le_size (member : extent ∈ extents) : extent.1 ≤ (ofExtents isUnion extents).size := by
  unfold ofExtents
  generalize ({} : Pile) = pile
  induction extents generalizing pile with
  | nil => cases member
  | cons first rest ih =>
    rcases List.mem_cons.mp member with rfl | member
    · have fits : extent.1 ≤ (add isUnion pile extent).size :=
        (Nat.le_add_left _ _).trans (Nat.le_max_right _ _)
      exact fits.trans (le_foldl_size rest _)
    · exact ih member _

end Pile

/-- The layout of a record has the size, the alignment and the offsets of a pile. -/
structure RecordLayout.Piles (layout : RecordLayout) (pile : Pile) : Prop where
  size : layout.size = pile.wholeSize
  alignment : layout.alignment = pile.alignment
  fieldOffsets : layout.fieldOffsets = pile.offsets

theorem Quantity.roundUp_mul_left (k a : Nat) {b : Nat} (positive : 0 < k) (positive' : 0 < b) :
    roundUp (k * a) (k * b) = k * roundUp a b := by
  apply Nat.le_antisymm
  · apply roundUp_le (Nat.mul_pos positive positive')
    · exact Nat.mul_le_mul_left k (le_roundUp positive')
    · exact Nat.mul_dvd_mul_left k (dvd_roundUp a b)
  · obtain ⟨count, whole⟩ := dvd_roundUp (k * a) (k * b)
    have enough := le_roundUp (a := k * a) (Nat.mul_pos positive positive')
    rw [whole, Nat.mul_assoc] at enough ⊢
    apply Nat.mul_le_mul_left
    exact roundUp_le positive' (Nat.le_of_mul_le_mul_left enough positive) (Nat.dvd_mul_right b count)

theorem toBytesCeil_mul (n : Bytes) : Bits.toBytesCeil (8 * n) = n := by
  unfold Bits.toBytesCeil Quantity.bitsPerByte
  lia

namespace Itanium

variable {f : Frame} {known : Known} {st st' : State} {field : Field} {index : Nat} {pile : Pile}

/-- The state of a record without a map after the objects of a pile. -/
structure State.Piles (st : State) (pile : Pile) : Prop where
  size : st.size = 8 * pile.size
  dataSize : st.dataSize = 8 * pile.size
  alignment : st.alignment = pile.alignment
  fieldOffsets : st.fieldOffsets = pile.offsets
  unmapped : st.emptyMap = none

variable (natural : f.IsNatural) (unsupplied : f.supplied = none)
include natural unsupplied

/-- A field that asks for nothing itself is put on the pile. -/
theorem layField_piles (member : field ∈ f.declaration.fields) (unasked : field.alignment = none)
    (h : st.Piles pile) : Ends (fun _ => True) ((layField f index field st).eval known) fun st' =>
      ∃ extent, (fieldExtent f field.type).eval known = .ok extent ∧
        st'.Piles (pile.add f.isUnion extent) := by
  have notPacked := natural.fields field member
  have fresh : ({ st with unfilledBits := 0, storageUnit := 0 } : State).emptyMap = none := h.unmapped
  have asks (n : Nat) : f.fieldAlignment field n = n := by
    simp [Frame.fieldAlignment, natural.clamp_eq, natural.notPacked, notPacked, unasked]
  apply layField_stages.imp
  rintro st' ⟨size, asked, start, x, placed, stages⟩
  have chosen := stages.chosen
  rw [chooseFieldOffset_unasked unsupplied (.inr fresh)] at chosen
  cases chosen
  obtain ⟨positive, rounded, _⟩ := Quantity.alignTo_eq_ok_iff.mp stages.aligned
  rw [asks] at positive rounded
  have first : start = pile.start f.isUnion asked := by
    rw [rounded]
    unfold Pile.start
    split
    · exact Quantity.roundUp_zero (Nat.pos_of_ne_zero positive)
    · change Quantity.roundUp (Bits.toBytesCeil st.dataSize) asked = _
      rw [h.dataSize, toBytesCeil_mul]
  have stop : f.dataEnd st.dataSize start size = 8 * (pile.add f.isUnion (size, asked)).size := by
    change _ = 8 * max pile.size (pile.start f.isUnion asked + size)
    unfold Frame.dataEnd
    split
    case isTrue union =>
      rw [h.dataSize, Pile.start, if_pos union]
      lia
    case isFalse notUnion =>
      have later : pile.size ≤ start := by
        rw [first, Pile.start, if_neg notUnion]
        exact Quantity.le_roundUp (Nat.pos_of_ne_zero positive)
      rw [← first]
      lia
  have raised := Ends.holds (raiseAlignment_raises unsupplied) stages.raised
  refine ⟨(size, asked), stages.extent, ?_⟩
  rw [raised.frame]
  constructor
  case size =>
    change max st.size (f.dataEnd st.dataSize start size) = _
    rw [h.size, stop]
    exact Nat.max_eq_right (Nat.mul_le_mul_left 8 (Nat.le_max_left _ _))
  case dataSize => exact stop
  case alignment =>
    change (if f.isMac68k = true then st.alignment else max st.alignment _) = _
    rw [natural.notMac68k, h.alignment, asks]
    rfl
  case fieldOffsets =>
    change st.fieldOffsets ++ [8 * start] = _
    rw [h.fieldOffsets, first]
    rfl
  case unmapped => exact h.unmapped

/-- Fields that ask for nothing themselves are put on the pile one after another. -/
theorem layAnyFields_piles (entries : List (Field × Nat))
    (fields : ∀ entry ∈ entries, entry.1 ∈ f.declaration.fields ∧ entry.1.bitWidth = none ∧
      entry.1.alignment = none) (h : st.Piles pile) :
    Ends (fun _ => True) ((entries.foldlM (layAnyField f) st).eval known) fun st' =>
      ∃ extents, List.Forall₂ (fun entry extent => (fieldExtent f entry.1.type).eval known = .ok extent)
        entries extents ∧ st'.Piles (extents.foldl (Pile.add f.isUnion) pile) := by
  induction entries generalizing st pile with
  | nil => exact ⟨[], .nil, h⟩
  | cons entry rest ih =>
    obtain ⟨member, stored, unasked⟩ := fields entry List.mem_cons_self
    have first : layAnyField f st entry = layField f entry.2 entry.1 st := by
      rw [layAnyField, stored]
    rw [List.foldlM_cons, first]
    apply ends_bind (layField_piles natural unsupplied member unasked h)
    rintro st₁ ⟨extent, takes, piles⟩
    apply (ih (fun entry member => fields entry (.tail _ member)) piles).imp
    rintro st' ⟨extents, take, piles⟩
    exact ⟨extent :: extents, .cons takes take, piles⟩

omit natural in
/-- A pile of some size is rounded up to its alignment. -/
theorem finish_piles (h : st.Piles pile) (some : pile.size ≠ 0) :
    Ends (fun _ => True) ((finish f st).eval known) fun st' =>
      st'.sizeInBytes = pile.wholeSize ∧ st'.alignment = pile.alignment ∧
        st'.fieldOffsets = pile.offsets := by
  have sized : st.avoidSizeZero f = .ok st := by
    have some : (st.size == 0) = false := by
      rw [h.size]
      exact beq_false_of_ne (Nat.mul_ne_zero (by decide) some)
    unfold State.avoidSizeZero
    rw [some, Bool.and_false, Bool.false_and]
    rfl
  apply finish_stages.imp
  rintro st' ⟨rounded, _, stages⟩
  cases sized.symm.trans stages.avoided
  obtain ⟨positive, rfl, _⟩ := Quantity.alignTo_eq_ok_iff.mp stages.aligned
  have positive : 0 < pile.alignment := by
    apply Nat.pos_of_ne_zero
    intro none
    simp [h.alignment, none] at positive
  rw [stages.computed unsupplied]
  refine ⟨?_, h.alignment, h.fieldOffsets⟩
  change Bits.toBytesCeil (Quantity.roundUp _ _) = _
  rw [h.size, h.alignment, Quantity.roundUp_mul_left 8 _ (by decide) positive, toBytesCeil_mul]
  rfl

/-- The Itanium rules pile up plain data. -/
theorem layPlain_piles (unasked : f.declaration.attributes.alignment = none)
    (fields : ∀ field ∈ f.declaration.fields, field.bitWidth = none ∧ field.alignment = none) :
    Ends (fun _ => True) ((layPlain f).eval known) fun layout => ∃ extents,
      List.Forall₂ (fun field extent => (fieldExtent f field.type).eval known = .ok extent)
        f.declaration.fields extents ∧
      ((Pile.ofExtents f.isUnion extents).size ≠ 0 →
        layout.Piles (Pile.ofExtents f.isUnion extents)) := by
  have start : State.initial f none = .ok {} := by
    unfold State.initial
    rw [natural.notMac68k, unsupplied, unasked]
    rfl
  unfold layPlain
  rw [start]
  refine ends_lift_bind (G := (· = ({} : State))) rfl ?_
  rintro _ rfl
  unfold layFields
  have listed (entry : Field × Nat) (member : entry ∈ f.declaration.fields.zipIdx) :
      entry.1 ∈ f.declaration.fields := List.fst_mem_of_mem_zipIdx member
  have empty : ({} : State).Piles {} := ⟨rfl, rfl, rfl, rfl, rfl⟩
  apply ends_bind (layAnyFields_piles natural unsupplied f.declaration.fields.zipIdx
    (fun entry member => ⟨listed entry member, fields entry.1 (listed entry member)⟩) empty)
  rintro st ⟨extents, take, piles⟩
  apply ends_bind Ends.any
  intro last finished
  refine ⟨extents, ?_, fun some => ?_⟩
  · rw [← List.zipIdx_map_fst 0 f.declaration.fields]
    exact List.forall₂_map_left_iff.mpr take
  · obtain ⟨size, alignment, fieldOffsets⟩ :=
      (finish_piles unsupplied piles some).value finished
    exact ⟨size, alignment, fieldOffsets⟩

end Itanium

namespace Microsoft

variable {f : Frame} {known : Known} {st st' : State} {field : Field} {pile : Pile}

/-- The state of a record after the objects of a pile. No more is required than it is aligned to. -/
structure State.Piles (st : State) (pile : Pile) : Prop where
  size : st.size = pile.size
  alignment : st.alignment = pile.alignment
  fieldOffsets : st.fieldOffsets = pile.offsets
  required : st.requiredAlignment ≤ st.alignment

/-- What a field takes is what its type takes, if it asks for nothing itself. -/
theorem fieldExtent_natural (unpacked : f.IsUnpacked)
    (types : ∀ {type layout}, known.type type = .ok layout →
      (TypeLayout.ofTy f.setting type).eval known = .ok layout)
    (required : ∀ r layout, known.record r = .ok layout →
      layout.requiredAlignment ≤ layout.alignment)
    (member : field ∈ f.declaration.fields) (stored : field.bitWidth = none)
    (unasked : field.alignment = none) :
    Ends (fun _ => True) ((fieldExtent f field st).eval known) fun found => ∃ layout,
      known.type field.type = .ok layout ∧ found.2 = ⟨layout.width, layout.alignment⟩ ∧
      ∃ zeroSized required, required ≤ max st.requiredAlignment layout.alignment ∧
        found.1 = { st with
          hasZeroSizedSubobject := zeroSized
          requiredAlignment := required
          alignment := max st.alignment layout.alignment } := by
  have typeExtent : Ends (fun _ => True) ((fieldTypeExtent f field 0 st).eval known)
      fun found => ∃ layout, known.type field.type = .ok layout ∧
        found.2 = ⟨layout.width, layout.alignment⟩ ∧
        ∃ zeroSized required alignment, required ≤ max st.requiredAlignment layout.alignment ∧
          max alignment layout.alignment = max st.alignment layout.alignment ∧
          found.1 = { st with
            hasZeroSizedSubobject := zeroSized, requiredAlignment := required, alignment } := by
    unfold fieldTypeExtent
    split
    case h_1 r names =>
      apply ends_bind Ends.any
      intro inner laid
      apply ends_bind Ends.any
      intro layout typed
      rw [LayoutM.eval_layoutOf] at laid
      rw [LayoutM.eval_typeLayoutOf] at typed
      obtain ⟨inner', laid', same⟩ := Known.alignment_of_records types
        (unpacked.typedef field member) typed names
      cases laid.symm.trans laid'
      have low := required r inner laid
      have placed : max (f.clamp inner.alignment) inner.requiredAlignment = layout.alignment := by
        rw [unpacked.clamp_eq, Nat.max_eq_left low, same]
      refine ⟨layout, typed, congrArg (Extent.mk _) placed, _, _, _, ?_, ?_, rfl⟩
      · exact max_le_max_left _ (same ▸ low)
      · rw [unpacked.clamp_eq, same, max_assoc, max_self]
    case h_2 =>
      apply ends_bind Ends.any
      intro layout typed
      rw [LayoutM.eval_typeLayoutOf] at typed
      refine ⟨layout, typed, ?_, _, _, _, Nat.le_max_left _ _, rfl, rfl⟩
      simp [Field.isBitField, stored, unpacked.clamp_eq]
  have notPacked := unpacked.fields field member
  have isBitField : field.isBitField = false := by simp [Field.isBitField, stored]
  unfold fieldExtent
  rw [unasked]
  apply ends_bind typeExtent
  rintro ⟨st₁, extent⟩ ⟨layout, typed, same, zeroSized, required, alignment, low, raised, state⟩
  dsimp only at same state ⊢
  subst same
  subst state
  simp only [notPacked, isBitField, Bool.false_eq_true, if_false, Bool.false_and, Option.getD_none,
    Nat.max_zero, unpacked.clamp_eq]
  exact ⟨layout, typed, rfl, zeroSized, required, low, by rw [raised]⟩

section Fields

variable (unpacked : f.IsUnpacked)
variable (types : ∀ {type layout}, known.type type = .ok layout →
  (TypeLayout.ofTy f.setting type).eval known = .ok layout)
variable (required : ∀ r layout, known.record r = .ok layout →
  layout.requiredAlignment ≤ layout.alignment)
include unpacked types required

theorem layField_piles (member : field ∈ f.declaration.fields) (stored : field.bitWidth = none)
    (unasked : field.alignment = none) (h : st.Piles pile) :
    Ends (fun _ => True) ((layField f field st).eval known) fun st' => ∃ layout,
      known.type field.type = .ok layout ∧
        st'.Piles (pile.add f.isUnion (layout.width, layout.alignment)) := by
  unfold layField
  apply ends_bind (fieldExtent_natural unpacked types required member stored unasked)
  rintro ⟨st₁, extent⟩ ⟨layout, typed, same, zeroSized, required, low, state⟩
  dsimp only at same state ⊢
  subst same
  subst state
  rw [LayoutM.eval_lift]
  -- What is left once it is clear where the field lies.
  have close {offset size : Nat} {st' : State} (state : st' = { st with
        afterBitField := false
        hasZeroSizedSubobject := zeroSized
        requiredAlignment := required
        alignment := max st.alignment layout.alignment
        fieldOffsets := st.fieldOffsets ++ [8 * offset]
        size := size })
      (here : offset = pile.start f.isUnion layout.alignment)
      (stop : size = (pile.add f.isUnion (layout.width, layout.alignment)).size) :
      ∃ layout, known.type field.type = .ok layout ∧
        st'.Piles (pile.add f.isUnion (layout.width, layout.alignment)) := by
    subst state
    refine ⟨layout, typed, stop, ?_, ?_, low.trans (max_le_max_right _ h.required)⟩
    · exact congrArg (max · layout.alignment) h.alignment
    · rw [h.fieldOffsets, here]
      rfl
  unfold State.placeExtent
  split
  case isTrue union =>
    apply Ends.bind (placeFieldAt_ends _ 0)
    rintro st' rfl
    apply close rfl
    · rw [Pile.start, if_pos union]
    · change max st.size layout.width = max pile.size (pile.start f.isUnion layout.alignment + _)
      rw [h.size, Pile.start, if_pos union, Nat.zero_add]
  case isFalse notUnion =>
    apply Ends.bind Ends.any
    intro start aligned
    apply Ends.bind (placeFieldAt_ends _ start)
    rintro st' rfl
    apply Ends.bind Ends.any
    intro size sum
    obtain ⟨positive, rfl, _⟩ := Quantity.alignTo_eq_ok_iff.mp aligned
    obtain ⟨rfl, _⟩ := Quantity.add_eq_ok_iff.mp sum
    have here : Quantity.roundUp st.size layout.alignment = pile.start f.isUnion layout.alignment := by
      rw [h.size, Pile.start, if_neg notUnion]
    have past : pile.size ≤ pile.start f.isUnion layout.alignment := by
      rw [← here, ← h.size]
      exact Quantity.le_roundUp (Nat.pos_of_ne_zero positive)
    apply close rfl here
    change Quantity.roundUp st.size layout.alignment + layout.width = max pile.size (_ + layout.width)
    rw [here]
    exact (Nat.max_eq_right (past.trans (Nat.le_add_right _ _))).symm

theorem layAnyFields_piles (entries : List Field) (fields : ∀ field ∈ entries,
      field ∈ f.declaration.fields ∧ field.bitWidth = none ∧ field.alignment = none)
    (h : st.Piles pile) :
    Ends (fun _ => True) ((entries.foldlM (layAnyField f) st).eval known) fun st' => ∃ extents,
      List.Forall₂ (fun field extent => ∃ layout, known.type field.type = .ok layout ∧
        extent = (layout.width, layout.alignment)) entries extents ∧
      st'.Piles (extents.foldl (Pile.add f.isUnion) pile) := by
  induction entries generalizing st pile with
  | nil => exact ⟨[], .nil, h⟩
  | cons field rest ih =>
    obtain ⟨member, stored, unasked⟩ := fields field List.mem_cons_self
    have first : layAnyField f st field = layField f field st := by
      rw [layAnyField, stored]
    rw [List.foldlM_cons, first]
    apply ends_bind (layField_piles unpacked types required member stored unasked h)
    rintro st₁ ⟨layout, typed, piles⟩
    apply (ih (fun field member => fields field (.tail _ member)) piles).imp
    rintro st' ⟨extents, take, piles⟩
    exact ⟨_ :: extents, .cons ⟨layout, typed, rfl⟩ take, piles⟩

end Fields

/-- A pile of some size is rounded up to its alignment, once and for all. -/
theorem finish_piles (h : st.Piles pile) (some : pile.size ≠ 0) :
    Ends (fun _ => True) (closeData st >>= finish) fun st' =>
      st'.size = pile.wholeSize ∧ st'.alignment = pile.alignment ∧ st'.fieldOffsets = pile.offsets := by
  unfold closeData
  rw [h.size, h.alignment, bind_assoc]
  apply Ends.bind Ends.any
  intro size rounded
  obtain ⟨positive, whole, _⟩ := Quantity.alignTo_eq_ok_iff.mp rounded
  have positive := Nat.pos_of_ne_zero positive
  have some : size ≠ 0 := by
    rw [whole]
    exact Nat.ne_of_gt ((Nat.pos_of_ne_zero some).trans_le (Quantity.le_roundUp positive))
  have same : size = pile.wholeSize := whole
  rw [pure_bind]
  unfold finish
  dsimp only
  split
  case isTrue =>
    rw [pure_bind, if_neg some]
    exact ⟨same, rfl, h.fieldOffsets⟩
  case isFalse =>
    rw [Nat.max_eq_left (h.alignment ▸ h.required)]
    apply Ends.bind Ends.any
    intro again rounded
    obtain ⟨_, rfl, _⟩ := Quantity.alignTo_eq_ok_iff.mp rounded
    have kept : Quantity.roundUp size pile.alignment = size := by
      apply Nat.le_antisymm
      · exact Quantity.roundUp_le positive le_rfl (whole ▸ Quantity.dvd_roundUp _ _)
      · exact Quantity.le_roundUp positive
    rw [pure_bind, kept, if_neg some]
    exact ⟨same, rfl, h.fieldOffsets⟩

/-- The Microsoft rules pile up plain data. -/
theorem layPlain_piles (unpacked : f.IsUnpacked) (notAligned : f.declaration.attributes.alignment = none)
    (types : ∀ {type layout}, known.type type = .ok layout →
      (TypeLayout.ofTy f.setting type).eval known = .ok layout)
    (required : ∀ r layout, known.record r = .ok layout → layout.requiredAlignment ≤ layout.alignment)
    (fields : ∀ field ∈ f.declaration.fields, field.bitWidth = none ∧ field.alignment = none) :
    Ends (fun _ => True) ((layPlain f).eval known) fun layout => ∃ extents,
      List.Forall₂ (fun field extent => ∃ layout, known.type field.type = .ok layout ∧
        extent = (layout.width, layout.alignment)) f.declaration.fields extents ∧
      ((Pile.ofExtents f.isUnion extents).size ≠ 0 →
        layout.Piles (Pile.ofExtents f.isUnion extents)) := by
  have start : ({ State.initial f with afterBitField := false } : State).Piles {} := by
    refine ⟨rfl, rfl, rfl, ?_⟩
    change max _ (f.declaration.attributes.alignment.getD 0) ≤ 1
    rw [notAligned]
    split <;> decide
  unfold layPlain layFields
  apply ends_bind (layAnyFields_piles unpacked types required f.declaration.fields
    (fun field member => ⟨member, fields field member⟩) start)
  rintro st ⟨extents, take, piles⟩
  apply ends_lift_bind Ends.any
  intro closed closing
  apply ends_lift_bind Ends.any
  intro last finishing
  refine ⟨extents, take, fun some => ?_⟩
  obtain ⟨size, alignment, fieldOffsets⟩ :=
    (finish_piles piles some).value (except_bind_eq_ok.mpr ⟨closed, closing, finishing⟩)
  exact ⟨size, alignment, fieldOffsets⟩

end Microsoft

end ObjectLayout
