import ObjectLayout.Microsoft.Layout
import ObjectLayout.Proofs.Knowledge
import ObjectLayout.Proofs.Microsoft.Slots

/-! Non-virtual bases under the Microsoft rules. However they are declared, they are placed in one row:
those with a usable table pointer first, then the others, each at the first multiple of its alignment
past the base before it. What else a base contributes to its class is read off its layout. -/
namespace ObjectLayout

namespace Known

variable (known : Known)

/-- Whether the layout of a record is known and has a property. -/
def has (property : RecordLayout → Bool) (r : RecordId) : Bool :=
  (known.record r).toOption.any property

def requiredAlignment (r : RecordId) : Nat := (known.record r).toOption.elim 0 (·.requiredAlignment)

variable {known} {r : RecordId} {layout : RecordLayout}

theorem has_eq {property : RecordLayout → Bool} (laid : known.record r = .ok layout) :
    known.has property r = property layout := by
  simp [has, laid, Except.toOption]

theorem requiredAlignment_eq (laid : known.record r = .ok layout) :
    known.requiredAlignment r = layout.requiredAlignment := by
  simp [requiredAlignment, laid, Except.toOption]

end Known

namespace Microsoft

open LayoutM (ends_bind ends_lift_bind layoutOf)

variable {f : Frame} {known : Known} {st st' st₁ st₂ : State} {walk walk' : BaseWalk}

/-- A non-virtual base, its layout, and the place that it got. -/
structure PlacedBase where
  record : RecordId
  layout : RecordLayout
  offset : Nat

/-- The end of the data of a base. -/
def PlacedBase.stop (p : PlacedBase) : Nat := p.offset + p.layout.dataSize

def PlacedBase.slot (p : PlacedBase) : Slot := .ofBytes (.base p.record) p.offset p.layout.dataSize

/-- The alignment that a base is placed with. -/
def Frame.baseAlignment (f : Frame) (layout : RecordLayout) : Nat :=
  max (f.clamp layout.alignment) layout.requiredAlignment

/-- The byte that keeps a base apart from the one before it, if both could be of size zero. -/
def gap (ends : Bool) (layout : RecordLayout) : Nat :=
  if ends && layout.leadsWithZeroSizedBase then 1 else 0

/-- Bases placed one after another from `size` on; `ends` says whether what is there before them ends
with a subobject of size zero. -/
inductive Row (f : Frame) : Nat → Bool → List PlacedBase → Nat → Bool → Prop
  | nil (size : Nat) (ends : Bool) : Row f size ends [] size ends
  | cons {size size' : Nat} {ends ends' : Bool} {p : PlacedBase} {row : List PlacedBase}
      (positive : f.baseAlignment p.layout ≠ 0)
      (offset : p.offset = Quantity.roundUp (size + gap ends p.layout) (f.baseAlignment p.layout))
      (rest : Row f p.stop p.layout.hasZeroSizedSubobject row size' ends') :
      Row f size ends (p :: row) size' ends'

namespace Row

variable {row row' : List PlacedBase} {size size' size'' : Nat} {ends ends' ends'' : Bool}

theorem append (h : Row f size ends row size' ends') (h' : Row f size' ends' row' size'' ends'') :
    Row f size ends (row ++ row') size'' ends'' := by
  induction h with
  | nil => exact h'
  | cons positive offset _ ih => exact .cons positive offset (ih h')

theorem le (h : Row f size ends row size' ends') : size ≤ size' := by
  induction h with
  | nil => exact le_rfl
  | @cons size _ ends _ p _ positive offset _ ih =>
    have start := Quantity.le_roundUp (a := size + gap ends p.layout) (Nat.pos_of_ne_zero positive)
    have stop : p.offset ≤ p.stop := Nat.le_add_right _ _
    omega

/-- Everything in the row lies past its start and before its end. -/
theorem inside (h : Row f size ends row size' ends') :
    ∀ p ∈ row, size ≤ p.offset ∧ p.stop ≤ size' := by
  induction h with
  | nil => exact fun _ member => nomatch member
  | @cons size _ ends _ p _ positive offset rest ih =>
    have start := Quantity.le_roundUp (a := size + gap ends p.layout) (Nat.pos_of_ne_zero positive)
    intro q member
    rcases List.mem_cons.mp member with rfl | member
    · exact ⟨by omega, rest.le⟩
    · have stop : p.offset ≤ p.stop := Nat.le_add_right _ _
      have := ih q member
      omega

/-- A base ends before the next one starts. -/
theorem ordered (h : Row f size ends row size' ends') :
    row.Pairwise fun p q => p.stop ≤ q.offset := by
  induction h with
  | nil => exact .nil
  | cons _ _ rest ih => exact .cons (fun q member => (rest.inside q member).1) ih

theorem chain (h : Row f size ends row size' ends') :
    Chain (8 * size) (row.map (·.slot)) (8 * size') := by
  induction h with
  | nil => exact .nil le_rfl
  | @cons size _ ends _ p _ positive offset rest ih =>
    have start := Quantity.le_roundUp (a := size + gap ends p.layout) (Nat.pos_of_ne_zero positive)
    refine .cons ?_ ?_ ih
    · exact Nat.mul_le_mul_left 8 (by omega)
    · exact Nat.mul_le_mul_left 8 (Nat.le_add_right _ _)

end Row

/-- The table of offsets after the bases of a row were entered. -/
def enter (offsets : OrderedMap RecordId Bytes) (row : List PlacedBase) : OrderedMap RecordId Bytes :=
  row.foldl (fun offsets p => offsets.insert p.record p.offset) offsets

theorem find?_enter {offsets : OrderedMap RecordId Bytes} {row : List PlacedBase} {r : RecordId}
    {offset : Nat} (found : (enter offsets row).find? r = some offset) :
    offsets.find? r = some offset ∨ ∃ p ∈ row, p.record = r ∧ p.offset = offset := by
  induction row generalizing offsets with
  | nil => exact .inl found
  | cons p row ih =>
    rcases ih found with before | ⟨q, member, entry⟩
    · by_cases same : r = p.record
      · rw [same, OrderedMap.find?_insert_self] at before
        exact .inr ⟨p, List.mem_cons_self, same.symm, Option.some.inj before⟩
      · rw [OrderedMap.find?_insert_of_ne _ _ same] at before
        exact .inl before
    · exact .inr ⟨q, .tail _ member, entry⟩

theorem contains_enter {offsets : OrderedMap RecordId Bytes} {row : List PlacedBase} {r : RecordId}
    (known : offsets.contains r = true ∨ r ∈ row.map (·.record)) :
    (enter offsets row).contains r = true := by
  induction row generalizing offsets with
  | nil => exact known.elim id nofun
  | cons p row ih =>
    refine ih ?_
    by_cases same : r = p.record
    · exact .inl (by rw [OrderedMap.contains, same, OrderedMap.find?_insert_self]; rfl)
    · rw [OrderedMap.contains, OrderedMap.find?_insert_of_ne _ _ same]
      simpa [OrderedMap.contains, same] using known

/-- The alignment that the bases of a row bring to their class. -/
def raisedBy (f : Frame) (row : List PlacedBase) (alignment : Nat) : Nat :=
  row.foldl (fun alignment p => max alignment (f.clamp p.layout.alignment)) alignment

section Walk

/-- The end of the row, or what was there if it is empty. -/
def rowEnd (row : List PlacedBase) (default : Nat) : Nat := (row.getLast?.map (·.stop)).getD default

theorem Row.size_eq {row : List PlacedBase} {size size' : Nat} {ends ends' : Bool}
    (h : Row f size ends row size' ends') : size' = rowEnd row size := by
  induction h with
  | nil => rfl
  | @cons _ _ _ _ p row _ _ _ ih =>
    rw [ih]
    cases row <;> simp [rowEnd, List.getLast?_cons]

/-- The class after one more base was placed. -/
def State.withBase (f : Frame) (st : State) (p : PlacedBase) : State :=
  { st with
    hasZeroSizedSubobject := st.hasZeroSizedSubobject || p.layout.hasZeroSizedSubobject
    alignment := max st.alignment (f.clamp p.layout.alignment)
    baseOffsets := st.baseOffsets.insert p.record p.offset
    size := p.stop
    vbptrOffset := p.stop }

/-- One more base is at the end of the row, and nothing but that has happened. -/
theorem layNonVirtualBase_ends (r : RecordId) (layout : RecordLayout) :
    Ends (fun _ => True) (layNonVirtualBase f r layout walk) fun walk' => ∃ offset,
      Row f walk.state.size walk.endsWithZeroSized [⟨r, layout, offset⟩] walk'.state.size
        walk'.endsWithZeroSized ∧
      walk'.state = walk.state.withBase f ⟨r, layout, offset⟩ := by
  -- The byte in between, if there is one, comes off the sum that was checked.
  have rest (st : State) (start : st = { walk.state with size := st.size })
      (size : st.size = walk.state.size + gap walk.endsWithZeroSized layout) :
      Ends (fun _ => True) (do
        let extent := baseExtent f layout st
        let st := extent.1
        let offset ← Quantity.alignTo st.size extent.2.alignment
        let size ← Quantity.add offset layout.dataSize
        return ({
          state := { st with baseOffsets := st.baseOffsets.insert r offset, size, vbptrOffset := size }
          endsWithZeroSized := layout.hasZeroSizedSubobject } : BaseWalk) : Checked BaseWalk)
      fun walk' => ∃ offset,
        Row f walk.state.size walk.endsWithZeroSized [⟨r, layout, offset⟩] walk'.state.size
          walk'.endsWithZeroSized ∧
        walk'.state = walk.state.withBase f ⟨r, layout, offset⟩ := by
    refine Ends.bind Ends.any fun offset aligned => ?_
    refine Ends.bind Ends.any fun stop sum => ?_
    obtain ⟨positive, rfl, _⟩ := Quantity.alignTo_eq_ok_iff.mp aligned
    obtain ⟨rfl, _⟩ := Quantity.add_eq_ok_iff.mp sum
    refine ⟨_, .cons positive ?_ (.nil _ _), ?_⟩
    · exact congrArg (Quantity.roundUp · (f.baseAlignment layout)) size
    · dsimp only
      rw [start]
      rfl
  unfold layNonVirtualBase
  split
  · rename_i both
    refine Ends.bind Ends.any fun size sum => ?_
    obtain ⟨rfl, _⟩ := Quantity.add_eq_ok_iff.mp sum
    exact rest _ rfl (by simp [gap, both])
  · rename_i apart
    exact rest _ rfl (by simp [gap, apart])

variable {done : List Base} {row : List PlacedBase} {layout : RecordLayout} {base : Base}

/-- The base is placed in the first walk. -/
def leads (known : Known) (base : Base) : Bool :=
  !base.isVirtual && known.has (·.hasExtendableVfptr) base.record

/-- The base is placed in the second walk. -/
def follows (known : Known) (base : Base) : Bool :=
  !base.isVirtual && !known.has (·.hasExtendableVfptr) base.record

def bringsVbptr (known : Known) (base : Base) : Bool :=
  !base.isVirtual && known.has (·.hasVbptr) base.record

/-- The alignment that bases require of what holds them. -/
def requiredBy (known : Known) (bases : List Base) (alignment : Nat) : Nat :=
  bases.foldl (fun alignment base => max alignment (known.requiredAlignment base.record)) alignment

/-- The state before anything is placed. -/
structure State.IsFresh (st : State) : Prop where
  primaryBase : st.primaryBase = none
  vbptrBase : st.vbptrBase = none
  hasVbptr : st.hasVbptr = false
  fieldOffsets : st.fieldOffsets = []
  baseOffsets : st.baseOffsets = .empty
  virtualBaseSlots : st.virtualBaseSlots = .empty

/-- What placing bases leaves alone. -/
def State.rest (st : State) :=
  (st.dataSize, st.bitUnit, st.freeBits, st.afterBitField, st.fieldOffsets, st.virtualBaseSlots)

/-- What only the first walk decides. -/
def State.flags (st : State) :=
  (st.requiredAlignment, st.primaryBase, st.hasOwnVfptr, st.hasVbptr, st.vbptrBase)

theorem State.primaryBase_of_flags (same : st'.flags = st.flags) : st'.primaryBase = st.primaryBase :=
  congrArg (·.2.1) same

/-- What a class has when the bases of `row` are placed. -/
structure RowLaid (f : Frame) (known : Known) (start : State) (row : List PlacedBase) (st : State)
    (ends : Bool) : Prop where
  inRow : Row f start.size false row st.size ends
  laid : ∀ p ∈ row, known.record p.record = .ok p.layout
  alignment : st.alignment = raisedBy f row start.alignment
  vbptrOffset : st.vbptrOffset = rowEnd row start.vbptrOffset
  baseOffsets : st.baseOffsets = enter start.baseOffsets row
  zeroSized : st.hasZeroSizedSubobject
    = (start.hasZeroSizedSubobject || row.any (·.layout.hasZeroSizedSubobject))
  rest : st.rest = start.rest

/-- The flags of a class say nothing about its row. -/
theorem RowLaid.congr {ends : Bool} (h : RowLaid f known st row st₁ ends) (same : st₂ = { st₁ with
      requiredAlignment := st₂.requiredAlignment, primaryBase := st₂.primaryBase
      hasOwnVfptr := st₂.hasOwnVfptr, hasVbptr := st₂.hasVbptr, vbptrBase := st₂.vbptrBase
      leadsWithZeroSizedBase := st₂.leadsWithZeroSizedBase }) : RowLaid f known st row st₂ ends := by
  rw [same]
  exact ⟨h.inRow, h.laid, h.alignment, h.vbptrOffset, h.baseOffsets, h.zeroSized, h.rest⟩

theorem RowLaid.push {r : RecordId}
    (h : RowLaid f known st row walk.state walk.endsWithZeroSized)
    (found : known.record r = .ok layout) :
    Ends (fun _ => True) (layNonVirtualBase f r layout walk) fun walk' => ∃ offset,
      RowLaid f known st (row ++ [⟨r, layout, offset⟩]) walk'.state walk'.endsWithZeroSized ∧
      walk'.state = walk.state.withBase f ⟨r, layout, offset⟩ := by
  refine (layNonVirtualBase_ends r layout).imp ?_
  rintro walk' ⟨offset, last, state⟩
  refine ⟨offset, ?_, state⟩
  constructor
  case inRow => exact h.inRow.append last
  case laid =>
    intro p member
    rcases List.mem_append.mp member with before | last
    · exact h.laid p before
    · cases List.mem_singleton.mp last
      exact found
  case alignment => simp [state, State.withBase, raisedBy, h.alignment]
  case vbptrOffset => simp [state, State.withBase, rowEnd]
  case baseOffsets => simp [state, State.withBase, enter, h.baseOffsets]
  case zeroSized => simp [state, State.withBase, h.zeroSized, Bool.or_assoc]
  case rest =>
    rw [state]
    exact h.rest

/-- The first walk after the bases in `done`. -/
structure LeadingLaid (f : Frame) (known : Known) (st : State) (done : List Base)
    (row : List PlacedBase) (walk : BaseWalk) : Prop where
  rowLaid : RowLaid f known st row walk.state walk.endsWithZeroSized
  records : row.map (·.record) = (done.filter (leads known)).map (·.record)
  asked : ∀ base ∈ done, ∃ layout, known.record base.record = .ok layout
  required : walk.state.requiredAlignment = requiredBy known done st.requiredAlignment
  primaryBase : walk.state.primaryBase = row.head?.map (·.record)
  hasVbptr : walk.state.hasVbptr = done.any fun base => base.isVirtual || bringsVbptr known base
  vbptrBase : walk.state.vbptrBase = (done.find? (bringsVbptr known)).map (·.record)
  leadsZeroSized : walk.state.leadsWithZeroSizedBase
    = row.head?.elim st.leadsWithZeroSizedBase (·.layout.leadsWithZeroSizedBase)

theorem State.shareVbptr_eq (st : State) (r : RecordId) (layout : RecordLayout)
    (told : st.vbptrBase.isSome → st.hasVbptr = true) : st.shareVbptr r layout = { st with
      hasVbptr := st.hasVbptr || layout.hasVbptr
      vbptrBase := st.vbptrBase.or (if layout.hasVbptr then some r else none) } := by
  obtain ⟨⟩ := st
  rename_i vbptrBase _ _ _ _ _
  cases vbptrBase with
  | none => cases brings : layout.hasVbptr <;> simp [shareVbptr, brings]
  | some base => simpa [shareVbptr] using fun _ => told rfl

theorem State.takePrimary_eq (st : State) (r : RecordId) (layout : RecordLayout) :
    st.takePrimary r layout = { st with
      primaryBase := st.primaryBase.or (some r)
      leadsWithZeroSizedBase :=
        st.primaryBase.elim layout.leadsWithZeroSizedBase fun _ => st.leadsWithZeroSizedBase } := by
  obtain ⟨⟩ := st
  rename_i primaryBase _ _ _ _ _ _ _ _ _
  cases primaryBase <;> rfl

theorem layLeadingBase_ends (h : LeadingLaid f known st done row walk) :
    Ends (fun _ => True) ((layLeadingBase f walk base).eval known) fun walk' =>
      ∃ row', LeadingLaid f known st (done ++ [base]) row' walk' := by
  unfold layLeadingBase
  refine ends_bind Ends.any fun layout found => ?_
  rw [LayoutM.eval_layoutOf] at found
  have asked : ∀ base' ∈ done ++ [base], ∃ layout, known.record base'.record = .ok layout := by
    intro base' member
    rcases List.mem_append.mp member with before | last
    · exact h.asked base' before
    · cases List.mem_singleton.mp last
      exact ⟨layout, found⟩
  have required : max walk.state.requiredAlignment layout.requiredAlignment
      = requiredBy known (done ++ [base]) st.requiredAlignment := by
    simp [requiredBy, Known.requiredAlignment_eq found, h.required]
  dsimp only
  split
  case isTrue virt =>
    have notLeads : leads known base = false := by simp [leads, virt]
    have notBrings : bringsVbptr known base = false := by simp [bringsVbptr, virt]
    refine ⟨row, h.rowLaid.congr rfl, ?_, asked, required, h.primaryBase, ?_, ?_, h.leadsZeroSized⟩
    · simp [h.records, notLeads]
    · simp [virt]
    · simp [List.find?_append, notBrings, h.vbptrBase]
  case isFalse plain =>
    have plain : base.isVirtual = false := by simpa using plain
    have brings : bringsVbptr known base = layout.hasVbptr := by
      simp [bringsVbptr, plain, Known.has_eq found]
    have leading : leads known base = layout.hasExtendableVfptr := by
      simp [leads, plain, Known.has_eq found]
    have told : walk.state.vbptrBase.isSome → walk.state.hasVbptr = true := by
      rw [h.vbptrBase, h.hasVbptr, Option.isSome_map, List.find?_isSome, List.any_eq_true]
      exact fun ⟨base, member, brings⟩ => ⟨base, member, by simp [brings]⟩
    have hasVbptr : (walk.state.hasVbptr || layout.hasVbptr)
        = (done ++ [base]).any fun base => base.isVirtual || bringsVbptr known base := by
      simp [h.hasVbptr, plain, brings]
    have vbptrBase : walk.state.vbptrBase.or (if layout.hasVbptr then some base.record else none)
        = ((done ++ [base]).find? (bringsVbptr known)).map (·.record) := by
      rw [h.vbptrBase, List.find?_append, Option.map_or, List.find?_singleton, brings]
      cases layout.hasVbptr <;> rfl
    generalize sharing : State.shareVbptr _ _ _ = shared
    rw [State.shareVbptr_eq _ _ _ (by exact told), required] at sharing
    have sharedRow : RowLaid f known st row shared walk.endsWithZeroSized :=
      h.rowLaid.congr (by rw [← sharing])
    split
    case isTrue notLeading =>
      have notLeading : layout.hasExtendableVfptr = false := by simpa using notLeading
      refine ⟨row, sharedRow, by simp [h.records, leading, notLeading], asked, ?_, ?_, ?_, ?_, ?_⟩ <;>
        rw [← sharing]
      exacts [h.primaryBase, hasVbptr, vbptrBase, h.leadsZeroSized]
    case isFalse isLeading =>
      have isLeading : layout.hasExtendableVfptr = true := by simpa using isLeading
      generalize taking : State.takePrimary _ _ _ = taken
      rw [State.takePrimary_eq] at taking
      have takenRow : RowLaid f known st row taken walk.endsWithZeroSized :=
        sharedRow.congr (by rw [← taking])
      rw [LayoutM.eval_lift]
      refine (RowLaid.push takenRow found).imp ?_
      rintro walk' ⟨offset, rowLaid, state⟩
      refine ⟨_, rowLaid, by simp [h.records, leading, isLeading], asked, ?_, ?_, ?_, ?_, ?_⟩ <;>
        rw [state, ← taking, ← sharing]
      case refine_1 => rfl
      case refine_2 =>
        change walk.state.primaryBase.or (some base.record) = _
        rw [h.primaryBase]
        cases row <;> simp
      case refine_3 => exact hasVbptr
      case refine_4 => exact vbptrBase
      case refine_5 =>
        change walk.state.primaryBase.elim layout.leadsWithZeroSizedBase _ = _
        rw [h.primaryBase, h.leadsZeroSized]
        cases row <;> simp

theorem layLeadingBases_ends (fresh : st.IsFresh) (bases : List Base) :
    Ends (fun _ => True) ((bases.foldlM (layLeadingBase f) { state := st }).eval known) fun walk =>
      ∃ row, LeadingLaid f known st bases row walk := by
  rw [LayoutM.eval_foldlM]
  apply Ends.foldlM (K := fun done _ walk => ∃ row, LeadingLaid f known st done row walk)
  case first =>
    exact ⟨[], ⟨.nil _ _, nofun, rfl, rfl, rfl, by simp, rfl⟩, rfl, nofun, rfl, fresh.primaryBase,
      fresh.hasVbptr, fresh.vbptrBase, rfl⟩
  case next =>
    rintro done base rest walk split ⟨row, laid⟩
    exact layLeadingBase_ends laid

/-- The second walk after the bases in `done`, on top of the row of the first. -/
structure FollowingLaid (f : Frame) (known : Known) (st : State) (leading : List PlacedBase)
    (first : State) (done : List Base) (row : List PlacedBase) (acc : BaseWalk × Bool) : Prop where
  rowLaid : RowLaid f known st (leading ++ row) acc.1.state acc.1.endsWithZeroSized
  records : row.map (·.record)
    = (done.filter fun base => !known.has (·.hasExtendableVfptr) base.record).map (·.record)
  decides : acc.2 = (leading ++ row).isEmpty
  leadsZeroSized : acc.1.state.leadsWithZeroSizedBase
    = (leading ++ row).head?.elim st.leadsWithZeroSizedBase (·.layout.leadsWithZeroSizedBase)
  flags : acc.1.state.flags = first.flags

theorem layFollowingBase_ends {leading : List PlacedBase} {first : State} {acc : BaseWalk × Bool}
    (h : FollowingLaid f known st leading first done row acc) :
    Ends (fun _ => True) ((layFollowingBase f acc base).eval known) fun acc' =>
      ∃ row', FollowingLaid f known st leading first (done ++ [base]) row' acc' := by
  obtain ⟨walk, decides⟩ := acc
  unfold layFollowingBase
  refine ends_bind Ends.any fun layout found => ?_
  rw [LayoutM.eval_layoutOf] at found
  dsimp only
  split
  case isTrue leads =>
    have leads : known.has (·.hasExtendableVfptr) base.record = true := by
      rwa [Known.has_eq found]
    exact ⟨row, h.rowLaid, by simp [h.records, leads], h.decides, h.leadsZeroSized, h.flags⟩
  case isFalse follows =>
    have follows : known.has (·.hasExtendableVfptr) base.record = false := by
      simpa [Known.has_eq found] using follows
    generalize deciding : (if decides = true then
      { walk.state with leadsWithZeroSizedBase := layout.leadsWithZeroSizedBase }
      else walk.state) = decided
    have decided_eq : decided = { walk.state with leadsWithZeroSizedBase :=
        if decides then layout.leadsWithZeroSizedBase else walk.state.leadsWithZeroSizedBase } := by
      rw [← deciding]
      cases decides <;> rfl
    have decidedRow : RowLaid f known st (leading ++ row) decided walk.endsWithZeroSized :=
      h.rowLaid.congr (by rw [decided_eq])
    refine ends_lift_bind (RowLaid.push decidedRow found) fun walk' placed => ?_
    obtain ⟨offset, rowLaid, state⟩ := placed
    rw [List.append_assoc] at rowLaid
    refine ⟨_, rowLaid, by simp [h.records, follows], by simp, ?_, ?_⟩
    case refine_1 =>
      have before := h.leadsZeroSized
      have last := h.decides
      rw [state, decided_eq]
      change (if decides then layout.leadsWithZeroSizedBase
        else walk.state.leadsWithZeroSizedBase) = _
      dsimp only at before last
      rw [last, before, ← List.append_assoc]
      cases leading ++ row <;> simp
    case refine_2 =>
      rw [state, decided_eq]
      exact h.flags

theorem layFollowingBases_ends {leading : List PlacedBase} {walk : BaseWalk} (bases : List Base)
    (rowLaid : RowLaid f known st leading walk.state walk.endsWithZeroSized)
    (leads : walk.state.leadsWithZeroSizedBase
      = leading.head?.elim st.leadsWithZeroSizedBase (·.layout.leadsWithZeroSizedBase)) :
    Ends (fun _ => True)
      ((bases.foldlM (layFollowingBase f) (walk, leading.isEmpty)).eval known) fun acc =>
      ∃ row, FollowingLaid f known st leading walk.state bases row acc := by
  rw [LayoutM.eval_foldlM]
  apply Ends.foldlM
    (K := fun done _ acc => ∃ row, FollowingLaid f known st leading walk.state done row acc)
  case first =>
    exact ⟨[], by rwa [List.append_nil], rfl, by rw [List.append_nil],
      by rwa [List.append_nil], rfl⟩
  case next =>
    rintro done base rest acc split ⟨row, laid⟩
    exact layFollowingBase_ends laid

end Walk

/-- What the layout of the non-virtual bases adds to a state. -/
structure BasesLaid (f : Frame) (known : Known) (st : State) (row : List PlacedBase) (st' : State) :
    Prop where
  inRow : ∃ ends, Row f st.size false row st'.size ends
  laid : ∀ p ∈ row, known.record p.record = .ok p.layout
  records : row.map (·.record) = (f.declaration.bases.filter (leads known)).map (·.record)
    ++ (f.declaration.bases.filter (follows known)).map (·.record)
  asked : ∀ base ∈ f.declaration.bases, ∃ layout, known.record base.record = .ok layout
  alignment : st'.alignment = raisedBy f row st.alignment
  required : st'.requiredAlignment = requiredBy known f.declaration.bases st.requiredAlignment
  hasVbptr : st'.hasVbptr
    = f.declaration.bases.any fun base => base.isVirtual || bringsVbptr known base
  vbptrBase : st'.vbptrBase = (f.declaration.bases.find? (bringsVbptr known)).map (·.record)
  vbptrOffset : st'.vbptrBase = none → st'.vbptrOffset = rowEnd row st.vbptrOffset
  primaryBase : st'.primaryBase
    = (f.declaration.bases.find? (leads known)).map (·.record)
  hasOwnVfptr : st'.hasOwnVfptr = (st'.primaryBase.isNone && declaresNewVirtual f)
  baseOffsets : st'.baseOffsets = enter st.baseOffsets row
  zeroSized : st'.hasZeroSizedSubobject
    = (st.hasZeroSizedSubobject || row.any (·.layout.hasZeroSizedSubobject))
  leadsZeroSized : st'.leadsWithZeroSizedBase
    = row.head?.elim st.leadsWithZeroSizedBase (·.layout.leadsWithZeroSizedBase)
  rest : st'.rest = st.rest

theorem locateSharedVbptr_ends (st : State) :
    Ends (fun _ => True) ((locateSharedVbptr st).eval known) fun st' =>
      st' = { st with vbptrOffset := st'.vbptrOffset } ∧
        (st.vbptrBase = none → st' = st) := by
  unfold locateSharedVbptr
  split
  case h_1 alone => exact ⟨rfl, fun _ => rfl⟩
  case h_2 base shared =>
    refine ends_bind Ends.any fun layout _ => ?_
    refine ends_lift_bind Ends.any fun offset _ => ?_
    refine ends_lift_bind Ends.any fun sum _ => ?_
    refine ⟨rfl, fun none => ?_⟩
    rw [none] at shared
    split at shared <;> cases shared

/-- The state after the walk over the leading bases, which decides on a table pointer of its own. -/
def decideVfptr (f : Frame) (st : State) : State :=
  { st with hasOwnVfptr := !st.primaryBase.isSome && declaresNewVirtual f }

/-- The two walks leave one row, the leading bases first. -/
theorem LeadingLaid.basesLaid {leading following : List PlacedBase} {walk : BaseWalk}
    {acc : BaseWalk × Bool} (first : LeadingLaid f known st f.declaration.bases leading walk)
    (second : FollowingLaid f known st leading (decideVfptr f walk.state)
      f.declaration.nonVirtualBases following acc) :
    BasesLaid f known st (leading ++ following) acc.1.state := by
  obtain ⟨row, records, _, leadsZeroSized, flags⟩ := second
  simp only [State.flags, Prod.mk.injEq] at flags
  obtain ⟨required, primaryBase, hasOwnVfptr, hasVbptr, vbptrBase⟩ := flags
  have heads : leading.head?.map (·.record)
      = (f.declaration.bases.find? (leads known)).map (·.record) := by
    rw [← List.head?_map, first.records, List.head?_map, List.head?_filter]
  constructor
  case inRow => exact ⟨_, row.inRow⟩
  case laid => exact row.laid
  case records =>
    rw [List.map_append, first.records, records]
    simp only [Record.nonVirtualBases, List.filter_filter, Bool.and_comm]
    rfl
  case asked => exact first.asked
  case alignment => exact row.alignment
  case required => exact required.trans first.required
  case hasVbptr => exact hasVbptr.trans first.hasVbptr
  case vbptrBase => exact vbptrBase.trans first.vbptrBase
  case vbptrOffset => exact fun _ => row.vbptrOffset
  case primaryBase => exact primaryBase.trans (first.primaryBase.trans heads)
  case hasOwnVfptr =>
    rw [primaryBase, ← Option.not_isSome]
    exact hasOwnVfptr
  case baseOffsets => exact row.baseOffsets
  case zeroSized => exact row.zeroSized
  case leadsZeroSized => exact leadsZeroSized
  case rest => exact row.rest

/-- Only the place of a vbptr that a base brings is not known before all bases have theirs. -/
theorem BasesLaid.located {mid : State} (h : BasesLaid f known st row mid)
    (same : st' = { mid with vbptrOffset := st'.vbptrOffset })
    (untouched : mid.vbptrBase = none → st' = mid) : BasesLaid f known st row st' := by
  have vbptrOffset (alone : st'.vbptrBase = none) : st'.vbptrOffset = rowEnd row st.vbptrOffset := by
    rw [same] at alone
    rw [untouched alone]
    exact h.vbptrOffset alone
  rw [same]
  exact { h with vbptrOffset := fun alone => vbptrOffset (by rw [same]; exact alone) }

/-- The non-virtual bases, the leading ones first, are in one row. -/
theorem layNonVirtualBases_ends (fresh : st.IsFresh) :
    Ends (fun _ => True) ((layNonVirtualBases f st).eval known) fun st' =>
      ∃ row, BasesLaid f known st row st' := by
  unfold layNonVirtualBases
  refine ends_bind (layLeadingBases_ends fresh _) fun walk first => ?_
  obtain ⟨leading, first⟩ := first
  have primary : (!walk.state.primaryBase.isSome) = leading.isEmpty := by
    rw [first.primaryBase]
    cases leading <;> rfl
  dsimp only
  rw [primary]
  refine ends_bind (layFollowingBases_ends _ (first.rowLaid.congr rfl) first.leadsZeroSized)
    fun acc second => ?_
  rw [← primary] at second
  obtain ⟨following, second⟩ := second
  refine (locateSharedVbptr_ends acc.1.state).imp fun st' located => ?_
  exact ⟨leading ++ following, (first.basesLaid second).located located.1 located.2⟩

/-- A class without bases may only get a table pointer of its own. -/
theorem layNonVirtualBases_noBases (bases : f.declaration.bases = []) (primary : st.primaryBase = none)
    (vbptr : st.hasVbptr = false) :
    layNonVirtualBases f st = pure { st with hasOwnVfptr := declaresNewVirtual f } := by
  have none : f.declaration.nonVirtualBases = [] := by rw [Record.nonVirtualBases, bases]; rfl
  unfold layNonVirtualBases
  rw [bases, none]
  simp only [List.foldlM_nil, pure_bind, primary, Option.isSome_none, Bool.not_false, Bool.true_and]
  unfold locateSharedVbptr
  rw [vbptr]
  rfl

end Microsoft

end ObjectLayout
