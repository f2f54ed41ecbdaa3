import ObjectLayout.Proofs.Itanium.Members

/-! The layout of a whole class. In the end every base subobject that hangs from nothing has been
placed exactly once, and with it every base subobject; the layout that is returned is read off the
last state, its non-virtual part off the state before the pass over the virtual bases. -/
namespace ObjectLayout.Itanium

open LayoutM (ends_bind ends_lift_bind layoutOf)

variable {f : Frame} {known : Known} {allowed : Fault → Prop} {g : SubobjectGraph}
variable {st st₁ st₂ st₃ : State} {before pieces added : List Piece} {i p : SubobjectId}
variable {own : Option RecordId} {r v : RecordId}

/-- A state after the pass over the virtual bases. -/
structure AllLaid (f : Frame) (known : Known) (own : Option RecordId) (g : SubobjectGraph)
    (before pieces : List Piece) (st st' : State) : Prop where
  progress : Progress f known g st'.dataSize pieces st'
  kept : ∀ piece ∈ before, piece ∈ pieces
  roots : ∀ i, g.IsRoot i → ∃ x, Piece.base i x ∈ pieces
  own : ∀ v, own = some v → ∃ p, g.virtualBases.find? v = some p ∧ Piece.base p 0 ∈ pieces
  fieldOffsets : st'.fieldOffsets = st.fieldOffsets
  primaryBase : st'.primaryBase = st.primaryBase
  unfilledBits : st'.unfilledBits = st.unfilledBits
  grows : st.size ≤ st'.size

/-- Fields come along without any base. -/
theorem FieldsLaid.base_mem (h : FieldsLaid f known g pieces added st st') {x : Nat} :
    Piece.base i x ∈ pieces ++ added ↔ Piece.base i x ∈ pieces := by
  rw [List.mem_append]
  apply or_iff_left
  intro member
  obtain ⟨_, _, same⟩ := h.fields _ member
  cases same

theorem layVirtualBases_ends (work : Workable f known allowed)
    (nonVirtual : NonVirtualLaid f known own g pieces st₁)
    (fields : FieldsLaid f known g pieces added st₁ st₂) :
    Ends allowed ((layVirtualBases f st₂).eval known) fun st₃ => ∃ pieces',
      AllLaid f known own g (pieces ++ added) pieces' st₂ st₃ := by
  have charted := nonVirtual.charted
  have direct := nonVirtual.direct
  have rest := SameRest.of_eq fields.rest
  have used : ∀ u, u ∈ st₂.indirectPrimaryBases ↔ own = some u ∨
      ∃ b, f.tree.Inherits f.record b ∧ IsPrimaryFrom f.setting known b u := by
    rw [rest.indirectPrimaryBases]
    exact nonVirtual.indirect
  have visited : st₂.visitedVirtualBases = own.toList :=
    rest.visitedVirtualBases.trans nonVirtual.visited
  have start : VirtualLaid f known own g st₂.indirectPrimaryBases (pieces ++ added)
      (pieces ++ added) st₂ := by
    constructor
    case progress => exact fields.progress.mono (Nat.sub_le _ _)
    case kept => exact fun _ => id
    case indirect => rfl
    case visited =>
      intro v p found
      rw [visited, Option.mem_toList]
      obtain ⟨_, record, virt⟩ := charted.forest.found v p found
      constructor
      · rintro ⟨x, member⟩
        rw [direct.virtual p x (fields.base_mem.mp member) virt, record]
      · intro same
        obtain ⟨p', found', member⟩ := direct.own v same
        rw [found] at found'
        cases found'
        exact ⟨0, fields.base_mem.mpr member⟩
    case direct =>
      intro b i found
      have named := (charted.forest.plain b).mp (Option.isSome_iff_exists.mpr ⟨i, found⟩)
      exact (direct.all b i found (.inl named)).imp fun x => fields.base_mem.mpr
    case own =>
      intro v same
      exact (direct.own v same).imp fun p both => ⟨both.1, fields.base_mem.mpr both.2⟩
  have unowed (v : RecordId) (primary : st₂.primaryBase = some ⟨v, true⟩) :
      v ∈ st₂.indirectPrimaryBases := by
    rw [used, nonVirtual.owned, ← rest.primaryBase, primary]
    exact .inl rfl
  have above : OpenAbove f st₂.indirectPrimaryBases f.record st₂ := by
    intro u member due
    rw [visited, Option.mem_toList] at member
    exact absurd ((used u).mpr (.inl member)) due
  refine ((searchable work charted used).complete .refl st₂.primaryBase st₂ unowed ⟨_, start⟩ above).imp ?_
  rintro st₃ ⟨⟨pieces', h⟩, later, complete⟩
  have after := SameRest.of_eq later.rest
  refine ⟨pieces', h.progress, h.kept, fun i root => ?_, h.own, after.fieldOffsets,
    after.primaryBase, after.unfilledBits, later.grows⟩
  rcases charted.forest.root_cases root with ⟨_, found⟩ | ⟨virt, free⟩
  · exact h.direct _ i found
  · have found := charted.forest.listed i root.1 virt
    have has := charted.forest.virtual i root.1 virt
    by_cases due : (g.node i).record ∈ st₂.indirectPrimaryBases
    · have owns : own = some (g.node i).record := by
        by_contra other
        have primary := ((used _).mp due).resolve_left other
        have claimed := (charted.forest.claimed_iff found).mpr ⟨other, primary⟩
        simp [free] at claimed
      obtain ⟨p, found', member⟩ := h.own _ owns
      rw [found] at found'
      cases found'
      exact ⟨0, member⟩
    · exact (h.visited _ i found).mpr (complete _ has due)

section Ends

theorem ofClass_ends (sound : SoundBelow f.setting known f.record) (tracking : Tracking) :
    Ends allowed ((EmptyMap.ofClass f.setting tracking f.record).eval known) fun map =>
      map.tracking = tracking ∧ map.placed = [] ∧
        ∀ r, f.setting.Holds f.record r → f.setting.largestIn known r ≤ map.largest := by
  unfold EmptyMap.ofClass
  have fold : Ends allowed (((EmptyMap.heldRecords f.setting f.record).foldlM (fun largest held => do
      return max largest (EmptyMap.largestIn f.setting held (← layoutOf held))) 0 :
        LayoutM Nat).eval known) fun largest =>
      ∀ r ∈ EmptyMap.heldRecords f.setting f.record, f.setting.largestIn known r ≤ largest := by
    rw [LayoutM.eval_foldlM]
    refine Ends.foldlM (K := fun done _ largest => ∀ r ∈ done, f.setting.largestIn known r ≤ largest)
      (fun r member => nomatch member) fun done held rest largest split covered => ?_
    have holds : f.setting.Holds f.record held := by
      change held ∈ EmptyMap.heldRecords f.setting f.record
      simp [split]
    obtain ⟨layout, laid, _⟩ := (sound held (.single holds)).laid
    rw [LayoutM.eval_layoutOf_bind laid]
    intro r member
    rcases List.mem_append.mp member with member | last
    · exact (covered r member).trans (Nat.le_max_left _ _)
    · cases List.mem_singleton.mp last
      rw [Setting.largestIn_eq laid]
      exact Nat.le_max_right _ _
  refine ends_bind fold fun largest covers => ?_
  exact ⟨rfl, rfl, covers⟩

/-- The state before any base or field, which has no alignment to settle yet. -/
theorem initial_ends (known : Known) (unsupplied : f.supplied = none) (map : Option EmptyMap)
    (powers : ∀ alignment, f.declaration.attributes.alignment = some alignment →
      Quantity.isPowerOfTwo alignment = true ∨ allowed (.breach .alignmentNotPowerOfTwo))
    (large : ∀ map', map = some map' → map'.placed = [] ∧
      ∀ r, f.setting.Holds f.record r → f.setting.largestIn known r ≤ map'.largest)
    (mapped : f.declaration.isClass = true → map.isSome) :
    Ends allowed (State.initial f map) fun st => Fresh f known st ∧ st.dataSize = 0 ∧
      st.visitedVirtualBases = [] ∧ st.size = 0 ∧ st.emptyMap = map ∧ st.primaryBase = none := by
  have start : Fresh f known { emptyMap := map } := by
    refine ⟨rfl, rfl, rfl, rfl, rfl, .inl rfl, ?_, large, mapped⟩
    change Quantity.isPowerOfTwo 1 = true
    decide
  unfold State.initial
  rw [unsupplied]
  dsimp only
  split
  · refine ⟨⟨rfl, rfl, rfl, rfl, rfl, .inl rfl, ?_, large, mapped⟩, rfl, rfl, rfl, rfl, rfl⟩
    change Quantity.isPowerOfTwo 2 = true
    decide
  · cases asked : f.declaration.attributes.alignment with
    | none => exact ⟨start, rfl, rfl, rfl, rfl, rfl⟩
    | some alignment =>
      have power := powers alignment asked
      refine (raiseAlignment_ends power power).bind fun st aligned => ?_
      have frame := aligned.frame
      refine ⟨⟨?_, ?_, ?_, ?_, ?_, .inl ?_, aligned.power start.power, ?_, ?_⟩, ?_, ?_, ?_, ?_, ?_⟩
      case refine_1 => rw [frame]; rfl
      case refine_2 => rw [frame]; rfl
      case refine_7 => rw [frame]; exact large
      case refine_8 => rw [frame]; exact mapped
      all_goals rw [frame]

theorem initial_frame (unsupplied : f.supplied = none) (map : Option EmptyMap) :
    Ends (fun _ => True) (State.initial f map) fun st => st = {
      emptyMap := map, alignment := st.alignment, unpackedAlignment := st.unpackedAlignment } := by
  unfold State.initial
  rw [unsupplied]
  dsimp only
  split
  · rfl
  · cases f.declaration.attributes.alignment with
    | none => rfl
    | some alignment =>
      refine (raiseAlignment_ends (.inr trivial) (.inr trivial)).bind fun st raised => ?_
      rw [raised.frame]
      rfl

/-- What finishing a state does: it only makes the record larger, up to a multiple of the alignment. -/
structure Finished (f : Frame) (st st' : State) : Prop where
  grows : st.size ≤ st'.size
  whole : 8 * st'.alignment ∣ st'.size
  positive : f.setting.options.cplusplus = true → f.tree.isEmptyClass f.record = true → 0 < st'.size
  frame : ∃ size, st' = { st with size }

theorem avoidSizeZero_ends (st : State) : Ends (fun _ => True) (st.avoidSizeZero f) fun st' =>
    st' = { st with size := st'.size } ∧ st.size ≤ st'.size ∧
      (f.setting.options.cplusplus = true → f.tree.isEmptyClass f.record = true → 0 < st'.size) := by
  unfold State.avoidSizeZero
  split
  · rename_i zero
    simp only [Bool.and_eq_true, beq_iff_eq] at zero
    refine (setSize_ends trivial).imp fun st' same => ?_
    subst same
    refine ⟨rfl, ?_, fun _ _ => Nat.succ_pos 7⟩
    rw [zero.1.2]
    exact Nat.zero_le _
  · rename_i positive
    refine ⟨rfl, le_rfl, fun cplusplus empty => Nat.pos_of_ne_zero fun zero => positive ?_⟩
    simp [cplusplus, zero, empty]

theorem finish_ends (unsupplied : f.supplied = none) :
    Ends (fun _ => True) ((finish f st).eval known) (Finished f st) := by
  refine finish_stages.imp ?_
  rintro st' ⟨rounded, sized, stages⟩
  obtain ⟨frame, grows, positive⟩ := Ends.holds (avoidSizeZero_ends st) stages.avoided
  have further := alignTo_le stages.aligned
  obtain ⟨_, multiple, _⟩ := Quantity.alignTo_eq_ok_iff.mp stages.aligned
  rw [stages.computed unsupplied]
  refine ⟨grows.trans further, ?_, fun cplusplus empty => ?_, ?_⟩
  · exact multiple ▸ Quantity.dvd_roundUp _ _
  · exact lt_of_lt_of_le (positive cplusplus empty) further
  · rw [frame]
    exact ⟨_, rfl⟩

end Ends

/-- The size of a layout is a multiple of its alignment, which is a power of two, and covers the data. -/
structure Rounded (layout : RecordLayout) : Prop where
  power : Quantity.isPowerOfTwo layout.alignment = true
  required : layout.requiredAlignment = layout.alignment
  whole : layout.alignment ∣ layout.size
  data : layout.dataSize ≤ layout.size

theorem toBytesCeil_mono {m n : Bits} (le : m ≤ n) : Bits.toBytesCeil m ≤ Bits.toBytesCeil n := by
  unfold Bits.toBytesCeil
  exact Nat.div_le_div_right (Nat.add_le_add_right le _)

theorem Finished.whole_bytes (h : Finished f st st₁) : st₁.alignment ∣ st₁.sizeInBytes := by
  obtain ⟨count, size⟩ := h.whole
  refine ⟨count, ?_⟩
  have bytes (n : Nat) : (8 * n + 7) / 8 = n := by omega
  change (st₁.size + 7) / 8 = _
  rw [size, Nat.mul_assoc, bytes]

/-- Everything before the fields is used, to the last bit. -/
theorem NonVirtualLaid.used {own : Option RecordId} {g : SubobjectGraph} {pieces : List Piece}
    (h : NonVirtualLaid f known own g pieces st) : st.used = st.dataSize := by
  rw [State.used, h.direct.unfilledBits, Nat.sub_zero]

theorem NonVirtualLaid.fields_end {own : Option RecordId} {g : SubobjectGraph} {pieces : List Piece}
    (h : NonVirtualLaid f known own g pieces st) (work : Workable f known allowed) :
    Ends (fun _ => True) ((layFields f st).eval known) fun st' => ∃ added,
      FieldsLaid f known g pieces added st st' ∧
        st'.fieldOffsets.length = f.declaration.fields.length := by
  refine layFields_ends work (h.used ▸ h.direct.progress) h.direct.fieldOffsets fun _ => ?_
  rw [h.direct.unfilledBits]
  exact Nat.zero_le _

/-- A class layout with the pieces that it was computed from. The state `fixed` is that before the
pass over the virtual bases, `st` that after it. -/
structure ClassLaid (f : Frame) (known : Known) (own : Option RecordId) (g : SubobjectGraph)
    (pieces : List Piece) (fixed st : State) (layout : RecordLayout) : Prop where
  charted : Charted f.setting known f.record own g
  computed : IsGraphOf f.setting known f.record own g
  choice : ∃ used, PrimaryChoice f.setting known f.record st.primaryBase used
  owned : own = (st.primaryBase.filter (·.isVirtual)).map (·.record)
  progress : Progress f known g st.dataSize pieces st
  roots : ∀ i, g.IsRoot i → ∃ x, Piece.base i x ∈ pieces
  own : ∀ v, own = some v → ∃ p, g.virtualBases.find? v = some p ∧ Piece.base p 0 ∈ pieces
  plain : ∀ b, st.primaryBase = some ⟨b, false⟩ →
    ∃ i, g.nonVirtualBases.find? b = some i ∧ Piece.base i 0 ∈ pieces
  /-- What is not a virtual base was there before. -/
  before : ∃ before, Progress f known g fixed.used before fixed ∧
    (∀ i x, Piece.base i x ∈ pieces → (g.node i).isVirtual = false → Piece.base i x ∈ before) ∧
    ∀ index offset, Piece.field index offset ∈ pieces → Piece.field index offset ∈ before
  count : st.fieldOffsets.length = f.declaration.fields.length
  grows : fixed.size ≤ st.size
  dynamic : f.tree.isDynamic f.record = true → 8 * f.target.pointerWidth ≤ fixed.size ∧
    (∀ i x, Piece.base i x ∈ pieces → (g.node i).isVirtual = false →
      f.tree.isEmptyClass (g.node i).record = false →
      f.target.pointerWidth ≤ x ∨ (x = 0 ∧ f.tree.isDynamic (g.node i).record = true)) ∧
    (f.IsSequential → ∀ index offset, Piece.field index offset ∈ pieces →
      8 * f.target.pointerWidth ≤ offset)
  size : st.size ≤ 8 * layout.size
  positive : f.setting.options.cplusplus = true → f.tree.isEmptyClass f.record = true →
    0 < layout.size
  rounded : Rounded layout
  fieldOffsets : layout.fieldOffsets = st.fieldOffsets
  part : ∃ part, layout.asClass = some part ∧ part.primaryBase = st.primaryBase ∧
    part.baseOffsets = st.baseOffsets ∧ part.virtualBaseSlots = st.virtualBaseSlots ∧
    Quantity.isPowerOfTwo part.nonVirtualAlignment = true ∧
    fixed.size ≤ 8 * part.nonVirtualSize ∧ part.nonVirtualSize ≤ layout.size ∧
    ∀ r, f.setting.Holds f.record r → f.setting.largestIn known r ≤ part.largestEmptySubobject

/-- The states that the layout of a class goes through: before any base, after the direct bases, after
the fields, after the virtual bases, and at the end. -/
structure ClassStages (f : Frame) (known : Known) (tracking : Tracking) (map : EmptyMap)
    (start mid fixed st last : State) (layout : RecordLayout) : Prop where
  mapped : (EmptyMap.ofClass f.setting tracking f.record).eval known = .ok map
  started : State.initial f (some map) = .ok start
  bases : (layNonVirtualBases f start).eval known = .ok mid
  fields : (layFields f mid).eval known = .ok fixed
  virtualBases : (layVirtualBases f fixed).eval known = .ok st
  finished : (finish f st).eval known = .ok last
  layout : layout = {
    size := last.sizeInBytes
    dataSize := if keepsTailPadding f then last.sizeInBytes else last.dataSizeInBytes
    alignment := last.alignment
    requiredAlignment := last.alignment
    fieldOffsets := last.fieldOffsets
    asClass := some {
      nonVirtualSize := if keepsTailPadding f then last.sizeInBytes else fixed.sizeInBytes
      nonVirtualAlignment := fixed.alignment
      largestEmptySubobject := map.largest
      primaryBase := last.primaryBase
      hasOwnVfptr := last.hasOwnVfptr
      hasExtendableVfptr := f.tree.isDynamic f.record
      baseOffsets := last.baseOffsets
      virtualBaseSlots := last.virtualBaseSlots } }

theorem layClass_stages (tracking : Tracking) :
    Ends (fun _ => True) ((layClass f tracking).eval known) fun layout =>
      ∃ map start mid fixed st last,
        ClassStages f known tracking map start mid fixed st last layout := by
  unfold layClass
  refine ends_bind Ends.any fun map mapped => ends_lift_bind Ends.any fun start started => ?_
  refine ends_bind Ends.any fun mid bases => ends_bind Ends.any fun fixed fields => ?_
  refine ends_bind Ends.any fun st virtualBases => ends_bind Ends.any fun last finished => ?_
  exact ⟨map, start, mid, fixed, st, last, mapped, started, bases, fields, virtualBases, finished, rfl⟩

section Stages

variable {tracking : Tracking} {map : EmptyMap} {start mid fixed last : State}
variable {layout : RecordLayout}

/-- The pieces that come with each of the stages. -/
structure ClassPieces (f : Frame) (known : Known) (own : Option RecordId) (g : SubobjectGraph)
    (based added pieces : List Piece) (mid fixed st : State) : Prop where
  nonVirtual : NonVirtualLaid f known own g based mid
  fields : FieldsLaid f known g based added mid fixed
  count : fixed.fieldOffsets.length = f.declaration.fields.length
  all : AllLaid f known own g (based ++ added) pieces fixed st

namespace ClassPieces

variable {based : List Piece} (placed : ClassPieces f known own g based added pieces mid fixed st)
include placed

/-- Virtual bases aside, everything has its place before the virtual bases are laid out. -/
theorem direct_before {i : SubobjectId} {x : Nat} (member : Piece.base i x ∈ pieces)
    (plain : (g.node i).isVirtual = false) : Piece.base i x ∈ based ++ added := by
  obtain ⟨nonVirtual, fields, _, all⟩ := placed
  have charted := nonVirtual.charted
  rcases charted.forest.root_cases (all.progress.laid.rooted i x member) with ⟨_, found⟩ | ⟨virt, _⟩
  · have named := (charted.forest.plain _).mp (Option.isSome_iff_exists.mpr ⟨i, found⟩)
    obtain ⟨y, there⟩ := nonVirtual.direct.all _ i found (.inl named)
    have early := fields.base_mem.mpr there
    rwa [all.progress.laid.distinct.unique member (all.kept _ early)]
  · rw [plain] at virt
    cases virt

theorem field_before {index offset : Nat} (member : Piece.field index offset ∈ pieces) :
    Piece.field index offset ∈ based ++ added := by
  obtain ⟨_, fields, _, all⟩ := placed
  rw [fields.progress.laid.fields, ← all.fieldOffsets, ← all.progress.laid.fields]
  exact member

end ClassPieces

variable (h : ClassStages f known tracking map start mid fixed st last layout)
variable (work : Workable f known fun _ => True)
include h work

theorem ClassStages.large : map.placed = [] ∧
    ∀ r, f.setting.Holds f.record r → f.setting.largestIn known r ≤ map.largest :=
  (Ends.holds (ofClass_ends work.sound tracking) h.mapped).2

theorem ClassStages.fresh : Fresh f known start ∧ start.dataSize = 0 ∧
    start.visitedVirtualBases = [] ∧ start.size = 0 ∧ start.emptyMap = some map ∧
      start.primaryBase = none := by
  have initial : Ends (fun _ => True) (State.initial f (some map)) _ :=
    initial_ends known work.unsupplied (some map) (fun _ _ => .inr trivial)
      (fun map' same => by cases same; exact h.large work) fun _ => rfl
  exact initial.holds h.started

theorem ClassStages.placed : ∃ own g based added pieces,
    ClassPieces f known own g based added pieces mid fixed st := by
  obtain ⟨fresh, none, unvisited, _⟩ := h.fresh work
  obtain ⟨own, g, based, nonVirtual⟩ :=
    Ends.holds (layNonVirtualBases_ends work fresh none unvisited) h.bases
  obtain ⟨added, fields, count⟩ := Ends.holds (nonVirtual.fields_end work) h.fields
  obtain ⟨pieces, all⟩ := Ends.holds (layVirtualBases_ends work nonVirtual fields) h.virtualBases
  exact ⟨own, g, based, added, pieces, nonVirtual, fields, count, all⟩

theorem ClassStages.laid {based : List Piece}
    (placed : ClassPieces f known own g based added pieces mid fixed st) :
    ClassLaid f known own g pieces fixed st layout := by
  have large := (h.large work).2
  have ⟨nonVirtual, fields, count, all⟩ := placed
  have direct := nonVirtual.direct
  have finished := Ends.holds (finish_ends work.unsupplied) h.finished
  have further := finished.grows
  obtain ⟨size, rfl⟩ := finished.frame
  obtain rfl := h.layout
  have rest := SameRest.of_eq fields.rest
  have primary : st.primaryBase = mid.primaryBase := all.primaryBase.trans rest.primaryBase
  have ceil := le_toBytesCeil size
  have ceilFixed := le_toBytesCeil fixed.size
  have below : Bits.toBytesCeil fixed.size ≤ Bits.toBytesCeil size :=
    toBytesCeil_mono (all.grows.trans further)
  constructor
  case charted => exact nonVirtual.charted
  case computed => exact nonVirtual.computed
  case choice => rw [primary]; exact nonVirtual.choice
  case owned => rw [primary]; exact nonVirtual.owned
  case progress => exact all.progress
  case roots => exact all.roots
  case own => exact all.own
  case plain =>
    intro b same
    refine (direct.plain b (primary ▸ same)).imp fun i both => ⟨both.1, ?_⟩
    exact all.kept _ (fields.base_mem.mpr both.2)
  case before =>
    exact ⟨based ++ added, fields.progress, fun _ _ => placed.direct_before,
      fun _ _ => placed.field_before⟩
  case count => rw [all.fieldOffsets, count]
  case grows => exact all.grows
  case dynamic =>
    intro dynamic
    have pointer := direct.dynamic dynamic
    refine ⟨pointer.trans (direct.progress.laid.sized.trans fields.grows), ?_, ?_⟩
    · intro i x member plain
      exact direct.leading dynamic i x (fields.base_mem.mp (placed.direct_before member plain))
    intro sequential index offset member
    rcases List.mem_append.mp (placed.field_before member) with early | late
    · rw [direct.progress.laid.fields, direct.fieldOffsets] at early
      cases early
    · exact pointer.trans (nonVirtual.used ▸ fields.past sequential _ late)
  case size =>
    change st.size ≤ 8 * Bits.toBytesCeil size
    exact further.trans ceil
  case positive =>
    intro cplusplus empty
    have := finished.positive cplusplus empty
    change 0 < Bits.toBytesCeil size
    lia
  case rounded =>
    refine ⟨all.progress.laid.power, rfl, finished.whole_bytes, ?_⟩
    dsimp only
    split
    · exact le_rfl
    · exact toBytesCeil_mono (all.progress.laid.sized.trans further)
  case fieldOffsets => rfl
  case part =>
    refine ⟨_, rfl, rfl, rfl, rfl, ?_, ?_, ?_, large⟩
    · exact fields.progress.laid.power
    · dsimp only
      split
      · change fixed.size ≤ 8 * Bits.toBytesCeil size
        exact (all.grows.trans further).trans ceil
      · exact ceilFixed
    · dsimp only
      split
      · exact le_rfl
      · exact below

end Stages

theorem layClass_ends (work : Workable f known fun _ => True) (tracking : Tracking) :
    Ends (fun _ => True) ((layClass f tracking).eval known) fun layout =>
      ∃ own g pieces fixed st, ClassLaid f known own g pieces fixed st layout := by
  refine (layClass_stages tracking).imp ?_
  rintro layout ⟨map, start, mid, fixed, st, last, stages⟩
  obtain ⟨own, g, based, added, pieces, placed⟩ := stages.placed work
  exact ⟨own, g, pieces, fixed, st, stages.laid work placed⟩

/-- The layout of a record that is no class consists of its fields alone. -/
structure PlainLaid (f : Frame) (known : Known) (g : SubobjectGraph) (pieces : List Piece)
    (st : State) (layout : RecordLayout) : Prop where
  progress : Progress f known g st.used pieces st
  count : st.fieldOffsets.length = f.declaration.fields.length
  size : st.size ≤ 8 * layout.size
  rounded : Rounded layout
  fieldOffsets : layout.fieldOffsets = st.fieldOffsets
  asClass : layout.asClass = none

/-- The states that the layout of a record that is no class goes through: before the fields, after them
and at the end. -/
structure PlainStages (f : Frame) (known : Known) (start fixed last : State)
    (layout : RecordLayout) : Prop where
  started : State.initial f none = .ok start
  fields : (layFields f start).eval known = .ok fixed
  finished : (finish f fixed).eval known = .ok last
  layout : layout = {
    size := last.sizeInBytes
    dataSize := last.sizeInBytes
    alignment := last.alignment
    requiredAlignment := last.alignment
    fieldOffsets := last.fieldOffsets }

theorem layPlain_stages : Ends (fun _ => True) ((layPlain f).eval known) fun layout =>
    ∃ start fixed last, PlainStages f known start fixed last layout := by
  unfold layPlain
  refine ends_lift_bind Ends.any fun start started => ends_bind Ends.any fun fixed fields => ?_
  exact ends_bind Ends.any fun last finished => ⟨start, fixed, last, started, fields, finished, rfl⟩

section PlainStages

variable {start fixed last : State} {layout : RecordLayout}
variable (h : PlainStages f known start fixed last layout)
variable (work : Workable f known fun _ => True) (plain : f.declaration.isClass = false)
include h work plain

theorem PlainStages.fresh : Fresh f known start ∧ start.dataSize = 0 := by
  have initial : Ends (fun _ => True) (State.initial f none) _ :=
    initial_ends known work.unsupplied none (fun _ _ => .inr trivial) nofun fun isClass => by
      rw [plain] at isClass
      cases isClass
  have fresh := initial.holds h.started
  exact ⟨fresh.1, fresh.2.1⟩

theorem PlainStages.fieldsLaid : ∃ added, FieldsLaid f known start.graph [] added start fixed ∧
    fixed.fieldOffsets.length = f.declaration.fields.length := by
  obtain ⟨fresh, _⟩ := h.fresh work plain
  have remaining : start.unfilledBits ≤ start.dataSize := by
    rw [fresh.unfilledBits]
    exact Nat.zero_le _
  exact (layFields_ends work (fresh.progress start.used) fresh.fieldOffsets fun _ => remaining).holds
    h.fields

end PlainStages

theorem layPlain_ends (work : Workable f known fun _ => True)
    (plain : f.declaration.isClass = false) :
    Ends (fun _ => True) ((layPlain f).eval known) fun layout =>
      ∃ g pieces st, PlainLaid f known g pieces st layout := by
  refine layPlain_stages.imp ?_
  rintro layout ⟨start, fixed, last, stages⟩
  obtain ⟨added, fields, count⟩ := stages.fieldsLaid work plain
  have finished := Ends.holds (finish_ends work.unsupplied) stages.finished
  obtain ⟨size, rfl⟩ := finished.frame
  obtain rfl := stages.layout
  refine ⟨start.graph, [] ++ added, fixed, fields.progress, count, ?_, ?_, rfl, rfl⟩
  · exact finished.grows.trans (le_toBytesCeil size)
  · exact ⟨fields.progress.laid.power, rfl, finished.whole_bytes, le_rfl⟩

end ObjectLayout.Itanium
