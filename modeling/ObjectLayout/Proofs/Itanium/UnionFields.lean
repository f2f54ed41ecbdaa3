import ObjectLayout.Proofs.Itanium.BareClass
import ObjectLayout.Proofs.Itanium.Unpacking
import ObjectLayout.Proofs.Reordered

/-! Unions. Every field of a union starts at its start, and nothing that one field leaves behind tells
on another: each makes room for its own bits and asks for its own alignment. So the fields may be
declared in any order. -/
namespace ObjectLayout

open LayoutM (ends_bind ends_lift_bind eval_bind_eq_ok typeLayoutOf)

/-- A fold whose completed steps are those of a pure one. -/
theorem Ends.foldlM_eq {step : β → α → Checked β} {g : β → α → β} {K : β → Prop} {xs : List α}
    {start : β} (first : K start) (each : ∀ x ∈ xs, ∀ state, K state →
      Ends (fun _ => True) (step state x) fun next => next = g state x ∧ K next) :
    Ends (fun _ => True) (xs.foldlM step start) fun last => last = xs.foldl g start := by
  induction xs generalizing start with
  | nil => exact rfl
  | cons x rest ih =>
    rw [List.foldlM_cons]
    refine Ends.bind (each x List.mem_cons_self start first) ?_
    rintro _ ⟨rfl, well⟩
    exact ih well fun y member => each y (.tail _ member)

namespace Itanium

variable {f : Frame} {known : Known} {st st' : State} {i : SubobjectId} {r r' : RecordId}
variable {field : Field} {index width : Nat}

section Fields

/-- What a field takes of a union wherever in the order it stands: bits from the start on, and the
alignment that it asks for, as it is and unpacked. -/
structure Share where
  bits : Bits := 0
  alignment : Bytes := 0
  unpackedAlignment : Bytes := 0

def Frame.bitShareOf (f : Frame) (field : Field) (width : Bits) (type : TypeLayout) :
    Checked Share := do
  if 8 * type.width < width then
    let alignment := Bits.toBytesFloor (← widestCoveredAlignment f width)
    return ⟨width, alignment, alignment⟩
  else
    let alignment ← bitAlignment f field (f.isPacked || field.isPacked)
      (!f.target.bitFieldRules.typeAlignment && !isZeroLengthBoundary f width) width
      (f.bitTypeAlignment {} width type)
    let asks := f.bitsAsk field alignment
    return ⟨width, max (Bits.toBytesFloor asks.actual) 1, max (Bits.toBytesFloor asks.unpacked) 1⟩

def Frame.shareOf (f : Frame) (field : Field) : LayoutM Share :=
  match field.bitWidth with
  | none => do
    let (size, natural) ← fieldExtent f field.type
    let unpacked := f.clamp (max natural (field.alignment.getD 0))
    return ⟨8 * size, f.fieldAlignment field natural, unpacked⟩
  | some width => do f.bitShareOf field width (← typeLayoutOf field.type)

def State.hold (f : Frame) (share : Share) (st : State) : State :=
  { st with
    size := max st.size (max st.dataSize share.bits)
    dataSize := max st.dataSize share.bits
    alignment := f.raised st.alignment share.alignment
    unpackedAlignment := f.raised st.unpackedAlignment share.unpackedAlignment
    fieldOffsets := st.fieldOffsets ++ [0] }

/-- No bit-field has left bits over, and no unit is open. -/
structure State.IsClosed (st : State) : Prop where
  unfilledBits : st.unfilledBits = 0
  storageUnit : st.storageUnit = 0

theorem State.IsClosed.same (closed : st.IsClosed) :
    { st with unfilledBits := 0, storageUnit := 0 } = st := by
  cases st
  obtain ⟨unfilled, unit⟩ := closed
  dsimp only at unfilled unit
  rw [unfilled, unit]

theorem State.IsClosed.hold (closed : st.IsClosed) (share : Share) : (st.hold f share).IsClosed :=
  ⟨closed.unfilledBits, closed.storageUnit⟩

theorem State.IsClosed.entering (closed : st.IsClosed) (type : TypeLayout) :
    st.entering f type = st := by
  unfold State.entering State.leaveUnit
  rw [closed.same]
  split
  · exact ite_self st
  · rfl

theorem State.IsClosed.bitTypeAlignment (closed : st.IsClosed) (type : TypeLayout) :
    f.bitTypeAlignment st width type = f.bitTypeAlignment {} width type := by
  simp only [Frame.bitTypeAlignment, declaredAlignment, closed.storageUnit]

instance (f : Frame) (share : Field → Share) :
    RightCommutative fun (st : State) field => st.hold f (share field) where
  right_comm st a b := by
    have raised (n p q : Nat) : f.raised (f.raised n p) q = f.raised (f.raised n q) p := by
      unfold Frame.raised
      split
      · rfl
      · exact Nat.max_right_comm n p q
    have size (n m p q : Nat) : max (max n (max m p)) (max (max m p) q) =
        max (max n (max m q)) (max (max m q) p) := by omega
    simp only [State.hold, State.mk.injEq, raised, and_self, and_true]
    exact ⟨size _ _ _ _, Nat.max_right_comm _ _ _⟩

theorem hold_of_raised (unsupplied : f.supplied = none) {share : Share}
    (raised : (State.setDataSize { st with fieldOffsets := st.fieldOffsets ++ [0] }
      (max st.dataSize share.bits)).raiseAlignment f share.alignment share.unpackedAlignment =
        .ok st') : st' = st.hold f share :=
  ((raiseAlignment_ok unsupplied).mp raised).2

variable (unsupplied : f.supplied = none) (union : f.isUnion = true)
include unsupplied union

theorem layField_holds (closed : st.IsClosed) (stored : field.bitWidth = none) :
    Ends (fun _ => True) ((layField f index field st).eval known) fun st' =>
      ∃ share, (f.shareOf field).eval known = .ok share ∧ st' = st.hold f share := by
  refine (layField_settles unsupplied (.inl union)).imp ?_
  rintro st' ⟨size, natural, x, settled⟩
  have aligned := settled.aligned
  rw [if_pos union] at aligned
  obtain rfl := alignTo_zero aligned
  have raised := settled.raised
  simp only [State.withField, if_pos union] at raised
  rw [← closed.same]
  refine ⟨⟨8 * size, _, _⟩, ?_, hold_of_raised unsupplied raised⟩
  unfold Frame.shareOf
  rw [stored]
  exact eval_bind_eq_ok.mpr ⟨_, settled.extent, rfl⟩

theorem layWideBitField_holds (closed : st.IsClosed) (isPacked : Bool) :
    Ends (fun _ => True) ((layWideBitField f index field width isPacked st).eval known) fun st' =>
      ∃ alignment, widestCoveredAlignment f width = .ok alignment ∧ st' = st.hold f
        ⟨width, Bits.toBytesFloor alignment, Bits.toBytesFloor alignment⟩ := by
  refine layWideBitField_stages.imp ?_
  rintro st' ⟨alignment, offset, taken, stages⟩
  obtain ⟨rfl, rfl⟩ := stages.inUnion union
  refine ⟨alignment, stages.widest, ?_⟩
  rw [← closed.same]
  exact hold_of_raised unsupplied stages.raised

omit unsupplied in
theorem NarrowStages.atStart {typeSize typeAlignment unpadded start computed : Nat} {isPacked : Bool}
    {alignment : BitAlignment} {taken : State} (h : NarrowStages f index field width typeSize
      typeAlignment isPacked unpadded alignment start computed taken st st') : computed = 0 := by
  have started := h.started
  rw [if_pos union] at started
  obtain rfl : start = 0 := by
    split at started
    · exact alignTo_zero started
    · exact (Except.ok.inj started).symm
  have avoided := h.avoided
  unfold avoidCrossing at avoided
  split at avoided
  · exact alignTo_zero avoided
  · obtain ⟨crosses, _, avoided⟩ := except_bind_eq_ok.mp avoided
    split at avoided
    · exact alignTo_zero avoided
    · exact (Except.ok.inj avoided).symm

theorem layNarrowBitField_holds (typeSize typeAlignment : Nat) (isPacked : Bool) :
    Ends (fun _ => True) ((layNarrowBitField f index field width typeSize typeAlignment isPacked
      st.used st).eval known) fun st' => ∃ alignment,
        bitAlignment f field isPacked
          (!f.target.bitFieldRules.typeAlignment && !isZeroLengthBoundary f width) width
          typeAlignment = .ok alignment ∧
        st' = st.hold f ⟨width, max (Bits.toBytesFloor (f.bitsAsk field alignment).actual) 1,
          max (Bits.toBytesFloor (f.bitsAsk field alignment).unpacked) 1⟩ := by
  refine layNarrowBitField_stages.imp ?_
  rintro st' ⟨alignment, start, computed, taken, stages⟩
  obtain rfl := stages.atStart union
  have occupied := stages.occupied
  simp only [adoptFieldOffset, unsupplied, Option.bind_none] at occupied
  unfold State.occupyBits at occupied
  rw [if_pos union] at occupied
  cases occupied
  obtain ⟨_, rfl⟩ := (raiseAlignment_ok unsupplied).mp stages.raised
  exact ⟨alignment, stages.aligned, rfl⟩

theorem layBitField_holds (closed : st.IsClosed) (isBitField : field.bitWidth = some width) :
    Ends (fun _ => True) ((layBitField f index field width st).eval known) fun st' =>
      ∃ share, (f.shareOf field).eval known = .ok share ∧ st' = st.hold f share := by
  refine layBitField_enters.imp ?_
  rintro st' ⟨type, typed, _, entered⟩
  rw [closed.entering, closed.bitTypeAlignment] at entered
  have shared {share : Share} (takes : f.bitShareOf field width type = .ok share) :
      (f.shareOf field).eval known = .ok share := by
    unfold Frame.shareOf
    rw [isBitField]
    refine eval_bind_eq_ok.mpr ⟨type, ?_, ?_⟩
    · rwa [LayoutM.eval_typeLayoutOf]
    · rwa [LayoutM.eval_lift]
  rcases entered with ⟨wide, done⟩ | ⟨narrow, done⟩
  · obtain ⟨alignment, widest, held⟩ :=
      Ends.holds (layWideBitField_holds unsupplied union closed _) done
    refine ⟨_, shared ?_, held⟩
    rw [Frame.bitShareOf, if_pos wide]
    exact except_bind_eq_ok.mpr ⟨alignment, widest, rfl⟩
  · obtain ⟨alignment, aligned, held⟩ :=
      Ends.holds (layNarrowBitField_holds unsupplied union _ _ _) done
    refine ⟨_, shared ?_, held⟩
    rw [Frame.bitShareOf, if_neg (Nat.not_lt_of_le narrow)]
    exact except_bind_eq_ok.mpr ⟨alignment, aligned, rfl⟩

/-- A field of a union takes its share, whatever came before it. -/
theorem layAnyField_holds (closed : st.IsClosed) :
    Ends (fun _ => True) ((layAnyField f st (field, index)).eval known) fun st' =>
      ∃ share, (f.shareOf field).eval known = .ok share ∧ st' = st.hold f share := by
  unfold layAnyField
  cases isBitField : field.bitWidth with
  | none => exact layField_holds unsupplied union closed isBitField
  | some width => exact layBitField_holds unsupplied union closed isBitField

omit unsupplied union in
/-- The share of a field where it has one. -/
def Frame.share (f : Frame) (known : Known) (field : Field) : Share :=
  ((f.shareOf field).eval known).toOption.getD {}

theorem layFields_hold (closed : st.IsClosed) :
    Ends (fun _ => True) ((layFields f st).eval known) fun st' =>
      st' = f.declaration.fields.foldl (fun st field => st.hold f (f.share known field)) st := by
  have entries := List.zipIdx_map_fst 0 f.declaration.fields
  unfold layFields
  rw [LayoutM.eval_foldlM, ← entries, List.foldl_map, entries]
  refine Ends.foldlM_eq (K := State.IsClosed) closed ?_
  rintro ⟨field, index⟩ _ st closed
  refine (layAnyField_holds unsupplied union closed).imp ?_
  rintro _ ⟨share, taken, rfl⟩
  have same : f.share known field = share := by rw [Frame.share, taken]; rfl
  rw [same]
  exact ⟨rfl, closed.hold share⟩

omit unsupplied union in
theorem fieldOffsets_foldl_hold (share : Field → Share) (fields : List Field) :
    (fields.foldl (fun st field => st.hold f (share field)) st).fieldOffsets =
      st.fieldOffsets ++ List.replicate fields.length 0 := by
  induction fields generalizing st with
  | nil => exact (List.append_nil _).symm
  | cons field rest ih =>
    rw [List.foldl_cons, ih, List.length_cons, List.replicate_succ]
    exact List.append_assoc _ _ _

/-- The fields of a union lead to the same state in any order. -/
theorem layFields_reordered (closed : st.IsClosed)
    (perm : ((f.tree.record r').fields).Perm f.declaration.fields) {a b : State}
    (done : (layFields f st).eval known = .ok a)
    (done' : (layFields { f with record := r' } st).eval known = .ok b) :
    b = a ∧ a.fieldOffsets = st.fieldOffsets ++ List.replicate f.declaration.fields.length 0 := by
  have held := Ends.holds (layFields_hold unsupplied union closed) done
  have held' := Ends.holds
    (layFields_hold (f := { f with record := r' }) unsupplied union closed) done'
  have same : b = (f.tree.record r').fields.foldl
    (fun st field => st.hold f (f.share known field)) st := held'
  refine ⟨?_, ?_⟩
  · rw [same, held, perm.foldl_eq]
  · rw [held, fieldOffsets_foldl_hold]

end Fields

section Bases

variable (union : f.isUnion = true)
include union

/-- A union with a base to lay out is refused. -/
theorem layBase_union : Ends (fun _ => True) ((layBase f i st).eval known) fun _ => False := by
  unfold layBase
  rw [union]
  exact trivial

theorem layNonVirtualBase_union :
    Ends (fun _ => True) ((layNonVirtualBase f i st).eval known) fun _ => False := by
  unfold layNonVirtualBase
  exact ends_bind (layBase_union union) fun _ => False.elim

theorem layVirtualBase_union :
    Ends (fun _ => True) ((layVirtualBase f i st).eval known) fun _ => False := by
  unfold layVirtualBase
  exact ends_bind Ends.any fun _ _ => ends_bind (layBase_union union) fun _ => False.elim

theorem layPrimaryBase_union (primary : PrimaryBase) :
    Ends (fun _ => True) ((layPrimaryBase f primary st).eval known) fun _ => False := by
  unfold layPrimaryBase
  split
  · refine ends_lift_bind Ends.any fun _ _ => ends_bind Ends.any fun _ _ => ?_
    exact layVirtualBase_union union
  · exact ends_lift_bind Ends.any fun _ _ => layNonVirtualBase_union union

/-- What comes before the fields of a union is a table pointer at most. -/
theorem layNonVirtualBases_union (unsupplied : f.supplied = none) :
    Ends (fun _ => True) ((layNonVirtualBases f st).eval known) fun st' =>
      f.declaration.nonVirtualBases = [] ∧ st'.fieldOffsets = st.fieldOffsets ∧
        st'.unfilledBits = st.unfilledBits ∧ st'.storageUnit = st.storageUnit := by
  unfold layNonVirtualBases
  refine ends_bind Ends.any ?_
  rintro ⟨primary, used⟩ _
  refine ends_bind Ends.any fun graph _ => ?_
  dsimp only
  -- The loop over the non-virtual bases, of which none may be left.
  have loop (mid : State) (none : mid.primaryBase = .none) :
      Ends (fun _ => True) ((f.declaration.nonVirtualBases.foldlM (fun st base => do
        if isNonVirtualPrimary st base.record then return st
        layNonVirtualBase f (← st.graph.nonVirtualBase base.record) st) mid : LayoutM State).eval
          known) fun st' => f.declaration.nonVirtualBases = [] ∧ st' = mid := by
    cases f.declaration.nonVirtualBases with
    | nil => exact ⟨rfl, rfl⟩
    | cons base rest =>
      have other : isNonVirtualPrimary mid base.record = false := by rw [isNonVirtualPrimary, none]; rfl
      rw [List.foldlM_cons, other]
      refine ends_bind (G := fun _ => False) ?_ fun _ => False.elim
      exact ends_lift_bind Ends.any fun _ _ => layNonVirtualBase_union union
  cases primary with
  | some primary => exact ends_bind (layPrimaryBase_union union primary) fun _ => False.elim
  | none =>
    dsimp only
    split
    · refine ends_lift_bind (layTablePointer_raises unsupplied) fun mid raised => ?_
      have frame := raised.1
      refine (loop mid (by rw [frame])).imp ?_
      rintro _ ⟨bases, rfl⟩
      rw [frame]
      exact ⟨bases, rfl, rfl, rfl⟩
    · rw [pure_bind]
      refine (loop _ rfl).imp ?_
      rintro _ ⟨bases, rfl⟩
      exact ⟨bases, rfl, rfl, rfl⟩

theorem layVirtualBases_union :
    Ends (fun _ => True) ((layVirtualBases f st).eval known) fun st' => st' = st := by
  unfold layVirtualBases layVirtualBasesBelow Tree.descend
  generalize f.tree.records.size + 1 = depth
  generalize f.record = r, st.primaryBase = primary
  induction depth generalizing r primary with
  | zero => exact trivial
  | succ depth ih =>
    unfold descendWithin
    rw [LayoutM.eval_foldlM]
    refine Ends.foldlM_keeps ?_ ?_
    · exact rfl
    rintro base _ _ rfl
    dsimp only
    split
    · exact rfl
    · split
      · refine ends_lift_bind Ends.any fun _ _ => ?_
        exact ends_bind (layVirtualBase_union union) fun _ => False.elim
      · rw [pure_bind]
        split
        · exact rfl
        · exact ends_bind Ends.any fun _ _ => ih _ _

end Bases

section Whole

/-- Computations that are the same have one outcome. -/
theorem outcome_unique {α : Type} {x y : Checked α} {a b : α} (same : y = x) (done : x = .ok a)
    (done' : y = .ok b) : b = a := by
  rw [same, done] at done'
  exact (Except.ok.inj done').symm

variable {layout layout' : RecordLayout} (reorders : f.tree.Reorders f.record r')
include reorders

/-- A map looks no further for empty subobjects where the fields are in another order. -/
theorem ofClass_reordered {tracking : Tracking} {map map' : EmptyMap}
    (built : (EmptyMap.ofClass f.setting tracking f.record).eval known = .ok map)
    (built' : (EmptyMap.ofClass f.setting tracking r').eval known = .ok map') : map' = map := by
  -- The greatest size there is, which does not depend on the order.
  have greatest {c : RecordId} {map : EmptyMap}
      (built : (EmptyMap.ofClass f.setting tracking c).eval known = .ok map) :
      map = ⟨tracking, [], 0, (EmptyMap.heldRecords f.setting c).foldl
        (fun largest held => max largest (f.setting.largestIn known held)) 0⟩ := by
    unfold EmptyMap.ofClass at built
    obtain ⟨largest, folded, built⟩ := eval_bind_eq_ok.mp built
    rw [LayoutM.eval_foldlM] at folded
    obtain rfl := Ends.holds (Ends.foldlM_eq (K := fun _ => True)
      (g := fun largest held => max largest (f.setting.largestIn known held)) trivial
      fun held _ largest _ => ends_bind Ends.any fun layout laid => by
        rw [LayoutM.eval_layoutOf] at laid
        rw [Setting.largestIn_eq laid]
        exact ⟨rfl, trivial⟩) folded
    exact (Except.ok.inj built).symm
  have perm := reorders.heldRecords (s := f.setting) rfl
  have : RightCommutative fun largest held => max largest (f.setting.largestIn known held) :=
    ⟨fun _ _ _ => Nat.max_right_comm _ _ _⟩
  rw [greatest built, greatest built', perm.foldl_eq]

theorem isDynamic_reordered : ({ f with record := r' } : Frame).tree.isDynamic
    ({ f with record := r' } : Frame).record = f.tree.isDynamic f.record := reorders.isDynamic

theorem layNonVirtualBases_reordered :
    layNonVirtualBases { f with record := r' } = layNonVirtualBases f := by
  have same : SameBases f.setting f.record r' := ⟨reorders.bases, reorders.isDynamic⟩
  have chosen : choosePrimaryBase ({ f with record := r' } : Frame).setting
      ({ f with record := r' } : Frame).record = choosePrimaryBase f.setting f.record :=
    same.choosePrimaryBase
  have charted : SubobjectGraph.ofClass ({ f with record := r' } : Frame).setting
      ({ f with record := r' } : Frame).record = SubobjectGraph.ofClass f.setting f.record :=
    same.ofClass
  have bases : ({ f with record := r' } : Frame).declaration.nonVirtualBases =
      f.declaration.nonVirtualBases := same.nonVirtualBases
  funext st
  unfold layNonVirtualBases
  rw [chosen, charted, isDynamic_reordered reorders, bases]
  rfl

theorem layVirtualBases_reordered :
    layVirtualBases { f with record := r' } = layVirtualBases f := by
  funext st
  unfold layVirtualBases layVirtualBasesBelow Tree.descend descendWithin
  dsimp only
  change (f.tree.record r').bases.foldlM _ _ = _
  rw [reorders.bases]
  rfl

theorem finish_reordered (unsupplied : f.supplied = none) :
    (finish { f with record := r' } st).eval known = (finish f st).eval known := by
  have avoided : st.avoidSizeZero { f with record := r' } = st.avoidSizeZero f := by
    unfold State.avoidSizeZero
    change (if (f.setting.options.cplusplus && st.size == 0 &&
      (!(f.tree.record r').isClass || f.tree.isEmptyClass r')) = true then _ else _) = _
    rw [reorders.isClass, reorders.isEmptyClass]
    rfl
  unfold finish
  rw [avoided, unsupplied]
  simp only [LayoutM.eval_bind, LayoutM.eval_lift, eval_reportSize]

theorem keepsTailPadding_reordered (virtual : f.declaration.nonVirtualBases = []) :
    keepsTailPadding { f with record := r' } = keepsTailPadding f := by
  have target : ({ f with record := r' } : Frame).target = f.target := rfl
  unfold keepsTailPadding
  rw [target]
  cases f.target.tailPadding with
  | always => rfl
  | unlessPod03 => exact reorders.isPod
  | unlessPod11 => exact reorders.isTrivialStandardLayout virtual

variable (unsupplied : f.supplied = none) (union : f.isUnion = true)
include unsupplied union

theorem layClass_reordered {tracking : Tracking}
    (done : (layClass f tracking).eval known = .ok layout)
    (done' : (layClass { f with record := r' } tracking).eval known = .ok layout') :
    layout' = layout ∧ layout.fieldOffsets = List.replicate f.declaration.fields.length 0 := by
  obtain ⟨map, start, mid, fixed, st, last, h⟩ := Ends.holds (layClass_stages tracking) done
  obtain ⟨map', start', mid', fixed', st', last', h'⟩ := Ends.holds (layClass_stages tracking) done'
  obtain rfl : map' = map := ofClass_reordered reorders h.mapped h'.mapped
  obtain rfl : start' = start :=
    outcome_unique (initial_attributes reorders.attributes _) h.started h'.started
  obtain rfl : mid' = mid :=
    outcome_unique (by rw [layNonVirtualBases_reordered reorders]) h.bases h'.bases
  have bare := Ends.holds (initial_frame unsupplied (some map')) h.started
  obtain ⟨virtual, unplaced, unfilled, unit⟩ :=
    Ends.holds (layNonVirtualBases_union union unsupplied) h.bases
  have closed : mid'.IsClosed := by
    refine ⟨?_, ?_⟩
    · rw [unfilled, bare]
    · rw [unit, bare]
  obtain ⟨rfl, offsets⟩ :=
    layFields_reordered unsupplied union closed reorders.fields h.fields h'.fields
  obtain rfl : st' = st :=
    outcome_unique (by rw [layVirtualBases_reordered reorders]) h.virtualBases h'.virtualBases
  obtain rfl : last' = last :=
    outcome_unique (finish_reordered reorders unsupplied) h.finished h'.finished
  refine ⟨?_, ?_⟩
  · rw [h.layout, h'.layout, keepsTailPadding_reordered reorders virtual,
      isDynamic_reordered reorders]
  · obtain ⟨size, frame⟩ := (Ends.holds (finish_ends unsupplied) h.finished).frame
    have kept := Ends.holds (layVirtualBases_union union) h.virtualBases
    rw [h.layout]
    change last'.fieldOffsets = _
    rw [frame, kept]
    change fixed'.fieldOffsets = _
    rw [offsets, unplaced, bare]
    rfl

theorem layPlain_reordered (done : (layPlain f).eval known = .ok layout)
    (done' : (layPlain { f with record := r' }).eval known = .ok layout') :
    layout' = layout ∧ layout.fieldOffsets = List.replicate f.declaration.fields.length 0 := by
  obtain ⟨start, fixed, last, h⟩ := Ends.holds layPlain_stages done
  obtain ⟨start', fixed', last', h'⟩ := Ends.holds layPlain_stages done'
  obtain rfl : start' = start :=
    outcome_unique (initial_attributes reorders.attributes _) h.started h'.started
  have bare := Ends.holds (initial_frame unsupplied none) h.started
  have closed : start'.IsClosed := by rw [bare]; exact ⟨rfl, rfl⟩
  obtain ⟨rfl, offsets⟩ :=
    layFields_reordered unsupplied union closed reorders.fields h.fields h'.fields
  obtain rfl : last' = last :=
    outcome_unique (finish_reordered reorders unsupplied) h.finished h'.finished
  refine ⟨?_, ?_⟩
  · rw [h.layout, h'.layout]
  · obtain ⟨size, frame⟩ := (Ends.holds (finish_ends unsupplied) h.finished).frame
    rw [h.layout]
    change last'.fieldOffsets = _
    rw [frame]
    change fixed'.fieldOffsets = _
    rw [offsets, bare]
    rfl

end Whole

end Itanium

open Itanium

variable {s : Setting} {r r' : RecordId} {depth depth' : Nat} {layout layout' : RecordLayout}

/-- The fields of a union all lie at its start, and in whatever order they are declared, the layout is
the same: its sizes and alignments, and all the rest of it. -/
theorem union_fields_in_any_order (rules : s.usesMicrosoftLayout = false)
    (unsupplied : s.suppliedLayout? r = none) (unsupplied' : s.suppliedLayout? r' = none)
    (union : (s.tree.record r).isUnion = true) (reorders : s.tree.Reorders r r')
    (laid : (s.known depth).record r = .ok layout)
    (laid' : (s.known depth').record r' = .ok layout') :
    layout' = layout ∧
      layout.fieldOffsets = List.replicate (s.tree.record r).fields.length 0 := by
  have done := (RecordLayout.ofRecord_itanium rules (s.known_record
    ((s.known_le (Nat.le_max_left depth depth')).record r layout laid))).2
  have done' := (RecordLayout.ofRecord_itanium rules (s.known_record
    ((s.known_le (Nat.le_max_right depth depth')).record r' layout' laid'))).2
  have frame : Frame.ofRecord s r' none = { Frame.ofRecord s r none with record := r' } := by
    simp only [Frame.ofRecord, reorders.attributes, reorders.isUnion]
  rw [unsupplied] at done
  rw [unsupplied'] at done'
  change (layoutTracking .pruned s r none).eval _ = _ at done
  change (layoutTracking .pruned s r' none).eval _ = _ at done'
  rw [layoutTracking_eq] at done
  rw [layoutTracking_eq, reorders.isClass, frame] at done'
  split at done
  · rename_i isClass
    rw [if_pos isClass] at done'
    exact layClass_reordered (f := Frame.ofRecord s r none) reorders rfl union done done'
  · rename_i plain
    rw [if_neg plain] at done'
    exact layPlain_reordered (f := Frame.ofRecord s r none) reorders rfl union done done'

/-- Two unions under `ms_struct` with a maximum for fields. Among their fields are a bit-field wider than
its type, one of width zero and one that opens a unit. -/
def mixedUnions : Setting :=
  let int : Ty := .scalar ⟨0⟩ (.integer .int .signed)
  let char : Ty := .scalar ⟨1⟩ .plainChar
  let wide : Field := { name := "w", type := char, bitWidth := some 75 }
  let gap : Field := { name := none, type := int, bitWidth := some 0 }
  let bits : Field := { name := "b", type := int, bitWidth := some 5, access := .privately }
  let short : Field := { name := "s", type := .array ⟨2⟩ (.scalar ⟨3⟩ (.integer .short .signed)) 3 }
  let around (name : String) (fields : List Field) : Record :=
    { Record.ofClass name fields [] [] { isMsStruct := true, maxFieldAlignment := some 4 } with
      kind := .union }
  .linux [around "U" [wide, gap, bits, short], around "V" [short, bits, wide, gap]] []

theorem union_fields_in_any_order_mixedUnions : ∃ layout layout',
    (mixedUnions.known 9).record ⟨0⟩ = .ok layout ∧ (mixedUnions.known 9).record ⟨1⟩ = .ok layout' ∧
      layout.size = 16 ∧ layout.dataSize = 10 ∧ layout.alignment = 8 ∧ layout' = layout ∧
      layout.fieldOffsets = [0, 0, 0, 0] := by
  obtain ⟨layout, laid⟩ := exists_ok (by decide +kernel :
    ((mixedUnions.known 9).record ⟨0⟩).isOk = true)
  obtain ⟨layout', laid'⟩ := exists_ok (by decide +kernel :
    ((mixedUnions.known 9).record ⟨1⟩).isOk = true)
  have measured : ((mixedUnions.known 9).record ⟨0⟩).map (fun layout =>
      (layout.size, layout.dataSize, layout.alignment)) = .ok (16, 10, 8) := by
    decide +kernel
  rw [laid] at measured
  simp only [Except.map, Except.ok.injEq, Prod.mk.injEq] at measured
  have reorders : mixedUnions.tree.Reorders ⟨0⟩ ⟨1⟩ := by
    constructor
    case fields =>
      exact (@List.perm_append_comm _ [_, _] [_, _]).trans (.cons _ (.cons _ (.swap _ _ _)))
    all_goals intros; rfl
  obtain ⟨same, offsets⟩ := union_fields_in_any_order rfl rfl rfl rfl reorders laid laid'
  exact ⟨layout, layout', laid, laid', measured.1, measured.2.1, measured.2.2, same, offsets⟩

end ObjectLayout
