import ObjectLayout.Proofs.Itanium.Soundness
import ObjectLayout.Proofs.Itanium.Supplied.Fields

/-! A layout supplied back to the rules that computed it. The second run is told every place and the
size, and comes to the alignment by itself, without a look at the alignment that an attribute asks for.
It goes through the states of a first run that does not look at that attribute either. -/
namespace ObjectLayout.Itanium

open LayoutM (ends_bind ends_lift_bind eval_bind_eq_ok)

variable {f : Frame} {known : Known} {supplied : SuppliedLayout} {st st₁ st' : State}
variable {i : SubobjectId} {x : Nat}

section Whole

theorem avoidSizeZero_samePlaces :
    Ends (fun _ => True) (st.avoidSizeZero f) (SamePlaces st) := by
  unfold State.avoidSizeZero
  split
  · exact Ends.bind Ends.any fun _ _ => ⟨rfl, rfl, rfl, rfl⟩
  · exact ⟨rfl, rfl, rfl, rfl⟩

theorem avoidSizeZero_again :
    st.inferring.avoidSizeZero (f.supplying supplied) = State.inferring <$> st.avoidSizeZero f := by
  unfold State.avoidSizeZero
  by_cases zero : (f.setting.options.cplusplus && st.size == 0
      && (!f.declaration.isClass || f.tree.isEmptyClass f.record)) = true
  · rw [if_pos zero]
    refine (if_pos zero).trans ?_
    simp [State.setSize, State.inferring]
  · rw [if_neg zero]
    exact if_neg zero

/-- The supplied size is the rounded size, a whole number of bytes. -/
theorem finish_again (unsupplied : f.supplied = none) :
    Ends (fun _ => True) ((finish f st).eval known) fun st' => SamePlaces st st' ∧
      (supplied.size = st'.sizeInBytes → (finish (f.supplying supplied) st.inferring).eval known =
        .ok st'.inferring) := by
  refine Ends.of_all (fun _ => trivial) fun st' done => ?_
  unfold finish at *
  simp only [unsupplied] at done
  have supplied' : (f.supplying supplied).supplied = some supplied := rfl
  simp only [supplied']
  obtain ⟨st₁, avoided, done⟩ := liftM_again done
  obtain ⟨unpadded, left, done⟩ := eval_bind_eq_ok.mp done
  obtain ⟨_, first, done⟩ := eval_bind_eq_ok.mp done
  obtain ⟨unpacked, aligned, done⟩ := eval_bind_eq_ok.mp done
  obtain ⟨bits, second, done⟩ := eval_bind_eq_ok.mp done
  obtain ⟨rounded, aligned', done⟩ := eval_bind_eq_ok.mp done
  obtain ⟨_, _, done⟩ := eval_bind_eq_ok.mp done
  cases done
  have same := avoidSizeZero_samePlaces.value avoided
  have places : SamePlaces st { st₁ with size := rounded } :=
    ⟨same.graph, same.fields, same.bases, same.virtualBases⟩
  refine ⟨places, fun size => ?_⟩
  rw [LayoutM.eval_lift] at second aligned'
  have multiple : 8 ∣ rounded := by
    obtain ⟨rfl, _⟩ := Quantity.mul_eq_ok_iff.mp second
    obtain ⟨_, rfl, _⟩ := Quantity.alignTo_eq_ok_iff.mp aligned'
    exact (Nat.dvd_mul_left 8 _).trans (Quantity.dvd_roundUp _ _)
  have whole : Bytes.toBits supplied.size = .ok rounded := by
    rw [size]
    refine Quantity.mul_eq_ok_iff.mpr ?_
    have fits := (Quantity.alignTo_eq_ok_iff.mp aligned').2
    rw [← fits.1] at fits
    have back : (rounded + 7) / 8 * 8 = rounded := by omega
    exact ⟨back.symm, back.symm ▸ fits.2⟩
  refine again_bind avoidSizeZero_again avoided ?_
  refine eval_bind_eq_ok.mpr ⟨_, left, eval_bind_eq_ok.mpr ⟨_, first, ?_⟩⟩
  refine eval_bind_eq_ok.mpr ⟨_, aligned, eval_bind_eq_ok.mpr ⟨bits, ?_, ?_⟩⟩
  · rw [LayoutM.eval_lift]
    exact second
  refine eval_bind_eq_ok.mpr ⟨rounded, ?_, ?_⟩
  · rw [LayoutM.eval_lift]
    exact aligned'
  refine eval_bind_eq_ok.mpr ⟨rounded, by rw [LayoutM.eval_lift, whole], ?_⟩
  refine eval_bind_eq_ok.mpr ⟨false, by simp, ?_⟩
  rw [LayoutM.eval_lift, State.setSize, whole]
  rfl

/-- The state before any base or field, whatever alignment an attribute asks for. -/
def State.unasked (f : Frame) (emptyMap : Option EmptyMap) : State :=
  { emptyMap, alignment := if f.isMac68k then 2 else 1 }

/-- With a layout supplied the attribute is not looked at. -/
theorem initial_again (inferred : supplied.alignment = none) (map : Option EmptyMap) :
    State.initial (f.supplying supplied) map = .ok (State.unasked f map).inferring := by
  have supplied' : (f.supplying supplied).supplied = some supplied := rfl
  have mac : (f.supplying supplied).isMac68k = f.isMac68k := rfl
  unfold State.initial
  simp only [supplied', mac, inferred]
  cases here : f.isMac68k with
  | true =>
    simp only [if_true, State.unasked, here]
    rfl
  | false =>
    cases asked : (f.supplying supplied).declaration.attributes.alignment <;>
      simp only [Bool.false_eq_true, if_false, State.unasked, here, State.raiseAlignment,
        State.isAlignmentSettled, supplied', mac, Option.isSome_some, Bool.not_false, Bool.and_true,
        Bool.or_true, if_true] <;>
      rfl

/-- No attribute asks for an alignment that the rules would follow. -/
def Frame.IsUnaligned (f : Frame) : Prop :=
  f.isMac68k = true ∨
    ∀ alignment, f.declaration.attributes.alignment = some alignment → alignment ≤ 1

theorem initial_unasked (unsupplied : f.supplied = none) (unaligned : f.IsUnaligned)
    (map : Option EmptyMap) : State.initial f map = .ok (State.unasked f map) := by
  unfold State.initial
  simp only [unsupplied]
  cases here : f.isMac68k with
  | true =>
    simp only [if_true, State.unasked, here]
    rfl
  | false =>
    cases asked : f.declaration.attributes.alignment with
    | none =>
      simp only [Bool.false_eq_true, if_false, State.unasked, here]
      rfl
    | some alignment =>
      have low : alignment ≤ 1 := by
        refine unaligned.elim (fun yes => ?_) fun low => low alignment asked
        rw [here] at yes
        cases yes
      simp only [Bool.false_eq_true, if_false, State.unasked, here, State.raiseAlignment,
        State.isAlignmentSettled, unsupplied, Option.isSome_none, Bool.false_and, Bool.or_self,
        Nat.not_lt_of_le low, Nat.max_eq_left low]
      rfl

/-- The layout of a plain record from a start of its own. -/
def layPlainFrom (f : Frame) (start : Option EmptyMap → Checked State) : LayoutM RecordLayout := do
  let st ← finish f (← layFields f (← start none))
  return {
    size := st.sizeInBytes
    dataSize := st.sizeInBytes
    alignment := st.alignment
    requiredAlignment := st.alignment
    fieldOffsets := st.fieldOffsets }

/-- The layout of a class from a start of its own. -/
def layClassFrom (f : Frame) (tracking : Tracking) (start : Option EmptyMap → Checked State) :
    LayoutM RecordLayout := do
  let map ← EmptyMap.ofClass f.setting tracking f.record
  let fixed ← layFields f (← layNonVirtualBases f (← start (some map)))
  let st ← finish f (← layVirtualBases f fixed)
  let size := st.sizeInBytes
  let keeps := keepsTailPadding f
  return {
    size
    dataSize := if keeps then size else st.dataSizeInBytes
    alignment := st.alignment
    requiredAlignment := st.alignment
    fieldOffsets := st.fieldOffsets
    asClass := some {
      nonVirtualSize := if keeps then size else fixed.sizeInBytes
      nonVirtualAlignment := fixed.alignment
      largestEmptySubobject := map.largest
      primaryBase := st.primaryBase
      hasOwnVfptr := st.hasOwnVfptr
      hasExtendableVfptr := f.tree.isDynamic f.record
      baseOffsets := st.baseOffsets
      virtualBaseSlots := st.virtualBaseSlots } }

/-- The layout of a record from a start of its own. -/
def layoutFrom (f : Frame) (start : Option EmptyMap → Checked State) : LayoutM RecordLayout :=
  if f.declaration.isClass then layClassFrom f .pruned start else layPlainFrom f start

theorem layout_eq_layoutFrom (s : Setting) (r : RecordId) (supplied : Option SuppliedLayout) :
    Itanium.layout s r supplied =
      layoutFrom (Frame.ofRecord s r supplied) (State.initial (Frame.ofRecord s r supplied)) := rfl

/-- The layout of a record whose alignment attribute is not looked at. -/
def layoutUnasked (s : Setting) (r : RecordId) : LayoutM RecordLayout :=
  let f := Frame.ofRecord s r none
  layoutFrom f fun map => .ok (State.unasked f map)

theorem layoutUnasked_eq {s : Setting} {r : RecordId}
    (unaligned : (Frame.ofRecord s r none).IsUnaligned) : layoutUnasked s r = layout s r none := by
  rw [layout_eq_layoutFrom, layoutUnasked, funext fun map => initial_unasked rfl unaligned map]

/-- A supplied layout that says of everything in a layout where it lies, and of the alignment
nothing. -/
structure Restates (supplied : SuppliedLayout) (layout : RecordLayout) : Prop where
  size : supplied.size = layout.size
  alignment : supplied.alignment = none
  field : ∀ (index : Nat) (offset : Bits), layout.fieldOffsets[index]? = some offset →
    supplied.fieldOffsets.find? index = some offset
  base : ∀ part, layout.asClass = some part → part.baseOffsets.Extends supplied.baseOffsets
  virtualBase : ∀ part, layout.asClass = some part → ∀ v slot,
    part.virtualBaseSlots.find? v = some slot →
      supplied.virtualBaseOffsets.find? v = some slot.offset

theorem restates_ofLayout (layout : RecordLayout) : Restates (.ofLayout layout) layout where
  size := rfl
  alignment := rfl
  field index offset found := (OrderedMap.find?_ofList_zipIdx _ index).trans found
  base part asClass := by
    rw [SuppliedLayout.ofLayout, asClass]
    exact .refl _
  virtualBase part asClass v slot found := by
    rw [SuppliedLayout.ofLayout, asClass]
    exact (OrderedMap.find?_mapValues _ _ v).trans (congrArg _ found)

variable {layout : RecordLayout}

theorem layPlain_again (unsupplied : f.supplied = none) (restates : Restates supplied layout)
    (done : (layPlainFrom f fun map => .ok (State.unasked f map)).eval known = .ok layout) :
    (layPlain (f.supplying supplied)).eval known = .ok layout := by
  unfold layPlainFrom at done
  unfold layPlain
  obtain ⟨st₀, started, done⟩ := liftM_again done
  obtain ⟨st₁, fields, done⟩ := eval_bind_eq_ok.mp done
  obtain ⟨st₂, finished, done⟩ := eval_bind_eq_ok.mp done
  cases done
  cases started
  obtain ⟨same, again'⟩ := (finish_again unsupplied).value finished
  refine eval_bind_eq_ok.mpr ⟨(State.unasked f none).inferring, ?_, ?_⟩
  · rw [LayoutM.eval_lift]
    exact initial_again restates.alignment none
  refine eval_bind_eq_ok.mpr ⟨_, layFields_again unsupplied rfl ?_ fields, ?_⟩
  · rw [← same.fields]
    exact restates.field
  · exact eval_bind_eq_ok.mpr ⟨_, again' restates.size, rfl⟩

theorem layClass_again (unsupplied : f.supplied = none) (restates : Restates supplied layout)
    {tracking : Tracking}
    (done : (layClassFrom f tracking fun map => .ok (State.unasked f map)).eval known = .ok layout) :
    (layClass (f.supplying supplied) tracking).eval known = .ok layout := by
  unfold layClassFrom at done
  unfold layClass
  obtain ⟨map, mapped, done⟩ := eval_bind_eq_ok.mp done
  obtain ⟨st₀, started, done⟩ := liftM_again done
  obtain ⟨st₁, bases, done⟩ := eval_bind_eq_ok.mp done
  obtain ⟨fixed, fields, done⟩ := eval_bind_eq_ok.mp done
  obtain ⟨st₂, virtualBases, done⟩ := eval_bind_eq_ok.mp done
  obtain ⟨st₃, finished, done⟩ := eval_bind_eq_ok.mp done
  cases done
  cases started
  obtain ⟨keeps₁, again₁⟩ := (layNonVirtualBases_replays unsupplied).value bases
  obtain ⟨graph, same, same'⟩ := layFields_tables.value fields unsupplied
  have sorted : fixed.graph.Sorted := by
    rw [graph]
    exact keeps₁.sorted SubobjectGraph.sorted_empty
  obtain ⟨keeps₂, again₂⟩ := (layVirtualBases_replays unsupplied sorted).value virtualBases
  obtain ⟨kept, again₃⟩ := (finish_again unsupplied).value finished
  -- At the end of the first run everything lies where the second is told, so it does all along.
  have matches₂ : Matches supplied st₂ := by
    constructor
    · rw [← kept.bases]
      exact restates.base _ rfl
    · rw [← kept.virtualBases]
      exact restates.virtualBase _ rfl
  have matchesFixed := keeps₂.earlier matches₂
  have matches₁ : Matches supplied st₁ := by
    constructor
    · rw [← same]
      exact matchesFixed.base
    · rw [← same']
      exact matchesFixed.virtualBase
  have told : ∀ (index : Nat) (offset : Bits), fixed.fieldOffsets[index]? = some offset →
      supplied.fieldOffsets.find? index = some offset := by
    rw [← keeps₂.fields, ← kept.fields]
    exact restates.field
  refine eval_bind_eq_ok.mpr ⟨map, mapped, eval_bind_eq_ok.mpr
    ⟨(State.unasked f (some map)).inferring, ?_, ?_⟩⟩
  · rw [LayoutM.eval_lift]
    exact initial_again restates.alignment (some map)
  refine eval_bind_eq_ok.mpr ⟨_, again₁ matches₁, ?_⟩
  refine eval_bind_eq_ok.mpr ⟨_, layFields_again unsupplied keeps₁.fields told fields, ?_⟩
  refine eval_bind_eq_ok.mpr ⟨_, again₂ matches₂, ?_⟩
  exact eval_bind_eq_ok.mpr ⟨_, again₃ restates.size, rfl⟩

end Whole

end ObjectLayout.Itanium

namespace ObjectLayout

open Itanium

/-- Laying out a record again, with the places of its layout supplied, gives the same layout, as long
as the alignment that an attribute asks for has made no difference to it: with a layout supplied that
attribute is not looked at. -/
theorem supplied_layout_round_trip {s : Setting} {r : RecordId} {known : Known}
    {layout : RecordLayout} (laid : (Itanium.layout s r none).eval known = .ok layout)
    (idle : (layoutUnasked s r).eval known = (Itanium.layout s r none).eval known) :
    (Itanium.layout s r (some (.ofLayout layout))).eval known = .ok layout := by
  have restates := restates_ofLayout layout
  rw [laid] at idle
  unfold layoutUnasked layoutFrom at idle
  unfold Itanium.layout layoutTracking
  have frame : Frame.ofRecord s r (some (.ofLayout layout)) =
      (Frame.ofRecord s r none).supplying (.ofLayout layout) := rfl
  have declared : ((Frame.ofRecord s r none).supplying (.ofLayout layout)).declaration =
      (Frame.ofRecord s r none).declaration := rfl
  dsimp only at idle ⊢
  rw [frame, declared]
  split at idle
  · rw [if_pos ‹_›]
    exact layClass_again rfl restates idle
  · rw [if_neg ‹_›]
    exact layPlain_again rfl restates idle

/-- `D` asks for the alignment that the pointer to its virtual base brings anyhow. -/
def alignedLikePointer : Setting :=
  .linux [
    .ofClass "V" [{ name := "v", type := .scalar ⟨0⟩ (.integer .int .signed) }] [] [],
    .ofClass "D" [{ name := "d", type := .scalar ⟨0⟩ (.integer .int .signed) }]
      [{ record := ⟨0⟩, isVirtual := true }] [] { alignment := some 8 }] []

/-- `V` has no attribute, and that of `D` makes no difference. -/
theorem supplied_layout_round_trip_alignedLikePointer :
    (∃ layout,
      (Itanium.layout alignedLikePointer ⟨0⟩ none).eval (alignedLikePointer.known 2) = .ok layout ∧
        (Itanium.layout alignedLikePointer ⟨0⟩ (some (.ofLayout layout))).eval
          (alignedLikePointer.known 2) = .ok layout) ∧
    ∃ layout,
      (Itanium.layout alignedLikePointer ⟨1⟩ none).eval (alignedLikePointer.known 2) = .ok layout ∧
        (Itanium.layout alignedLikePointer ⟨1⟩ (some (.ofLayout layout))).eval
          (alignedLikePointer.known 2) = .ok layout := by
  obtain ⟨layout, laid⟩ := exists_ok (by decide +kernel :
    ((Itanium.layout alignedLikePointer ⟨0⟩ none).eval (alignedLikePointer.known 2)).isOk = true)
  obtain ⟨layout', laid'⟩ := exists_ok (by decide +kernel :
    ((Itanium.layout alignedLikePointer ⟨1⟩ none).eval (alignedLikePointer.known 2)).isOk = true)
  have unaligned : (Frame.ofRecord alignedLikePointer ⟨0⟩ none).IsUnaligned := .inr nofun
  exact ⟨⟨layout, laid, supplied_layout_round_trip laid (by rw [layoutUnasked_eq unaligned])⟩,
    layout', laid', supplied_layout_round_trip laid' (by decide +kernel)⟩

/-- `S` asks for an alignment that nothing in it needs. -/
def overAlignedStruct : Setting :=
  .linux [.ofClass "S" [{ name := "a", type := .scalar ⟨0⟩ (.integer .int .signed) }] [] []
    { alignment := some 16 }] []

/-- With its own layout supplied, the record is aligned as its field alone asks for. -/
theorem supplied_layout_drops_alignment_overAlignedStruct : ∃ layout again,
    (Itanium.layout overAlignedStruct ⟨0⟩ none).eval (overAlignedStruct.known 1) = .ok layout ∧
      (Itanium.layout overAlignedStruct ⟨0⟩ (some (.ofLayout layout))).eval
        (overAlignedStruct.known 1) = .ok again ∧
      layout.alignment = 16 ∧ again.alignment = 4 := by
  have both : ((do
      let layout ← (Itanium.layout overAlignedStruct ⟨0⟩ none).eval (overAlignedStruct.known 1)
      let again ← (Itanium.layout overAlignedStruct ⟨0⟩ (some (.ofLayout layout))).eval
        (overAlignedStruct.known 1)
      return (layout.alignment, again.alignment) : Checked (Bytes × Bytes)) matches .ok (16, 4)) =
        true := by
    decide +kernel
  split at both
  · rename_i same
    obtain ⟨layout, laid, same⟩ := except_bind_eq_ok.mp same
    obtain ⟨again, laid', same⟩ := except_bind_eq_ok.mp same
    obtain ⟨higher, lower⟩ := Prod.mk.inj (Except.ok.inj same)
    exact ⟨layout, again, laid, laid', higher, lower⟩
  · cases both

end ObjectLayout
