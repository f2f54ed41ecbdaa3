import ObjectLayout.Microsoft.Layout
import ObjectLayout.Proofs.Catalog
import ObjectLayout.Proofs.Confined

/-! What the Microsoft rules ask for: layouts of records for bases, and for a field the layouts of its
type and of the record at the bottom of it. -/
namespace ObjectLayout.Microsoft

open LayoutM (Confined AsksOnly)
open LayoutM.Confined (layoutOf typeLayoutOf foldlM lift lift_bind)

variable {s : Setting} {f : Frame} {st : State} {types : Ty → Prop} {field : Field}

section Bases

theorem locateSharedVbptr_silent : (locateSharedVbptr st).Silent := by
  unfold locateSharedVbptr
  generalize (if st.hasVbptr = true then st.vbptrBase else none) = shared
  cases shared with
  | none => exact .pure _
  | some base => exact (layoutOf _).bind fun _ => lift_bind fun _ => lift_bind fun _ => .pure _

theorem layNonVirtualBases_silent : (layNonVirtualBases f st).Silent := by
  unfold layNonVirtualBases
  refine (foldlM (fun base _ walk => ?leading) _).bind fun walk => ?_
  case leading =>
    unfold layLeadingBase
    exact (layoutOf _).bind fun _ => .ite (.pure _) (.ite (.pure _) (lift _))
  refine (foldlM (fun base _ acc => ?following) _).bind fun walk => ?_
  case following =>
    unfold layFollowingBase
    exact (layoutOf _).bind fun _ => .ite (.pure _) (lift_bind fun _ => .pure _)
  exact locateSharedVbptr_silent

theorem vtordisps_silent (r : RecordId) : (vtordisps f.tree r).Silent := by
  unfold vtordisps inheritedVtordisps
  refine (foldlM (fun _ _ _ => (layoutOf _).bind fun _ => .pure _) _).bind fun _ => ?_
  exact .ite (.pure _) (lift_bind fun _ => .pure _)

theorem layVirtualBase_silent (vtordisps : List RecordId) (walk : BaseWalk) (r : RecordId) :
    (layVirtualBase f vtordisps walk r).Silent := by
  unfold layVirtualBase
  refine (layoutOf _).bind fun _ => .ite (lift_bind fun _ => ?_) ?_
  all_goals
    refine .ite_bind (lift _) (.pure _) fun _ => .ite_bind (lift _) (.pure _) fun _ => ?_
    exact lift_bind fun _ => lift_bind fun _ => .pure _

theorem layVirtualBases_silent : (layVirtualBases f st).Silent := by
  unfold layVirtualBases
  refine .ite (.pure _) ((vtordisps_silent _).bind fun _ => ?_)
  exact (foldlM (fun _ _ _ => layVirtualBase_silent _ _ _) _).bind fun _ => .pure _

theorem zeroSized?_silent (r : Option RecordId) : (zeroSized? r).Silent := by
  unfold zeroSized?
  split
  · exact .pure _
  · exact (layoutOf _).bind fun _ => .pure _

theorem layVbptrAsBase_silent : (layVbptrAsBase f st).Silent := by
  unfold layVbptrAsBase
  refine .ite (.pure _) (lift_bind fun found => ?_)
  refine (zeroSized?_silent found.last).bind fun last => (zeroSized?_silent _).bind fun _ => ?_
  refine lift_bind fun _ => lift_bind fun _ => lift_bind fun _ => ?_
  split
  · exact .pure _
  · exact lift _

end Bases

section Fields

theorem fieldExtent_asks (h : types field.type) : (fieldExtent f field st).AsksOnly types := by
  unfold fieldExtent
  refine Confined.bind ?_ fun _ => .pure _
  unfold fieldTypeExtent
  split
  · exact (layoutOf _).bind fun _ => (typeLayoutOf h).bind fun _ => .pure _
  · exact (typeLayoutOf h).bind fun _ => .pure _

theorem layAnyField_asks (h : types field.type) : (layAnyField f st field).AsksOnly types := by
  unfold layAnyField
  split
  · exact (fieldExtent_asks h).bind fun _ => lift _
  · apply Confined.ite
    · exact .ite (lift _) ((fieldExtent_asks h).bind fun _ => lift _)
    · unfold layBitField
      refine (fieldExtent_asks h).bind fun _ => lift_bind fun _ => .ite ?_ ?_
      · exact lift_bind fun _ => lift_bind fun _ => .pure _
      · exact lift_bind fun _ => .ite (.pure _) (lift_bind fun _ => .pure _)

variable (fields : ∀ field ∈ f.declaration.fields, types field.type)
include fields

theorem layFields_asks : (layFields f st).AsksOnly types :=
  foldlM (fun _ member _ => layAnyField_asks (fields _ member)) _

theorem layPointers_asks : (layPointers f st).AsksOnly types := by
  unfold layPointers
  refine .ite (.pure _) (.ite ?_ ?_)
  · unfold layWithLeadingPointers
    refine (Confined.of_silent layNonVirtualBases_silent).bind fun _ => ?_
    refine (Confined.of_silent layVbptrAsBase_silent).bind fun _ => ?_
    exact (layFields_asks fields).bind fun _ => .pure _
  · exact lift_bind fun _ => lift_bind fun _ => .pure _

end Fields

/-- The Microsoft rules ask for layouts of types among those of the fields. -/
theorem layout_asks {r : RecordId} (fields : ∀ field ∈ (s.tree.record r).fields, types field.type) :
    (layout s r).AsksOnly types := by
  have fields : ∀ field ∈ (Frame.ofRecord s r).declaration.fields, types field.type := fields
  unfold layout
  refine .ite ?_ ?_
  · unfold layClass
    refine (Confined.of_silent layNonVirtualBases_silent).bind fun _ => ?_
    refine (layFields_asks fields).bind fun _ => (layPointers_asks fields).bind fun _ => ?_
    refine lift_bind fun _ => (Confined.of_silent layVirtualBases_silent).bind fun _ => ?_
    exact lift_bind fun _ => .pure _
  · unfold layPlain
    exact (layFields_asks fields).bind fun _ => lift_bind fun _ => lift_bind fun _ => .pure _

end ObjectLayout.Microsoft
