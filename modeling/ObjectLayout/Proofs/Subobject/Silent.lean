import ObjectLayout.Proofs.Confined
import ObjectLayout.Subobject.EmptyMap

/-! Looking for subobjects takes the layouts of records alone, and tells nothing: neither the graph of
base subobjects nor a map of empty ones does, whether it looks into what is to be placed or records
it. -/
namespace ObjectLayout

open LayoutM (Confined)
open LayoutM.Confined (endless layoutOf allM foldlM lift_bind)

variable {s : Setting} {map : EmptyMap} {graph : SubobjectGraph}

namespace SubobjectGraph

theorem visit_silent (r : RecordId) (isVirtual : Bool) (graph : SubobjectGraph) :
    (visit s r isVirtual graph).Silent := by
  refine descendWithin_keeps (K := fun visit : Bool → SubobjectGraph → LayoutM _ =>
    ∀ isVirtual graph, (visit isVirtual graph).Silent) (fun _ _ => endless) ?_ _ r isVirtual graph
  intro visit below r isVirtual graph
  dsimp only
  split
  · exact .pure _
  · refine Confined.ite_bind ((layoutOf r).bind fun _ => .pure _) (.pure none) fun _ => ?_
    refine (foldlM (fun _ _ _ => (below _ _ _).bind fun _ => .pure _) _).bind fun _ => ?_
    exact lift_bind fun _ => .pure _

theorem ofClass_silent (r : RecordId) : (ofClass s r).Silent := by
  unfold ofClass
  refine foldlM (fun _ _ _ => (visit_silent _ _ _).bind fun _ => .ite (.pure _) ?_) _
  exact (Confined.ensure _ _).bind fun _ => .pure _

end SubobjectGraph

namespace EmptyMap

section Fits

theorem elementsFit_silent {fits : Bytes → LayoutM Bool} (each : ∀ offset, (fits offset).Silent)
    (size : Bytes) (count : Nat) (offset : Bytes) : (elementsFit map fits size count offset).Silent := by
  induction count generalizing offset with
  | zero => exact Confined.pure true
  | succ count ih =>
    unfold elementsFit
    apply Confined.ite
    · exact Confined.pure true
    · refine (each offset).bind fun free => .ite (Confined.pure false) ?_
      exact lift_bind ih

theorem fieldTypeFits_silent {fits : RecordId → Bytes → LayoutM Bool}
    (each : ∀ r offset, (fits r offset).Silent) (type : Ty) (offset : Bytes) :
    (map.fieldTypeFits fits type offset).Silent := by
  unfold fieldTypeFits
  apply Confined.ite
  · exact Confined.pure true
  · split
    · exact each _ offset
    · refine lift_bind fun found => ?_
      rcases found with _ | ⟨r, count⟩
      · exact Confined.pure true
      · refine (layoutOf r).bind fun layout => ?_
        exact elementsFit_silent (each r) layout.size count offset

/-- What a map does with each part of a record, one of them after the offset of the part. -/
theorem within_silent {offset : Bytes} {inner : Checked Bytes} {next : Bytes → LayoutM α}
    (each : ∀ offset, (next offset).Silent) :
    ((liftM (within offset inner) : LayoutM Bytes) >>= next).Silent :=
  lift_bind each

theorem recordFits_silent (r : RecordId) (isComplete : Bool) (offset : Bytes) :
    (recordFits s map r isComplete offset).Silent := by
  refine descendWithin_keeps (K := fun fits : Bool → Bytes → LayoutM Bool =>
    ∀ isComplete offset, (fits isComplete offset).Silent) (fun _ _ => endless) ?_ _ r
    isComplete offset
  intro fits below r isComplete offset
  refine .ite (Confined.pure true) (.ite (Confined.pure false) ?_)
  refine (layoutOf r).bind fun layout => ?_
  refine (allM (fun _ => within_silent (below _ false)) _).bind fun _ =>
    .ite (Confined.pure false) ?_
  refine (allM (fun _ => within_silent (below _ false)) _).bind fun _ =>
    .ite (Confined.pure false) ?_
  exact allM (fun _ => within_silent (fieldTypeFits_silent (below · true) _)) _

theorem baseFits_silent (i : SubobjectId) (offset : Bytes) :
    (baseFits s graph map i offset).Silent := by
  refine descendWithin_keeps (K := fun fits : Bytes → LayoutM Bool =>
    ∀ offset, (fits offset).Silent) (fun _ => endless) ?_ _ i offset
  intro fits below i offset
  refine .ite (Confined.pure true) (.ite (Confined.pure false) ?_)
  refine (layoutOf _).bind fun layout => ?_
  refine (allM (fun _ => within_silent (below _)) _).bind fun _ => .ite (Confined.pure false) ?_
  refine (allM (fun _ => below _ offset) _).bind fun _ => .ite (Confined.pure false) ?_
  exact allM (fun _ => within_silent (fieldTypeFits_silent (recordFits_silent · true) _)) _

end Fits

section Record

theorem recordElements_silent {update : Bytes → EmptyMap → LayoutM EmptyMap}
    (each : ∀ offset map, (update offset map).Silent) (size : Bytes) (count : Nat) (offset : Bytes)
    (map : EmptyMap) : (recordElements update size count offset map).Silent := by
  induction count generalizing offset map with
  | zero => exact Confined.pure map
  | succ count ih =>
    unfold recordElements
    apply Confined.ite
    · exact Confined.pure map
    · refine (each offset map).bind fun map' => ?_
      exact lift_bind fun next => ih next map'

theorem recordFieldType_silent {update : RecordId → Bytes → EmptyMap → LayoutM EmptyMap}
    (each : ∀ r offset map, (update r offset map).Silent) (type : Ty) (offset : Bytes)
    (map : EmptyMap) : (recordFieldType update type offset map).Silent := by
  unfold recordFieldType
  split
  · exact each _ offset map
  · refine lift_bind fun found => ?_
    rcases found with _ | ⟨r, count⟩
    · exact Confined.pure map
    · refine (layoutOf r).bind fun layout => ?_
      exact recordElements_silent (each r) layout.size count offset map

theorem recordWhole_silent (r : RecordId) (isComplete : Bool) (offset : Bytes) (map : EmptyMap) :
    (recordWhole s r isComplete offset map).Silent := by
  refine descendWithin_keeps (K := fun update : Bool → Bytes → EmptyMap → LayoutM EmptyMap =>
    ∀ isComplete offset map, (update isComplete offset map).Silent)
    (fun _ _ _ => endless) ?_ _ r isComplete offset map
  intro update below r isComplete offset map
  refine .ite (Confined.pure map) ?_
  refine (layoutOf r).bind fun layout => ?_
  refine (foldlM (fun _ _ _ => within_silent (below _ false · _)) _).bind fun _ => ?_
  refine (foldlM (fun _ _ _ => within_silent (below _ false · _)) _).bind fun _ => ?_
  exact foldlM (fun _ _ _ =>
    within_silent (recordFieldType_silent (below · true) _ · _)) _

theorem recordBase_silent (isEmptyBase : Bool) (i : SubobjectId) (offset : Bytes) (map : EmptyMap) :
    (recordBase s graph isEmptyBase i offset map).Silent := by
  refine descendWithin_keeps (K := fun update : Bytes → EmptyMap → LayoutM EmptyMap =>
    ∀ offset map, (update offset map).Silent) (fun _ _ => endless) ?_ _ i offset map
  intro update below i offset map
  refine .ite (Confined.pure map) ?_
  refine (layoutOf _).bind fun layout => ?_
  refine (foldlM (fun _ _ _ => within_silent (below _ · _)) _).bind fun _ => ?_
  refine (foldlM (fun _ _ _ => below _ offset _) _).bind fun _ => ?_
  exact foldlM (fun _ _ _ =>
    within_silent (recordFieldType_silent (recordWhole_silent · true) _ · _)) _

end Record

theorem placeBase?_silent (i : SubobjectId) (offset : Bytes) :
    (map.placeBase? s graph i offset).Silent := by
  unfold placeBase?
  refine .ite (Confined.pure _) ((baseFits_silent i offset).bind fun _ => .ite (Confined.pure none) ?_)
  exact (recordBase_silent _ i offset map).bind fun _ => Confined.pure _

theorem placeField?_silent (type : Ty) (offset : Bytes) :
    (map.placeField? s type offset).Silent := by
  unfold placeField?
  refine (fieldTypeFits_silent (recordFits_silent · true) type offset).bind fun _ => ?_
  refine .ite (Confined.pure none) ?_
  exact (recordFieldType_silent (recordWhole_silent · true) type offset map).bind
    fun _ => Confined.pure _

theorem ofClass_silent (tracking : Tracking) (r : RecordId) : (ofClass s tracking r).Silent :=
  (foldlM (fun held _ _ => (layoutOf held).bind fun _ => .pure _) 0).bind fun _ => .pure _

end EmptyMap

end ObjectLayout
