import ObjectLayout.Proofs.Sugar.Asking
import ObjectLayout.Subobject.EmptyMap

/-! Subobjects without sugar. Which base subobjects a class has, and where its empty subobjects lie, is
found out from the same records with and without sugar in the types of their fields. -/
namespace ObjectLayout

open LayoutM (layoutOf)

variable (s : Setting)

namespace SubobjectGraph

theorem descend_related {R : α → β → Prop} {cut : α} {cut' : β}
    {step : (SubobjectId → α) → SubobjectId → α} {step' : (SubobjectId → β) → SubobjectId → β}
    (graph : SubobjectGraph) (bottom : R cut cut')
    (level : ∀ below below', (∀ i, R (below i) (below' i)) → ∀ i, R (step below i) (step' below' i))
    (i : SubobjectId) : R (graph.descend cut step i) (graph.descend cut' step' i) :=
  descendWithin_related bottom level _ i

@[simp] theorem unsugared_visit (r : RecordId) (isVirtual : Bool) (graph : SubobjectGraph) :
    (visit s r isVirtual graph).unsugared = visit s.unsugared r isVirtual graph := by
  apply s.tree.descend_related (R := fun (visit visit' : Bool → SubobjectGraph → LayoutM _) =>
    ∀ isVirtual graph, (visit isVirtual graph).unsugared = visit' isVirtual graph)
  case bottom => exact fun _ _ => rfl
  intro below below' same r isVirtual graph
  dsimp only
  split <;> simp [same]

@[simp] theorem unsugared_ofClass (r : RecordId) : (ofClass s r).unsugared = ofClass s.unsugared r := by
  simp [ofClass]

end SubobjectGraph

namespace EmptyMap

variable {s} (map : EmptyMap)

@[simp] theorem admits_unsugared : map.admits s.unsugared = map.admits s := by
  funext r offset
  simp [admits]

@[simp] theorem record_unsugared : map.record s.unsugared = map.record s := by
  funext r offset
  simp [EmptyMap.record]

@[simp] theorem storedFields_unsugared (r : RecordId) (layout : RecordLayout) :
    storedFields s.unsugared r layout =
      (storedFields s r layout).map fun stored => (stored.1.unsugared, stored.2) := by
  simp only [storedFields, Setting.tree_unsugared, Tree.record_unsugared, Record.fields_unsugared,
    List.zipIdx_map, List.filterMap_map, List.map_filterMap]
  congr 1
  funext ⟨field, index⟩
  cases stored : field.isBitField <;> simp [stored]

@[simp] theorem arrayOfRecords_unsugared (type : Ty) :
    map.arrayOfRecords type.unsugared = map.arrayOfRecords type := by
  simp [arrayOfRecords]

@[simp] theorem unsugared_elementsFit (fits : Bytes → LayoutM Bool) (size : Bytes) (count : Nat)
    (offset : Bytes) : (map.elementsFit fits size count offset).unsugared =
      map.elementsFit (fun offset => (fits offset).unsugared) size count offset := by
  induction count generalizing offset with
  | zero => rfl
  | succ count ih => simp [elementsFit, ih]

@[simp] theorem unsugared_recordElements (update : Bytes → EmptyMap → LayoutM EmptyMap) (size : Bytes)
    (count : Nat) (offset : Bytes) : (recordElements update size count offset map).unsugared =
      recordElements (fun offset map => (update offset map).unsugared) size count offset map := by
  induction count generalizing offset map with
  | zero => rfl
  | succ count ih => simp [recordElements, ih]

@[simp] theorem unsugared_fieldTypeFits (fits : RecordId → Bytes → LayoutM Bool) (type : Ty)
    (offset : Bytes) : (map.fieldTypeFits fits type offset).unsugared =
      map.fieldTypeFits (fun r offset => (fits r offset).unsugared) type.unsugared offset := by
  simp only [fieldTypeFits, Ty.asRecord?_unsugared, arrayOfRecords_unsugared]
  cases type.asRecord? with
  | some r => simp
  | none =>
    simp only [LayoutM.unsugared_ite, LayoutM.unsugared_bind, LayoutM.unsugared_lift]
    congr 2
    funext found
    cases found <;> simp

@[simp] theorem unsugared_recordFieldType (update : RecordId → Bytes → EmptyMap → LayoutM EmptyMap)
    (type : Ty) (offset : Bytes) : (recordFieldType update type offset map).unsugared =
      recordFieldType (fun r offset map => (update r offset map).unsugared) type.unsugared offset map := by
  simp only [recordFieldType, Ty.asRecord?_unsugared, arrayOfRecords_unsugared]
  cases type.asRecord? with
  | some r => rfl
  | none =>
    simp only [LayoutM.unsugared_bind, LayoutM.unsugared_lift]
    congr 1
    funext found
    cases found <;> simp

@[simp] theorem unsugared_recordFits (r : RecordId) (isComplete : Bool) (offset : Bytes) :
    (recordFits s map r isComplete offset).unsugared =
      recordFits s.unsugared map r isComplete offset := by
  apply s.tree.descend_related (R := fun (fits fits' : Bool → Bytes → LayoutM Bool) =>
    ∀ isComplete offset, (fits isComplete offset).unsugared = fits' isComplete offset)
  case bottom => exact fun _ _ => rfl
  intro below below' same r isComplete offset
  simp [same, LayoutM.allM_map]

@[simp] theorem unsugared_recordWhole (r : RecordId) (isComplete : Bool) (offset : Bytes) :
    (recordWhole s r isComplete offset map).unsugared =
      recordWhole s.unsugared r isComplete offset map := by
  apply s.tree.descend_related (R := fun (update update' : Bool → Bytes → EmptyMap → LayoutM EmptyMap) =>
    ∀ isComplete offset map, (update isComplete offset map).unsugared = update' isComplete offset map)
  case bottom => exact fun _ _ _ => rfl
  intro below below' same r isComplete offset map
  simp [same, List.foldlM_map]

@[simp] theorem unsugared_fieldFits (type : Ty) (offset : Bytes) :
    (fieldFits s map type offset).unsugared = fieldFits s.unsugared map type.unsugared offset := by
  simp [fieldFits]

@[simp] theorem unsugared_recordField (type : Ty) (offset : Bytes) :
    (recordField s type offset map).unsugared = recordField s.unsugared type.unsugared offset map := by
  simp [recordField]

section Bases

variable (graph : SubobjectGraph) (i : SubobjectId) (offset : Bytes)

@[simp] theorem unsugared_baseFits :
    (baseFits s graph map i offset).unsugared = baseFits s.unsugared graph map i offset := by
  apply graph.descend_related (R := fun (fits fits' : Bytes → LayoutM Bool) =>
    ∀ offset, (fits offset).unsugared = fits' offset)
  case bottom => exact fun _ => rfl
  intro below below' same i offset
  simp [same, LayoutM.allM_map]

@[simp] theorem unsugared_recordBase (isEmptyBase : Bool) :
    (recordBase s graph isEmptyBase i offset map).unsugared =
      recordBase s.unsugared graph isEmptyBase i offset map := by
  apply graph.descend_related (R := fun (update update' : Bytes → EmptyMap → LayoutM EmptyMap) =>
    ∀ offset map, (update offset map).unsugared = update' offset map)
  case bottom => exact fun _ _ => rfl
  intro below below' same i offset map
  simp [same, List.foldlM_map]

@[simp] theorem unsugared_placeBase? :
    (map.placeBase? s graph i offset).unsugared = map.placeBase? s.unsugared graph i offset := by
  simp [placeBase?]

end Bases

@[simp] theorem unsugared_placeField? (type : Ty) (offset : Bytes) :
    (map.placeField? s type offset).unsugared = map.placeField? s.unsugared type.unsugared offset := by
  simp [placeField?]

@[simp] theorem largestIn_unsugared (r : RecordId) (layout : RecordLayout) :
    largestIn s.unsugared r layout = largestIn s r layout := by
  simp [largestIn]

@[simp] theorem heldRecords_unsugared (r : RecordId) :
    heldRecords s.unsugared r = heldRecords s r := by
  simp [heldRecords, List.filterMap_map]

@[simp] theorem unsugared_ofClass (tracking : Tracking) (r : RecordId) :
    (ofClass s tracking r).unsugared = ofClass s.unsugared tracking r := by
  simp [ofClass]

end EmptyMap

end ObjectLayout
