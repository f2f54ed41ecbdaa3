import ObjectLayout.Proofs.Knowledge

/-! What a record encloses: its bases and the records that its fields hold by value, however deep in
arrays and under whatever names. The layout of a record depends on no others. -/
namespace ObjectLayout

/-- The record at the bottom of a type, where nothing but a pointer or a reference leads past it. -/
def Ty.enclosedRecord? : Ty → Option RecordId
  | .typedef _ _ _ inner _ | .elaborated _ inner | .array _ inner _ | .incompleteArray _ inner
  | .variableArray _ inner | .dependentArray _ inner | .vector _ inner _ | .complex _ inner
  | .enumeration _ _ _ inner => inner.enclosedRecord?
  | .record _ r => some r
  | _ => none

theorem Ty.enclosedRecord?_of_baseElement {type : Ty} {m : RecordId}
    (names : type.baseElement.asRecord? = some m) : type.enclosedRecord? = some m := by
  fun_induction Ty.baseElement type with
  | case7 type noTypedef noElaborated =>
    cases type with
    | record => exact names
    | typedef => exact absurd rfl (noTypedef _ _ _ _ _)
    | elaborated => exact absurd rfl (noElaborated _ _)
    | _ => cases names
  | _ => simp_all [Ty.enclosedRecord?]

namespace Tree

variable {tree : Tree} {r m v : RecordId}

def Encloses (tree : Tree) (r m : RecordId) : Prop :=
  tree.Inherits r m ∨ ∃ field ∈ (tree.record r).fields, field.type.enclosedRecord? = some m

theorem Inherits.encloses (edge : tree.Inherits r m) : tree.Encloses r m := .inl edge

theorem Encloses.of_field {field : Field} (member : field ∈ (tree.record r).fields)
    (encloses : field.type.enclosedRecord? = some m) : tree.Encloses r m :=
  .inr ⟨field, member, encloses⟩

theorem Encloses.declared (edge : tree.Encloses r m) : r.position < tree.records.size := by
  rcases edge with inherits | ⟨field, member, _⟩
  · exact inherits.declared
  · by_contra outside
    rw [record_undeclared outside] at member
    cases member

/-- Records that enclose none but each other lead to none but each other. -/
theorem mem_of_encloses {reached : List RecordId}
    (closed : ∀ m ∈ reached, (∀ base ∈ (tree.record m).bases, base.record ∈ reached) ∧
      ∀ field ∈ (tree.record m).fields, ∀ held ∈ field.type.enclosedRecord?, held ∈ reached)
    (start : r ∈ reached) (path : Relation.ReflTransGen tree.Encloses r m) : m ∈ reached := by
  induction path with
  | refl => exact start
  | tail _ edge ih =>
    obtain ⟨bases, fields⟩ := closed _ ih
    obtain ⟨base, member, rfl⟩ | ⟨field, member, encloses⟩ := edge
    · exact bases base member
    · exact fields field member _ encloses

/-- Where records enclose none but earlier ones, nothing goes on for ever. -/
theorem grounded_of_earlier (earlier : ∀ entry ∈ tree.records.items.toList.zipIdx,
      (∀ base ∈ entry.1.bases, base.record.position < entry.2) ∧
      ∀ field ∈ entry.1.fields, ∀ held ∈ field.type.enclosedRecord?, held.position < entry.2)
    (r : RecordId) : Grounded tree.Encloses r := by
  refine Subrelation.accessible (r := InvImage (· < ·) Idx.position) (fun {m r} edge => ?_)
    ((InvImage.wf _ Nat.lt_wfRel.wf).apply r)
  have declared : r.position < tree.records.items.size := Encloses.declared edge
  have found : tree.records.items.toList[r.position]? = some (tree.record r) := by
    simp [record, Arena.getD, Arena.get?, declared]
  obtain ⟨bases, fields⟩ := earlier _ (List.mk_mem_zipIdx_iff_getElem?.mpr found)
  obtain ⟨base, member, rfl⟩ | ⟨field, member, encloses⟩ := edge
  · exact bases base member
  · exact fields field member m encloses

theorem HasVirtualBase.encloses (h : tree.HasVirtualBase r v) :
    Relation.TransGen tree.Encloses r v :=
  h.below.lift id fun _ _ => Inherits.encloses

end Tree

end ObjectLayout
