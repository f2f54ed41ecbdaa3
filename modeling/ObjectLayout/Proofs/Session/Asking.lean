import ObjectLayout.Dump
import ObjectLayout.Engine
import ObjectLayout.Proofs.Itanium.Asking
import ObjectLayout.Proofs.Microsoft.Asking
import ObjectLayout.Query

/-! What a session works out asks for nothing outside the catalog of its types. Only the layout of a
record has anything to tell; types, dumps and field offsets are found in silence. -/
namespace ObjectLayout

open LayoutM (Confined AsksOnly)
open LayoutM.Confined (layoutOf typeLayoutOf foldlM lift lift_bind)

variable {s : Setting} {types : List Ty}

/-- The layout of a record asks for types of the catalog alone. -/
theorem RecordLayout.ofRecord_asks (catalog : s.tree.Catalog types) (r : RecordId) :
    (ofRecord s r).AsksOnly (· ∈ types) := by
  have logs (event : Event) : (LayoutM.log event).AsksOnly (· ∈ types) := ⟨trivial, trivial⟩
  have rules : (byRules s r).AsksOnly (· ∈ types) := by
    unfold byRules
    have itanium := Itanium.layout_asks catalog.parts (catalog.fields r) (s.suppliedLayout? r)
    refine .ite ((logs _).bind fun _ => Microsoft.layout_asks (catalog.fields r)) ?_
    exact .when_bind (logs _) fun _ => itanium
  unfold ofRecord ensureComplete
  refine Confined.bind (lift _) fun _ => (logs _).bind fun _ => rules.bind fun _ => ?_
  exact (logs _).bind fun _ => .pure _

/-- The layout of a type asks for its parts alone, and tells nothing. -/
theorem TypeLayout.ofTy_confined (type : Ty) :
    (ofTy s type).Confined (· ∈ type.parts) fun _ => False := by
  have part (inner : Ty) : inner ∈ [inner] := List.mem_singleton_self _
  unfold ofTy
  cases type with
  | array id element count => exact (typeLayoutOf (part _)).bind fun _ => lift_bind fun _ => .pure _
  | incompleteArray id element => exact (typeLayoutOf (part _)).bind fun _ => .pure _
  | variableArray id element => exact (typeLayoutOf (part _)).bind fun _ => .pure _
  | vector id element count => exact (typeLayoutOf (part _)).bind fun _ => lift _
  | complex id element => exact (typeLayoutOf (part _)).bind fun _ => lift_bind fun _ => .pure _
  | record id r => exact (layoutOf r).bind fun _ => .pure _
  | enumeration id declaration name underlying => exact typeLayoutOf (part _)
  | typedef id declaration name aliased alignment =>
    exact (typeLayoutOf (part _)).bind fun _ => .pure _
  | elaborated id inner => exact typeLayoutOf (part _)
  | memberPointer id pointee owner => exact lift _
  | openEnumeration id declaration name => exact .throw _
  | dependentArray id element => exact .throw _
  | templateParam id name => exact .throw _
  | unresolved id => exact .throw _
  | _ => exact .pure _

theorem TypeLayout.ofTy_asks (catalog : s.tree.Catalog types) {type : Ty} (listed : type ∈ types) :
    (ofTy s type).Confined (· ∈ types) fun _ => False :=
  (ofTy_confined type).mono (catalog.parts type listed) fun _ => id

namespace Dump

theorem each_silent {α : Type} {parts : List α} {show? : α → LayoutM (List Line)}
    (silent : ∀ part, (show? part).Silent) : (each parts show?).Silent := by
  unfold each
  exact foldlM (fun _ _ _ => (silent _).bind fun _ => .pure _) _

theorem subobjectLines_silent (r : RecordId) (offset : Bytes) (indent : Nat) (role : Option String)
    (isComplete : Bool) : (subobjectLines s r offset indent role isComplete).Silent := by
  refine descendWithin_keeps (K := fun dump : Bytes → Nat → Option String → Bool →
      LayoutM (List Line) => ∀ offset indent role isComplete,
        (dump offset indent role isComplete).Silent) (fun _ _ _ _ => .endless) ?_ _ r offset indent
    role isComplete
  intro dump below r offset indent role isComplete
  have bases (base : Base) (layout : RecordLayout) (offset : Bytes) (indent : Nat) :
      (baseLines dump layout offset indent base).Silent := by
    unfold baseLines
    exact lift_bind fun _ => lift_bind fun _ => below _ _ _ _ _
  have fields (entry : Field × Nat) (layout : RecordLayout) (offset : Bytes) (indent : Nat) :
      (fieldLines s dump layout offset indent entry).Silent := by
    unfold fieldLines
    refine lift_bind fun _ => lift_bind fun _ => ?_
    split
    · exact below _ _ _ _ _
    · exact .pure _
  have virtualBases (base : RecordId) (layout : RecordLayout) (offset : Bytes) (indent : Nat) :
      (virtualBaseLines s dump layout offset indent base).Silent := by
    unfold virtualBaseLines
    refine lift_bind fun _ => lift_bind fun _ => .ite (lift_bind fun _ => ?_) ?_
    all_goals exact (below _ _ _ _ _).bind fun _ => .pure _
  refine (layoutOf r).bind fun layout => (each_silent (bases · _ _ _)).bind fun _ => ?_
  refine lift_bind fun _ => (each_silent (fields · _ _ _)).bind fun _ => .ite (.pure _) ?_
  exact (each_silent (virtualBases · _ _ _)).bind fun _ => lift_bind fun _ => .pure _

end Dump

theorem dump_silent (r : RecordId) (simple : Bool) : (dump s r simple).Silent := by
  unfold dump
  refine .ite ?_ ((Dump.subobjectLines_silent r 0 0 none true).bind fun _ => .pure _)
  unfold Dump.summary
  refine (layoutOf r).bind fun _ => .ite ?_ ?_
  · exact lift_bind fun _ => lift_bind fun _ => .pure _
  · exact lift_bind fun _ => lift_bind fun _ => lift_bind fun _ => .pure _

theorem Query.fieldOffset_silent (field : FieldRef) : (fieldOffset field).Silent :=
  (layoutOf _).bind fun _ => lift _

theorem Query.indirectFieldOffset_silent (chain : List FieldRef) :
    (indirectFieldOffset chain).Silent := by
  unfold indirectFieldOffset
  exact foldlM (fun _ _ _ => (fieldOffset_silent _).bind fun _ => lift _) _

end ObjectLayout
