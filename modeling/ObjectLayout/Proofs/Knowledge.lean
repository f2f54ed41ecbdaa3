import ObjectLayout.Engine
import ObjectLayout.Proofs.Inheritance
import ObjectLayout.Proofs.Outcome

/-! Layouts worked out from layouts. Knowing more layouts never changes an outcome that is already
there, so the layouts known at some depth are exactly what the rules make of each other, and what a
record with a layout holds has a layout too and is never held for ever. -/
namespace ObjectLayout

open EmptyMap (heldRecords)

variable {s : Setting} {known known' : Known}

namespace Known

/-- Everything known here is known there. -/
structure Within (known known' : Known) : Prop where
  record : ∀ r layout, known.record r = .ok layout → known'.record r = .ok layout
  type : ∀ type layout, known.type type = .ok layout → known'.type type = .ok layout

end Known

theorem LayoutM.eval_mono (within : known.Within known') (x : LayoutM α) {value : α}
    (h : x.eval known = .ok value) : x.eval known' = .ok value := by
  induction x with
  | done value' => exact h
  | stop fault => exact h
  | askRecord r next ih =>
    obtain ⟨layout, asked, further⟩ := except_bind_eq_ok.mp h
    exact except_bind_eq_ok.mpr ⟨layout, within.record r layout asked, ih layout further⟩
  | askType type next ih =>
    obtain ⟨layout, asked, further⟩ := except_bind_eq_ok.mp h
    exact except_bind_eq_ok.mpr ⟨layout, within.type type layout asked, ih layout further⟩
  | tell note rest ih => exact ih h

theorem Setting.known_succ (s : Setting) (depth : Nat) :
    (s.known depth).Within (s.known (depth + 1)) := by
  induction depth with
  | zero => exact ⟨nofun, nofun⟩
  | succ depth ih =>
    exact ⟨fun r _ h => LayoutM.eval_mono ih (RecordLayout.ofRecord s r) h,
      fun type _ h => LayoutM.eval_mono ih (TypeLayout.ofTy s type) h⟩

/-- The layouts known at a depth are what the rules make of the layouts known there. -/
theorem Setting.known_record {depth : Nat} {r : RecordId} {layout : RecordLayout}
    (laid : (s.known depth).record r = .ok layout) :
    (RecordLayout.ofRecord s r).eval (s.known depth) = .ok layout := by
  obtain _ | depth := depth
  · cases laid
  · exact LayoutM.eval_mono (s.known_succ depth) (RecordLayout.ofRecord s r) laid

/-- Only what is declared has a layout. -/
theorem Setting.declared_of_known {r : RecordId} {layout : RecordLayout} {depth : Nat}
    (laid : (s.known depth).record r = .ok layout) : r.position < s.tree.records.size := by
  by_contra outside
  obtain ⟨⟨⟩, complete, _⟩ := LayoutM.eval_bind_eq_ok.mp (s.known_record laid)
  rw [LayoutM.eval_lift, Tree.record_undeclared outside] at complete
  cases complete

theorem Setting.known_type {depth : Nat} {type : Ty} {layout : TypeLayout}
    (laid : (s.known depth).type type = .ok layout) :
    (TypeLayout.ofTy s type).eval (s.known depth) = .ok layout := by
  obtain _ | depth := depth
  · cases laid
  · exact LayoutM.eval_mono (s.known_succ depth) (TypeLayout.ofTy s type) laid

/-- No cycle of records that hold one another goes through `r`. -/
def Setting.Holds (s : Setting) (r held : RecordId) : Prop := held ∈ heldRecords s r

/-- The known layouts are what the rules make of the known layouts, from the bottom up. -/
structure Setting.Knows (s : Setting) (known : Known) : Prop where
  record : ∀ {r layout}, known.record r = .ok layout →
    (RecordLayout.ofRecord s r).eval known = .ok layout
  type : ∀ {type layout}, known.type type = .ok layout →
    (TypeLayout.ofTy s type).eval known = .ok layout
  held : ∀ {r layout held}, known.record r = .ok layout → s.Holds r held →
    ∃ layout, known.record held = .ok layout
  grounded : ∀ {r layout}, known.record r = .ok layout → Grounded s.Holds r

/-- What a known record holds at any depth is known. -/
theorem Setting.Knows.reached (knows : s.Knows known) {r held : RecordId}
    (laid : ∃ layout, known.record r = .ok layout) (path : Relation.ReflTransGen s.Holds r held) :
    ∃ layout, known.record held = .ok layout := by
  induction path with
  | refl => exact laid
  | tail _ holds ih =>
    obtain ⟨_, laid⟩ := ih
    exact knows.held laid holds

theorem Tree.Inherits.holds {r b : RecordId} (h : s.tree.Inherits r b) : s.Holds r b := by
  obtain ⟨base, member, rfl⟩ := h
  exact List.mem_append_left _ (List.mem_map_of_mem member)

theorem Setting.Holds.of_field {r held : RecordId} {field : Field}
    (member : field ∈ (s.tree.record r).fields)
    (names : field.type.baseElement.asRecord? = some held) : s.Holds r held :=
  List.mem_append_right _ (List.mem_filterMap.mpr ⟨field, member, names⟩)

theorem Setting.Holds.declared {r held : RecordId} (h : s.Holds r held) :
    r.position < s.tree.records.size := by
  by_contra outside
  have undeclared := Tree.record_undeclared outside
  unfold Setting.Holds heldRecords at h
  rw [undeclared] at h
  cases h

theorem Setting.Holds.declared_of_transGen {r held : RecordId}
    (path : Relation.TransGen s.Holds r held) : r.position < s.tree.records.size := by
  obtain ⟨_, edge, _⟩ := Relation.TransGen.head'_iff.mp path
  exact edge.declared

section Types

variable {s : Setting} {r : RecordId} {depth : Nat}

/-- The type layout that a computation begins by asking for is known. -/
theorem LayoutM.asked_type {known : Known} {type : Ty} {next : TypeLayout → LayoutM α} {value : α}
    (h : (typeLayoutOf type >>= next).eval known = .ok value) :
    ∃ layout, known.type type = .ok layout := by
  obtain ⟨layout, asked, _⟩ := eval_bind_eq_ok.mp h
  exact ⟨layout, by rwa [eval_typeLayoutOf] at asked⟩

theorem LayoutM.asked_record {known : Known} {r : RecordId} {next : RecordLayout → LayoutM α}
    {value : α} (h : (layoutOf r >>= next).eval known = .ok value) :
    ∃ layout, known.record r = .ok layout := by
  obtain ⟨layout, asked, _⟩ := eval_bind_eq_ok.mp h
  exact ⟨layout, by rwa [eval_layoutOf] at asked⟩

/-- A layout known at some depth rests on one known at a smaller depth. -/
def RestsOn (s : Setting) (r : RecordId) (depth : Nat) : Prop :=
  ∃ depth' < depth, ∃ layout, (s.known depth').record r = .ok layout

/-- The layout of a type rests on that of the record at the bottom of it. -/
theorem TypeLayout.restsOn_record (type : Ty) (names : type.baseElement.asRecord? = some r)
    (h : ∃ layout, (s.known depth).type type = .ok layout) : RestsOn s r depth := by
  have deeper {type inner : Ty} {depth : Nat}
      (ih : ∀ depth, (∃ layout, (s.known depth).type inner = .ok layout) → RestsOn s r depth)
      (asks : ∀ depth, (∃ layout, (s.known (depth + 1)).type type = .ok layout) →
        ∃ layout, (s.known depth).type inner = .ok layout)
      (h : ∃ layout, (s.known depth).type type = .ok layout) : RestsOn s r depth := by
    obtain _ | depth := depth
    · obtain ⟨_, h⟩ := h
      cases h
    · obtain ⟨depth', less, found⟩ := ih depth (asks depth h)
      exact ⟨depth', by omega, found⟩
  fun_induction Ty.baseElement type generalizing depth with
  | case1 id declaration name aliased alignment ih =>
    exact deeper (fun _ => ih names) (fun _ ⟨_, h⟩ => LayoutM.asked_type h) h
  | case2 id inner ih =>
    refine deeper (fun _ => ih names) (fun depth ⟨layout, h⟩ => ⟨layout, ?_⟩) h
    rwa [← LayoutM.eval_typeLayoutOf]
  | case3 id element count ih | case4 id element ih | case5 id element ih =>
    exact deeper (fun _ => ih names) (fun _ ⟨_, h⟩ => LayoutM.asked_type h) h
  | case6 id element ih =>
    exact deeper (fun _ => ih names) (fun _ ⟨_, h⟩ => nomatch h) h
  | case7 type noTypedef noElaborated =>
    obtain _ | depth := depth
    · obtain ⟨_, h⟩ := h
      cases h
    cases type with
    | record id named =>
      cases names
      obtain ⟨_, h⟩ := h
      exact ⟨depth, by omega, LayoutM.asked_record h⟩
    | typedef => exact absurd rfl (noTypedef _ _ _ _ _)
    | elaborated => exact absurd rfl (noElaborated _ _)
    | _ => cases names

theorem Itanium.fieldExtent_restsOn {f : Itanium.Frame} (type : Ty)
    (names : type.baseElement.asRecord? = some r) {extent : Bytes × Bytes}
    (h : (Itanium.fieldExtent f type).eval (s.known depth) = .ok extent) : RestsOn s r depth := by
  rw [← Ty.baseElement_canonical] at names
  unfold Itanium.fieldExtent at h
  split at h
  · rename_i id element canonical
    rw [canonical] at names
    exact TypeLayout.restsOn_record element names (LayoutM.asked_type h)
  · rename_i id referee canonical
    rw [canonical] at names
    cases names
  · rename_i id referee canonical
    rw [canonical] at names
    cases names
  · rw [Ty.baseElement_canonical] at names
    exact TypeLayout.restsOn_record type names (LayoutM.asked_type h)

/-- Laying out a field rests on the record at the bottom of its type. -/
theorem Itanium.layAnyField_restsOn {f : Itanium.Frame} {st st' : Itanium.State} {field : Field}
    {index : Nat} (names : field.type.baseElement.asRecord? = some r)
    (h : (Itanium.layAnyField f st (field, index)).eval (s.known depth) = .ok st') :
    RestsOn s r depth := by
  unfold Itanium.layAnyField at h
  dsimp only at h
  split at h
  · exact TypeLayout.restsOn_record field.type names (LayoutM.asked_type h)
  · obtain ⟨_, _, h⟩ := LayoutM.eval_bind_eq_ok.mp h
    obtain ⟨extent, asked, _⟩ := LayoutM.eval_bind_eq_ok.mp h
    exact Itanium.fieldExtent_restsOn field.type names asked

end Types

theorem EmptyMap.ofClass_asks {tracking : Tracking} {r : RecordId} {map : EmptyMap}
    (h : (EmptyMap.ofClass s tracking r).eval known = .ok map) :
    ∀ held ∈ heldRecords s r, ∃ layout, known.record held = .ok layout := by
  obtain ⟨largest, fold, _⟩ := LayoutM.eval_bind_eq_ok.mp h
  rw [LayoutM.eval_foldlM] at fold
  intro held member
  obtain ⟨_, _, step⟩ := foldlM_each fold held member
  exact LayoutM.asked_record step

namespace RecordLayout

/-- Where the Itanium rules apply, a layout is that of a complete record under these rules. -/
theorem ofRecord_itanium (itanium : s.usesMicrosoftLayout = false) {r : RecordId}
    {layout : RecordLayout} (h : (ofRecord s r).eval known = .ok layout) :
    ensureComplete (s.tree.record r) = .ok () ∧
      (Itanium.layout s r (s.suppliedLayout? r)).eval known = .ok layout := by
  unfold ofRecord at h
  obtain ⟨⟨⟩, complete, h⟩ := LayoutM.eval_bind_eq_ok.mp h
  obtain ⟨⟨⟩, _, h⟩ := LayoutM.eval_bind_eq_ok.mp h
  obtain ⟨layout', rules, h⟩ := LayoutM.eval_bind_eq_ok.mp h
  obtain ⟨⟨⟩, _, h⟩ := LayoutM.eval_bind_eq_ok.mp h
  cases h
  rw [LayoutM.eval_lift] at complete
  refine ⟨complete, ?_⟩
  unfold byRules at rules
  rw [itanium] at rules
  simp only [Bool.false_eq_true, if_false] at rules
  split at rules
  · obtain ⟨⟨⟩, _, rules⟩ := LayoutM.eval_bind_eq_ok.mp rules
    exact rules
  · exact rules

end RecordLayout

/-- What the layout of a record rests on, whatever it holds. -/
theorem Itanium.layout_restsOn {r held : RecordId} {supplied : Option SuppliedLayout} {depth : Nat}
    {layout : RecordLayout} (h : (Itanium.layout s r supplied).eval (s.known depth) = .ok layout)
    (holds : s.Holds r held) : ∃ depth' ≤ depth, ∃ layout, (s.known depth').record held = .ok layout := by
  unfold Itanium.layout Itanium.layoutTracking at h
  dsimp only at h
  split at h
  · unfold Itanium.layClass at h
    obtain ⟨map, asked, _⟩ := LayoutM.eval_bind_eq_ok.mp h
    exact ⟨depth, le_rfl, EmptyMap.ofClass_asks asked held holds⟩
  · rename_i plain
    have bases : (s.tree.record r).bases = [] := by
      have : (s.tree.record r).asClass? = none := by
        simpa [Itanium.Frame.declaration, Itanium.Frame.tree, Itanium.Frame.ofRecord,
          Record.isClass] using plain
      simp only [Record.bases, this, Option.map_none, Option.getD_none]
    obtain ⟨field, member, names⟩ : ∃ field ∈ (s.tree.record r).fields,
        field.type.baseElement.asRecord? = some held := by
      simpa only [Setting.Holds, heldRecords, bases, List.map_nil, List.nil_append,
        List.mem_filterMap] using holds
    unfold Itanium.layPlain at h
    obtain ⟨st, _, h⟩ := LayoutM.eval_bind_eq_ok.mp h
    obtain ⟨laid, fields, _⟩ := LayoutM.eval_bind_eq_ok.mp h
    unfold Itanium.layFields at fields
    rw [LayoutM.eval_foldlM] at fields
    obtain ⟨index, bound, here⟩ := List.getElem_of_mem member
    have entry : (field, index) ∈ (s.tree.record r).fields.zipIdx :=
      List.mk_mem_zipIdx_iff_getElem?.mpr (List.getElem?_eq_some_iff.mpr ⟨bound, here⟩)
    obtain ⟨before, after, step⟩ := foldlM_each fields (field, index) entry
    obtain ⟨depth', less, found⟩ := Itanium.layAnyField_restsOn names step
    exact ⟨depth', less.le, found⟩

/-- Greater depths know more. -/
theorem Setting.known_le (s : Setting) {depth deeper : Nat} (le : depth ≤ deeper) :
    (s.known depth).Within (s.known deeper) := by
  induction le with
  | refl => exact ⟨fun _ _ => id, fun _ _ => id⟩
  | step _ ih =>
    have next := s.known_succ
    exact ⟨fun r layout h => (next _).record r layout (ih.record r layout h),
      fun type layout h => (next _).type type layout (ih.type type layout h)⟩

theorem Setting.known_grounded (itanium : s.usesMicrosoftLayout = false) (depth : Nat) :
    ∀ {r layout}, (s.known depth).record r = .ok layout → Grounded s.Holds r := by
  induction depth using Nat.strongRecOn with
  | ind depth ih =>
    intro r layout h
    obtain _ | depth := depth
    · cases h
    refine .intro fun held holds => ?_
    have rules := (RecordLayout.ofRecord_itanium itanium h).2
    obtain ⟨depth', less, _, found⟩ := Itanium.layout_restsOn rules holds
    exact ih depth' (by omega) found

theorem Setting.known_knows (itanium : s.usesMicrosoftLayout = false) (depth : Nat) :
    s.Knows (s.known depth) where
  record := s.known_record
  type := s.known_type
  held {r _ held} h holds := by
    obtain _ | depth := depth
    · cases h
    have rules := (RecordLayout.ofRecord_itanium itanium h).2
    obtain ⟨depth', less, layout, found⟩ := Itanium.layout_restsOn rules holds
    exact ⟨layout, (s.known_le (Nat.le_succ_of_le less)).record held layout found⟩
  grounded := known_grounded itanium depth

/-- A class as it is declared, without any attributes if none are given. -/
def Record.ofClass (name : String) (fields : List Field) (bases : List Base)
    (methods : List MethodId) (attributes : RecordAttributes := {}) : Record where
  name := some name
  kind := .struct
  typeId := ⟨0⟩
  definition := some { fields, attributes, asClass := some { bases, methods } }

/-- A plain record as it is declared. -/
def Record.ofFields (name : String) (fields : List Field) (kind : RecordKind := .struct)
    (attributes : RecordAttributes := {}) : Record where
  name := some name
  kind := kind
  typeId := ⟨0⟩
  definition := some { fields, attributes }

end ObjectLayout
