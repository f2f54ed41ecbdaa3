import Mathlib.Algebra.BigOperators.Group.List.Basic
import ObjectLayout.Proofs.Itanium.Primary

/-! What the layout of a record promises to whatever holds the record: how far its parts reach, which
bases have offsets, and where data may lie. The widths of types come from the layouts of the records
inside them. -/
namespace ObjectLayout

namespace Known

variable (known : Known) (r : RecordId)

def classLayout? : Option ClassLayout := (known.record r).toOption.bind (·.asClass)

def size : Nat := (known.record r).toOption.elim 0 (·.size)

def nonVirtualSize : Nat := (known.classLayout? r).elim 0 (·.nonVirtualSize)

def nonVirtualAlignment : Nat := (known.classLayout? r).elim 0 (·.nonVirtualAlignment)

def baseOffset? (b : RecordId) : Option Nat := (known.classLayout? r).bind (·.baseOffsets.find? b)

def virtualBaseOffset? (v : RecordId) : Option Nat :=
  ((known.classLayout? r).bind (·.virtualBaseSlots.find? v)).map (·.offset)

def fieldOffset? (index : Nat) : Option Nat :=
  (known.record r).toOption.bind (·.fieldOffsets[index]?)

variable {known r} {layout : RecordLayout} {part : ClassLayout}

theorem size_eq (laid : known.record r = .ok layout) : known.size r = layout.size := by
  simp [size, laid, Except.toOption]

theorem classLayout?_eq (laid : known.record r = .ok layout) :
    known.classLayout? r = layout.asClass := by
  simp [classLayout?, laid, Except.toOption]

theorem fieldOffset?_eq (laid : known.record r = .ok layout) (index : Nat) :
    known.fieldOffset? r index = layout.fieldOffsets[index]? := by
  simp [fieldOffset?, laid, Except.toOption]

theorem baseOffset_eq (laid : known.record r = .ok layout) {b : RecordId} {offset : Nat}
    (found : known.baseOffset? r b = some offset) : layout.baseOffset b = .ok offset := by
  rw [baseOffset?, classLayout?_eq laid] at found
  obtain ⟨part, asClass, found⟩ := Option.bind_eq_some_iff.mp found
  simp only [RecordLayout.baseOffset, RecordLayout.classLayout, asClass, bind, Except.bind, found]
  rfl

theorem virtualBaseOffset_eq (laid : known.record r = .ok layout) {v : RecordId} {offset : Nat}
    (found : known.virtualBaseOffset? r v = some offset) :
    layout.virtualBaseOffset v = .ok offset := by
  rw [virtualBaseOffset?, classLayout?_eq laid] at found
  obtain ⟨slot, listed, rfl⟩ := Option.map_eq_some_iff.mp found
  obtain ⟨part, asClass, listed⟩ := Option.bind_eq_some_iff.mp listed
  simp only [RecordLayout.virtualBaseOffset, RecordLayout.virtualBaseSlot,
    RecordLayout.classLayout, asClass, bind, Except.bind, listed]
  rfl

end Known

section Widths

/-- The width that a field of a type takes up. -/
def Setting.width (s : Setting) (known : Known) (type : Ty) : Checked Nat :=
  match type.canonical with
  | .incompleteArray _ _ => .ok 0
  | .lvalueReference .. | .rvalueReference .. => .ok s.target.pointerWidth
  | _ => (known.type type).map (·.width)

/-- A field of this type holds the `k`-th of the records of class `m`; a record counts as an array
of one. -/
def Ty.Contains (type : Ty) (k : Nat) (m : RecordId) : Prop :=
  type.constantArrayRecord? = some m ∧ k < type.constantLengths.prod

variable {s : Setting} {known : Known} {type : Ty} {m : RecordId}

theorem Itanium.fieldExtent_width {f : Itanium.Frame} {extent : Bytes × Bytes}
    (h : (Itanium.fieldExtent f type).eval known = .ok extent) :
    f.setting.width known type = .ok extent.1 := by
  unfold Itanium.fieldExtent at h
  unfold Setting.width
  generalize type.canonical = canonical at h ⊢
  split at h
  · obtain ⟨_, _, h⟩ := LayoutM.eval_bind_eq_ok.mp h
    cases h
    rfl
  · cases h
    rfl
  · cases h
    rfl
  · obtain ⟨layout, asked, h⟩ := LayoutM.eval_bind_eq_ok.mp h
    rw [LayoutM.eval_typeLayoutOf] at asked
    cases h
    simp only [asked]
    rfl

/-- Wherever a record is found in a type it is the record at the bottom of the type. -/
theorem Ty.baseElement_of_constantArrayRecord? (names : type.constantArrayRecord? = some m) :
    type.baseElement.asRecord? = some m := by
  fun_induction Ty.constantArrayRecord? type <;> simp_all [Ty.baseElement, Ty.asRecord?]

theorem Ty.Contains.holds {r : RecordId} {field : Field} {k : Nat}
    (member : field ∈ (s.tree.record r).fields) (h : field.type.Contains k m) : s.Holds r m :=
  .of_field member (Ty.baseElement_of_constantArrayRecord? h.1)

theorem Ty.constantArrayRecord?_canonical (type : Ty) :
    type.canonical.constantArrayRecord? = type.constantArrayRecord? := by
  fun_induction Ty.canonical type <;> simp_all [Ty.constantArrayRecord?]

/-- A record type is the one-element case of an array of records. -/
theorem Ty.asRecord?_eq_some : type.asRecord? = some m ↔
    type.constantArrayRecord? = some m ∧ type.constantLengths = [] := by
  fun_induction Ty.asRecord? type with
  | case1 _ _ _ _ _ ih => simp only [Ty.constantArrayRecord?, Ty.constantLengths, ih]
  | case2 _ _ ih => simp only [Ty.constantArrayRecord?, Ty.constantLengths, ih]
  | case3 => simp [Ty.constantArrayRecord?, Ty.constantLengths]
  | case4 type noTypedef noElaborated noRecord =>
    cases type with
    | typedef => exact absurd rfl (noTypedef _ _ _ _ _)
    | elaborated => exact absurd rfl (noElaborated _ _)
    | record => exact absurd rfl (noRecord _ _)
    | _ => simp [Ty.constantArrayRecord?, Ty.constantLengths]

/-- A field of a record type holds just one record. -/
theorem Ty.contains_iff_of_asRecord? (names : type.asRecord? = some m) (k : Nat) (m' : RecordId) :
    type.Contains k m' ↔ k = 0 ∧ m' = m := by
  obtain ⟨record, lengths⟩ := Ty.asRecord?_eq_some.mp names
  simp only [Ty.Contains, record, lengths, List.prod_nil, Option.some.injEq, Nat.lt_one_iff]
  constructor
  · rintro ⟨same, zero⟩
    exact ⟨zero, same.symm⟩
  · rintro ⟨zero, same⟩
    exact ⟨same.symm, zero⟩

/-- An array of records is as wide as its elements together. -/
theorem Setting.Knows.width_of_records (knows : s.Knows known) {layout : TypeLayout}
    (laid : known.type type = .ok layout) (names : type.constantArrayRecord? = some m) :
    ∃ inner, known.record m = .ok inner ∧
      layout.width = type.constantLengths.prod * inner.size := by
  have rules := knows.type laid
  fun_induction Ty.constantArrayRecord? type generalizing layout with
  | case1 id declaration name aliased alignment ih =>
    obtain ⟨deeper, asked, rules⟩ := LayoutM.eval_bind_eq_ok.mp rules
    rw [LayoutM.eval_typeLayoutOf] at asked
    cases rules
    obtain ⟨inner, found, same⟩ := ih asked names (knows.type asked)
    refine ⟨inner, found, ?_⟩
    cases alignment <;> exact same
  | case2 id deeper ih =>
    change (LayoutM.typeLayoutOf deeper).eval known = _ at rules
    rw [LayoutM.eval_typeLayoutOf] at rules
    exact ih rules names (knows.type rules)
  | case3 id element count ih =>
    obtain ⟨elementLayout, asked, rules⟩ := LayoutM.eval_bind_eq_ok.mp rules
    rw [LayoutM.eval_typeLayoutOf] at asked
    obtain ⟨width, product, rules⟩ := LayoutM.eval_bind_eq_ok.mp rules
    rw [LayoutM.eval_lift, Quantity.mul_eq_ok_iff] at product
    cases rules
    obtain ⟨inner, found, same⟩ := ih asked names (knows.type asked)
    refine ⟨inner, found, ?_⟩
    calc width = elementLayout.width * count := product.1
      _ = count * (element.constantLengths.prod * inner.size) := by rw [same, Nat.mul_comm]
      _ = (Ty.array id element count).constantLengths.prod * inner.size := by
        rw [Ty.constantLengths, List.prod_cons, Nat.mul_assoc]
  | case4 id named =>
    cases names
    obtain ⟨inner, asked, rules⟩ := LayoutM.eval_bind_eq_ok.mp rules
    rw [LayoutM.eval_layoutOf] at asked
    cases rules
    exact ⟨inner, asked, by simp [TypeLayout.ofRecord, Ty.constantLengths]⟩
  | case5 => cases names

/-- The records in a field lie inside it. -/
theorem Setting.Knows.contained_le (knows : s.Knows known) {width : Nat} {k : Nat}
    (wide : s.width known type = .ok width) (h : type.Contains k m) :
    k * known.size m + known.size m ≤ width := by
  obtain ⟨names, less⟩ := h
  have canonical := type.constantArrayRecord?_canonical.trans names
  have laid : (known.type type).map (·.width) = .ok width := by
    unfold Setting.width at wide
    split at wide
    · rename_i same
      rw [same] at canonical
      cases canonical
    · rename_i same
      rw [same] at canonical
      cases canonical
    · rename_i same
      rw [same] at canonical
      cases canonical
    · exact wide
  obtain ⟨layout, found, rfl⟩ : ∃ layout, known.type type = .ok layout ∧ layout.width = width := by
    cases found : known.type type with
    | ok layout =>
      rw [found] at laid
      exact ⟨layout, rfl, Except.ok.inj laid⟩
    | error fault =>
      rw [found] at laid
      cases laid
  obtain ⟨inner, record, same⟩ := knows.width_of_records found names
  rw [Known.size_eq record, same, ← Nat.succ_mul]
  exact Nat.mul_le_mul_right _ less

end Widths

/-- The room that a record takes up as a base. -/
def Setting.span (s : Setting) (known : Known) (r : RecordId) : Nat :=
  if s.tree.isEmptyClass r then known.size r else known.nonVirtualSize r

/-- What can be relied on of a record that is laid out. -/
structure Sound (s : Setting) (known : Known) (r : RecordId) : Prop where
  laid : ∃ layout, known.record r = .ok layout ∧
    layout.asClass.isSome = (s.tree.record r).isClass ∧
    layout.fieldOffsets.length = (s.tree.record r).fields.length
  fields : ∀ index field offset, (s.tree.record r).fields[index]? = some field →
    field.bitWidth = none → known.fieldOffset? r index = some offset →
    ∃ width, s.width known field.type = .ok width ∧ 8 ∣ offset ∧
      offset + 8 * width ≤ 8 * known.size r ∧
      ((s.tree.record r).isClass = true → offset + 8 * width ≤ 8 * known.nonVirtualSize r)
  nonVirtual : (s.tree.record r).isClass = true → known.nonVirtualSize r ≤ known.size r
  aligned : (s.tree.record r).isClass = true →
    Quantity.isPowerOfTwo (known.nonVirtualAlignment r) = true
  bases : ∀ b, (known.baseOffset? r b).isSome ↔ s.tree.InheritsPlainly r b
  virtualBases : ∀ v, (known.virtualBaseOffset? r v).isSome ↔ s.tree.HasVirtualBase r v
  primary : ∀ v, known.virtualPrimary? r = some v →
    s.tree.HasVirtualBase r v ∧ Itanium.NearlyEmpty s known v
  base_inside : ∀ b offset, known.baseOffset? r b = some offset →
    (s.tree.record b).isClass = true ∧ offset + s.span known b ≤ known.nonVirtualSize r
  virtualBase_inside : ∀ v offset, known.virtualBaseOffset? r v = some offset →
    (s.tree.record v).isClass = true ∧ offset + s.span known v ≤ known.size r
  dynamic : s.tree.isDynamic r = true → s.target.pointerWidth ≤ known.nonVirtualSize r
  empty : s.options.cplusplus = true → s.tree.isEmptyClass r = true → 0 < known.size r
  largest : ∀ held layout inner, known.record r = .ok layout → layout.asClass.isSome →
    s.Holds r held → known.record held = .ok inner →
    EmptyMap.largestIn s held inner ≤ layout.largestEmptySubobject

/-- Everything that a class holds is sound. -/
def SoundBelow (s : Setting) (known : Known) (d : RecordId) : Prop :=
  ∀ r, Relation.TransGen s.Holds d r → Sound s known r

namespace SoundBelow

variable {s : Setting} {known : Known} {d r b v : RecordId}

theorem inherits (path : Relation.TransGen s.tree.Inherits d r) : Relation.TransGen s.Holds d r :=
  Relation.TransGen.mono (fun _ _ edge => Tree.Inherits.holds edge) _ _ path

theorem basesLaid (h : SoundBelow s known d) : Itanium.BasesLaid s known d := by
  intro b path
  obtain ⟨layout, laid, isClass, _⟩ := (h b (inherits path)).laid
  exact ⟨layout, laid, isClass⟩

theorem primariesInherited (h : SoundBelow s known d) : Itanium.PrimariesInherited s known d :=
  fun b v path names => ((h b (inherits path)).primary v names).1

end SoundBelow

end ObjectLayout
