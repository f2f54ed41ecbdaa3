import ObjectLayout.Proofs.WellFormed

/-! Powers of two in a record and in what it encloses. As long as nothing else is asked for there, the
Microsoft rules arrive at powers of two, whatever other records ask for. Here a typedef may ask for an
alignment too. -/
namespace ObjectLayout

open Quantity (isPowerOfTwo)

/-- The typedefs that the layout of a type goes through ask for powers of two, if for anything. -/
def Ty.asksForPowers : Ty → Bool
  | .typedef _ _ _ aliased alignment => alignment.all isPowerOfTwo && aliased.asksForPowers
  | .elaborated _ inner | .array _ inner _ | .incompleteArray _ inner | .variableArray _ inner
  | .vector _ inner _ | .complex _ inner | .enumeration _ _ _ inner => inner.asksForPowers
  | _ => true

theorem Ty.asksForPowers_of_keepsAlignment {type : Ty} (keeps : type.keepsAlignment = true) :
    type.asksForPowers = true := by
  fun_induction Ty.keepsAlignment type <;> simp_all [Ty.asksForPowers]

/-- Every alignment that a record asks for is a power of two, also where a typedef asks for it. -/
structure Record.HasPowerAttributes (record : Record) : Prop where
  alignment : ∀ n ∈ record.attributes.alignment, isPowerOfTwo n = true
  pack : ∀ n ∈ record.attributes.maxFieldAlignment, isPowerOfTwo n = true
  field : ∀ field ∈ record.fields, ∀ n ∈ field.alignment, isPowerOfTwo n = true
  typedef : ∀ field ∈ record.fields, field.type.asksForPowers = true

theorem Record.hasPowerAttributes_iff {record : Record} : record.HasPowerAttributes ↔
    (∀ n ∈ record.attributes.alignment, isPowerOfTwo n = true) ∧
    (∀ n ∈ record.attributes.maxFieldAlignment, isPowerOfTwo n = true) ∧
    (∀ field ∈ record.fields, ∀ n ∈ field.alignment, isPowerOfTwo n = true) ∧
    ∀ field ∈ record.fields, field.type.asksForPowers = true :=
  ⟨fun h => ⟨h.alignment, h.pack, h.field, h.typedef⟩, fun ⟨h₁, h₂, h₃, h₄⟩ => ⟨h₁, h₂, h₃, h₄⟩⟩

instance (record : Record) : Decidable record.HasPowerAttributes :=
  decidable_of_iff _ Record.hasPowerAttributes_iff.symm

/-- A record and everything that it encloses ask for powers of two. -/
structure Setting.PowersWithin (s : Setting) (r : RecordId) : Prop where
  record : ∀ m, Relation.ReflTransGen s.tree.Encloses r m →
    (s.tree.record m).HasPowerAttributes
  packStruct : ∀ n ∈ s.options.packStruct, isPowerOfTwo n = true

variable {s : Setting} {known : Known} {r m : RecordId} {depth : Nat}

theorem Setting.PowersWithin.lower (h : s.PowersWithin r)
    (path : Relation.ReflTransGen s.tree.Encloses r m) : s.PowersWithin m :=
  ⟨fun m' further => h.record m' (path.trans further), h.packStruct⟩

/-- The alignment of a type is a power of two if those of its parts are: one case for every way to
build a type. -/
theorem TypeLayout.ofTy_power {type : Ty} (powers : type.asksForPowers = true)
    (record : ∀ m layout, type.enclosedRecord? = some m → known.record m = .ok layout →
      isPowerOfTwo layout.alignment = true)
    (inner : ∀ part layout, part.asksForPowers = true →
      part.enclosedRecord? = type.enclosedRecord? → known.type part = .ok layout →
      isPowerOfTwo layout.alignment = true) :
    Ends (fun _ => True) ((ofTy s type).eval known) fun layout =>
      isPowerOfTwo layout.alignment = true := by
  have part (part : Ty) (powers : part.asksForPowers = true)
      (same : part.enclosedRecord? = type.enclosedRecord?) :
      Ends (fun _ => True) ((LayoutM.typeLayoutOf part).eval known) fun layout =>
        isPowerOfTwo layout.alignment = true := by
    rw [LayoutM.eval_typeLayoutOf]
    exact Ends.any.imp fun layout laid => inner part layout powers same laid
  unfold ofTy
  cases type with
  | scalar id scalar =>
    have layout : (s.target.scalarLayout scalar).WellFormed s known (.scalar id scalar) :=
      s.target.scalarLayout_wellFormed scalar
    exact layout.power
  | pointer | blockPointer | lvalueReference | rvalueReference =>
    exact s.target.pointerWidth_isPowerOfTwo
  | memberPointer id pointee owner =>
    rw [LayoutM.eval_lift]
    apply (memberPointer_ends s pointee owner).imp
    exact fun layout (h : layout.WellFormed s known (.memberPointer id pointee owner)) => h.power
  | array id element count =>
    apply LayoutM.ends_bind (part element powers rfl)
    intro layout power
    exact LayoutM.ends_lift_bind Ends.any fun _ _ => power
  | complex id element =>
    apply LayoutM.ends_bind (part element powers rfl)
    intro layout power
    exact LayoutM.ends_lift_bind Ends.any fun _ _ => power
  | incompleteArray id element | variableArray id element =>
    exact LayoutM.ends_bind (part element powers rfl) fun layout power => power
  | vector id element count =>
    apply LayoutM.ends_bind (part element powers rfl)
    intro layout _
    rw [LayoutM.eval_lift]
    apply (vector_ends layout count).imp
    exact fun layout (h : layout.WellFormed s known (.vector id element count)) => h.power
  | record id r =>
    apply LayoutM.ends_bind Ends.any
    intro layout laid
    rw [LayoutM.eval_layoutOf] at laid
    exact record r layout rfl laid
  | enumeration id declaration name underlying => exact part underlying powers rfl
  | typedef id declaration name aliased alignment =>
    simp only [Ty.asksForPowers, Bool.and_eq_true] at powers
    apply LayoutM.ends_bind (part aliased powers.2 rfl)
    intro layout power
    cases alignment with
    | none => exact power
    | some alignment =>
      have asked : isPowerOfTwo alignment = true := by simpa using powers.1
      exact asked
  | elaborated id aliased => exact part aliased powers rfl
  | function => exact Quantity.isPowerOfTwo_pow 2
  | openEnumeration | dependentArray | templateParam | unresolved => exact trivial

namespace Microsoft

/-- What holds of what a record encloses is enough for its own layout. -/
theorem hasPowers_of_enclosed (h : s.PowersWithin r)
    (record : ∀ m layout, s.PowersWithin m → known.record m = .ok layout → layout.WellFormed s m)
    (type : ∀ type layout, type.asksForPowers = true →
      (∀ m, type.enclosedRecord? = some m → s.PowersWithin m) → known.type type = .ok layout →
      isPowerOfTwo layout.alignment = true) : (Frame.ofRecord s r).HasPowers known := by
  have own := h.record r .refl
  constructor
  case declared => exact own.alignment
  case field => exact own.field
  case packed => exact maxFieldAlignment_power own.pack h.packStruct
  case enclosed =>
    intro m layout path laid
    exact record m layout (h.lower path.to_reflTransGen) laid
  case type =>
    intro field member layout laid
    apply type field.type layout (own.typedef field member) _ laid
    intro m encloses
    exact h.lower (.single (.of_field member encloses))

/-- By induction on the depth, for records and types at once. -/
theorem known_powers (microsoft : s.usesMicrosoftLayout = true) (depth : Nat) :
    (∀ r layout, s.PowersWithin r → (s.known depth).record r = .ok layout →
      layout.WellFormed s r) ∧
    ∀ type layout, type.asksForPowers = true →
      (∀ m, type.enclosedRecord? = some m → s.PowersWithin m) →
      (s.known depth).type type = .ok layout → isPowerOfTwo layout.alignment = true := by
  induction depth with
  | zero => exact ⟨nofun, nofun⟩
  | succ depth ih =>
    obtain ⟨record, type⟩ := ih
    constructor
    · intro r layout h laid
      exact (hasPowers_of_enclosed h record type).wellFormed microsoft laid
    · intro ty layout powers within laid
      apply (TypeLayout.ofTy_power powers _ _).value laid
      · intro m layout encloses laid
        exact (record m layout (within m encloses) laid).power
      · intro part layout powers same laid
        exact type part layout powers (fun m encloses => within m (same ▸ encloses)) laid

section Within

variable (microsoft : s.usesMicrosoftLayout = true) (h : s.PowersWithin r)
include microsoft h

theorem hasPowers : (Frame.ofRecord s r).HasPowers (s.known depth) :=
  hasPowers_of_enclosed h (known_powers microsoft depth).1 (known_powers microsoft depth).2

theorem wellFormed_of_powers {layout : RecordLayout} (laid : (s.known depth).record r = .ok layout) :
    layout.WellFormed s r := (known_powers microsoft depth).1 r layout h laid

end Within

end Microsoft

end ObjectLayout
