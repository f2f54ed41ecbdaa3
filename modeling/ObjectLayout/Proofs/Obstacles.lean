import ObjectLayout.Proofs.Arithmetic
import ObjectLayout.Query

/-! What the check before an offset query finds. It looks at the type of each field of a record and goes
on below where the type names a record; it does not look into arrays, vectors, complex types and
enumerations for records without a layout. Where nothing hides there, a record that passes the check
encloses none but records that pass it. -/
namespace ObjectLayout

variable {s : Setting} {r m : RecordId} {field : Field} {type : Ty} {error : QueryError}

theorem Ty.isComplete_of_enclosed {tree : Tree} (free : type.isObstructed tree = false)
    (encloses : type.enclosedRecord? = some m) : (tree.record m).isComplete = true := by
  fun_induction Ty.isObstructed tree type <;> simp_all [Ty.enclosedRecord?]

theorem Ty.isInvalid_of_declaration? (names : type.declaration? = some (.record r)) :
    type.isInvalid s.tree = (s.tree.record r).isInvalid := by
  fun_induction Ty.declaration? type <;> simp_all [Ty.isInvalid]

theorem Ty.enclosedRecord?_of_asRecord? (names : type.asRecord? = some m) :
    type.enclosedRecord? = some m := by
  fun_induction Ty.asRecord? type <;> simp_all [Ty.enclosedRecord?]

/-- One of the failures that a check of types and records ends with. -/
def QueryError.IsObstacle (error : QueryError) : Prop :=
  error = .invalid ∨ error = .incomplete ∨ error = .dependent

/-- The check before an offset query accepts a record. -/
structure Setting.Accepts (s : Setting) (r : RecordId) : Prop where
  complete : (s.tree.record r).isComplete = true
  fields : Query.fieldObstacle? s r = none

namespace Query

theorem obstacle?_isObstacle (found : obstacle? s type = some error) : error.IsObstacle := by
  unfold obstacle? at found
  split at found
  · cases found
    exact .inl rfl
  · split at found
    · cases found
      exact .inr (.inl rfl)
    · split at found <;> cases found
      exact .inr (.inr rfl)

theorem obstacle?_eq_none_iff : obstacle? s type = none ↔ type.isInvalid s.tree = false ∧
    type.isIncomplete s.tree = false ∧ type.isDependent s.tree = false := by
  unfold obstacle?
  cases type.isInvalid s.tree <;> cases type.isIncomplete s.tree <;>
    cases type.isDependent s.tree <;> simp

theorem fieldObstacle?_isObstacle (found : fieldObstacle? s r = some error) : error.IsObstacle := by
  have each : ∀ r, ∀ error ∈ fieldObstacle? s r, error.IsObstacle := by
    refine descendWithin_keeps (K := fun found : Option QueryError =>
      ∀ error ∈ found, error.IsObstacle) ?_ ?_ _
    · rintro _ ⟨⟩
    intro check below r error found
    obtain ⟨field, _, found⟩ := List.exists_of_findSome?_eq_some found
    rcases Option.or_eq_some_iff.mp found with own | ⟨_, deeper⟩
    · exact obstacle?_isObstacle own
    · obtain ⟨m, _, found⟩ := Option.bind_eq_some_iff.mp deeper
      exact below m error found
  exact each r error found

theorem fieldObstacle?_eq (grounded : Grounded s.tree.Encloses r) :
    fieldObstacle? s r = (s.tree.record r).fields.findSome? fun field =>
      (obstacle? s field.type).or (field.type.asRecord?.bind (fieldObstacle? s)) := by
  refine s.tree.descend_eq (fun _ _ edge => edge.declared) (fun f g r same => ?_) grounded
  have mapped (check : Field → Option QueryError) : (s.tree.record r).fields.findSome? check =
      ((s.tree.record r).fields.map check).findSome? id := by rw [List.findSome?_map, Function.id_comp]
  rw [mapped, mapped]
  refine congrArg _ (List.map_congr_left fun field member => ?_)
  cases names : field.type.asRecord? with
  | none => rfl
  | some m =>
    rw [Option.bind_some, Option.bind_some,
      same m (.of_field member (Ty.enclosedRecord?_of_asRecord? names))]

theorem fieldParent_accepts (accepted : fieldParent s type = .ok r) :
    type.declaration? = some (.record r) ∧ s.Accepts r := by
  unfold fieldParent at accepted
  split at accepted
  · cases accepted
  rename_i valid
  split at accepted
  case h_2 => cases accepted
  case h_1 m names =>
    split at accepted
    · cases accepted
    rename_i isDefined
    split at accepted
    · cases accepted
    rename_i plain
    split at accepted
    · cases accepted
    rename_i none
    cases accepted
    rw [Ty.isInvalid_of_declaration? names] at valid
    exact ⟨names, by simp_all [Record.isComplete], none⟩

theorem fieldParent_isObstacle (failed : fieldParent s type = .error error) : error.IsObstacle := by
  unfold fieldParent at failed
  split at failed
  · cases failed
    exact .inl rfl
  · split at failed
    · split at failed
      · cases failed
        exact .inr (.inl rfl)
      · split at failed
        · cases failed
          exact .inr (.inr rfl)
        · split at failed <;> cases failed
          exact fieldObstacle?_isObstacle ‹_›
    · cases failed
      exact .inl rfl

end Query

/-- What has no layout below the types of a record's fields shows in the check: nothing hides in an
array, a vector, a complex type or an enumeration. -/
structure Setting.ShowsObstacles (s : Setting) (record : Record) : Prop where
  type : ∀ field ∈ record.fields, Query.obstacle? s field.type = none →
    field.type.isObstructed s.tree = false
  record : ∀ field ∈ record.fields, ∀ m ∈ field.type.enclosedRecord?,
    field.type.asRecord? = some m ∨ Query.fieldObstacle? s m = none

theorem Setting.showsObstacles_iff {record : Record} : s.ShowsObstacles record ↔
    (∀ field ∈ record.fields, Query.obstacle? s field.type = none →
      field.type.isObstructed s.tree = false) ∧
    ∀ field ∈ record.fields, ∀ m ∈ field.type.enclosedRecord?,
      field.type.asRecord? = some m ∨ Query.fieldObstacle? s m = none :=
  ⟨fun h => ⟨h.type, h.record⟩, fun ⟨h₁, h₂⟩ => ⟨h₁, h₂⟩⟩

instance (s : Setting) (record : Record) : Decidable (s.ShowsObstacles record) :=
  decidable_of_iff _ Setting.showsObstacles_iff.symm

namespace Setting.Accepts

variable (accepts : s.Accepts r) (grounded : Grounded s.tree.Encloses r)
include accepts grounded

theorem checked (member : field ∈ (s.tree.record r).fields) : Query.obstacle? s field.type = none ∧
    ∀ m, field.type.asRecord? = some m → Query.fieldObstacle? s m = none := by
  have each := accepts.fields
  rw [Query.fieldObstacle?_eq grounded, List.findSome?_eq_none_iff] at each
  have none := each field member
  rw [Option.or_eq_none_iff] at none
  refine ⟨none.1, fun m names => ?_⟩
  have deeper := none.2
  rwa [names, Option.bind_some] at deeper

variable (shows : s.ShowsObstacles (s.tree.record r))
include shows

theorem free (member : field ∈ (s.tree.record r).fields) : field.type.isObstructed s.tree = false :=
  shows.type field member (accepts.checked grounded member).1

/-- The step down: what an accepted record encloses is accepted. -/
theorem enclosed (bases : (s.tree.record r).bases = []) (edge : s.tree.Encloses r m) : s.Accepts m := by
  rcases edge with inherits | ⟨field, member, encloses⟩
  · exact absurd inherits (Tree.not_inherits_of_noBases bases)
  · refine ⟨Ty.isComplete_of_enclosed (accepts.free grounded shows member) encloses, ?_⟩
    rcases shows.record field member m encloses with names | none
    · exact (accepts.checked grounded member).2 m names
    · exact none

end Setting.Accepts

/-- All that could stop the layout of a record shows in the check. Two more things could stop it under the
Itanium rules, which take the size of a scalar or a boundary for bit-fields for an alignment. -/
structure Setting.ShowsWithin (s : Setting) (r : RecordId) : Prop where
  obstacles : ∀ m, Relation.ReflTransGen s.tree.Encloses r m → s.ShowsObstacles (s.tree.record m)
  scalars : s.usesMicrosoftLayout = false → ∀ m, Relation.ReflTransGen s.tree.Encloses r m →
    ∀ field ∈ (s.tree.record m).fields,
      Quantity.IsPowerOrZero (Itanium.fieldExtent.scalarFloor (.ofRecord s m none) field.type)
  boundary : s.usesMicrosoftLayout = false →
    Quantity.IsPowerOrZero (Bits.toBytesFloor s.target.bitFieldRules.zeroLengthBoundary)

theorem Setting.ShowsWithin.lower (h : s.ShowsWithin r) (edge : s.tree.Encloses r m) :
    s.ShowsWithin m where
  obstacles m' path := h.obstacles m' (.head edge path)
  scalars itanium m' path := h.scalars itanium m' (.head edge path)
  boundary := h.boundary

end ObjectLayout
