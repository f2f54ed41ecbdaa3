import ObjectLayout.Proofs.Enclosure
import ObjectLayout.Proofs.Microsoft.Whole

/-! What a finished record holds is finished. Under both sets of rules the layout of a record rests on
those of its bases and of the records at the bottom of its fields; bit-fields have integer types, so
nothing hides behind them. -/
namespace ObjectLayout

variable {s : Setting} {r held : RecordId} {layout : RecordLayout} {depth : Nat}

section IntegerTypes

def Scalar.isInteger : Scalar → Bool
  | .bool | .plainChar | .wideChar | .char16 | .char32 | .integer .. | .int128 _ => true
  | .void | .float _ | .nullPointer => false

/-- Whether a type is an integer type or an enumeration, under whatever names. -/
def Ty.isInteger : Ty → Bool
  | .scalar _ named => named.isInteger
  | .enumeration _ _ _ underlying => underlying.isInteger
  | .openEnumeration .. => true
  | .typedef _ _ _ aliased _ => aliased.isInteger
  | .elaborated _ inner => inner.isInteger
  | _ => false

theorem Ty.enclosedRecord?_of_isInteger {type : Ty} (integer : type.isInteger = true) :
    type.enclosedRecord? = none := by
  fun_induction Ty.isInteger type <;> simp_all [Ty.enclosedRecord?]

def Record.HasIntegerBitFields (record : Record) : Prop :=
  ∀ field ∈ record.fields, field.bitWidth.isSome → field.type.isInteger = true

instance (record : Record) : Decidable record.HasIntegerBitFields :=
  inferInstanceAs (Decidable (∀ field ∈ record.fields, _))

def Setting.HasIntegerBitFields (s : Setting) : Prop := ∀ r, (s.tree.record r).HasIntegerBitFields

end IntegerTypes

namespace Setting.HasIntegerBitFields

variable (integer : s.HasIntegerBitFields)
include integer

/-- A field with a record at the bottom is stored. -/
theorem stored {field : Field} (member : field ∈ (s.tree.record r).fields)
    (names : field.type.baseElement.asRecord? = some held) : field.bitWidth = none := by
  by_contra wide
  have plain := integer r field member (Option.isSome_iff_ne_none.mpr wide)
  have encloses := Ty.enclosedRecord?_of_baseElement names
  simp [Ty.enclosedRecord?_of_isInteger plain] at encloses

/-- The layout of a record rests on what was known before of everything that the record holds. -/
theorem layout_restsOn (laid : (RecordLayout.ofRecord s r).eval (s.known depth) = .ok layout)
    (holds : s.Holds r held) :
    ∃ depth' ≤ depth, ∃ inner, (s.known depth').record held = .ok inner := by
  cases rules : s.usesMicrosoftLayout with
  | false => exact Itanium.layout_restsOn (RecordLayout.ofRecord_itanium rules laid).2 holds
  | true =>
    rcases List.mem_append.mp holds with inherited | contained
    · obtain ⟨base, member, rfl⟩ := List.mem_map.mp inherited
      obtain ⟨run, _⟩ := Microsoft.classRun rules (Tree.isClass_of_inherits ⟨base, member, rfl⟩) laid
      exact ⟨depth, le_rfl, run.once.bases.asked base member⟩
    · obtain ⟨field, member, names⟩ := List.mem_filterMap.mp contained
      have typed := Microsoft.exists_type rules laid member (integer.stored member names)
      obtain ⟨depth', less, found⟩ := TypeLayout.restsOn_record field.type names typed
      exact ⟨depth', less.le, found⟩

/-- By strong induction on the depth: what a record holds was known at a smaller one. -/
theorem known_grounded (depth : Nat) :
    ∀ {r layout}, (s.known depth).record r = .ok layout → Grounded s.Holds r := by
  induction depth using Nat.strongRecOn with
  | ind depth ih =>
    intro r layout laid
    obtain _ | depth := depth
    · cases laid
    apply Grounded.intro
    intro held holds
    obtain ⟨depth', le, _, found⟩ := integer.layout_restsOn laid holds
    exact ih depth' (Nat.lt_succ_of_le le) found

theorem known_knows (depth : Nat) : s.Knows (s.known depth) where
  record := s.known_record
  type := s.known_type
  held {r _ held} laid holds := by
    obtain _ | depth := depth
    · cases laid
    obtain ⟨depth', le, inner, found⟩ := integer.layout_restsOn laid holds
    exact ⟨inner, (s.known_le (Nat.le_succ_of_le le)).record held inner found⟩
  grounded := integer.known_grounded depth

end Setting.HasIntegerBitFields

/-- What is known, and the layout of one more record. -/
def Known.storing (known : Known) (r : RecordId) (layout : RecordLayout) : Known where
  record r' := if r' = r then .ok layout else known.record r'
  type := known.type

@[simp] theorem Known.storing_self (known : Known) :
    (known.storing r layout).record r = .ok layout := if_pos rfl

theorem Known.storing_of_ne (known : Known) {r' : RecordId} (other : r' ≠ r) :
    (known.storing r layout).record r' = known.record r' := if_neg other

namespace Setting.HasIntegerBitFields

variable (laid : (s.known (depth + 1)).record r = .ok layout)
include laid

theorem known_within_storing : (s.known depth).Within ((s.known depth).storing r layout) where
  record r' inner found := by
    by_cases same : r' = r
    · subst same
      have later := (s.known_succ depth).record r' inner found
      simp [Except.ok.inj (laid.symm.trans later)]
    · rwa [Known.storing_of_ne _ same]
  type _ _ := id

theorem storing_within_known : ((s.known depth).storing r layout).Within (s.known (depth + 1)) where
  record r' inner found := by
    by_cases same : r' = r
    · subst same
      simp only [Known.storing_self, Except.ok.injEq] at found
      exact found ▸ laid
    · rw [Known.storing_of_ne _ same] at found
      exact (s.known_succ depth).record r' inner found
  type := (s.known_succ depth).type

/-- A layout that has just been found rests on those known before, as they do on each other. -/
theorem knows_storing (integer : s.HasIntegerBitFields) :
    s.Knows ((s.known depth).storing r layout) where
  record {r' inner} found := by
    apply LayoutM.eval_mono (known_within_storing laid)
    by_cases same : r' = r
    · subst same
      simp only [Known.storing_self, Except.ok.injEq] at found
      exact found ▸ laid
    · rw [Known.storing_of_ne _ same] at found
      exact s.known_record found
  type found := LayoutM.eval_mono (known_within_storing laid) _ (s.known_type found)
  held {r' _ held} found holds := by
    have known : ∃ inner, (s.known depth).record held = .ok inner := by
      by_cases same : r' = r
      · subst same
        obtain ⟨depth', le, inner, found⟩ := integer.layout_restsOn laid holds
        exact ⟨inner, (s.known_le le).record held inner found⟩
      · rw [Known.storing_of_ne _ same] at found
        exact (integer.known_knows depth).held found holds
    obtain ⟨inner, known⟩ := known
    exact ⟨inner, (known_within_storing laid).record held inner known⟩
  grounded {r' _} found := by
    by_cases same : r' = r
    · subst same
      exact integer.known_grounded (depth + 1) laid
    · rw [Known.storing_of_ne _ same] at found
      exact integer.known_grounded depth found

end Setting.HasIntegerBitFields

end ObjectLayout
