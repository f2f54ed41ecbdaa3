import ObjectLayout.Proofs.WellFormed

/-! The alignment of a type against what a field of the type asks for. Nothing but `ms_struct` lets a
field ask for more than its type does: a scalar then asks for its own size, which need not be a power
of two. -/
namespace ObjectLayout

open Quantity (isPowerOfTwo)

variable {s : Setting} {known : Known} {type : Ty} {r m : RecordId} {depth : Nat}

/-- Under the Itanium rules whatever is finished is well-formed, no matter what is asked for. -/
theorem Setting.IsItanium.wellFormed (itanium : s.IsItanium) (depth : Nat) :
    (s.known depth).WellFormed s := by
  induction depth with
  | zero => exact ⟨nofun, nofun⟩
  | succ depth ih =>
    constructor
    case record =>
      exact fun r layout laid => (s.known_knows itanium.rules (depth + 1)).wellFormed itanium laid
    case type =>
      intro type layout keeps laid
      exact ((TypeLayout.ofTy_ends ih keeps).value laid).mono (s.known_succ depth).record

/-- What is known of a type without its outer names is known of the type a little deeper. -/
theorem Setting.exists_type_of_canonical {layout : TypeLayout} (keeps : type.keepsAlignment = true)
    (laid : (s.known depth).type type.canonical = .ok layout) :
    ∃ deeper, (s.known deeper).type type = .ok layout := by
  fun_induction Ty.canonical type with
  | case1 id declaration name aliased alignment ih =>
    obtain ⟨rfl, keeps⟩ : alignment = none ∧ aliased.keepsAlignment = true := by
      simpa [Ty.keepsAlignment] using keeps
    obtain ⟨deeper, found⟩ := ih keeps laid
    refine ⟨deeper + 1, LayoutM.eval_bind_eq_ok.mpr ⟨layout, ?_, rfl⟩⟩
    rwa [LayoutM.eval_typeLayoutOf]
  | case2 id inner ih =>
    obtain ⟨deeper, found⟩ := ih keeps laid
    refine ⟨deeper + 1, ?_⟩
    change (LayoutM.typeLayoutOf inner).eval (s.known deeper) = _
    rwa [LayoutM.eval_typeLayoutOf]
  | case3 => exact ⟨depth, laid⟩

namespace Itanium

variable {f : Frame} {layout : TypeLayout} {size natural : Nat}

/-- The size of a scalar, which counts as its alignment under `ms_struct`, is a multiple of the
alignment of a type with this scalar at the bottom. -/
theorem alignment_dvd_scalarFloor (knows : f.setting.Knows known) (keeps : type.keepsAlignment = true)
    (laid : known.type type = .ok layout) :
    fieldExtent.scalarFloor f type = 0 ∨ layout.alignment ∣ fieldExtent.scalarFloor f type := by
  unfold fieldExtent.scalarFloor
  split
  · exact .inl rfl
  split
  · rename_i id scalar bottom
    right
    obtain ⟨base, rules, same⟩ := Known.alignment_of_baseElement knows.type keeps laid
    rw [bottom] at rules
    cases rules
    have wellFormed : (f.setting.target.scalarLayout scalar).WellFormed f.setting known
        (.scalar id scalar) := f.setting.target.scalarLayout_wellFormed scalar
    rw [same]
    exact wellFormed.whole fun _ _ none => nomatch none
  · exact .inl rfl

/-- The type of a field has a layout, and the field asks for what the type does or for the size of a
scalar. -/
theorem fieldExtent_type (keeps : type.keepsAlignment = true)
    (extent : (fieldExtent f type).eval (f.setting.known depth) = .ok (size, natural)) :
    ∃ deeper layout, (f.setting.known deeper).type type = .ok layout ∧
      (natural = layout.alignment ∨
        natural = max layout.alignment (fieldExtent.scalarFloor f type)) := by
  unfold fieldExtent at extent
  split at extent
  · rename_i id element canonical
    obtain ⟨inner, asked, same⟩ := LayoutM.eval_bind_eq_ok.mp extent
    cases same
    have laid : (f.setting.known (depth + 1)).type type.canonical = .ok { inner with width := 0 } := by
      rw [canonical]
      exact LayoutM.eval_bind_eq_ok.mpr ⟨inner, asked, rfl⟩
    obtain ⟨deeper, found⟩ := Setting.exists_type_of_canonical keeps laid
    exact ⟨deeper, _, found, .inl rfl⟩
  · rename_i id referee canonical
    cases extent
    have laid : (f.setting.known 1).type type.canonical = .ok f.setting.target.pointerLayout := by
      rw [canonical]
      rfl
    obtain ⟨deeper, found⟩ := Setting.exists_type_of_canonical keeps laid
    exact ⟨deeper, _, found, .inl rfl⟩
  · rename_i id referee canonical
    cases extent
    have laid : (f.setting.known 1).type type.canonical = .ok f.setting.target.pointerLayout := by
      rw [canonical]
      rfl
    obtain ⟨deeper, found⟩ := Setting.exists_type_of_canonical keeps laid
    exact ⟨deeper, _, found, .inl rfl⟩
  · obtain ⟨layout, asked, same⟩ := LayoutM.eval_bind_eq_ok.mp extent
    cases same
    rw [LayoutM.eval_typeLayoutOf] at asked
    exact ⟨depth, layout, asked, .inr rfl⟩

end Itanium

end ObjectLayout
