import ObjectLayout.Proofs.Itanium.BareClass
import ObjectLayout.Proofs.Microsoft.Whole

/-! Plain records and classes that declare no more than they do. Neither engine makes a difference
between them, except that in C++ a plain record is never of size zero. -/
namespace ObjectLayout

namespace Microsoft

open LayoutM (eval_bind_eq_ok)

variable {f : Frame} {known : Known} {st : State} {plain : RecordId} {layout : RecordLayout}

/-- A class that inherits nothing and declares nothing virtual starts with its fields. -/
theorem layNonVirtualBases_bare (alike : f.tree.DeclaredAlike plain f.record) :
    layNonVirtualBases f (State.initial f) = pure (State.initial f) := by
  have declares : declaresNewVirtual f = false := by
    rw [declaresNewVirtual, alike.notDynamic]
    rfl
  rw [layNonVirtualBases_noBases alike.bases rfl rfl, declares]
  rfl

/-- The fields of both are laid out from the same state in the same way. -/
theorem layFields_declaredAlike (alike : f.tree.DeclaredAlike plain f.record) :
    layFields { f with record := plain } (State.initial { f with record := plain }) =
      layFields f (State.initial f) := by
  have attributes : ({ f with record := plain } : Frame).declaration.attributes =
      f.declaration.attributes := alike.attributes.symm
  have fields : ({ f with record := plain } : Frame).declaration.fields = f.declaration.fields :=
    alike.fields.symm
  unfold layFields State.initial
  rw [attributes, fields]
  rfl

/-- A class without bases and virtual methods is laid out like a plain record. -/
theorem layClass_bare (alike : f.tree.DeclaredAlike plain f.record)
    (done : (layClass f).eval known = .ok layout) :
    ∃ layout', (layPlain { f with record := plain }).eval known = .ok layout' ∧
      layout'.size = layout.size ∧ layout'.alignment = layout.alignment ∧
      layout'.requiredAlignment = layout.requiredAlignment ∧
      layout'.fieldOffsets = layout.fieldOffsets := by
  unfold layClass at done
  rw [layNonVirtualBases_bare alike, pure_bind] at done
  obtain ⟨laid, fields, done⟩ := eval_bind_eq_ok.mp done
  have same := ((layFields_ends rfl).value fields).classPart
  simp only [State.classPart, State.initial, Prod.mk.injEq] at same
  obtain ⟨-, -, noVfptr, noVbptr, -, noBase, -⟩ := same
  have unpointed : layPointers f laid = pure laid := by
    unfold layPointers State.needsOwnVbptr
    rw [noVfptr, noVbptr]
    rfl
  rw [unpointed, pure_bind] at done
  obtain ⟨closed, closing, done⟩ := eval_bind_eq_ok.mp done
  have closed' := closing
  rw [LayoutM.eval_lift] at closed'
  obtain ⟨size, _, _, frame⟩ := (closeData_ends laid).value closed'
  have unfollowed : layVirtualBases f closed = pure closed := by
    have none : closed.hasVbptr = false := by
      rw [frame]
      exact noVbptr
    unfold layVirtualBases
    rw [none]
    rfl
  rw [unfollowed, pure_bind] at done
  obtain ⟨last, finished, done⟩ := eval_bind_eq_ok.mp done
  cases done
  unfold layPlain
  rw [layFields_declaredAlike alike]
  refine ⟨_, eval_bind_eq_ok.mpr ⟨laid, fields, eval_bind_eq_ok.mpr ⟨closed, closing,
    eval_bind_eq_ok.mpr ⟨last, finished, rfl⟩⟩⟩, ?_⟩
  exact ⟨rfl, rfl, rfl, rfl⟩

/-- Under the Microsoft rules a plain record and a class that are declared alike are laid out alike. -/
theorem layout_declaredAlike {s : Setting} {bare : RecordId} {layout' : RecordLayout}
    (microsoft : s.usesMicrosoftLayout = true) (alike : s.tree.DeclaredAlike plain bare)
    (laid : (RecordLayout.ofRecord s plain).eval known = .ok layout)
    (laid' : (RecordLayout.ofRecord s bare).eval known = .ok layout') :
    layout.size = layout'.size ∧ layout.alignment = layout'.alignment ∧
      layout.requiredAlignment = layout'.requiredAlignment ∧
      layout.fieldOffsets = layout'.fieldOffsets := by
  have rules := RecordLayout.ofRecord_microsoft microsoft laid
  have rules' := RecordLayout.ofRecord_microsoft microsoft laid'
  rw [layout_plain alike.isPlain] at rules
  rw [layout_class alike.isClass] at rules'
  have frame : Frame.ofRecord s plain = { Frame.ofRecord s bare with record := plain } := by
    simp only [Frame.ofRecord, alike.attributes, alike.isUnion]
  obtain ⟨found, done, same⟩ := layClass_bare (f := Frame.ofRecord s bare) alike rules'
  rw [← frame, rules] at done
  cases done
  exact same

end Microsoft

variable {s : Setting} {plain bare : RecordId}

/-- A plain record and a class that are declared alike, the class without bases and virtual methods,
are laid out alike, whatever their fields hold. Only in C++ may the class be of size zero, which the
plain record is not. -/
theorem bare_classes_laid_out_plainly {depth : Nat} {layout layout' : RecordLayout}
    (unsupplied : s.supplied = none) (alike : s.tree.DeclaredAlike plain bare)
    (laid : (s.known depth).record plain = .ok layout)
    (laid' : (s.known depth).record bare = .ok layout')
    (agrees : s.options.cplusplus = false ∨ layout'.size ≠ 0) :
    layout.size = layout'.size ∧ layout.alignment = layout'.alignment ∧
      layout.requiredAlignment = layout'.requiredAlignment ∧
      layout.fieldOffsets = layout'.fieldOffsets := by
  cases rules : s.usesMicrosoftLayout with
  | true => exact Microsoft.layout_declaredAlike rules alike (s.known_record laid) (s.known_record laid')
  | false =>
    have itanium : s.IsItanium := ⟨rules, fun r => by simp [Setting.suppliedLayout?, unsupplied]⟩
    exact (s.known_knows rules depth).declaredAlike itanium alike laid laid' agrees

/-- The plain `P` and the class `C` both hold empty classes side by side, one of them as a base and
another one as a virtual base. -/
def alikeTwice : Setting :=
  let fields : List Field := [
    { name := "e", type := .array ⟨2⟩ (.record ⟨1⟩ ⟨0⟩) 3 },
    { name := "n", type := .record ⟨3⟩ ⟨1⟩ },
    { name := "b", type := .scalar ⟨4⟩ (.integer .int .signed), bitWidth := some 5 },
    { name := "v", type := .record ⟨5⟩ ⟨2⟩ }]
  .linux [
    .ofClass "E" [] [] [],
    .ofClass "N" [{ name := "x", type := .record ⟨1⟩ ⟨0⟩ }] [{ record := ⟨0⟩ }] [],
    .ofClass "V" [{ name := "c", type := .scalar ⟨6⟩ .plainChar }]
      [{ record := ⟨0⟩, isVirtual := true }] [],
    .ofFields "P" fields .struct { maxFieldAlignment := some 4 },
    .ofClass "C" fields [] [] { maxFieldAlignment := some 4 }] []

theorem bare_classes_laid_out_plainly_alikeTwice : ∃ layout layout',
    (alikeTwice.known 9).record ⟨3⟩ = .ok layout ∧ (alikeTwice.known 9).record ⟨4⟩ = .ok layout' ∧
      layout'.fieldOffsets = [0, 24, 40, 64] ∧ layout'.size = 24 ∧ layout.size = layout'.size ∧
      layout.fieldOffsets = layout'.fieldOffsets := by
  obtain ⟨layout, laid⟩ := exists_ok (by decide +kernel :
    ((alikeTwice.known 9).record ⟨3⟩).isOk = true)
  obtain ⟨layout', laid'⟩ := exists_ok (by decide +kernel :
    ((alikeTwice.known 9).record ⟨4⟩).isOk = true)
  have places : ((alikeTwice.known 9).record ⟨4⟩).map (fun layout =>
      (layout.fieldOffsets, layout.size)) = .ok ([0, 24, 40, 64], 24) := by
    decide +kernel
  rw [laid'] at places
  simp only [Except.map, Except.ok.injEq, Prod.mk.injEq] at places
  have alike : alikeTwice.tree.DeclaredAlike ⟨3⟩ ⟨4⟩ := by constructor <;> rfl
  obtain ⟨size, _, _, fieldOffsets⟩ :=
    bare_classes_laid_out_plainly rfl alike laid laid' (.inr (by simp [places.2]))
  exact ⟨layout, layout', laid, laid', places.1, places.2, size, fieldOffsets⟩

end ObjectLayout
