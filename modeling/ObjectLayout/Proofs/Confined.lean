import ObjectLayout.Descent
import ObjectLayout.LayoutM

/-! What a computation may ask and tell, however it is answered: some ask for the layouts of certain
types alone, some tell nothing. Either is kept by whatever puts computations together. -/
namespace ObjectLayout

/-- What each level of a descent keeps holds at every depth. -/
theorem descendWithin_keeps {cut : α} {step : (κ → α) → κ → α} {K : α → Prop} (bottom : K cut)
    (level : ∀ f, (∀ k, K (f k)) → ∀ k, K (step f k)) (depth : Nat) (k : κ) :
    K (descendWithin cut step depth k) := by
  induction depth generalizing k with
  | zero => exact bottom
  | succ depth ih => exact level _ ih k

namespace LayoutM

variable {types types' : Ty → Prop} {notes notes' : Note → Prop} {x y : LayoutM α}

/-- The computation asks for layouts of records, and of these types alone, and tells these notes
alone. -/
def Confined (types : Ty → Prop) (notes : Note → Prop) : LayoutM α → Prop
  | .done _ | .stop _ => True
  | .askRecord _ next => ∀ layout, (next layout).Confined types notes
  | .askType type next => types type ∧ ∀ layout, (next layout).Confined types notes
  | .tell note rest => notes note ∧ rest.Confined types notes

/-- The computation asks for layouts of records alone, and tells nothing. -/
abbrev Silent (x : LayoutM α) : Prop := x.Confined (fun _ => False) (fun _ => False)

/-- The computation asks for layouts of records, and of these types alone. -/
abbrev AsksOnly (types : Ty → Prop) (x : LayoutM α) : Prop := x.Confined types fun _ => True

namespace Confined

theorem mono (h : x.Confined types notes) (more : ∀ type, types type → types' type)
    (further : ∀ note, notes note → notes' note) : x.Confined types' notes' := by
  induction x with
  | done value => trivial
  | stop fault => trivial
  | askRecord record next ih => exact fun layout => ih layout (h layout)
  | askType type next ih => exact ⟨more type h.1, fun layout => ih layout (h.2 layout)⟩
  | tell note rest ih => exact ⟨further note h.1, ih h.2⟩

theorem of_silent (h : x.Silent) : x.Confined types notes := h.mono (fun _ => nofun) fun _ => nofun

theorem any (x : LayoutM α) : x.Confined (fun _ => True) fun _ => True := by
  induction x with
  | done value => trivial
  | stop fault => trivial
  | askRecord record next ih => exact ih
  | askType type next ih => exact ⟨trivial, ih⟩
  | tell note rest ih => exact ⟨trivial, ih⟩

theorem pure (value : α) : (pure value : LayoutM α).Confined types notes := trivial

theorem throw (fault : Fault) : (throw fault : LayoutM α).Confined types notes := trivial

theorem endless : (LayoutM.endless : LayoutM α).Confined types notes := trivial

theorem layoutOf (r : RecordId) : (LayoutM.layoutOf r).Confined types notes := fun _ => trivial

theorem typeLayoutOf {type : Ty} (h : types type) : (LayoutM.typeLayoutOf type).Confined types notes :=
  ⟨h, fun _ => trivial⟩

theorem lift (x : Checked α) : (liftM x : LayoutM α).Confined types notes := by
  cases x <;> trivial

theorem bind {next : α → LayoutM β} (first : x.Confined types notes)
    (second : ∀ value, (next value).Confined types notes) :
    (x >>= next).Confined types notes := by
  change (x.bind next).Confined types notes
  induction x with
  | done value => exact second value
  | stop fault => trivial
  | askRecord record more ih => exact fun layout => ih layout (first layout)
  | askType type more ih => exact ⟨first.1, fun layout => ih layout (first.2 layout)⟩
  | tell note rest ih => exact ⟨first.1, ih first.2⟩

theorem lift_bind {x : Checked α} {next : α → LayoutM β}
    (second : ∀ value, (next value).Confined types notes) :
    ((liftM x : LayoutM α) >>= next).Confined types notes := (lift x).bind second

theorem ensure (condition : Bool) (cause : Breach) :
    (ensure condition cause : LayoutM Unit).Confined types notes := by
  unfold ObjectLayout.ensure
  split <;> trivial

theorem ite {c : Prop} [Decidable c] (yes : x.Confined types notes) (no : y.Confined types notes) :
    (if c then x else y).Confined types notes := by
  split
  · exact yes
  · exact no

/-- What follows a choice follows whatever was chosen. -/
theorem ite_bind {c : Prop} [Decidable c] {next : α → LayoutM β} (yes : x.Confined types notes)
    (no : y.Confined types notes) (rest : ∀ value, (next value).Confined types notes) :
    (if c then x >>= next else y >>= next).Confined types notes :=
  .ite (yes.bind rest) (no.bind rest)

/-- What follows a step that may be left out follows either way. -/
theorem when_bind {c : Prop} [Decidable c] {x : LayoutM Unit} {next : Unit → LayoutM β}
    (step : x.Confined types notes) (rest : ∀ done, (next done).Confined types notes) :
    (if c then x >>= next else next ()).Confined types notes :=
  .ite (step.bind rest) (rest ())

theorem foldlM {step : β → α → LayoutM β} {xs : List α}
    (each : ∀ a ∈ xs, ∀ state, (step state a).Confined types notes) (start : β) :
    (xs.foldlM step start).Confined types notes := by
  induction xs generalizing start with
  | nil => exact pure start
  | cons a rest ih =>
    rw [List.foldlM_cons]
    exact (each a List.mem_cons_self start).bind (ih fun a member => each a (.tail _ member))

theorem allM {test : α → LayoutM Bool} (each : ∀ a, (test a).Confined types notes) (xs : List α) :
    (xs.allM test).Confined types notes := by
  induction xs with
  | nil => exact pure true
  | cons a rest ih =>
    rw [List.allM]
    refine (each a).bind fun fits => ?_
    cases fits with
    | true => exact ih
    | false => exact pure false

/-- What is told is among the notes that may be told. -/
theorem told (h : x.Confined types notes) (known : Known) : ∀ note ∈ x.told known, notes note := by
  induction x with
  | done value => exact nofun
  | stop fault => exact nofun
  | askRecord record next ih =>
    rw [LayoutM.told]
    split
    · exact ih _ (h _)
    · exact nofun
  | askType type next ih =>
    rw [LayoutM.told]
    split
    · exact ih _ (h.2 _)
    · exact nofun
  | tell note rest ih =>
    intro note' member
    rcases List.mem_cons.mp member with rfl | member
    · exact h.1
    · exact ih h.2 note' member

end Confined

/-- A computation that may tell nothing tells nothing. -/
theorem told_eq_nil (h : x.Confined types fun _ => False) (known : Known) : x.told known = [] :=
  List.eq_nil_iff_forall_not_mem.mpr (h.told known)

end LayoutM

end ObjectLayout
