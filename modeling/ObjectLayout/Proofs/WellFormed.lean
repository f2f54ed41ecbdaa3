import ObjectLayout.Proofs.Itanium.Soundness
import ObjectLayout.Proofs.Microsoft.Alignment

/-! Finished layouts are well-formed under both sets of rules. Layouts of records and of types rest on
one another, so this is shown of all that is known to some depth at once. -/
namespace ObjectLayout

variable {s : Setting} {known : Known} {r : RecordId} {layout : RecordLayout}

theorem Itanium.Rounded.wellFormed (rounded : Itanium.Rounded layout)
    (itanium : s.usesMicrosoftLayout = false)
    (counted : layout.fieldOffsets.length = (s.tree.record r).fields.length)
    (isClass : layout.asClass.isSome = (s.tree.record r).isClass)
    (nonVirtual : ∀ part, layout.asClass = some part → part.nonVirtualSize ≤ layout.size) :
    layout.WellFormed s r where
  counted := counted
  isClass := isClass
  power := rounded.power
  requiredPower := .inr (rounded.required ▸ rounded.power)
  whole _ := rounded.whole
  data := rounded.data
  nonVirtual := nonVirtual
  occupied microsoft := by simp [itanium] at microsoft
  required microsoft := by simp [itanium] at microsoft

/-- The Itanium rules refuse alignments that are no powers of two, so nothing has to be supposed. -/
theorem Setting.Knows.wellFormed (knows : s.Knows known) (itanium : s.IsItanium)
    (laid : known.record r = .ok layout) : layout.WellFormed s r := by
  cases isClass : (s.tree.record r).isClass with
  | true =>
    obtain ⟨own, g, pieces, fixed, st, h⟩ := knows.classLaid itanium laid isClass
    obtain ⟨part, asClass, _, _, _, _, _, inside, _⟩ := h.part
    have counted : layout.fieldOffsets.length = (s.tree.record r).fields.length :=
      h.fieldOffsets ▸ h.count
    refine h.rounded.wellFormed itanium.rules counted ?_ fun part' same => ?_
    · rw [asClass, isClass]
      rfl
    · cases asClass.symm.trans same
      exact inside
  | false =>
    have below := (knows.settled itanium laid).sound
    obtain ⟨g, pieces, st, h⟩ := knows.plainLaid_of itanium laid below isClass
    have counted : layout.fieldOffsets.length = (s.tree.record r).fields.length :=
      h.fieldOffsets ▸ h.count
    refine h.rounded.wellFormed itanium.rules counted ?_ fun part same => ?_
    · rw [h.asClass, isClass]
      rfl
    · simp [h.asClass] at same

theorem Microsoft.Frame.HasPowers.wellFormed (h : (Microsoft.Frame.ofRecord s r).HasPowers known)
    (microsoft : s.usesMicrosoftLayout = true)
    (laid : (RecordLayout.ofRecord s r).eval known = .ok layout) : layout.WellFormed s r := by
  have rules := RecordLayout.ofRecord_microsoft microsoft laid
  cases isClass : (s.tree.record r).isClass with
  | true =>
    rw [layout_class isClass] at rules
    exact (layClass_wellFormed microsoft h isClass).value rules
  | false =>
    rw [layout_plain isClass] at rules
    exact (layPlain_wellFormed microsoft h isClass).value rules

theorem Microsoft.layout_wellFormed (microsoft : s.usesMicrosoftLayout = true)
    (asked : s.AsksForPowers) (below : known.WellFormed s)
    (laid : (RecordLayout.ofRecord s r).eval known = .ok layout) : layout.WellFormed s r :=
  (ofRecord_hasPowers asked below r).wellFormed microsoft laid

/-- Whatever layouts are finished, of records or of types, are well-formed. -/
theorem finished_layouts_well_formed (unsupplied : s.supplied = none) (asked : s.AsksForPowers)
    (depth : Nat) : (s.known depth).WellFormed s := by
  induction depth with
  | zero => exact ⟨by simp [Setting.known], by simp [Setting.known]⟩
  | succ depth ih =>
    constructor
    case record =>
      intro r layout laid
      cases rules : s.usesMicrosoftLayout with
      | true => exact Microsoft.layout_wellFormed rules asked ih laid
      | false =>
        have itanium : s.IsItanium := ⟨rules, fun r => by simp [Setting.suppliedLayout?, unsupplied]⟩
        exact (Setting.known_knows rules (depth + 1)).wellFormed itanium laid
    case type =>
      intro type layout keeps laid
      exact ((TypeLayout.ofTy_ends ih keeps).value laid).mono (s.known_succ depth).record

/-- For 32-bit Windows: `D` has its virtual base behind its own data, `H` holds two of `D` and asks to
be aligned itself. -/
def virtualTail : Setting :=
  .windows .x86 [
    .ofClass "V" [{ name := "v", type := .scalar ⟨0⟩ .plainChar }] [] [],
    .ofClass "D" [{ name := "d", type := .scalar ⟨1⟩ (.integer .int .signed) }]
      [{ record := ⟨0⟩, isVirtual := true }] [],
    .ofClass "H" [{ name := "h", type := .array ⟨2⟩ (.record ⟨3⟩ ⟨1⟩) 2 },
      { name := "c", type := .scalar ⟨0⟩ .plainChar, alignment := some 2 }] [] []
      { alignment := some 8 }] []

theorem finished_layouts_well_formed_virtualTail : ∃ layout,
    (virtualTail.known 6).record ⟨2⟩ = .ok layout ∧ layout.WellFormed virtualTail ⟨2⟩ ∧
      ¬ virtualTail.IsUnrounded ⟨2⟩ layout := by
  obtain ⟨layout, laid⟩ := exists_ok (by decide +kernel :
    ((virtualTail.known 6).record ⟨2⟩).isOk = true)
  have asked : virtualTail.AsksForPowers := ⟨Tree.forall_record (by decide) (by decide), by decide⟩
  refine ⟨layout, laid, (finished_layouts_well_formed rfl asked 6).record ⟨2⟩ layout laid, ?_⟩
  exact fun h => absurd h.virtualBases (by decide)

/-- The exception is one: nothing rounds `D` up after its virtual base. -/
example : ((virtualTail.known 3).record ⟨1⟩).map (fun layout => (layout.size, layout.alignment))
    = .ok (9, 4) := by decide +kernel

end ObjectLayout
