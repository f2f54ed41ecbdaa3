import ObjectLayout.Proofs.Itanium.FittingOffsets
import ObjectLayout.Proofs.ListedParts
import ObjectLayout.Proofs.Microsoft.Leading
import ObjectLayout.Proofs.Microsoft.Natural
import ObjectLayout.Proofs.Occurrence

/-! Dumps that leave nothing out. The parts that a dump shows are the base subobjects of the complete
objects in it, and its offsets fit as long as each part ends inside the one that it is part of. -/
namespace ObjectLayout

open Dump

variable {s : Setting} {known : Known} {r c d e : RecordId} {layout : RecordLayout} {depth x y : Nat}
variable {p q : Dump.Part} {path : List RecordId} {way : List Dump.Step}

/-- The steps from a complete object to one of its base subobjects. -/
def Occurrence.steps (o : Occurrence) : List Dump.Step :=
  (o.root.map Dump.Step.virtualBase).toList ++ o.path.map .base

theorem PlainBaseAt.shownAt (h : PlainBaseAt s known c path e x) (isComplete : Bool) :
    ∃ q, q.record = e ∧ ShownAt s known ⟨c, isComplete⟩ (path.map .base) q x := by
  induction h generalizing isComplete with
  | here c => exact ⟨⟨c, isComplete⟩, rfl, .here _⟩
  | under edge at' _ ih =>
    obtain ⟨q, same, deeper⟩ := ih false
    exact ⟨q, same, .under (.base edge) at' deeper⟩

/-- Every base subobject of a complete object is shown below it. -/
theorem BaseAt.shownAt {o : Occurrence} (h : BaseAt s known d o e x) :
    ∃ q, q.record = e ∧ ShownAt s known ⟨d, true⟩ o.steps q x := by
  cases h with
  | plain h => exact h.shownAt true
  | virtual listed at' h =>
    obtain ⟨q, same, deeper⟩ := h.shownAt false
    exact ⟨q, same, .under (.virtualBase rfl listed) at' deeper⟩

/-- A part is one of the base subobjects of a complete object, itself or further down. -/
def InComplete (s : Setting) (known : Known) (p : Dump.Part) (way : List Dump.Step) (e : RecordId)
    (x : Nat) : Prop :=
  ∃ path d y o z, ShownAt s known p path ⟨d, true⟩ y ∧ BaseAt s known d o e z ∧
    way = path ++ o.steps ∧ x = y + z

theorem InComplete.under {step : Dump.Step} (leads : step.Leads s p q)
    (at' : step.offset? known p.record = some y) (h : InComplete s known q way e x) :
    InComplete s known p (step :: way) e (y + x) := by
  obtain ⟨path, d, before, o, z, shown, base, rfl, rfl⟩ := h
  exact ⟨step :: path, d, y + before, o, z, .under leads at' shown, base, rfl,
    (Nat.add_assoc y before z).symm⟩

/-- By induction on the steps from the first: a base has no complete object above it yet, so what hangs
from it along bases alone is told apart. -/
theorem shownAt_cases (h : ShownAt s known p way q x) :
    InComplete s known p way q.record x ∨ (p.isComplete = false ∧
      ∃ path, way = path.map .base ∧ PlainBaseAt s known p.record path q.record x) := by
  induction h with
  | here p =>
    obtain ⟨r, isComplete⟩ := p
    cases isComplete with
    | true => exact .inl ⟨[], r, 0, ⟨none, []⟩, 0, .here _, .plain (.here r), rfl, rfl⟩
    | false => exact .inr ⟨rfl, [], rfl, .here r⟩
  | @under p q' _ step rest offset further leads at' _ ih =>
    rcases ih with within | ⟨asBase, path, rfl, hangs⟩
    · exact .inl (within.under leads at')
    · obtain ⟨r, isComplete⟩ := p
      cases leads with
      | @base b edge =>
        have plain := PlainBaseAt.under edge at' hangs
        cases isComplete with
        | true =>
          exact .inl ⟨[], r, 0, ⟨none, b :: path⟩, _, .here _, .plain plain, rfl,
            (Nat.zero_add _).symm⟩
        | false => exact .inr ⟨rfl, b :: path, rfl, plain⟩
      | @virtualBase v complete listed =>
        cases complete
        exact .inl ⟨[], r, 0, ⟨some v, path⟩, _, .here _, .virtual listed at' hangs, rfl,
          (Nat.zero_add _).symm⟩
      | member => cases asBase

/-- What a dump of a complete object shows are the base subobjects of complete objects. -/
theorem names_iff_inComplete : Names s known ⟨r, true⟩ way e x ↔
    InComplete s known ⟨r, true⟩ way e x := by
  constructor
  · rintro ⟨q, rfl, shown⟩
    exact (shownAt_cases shown).resolve_right fun base => nomatch base.1
  · rintro ⟨path, d, y, o, z, shown, base, rfl, rfl⟩
    obtain ⟨q, same, deeper⟩ := base.shownAt
    exact ⟨q, same, shown.trans deeper⟩

/-- A dump of a class that leaves nothing out. -/
structure ShowsWhole (s : Setting) (known : Known) (r : RecordId) (lines : List Line) : Prop where
  /-- The base subobjects of complete objects are shown in one line each, at the sum of the offsets on
  the way to them. -/
  once : ShowsOnce (InComplete s known ⟨r, true⟩) 0 lines
  /-- Every step on from a part leads to another, so no complete object is left out either. -/
  onward : ∀ path p x (step : Dump.Step) q, ShownAt s known ⟨r, true⟩ path p x → step.Leads s p q →
    ∃ y, step.offset? known p.record = some y ∧ ShownAt s known ⟨r, true⟩ (path ++ [step]) q (x + y)
  vtordisps : VtordispsLead s lines

theorem Dump.ShownAt.reaches (h : ShownAt s known p way q x) :
    Relation.ReflTransGen s.Holds p.record q.record := by
  induction h with
  | here => exact .refl
  | under leads _ _ ih => exact leads.holds.to_reflTransGen.trans ih

theorem Setting.Displays.shown_onward (displays : s.Displays known)
    (laid : known.record r = .ok layout) {step : Dump.Step} (shown : ShownAt s known ⟨r, true⟩ way p x)
    (leads : step.Leads s p q) : ∃ y, step.offset? known p.record = some y ∧
      ShownAt s known ⟨r, true⟩ (way ++ [step]) q (x + y) := by
  obtain ⟨inner, found⟩ : ∃ inner, known.record p.record = .ok inner := by
    rcases Relation.reflTransGen_iff_eq_or_transGen.mp shown.reaches with same | path
    · exact ⟨layout, same ▸ laid⟩
    · exact displays.reached ⟨layout, laid⟩ path
  obtain ⟨y, at'⟩ := leads.exists_offset found (displays.shows found)
  have next := ShownAt.under leads at' (.here q)
  exact ⟨y, at', shown.trans next⟩

/-- How far a part reaches from its start under the Itanium rules. -/
def Setting.extent (s : Setting) (known : Known) (p : Dump.Part) : Nat :=
  if p.isComplete then known.size p.record else s.span known p.record

section Itanium

variable (knows : s.Knows known) (itanium : s.IsItanium) (integer : s.HasIntegerBitFields)
include knows itanium integer

theorem Setting.Knows.leads_inside {step : Dump.Step} (isClass : (s.tree.record p.record).isClass = true)
    (laid : ∃ layout, known.record p.record = .ok layout) (leads : step.Leads s p q)
    (at' : step.offset? known p.record = some y) :
    ((s.tree.record q.record).isClass = true ∧ ∃ layout, known.record q.record = .ok layout) ∧
      y + s.extent known q ≤ s.extent known p := by
  obtain ⟨inner, laidInner⟩ := knows.reached laid leads.holds.to_reflTransGen
  obtain ⟨layout, laid⟩ := laid
  have sound := knows.sound itanium laid
  have nonVirtual := sound.nonVirtual isClass
  have within : known.nonVirtualSize p.record ≤ s.extent known p := by
    unfold Setting.extent Setting.span
    split
    · exact nonVirtual
    · split
      · exact nonVirtual
      · exact le_rfl
  cases leads with
  | base edge =>
    obtain ⟨isClass, inside⟩ := sound.base_inside _ y at'
    exact ⟨⟨isClass, inner, laidInner⟩, inside.trans within⟩
  | virtualBase complete listed =>
    obtain ⟨isClass, inside⟩ := sound.virtualBase_inside _ y at'
    refine ⟨⟨isClass, inner, laidInner⟩, ?_⟩
    rw [Setting.extent, Setting.extent, complete]
    exact inside
  | @member index field held found names heldIsClass =>
    refine ⟨⟨heldIsClass, inner, laidInner⟩, ?_⟩
    obtain ⟨start, placed, rfl⟩ := Option.map_eq_some_iff.mp at'
    have stored := integer.stored (List.mem_of_getElem? found) (Ty.baseElement_asRecord? names)
    obtain ⟨width, wide, whole, _, inside⟩ := sound.fields index field start found stored placed
    have inside := inside isClass
    obtain ⟨bottom, flat⟩ := Ty.asRecord?_eq_some.mp names
    have contained := knows.contained_le wide (k := 0) ⟨bottom, by simp [flat]⟩
    rw [Nat.zero_mul, Nat.zero_add] at contained
    have floor : 8 * (start / 8) = start := Nat.mul_div_cancel' whole
    change start / 8 + known.size held ≤ s.extent known p
    lia

/-- Under the Itanium rules all parts are inside, so every offset fits. -/
theorem Setting.Knows.fitsAt (isClass : (s.tree.record r).isClass = true)
    (laid : known.record r = .ok layout) : FitsAt s known 0 ⟨r, true⟩ := by
  intro path q x y shown mark
  obtain ⟨⟨_, inner, laidInner⟩, inside⟩ := shown.extent_le
    (fun p => (s.tree.record p.record).isClass = true ∧ ∃ inner, known.record p.record = .ok inner)
    (s.extent known)
    (fun _ _ _ _ good leads at' => knows.leads_inside itanium integer good.1 good.2 leads at')
    ⟨isClass, layout, laid⟩
  have size : 8 * known.size r < Quantity.limit := by
    rw [Known.size_eq laid]
    exact knows.size_fits itanium laid
  change x + s.extent known q ≤ known.size r at inside
  have small : y ≤ Quantity.limit / 8 := by
    cases mark with
    | start => exact Nat.zero_le _
    | field at' => exact Nat.div_le_div_right (knows.fieldOffset_fits itanium laidInner at').le
    | vbptr laid' own => simp [knows.vbptr?_eq_none itanium laid'] at own
  have limit : Quantity.limit = 8 * (Quantity.limit / 8) := by decide
  omega

end Itanium

namespace Microsoft

/-- How far a part reaches from its start under the Microsoft rules. -/
def extent (known : Known) (p : Dump.Part) : Nat :=
  (known.record p.record).toOption.elim 0 fun layout =>
    if p.isComplete then layout.size else layout.dataSize

theorem extent_eq {p : Dump.Part} (laid : known.record p.record = .ok layout) :
    extent known p = if p.isComplete then layout.size else layout.dataSize := by
  simp [extent, laid, Except.toOption]

variable {p q : Dump.Part}

theorem PartsInside.stop_le (inside : PartsInside s known p.record layout)
    (laid : known.record p.record = .ok layout) {slot : Slot}
    (occupies : Occupies s known p.record layout slot) (isNonVirtual : slot.part.isNonVirtual = true) :
    slot.stop ≤ 8 * extent known p := by
  rw [extent_eq laid]
  split
  · exact inside.inside slot occupies
  · exact inside.nonVirtual slot occupies isNonVirtual

section Shown

variable (knows : s.Knows known) (displays : s.Displays known)
variable (microsoft : s.usesMicrosoftLayout = true)
variable (laid : known.record p.record = .ok layout) (inside : PartsInside s known p.record layout)
include knows microsoft laid inside

theorem leads_inside (integer : s.HasIntegerBitFields) {step : Dump.Step} (leads : step.Leads s p q)
    (at' : step.offset? known p.record = some y) : y + extent known q ≤ extent known p := by
  obtain ⟨inner, laidInner⟩ := knows.reached ⟨layout, laid⟩ leads.holds.to_reflTransGen
  cases leads with
  | base edge =>
    have ends := inside.stop_le laid (.base ((Known.baseOffset_eq_iff laid).mpr at') laidInner) rfl
    have reach := extent_eq laidInner
    simp only [Slot.ofBytes, Bool.false_eq_true, if_false] at ends reach
    lia
  | virtualBase complete listed =>
    obtain ⟨slot, found, rfl⟩ := (Known.virtualBaseOffset?_eq_some laid).mp at'
    have ends := inside.inside _ (.virtualBase found laidInner)
    have reach := extent_eq laidInner
    have whole := extent_eq laid
    simp only [Slot.ofBytes, Bool.false_eq_true, if_false, complete, if_true] at ends reach whole
    lia
  | @member index field held found names isClass =>
    obtain ⟨start, placed, rfl⟩ := Option.map_eq_some_iff.mp at'
    have member := List.mem_of_getElem? found
    have stored := integer.stored member (Ty.baseElement_asRecord? names)
    obtain ⟨type, typed⟩ := exists_type microsoft (knows.record laid) member stored
    obtain ⟨bottom, flat⟩ := Ty.asRecord?_eq_some.mp names
    obtain ⟨inner', laidInner', wide⟩ := knows.width_of_records typed bottom
    cases laidInner.symm.trans laidInner'
    have bits : HasBits known field (8 * type.width) := by
      unfold HasBits
      rw [stored]
      exact ⟨type, typed, rfl⟩
    have ends := inside.stop_le laid
      (.field found bits ((Known.fieldOffset_eq_iff laid).mpr placed)) rfl
    have ends : start + 8 * type.width ≤ 8 * extent known p := ends
    have reach := extent_eq laidInner
    simp only [flat, List.prod_nil, Nat.one_mul, if_true] at reach wide
    change start / 8 + extent known ⟨held, true⟩ ≤ extent known p
    lia

include displays in
theorem marks_inside (mark : Marks known p.record y) : y ≤ extent known p := by
  cases mark with
  | start => exact Nat.zero_le _
  | @field index start at' =>
    have offset := (Known.fieldOffset_eq_iff laid).mpr at'
    obtain ⟨field, found⟩ : ∃ field, (s.tree.record p.record).fields[index]? = some field := by
      rw [Known.fieldOffset?_eq laid] at at'
      have bound := (List.getElem?_eq_some_iff.mp at').1
      exact ⟨_, List.getElem?_eq_getElem ((displays.shows laid).counted ▸ bound)⟩
    obtain ⟨bits, has⟩ := exists_hasBits
      (fields_typed microsoft (knows.record laid) (List.mem_of_getElem? found))
    have ends : start + bits ≤ 8 * extent known p :=
      inside.stop_le laid (.field found has offset) rfl
    change start / 8 ≤ extent known p
    omega
  | vbptr laid' own =>
    cases laid.symm.trans laid'
    have ends := inside.stop_le laid (.vbptr own) rfl
    simp only [Slot.ofBytes] at ends
    omega

end Shown

/-- As long as all parts of what is shown are inside it, every offset fits. -/
theorem fitsAt (knows : s.Knows known) (displays : s.Displays known) (integer : s.HasIntegerBitFields)
    (microsoft : s.usesMicrosoftLayout = true) (laid : known.record r = .ok layout)
    (small : layout.size < Quantity.limit)
    (inside : ∀ way q x, ShownAt s known ⟨r, true⟩ way q x →
      ∀ inner, known.record q.record = .ok inner → PartsInside s known q.record inner) :
    FitsAt s known 0 ⟨r, true⟩ := by
  intro way q x y shown mark
  have found {p : Dump.Part} {way : List Dump.Step} {x : Nat}
      (shown : ShownAt s known ⟨r, true⟩ way p x) : ∃ inner, known.record p.record = .ok inner :=
    knows.reached ⟨layout, laid⟩ shown.reaches
  have onward (p q : Dump.Part) (step : Dump.Step) (y : Nat)
      (reached : ∃ way x, ShownAt s known ⟨r, true⟩ way p x) (leads : step.Leads s p q)
      (at' : step.offset? known p.record = some y) :
      (∃ way x, ShownAt s known ⟨r, true⟩ way q x) ∧ y + extent known q ≤ extent known p := by
    obtain ⟨way, x, shown⟩ := reached
    obtain ⟨inner, laid⟩ := found shown
    have next := ShownAt.under leads at' (.here q)
    have parts := inside way p x shown inner laid
    exact ⟨⟨_, _, shown.trans next⟩, leads_inside knows microsoft laid parts integer leads at'⟩
  obtain ⟨_, within⟩ := shown.extent_le (fun p => ∃ way x, ShownAt s known ⟨r, true⟩ way p x)
    (extent known) onward ⟨[], 0, .here _⟩
  obtain ⟨inner, laidInner⟩ := found shown
  have within' := inside way q x shown inner laidInner
  have last := marks_inside knows displays microsoft laidInner within' mark
  have whole := extent_eq (p := ⟨r, true⟩) laid
  rw [if_pos rfl] at whole
  lia

end Microsoft

/-- Whether a dump of a class completes is a matter of its offsets alone, and if it does nothing is
left out. -/
theorem full_dumps_whole_iff_fitting (unsupplied : s.supplied = none)
    (integer : s.HasIntegerBitFields) (distinct : ∀ c, Relation.ReflTransGen s.Holds r c →
      ((s.tree.record c).nonVirtualBases.map (·.record)).Nodup)
    (isClass : (s.tree.record r).isClass = true) (laid : (s.known depth).record r = .ok layout) :
    ((∃ lines, (Dump.subobjectLines s r 0 0 none true).eval (s.known depth) = .ok lines ∧
        (dump s r false).eval (s.known depth) = .ok (String.join (lines.map Line.text)) ∧
        ShowsWhole s (s.known depth) r lines) ↔ FitsAt s (s.known depth) 0 ⟨r, true⟩) ∧
      (¬ FitsAt s (s.known depth) 0 ⟨r, true⟩ →
        (dump s r false).eval (s.known depth) = .error .overflow) ∧
      (s.usesMicrosoftLayout = false → FitsAt s (s.known depth) 0 ⟨r, true⟩) ∧
      (s.usesMicrosoftLayout = true → layout.size < Quantity.limit →
        (∀ way q x, ShownAt s (s.known depth) ⟨r, true⟩ way q x →
          ∀ inner, (s.known depth).record q.record = .ok inner →
            ∀ b, Microsoft.OverlooksBase s (s.known depth) q.record inner b →
              Microsoft.BaseInside s (s.known depth) q.record inner b) →
        FitsAt s (s.known depth) 0 ⟨r, true⟩) := by
  have knows := integer.known_knows depth
  have displays := integer.known_displays unsupplied depth
  have completes := displays.subobjectLines_complete laid 0 0 none true (by decide) fun _ => isClass
  have dumped : (dump s r false).eval (s.known depth) =
      ((Dump.subobjectLines s r 0 0 none true).eval (s.known depth)).map
        fun lines => String.join (lines.map Line.text) := by
    unfold dump
    rw [isClass, if_neg (by decide), LayoutM.eval_bind]
    rfl
  refine ⟨⟨?_, ?_⟩, ?_, ?_, ?_⟩
  · rintro ⟨lines, shown, _⟩
    exact completes.mp ⟨lines, shown⟩
  · intro fits
    obtain ⟨lines, shown⟩ := completes.mpr fits
    have lists := displays.subobjectLines_lists distinct laid _ _ _ _ _ shown
    refine ⟨lines, shown, by rw [dumped, shown]; rfl, ?_⟩
    exact ⟨lists.once.congr fun _ _ _ => names_iff_inComplete,
      fun _ _ _ _ _ shown leads => displays.shown_onward laid shown leads, lists.vtordisps⟩
  · intro tooLarge
    have ends := displays.dump_overflows laid false
    rw [dumped] at ends ⊢
    cases shown : (Dump.subobjectLines s r 0 0 none true).eval (s.known depth) with
    | ok lines => exact absurd (completes.mp ⟨lines, shown⟩) tooLarge
    | error fault =>
      rw [shown] at ends
      exact congrArg Except.error ends
  · intro rules
    have itanium : s.IsItanium := ⟨rules, fun r => by rw [Setting.suppliedLayout?, unsupplied]; rfl⟩
    exact knows.fitsAt itanium integer isClass laid
  · intro rules small inside
    exact Microsoft.fitsAt knows displays integer rules laid small fun way q x shown inner laid =>
      Microsoft.parts_inside rules laid (inside way q x shown inner laid)

/-- For Windows: `D` has an `A` along each of `B` and `C` and a vtordisp before its virtual base `V`,
and `W` has a `D` among its members. -/
def heldDiamond : Setting :=
  let int : Ty := .scalar ⟨0⟩ (.integer .int .signed)
  .windows .x86 [
    .ofClass "A" [{ name := "a", type := int }] [] [],
    .ofClass "B" [] [{ record := ⟨0⟩ }] [],
    .ofClass "C" [{ name := "c", type := int }] [{ record := ⟨0⟩ }] [],
    .ofClass "V" [{ name := "v", type := int }] [] [⟨0⟩],
    .ofClass "D" [{ name := "d", type := int }]
      [{ record := ⟨1⟩ }, { record := ⟨3⟩, isVirtual := true }, { record := ⟨2⟩ }] [⟨1⟩, ⟨2⟩],
    .ofClass "W" [{ name := "w", type := int }, { name := "d", type := .record ⟨1⟩ ⟨4⟩ }] [] []]
    [{ name := "f", owner := ⟨3⟩, isVirtual := true },
      { name := "f", owner := ⟨4⟩, isVirtual := true, overridden := [⟨0⟩] },
      { name := "D", owner := ⟨4⟩, kind := .constructor }]

theorem full_dumps_whole_iff_fitting_heldDiamond : ∃ lines,
    (Dump.subobjectLines heldDiamond ⟨5⟩ 0 0 none true).eval (heldDiamond.known 6) = .ok lines ∧
      ShowsWhole heldDiamond (heldDiamond.known 6) ⟨5⟩ lines ∧ subobjects lines =
        [(⟨5⟩, 0), (⟨4⟩, 4), (⟨1⟩, 4), (⟨0⟩, 4), (⟨2⟩, 8), (⟨0⟩, 8), (⟨3⟩, 28)] := by
  obtain ⟨layout, laid⟩ := exists_ok (by decide +kernel :
    ((heldDiamond.known 6).record ⟨5⟩).isOk = true)
  have size : (heldDiamond.known 6).has (·.size == 36) ⟨5⟩ = true := by decide +kernel
  rw [Known.has_eq laid, beq_iff_eq] at size
  have distinct (c : RecordId) :
      ((heldDiamond.tree.record c).nonVirtualBases.map (·.record)).Nodup :=
    Tree.forall_record (P := fun record => (record.nonVirtualBases.map (·.record)).Nodup)
      (by decide) (by decide) c
  obtain ⟨whole, _, _, fitsAt⟩ := full_dumps_whole_iff_fitting (s := heldDiamond) rfl
    (Tree.forall_record (by decide) (by decide)) (fun c _ => distinct c) (by decide) laid
  have fits := fitsAt rfl (by rw [size]; decide) fun _ _ _ _ _ _ _ overlooks => nomatch overlooks.wide
  obtain ⟨lines, shown, _, showsWhole⟩ := whole.mpr fits
  have listed : ((Dump.subobjectLines heldDiamond ⟨5⟩ 0 0 none true).eval (heldDiamond.known 6)).map
      subobjects = .ok [(⟨5⟩, 0), (⟨4⟩, 4), (⟨1⟩, 4), (⟨0⟩, 4), (⟨2⟩, 8), (⟨0⟩, 8), (⟨3⟩, 28)] := by
    decide +kernel
  rw [shown] at listed
  exact ⟨lines, shown, showsWhole, Except.ok.inj listed⟩

/-- For Windows: the vbptr of `D` takes the place of `N`, which then protrudes from `D`. -/
def protrudingBase : Setting :=
  let int : Ty := .scalar ⟨0⟩ (.integer .int .signed)
  let chars (count : Nat) : Ty := .array ⟨count⟩ (.scalar ⟨1⟩ .plainChar) count
  .windows .x86_64 [
    .ofClass "N" [{ name := "a", type := chars (2 ^ 60) }, { name := "n", type := int }] [] [],
    .ofClass "Z" [] [] [],
    .ofClass "V" [{ name := "v", type := int }] [] [],
    .ofClass "D" [] [{ record := ⟨1⟩ }, { record := ⟨0⟩ }, { record := ⟨2⟩, isVirtual := true }] []
      { alignment := some 16 },
    .ofClass "B" [{ name := "b", type := chars (2 ^ 64 - 256) }] [] [],
    .ofClass "E" [] [{ record := ⟨4⟩ }, { record := ⟨3⟩ }] []] []

theorem full_dump_overflows_protrudingBase :
    protrudingBase.supplied = none ∧ protrudingBase.HasIntegerBitFields ∧
      (∀ c, ((protrudingBase.tree.record c).nonVirtualBases.map (·.record)).Nodup) ∧
      (protrudingBase.tree.record ⟨5⟩).isClass = true ∧
      ((protrudingBase.known 6).record ⟨5⟩).isOk = true ∧
      (dump protrudingBase ⟨5⟩ false).eval (protrudingBase.known 6) = .error .overflow :=
  ⟨rfl, Tree.forall_record (by decide) (by decide),
    Tree.forall_record (P := fun record => (record.nonVirtualBases.map (·.record)).Nodup)
      (by decide) (by decide), by decide, by decide +kernel, by decide +kernel⟩

end ObjectLayout
