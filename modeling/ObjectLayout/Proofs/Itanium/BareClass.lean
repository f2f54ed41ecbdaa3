import ObjectLayout.Proofs.Itanium.Abreast.Whole
import ObjectLayout.Proofs.Itanium.SizeZero

/-! Classes without bases and virtual methods. Their fields lie one after another, and whatever a field
has of empty subobjects begins before the field ends. So the map of such a class never refuses a field
past the data, and the class is laid out as if it had no map: as a plain record. -/
namespace ObjectLayout

open LayoutM (Mirrors eval_bind_eq_ok)

variable {s : Setting} {known : Known} {d plain : RecordId} {map : EmptyMap}
variable {front front' x width : Nat} {type : Ty}

namespace EmptyMap

/-- All that is recorded lies before the front. Outside C++ there is nothing to record. -/
structure Passed (s : Setting) (front : Nat) (map : EmptyMap) : Prop where
  before : ∀ e ∈ map.placed, 8 * (e.1 + 1) ≤ front
  bounded : map.Bounded
  bare : s.options.cplusplus = false → map.IsBare

namespace Passed

theorem mono (h : map.Passed s front) (le : front ≤ front') : map.Passed s front' where
  before e member := (h.before e member).trans le
  bounded := h.bounded
  bare := h.bare

/-- A field past the front is placed, and lies before the front that is its end. -/
theorem placeField (h : map.Passed s front) (settled : Settled s known d)
    (held : ∀ m, type.constantArrayRecord? = some m → s.Holds d m)
    (explorable : ∀ m, type.constantArrayRecord? = some m → Explorable s known m)
    (wide : s.width known type = .ok width) (past : front ≤ 8 * x) :
    Ends (fun _ => True) ((map.placeField? s type x).eval known) fun answer =>
      ∃ map', answer = some map' ∧ map'.Passed s (8 * (x + width)) := by
  cases cplusplus : s.options.cplusplus with
  | false =>
    refine ((h.bare cplusplus).placeField settled.knows explorable).imp ?_
    rintro _ rfl
    exact ⟨map, rfl, h.mono (by lia)⟩
  | true =>
    have inside (e : Nat × RecordId) (lies : FieldTypeLies s known type x e) :=
      settled.fieldTypeLies_inside cplusplus held wide lies
    refine (placeField?_ends settled.knows h.bounded (.inl trivial) explorable
      fun _ _ _ => .inr trivial).imp ?_
    rintro (_ | map') answer
    · refine absurd (fun k m contains o c empty member => ?_) answer
      have := h.before _ member
      have := inside (_, c) ⟨k, m, contains, o, empty, rfl⟩
      lia
    · obtain ⟨_, recorded⟩ := answer
      refine ⟨map', rfl, fun e member => ?_, recorded.bounded h.bounded, by simp [cplusplus]⟩
      rcases recorded.mem e member with old | new
      · have := h.before e old
        lia
      · have := inside e new
        lia

end Passed

end EmptyMap

namespace Itanium

variable {f : Frame} {st st' : State} {field : Field} {index : Nat} {layout : RecordLayout}

section Forget

/-- Every completed run of `x` is one of `y` as soon as the map is forgotten, and ends well. -/
def Forgets (known : Known) (K : State → Prop) (x y : LayoutM State) : Prop :=
  ∀ st, x.eval known = .ok st → y.eval known = .ok (st.withMap none) ∧ K st

variable {K : State → Prop}

namespace Forgets

theorem bind {x : LayoutM α} {y : LayoutM β} {next : α → LayoutM State} {next' : β → LayoutM State}
    (each : ∀ a, x.eval known = .ok a → ∃ b, y.eval known = .ok b ∧
      Forgets known K (next a) (next' b)) : Forgets known K (x >>= next) (y >>= next') := by
  intro st done
  obtain ⟨a, first, rest⟩ := eval_bind_eq_ok.mp done
  obtain ⟨b, first', forgets⟩ := each a first
  obtain ⟨rest', well⟩ := forgets st rest
  exact ⟨eval_bind_eq_ok.mpr ⟨b, first', rest'⟩, well⟩

theorem bind_same {x : LayoutM α} {next next' : α → LayoutM State}
    (each : ∀ a, x.eval known = .ok a → Forgets known K (next a) (next' a)) :
    Forgets known K (x >>= next) (x >>= next') :=
  bind fun a done => ⟨a, done, each a done⟩

theorem ite {c : Prop} [Decidable c] {x x' y y' : LayoutM State} (yes : c → Forgets known K x y)
    (no : ¬ c → Forgets known K x' y') :
    Forgets known K (if c then x else x') (if c then y else y') := by
  split
  · exact yes ‹c›
  · exact no ‹¬ c›

theorem foldlM {step step' : State → α → LayoutM State} {xs : List α} {st : State} (start : K st)
    (each : ∀ x ∈ xs, ∀ st, K st → Forgets known K (step st x) (step' (st.withMap none) x)) :
    Forgets known K (xs.foldlM step st) (xs.foldlM step' (st.withMap none)) := by
  induction xs generalizing st with
  | nil =>
    rintro _ ⟨⟩
    exact ⟨rfl, start⟩
  | cons x rest ih =>
    rw [List.foldlM_cons, List.foldlM_cons]
    refine bind fun mid done => ?_
    obtain ⟨done', well⟩ := each x List.mem_cons_self st start mid done
    exact ⟨_, done', ih well fun y member => each y (.tail _ member)⟩

/-- A step that does not look at the map does the same without it. -/
theorem blind {step : State → Checked State} (blind : Blind step)
    (well : ∀ st', step st = .ok st' → K st') :
    Forgets known K (liftM (step st)) (liftM (step (st.withMap none))) := by
  intro st' done
  rw [LayoutM.eval_lift] at done ⊢
  rw [blind, done]
  exact ⟨rfl, well st' done⟩

end Forgets

end Forget

section Fields

/-- Nothing stands in the way of what comes next. Unions do not ask. -/
structure Clear (f : Frame) (st : State) : Prop where
  passed : f.isUnion = false → ∀ map, st.emptyMap = some map → map.Passed f.setting st.used
  remaining : f.isUnion = false → st.unfilledBits ≤ st.dataSize

variable (work : Workable f known fun _ => True)
include work

/-- A field gets the first place that it asks for. -/
theorem chooseFieldOffset_first (member : field ∈ f.declaration.fields) {alignment start : Nat}
    (passed : f.isUnion = false → ∀ map, st.emptyMap = some map → map.Passed f.setting front)
    (wide : f.setting.width known field.type = .ok width)
    (past : f.isUnion = false → front ≤ 8 * start) :
    Ends (fun _ => True)
      ((chooseFieldOffset f st index field.type alignment start).eval known) fun found =>
        ∃ map, found = (st.withMap map, start) ∧ (f.isUnion = false → ∀ after, map = some after →
          after.Passed f.setting (8 * (start + width))) := by
  cases union : f.isUnion with
  | true =>
    rw [chooseFieldOffset_unasked work.unsupplied (.inl union)]
    exact ⟨st.emptyMap, rfl, nofun⟩
  | false =>
    cases mapped : st.emptyMap with
    | none =>
      rw [chooseFieldOffset_unasked work.unsupplied (.inr mapped)]
      exact ⟨none, by rw [← mapped]; rfl, nofun⟩
    | some map =>
      have held (m : RecordId) (names : field.type.constantArrayRecord? = some m) :
          f.setting.Holds f.record m := .of_field member (Ty.baseElement_of_constantArrayRecord? names)
      have placed : Ends (fun _ => True) ((st.placeField? f field.type start).eval known)
          fun answer => ∃ after, answer = some (st.withMap (some after)) ∧
            after.Passed f.setting (8 * (start + width)) := by
        unfold State.placeField?
        rw [union, mapped]
        apply LayoutM.ends_bind ((passed union map mapped).placeField work.settled held
          (fun m names => work.explorable m (.single (held m names))) wide (past union))
        rintro _ ⟨after, rfl, next⟩
        exact LayoutM.ends_bind Ends.any fun _ _ => ⟨after, rfl, next⟩
      unfold chooseFieldOffset
      simp only [work.unsupplied, Option.isNone_none, if_true, attemptsFrom]
      unfold probe
      apply LayoutM.ends_bind placed
      rintro _ ⟨after, rfl, next⟩
      exact ⟨some after, rfl, fun _ _ same => by cases same; exact next⟩

/-- A field that is no bit-field lies where it lies in the plain record. -/
theorem layField_forgets (clear : Clear f st) (member : field ∈ f.declaration.fields) :
    Forgets known (fun st' => f.isUnion = false → ∀ map, st'.emptyMap = some map →
        map.Passed f.setting st'.used) (layField f index field st)
      (layField { f with record := plain } index field (st.withMap none)) := by
  have alone : f.supplied.isNone = true := by rw [work.unsupplied]; rfl
  unfold layField
  refine .bind_same fun unpadded _ => ?_
  dsimp only
  refine .bind_same ?_
  rintro ⟨size, asked⟩ extent
  have wide := fieldExtent_width extent
  dsimp only at wide ⊢
  refine .bind_same fun start aligned => .bind_same fun unpacked _ => ?_
  have past (notUnion : f.isUnion = false) : st.used ≤ 8 * start := by
    have ceil := le_toBytesCeil st.dataSize
    have le := alignTo_le (by rwa [LayoutM.eval_lift] at aligned)
    have used : st.used ≤ st.dataSize := Nat.sub_le _ _
    rw [if_neg (by simp [notUnion])] at le
    change Bits.toBytesCeil st.dataSize ≤ start at le
    lia
  refine .bind fun found chosen => ?_
  have passed (notUnion : f.isUnion = false) (map : EmptyMap)
      (mapped : ({ st with unfilledBits := 0, storageUnit := 0 } : State).emptyMap = some map) :
      map.Passed f.setting st.used := clear.passed notUnion map mapped
  obtain ⟨map, rfl, next⟩ := (chooseFieldOffset_first work member passed wide past).value chosen
  rw [chooseFieldOffset_unasked (f := { f with record := plain }) work.unsupplied (.inr rfl)]
  refine ⟨_, rfl, .bind_same fun offset _ => ?_⟩
  simp only [alone, if_true]
  refine .bind_same fun _ _ => .bind_same fun _ _ => ?_
  refine .bind fun _ _ => ⟨(), eval_reportPlacement _, ?_⟩
  -- What is left once the end of the data is known.
  have close {left : State} {dataSize packed unpacked : Nat} (none : left.unfilledBits = 0)
      (mapped : left.emptyMap = map) (reaches : f.isUnion = false → 8 * (start + size) ≤ dataSize) :
      Forgets known (fun st' => f.isUnion = false → ∀ map, st'.emptyMap = some map →
          map.Passed f.setting st'.used)
        (liftM (((left.placeFieldAt offset).setDataSize dataSize).raiseAlignment f packed unpacked))
        (liftM ((((left.placeFieldAt offset).setDataSize dataSize).withMap .none).raiseAlignment f
          packed unpacked)) := by
    refine .blind (blind_raiseAlignment packed unpacked) fun st' done notUnion after here => ?_
    have frame := (Ends.holds (raiseAlignment_ends (.inr trivial) (.inr trivial)) done).frame
    have same : st'.emptyMap = map := by
      rw [frame]
      exact mapped
    have used : st'.used = dataSize := by
      rw [frame]
      change dataSize - left.unfilledBits = dataSize
      rw [none, Nat.sub_zero]
    rw [used]
    exact (next notUnion after (same ▸ here)).mono (reaches notUnion)
  refine .ite (fun union => ?_) fun notUnion => ?_
  · refine .bind_same fun bits _ => ?_
    rw [pure_bind, pure_bind]
    exact close rfl rfl fun notUnion => by simp [union] at notUnion
  · refine .bind_same fun stop sum => .bind_same fun bits whole => ?_
    rw [LayoutM.eval_lift] at sum whole
    obtain ⟨rfl, _⟩ := Quantity.add_eq_ok_iff.mp sum
    obtain ⟨rfl, _⟩ := Quantity.mul_eq_ok_iff.mp whole
    refine close rfl rfl fun _ => ?_
    rw [Quantity.bitsPerByte]
    lia

theorem layAnyField_forgets (clear : Clear f st) (member : field ∈ f.declaration.fields) :
    Forgets known (Clear f) (layAnyField f st (field, index))
      (layAnyField { f with record := plain } (st.withMap none) (field, index)) := by
  intro st' done
  obtain ⟨offset, laid⟩ := (layAnyField_ends work.unsupplied).value done
  have remaining (notUnion : f.isUnion = false) := laid.remaining notUnion (clear.remaining notUnion)
  unfold layAnyField at done ⊢
  cases stored : field.bitWidth with
  | none =>
    simp only [stored] at done ⊢
    obtain ⟨done', passed⟩ := layField_forgets work clear member st' done
    exact ⟨done', passed, remaining⟩
  | some width =>
    simp only [stored] at done ⊢
    have beside : Beside (fun map map' => map = st.emptyMap ∧ map' = none) st (st.withMap none) :=
      ⟨rfl, rfl, rfl⟩
    have mirrors : Mirrors known False (Beside fun map map' => map = st.emptyMap ∧ map' = none)
        (layBitField f index field width st)
        (layBitField { f with record := plain } index field width (st.withMap none)) :=
      layBitField_beside beside work.unsupplied width
    obtain ⟨after, done', beside, _⟩ := Ends.exists_value (mirrors st' done)
    obtain ⟨same, forgotten⟩ := beside.maps
    have frame : after = st'.withMap none := by
      rw [← forgotten]
      exact beside.frame
    subst frame
    refine ⟨done', fun notUnion map here => ?_, remaining⟩
    exact (clear.passed notUnion map (same ▸ here)).mono (laid.used_le notUnion (clear.remaining notUnion))

/-- All fields lie where they lie in a plain record that declares the same. -/
theorem layFields_forgets (clear : Clear f st)
    (fields : (f.tree.record plain).fields = f.declaration.fields) :
    Forgets known (Clear f) (layFields f st)
      (layFields { f with record := plain } (st.withMap none)) := by
  unfold layFields
  change Forgets known (Clear f) _
    ((f.tree.record plain).fields.zipIdx.foldlM (layAnyField { f with record := plain }) _)
  rw [fields]
  refine .foldlM clear fun entry member st clear => ?_
  exact layAnyField_forgets work clear (List.fst_mem_of_mem_zipIdx member)

end Fields

section Whole

/-- A class without bases starts with its table pointer, if it has one. -/
theorem layNonVirtualBases_noBases (bases : f.declaration.bases = []) (graph : st.graph = {})
    (primary : st.primaryBase = none) (indirect : st.indirectPrimaryBases = []) :
    layNonVirtualBases f st =
      if f.tree.isDynamic f.record then liftM (layTablePointer f st) else pure st := by
  have none : f.declaration.nonVirtualBases = [] := by rw [Record.nonVirtualBases, bases]; rfl
  have chosen : choosePrimaryBase f.setting f.record = pure (.none, []) := by
    have virtualBases : f.tree.hasVirtualBases f.record = false := Tree.hasVirtualBases_of_noBases bases
    have used : indirectPrimaryBases f.setting f.record = pure [] := by
      unfold indirectPrimaryBases
      change (f.declaration.bases.filter _).foldlM _ _ = _
      rw [bases]
      rfl
    have dynamicBase : firstDynamicBase? f.setting f.record = .none := by
      unfold firstDynamicBase?
      change (f.declaration.nonVirtualBases.find? _).map _ = _
      rw [none]
      rfl
    unfold choosePrimaryBase
    change (if (!f.tree.isDynamic f.record) = true then _ else _) = _
    rw [used, dynamicBase]
    split
    · rfl
    · change (if (!f.tree.hasVirtualBases f.record) = true then _ else _) = _
      rw [virtualBases]
      rfl
  have charted : SubobjectGraph.ofClass f.setting f.record = pure {} := by
    unfold SubobjectGraph.ofClass
    change f.declaration.bases.foldlM _ _ = _
    rw [bases]
    rfl
  have same : { st with primaryBase := .none, indirectPrimaryBases := [], graph := {} } = st := by
    rw [← graph, ← primary, ← indirect]
  unfold layNonVirtualBases
  rw [chosen, charted, none]
  simp only [pure_bind, List.foldlM_nil, bind_pure, same]

/-- A class that inherits nothing and declares nothing virtual starts with its fields. -/
theorem layNonVirtualBases_bare (bases : f.declaration.bases = [])
    (notDynamic : f.tree.isDynamic f.record = false) (graph : st.graph = {})
    (primary : st.primaryBase = none) (indirect : st.indirectPrimaryBases = []) :
    layNonVirtualBases f st = pure st := by
  rw [layNonVirtualBases_noBases bases graph primary indirect, notDynamic]
  rfl

theorem layVirtualBases_noBases (bases : f.declaration.bases = []) :
    layVirtualBases f st = pure st := by
  unfold layVirtualBases
  rw [layVirtualBasesBelow_eq (Tree.acyclic_of_noBases bases)]
  change f.declaration.bases.foldlM _ st = _
  rw [bases]
  rfl

/-- Only at size zero does it matter whether a record is a class. -/
theorem avoidSizeZero_forgets (isPlain : (f.tree.record plain).isClass = false)
    (done : st.avoidSizeZero f = .ok st')
    (agrees : f.setting.options.cplusplus = false ∨ st'.size ≠ 0) :
    (st.withMap none).avoidSizeZero { f with record := plain } = .ok (st'.withMap none) := by
  have plainly : (!(f.tree.record plain).isClass || f.tree.isEmptyClass plain) = true := by
    rw [isPlain]
    rfl
  unfold State.avoidSizeZero at done ⊢
  change (if (f.setting.options.cplusplus && st.size == 0 &&
    (!(f.tree.record plain).isClass || f.tree.isEmptyClass plain)) = true then _ else _) = _
  rw [plainly, Bool.and_true]
  split at done
  · rename_i zero
    rw [Bool.and_eq_true] at zero
    cases done
    rw [if_pos zero.1]
    rfl
  · cases done
    have some : (f.setting.options.cplusplus && st.size == 0) = false := by
      rcases agrees with off | some
      · rw [off]
        rfl
      · rw [beq_false_of_ne some, Bool.and_false]
    rw [some]
    rfl

@[simp] theorem eval_reportSize (st : State) (unpadded unpacked : Bits) :
    (reportSize f st unpadded unpacked).eval known = .ok () := by
  unfold reportSize
  split <;> split <;> rfl

theorem finish_forgets (unsupplied : f.supplied = none)
    (isPlain : (f.tree.record plain).isClass = false) (done : (finish f st).eval known = .ok st')
    (agrees : f.setting.options.cplusplus = false ∨ st'.size ≠ 0) :
    (finish { f with record := plain } (st.withMap none)).eval known = .ok (st'.withMap none) := by
  obtain ⟨sized, avoided, zero⟩ := (finish_zero unsupplied).value done
  have avoided' := avoidSizeZero_forgets isPlain avoided (agrees.imp_right (mt zero))
  have forgets : Forgets known (fun _ => True) (finish f st)
      (finish { f with record := plain } (st.withMap none)) := by
    unfold finish
    refine .bind fun sized' found => ⟨sized.withMap none, by rw [LayoutM.eval_lift, avoided'], ?_⟩
    rw [LayoutM.eval_lift, avoided] at found
    cases found
    refine .bind_same fun _ _ => .bind_same fun _ _ => .bind_same fun _ _ => .bind_same fun _ _ => ?_
    refine .bind_same fun rounded _ => ?_
    rw [unsupplied]
    refine .bind fun _ _ => ⟨(), eval_reportSize _ _ _, ?_⟩
    rintro _ ⟨⟩
    exact ⟨rfl, trivial⟩
  exact (forgets st' done).1

/-- A class without bases and virtual methods is laid out like a plain record. -/
theorem layClass_forgets (work : Workable f known fun _ => True)
    (alike : f.tree.DeclaredAlike plain f.record) (bare : f.setting.options.cplusplus = false →
      Ends (fun _ => True) ((EmptyMap.ofClass f.setting .pruned f.record).eval known) EmptyMap.IsBare)
    (done : (layClass f .pruned).eval known = .ok layout)
    (agrees : f.setting.options.cplusplus = false ∨ layout.size ≠ 0) :
    ∃ layout', (layPlain { f with record := plain }).eval known = .ok layout' ∧
      layout'.size = layout.size ∧ layout'.alignment = layout.alignment ∧
      layout'.requiredAlignment = layout.requiredAlignment ∧
      layout'.fieldOffsets = layout.fieldOffsets := by
  unfold layClass at done
  obtain ⟨map, built, done⟩ := eval_bind_eq_ok.mp done
  obtain ⟨start, begun, done⟩ := eval_bind_eq_ok.mp done
  obtain ⟨direct, based, done⟩ := eval_bind_eq_ok.mp done
  obtain ⟨fixed, fields, done⟩ := eval_bind_eq_ok.mp done
  obtain ⟨st, pass, done⟩ := eval_bind_eq_ok.mp done
  obtain ⟨last, finished, same⟩ := eval_bind_eq_ok.mp done
  cases same
  rw [LayoutM.eval_lift] at begun
  have frame := Ends.holds (initial_frame work.unsupplied (some map)) begun
  rw [layNonVirtualBases_bare alike.bases alike.notDynamic (by rw [frame]) (by rw [frame])
    (by rw [frame])] at based
  rw [layVirtualBases_noBases alike.bases] at pass
  cases based
  cases pass
  have clear : Clear f start := by
    rw [frame]
    refine ⟨fun _ map' same => ?_, fun _ => le_rfl⟩
    cases same
    obtain ⟨_, empty, _⟩ := Ends.holds (ofClass_ends work.sound .pruned) built
    exact ⟨fun e member => by simp [empty] at member, fun e member => by simp [empty] at member,
      fun off => Ends.holds (bare off) built⟩
  have begun' : State.initial { f with record := plain } none = .ok (start.withMap none) := by
    rw [initial_attributes alike.attributes.symm, initial_withMap work.unsupplied (some map), begun]
    rfl
  have fields' := (layFields_forgets work clear alike.fields.symm _ fields).1
  have finished' := finish_forgets work.unsupplied alike.isPlain finished
    (agrees.imp_right fun some zero => some (by rw [State.sizeInBytes, zero]; rfl))
  unfold layPlain
  refine ⟨_, eval_bind_eq_ok.mpr ⟨_, by rwa [LayoutM.eval_lift], eval_bind_eq_ok.mpr ⟨_, fields',
    eval_bind_eq_ok.mpr ⟨_, finished', rfl⟩⟩⟩, ?_⟩
  exact ⟨rfl, rfl, rfl, rfl⟩

end Whole

end Itanium

open Itanium

/-- Under the Itanium rules a plain record and a class that are declared alike are laid out alike. -/
theorem Setting.Knows.declaredAlike {bare : RecordId} {layout layout' : RecordLayout}
    (knows : s.Knows known) (itanium : s.IsItanium) (alike : s.tree.DeclaredAlike plain bare)
    (laid : known.record plain = .ok layout) (laid' : known.record bare = .ok layout')
    (agrees : s.options.cplusplus = false ∨ layout'.size ≠ 0) :
    layout.size = layout'.size ∧ layout.alignment = layout'.alignment ∧
      layout.requiredAlignment = layout'.requiredAlignment ∧
      layout.fieldOffsets = layout'.fieldOffsets := by
  have rules := knows.layout_eq itanium laid
  have rules' := knows.layout_eq itanium laid'
  rw [layoutTracking_eq, alike.isPlain, if_neg Bool.false_ne_true] at rules
  rw [layoutTracking_eq, if_pos alike.isClass] at rules'
  have work := Workable.of_knows knows (knows.grounded laid') (knows.settled itanium laid').sound
  have frame : Frame.ofRecord s plain none = { Frame.ofRecord s bare none with record := plain } := by
    simp only [Frame.ofRecord, alike.attributes, alike.isUnion]
  obtain ⟨found, done, same⟩ := layClass_forgets (f := Frame.ofRecord s bare none) work alike
    (fun off => knows.ofClass_isBare itanium off laid') rules' agrees
  rw [← frame, rules] at done
  cases done
  exact same

end ObjectLayout
