import ObjectLayout.Proofs.Itanium.Whole

/-! Every record that has a layout keeps the promises that whatever holds it relies on. The promises
are those of the pieces that the layout was computed from; what the record holds has a layout of its
own and keeps its promises first. -/
namespace ObjectLayout

variable {s : Setting} {known : Known} {r b v : RecordId} {layout : RecordLayout}

namespace Itanium

variable {f : Frame} {g : SubobjectGraph} {pieces : List Piece} {fixed st : State}
variable {own : Option RecordId} {x y index offset : Nat}

theorem Laid.stored_of_at {front : Nat} (h : Laid f known g front pieces st) {field : Field}
    (found : f.declaration.fields[index]? = some field) (stored : field.bitWidth = none)
    (at' : st.fieldOffsets[index]? = some offset) :
    ∃ width, f.setting.width known field.type = .ok width ∧ 8 ∣ offset ∧
      offset + 8 * width ≤ st.size :=
  h.stored index offset ((h.fields index offset).mpr at') field found stored

namespace ClassLaid

variable (h : ClassLaid f known own g pieces fixed st layout)
variable (laid : known.record f.record = .ok layout)
include h

/-- Every occurrence lies in the piece of the root that it hangs from. -/
theorem exists_piece {p : SubobjectId} (has : g.Has p) :
    ∃ i x o, Piece.base i x ∈ pieces ∧ PartAt f.setting known g (.base i) o (.base p) := by
  have charted := h.charted
  obtain ⟨i, root, path⟩ :=
    charted.forest.exists_root charted.sound.primariesInherited charted.acyclic has
  obtain ⟨x, member⟩ := h.roots i root
  obtain ⟨o, part⟩ := charted.exists_partAt path
  exact ⟨i, x, o, member, part⟩

include laid

theorem le_nonVirtualSize : fixed.size ≤ 8 * known.nonVirtualSize f.record := by
  obtain ⟨part, asClass, _, _, _, _, reaches, _⟩ := h.part
  simpa [Known.nonVirtualSize, Known.classLayout?_eq laid, asClass] using reaches

theorem le_size : st.size ≤ 8 * known.size f.record := by
  rw [Known.size_eq laid]
  exact h.size

theorem fieldOffset?_iff :
    known.fieldOffset? f.record index = some offset ↔ Piece.field index offset ∈ pieces := by
  rw [Known.fieldOffset?_eq laid, h.fieldOffsets, ← h.progress.laid.fields]

theorem baseOffset?_iff : known.baseOffset? f.record b = some x ↔
    ∃ i, Piece.base i x ∈ pieces ∧ (g.node i).isVirtual = false ∧ (g.node i).record = b := by
  obtain ⟨part, asClass, _, bases, _⟩ := h.part
  rw [Known.baseOffset?, Known.classLayout?_eq laid, asClass, Option.bind_some, bases]
  exact h.progress.laid.find?_base h.charted

/-- A virtual base lies where the piece that holds it puts it. -/
theorem virtualBaseOffset?_iff : known.virtualBaseOffset? f.record v = some y ↔
    ∃ i x p o, Piece.base i x ∈ pieces ∧ PartAt f.setting known g (.base i) o (.base p) ∧
      (g.node p).isVirtual = true ∧ (g.node p).record = v ∧ y = x + o := by
  obtain ⟨part, asClass, _, _, slots, _⟩ := h.part
  rw [Known.virtualBaseOffset?, Known.classLayout?_eq laid, asClass, Option.bind_some, slots,
    h.progress.laid.find?_slot h.charted]
  constructor
  · rintro ⟨piece, member, p, inside, record⟩
    cases piece with
    | field => cases inside
    | base i x =>
      obtain ⟨virt, o, part, same⟩ := (mem_occurrences h.charted).mp inside
      exact ⟨i, x, p, o, member, part, virt, record, same⟩
  · rintro ⟨i, x, p, o, member, part, virt, record, same⟩
    exact ⟨_, member, p, (mem_occurrences h.charted).mpr ⟨virt, o, part, same⟩, record⟩

/-- The direct non-virtual bases are those with an offset of their own. -/
theorem baseOffset?_isSome :
    (known.baseOffset? f.record b).isSome ↔ f.tree.InheritsPlainly f.record b := by
  refine Iff.trans ?_ (h.charted.forest.plain b)
  rw [Option.isSome_iff_exists, Option.isSome_iff_exists]
  constructor
  · rintro ⟨x, at'⟩
    obtain ⟨i, member, plain, rfl⟩ := (h.baseOffset?_iff laid).mp at'
    rcases h.charted.forest.root_cases (h.progress.laid.rooted i x member) with ⟨_, found⟩ | ⟨virt, _⟩
    · exact ⟨i, found⟩
    · rw [plain] at virt
      cases virt
  · rintro ⟨i, found⟩
    obtain ⟨_, record, plain, _⟩ := h.charted.forest.direct b i found
    obtain ⟨x, member⟩ := h.roots i (h.charted.forest.direct_isRoot found)
    exact ⟨x, (h.baseOffset?_iff laid).mpr ⟨i, member, plain, record⟩⟩

/-- All virtual bases have an offset, whether or not something has claimed them. -/
theorem virtualBaseOffset?_isSome :
    (known.virtualBaseOffset? f.record v).isSome ↔ f.tree.HasVirtualBase f.record v := by
  rw [Option.isSome_iff_exists]
  constructor
  · rintro ⟨y, at'⟩
    obtain ⟨i, x, p, o, member, part, virt, rfl, _⟩ := (h.virtualBaseOffset?_iff laid).mp at'
    have has := h.charted.forest.has_descendant (h.progress.laid.rooted _ _ member).1 part.path
    exact h.charted.forest.virtual p has virt
  · intro has
    obtain ⟨p, found⟩ := Option.isSome_iff_exists.mp (h.charted.forest.covered v has)
    obtain ⟨has, record, virt⟩ := h.charted.forest.found v p found
    obtain ⟨i, x, o, member, part⟩ := h.exists_piece has
    exact ⟨x + o, (h.virtualBaseOffset?_iff laid).mpr ⟨i, x, p, o, member, part, virt, record, rfl⟩⟩

theorem sound (isClass : f.declaration.isClass = true)
    (settled : Settled f.setting known f.record) : Sound f.setting known f.record := by
  obtain ⟨part, asClass, primary, _, _, power, _, reaches, large⟩ := h.part
  have part_eq : known.classLayout? f.record = some part := (Known.classLayout?_eq laid).trans asClass
  have size := h.le_size laid
  have nonVirtualSize := h.le_nonVirtualSize laid
  obtain ⟨before, progress, bases, fields⟩ := h.before
  constructor
  case laid =>
    refine ⟨layout, laid, ?_, ?_⟩
    · rw [asClass]
      exact isClass.symm
    · rw [h.fieldOffsets]
      exact h.count
  case fields =>
    intro index field offset found stored at'
    have member := (h.fieldOffset?_iff laid).mp at'
    obtain ⟨width, wide, whole, inside⟩ :=
      h.progress.laid.stored index offset member field found stored
    refine ⟨width, wide, whole, inside.trans size, fun _ => ?_⟩
    obtain ⟨width', wide', _, inside'⟩ :=
      progress.laid.stored index offset (fields index offset member) field found stored
    rw [wide] at wide'
    cases wide'
    exact inside'.trans nonVirtualSize
  case nonVirtual =>
    intro _
    rw [Known.nonVirtualSize, part_eq, Known.size_eq laid]
    exact reaches
  case aligned =>
    intro _
    rw [Known.nonVirtualAlignment, part_eq]
    exact power
  case bases => exact fun b => h.baseOffset?_isSome laid
  case virtualBases => exact fun v => h.virtualBaseOffset?_isSome laid
  case primary =>
    intro v names
    rw [Known.virtualPrimary?_eq laid, RecordLayout.virtualPrimaryBase?, RecordLayout.primaryBase?,
      asClass, Option.bind_some, primary, Option.map_eq_some_iff] at names
    obtain ⟨chosen, virt, rfl⟩ := names
    obtain ⟨used, choice⟩ := h.choice
    apply choice.virtual
    obtain ⟨same, isVirtual⟩ := Option.filter_eq_some_iff.mp virt
    rw [same, ← isVirtual]
  case base_inside =>
    intro b x at'
    obtain ⟨i, member, plain, rfl⟩ := (h.baseOffset?_iff laid).mp at'
    have inside := progress.laid.inside i x (bases i x member plain)
    refine ⟨h.progress.laid.isClass i x member, ?_⟩
    exact Nat.le_of_mul_le_mul_left (inside.trans nonVirtualSize) (by decide)
  case virtualBase_inside =>
    intro v y at'
    obtain ⟨i, x, p, o, member, inside, _, rfl, rfl⟩ := (h.virtualBaseOffset?_iff laid).mp at'
    have root := h.progress.laid.rooted i x member
    have path := SoundBelow.inherits (h.charted.forest.below i root.1)
    obtain ⟨_, isClass, reaches⟩ := settled.partAt_inside (p := .base i) h.charted.faithful path
      (h.progress.laid.isClass i x member) inside
    have room := (h.progress.laid.inside i x member).trans size
    refine ⟨isClass, ?_⟩
    change o + f.setting.span known (g.node p).record ≤ f.setting.span known (g.node i).record
      at reaches
    omega
  case dynamic =>
    intro dynamic
    have pointer := (h.dynamic dynamic).1.trans nonVirtualSize
    exact Nat.le_of_mul_le_mul_left pointer (by decide)
  case empty =>
    intro cplusplus empty
    rw [Known.size_eq laid]
    exact h.positive cplusplus empty
  case largest =>
    intro held layout' inner laid' _ holds found
    rw [laid] at laid'
    cases laid'
    rw [← Setting.largestIn_eq found, RecordLayout.largestEmptySubobject, asClass]
    exact large held holds

end ClassLaid

/-- A record without bases promises no more than its fields. -/
theorem PlainLaid.sound (h : PlainLaid f known g pieces st layout)
    (laid : known.record f.record = .ok layout) (plain : f.declaration.isClass = false)
    (acyclic : f.tree.Acyclic f.record) : Sound f.setting known f.record := by
  have part : known.classLayout? f.record = none := (Known.classLayout?_eq laid).trans h.asClass
  have noBase (b : RecordId) : ¬ f.tree.Inherits f.record b := fun edge => by
    rw [Frame.declaration, Tree.isClass_of_inherits edge] at plain
    cases plain
  have noVirtualBase (v : RecordId) : ¬ f.tree.HasVirtualBase f.record v := fun has => by
    rw [Frame.declaration, has.isClass] at plain
    cases plain
  have notClass : ¬ (f.setting.tree.record f.record).isClass = true := by
    rw [Bool.not_eq_true]
    exact plain
  constructor
  case laid =>
    refine ⟨layout, laid, ?_, ?_⟩
    · rw [h.asClass]
      exact plain.symm
    · rw [h.fieldOffsets]
      exact h.count
  case fields =>
    intro index field offset found stored at'
    rw [Known.fieldOffset?_eq laid, h.fieldOffsets] at at'
    obtain ⟨width, wide, whole, inside⟩ := h.progress.laid.stored_of_at found stored at'
    refine ⟨width, wide, whole, ?_, fun isClass => absurd isClass notClass⟩
    rw [Known.size_eq laid]
    exact inside.trans h.size
  case nonVirtual => exact fun isClass => absurd isClass notClass
  case aligned => exact fun isClass => absurd isClass notClass
  case bases =>
    intro b
    rw [Known.baseOffset?, part]
    exact iff_of_false (by simp) fun edge => noBase b edge.inherits
  case virtualBases =>
    intro v
    rw [Known.virtualBaseOffset?, part]
    exact iff_of_false (by simp) (noVirtualBase v)
  case primary =>
    intro v names
    rw [Known.virtualPrimary?_eq laid, RecordLayout.virtualPrimaryBase?, RecordLayout.primaryBase?,
      h.asClass] at names
    cases names
  case base_inside =>
    intro b offset at'
    rw [Known.baseOffset?, part] at at'
    cases at'
  case virtualBase_inside =>
    intro v offset at'
    rw [Known.virtualBaseOffset?, part] at at'
    cases at'
  case dynamic => exact fun dynamic => absurd (isClass_of_isDynamic acyclic dynamic) notClass
  case empty => exact fun _ empty => absurd (Tree.isEmptyClass_isClass acyclic empty) notClass
  case largest =>
    intro held layout' inner laid' isSome
    rw [laid] at laid'
    cases laid'
    rw [h.asClass] at isSome
    cases isSome

/-- Everything below a known record being sound, laying out the record can only end or overflow. -/
theorem Workable.of_knows (knows : s.Knows known) (grounded : Grounded s.Holds r)
    (below : SoundBelow s known r) : Workable (Frame.ofRecord s r none) known fun _ => True where
  knows := knows
  unsupplied := rfl
  overflow := trivial
  grounded := grounded
  explorable _ path :=
    { grounded := grounded.lowerAll path.to_reflTransGen
      sound := below _ path
      below := fun _ further => below _ (path.trans further) }
  union _ _ _ := ⟨trivial, trivial⟩
  powers := .inr trivial
  plain _ _ _ := trivial
  repeats _ := trivial

theorem layoutTracking_eq (tracking : Tracking) :
    layoutTracking tracking s r none = if (s.tree.record r).isClass then
      layClass (Frame.ofRecord s r none) tracking else layPlain (Frame.ofRecord s r none) :=
  rfl

end Itanium

/-- The Itanium rules apply and nothing is supplied to them. -/
structure Setting.IsItanium (s : Setting) : Prop where
  rules : s.usesMicrosoftLayout = false
  unsupplied : ∀ r, s.suppliedLayout? r = none

/-- C++ declarations for 64-bit Linux, with nothing supplied. -/
def Setting.linux (records : List Record) (methods : List Method) : Setting where
  tree := { records := ⟨records.toArray⟩, methods := ⟨methods.toArray⟩, typeCount := records.length }
  target := { arch := some .x86_64, os := some .linux }
  options := { cplusplus := true }

theorem Setting.linux_isItanium (records : List Record) (methods : List Method) :
    (Setting.linux records methods).IsItanium :=
  ⟨rfl, fun _ => rfl⟩

theorem Setting.linux_record {P : Record → Prop} {records : List Record} (methods : List Method)
    (declared : ∀ record ∈ records, P record) (undeclared : P .undeclared) (r : RecordId) :
    P ((Setting.linux records methods).tree.record r) :=
  Tree.forall_record declared undeclared r

namespace Setting.Knows

open Itanium

variable (knows : s.Knows known) (itanium : s.IsItanium)
include knows itanium

/-- A known layout is one that the Itanium rules end with. -/
theorem layout_eq (laid : known.record r = .ok layout) :
    (layoutTracking .pruned s r none).eval known = .ok layout := by
  have rules := (RecordLayout.ofRecord_itanium itanium.rules (knows.record laid)).2
  rwa [itanium.unsupplied r] at rules

theorem classLaid_of (laid : known.record r = .ok layout) (below : SoundBelow s known r)
    (isClass : (s.tree.record r).isClass = true) : ∃ own g pieces fixed st,
      ClassLaid (Frame.ofRecord s r none) known own g pieces fixed st layout := by
  have rules := knows.layout_eq itanium laid
  rw [layoutTracking_eq, if_pos isClass] at rules
  have work := Workable.of_knows knows (knows.grounded laid) below
  exact (layClass_ends work .pruned).value rules

theorem plainLaid_of (laid : known.record r = .ok layout) (below : SoundBelow s known r)
    (plain : (s.tree.record r).isClass = false) : ∃ g pieces st,
      PlainLaid (Frame.ofRecord s r none) known g pieces st layout := by
  have rules := knows.layout_eq itanium laid
  rw [layoutTracking_eq, plain, if_neg Bool.false_ne_true] at rules
  have work := Workable.of_knows knows (knows.grounded laid) below
  exact (layPlain_ends work plain).value rules

/-- A known record is sound, and so is everything below it. -/
theorem sound_and_below (laid : known.record r = .ok layout) :
    Sound s known r ∧ SoundBelow s known r := by
  have grounded := knows.grounded laid
  induction grounded generalizing layout with
  | intro r lower ih =>
    have below : SoundBelow s known r := by
      intro r' path
      obtain ⟨held, holds, further⟩ := Relation.TransGen.head'_iff.mp path
      obtain ⟨_, laid'⟩ := knows.held laid holds
      obtain ⟨sound, below⟩ := ih held holds laid'
      rcases Relation.reflTransGen_iff_eq_or_transGen.mp further with rfl | deeper
      · exact sound
      · exact below r' deeper
    have grounded : Grounded s.Holds r := .intro lower
    refine ⟨?_, below⟩
    cases isClass : (s.tree.record r).isClass with
    | true =>
      obtain ⟨own, g, pieces, fixed, st, h⟩ := knows.classLaid_of itanium laid below isClass
      exact h.sound laid isClass ⟨knows, grounded, below⟩
    | false =>
      obtain ⟨g, pieces, st, h⟩ := knows.plainLaid_of itanium laid below isClass
      exact h.sound laid isClass (grounded.mono fun _ _ edge => Tree.Inherits.holds edge)

theorem sound (laid : known.record r = .ok layout) : Sound s known r :=
  (knows.sound_and_below itanium laid).1

theorem settled (laid : known.record r = .ok layout) : Settled s known r :=
  ⟨knows, knows.grounded laid, (knows.sound_and_below itanium laid).2⟩

theorem classLaid (laid : known.record r = .ok layout)
    (isClass : (s.tree.record r).isClass = true) : ∃ own g pieces fixed st,
      ClassLaid (Frame.ofRecord s r none) known own g pieces fixed st layout :=
  knows.classLaid_of itanium laid (knows.settled itanium laid).sound isClass

omit itanium in
/-- What a known class inherits is known. -/
theorem inherited (laid : known.record r = .ok layout)
    (path : Relation.ReflTransGen s.tree.Inherits r b) : ∃ layout, known.record b = .ok layout :=
  knows.reached ⟨layout, laid⟩
    (Relation.ReflTransGen.mono (fun _ _ edge => Tree.Inherits.holds edge) _ _ path)

end Setting.Knows

end ObjectLayout
