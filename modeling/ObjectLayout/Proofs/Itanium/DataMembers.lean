import Mathlib.Order.CompletePartialOrder
import Mathlib.Order.Interval.Set.Disjoint
import ObjectLayout.Proofs.Occurrence

/-! The data members of a complete object. Where neither unions nor `ms_struct` are involved, every
piece of a class has its data past that of all pieces before it, so two members can only meet in the
same piece, which is a base with a layout of its own. A virtual base that shares its place with its
claimant holds nothing but a table pointer. -/
namespace ObjectLayout

variable {s : Setting} {known : Known} {b c d e v : RecordId} {layout : RecordLayout}
variable {path path' : List RecordId} {index index' start stop start' stop' : Nat}

/-- No class that `d` is or inherits is a union or laid out by the rules of `ms_struct`. -/
structure Setting.IsSequentialBelow (s : Setting) (d : RecordId) : Prop where
  options : s.options.msBitFields = false
  classes : ∀ c, Relation.ReflTransGen s.tree.Inherits d c →
    (s.tree.record c).isUnion = false ∧ (s.tree.record c).attributes.isMsStruct = false

namespace Setting.IsSequentialBelow

variable (sequential : s.IsSequentialBelow d)
include sequential

theorem lower (path : Relation.ReflTransGen s.tree.Inherits d b) : s.IsSequentialBelow b where
  options := sequential.options
  classes c further := sequential.classes c (path.trans further)

theorem frame : (Itanium.Frame.ofRecord s d none).IsSequential := by
  obtain ⟨notUnion, notMsStruct⟩ := sequential.classes d .refl
  refine ⟨notUnion, ?_⟩
  change ((s.tree.record d).attributes.isMsStruct || s.options.msBitFields) = false
  rw [notMsStruct, sequential.options]
  rfl

end Setting.IsSequentialBelow

namespace Itanium

variable {f : Frame} {own : Option RecordId} {g : SubobjectGraph} {pieces : List Piece}
variable {fixed st : State} {piece piece' : Piece} {front : Nat}

/-- Of two pieces with data one lies before the other. -/
theorem Laid.apart (h : Laid f known g front pieces st) (sequential : f.IsSequential)
    (member : piece ∈ pieces) (member' : piece' ∈ pieces) (differs : piece ≠ piece')
    (full : piece.isHollow f g = false) (full' : piece'.isHollow f g = false) :
    piece.stop f known g ≤ piece'.start ∨ piece'.stop f known g ≤ piece.start := by
  have ordered := (h.ordered sequential).imp (S := fun piece piece' =>
    Piece.Before f known g piece piece' ∨ Piece.Before f known g piece' piece) .inl
  have symm : Std.Symm fun piece piece' =>
      Piece.Before f known g piece piece' ∨ Piece.Before f known g piece' piece :=
    ⟨fun _ _ => Or.symm⟩
  exact (ordered.forall member member' differs).imp (· full full') (· full' full)

end Itanium

open Itanium

/-- Fields of an empty class have no bits. -/
theorem PlainFieldAt.hollow (acyclic : s.tree.Acyclic c) (empty : s.tree.isEmptyClass c = true)
    (h : PlainFieldAt s known c path index start stop) : stop = start := by
  obtain ⟨e, x, first, last, at', ⟨field, bits, found, has, _, same⟩, rfl, rfl⟩ := h
  have width : ∀ {c e : RecordId} {path : List RecordId} {x : Nat}, s.tree.Acyclic c →
      s.tree.isEmptyClass c = true → PlainBaseAt s known c path e x →
      (s.tree.record e).fields[index]? = some field → field.bitWidth = some 0 := by
    intro c e path x acyclic empty at' found
    induction at' with
    | here c => exact Tree.isEmptyClass_bitWidth acyclic empty (List.mem_of_getElem? found)
    | under edge _ _ ih =>
      obtain ⟨base, member, rfl⟩ := edge
      have bases := List.mem_of_mem_filter member
      exact ih (acyclic.lower ⟨base, bases, rfl⟩) (Tree.isEmptyClass_base acyclic empty bases).2 found
  have none : bits = 0 := by
    rw [← has.eq, Setting.bits, width acyclic empty at' found]
  rw [same, none, Nat.add_zero]

namespace Itanium

/-- The name of a base subobject that is found from a root along a path. -/
def rootedAt (g : SubobjectGraph) (i : SubobjectId) (path : List RecordId) : Occurrence :=
  if (g.node i).isVirtual then ⟨some (g.node i).record, path⟩ else ⟨none, (g.node i).record :: path⟩

/-- The bits of a field lie in a piece, and the field is one of the piece. -/
def Piece.Houses (s : Setting) (known : Known) (g : SubobjectGraph) (o : Occurrence)
    (index start stop : Nat) : Piece → Prop
  | .field index' offset => o = ⟨none, []⟩ ∧ index' = index ∧ offset = start
  | .base i x => ∃ path first last, o = rootedAt g i path ∧
    PlainFieldAt s known (g.node i).record path index first last ∧
      start = 8 * x + first ∧ stop = 8 * x + last

end Itanium

/-- A field of the class itself is a piece. -/
theorem HasField.piece (h : ClassLaid f known own g pieces fixed st layout)
    (laid : known.record f.record = .ok layout)
    (field : HasField f.setting known f.record index start stop) :
    Piece.field index start ∈ pieces ∧ (Piece.field index start).stop f known g = stop := by
  obtain ⟨declared, bits, found, has, at', rfl⟩ := field
  refine ⟨(h.fieldOffset?_iff laid).mp at', ?_⟩
  have found : f.declaration.fields[index]? = some declared := found
  rw [Piece.stop, found, ← has.eq]
  rfl

section Class

variable (knows : s.Knows known) (itanium : s.IsItanium)
include knows itanium

/-- The fields of a class and of its non-virtual bases lie in its non-virtual part. -/
theorem PlainFieldAt.inside (laid : known.record c = .ok layout)
    (sequential : s.IsSequentialBelow c) (isClass : (s.tree.record c).isClass = true)
    (h : PlainFieldAt s known c path index start stop) : stop ≤ 8 * known.nonVirtualSize c := by
  induction path generalizing c layout start stop with
  | nil =>
    obtain ⟨_, field⟩ | ⟨_, _, _, _, _, none, _⟩ := plainFieldAt_iff.mp h
    · obtain ⟨own, g, pieces, fixed, st, built⟩ := knows.classLaid itanium laid isClass
      obtain ⟨member, rfl⟩ := HasField.piece built laid field
      obtain ⟨before, progress, _, fields⟩ := built.before
      have reached := progress.laid.reached sequential.frame _ (fields _ _ member) rfl
      have used : fixed.used ≤ fixed.dataSize := Nat.sub_le _ _
      exact (reached.trans used).trans (progress.laid.sized.trans (built.le_nonVirtualSize laid))
    · cases none
  | cons b rest ih =>
    obtain ⟨none, _⟩ | ⟨b', rest', offset, first, last, same, edge, at', deeper, rfl, rfl⟩ :=
      plainFieldAt_iff.mp h
    · cases none
    · cases same
      obtain ⟨_, laid'⟩ := knows.inherited laid (.single edge.inherits)
      obtain ⟨isClass', inside⟩ := (knows.sound itanium laid).base_inside b offset at'
      have reaches := ih laid' (sequential.lower (.single edge.inherits)) isClass' deeper
      have span := (knows.sound itanium laid').nonVirtual_le_span isClass'
      omega

/-- Nothing in the non-virtual part of a dynamic class lies before the end of its table pointer. -/
theorem PlainFieldAt.past_pointer (laid : known.record c = .ok layout)
    (sequential : s.IsSequentialBelow c) (dynamic : s.tree.isDynamic c = true)
    (h : PlainFieldAt s known c path index start stop) (wide : start < stop) :
    8 * s.target.pointerWidth ≤ start := by
  induction path generalizing c layout start stop with
  | nil =>
    have acyclic := (knows.grounded laid).mono fun _ _ edge => Tree.Inherits.holds edge
    obtain ⟨_, field⟩ | ⟨_, _, _, _, _, none, _⟩ := plainFieldAt_iff.mp h
    · obtain ⟨own, g, pieces, fixed, st, built⟩ :=
        knows.classLaid itanium laid (isClass_of_isDynamic acyclic dynamic)
      exact (built.dynamic dynamic).2.2 sequential.frame _ _ (HasField.piece built laid field).1
    · cases none
  | cons b rest ih =>
    have acyclic := (knows.grounded laid).mono fun _ _ edge => Tree.Inherits.holds edge
    obtain ⟨none, _⟩ | ⟨b', rest', offset, first, last, same, edge, at', deeper, rfl, rfl⟩ :=
      plainFieldAt_iff.mp h
    · cases none
    · cases same
      obtain ⟨_, laid'⟩ := knows.inherited laid (.single edge.inherits)
      obtain ⟨own, g, pieces, fixed, st, built⟩ :=
        knows.classLaid itanium laid (isClass_of_isDynamic acyclic dynamic)
      obtain ⟨i, member, plain, rfl⟩ := (built.baseOffset?_iff laid).mp at'
      have full : s.tree.isEmptyClass (g.node i).record = false := by
        by_contra empty
        rw [Bool.not_eq_false] at empty
        have none := deeper.hollow (acyclic.lower edge.inherits) empty
        omega
      rcases (built.dynamic dynamic).2.1 i offset member plain full with past | ⟨rfl, dynamic'⟩
      · change s.target.pointerWidth ≤ offset at past
        lia
      · have past := ih laid' (sequential.lower (.single edge.inherits)) dynamic' deeper (by omega)
        lia

/-- A virtual base that something has claimed has no fields with any bits. -/
theorem PlainFieldAt.not_wide_of_nearlyEmpty (laid : known.record v = .ok layout)
    (sequential : s.IsSequentialBelow v) (nearly : NearlyEmpty s known v)
    (h : PlainFieldAt s known v path index start stop) : ¬ start < stop := by
  intro wide
  have acyclic := (knows.grounded laid).mono fun _ _ edge => Tree.Inherits.holds edge
  have isClass := isClass_of_isDynamic acyclic nearly.dynamic
  have past := h.past_pointer knows itanium laid sequential nearly.dynamic wide
  have inside := h.inside knows itanium laid sequential isClass
  have span := (knows.sound itanium laid).nonVirtual_le_span isClass
  rw [nearly.span_eq acyclic] at span
  lia

/-- Every field with any bits lies in a piece with data. -/
theorem FieldAt.exists_piece {o : Occurrence} (laid : known.record d = .ok layout)
    (sequential : s.IsSequentialBelow d)
    (built : ClassLaid (Frame.ofRecord s d none) known own g pieces fixed st layout)
    (h : FieldAt s known d o index start stop) (wide : start < stop) :
    ∃ piece ∈ pieces, piece.isHollow (Frame.ofRecord s d none) g = false ∧
      piece.start ≤ start ∧ stop ≤ piece.stop (Frame.ofRecord s d none) known g ∧
        piece.Houses s known g o index start stop := by
  have acyclic := (knows.grounded laid).mono fun _ _ edge => Tree.Inherits.holds edge
  -- A root with such a field is not empty, and all its fields lie in its non-virtual part.
  have root {i : SubobjectId} {x first last : Nat} {path : List RecordId}
      (member : Piece.base i x ∈ pieces) (named : o = rootedAt g i path)
      (field : PlainFieldAt s known (g.node i).record path index first last)
      (begins : start = 8 * x + first) (ends : stop = 8 * x + last) :
      ∃ piece ∈ pieces, piece.isHollow (Frame.ofRecord s d none) g = false ∧
        piece.start ≤ start ∧ stop ≤ piece.stop (Frame.ofRecord s d none) known g ∧
          piece.Houses s known g o index start stop := by
    have below := built.charted.forest.below i (built.progress.laid.rooted i x member).1
    obtain ⟨_, laid'⟩ := knows.inherited laid below.to_reflTransGen
    have isClass := built.progress.laid.isClass i x member
    have sequential' := sequential.lower below.to_reflTransGen
    refine ⟨.base i x, member, ?_, ?_, ?_, path, first, last, named, field, begins, ends⟩
    · change s.tree.isEmptyClass (g.node i).record = false
      by_contra empty
      rw [Bool.not_eq_false] at empty
      have none := field.hollow (acyclic.lowerAll below.to_reflTransGen) empty
      omega
    · change 8 * x ≤ start
      omega
    · have inside := field.inside knows itanium laid' sequential' isClass
      change stop ≤ 8 * (x + known.nonVirtualSize (g.node i).record)
      omega
  rcases fieldAt_iff.mp h with ⟨none, plain⟩ |
    ⟨v, x, first, last, some, member, at', field, begins, ends⟩
  · rcases plainFieldAt_iff.mp plain with ⟨empty, field⟩ |
      ⟨b, rest, x, first, last, path, edge, at', field, begins, ends⟩
    · obtain ⟨member, same⟩ := HasField.piece built laid field
      refine ⟨_, member, rfl, le_rfl, same.ge, ?_, rfl, rfl⟩
      obtain ⟨_, _⟩ := o
      cases none
      cases empty
      rfl
    · obtain ⟨i, member, notVirtual, rfl⟩ := (built.baseOffset?_iff laid).mp at'
      refine root member ?_ field begins ends
      obtain ⟨_, _⟩ := o
      cases none
      cases path
      simp [rootedAt, notVirtual]
  · obtain ⟨i, x, p, y, placed, part, virt, rfl, rfl⟩ := (built.virtualBaseOffset?_iff laid).mp at'
    rcases built.charted.claimed_or_self part virt with ⟨rfl, rfl⟩ | ⟨k, _, claimed⟩
    · refine root placed ?_ field begins ends
      obtain ⟨_, _⟩ := o
      cases some
      simp [rootedAt, virt]
    · have child : g.Child k p := .inr claimed
      have sound := built.charted.sound_node child.has_parent
      have nearly := (sound.primary _ (built.charted.forest.claimed_record claimed).2.2).2
      have below := (Tree.HasVirtualBase.of_mem member).below
      obtain ⟨_, laid'⟩ := knows.inherited laid below.to_reflTransGen
      have sequential' := sequential.lower below.to_reflTransGen
      exact absurd (by omega : first < last)
        (field.not_wide_of_nearlyEmpty knows itanium laid' sequential' nearly)

/-- No two fields of a complete object share a bit. -/
theorem FieldAt.disjoint {o o' : Occurrence} (laid : known.record d = .ok layout)
    (sequential : s.IsSequentialBelow d) (isClass : (s.tree.record d).isClass = true)
    (first : FieldAt s known d o index start stop)
    (second : FieldAt s known d o' index' start' stop') (differs : (o, index) ≠ (o', index')) :
    Disjoint (Set.Ico start stop) (Set.Ico start' stop') := by
  have grounded : Grounded (Relation.TransGen s.tree.Inherits) d :=
    ((knows.grounded laid).mono fun _ _ edge => Tree.Inherits.holds edge).transGen
  induction grounded generalizing o o' index index' start stop start' stop' layout with
  | intro d _ ih =>
    obtain ⟨own, g, pieces, fixed, st, built⟩ := knows.classLaid itanium laid isClass
    apply Set.disjoint_left.mpr
    rintro bit ⟨from', below⟩ ⟨from'', below'⟩
    obtain ⟨piece, member, full, starts, stops, houses⟩ :=
      first.exists_piece knows itanium laid sequential built (by omega)
    obtain ⟨piece', member', full', starts', stops', houses'⟩ :=
      second.exists_piece knows itanium laid sequential built (by omega)
    by_cases same : piece = piece'
    · subst same
      cases piece with
      | field k offset =>
        obtain ⟨rfl, rfl, _⟩ := houses
        obtain ⟨rfl, rfl, _⟩ := houses'
        exact differs rfl
      | base i x =>
        obtain ⟨path, a, b, rfl, field, rfl, rfl⟩ := houses
        obtain ⟨path', a', b', rfl, field', rfl, rfl⟩ := houses'
        have inherits := built.charted.forest.below i (built.progress.laid.rooted i x member).1
        obtain ⟨_, laid'⟩ := knows.inherited laid inherits.to_reflTransGen
        have distinct : ((⟨none, path⟩ : Occurrence), index) ≠ (⟨none, path'⟩, index') := by
          intro same
          cases same
          exact differs rfl
        have apart := ih (g.node i).record inherits laid'
          (sequential.lower inherits.to_reflTransGen) (built.progress.laid.isClass i x member)
          (fieldAt_iff.mpr (.inl ⟨rfl, field⟩)) (fieldAt_iff.mpr (.inl ⟨rfl, field'⟩)) distinct
        have inside : bit - 8 * x ∈ Set.Ico a b := ⟨by omega, by omega⟩
        exact Set.disjoint_left.mp apart inside ⟨by omega, by omega⟩
    · rcases built.progress.laid.apart sequential.frame member member' same full full' with
        before | after
      · omega
      · omega

end Class

/-- The bits of the fields of a complete object, each field in the base subobject that declares it. -/
structure FieldsApart (s : Setting) (known : Known) (d : RecordId) (layout : RecordLayout) :
    Prop where
  placed : AllPlaced s known d
  disjoint : ∀ o o' index index' start stop start' stop', FieldAt s known d o index start stop →
    FieldAt s known d o' index' start' stop' → (o, index) ≠ (o', index') →
      Disjoint (Set.Ico start stop) (Set.Ico start' stop')
  inside : ∀ o index start stop, FieldAt s known d o index start stop → stop ≤ 8 * layout.size
  nonVirtual : ∀ path index start stop, FieldAt s known d ⟨none, path⟩ index start stop →
    ∃ size, layout.nonVirtualSize = .ok size ∧ stop ≤ 8 * size
  pointer : ∀ o e x, BaseAt s known d o e x → s.tree.isDynamic e = true →
    ∀ index start stop, HasField s known e index start stop → 8 * s.target.pointerWidth ≤ start

/-- In a class without unions and `ms_struct` no two fields share a bit, every field lies inside, and
the table pointer of a dynamic class is left alone. -/
theorem fields_never_overlap {depth : Nat} (itanium : s.IsItanium)
    (sequential : s.IsSequentialBelow d) (isClass : (s.tree.record d).isClass = true)
    (laid : (s.known depth).record d = .ok layout) : FieldsApart s (s.known depth) d layout := by
  have knows := Setting.known_knows itanium.rules depth
  have sound := knows.sound itanium laid
  obtain ⟨part, asClass⟩ : ∃ part, layout.asClass = some part := by
    obtain ⟨layout', laid', isSome, _⟩ := sound.laid
    rw [laid] at laid'
    cases laid'
    exact Option.isSome_iff_exists.mp (isSome.trans isClass)
  have nonVirtualSize : (s.known depth).nonVirtualSize d = part.nonVirtualSize := by
    rw [Known.nonVirtualSize, Known.classLayout?_eq laid, asClass]
    rfl
  have size := Known.size_eq laid
  constructor
  case placed => exact knows.allPlaced itanium laid
  case disjoint =>
    intro o o' index index' start stop start' stop' first second differs
    exact first.disjoint knows itanium laid sequential isClass second differs
  case inside =>
    intro o index start stop field
    rcases fieldAt_iff.mp field with ⟨_, plain⟩ | ⟨v, x, first, last, _, member, at', plain, rfl, rfl⟩
    · have inside := plain.inside knows itanium laid sequential isClass
      have whole := sound.nonVirtual isClass
      omega
    · have below := (Tree.HasVirtualBase.of_mem member).below.to_reflTransGen
      obtain ⟨_, laid'⟩ := knows.inherited laid below
      obtain ⟨isClass', room⟩ := sound.virtualBase_inside v x at'
      have inside := plain.inside knows itanium laid' (sequential.lower below) isClass'
      have span := (knows.sound itanium laid').nonVirtual_le_span isClass'
      omega
  case nonVirtual =>
    intro path index start stop field
    rcases fieldAt_iff.mp field with ⟨_, plain⟩ | ⟨v, _, _, _, some, _⟩
    · refine ⟨part.nonVirtualSize, by simp [RecordLayout.nonVirtualSize, RecordLayout.classLayout,
        asClass, Except.map], ?_⟩
      rw [← nonVirtualSize]
      exact plain.inside knows itanium laid sequential isClass
    · cases some
  case pointer =>
    intro o e x at' dynamic index start stop field
    have below := at'.inherits
    obtain ⟨_, laid'⟩ := knows.inherited laid below
    have acyclic := (knows.grounded laid').mono fun _ _ edge => Tree.Inherits.holds edge
    obtain ⟨own, g, pieces, fixed, st, built⟩ :=
      knows.classLaid itanium laid' (isClass_of_isDynamic acyclic dynamic)
    exact (built.dynamic dynamic).2.2 (sequential.lower below).frame _ _
      (HasField.piece built laid' field).1

/-- `A` and `B` share the table pointer that is all there is of `V`; `D` inherits both. -/
def sharedPointer : Setting :=
  .linux [
    .ofClass "V" [] [] [⟨0⟩],
    .ofClass "A" [{ name := "x", type := .scalar ⟨0⟩ (.integer .int .signed), bitWidth := some 3 },
      { name := "c", type := .scalar ⟨1⟩ .plainChar }] [{ record := ⟨0⟩, isVirtual := true }] [],
    .ofClass "B" [{ name := "y", type := .scalar ⟨0⟩ (.integer .int .signed), bitWidth := some 40 }]
      [{ record := ⟨0⟩, isVirtual := true }] [],
    .ofClass "D" [{ name := "d", type := .scalar ⟨1⟩ .plainChar }]
      [{ record := ⟨1⟩ }, { record := ⟨2⟩ }] []]
    [{ name := "f", owner := ⟨0⟩, isVirtual := true }]

theorem fields_never_overlap_sharedPointer : ∃ layout,
    (sharedPointer.known 4).record ⟨3⟩ = .ok layout ∧
      FieldsApart sharedPointer (sharedPointer.known 4) ⟨3⟩ layout := by
  obtain ⟨layout, laid⟩ := exists_ok (by decide +kernel :
    ((sharedPointer.known 4).record ⟨3⟩).isOk = true)
  have sequential : sharedPointer.IsSequentialBelow ⟨3⟩ := by
    refine ⟨rfl, fun c _ => ?_⟩
    exact Setting.linux_record (P := fun record => record.isUnion = false ∧
      record.attributes.isMsStruct = false) _ (by decide) (by decide) c
  exact ⟨layout, laid, fields_never_overlap (Setting.linux_isItanium _ _) sequential
    (by decide +kernel) laid⟩

end ObjectLayout
