import ObjectLayout.Proofs.Itanium.DataMembers

/-! Every virtual base gets exactly one offset. Placing the bases of a class never stops for any other
reason than an overflow, and in the end a virtual base lies at the start if the class uses it as its
primary base, with the base subobject that has claimed it if there is one, and on its own otherwise. -/
namespace ObjectLayout

variable {s : Setting} {known : Known} {b c d e v : RecordId} {o : Occurrence} {x : Nat}

namespace SubobjectGraph

variable {g g' : SubobjectGraph} {own : Option RecordId} {i j k p : SubobjectId}

/-- The occurrence in a graph that stands for a base subobject. -/
inductive Named (g : SubobjectGraph) : Occurrence → SubobjectId → Prop
  | direct {b : RecordId} {i : SubobjectId} (found : g.nonVirtualBases.find? b = some i) :
      Named g ⟨none, [b]⟩ i
  | virtual {v : RecordId} {p : SubobjectId} (found : g.virtualBases.find? v = some p) :
      Named g ⟨some v, []⟩ p
  | under {o : Occurrence} {i j : SubobjectId} (h : Named g o i) (member : j ∈ g.nonVirtualBasesOf i) :
      Named g ⟨o.root, o.path ++ [(g.node j).record]⟩ j

/-- Names do not depend on who has claimed what. -/
theorem Named.agrees (h : g'.Named o k) (agrees : AgreesOff own g g') : g.Named o k := by
  induction h with
  | direct found => exact .direct (agrees.nonVirtualBases ▸ found)
  | virtual found => exact .virtual (agrees.virtualBases ▸ found)
  | under _ member ih =>
    rw [mem_nonVirtualBasesOf, agrees.bases, agrees.isVirtual] at member
    rw [agrees.record]
    exact .under ih (mem_nonVirtualBasesOf.mpr member)

end SubobjectGraph

namespace Itanium

variable {f : Frame} {g : SubobjectGraph} {own : Option RecordId} {pieces : List Piece}
variable {fixed st : State} {layout : RecordLayout} {k p : SubobjectId} {y : Nat}

/-- Every occurrence stands for a base subobject. -/
theorem Charted.exists_named (charted : Charted s known d own g) (has : g.Has k) :
    ∃ o, g.Named o k := by
  refine charted.forest.induct (motive := fun k => ∃ o, g.Named o k)
    charted.sound.primariesInherited charted.acyclic (fun b i found => ?_) (fun v p found => ?_)
    (fun i j ⟨o, named⟩ member => ?_) has
  · exact ⟨_, .direct found⟩
  · exact ⟨_, .virtual found⟩
  · exact ⟨_, .under named member⟩

/-- An occurrence lies somewhere in a piece. -/
def LiesAt (f : Frame) (known : Known) (g : SubobjectGraph) (pieces : List Piece)
    (k : SubobjectId) (x : Nat) : Prop :=
  ∃ i y o, Piece.base i y ∈ pieces ∧ PartAt f.setting known g (.base i) o (.base k) ∧ x = y + o

namespace ClassLaid

variable (h : ClassLaid f known own g pieces fixed st layout)
variable (laid : known.record f.record = .ok layout)
include h laid

theorem virtualBaseOffset?_eq (found : g.virtualBases.find? v = some p)
    (lies : LiesAt f known g pieces p x) : known.virtualBaseOffset? f.record v = some x := by
  obtain ⟨_, record, virt⟩ := h.charted.forest.found v p found
  obtain ⟨i, y, o, member, part, rfl⟩ := lies
  exact (h.virtualBaseOffset?_iff laid).mpr ⟨i, y, p, o, member, part, virt, record, rfl⟩

/-- A base subobject lies where the occurrence that stands for it does. -/
theorem lies_of_named (named : g.Named o k) : ∃ x, LiesAt f known g pieces k x ∧
    BaseAt f.setting known f.record o (g.node k).record x := by
  have charted := h.charted
  induction named with
  | @direct b i found =>
    obtain ⟨_, record, plain, _⟩ := charted.forest.direct b i found
    obtain ⟨x, member⟩ := h.roots i (charted.forest.direct_isRoot found)
    have at' := (h.baseOffset?_iff laid).mpr ⟨i, member, plain, record⟩
    have edge := (charted.forest.plain b).mp (Option.isSome_iff_exists.mpr ⟨i, found⟩)
    refine ⟨x, ⟨i, x, 0, member, .here _, rfl⟩, ?_⟩
    rw [record]
    exact .plain (.under edge at' (.here b))
  | @virtual v p found =>
    obtain ⟨has, record, virt⟩ := charted.forest.found v p found
    obtain ⟨i, y, o, member, part⟩ := h.exists_piece has
    have lies : LiesAt f known g pieces p (y + o) := ⟨i, y, o, member, part, rfl⟩
    have inherited := charted.forest.virtual p has virt
    rw [record] at inherited
    refine ⟨y + o, lies, ?_⟩
    rw [record]
    exact .virtual (x := y + o) ((Tree.mem_virtualBases charted.acyclic).mpr inherited)
      (h.virtualBaseOffset?_eq laid found lies) (.here v)
  | @under o i j _ member ih =>
    obtain ⟨x, ⟨r, y, z, placed, part, rfl⟩, at'⟩ := ih
    obtain ⟨offset, found⟩ := charted.offset member
    refine ⟨y + z + offset, ⟨r, y, z + offset, placed, ?_, Nat.add_assoc _ _ _⟩, ?_⟩
    · exact part.trans (.deeper (.base member found) (.here _))
    · exact at'.push (charted.forest.plain_edge member) found

end ClassLaid

end Itanium

/-- A class that keeps the rules for bases and alignments, with layouts of all that it holds. -/
structure Setting.KeepsRules (s : Setting) (known : Known) (d : RecordId) : Prop where
  isClass : (s.tree.record d).isClass = true
  classes : ∀ b, Relation.TransGen s.tree.Inherits d b → (s.tree.record b).isClass = true
  distinct : ((s.tree.record d).nonVirtualBases.map (·.record)).Nodup
  union : (s.tree.record d).isUnion = true → (s.tree.record d).bases = []
  alignment : ∀ n, (s.tree.record d).attributes.alignment = some n → Quantity.isPowerOfTwo n = true
  pack : ∀ n, (s.tree.record d).attributes.maxFieldAlignment = some n →
    Quantity.isPowerOfTwo n = true
  packStruct : ∀ n, s.options.packStruct = some n → Quantity.isPowerOfTwo n = true
  held : ∀ r, s.Holds d r → ∃ layout, known.record r = .ok layout

namespace Itanium

theorem ofRecord_packsToPowers
    (pack : ∀ n ∈ (s.tree.record d).attributes.maxFieldAlignment, Quantity.isPowerOfTwo n = true)
    (packStruct : ∀ n ∈ s.options.packStruct, Quantity.isPowerOfTwo n = true) :
    (Frame.ofRecord s d none).PacksToPowers := by
  unfold Frame.PacksToPowers Frame.ofRecord
  dsimp only
  split
  · right
    decide
  · cases declared : (s.tree.record d).attributes.maxFieldAlignment with
    | some n => exact .inr (pack n declared)
    | none => exact .getD packStruct

/-- Of what a record holds everything is known as soon as its layouts are, and so is all below it. -/
theorem explorable_of_held (knows : s.Knows known) (itanium : s.IsItanium)
    (held : ∀ r, s.Holds d r → ∃ layout, known.record r = .ok layout) :
    Grounded s.Holds d ∧ ∀ r, Relation.TransGen s.Holds d r → Explorable s known r := by
  constructor
  · exact .intro fun r holds =>
      let ⟨_, laid⟩ := held r holds
      knows.grounded laid
  · intro r path
    obtain ⟨first, holds, further⟩ := Relation.TransGen.head'_iff.mp path
    obtain ⟨layout, laid⟩ := knows.reached (held first holds) further
    obtain ⟨sound, below⟩ := knows.sound_and_below itanium laid
    exact ⟨knows.grounded laid, sound, below⟩

/-- Under the rules nothing but an overflow keeps a class from its layout. -/
theorem Workable.of_rules (knows : s.Knows known) (itanium : s.IsItanium)
    (rules : s.KeepsRules known d) :
    Workable (Frame.ofRecord s d none) known (· = .overflow) where
  knows := knows
  unsupplied := rfl
  overflow := rfl
  grounded := (explorable_of_held knows itanium rules.held).1
  explorable := (explorable_of_held knows itanium rules.held).2
  union b edge isUnion := by
    obtain ⟨base, member, _⟩ := edge
    have member : base ∈ (s.tree.record d).bases := member
    rw [rules.union isUnion] at member
    cases member
  powers := .inl (ofRecord_packsToPowers rules.pack rules.packStruct)
  plain b path plain := by
    have isClass : ((Frame.ofRecord s d none).tree.record b).isClass = true := rules.classes b path
    rw [isClass] at plain
    cases plain
  repeats repeated := absurd rules.distinct repeated

/-- The parts of a class layout that place bases stop for no other reason than an overflow: what
comes before them, the non-virtual bases, and after the fields the virtual bases. -/
structure BasesEnd (f : Frame) (known : Known) : Prop where
  start : ∃ map st, (EmptyMap.ofClass f.setting .pruned f.record).eval known = .ok map ∧
    State.initial f (some map) = .ok st
  nonVirtual : ∀ map st fault, (EmptyMap.ofClass f.setting .pruned f.record).eval known = .ok map →
    State.initial f (some map) = .ok st →
    (layNonVirtualBases f st).eval known = .error fault → fault = .overflow
  virtual : ∀ map st st₁ st₂ fault,
    (EmptyMap.ofClass f.setting .pruned f.record).eval known = .ok map →
    State.initial f (some map) = .ok st → (layNonVirtualBases f st).eval known = .ok st₁ →
    (layFields f st₁).eval known = .ok st₂ →
    (layVirtualBases f st₂).eval known = .error fault → fault = .overflow

theorem basesEnd (knows : s.Knows known) (itanium : s.IsItanium) (rules : s.KeepsRules known d) :
    BasesEnd (Frame.ofRecord s d none) known := by
  have work := Workable.of_rules knows itanium rules
  have powers (n : Nat) (asked : (s.tree.record d).attributes.alignment = some n) :
      Quantity.isPowerOfTwo n = true ∨ False := .inl (rules.alignment n asked)
  -- The map has nothing placed in it and knows the sizes of all empty subobjects.
  have mapEnds : Ends (fun _ => False) ((EmptyMap.ofClass s .pruned d).eval known) _ :=
    @ofClass_ends (Frame.ofRecord s d none) known (fun _ => False) work.sound .pruned
  have initial {map : EmptyMap} (built : (EmptyMap.ofClass s .pruned d).eval known = .ok map) :
      Ends (fun _ => False) (State.initial (Frame.ofRecord s d none) (some map)) _ :=
    let ⟨_, empty, large⟩ := mapEnds.value built
    initial_ends known rfl (some map) powers
      (fun map' same => by cases same; exact ⟨empty, large⟩) fun _ => rfl
  constructor
  case start =>
    obtain ⟨map, built, _⟩ := mapEnds.exists_value
    obtain ⟨st, started, _⟩ := (initial built).exists_value
    exact ⟨map, st, built, started⟩
  case nonVirtual =>
    intro map st fault built started stopped
    obtain ⟨fresh, start, unvisited, _⟩ := (initial built).value started
    exact (layNonVirtualBases_ends work fresh start unvisited).fault stopped
  case virtual =>
    intro map st st₁ st₂ fault built started placed filled stopped
    obtain ⟨fresh, start, unvisited, _⟩ := (initial built).value started
    obtain ⟨own, g, pieces, nonVirtual⟩ :=
      (layNonVirtualBases_ends work fresh start unvisited).value placed
    have direct := nonVirtual.direct
    have used : st₁.used = st₁.dataSize := by rw [State.used, direct.unfilledBits, Nat.sub_zero]
    have remaining : st₁.unfilledBits ≤ st₁.dataSize := by
      rw [direct.unfilledBits]
      exact Nat.zero_le _
    obtain ⟨added, fields, _⟩ := (layFields_ends work (used ▸ direct.progress) direct.fieldOffsets
      fun _ => remaining).value filled
    exact (layVirtualBases_ends work nonVirtual fields).fault stopped

end Itanium

/-- The tables of offsets have one entry for each base, and a virtual base lies with what uses it as
its primary base: the class itself, or else the base subobject that has claimed it. -/
structure OffsetsOnce (s : Setting) (known : Known) (d : RecordId) (part : ClassLayout) : Prop where
  bases : part.baseOffsets.keys.Nodup ∧
    ∀ b, b ∈ part.baseOffsets.keys ↔ ∃ base ∈ (s.tree.record d).nonVirtualBases, base.record = b
  virtualBases : part.virtualBaseSlots.keys.Nodup ∧
    ∀ v, v ∈ part.virtualBaseSlots.keys ↔ v ∈ s.tree.virtualBases d
  own : ∀ v, part.primaryBase = some ⟨v, true⟩ → ∃ slot,
    part.virtualBaseSlots.find? v = some slot ∧ slot.offset = 0
  claimed : ∀ c v, Relation.TransGen s.tree.Inherits d c → known.virtualPrimary? c = some v →
    part.primaryBase ≠ some ⟨v, true⟩ → ∃ g p k o x slot,
      (SubobjectGraph.ofClass s d).eval known = .ok g ∧ g.virtualBases.find? v = some p ∧
      (g.node p).claimedBy = some k ∧ g.Named o k ∧
      known.virtualPrimary? (g.node k).record = some v ∧
      BaseAt s known d o (g.node k).record x ∧
      part.virtualBaseSlots.find? v = some slot ∧ slot.offset = x

namespace Itanium.ClassLaid

variable {f : Frame} {g : SubobjectGraph} {own : Option RecordId} {pieces : List Piece}
variable {fixed st : State} {layout : RecordLayout} {part : ClassLayout}

theorem exists_slot (laid : known.record d = .ok layout) (asClass : layout.asClass = some part)
    (at' : known.virtualBaseOffset? d v = some x) :
    ∃ slot, part.virtualBaseSlots.find? v = some slot ∧ slot.offset = x := by
  rw [Known.virtualBaseOffset?, Known.classLayout?_eq laid, asClass] at at'
  exact Option.map_eq_some_iff.mp at'

theorem offsetsOnce (h : ClassLaid f known own g pieces fixed st layout)
    (laid : known.record f.record = .ok layout) (asClass : layout.asClass = some part) :
    OffsetsOnce f.setting known f.record part := by
  have charted := h.charted
  obtain ⟨part', asClass', primary, baseOffsets, slots, _⟩ := h.part
  obtain rfl : part' = part := by
    rw [asClass] at asClass'
    exact (Option.some.inj asClass').symm
  have isOwn (v : RecordId) : own = some v ↔ part'.primaryBase = some ⟨v, true⟩ := by
    rw [h.owned, ← primary]
    cases part'.primaryBase with
    | none => simp
    | some base =>
      obtain ⟨b, _ | _⟩ := base <;> simp [Option.filter]
  constructor
  case bases =>
    rw [baseOffsets]
    refine ⟨h.progress.laid.baseOffsets_keys charted, fun b => ?_⟩
    rw [← baseOffsets, ← OrderedMap.contains_iff]
    refine Iff.trans ?_ (h.baseOffset?_isSome laid)
    rw [Known.baseOffset?, Known.classLayout?_eq laid, asClass]
    rfl
  case virtualBases =>
    rw [slots]
    refine ⟨h.progress.laid.slots_keys charted, fun v => ?_⟩
    rw [← slots, ← OrderedMap.contains_iff, Tree.mem_virtualBases charted.acyclic]
    refine Iff.trans ?_ (h.virtualBaseOffset?_isSome laid)
    rw [Known.virtualBaseOffset?, Known.classLayout?_eq laid, asClass, Option.isSome_map]
    rfl
  case own =>
    intro v chosen
    obtain ⟨p, found, member⟩ := h.own v ((isOwn v).mpr chosen)
    have lies : LiesAt f known g pieces p 0 := ⟨p, 0, 0, member, .here _, rfl⟩
    exact exists_slot laid asClass (h.virtualBaseOffset?_eq laid found lies)
  case claimed =>
    intro c v below names other
    have other : own ≠ some v := fun same => other ((isOwn v).mp same)
    have has := (charted.sound.primariesInherited c v below names).underAll below.to_reflTransGen
    obtain ⟨p, found⟩ := Option.isSome_iff_exists.mp (charted.forest.covered v has)
    obtain ⟨b, edge, path⟩ := Relation.TransGen.head'_iff.mp below
    have some := (charted.forest.claimed_iff found).mpr ⟨other, b, edge, c, path, names⟩
    obtain ⟨k, claimed⟩ := Option.isSome_iff_exists.mp some
    obtain ⟨hasClaimant, holds⟩ := charted.forest.holder p k claimed
    have claim := SubobjectGraph.claimedPrimary?_eq_some.mpr ⟨holds, claimed⟩
    obtain ⟨_, record, _⟩ := charted.forest.found v p found
    obtain ⟨o, named⟩ := Charted.exists_named charted hasClaimant
    obtain ⟨x, ⟨i, y, z, member, part, rfl⟩, at'⟩ := h.lies_of_named laid named
    have lies : LiesAt f known g pieces p (y + z) :=
      ⟨i, y, z + 0, member, part.trans (.deeper (.claimed claim) (.here _)), rfl⟩
    obtain ⟨slot, entry, offset⟩ :=
      exists_slot laid asClass (h.virtualBaseOffset?_eq laid found lies)
    obtain ⟨whole, built, agrees⟩ := h.computed.agrees
    refine ⟨whole, p, k, o, y + z, slot, built, ?_, ?_, named.agrees agrees, ?_, ?_, entry, offset⟩
    · rw [← agrees.virtualBases]
      exact found
    · rw [← agrees.claimedBy p (by rwa [← agrees.record, record])]
      exact claimed
    · rw [← agrees.record, ← record]
      exact (charted.forest.claimed_record claim).2.2
    · rw [← agrees.record]
      exact at'

end Itanium.ClassLaid

/-- Every virtual base gets exactly one offset. -/
theorem virtual_bases_get_one_offset {depth : Nat} (itanium : s.IsItanium)
    (rules : s.KeepsRules (s.known depth) d) :
    Itanium.BasesEnd (Itanium.Frame.ofRecord s d none) (s.known depth) ∧
      ∀ layout, (s.known (depth + 1)).record d = .ok layout →
        ∃ part, layout.asClass = some part ∧ OffsetsOnce s (s.known (depth + 1)) d part := by
  refine ⟨Itanium.basesEnd (Setting.known_knows itanium.rules depth) itanium rules, ?_⟩
  intro layout laid
  have knows := Setting.known_knows itanium.rules (depth + 1)
  obtain ⟨own, g, pieces, fixed, st, built⟩ := knows.classLaid itanium laid rules.isClass
  obtain ⟨part, asClass, _⟩ := built.part
  exact ⟨part, asClass, built.offsetsOnce laid asClass⟩

theorem virtual_bases_get_one_offset_sharedPointer :
    Itanium.BasesEnd (Itanium.Frame.ofRecord sharedPointer ⟨3⟩ none) (sharedPointer.known 3) ∧
      ∃ layout part, (sharedPointer.known 4).record ⟨3⟩ = .ok layout ∧ layout.asClass = some part ∧
        OffsetsOnce sharedPointer (sharedPointer.known 4) ⟨3⟩ part := by
  have rules : sharedPointer.KeepsRules (sharedPointer.known 3) ⟨3⟩ := by
    constructor
    case isClass => decide
    case classes =>
      intro b path
      obtain ⟨c, _, base, member, rfl⟩ := Relation.TransGen.tail'_iff.mp path
      have declared : ∀ base ∈ (sharedPointer.tree.record c).bases,
          (sharedPointer.tree.record base.record).isClass = true :=
        Setting.linux_record (P := fun record => ∀ base ∈ record.bases,
          (sharedPointer.tree.record base.record).isClass = true) _ (by decide) (by decide) c
      exact declared base member
    case distinct => decide
    case union => nofun
    case alignment => nofun
    case pack => nofun
    case packStruct => nofun
    case held =>
      have all : ∀ r ∈ EmptyMap.heldRecords sharedPointer ⟨3⟩,
          ((sharedPointer.known 3).record r).isOk = true := by decide +kernel
      exact fun r holds => exists_ok (all r holds)
  have itanium : sharedPointer.IsItanium := Setting.linux_isItanium _ _
  obtain ⟨ends, complete⟩ := virtual_bases_get_one_offset itanium rules
  obtain ⟨layout, laid⟩ := exists_ok (by decide +kernel :
    ((sharedPointer.known 4).record ⟨3⟩).isOk = true)
  obtain ⟨part, asClass, once⟩ := complete layout laid
  exact ⟨ends, layout, part, laid, asClass, once⟩

end ObjectLayout
