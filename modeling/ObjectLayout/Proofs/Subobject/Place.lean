import ObjectLayout.Proofs.Guarantees
import ObjectLayout.Proofs.Subobject.Forest

/-! The subobjects inside a subobject, and how far from its start each of them lies. A base subobject
of the class being laid out holds the virtual base that it has claimed in the graph of that class;
everything else has its parts where its own layout puts them. -/
namespace ObjectLayout

/-- A base subobject of the class being laid out, or a subobject as its own class has it. -/
inductive Place where
  | base (i : SubobjectId)
  | inner (r : RecordId) (isComplete : Bool)

namespace Place

def record (g : SubobjectGraph) : Place → RecordId
  | .base i => (g.node i).record
  | .inner r _ => r

/-- The room that the subobject takes up. -/
def extent (s : Setting) (known : Known) (g : SubobjectGraph) : Place → Nat
  | .base i => s.span known (g.node i).record
  | .inner r true => known.size r
  | .inner r false => s.span known r

/-- Base subobjects are those of classes. -/
def IsProper (s : Setting) (g : SubobjectGraph) : Place → Prop
  | .base i => (s.tree.record (g.node i).record).isClass = true
  | .inner _ true => True
  | .inner r false => (s.tree.record r).isClass = true

end Place

variable (s : Setting) (known : Known) (g : SubobjectGraph)

/-- A subobject has another one as a direct part of it, at an offset. -/
inductive HasPart : Place → Nat → Place → Prop
  | base {i j : SubobjectId} {offset : Nat} (member : j ∈ g.nonVirtualBasesOf i)
      (at' : known.baseOffset? (g.node i).record (g.node j).record = some offset) :
      HasPart (.base i) offset (.base j)
  | claimed {i p : SubobjectId} (claimed : g.claimedPrimary? i = some p) :
      HasPart (.base i) 0 (.base p)
  | innerBase {r : RecordId} {isComplete : Bool} {base : Base} {offset : Nat}
      (member : base ∈ (s.tree.record r).nonVirtualBases)
      (at' : known.baseOffset? r base.record = some offset) :
      HasPart (.inner r isComplete) offset (.inner base.record false)
  | virtualBase {r v : RecordId} {offset : Nat} (member : v ∈ s.tree.virtualBases r)
      (at' : known.virtualBaseOffset? r v = some offset) :
      HasPart (.inner r true) offset (.inner v false)
  | field {place : Place} {index k : Nat} {field : Field} {offset : Nat} {m : RecordId}
      (member : (s.tree.record (place.record g)).fields[index]? = some field)
      (stored : field.bitWidth = none)
      (at' : known.fieldOffset? (place.record g) index = some offset)
      (contains : field.type.Contains k m) :
      HasPart place (offset / 8 + k * known.size m) (.inner m true)

/-- A subobject has another one, or is it, at an offset. -/
inductive PartAt : Place → Nat → Place → Prop
  | here (p : Place) : PartAt p 0 p
  | deeper {p q t : Place} {offset further : Nat} (part : HasPart s known g p offset q)
      (inside : PartAt q further t) : PartAt p (offset + further) t

/-- A subobject has an empty subobject of class `c` at an offset, which may be itself. -/
def HasEmpty (p : Place) (offset : Nat) (c : RecordId) : Prop :=
  ∃ q, PartAt s known g p offset q ∧ q.record g = c ∧ s.tree.isEmptyClass c = true

variable {s known g}
variable {p q : Place} {offset further : Nat} {c d r v : RecordId} {own : Option RecordId}

theorem hasEmpty_iff : HasEmpty s known g p offset c ↔
    (offset = 0 ∧ p.record g = c ∧ s.tree.isEmptyClass c = true) ∨
      ∃ first q second, HasPart s known g p first q ∧ HasEmpty s known g q second c ∧
        offset = first + second := by
  constructor
  · rintro ⟨t, inside, same, empty⟩
    cases inside with
    | here => exact .inl ⟨rfl, same, empty⟩
    | deeper part inside => exact .inr ⟨_, _, _, part, ⟨t, inside, same, empty⟩, rfl⟩
  · rintro (⟨rfl, same, empty⟩ | ⟨first, q, second, part, ⟨t, inside, same, empty⟩, rfl⟩)
    · exact ⟨p, .here p, same, empty⟩
    · exact ⟨t, .deeper part inside, same, empty⟩

theorem Sound.nonVirtual_le_span (sound : Sound s known r)
    (isClass : (s.tree.record r).isClass = true) : known.nonVirtualSize r ≤ s.span known r := by
  unfold Setting.span
  split
  · exact sound.nonVirtual isClass
  · exact le_rfl

/-- The non-virtual part of a proper place lies in it. -/
theorem Sound.nonVirtual_le_extent (sound : Sound s known (p.record g)) (proper : p.IsProper s g)
    (isClass : (s.tree.record (p.record g)).isClass = true) :
    known.nonVirtualSize (p.record g) ≤ p.extent s known g := by
  cases p with
  | base i => exact sound.nonVirtual_le_span proper
  | inner r isComplete =>
    cases isComplete with
    | true => exact sound.nonVirtual isClass
    | false => exact sound.nonVirtual_le_span proper

/-- A virtual primary base takes up no more than the table pointer. -/
theorem Itanium.NearlyEmpty.span_eq (h : Itanium.NearlyEmpty s known v) (acyclic : s.tree.Acyclic v) :
    s.span known v = s.target.pointerWidth := by
  obtain ⟨layout, laid, sized⟩ := h.size
  have notEmpty : s.tree.isEmptyClass v = false := by
    by_contra empty
    rw [Bool.not_eq_false] at empty
    have dynamic := h.dynamic
    rw [Tree.not_isDynamic_of_isEmptyClass acyclic empty] at dynamic
    cases dynamic
  unfold Setting.span Known.nonVirtualSize
  rw [notEmpty, Known.classLayout?_eq laid]
  unfold RecordLayout.nonVirtualSize RecordLayout.classLayout at sized
  cases part : layout.asClass with
  | none =>
    rw [part] at sized
    cases sized
  | some part' =>
    rw [part] at sized
    exact Except.ok.inj sized

section Inside

/-- The fields of a proper place lie in it. -/
theorem Sound.field_inside (sound : Sound s known (p.record g)) (proper : p.IsProper s g)
    {index : Nat} {field : Field}
    (member : (s.tree.record (p.record g)).fields[index]? = some field)
    (stored : field.bitWidth = none)
    (at' : known.fieldOffset? (p.record g) index = some offset) :
    ∃ width, s.width known field.type = .ok width ∧ 8 ∣ offset ∧
      offset + 8 * width ≤ 8 * p.extent s known g := by
  obtain ⟨width, wide, whole, size, nonVirtual⟩ := sound.fields _ _ _ member stored at'
  refine ⟨width, wide, whole, ?_⟩
  cases p with
  | base i =>
    exact (nonVirtual proper).trans (Nat.mul_le_mul_left 8 (sound.nonVirtual_le_span proper))
  | inner r isComplete =>
    cases isComplete with
    | true => exact size
    | false =>
      exact (nonVirtual proper).trans (Nat.mul_le_mul_left 8 (sound.nonVirtual_le_span proper))

/-- What an occurrence has claimed is the virtual primary base of its class. -/
def SubobjectGraph.ClaimsPrimaries (g : SubobjectGraph) (known : Known) : Prop :=
  ∀ i p, g.claimedPrimary? i = some p →
    known.virtualPrimary? (g.node i).record = some (g.node p).record

theorem SubobjectGraph.Forest.claimsPrimaries (forest : SubobjectGraph.Forest s known d own g) :
    g.ClaimsPrimaries known := fun _ _ claimed => (forest.claimed_record claimed).2.2

/-- Parts lie inside what they are parts of, and are proper places too. -/
theorem HasPart.inside (knows : s.Knows known) (claims : g.ClaimsPrimaries known)
    (acyclic : s.tree.Acyclic (p.record g))
    (sound : Sound s known (p.record g)) (proper : p.IsProper s g)
    (part : HasPart s known g p offset q) :
    q.IsProper s g ∧ offset + q.extent s known g ≤ p.extent s known g := by
  cases part with
  | @base i j offset member at' =>
    obtain ⟨isClass, le⟩ := sound.base_inside _ _ at'
    exact ⟨isClass, le.trans (sound.nonVirtual_le_span proper)⟩
  | @claimed i q claimed =>
    obtain ⟨has, nearly⟩ := sound.primary _ (claims i q claimed)
    have below : s.tree.Acyclic (g.node q).record := acyclic.transGen.lower has.below |>.of_transGen
    refine ⟨Itanium.isClass_of_isDynamic below nearly.dynamic, ?_⟩
    calc 0 + s.span known (g.node q).record = s.target.pointerWidth := by
          rw [Nat.zero_add, nearly.span_eq below]
      _ ≤ known.nonVirtualSize (g.node i).record :=
          sound.dynamic (Tree.isDynamic_of_hasVirtualBase acyclic has)
      _ ≤ s.span known (g.node i).record := sound.nonVirtual_le_span proper
  | @innerBase r isComplete base offset member at' =>
    obtain ⟨isClass, le⟩ := sound.base_inside _ _ at'
    exact ⟨isClass, le.trans (sound.nonVirtual_le_extent proper
      (Tree.isClass_of_inherits ⟨base, (List.mem_filter.mp member).1, rfl⟩))⟩
  | @virtualBase r v offset member at' =>
    exact sound.virtualBase_inside _ _ at'
  | @field place index k field offset m member stored at' contains =>
    refine ⟨trivial, ?_⟩
    obtain ⟨width, wide, whole, reaches⟩ := sound.field_inside proper member stored at'
    have le := knows.contained_le wide contains
    change offset / 8 + k * known.size m + known.size m ≤ _
    omega

end Inside

end ObjectLayout
