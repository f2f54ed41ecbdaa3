import ObjectLayout.Proofs.Itanium.Roots

/-! What a map of empty subobjects still knows of everything that was placed. A map that prunes has
only forgotten what lies before the front and at or past the size of the largest empty subobject; so
whatever is asked about an empty base at the start, or about anything past the front, is answered as if
nothing had been forgotten. -/
namespace ObjectLayout

variable {s : Setting} {known : Known} {allowed : Fault → Prop} {g : SubobjectGraph}
variable {p q t : Place} {c d r v : RecordId} {o x : Nat}

section Parts

/-- The edges of a graph of subobjects are those of its classes. -/
structure SubobjectGraph.Faithful (s : Setting) (known : Known) (g : SubobjectGraph) : Prop where
  claims : g.ClaimsPrimaries known
  edges : ∀ k j, j ∈ g.nonVirtualBasesOf k →
    s.tree.InheritsPlainly (g.node k).record (g.node j).record

theorem SubobjectGraph.faithful_empty : ({} : SubobjectGraph).Faithful s known where
  claims := claimsPrimaries_empty
  edges k j member := by
    have inside := (SubobjectGraph.mem_nonVirtualBasesOf.mp member).1
    rw [SubobjectGraph.node_missing (Nat.not_lt_zero _)] at inside
    cases inside

theorem Charted.faithful {own : Option RecordId} (h : Charted s known d own g) :
    g.Faithful s known :=
  ⟨h.forest.claimsPrimaries, fun _ _ member => h.forest.plain_edge member⟩

theorem Tree.HasVirtualBase.holds (has : s.tree.HasVirtualBase r v) :
    Relation.TransGen s.Holds r v := SoundBelow.inherits has.below

/-- What has a part holds it. -/
theorem HasPart.holds (faithful : g.Faithful s known) (sound : Sound s known (p.record g))
    (part : HasPart s known g p o q) : Relation.TransGen s.Holds (p.record g) (q.record g) := by
  cases part with
  | base member _ => exact .single (Tree.Inherits.holds (faithful.edges _ _ member).inherits)
  | claimed claimed => exact (sound.primary _ (faithful.claims _ _ claimed)).1.holds
  | innerBase member _ =>
    exact .single (Tree.Inherits.holds ⟨_, (List.mem_filter.mp member).1, rfl⟩)
  | virtualBase member _ => exact (Tree.HasVirtualBase.of_mem member).holds
  | field member _ _ contains => exact .single (contains.holds (List.mem_of_getElem? member))

/-- Everything below a class is known and holds nothing of its own kind. -/
structure Settled (s : Setting) (known : Known) (d : RecordId) : Prop where
  knows : s.Knows known
  grounded : Grounded s.Holds d
  sound : SoundBelow s known d

namespace Settled

variable (h : Settled s known d)
include h

theorem acyclic (path : Relation.TransGen s.Holds d r) : s.tree.Acyclic r :=
  (h.grounded.lowerAll path.to_reflTransGen).mono fun _ _ edge => edge.holds

/-- Parts of parts lie inside too. -/
theorem partAt_inside (faithful : g.Faithful s known)
    (path : Relation.TransGen s.Holds d (p.record g)) (proper : p.IsProper s g)
    (inside : PartAt s known g p o t) : Relation.TransGen s.Holds d (t.record g) ∧
      t.IsProper s g ∧ o + t.extent s known g ≤ p.extent s known g := by
  induction inside with
  | here p => exact ⟨path, proper, (Nat.zero_add _).le⟩
  | @deeper p q t first second part inside ih =>
    have sound := h.sound _ path
    obtain ⟨proper', reaches⟩ := part.inside h.knows faithful.claims (h.acyclic path) sound proper
    obtain ⟨path', proper'', reaches'⟩ := ih (path.trans (part.holds faithful sound)) proper'
    exact ⟨path', proper'', by omega⟩

/-- An empty subobject lies inside with all of its size. -/
theorem hasEmpty_inside (faithful : g.Faithful s known)
    (path : Relation.TransGen s.Holds d (p.record g)) (proper : p.IsProper s g)
    (inside : HasEmpty s known g p o c) :
    Relation.TransGen s.Holds d c ∧ o + known.size c ≤ p.extent s known g := by
  obtain ⟨t, at', rfl, empty⟩ := inside
  obtain ⟨path', proper', reaches⟩ := h.partAt_inside faithful path proper at'
  refine ⟨path', ?_⟩
  have span : s.span known (t.record g) = known.size (t.record g) := if_pos empty
  have extent : t.extent s known g = known.size (t.record g) := by
    cases t with
    | base i => exact span
    | inner r isComplete =>
      cases isComplete with
      | true => rfl
      | false => exact span
  rwa [extent] at reaches

/-- In C++ an empty subobject begins before the end of what holds it. -/
theorem hasEmpty_lt (cplusplus : s.options.cplusplus = true) (faithful : g.Faithful s known)
    (path : Relation.TransGen s.Holds d (p.record g)) (proper : p.IsProper s g)
    (inside : HasEmpty s known g p o c) : o < p.extent s known g := by
  obtain ⟨path', reaches⟩ := h.hasEmpty_inside faithful path proper inside
  obtain ⟨_, _, rfl, empty⟩ := inside
  have positive := (h.sound _ path').empty cplusplus empty
  omega

/-- In C++ what a field brings begins before the end of the field. -/
theorem fieldTypeLies_inside (cplusplus : s.options.cplusplus = true) {type : Ty} {width : Nat}
    {e : Nat × RecordId} (held : ∀ m, type.constantArrayRecord? = some m → s.Holds d m)
    (wide : s.width known type = .ok width) (lies : FieldTypeLies s known type x e) :
    x ≤ e.1 ∧ e.1 < x + width := by
  obtain ⟨k, m, contains, o, inside, same⟩ := lies
  have less := h.hasEmpty_lt (p := .inner m true) cplusplus
    SubobjectGraph.faithful_empty (.single (held m contains.1)) trivial inside
  have le := h.knows.contained_le wide contains
  change o < known.size m at less
  omega

end Settled

end Parts

section Largest

/-- The size of the largest empty subobject that a class brings as a base or field. -/
def Setting.largestIn (s : Setting) (known : Known) (r : RecordId) : Nat :=
  (known.record r).toOption.elim 0 (EmptyMap.largestIn s r)

theorem Setting.largestIn_eq {layout : RecordLayout} (laid : known.record r = .ok layout) :
    s.largestIn known r = EmptyMap.largestIn s r layout := by
  simp [largestIn, laid, Except.toOption]

theorem Setting.largestIn_of_empty {layout : RecordLayout} (laid : known.record r = .ok layout)
    (empty : s.tree.isEmptyClass r = true) : s.largestIn known r = known.size r := by
  rw [largestIn_eq laid, EmptyMap.largestIn, if_pos empty, Known.size_eq laid]

/-- A class with virtual bases brings whatever they bring. -/
theorem Settled.largestIn_virtual (h : Settled s known d) (path : Relation.TransGen s.Holds d r)
    (has : s.tree.HasVirtualBase r v) : s.largestIn known v ≤ s.largestIn known r := by
  obtain ⟨c, route, last⟩ := has
  have step {r b : RecordId} (path : Relation.TransGen s.Holds d r) (edge : s.tree.Inherits r b)
      (has : s.tree.HasVirtualBase r v) : s.largestIn known b ≤ s.largestIn known r := by
    have sound := h.sound r path
    obtain ⟨layout, laid, asClass, _⟩ := sound.laid
    obtain ⟨inner, found, _⟩ := (h.sound b (path.tail (Tree.Inherits.holds edge))).laid
    have dynamic := Tree.isDynamic_of_hasVirtualBase (h.acyclic path) has
    have notEmpty : ¬ s.tree.isEmptyClass r = true := fun empty => by
      rw [Tree.not_isDynamic_of_isEmptyClass (h.acyclic path) empty] at dynamic
      cases dynamic
    have bound := sound.largest b layout inner laid (asClass.trans has.isClass)
      (Tree.Inherits.holds edge) found
    rw [Setting.largestIn_eq found, Setting.largestIn_eq laid]
    refine bound.trans (le_of_eq ?_)
    rw [EmptyMap.largestIn, if_neg notEmpty]
  induction route using Relation.ReflTransGen.head_induction_on with
  | refl => exact step path last.inherits (.direct last)
  | @head r b edge route ih =>
    have below : s.tree.HasVirtualBase b v := ⟨c, route, last⟩
    exact (ih (path.tail (Tree.Inherits.holds edge))).trans (step path edge (below.under edge))

end Largest

/-- What the map of the class `d` knows of all that was placed, `all`, if what follows has its data
from `front` on. -/
structure Kept (s : Setting) (known : Known) (d : RecordId) (all : Nat × RecordId → Prop)
    (front : Nat) (map : EmptyMap) : Prop where
  only : ∀ e ∈ map.placed, all e
  kept : ∀ e, all e → e ∈ map.placed ∨
    (map.tracking = .pruned ∧ map.largest ≤ e.1 ∧ 8 * (e.1 + 1) ≤ front)
  idle : map.largest = 0 → ∀ e, all e → 8 * (e.1 + 1) ≤ front
  large : ∀ r, s.Holds d r → s.largestIn known r ≤ map.largest
  bounded : map.Bounded

namespace Kept

variable {all new : Nat × RecordId → Prop} {front front' : Nat} {map map' : EmptyMap}
variable {exempt : Bool}

theorem mono (h : Kept s known d all front map) (le : front ≤ front') :
    Kept s known d all front' map where
  only := h.only
  kept e there := (h.kept e there).imp_right fun ⟨pruned, far, passed⟩ =>
    ⟨pruned, far, passed.trans le⟩
  idle none e there := (h.idle none e there).trans le
  large := h.large
  bounded := h.bounded

/-- What was forgotten does not matter for what comes to lie before the largest size, or past the
front. -/
theorem absent_iff (h : Kept s known d all front map)
    (start : ∀ e, new e → e.1 < map.largest ∨ front ≤ 8 * e.1) :
    (∀ e, new e → e ∉ map.placed) ↔ ∀ e, new e → ¬ all e := by
  constructor
  · intro absent e here there
    rcases h.kept e there with placed | ⟨_, far, passed⟩
    · exact absent e here placed
    · rcases start e here with near | past
      · exact absurd near (Nat.not_lt.mpr far)
      · omega
  · exact fun apart e here placed => apart e here (h.only e placed)

/-- Recording what was placed keeps up with it. -/
theorem record (h : Kept s known d all front map) (recorded : Recorded exempt map map' new)
    (le : front ≤ front') (passed : exempt = false → ∀ e, new e → 8 * (e.1 + 1) ≤ front')
    (positive : exempt = true → 0 < map.largest) :
    Kept s known d (fun e => all e ∨ new e) front' map' where
  only e member := (recorded.mem e member).imp_left (h.only e)
  kept e there := by
    rw [recorded.tracking, recorded.largest]
    rcases there with there | here
    · exact ((h.mono le).kept e there).imp_left (recorded.old e)
    · by_cases reached : exempt = true ∨ map.isBeyond e.1 = false
      · exact .inl (recorded.kept e here reached)
      · simp only [not_or, Bool.not_eq_true, Bool.not_eq_false] at reached
        obtain ⟨pruned, beyond⟩ := reached
        simp only [EmptyMap.isBeyond, Bool.and_eq_true, beq_iff_eq, decide_eq_true_eq] at beyond
        exact .inr ⟨beyond.1, beyond.2, passed pruned e here⟩
  idle none e there := by
    rw [recorded.largest] at none
    rcases there with there | here
    · exact (h.mono le).idle none e there
    · cases exempt with
      | true => exact absurd none (positive rfl).ne'
      | false => exact passed rfl e here
  large r holds := by
    rw [recorded.largest]
    exact h.large r holds
  bounded := recorded.bounded h.bounded

/-- A map that has nothing to record keeps up with what lies before the front. -/
theorem skip (h : Kept s known d all front map) (idle : map.isIdle = true) (le : front ≤ front')
    (passed : ∀ e, new e → 8 * (e.1 + 1) ≤ front') :
    Kept s known d (fun e => all e ∨ new e) front' map where
  only e member := .inl (h.only e member)
  kept e there := by
    simp only [EmptyMap.isIdle, Bool.and_eq_true, beq_iff_eq] at idle
    rcases there with there | here
    · exact (h.mono le).kept e there
    · exact .inr ⟨idle.1, idle.2 ▸ Nat.zero_le _, passed e here⟩
  idle none e there := there.elim ((h.mono le).idle none e) (passed e)
  large := h.large
  bounded := h.bounded

section Place

variable {i : SubobjectId} {own : Option RecordId}
variable (h : Kept s known d all front map) (settled : Settled s known d)
include h settled

/-- An empty base of the class is no larger than the largest. -/
theorem size_le_of_root (charted : Charted s known d own g) (root : g.IsRoot i)
    (empty : s.tree.isEmptyClass (g.node i).record = true) :
    known.size (g.node i).record ≤ map.largest := by
  have path := SoundBelow.inherits (charted.forest.below i root.1)
  obtain ⟨layout, laid, _⟩ := (settled.sound _ path).laid
  rw [← Setting.largestIn_of_empty laid empty]
  rcases charted.forest.root_cases root with ⟨plain, found⟩ | ⟨virt, _⟩
  · have edge := (charted.forest.plain _).mp (Option.isSome_iff_exists.mpr ⟨i, found⟩)
    exact h.large _ (Tree.Inherits.holds edge.inherits)
  · have has := charted.forest.virtual i root.1 virt
    obtain ⟨base, member, last | below⟩ := Tree.hasVirtualBase_iff.mp has
    · exact h.large _ (Tree.Inherits.holds ⟨base, member, last.2⟩)
    · have holds : s.Holds d base.record := Tree.Inherits.holds ⟨base, member, rfl⟩
      exact (settled.largestIn_virtual (.single holds) below).trans (h.large _ holds)

variable (cplusplus : s.options.cplusplus = true)
include cplusplus

/-- A base is refused exactly where it meets something that was placed, forgotten or not. -/
theorem placeBase (charted : Charted s known d own g) (root : g.IsRoot i)
    (isClass : (s.tree.record (g.node i).record).isClass = true)
    (explorable : BaseExplorable s known g i) (counts : map.Counts allowed)
    (room : Room allowed s known g (.base i) x)
    (start : (s.tree.isEmptyClass (g.node i).record = true ∧ x = 0) ∨ front ≤ 8 * x)
    (le : front ≤ front') (after : s.tree.isEmptyClass (g.node i).record = false →
      8 * (x + known.nonVirtualSize (g.node i).record) ≤ front') :
    Ends allowed ((map.placeBase? s g i x).eval known) fun
      | none => ¬ ∀ e, Lies s known g (.base i) x e → ¬ all e
      | some map' => (∀ e, Lies s known g (.base i) x e → ¬ all e) ∧
          Kept s known d (fun e => all e ∨ Lies s known g (.base i) x e) front' map' := by
  have path := SoundBelow.inherits (charted.forest.below i root.1)
  have size := h.size_le_of_root settled charted root
  have bound (e : Nat × RecordId) (lies : Lies s known g (.base i) x e) :
      e.1 < x + s.span known (g.node i).record := by
    obtain ⟨o, inside, same⟩ := lies
    have less := settled.hasEmpty_lt (p := .base i) cplusplus charted.faithful path isClass inside
    rw [same]
    exact Nat.add_lt_add_left less x
  have near (e : Nat × RecordId) (lies : Lies s known g (.base i) x e) :
      e.1 < map.largest ∨ front ≤ 8 * e.1 := by
    rcases start with ⟨empty, rfl⟩ | past
    · have less := bound e lies
      rw [Nat.zero_add, Setting.span, if_pos empty] at less
      exact .inl (lt_of_lt_of_le less (size empty))
    · have := lies.le
      omega
  have passed (full : s.tree.isEmptyClass (g.node i).record = false) (e : Nat × RecordId)
      (lies : Lies s known g (.base i) x e) : 8 * (e.1 + 1) ≤ front' := by
    have less := bound e lies
    have reaches := after full
    rw [Setting.span, if_neg (by simp [full])] at less
    omega
  have free : map.Free s known g (.base i) x ↔ ∀ e, Lies s known g (.base i) x e → ¬ all e := by
    rw [← h.absent_iff near]
    constructor
    · rintro free ⟨_, c⟩ ⟨o, inside, rfl⟩
      exact free o c inside
    · exact fun absent o c inside => absent (x + o, c) ⟨o, inside, rfl⟩
  have positive (empty : s.tree.isEmptyClass (g.node i).record = true) : 0 < map.largest :=
    lt_of_lt_of_le ((settled.sound _ path).empty cplusplus empty) (size empty)
  refine (placeBase?_ends settled.knows h.bounded counts explorable room).imp ?_
  rintro (_ | map') answer
  · exact mt free.mpr answer
  · rcases answer with ⟨idle, rfl⟩ | ⟨placed, recorded⟩
    · have none : map'.largest = 0 := by
        simp only [EmptyMap.isIdle, Bool.and_eq_true, beq_iff_eq] at idle
        exact idle.2
      have full : s.tree.isEmptyClass (g.node i).record = false := by
        by_contra empty
        have := positive (by simpa using empty)
        rw [none] at this
        exact lt_irrefl _ this
      refine ⟨fun e lies there => ?_, h.skip idle le (passed full)⟩
      rcases start with ⟨empty, _⟩ | past
      · rw [full] at empty
        cases empty
      · have before := h.idle none e there
        have := lies.le
        omega
    · exact ⟨free.mp placed, h.record recorded le passed positive⟩

/-- A field is refused exactly where something in it meets something that was placed. -/
theorem placeField {type : Ty} {width : Nat}
    (held : ∀ m, type.constantArrayRecord? = some m → s.Holds d m)
    (explorable : ∀ m, type.constantArrayRecord? = some m → Explorable s known m)
    (counts : map.Counts allowed)
    (room : ∀ k m, type.Contains k m →
      x + (k + 1) * known.size m < Quantity.limit ∨ allowed .overflow)
    (wide : s.width known type = .ok width) (start : front ≤ 8 * x)
    (le : front ≤ front') (after : 8 * (x + width) ≤ front') :
    Ends allowed ((map.placeField? s type x).eval known) fun
      | none => ¬ ∀ e, FieldTypeLies s known type x e → ¬ all e
      | some map' => (∀ e, FieldTypeLies s known type x e → ¬ all e) ∧
          Kept s known d (fun e => all e ∨ FieldTypeLies s known type x e) front' map' := by
  have bound (e : Nat × RecordId) (lies : FieldTypeLies s known type x e) :
      x ≤ e.1 ∧ e.1 < x + width := settled.fieldTypeLies_inside cplusplus held wide lies
  have near (e : Nat × RecordId) (lies : FieldTypeLies s known type x e) :
      e.1 < map.largest ∨ front ≤ 8 * e.1 := by
    have := bound e lies
    omega
  have passed (e : Nat × RecordId) (lies : FieldTypeLies s known type x e) :
      8 * (e.1 + 1) ≤ front' := by
    have := bound e lies
    omega
  have free : FieldTypeFree map s known type x ↔ ∀ e, FieldTypeLies s known type x e → ¬ all e := by
    rw [← h.absent_iff near]
    constructor
    · rintro free ⟨_, c⟩ ⟨k, m, contains, o, inside, rfl⟩
      exact free k m contains o c inside
    · exact fun absent k m contains o c inside => absent _ ⟨k, m, contains, o, inside, rfl⟩
  refine (placeField?_ends settled.knows h.bounded counts explorable room).imp ?_
  rintro (_ | map') answer
  · exact mt free.mpr answer
  · obtain ⟨placed, recorded⟩ := answer
    exact ⟨free.mp placed, h.record recorded le (fun _ => passed) nofun⟩

end Place

end Kept

namespace Itanium

variable {f : Frame} {st st' : State} {pieces : List Piece} {piece : Piece} {front front' : Nat}
variable {i : SubobjectId} {own : Option RecordId}

/-- An empty subobject that a piece brings, with where it lies. -/
def Piece.Lies (f : Frame) (known : Known) (g : SubobjectGraph) (e : Nat × RecordId) : Piece → Prop
  | base i x => ObjectLayout.Lies f.setting known g (.base i) x e
  | field index offset => ∃ field, f.declaration.fields[index]? = some field ∧
      field.bitWidth = none ∧ FieldTypeLies f.setting known field.type (offset / 8) e

/-- The map knows of all pieces, and no two of them bring empty subobjects of the same class to the
same place. -/
structure Tracked (f : Frame) (known : Known) (g : SubobjectGraph) (front : Nat)
    (pieces : List Piece) (st : State) : Prop where
  kept : ∀ map, st.emptyMap = some map → Kept f.setting known f.record
    (fun e => ∃ piece ∈ pieces, piece.Lies f known g e) front map
  apart : st.emptyMap.isSome → pieces.Pairwise fun piece piece' =>
    ∀ e, piece.Lies f known g e → ¬ piece'.Lies f known g e

theorem Tracked.push (h : Tracked f known g front pieces st)
    (unmapped : st.emptyMap = none → st'.emptyMap = none)
    (mapped : ∀ map, st.emptyMap = some map → ∃ map', st'.emptyMap = some map' ∧
      (∀ e, piece.Lies f known g e → ¬ ∃ piece' ∈ pieces, piece'.Lies f known g e) ∧
      Kept f.setting known f.record (fun e => (∃ piece' ∈ pieces, piece'.Lies f known g e) ∨
        piece.Lies f known g e) front' map') :
    Tracked f known g front' (pieces ++ [piece]) st' := by
  have all (e : Nat × RecordId) : (∃ piece' ∈ pieces ++ [piece], piece'.Lies f known g e) ↔
      (∃ piece' ∈ pieces, piece'.Lies f known g e) ∨ piece.Lies f known g e := by
    simp [or_and_right, exists_or]
  cases here : st.emptyMap with
  | none =>
    have none := unmapped here
    constructor <;> simp [none]
  | some map =>
    obtain ⟨map', same, apart, kept⟩ := mapped map here
    constructor
    · rintro map'' same'
      rw [same] at same'
      cases same'
      simpa only [all] using kept
    · intro _
      refine List.pairwise_append.mpr ⟨h.apart (by simp [here]), List.pairwise_singleton _ _, ?_⟩
      intro piece' member last same e before after
      cases List.mem_singleton.mp same
      exact apart e after ⟨piece', member, before⟩

end Itanium

end ObjectLayout
