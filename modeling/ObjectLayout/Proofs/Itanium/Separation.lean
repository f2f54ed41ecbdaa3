import ObjectLayout.Proofs.Itanium.VirtualOffsets

/-! Empty subobjects of one class at one address. The map of empty subobjects keeps apart what is
placed one after the other. A base subobject is placed together with the virtual bases that it has
claimed in the graph of the class being laid out, and nothing looks whether these meet. So the
subobjects of a class are kept apart if and only if those of its members are and nothing that is
placed together meets. -/
namespace ObjectLayout

/-- From a subobject to a direct part of it. -/
inductive Step where
  | base (b : RecordId)
  | virtualBase (v : RecordId)
  | member (index element : Nat)
  deriving DecidableEq

/-- A subobject of a record, named by the steps to it. Virtual bases belong to complete objects
only; a member of class type is a complete object of its own. -/
inductive SubobjectAt (s : Setting) (known : Known) :
    RecordId → Bool → List Step → RecordId → Nat → Prop
  | here (r : RecordId) (isComplete : Bool) : SubobjectAt s known r isComplete [] r 0
  | base {r b c : RecordId} {isComplete : Bool} {path : List Step} {offset further : Nat}
      (edge : s.tree.InheritsPlainly r b) (at' : known.baseOffset? r b = some offset)
      (deeper : SubobjectAt s known b false path c further) :
      SubobjectAt s known r isComplete (.base b :: path) c (offset + further)
  | virtualBase {r v c : RecordId} {path : List Step} {offset further : Nat}
      (listed : v ∈ s.tree.virtualBases r) (at' : known.virtualBaseOffset? r v = some offset)
      (deeper : SubobjectAt s known v false path c further) :
      SubobjectAt s known r true (.virtualBase v :: path) c (offset + further)
  | member {r m c : RecordId} {isComplete : Bool} {index element : Nat} {field : Field}
      {path : List Step} {offset further : Nat}
      (found : (s.tree.record r).fields[index]? = some field) (stored : field.bitWidth = none)
      (at' : known.fieldOffset? r index = some offset) (contains : field.type.Contains element m)
      (isClass : (s.tree.record m).isClass = true)
      (deeper : SubobjectAt s known m true path c further) :
      SubobjectAt s known r isComplete (.member index element :: path) c
        (offset / 8 + element * known.size m + further)

/-- No two subobjects of the same empty class share an address. -/
def Separated (s : Setting) (known : Known) (r : RecordId) (isComplete : Bool) : Prop :=
  ∀ path path' c x, SubobjectAt s known r isComplete path c x →
    SubobjectAt s known r isComplete path' c x → s.tree.isEmptyClass c = true → path = path'

/-- In everything that the class is or inherits the class-type members have their subobjects apart. -/
def MembersSeparated (s : Setting) (known : Known) (r : RecordId) : Prop :=
  ∀ (c : RecordId) (index element : Nat) (field : Field) (m : RecordId),
    Relation.ReflTransGen s.tree.Inherits r c →
    (s.tree.record c).fields[index]? = some field → field.bitWidth = none →
    field.type.Contains element m → (s.tree.record m).isClass = true → Separated s known m true

namespace Step

variable {g : SubobjectGraph} {i j : SubobjectId}

/-- The occurrence of a base in the graph of the class. -/
inductive LeadsTo (g : SubobjectGraph) : Step → SubobjectId → Prop
  | base {b : RecordId} {i : SubobjectId} (found : g.nonVirtualBases.find? b = some i) :
      LeadsTo g (.base b) i
  | virtualBase {v : RecordId} {p : SubobjectId} (found : g.virtualBases.find? v = some p) :
      LeadsTo g (.virtualBase v) p

/-- The base is placed together with the root `i`. -/
def HangsFrom (g : SubobjectGraph) (i : SubobjectId) (step : Step) : Prop :=
  ∃ j, step.LeadsTo g j ∧ Relation.ReflTransGen g.Child i j

end Step

/-- Of the bases that are placed together no two bring empty subobjects of the same class to one
address. -/
def ClaimsClear (s : Setting) (known : Known) (d : RecordId) (g : SubobjectGraph) : Prop :=
  ∀ i step step' path path' c x, g.IsRoot i → step.HangsFrom g i → step'.HangsFrom g i →
    step ≠ step' → SubobjectAt s known d true (step :: path) c x →
    SubobjectAt s known d true (step' :: path') c x → s.tree.isEmptyClass c = false

variable {s : Setting} {known : Known} {b c d e m r : RecordId} {isComplete : Bool}
variable {path path' : List Step} {step step' : Step} {x y : Nat} {layout : RecordLayout}

namespace SubobjectAt

theorem partAt (h : SubobjectAt s known r isComplete path c x) (g : SubobjectGraph) :
    ∃ t, PartAt s known g (.inner r isComplete) x t ∧ t.record g = c := by
  induction h with
  | here r isComplete => exact ⟨_, .here _, rfl⟩
  | base edge at' _ ih =>
    obtain ⟨base, member, rfl⟩ := edge
    obtain ⟨t, inside, same⟩ := ih
    exact ⟨t, .deeper (.innerBase member at') inside, same⟩
  | virtualBase listed at' _ ih =>
    obtain ⟨t, inside, same⟩ := ih
    exact ⟨t, .deeper (.virtualBase listed at') inside, same⟩
  | member found stored at' contains isClass _ ih =>
    obtain ⟨t, inside, same⟩ := ih
    exact ⟨t, .deeper (.field found stored at' contains) inside, same⟩

theorem holds (h : SubobjectAt s known r isComplete path c x) :
    Relation.ReflTransGen s.Holds r c := by
  induction h with
  | here => exact .refl
  | base edge _ _ ih => exact .head (Tree.Inherits.holds edge.inherits) ih
  | virtualBase listed _ _ ih =>
    exact (Tree.HasVirtualBase.of_mem listed).holds.to_reflTransGen.trans ih
  | member found _ _ contains _ _ ih => exact .head (contains.holds (List.mem_of_getElem? found)) ih

/-- A record is not a subobject of itself. -/
theorem ne_self (h : SubobjectAt s known r isComplete (step :: path) c x)
    (grounded : Grounded s.Holds r) : c ≠ r := by
  rintro rfl
  apply grounded.irrefl
  cases h with
  | base edge _ deeper => exact .head' (Tree.Inherits.holds edge.inherits) deeper.holds
  | virtualBase listed _ deeper =>
    exact (Tree.HasVirtualBase.of_mem listed).holds.trans_left deeper.holds
  | member found _ _ contains _ deeper =>
    exact .head' (contains.holds (List.mem_of_getElem? found)) deeper.holds

/-- A complete object has whatever the same class has as a base. -/
theorem complete (h : SubobjectAt s known r false path c x) (isComplete : Bool) :
    SubobjectAt s known r isComplete path c x := by
  cases h with
  | here => exact .here _ isComplete
  | base edge at' deeper => exact .base edge at' deeper
  | member found stored at' contains isClass deeper =>
    exact .member found stored at' contains isClass deeper

theorem trans (h : SubobjectAt s known r isComplete path c x)
    (h' : SubobjectAt s known c false path' e y) :
    SubobjectAt s known r isComplete (path ++ path') e (x + y) := by
  induction h with
  | here r isComplete =>
    rw [Nat.zero_add]
    exact h'.complete isComplete
  | base edge at' _ ih =>
    rw [Nat.add_assoc]
    exact .base edge at' (ih h')
  | virtualBase listed at' _ ih =>
    rw [Nat.add_assoc]
    exact .virtualBase listed at' (ih h')
  | member found stored at' contains isClass _ ih =>
    rw [Nat.add_assoc]
    exact .member found stored at' contains isClass (ih h')

end SubobjectAt

section Graph

variable {g : SubobjectGraph} {own : Option RecordId} {i j : SubobjectId}

/-- Every base of an occurrence's class has an occurrence below. -/
theorem SubobjectGraph.Forest.exists_base (h : g.Forest s known d own) (has : g.Has i)
    (edge : s.tree.InheritsPlainly (g.node i).record b) :
    ∃ j ∈ g.nonVirtualBasesOf i, (g.node j).record = b := by
  obtain ⟨base, member, rfl⟩ := edge
  obtain ⟨member, plain⟩ := List.mem_filter.mp member
  obtain ⟨position, bound, rfl⟩ := List.getElem_of_mem member
  have bases := h.bases i has
  have bound' := bases.length_eq ▸ bound
  obtain ⟨_, same, virt⟩ := bases.get bound bound'
  refine ⟨_, SubobjectGraph.mem_nonVirtualBasesOf.mpr ⟨List.getElem_mem bound', ?_⟩, same⟩
  simpa using virt.trans (by simpa using plain)

/-- What the class of an occurrence has as a base is part of the occurrence. -/
theorem Charted.partAt (h : Charted s known d own g) (has : g.Has i)
    (inside : SubobjectAt s known (g.node i).record false path c x) :
    ∃ t, PartAt s known g (.base i) x t ∧ t.record g = c := by
  generalize same : (g.node i).record = r, kind : false = isComplete at inside
  induction inside generalizing i with
  | here => exact ⟨.base i, .here _, same⟩
  | base edge at' _ ih =>
    subst same
    obtain ⟨j, member, rfl⟩ := h.forest.exists_base has edge
    obtain ⟨t, inside, same⟩ := ih (h.forest.has_child (.inl member)) rfl rfl
    exact ⟨t, .deeper (.base member at') inside, same⟩
  | virtualBase => cases kind
  | member found stored at' contains _ deeper _ =>
    subst same
    obtain ⟨t, inside, same⟩ := deeper.partAt g
    exact ⟨t, .deeper (.field found stored at' contains) inside, same⟩

/-- A direct base hangs from nothing but itself. -/
theorem Step.HangsFrom.base_eq (h : Step.HangsFrom g i (.base b)) (forest : g.Forest s known d own) :
    (g.node i).record = b := by
  obtain ⟨j, leads, path⟩ := h
  cases leads with
  | base found =>
    obtain ⟨_, record, _⟩ := forest.direct b j found
    rcases Relation.ReflTransGen.cases_tail path with rfl | ⟨k, _, child⟩
    · exact record
    · exact absurd child ((forest.direct_isRoot found).2 k)

end Graph

section Class

open Itanium

variable {f : Frame} {g : SubobjectGraph} {own : Option RecordId} {pieces : List Piece}
variable {fixed st : State} {i : SubobjectId}

namespace Itanium

/-- A step into a piece. -/
def Piece.StartsWith (g : SubobjectGraph) (step : Step) : Piece → Prop
  | .base i _ => step.HangsFrom g i
  | .field index _ => ∃ element, step = .member index element

namespace ClassLaid

variable (h : ClassLaid f known own g pieces fixed st layout)
variable (laid : known.record f.record = .ok layout)
include h laid

/-- Every empty subobject lies in the piece that the first step to it leads to. -/
theorem exists_home (inside : SubobjectAt f.setting known f.record true (step :: path) c x)
    (empty : f.tree.isEmptyClass c = true) :
    ∃ piece ∈ pieces, piece.Lies f known g (x, c) ∧ piece.StartsWith g step := by
  have charted := h.charted
  cases inside with
  | @base _ b _ _ _ offset further edge at' deeper =>
    obtain ⟨i, member, plain, rfl⟩ := (h.baseOffset?_iff laid).mp at'
    have root := h.progress.laid.rooted i offset member
    obtain ⟨t, inside, same⟩ := charted.partAt root.1 deeper
    refine ⟨.base i offset, member, ⟨further, ⟨t, inside, same, empty⟩, rfl⟩, i, .base ?_, .refl⟩
    rcases charted.forest.root_cases root with ⟨_, found⟩ | ⟨virt, _⟩
    · exact found
    · rw [plain] at virt
      cases virt
  | @virtualBase _ v _ _ offset further listed at' deeper =>
    obtain ⟨i, y, p, o, member, part, virt, rfl, rfl⟩ := (h.virtualBaseOffset?_iff laid).mp at'
    have has := charted.forest.has_descendant (h.progress.laid.rooted _ _ member).1 part.path
    obtain ⟨t, inside, same⟩ := charted.partAt has deeper
    have lies : (Piece.base i y).Lies f known g (y + o + further, c) :=
      ⟨o + further, ⟨t, part.trans inside, same, empty⟩, Nat.add_assoc _ _ _⟩
    exact ⟨.base i y, member, lies, p, .virtualBase (charted.forest.listed p has virt), part.path⟩
  | @member _ m _ _ index element field _ offset further found stored at' contains isClass deeper =>
    obtain ⟨t, inside, same⟩ := deeper.partAt {}
    have lies : (Piece.field index offset).Lies f known g
        (offset / 8 + element * known.size m + further, c) :=
      ⟨field, found, stored, element, m, contains, further, ⟨t, inside, same, empty⟩, rfl⟩
    exact ⟨_, (h.fieldOffset?_iff laid).mp at', lies, element, rfl⟩

omit laid in
/-- No two pieces bring empty subobjects of the same class to one address. -/
theorem same_piece {piece piece' : Piece} {e : Nat × RecordId}
    (cplusplus : f.setting.options.cplusplus = true) (isClass : f.declaration.isClass = true)
    (notUnion : f.isUnion = false) (member : piece ∈ pieces) (member' : piece' ∈ pieces)
    (lies : piece.Lies f known g e) (lies' : piece'.Lies f known g e) : piece = piece' := by
  have mapped := h.progress.laid.mapped isClass
  have apart := (h.progress.tracked cplusplus notUnion).apart mapped
  have symm : Std.Symm fun piece piece' : Piece =>
      ∀ e, piece.Lies f known g e → ¬ piece'.Lies f known g e :=
    ⟨fun _ _ apart e first second => apart e second first⟩
  by_contra differs
  exact apart.forall member member' differs e lies lies'

end ClassLaid

end Itanium

/-- Two elements of the same member do not share an address. -/
theorem SubobjectAt.same_element {index element element' : Nat} (settled : Settled s known r)
    (cplusplus : s.options.cplusplus = true) (empty : s.tree.isEmptyClass c = true)
    (first : SubobjectAt s known r isComplete (.member index element :: path) c x)
    (second : SubobjectAt s known r isComplete (.member index element' :: path') c x) :
    element = element' := by
  generalize named : x = y at second
  cases first with
  | @member _ m _ _ _ _ field _ offset further found stored at' contains isClass deeper =>
  cases second with
  | @member _ m' _ _ _ _ field' _ offset' further' found' stored' at'' contains' isClass' deeper' =>
  obtain rfl := Option.some.inj (found.symm.trans found')
  obtain rfl := Option.some.inj (at'.symm.trans at'')
  obtain rfl := Option.some.inj (contains.1.symm.trans contains'.1)
  have holds := contains.holds (List.mem_of_getElem? found)
  have less {rest : List Step} {o : Nat} (inside : SubobjectAt s known m true rest c o) :
      o < known.size m := by
    obtain ⟨t, part, same⟩ := inside.partAt {}
    exact settled.hasEmpty_lt (p := .inner m true) cplusplus SubobjectGraph.faithful_empty
      (.single holds) trivial ⟨t, part, same, empty⟩
  have below := less deeper
  have below' := less deeper'
  have same : element * known.size m + further = element' * known.size m + further' := by omega
  have quotient {k o : Nat} (less : o < known.size m) : (k * known.size m + o) / known.size m = k := by
    rw [Nat.mul_comm, Nat.mul_add_div (by omega), Nat.div_eq_of_lt less, Nat.add_zero]
  calc element = (element * known.size m + further) / known.size m := (quotient below).symm
    _ = (element' * known.size m + further') / known.size m := by rw [same]
    _ = element' := quotient below'

namespace Itanium.ClassLaid

variable (h : ClassLaid f known own g pieces fixed st layout)
variable (laid : known.record f.record = .ok layout)
include h laid

/-- Two empty subobjects of the same class that share an address lie in the same part of the class,
or in two bases that are placed together. -/
theorem meets (settled : Settled f.setting known f.record)
    (cplusplus : f.setting.options.cplusplus = true) (isClass : f.declaration.isClass = true)
    (notUnion : f.isUnion = false) (empty : f.tree.isEmptyClass c = true)
    (first : SubobjectAt f.setting known f.record true (step :: path) c x)
    (second : SubobjectAt f.setting known f.record true (step' :: path') c x) :
    step = step' ∨ ∃ i, g.IsRoot i ∧ step.HangsFrom g i ∧ step'.HangsFrom g i := by
  obtain ⟨piece, member, lies, starts⟩ := h.exists_home laid first empty
  obtain ⟨piece', member', lies', starts'⟩ := h.exists_home laid second empty
  obtain rfl := h.same_piece cplusplus isClass notUnion member member' lies lies'
  cases piece with
  | base i y => exact .inr ⟨i, h.progress.laid.rooted i y member, starts, starts'⟩
  | field index offset =>
    obtain ⟨element, rfl⟩ := starts
    obtain ⟨element', rfl⟩ := starts'
    rw [first.same_element settled cplusplus empty second]
    exact .inl rfl

end Itanium.ClassLaid

/-- The direct parts of a class have their subobjects apart. -/
structure PartsSeparated (s : Setting) (known : Known) (r : RecordId) (isComplete : Bool) : Prop where
  bases : ∀ b, s.tree.InheritsPlainly r b → Separated s known b false
  virtualBases : isComplete = true → ∀ v ∈ s.tree.virtualBases r, Separated s known v false
  members : ∀ (index element : Nat) (field : Field) (m : RecordId),
    (s.tree.record r).fields[index]? = some field → field.bitWidth = none →
    field.type.Contains element m → (s.tree.record m).isClass = true → Separated s known m true

/-- In the same part only a subobject itself shares its address. -/
theorem PartsSeparated.same_path (parts : PartsSeparated s known r isComplete)
    (empty : s.tree.isEmptyClass c = true)
    (first : SubobjectAt s known r isComplete (step :: path) c x)
    (second : SubobjectAt s known r isComplete (step :: path') c x) : path = path' := by
  generalize named : x = y at second
  cases first with
  | base edge at' deeper =>
    cases second with
    | base _ at'' deeper' =>
      obtain rfl := Option.some.inj (at'.symm.trans at'')
      obtain rfl := Nat.add_left_cancel named
      exact parts.bases _ edge _ _ _ _ deeper deeper' empty
  | virtualBase listed at' deeper =>
    cases second with
    | virtualBase _ at'' deeper' =>
      obtain rfl := Option.some.inj (at'.symm.trans at'')
      obtain rfl := Nat.add_left_cancel named
      exact parts.virtualBases rfl _ listed _ _ _ _ deeper deeper' empty
  | @member _ m _ _ _ _ field _ offset further found stored at' contains isClass deeper =>
    cases second with
    | @member _ m' _ _ _ _ field' _ offset' further' found' _ at'' contains' _ deeper' =>
      obtain rfl := Option.some.inj (found.symm.trans found')
      obtain rfl := Option.some.inj (at'.symm.trans at'')
      obtain rfl := Option.some.inj (contains.1.symm.trans contains'.1)
      obtain rfl := Nat.add_left_cancel named
      exact parts.members _ _ _ _ found stored contains isClass _ _ _ _ deeper deeper' empty

variable (knows : s.Knows known) (itanium : s.IsItanium) (cplusplus : s.options.cplusplus = true)

section Parts

variable (grounded : Grounded s.Holds r)
include grounded

/-- Besides what its parts bring only two parts that share an address are in the way. -/
theorem Separated.of_parts (parts : PartsSeparated s known r isComplete)
    (apart : ∀ step step' path path' c x, SubobjectAt s known r isComplete (step :: path) c x →
      SubobjectAt s known r isComplete (step' :: path') c x → s.tree.isEmptyClass c = true →
      step = step') : Separated s known r isComplete := by
  intro path path' c x first second empty
  have unnamed {step : Step} {rest : List Step}
      (inside : SubobjectAt s known r isComplete (step :: rest) c x)
      (self : SubobjectAt s known r isComplete [] c x) : False := by
    have differs := inside.ne_self grounded
    cases self
    exact differs rfl
  match path, path' with
  | [], [] => rfl
  | [], step :: rest => exact (unnamed second first).elim
  | step :: rest, [] => exact (unnamed first second).elim
  | step :: rest, step' :: rest' =>
    obtain rfl := apart _ _ _ _ _ _ first second empty
    rw [parts.same_path empty first second]

end Parts

include knows itanium cplusplus

/-- Without its virtual bases a class has its subobjects apart if its members have. -/
theorem MembersSeparated.plain (laid : known.record r = .ok layout)
    (isClass : (s.tree.record r).isClass = true)
    (notUnion : ∀ c, Relation.ReflTransGen s.tree.Inherits r c → (s.tree.record c).isUnion = false)
    (members : MembersSeparated s known r) : Separated s known r false := by
  have grounded := knows.grounded laid
  induction grounded generalizing layout with
  | intro r lower ih =>
    obtain ⟨own, g, pieces, fixed, st, built⟩ := knows.classLaid itanium laid isClass
    refine .of_parts (.intro lower) ⟨?bases, nofun, ?members⟩ ?apart
    case bases =>
      intro b edge
      have inherits := edge.inherits
      obtain ⟨_, laid'⟩ := knows.inherited laid (.single inherits)
      have sound := knows.sound itanium laid
      obtain ⟨offset, at'⟩ := Option.isSome_iff_exists.mp ((sound.bases b).mpr edge)
      exact ih b (Tree.Inherits.holds inherits) laid' (sound.base_inside b offset at').1
        (fun c path => notUnion c (.head inherits path))
        fun c index element field m path => members c index element field m (.head inherits path)
    case members => exact fun index element field m => members r index element field m .refl
    case apart =>
      intro step step' path path' c x first second empty
      rcases built.meets laid (knows.settled itanium laid) cplusplus isClass (notUnion r .refl) empty
        (first.complete true) (second.complete true) with same | ⟨i, root, hangs, hangs'⟩
      · exact same
      · -- Only direct bases hang from roots here, and each of them is a root of its own.
        have direct {step : Step} {rest : List Step} (hangs : step.HangsFrom g i)
            (inside : SubobjectAt s known r false (step :: rest) c x) :
            step = .base (g.node i).record := by
          obtain ⟨j, leads, path⟩ := hangs
          cases leads with
          | base found =>
            have hangs : Step.HangsFrom g i (.base _) := ⟨j, .base found, path⟩
            rw [hangs.base_eq built.charted.forest]
          | virtualBase => cases inside
        rw [direct hangs first, direct hangs' second]

omit cplusplus in
/-- Every class that is inherited has a subobject. -/
theorem exists_subobject (laid : known.record d = .ok layout)
    (path : Relation.ReflTransGen s.tree.Inherits d c) :
    ∃ path x, SubobjectAt s known d true path c x := by
  induction path with
  | refl => exact ⟨[], 0, .here d true⟩
  | @tail e b above edge ih =>
    obtain ⟨base, member, rfl⟩ := edge
    cases virt : base.isVirtual with
    | true =>
      have acyclic := (knows.grounded laid).mono fun _ _ edge => Tree.Inherits.holds edge
      have has : s.tree.HasVirtualBase d base.record :=
        Tree.HasVirtualBase.underAll above (.direct ⟨base, member, virt, rfl⟩)
      obtain ⟨offset, at'⟩ :=
        Option.isSome_iff_exists.mp (((knows.sound itanium laid).virtualBases _).mpr has)
      exact ⟨_, _, .virtualBase ((Tree.mem_virtualBases acyclic).mpr has) at' (.here _ _)⟩
    | false =>
      obtain ⟨path, x, inside⟩ := ih
      obtain ⟨_, laid'⟩ := knows.inherited laid above
      have plain : s.tree.InheritsPlainly e base.record :=
        ⟨base, List.mem_filter.mpr ⟨member, by simpa using virt⟩, rfl⟩
      obtain ⟨offset, at'⟩ :=
        Option.isSome_iff_exists.mp (((knows.sound itanium laid').bases _).mpr plain)
      exact ⟨_, _, inside.trans (.base plain at' (.here _ _))⟩

omit cplusplus in
/-- The members of all that is inherited are apart if everything is. -/
theorem Separated.members (laid : known.record d = .ok layout) (h : Separated s known d true) :
    MembersSeparated s known d := by
  intro c index element field m inherits found stored contains isClass path path' e x first second empty
  obtain ⟨above, y, inside⟩ := exists_subobject knows itanium laid inherits
  obtain ⟨layout', laid'⟩ := knows.inherited laid inherits
  obtain ⟨_, same, _, count⟩ := (knows.sound itanium laid').laid
  obtain rfl := Except.ok.inj (laid'.symm.trans same)
  obtain ⟨bound, _⟩ := List.getElem?_eq_some_iff.mp found
  have at' : known.fieldOffset? c index = some _ :=
    (Known.fieldOffset?_eq laid' index).trans (List.getElem?_eq_getElem (count ▸ bound))
  have here {rest : List Step} (deeper : SubobjectAt s known m true rest e x) :=
    inside.trans (.member found stored at' contains isClass deeper)
  have same := h _ _ _ _ (here first) (here second) empty
  exact (List.cons.inj (List.append_cancel_left same)).2

end Class

/-- The subobjects of a class are apart if and only if those of all members are and no empty
subobject meets another one of a base that is placed together with its own. -/
theorem separated_iff {depth : Nat} (itanium : s.IsItanium) (cplusplus : s.options.cplusplus = true)
    (isClass : (s.tree.record d).isClass = true)
    (notUnion : ∀ c, Relation.ReflTransGen s.tree.Inherits d c → (s.tree.record c).isUnion = false)
    (laid : (s.known depth).record d = .ok layout) :
    ∃ g, Itanium.graphOf s (s.known depth) d layout.virtualPrimaryBase? = .ok g ∧
      (Separated s (s.known depth) d true ↔
        MembersSeparated s (s.known depth) d ∧ ClaimsClear s (s.known depth) d g) := by
  have knows := Setting.known_knows itanium.rules depth
  have settled := knows.settled itanium laid
  have sound := knows.sound itanium laid
  obtain ⟨own, g, pieces, fixed, st, built⟩ := knows.classLaid itanium laid isClass
  have computed := built.computed.computed
  obtain ⟨part, asClass, primary, _⟩ := built.part
  have owned : layout.virtualPrimaryBase? = own := by
    rw [built.owned, RecordLayout.virtualPrimaryBase?, RecordLayout.primaryBase?, asClass,
      Option.bind_some, primary]
  refine ⟨g, owned ▸ computed, fun separated => ⟨?members, ?clear⟩, ?apart⟩
  case members => exact separated.members knows itanium laid
  case clear =>
    intro i step step' path path' c x _ _ _ differs first second
    by_contra empty
    have same := separated _ _ _ _ first second (by simpa using empty)
    exact differs (List.cons.inj same).1
  case apart =>
    rintro ⟨members, clear⟩
    have below {b : RecordId} (inherits : Relation.ReflTransGen s.tree.Inherits d b)
        (isClass : (s.tree.record b).isClass = true) : Separated s (s.known depth) b false := by
      obtain ⟨_, laid'⟩ := knows.inherited laid inherits
      refine MembersSeparated.plain knows itanium cplusplus laid' isClass
        (fun c path => notUnion c (inherits.trans path)) ?_
      exact fun c index element field m path => members c index element field m (inherits.trans path)
    refine .of_parts (knows.grounded laid) ⟨?_, ?_, ?_⟩ ?_
    · intro b edge
      obtain ⟨offset, at'⟩ := Option.isSome_iff_exists.mp ((sound.bases b).mpr edge)
      exact below (.single edge.inherits) (sound.base_inside b offset at').1
    · intro _ v listed
      have has := Tree.HasVirtualBase.of_mem listed
      obtain ⟨offset, at'⟩ := Option.isSome_iff_exists.mp ((sound.virtualBases v).mpr has)
      exact below has.below.to_reflTransGen (sound.virtualBase_inside v offset at').1
    · exact fun index element field m => members d index element field m .refl
    · intro step step' path path' c x first second empty
      by_contra differs
      rcases built.meets laid settled cplusplus isClass (notUnion d .refl) empty first second with
        same | ⟨i, root, hangs, hangs'⟩
      · exact differs same
      · have full := clear i step step' path path' c x root hangs hangs' differs first second
        rw [full] at empty
        cases empty

end ObjectLayout
