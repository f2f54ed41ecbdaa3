import ObjectLayout.Proofs.Enclosure
import ObjectLayout.Proofs.Itanium.Soundness
import ObjectLayout.Proofs.Microsoft.Whole

/-! A census of base subobjects. A path names a base subobject by where it is inherited, and the graph
of a class has one occurrence for every path: none is missing, and none is there twice. Of the claims
that are made while the graph grows each virtual base keeps one; and since every link leads down the
inheritance graph, whatever follows the links ends. -/
namespace ObjectLayout

/-- The way to a base subobject: from a direct non-virtual base, or from a virtual base, on through
non-virtual bases. Further down a class may be inherited twice, so that these are told apart by their
positions among the declared bases. -/
inductive BasePath where
  | direct (b : RecordId)
  | virtual (v : RecordId)
  | onward (path : BasePath) (position : Nat)
  deriving DecidableEq, Repr

/-- Leads to a virtual base itself. -/
def BasePath.isVirtual : BasePath → Bool
  | .virtual _ => true
  | .direct _ | .onward _ _ => false

/-- The class at the end of a path, if the class `d` has such a path. -/
def Tree.classAt? (tree : Tree) (d : RecordId) : BasePath → Option RecordId
  | .direct b => if b ∈ (tree.record d).nonVirtualBases.map (·.record) then some b else none
  | .virtual v => if v ∈ tree.virtualBases d then some v else none
  | .onward path position =>
    (((tree.classAt? d path).bind fun r => (tree.record r).bases[position]?).filter
      (!·.isVirtual)).map (·.record)

/-- No value that a filter keeps stands at two positions of a list, if none does in what is kept. -/
theorem position_unique {α : Type} {xs : List α} {keep : α → Bool} (distinct : (xs.filter keep).Nodup)
    {a : α} (kept : keep a = true) {m n : Nat} (first : xs[m]? = some a) (second : xs[n]? = some a) :
    m = n := by
  have apart := List.pairwise_iff_getElem.mp (List.pairwise_filter.mp distinct)
  have once {m n : Nat} (first : xs[m]? = some a) (second : xs[n]? = some a) : ¬ m < n := by
    intro less
    obtain ⟨bound, here⟩ := List.getElem?_eq_some_iff.mp first
    obtain ⟨bound', there⟩ := List.getElem?_eq_some_iff.mp second
    exact apart m n bound bound' less (here ▸ kept) (there ▸ kept) (here.trans there.symm)
  exact Nat.le_antisymm (Nat.le_of_not_lt (once second first)) (Nat.le_of_not_lt (once first second))

namespace SubobjectGraph

variable {s : Setting} {known : Known} {g : SubobjectGraph} {own : Option RecordId}
variable {d v : RecordId} {i j p : SubobjectId} {path other : BasePath} {position : Nat}

/-- The occurrence at the end of a path. -/
def nodeAt? (g : SubobjectGraph) : BasePath → Option SubobjectId
  | .direct b => g.nonVirtualBases.find? b
  | .virtual v => g.virtualBases.find? v
  | .onward path position =>
    ((g.nodeAt? path).bind fun i => (g.node i).bases[position]?).filter
      fun j => !(g.node j).isVirtual

/-- What an occurrence is one of: a class, inherited virtually or not. -/
def inherited (g : SubobjectGraph) (i : SubobjectId) : RecordId × Bool :=
  ((g.node i).record, (g.node i).isVirtual)

/-- The occurrences in the graph of the class `d` are its base subobjects. -/
structure Census (s : Setting) (known : Known) (d : RecordId) (g : SubobjectGraph) : Prop where
  /-- Every path of `d`, and no other, has an occurrence, of the class at its end. -/
  classes : ∀ path, (g.nodeAt? path).map (fun i => (g.node i).record) = s.tree.classAt? d path
  occurs : ∀ path i, g.nodeAt? path = some i → g.Has i ∧ (g.node i).isVirtual = path.isVirtual
  /-- Every occurrence is that of one path. -/
  named : ∀ i, g.Has i → ∃! path, g.nodeAt? path = some i
  /-- The bases of an occurrence are in the order of declaration. -/
  bases : ∀ i, g.Has i → (∀ j ∈ (g.node i).bases, g.Has j) ∧
    (g.node i).bases.map g.inherited =
      (s.tree.record (g.node i).record).bases.map fun base => (base.record, base.isVirtual)
  /-- What holds a virtual base has claimed it, as the virtual primary base of its class. -/
  holder : ∀ p i, (g.node p).claimedBy = some i → g.Has i ∧
    (g.node i).primaryVirtual = some p ∧
      known.virtualPrimary? (g.node i).record = some (g.node p).record
  /-- To a virtual base that can be claimed one claim stands. -/
  claimed : ∀ i v, g.Has i → known.virtualPrimary? (g.node i).record = some v →
    ∃ p, g.virtualBases.find? v = some p ∧ ∃! j, g.claimedPrimary? j = some p
  /-- No occurrence can be followed down its bases and claims for ever. -/
  grounded : ∀ i, Grounded g.Link i

theorem nodeAt?_onward : g.nodeAt? (.onward path position) = some j ↔
    ∃ i, g.nodeAt? path = some i ∧ (g.node i).bases[position]? = some j ∧
      (g.node j).isVirtual = false := by
  simp only [nodeAt?, Option.filter_eq_some_iff, Option.bind_eq_some_iff, Bool.not_eq_true',
    ← and_assoc, exists_and_right]

namespace Forest

variable (h : Forest s known d own g)
include h

theorem occurs (named : g.nodeAt? path = some i) :
    g.Has i ∧ (g.node i).isVirtual = path.isVirtual := by
  cases path with
  | direct b =>
    obtain ⟨has, _, plain, _⟩ := h.direct b i named
    exact ⟨has, plain⟩
  | virtual v =>
    obtain ⟨has, _, virt⟩ := h.found v i named
    exact ⟨has, virt⟩
  | onward path position =>
    obtain ⟨above, _, found, plain⟩ := nodeAt?_onward.mp named
    exact ⟨h.inner above i (List.mem_of_getElem? found), plain⟩

theorem bases_eq (has : g.Has i) : (g.node i).bases.map g.inherited =
    (s.tree.record (g.node i).record).bases.map fun base => (base.record, base.isVirtual) := by
  have alike : List.Forall₂ Eq
      ((s.tree.record (g.node i).record).bases.map fun base => (base.record, base.isVirtual))
      ((g.node i).bases.map g.inherited) := by
    rw [List.forall₂_map_left_iff, List.forall₂_map_right_iff]
    exact (h.bases i has).imp fun base j ⟨_, record, kind⟩ => by rw [inherited, record, kind]
  rw [List.forall₂_eq_eq_eq] at alike
  exact alike.symm

/-- The non-virtual base at a position is of the class that is declared there. -/
theorem base_at (has : g.Has i) (position : Nat) :
    (((g.node i).bases[position]?).filter fun j => !(g.node j).isVirtual).map
        (fun j => (g.node j).record) =
      (((s.tree.record (g.node i).record).bases[position]?).filter (!·.isVirtual)).map
        (·.record) := by
  have entry := congrArg (·[position]?) (h.bases_eq has)
  simp only [List.getElem?_map] at entry
  calc (((g.node i).bases[position]?).filter fun j => !(g.node j).isVirtual).map
          (fun j => (g.node j).record)
      = ((((g.node i).bases[position]?).map g.inherited).filter (!·.2)).map (·.1) := by
        simp [Option.filter_map, Function.comp_def, inherited]
    _ = _ := by rw [entry]
    _ = (((s.tree.record (g.node i).record).bases[position]?).filter (!·.isVirtual)).map
          (·.record) := by
        simp [Option.filter_map, Function.comp_def]

/-- Paths in the graph follow the declarations. -/
theorem classes (acyclic : s.tree.Acyclic d) (path : BasePath) :
    (g.nodeAt? path).map (fun i => (g.node i).record) = s.tree.classAt? d path := by
  induction path with
  | direct b =>
    have plain : (g.nonVirtualBases.find? b).isSome ↔
        b ∈ (s.tree.record d).nonVirtualBases.map (·.record) :=
      (h.plain b).trans List.mem_map.symm
    rw [nodeAt?, Tree.classAt?]
    cases found : g.nonVirtualBases.find? b with
    | none => rw [if_neg (by simpa [found] using plain)]; rfl
    | some i =>
      rw [if_pos (plain.mp (by rw [found]; rfl)), Option.map_some, (h.direct b i found).2.1]
  | virtual v =>
    rw [nodeAt?, Tree.classAt?]
    cases found : g.virtualBases.find? v with
    | none =>
      rw [if_neg, Option.map_none]
      intro listed
      have covered := h.covered v ((Tree.mem_virtualBases acyclic).mp listed)
      rw [found] at covered
      cases covered
    | some p =>
      obtain ⟨has, record, virt⟩ := h.found v p found
      have listed := (Tree.mem_virtualBases acyclic).mpr (h.virtual p has virt)
      rw [record] at listed
      rw [if_pos listed, Option.map_some, record]
  | onward path position ih =>
    rw [nodeAt?, Tree.classAt?, ← ih]
    cases named : g.nodeAt? path with
    | none => rfl
    | some i => exact h.base_at (h.occurs named).1 position

/-- Two paths that meet in an occurrence are one. -/
theorem path_unique (named : g.nodeAt? path = some i) (named' : g.nodeAt? other = some i) :
    path = other := by
  have kind : path.isVirtual = other.isVirtual := (h.occurs named).2.symm.trans (h.occurs named').2
  induction path generalizing other i with
  | direct b =>
    obtain ⟨_, record, _, orphan⟩ := h.direct b i named
    cases other with
    | direct b' => rw [← record, (h.direct b' i named').2.1]
    | virtual v => cases kind
    | onward path' position' =>
      obtain ⟨above, _, found, _⟩ := nodeAt?_onward.mp named'
      exact absurd (List.mem_of_getElem? found) (orphan above)
  | virtual v =>
    cases other with
    | virtual v' => rw [← (h.found v i named).2.1, (h.found v' i named').2.1]
    | direct b | onward path' position' => cases kind
  | onward path position ih =>
    obtain ⟨above, namedAbove, found, plain⟩ := nodeAt?_onward.mp named
    cases other with
    | direct b => exact absurd (List.mem_of_getElem? found) ((h.direct b i named').2.2.2 above)
    | virtual v => cases kind
    | onward path' position' =>
      obtain ⟨above', namedAbove', found', _⟩ := nodeAt?_onward.mp named'
      obtain rfl := h.once above above' i plain (List.mem_of_getElem? found)
        (List.mem_of_getElem? found')
      have same := ih namedAbove namedAbove'
        ((h.occurs namedAbove).2.symm.trans (h.occurs namedAbove').2)
      have here := position_unique (h.distinct above) (by simpa using plain) found found'
      rw [same, here]

theorem exists_path (primaries : Itanium.PrimariesInherited s known d) (acyclic : s.tree.Acyclic d)
    (has : g.Has i) : ∃ path, g.nodeAt? path = some i := by
  refine h.induct (motive := fun i => ∃ path, g.nodeAt? path = some i) primaries acyclic
    (fun b i found => ⟨.direct b, found⟩) (fun v p found => ⟨.virtual v, found⟩) ?_ has
  rintro i j ⟨path, named⟩ member
  obtain ⟨member, plain⟩ := mem_nonVirtualBasesOf.mp member
  obtain ⟨position, found⟩ := List.getElem?_of_mem member
  exact ⟨.onward path position, nodeAt?_onward.mpr ⟨i, named, found, plain⟩⟩

end Forest

namespace Forest

theorem census (h : Forest s known d none g) (primaries : Itanium.PrimariesInherited s known d)
    (acyclic : s.tree.Acyclic d) : Census s known d g where
  classes := h.classes acyclic
  occurs _ _ := h.occurs
  named i has := by
    obtain ⟨path, named⟩ := h.exists_path primaries acyclic has
    exact ⟨path, named, fun other named' => h.path_unique named' named⟩
  bases i has := ⟨h.inner i, h.bases_eq has⟩
  holder p i holds := by
    obtain ⟨has, primary⟩ := h.holder p i holds
    exact ⟨has, primary, (h.primary i p primary).2.2⟩
  claimed i v has names := by
    obtain ⟨p, found, some⟩ := h.claimed i v has names nofun
    obtain ⟨j, holds⟩ := Option.isSome_iff_exists.mp some
    refine ⟨p, found, j, claimedPrimary?_eq_some.mpr ⟨(h.holder p j holds).2, holds⟩, ?_⟩
    intro k claims
    have holds' := (claimedPrimary?_eq_some.mp claims).2
    rw [holds] at holds'
    exact (Option.some.inj holds').symm
  grounded := h.links_grounded primaries acyclic

end Forest

end SubobjectGraph

/-- A virtual primary base is a virtual base of its class, whichever rules have chosen it. -/
theorem Setting.primariesInherited {s : Setting} (unsupplied : ∀ r, s.suppliedLayout? r = none)
    (depth : Nat) (d : RecordId) : Itanium.PrimariesInherited s (s.known depth) d := by
  intro b v _ names
  obtain ⟨layout, laid, chosen⟩ := Option.bind_eq_some_iff.mp names
  have laid : (s.known depth).record b = .ok layout := by
    cases outcome : (s.known depth).record b with
    | error fault => rw [outcome] at laid; cases laid
    | ok value => rw [outcome] at laid; cases laid; rfl
  cases rules : s.usesMicrosoftLayout with
  | true =>
    rw [Microsoft.virtualPrimaryBase?_eq_none rules (s.known_record laid)] at chosen
    cases chosen
  | false => exact (((s.known_knows rules depth).sound ⟨rules, unsupplied⟩ laid).primary v names).1

/-- Only a class below whose layout fails keeps the graph of a class from being built; nothing goes
wrong on the way, and the graph has the base subobjects of the class, each of them once. -/
theorem base_subobjects_occur_once {s : Setting} {d : RecordId}
    (unsupplied : ∀ r, s.suppliedLayout? r = none) (acyclic : s.tree.Acyclic d)
    (distinct : ((s.tree.record d).nonVirtualBases.map (·.record)).Nodup) (depth : Nat) :
    Ends (fun fault => ∃ b, Relation.TransGen s.tree.Inherits d b ∧
        s.tree.hasVirtualBases b = true ∧ (s.known depth).record b = .error fault)
      ((SubobjectGraph.ofClass s d).eval (s.known depth))
      (SubobjectGraph.Census s (s.known depth) d) := by
  have primaries := Setting.primariesInherited unsupplied depth d
  refine (SubobjectGraph.ofClass_ends acyclic (fun b path has => ?asks) primaries
    fun repeated => absurd distinct repeated).imp fun g forest => forest.census primaries acyclic
  cases laid : (s.known depth).record b with
  | ok layout => trivial
  | error fault => exact ⟨b, path, has, laid⟩

/-- The virtual base `Y` of `X` claims `W` first, and `X`, of which it is a base, takes it over. -/
def overriddenClaim : Setting :=
  .linux [
    .ofClass "W" [] [] [⟨0⟩],
    .ofClass "Y" [{ name := "y", type := .scalar ⟨0⟩ .plainChar }]
      [{ record := ⟨0⟩, isVirtual := true }] [],
    .ofClass "X" [] [{ record := ⟨1⟩, isVirtual := true }] [],
    .ofClass "D" [] [{ record := ⟨2⟩ }, { record := ⟨1⟩ }] []]
    [{ name := "f", owner := ⟨0⟩, isVirtual := true }]

theorem base_subobjects_occur_once_overriddenClaim : ∃ g,
    (SubobjectGraph.ofClass overriddenClaim ⟨3⟩).eval (overriddenClaim.known 4) = .ok g ∧
      g.nodes.size = 4 ∧
      ([.direct ⟨2⟩, .virtual ⟨1⟩, .virtual ⟨0⟩, .direct ⟨1⟩] : List BasePath).map g.nodeAt? =
        [some ⟨0⟩, some ⟨1⟩, some ⟨2⟩, some ⟨3⟩] ∧
      (g.node ⟨1⟩).primaryVirtual = some ⟨2⟩ ∧ (g.node ⟨2⟩).claimedBy = some ⟨0⟩ ∧
      g.Census overriddenClaim (overriddenClaim.known 4) ⟨3⟩ := by
  obtain ⟨g, built⟩ := exists_ok (by decide +kernel :
    ((SubobjectGraph.ofClass overriddenClaim ⟨3⟩).eval (overriddenClaim.known 4)).isOk = true)
  have facts : ((SubobjectGraph.ofClass overriddenClaim ⟨3⟩).eval
      (overriddenClaim.known 4)).toOption.map (fun g => (g.nodes.size,
        ([.direct ⟨2⟩, .virtual ⟨1⟩, .virtual ⟨0⟩, .direct ⟨1⟩] : List BasePath).map g.nodeAt?,
        (g.node ⟨1⟩).primaryVirtual, (g.node ⟨2⟩).claimedBy)) =
      some (4, [some ⟨0⟩, some ⟨1⟩, some ⟨2⟩, some ⟨3⟩], some ⟨2⟩, some ⟨0⟩) := by decide +kernel
  rw [built] at facts
  simp only [Except.toOption, Option.map_some, Option.some.injEq, Prod.mk.injEq] at facts
  obtain ⟨size, paths, first, last⟩ := facts
  have grounded : Grounded overriddenClaim.tree.Encloses ⟨3⟩ :=
    Tree.grounded_of_earlier (by decide +kernel) ⟨3⟩
  have acyclic : overriddenClaim.tree.Acyclic ⟨3⟩ := grounded.mono fun _ _ edge => edge.encloses
  have itanium : overriddenClaim.IsItanium := Setting.linux_isItanium _ _
  have distinct : ((overriddenClaim.tree.record ⟨3⟩).nonVirtualBases.map (·.record)).Nodup := by
    decide
  -- With a number for the depth the elaborator would build the graph anew.
  have counted (depth : Nat) (g : SubobjectGraph)
      (built : (SubobjectGraph.ofClass overriddenClaim ⟨3⟩).eval (overriddenClaim.known depth) =
        .ok g) : g.Census overriddenClaim (overriddenClaim.known depth) ⟨3⟩ :=
    (base_subobjects_occur_once itanium.unsupplied acyclic distinct depth).value built
  exact ⟨g, built, size, paths, first, last, counted 4 g built⟩

end ObjectLayout
