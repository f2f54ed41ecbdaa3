import ObjectLayout.Proofs.Subobject.Visit

/-! The graph of a class as a forest. A claimed virtual base hangs below its claimant and any other
base below the occurrence that inherits it, so every occurrence has at most one place to hang from;
the roots are the direct non-virtual bases and the virtual bases that nothing has claimed. -/
namespace ObjectLayout.SubobjectGraph

open LayoutM (ends_bind)
open Itanium (PrimariesInherited)

variable {s : Setting} {known : Known} {allowed : Fault → Prop}
variable {g g' : SubobjectGraph} {i j k p : SubobjectId} {d r v b : RecordId}
variable {own : Option RecordId}

/-- The finished graph of the class `d`, in which nothing may hold the virtual base `own`. -/
structure Forest (s : Setting) (known : Known) (d : RecordId) (own : Option RecordId)
    (g : SubobjectGraph) : Prop where
  found : ∀ v p, g.virtualBases.find? v = some p →
    g.Has p ∧ (g.node p).record = v ∧ (g.node p).isVirtual = true
  listed : ∀ p, g.Has p → (g.node p).isVirtual = true →
    g.virtualBases.find? (g.node p).record = some p
  primary : ∀ c p, (g.node c).primaryVirtual = some p → g.Has p ∧ (g.node p).isVirtual = true ∧
    known.virtualPrimary? (g.node c).record = some (g.node p).record
  holder : ∀ p c, (g.node p).claimedBy = some c → g.Has c ∧ (g.node c).primaryVirtual = some p
  claimed : ∀ c v, g.Has c → known.virtualPrimary? (g.node c).record = some v → own ≠ some v →
    ∃ p, g.virtualBases.find? v = some p ∧ (g.node p).claimedBy.isSome
  free : ∀ p, g.Has p → own = some (g.node p).record → (g.node p).claimedBy = none
  bases : ∀ i, g.Has i → List.Forall₂ (fun base j => g.Has j ∧ (g.node j).record = base.record ∧
    (g.node j).isVirtual = base.isVirtual) (s.tree.record (g.node i).record).bases (g.node i).bases
  inner : ∀ i j, j ∈ (g.node i).bases → g.Has j
  once : ∀ i i' j, (g.node j).isVirtual = false → j ∈ (g.node i).bases → j ∈ (g.node i').bases →
    i = i'
  distinct : ∀ i, (g.nonVirtualBasesOf i).Nodup
  below : ∀ i, g.Has i → Relation.TransGen s.tree.Inherits d (g.node i).record
  virtual : ∀ i, g.Has i → (g.node i).isVirtual = true → s.tree.HasVirtualBase d (g.node i).record
  covered : ∀ v, s.tree.HasVirtualBase d v → (g.virtualBases.find? v).isSome
  plain : ∀ b, (g.nonVirtualBases.find? b).isSome ↔ s.tree.InheritsPlainly d b
  unrepeated : ((s.tree.record d).nonVirtualBases.map (·.record)).Nodup
  direct : ∀ b i, g.nonVirtualBases.find? b = some i → g.Has i ∧ (g.node i).record = b ∧
    (g.node i).isVirtual = false ∧ ∀ k, i ∉ (g.node k).bases
  parented : ∀ k, g.Has k → (g.node k).isVirtual = false →
    (∃ l, k ∈ (g.node l).bases) ∨ g.nonVirtualBases.find? (g.node k).record = some k
  reached : ∀ c, Relation.TransGen s.tree.Inherits d c → ∃ k, g.Has k ∧ (g.node k).record = c

section OfClass

/-- The graph after the visits of the direct bases `done`. -/
structure Gathered (s : Setting) (known : Known) (d : RecordId) (done : List Base)
    (g : SubobjectGraph) : Prop where
  growing : Growing s known d (fun _ => False) g
  plain : ∀ b, (g.nonVirtualBases.find? b).isSome ↔
    ∃ base ∈ done.filter (!·.isVirtual), base.record = b
  unrepeated : ((done.filter (!·.isVirtual)).map (·.record)).Nodup
  direct : ∀ b i, g.nonVirtualBases.find? b = some i → g.Has i ∧ (g.node i).record = b ∧
    (g.node i).isVirtual = false ∧ ∀ k, i ∉ (g.node k).bases
  parented : ∀ k, g.Has k → (g.node k).isVirtual = false →
    (∃ l, k ∈ (g.node l).bases) ∨ g.nonVirtualBases.find? (g.node k).record = some k
  visited : ∀ base ∈ done, ∃ j, g.Has j ∧ (g.node j).record = base.record ∧
    (g.node j).isVirtual = base.isVirtual

namespace Gathered

variable {done : List Base} {base : Base}

theorem start : Gathered s known d [] {} where
  growing := by
    constructor <;> intros <;> simp_all [Has, Arena.size, node, Arena.getD, Arena.get?,
      SubobjectGraph.missing, OrderedMap.find?, OrderedMap.empty, nonVirtualBasesOf]
  plain := by simp [OrderedMap.find?, OrderedMap.empty]
  unrepeated := .nil
  direct _ _ found := nomatch found
  parented _ has := absurd has (Nat.not_lt_zero _)
  visited := nofun

/-- What the visit of a further base leaves as it was. -/
theorem direct_grown (h : Gathered s known d done g)
    (grown : Extends g g') (found : g.nonVirtualBases.find? b = some i) :
    g'.Has i ∧ (g'.node i).record = b ∧ (g'.node i).isVirtual = false ∧
      ∀ k, i ∉ (g'.node k).bases := by
  obtain ⟨has, same, plain, orphan⟩ := h.direct b i found
  refine ⟨grown.has has, (grown.record i has).trans same, (grown.isVirtual i has).trans plain, ?_⟩
  exact fun k member => orphan k (grown.settled i k has plain member).2

theorem visited_grown (h : Gathered s known d done g)
    (next : Visited s known d (fun _ => False) g base.record base.isVirtual g' j) :
    ∀ base' ∈ done ++ [base], ∃ j, g'.Has j ∧ (g'.node j).record = base'.record ∧
      (g'.node j).isVirtual = base'.isVirtual := by
  intro base' member
  rcases List.mem_append.mp member with member | member
  · obtain ⟨k, has, same, virt⟩ := h.visited base' member
    exact ⟨k, next.grown.has has, (next.grown.record k has).trans same,
      (next.grown.isVirtual k has).trans virt⟩
  · cases List.mem_singleton.mp member
    exact ⟨j, next.has, next.record, next.kind⟩

theorem parented_grown (h : Gathered s known d done g)
    (next : Visited s known d (fun _ => False) g base.record base.isVirtual g' j)
    (has : g'.Has k) (plain : (g'.node k).isVirtual = false) (other : k ≠ j) :
    (∃ l, k ∈ (g'.node l).bases) ∨ g.nonVirtualBases.find? (g'.node k).record = some k := by
  by_cases old : g.Has k
  · rw [next.grown.isVirtual k old] at plain
    rw [next.grown.record k old]
    refine (h.parented k old plain).imp_left fun ⟨l, member⟩ => ⟨l, next.grown.member member⟩
  · exact .inl (next.parented k has old plain other)

theorem virtual (h : Gathered s known d done g) (virt : base.isVirtual = true)
    (next : Visited s known d (fun _ => False) g base.record base.isVirtual g' j) :
    Gathered s known d (done ++ [base]) g' where
  growing := next.growing
  plain b := by
    rw [next.grown.plain, h.plain b]
    simp [virt]
  unrepeated := by simpa [virt] using h.unrepeated
  direct b i found := by
    rw [next.grown.plain] at found
    exact h.direct_grown next.grown found
  parented k has plain := by
    rw [next.grown.plain]
    refine h.parented_grown next has plain ?_
    rintro rfl
    rw [next.kind, virt] at plain
    cases plain
  visited := h.visited_grown next

theorem nonVirtual (h : Gathered s known d done g) (notVirtual : base.isVirtual = false)
    (next : Visited s known d (fun _ => False) g base.record base.isVirtual g' j)
    (new : g'.nonVirtualBases.find? base.record = none) :
    Gathered s known d (done ++ [base])
      { g' with nonVirtualBases := g'.nonVirtualBases.insert base.record j } where
  growing := ⟨next.growing.found, next.growing.listed, next.growing.primary, next.growing.holder,
    fun i has closed =>
      let finished := next.growing.finished i has closed
      ⟨finished.bases, finished.claimed, finished.covered⟩,
    next.growing.inner, next.growing.once, next.growing.distinct, next.growing.below,
    next.growing.virtual⟩
  plain b := by
    by_cases same : b = base.record
    · subst same
      simp [OrderedMap.find?_insert_self, notVirtual]
    · have known := h.plain b
      rw [← next.grown.plain] at known
      have differs : ¬ base.record = b := fun h => same h.symm
      simp only [OrderedMap.find?_insert_of_ne _ _ same, known, List.filter_append,
        List.mem_append, or_and_right, exists_or, iff_self_or]
      simp [notVirtual, differs]
  unrepeated := by
    have fresh : base.record ∉ (done.filter (!·.isVirtual)).map (·.record) := by
      intro member
      obtain ⟨base', member, same⟩ := List.mem_map.mp member
      have known := (h.plain base.record).mpr ⟨base', member, same⟩
      rw [← next.grown.plain, new] at known
      cases known
    simp only [List.filter_append, List.map_append]
    refine List.nodup_append.mpr ⟨h.unrepeated, ?_, ?_⟩
    · simp [notVirtual]
    · rintro a old b here rfl
      simp only [notVirtual, Bool.not_false, List.filter_cons_of_pos, List.filter_nil, List.map_cons,
        List.map_nil, List.mem_singleton] at here
      exact fresh (here ▸ old)
  direct b i found := by
    by_cases same : b = base.record
    · subst same
      simp only [OrderedMap.find?_insert_self, Option.some.injEq] at found
      subst found
      exact ⟨next.has, next.record, next.kind.trans notVirtual, (next.orphan notVirtual).2⟩
    · simp only [OrderedMap.find?_insert_of_ne _ _ same] at found
      rw [next.grown.plain] at found
      have kept := h.direct_grown next.grown found
      exact kept
  parented k has plain := by
    by_cases same : k = j
    · subst same
      refine .inr ?_
      change (g'.nonVirtualBases.insert base.record k).find? (g'.node k).record = some k
      rw [next.record, OrderedMap.find?_insert_self]
    · refine (h.parented_grown next has plain same).imp_right fun found => ?_
      have ne : (g'.node k).record ≠ base.record := by
        intro same
        rw [← next.grown.plain, same, new] at found
        cases found
      change (g'.nonVirtualBases.insert base.record j).find? (g'.node k).record = some k
      rw [OrderedMap.find?_insert_of_ne _ _ ne, next.grown.plain]
      exact found
  visited := by
    have kept := h.visited_grown next
    exact kept

theorem covers (h : Gathered s known d (s.tree.record d).bases g) (has : s.tree.HasVirtualBase d v) :
    (g.virtualBases.find? v).isSome := by
  obtain ⟨base, member, here⟩ := Tree.hasVirtualBase_iff.mp has
  obtain ⟨j, there, same, virt⟩ := h.visited base member
  rcases here with ⟨isVirtual, rfl⟩ | deeper
  · rw [← same, h.growing.listed j there (virt.trans isVirtual)]
    rfl
  · exact (h.growing.finished j there id).covered v (same ▸ deeper)

/-- Every class below has an occurrence. -/
theorem reaches (h : Gathered s known d (s.tree.record d).bases g)
    (path : Relation.TransGen s.tree.Inherits d r) : ∃ k, g.Has k ∧ (g.node k).record = r := by
  induction path with
  | single edge =>
    obtain ⟨base, member, rfl⟩ := edge
    obtain ⟨j, there, same, _⟩ := h.visited base member
    exact ⟨j, there, same⟩
  | tail _ edge ih =>
    obtain ⟨k, has, rfl⟩ := ih
    obtain ⟨base, member, rfl⟩ := edge
    have bases := (h.growing.finished k has id).bases
    obtain ⟨position, bound, rfl⟩ := List.getElem_of_mem member
    obtain ⟨there, same, _⟩ := bases.get bound (bases.length_eq ▸ bound)
    exact ⟨_, there, same⟩

theorem forest (h : Gathered s known d (s.tree.record d).bases g) : Forest s known d none g where
  found := h.growing.found
  listed := h.growing.listed
  primary := h.growing.primary
  holder := h.growing.holder
  claimed c v has names _ := (h.growing.finished c has id).claimed v names
  free := nofun
  bases i has := (h.growing.finished i has id).bases
  inner := h.growing.inner
  once := h.growing.once
  distinct := h.growing.distinct
  below := h.growing.below
  virtual := h.growing.virtual
  covered _ := h.covers
  plain := h.plain
  unrepeated := h.unrepeated
  direct := h.direct
  parented := h.parented
  reached _ := h.reaches

end Gathered

/-- Only a layout that cannot be had, or a direct base that is there twice, keeps the graph from being
built. -/
theorem ofClass_ends (acyclic : s.tree.Acyclic d) (asks : Asks s known d allowed)
    (primaries : PrimariesInherited s known d)
    (repeats : ¬ ((s.tree.record d).nonVirtualBases.map (·.record)).Nodup →
      allowed (.breach .baseAlreadyInGraph)) :
    Ends allowed ((ofClass s d).eval known) (Forest s known d none) := by
  unfold ofClass
  rw [LayoutM.eval_foldlM]
  refine (Ends.foldlM (K := fun done _ => Gathered s known d done) .start ?_).imp
    fun g h => h.forest
  intro done base rest g split sofar
  have member : base ∈ (s.tree.record d).bases := by simp [split]
  have edge : s.tree.Inherits d base.record := ⟨base, member, rfl⟩
  refine ends_bind (visit_ends (acyclic.lower edge) asks primaries sofar.growing nofun
    (.single edge) fun virt => .direct ⟨base, member, virt, rfl⟩) fun result next => ?_
  obtain ⟨g', j⟩ := result
  dsimp only
  cases virt : base.isVirtual with
  | true => exact sofar.virtual virt next
  | false =>
    simp only [Bool.false_eq_true, if_false]
    refine ends_bind (G := fun _ => g'.nonVirtualBases.find? base.record = none) ?_
      fun _ new => sofar.nonVirtual virt next new
    rw [LayoutM.eval_ensure]
    refine ends_ensure (fun new => ?_) fun known => repeats fun unrepeated => ?_
    · simpa [OrderedMap.contains] using new
    · -- The base found here is among those before it.
      have known : (g.nonVirtualBases.find? base.record).isSome = true := by
        rw [← next.grown.plain]
        simpa [OrderedMap.contains] using known
      obtain ⟨base', member', same⟩ := (sofar.plain base.record).mp known
      rw [Record.nonVirtualBases, split, List.filter_append, List.map_append] at unrepeated
      refine (List.nodup_append.mp unrepeated).2.2 base.record
        (List.mem_map.mpr ⟨base', member', same⟩) base.record ?_ rfl
      simp [virt]

end OfClass

/-- `j` is placed together with `i`: as a non-virtual base of it, or as the virtual base that it has
claimed. -/
def Child (g : SubobjectGraph) (i j : SubobjectId) : Prop :=
  j ∈ g.nonVirtualBasesOf i ∨ g.claimedPrimary? i = some j

/-- Nothing has this occurrence placed together with it. -/
def IsRoot (g : SubobjectGraph) (i : SubobjectId) : Prop := g.Has i ∧ ∀ k, ¬ g.Child k i

theorem mem_nonVirtualBasesOf :
    j ∈ g.nonVirtualBasesOf i ↔ j ∈ (g.node i).bases ∧ (g.node j).isVirtual = false := by
  simp [nonVirtualBasesOf, List.mem_filter]

theorem claimedPrimary?_eq_some : g.claimedPrimary? i = some p ↔
    (g.node i).primaryVirtual = some p ∧ (g.node p).claimedBy = some i := by
  simp [claimedPrimary?, Option.filter_eq_some_iff]

/-- `j` is a base of `i`, or a virtual base that `i` has claimed, even if another claimed it later. -/
def Link (g : SubobjectGraph) (i j : SubobjectId) : Prop :=
  j ∈ (g.node i).bases ∨ (g.node i).primaryVirtual = some j

theorem Link.has_source (h : g.Link i j) : g.Has i := by
  by_contra missing
  rw [Link, node_missing missing] at h
  rcases h with member | claimed
  · cases member
  · cases claimed

theorem Child.link (h : g.Child i j) : g.Link i j := by
  rcases h with member | claimed
  · exact .inl (mem_nonVirtualBasesOf.mp member).1
  · exact .inr (claimedPrimary?_eq_some.mp claimed).1

theorem Child.has_parent (h : g.Child i j) : g.Has i := h.link.has_source

theorem free_isRoot (has : g.Has p) (virt : (g.node p).isVirtual = true)
    (free : (g.node p).claimedBy = none) : g.IsRoot p := by
  refine ⟨has, fun k child => ?_⟩
  rcases child with member | claimed
  · rw [(mem_nonVirtualBasesOf.mp member).2] at virt
    cases virt
  · rw [(claimedPrimary?_eq_some.mp claimed).2] at free
    cases free

/-- Two graphs that can only differ in who has claimed the virtual base `own`. -/
structure AgreesOff (own : Option RecordId) (g g' : SubobjectGraph) : Prop where
  virtualBases : g'.virtualBases = g.virtualBases
  nonVirtualBases : g'.nonVirtualBases = g.nonVirtualBases
  record : ∀ k, (g'.node k).record = (g.node k).record
  isVirtual : ∀ k, (g'.node k).isVirtual = (g.node k).isVirtual
  bases : ∀ k, (g'.node k).bases = (g.node k).bases
  claimedBy : ∀ k, own ≠ some (g.node k).record → (g'.node k).claimedBy = (g.node k).claimedBy

theorem AgreesOff.refl (own : Option RecordId) (g : SubobjectGraph) : AgreesOff own g g :=
  ⟨rfl, rfl, fun _ => rfl, fun _ => rfl, fun _ => rfl, fun _ _ => rfl⟩

/-- The occurrence `i` has been taken away from whatever had claimed it; all else is as it was. -/
structure Released (i : SubobjectId) (g g' : SubobjectGraph) : Prop where
  virtualBases : g'.virtualBases = g.virtualBases
  nonVirtualBases : g'.nonVirtualBases = g.nonVirtualBases
  has : ∀ k, g'.Has k ↔ g.Has k
  record : ∀ k, (g'.node k).record = (g.node k).record
  isVirtual : ∀ k, (g'.node k).isVirtual = (g.node k).isVirtual
  bases : ∀ k, (g'.node k).bases = (g.node k).bases
  primaryVirtual : ∀ k, (g'.node k).primaryVirtual = (g.node k).primaryVirtual
  claimedBy : ∀ k, (g'.node k).claimedBy = if k = i then none else (g.node k).claimedBy

theorem released_modify (has : g.Has i) :
    Released i g (g.modify i fun node => { node with claimedBy := none }) where
  virtualBases := virtualBases_modify _
  nonVirtualBases := nonVirtualBases_modify _
  has _ := has_modify _
  record _ := node_modify_field (·.record) (fun _ => rfl) has
  isVirtual _ := node_modify_field (·.isVirtual) (fun _ => rfl) has
  bases _ := node_modify_field (·.bases) (fun _ => rfl) has
  primaryVirtual _ := node_modify_field (·.primaryVirtual) (fun _ => rfl) has
  claimedBy k := by
    split
    · subst k
      rw [node_modify_self _ has]
    · rw [node_modify_of_ne _ ‹_›]

section Released

variable (h : Released i g g')
include h

theorem Released.nonVirtualBasesOf (k : SubobjectId) :
    g'.nonVirtualBasesOf k = g.nonVirtualBasesOf k := by
  simp only [SubobjectGraph.nonVirtualBasesOf, h.isVirtual, h.bases]

theorem Released.claimed (claimed : g'.claimedPrimary? k = some p) : g.claimedPrimary? k = some p := by
  obtain ⟨names, holder⟩ := claimedPrimary?_eq_some.mp claimed
  rw [h.primaryVirtual] at names
  rw [h.claimedBy] at holder
  split at holder
  · cases holder
  · exact claimedPrimary?_eq_some.mpr ⟨names, holder⟩

theorem Released.child (child : g'.Child k j) : g.Child k j :=
  child.imp (h.nonVirtualBasesOf k ▸ ·) h.claimed

end Released

namespace Forest

/-- A virtual base can be taken away from whatever has claimed it. -/
theorem steal (h : Forest s known d none g) (has : s.tree.HasVirtualBase d v) :
    ∃ g' p, g.stealVirtualBase v = .ok (g', p) ∧ Forest s known d (some v) g' ∧
      g'.virtualBases.find? v = some p ∧ AgreesOff (some v) g g' := by
  obtain ⟨p, found⟩ := Option.isSome_iff_exists.mp (h.covered v has)
  obtain ⟨there, same, virt⟩ := h.found v p found
  obtain ⟨virtualBases, nonVirtualBases, _, record, isVirtual, bases, primary, claimedBy⟩ :=
    released_modify there
  have agrees : AgreesOff (some v) g (g.modify p fun node => { node with claimedBy := none }) := by
    refine ⟨virtualBases, nonVirtualBases, record, isVirtual, bases, ?_⟩
    intro k other
    rw [claimedBy, if_neg]
    rintro rfl
    exact other (congrArg some same.symm)
  refine ⟨_, p, except_bind_eq_ok.mpr ⟨p, ?_, rfl⟩, ?_, found, agrees⟩
  · simp only [virtualBase, found]
  constructor
  case found => simpa only [virtualBases_modify, has_modify, record, isVirtual] using h.found
  case listed => simpa only [virtualBases_modify, has_modify, record, isVirtual] using h.listed
  case primary => simpa only [has_modify, record, isVirtual, primary] using h.primary
  case holder =>
    intro q c claimed
    rw [claimedBy] at claimed
    split at claimed
    · cases claimed
    · rw [has_modify, primary]
      exact h.holder q c claimed
  case claimed =>
    intro c u has names other
    rw [has_modify] at has
    rw [record] at names
    obtain ⟨q, found', some⟩ := h.claimed c u has names nofun
    refine ⟨q, found', ?_⟩
    rw [claimedBy, if_neg]
    · exact some
    · rintro rfl
      rw [(h.found u q found').2.1] at same
      exact other (congrArg _ same.symm)
  case free =>
    intro q has own
    rw [has_modify] at has
    rw [record, Option.some.injEq] at own
    by_cases same' : q = p
    · rw [claimedBy, if_pos same']
    · rw [claimedBy, if_neg same']
      by_contra some
      obtain ⟨c, some⟩ := Option.ne_none_iff_exists'.mp some
      obtain ⟨_, primary'⟩ := h.holder q c some
      obtain ⟨_, virt', _⟩ := h.primary c q primary'
      have := h.listed q has virt'
      rw [← own, found] at this
      exact same' (Option.some.inj this).symm
  case bases =>
    intro i has
    rw [has_modify] at has
    simpa only [has_modify, record, isVirtual, bases] using h.bases i has
  case inner => simpa only [has_modify, bases] using h.inner
  case once => simpa only [isVirtual, bases] using h.once
  case distinct => simpa only [nonVirtualBasesOf, isVirtual, bases] using h.distinct
  case below => simpa only [has_modify, record] using h.below
  case virtual => simpa only [has_modify, record, isVirtual] using h.virtual
  case covered => exact h.covered
  case plain => exact h.plain
  case unrepeated => exact h.unrepeated
  case direct =>
    simpa only [nonVirtualBases_modify, has_modify, record, isVirtual, bases] using h.direct
  case parented =>
    simpa only [nonVirtualBases_modify, has_modify, record, isVirtual, bases] using h.parented
  case reached => simpa only [has_modify, record] using h.reached

theorem has_child (h : Forest s known d own g) (child : g.Child i j) : g.Has j := by
  rcases child with member | claimed
  · exact h.inner i j (mem_nonVirtualBasesOf.mp member).1
  · exact (h.primary i j (claimedPrimary?_eq_some.mp claimed).1).1

theorem has_descendant (h : Forest s known d own g) (has : g.Has i)
    (path : Relation.ReflTransGen g.Child i j) : g.Has j := by
  rcases Relation.ReflTransGen.cases_tail path with rfl | ⟨k, _, child⟩
  · exact has
  · exact h.has_child child

/-- A base of an occurrence is one of a direct base of its class. -/
theorem base_of_mem (h : Forest s known d own g) (member : j ∈ (g.node i).bases) :
    ∃ base ∈ (s.tree.record (g.node i).record).bases,
      (g.node j).record = base.record ∧ (g.node j).isVirtual = base.isVirtual := by
  have has : g.Has i := by
    by_contra missing
    rw [node_missing missing] at member
    cases member
  have bases := h.bases i has
  obtain ⟨position, bound, rfl⟩ := List.getElem_of_mem member
  have bound' := bases.length_eq ▸ bound
  exact ⟨_, List.getElem_mem bound', (bases.get bound' bound).2⟩

theorem plain_edge (h : Forest s known d own g) (member : j ∈ g.nonVirtualBasesOf i) :
    s.tree.InheritsPlainly (g.node i).record (g.node j).record := by
  obtain ⟨member, plain⟩ := mem_nonVirtualBasesOf.mp member
  obtain ⟨base, there, same, virt⟩ := h.base_of_mem member
  refine ⟨base, List.mem_filter.mpr ⟨there, ?_⟩, same.symm⟩
  simpa using virt.symm.trans plain

theorem claimed_record (h : Forest s known d own g) (claimed : g.claimedPrimary? i = some p) :
    g.Has p ∧ (g.node p).isVirtual = true ∧
      known.virtualPrimary? (g.node i).record = some (g.node p).record :=
  h.primary i p (claimedPrimary?_eq_some.mp claimed).1

/-- Links lead down the inheritance graph. -/
theorem link_below (h : Forest s known d own g) (primaries : PrimariesInherited s known d)
    (link : g.Link i j) :
    Relation.TransGen s.tree.Inherits (g.node i).record (g.node j).record := by
  have has := link.has_source
  rcases link with member | claimed
  · obtain ⟨base, there, same, _⟩ := h.base_of_mem member
    exact .single ⟨base, there, same.symm⟩
  · exact (primaries _ _ (h.below i has) (h.primary i j claimed).2.2).below

theorem child_below (h : Forest s known d own g) (primaries : PrimariesInherited s known d)
    (child : g.Child i j) :
    Relation.TransGen s.tree.Inherits (g.node i).record (g.node j).record :=
  h.link_below primaries child.link

theorem links_grounded (h : Forest s known d own g) (primaries : PrimariesInherited s known d)
    (acyclic : s.tree.Acyclic d) (i : SubobjectId) : Grounded g.Link i := by
  have of_record : ∀ r, Grounded (Relation.TransGen s.tree.Inherits) r →
      ∀ i, (g.node i).record = r → Grounded g.Link i := by
    intro r grounded
    induction grounded with
    | intro r _ ih =>
      rintro i rfl
      exact .intro fun j link => ih _ (h.link_below primaries link) j rfl
  by_cases has : g.Has i
  · exact of_record _ (acyclic.transGen.lower (h.below i has)) i rfl
  · exact .intro fun j link => absurd link.has_source has

theorem grounded (h : Forest s known d own g) (primaries : PrimariesInherited s known d)
    (acyclic : s.tree.Acyclic d) (i : SubobjectId) : Grounded g.Child i :=
  (h.links_grounded primaries acyclic i).mono fun _ _ => Child.link

/-- An occurrence hangs from one place at most. -/
theorem parent_unique (h : Forest s known d own g) (child : g.Child i k) (child' : g.Child j k) :
    i = j := by
  rcases child with member | claimed <;> rcases child' with member' | claimed'
  · obtain ⟨inside, plain⟩ := mem_nonVirtualBasesOf.mp member
    exact h.once i j k plain inside (mem_nonVirtualBasesOf.mp member').1
  · have virt := (h.claimed_record claimed').2.1
    rw [(mem_nonVirtualBasesOf.mp member).2] at virt
    cases virt
  · have virt := (h.claimed_record claimed).2.1
    rw [(mem_nonVirtualBasesOf.mp member').2] at virt
    cases virt
  · have one := (claimedPrimary?_eq_some.mp claimed).2
    rw [(claimedPrimary?_eq_some.mp claimed').2] at one
    exact (Option.some.inj one).symm

/-- Every occurrence is placed together with some root. -/
theorem exists_root (h : Forest s known d own g) (primaries : PrimariesInherited s known d)
    (acyclic : s.tree.Acyclic d) (has : g.Has j) :
    ∃ i, g.IsRoot i ∧ Relation.ReflTransGen g.Child i j := by
  -- The number of occurrences that are not below grows with every step up.
  have inside : ∀ i k, g.Child i k → i.position < g.nodes.size := fun _ _ child => child.has_parent
  have climb : ∀ rest j, g.Has j → g.nodes.size - (reach g.Child Idx.position g.nodes.size j).card = rest →
      ∃ i, g.IsRoot i ∧ Relation.ReflTransGen g.Child i j := by
    intro rest
    induction rest using Nat.strongRecOn with
    | ind rest ih =>
    intro j has left
    by_cases root : ∀ k, ¬ g.Child k j
    · exact ⟨j, ⟨has, root⟩, .refl⟩
    · obtain ⟨k, child⟩ := not_forall_not.mp root
      have fewer := reach_card_lt Idx.position_injective inside
        (h.grounded primaries acyclic k) child
      have most := reach_card_le g.Child Idx.position g.nodes.size k
      obtain ⟨i, root, path⟩ := ih _ (by omega) k child.has_parent rfl
      exact ⟨i, root, path.tail child⟩
  exact climb _ j has rfl

theorem direct_isRoot (h : Forest s known d own g) (found : g.nonVirtualBases.find? b = some i) :
    g.IsRoot i := by
  obtain ⟨has, _, plain, orphan⟩ := h.direct b i found
  refine ⟨has, fun k child => ?_⟩
  rcases child with member | claimed
  · exact orphan k (mem_nonVirtualBasesOf.mp member).1
  · rw [(h.claimed_record claimed).2.1] at plain
    cases plain

/-- The two kinds of roots. -/
theorem root_cases (h : Forest s known d own g) (root : g.IsRoot i) :
    ((g.node i).isVirtual = false ∧ g.nonVirtualBases.find? (g.node i).record = some i) ∨
      ((g.node i).isVirtual = true ∧ (g.node i).claimedBy = none) := by
  obtain ⟨has, orphan⟩ := root
  cases virt : (g.node i).isVirtual with
  | false =>
    refine .inl ⟨rfl, (h.parented i has virt).resolve_left ?_⟩
    rintro ⟨l, member⟩
    exact orphan l (.inl (mem_nonVirtualBasesOf.mpr ⟨member, virt⟩))
  | true =>
    refine .inr ⟨rfl, ?_⟩
    by_contra some
    obtain ⟨c, claimed⟩ := Option.ne_none_iff_exists'.mp some
    exact orphan c (.inr (claimedPrimary?_eq_some.mpr ⟨(h.holder i c claimed).2, claimed⟩))

/-- What holds of the direct non-virtual bases and of the virtual bases, and passes from an occurrence
to its non-virtual bases, holds of every occurrence. -/
theorem induct {motive : SubobjectId → Prop} (h : Forest s known d own g)
    (primaries : PrimariesInherited s known d) (acyclic : s.tree.Acyclic d)
    (direct : ∀ b i, g.nonVirtualBases.find? b = some i → motive i)
    (virtual : ∀ v p, g.virtualBases.find? v = some p → motive p)
    (under : ∀ i j, motive i → j ∈ g.nonVirtualBasesOf i → motive j) (has : g.Has k) :
    motive k := by
  obtain ⟨i, root, path⟩ := h.exists_root primaries acyclic has
  clear has
  induction path with
  | refl =>
    rcases h.root_cases root with ⟨_, found⟩ | ⟨virt, _⟩
    · exact direct _ i found
    · exact virtual _ i (h.listed i root.1 virt)
  | tail _ child ih =>
    rcases child with member | claimed
    · exact under _ _ ih member
    · obtain ⟨has, virt, _⟩ := h.claimed_record claimed
      exact virtual _ _ (h.listed _ has virt)

/-- The virtual bases that something has claimed are those that serve as the primary base of some
class below, except for the one that `d` itself keeps. -/
theorem claimed_iff (h : Forest s known d own g) (found : g.virtualBases.find? v = some p) :
    (g.node p).claimedBy.isSome ↔
      own ≠ some v ∧ ∃ b, s.tree.Inherits d b ∧ Itanium.IsPrimaryFrom s known b v := by
  obtain ⟨has, same, virt⟩ := h.found v p found
  constructor
  · intro some
    obtain ⟨c, claimed⟩ := Option.isSome_iff_exists.mp some
    obtain ⟨hasClaimant, primary⟩ := h.holder p c claimed
    obtain ⟨_, _, names⟩ := h.primary c p primary
    refine ⟨fun kept => ?_, ?_⟩
    · rw [h.free p has (by rw [same, kept])] at claimed
      cases claimed
    · obtain ⟨b, edge, path⟩ := Relation.TransGen.head'_iff.mp (h.below c hasClaimant)
      exact ⟨b, edge, _, path, same ▸ names⟩
  · rintro ⟨other, b, edge, c, path, names⟩
    obtain ⟨k, hasNode, rfl⟩ := h.reached c (.head' edge path)
    obtain ⟨p', found', some⟩ := h.claimed k v hasNode names other
    rw [found] at found'
    cases found'
    exact some

end Forest

end ObjectLayout.SubobjectGraph
