import ObjectLayout.Proofs.Knowledge

/-! The choice of a primary base. The choice always ends where the bases of a class have layouts; a
virtual primary base is a virtual base of the class that holds nothing but a table pointer, and the
bases counted as used are exactly the virtual primary bases of the classes below. -/
namespace ObjectLayout

/-- The virtual primary base that the known layout of a record names. -/
def Known.virtualPrimary? (known : Known) (r : RecordId) : Option RecordId :=
  (known.record r).toOption.bind (·.virtualPrimaryBase?)

theorem Known.virtualPrimary?_eq {known : Known} {r : RecordId} {layout : RecordLayout}
    (laid : known.record r = .ok layout) : known.virtualPrimary? r = layout.virtualPrimaryBase? := by
  rw [virtualPrimary?, laid]
  rfl

namespace Itanium

open LayoutM (ends_bind)

variable {s : Setting} {known : Known} {allowed : Fault → Prop} {r v b : RecordId}

/-- The classes below `r` have layouts, those of classes saying so. -/
def BasesLaid (s : Setting) (known : Known) (r : RecordId) : Prop :=
  ∀ b, Relation.TransGen s.tree.Inherits r b →
    ∃ layout, known.record b = .ok layout ∧ layout.asClass.isSome = (s.tree.record b).isClass

/-- Virtual primary bases of the classes below `r` are virtual bases of these classes. -/
def PrimariesInherited (s : Setting) (known : Known) (r : RecordId) : Prop :=
  ∀ b v, Relation.TransGen s.tree.Inherits r b → known.virtualPrimary? b = some v →
    s.tree.HasVirtualBase b v

/-- A dynamic class that is no larger than its table pointer. -/
structure NearlyEmpty (s : Setting) (known : Known) (v : RecordId) : Prop where
  dynamic : s.tree.isDynamic v = true
  size : ∃ layout, known.record v = .ok layout ∧
    layout.nonVirtualSize = .ok s.target.pointerWidth

theorem BasesLaid.lower (laid : BasesLaid s known r) (edge : s.tree.Inherits r b) :
    BasesLaid s known b :=
  fun _ path => laid _ (.head edge path)

theorem PrimariesInherited.lower (primaries : PrimariesInherited s known r)
    (edge : s.tree.Inherits r b) : PrimariesInherited s known b :=
  fun _ _ path => primaries _ _ (.head edge path)

theorem isClass_of_isDynamic (acyclic : s.tree.Acyclic r) (dynamic : s.tree.isDynamic r = true) :
    (s.tree.record r).isClass = true := by
  by_contra plain
  have none : (s.tree.record r).asClass? = none := by simpa [Record.isClass] using plain
  have bases : (s.tree.record r).bases = [] := by
    simp only [Record.bases, none, Option.map_none, Option.getD_none]
  have methods : s.tree.methodsOf r = [] := by
    simp only [Tree.methodsOf, Record.methods, none, Option.map_none, Option.getD_none, List.map_nil]
  simp only [Tree.isDynamic, Tree.hasVirtualBases, Tree.isPolymorphic_eq acyclic,
    Tree.virtualBases_eq acyclic, bases, methods] at dynamic
  cases dynamic

theorem RecordLayout.nonVirtualSize_ok {layout : RecordLayout} (asClass : layout.asClass.isSome) :
    ∃ size, layout.nonVirtualSize = .ok size := by
  obtain ⟨part, h⟩ := Option.isSome_iff_exists.mp asClass
  exact ⟨part.nonVirtualSize, by simp [RecordLayout.nonVirtualSize, RecordLayout.classLayout, h,
    Except.map]⟩

theorem isNearlyEmpty_ends (acyclic : s.tree.Acyclic v)
    (laid : ∃ layout, known.record v = .ok layout ∧
      layout.asClass.isSome = (s.tree.record v).isClass) :
    Ends allowed ((isNearlyEmpty s v).eval known) fun nearly =>
      nearly = true → NearlyEmpty s known v := by
  unfold isNearlyEmpty
  split
  · exact fun no => nomatch no
  rename_i dynamic
  have dynamic : s.tree.isDynamic v = true := by simpa using dynamic
  obtain ⟨layout, found, part⟩ := laid
  obtain ⟨size, sized⟩ := RecordLayout.nonVirtualSize_ok
    (part.trans (isClass_of_isDynamic acyclic dynamic))
  rw [LayoutM.eval_layoutOf_bind found, LayoutM.eval_lift_bind sized]
  intro nearly
  rw [beq_iff_eq] at nearly
  exact ⟨dynamic, layout, found, nearly ▸ sized⟩

section Used

/-- `u` is the virtual primary base of `r` or of a class below it. -/
def IsPrimaryFrom (s : Setting) (known : Known) (r u : RecordId) : Prop :=
  ∃ b, Relation.ReflTransGen s.tree.Inherits r b ∧ known.virtualPrimary? b = some u

theorem isPrimaryFrom_iff {u : RecordId} : IsPrimaryFrom s known r u ↔
    known.virtualPrimary? r = some u ∨
      ∃ base ∈ (s.tree.record r).bases, IsPrimaryFrom s known base.record u := by
  constructor
  · rintro ⟨c, path, primary⟩
    rcases Relation.ReflTransGen.cases_head path with rfl | ⟨b, ⟨base, member, rfl⟩, further⟩
    · exact .inl primary
    · exact .inr ⟨base, member, c, further, primary⟩
  · rintro (primary | ⟨base, member, c, path, primary⟩)
    · exact ⟨r, .refl, primary⟩
    · exact ⟨c, .head ⟨base, member, rfl⟩ path, primary⟩

/-- A class from which a virtual primary base is reached has virtual bases. -/
theorem IsPrimaryFrom.hasVirtualBases {u : RecordId} (acyclic : s.tree.Acyclic r)
    (here : ∀ v, known.virtualPrimary? r = some v → s.tree.HasVirtualBase r v)
    (primaries : PrimariesInherited s known r) (h : IsPrimaryFrom s known r u) :
    s.tree.hasVirtualBases r = true := by
  obtain ⟨b, path, primary⟩ := h
  rw [Tree.hasVirtualBases_iff acyclic]
  rcases Relation.reflTransGen_iff_eq_or_transGen.mp path with rfl | below
  · exact ⟨u, here u primary⟩
  · exact ⟨u, .underAll path (primaries b u below primary)⟩

/-- The fold over the bases that have virtual bases sees every base that matters. -/
theorem usedBelow_ends {f : List RecordId → Base → LayoutM (List RecordId)}
    (acyclic : s.tree.Acyclic r) (primaries : PrimariesInherited s known r)
    (each : ∀ base ∈ (s.tree.record r).bases, ∀ found, Ends allowed ((f found base).eval known)
      fun found' => ∀ u, u ∈ found' ↔ u ∈ found ∨ IsPrimaryFrom s known base.record u)
    (found : List RecordId) :
    Ends allowed ((((s.tree.record r).bases.filter (s.tree.hasVirtualBases ·.record)).foldlM f
      found).eval known) fun found' : List RecordId => ∀ u, u ∈ found' ↔ u ∈ found ∨
        ∃ base ∈ (s.tree.record r).bases, IsPrimaryFrom s known base.record u := by
  rw [LayoutM.eval_foldlM]
  have fold : Ends allowed (((s.tree.record r).bases.filter
      (s.tree.hasVirtualBases ·.record)).foldlM (fun found base => (f found base).eval known) found)
      fun found' : List RecordId => ∀ u, u ∈ found' ↔ u ∈ found ∨
        ∃ base ∈ (s.tree.record r).bases.filter (s.tree.hasVirtualBases ·.record),
          IsPrimaryFrom s known base.record u := by
    refine Ends.foldlM (K := fun (done : List Base) _ (state : List RecordId) => ∀ u,
      u ∈ state ↔ u ∈ found ∨ ∃ base ∈ done, IsPrimaryFrom s known base.record u)
      (fun u => by simp) ?_
    intro done base rest state split held
    have member : base ∈ (s.tree.record r).bases := by
      have : base ∈ (s.tree.record r).bases.filter (s.tree.hasVirtualBases ·.record) := by
        simp [split]
      exact (List.mem_filter.mp this).1
    refine (each base member state).imp fun state' next u => ?_
    rw [next u, held u]
    simp only [List.mem_append, List.mem_singleton, or_and_right, exists_or, exists_eq_left, or_assoc]
  refine fold.imp fun found' h u => (h u).trans (or_congr_right ?_)
  refine ⟨fun ⟨base, member, primary⟩ => ⟨base, (List.mem_filter.mp member).1, primary⟩,
    fun ⟨base, member, primary⟩ => ⟨base, List.mem_filter.mpr ⟨member, ?_⟩, primary⟩⟩
  have edge : s.tree.Inherits r base.record := ⟨base, member, rfl⟩
  exact primary.hasVirtualBases (acyclic.lower edge)
    (fun v h => primaries base.record v (.single edge) h) (primaries.lower edge)

theorem virtualPrimariesBelow_eq (acyclic : s.tree.Acyclic r) (found : List RecordId) :
    virtualPrimariesBelow s r found = LayoutM.layoutOf r >>= fun layout =>
      ((s.tree.record r).bases.filter (s.tree.hasVirtualBases ·.record)).foldlM
        (fun found base => virtualPrimariesBelow s base.record found)
        (appendNew found layout.virtualPrimaryBase?.toList) := by
  refine congrFun (s.tree.descend_eq (fun _ _ h => h.declared) (fun f g r same => ?_) acyclic) found
  refine funext fun found => congrArg _ (funext fun layout => foldlM_congr (fun base member => ?_) _)
  rw [same base.record ⟨base, (List.mem_filter.mp member).1, rfl⟩]
  exact fun _ => rfl

theorem virtualPrimariesBelow_ends (acyclic : s.tree.Acyclic r)
    (here : ∃ layout, known.record r = .ok layout) (laid : BasesLaid s known r)
    (primaries : PrimariesInherited s known r) (found : List RecordId) :
    Ends allowed ((virtualPrimariesBelow s r found).eval known) fun found' =>
      ∀ u, u ∈ found' ↔ u ∈ found ∨ IsPrimaryFrom s known r u := by
  induction acyclic generalizing found with
  | intro r lower ih =>
  have acyclic : s.tree.Acyclic r := .intro lower
  obtain ⟨layout, laidHere⟩ := here
  rw [virtualPrimariesBelow_eq acyclic, LayoutM.eval_layoutOf_bind laidHere]
  refine (usedBelow_ends acyclic primaries (fun base member found => ?_) _).imp ?_
  · have edge : s.tree.Inherits r base.record := ⟨base, member, rfl⟩
    obtain ⟨layout, laidBase, _⟩ := laid base.record (.single edge)
    exact ih base.record edge ⟨layout, laidBase⟩ (laid.lower edge) (primaries.lower edge) found
  · intro found' h u
    rw [h u, isPrimaryFrom_iff, mem_appendNew, Known.virtualPrimary?_eq laidHere, or_assoc]
    simp only [Option.mem_toList]

theorem indirectPrimaryBases_ends (acyclic : s.tree.Acyclic r) (laid : BasesLaid s known r)
    (primaries : PrimariesInherited s known r) :
    Ends allowed ((indirectPrimaryBases s r).eval known) fun used =>
      ∀ u, u ∈ used ↔ ∃ b, s.tree.Inherits r b ∧ IsPrimaryFrom s known b u := by
  refine (usedBelow_ends acyclic primaries (fun base member found => ?_) []).imp ?_
  · have edge : s.tree.Inherits r base.record := ⟨base, member, rfl⟩
    obtain ⟨layout, laidBase, _⟩ := laid base.record (.single edge)
    exact virtualPrimariesBelow_ends (acyclic.lower edge) ⟨layout, laidBase⟩ (laid.lower edge)
      (primaries.lower edge) found
  · intro used h u
    rw [h u]
    constructor
    · rintro (none | ⟨base, member, primary⟩)
      · cases none
      · exact ⟨base.record, ⟨base, member, rfl⟩, primary⟩
    · rintro ⟨_, ⟨base, member, rfl⟩, primary⟩
      exact .inr ⟨base, member, primary⟩

end Used

section Choice

/-- Every candidate was there from the start or is a nearly empty virtual base below `r`. -/
def CandidatesBelow (s : Setting) (known : Known) (r : RecordId) (before after : Candidates) : Prop :=
  (∀ v, after.unused = some v →
    before.unused = some v ∨ (s.tree.HasVirtualBase r v ∧ NearlyEmpty s known v)) ∧
  ∀ v, after.first = some v →
    before.first = some v ∨ (s.tree.HasVirtualBase r v ∧ NearlyEmpty s known v)

theorem searchNearlyEmpty_eq (used : List RecordId) (acyclic : s.tree.Acyclic r)
    (found : Candidates) :
    searchNearlyEmpty s used r found = (s.tree.record r).bases.foldlM (fun found base => do
      if found.unused.isSome then return found
      let nearlyEmpty ← if base.isVirtual then isNearlyEmpty s base.record else pure false
      if nearlyEmpty && !used.contains base.record then
        return { found with unused := some base.record }
      let found :=
        if nearlyEmpty then { found with first := found.first.or (some base.record) } else found
      searchNearlyEmpty s used base.record found) found := by
  refine congrFun (s.tree.descend_eq (fun _ _ h => h.declared) (fun f g r same => ?_) acyclic) found
  refine funext fun found => foldlM_congr (fun base member found => ?_) _
  rw [same base.record ⟨base, member, rfl⟩]

theorem CandidatesBelow.refl (found : Candidates) : CandidatesBelow s known r found found :=
  ⟨fun _ => .inl, fun _ => .inl⟩

theorem CandidatesBelow.trans {first second third : Candidates}
    (h : CandidatesBelow s known r first second) (h' : CandidatesBelow s known r second third) :
    CandidatesBelow s known r first third :=
  ⟨fun v same => (h'.1 v same).elim (h.1 v) .inr, fun v same => (h'.2 v same).elim (h.2 v) .inr⟩

theorem CandidatesBelow.under {before after : Candidates} (edge : s.tree.Inherits r b)
    (h : CandidatesBelow s known b before after) : CandidatesBelow s known r before after :=
  ⟨fun v same => (h.1 v same).imp_right fun ⟨has, nearly⟩ => ⟨has.under edge, nearly⟩,
    fun v same => (h.2 v same).imp_right fun ⟨has, nearly⟩ => ⟨has.under edge, nearly⟩⟩

theorem searchNearlyEmpty_ends (used : List RecordId) (acyclic : s.tree.Acyclic r)
    (laid : BasesLaid s known r) (found : Candidates) :
    Ends allowed ((searchNearlyEmpty s used r found).eval known) (CandidatesBelow s known r found) := by
  induction acyclic generalizing found with
  | intro r lower ih =>
  have acyclic : s.tree.Acyclic r := .intro lower
  rw [searchNearlyEmpty_eq used acyclic, LayoutM.eval_foldlM]
  refine Ends.foldlM_keeps (.refl found) fun base member before sofar => ?_
  have edge : s.tree.Inherits r base.record := ⟨base, member, rfl⟩
  split
  · exact sofar
  have nearly : Ends allowed
      ((if base.isVirtual then isNearlyEmpty s base.record else pure false).eval known)
      fun nearly => nearly = true → s.tree.HasVirtualBase r base.record ∧
        NearlyEmpty s known base.record := by
    split
    · rename_i virt
      exact (isNearlyEmpty_ends (acyclic.lower edge) (laid base.record (.single edge))).imp
        fun _ h yes => ⟨.direct ⟨base, member, virt, rfl⟩, h yes⟩
    · exact fun no => nomatch no
  have go : ∀ nearlyEmpty : Bool, (nearlyEmpty = true → s.tree.HasVirtualBase r base.record ∧
      NearlyEmpty s known base.record) →
      Ends allowed ((if nearlyEmpty && !used.contains base.record then
          pure { before with unused := some base.record }
        else searchNearlyEmpty s used base.record (if nearlyEmpty then
          { before with first := before.first.or (some base.record) } else before)).eval known)
        (CandidatesBelow s known r found) := by
    intro nearlyEmpty good
    cases nearlyEmpty with
    | false =>
      exact (ih base.record edge (laid.lower edge) before).imp fun _ h => sofar.trans (h.under edge)
    | true =>
      have good := good rfl
      have next : CandidatesBelow s known r before
          { before with first := before.first.or (some base.record) } := by
        refine ⟨fun _ => .inl, fun v same => ?_⟩
        rcases Option.or_eq_some_iff.mp same with same | ⟨_, same⟩
        · exact .inl same
        · exact .inr (Option.some.inj same ▸ good)
      split
      · refine sofar.trans ⟨fun v same => .inr (Option.some.inj same ▸ good), fun _ => .inl⟩
      · exact (ih base.record edge (laid.lower edge) _).imp fun _ h =>
          sofar.trans (next.trans (h.under edge))
  split
  · rename_i virt
    rw [if_pos virt] at nearly
    exact ends_bind nearly fun nearlyEmpty good => by simpa using go nearlyEmpty good
  · exact go false nofun

/-- What the choice of a primary base guarantees. -/
structure PrimaryChoice (s : Setting) (known : Known) (r : RecordId)
    (primary : Option PrimaryBase) (used : List RecordId) : Prop where
  plain : ∀ b, primary = some ⟨b, false⟩ → s.tree.InheritsPlainly r b ∧ s.tree.isDynamic b = true
  virtual : ∀ v, primary = some ⟨v, true⟩ → s.tree.HasVirtualBase r v ∧ NearlyEmpty s known v
  dynamic : primary.isSome → s.tree.isDynamic r = true
  used : ∀ u, u ∈ used ↔ ∃ b, s.tree.Inherits r b ∧ IsPrimaryFrom s known b u

/-- Without virtual bases there is no virtual primary base below. -/
theorem not_isPrimaryFrom_of_not_dynamic (acyclic : s.tree.Acyclic r)
    (primaries : PrimariesInherited s known r) (still : s.tree.isDynamic r = false) {u : RecordId} :
    ¬ ∃ b, s.tree.Inherits r b ∧ IsPrimaryFrom s known b u := by
  rintro ⟨b, edge, c, path, primary⟩
  have has := (primaries c u (Relation.TransGen.head' edge path) primary).underAll path
  rw [Tree.isDynamic_of_hasVirtualBase acyclic (has.under edge)] at still
  cases still

theorem choosePrimaryBase_ends (acyclic : s.tree.Acyclic r) (laid : BasesLaid s known r)
    (primaries : PrimariesInherited s known r) :
    Ends allowed ((choosePrimaryBase s r).eval known) fun choice =>
      PrimaryChoice s known r choice.1 choice.2 := by
  unfold choosePrimaryBase
  split
  · rename_i still
    have still : s.tree.isDynamic r = false := by simpa using still
    exact ⟨nofun, nofun, nofun, fun u => iff_of_false List.not_mem_nil
      (not_isPrimaryFrom_of_not_dynamic acyclic primaries still)⟩
  rename_i dynamic
  have dynamic : s.tree.isDynamic r = true := by simpa using dynamic
  refine ends_bind (indirectPrimaryBases_ends acyclic laid primaries) fun used usedIff => ?_
  split
  · rename_i base first
    obtain ⟨base, found, rfl⟩ := Option.map_eq_some_iff.mp first
    refine ⟨fun b same => ?_, fun v same => (by cases same), fun _ => dynamic, usedIff⟩
    cases same
    exact ⟨⟨base, List.mem_of_find?_eq_some found, rfl⟩, by simpa using List.find?_some found⟩
  · split
    · exact ⟨nofun, nofun, nofun, usedIff⟩
    · refine ends_bind (searchNearlyEmpty_ends used acyclic laid {}) fun found below => ?_
      obtain ⟨unused, first⟩ := below
      refine ⟨fun b same => ?_, fun v same => ?_, fun _ => dynamic, usedIff⟩
      · obtain ⟨_, _, same⟩ := Option.map_eq_some_iff.mp same
        cases same
      · obtain ⟨v', same, eq⟩ := Option.map_eq_some_iff.mp same
        cases eq
        rcases Option.or_eq_some_iff.mp same with same | ⟨_, same⟩
        · exact (unused v same).resolve_left nofun
        · exact (first v same).resolve_left nofun

end Choice

end Itanium

end ObjectLayout
