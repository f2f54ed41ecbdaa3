import ObjectLayout.Proofs.Members.Counted

/-! Whatever is looked up in a finished layout is there, also where offsets were supplied: each direct
base, each field, and each virtual base, which lies where it was placed itself or inside the root of
the graph that it hangs from. -/
namespace ObjectLayout

namespace Itanium

open LayoutM (ends_bind ends_lift_bind)
open SubobjectGraph (Forest)

variable {f : Frame} {s : Setting} {known : Known} {st st₁ st' : State} {g : SubobjectGraph}
variable {i p : SubobjectId} {d r v b : RecordId} {own : Option RecordId} {x : Nat}
variable {slots slots' : OrderedMap RecordId VirtualBaseSlot}

section Claimed

/-- Everything that is claimed inside an occurrence has a slot. -/
def Covers (g : SubobjectGraph) (i : SubobjectId) (slots : OrderedMap RecordId VirtualBaseSlot) :
    Prop :=
  ∀ k p, Relation.ReflTransGen g.Child i k → g.claimedPrimary? k = some p →
    slots.contains (g.node p).record = true

theorem Covers.later (h : Covers g i slots) (more : slots.Extends slots') : Covers g i slots' :=
  fun k p path claimed => more.contained (h k p path claimed)

/-- By induction on what hangs from the occurrence: the claimed base first, then the others. -/
theorem placeClaimed_covers (forest : Forest s known d own g)
    (primaries : PrimariesInherited s known d) (acyclic : s.tree.Acyclic d) (has : g.Has i) :
    Ends (fun _ => True) ((placeClaimed s g i x slots).eval known) fun slots' =>
      slots.Extends slots' ∧ Covers g i slots' := by
  have grounded := forest.grounded primaries acyclic i
  induction grounded generalizing x slots with
  | intro i lower ih =>
  refine Ends.of_all (fun _ => trivial) fun slots' done => ⟨placeClaimed_keeps.holds done, ?_⟩
  rw [placeClaimed_eq (.intro lower)] at done
  dsimp only at done
  split at done
  · rename_i none
    intro k p path claimed
    rw [forest.hasVirtualBases_of_claimed primaries acyclic has path claimed] at none
    cases none
  -- What the claimed base brings is there before the other bases are gone through.
  have others (slots₁ : OrderedMap RecordId VirtualBaseSlot)
      (claimed : ∀ p, g.claimedPrimary? i = some p →
        slots₁.contains (g.node p).record = true ∧ Covers g p slots₁) :
      Ends (fun _ => True) ((do
        let layout ← LayoutM.layoutOf (g.node i).record
        (g.nonVirtualBasesOf i).foldlM (fun slots base => do
          let inner := layout.baseOffset (g.node base).record
          placeClaimed s g base (← EmptyMap.within x inner) slots) slots₁ :
            LayoutM (OrderedMap RecordId VirtualBaseSlot)).eval known) (Covers g i) := by
    refine ends_bind Ends.any fun layout _ => ?_
    rw [LayoutM.eval_foldlM]
    refine (Ends.foldlM (K := fun done _ slots' => slots₁.Extends slots' ∧
      ∀ j ∈ done, Covers g j slots') ⟨.refl slots₁, by simp⟩ ?_).imp ?_
    · rintro done j rest slots₂ split ⟨more, covered⟩
      have child : g.Child i j := .inl (by simp [split])
      refine ends_lift_bind Ends.any fun y _ => ?_
      refine (ih j child (forest.has_child child)).imp ?_
      rintro slots₃ ⟨more', covers⟩
      refine ⟨more.trans more', fun k member => ?_⟩
      rcases List.mem_append.mp member with member | last
      · exact (covered k member).later more'
      · cases List.mem_singleton.mp last
        exact covers
    · rintro slots' ⟨more, covered⟩ k p path names
      rcases Relation.ReflTransGen.cases_head path with rfl | ⟨j, member | holds, path⟩
      · exact more.contained (claimed p names).1
      · exact covered j member k p path names
      · exact more.contained ((claimed j holds).2 k p path names)
  cases claimed : g.claimedPrimary? i with
  | none =>
    rw [claimed, pure_bind] at done
    exact (others slots (by simp [claimed])).holds done
  | some primary =>
    rw [claimed] at done
    obtain ⟨_, _, done⟩ := LayoutM.eval_bind_eq_ok.mp done
    obtain ⟨slots₁, first, done⟩ := LayoutM.eval_bind_eq_ok.mp done
    have child : g.Child i primary := .inr claimed
    obtain ⟨more, covers⟩ := (ih primary child (forest.has_child child)).holds first
    refine (others slots₁ fun p same => ?_).holds done
    cases claimed.symm.trans same
    exact ⟨more.contained (OrderedMap.contains_insert_self _ _ _), covers⟩

end Claimed

section Bases

/-- A base has its place, and what it has claimed is listed; whatever had its place keeps it. -/
structure Seats (i : SubobjectId) (st st' : State) : Prop where
  graph : st'.graph = st.graph
  rest : st'.rest = st.rest
  base : st.baseOffsets.Extends st'.baseOffsets
  virtualBase : st.virtualBaseSlots.Extends st'.virtualBaseSlots
  grows : st.size ≤ st'.size
  covers : Covers st.graph i st'.virtualBaseSlots

theorem TakesBase.tables (taken : TakesBase f known i st st') : st'.graph = st.graph ∧
    st'.baseOffsets = st.baseOffsets ∧ st'.virtualBaseSlots = st.virtualBaseSlots ∧
    st'.rest = st.rest := by
  rw [taken.frame]
  exact ⟨rfl, rfl, rfl, rfl⟩

variable (forest : Forest f.setting known f.record own st.graph)
variable (primaries : PrimariesInherited f.setting known f.record)
variable (acyclic : f.tree.Acyclic f.record) (has : st.graph.Has i)
include forest primaries acyclic has

theorem layNonVirtualBase_seats :
    Ends (fun _ => True) ((layNonVirtualBase f i st).eval known) fun st' =>
      Seats i st st' ∧ st'.baseOffsets.contains (st.graph.node i).record = true := by
  unfold layNonVirtualBase
  refine ends_bind layBase_takes ?_
  rintro ⟨st₁, x⟩ taken
  obtain ⟨graph, bases, slots, rest⟩ := taken.tables
  dsimp only at graph bases slots rest ⊢
  refine ends_bind Ends.any fun _ new => ?_
  have free : st.baseOffsets.contains (st.graph.node i).record = false := by
    rw [← bases, ← graph]
    simpa using ensure_eq_ok.mp ((LayoutM.eval_ensure _ _).symm.trans new)
  unfold State.placeClaimed
  rw [graph, bases, slots]
  refine ends_bind (placeClaimed_covers forest primaries acyclic has) ?_
  rintro slots' ⟨more, covers⟩
  exact ⟨⟨rfl, rest, .insert free x, more, taken.grows, covers⟩,
    OrderedMap.contains_insert_self _ _ _⟩

theorem layVirtualBase_seats :
    Ends (fun _ => True) ((layVirtualBase f i st).eval known) fun st' =>
      Seats i st st' ∧ st'.virtualBaseSlots.contains (st.graph.node i).record = true := by
  unfold layVirtualBase
  refine ends_bind Ends.any fun _ _ => ends_bind layBase_takes ?_
  rintro ⟨st₁, x⟩ taken
  obtain ⟨graph, bases, slots, rest⟩ := taken.tables
  dsimp only at graph bases slots rest ⊢
  refine ends_bind Ends.any fun _ new => ?_
  have free : st.virtualBaseSlots.contains (st.graph.node i).record = false := by
    rw [← slots, ← graph]
    simpa using ensure_eq_ok.mp ((LayoutM.eval_ensure _ _).symm.trans new)
  unfold State.placeClaimed
  rw [graph, slots]
  refine ends_bind (placeClaimed_covers forest primaries acyclic has) ?_
  rintro slots' ⟨more, covers⟩
  refine ⟨⟨rfl, rest, ?_, (OrderedMap.Extends.insert free _).trans more, taken.grows, covers⟩, ?_⟩
  · rw [bases]
    exact .refl _
  · exact more.contained (OrderedMap.contains_insert_self _ _ _)

end Bases

section Seating

variable {done : List Base} {primary : Option PrimaryBase} {indirect : List RecordId}

/-- A state on the way through the bases: the direct bases `done`, the primary base and the virtual
bases that have been visited are in the tables, each with all that is claimed in it. -/
structure Seating (g : SubobjectGraph) (done : List Base) (primary : Option PrimaryBase)
    (st : State) : Prop where
  graph : st.graph = g
  primaryBase : st.primaryBase = primary
  direct : ∀ b i, g.nonVirtualBases.find? b = some i →
    (∃ base ∈ done, base.record = b) ∨ primary = some ⟨b, false⟩ →
      st.baseOffsets.contains b = true ∧ Covers g i st.virtualBaseSlots
  visited : ∀ v p, g.virtualBases.find? v = some p → v ∈ st.visitedVirtualBases →
    st.virtualBaseSlots.contains v = true ∧ Covers g p st.virtualBaseSlots

namespace Seating

variable (h : Seating g done primary st)
include h

/-- Nothing leaves the tables. -/
theorem later (graph : st'.graph = st.graph) (kept : st'.rest = st.rest)
    (base : st.baseOffsets.Extends st'.baseOffsets)
    (virtualBase : st.virtualBaseSlots.Extends st'.virtualBaseSlots) :
    Seating g done primary st' where
  graph := graph.trans h.graph
  primaryBase := by
    have kept := SameRest.of_eq kept
    exact kept.primaryBase.trans h.primaryBase
  direct b i found named := by
    obtain ⟨placed, covers⟩ := h.direct b i found named
    exact ⟨base.contained placed, covers.later virtualBase⟩
  visited v p found met := by
    have kept := SameRest.of_eq kept
    rw [kept.visitedVirtualBases] at met
    obtain ⟨placed, covers⟩ := h.visited v p found met
    exact ⟨virtualBase.contained placed, covers.later virtualBase⟩

theorem direct_push {base : Base} (found : g.nonVirtualBases.find? base.record = some i)
    (placed : st.baseOffsets.contains base.record = true) (covers : Covers g i st.virtualBaseSlots) :
    Seating g (done ++ [base]) primary st where
  graph := h.graph
  primaryBase := h.primaryBase
  direct b j found' named := by
    by_cases same : b = base.record
    · subst same
      cases found.symm.trans found'
      exact ⟨placed, covers⟩
    · refine h.direct b j found' (named.imp_left ?_)
      rintro ⟨base', member, same'⟩
      rcases List.mem_append.mp member with member | last
      · exact ⟨base', member, same'⟩
      · cases List.mem_singleton.mp last
        exact absurd same'.symm same
  visited := h.visited

end Seating

variable (primaries : PrimariesInherited f.setting known f.record)
variable (acyclic : f.tree.Acyclic f.record)
include primaries acyclic

/-- A virtual base that is visited comes to be seated. -/
theorem Seating.visit (h : Seating g done primary st) (forest : Forest f.setting known f.record own g)
    (found : g.virtualBases.find? v = some p) :
    Ends (fun _ => True) ((layVirtualBase f p
      { st with visitedVirtualBases := st.visitedVirtualBases ++ [v] }).eval known) fun st' =>
        Seating g done primary st' ∧
          st'.rest = { st with visitedVirtualBases := st.visitedVirtualBases ++ [v] }.rest ∧
          st.size ≤ st'.size := by
  obtain ⟨has, record, _⟩ := forest.found v p found
  obtain rfl := h.graph
  refine Ends.imp (layVirtualBase_seats forest primaries acyclic has) ?_
  rintro st' ⟨seats, placed⟩
  have rest := SameRest.of_eq seats.rest
  have before : Seating st.graph done primary
      { st' with visitedVirtualBases := st.visitedVirtualBases } :=
    h.later seats.graph (by simp [State.rest, rest.fieldOffsets, rest.unfilledBits,
      rest.primaryBase, rest.indirectPrimaryBases]) seats.base seats.virtualBase
  refine ⟨⟨seats.graph, before.primaryBase, before.direct, fun w q found' met => ?_⟩,
    seats.rest, seats.grows⟩
  rw [rest.visitedVirtualBases] at met
  rcases List.mem_append.mp met with met | last
  · exact before.visited w q found' met
  · cases List.mem_singleton.mp last
    cases found.symm.trans found'
    exact ⟨record ▸ placed, seats.covers⟩

/-- A direct base comes to be seated. -/
theorem Seating.direct_visit (h : Seating g done primary st)
    (forest : Forest f.setting known f.record own g) {b : RecordId}
    (found : g.nonVirtualBases.find? b = some i) :
    Ends (fun _ => True) ((layNonVirtualBase f i st).eval known) fun st' =>
      Seating g done primary st' ∧ st'.rest = st.rest ∧
        st'.baseOffsets.contains b = true ∧ Covers g i st'.virtualBaseSlots := by
  obtain ⟨has, record, _⟩ := forest.direct b i found
  obtain rfl := h.graph
  refine (layNonVirtualBase_seats forest primaries acyclic has).imp ?_
  rintro st' ⟨seats, placed⟩
  exact ⟨h.later seats.graph seats.rest seats.base seats.virtualBase, seats.rest, record ▸ placed,
    seats.covers⟩

/-- The loop over the direct non-virtual bases seats each of them. -/
theorem Seating.directBases (start : Seating g [] primary st)
    (forest : Forest f.setting known f.record own g) :
    Ends (fun _ => True) ((f.declaration.nonVirtualBases.foldlM (m := LayoutM) (fun st base => do
      if isNonVirtualPrimary st base.record then return st
      layNonVirtualBase f (← st.graph.nonVirtualBase base.record) st) st).eval known) fun st' =>
        Seating g f.declaration.nonVirtualBases primary st' ∧ st'.rest = st.rest := by
  rw [LayoutM.eval_foldlM]
  refine Ends.foldlM (K := fun done _ st' => Seating g done primary st' ∧ st'.rest = st.rest)
    ⟨start, rfl⟩ ?_
  rintro done base rest st₁ split ⟨h, kept⟩
  have direct : base ∈ f.declaration.nonVirtualBases := by simp [split]
  obtain ⟨i, found⟩ := Option.isSome_iff_exists.mp
    ((forest.plain base.record).mpr ⟨base, direct, rfl⟩)
  cases isPrimary : isNonVirtualPrimary st₁ base.record with
  | true =>
    have same : primary = some ⟨base.record, false⟩ := by
      rw [← h.primaryBase]
      simpa [isNonVirtualPrimary] using isPrimary
    obtain ⟨placed, covers⟩ := h.direct _ i found (.inr same)
    exact ⟨h.direct_push found placed covers, kept⟩
  | false =>
    simp only [Bool.false_eq_true, if_false]
    have lookup : st₁.graph.nonVirtualBase base.record = .ok i := by
      rw [h.graph, SubobjectGraph.nonVirtualBase, found]
    rw [LayoutM.eval_lift_bind lookup]
    refine (h.direct_visit primaries acyclic forest found).imp ?_
    rintro st₂ ⟨h₂, same, placed, covers⟩
    exact ⟨h₂.direct_push found placed covers, same.trans kept⟩

end Seating

section Direct

/-- A state in which the direct bases `done` and the primary base are seated, and none of the other
virtual bases has been visited. -/
structure DirectSeated (f : Frame) (known : Known) (done : List Base) (primary : Option PrimaryBase)
    (own : Option RecordId) (g : SubobjectGraph) (st : State) : Prop where
  forest : Forest f.setting known f.record own g
  owned : own = (primary.filter (·.isVirtual)).map (·.record)
  seating : Seating g done primary st
  visited : st.visitedVirtualBases = own.toList
  indirect : ∀ u, u ∈ st.indirectPrimaryBases ↔ own = some u ∨
    ∃ b, f.tree.Inherits f.record b ∧ IsPrimaryFrom f.setting known b u

variable {primary : PrimaryBase} {choice : Option PrimaryBase} {used : List RecordId}
variable (laid : BasesLaid f.setting known f.record)
variable (primaries : PrimariesInherited f.setting known f.record)
variable (acyclic : f.tree.Acyclic f.record)

/-- Without a primary base nothing has to be seated first. -/
theorem DirectSeated.start (forest : Forest f.setting known f.record none g)
    (chosen : PrimaryChoice f.setting known f.record none used) (unled : st.primaryBase = none)
    (graph : st.graph = g) (unvisited : st.visitedVirtualBases = [])
    (indirect : st.indirectPrimaryBases = used) : DirectSeated f known [] none none g st where
  forest := forest
  owned := rfl
  seating := by
    refine ⟨graph, unled, ?_, fun _ _ _ met => ?_⟩
    · rintro _ _ _ (⟨_, member, _⟩ | same)
      · cases member
      · cases same
    · simp [unvisited] at met
  visited := unvisited
  indirect u := by
    rw [indirect, chosen.used]
    simp only [reduceCtorEq, false_or]
    rfl

section Primary

variable (forest : Forest f.setting known f.record none st.graph)
variable (chosen : PrimaryChoice f.setting known f.record (some primary) used)
variable (same : st.primaryBase = some primary) (unvisited : st.visitedVirtualBases = [])
variable (indirect : st.indirectPrimaryBases = used)
include primaries acyclic forest chosen same unvisited indirect

theorem layPrimaryBase_seats : Ends (fun _ => True) ((layPrimaryBase f primary st).eval known)
    fun st' => ∃ own g, DirectSeated f known [] (some primary) own g st' := by
  obtain ⟨b, isVirtual⟩ := primary
  unfold layPrimaryBase
  cases isVirtual with
  | false =>
    obtain ⟨edge, _⟩ := chosen.plain b rfl
    obtain ⟨i, found⟩ := Option.isSome_iff_exists.mp ((forest.plain b).mpr edge)
    obtain ⟨has, record, _⟩ := forest.direct b i found
    have lookup : st.graph.nonVirtualBase b = .ok i := by rw [SubobjectGraph.nonVirtualBase, found]
    rw [if_neg Bool.false_ne_true, LayoutM.eval_lift_bind lookup]
    refine (layNonVirtualBase_seats forest primaries acyclic has).imp ?_
    rintro st' ⟨seats, placed⟩
    have kept := SameRest.of_eq seats.rest
    have visited : st'.visitedVirtualBases = [] := kept.visitedVirtualBases.trans unvisited
    refine ⟨none, st.graph, forest, rfl, ⟨seats.graph, kept.primaryBase.trans same, ?_, ?_⟩,
      visited, fun u => ?_⟩
    · rintro b' j found' (⟨_, member, _⟩ | same)
      · cases member
      · cases same
        cases found.symm.trans found'
        exact ⟨record ▸ placed, seats.covers⟩
    · intro _ _ _ met
      simp [visited] at met
    · rw [kept.indirectPrimaryBases, indirect, chosen.used]
      simp only [reduceCtorEq, false_or]
      rfl
  | true =>
    obtain ⟨has, _⟩ := chosen.virtual b rfl
    obtain ⟨g, i, stolen, forest', found, _⟩ := forest.steal has
    obtain ⟨hasNode, record, _⟩ := forest'.found b i found
    rw [if_pos rfl, LayoutM.eval_lift_bind stolen]
    refine ends_bind Ends.any fun _ _ => ?_
    refine Ends.imp (layVirtualBase_seats forest' primaries acyclic hasNode) ?_
    rintro st' ⟨seats, placed⟩
    have kept := SameRest.of_eq seats.rest
    have visited : st'.visitedVirtualBases = [b] := by rw [kept.visitedVirtualBases, unvisited]; rfl
    refine ⟨some b, g, forest', rfl, ⟨seats.graph, kept.primaryBase.trans same, ?_, ?_⟩, visited,
      fun u => ?_⟩
    · rintro _ _ _ (⟨_, member, _⟩ | same)
      · cases member
      · cases same
    · intro v p found' met
      rw [visited] at met
      cases List.mem_singleton.mp met
      cases found.symm.trans found'
      exact ⟨record ▸ placed, seats.covers⟩
    · rw [kept.indirectPrimaryBases, mem_appendNew, indirect, chosen.used, List.mem_singleton,
        or_comm, eq_comm]
      simp only [Option.some.injEq]
      rfl

end Primary

include primaries acyclic in
theorem DirectSeated.directBases (h : DirectSeated f known [] choice own g st) :
    Ends (fun _ => True) ((f.declaration.nonVirtualBases.foldlM (m := LayoutM) (fun st base => do
      if isNonVirtualPrimary st base.record then return st
      layNonVirtualBase f (← st.graph.nonVirtualBase base.record) st) st).eval known)
      (DirectSeated f known f.declaration.nonVirtualBases choice own g) := by
  refine (h.seating.directBases primaries acyclic h.forest).imp ?_
  rintro st' ⟨seating, kept⟩
  have kept := SameRest.of_eq kept
  exact ⟨h.forest, h.owned, seating, kept.visitedVirtualBases.trans h.visited,
    fun u => by rw [kept.indirectPrimaryBases]; exact h.indirect u⟩

include laid primaries acyclic

theorem layNonVirtualBases_seats (unvisited : st.visitedVirtualBases = []) :
    Ends (fun _ => True) ((layNonVirtualBases f st).eval known) fun st' => ∃ own g primary used,
      DirectSeated f known f.declaration.nonVirtualBases primary own g st' ∧
        PrimaryChoice f.setting known f.record primary used := by
  unfold layNonVirtualBases
  refine ends_bind (choosePrimaryBase_ends acyclic laid primaries) ?_
  rintro ⟨chosen, used⟩ choice
  refine ends_bind (SubobjectGraph.ofClass_ends acyclic (.of_laid laid) primaries
    fun _ => trivial) fun graph forest => ?_
  have loop (st₁ : State) (seated : ∃ own g, DirectSeated f known [] chosen own g st₁) :
      Ends (fun _ => True) ((f.declaration.nonVirtualBases.foldlM (m := LayoutM) (fun st base => do
        if isNonVirtualPrimary st base.record then return st
        layNonVirtualBase f (← st.graph.nonVirtualBase base.record) st) st₁).eval known) fun st' =>
          ∃ own g primary used, DirectSeated f known f.declaration.nonVirtualBases primary own g st' ∧
            PrimaryChoice f.setting known f.record primary used := by
    obtain ⟨own, g, seated⟩ := seated
    exact (seated.directBases primaries acyclic).imp fun st' seated' =>
      ⟨own, g, chosen, used, seated', choice⟩
  cases chosen with
  | some primary =>
    exact ends_bind (layPrimaryBase_seats primaries acyclic forest choice rfl unvisited rfl) loop
  | none =>
    have start (st₁ : State) (same : Resizes
        { st with primaryBase := none, indirectPrimaryBases := used, graph } st₁) :
        ∃ own g, DirectSeated f known [] none own g st₁ := by
      refine ⟨none, graph, .start forest choice ?_ ?_ ?_ ?_⟩
      all_goals rw [same]
      exact unvisited
    dsimp only
    split
    · exact ends_lift_bind Resizes.layTablePointer fun st₁ same => loop st₁ (start st₁ same)
    · exact loop _ (start _ (.refl _))

end Direct

section Whole

variable {choice : Option PrimaryBase} {used : List RecordId} {done : List Base}

/-- A state in which all bases are in the tables. -/
structure AllSeated (f : Frame) (st : State) : Prop where
  base : ∀ b, f.tree.InheritsPlainly f.record b → st.baseOffsets.contains b = true
  virtualBase : ∀ v, f.tree.HasVirtualBase f.record v → st.virtualBaseSlots.contains v = true
  primary : ∀ v, st.primaryBase = some ⟨v, true⟩ → f.tree.HasVirtualBase f.record v

theorem AllSeated.resized (h : AllSeated f st) (same : Resizes st st') : AllSeated f st' := by
  rw [same]
  exact ⟨h.base, h.virtualBase, h.primary⟩

theorem DirectSeated.fields (h : DirectSeated f known done choice own g st)
    (frame : Reckons { st with emptyMap := st'.emptyMap, fieldOffsets := st'.fieldOffsets } st') :
    DirectSeated f known done choice own g st' := by
  rw [frame]
  exact ⟨h.forest, h.owned, ⟨h.seating.graph, h.seating.primaryBase, h.seating.direct,
    h.seating.visited⟩, h.visited, h.indirect⟩

variable (laid : BasesLaid f.setting known f.record)
variable (primaries : PrimariesInherited f.setting known f.record)
variable (acyclic : f.tree.Acyclic f.record)
include laid primaries acyclic

theorem DirectSeated.searchable (h : DirectSeated f known done choice own g st) :
    Searchable f known (fun _ => True) st.indirectPrimaryBases fun st' =>
      Seating g done choice st' ∧ st'.indirectPrimaryBases = st.indirectPrimaryBases where
  acyclic := acyclic
  laid := laid
  primary _ _ := primary_indirect h.indirect
  used := fun _ ⟨_, indirect⟩ => indirect
  due st₁ v seated has due unvisited := by
    obtain ⟨seating, indirect⟩ := seated
    obtain ⟨p, found⟩ := Option.isSome_iff_exists.mp (h.forest.covered v has)
    have lookup : st₁.graph.virtualBase v = .ok p := by
      rw [seating.graph, SubobjectGraph.virtualBase, found]
    rw [LayoutM.eval_lift_bind lookup]
    refine (seating.visit primaries acyclic h.forest found).imp ?_
    rintro st₂ ⟨seating', rest, grows⟩
    have kept := SameRest.of_eq rest
    exact ⟨⟨seating', kept.indirectPrimaryBases.trans indirect⟩, rest, grows⟩

/-- A virtual base that has not been visited hangs from a base that is seated. -/
theorem layVirtualBases_seats
    (h : DirectSeated f known f.declaration.nonVirtualBases choice own g st)
    (chosen : PrimaryChoice f.setting known f.record choice used) :
    Ends (fun _ => True) ((layVirtualBases f st).eval known) (AllSeated f) := by
  have unowed (v : RecordId) (primary : st.primaryBase = some ⟨v, true⟩) :
      v ∈ st.indirectPrimaryBases := by
    rw [h.indirect, h.owned, ← h.seating.primaryBase, primary]
    exact .inl rfl
  have above : OpenAbove f st.indirectPrimaryBases f.record st := by
    intro u member due
    rw [h.visited, Option.mem_toList] at member
    exact absurd ((h.indirect u).mpr (.inl member)) due
  refine ((h.searchable laid primaries acyclic).complete .refl st.primaryBase st
    unowed ⟨h.seating, rfl⟩ above).imp ?_
  rintro st' ⟨⟨seating, _⟩, later, complete⟩
  -- Every root is seated.
  have rooted (i : SubobjectId) (root : g.IsRoot i) : Covers g i st'.virtualBaseSlots ∧
      ((g.node i).isVirtual = true → st'.virtualBaseSlots.contains (g.node i).record = true) := by
    rcases h.forest.root_cases root with ⟨plain, found⟩ | ⟨virt, free⟩
    · have named := (h.forest.plain _).mp (Option.isSome_iff_exists.mpr ⟨i, found⟩)
      refine ⟨(seating.direct _ i found (.inl named)).2, fun virt => ?_⟩
      rw [plain] at virt
      cases virt
    · have found := h.forest.listed i root.1 virt
      have has := h.forest.virtual i root.1 virt
      have met : (g.node i).record ∈ st'.visitedVirtualBases := by
        by_cases due : (g.node i).record ∈ st.indirectPrimaryBases
        · have owns : own = some (g.node i).record := by
            by_contra other
            have primary := ((h.indirect _).mp due).resolve_left other
            have claimed := (h.forest.claimed_iff found).mpr ⟨other, primary⟩
            simp [free] at claimed
          exact later.visited _ (by rw [h.visited, owns]; simp)
        · exact complete _ has due
      obtain ⟨placed, covers⟩ := seating.visited _ i found met
      exact ⟨covers, fun _ => placed⟩
  refine ⟨fun b edge => ?_, fun v has => ?_, fun v same => ?_⟩
  · obtain ⟨i, found⟩ := Option.isSome_iff_exists.mp ((h.forest.plain b).mpr edge)
    exact (seating.direct b i found (.inl edge)).1
  · obtain ⟨p, found⟩ := Option.isSome_iff_exists.mp (h.forest.covered v has)
    obtain ⟨there, rfl, virt⟩ := h.forest.found v p found
    obtain ⟨i, root, path⟩ := h.forest.exists_root primaries acyclic there
    obtain ⟨covers, placed⟩ := rooted i root
    rcases Relation.ReflTransGen.cases_tail path with rfl | ⟨k, path, member | claimed⟩
    · exact placed virt
    · rw [(SubobjectGraph.mem_nonVirtualBasesOf.mp member).2] at virt
      cases virt
    · exact covers k p path claimed
  · exact (chosen.virtual v (seating.primaryBase ▸ same)).1

theorem layClass_seats (tracking : Tracking) : Ends (fun _ => True)
    ((layClass f tracking).eval known) fun layout => ∃ st part, AllSeated f st ∧
      layout.asClass = some part ∧ part.baseOffsets = st.baseOffsets ∧
        part.virtualBaseSlots = st.virtualBaseSlots ∧ part.primaryBase = st.primaryBase := by
  unfold layClass
  refine ends_bind Ends.any fun map _ => ends_lift_bind (initial_resizes _) fun st₀ start => ?_
  have unvisited : st₀.visitedVirtualBases = [] := by rw [start]
  refine ends_bind (layNonVirtualBases_seats laid primaries acyclic unvisited) ?_
  rintro st₁ ⟨own, g, primary, used, seated, choice⟩
  refine ends_bind layFields_frame fun fixed frame => ?_
  have direct := seated.fields frame
  refine ends_bind (layVirtualBases_seats laid primaries acyclic direct choice) fun st₂ all => ?_
  exact ends_bind finish_resizes fun st₃ same => ⟨st₃, _, all.resized same, rfl, rfl, rfl, rfl⟩

end Whole

end Itanium

variable {s : Setting} {known : Known} {r : RecordId} {layout : RecordLayout}

/-- A plain record has no bases to look up. -/
theorem Located.of_plain (laid : known.record r = .ok layout)
    (isPlain : (s.tree.record r).isClass = false) (asClass : layout.asClass = none)
    (counted : layout.fieldOffsets.length = (s.tree.record r).fields.length) :
    Located s known r where
  laid := ⟨layout, laid, by rw [asClass, isPlain, Option.isSome_none], counted⟩
  bases b edge := by
    have isClass := Tree.isClass_of_inherits edge.inherits
    simp [isPlain] at isClass
  virtualBases v has := by
    have isClass := has.isClass
    simp [isPlain] at isClass
  primary v named := by
    rw [Known.virtualPrimary?_eq laid, RecordLayout.virtualPrimaryBase?, RecordLayout.primaryBase?,
      asClass] at named
    cases named

theorem Itanium.AllSeated.located {f : Frame} {st : State} {part : ClassLayout}
    (seated : AllSeated f st) (laid : known.record f.record = .ok layout)
    (asClass : layout.asClass = some part) (bases : part.baseOffsets = st.baseOffsets)
    (slots : part.virtualBaseSlots = st.virtualBaseSlots)
    (primary : part.primaryBase = st.primaryBase) (isClass : f.declaration.isClass = true)
    (counted : layout.fieldOffsets.length = f.declaration.fields.length) :
    Located f.setting known f.record where
  laid := ⟨layout, laid, by rw [asClass, Option.isSome_some]; exact isClass.symm, counted⟩
  bases b edge := by
    rw [Known.baseOffset?, Known.classLayout?_eq laid, asClass, Option.bind_some, bases]
    exact seated.base b edge
  virtualBases v has := by
    rw [Known.virtualBaseOffset?, Known.classLayout?_eq laid, asClass, Option.bind_some, slots,
      Option.isSome_map]
    exact seated.virtualBase v has
  primary v named := by
    rw [Known.virtualPrimary?_eq laid, RecordLayout.virtualPrimaryBase?, RecordLayout.primaryBase?,
      asClass, Option.bind_some, primary] at named
    obtain ⟨⟨b, isVirtual⟩, chosen, rfl⟩ := Option.map_eq_some_iff.mp named
    obtain ⟨chosen, rfl⟩ := Option.filter_eq_some_iff.mp chosen
    exact seated.primary b chosen

namespace Setting.Knows

variable (knows : s.Knows known) (itanium : s.usesMicrosoftLayout = false)
include knows itanium

/-- By induction along what a record holds: in the layouts of its bases everything is there, so the
graph of the bases can be built and every base gets into the tables. -/
theorem located (laid : known.record r = .ok layout) : Located s known r := by
  have grounded := (knows.grounded laid).transGen
  induction grounded generalizing layout with
  | intro r _ ih =>
  have counted := RecordLayout.ofRecord_counted (knows.record laid)
  have rules := (RecordLayout.ofRecord_itanium itanium (knows.record laid)).2
  have acyclic : s.tree.Acyclic r := (knows.grounded laid).mono fun _ _ => Tree.Inherits.holds
  have below {b : RecordId} (path : Relation.TransGen s.tree.Inherits r b) : Located s known b := by
    have path := SoundBelow.inherits path
    obtain ⟨inner, found⟩ := knows.reached ⟨layout, laid⟩ path.to_reflTransGen
    exact ih b path found
  have basesLaid : Itanium.BasesLaid s known r := fun b path =>
    (below path).laid.imp fun inner ⟨found, isClass, _⟩ => ⟨found, isClass⟩
  have primaries : Itanium.PrimariesInherited s known r := fun b v path => (below path).primary v
  unfold Itanium.layout Itanium.layoutTracking at rules
  dsimp only at rules
  split at rules
  · rename_i isClass
    obtain ⟨st, part, seated, asClass, bases, slots, primary⟩ :=
      (Itanium.layClass_seats (f := Itanium.Frame.ofRecord s r (s.suppliedLayout? r)) basesLaid
        primaries acyclic .pruned).holds rules
    exact seated.located laid asClass bases slots primary isClass counted
  · rename_i isPlain
    unfold Itanium.layPlain at rules
    obtain ⟨st₀, _, rules⟩ := LayoutM.eval_bind_eq_ok.mp rules
    obtain ⟨st₁, _, rules⟩ := LayoutM.eval_bind_eq_ok.mp rules
    obtain ⟨st₂, _, rules⟩ := LayoutM.eval_bind_eq_ok.mp rules
    cases rules
    exact .of_plain laid (Bool.eq_false_iff.mpr isPlain) rfl counted

theorem legible (laid : ∃ layout, known.record r = .ok layout) : Legible s known r where
  grounded := knows.grounded laid.choose_spec
  located m path := by
    obtain ⟨layout, found⟩ := knows.reached laid path
    exact knows.located itanium found

end Setting.Knows

end ObjectLayout
